import Xv6.VmCopyout

/-! Growing and shrinking the user memory of one process. -/
namespace Xv6

/-- Memory of `n` pages resized to `n'`: what is new is zero. -/
def UserMem.resize (m : UserMem) (n n' : Nat) : UserMem where
  user k := decide (k < n') && (decide (n ≤ k) || m.user k)
  page k := if k < n' ∧ k < n then m.page k else fun _ => 0

variable [Layout]

section Room

omit [Layout] in
theorem nodup_length_le {l : List Nat} {N : Nat} (hn : l.Nodup) (hlt : ∀ i ∈ l, i < N) :
    l.length ≤ N := by
  have hsub := List.subperm_of_subset hn fun i hi => List.mem_range.mpr (hlt i hi)
  simpa using hsub.length_le

theorem managed_length {l : List Nat} (hn : l.Nodup) (hm : ∀ pa ∈ l, Managed pa) :
    l.length ≤ PAGE_COUNT := by
  have hinj : (l.map PA2PAGE_ID).Nodup := by
    rw [List.nodup_map_iff_inj_on hn]
    intro a ha b hb he
    exact page_id_inj (hm a ha) (hm b hb) he
  have hlt : ∀ i ∈ l.map PA2PAGE_ID, i < PAGE_COUNT := by
    intro i hi
    obtain ⟨pa, hpa, rfl⟩ := List.mem_map.mp hi
    obtain ⟨-, hge, hlt⟩ := hm pa hpa
    have hk : KERNBASE ≤ pa := (Layout.tramp_ge.trans Layout.tramp_lt.le).trans hge
    have htop : PHYSTOP = KERNBASE + PAGE_COUNT*PGSIZE := by decide
    unfold PA2PAGE_ID
    rw [Nat.div_lt_iff_lt_mul (by decide)]
    omega
  have hlen := nodup_length_le hinj hlt
  rwa [List.length_map] at hlen

variable {s : Phys} {pt n tf : Nat} {f : Nat → Pte} {F U : List Nat}

/-- The pages of a process and the free pages together fit below the trapframe. -/
theorem Own.room (h : Own s pt f F U n tf) : n + s.freelist.length ≤ PAGE_COUNT := by
  have hl := h.maps.ledger
  have hnd : (pagesOf f 0 n ++ s.freelist).Nodup := by
    rw [List.nodup_append]
    refine ⟨h.nodup, hl.free_nodup, fun a ha b hb => ?_⟩
    rintro rfl
    exact (hl.free_not_mem hb).2 (List.mem_append_left _ ha)
  have hlen := managed_length hnd fun pa hpa => by
    rcases List.mem_append.mp hpa with hin | hin
    · exact hl.managed pa (Or.inr (List.mem_append_left _ hin))
    · exact hl.free_managed pa hin
  rw [List.length_append] at hlen
  simpa [pagesOf] using hlen

omit [Layout] in
theorem PAGE_COUNT_eq : PAGE_COUNT = 32768 := by decide

omit [Layout] in
/-- A size with so few pages is far from the end of a machine word. -/
theorem size_lt {sz : Nat} (h : npages sz ≤ PAGE_COUNT) : sz < 2^32 := by
  rw [PAGE_COUNT_eq] at h
  simp only [npages, PGSIZE] at h
  omega

end Room

/-- What is left of a process after its memory was resized to `n'` pages. -/
structure Resized (s : Phys) (pt : Nat) (f : Nat → Pte) (F U : List Nat) (n tf n' : Nat)
    (g : Nat → Pte) (s' : Phys) : Prop where
  own : Own s' pt g F U n' tf
  mem : userMem s' g n' = (userMem s f n).resize n n'
  frame : Frame s s' F U
  old : ∀ k, k < n → k < n' → g k = f k
  fresh : ∀ k, n ≤ k → k < n' → (g k).has PTE_W = true
  pages : ∀ pa ∈ pagesOf g 0 n', pa ∈ U → pa ∈ pagesOf f 0 n

section Resize
variable {s : Phys} {pt n tf : Nat} {f : Nat → Pte} {F U : List Nat}

omit [Layout] in
theorem userMem_resize_self (s : Phys) (f : Nat → Pte) (n : Nat) :
    (userMem s f n).resize n n = userMem s f n := by
  ext k
  · simp only [UserMem.resize, userMem]
    by_cases hk : k < n
    · simp [hk]
    · simp [hk]
  · simp only [UserMem.resize, userMem]
    by_cases hk : k < n
    · simp [hk]
    · simp [hk]

theorem Own.resized_refl (h : Own s pt f F U n tf) : Resized s pt f F U n tf n f s where
  own := h
  mem := (userMem_resize_self s f n).symm
  frame _ _ := rfl
  old _ _ _ := rfl
  fresh k h1 h2 := by omega
  pages _ hpa _ := hpa

omit [Layout] in
theorem fresh_flags (pa : Nat) : (mapWord pa userPerm).has PTE_W = true ∧
    (mapWord pa userPerm).has PTE_U = true := by
  rw [has_W, has_U, mapWord_bit userPerm 2 (by decide), mapWord_bit userPerm 4 (by decide)]
  decide

theorem Own.grown {n' : Nat} {g : Nat → Pte} {s' : Phys} (h : Own s pt f F U n tf) (hn : n ≤ n')
    (hg : Grown s pt f F (pagesOf f 0 n ++ U) n n' g s') (hn' : n' ≤ TFPAGE) :
    Resized s pt f F U n tf n' g s' := by
  have hold : pagesOf g 0 n = pagesOf f 0 n := pagesOf_congr fun k _ hk => hg.old k (by omega)
  have hsplit : pagesOf g 0 n' = pagesOf f 0 n ++ pagesOf g n (n'-n) := by
    rw [← hold, show n' = n + (n'-n) by omega, pagesOf_append, Nat.zero_add,
      show n + (n'-n) - n = n'-n by omega]
  have hperm : (pagesOf g n (n'-n) ++ (pagesOf f 0 n ++ U)).Perm (pagesOf g 0 n' ++ U) := by
    rw [hsplit, List.append_assoc]
    exact perm_two _ _ _
  have hlow (k : Nat) (hk : k < n) : g k = f k := hg.old k (by omega)
  have huser (k : Nat) (hk : k < n') : UserPte (g k) := by
    by_cases hkn : k < n
    · rw [hlow k hkn]
      exact h.map.user k hkn
    · obtain ⟨pa, -, he, -⟩ := hg.fresh k (by omega) hk
      rw [he]
      exact userPte_fresh
  refine ⟨⟨hg.maps.perm (List.Perm.refl _) hperm, ?_, ?_, ?_⟩, ?_, ?_, fun k hk _ => hlow k hk, ?_, ?_⟩
  · apply h.map.resize hn' huser
    · intro k h1 h2
      rw [hg.old k (by omega)]
      exact h.map.gap k (by omega) h2
    · intro k hk
      exact hg.old k (by omega)
  · rw [hsplit, List.nodup_append]
    refine ⟨h.nodup, hg.nodup, fun a ha b hb => ?_⟩
    rintro rfl
    exact hg.apart a hb (List.mem_append_left _ ha)
  · intro k hk hw
    by_cases hkn : k < n
    · rw [hlow k hkn] at hw ⊢
      exact h.write k hkn hw
    · have hin : PTE2PA (g k) ∈ pagesOf g n (n'-n) := mem_pagesOf.mpr ⟨k, by omega, by omega, rfl⟩
      exact fun hU => hg.apart _ hin (List.mem_append_right _ hU)
  · ext k
    · simp only [userMem, UserMem.resize]
      by_cases hk : k < n'
      · by_cases hkn : k < n
        · rw [hlow k hkn]
          simp [hk, hkn]
        · obtain ⟨pa, -, he, -⟩ := hg.fresh k (by omega) hk
          rw [he, (fresh_flags pa).2]
          simp [hk, show n ≤ k by omega]
      · simp [hk]
    · simp only [userMem, UserMem.resize]
      by_cases hk : k < n'
      · by_cases hkn : k < n
        · simp only [hk, hkn, and_self, if_true, hlow k hkn]
          rw [hg.frame _ (Kept.user (List.mem_append_left _ (h.page_mem hkn)))]
        · obtain ⟨pa, hman, he, hz⟩ := hg.fresh k (by omega) hk
          rw [if_pos hk, if_neg (by omega), he, managed_mapWord hman _ userPerm_lt, hz]
      · rw [if_neg hk, if_neg (by omega)]
  · intro q hq
    exact hg.frame q (hq.mono (List.Subset.refl _) (List.subset_append_right _ _))
  · intro k h1 h2
    obtain ⟨pa, -, he, -⟩ := hg.fresh k h1 h2
    rw [he]
    exact (fresh_flags pa).1
  · intro pa hpa hU
    rw [hsplit, List.mem_append] at hpa
    rcases hpa with hin | hin
    · exact hin
    · exact absurd (List.mem_append_right _ hU) (hg.apart pa hin)

/-- `uvmalloc` on the memory of a process: as large as asked for, or as before. -/
theorem Own.uvmalloc {sz : Nat} (h : Own s pt f F U (npages sz) tf) (newsz : Nat) :
    Runs (uvmalloc pt sz newsz) s fun r s' =>
      (r = max sz newsz ∧
        (∃ g, Resized s pt f F U (npages sz) tf (npages (max sz newsz)) g s') ∧
        s.freelist.length ≤ s'.freelist.length + 3*(npages newsz - npages sz)) ∨
      (r = 0 ∧ sz ≤ newsz ∧ Resized s pt f F U (npages sz) tf (npages sz) f s' ∧
        s.freelist.length ≤ 3*(npages newsz - npages sz)) := by
  have hroom := h.room
  have hT : PAGE_COUNT ≤ TFPAGE := by decide
  have hsz : sz < 2^32 := size_lt (by omega)
  refine (uvmalloc_spec h.maps (hsz.trans (by decide)) h.map.gap (by omega)).imp ?_
  rintro r s' (⟨hlt, rfl, rfl⟩ | ⟨hle, rfl, ⟨g, hg⟩, hused⟩ | ⟨hle, rfl, hm, hfr, hfew⟩)
  · rw [max_eq_left hlt.le]
    exact Or.inl ⟨rfl, ⟨f, h.resized_refl⟩, by omega⟩
  · rw [max_eq_right hle]
    have hr := hg.room
    exact Or.inl ⟨rfl, ⟨g, h.grown (npages_mono hle) hg (by omega)⟩, hused⟩
  · refine Or.inr ⟨rfl, hle, ⟨⟨hm, h.map, h.nodup, h.write⟩, ?_, ?_, fun _ _ _ => rfl,
      fun k h1 h2 => by omega, fun _ hpa _ => hpa⟩, hfew⟩
    · rw [userMem_resize_self]
      exact userMem_congr fun k hk =>
        hfr _ (Kept.user (List.mem_append_left _ (h.page_mem hk)))
    · intro q hq
      exact hfr q (hq.mono (List.Subset.refl _) (List.subset_append_right _ _))

theorem Own.uvmdealloc {sz : Nat} (h : Own s pt f F U (npages sz) tf) (newsz : Nat) :
    Runs (uvmdealloc pt sz newsz) s fun r s' => r = min sz newsz ∧
      ∃ g, Resized s pt f F U (npages sz) tf (npages (min sz newsz)) g s' := by
  have hroom := h.room
  have hT : PAGE_COUNT ≤ TFPAGE := by decide
  have hTV : TFPAGE ≤ VPAGES := by decide
  have hsz : sz < 2^32 := size_lt (by omega)
  have hmin : npages (min sz newsz) = min (npages sz) (npages newsz) := by
    rcases Nat.le_total sz newsz with hle | hle
    · rw [min_eq_left hle, min_eq_left (npages_mono hle)]
    · rw [min_eq_right hle, min_eq_right (npages_mono hle)]
  rw [hmin]
  set n := npages sz with hn
  set n' := npages newsz with hn'
  have hsplit : pagesOf f 0 n = pagesOf f 0 (min n n') ++ pagesOf f n' (n-n') := by
    rcases Nat.le_total n n' with hle | hle
    · rw [min_eq_left hle, Nat.sub_eq_zero_of_le hle]
      simp [pagesOf]
    · rw [min_eq_right hle]
      conv_lhs => rw [show n = n' + (n-n') by omega]
      rw [pagesOf_append, Nat.zero_add]
  have hperm : (pagesOf f 0 n ++ U).Perm (pagesOf f n' (n-n') ++ (pagesOf f 0 (min n n') ++ U)) := by
    rw [hsplit, List.append_assoc]
    exact perm_two _ _ _
  refine (uvmdealloc_spec (hsz.trans (by decide)) (h.maps.perm (List.Perm.refl _) hperm) (by omega)
    fun k _ hk => (h.map.user k hk).leaf).imp ?_
  rintro r s' ⟨rfl, hu⟩
  have hlow (k : Nat) (hk : k < n') : dropRange f n' (n-n') k = f k := if_neg (by omega)
  have hpages : pagesOf (dropRange f n' (n-n')) 0 (min n n') = pagesOf f 0 (min n n') :=
    pagesOf_congr fun k _ hk => hlow k (by omega)
  have hsub : ∀ pa ∈ pagesOf f 0 (min n n'), pa ∈ pagesOf f 0 n := fun pa hpa => by
    rw [hsplit]
    exact List.mem_append_left _ hpa
  refine ⟨rfl, dropRange f n' (n-n'), ⟨by rw [hpages]; exact hu.maps, ?_, ?_, ?_⟩, ?_, ?_, ?_, ?_, ?_⟩
  · have hs := h.map.size
    apply h.map.resize (by omega)
    · intro k hk
      rw [hlow k (by omega)]
      exact h.map.user k (by omega)
    · intro k h1 h2
      simp only [dropRange]
      split_ifs with hk
      · rfl
      · exact h.map.gap k (by omega) h2
    · intro k hk
      simp only [dropRange]
      rw [if_neg (by omega)]
  · rw [hpages]
    have hnd := h.nodup
    rw [hsplit] at hnd
    exact (List.nodup_append.mp hnd).1
  · intro k hk hw
    rw [hlow k (by omega)] at hw ⊢
    exact h.write k (by omega) hw
  · ext k
    · simp only [userMem, UserMem.resize]
      by_cases hk : k < min n n'
      · rw [hlow k (by omega)]
        simp [show k < n by omega, show k < n' by omega]
      · rw [decide_eq_false hk, Bool.false_and, Bool.false_and]
    · simp only [userMem, UserMem.resize]
      by_cases hk : k < min n n'
      · rw [if_pos hk, if_pos ⟨hk, by omega⟩, if_pos (by omega), hlow k (by omega)]
        rw [hu.frame _ (Kept.user (List.mem_append_left _ (mem_pagesOf.mpr
          ⟨k, Nat.zero_le _, by omega, rfl⟩)))]
      · rw [if_neg hk, if_neg (by omega)]
  · intro q hq
    exact hu.frame q (hq.mono (List.Subset.refl _) (List.subset_append_right _ _))
  · intro k _ hk
    exact hlow k (by omega)
  · intro k h1 h2
    omega
  · intro pa hpa _
    rw [hpages] at hpa
    exact hsub pa hpa

end Resize

end Xv6
