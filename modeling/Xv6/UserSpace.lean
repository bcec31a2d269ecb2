import Xv6.VmProc

/-! The user memory of one process beside everything else: what its pages hold,
and what a copy-on-write fault does to it. -/
namespace Xv6

open Function

/-- User memory as the process sees it: the pages it may use and their bytes. -/
@[ext] structure UserMem where
  user : Nat → Bool
  page : Nat → Bytes

/-- The user memory behind the first `n` entries of a page table. -/
def userMem (s : Phys) (f : Nat → Pte) (n : Nat) : UserMem where
  user k := decide (k < n) && (f k).has PTE_U
  page k := if k < n then s.mem (PTE2PA (f k)) else fun _ => 0

def UserMem.empty : UserMem := ⟨fun _ => false, fun _ _ => 0⟩

theorem userMem_empty (s : Phys) (f : Nat → Pte) : userMem s f 0 = UserMem.empty := by
  ext k <;> simp [userMem, UserMem.empty]

def UserMem.write (m : UserMem) (v off : Nat) (src : List UInt8) : UserMem :=
  { m with page := update m.page v (blit (m.page v) off src) }

def UserMem.userByte (m : UserMem) (va : Nat) : Prop := va < MAXVA ∧ m.user (va/PGSIZE) = true

instance (m : UserMem) (va : Nat) : Decidable (m.userByte va) := inferInstanceAs (Decidable (_ ∧ _))

def UserMem.byte (m : UserMem) (x : Nat) : UInt8 := m.page (x/PGSIZE) (x%PGSIZE)

section Pages
variable {f g : Nat → Pte} {n v : Nat}

def otherPages (f : Nat → Pte) (n v : Nat) : List Nat := pagesOf f 0 v ++ pagesOf f (v+1) (n-(v+1))

theorem pagesOf_append (f : Nat → Pte) (v a b : Nat) :
    pagesOf f v (a+b) = pagesOf f v a ++ pagesOf f (v+a) b := by
  simp only [pagesOf, ← List.map_append, List.range'_append_1]

theorem pagesOf_split (hv : v < n) : (pagesOf f 0 n).Perm (PTE2PA (f v) :: otherPages f n v) := by
  have hn : n = v + ((n-(v+1))+1) := by omega
  have hs : pagesOf f 0 n = pagesOf f 0 v ++ (PTE2PA (f v) :: pagesOf f (v+1) (n-(v+1))) := by
    conv_lhs => rw [hn]
    rw [pagesOf_append, Nat.zero_add, pagesOf_succ]
  rw [hs]
  exact List.perm_middle

theorem otherPages_congr (h : ∀ k, k ≠ v → g k = f k) : otherPages g n v = otherPages f n v := by
  unfold otherPages
  rw [pagesOf_congr fun k _ hk => h k (by omega), pagesOf_congr fun k hk _ => h k (by omega)]

theorem pagesOf_inj (h : (pagesOf f 0 n).Nodup) {j k : Nat} (hj : j < n) (hk : k < n)
    (he : PTE2PA (f j) = PTE2PA (f k)) : j = k := by
  by_contra hne
  have hnd := (pagesOf_split hj).nodup_iff.mp h
  apply (List.nodup_cons.mp hnd).1
  rw [he]
  unfold otherPages
  rw [List.mem_append, mem_pagesOf, mem_pagesOf]
  rcases Nat.lt_or_ge k j with hlt | hge
  · exact Or.inl ⟨k, by omega, by omega, rfl⟩
  · exact Or.inr ⟨k, by omega, by omega, rfl⟩

end Pages

variable [Layout]

/-- The page table of a process with `n` user pages, beside the kernel pages `F`
and the user mappings `U` of everybody else. A writable page is nobody else's. -/
structure Own (s : Phys) (pt : Nat) (f : Nat → Pte) (F U : List Nat) (n tf : Nat) : Prop where
  maps : Maps s pt f F (pagesOf f 0 n ++ U)
  map : UserMap f n tf
  nodup : (pagesOf f 0 n).Nodup
  write : ∀ k < n, (f k).has PTE_W = true → PTE2PA (f k) ∉ U

section Facts
variable {s s' : Phys} {pt n tf v : Nat} {f f' : Nat → Pte} {F U F' U' : List Nat}

theorem Own.page_mem (_ : Own s pt f F U n tf) (hv : v < n) : PTE2PA (f v) ∈ pagesOf f 0 n :=
  mem_pagesOf.mpr ⟨v, Nat.zero_le _, by omega, rfl⟩

theorem Own.page_managed (h : Own s pt f F U n tf) (hv : v < n) : Managed (PTE2PA (f v)) :=
  h.maps.ledger.managed _ (Or.inr (List.mem_append_left _ (h.page_mem hv)))

theorem Own.maps_at (h : Own s pt f F U n tf) (hv : v < n) :
    Maps s pt f F (PTE2PA (f v) :: (otherPages f n v ++ U)) :=
  h.maps.perm (List.Perm.refl _) ((pagesOf_split hv).append_right U)

theorem Own.shared_iff (h : Own s pt f F U n tf) (hv : v < n) :
    PTE2PA (f v) ∈ otherPages f n v ++ U ↔ PTE2PA (f v) ∈ U := by
  have hn := (List.nodup_cons.mp ((pagesOf_split hv).nodup_iff.mp h.nodup)).1
  rw [List.mem_append]
  exact or_iff_right hn

theorem Own.ref_gt_one (h : Own s pt f F U n tf) (hv : v < n) :
    1 < s.ref (PTE2PA (f v)) ↔ PTE2PA (f v) ∈ U := by
  have hl := (h.maps_at hv).ledger
  have href := hl.ref_of_mem (PTE2PA (f v)) (Or.inr (by simp))
  have hK : PTE2PA (f v) ∉ tables s.mem 2 pt ++ F := fun hk => hl.disjoint _ hk (by simp)
  rw [List.count_eq_zero_of_not_mem hK, List.count_cons_self, Nat.zero_add] at href
  rw [← h.shared_iff hv, ← List.count_pos_iff, href]
  omega

/-- One entry moves to a page that is not shared, with the same user bit and the
same bytes behind it. -/
theorem Own.replace (h : Own s pt f F U n tf) (hv : v < n) {w : Pte} (hw : UserPte w)
    (hm : Maps s' pt (update f v w) F (PTE2PA w :: (otherPages f n v ++ U)))
    (hfresh : PTE2PA w ∉ otherPages f n v ++ U) : Own s' pt (update f v w) F U n tf := by
  have hold : otherPages (update f v w) n v = otherPages f n v :=
    otherPages_congr fun k hk => update_of_ne hk _ _
  have hsplit := pagesOf_split (f := update f v w) hv
  rw [update_self, hold] at hsplit
  refine ⟨hm.perm (List.Perm.refl _) (hsplit.append_right U).symm, h.map.updated hv hw, ?_, ?_⟩
  · rw [hsplit.nodup_iff, List.nodup_cons]
    refine ⟨fun hin => hfresh (List.mem_append_left _ hin), ?_⟩
    exact (List.nodup_cons.mp ((pagesOf_split hv).nodup_iff.mp h.nodup)).2
  · intro k hk hkw
    by_cases hkv : k = v
    · subst hkv
      rw [update_self]
      exact fun hin => hfresh (List.mem_append_right _ hin)
    · rw [update_of_ne hkv] at hkw ⊢
      exact h.write k hk hkw

omit [Layout] in
theorem userMem_replace {w : Pte} (hv : v < n) (hu : w.has PTE_U = (f v).has PTE_U)
    (hc : s'.mem (PTE2PA w) = s.mem (PTE2PA (f v)))
    (ho : ∀ k < n, k ≠ v → s'.mem (PTE2PA (f k)) = s.mem (PTE2PA (f k))) :
    userMem s' (update f v w) n = userMem s f n := by
  ext k
  · simp only [userMem]
    by_cases hkv : k = v
    · subst hkv
      rw [update_self, hu]
    · rw [update_of_ne hkv]
  · simp only [userMem]
    by_cases hk : k < n
    · rw [if_pos hk, if_pos hk]
      by_cases hkv : k = v
      · subst hkv
        rw [update_self, hc]
      · rw [update_of_ne hkv, ho k hk hkv]
    · rw [if_neg hk, if_neg hk]

end Facts

omit [Layout] in
/-- The process sees the same memory while its pages keep their content. -/
theorem userMem_congr {s s' : Phys} {f : Nat → Pte} {n : Nat}
    (h : ∀ k < n, s'.mem (PTE2PA (f k)) = s.mem (PTE2PA (f k))) : userMem s' f n = userMem s f n := by
  ext k
  · rfl
  · simp only [userMem]
    by_cases hk : k < n
    · rw [if_pos hk, if_pos hk, h k hk]
    · rw [if_neg hk, if_neg hk]

theorem Own.setPage {s : Phys} {pt n tf pa : Nat} {f : Nat → Pte} {F U : List Nat}
    (h : Own s pt f F U n tf) (hpa : pa ∈ F) (b : Bytes) :
    Own (s.setPage pa b) pt f F U n tf ∧ userMem (s.setPage pa b) f n = userMem s f n := by
  refine ⟨⟨h.maps.setPage (Or.inl hpa) b, h.map, h.nodup, h.write⟩, userMem_congr fun k hk => ?_⟩
  rw [setPage_mem, update_of_ne]
  rintro rfl
  exact h.maps.ledger.disjoint _ (List.mem_append_right _ hpa)
    (List.mem_append_left _ (h.page_mem hk))

/-- What a copy-on-write fault on page `v` leaves behind. -/
structure Repaired (s : Phys) (pt : Nat) (f : Nat → Pte) (F U : List Nat) (n tf v : Nat)
    (f' : Nat → Pte) (s' : Phys) : Prop where
  own : Own s' pt f' F U n tf
  other : ∀ k, k ≠ v → f' k = f k
  user : (f' v).has PTE_U = (f v).has PTE_U
  mem : userMem s' f' n = userMem s f n
  frame : Frame s s' F U
  pages : ∀ pa ∈ pagesOf f' 0 n, pa ∈ U → pa ∈ pagesOf f 0 n
  free : s'.freelist.length = s.freelist.length - if PTE2PA (f v) ∈ U then 1 else 0
  writable : PTE2PA (f v) ∉ U ∨ s.freelist ≠ [] → (f' v).has PTE_W = true
  shared : PTE2PA (f' v) ∈ U → PTE2PA (f v) ∈ U ∧ s.freelist = []
  stay : PTE2PA (f v) ∈ U → s.freelist = [] → PTE2PA (f' v) = PTE2PA (f v)
  tables : tables s'.mem 2 pt = tables s.mem 2 pt

section Fault
variable {s : Phys} {pt n tf : Nat} {f : Nat → Pte} {F U : List Nat}

omit [Layout] in
theorem ownWord_flags (w : Pte) : (ownWord w).has PTE_W = true ∧
    (ownWord w).has PTE_U = w.has PTE_U := by
  rw [has_W, has_U, has_U, ownWord_bit 2 (by decide), ownWord_bit 4 (by decide)]
  simp

omit [Layout] in
theorem copyWord_flags (pa : Nat) {w : Pte} (hv : w.has PTE_V = true) :
    (mapWord pa (ownFlags w)).has PTE_W = true ∧
      (mapWord pa (ownFlags w)).has PTE_U = w.has PTE_U := by
  have hb := mapWord_ownFlags_bit pa hv
  have ho := ownWord_flags w
  rw [has_W, has_U] at ho ⊢
  rw [hb 2 (by decide), hb 4 (by decide)]
  exact ho

/-- `copy_on_write` of a page below the size of the process: the process sees the
same memory, and with memory to spare the page is its own afterwards. -/
theorem Own.copy_on_write (h : Own s pt f F U n tf) {va : Nat} (hv : va/PGSIZE < n) :
    Runs (copy_on_write pt va) s fun r s' =>
      (∃ f', Repaired s pt f F U n tf (va/PGSIZE) f' s') ∧
      r = if PTE2PA (f (va/PGSIZE)) ∈ U ∧ s.freelist = [] then -1 else 0 := by
  have hva : va < MAXVA := by
    have hs := h.map.size
    have hT : TFPAGE < VPAGES := by decide
    exact page_lt_iff.mp (by omega)
  have hu := h.map.user _ hv
  refine (copy_on_write_spec (h.maps_at hv) hva hu.leaf).imp ?_
  set v := va/PGSIZE with hvdef
  have hsub {g : Nat → Pte} (hg : otherPages g n v = otherPages f n v) :
      ∀ pa, pa ∈ pagesOf g 0 n → pa = PTE2PA (g v) ∨ pa ∈ pagesOf f 0 n := by
    intro pa hpa
    rw [(pagesOf_split hv).mem_iff, List.mem_cons, hg] at hpa
    refine hpa.imp_right fun hin => ?_
    exact (pagesOf_split hv).mem_iff.mpr (List.mem_cons_of_mem _ hin)
  have hup (w : Pte) : otherPages (update f v w) n v = otherPages f n v :=
    otherPages_congr fun k hk => update_of_ne hk _ _
  rintro r s' (⟨_, hU, hmaps, hfr, hfree, htab⟩ | ⟨hU, hf⟩ |
    ⟨_, new, hU, hmaps, hfr, hcont, hfree, htab⟩)
  · -- Nobody else has the page: only its permissions change.
    have hU' := fun hin => hU ((h.shared_iff hv).mpr hin)
    obtain ⟨hW, hUs⟩ := ownWord_flags (f v)
    refine ⟨⟨update f v (ownWord (f v)), ?_⟩, by rw [if_neg (by tauto)]⟩
    have hkeep (q : Nat) (hq : q ∈ pagesOf f 0 n) : s'.mem q = s.mem q := by
      apply hfr q (Kept.user _)
      have := (pagesOf_split hv).mem_iff.mp hq
      rw [List.mem_cons] at this ⊢
      exact this.imp_right (List.mem_append_left _)
    exact {
      own := h.replace hv (userPte_own hu) (by rw [ownWord_pa]; exact hmaps)
        (by rw [ownWord_pa]; exact hU)
      other := fun k hk => update_of_ne hk _ _
      user := by rw [update_self]; exact hUs
      mem := userMem_replace hv hUs (by rw [ownWord_pa]; exact hkeep _ (h.page_mem hv))
        fun k hk _ => hkeep _ (h.page_mem hk)
      frame := fun q hq => hfr q (hq.mono (List.Subset.refl _)
        (List.Subset.trans (List.subset_append_right _ _) (List.subset_cons_self _ _)))
      pages := fun pa hpa hin => by
        rcases hsub (hup _) pa hpa with he | ho
        · rw [update_self, ownWord_pa] at he
          exact absurd (he ▸ hin) hU'
        · exact ho
      free := by rw [if_neg hU', hfree]; rfl
      writable := fun _ => by rw [update_self]; exact hW
      shared := fun hin => by
        rw [update_self, ownWord_pa] at hin
        exact absurd hin hU'
      stay := fun _ _ => by rw [update_self, ownWord_pa]
      tables := htab }
  · have hU' := (h.shared_iff hv).mp hU
    refine ⟨⟨f, ?_⟩, by rw [if_pos ⟨hU', hf⟩]⟩
    exact {
      own := h
      other := fun _ _ => rfl
      user := rfl
      mem := rfl
      frame := fun _ _ => rfl
      pages := fun _ hpa _ => hpa
      free := by rw [hf, List.length_nil, Nat.zero_sub]
      writable := fun hc => by tauto
      shared := fun _ => ⟨hU', hf⟩
      stay := fun _ _ => rfl
      tables := rfl }
  · -- A copy takes the place of the shared page.
    have hU' := (h.shared_iff hv).mp hU
    obtain ⟨hW, hUs⟩ := copyWord_flags new hu.v
    have hman : Managed new := hmaps.ledger.managed new (Or.inr (by simp))
    have hpa : PTE2PA (mapWord new (ownFlags (f v))) = new := managed_word hman _ ownFlags_lt
    have hnew : new ∉ PTE2PA (f v) :: (otherPages f n v ++ U) :=
      ((h.maps_at hv).ledger.free_not_mem (by rw [hfree]; simp)).2
    have hne : s.freelist ≠ [] := by rw [hfree]; simp
    refine ⟨⟨update f v (mapWord new (ownFlags (f v))), ?_⟩, by rw [if_neg (by tauto)]⟩
    exact {
      own := h.replace hv (userPte_ownFlags hu) (by rw [hpa]; exact hmaps)
        (by rw [hpa]; exact fun hin => hnew (List.mem_cons_of_mem _ hin))
      other := fun k hk => update_of_ne hk _ _
      user := by rw [update_self]; exact hUs
      mem := userMem_replace hv hUs (by rw [hpa]; exact hcont) fun k hk hkv => by
        apply hfr _ (Kept.user (List.mem_append_left _ _))
        have hin := (pagesOf_split hv).mem_iff.mp (h.page_mem hk)
        rcases List.mem_cons.mp hin with he | hin
        · exact absurd (pagesOf_inj h.nodup hk hv he) hkv
        · exact hin
      frame := fun q hq => hfr q (hq.mono (List.Subset.refl _) (List.subset_append_right _ _))
      pages := fun pa hpa' hin => by
        rcases hsub (hup _) pa hpa' with he | ho
        · rw [update_self, hpa] at he
          exact absurd (he ▸ List.mem_cons_of_mem _ (List.mem_append_right _ hin)) hnew
        · exact ho
      free := by rw [if_pos hU', hfree]; rfl
      writable := fun _ => by rw [update_self]; exact hW
      shared := fun hin => by
        rw [update_self, hpa] at hin
        exact absurd (List.mem_cons_of_mem _ (List.mem_append_right _ hin)) hnew
      stay := fun _ hempty => absurd hempty hne
      tables := htab }

end Fault

end Xv6
