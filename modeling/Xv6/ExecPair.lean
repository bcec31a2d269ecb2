import Xv6.VmCopyin

/-! Two address spaces of one process side by side, as `exec` has them until it
commits: the image that runs and the image being built. -/
namespace Xv6

open Function
variable [Layout]

/-- The user pages of each space are among the mappings beside the other. -/
structure Pair (s : Phys) (old new : Nat) (f g : Nat → Pte) (F U : List Nat) (n m tf : Nat) :
    Prop where
  left : Own s old f (tables s.mem 2 new ++ F) (pagesOf g 0 m ++ U) n tf
  right : Own s new g (tables s.mem 2 old ++ F) (pagesOf f 0 n ++ U) m tf

section Change
variable {s s' : Phys} {old new n m n' m' tf : Nat} {f g f' g' : Nat → Pte} {F U : List Nat}

theorem Pair.symm (h : Pair s old new f g F U n m tf) : Pair s new old g f F U m n tf :=
  ⟨h.right, h.left⟩

theorem Pair.change_right (h : Pair s old new f g F U n m tf)
    (hown : Own s' new g' (tables s.mem 2 old ++ F) (pagesOf f 0 n ++ U) m' tf)
    (hfr : Frame s s' (tables s.mem 2 old ++ F) (pagesOf f 0 n ++ U))
    (hpages : ∀ pa ∈ pagesOf g' 0 m', pa ∈ pagesOf f 0 n ++ U → pa ∈ pagesOf g 0 m) :
    Pair s' old new f g' F U n m' tf ∧ userMem s' f n = userMem s f n := by
  have htab : ∀ q ∈ tables s.mem 2 old, s'.mem q = s.mem q := fun q hq =>
    hfr q (Kept.kernel (List.mem_append_left _ hq))
  have hT := tables_congr htab
  refine ⟨⟨⟨⟨?_, ?_, ?_⟩, h.left.map, h.left.nodup, ?_⟩, by rw [hT]; exact hown⟩, ?_⟩
  · rw [hT]
    exact hown.maps.ledger.perm (perm_two _ _ _) (perm_two _ _ _)
  · exact linked_congr htab h.left.maps.linked
  · intro v hv
    rw [pteAt_congr htab]
    exact h.left.maps.pte v hv
  · intro k hk hw hin
    apply h.left.write k hk hw
    rcases List.mem_append.mp hin with hin | hin
    · exact List.mem_append_left _ (hpages _ hin (List.mem_append_left _ (h.left.page_mem hk)))
    · exact List.mem_append_right _ hin
  · exact userMem_congr fun k hk => hfr _ (Kept.user (List.mem_append_left _ (h.left.page_mem hk)))

theorem Pair.change_left (h : Pair s old new f g F U n m tf)
    (hown : Own s' old f' (tables s.mem 2 new ++ F) (pagesOf g 0 m ++ U) n' tf)
    (hfr : Frame s s' (tables s.mem 2 new ++ F) (pagesOf g 0 m ++ U))
    (hpages : ∀ pa ∈ pagesOf f' 0 n', pa ∈ pagesOf g 0 m ++ U → pa ∈ pagesOf f 0 n) :
    Pair s' old new f' g F U n' m tf ∧ userMem s' g m = userMem s g m := by
  obtain ⟨h1, h2⟩ := h.symm.change_right hown hfr hpages
  exact ⟨h1.symm, h2⟩

/-- A new space that nobody else has pages of. -/
def Writable (g : Nat → Pte) (m : Nat) : Prop := ∀ k < m, (g k).has PTE_W = true

/-- What a step of `exec` on the image being built leaves of the old image. -/
structure Built (s : Phys) (old new : Nat) (f : Nat → Pte) (F U : List Nat) (n tf : Nat)
    (f' g' : Nat → Pte) (m' : Nat) (mem : UserMem) (s' : Phys) : Prop where
  pair : Pair s' old new f' g' F U n m' tf
  writable : Writable g' m'
  mem : userMem s' g' m' = mem
  tables : tables s'.mem 2 old = tables s.mem 2 old
  old : userMem s' f' n = userMem s f n
  frame : Frame s s' F U
  pages : ∀ pa ∈ pagesOf f' 0 n, pa ∈ U → pa ∈ pagesOf f 0 n
  kept : ∀ v < n, (f v).has PTE_COW = false → f' v = f v

theorem Built.trans {s0 : Phys} {f0 : Nat → Pte} {mem mem' : UserMem}
    (h : Built s0 old new f0 F U n tf f g m mem s)
    (h' : Built s old new f F U n tf f' g' m' mem' s') :
    Built s0 old new f0 F U n tf f' g' m' mem' s' :=
  ⟨h'.pair, h'.writable, h'.mem, h'.tables.trans h.tables, h'.old.trans h.old,
    h.frame.trans h'.frame, fun pa hpa hU => h.pages pa (h'.pages pa hpa hU) hU,
    fun v hv hc => by
      have he := h.kept v hv hc
      rw [← he] at hc
      rw [h'.kept v hv hc, he]⟩

theorem Pair.built_refl (h : Pair s old new f g F U n m tf) (hw : Writable g m) :
    Built s old new f F U n tf f g m (userMem s g m) s :=
  ⟨h, hw, rfl, rfl, rfl, fun _ _ => rfl, fun _ hpa _ => hpa, fun _ _ _ => rfl⟩

theorem Pair.built_right (h : Pair s old new f g F U n m tf)
    (hown : Own s' new g' (tables s.mem 2 old ++ F) (pagesOf f 0 n ++ U) m' tf)
    (hfr : Frame s s' (tables s.mem 2 old ++ F) (pagesOf f 0 n ++ U))
    (hpages : ∀ pa ∈ pagesOf g' 0 m', pa ∈ pagesOf f 0 n ++ U → pa ∈ pagesOf g 0 m)
    (hw : Writable g' m') : Built s old new f F U n tf f g' m' (userMem s' g' m') s' := by
  obtain ⟨hp, hold⟩ := h.change_right hown hfr hpages
  exact ⟨hp, hw, rfl, tables_congr fun q hq => hfr q (Kept.kernel (List.mem_append_left _ hq)),
    hold, fun q hq => hfr q (hq.mono (List.subset_append_right _ _)
      (List.subset_append_right _ _)), fun _ hpa _ => hpa, fun _ _ _ => rfl⟩

theorem Pair.write_page (h : Pair s old new f g F U n m tf) (hw : Writable g m) {v : Nat}
    (hv : v < m) (off : Nat) (src : List UInt8) :
    Built s old new f F U n tf f g m ((userMem s g m).write v off src)
      (s.setPage (PTE2PA (g v)) (blit (s.mem (PTE2PA (g v))) off src)) := by
  obtain ⟨hown, hmem⟩ := h.right.write_page hv off src
  rw [← hmem]
  exact h.built_right hown (h.right.write_frame hv (hw v hv) _) (fun _ hpa _ => hpa) hw

theorem Pair.uvmalloc {sz : Nat} (h : Pair s old new f g F U n (npages sz) tf)
    (hw : Writable g (npages sz)) (newsz : Nat) :
    Runs (uvmalloc new sz newsz) s fun r s' => ∃ g' sz',
      Built s old new f F U n tf f g' (npages sz')
        ((userMem s g (npages sz)).resize (npages sz) (npages sz')) s' ∧
      (r = max sz newsz ∧ sz' = max sz newsz ∧
          s.freelist.length ≤ s'.freelist.length + 3*(npages newsz - npages sz) ∨
        r = 0 ∧ sz' = sz ∧ s.freelist.length ≤ 3*(npages newsz - npages sz)) := by
  have hbuilt {sz' : Nat} {g' : Nat → Pte} {s' : Phys}
      (hr : Resized s new g (tables s.mem 2 old ++ F) (pagesOf f 0 n ++ U) (npages sz) tf
        (npages sz') g' s') : Built s old new f F U n tf f g' (npages sz')
          ((userMem s g (npages sz)).resize (npages sz) (npages sz')) s' := by
    rw [← hr.mem]
    refine h.built_right hr.own hr.frame hr.pages fun k hk => ?_
    by_cases hkn : k < npages sz
    · rw [hr.old k hkn hk]
      exact hw k hkn
    · exact hr.fresh k (by omega) hk
  refine (h.right.uvmalloc newsz).imp ?_
  rintro r s' (⟨rfl, ⟨g', hr⟩, hused⟩ | ⟨rfl, -, hr, hfew⟩)
  · exact ⟨g', _, hbuilt hr, Or.inl ⟨rfl, rfl, hused⟩⟩
  · exact ⟨g, sz, hbuilt hr, Or.inr ⟨rfl, rfl, hfew⟩⟩

def UserMem.guard (mem : UserMem) (v : Nat) : UserMem :=
  { mem with user := update mem.user v false }

omit [Layout] in
theorem guardWord_flags (w : Pte) : (guardWord w).has PTE_W = w.has PTE_W ∧
    (guardWord w).has PTE_U = false := by
  rw [has_W, has_W, has_U, guardWord_bit 2 (by decide), guardWord_bit 4 (by decide)]
  simp

theorem Pair.uvmclear (h : Pair s old new f g F U n m tf) (hw : Writable g m) {v : Nat}
    (hv : v < m) :
    Runs (uvmclear new (v*PGSIZE)) s fun _ s' => ∃ g',
      Built s old new f F U n tf f g' m ((userMem s g m).guard v) s' := by
  have hu := h.right.map.user v hv
  have hsize := h.right.map.size
  have hT : TFPAGE < VPAGES := by decide
  have hne : g v ≠ 0 := fun hz => by
    have hV := hu.v
    rw [hz] at hV
    exact absurd hV (by decide)
  refine (uvmclear_spec h.right.maps (by omega) hne).imp ?_
  rintro _ s' ⟨hm, hfr, -⟩
  set g' := update g v (guardWord (g v)) with hg'
  have hpa (k : Nat) : PTE2PA (g' k) = PTE2PA (g k) := by
    by_cases hk : k = v
    · subst hk
      rw [hg', update_self, guardWord_pa]
    · rw [hg', update_of_ne hk]
  have hpages : pagesOf g' 0 m = pagesOf g 0 m := List.map_congr_left fun k _ => hpa k
  have hkeep : Frame s s' (tables s.mem 2 old ++ F) (pagesOf f 0 n ++ U) := fun q hq =>
    hfr q (hq.mono (List.Subset.refl _) (List.subset_append_right _ _))
  have hflag (k : Nat) : (g' k).has PTE_W = (g k).has PTE_W := by
    by_cases hk : k = v
    · subst hk
      rw [hg', update_self, (guardWord_flags _).1]
    · rw [hg', update_of_ne hk]
  have hown : Own s' new g' (tables s.mem 2 old ++ F) (pagesOf f 0 n ++ U) m tf := by
    refine ⟨by rw [hpages]; exact hm, h.right.map.updated hv (userPte_guard hu), by
      rw [hpages]; exact h.right.nodup, fun k hk hkw => ?_⟩
    rw [hflag] at hkw
    rw [hpa]
    exact h.right.write k hk hkw
  have hmem : userMem s' g' m = (userMem s g m).guard v := by
    ext k
    · simp only [userMem, UserMem.guard]
      by_cases hk : k = v
      · subst hk
        rw [update_self, hg', update_self, (guardWord_flags _).2, Bool.and_false]
      · rw [update_of_ne hk, hg', update_of_ne hk]
    · simp only [userMem, UserMem.guard]
      by_cases hk : k < m
      · rw [if_pos hk, if_pos hk, hpa,
          hfr _ (Kept.user (List.mem_append_left _ (h.right.page_mem hk)))]
      · rw [if_neg hk, if_neg hk]
  refine ⟨g', ?_⟩
  rw [← hmem]
  refine h.built_right hown hkeep (fun pa hp _ => by rwa [hpages] at hp) fun k hk => ?_
  rw [hflag]
  exact hw k hk

end Change

section Copyout
variable {old new n m tf sz : Nat} {g : Nat → Pte} {F U : List Nat}

/-- `copyout` into the image being built. Its copy-on-write check looks at the
image that still runs, which keeps its bytes. -/
theorem Pair.copyoutLoop (hn : n = npages sz) (hw : Writable g m) (k : Nat) :
    ∀ (s : Phys) (f : Nat → Pte) (dstva : Nat) (src : List UInt8),
    Pair s old new f g F U n m tf → (src ≠ [] → dstva < MAXVA) → src.length ≤ k →
    Runs (copyoutLoop old sz new k dstva src) s fun r s' => ∃ f',
      r = ((userMem s g m).copyoutLoop k dstva src).1 ∧
      Built s old new f F U n tf f' g m ((userMem s g m).copyoutLoop k dstva src).2 s' := by
  induction k with
  | zero =>
    intro s f dstva src h _ _
    exact (runs_pure _).mpr ⟨f, rfl, h.built_refl hw⟩
  | succ k ih =>
    intro s f dstva src h hmax hk
    by_cases hz : src.length = 0
    · unfold Xv6.copyoutLoop UserMem.copyoutLoop
      rw [if_pos hz, if_pos hz, runs_pure]
      exact ⟨f, rfl, h.built_refl hw⟩
    have hva : dstva < MAXVA := hmax (by intro he; simp [he] at hz)
    have hmoff := Nat.mod_lt dstva (show 0 < PGSIZE by decide)
    -- The rest of the round starts with the old image checked.
    have hround (s1 : Phys) (f1 : Nat → Pte)
        (h1 : Built s old new f F U n tf f1 g m (userMem s g m) s1) :
        Runs (copyoutPage old sz new k dstva src) s1 fun r s' => ∃ f',
          r = ((userMem s g m).copyoutLoop (k+1) dstva src).1 ∧
          Built s old new f F U n tf f' g m
            ((userMem s g m).copyoutLoop (k+1) dstva src).2 s' := by
      unfold copyoutPage UserMem.copyoutLoop
      rw [if_neg hz]
      refine (h1.pair.right.walkaddr dstva).bind ?_
      rintro pa s1' ⟨rfl, hpa⟩
      rw [h1.mem] at hpa
      by_cases hu : dstva < MAXVA ∧ (userMem s g m).user (dstva/PGSIZE) = true
      · rw [if_pos hu] at hpa
        obtain ⟨hvm, rfl, hne⟩ := hpa
        rw [if_pos hu, if_neg hne, runs_bind, runs_modify]
        have h2 := h1.pair.write_page hw hvm (dstva%PGSIZE)
          (src.take (min (PGSIZE - dstva%PGSIZE) src.length))
        rw [h1.mem] at h2
        have hsize := h.right.map.size
        have hT : TFPAGE < VPAGES := by decide
        have hmax' : (dstva/PGSIZE+1)*PGSIZE < MAXVA := page_lt_MAXVA (by omega)
        refine (ih _ f1 ((dstva/PGSIZE+1)*PGSIZE)
          (src.drop (min (PGSIZE - dstva%PGSIZE) src.length)) h2.pair (fun _ => hmax')
          (by rw [List.length_drop]; omega)).imp ?_
        rintro r s' ⟨f', hr, h3⟩
        rw [h2.mem] at hr h3
        exact ⟨f', hr, (h1.trans h2).trans h3⟩
      · rw [if_neg hu] at hpa
        rw [if_neg hu, if_pos hpa, runs_pure]
        exact ⟨f1, rfl, h1⟩
    rw [copyoutLoop_succ hva hz]
    refine (h.left.cow_check hva hn).bind ?_
    rintro cow s1 ⟨rfl, hcow, -⟩
    rw [runs_ite, runs_bind]
    constructor
    · intro hc
      refine (h.left.copy_on_write (hcow hc).1).imp ?_
      rintro _ s2 ⟨⟨f1, hrep⟩, -⟩
      obtain ⟨hp, hmem⟩ := h.change_left hrep.own hrep.frame hrep.pages
      refine hround s2 f1 ⟨hp, hw, hmem, hrep.tables, hrep.mem, fun q hq => hrep.frame q
        (hq.mono (List.subset_append_right _ _) (List.subset_append_right _ _)),
        fun pa hpa hU => hrep.pages pa hpa (List.mem_append_right _ hU),
        fun v _ hno => hrep.other v fun he => ?_⟩
      rw [he, (hcow hc).2] at hno
      cases hno
    · intro _
      exact hround s1 f (h.built_refl hw)

theorem Pair.copyout {s : Phys} {f : Nat → Pte} {dstva : Nat} {src : List UInt8}
    (h : Pair s old new f g F U n m tf) (hn : n = npages sz) (hw : Writable g m)
    (hmax : src ≠ [] → dstva < MAXVA) :
    Runs (copyout old sz new dstva src) s fun r s' => ∃ f',
      r = ((userMem s g m).copyout dstva src).1 ∧
      Built s old new f F U n tf f' g m ((userMem s g m).copyout dstva src).2 s' :=
  Pair.copyoutLoop hn hw src.length s f dstva src h hmax le_rfl

end Copyout

end Xv6
