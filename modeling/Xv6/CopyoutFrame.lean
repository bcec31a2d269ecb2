import Xv6.CopyoutSafety

/-! `copyout` into a page table that is not the one of the running process, as `exec`
calls it for the new image: what becomes of the running process meanwhile. -/
namespace Xv6

open Function

/-- Page `v` of the running process is marked for copy-on-write, and `copyout` calls
`copy_on_write` for it. -/
def CowAt (f : Nat → Pte) (sz v : Nat) : Prop :=
  v*PGSIZE < sz ∧ (f v).has PTE_V = true ∧ (f v).has PTE_COW = true

def UserAt (g : Nat → Pte) (v : Nat) : Prop := (g v).has PTE_V = true ∧ (g v).has PTE_U = true

instance (g : Nat → Pte) (v : Nat) : Decidable (UserAt g v) := inferInstanceAs (Decidable (_ ∧ _))

/-- The call has an effect: the page is not shared, or there is memory for a copy. -/
def Repairs (s : Phys) (f : Nat → Pte) (sz v : Nat) : Prop :=
  CowAt f sz v ∧ (s.ref (PTE2PA (f v)) ≤ 1 ∨ s.freelist ≠ [])

def MapsPage (f : Nat → Pte) (pa : Nat) : Prop :=
  ∃ v < VPAGES, (f v).has PTE_V = true ∧ PTE2PA (f v) = pa

/-- Nothing of the running process is in the way of the bytes from `dstva` on, as far as
`copyout` gets before it comes to a page that the other table does not map: no page is
repaired, and a byte for a page that the process maps too is there already. -/
def Harmless (s : Phys) (f g : Nat → Pte) (sz dstva : Nat) (src : List UInt8) : Prop :=
  ∀ i < src.length, dstva+i < MAXVA → (∀ j < i, UserAt g ((dstva+j)/PGSIZE)) →
    ¬ Repairs s f sz ((dstva+i)/PGSIZE) ∧
    (UserAt g ((dstva+i)/PGSIZE) → MapsPage f (PTE2PA (g ((dstva+i)/PGSIZE))) →
      s.mem (PTE2PA (g ((dstva+i)/PGSIZE))) ((dstva+i)%PGSIZE) = src.getD i 0)

variable [Layout]

/-- The page table of the running process and another one. What the other one maps for the
user are user pages, none of them twice, and not the trampoline. -/
structure OtherTable (s : Phys) (mypt mysz pagetable : Nat) (f g : Nat → Pte) (F U : List Nat) :
    Prop where
  two : Two s mypt pagetable f g F U
  cow : ∀ v < VPAGES, CowAt f mysz v → PTE2PA (f v) ∈ U ∧ Leaf (f v)
  user : ∀ v < VPAGES, UserAt g v → PTE2PA (g v) ∈ U
  once : ∀ v < VPAGES, ∀ w < VPAGES, UserAt g v → UserAt g w → PTE2PA (g v) = PTE2PA (g w) → v = w
  top : ¬ UserAt g (VPAGES-1)

/-- No entry and no page of the table `pt` has changed, no count and not the free list. -/
structure Untouched (s : Phys) (pt : Nat) (f : Nat → Pte) (s' : Phys) : Prop where
  freelist : s'.freelist = s.freelist
  pageref : s'.pageref = s.pageref
  tables : ∀ q ∈ tables s.mem 2 pt, s'.mem q = s.mem q
  pte : ∀ va, pteAt s'.mem 2 pt va = pteAt s.mem 2 pt va
  pages : ∀ v < VPAGES, (f v).has PTE_V = true → s'.mem (PTE2PA (f v)) = s.mem (PTE2PA (f v))

section Frame
variable {s s' s'' : Phys} {mypt mysz pagetable v pa dstva : Nat} {f g : Nat → Pte} {F U : List Nat}
  {src : List UInt8}

omit [Layout] in
theorem Untouched.refl : Untouched s mypt f s :=
  ⟨rfl, rfl, fun _ _ => rfl, fun _ => rfl, fun _ _ _ => rfl⟩

omit [Layout] in
theorem Untouched.trans (h : Untouched s mypt f s') (h' : Untouched s' mypt f s'') :
    Untouched s mypt f s'' where
  freelist := h'.freelist.trans h.freelist
  pageref := h'.pageref.trans h.pageref
  tables q hq := by
    rw [h'.tables q (by rw [tables_congr h.tables]; exact hq), h.tables q hq]
  pte va := (h'.pte va).trans (h.pte va)
  pages v hv hV := (h'.pages v hv hV).trans (h.pages v hv hV)

omit [Layout] in
theorem Untouched.symm (h : Untouched s mypt f s') : Untouched s' mypt f s where
  freelist := h.freelist.symm
  pageref := h.pageref.symm
  tables q hq := by
    rw [tables_congr h.tables] at hq
    exact (h.tables q hq).symm
  pte va := (h.pte va).symm
  pages v hv hV := (h.pages v hv hV).symm

omit [Layout] in
theorem Untouched.harmless (h : Untouched s mypt f s') :
    Harmless s' f g mysz dstva src ↔ Harmless s f g mysz dstva src := by
  have href (pa : Nat) : s'.ref pa = s.ref pa := by
    unfold Phys.ref
    rw [h.pageref]
  unfold Harmless Repairs
  simp only [href, h.freelist]
  refine forall_congr' fun i => imp_congr_right fun _ => imp_congr_right fun _ =>
    imp_congr_right fun _ => and_congr_right fun _ => imp_congr_right fun _ =>
    forall_congr' fun hm => ?_
  obtain ⟨w, hw, hV, heq⟩ := hm
  rw [← heq, h.pages w hw hV]

theorem OtherTable.setPage (h : OtherTable s mypt mysz pagetable f g F U) (hpa : pa ∈ U) (b : Bytes) :
    OtherTable (s.setPage pa b) mypt mysz pagetable f g F U ∧
      ∀ va, pteAt (s.setPage pa b).mem 2 mypt va = pteAt s.mem 2 mypt va := by
  have hold {pt : Nat} {e : Nat → Pte} {F' : List Nat} (hm : Maps s pt e F' U) :
      ∀ q ∈ tables s.mem 2 pt, (s.setPage pa b).mem q = s.mem q := by
    intro q hq
    rw [setPage_mem, Function.update_of_ne]
    rintro rfl
    exact (hm.table_not_frame hq).2 hpa
  refine ⟨{ h with two := ?_ }, fun va => pteAt_congr (hold h.two.left) va⟩
  exact h.two.change_left (h.two.left.setPage (Or.inr hpa) b) (hold h.two.right)

/-- Writing to a user page that the running process does not map. -/
theorem OtherTable.untouched (h : OtherTable s mypt mysz pagetable f g F U) (hpa : pa ∈ U)
    (hapart : ¬ MapsPage f pa) (b : Bytes) : Untouched s mypt f (s.setPage pa b) := by
  have hold (q : Nat) (hq : q ≠ pa) : (s.setPage pa b).mem q = s.mem q := by
    rw [setPage_mem, Function.update_of_ne hq]
  refine ⟨rfl, rfl, fun q hq => hold q ?_, (h.setPage hpa b).2, fun v hv hV => hold _ fun hc => ?_⟩
  · rintro rfl
    exact (h.two.left.table_not_frame hq).2 hpa
  · exact hapart ⟨v, hv, hV, hc⟩

/-- The entry of page `v` is replaced by one without the mark. -/
theorem OtherTable.replace (h : OtherTable s mypt mysz pagetable f g F U) {w : Pte} {U' : List Nat}
    (hw : w.has PTE_COW = false) (hsub : U ⊆ U')
    (hm : Maps s' mypt (update f v w) (tables s.mem 2 pagetable ++ F) U')
    (hfr : Frame s s' (tables s.mem 2 pagetable ++ F) []) :
    OtherTable s' mypt mysz pagetable (update f v w) g F U' where
  two := h.two.change_left hm fun q hq => hfr q (Kept.kernel (List.mem_append_left _ hq))
  cow k hk hc := by
    by_cases hkv : k = v
    · rw [hkv] at hc
      have := hc.2.2
      rw [update_self, hw] at this
      exact absurd this (by decide)
    · unfold CowAt at hc
      rw [update_of_ne hkv] at hc ⊢
      exact ⟨hsub (h.cow k hk hc).1, (h.cow k hk hc).2⟩
  user k hk hu := hsub (h.user k hk hu)
  once := h.once
  top := h.top

/-- `copy_on_write` does nothing, or it clears the mark. -/
theorem OtherTable.copy_on_write (h : OtherTable s mypt mysz pagetable f g F U) (hva : dstva < MAXVA)
    (hcow : CowAt f mysz (dstva/PGSIZE)) :
    Runs (copy_on_write mypt dstva) s fun _ s' =>
      ¬ Repairs s f mysz (dstva/PGSIZE) ∧ s' = s ∨
      Repairs s f mysz (dstva/PGSIZE) ∧ ∃ w U', w.has PTE_COW = false ∧
        OtherTable s' mypt mysz pagetable (update f (dstva/PGSIZE) w) g F U' := by
  obtain ⟨hin, hleaf⟩ := h.cow _ (page_lt_iff.mpr hva) hcow
  have hperm := List.perm_cons_erase hin
  have h0 := h.two.left.perm (List.Perm.refl _) hperm
  apply (copy_on_write_spec h0 hva hleaf).imp
  set v := dstva/PGSIZE with hv
  set U0 := U.erase (PTE2PA (f v)) with hU0
  have href : s.ref (PTE2PA (f v)) = (U0.count (PTE2PA (f v)) + 1 : Nat) := by
    rw [h0.ledger.ref_of_mem _ (Or.inr List.mem_cons_self), List.count_cons_self,
      List.count_eq_zero_of_not_mem fun hc => h0.ledger.disjoint _ hc List.mem_cons_self, Nat.zero_add]
  have hmark : (ownWord (f v)).has PTE_COW = false := by
    rw [has_COW, ownWord_bit 8 (by decide)]
    simp
  rintro r s' (⟨_, hU, hmaps, hfr, -, -⟩ | ⟨hU, hf⟩ | ⟨_, new, hU, hmaps, hfr, -, hfree, -⟩)
  · have hone := List.count_eq_zero_of_not_mem hU
    refine Or.inr ⟨⟨hcow, Or.inl (by omega)⟩, _, _, hmark, h.replace hmark hperm.subset hmaps ?_⟩
    exact fun q hq => hfr q (hq.mono (List.Subset.refl _) (List.nil_subset _))
  · refine Or.inl ⟨fun hc => ?_, rfl⟩
    have hmany := List.count_pos_iff.mpr hU
    rcases hc.2 with hc | hc
    · omega
    · exact hc hf
  · have hmark' : (mapWord new (ownFlags (f v))).has PTE_COW = false := by
      rw [has_COW, mapWord_ownFlags_bit new hcow.2.1 8 (by decide), ← has_COW]
      exact hmark
    refine Or.inr ⟨⟨hcow, Or.inr (by rw [hfree]; exact List.cons_ne_nil _ _)⟩, _, _, hmark',
      h.replace hmark' ?_ hmaps fun q hq => hfr q (hq.mono (List.Subset.refl _) (List.nil_subset _))⟩
    intro q hq
    rcases List.mem_cons.mp (hperm.subset hq) with rfl | hq
    · exact List.mem_cons_of_mem _ hU
    · exact List.mem_cons_of_mem _ hq

/-- What a round of `copyout` does when it has checked the page of `dstva`. -/
theorem OtherTable.page (h : OtherTable s mypt mysz pagetable f g F U) (hva : dstva < MAXVA) (k : Nat) :
    copyoutPage mypt mysz pagetable k dstva src s = if UserAt g (dstva/PGSIZE) then
      copyoutLoop mypt mysz pagetable k ((dstva/PGSIZE+1)*PGSIZE)
        (src.drop (min (PGSIZE - dstva%PGSIZE) src.length)) (s.setPage (PTE2PA (g (dstva/PGSIZE)))
          (blit (s.mem (PTE2PA (g (dstva/PGSIZE)))) (dstva%PGSIZE)
            (src.take (min (PGSIZE - dstva%PGSIZE) src.length))))
      else .ok (-1, s) := by
  obtain ⟨pa, s2, hwalk, rfl, hpa⟩ := walkaddr_spec (PGROUNDDOWN dstva) h.two.right
  have hlow : PGROUNDDOWN dstva < MAXVA := page_lt_MAXVA (page_lt_iff.mpr hva)
  rw [show PGROUNDDOWN dstva / PGSIZE = dstva/PGSIZE from page_div _] at hpa
  rw [copyoutPage, bind_ok hwalk]
  by_cases hu : UserAt g (dstva/PGSIZE)
  · have hne : PTE2PA (g (dstva/PGSIZE)) ≠ 0 := (h.two.right.ledger.managed _
      (Or.inr (h.user _ (page_lt_iff.mpr hva) hu))).ne_zero
    rw [if_pos ⟨hlow, hu⟩] at hpa
    rw [hpa, if_neg hne, if_pos hu]
    rfl
  · rw [if_neg fun hc => hu hc.2] at hpa
    rw [hpa, if_pos rfl, if_neg hu]
    rfl

/-- The check of a round below `MAXVA`, for the page of `dstva`. -/
theorem OtherTable.round (h : OtherTable s mypt mysz pagetable f g F U) (hva : dstva < MAXVA)
    (hlen : src.length ≠ 0) (k : Nat) :
    ∃ s1, (¬ Repairs s f mysz (dstva/PGSIZE) ∧ s1 = s ∨
        Repairs s f mysz (dstva/PGSIZE) ∧ ∃ w U', w.has PTE_COW = false ∧
          OtherTable s1 mypt mysz pagetable (update f (dstva/PGSIZE) w) g F U') ∧
      copyoutLoop mypt mysz pagetable (k+1) dstva src s =
        copyoutPage mypt mysz pagetable k dstva src s1 := by
  obtain ⟨cow, s0, hshould, rfl, hcow⟩ := should_copyon_write_spec mysz h.two.left hva
  have hiff : cow = true ↔ CowAt f mysz (dstva/PGSIZE) := by
    rw [hcow]
    simp only [Bool.and_eq_true, decide_eq_true_eq, and_assoc]
    rfl
  rw [copyoutLoop_succ hva hlen, bind_ok hshould]
  by_cases hc : CowAt f mysz (dstva/PGSIZE)
  · obtain ⟨r, s1, hrun, hcase⟩ := h.copy_on_write hva hc
    rw [if_pos (hiff.mpr hc), bind_ok hrun]
    exact ⟨s1, hcase, rfl⟩
  · rw [if_neg (mt hiff.mp hc)]
    exact ⟨s0, Or.inl ⟨fun hr => hc hr.1, rfl⟩, rfl⟩

theorem UserAt.next (h : OtherTable s mypt mysz pagetable f g F U) (hva : dstva < MAXVA)
    (hu : UserAt g (dstva/PGSIZE)) : (dstva/PGSIZE+1)*PGSIZE < MAXVA := by
  have hne : dstva/PGSIZE + 1 ≠ VPAGES := by
    intro hc
    apply h.top
    rw [← hc]
    exact hu
  exact page_lt_MAXVA (Nat.lt_of_le_of_ne (page_lt_iff.mpr hva) hne)

/-- A repaired page is not marked at the end, and where no entry has changed in the end, pages that
the other table does not have from `dstva` on are as they were. -/
theorem copyoutLoop_keeps (k : Nat) : ∀ (s : Phys) (f : Nat → Pte) (U : List Nat) (dstva : Nat)
    (src : List UInt8), OtherTable s mypt mysz pagetable f g F U → dstva < MAXVA →
    Ends (copyoutLoop mypt mysz pagetable k dstva src) s fun _ s' =>
      (∀ v < VPAGES, (f v).has PTE_COW = false →
        (pteAt s'.mem 2 mypt (v*PGSIZE)).has PTE_COW = false) ∧
      ((∀ v < VPAGES, pteAt s'.mem 2 mypt (v*PGSIZE) = f v) →
        (k ≠ 0 → src.length ≠ 0 → ¬ Repairs s f mysz (dstva/PGSIZE)) ∧
        ∀ pa, (∀ w < VPAGES, dstva/PGSIZE ≤ w → UserAt g w → PTE2PA (g w) ≠ pa) →
          s'.mem pa = s.mem pa) := by
  have hsame {s : Phys} {f : Nat → Pte} {U : List Nat} (h : OtherTable s mypt mysz pagetable f g F U)
      {v : Nat} (hv : v < VPAGES) : pteAt s.mem 2 mypt (v*PGSIZE) = f v :=
    h.two.left.pte v (by omega)
  induction k with
  | zero =>
    intro s f U dstva src h _
    exact ends_pure ⟨fun v hv hc => by rw [hsame h hv]; exact hc,
      fun _ => ⟨fun hk => absurd rfl hk, fun _ _ => rfl⟩⟩
  | succ k ih =>
    intro s f U dstva src h hva r s' hrun
    by_cases hlen : src.length = 0
    · rw [copyoutLoop, if_pos hlen] at hrun
      cases hrun
      exact ⟨fun v hv hc => by rw [hsame h hv]; exact hc,
        fun _ => ⟨fun _ hc => absurd hlen hc, fun _ _ => rfl⟩⟩
    obtain ⟨s1, hcase, heq⟩ := h.round hva hlen k
    have hv := page_lt_iff.mpr hva
    -- The rest of the run, with the entries that the round has left.
    have hgo (f1 : Nat → Pte) (U1 : List Nat) (h1 : OtherTable s1 mypt mysz pagetable f1 g F U1) :
        (∀ v < VPAGES, (f1 v).has PTE_COW = false →
          (pteAt s'.mem 2 mypt (v*PGSIZE)).has PTE_COW = false) ∧
        ((∀ v < VPAGES, pteAt s'.mem 2 mypt (v*PGSIZE) = f1 v) → ∀ pa,
          (∀ w < VPAGES, dstva/PGSIZE ≤ w → UserAt g w → PTE2PA (g w) ≠ pa) →
          s'.mem pa = s1.mem pa) := by
      rw [heq, h1.page hva] at hrun
      split_ifs at hrun with hu
      · obtain ⟨hcow, hmem⟩ := ih _ f1 U1 _ _ (h1.setPage (h1.user _ hv hu) _).1 (hu.next h hva) r s' hrun
        refine ⟨hcow, fun hpte pa hpa => ((hmem hpte).2 pa fun w hw hle => hpa w hw ?_).trans ?_⟩
        · rw [page_div] at hle
          omega
        · rw [setPage_mem, update_of_ne (hpa _ hv le_rfl hu).symm]
      · cases hrun
        exact ⟨fun v hv hc => by rw [hsame h1 hv]; exact hc, fun _ _ _ => rfl⟩
    rcases hcase with ⟨hno, rfl⟩ | ⟨hr, w, U', hw, h1⟩
    · obtain ⟨hcow, hmem⟩ := hgo f U h
      exact ⟨hcow, fun hpte => ⟨fun _ _ => hno, hmem hpte⟩⟩
    · obtain ⟨hcow, _⟩ := hgo _ U' h1
      refine ⟨fun v hv hc => hcow v hv ?_, fun hpte => ?_⟩
      · by_cases heqv : v = dstva/PGSIZE
        · rw [heqv, update_self]
          exact hw
        · rw [update_of_ne heqv]
          exact hc
      · -- The repaired page would still be marked.
        have hclear := hcow (dstva/PGSIZE) hv (by rw [update_self]; exact hw)
        rw [hpte _ hv, hr.1.2.2] at hclear
        cases hclear

omit [Layout] in
theorem round_page {i : Nat} (h : i < PGSIZE - dstva%PGSIZE) :
    (dstva+i)/PGSIZE = dstva/PGSIZE ∧ (dstva+i)%PGSIZE = dstva%PGSIZE + i := by
  have hp : PGSIZE = 4096 := rfl
  rw [hp] at h ⊢
  omega

omit [Layout] in
theorem round_next (j : Nat) :
    dstva + ((PGSIZE - dstva%PGSIZE) + j) = (dstva/PGSIZE+1)*PGSIZE + j := by
  have hp : PGSIZE = 4096 := rfl
  rw [hp]
  omega

omit [Layout] in
/-- The bytes for the first page, and those for the pages behind it. -/
theorem harmless_round (hu : UserAt g (dstva/PGSIZE))
    (hno : ¬ Repairs s f mysz (dstva/PGSIZE))
    (hsame : MapsPage f (PTE2PA (g (dstva/PGSIZE))) → ∀ i < src.length, i < PGSIZE - dstva%PGSIZE →
      s.mem (PTE2PA (g (dstva/PGSIZE))) (dstva%PGSIZE + i) = src.getD i 0) :
    Harmless s f g mysz dstva src ↔ Harmless s f g mysz ((dstva/PGSIZE+1)*PGSIZE)
      (src.drop (min (PGSIZE - dstva%PGSIZE) src.length)) := by
  set n := min (PGSIZE - dstva%PGSIZE) src.length with hn
  have hget (i : Nat) : (src.drop n).getD i 0 = src.getD (n+i) 0 := by
    rw [List.getD_eq_getElem?_getD, List.getElem?_drop, List.getD_eq_getElem?_getD]
  constructor
  · intro h i hi hlow hread
    rw [List.length_drop] at hi
    have hnn : n = PGSIZE - dstva%PGSIZE := by omega
    rw [hget, ← round_next, ← hnn]
    rw [← round_next, ← hnn] at hlow
    refine h (n+i) (by omega) hlow fun j hj => ?_
    by_cases hjn : j < n
    · rw [(round_page (by omega)).1]
      exact hu
    · have := hread (j-n) (by omega)
      rwa [← round_next, ← hnn, show n+(j-n) = j by omega] at this
  · intro h i hi hlow hread
    by_cases hin : i < PGSIZE - dstva%PGSIZE
    · rw [(round_page hin).1, (round_page hin).2]
      exact ⟨hno, fun _ hm => hsame hm i hi hin⟩
    · have hnn : n = PGSIZE - dstva%PGSIZE := by omega
      have hrest := h (i-n) (by rw [List.length_drop]; omega)
      rw [hget, ← round_next, ← hnn, show n+(i-n) = i by omega] at hrest
      refine hrest hlow fun j hj => ?_
      rw [← round_next, ← hnn]
      exact hread (n+j) (by omega)

omit [Layout] in
theorem blit_same {b : Bytes} {o : Nat} {l : List UInt8}
    (h : ∀ i < l.length, b (o+i) = l.getD i 0) : blit b o l = b := by
  funext x
  unfold blit
  split_ifs with hx
  · rw [← h (x-o) (by omega), Nat.add_sub_cancel' hx.1]
  · rfl

theorem copyoutLoop_untouched (k : Nat) : ∀ (s : Phys) (dstva : Nat) (src : List UInt8),
    OtherTable s mypt mysz pagetable f g F U → dstva < MAXVA → src.length ≤ k →
    (Runs (copyoutLoop mypt mysz pagetable k dstva src) s (fun _ s' => Untouched s mypt f s') ↔
      Harmless s f g mysz dstva src) := by
  induction k with
  | zero =>
    intro s dstva src _ _ hlen
    exact iff_of_true ((runs_pure _).mpr Untouched.refl) fun i hi => absurd hi (by omega)
  | succ k ih =>
    intro s dstva src h hva hk
    by_cases hlen : src.length = 0
    · rw [copyoutLoop, if_pos hlen]
      exact iff_of_true ((runs_pure _).mpr Untouched.refl) fun i hi => absurd hi (by omega)
    obtain ⟨s1, hcase, heq⟩ := h.round hva hlen k
    have hv := page_lt_iff.mpr hva
    have hp : 0 < PGSIZE - dstva%PGSIZE := Nat.sub_pos_of_lt (Nat.mod_lt _ (by decide))
    have hpte {s' : Phys} (hun : Untouched s mypt f s') (v : Nat) (hv : v < VPAGES) :
        pteAt s'.mem 2 mypt (v*PGSIZE) = f v := (hun.pte _).trans (h.two.left.pte v (by omega))
    rcases hcase with ⟨hno, rfl⟩ | ⟨hr, -⟩
    swap
    · -- The page is repaired, and no longer marked at the end.
      refine iff_of_false ?_ fun hh => (hh 0 (by omega) hva fun j hj => absurd hj (by omega)).1 hr
      rintro ⟨r, s', hrun, hun⟩
      exact ((copyoutLoop_keeps (k+1) s f U dstva src h hva r s' hrun).2 (hpte hun)).1
        (Nat.succ_ne_zero k) hlen hr
    unfold Runs
    rw [heq, h.page hva]
    by_cases hu : UserAt g (dstva/PGSIZE)
    swap
    · rw [if_neg hu]
      refine iff_of_true ⟨_, _, rfl, Untouched.refl⟩ fun i hi _ hread => ?_
      by_cases hin : i < PGSIZE - dstva%PGSIZE
      · rw [(round_page hin).1]
        exact ⟨hno, fun hc => absurd hc hu⟩
      · exact absurd (hread 0 (by omega)) hu
    rw [if_pos hu]
    have hin := h.user _ hv hu
    set pa := PTE2PA (g (dstva/PGSIZE)) with hpa
    set n := min (PGSIZE - dstva%PGSIZE) src.length with hn
    set s2 := s1.setPage pa (blit (s1.mem pa) (dstva%PGSIZE) (src.take n)) with hs2
    have h2 := (h.setPage hin (blit (s1.mem pa) (dstva%PGSIZE) (src.take n))).1
    have hnext := hu.next h hva
    have htake (i : Nat) (hi : i < n) : (src.take n).getD i 0 = src.getD i 0 := by
      rw [List.getD_eq_getElem?_getD, List.getElem?_take_of_lt hi, List.getD_eq_getElem?_getD]
    have htlen : (src.take n).length = n := by
      rw [List.length_take]
      omega
    by_cases hsame : MapsPage f pa → ∀ i < src.length, i < PGSIZE - dstva%PGSIZE →
        s1.mem pa (dstva%PGSIZE + i) = src.getD i 0
    · have hun : Untouched s1 mypt f s2 := by
        by_cases hm : MapsPage f pa
        · have hback : s2 = s1 := by
            rw [hs2, blit_same]
            · unfold Phys.setPage
              rw [update_eq_self]
            · intro i hi
              rw [htlen] at hi
              rw [htake i hi]
              exact hsame hm i (by omega) (by omega)
          rw [hback]
          exact Untouched.refl
        · exact h.untouched hin hm _
      rw [harmless_round hu hno hsame, ← hun.harmless,
        ← ih s2 _ _ h2 hnext (by rw [List.length_drop]; omega)]
      exact ⟨fun hr => Runs.imp hr fun _ _ h' => hun.symm.trans h',
        fun hr => Runs.imp hr fun _ _ h' => hun.trans h'⟩
    · obtain ⟨hm, hdiff⟩ := Classical.not_imp.mp hsame
      simp only [not_forall] at hdiff
      obtain ⟨i, hi, hlt, hne⟩ := hdiff
      refine iff_of_false ?_ fun hh => ?_
      · rintro ⟨r, s', hrun, hun⟩
        obtain ⟨w, hw, hV, hwpa⟩ := hm
        have hkeep := ((copyoutLoop_keeps k s2 f U _ _ h2 hnext r s' hrun).2 (hpte hun)).2 pa ?_
        · have hold := hun.pages w hw hV
          rw [hwpa, hkeep, hs2, setPage_mem, update_self] at hold
          apply hne
          have hbyte := congrFun hold (dstva%PGSIZE + i)
          rw [blit_at _ _ _ _ (by omega), htake i (by omega)] at hbyte
          exact hbyte.symm
        · intro w hw hle huw hc
          rw [page_div] at hle
          have := h.once w hw _ hv huw hu hc
          omega
      · obtain ⟨hpg, hmod⟩ := round_page hlt
        have hb := (hh i hi (page_lt_iff.mp (by rw [hpg]; exact hv)) fun j hj => by
          rw [(round_page (by omega)).1]
          exact hu).2
        rw [hpg, hmod] at hb
        exact hne (hb hu hm)

/-- `copyout` to another table leaves the running process alone, or panics at an address
outside of the address space, if and only if nothing of the process is in its way. -/
theorem copyout_leaves_process_alone (h : OtherTable s mypt mysz pagetable f g F U) (dstva : Nat)
    (src : List UInt8) :
    Ensures (copyout mypt mysz pagetable dstva src) s (fun e => e = "walk" ∧ MAXVA ≤ dstva)
      (fun _ s' => Untouched s mypt f s') ↔ Harmless s f g mysz dstva src := by
  by_cases hva : dstva < MAXVA
  · rw [← copyoutLoop_untouched src.length s dstva src h hva le_rfl]
    exact ⟨fun hr => hr.runs fun e he => absurd he.2 (by omega), fun hr => hr.ensures⟩
  · refine iff_of_true ?_ fun i _ hlow => absurd hlow (by omega)
    cases src with
    | nil => exact ensures_pure Untouched.refl
    | cons b src =>
      -- The check for copy-on-write comes first and panics.
      have hpanic : copyout mypt mysz pagetable dstva (b :: src) s = .error "walk" := by
        unfold copyout copyoutLoop
        exact panics_bind (should_copyon_write_panics (Nat.le_of_not_lt hva))
      exact ⟨ends_of_panic hpanic, panicsOnly_of_panic hpanic ⟨rfl, Nat.le_of_not_lt hva⟩⟩

end Frame

section Exec
variable {s : Phys} {old new n m tf v : Nat} {f g : Nat → Pte} {F U : List Nat}

theorem Pair.user_lt (h : Pair s old new f g F U n m tf) (hv : v < VPAGES) (hu : UserAt g v) :
    v < m := by
  by_contra hc
  have hU := (h.right.map.above (Nat.le_of_not_lt hc) (show v < 2*VPAGES by omega)).1
  exact absurd (hU.symm.trans hu.2) (by decide)

theorem Pair.otherTable {sz : Nat} (h : Pair s old new f g F U n m tf) (hn : n = npages sz) :
    OtherTable s old sz new f g F (pagesOf f 0 n ++ (pagesOf g 0 m ++ U)) where
  two := ⟨h.left.maps, h.right.maps.perm (List.Perm.refl _) (perm_two _ _ _)⟩
  cow v _ hc := by
    have hv : v < n := by
      rw [hn]
      exact (page_below_iff v).mp hc.1
    exact ⟨List.mem_append_left _ (h.left.page_mem hv), (h.left.map.user v hv).leaf⟩
  user _ hv hu := List.mem_append_right _
    (List.mem_append_left _ (h.right.page_mem (h.user_lt hv hu)))
  once _ hv _ hw hu hu' heq := pagesOf_inj h.right.nodup (h.user_lt hv hu) (h.user_lt hw hu') heq
  top hu := by
    have hlt := h.user_lt (by decide) hu
    have hsize := h.right.map.size
    have hT : TFPAGE ≤ VPAGES-1 := by decide
    omega

theorem Pair.apart (h : Pair s old new f g F U n m tf) (hw : Writable g m) (htf : tf ∈ F)
    (hv : v < VPAGES) (hu : UserAt g v) : ¬ MapsPage f (PTE2PA (g v)) := by
  rintro ⟨w, hwV, hV, he⟩
  have hvm := h.user_lt hv hu
  have hno := h.right.write v hvm (hw v hvm)
  have hin := List.mem_append_left (pagesOf f 0 n ++ U) (h.right.page_mem hvm)
  have hT : TFPAGE+2 = VPAGES := by decide
  rcases Nat.lt_or_ge w n with hwn | hwn
  · exact hno (List.mem_append_left _ (he ▸ h.left.page_mem hwn))
  rcases Nat.lt_or_ge w TFPAGE with hwT | hwT
  · rw [h.left.map.gap w hwn hwT] at hV
    exact absurd hV (by decide)
  rcases Nat.eq_or_lt_of_le hwT with rfl | hwT
  · -- The trapframe is a page of the kernel.
    have hK := List.mem_append_right (tables s.mem 2 new)
      (List.mem_append_right (tables s.mem 2 old) htf)
    rw [h.left.map.trapframe, managed_mapWord (h.right.maps.ledger.managed tf (Or.inl hK)) _
      (by decide)] at he
    exact h.right.maps.ledger.disjoint tf hK (he ▸ hin)
  · -- The trampoline lies in the kernel's text.
    obtain rfl : w = TFPAGE+1 := by omega
    have hman := h.right.page_managed hvm
    have hlt := Layout.tramp_lt
    have hle : Layout.kend ≤ PHYSTOP := by
      have := Layout.room
      omega
    have hP : PHYSTOP < 2^56 := by decide
    have hpa : PTE2PA (mapWord Layout.trampoline (PTE_R ||| PTE_X)) = Layout.trampoline :=
      PTE2PA_mapped_word _ _ Layout.tramp_aligned (by omega) (by decide)
    rw [h.left.map.trampoline, hpa] at he
    have hge := hman.2.1
    omega

theorem Pair.ne (h : Pair s old new f g F U n m tf) : new ≠ old := by
  intro he
  have hnd := (List.nodup_append.mp h.right.maps.ledger.nodup).2.2
  exact hnd new mem_tables_self old (List.mem_append_left _ mem_tables_self) he

/-- One byte for a page of the new image at an address where the old image has a shared
page: the old image gets a copy of its page. -/
theorem Pair.copyout_shared {sz dstva : Nat} (h : Pair s old new f g F U n m tf)
    (hw : Writable g m) (hn : n = npages sz) (hv : dstva/PGSIZE < n)
    (hu : (userMem s g m).user (dstva/PGSIZE) = true)
    (hshared : PTE2PA (f (dstva/PGSIZE)) ∈ pagesOf g 0 m ++ U) (hfree : s.freelist ≠ [])
    (b : UInt8) :
    Runs (Xv6.copyout old sz new dstva [b]) s fun r s' => r = 0 ∧
      pteAt s'.mem 2 old (dstva/PGSIZE*PGSIZE) ≠ f (dstva/PGSIZE) ∧
      s'.freelist.length + 1 = s.freelist.length := by
  have hsize := h.left.map.size
  have hT : TFPAGE < VPAGES := by decide
  have hva : dstva < MAXVA := page_lt_iff.mp (by omega)
  -- The page is shared, so it is not writable but marked.
  have hW : (f (dstva/PGSIZE)).has PTE_W = false := by
    rw [Bool.eq_false_iff]
    exact fun hc => h.left.write _ hv hc hshared
  have huser := h.left.map.user _ hv
  have hcow : (f (dstva/PGSIZE)).has PTE_COW = true := by
    rw [huser.cow, hW]
    rfl
  have hlow : PGROUNDDOWN dstva < sz := (page_below_iff _).mpr (by rw [← hn]; exact hv)
  have hone : ¬ [b].length = 0 := by simp
  change Runs (Xv6.copyoutLoop old sz new 1 dstva [b]) s _
  unfold Xv6.copyoutLoop
  rw [if_neg hone]
  refine (should_copyon_write_spec sz h.left.maps hva).bind ?_
  rintro cow s1 ⟨rfl, rfl⟩
  rw [decide_eq_true hlow, huser.v, hcow]
  simp only [Bool.and_self, if_true]
  refine (h.left.copy_on_write hv).bind ?_
  rintro _ s2 ⟨⟨f1, hrep⟩, -⟩
  obtain ⟨h2, hmem2⟩ := h.change_left hrep.own hrep.frame hrep.pages
  refine (h2.right.walkaddr dstva).bind ?_
  rintro pa s3 ⟨rfl, hpa⟩
  rw [if_pos ⟨hva, by rw [hmem2]; exact hu⟩] at hpa
  obtain ⟨hvm, rfl, hne⟩ := hpa
  rw [if_neg hne, runs_bind, runs_modify]
  have h4 := (h2.write_page hw hvm (dstva - PGROUNDDOWN dstva)
    ([b].take (min (PGSIZE - (dstva - PGROUNDDOWN dstva)) [b].length))).pair.left.maps
  rw [Xv6.copyoutLoop, runs_pure]
  refine ⟨rfl, ?_, ?_⟩
  · rw [h4.pte _ (by omega)]
    intro he
    have hW1 := hrep.writable (Or.inr hfree)
    rw [he, hW] at hW1
    exact absurd hW1 (by decide)
  · have hlen := hrep.free
    rw [if_pos hshared] at hlen
    have hpos := List.length_pos_iff.mpr hfree
    rw [setPage_freelist]
    omega

theorem exec_table {k : Kernel} {p : Nat} (hi : Inv k) (hp : p ∈ procs)
    (hpt : (k.proc p).pagetable ≠ 0) (m : Nat) (hfree : 5 + 3*m < k.phys.freelist.length) :
    ∃ new s1 s g, proc_pagetable (k.proc p).trapframe k.phys = .ok (some new, s1) ∧
      uvmalloc new 0 (m*PGSIZE) s1 = .ok (m*PGSIZE, s) ∧
      Built k.phys (k.proc p).pagetable new (k.map p) (k.frame p) (k.mappedBeside [p])
        (npages (k.proc p).sz) (k.proc p).trapframe (k.map p) g m (UserMem.empty.resize 0 m) s ∧
      k.phys.freelist.length ≤ s.freelist.length + (5 + 3*m) := by
  have hown := hi.own hp hpt
  have h0 : npages 0 = 0 := by decide
  obtain ⟨r, s1, hrun1, hfr, hr⟩ := proc_pagetable_spec (k.proc p).trapframe hown.maps.ledger
  cases r with
  | none => exact absurd hr.2 (by omega)
  | some new =>
    obtain ⟨-, hused1, g, hmaps, hmap⟩ := hr
    have hb1 := hown.pair hmaps hmap hfr
    have hpair := hb1.pair
    have hw := hb1.writable
    rw [← h0] at hpair hw
    obtain ⟨r, s, hrun2, g', sz', hb2, hr2⟩ := hpair.uvmalloc hw (m*PGSIZE)
    rw [npages_mul, h0, Nat.sub_zero, Nat.zero_max] at hr2
    obtain ⟨rfl, rfl, hused2⟩ := hr2.resolve_right fun hc => absurd hc.2.2 (by omega)
    rw [h0, userMem_empty, npages_mul] at hb2
    exact ⟨new, s1, s, g', hrun1, hrun2, hb1.trans hb2, by omega⟩

end Exec

omit [Layout] in
/-- The first process calls `exec`: one byte for the second page of the new image. -/
theorem copyout_alone_at_boot : ∃ (_ : Layout) (k : Kernel) (p new : Nat) (s1 s : Phys),
    Reachable k ∧ k.active p ∧
    proc_pagetable (k.proc p).trapframe k.phys = .ok (some new, s1) ∧
    uvmalloc new 0 (2*PGSIZE) s1 = .ok (2*PGSIZE, s) ∧
    Ensures (copyout (k.proc p).pagetable (k.proc p).sz new PGSIZE [0]) s
      (fun e => e = "walk" ∧ MAXVA ≤ PGSIZE)
      fun _ s' => Untouched s (k.proc p).pagetable (k.map p) s' := by
  let _ := sampleLayout
  obtain ⟨k, hb, hk⟩ := exists_booted
  have hfree := hk.free
  obtain ⟨new, s1, s, g, hrun1, hrun2, hbuilt, -⟩ :=
    exec_table hk.inv hk.init (hk.settled.pagetable_ne hk.active) 2 (by omega)
  refine ⟨_, k, k.initproc, new, s1, s, Reachable.boot hb, hk.active, hrun1, hrun2, ?_⟩
  refine (copyout_leaves_process_alone (hbuilt.pair.otherTable rfl) _ _).mpr fun i hi _ _ => ?_
  obtain rfl : i = 0 := by simpa using hi
  refine ⟨fun hc => ?_, fun hu hm => ?_⟩
  · have hlt := hc.1.1
    rw [hk.sz] at hlt
    exact absurd hlt (by decide)
  · exact absurd hm (hbuilt.pair.apart hbuilt.writable List.mem_cons_self (by decide) hu)

omit [Layout] in
/-- The first process has forked and builds a new image: the byte that `copyout` writes
there costs a free page and an entry of the running process. -/
theorem copyout_changes_caller : ∃ (_ : Layout) (k : Kernel) (p new : Nat) (s1 s : Phys),
    Reachable k ∧ k.active p ∧ new ≠ (k.proc p).pagetable ∧
    proc_pagetable (k.proc p).trapframe k.phys = .ok (some new, s1) ∧
    uvmalloc new 0 (1*PGSIZE) s1 = .ok (1*PGSIZE, s) ∧
    Runs (copyout (k.proc p).pagetable (k.proc p).sz new 0 [0]) s fun r s' => r = 0 ∧
      pteAt s'.mem 2 (k.proc p).pagetable 0 ≠ pteAt s.mem 2 (k.proc p).pagetable 0 ∧
      s'.freelist.length + 1 = s.freelist.length := by
  obtain ⟨_, k, np, hsh, hfree⟩ := exists_sharers
  set p := k.initproc
  obtain ⟨new, s1, s, g, hrun1, hrun2, hbuilt, hused⟩ :=
    exec_table hsh.reach.inv.1 hsh.left.1 hsh.pagetable 1 (by omega)
  have huser : (userMem s g 1).user 0 = true := by
    rw [hbuilt.mem]
    rfl
  have hsome : s.freelist ≠ [] := by
    intro hc
    rw [hc, List.length_nil] at hused
    omega
  have hold := hbuilt.pair.left.maps.pte 0 (by decide)
  rw [Nat.zero_mul] at hold
  refine ⟨_, k, p, new, s1, s, hsh.reach, hsh.left, hbuilt.pair.ne, hrun1, hrun2, ?_⟩
  refine (hbuilt.pair.copyout_shared hbuilt.writable rfl
    (show 0/PGSIZE < _ by rw [hsh.npages]; decide) huser (List.mem_append_right _ hsh.shared)
    hsome 0).imp ?_
  rintro r s' ⟨hr0, hne, hlen⟩
  rw [hold]
  exact ⟨hr0, hne, hlen⟩

end Xv6
