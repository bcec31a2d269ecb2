import Xv6.VmFree

/-! `uvmcopy` with shared pages and `copy_on_write`: the two places where user
pages get more than one mapping, or stop having more than one. -/
namespace Xv6

open Function
variable [Layout]

/-- Two page tables side by side. -/
structure Two (s : Phys) (old new : Nat) (f g : Nat → Pte) (F U : List Nat) : Prop where
  left : Maps s old f (tables s.mem 2 new ++ F) U
  right : Maps s new g (tables s.mem 2 old ++ F) U

section Pair
variable {s s' : Phys} {old new : Nat} {f g f' g' : Nat → Pte} {F U U' : List Nat}

omit [Layout] in
theorem perm_two (A B C : List Nat) : (A ++ (B ++ C)).Perm (B ++ (A ++ C)) := by
  rw [← List.append_assoc, ← List.append_assoc]
  exact List.perm_append_comm.append_right C

theorem Two.of_left (h : Maps s old f (tables s.mem 2 new ++ F) U) (hL : Linked s.mem 2 new)
    (hp : ∀ v < 2*VPAGES, pteAt s.mem 2 new (v*PGSIZE) = g v) : Two s old new f g F U :=
  ⟨h, ⟨h.ledger.perm (perm_two _ _ _) (List.Perm.refl _), hL, hp⟩⟩

theorem Two.symm (h : Two s old new f g F U) : Two s new old g f F U := ⟨h.right, h.left⟩

theorem Two.change_left (h : Two s old new f g F U)
    (hm : Maps s' old f' (tables s.mem 2 new ++ F) U')
    (hc : ∀ q ∈ tables s.mem 2 new, s'.mem q = s.mem q) : Two s' old new f' g F U' := by
  apply Two.of_left
  · rwa [tables_congr hc]
  · exact linked_congr hc h.right.linked
  · intro v hv
    rw [pteAt_congr hc]
    exact h.right.pte v hv

theorem Two.change_right (h : Two s old new f g F U)
    (hm : Maps s' new g' (tables s.mem 2 old ++ F) U')
    (hc : ∀ q ∈ tables s.mem 2 old, s'.mem q = s.mem q) : Two s' old new f g' F U' :=
  (h.symm.change_left hm hc).symm

theorem Two.perm_user (h : Two s old new f g F U) (hU : U.Perm U') : Two s old new f g F U' :=
  ⟨h.left.perm (List.Perm.refl _) hU, h.right.perm (List.Perm.refl _) hU⟩

theorem Two.of_mem (h : Two s old new f g F U) (hm : s'.mem = s.mem)
    (hl : Ledger s' (tables s.mem 2 old ++ (tables s.mem 2 new ++ F)) U') :
    Two s' old new f g F U' :=
  h.change_left (h.left.of_tables (fun q _ => by rw [hm]) hl) fun q _ => by rw [hm]

end Pair

def cowUpto (f : Nat → Pte) (w : Nat) : Nat → Pte := fun k => if k < w then cowWord (f k) else f k

def copyUpto (f g : Nat → Pte) (w : Nat) : Nat → Pte := fun k =>
  if k < w then mapWord (PTE2PA (f k)) (PTE_FLAGS (cowWord (f k))) else g k

section Maps
omit [Layout]
variable (f g : Nat → Pte) (w : Nat)

theorem cowUpto_succ : update (cowUpto f w) w (cowWord (f w)) = cowUpto f (w+1) := by
  funext k
  by_cases hk : k = w
  · subst hk
    simp [cowUpto]
  · rw [update_of_ne hk]
    simp only [cowUpto]
    by_cases hlt : k < w
    · rw [if_pos hlt, if_pos (by omega)]
    · rw [if_neg hlt, if_neg (by omega)]

theorem copyUpto_succ :
    update (copyUpto f g w) w (mapWord (PTE2PA (f w)) (PTE_FLAGS (cowWord (f w)))) =
      copyUpto f g (w+1) := by
  funext k
  by_cases hk : k = w
  · subst hk
    simp [copyUpto]
  · rw [update_of_ne hk]
    simp only [copyUpto]
    by_cases hlt : k < w
    · rw [if_pos hlt, if_pos (by omega)]
    · rw [if_neg hlt, if_neg (by omega)]

end Maps

/-- The pages below `w` shared with the new table. -/
structure Copied (s : Phys) (old new : Nat) (f g : Nat → Pte) (F U : List Nat) (w : Nat)
    (s' : Phys) : Prop where
  two : Two s' old new (cowUpto f w) (copyUpto f g w) F (pagesOf f 0 w ++ U)
  tables : tables s'.mem 2 old = tables s.mem 2 old
  frame : Frame s s' F U
  used : s.freelist.length ≤ s'.freelist.length + 2*w

section Copy
variable {s0 s : Phys} {old new : Nat} {f g : Nat → Pte} {F U : List Nat}

theorem managed_copy_word {pa : Nat} (h : Managed pa) (w : Pte) :
    PTE2PA (mapWord pa (PTE_FLAGS w)) = pa := managed_word h _ (flags_lt w)

omit [Layout] in
theorem copyUpto_leaf {w k : Nat} (hu : UserPte (f k)) (hk : k < w) : Leaf (copyUpto f g w k) := by
  simp only [copyUpto]
  rw [if_pos hk]
  exact (userPte_copy (userPte_cow hu)).leaf

/-- One page: mark the parent's entry, map the page into the child, and count it. -/
theorem uvmcopyLoop_spec (N n : Nat) (hN : N ≤ TFPAGE) (hu : ∀ k < N, UserPte (f k))
    (hp : ∀ k < N, PTE2PA (f k) ∈ U) (hg : ∀ k < N, g k = 0) :
    ∀ (s : Phys) (w : Nat), Copied s0 old new f g F U w s → w+n = N →
    Runs (uvmcopyLoop old new n (w*PGSIZE)) s fun r s' =>
      (r = 0 ∧ Copied s0 old new f g F U N s') ∨
      (r = -1 ∧ (∃ j ≤ N, Two s' old new (cowUpto f j) g F U) ∧
        tables s'.mem 2 old = tables s0.mem 2 old ∧ Frame s0 s' F U ∧
        s0.freelist.length ≤ 2*N) := by
  have hTV : TFPAGE ≤ VPAGES := by decide
  induction n with
  | zero =>
    intro s w h hw
    obtain rfl : w = N := by omega
    exact (runs_pure _).mpr (Or.inl ⟨rfl, h⟩)
  | succ n ih =>
    intro s w h hw
    have hwV : w < VPAGES := by omega
    have huw := hu w (by omega)
    have hfw : cowUpto f w w = f w := by simp [cowUpto]
    have hgw : copyUpto f g w w = 0 := by
      simp only [copyUpto]
      rw [if_neg (by omega)]
      exact hg w (by omega)
    obtain ⟨slot, hl, hload⟩ := h.two.left.slot_of_ne_zero hwV (by rw [hfw]; exact huw.leaf.ne_zero)
    rw [hfw] at hload
    unfold uvmcopyLoop
    simp only [runs_bind, runs_walk_found (page_lt_MAXVA hwV), hl, runs_get, runs_panicIf, hload,
      storePte, runs_modify]
    refine ⟨by simp [huw.v], ?_⟩
    -- The parent's entry is marked, whether or not the child gets its own.
    obtain ⟨hst, -, -⟩ := h.two.left.store hwV (cowWord (f w)) hl
    have hfr1 := h.two.left.store_frame (cowWord (f w)) hl
    rw [cowUpto_succ] at hst
    set s1 : Phys := { s with mem := setPte s.mem slot (cowWord (f w)) } with hs1
    have h1 : Two s1 old new (cowUpto f (w+1)) (copyUpto f g w) F (pagesOf f 0 w ++ U) :=
      h.two.change_left hst fun q hq => hfr1 q (Kept.kernel (List.mem_append_left _ hq))
    have hpw : PTE2PA (f w) ∈ pagesOf f 0 w ++ U := List.mem_append_right _ (hp w (by omega))
    change Runs (mappages new (w*PGSIZE) PGSIZE (PTE2PA (f w)) (PTE_FLAGS (cowWord (f w)))) s1 _
    refine (mappages_spec (PTE2PA (f w)) (PTE_FLAGS (cowWord (f w))) h1.right hwV
      (by rw [hgw]; decide)).imp ?_
    rintro r s2 ⟨hfr2, -, hused, hcase, -⟩
    have hold2 (q : Nat) (hq : q ∈ tables s1.mem 2 old) : s2.mem q = s1.mem q :=
      hfr2 q (Kept.kernel (List.mem_append_left _ hq))
    have htab2 : tables s2.mem 2 old = tables s0.mem 2 old := by
      rw [tables_congr hold2, ← h.tables]
      exact h.two.left.store_tables (cowWord (f w)) hl
    have hframe2 : Frame s0 s2 F U := by
      intro q hq
      rw [hfr2 q (hq.mono (List.subset_append_right _ _) (List.subset_append_right _ _)),
        hfr1 q (hq.mono (List.subset_append_right _ _) (List.subset_append_right _ _))]
      exact h.frame q hq
    have hused2 : s0.freelist.length ≤ s2.freelist.length + 2*(w+1) := by
      have hu1 : s.freelist.length ≤ s2.freelist.length + 2 := hused
      have := h.used
      omega
    rw [runs_ite]
    constructor
    · -- No memory for a table page: the child gives back what it has.
      intro hr
      obtain ⟨rfl, hempty, hm2⟩ : r = -1 ∧ s2.freelist = [] ∧ Maps s2 new (copyUpto f g w) _ _ := by
        rcases hcase with ⟨hr0, -⟩ | hc
        · exact absurd hr0 hr
        · exact hc
      have h2 := h1.change_right hm2 hold2
      have hpages : pagesOf f 0 w = pagesOf (copyUpto f g w) 0 w := by
        apply List.map_congr_left
        intro k hk
        have hk' : k < w := by have := List.mem_range'_1.mp hk; omega
        have hman := h1.left.ledger.managed _ (Or.inr (List.mem_append_right _ (hp k (by omega))))
        simp only [copyUpto]
        rw [if_pos hk', managed_copy_word hman]
      have hr2 := h2.right
      rw [hpages] at hr2
      have hback : dropRange (copyUpto f g w) 0 w = g := by
        funext k
        simp only [dropRange, copyUpto]
        by_cases hk : k < w
        · rw [if_pos (by omega), hg k (by omega)]
        · rw [if_neg (by omega), if_neg hk]
      rw [page_div, runs_bind, show (0:Nat) = 0*PGSIZE by rw [Nat.zero_mul]]
      refine (uvmunmap_free_spec w s2 0 _ hr2 (by omega) fun k _ hk =>
        copyUpto_leaf (hu k (by omega)) (by omega)).imp ?_
      rintro _ s3 hun
      rw [runs_pure]
      have hmaps := hun.maps
      rw [hback] at hmaps
      have hold3 (q : Nat) (hq : q ∈ tables s2.mem 2 old) : s3.mem q = s2.mem q :=
        hun.frame q (Kept.kernel (List.mem_append_left _ hq))
      refine Or.inr ⟨rfl, ⟨w+1, by omega, h2.change_right hmaps hold3⟩,
        (tables_congr hold3).trans htab2, fun q hq => ?_, ?_⟩
      · rw [hun.frame q (hq.mono (List.subset_append_right _ _) (List.Subset.refl _))]
        exact hframe2 q hq
      · rw [hempty] at hused2
        simp only [List.length_nil] at hused2
        omega
    · intro hr
      have hm2 : Maps s2 new (copyUpto f g (w+1)) (tables s1.mem 2 old ++ F)
          (pagesOf f 0 w ++ U) := by
        rcases hcase with ⟨-, hc⟩ | ⟨hr1, -⟩
        · rw [← copyUpto_succ]
          exact hc
        · exact absurd (by rw [hr1]; decide) hr
      have h2 := h1.change_right hm2 hold2
      refine (pageRef_spec h2.left.ledger hpw).bind ?_
      rintro _ s3 ⟨hl3, hmem3, hfree3⟩
      have hperm : (PTE2PA (f w) :: (pagesOf f 0 w ++ U)).Perm (pagesOf f 0 (w+1) ++ U) := by
        rw [pagesOf_concat, Nat.zero_add, List.append_assoc]
        exact List.perm_middle.symm
      have h3 := (h2.of_mem hmem3 hl3).perm_user hperm
      have hstep : Copied s0 old new f g F U (w+1) s3 := by
        refine ⟨h3, by rw [hmem3]; exact htab2, fun q hq => ?_, by rw [hfree3]; exact hused2⟩
        rw [hmem3]
        exact hframe2 q hq
      rw [show w*PGSIZE + PGSIZE = (w+1)*PGSIZE by ring]
      exact ih s3 (w+1) hstep (by omega)

/-- `uvmcopy`: every user page gets one more mapping, or the child gets none.
The parent's pages may be marked either way. -/
theorem uvmcopy_spec {sz : Nat} (h : Two s old new f g F U) (hN : npages sz ≤ TFPAGE)
    (hu : ∀ k < npages sz, UserPte (f k)) (hp : ∀ k < npages sz, PTE2PA (f k) ∈ U)
    (hg : ∀ k < npages sz, g k = 0) :
    Runs (uvmcopy old new sz) s fun r s' =>
      (r = 0 ∧ Copied s old new f g F U (npages sz) s') ∨
      (r = -1 ∧ (∃ j ≤ npages sz, Two s' old new (cowUpto f j) g F U) ∧
        tables s'.mem 2 old = tables s.mem 2 old ∧ Frame s s' F U ∧
        s.freelist.length ≤ 2*npages sz) := by
  have hstart : Copied s old new f g F U 0 s := by
    have hf0 : cowUpto f 0 = f := by funext k; simp [cowUpto]
    have hg0 : copyUpto f g 0 = g := by funext k; simp [copyUpto]
    exact ⟨by rw [hf0, hg0]; simpa [pagesOf] using h, rfl, fun _ _ => rfl, by omega⟩
  have hrun := uvmcopyLoop_spec (npages sz) (npages sz) hN hu hp hg s 0 hstart (by omega)
  rwa [Nat.zero_mul] at hrun

end Copy

section Entry
variable {s : Phys} {pt v : Nat} {f : Nat → Pte} {F U : List Nat}

theorem uvmclear_spec (h : Maps s pt f F U) (hv : v < VPAGES) (hf : f v ≠ 0) :
    Runs (uvmclear pt (v*PGSIZE)) s fun _ s' =>
      Maps s' pt (update f v (guardWord (f v))) F U ∧ Frame s s' F U ∧
      s'.freelist = s.freelist := by
  obtain ⟨slot, hl, hload⟩ := h.slot_of_ne_zero hv hf
  unfold uvmclear
  simp only [runs_bind, runs_walk_found (page_lt_MAXVA hv), hl, runs_get, hload, storePte,
    runs_modify]
  exact ⟨(h.store hv _ hl).1, h.store_frame _ hl, trivial⟩

theorem Maps.walk_entry (h : Maps s pt f F U) {va : Nat} (hva : va < MAXVA) :
    (lookup s.mem 2 pt va = none ∧ f (va/PGSIZE) = 0) ∨
      ∃ slot, lookup s.mem 2 pt va = some slot ∧
        lookup s.mem 2 pt (va/PGSIZE*PGSIZE) = some slot ∧
        loadPte s.mem slot.1 slot.2 = f (va/PGSIZE) := by
  have hv := page_lt_iff.mpr hva
  have hp := h.pte (va/PGSIZE) (by omega)
  unfold pteAt at hp
  rw [lookup_page] at hp
  cases hl : lookup s.mem 2 pt va with
  | none => rw [hl] at hp; exact Or.inl ⟨rfl, hp.symm⟩
  | some slot => rw [hl] at hp; exact Or.inr ⟨slot, rfl, (lookup_page va).trans hl, hp⟩

theorem should_copyon_write_spec {va : Nat} (sz : Nat) (h : Maps s pt f F U) (hva : va < MAXVA) :
    Runs (should_copyon_write pt sz va) s fun r s' => s' = s ∧
      r = (decide (PGROUNDDOWN va < sz) && (f (va/PGSIZE)).has PTE_V &&
        (f (va/PGSIZE)).has PTE_COW) := by
  unfold should_copyon_write
  rw [runs_bind, runs_walk_found hva]
  rcases h.walk_entry hva with ⟨hl, hf⟩ | ⟨slot, hl, -, hload⟩
  · rw [hl, hf]
    have hz : (0 : Pte).has PTE_V = false := by decide
    exact (runs_pure _).mpr ⟨rfl, by rw [hz, Bool.and_false, Bool.false_and]⟩
  · simp only [hl, runs_bind, runs_get, runs_pure, hload]
    exact ⟨trivial, trivial⟩

/-- The page that `walkaddr` finds for the user at `va`. -/
def userPage (m : Nat → Bytes) (pt va : Nat) : Option Nat :=
  let pte := pteAt m 2 pt va
  if va < MAXVA ∧ pte.has PTE_V = true ∧ pte.has PTE_U = true then some (PTE2PA pte) else none

section UserPage
omit [Layout]
variable {m : Nat → Bytes} {va va' : Nat}

theorem userPage_of_same_page (h : va/PGSIZE = va'/PGSIZE) : userPage m pt va = userPage m pt va' := by
  have hlt : va < MAXVA ↔ va' < MAXVA := by rw [← page_lt_iff, ← page_lt_iff, h]
  unfold userPage
  rw [pteAt_of_same_page h]
  simp only [hlt]

theorem userPage_lt {pa : Nat} (h : userPage m pt va = some pa) : va < MAXVA := by
  unfold userPage at h
  by_contra hge
  rw [if_neg fun hc => hge hc.1] at h
  cases h

theorem walkaddr_userPage (s : Phys) (pt va : Nat) :
    Runs (walkaddr pt va) s fun pa s' => s' = s ∧ pa = (userPage s.mem pt va).getD 0 := by
  unfold walkaddr userPage
  rw [runs_ite]
  constructor
  · intro hge
    rw [runs_pure, if_neg (by omega)]
    exact ⟨rfl, rfl⟩
  · intro hlt
    have hva : va < MAXVA := by omega
    rw [runs_bind, runs_walk_found hva, pteAt]
    cases lookup s.mem 2 pt va with
    | none =>
      rw [runs_pure, if_neg fun h => absurd h.2.1 (show ¬ (0 : Pte).has PTE_V = true by decide)]
      exact ⟨rfl, rfl⟩
    | some slot =>
      simp only [runs_bind, runs_get, runs_ite, runs_pure]
      refine ⟨fun hV => ⟨trivial, ?_⟩, fun hV => ⟨fun hU => ⟨trivial, ?_⟩, fun hU => ⟨trivial, ?_⟩⟩⟩
      · rw [if_neg fun h => hV h.2.1]
        rfl
      · rw [if_neg fun h => hU h.2.2]
        rfl
      · rw [if_pos ⟨hva, by simpa using hV, by simpa using hU⟩]
        rfl

end UserPage

theorem Maps.userPage (h : Maps s pt f F U) (va : Nat) : userPage s.mem pt va =
    if va < MAXVA ∧ (f (va/PGSIZE)).has PTE_V = true ∧ (f (va/PGSIZE)).has PTE_U = true
      then some (PTE2PA (f (va/PGSIZE))) else none := by
  unfold Xv6.userPage
  by_cases hva : va < MAXVA
  · have hv := page_lt_iff.mpr hva
    rw [← pteAt_of_same_page (page_div (va/PGSIZE)), h.pte (va/PGSIZE) (by omega)]
  · rw [if_neg fun hc => hva hc.1, if_neg fun hc => hva hc.1]

theorem walkaddr_spec (va : Nat) (h : Maps s pt f F U) :
    Runs (walkaddr pt va) s fun r s' => s' = s ∧
      r = if va < MAXVA ∧ (f (va/PGSIZE)).has PTE_V = true ∧ (f (va/PGSIZE)).has PTE_U = true
        then PTE2PA (f (va/PGSIZE)) else 0 := by
  apply (walkaddr_userPage s pt va).imp
  intro pa s' hpa
  rw [hpa.2, h.userPage, apply_ite (Option.getD · 0)]
  exact ⟨hpa.1, rfl⟩

/-- What `copy_on_write` can do for page `v`: take the page over when nothing
else maps it, fail when memory is full, or move the mapping to a copy. -/
inductive Cowed (s : Phys) (pt v : Nat) (f : Nat → Pte) (F U : List Nat) :
    Int → Phys → Prop
  | own (s' : Phys) (hU : PTE2PA (f v) ∉ U)
      (maps : Maps s' pt (update f v (ownWord (f v))) F (PTE2PA (f v) :: U))
      (frame : Frame s s' F (PTE2PA (f v) :: U)) (free : s'.freelist = s.freelist)
      (tables : tables s'.mem 2 pt = tables s.mem 2 pt) : Cowed s pt v f F U 0 s'
  | full (hU : PTE2PA (f v) ∈ U) (hf : s.freelist = []) : Cowed s pt v f F U (-1) s
  | copy (s' : Phys) (new : Nat) (hU : PTE2PA (f v) ∈ U)
      (maps : Maps s' pt (update f v (mapWord new (ownFlags (f v)))) F (new :: U))
      (frame : Frame s s' F U) (content : s'.mem new = s.mem (PTE2PA (f v)))
      (free : s.freelist = new :: s'.freelist)
      (tables : tables s'.mem 2 pt = tables s.mem 2 pt) : Cowed s pt v f F U 0 s'

theorem copy_on_write_spec {va : Nat} (h : Maps s pt f F (PTE2PA (f (va/PGSIZE)) :: U))
    (hva : va < MAXVA) (hleaf : Leaf (f (va/PGSIZE))) :
    Runs (copy_on_write pt va) s (Cowed s pt (va/PGSIZE) f F U) := by
  have hv := page_lt_iff.mpr hva
  unfold copy_on_write
  rw [runs_bind, runs_walk_found hva]
  rcases h.walk_entry hva with ⟨-, hf⟩ | ⟨slot, hl, hl0, hload⟩
  · exact absurd hf hleaf.ne_zero
  set v := va/PGSIZE with hvdef
  simp only [hl, runs_bind, runs_get, hload]
  refine (cow_kalloc_spec h.ledger).imp ?_
  rintro r s1 (⟨hU, rfl, rfl⟩ | ⟨hU, hf, rfl, rfl⟩ | ⟨hU, new, rfl, hne, hf, hmem, hled⟩)
  · simp only [if_true, storePte, runs_bind, runs_modify, runs_pure]
    exact Cowed.own _ hU (h.store hv _ hl0).1 (h.store_frame _ hl) rfl (h.store_tables _ hl)
  · exact (runs_pure _).mpr (Cowed.full hU hf)
  · simp only [if_neg hne]
    have hnewK : new ∉ tables s.mem 2 pt ++ F ∧ new ∉ PTE2PA (f v) :: U :=
      h.ledger.free_not_mem (by rw [hf]; simp)
    have hm1 (q : Nat) (hq : q ≠ new) : s1.mem q = s.mem q := by
      rw [hmem, update_of_ne hq]
    have ht1 (q : Nat) (hq : q ∈ tables s.mem 2 pt) : s1.mem q = s.mem q := by
      apply hm1
      rintro rfl
      exact hnewK.1 (List.mem_append_left _ hq)
    have hfr1 : Frame s s1 F U := by
      intro q hq
      apply hm1
      rintro rfl
      have hqK := hq.mono (List.subset_append_right (tables s.mem 2 pt) F)
        (List.subset_cons_self (PTE2PA (f v)) U)
      exact h.ledger.kept_not_free hqK (by rw [hf]; simp)
    have h1 : Maps s1 pt f F (new :: U) := h.of_tables ht1 hled
    have hman : Managed new := hled.managed new (Or.inr (by simp))
    rw [show PGROUNDDOWN va = v*PGSIZE from rfl]
    refine (uvmunmap_keep_spec h1 hv hleaf).bind ?_
    rintro _ s2 ⟨h2, hfr2, hlk2, hfree2, -, htab2⟩
    have hl2 : lookup s2.mem 2 pt (v*PGSIZE) = some slot :=
      (hlk2 _).trans ((lookup_congr ht1 _).trans hl0)
    refine (mappages_spec new (ownFlags (f v)) h2 hv
      (by rw [update_self]; decide)).bind ?_
    rintro r s3 ⟨hfr3, -, -, hcase, hsame⟩
    -- The table page is there, so this `mappages` cannot fail.
    obtain ⟨rfl, hfree3, -, htab3⟩ := hsame slot hl2
    have h3 : Maps s3 pt (update f v (mapWord new (ownFlags (f v)))) F (new :: U) := by
      rcases hcase with ⟨-, hc⟩ | ⟨hr, -⟩
      · rwa [update_idem] at hc
      · exact absurd hr (by decide)
    simp only [ne_eq, not_true_eq_false, if_false, runs_pure]
    refine Cowed.copy s3 new hU h3 ?_ ?_ (by rw [hfree3, hfree2]; exact hf)
      (by rw [htab3, htab2, tables_congr ht1])
    · intro q hq
      have hq' := hq.mono (List.Subset.refl F) (List.subset_cons_self new U)
      rw [hfr3 q hq', hfr2 q hq']
      exact hfr1 q hq
    · rw [hfr3 new (Kept.user (by simp)), hfr2 new (Kept.user (by simp)), hmem, update_self]

end Entry

end Xv6
