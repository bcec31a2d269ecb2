import Xv6.Vm
import Mathlib.Data.List.Range

/-! A page table as a map from page numbers to entries, with the ledger of all
pages around it, and what `mappages` and `uvmunmap` do to the map. -/
namespace Xv6

open Function

def VPAGES : Nat := MAXVA / PGSIZE

theorem page_lt_MAXVA {v : Nat} (h : v < VPAGES) : v*PGSIZE < MAXVA := by
  simp only [VPAGES, MAXVA, PGSIZE] at *
  norm_num at h ⊢
  omega

theorem page_lt_VASIZE {v : Nat} (h : v < 2*VPAGES) : v*PGSIZE < VASIZE := by
  simp only [VPAGES, MAXVA, PGSIZE, VASIZE] at *
  norm_num at h ⊢
  omega

theorem page_lt_iff {va : Nat} : va/PGSIZE < VPAGES ↔ va < MAXVA := by
  have hM : MAXVA = VPAGES*PGSIZE := by decide
  rw [hM, Nat.div_lt_iff_lt_mul (by decide)]

theorem page_div (v : Nat) : v*PGSIZE / PGSIZE = v := Nat.mul_div_cancel v (by decide)

variable [Layout]

/-- The table `pt` holds entry `f v` for page `v`. Its own pages are on the
ledger as kernel pages beside `F`; `U` are the pages of user mappings. -/
structure Maps (s : Phys) (pt : Nat) (f : Nat → Pte) (F U : List Nat) : Prop where
  ledger : Ledger s (tables s.mem 2 pt ++ F) U
  linked : Linked s.mem 2 pt
  pte : ∀ v < 2*VPAGES, pteAt s.mem 2 pt (v*PGSIZE) = f v

def Frame (s s' : Phys) (F U : List Nat) : Prop := ∀ q, Kept F U q → s'.mem q = s.mem q

theorem Frame.trans {s s' s'' : Phys} {F U : List Nat} (h : Frame s s' F U)
    (h' : Frame s' s'' F U) : Frame s s'' F U := fun q hq => (h' q hq).trans (h q hq)

section Facts
variable {s s' : Phys} {pt v : Nat} {f : Nat → Pte} {F U F' U' : List Nat}

theorem Maps.nodup (h : Maps s pt f F U) : (tables s.mem 2 pt).Nodup :=
  (List.nodup_append.mp h.ledger.nodup).1

theorem Maps.table_not_frame (h : Maps s pt f F U) {q : Nat} (hq : q ∈ tables s.mem 2 pt) :
    q ∉ F ∧ q ∉ U :=
  ⟨fun hf => (List.nodup_append.mp h.ledger.nodup).2.2 q hq q hf rfl,
    h.ledger.disjoint q (List.mem_append_left _ hq)⟩

/-- The map stays while the pages of the table keep their content. -/
theorem Maps.of_tables (h : Maps s pt f F U) (hm : ∀ q ∈ tables s.mem 2 pt, s'.mem q = s.mem q)
    (hl : Ledger s' (tables s.mem 2 pt ++ F') U') : Maps s' pt f F' U' where
  ledger := by rwa [tables_congr hm]
  linked := linked_congr hm h.linked
  pte v hv := by rw [pteAt_congr hm]; exact h.pte v hv

theorem Maps.slot_of_ne_zero (h : Maps s pt f F U) (hv : v < VPAGES) (hf : f v ≠ 0) :
    ∃ slot, lookup s.mem 2 pt (v*PGSIZE) = some slot ∧ loadPte s.mem slot.1 slot.2 = f v := by
  have hp := h.pte v (by omega)
  unfold pteAt at hp
  cases hl : lookup s.mem 2 pt (v*PGSIZE) with
  | none => rw [hl] at hp; exact absurd hp.symm hf
  | some slot => rw [hl] at hp; exact ⟨slot, rfl, hp⟩

theorem Maps.load_slot (h : Maps s pt f F U) (hv : v < VPAGES) {slot : Nat × Nat}
    (hl : lookup s.mem 2 pt (v*PGSIZE) = some slot) : loadPte s.mem slot.1 slot.2 = f v := by
  rw [← h.pte v (by omega)]
  simp only [pteAt, hl]

theorem Maps.store (h : Maps s pt f F U) (hv : v < VPAGES) {slot : Nat × Nat} (w : Pte)
    (hl : lookup s.mem 2 pt (v*PGSIZE) = some slot) :
    Maps { s with mem := setPte s.mem slot w } pt (update f v w) F U ∧
      (∀ q, q ≠ slot.1 → setPte s.mem slot w q = s.mem q) ∧
      (∀ va, lookup (setPte s.mem slot w) 2 pt va = lookup s.mem 2 pt va) := by
  obtain ⟨q, j⟩ := slot
  have hva := page_lt_VASIZE (v := v) (by omega)
  have hother : ∀ p, p ≠ q → setPte s.mem (q, j) w p = s.mem p := fun p hp => setPte_of_ne hp
  obtain ⟨ht, hlk, hL⟩ := leaf_page_frame h.nodup hl hother
  refine ⟨⟨?_, hL h.linked, ?_⟩, hother, hlk⟩
  · change Ledger _ (tables (setPte s.mem (q, j) w) 2 pt ++ F) U
    rw [ht]
    exact h.ledger.of_mem _
  · intro k hk
    change pteAt (setPte s.mem (q, j) w) 2 pt (k*PGSIZE) = _
    rw [pteAt_setPte h.nodup hva (page_lt_VASIZE hk) hl, page_div, page_div]
    by_cases hkv : k = v
    · subst hkv
      rw [if_pos rfl, update_self]
    · rw [if_neg hkv, update_of_ne hkv]
      exact h.pte k hk

theorem Maps.store_tables (h : Maps s pt f F U) {slot : Nat × Nat} (w : Pte) {va : Nat}
    (hl : lookup s.mem 2 pt va = some slot) :
    tables (setPte s.mem slot w) 2 pt = tables s.mem 2 pt := by
  obtain ⟨q, j⟩ := slot
  exact (leaf_page_frame h.nodup hl fun _ hp => setPte_of_ne hp).1

theorem Maps.store_frame (h : Maps s pt f F U) {slot : Nat × Nat} (w : Pte) {va : Nat}
    (hl : lookup s.mem 2 pt va = some slot) :
    Frame s { s with mem := setPte s.mem slot w } F U := by
  intro q hq
  apply setPte_of_ne
  exact h.ledger.kept_ne (lookup_mem (q := slot.1) (j := slot.2) hl).1 hq

omit [Layout] in
theorem walk_found (s : Phys) (pt va : Nat) (h : va < MAXVA) :
    walk pt va false s = .ok (lookup s.mem 2 pt va, s) := by
  have hp : (panicIf (MAXVA ≤ va) "walk" : Prog Phys Unit) s = .ok ((), s) := by
    unfold panicIf
    rw [if_neg (by omega)]
    rfl
  change (do let p ← panicIf (MAXVA ≤ va) "walk" s; walkLoop false va 2 pt p.2) = _
  rw [hp]
  exact walkLoop_lookup s 2 pt va

omit [Layout] in
theorem runs_walk_found {va : Nat} {Q : Option (Nat × Nat) → Phys → Prop} (h : va < MAXVA) :
    Runs (walk pt va false) s Q ↔ Q (lookup s.mem 2 pt va) s := by
  constructor
  · intro hr
    exact hr.of_eq (walk_found s pt va h)
  · intro hq
    exact ⟨_, _, walk_found s pt va h, hq⟩

end Facts

section MapPage
variable {s : Phys} {pt v : Nat} {f : Nat → Pte} {F U : List Nat}

omit [Layout] in
theorem mappages_one (pt v pa : Nat) (perm : Pte) :
    mappages pt (v*PGSIZE) PGSIZE pa perm = mappagesLoop pt perm 1 (v*PGSIZE) pa := by
  have h1 : PGROUNDDOWN (v*PGSIZE) = v*PGSIZE := by
    unfold PGROUNDDOWN
    rw [page_div]
  have h2 : PGROUNDDOWN (v*PGSIZE+PGSIZE-1) = v*PGSIZE := by
    simp only [PGROUNDDOWN, PGSIZE]
    omega
  simp only [mappages, h1, h2, Nat.sub_self, Nat.zero_div, Nat.zero_add]

/-- `mappages` of one page that is not mapped: it stores the entry, or finds no
memory for a table page. With a table in place it cannot fail. -/
theorem mappages_spec (pa : Nat) (perm : Pte) (h : Maps s pt f F U) (hv : v < VPAGES)
    (hf : (f v).has PTE_V = false) :
    Runs (mappages pt (v*PGSIZE) PGSIZE pa perm) s fun r s' =>
      Frame s s' F U ∧ s'.freelist <:+ s.freelist ∧
      s.freelist.length ≤ s'.freelist.length + 2 ∧
      ((r = 0 ∧ Maps s' pt (update f v (PA2PTE pa ||| perm ||| PTE_V)) F U) ∨
        (r = -1 ∧ s'.freelist = [] ∧ Maps s' pt f F U)) ∧
      (∀ slot, lookup s.mem 2 pt (v*PGSIZE) = some slot →
        r = 0 ∧ s'.freelist = s.freelist ∧ s'.pageref = s.pageref ∧
          tables s'.mem 2 pt = tables s.mem 2 pt) := by
  have hva := page_lt_MAXVA hv
  rw [mappages_one]
  simp only [mappagesLoop, runs_bind]
  refine (walk_alloc_spec hva h.ledger h.linked).imp ?_
  intro r s1 hw
  have h1 : Maps s1 pt f F U := ⟨hw.ledger, hw.linked, fun k hk => (hw.pte _).trans (h.pte k hk)⟩
  cases r with
  | none =>
    refine (runs_pure _).mpr ⟨hw.frame, hw.suffix, hw.used,
      Or.inr ⟨rfl, hw.out rfl, h1⟩, ?_⟩
    intro slot hs
    cases (hw.same slot hs).1
  | some slot =>
    have hl := hw.found slot rfl
    have hload := h1.load_slot hv hl
    simp only [runs_bind, runs_get, runs_panicIf, storePte, runs_modify, runs_pure, hload]
    refine ⟨by simp [hf], ?_, hw.suffix, hw.used, Or.inl ⟨trivial, (h1.store hv _ hl).1⟩, ?_⟩
    · exact Frame.trans hw.frame (h1.store_frame _ hl)
    · intro slot' hs
      obtain ⟨-, rfl⟩ := hw.same slot' hs
      exact ⟨trivial, rfl, rfl, h1.store_tables _ hl⟩

end MapPage

section Unmap
variable {s : Phys} {pt : Nat} {f : Nat → Pte} {F U : List Nat}

/-- An entry that `uvmunmap` accepts. -/
def Leaf (w : Pte) : Prop := w.has PTE_V = true ∧ PTE_FLAGS w ≠ PTE_V

omit [Layout] in
theorem Leaf.ne_zero {w : Pte} (h : Leaf w) : w ≠ 0 := by
  rintro rfl
  exact absurd h.1 (by decide)

def dropRange (f : Nat → Pte) (v n : Nat) : Nat → Pte := fun k => if v ≤ k ∧ k < v+n then 0 else f k

def pagesOf (f : Nat → Pte) (v n : Nat) : List Nat := (List.range' v n).map fun k => PTE2PA (f k)

section
omit [Layout]

theorem pagesOf_succ (f : Nat → Pte) (v n : Nat) :
    pagesOf f v (n+1) = PTE2PA (f v) :: pagesOf f (v+1) n := by
  simp [pagesOf, List.range'_succ]

theorem pagesOf_congr {f g : Nat → Pte} {v n : Nat} (h : ∀ k, v ≤ k → k < v+n → f k = g k) :
    pagesOf f v n = pagesOf g v n := by
  apply List.map_congr_left
  intro k hk
  have := List.mem_range'_1.mp hk
  rw [h k this.1 (by omega)]

theorem dropRange_succ (f : Nat → Pte) (v n : Nat) :
    dropRange f v (n+1) = dropRange (update f v 0) (v+1) n := by
  funext k
  simp only [dropRange]
  by_cases hk : k = v
  · subst hk
    rw [if_pos (by omega), if_neg (by omega), update_self]
  · rw [update_of_ne hk]
    by_cases hr : v ≤ k ∧ k < v+(n+1)
    · rw [if_pos hr, if_pos (by omega)]
    · rw [if_neg hr, if_neg (by omega)]

end

/-- What `uvmunmap` leaves behind. -/
structure Unmapped (s : Phys) (pt : Nat) (f : Nat → Pte) (F U : List Nat) (v n : Nat)
    (s' : Phys) : Prop where
  maps : Maps s' pt (dropRange f v n) F U
  frame : Frame s s' F U
  lookup : ∀ va, lookup s'.mem 2 pt va = lookup s.mem 2 pt va

/-- `uvmunmap` with `do_free`: the pages of the range leave the ledger. -/
theorem uvmunmap_free_spec (n : Nat) : ∀ (s : Phys) (v : Nat) (f : Nat → Pte),
    Maps s pt f F (pagesOf f v n ++ U) → v+n ≤ VPAGES → (∀ k, v ≤ k → k < v+n → Leaf (f k)) →
    Runs (uvmunmap pt (v*PGSIZE) n true) s fun _ s' => Unmapped s pt f F U v n s' := by
  suffices hloop : ∀ (s : Phys) (v : Nat) (f : Nat → Pte),
      Maps s pt f F (pagesOf f v n ++ U) → v+n ≤ VPAGES →
      (∀ k, v ≤ k → k < v+n → Leaf (f k)) →
      Runs (uvmunmapLoop pt true n (v*PGSIZE)) s fun _ s' => Unmapped s pt f F U v n s' by
    intro s v f h hv hleaf
    unfold uvmunmap
    rw [runs_bind, runs_panicIf]
    exact ⟨by simp, hloop s v f h hv hleaf⟩
  induction n with
  | zero =>
    intro s v f h _ _
    simp only [uvmunmapLoop, runs_pure]
    have hd : dropRange f v 0 = f := by
      funext k
      simp only [dropRange]
      rw [if_neg (by omega)]
    exact ⟨by rw [hd]; simpa [pagesOf] using h, fun _ _ => rfl, fun _ => rfl⟩
  | succ n ih =>
    intro s v f h hv hleaf
    have hvv : v < VPAGES := by omega
    obtain ⟨hV, hflags⟩ := hleaf v le_rfl (by omega)
    obtain ⟨slot, hl, hload⟩ := h.slot_of_ne_zero hvv (hleaf v le_rfl (by omega)).ne_zero
    rw [pagesOf_succ, List.cons_append] at h
    simp only [uvmunmapLoop, runs_bind, runs_walk_found (page_lt_MAXVA hvv), hl, runs_get,
      runs_panicIf, hload, if_true]
    refine ⟨by simp [hV], hflags, ?_⟩
    refine (kfree_user h.ledger).imp ?_
    intro _ s1 hpost
    obtain ⟨hled, hpage⟩ := hpost
    -- `kfree` touches the content of the freed page alone, and only if it was the last mapping.
    have hm1 : ∀ q, q ≠ PTE2PA (f v) ∨ q ∈ pagesOf f (v+1) n ++ U → s1.mem q = s.mem q := by
      intro q hq
      split_ifs at hpage with hin
      · rw [hpage.1]
      · rw [hpage.1, update_of_ne]
        rintro rfl
        exact hq.elim (fun hn => hn rfl) hin
    have ht1 : ∀ q ∈ tables s.mem 2 pt, s1.mem q = s.mem q := by
      intro q hq
      apply hm1
      left
      rintro rfl
      exact (h.table_not_frame hq).2 (by simp)
    have h1 : Maps s1 pt f F (pagesOf f (v+1) n ++ U) := h.of_tables ht1 hled
    have hl1 : lookup s1.mem 2 pt (v*PGSIZE) = some slot := (lookup_congr ht1 _).trans hl
    simp only [storePte, runs_modify]
    obtain ⟨h2, -, hlk⟩ := h1.store hvv 0 hl1
    have hpg : pagesOf f (v+1) n = pagesOf (update f v 0) (v+1) n :=
      pagesOf_congr fun k hk _ => (update_of_ne (by omega) _ _).symm
    rw [hpg] at h2
    have hcall := ih _ (v+1) (update f v 0) h2 (by omega) (by
      intro k hk hk'
      rw [update_of_ne (by omega)]
      exact hleaf k (by omega) (by omega))
    rw [show v*PGSIZE + PGSIZE = (v+1)*PGSIZE by ring]
    refine hcall.imp ?_
    intro _ s' hu
    refine ⟨by rw [dropRange_succ]; exact hu.maps, ?_, ?_⟩
    · intro q hq
      rw [hu.frame q hq]
      have hfr := h1.store_frame 0 hl1 q
        (hq.mono (List.Subset.refl _) (List.subset_append_right _ _))
      rw [hfr]
      apply hm1
      by_cases hqv : q = PTE2PA (f v)
      · right
        rcases hq with hq | hq | hq
        · exact absurd (h.ledger.disjoint q (List.mem_append_right _ hq)) (by simp [hqv])
        · exact List.mem_append_right _ hq
        · exact absurd (h.ledger.managed q (Or.inr (by simp [hqv]))) hq
      · exact Or.inl hqv
    · intro va
      rw [hu.lookup va]
      exact (hlk va).trans (lookup_congr ht1 va)

theorem uvmunmap_keep_spec {v : Nat} (h : Maps s pt f F U) (hv : v < VPAGES) (hleaf : Leaf (f v)) :
    Runs (uvmunmap pt (v*PGSIZE) 1 false) s fun _ s' =>
      Maps s' pt (update f v 0) F U ∧ Frame s s' F U ∧
      (∀ va, lookup s'.mem 2 pt va = lookup s.mem 2 pt va) ∧
      s'.freelist = s.freelist ∧ s'.pageref = s.pageref ∧
      tables s'.mem 2 pt = tables s.mem 2 pt := by
  obtain ⟨slot, hl, hload⟩ := h.slot_of_ne_zero hv hleaf.ne_zero
  unfold uvmunmap
  simp only [uvmunmapLoop, runs_bind, runs_walk_found (page_lt_MAXVA hv), hl, runs_get,
    runs_panicIf, hload, storePte, Bool.false_eq_true, if_false]
  obtain ⟨h2, -, hlk⟩ := h.store hv 0 hl
  refine ⟨by simp, by simp [hleaf.1], hleaf.2, ?_⟩
  rw [runs_modify, runs_pure]
  exact ⟨h2, h.store_frame 0 hl, hlk, rfl, rfl, h.store_tables 0 hl⟩

end Unmap

end Xv6
