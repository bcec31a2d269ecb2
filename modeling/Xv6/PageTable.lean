import Xv6.PageLedger
import Mathlib.Data.List.Perm.Lattice

/-! The three-level page table of `kernel/vm.c` as it lies in memory: `walk`,
the pages of a table, and the entry it finds for an address. -/
namespace Xv6

def loadPte (m : Nat → Bytes) (pagetable i : Nat) : Pte :=
  BitVec.ofNat 64 (leGet 8 (m pagetable) (8*i))

def setPte (m : Nat → Bytes) (slot : Nat × Nat) (w : Pte) : Nat → Bytes :=
  Function.update m slot.1 (leSet 8 (m slot.1) (8*slot.2) w.toNat)

def storePte (slot : Nat × Nat) (w : Pte) : Prog Phys Unit :=
  modify fun s => { s with mem := setPte s.mem slot w }

def walkLoop (alloc : Bool) (va : Nat) : Nat → Nat → Prog Phys (Option (Nat × Nat))
  | 0, pagetable => pure (some (pagetable, PX 0 va))
  | level+1, pagetable => do
    let s ← get
    let pte := loadPte s.mem pagetable (PX (level+1) va)
    if pte.has PTE_V then
      walkLoop alloc va level (PTE2PA pte)
    else if alloc = false then
      pure none
    else
      match ← kalloc with
      | none => pure none
      | some new =>
        memsetPage new 0
        storePte (pagetable, PX (level+1) va) (PA2PTE new ||| PTE_V)
        walkLoop alloc va level new

/-- The entry for `va`, as the page and the index where it stands. -/
def walk (pagetable va : Nat) (alloc : Bool) : Prog Phys (Option (Nat × Nat)) := do
  panicIf (MAXVA ≤ va) "walk"
  walkLoop alloc va 2 pagetable

/-- The next table that entry `i` of a table page points to. -/
def childOf (m : Nat → Bytes) (pt i : Nat) : Option Nat :=
  if (loadPte m pt i).has PTE_V then some (PTE2PA (loadPte m pt i)) else none

/-- Where `walk` without `alloc` ends, from a table page of level `l`. -/
def lookup (m : Nat → Bytes) : Nat → Nat → Nat → Option (Nat × Nat)
  | 0, pt, va => some (pt, PX 0 va)
  | l+1, pt, va => (childOf m pt (PX (l+1) va)).bind fun c => lookup m l c va

/-- The entry for `va`, zero where there is no table for it. -/
def pteAt (m : Nat → Bytes) (l pt va : Nat) : Pte :=
  match lookup m l pt va with
  | some slot => loadPte m slot.1 slot.2
  | none => 0

@[irreducible] def indices : List Nat := List.range 512

/-- All page-table pages below a table page of level `l`, itself included. -/
def tables (m : Nat → Bytes) : Nat → Nat → List Nat
  | 0, pt => [pt]
  | l+1, pt => pt :: indices.flatMap fun i => ((childOf m pt i).map (tables m l)).getD []

/-- The pages below entry `i` of a table page of level `l+1`. -/
def below (m : Nat → Bytes) (l pt i : Nat) : List Nat :=
  ((childOf m pt i).map (tables m l)).getD []

def others (m : Nat → Bytes) (l pt i : Nat) : List Nat :=
  (indices.erase i).flatMap (below m l pt)

/-- The links of a table are marked as links: no valid entry above level 0 has
`PTE_R`, `PTE_W` or `PTE_X`. -/
def Linked (m : Nat → Bytes) : Nat → Nat → Prop
  | 0, _ => True
  | l+1, pt => ∀ i < 512, ∀ c, childOf m pt i = some c →
      (loadPte m pt i).has (PTE_R ||| PTE_W ||| PTE_X) = false ∧ Linked m l c

section Shape
variable {m m' : Nat → Bytes} {l pt i va : Nat}

theorem walkLoop_lookup (s : Phys) (l pt va : Nat) :
    walkLoop false va l pt s = .ok (lookup s.mem l pt va, s) := by
  induction l generalizing pt with
  | zero => rfl
  | succ l ih =>
    simp only [walkLoop, lookup, childOf]
    change (if _ then _ else _ : Prog Phys _) s = _
    split_ifs with h
    · exact ih _
    · rfl

theorem mem_indices : i ∈ indices ↔ i < 512 := by
  unfold indices
  exact List.mem_range

theorem indices_nodup : indices.Nodup := by
  unfold indices
  exact List.nodup_range

theorem tables_succ : tables m (l+1) pt = pt :: indices.flatMap (below m l pt) := rfl

theorem below_some {c : Nat} (h : childOf m pt i = some c) : below m l pt i = tables m l c := by
  unfold below
  rw [h, Option.map_some, Option.getD_some]

theorem below_none (h : childOf m pt i = none) : below m l pt i = [] := by
  unfold below
  rw [h, Option.map_none, Option.getD_none]

theorem tables_split (hi : i < 512) :
    (tables m (l+1) pt).Perm (below m l pt i ++ pt :: others m l pt i) := by
  have hr : indices.Perm (i :: indices.erase i) := List.perm_cons_erase (mem_indices.mpr hi)
  have hf := hr.flatMap_right (below m l pt)
  rw [List.flatMap_cons] at hf
  rw [tables_succ]
  exact (hf.cons pt).trans List.perm_middle.symm

theorem PX_mul_PGSIZE (l v : Nat) : PX l (v*PGSIZE) = v / 2^(9*l) % 512 := by
  rw [PX_eq, pow_add, ← Nat.div_div_eq_div_mul, show (2:Nat)^12 = PGSIZE by decide,
    Nat.mul_div_cancel _ (by decide)]

/-- A page has a slot when another page in the same table has one. -/
theorem lookup_neighbour {v w : Nat} {slot : Nat × Nat} (h : v/512 = w/512)
    (hl : lookup m 2 pt (v*PGSIZE) = some slot) :
    ∃ slot', lookup m 2 pt (w*PGSIZE) = some slot' := by
  have h1 : PX 1 (w*PGSIZE) = PX 1 (v*PGSIZE) := by
    rw [PX_mul_PGSIZE, PX_mul_PGSIZE]
    norm_num
    omega
  have h2 : PX 2 (w*PGSIZE) = PX 2 (v*PGSIZE) := by
    rw [PX_mul_PGSIZE, PX_mul_PGSIZE]
    norm_num
    omega
  simp only [lookup, Option.bind_eq_some_iff, h1, h2] at hl ⊢
  obtain ⟨c, hc, c', hc', -⟩ := hl
  exact ⟨_, c, hc, c', hc', rfl⟩

theorem two_le_tables {c va : Nat} {slot : Nat × Nat} (h : lookup m 1 c va = some slot) :
    2 ≤ (tables m 1 c).length := by
  obtain ⟨d, hd, -⟩ := Option.bind_eq_some_iff.mp h
  have hs : (tables m 1 c).length = _ := (tables_split (PX_lt 1 va)).length_eq
  rw [below_some hd, List.length_append, List.length_cons] at hs
  have h1 : (tables m 0 d).length = 1 := rfl
  omega

/-- Two pages far apart need five table pages. -/
theorem five_le_tables {va va' : Nat} {slot slot' : Nat × Nat} (h : lookup m 2 pt va = some slot)
    (h' : lookup m 2 pt va' = some slot') (hne : PX 2 va ≠ PX 2 va') :
    5 ≤ (tables m 2 pt).length := by
  obtain ⟨c, hc, h⟩ := Option.bind_eq_some_iff.mp h
  obtain ⟨c', hc', h'⟩ := Option.bind_eq_some_iff.mp h'
  have hs : (tables m 2 pt).length = _ := (tables_split (PX_lt 2 va)).length_eq
  rw [below_some hc, List.length_append, List.length_cons] at hs
  have hin : PX 2 va' ∈ indices.erase (PX 2 va) :=
    (List.mem_erase_of_ne hne.symm).mpr (mem_indices.mpr (PX_lt 2 va'))
  have hsub : (below m 1 pt (PX 2 va')).Sublist (others m 1 pt (PX 2 va)) :=
    List.sublist_flatten_of_mem (List.mem_map_of_mem hin)
  have hle := hsub.length_le
  rw [below_some hc'] at hle
  have h2 := two_le_tables h
  have h2' := two_le_tables h'
  omega

theorem mem_tables_self : pt ∈ tables m l pt := by
  cases l <;> simp [tables]

theorem below_subset (hi : i < 512) : ∀ q ∈ below m l pt i, q ∈ tables m (l+1) pt := by
  intro q hq
  exact (tables_split hi).mem_iff.mpr (List.mem_append_left _ hq)

theorem loadPte_congr (h : m' pt = m pt) : loadPte m' pt i = loadPte m pt i := by
  unfold loadPte
  rw [h]

theorem childOf_congr (h : m' pt = m pt) : childOf m' pt i = childOf m pt i := by
  unfold childOf
  rw [loadPte_congr h]

theorem tables_congr (h : ∀ q ∈ tables m l pt, m' q = m q) : tables m' l pt = tables m l pt := by
  induction l generalizing pt with
  | zero => rfl
  | succ l ih =>
    have hpt : m' pt = m pt := h pt mem_tables_self
    have hbelow (i : Nat) (hi : i ∈ indices) : below m' l pt i = below m l pt i := by
      have hsub : ∀ q ∈ below m l pt i, q ∈ tables m (l+1) pt := below_subset (mem_indices.mp hi)
      cases hc : childOf m pt i with
      | none => rw [below_none hc, below_none ((childOf_congr hpt).trans hc)]
      | some c =>
        rw [below_some hc] at hsub
        rw [below_some hc, below_some ((childOf_congr hpt).trans hc)]
        exact ih fun q hq => h q (hsub q hq)
    rw [tables_succ, tables_succ, List.flatMap_congr hbelow]

theorem below_congr (hpt : m' pt = m pt) (h : ∀ q ∈ below m l pt i, m' q = m q) :
    below m' l pt i = below m l pt i := by
  cases hc : childOf m pt i with
  | none => rw [below_none hc, below_none ((childOf_congr hpt).trans hc)]
  | some c =>
    rw [below_some hc] at h
    rw [below_some hc, below_some ((childOf_congr hpt).trans hc)]
    exact tables_congr h

theorem others_congr (hpt : m' pt = m pt) (h : ∀ q ∈ others m l pt i, m' q = m q) :
    others m' l pt i = others m l pt i := by
  apply List.flatMap_congr
  intro j hj
  exact below_congr hpt fun q hq => h q (List.mem_flatMap.mpr ⟨j, hj, hq⟩)

theorem lookup_congr (h : ∀ q ∈ tables m l pt, m' q = m q) (va : Nat) :
    lookup m' l pt va = lookup m l pt va := by
  induction l generalizing pt with
  | zero => rfl
  | succ l ih =>
    have hsub : ∀ q ∈ below m l pt (PX (l+1) va), q ∈ tables m (l+1) pt :=
      below_subset (PX_lt (l+1) va)
    simp only [lookup, childOf_congr (h pt mem_tables_self)]
    cases hc : childOf m pt (PX (l+1) va) with
    | none => rfl
    | some c =>
      rw [below_some hc] at hsub
      exact ih fun q hq => h q (hsub q hq)

theorem lookup_mem {q j : Nat} (h : lookup m l pt va = some (q, j)) :
    q ∈ tables m l pt ∧ j = PX 0 va := by
  induction l generalizing pt with
  | zero =>
    simp only [lookup, Option.some.injEq, Prod.mk.injEq] at h
    exact ⟨by simp [tables, h.1], h.2.symm⟩
  | succ l ih =>
    simp only [lookup, Option.bind_eq_some_iff] at h
    obtain ⟨c, hc, hl⟩ := h
    obtain ⟨hq, hj⟩ := ih hl
    exact ⟨below_subset (PX_lt (l+1) va) q (by rw [below_some hc]; exact hq), hj⟩

theorem lookup_page (va : Nat) : lookup m l pt (va / PGSIZE * PGSIZE) = lookup m l pt va := by
  induction l generalizing pt with
  | zero => simp only [lookup, PX_page]
  | succ l ih => simp only [lookup, PX_page, ih]

theorem pteAt_congr (h : ∀ q ∈ tables m l pt, m' q = m q) (va : Nat) :
    pteAt m' l pt va = pteAt m l pt va := by
  unfold pteAt
  rw [lookup_congr h]
  cases hl : lookup m l pt va with
  | none => rfl
  | some slot =>
    have hq := (lookup_mem (q := slot.1) (j := slot.2) hl).1
    exact loadPte_congr (h _ hq)

theorem linked_congr (h : ∀ q ∈ tables m l pt, m' q = m q) (hl : Linked m l pt) :
    Linked m' l pt := by
  induction l generalizing pt with
  | zero => trivial
  | succ l ih =>
    have hpt : m' pt = m pt := h pt mem_tables_self
    intro i hi c hc
    rw [childOf_congr hpt] at hc
    obtain ⟨hw, hsub⟩ := hl i hi c hc
    refine ⟨by rw [loadPte_congr hpt]; exact hw, ih (fun q hq => h q ?_) hsub⟩
    exact below_subset hi q (by rw [below_some hc]; exact hq)

end Shape

end Xv6
