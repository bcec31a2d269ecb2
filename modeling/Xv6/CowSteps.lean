import Xv6.Interleave
import Xv6.PteWords

/-! Copy-on-write faults, forks and unmappings of one user page that run at the same time
on several processes. Every process has one page table entry for the page. `cow_kalloc`,
`pageRef` and `kfree` are steps, since they hold `pageref_lock`; what the same process
does to page tables before or after them is a step of its own. -/
namespace Xv6

open Function
open scoped BigOperators

variable {ι : Type}

/-- Where a process stands, with its page table entry: `fault new` in `copy_on_write` with
the page that `cow_kalloc` has returned, `fork child` in `uvmcopy` before `pageRef`, and
`unmap` in `uvmunmap` after `kfree`. A child cannot run before its parent has counted the
page. -/
inductive CowProc (ι : Type)
  | absent
  | unborn (parent : ι) (w : Pte)
  | idle (w : Pte)
  | fault (new : Nat) (w : Pte)
  | fork (child : ι) (w : Pte)
  | unmap (w : Pte)

def CowProc.pte : CowProc ι → Pte
  | .absent => 0
  | .unborn _ w | .idle w | .fault _ w | .fork _ w | .unmap w => w

def CowProc.maps (x : CowProc ι) (a : Nat) : Prop := x.pte.has PTE_V = true ∧ PTE2PA x.pte = a

def CowProc.midway : CowProc ι → Prop
  | .fault .. | .unmap _ => True
  | _ => False

structure CowState (ι : Type) where
  phys : Phys
  proc : ι → CowProc ι

/-- `p` can write to a page with the bytes `orig`, and whoever else maps that page is about
to replace or unmap it. -/
def CowState.Owns (s : CowState ι) (orig : Bytes) (p : ι) : Prop :=
  ∃ w, s.proc p = .idle w ∧ w.has PTE_V = true ∧ w.has PTE_W = true ∧ w.has PTE_COW = false ∧
    s.phys.mem (PTE2PA w) = orig ∧ ∀ q, q ≠ p → (s.proc q).maps (PTE2PA w) → (s.proc q).midway

inductive CowOp (ι : Type)
  | fault (p : ι)
  | replace (p : ι)
  | fork (p child : ι)
  | pageRef (p : ι)
  | kfree (p : ι)
  | clear (p : ι)

/-- The steps of `copy_on_write`. -/
def CowOp.isFault : CowOp ι → Prop
  | .fault _ | .replace _ => True
  | _ => False

/-- The steps with which `p` shares its page or gives it up. -/
def CowOp.leaves (p : ι) : CowOp ι → Prop
  | .fork q _ | .kfree q => q = p
  | _ => False

def CowOp.enabled (s : CowState ι) : CowOp ι → Prop
  | .fault p => ∃ w, s.proc p = .idle w ∧ w.has PTE_COW = true
  | .replace p => ∃ new w, s.proc p = .fault new w
  | .fork p child => (∃ w, s.proc p = .idle w) ∧ s.proc child = .absent
  | .pageRef p => ∃ child w, s.proc p = .fork child w
  | .kfree p => ∃ w, s.proc p = .idle w
  | .clear p => ∃ w, s.proc p = .unmap w

def onPhys {α : Type} (x : Prog Phys α) : Prog (CowState ι) α :=
  zoom CowState.phys (fun t s => { s with phys := t }) x

section Model
variable [DecidableEq ι]

def CowState.goto (s : CowState ι) (p : ι) (x : CowProc ι) : CowState ι :=
  { s with proc := update s.proc p x }

/-- The first half of `copy_on_write`. Without memory it returns -1. -/
def cowAlloc (p : ι) (w : Pte) : Prog (CowState ι) Unit := do
  match ← onPhys (cow_kalloc (PTE2PA w)) with
  | none => pure ()
  | some new_pa => modify fun s => s.goto p (.fault new_pa w)

/-- The second half: new flags for the old page, or `uvmunmap` and `mappages`. -/
def cowReplace (p : ι) (new_pa : Nat) (w : Pte) : Prog (CowState ι) Unit := do
  if new_pa = PTE2PA w then
    modify fun s => s.goto p (.idle (ownWord w))
  else
    panicIf (¬ w.has PTE_V) "uvmunmap: not mapped"
    panicIf (PTE_FLAGS w = PTE_V) "uvmunmap: not a leaf"
    modify fun s => s.goto p (.idle (mapWord new_pa (ownFlags w)))

/-- A round of `uvmcopy` before `pageRef`. -/
def cowShare (p child : ι) (w : Pte) : Prog (CowState ι) Unit := do
  panicIf (¬ w.has PTE_V) "uvmcopy: page not present"
  let pte := cowWord w
  let s ← get
  panicIf ((s.proc child).pte.has PTE_V) "remap"
  modify fun s => (s.goto p (.fork child pte)).goto child
    (.unborn p (mapWord (PTE2PA w) (PTE_FLAGS pte)))

variable [Layout]

def CowOp.run (op : CowOp ι) : Prog (CowState ι) Unit := do
  let s ← get
  match op with
  | .fault p =>
    match s.proc p with
    | .idle w => cowAlloc p w
    | _ => pure ()
  | .replace p =>
    match s.proc p with
    | .fault new w => cowReplace p new w
    | _ => pure ()
  | .fork p child =>
    match s.proc p with
    | .idle w => cowShare p child w
    | _ => pure ()
  | .pageRef p =>
    match s.proc p with
    | .fork child w =>
      onPhys (Xv6.pageRef (PTE2PA w))
      modify fun s => (s.goto p (.idle w)).goto child (.idle (s.proc child).pte)
    | _ => pure ()
  | .kfree p =>
    match s.proc p with
    | .idle w =>
      panicIf (¬ w.has PTE_V) "uvmunmap: not mapped"
      panicIf (PTE_FLAGS w = PTE_V) "uvmunmap: not a leaf"
      onPhys (Xv6.kfree (PTE2PA w))
      modify fun s => s.goto p (.unmap w)
    | _ => pure ()
  | .clear p => modify fun s => s.goto p .absent

/-- The states that the processes reach from `s0` with steps that satisfy `may`. -/
def CowReaches (s0 : CowState ι) (may : CowOp ι → Prop) : CowState ι → Prop :=
  Reaches (fun s => s = s0) (fun s op => op.enabled s ∧ may op) CowOp.run

end Model

section Holders
variable [Fintype ι] {E : List Nat} {h : ι → Option Nat} {p q : ι} {a b : Nat}

def holds (a : Nat) (x : Option Nat) : Nat := if x = some a then 1 else 0

theorem holds_self : holds a (some a) = 1 := if_pos rfl

theorem holds_ne (hne : a ≠ b) : holds a (some b) = 0 := by
  unfold holds
  rw [if_neg]
  intro hc
  exact hne (Option.some.inj hc).symm

theorem holds_none : holds a none = 0 := if_neg nofun

def mappings (E : List Nat) (h : ι → Option Nat) (a : Nat) : Nat := E.count a + total (holds a) h

theorem mappings_pos (hp : h p = some a) : 0 < mappings E h a := by
  have hle := le_total (holds a) h p
  rw [hp, holds_self] at hle
  unfold mappings
  omega

variable [DecidableEq ι]

theorem mappings_update (E : List Nat) (h : ι → Option Nat) (p : ι) (x : Option Nat) (a : Nat) :
    mappings E (update h p x) a + holds a (h p) = mappings E h a + holds a x := by
  have hu := total_update (holds a) h p x
  unfold mappings
  omega

theorem mappings_update_of_ne {x : Option Nat} (hp : h p ≠ some a) (hx : x ≠ some a) :
    mappings E (update h p x) a = mappings E h a := by
  have hu := mappings_update E h p x a
  have h1 : holds a (h p) = 0 := if_neg hp
  have h2 : holds a x = 0 := if_neg hx
  omega

theorem holder_ne (hone : mappings E h b = 1) (hq : h q = some b) (hp : h p = some a)
    (hpq : p ≠ q) : a ≠ b := by
  intro hab
  rw [hab] at hp
  have hu := mappings_update E h p none b
  have hpos : 0 < mappings E (update h p none) b := by
    apply mappings_pos (p := q)
    rw [update_of_ne hpq.symm]
    exact hq
  rw [hp, holds_self, holds_none] at hu
  omega

variable [Layout]

/-- The allocator counts the mappings, and every page that is held has the bytes `orig`. -/
def Books (K E : List Nat) (orig : Bytes) (s : Phys) (h : ι → Option Nat) : Prop :=
  (∃ U, Ledger s K U ∧ ∀ a, U.count a = mappings E h a) ∧ ∀ p a, h p = some a → s.mem a = orig

section Entries
variable {K : List Nat} {orig : Bytes} {s : Phys}

omit [DecidableEq ι] in
theorem Books.not_free (hb : Books K E orig s h) (hpos : 0 < mappings E h a) :
    Managed a ∧ a ∉ s.freelist := by
  obtain ⟨⟨U, hU, hcount⟩, _⟩ := hb
  rw [← hcount, List.count_pos_iff] at hpos
  refine ⟨hU.managed a (Or.inr hpos), ?_⟩
  intro hf
  exact (hU.free_not_mem hf).2 hpos

omit [DecidableEq ι] in
theorem Books.front (hb : Books K E orig s h) (hp : h p = some a) :
    ∃ U, Ledger s K (a :: U) ∧ ∀ b, U.count b + holds b (some a) = mappings E h b := by
  obtain ⟨⟨U, hU, hcount⟩, _⟩ := hb
  have hmem : a ∈ U := by
    rw [← List.count_pos_iff, hcount]
    exact mappings_pos hp
  have hperm : U.Perm (a :: U.erase a) := List.perm_cons_erase hmem
  refine ⟨U.erase a, hU.perm (List.Perm.refl K) hperm, ?_⟩
  intro b
  have hc := hperm.count_eq b
  rw [List.count_cons] at hc
  rw [← hcount b, hc]
  unfold holds
  simp

/-- Process `p` exchanges its page for `y`; `U` are the other mappings. -/
theorem Books.set {s' : Phys} {U : List Nat} {y : Option Nat} (hL : Ledger s' K (y.toList ++ U))
    (hcount : ∀ b, U.count b + holds b (h p) = mappings E h b)
    (hnew : ∀ b, y = some b → s'.mem b = orig)
    (hold : ∀ q b, q ≠ p → h q = some b → s'.mem b = orig) :
    Books K E orig s' (update h p y) := by
  refine ⟨⟨_, hL, ?_⟩, ?_⟩
  · intro b
    have hu := mappings_update E h p y b
    have hc := hcount b
    have hy : y.toList.count b = holds b y := by
      cases y with
      | none => exact holds_none.symm
      | some c => simp [holds, List.count_singleton]
    rw [List.count_append]
    omega
  · exact (forall_update_iff h fun _ z => ∀ b, z = some b → s'.mem b = orig).mpr
      ⟨hnew, fun q hq b => hold q b hq⟩

theorem Books.cow_kalloc (hb : Books K E orig s h) (hp : h p = some a) :
    Runs (cow_kalloc a) s fun r s' =>
      (r = none ∧ s' = s ∧ s.freelist = [] ∧ 2 ≤ mappings E h a) ∨ (r = some a ∧ s' = s ∧ mappings E h a = 1) ∨
      ∃ new, r = some new ∧ s.freelist = new :: s'.freelist ∧ 2 ≤ mappings E h a ∧
        mappings E h new = 0 ∧ Books K E orig s' (update h p (some new)) := by
  obtain ⟨U, hU, hcount⟩ := hb.front hp
  apply (cow_kalloc_spec hU).imp
  intro r s' hr
  have ha := hcount a
  rw [holds_self] at ha
  obtain ⟨hnot, hr, hs⟩ | ⟨hin, hfull, hr, hs⟩ | ⟨hin, new, hr, hne, hfree, hmem, hL⟩ := hr
  · refine Or.inr (Or.inl ⟨hr, hs, ?_⟩)
    rw [List.count_eq_zero_of_not_mem hnot] at ha
    omega
  · have hin' := List.count_pos_iff.mpr hin
    exact Or.inl ⟨hr, hs, hfull, by omega⟩
  · have hzero : mappings E h new = 0 := by
      by_contra hpos
      refine (hb.not_free (Nat.pos_of_ne_zero hpos)).2 ?_
      rw [hfree]
      exact List.mem_cons_self
    have hin' := List.count_pos_iff.mpr hin
    refine Or.inr (Or.inr ⟨new, hr, hfree, by omega, hzero,
      Books.set (U := U) hL (by rw [hp]; exact hcount) ?_ ?_⟩)
    · intro b hbn
      cases hbn
      rw [hmem, update_self]
      exact hb.2 p a hp
    · intro q b _ hq
      have hbn : b ≠ new := by
        intro heq
        have := mappings_pos (E := E) hq
        rw [heq, hzero] at this
        exact absurd this (Nat.lt_irrefl 0)
      rw [hmem, update_of_ne hbn]
      exact hb.2 q b hq

theorem Books.pageRef (hb : Books K E orig s h) (hp : h p = some a) (hq : h q = none) :
    Runs (pageRef a) s fun _ s' => Books K E orig s' (update h q (some a)) ∧
      s'.freelist = s.freelist := by
  obtain ⟨U, hU, hcount⟩ := hb.front hp
  apply (pageRef_spec hU List.mem_cons_self).imp
  intro _ s' ⟨hL, hmem, hfree⟩
  refine ⟨Books.set (U := a :: U) hL ?_ ?_ ?_, hfree⟩
  · intro b
    rw [hq, holds_none, ← hcount, List.count_cons]
    simp [holds]
  · intro b hab
    cases hab
    rw [hmem]
    exact hb.2 p a hp
  · intro r b _ hr
    rw [hmem]
    exact hb.2 r b hr

theorem Books.kfree (hb : Books K E orig s h) (hp : h p = some a) :
    Runs (kfree a) s fun _ s' => Books K E orig s' (update h p none) := by
  obtain ⟨U, hU, hcount⟩ := hb.front hp
  apply (kfree_user hU).imp
  intro _ s' ⟨hL, hmem⟩
  refine Books.set (U := U) (y := none) hL (by rw [hp]; exact hcount) (fun b hc => by cases hc) ?_
  intro q b hqp hq
  split_ifs at hmem with hin
  · rw [hmem.1]
    exact hb.2 q b hq
  · -- The page was wiped, so nobody else has it.
    have hone : mappings E h a = 1 := by
      rw [← hcount, holds_self, List.count_eq_zero_of_not_mem hin]
    rw [hmem.1, update_of_ne (holder_ne hone hp hq hqp)]
    exact hb.2 q b hq

end Entries

end Holders

section Invariant
variable {f : ι → CowProc ι} {p q : ι} {x : CowProc ι} {a : Nat}

/-- The page that a process accounts for. A process in `copy_on_write` has exchanged its
old page for the new one, and one in `uvmunmap` has given it back. -/
def CowProc.page : CowProc ι → Option Nat
  | .idle w | .fork _ w => some (PTE2PA w)
  | .fault new _ => some new
  | .absent | .unborn .. | .unmap _ => none

def held (f : ι → CowProc ι) (p : ι) : Option Nat := (f p).page

/-- The process may write to page `a`, or is about to get the permission. -/
def CowProc.sole : CowProc ι → Nat → Prop
  | .idle w, a => w.has PTE_W = true ∧ PTE2PA w = a
  | .fault new _, a => new = a
  | _, _ => False

/-- The other end of a fork. -/
def CowProc.partner : CowProc ι → Option ι
  | .unborn p _ => some p
  | .fork c _ => some c
  | _ => none

/-- Process `p` can stand at `x` among the others: the two ends of a fork have one page,
which neither can write. -/
def Fits (f : ι → CowProc ι) (p : ι) : CowProc ι → Prop
  | .absent => True
  | .idle w | .fault _ w | .unmap w => UserPte w
  | .unborn r v => UserPte v ∧ v.has PTE_W = false ∧ ∃ w, f r = .fork p w ∧ PTE2PA w = PTE2PA v
  | .fork c w => UserPte w ∧ w.has PTE_W = false ∧ ∃ v, f c = .unborn p v ∧ PTE2PA w = PTE2PA v

theorem CowProc.sole_page (h : x.sole a) : x.page = some a := by
  cases x with
  | idle w => exact congrArg some h.2
  | fault new w => exact congrArg some h
  | absent => exact h.elim
  | unborn r w => exact h.elim
  | fork c w => exact h.elim
  | unmap w => exact h.elim

section Update
variable [DecidableEq ι]

theorem held_update (f : ι → CowProc ι) (p : ι) (x : CowProc ι) :
    held (update f p x) = update (held f) p x.page := comp_update CowProc.page f p x

/-- The other end of a fork stays where it is. -/
theorem Fits.update {y : CowProc ι} (h : Fits f q x) (hp : (f p).partner ≠ some q) :
    Fits (update f p y) q x := by
  have hne {r : ι} {z : CowProc ι} (hr : f r = z) (hz : z.partner = some q) : r ≠ p := by
    intro heq
    rw [← heq, hr] at hp
    exact hp hz
  cases x with
  | unborn r v =>
    obtain ⟨hv, hW, w, hr, hpa⟩ := h
    refine ⟨hv, hW, w, ?_, hpa⟩
    rw [update_of_ne (hne hr rfl), hr]
  | fork c w =>
    obtain ⟨hw, hW, v, hc, hpa⟩ := h
    refine ⟨hw, hW, v, ?_, hpa⟩
    rw [update_of_ne (hne hc rfl), hc]
  | absent => exact h
  | idle w => exact h
  | fault new w => exact h
  | unmap w => exact h

end Update

variable [Fintype ι] [Layout] {K E : List Nat} {orig : Bytes} {s : CowState ι} {w : Pte}

structure CowInv (K E : List Nat) (orig : Bytes) (s : CowState ι) : Prop where
  books : Books K E orig s.phys (held s.proc)
  fits : ∀ p, Fits s.proc p (s.proc p)
  sole : ∀ p a, (s.proc p).sole a → mappings E (held s.proc) a = 1

theorem CowInv.fits_at (hi : CowInv K E orig s) (hp : s.proc p = x) : Fits s.proc p x := by
  rw [← hp]
  exact hi.fits p

omit [Fintype ι] [Layout] in
theorem held_at (hp : s.proc p = x) : held s.proc p = x.page := by
  rw [← hp]
  rfl

omit [Fintype ι] [Layout] in
theorem proc_ne {y : CowProc ι} (hp : s.proc p = x) (hq : s.proc q = y) (hne : y ≠ x) : q ≠ p := by
  intro heq
  rw [heq, hp] at hq
  exact hne hq.symm

/-- A page that is mapped has been given back, or is accounted for by the process itself or
by the parent that is about to count it. -/
theorem CowInv.mapped (hi : CowInv K E orig s) (hq : (s.proc q).maps a) :
    (s.proc q).midway ∨
      ∃ r, held s.proc r = some a ∧ (r = q ∨ ∃ w, s.proc r = .fork q w) := by
  obtain ⟨hv, hpa⟩ := hq
  have hfit := hi.fits q
  have hheld : held s.proc q = (s.proc q).page := rfl
  cases hpc : s.proc q with
  | absent =>
    rw [hpc] at hv
    exact absurd hv (by decide : ¬ (0 : Pte).has PTE_V = true)
  | unborn r v =>
    rw [hpc] at hfit hpa
    obtain ⟨_, _, w, hr, hw⟩ := hfit
    exact Or.inr ⟨r, (held_at hr).trans (congrArg some (hw.trans hpa)), Or.inr ⟨w, hr⟩⟩
  | idle w =>
    rw [hpc] at hheld hpa
    exact Or.inr ⟨q, hheld.trans (congrArg some hpa), Or.inl rfl⟩
  | fork c w =>
    rw [hpc] at hheld hpa
    exact Or.inr ⟨q, hheld.trans (congrArg some hpa), Or.inl rfl⟩
  | fault new w => exact Or.inl trivial
  | unmap w => exact Or.inl trivial

/-- Alone with its page: who else maps it has given it back already. -/
theorem CowInv.alone (hi : CowInv K E orig s) (hp : (s.proc p).sole a) (hqp : q ≠ p)
    (hq : (s.proc q).maps a) : (s.proc q).midway := by
  classical
  apply (hi.mapped hq).resolve_right
  intro ⟨r, hheld, hr⟩
  have hrp : r ≠ p := by
    intro heq
    rcases hr with hr | ⟨w, hr⟩
    · exact hqp (hr.symm.trans heq)
    · rw [← heq, hr] at hp
      exact hp
  exact holder_ne (hi.sole p a hp) (CowProc.sole_page hp) hheld hrp rfl

/-- A page that a process maps and has not given back is not free. -/
theorem CowInv.not_free (hi : CowInv K E orig s) (hq : (s.proc q).maps a)
    (hmid : ¬ (s.proc q).midway) : a ∉ s.phys.freelist := by
  obtain ⟨r, hr, _⟩ := (hi.mapped hq).resolve_left hmid
  exact (hi.books.not_free (mappings_pos hr)).2

theorem CowInv.owns (hi : CowInv K E orig s) (hp : s.proc p = .idle w)
    (hcow : w.has PTE_COW = false) : s.Owns orig p := by
  have huser : UserPte w := hi.fits_at hp
  have hW : w.has PTE_W = true := by
    have h := huser.cow
    rw [hcow] at h
    exact (Bool.not_eq_false' _).mp h.symm
  refine ⟨w, hp, huser.v, hW, hcow, hi.books.2 p _ (held_at hp), ?_⟩
  intro q hqp hq
  refine hi.alone ?_ hqp hq
  rw [hp]
  exact ⟨hW, rfl⟩

variable [DecidableEq ι]

/-- One process moves to `x`, which is no end of a fork. It keeps its page, takes one that
nobody has, or gives its page back. -/
theorem CowInv.move (hi : CowInv K E orig s) {t : Phys} (hold : (s.proc p).partner = none)
    (hx : Fits s.proc p x) (hbooks : Books K E orig t (update (held s.proc) p x.page))
    (hpage : ∀ b, x.page = some b → mappings E (held s.proc) b = 0 ∨
      held s.proc p = some b ∧ (x.sole b → mappings E (held s.proc) b = 1)) :
    CowInv K E orig { phys := t, proc := update s.proc p x } := by
  have hpart (q : ι) : (s.proc p).partner ≠ some q := by
    rw [hold]
    intro h
    cases h
  refine ⟨?_, ?_, ?_⟩
  · rw [held_update]
    exact hbooks
  · exact (forall_update_iff s.proc fun q y => Fits (update s.proc p x) q y).mpr
      ⟨hx.update (hpart p), fun q _ => (hi.fits q).update (hpart q)⟩
  · rw [held_update]
    refine (forall_update_iff s.proc fun q y => ∀ a, y.sole a →
      mappings E (update (held s.proc) p x.page) a = 1).mpr ⟨?_, ?_⟩
    · intro b hb
      have hxb := CowProc.sole_page hb
      rcases hpage b hxb with hzero | ⟨hsame, hone⟩
      · have hu := mappings_update E (held s.proc) p (some b) b
        have hno : holds b (held s.proc p) = 0 := by
          apply if_neg
          intro hp
          have := mappings_pos (E := E) hp
          omega
        rw [holds_self] at hu
        rw [hxb]
        omega
      · rw [hxb, ← hsame, update_eq_self]
        exact hone hb
    · intro q hqp b hb
      have hone := hi.sole q b hb
      have hne (hc : held s.proc p = some b) : False :=
        holder_ne hone (CowProc.sole_page hb) hc hqp.symm rfl
      rw [mappings_update_of_ne hne, hone]
      intro hxb
      rcases hpage b hxb with hzero | ⟨hsame, _⟩
      · omega
      · exact hne hsame

/-- The first half of a fault: the page itself or a fresh one, unless memory is full. -/
theorem fault_step_spec (hi : CowInv K E orig s) (hp : s.proc p = .idle w) :
    Runs (CowOp.fault p).run s fun _ s' => CowInv K E orig s' ∧
      (s' = s ∧ s.phys.freelist = [] ∧ 2 ≤ mappings E (held s.proc) (PTE2PA w) ∨
        ∃ new, s'.proc = update s.proc p (.fault new w) ∧
          (new = PTE2PA w ∧ s'.phys.freelist = s.phys.freelist ∨
            s.phys.freelist = new :: s'.phys.freelist ∧ mappings E (held s.proc) new = 0 ∧
              2 ≤ mappings E (held s.proc) (PTE2PA w))) := by
  have hheld : held s.proc p = some (PTE2PA w) := held_at hp
  have huser : UserPte w := hi.fits_at hp
  have hold : (s.proc p).partner = none := by
    rw [hp]
    rfl
  unfold CowOp.run cowAlloc onPhys
  rw [runs_bind, runs_get]
  dsimp only
  rw [hp]
  dsimp only
  rw [runs_bind, runs_zoom]
  apply (hi.books.cow_kalloc hheld).imp
  intro r t hr
  obtain ⟨hr, ht, hfull⟩ | ⟨hr, ht, hone⟩ | ⟨new, hr, hfree, htwo, hzero, hbooks⟩ := hr
  · rw [hr, runs_pure, ht]
    exact ⟨hi, Or.inl ⟨rfl, hfull⟩⟩
  · rw [hr]
    dsimp only
    rw [runs_modify, ht]
    refine ⟨hi.move hold (x := .fault (PTE2PA w) w) huser ?_ ?_, Or.inr ⟨_, rfl, Or.inl ⟨rfl, rfl⟩⟩⟩
    · rw [CowProc.page, ← hheld, update_eq_self]
      exact hi.books
    · intro b hb
      cases hb
      exact Or.inr ⟨hheld, fun _ => hone⟩
  · rw [hr]
    dsimp only
    rw [runs_modify]
    refine ⟨hi.move hold (x := .fault new w) huser hbooks ?_, Or.inr ⟨new, rfl, Or.inr ⟨hfree, hzero, htwo⟩⟩⟩
    intro b hb
    cases hb
    exact Or.inl hzero

omit [Fintype ι] [DecidableEq ι] in
theorem replaced_word {new : Nat} (hw : UserPte w) (hm : Managed new) :
    UserPte (mapWord new (ownFlags w)) ∧ PTE2PA (mapWord new (ownFlags w)) = new ∧
      (mapWord new (ownFlags w)).has PTE_COW = false := by
  refine ⟨userPte_ownFlags hw, ?_, ?_⟩
  · apply PTE2PA_mapped_word new _ hm.1 _ ownFlags_lt
    have hlt := hm.2.2
    have htop : PHYSTOP < 2^56 := by decide
    omega
  · rw [has_COW, mapWord_ownFlags_bit new hw.v 8 (by decide), ownWord_bit 8 (by decide)]
    simp

/-- The second half: the process keeps the page, and its entry lets it write. -/
theorem replace_step_spec (hi : CowInv K E orig s) {new : Nat} (hp : s.proc p = .fault new w) :
    Runs (CowOp.replace p).run s fun _ s' => CowInv K E orig s' ∧ s'.phys = s.phys ∧
      ∃ v, s'.proc = update s.proc p (.idle v) ∧ PTE2PA v = new ∧ v.has PTE_COW = false := by
  have hheld : held s.proc p = some new := held_at hp
  have huser : UserPte w := hi.fits_at hp
  have hmove (v : Pte) (hv : UserPte v) (hpa : PTE2PA v = new) :
      CowInv K E orig (s.goto p (.idle v)) := by
    have hpage : (CowProc.idle v : CowProc ι).page = some new := congrArg some hpa
    refine hi.move (by rw [hp]; rfl) hv ?_ ?_
    · rw [hpage, ← hheld, update_eq_self]
      exact hi.books
    · intro b hb
      rw [hpage] at hb
      cases hb
      refine Or.inr ⟨hheld, fun _ => hi.sole p new ?_⟩
      rw [hp]
      rfl
  unfold CowOp.run cowReplace
  rw [runs_bind, runs_get]
  dsimp only
  rw [hp]
  dsimp only
  rw [runs_ite]
  refine ⟨?_, ?_⟩
  · intro heq
    rw [runs_modify]
    have hcow : (ownWord w).has PTE_COW = false := by
      rw [has_COW, ownWord_bit 8 (by decide)]
      simp
    have hpa : PTE2PA (ownWord w) = new := ownWord_pa.trans heq.symm
    exact ⟨hmove _ (userPte_own huser) hpa, rfl, _, rfl, hpa, hcow⟩
  · intro _
    obtain ⟨hv, hpa, hcow⟩ := replaced_word huser (hi.books.not_free (mappings_pos hheld)).1
    simp only [runs_bind, runs_panicIf, runs_modify]
    refine ⟨by rw [huser.v]; exact fun h => h rfl, huser.leaf.2, ?_⟩
    exact ⟨hmove _ hv hpa, rfl, _, rfl, hpa, hcow⟩

omit [Fintype ι] [DecidableEq ι] in
theorem shared_word {pa : Nat} (hw : UserPte w) (hm : Managed pa) :
    UserPte (mapWord pa (PTE_FLAGS (cowWord w))) ∧
      PTE2PA (mapWord pa (PTE_FLAGS (cowWord w))) = pa ∧
      (mapWord pa (PTE_FLAGS (cowWord w))).has PTE_W = false ∧ (cowWord w).has PTE_W = false := by
  have hcow := userPte_cow hw
  have hW : (cowWord w).has PTE_W = false := by
    rw [has_W, cowWord_bit 2 (by decide)]
    simp
  refine ⟨userPte_copy hcow, ?_, ?_, hW⟩
  · apply PTE2PA_mapped_word pa _ hm.1 _ (flags_lt _)
    have hlt := hm.2.2
    have htop : PHYSTOP < 2^56 := by decide
    omega
  · rw [has_W, mapWord_flags_bit pa hcow.v 2 (by decide), ← has_W]
    exact hW

/-- A fork before `pageRef`: the parent still accounts for one mapping. -/
theorem fork_step_spec (hi : CowInv K E orig s) {c : ι} (hp : s.proc p = .idle w)
    (hc : s.proc c = .absent) : Runs (CowOp.fork p c).run s fun _ s' => CowInv K E orig s' ∧
      ∀ q, q ≠ p → q ≠ c → s'.proc q = s.proc q := by
  have huser : UserPte w := hi.fits_at hp
  have hheld : held s.proc p = some (PTE2PA w) := held_at hp
  have hnone : held s.proc c = none := held_at hc
  have hcp : c ≠ p := proc_ne hp hc (by rintro ⟨⟩)
  obtain ⟨hv, hpa, hW, hW'⟩ := shared_word huser (hi.books.not_free (mappings_pos hheld)).1
  unfold CowOp.run cowShare
  rw [runs_bind, runs_get]
  dsimp only
  rw [hp]
  simp only [runs_bind, runs_get, runs_panicIf, runs_modify]
  refine ⟨by rw [huser.v]; exact fun h => h rfl, by rw [hc]; exact (by decide : ¬ (0 : Pte).has PTE_V = true), ?_, ?_⟩
  · set x : CowProc ι := .fork c (cowWord w)
    set y : CowProc ι := .unborn p (mapWord (PTE2PA w) (PTE_FLAGS (cowWord w)))
    have hsame : held (update (update s.proc p x) c y) = held s.proc := by
      have hx : x.page = held s.proc p := by
        rw [hheld]
        exact congrArg some cowWord_pa
      have hy : y.page = held s.proc c := hnone.symm
      rw [held_update, held_update, hx, update_eq_self, hy, update_eq_self]
    have hc1 : update s.proc p x c = .absent := (update_of_ne hcp _ _).trans hc
    change CowInv K E orig { phys := s.phys, proc := update (update s.proc p x) c y }
    refine ⟨?_, ?_, ?_⟩
    · rw [hsame]
      exact hi.books
    · refine (forall_update_iff _ fun q z => Fits (update (update s.proc p x) c y) q z).mpr ⟨?_, ?_⟩
      · refine ⟨hv, hW, cowWord w, ?_, cowWord_pa.trans hpa.symm⟩
        rw [update_of_ne hcp.symm, update_self]
      · intro q hqc
        by_cases hqp : q = p
        · rw [hqp, update_self]
          exact ⟨userPte_cow huser, hW', _, update_self .., cowWord_pa.trans hpa.symm⟩
        · rw [update_of_ne hqp]
          refine ((hi.fits q).update ?_).update ?_
          · rw [hp]
            intro h
            cases h
          · rw [hc1]
            intro h
            cases h
    · rw [hsame]
      refine (forall_update_iff _ fun q z => ∀ a, CowProc.sole z a →
        mappings E (held s.proc) a = 1).mpr ⟨fun _ h => h.elim, ?_⟩
      intro q _
      by_cases hqp : q = p
      · rw [hqp, update_self]
        exact fun _ h => h.elim
      · rw [update_of_ne hqp]
        exact hi.sole q
  · intro q hqp hqc
    exact (update_of_ne hqc _ _).trans (update_of_ne hqp _ _)

/-- The rest of the fork: the child accounts for its own mapping. -/
theorem pageRef_step_spec (hi : CowInv K E orig s) {c : ι} (hp : s.proc p = .fork c w) :
    Runs (CowOp.pageRef p).run s fun _ s' => CowInv K E orig s' ∧
      ∀ q, q ≠ p → q ≠ c → s'.proc q = s.proc q := by
  obtain ⟨huser, hW, v, hc, hpa⟩ : Fits s.proc p (.fork c w) := hi.fits_at hp
  obtain ⟨huser', hW', _⟩ : Fits s.proc c (.unborn p v) := hi.fits_at hc
  have hcp : c ≠ p := proc_ne hp hc (by rintro ⟨⟩)
  have hheld : held s.proc p = some (PTE2PA w) := held_at hp
  have hnone : held s.proc c = none := held_at hc
  unfold CowOp.run onPhys
  rw [runs_bind, runs_get]
  dsimp only
  rw [hp]
  dsimp only
  rw [runs_bind, runs_zoom]
  apply (hi.books.pageRef hheld hnone).imp
  intro _ t ⟨hbooks, _⟩
  rw [runs_modify]
  refine ⟨?_, fun q hqp hqc => (update_of_ne hqc _ _).trans (update_of_ne hqp _ _)⟩
  change CowInv K E orig
    { phys := t, proc := update (update s.proc p (.idle w)) c (.idle (s.proc c).pte) }
  rw [hc]
  change CowInv K E orig { phys := t, proc := update (update s.proc p (.idle w)) c (.idle v) }
  set f := update (update s.proc p (.idle w)) c (.idle v) with hf
  have hheld' : held f = update (held s.proc) c (some (PTE2PA w)) := by
    have hx : (CowProc.idle w : CowProc ι).page = held s.proc p := hheld.symm
    rw [hf, held_update, held_update, hx, update_eq_self, hpa]
    rfl
  have hc1 : update s.proc p (.idle w) c = .unborn p v := (update_of_ne hcp _ _).trans hc
  refine ⟨?_, ?_, ?_⟩
  · rw [hheld']
    exact hbooks
  · refine (forall_update_iff _ fun q z => Fits f q z).mpr ⟨huser', ?_⟩
    intro q hqc
    by_cases hqp : q = p
    · rw [hqp, update_self]
      exact huser
    · rw [update_of_ne hqp]
      refine ((hi.fits q).update ?_).update ?_
      · rw [hp]
        exact fun h => hqc (Option.some.inj h).symm
      · rw [hc1]
        exact fun h => hqp (Option.some.inj h).symm
  · -- Neither end can write, and the page of whoever can is another one.
    have hidle {u : Pte} (hu : u.has PTE_W = false) (a : Nat) :
        (CowProc.idle u : CowProc ι).sole a → mappings E (held f) a = 1 := by
      intro h
      rw [CowProc.sole, hu] at h
      cases h.1
    refine (forall_update_iff _ fun q z => ∀ a, CowProc.sole z a →
      mappings E (held f) a = 1).mpr ⟨hidle hW', ?_⟩
    intro q _
    by_cases hqp : q = p
    · rw [hqp, update_self]
      exact hidle hW
    · rw [update_of_ne hqp]
      intro b hb
      have hone := hi.sole q b hb
      have hne := holder_ne hone (CowProc.sole_page hb) hheld (Ne.symm hqp)
      have hcb : held s.proc c ≠ some b := by
        rw [hnone]
        intro h
        cases h
      rw [hheld', mappings_update_of_ne hcb fun h => hne (Option.some.inj h), hone]

theorem kfree_step_spec (hi : CowInv K E orig s) (hp : s.proc p = .idle w) :
    Runs (CowOp.kfree p).run s fun _ s' => CowInv K E orig s' ∧
      s'.proc = update s.proc p (.unmap w) := by
  have huser : UserPte w := hi.fits_at hp
  have hheld : held s.proc p = some (PTE2PA w) := held_at hp
  unfold CowOp.run onPhys
  rw [runs_bind, runs_get]
  dsimp only
  rw [hp]
  simp only [runs_bind, runs_panicIf, runs_zoom, runs_modify]
  refine ⟨by rw [huser.v]; exact fun h => h rfl, huser.leaf.2, ?_⟩
  apply (hi.books.kfree hheld).imp
  intro _ t hbooks
  refine ⟨hi.move (x := .unmap w) (by rw [hp]; rfl) huser hbooks ?_, rfl⟩
  intro b hb
  cases hb

theorem clear_step_spec (hi : CowInv K E orig s) (hp : s.proc p = .unmap w) :
    Runs (CowOp.clear p).run s fun _ s' => CowInv K E orig s' ∧
      s'.proc = update s.proc p .absent := by
  have hnone : held s.proc p = none := held_at hp
  unfold CowOp.run
  rw [runs_bind, runs_get]
  dsimp only
  rw [runs_modify]
  refine ⟨hi.move (x := .absent) (by rw [hp]; rfl) trivial ?_ ?_, rfl⟩
  · rw [CowProc.page, ← hnone, update_eq_self]
    exact hi.books
  · intro b hb
    cases hb

/-- Every step runs and keeps the invariant. A process that can write to its page stays
where it is unless it forks or unmaps the page. -/
theorem cow_step_runs (hi : CowInv K E orig s) {op : CowOp ι} (he : op.enabled s) :
    Runs op.run s fun _ s' => CowInv K E orig s' ∧ ∀ q v, s.proc q = .idle v →
      v.has PTE_COW = false → ¬ op.leaves q → s'.proc q = .idle v := by
  cases op with
  | fault p =>
    obtain ⟨w, hp, hcow⟩ := he
    apply (fault_step_spec hi hp).imp
    intro _ s' ⟨hi', hs'⟩
    refine ⟨hi', ?_⟩
    intro q v hq hv _
    rcases hs' with ⟨hs', _⟩ | ⟨new, hs', _⟩
    · rw [hs', hq]
    · have hne : (CowProc.idle v : CowProc ι) ≠ .idle w := by
        rintro ⟨⟩
        rw [hcow] at hv
        cases hv
      rw [hs', update_of_ne (proc_ne hp hq hne), hq]
  | replace p =>
    obtain ⟨new, w, hp⟩ := he
    apply (replace_step_spec hi hp).imp
    intro _ s' ⟨hi', _, u, hs', _⟩
    refine ⟨hi', ?_⟩
    intro q v hq _ _
    rw [hs', update_of_ne (proc_ne hp hq (by rintro ⟨⟩)), hq]
  | fork p c =>
    obtain ⟨⟨w, hp⟩, hc⟩ := he
    apply (fork_step_spec hi hp hc).imp
    intro _ s' ⟨hi', hs'⟩
    refine ⟨hi', ?_⟩
    intro q v hq _ hl
    rw [hs' q (fun heq => hl heq.symm) (proc_ne hc hq (by rintro ⟨⟩)), hq]
  | pageRef p =>
    obtain ⟨c, w, hp⟩ := he
    obtain ⟨_, _, u, hc, _⟩ : Fits s.proc p (.fork c w) := hi.fits_at hp
    apply (pageRef_step_spec hi hp).imp
    intro _ s' ⟨hi', hs'⟩
    refine ⟨hi', ?_⟩
    intro q v hq _ _
    rw [hs' q (proc_ne hp hq (by rintro ⟨⟩)) (proc_ne hc hq (by rintro ⟨⟩)), hq]
  | kfree p =>
    obtain ⟨w, hp⟩ := he
    apply (kfree_step_spec hi hp).imp
    intro _ s' ⟨hi', hs'⟩
    refine ⟨hi', ?_⟩
    intro q v hq _ hl
    rw [hs', update_of_ne (fun heq => hl heq.symm), hq]
  | clear p =>
    obtain ⟨w, hp⟩ := he
    apply (clear_step_spec hi hp).imp
    intro _ s' ⟨hi', hs'⟩
    refine ⟨hi', ?_⟩
    intro q v hq _ _
    rw [hs', update_of_ne (proc_ne hp hq (by rintro ⟨⟩)), hq]

/-- What the process owns stays its own. -/
theorem cow_reaches_owns {s' : CowState ι} (hi : CowInv K E orig s) (hp : s.proc p = .idle w)
    (hcow : w.has PTE_COW = false) (hr : CowReaches s (fun op => ¬ op.leaves p) s') :
    s'.Owns orig p := by
  have hkept : CowInv K E orig s' ∧ s'.proc p = .idle w := by
    refine Reaches.invariant (I := fun t => CowInv K E orig t ∧ t.proc p = .idle w) ?_ ?_ hr
    · intro t ht
      rw [ht]
      exact ⟨hi, hp⟩
    · intro t op ⟨hit, hpt⟩ ⟨he, hl⟩
      refine (cow_step_runs hit he).ends.imp ?_
      intro _ t' ⟨hi', hstay⟩
      exact ⟨hi', hstay p w hpt hcow hl⟩
  exact hkept.1.owns hkept.2 hcow

end Invariant

end Xv6
