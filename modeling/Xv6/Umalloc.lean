import Xv6.BlockList
import Xv6.LittleEndian

/-! The user heap allocator of `umalloc.c`: `free`, `morecore` and `malloc` on a memory of
bytes that holds the headers, with `sbrk` decided from outside. The loops carry fuel;
`none` is a loop that has not ended. -/
namespace Xv6.Umalloc

def HEADER : Nat := 16

def ptr (m : Bytes) (p : Nat) : Nat := leGet 8 m p

/-- `p->s.size`, a `uint`. -/
def size (m : Bytes) (p : Nat) : Nat := leGet 4 m (p+8)

def setPtr (m : Bytes) (p v : Nat) : Bytes := leSet 8 m p v

def setSize (m : Bytes) (p v : Nat) : Bytes := leSet 4 m (p+8) v

/-- `p + n` for a `Header *p`. -/
@[irreducible] def plus (p n : Nat) : Nat := (p + HEADER*n) % 2^64

/-- The process' memory, the static variable `freep` (0 before the first `malloc`), the
break, and what `sbrk` was called with, the last call first. The address of the static
header `base` is a parameter of the functions. -/
structure Heap where
  mem : Bytes
  freep : Nat
  brk : Nat
  asked : List Int

def freeLoop (m : Bytes) (bp : Nat) : Nat → Nat → Option Nat
  | 0, _ => none
  | fuel+1, p =>
    if bp > p ∧ bp < ptr m p then some p
    else if p ≥ ptr m p ∧ (bp > p ∨ bp < ptr m p) then some p
    else freeLoop m bp fuel (ptr m p)

def joinUpper (m : Bytes) (bp p : Nat) : Bytes :=
  if plus bp (size m bp) = ptr m p then
    let m := setSize m bp (size m bp + size m (ptr m p))
    setPtr m bp (ptr m (ptr m p))
  else setPtr m bp (ptr m p)

def joinLower (m : Bytes) (bp p : Nat) : Bytes :=
  if plus p (size m p) = bp then
    let m := setSize m p (size m p + size m bp)
    setPtr m p (ptr m bp)
  else setPtr m p bp

def link (h : Heap) (bp p : Nat) : Heap :=
  { h with mem := joinLower (joinUpper h.mem bp p) bp p, freep := p }

theorem link_mem (h : Heap) (bp p : Nat) :
    (link h bp p).mem = joinLower (joinUpper h.mem bp p) bp p := rfl

theorem link_freep (h : Heap) (bp p : Nat) : (link h bp p).freep = p := rfl

theorem link_asked (h : Heap) (bp p : Nat) : (link h bp p).asked = h.asked := rfl

theorem link_brk (h : Heap) (bp p : Nat) : (link h bp p).brk = h.brk := rfl

def free (fuel : Nat) (h : Heap) (ap : Nat) : Option Heap :=
  let bp := (ap + (2^64 - HEADER)) % 2^64
  (freeLoop h.mem bp fuel h.freep).map (link h bp)

/-- What the kernel answers to `sbrk(n)` at a break: whether it grants it. -/
abbrev Grant := Nat → Int → Bool

def Heap.ask (h : Heap) (n : Int) : Heap := { h with asked := n :: h.asked }

def Granted (grant : Grant) (h : Heap) (n : Int) : Prop :=
  grant h.brk n = true ∧ 0 ≤ h.brk + n ∧ h.brk + n < 2^64

instance (grant : Grant) (h : Heap) (n : Int) : Decidable (Granted grant h n) :=
  inferInstanceAs (Decidable (_ ∧ _))

def sbrk (grant : Grant) (h : Heap) (n : Int) : Option Nat × Heap :=
  if Granted grant h n then
    (some h.brk, { h.ask n with brk := (h.brk + n).toNat })
  else (none, h.ask n)

/-- A size converted to `sbrk`'s `int` argument. -/
def toInt (k : Nat) : Int := if k % 2^32 < 2^31 then (k % 2^32 : Nat) else (k % 2^32 : Nat) - 2^32

@[irreducible] def coreUnits (nu : Nat) : Nat := if nu < 4096 then 4096 else nu

/-- `morecore`; its result 0 is the failure of `sbrk`. -/
def morecore (grant : Grant) (fuel : Nat) (h : Heap) (nu : Nat) : Option (Nat × Heap) :=
  let nu := coreUnits nu
  match sbrk grant h (toInt (nu*HEADER)) with
  | (none, h) => some (0, h)
  | (some p, h) =>
    (free fuel { h with mem := setSize h.mem p nu } (plus p 1)).map fun h => (h.freep, h)

/-- `malloc` takes `nunits` units out of the block at `p` that follows `prevp`. -/
def take (h : Heap) (nunits prevp p : Nat) : Nat × Heap :=
  if size h.mem p = nunits then
    (plus p 1, { h with mem := setPtr h.mem prevp (ptr h.mem p), freep := prevp })
  else
    let m := setSize h.mem p (size h.mem p - nunits)
    let q := plus p (size m p)
    (plus q 1, { h with mem := setSize m q nunits, freep := prevp })

def mallocLoop (grant : Grant) (free_fuel nunits : Nat) :
    Nat → Heap → Nat → Nat → Option (Nat × Heap)
  | 0, _, _, _ => none
  | fuel+1, h, prevp, p =>
    if size h.mem p ≥ nunits then some (take h nunits prevp p)
    else if p = h.freep then
      match morecore grant free_fuel h nunits with
      | none => none
      | some (p, h) =>
        if p = 0 then some (0, h)
        else mallocLoop grant free_fuel nunits fuel h p (ptr h.mem p)
    else mallocLoop grant free_fuel nunits fuel h p (ptr h.mem p)

@[irreducible] def nunits (nbytes : Nat) : Nat := ((nbytes + HEADER - 1)/HEADER + 1) % 2^32

/-- The first call makes the list that holds `base` alone. -/
def init (base : Nat) (h : Heap) : Heap :=
  if h.freep = 0 then
    { h with mem := setSize (setPtr h.mem base base) base 0, freep := base }
  else h

def malloc (base : Nat) (grant : Grant) (fuel : Nat) (h : Heap) (nbytes : Nat) :
    Option (Nat × Heap) :=
  let h := init base h
  mallocLoop grant fuel (nunits nbytes) fuel h h.freep (ptr h.mem h.freep)

/-! Headers that lie apart do not see each other's fields. -/

/-- The headers at `p` and `q` share no byte. -/
def Clear (p q : Nat) : Prop := p + HEADER ≤ q ∨ q + HEADER ≤ p

theorem Clear.symm {p q : Nat} (h : Clear p q) : Clear q p := Or.symm h

theorem ptr_setPtr_same (m : Bytes) (p : Nat) {v : Nat} (hv : v < 2^64) :
    ptr (setPtr m p v) p = v := by
  rw [ptr, setPtr, leGet_leSet_same]
  exact Nat.mod_eq_of_lt hv

theorem size_setSize_same (m : Bytes) (p v : Nat) : size (setSize m p v) p = v % 2^32 :=
  leGet_leSet_same 4 m (p+8) v

theorem ptr_setSize_same (m : Bytes) (p v : Nat) : ptr (setSize m p v) p = ptr m p :=
  leGet_leSet_of_disjoint 8 4 m p (p+8) v (Or.inl le_rfl)

theorem size_setPtr_same (m : Bytes) (p v : Nat) : size (setPtr m p v) p = size m p :=
  leGet_leSet_of_disjoint 4 8 m (p+8) p v (Or.inr le_rfl)

/-- Two memories that differ in the header at `p` only. -/
def SameOff (m m' : Bytes) (p : Nat) : Prop := ∀ x, x < p ∨ p + HEADER ≤ x → m' x = m x

theorem SameOff.trans {m m' m'' : Bytes} {p : Nat} (h : SameOff m m' p)
    (h' : SameOff m' m'' p) : SameOff m m'' p := fun x hx => (h' x hx).trans (h x hx)

theorem sameOff_setPtr (m : Bytes) (p v : Nat) : SameOff m (setPtr m p v) p := by
  intro x hx
  rw [HEADER] at hx
  simp only [setPtr, leSet]
  rw [if_neg (by omega)]

theorem sameOff_setSize (m : Bytes) (p v : Nat) : SameOff m (setSize m p v) p := by
  intro x hx
  rw [HEADER] at hx
  simp only [setSize, leSet]
  rw [if_neg (by omega)]

theorem SameOff.leGet {m m' : Bytes} {p q n k : Nat} (h : SameOff m m' p) (hq : Clear q p)
    (hk : k+n ≤ HEADER) : leGet n m' (q+k) = leGet n m (q+k) := by
  apply leGet_congr
  intro x h1 h2
  apply h
  rw [Clear] at hq
  omega

theorem SameOff.ptr {m m' : Bytes} {p q : Nat} (h : SameOff m m' p) (hq : Clear q p) :
    ptr m' q = ptr m q := h.leGet (n := 8) (k := 0) hq (by decide)

theorem SameOff.size {m m' : Bytes} {p q : Nat} (h : SameOff m m' p) (hq : Clear q p) :
    size m' q = size m q := h.leGet (n := 4) (k := 8) hq (by decide)

theorem ptr_lt (m : Bytes) (p : Nat) : ptr m p < 2^64 := leGet_lt 8 m p

theorem size_lt (m : Bytes) (p : Nat) : size m p < 2^32 := leGet_lt 4 m (p+8)

theorem joinUpper_off (m : Bytes) (bp p : Nat) : SameOff m (joinUpper m bp p) bp := by
  unfold joinUpper
  split
  · exact (sameOff_setSize m bp _).trans (sameOff_setPtr _ bp _)
  · exact sameOff_setPtr m bp _

theorem joinLower_off (m : Bytes) (bp p : Nat) : SameOff m (joinLower m bp p) p := by
  unfold joinLower
  split
  · exact (sameOff_setSize m p _).trans (sameOff_setPtr _ p _)
  · exact sameOff_setPtr m p _

theorem joinUpper_at (m : Bytes) {bp p : Nat} (hp : Clear p bp) (hnext : Clear (ptr m p) bp) :
    (plus bp (size m bp) = ptr m p →
      size (joinUpper m bp p) bp = (size m bp + size m (ptr m p)) % 2^32 ∧
        ptr (joinUpper m bp p) bp = ptr m (ptr m p)) ∧
    (plus bp (size m bp) ≠ ptr m p →
      size (joinUpper m bp p) bp = size m bp ∧ ptr (joinUpper m bp p) bp = ptr m p) := by
  have hoff := sameOff_setSize m bp (size m bp + size m (ptr m p))
  constructor
  · intro hc
    unfold joinUpper
    rw [if_pos hc]
    constructor
    · exact (size_setPtr_same _ bp _).trans (size_setSize_same m bp _)
    · refine (ptr_setPtr_same _ bp (ptr_lt _ _)).trans ?_
      rw [hoff.ptr hp, hoff.ptr hnext]
  · intro hc
    unfold joinUpper
    rw [if_neg hc]
    exact ⟨size_setPtr_same m bp _, ptr_setPtr_same m bp (ptr_lt _ _)⟩

theorem joinLower_at (m : Bytes) {bp p : Nat} (hp : Clear bp p) (hbp : bp < 2^64) :
    (plus p (size m p) = bp →
      size (joinLower m bp p) p = (size m p + size m bp) % 2^32 ∧
        ptr (joinLower m bp p) p = ptr m bp) ∧
    (plus p (size m p) ≠ bp →
      size (joinLower m bp p) p = size m p ∧ ptr (joinLower m bp p) p = bp) := by
  have hoff := sameOff_setSize m p (size m p + size m bp)
  constructor
  · intro hc
    unfold joinLower
    rw [if_pos hc]
    constructor
    · exact (size_setPtr_same _ p _).trans (size_setSize_same m p _)
    · exact (ptr_setPtr_same _ p (ptr_lt _ _)).trans (hoff.ptr hp)
  · intro hc
    unfold joinLower
    rw [if_neg hc]
    exact ⟨size_setPtr_same m p _, ptr_setPtr_same m p hbp⟩

end Xv6.Umalloc
