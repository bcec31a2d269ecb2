import Xv6.PageTableWalk

/-! `kernel/vm.c`: building, copying, shrinking and freeing user page tables, and
the copies between kernel and user memory; with the copy-on-write functions of
`kernel/trap.c` that `copyout` calls. Return codes are the C ones. -/
namespace Xv6

/-- The physical address of a user page, 0 if `va` is not mapped for the user. -/
def walkaddr (pagetable va : Nat) : Prog Phys Nat := do
  if MAXVA ≤ va then pure 0 else
  match ← walk pagetable va false with
  | none => pure 0
  | some slot =>
    let s ← get
    let pte := loadPte s.mem slot.1 slot.2
    if ¬ pte.has PTE_V then pure 0 else
    if ¬ pte.has PTE_U then pure 0 else
    pure (PTE2PA pte)

def mappagesLoop (pagetable : Nat) (perm : Pte) : Nat → Nat → Nat → Prog Phys Int
  | 0, _, _ => pure 0
  | n+1, a, pa => do
    match ← walk pagetable a true with
    | none => pure (-1)
    | some slot =>
      let s ← get
      panicIf ((loadPte s.mem slot.1 slot.2).has PTE_V) "remap"
      storePte slot (PA2PTE pa ||| perm ||| PTE_V)
      mappagesLoop pagetable perm n (a+PGSIZE) (pa+PGSIZE)

def mappages (pagetable va size pa : Nat) (perm : Pte) : Prog Phys Int :=
  let a := PGROUNDDOWN va
  let last := PGROUNDDOWN (va+size-1)
  mappagesLoop pagetable perm ((last-a)/PGSIZE+1) a pa

section
variable [Layout]

def uvmunmapLoop (pagetable : Nat) (do_free : Bool) : Nat → Nat → Prog Phys Unit
  | 0, _ => pure ()
  | n+1, a => do
    match ← walk pagetable a false with
    | none => throw "uvmunmap: walk"
    | some slot =>
      let s ← get
      let pte := loadPte s.mem slot.1 slot.2
      panicIf (¬ pte.has PTE_V) "uvmunmap: not mapped"
      panicIf (PTE_FLAGS pte = PTE_V) "uvmunmap: not a leaf"
      if do_free then kfree (PTE2PA pte) else pure ()
      storePte slot 0
      uvmunmapLoop pagetable do_free n (a+PGSIZE)

def uvmunmap (pagetable va npages : Nat) (do_free : Bool) : Prog Phys Unit := do
  panicIf (va % PGSIZE ≠ 0) "uvmunmap: not aligned"
  uvmunmapLoop pagetable do_free npages va

def uvmcreate : Prog Phys (Option Nat) := do
  match ← kalloc with
  | none => pure none
  | some pagetable =>
    memsetPage pagetable 0
    pure (some pagetable)

def userPerm : Pte := PTE_W ||| PTE_X ||| PTE_R ||| PTE_U

/-- The page of the first process. `kalloc` is not checked in the source: the
null page it would then clear is outside physical memory. -/
def uvminit (pagetable : Nat) (src : List UInt8) : Prog Phys Unit := do
  panicIf (PGSIZE ≤ src.length) "inituvm: more than a page"
  match ← kalloc with
  | none => throw "inituvm: null page"
  | some mem =>
    memsetPage mem 0
    let _ ← mappages pagetable 0 PGSIZE mem userPerm
    modify fun s => s.setPage mem (blit (s.mem mem) 0 src)

def uvmdealloc (pagetable oldsz newsz : Nat) : Prog Phys Nat := do
  if oldsz ≤ newsz then pure oldsz else
  if PGROUNDUP newsz < PGROUNDUP oldsz then
    let npages := (PGROUNDUP oldsz - PGROUNDUP newsz) / PGSIZE
    uvmunmap pagetable (PGROUNDUP newsz) npages true
    pure newsz
  else
    pure newsz

def uvmallocLoop (pagetable oldsz newsz : Nat) : Nat → Nat → Prog Phys Nat
  | 0, _ => pure newsz
  | n+1, a => do
    match ← kalloc with
    | none =>
      let _ ← uvmdealloc pagetable a oldsz
      pure 0
    | some mem =>
      memsetPage mem 0
      let r ← mappages pagetable a PGSIZE mem userPerm
      if r ≠ 0 then
        kfree mem
        let _ ← uvmdealloc pagetable a oldsz
        pure 0
      else
        uvmallocLoop pagetable oldsz newsz n (a+PGSIZE)

def uvmalloc (pagetable oldsz newsz : Nat) : Prog Phys Nat :=
  if newsz < oldsz then pure oldsz else
  let oldsz := PGROUNDUP oldsz
  uvmallocLoop pagetable oldsz newsz ((newsz - oldsz + PGSIZE - 1) / PGSIZE) oldsz

def freewalkLoop (freechild : Nat → Prog Phys Unit) (pagetable : Nat) : List Nat → Prog Phys Unit
  | [] => pure ()
  | i :: is => do
    let s ← get
    let pte := loadPte s.mem pagetable i
    if pte.has PTE_V ∧ ¬ pte.has (PTE_R ||| PTE_W ||| PTE_X) then
      freechild (PTE2PA pte)
      storePte (pagetable, i) 0
    else
      panicIf (pte.has PTE_V) "freewalk: leaf"
    freewalkLoop freechild pagetable is

/-- `freewalk`, with the depth of its recursion. Three levels are a whole page
table; running out of depth stands for a recursion deeper than that. -/
def freewalkDepth : Nat → Nat → Prog Phys Unit
  | 0, _ => throw "freewalk: depth"
  | d+1, pagetable => do
    freewalkLoop (freewalkDepth d) pagetable indices
    kfree pagetable

def freewalk (pagetable : Nat) : Prog Phys Unit := freewalkDepth 3 pagetable

def uvmfree (pagetable sz : Nat) : Prog Phys Unit := do
  if 0 < sz then uvmunmap pagetable 0 (PGROUNDUP sz / PGSIZE) true else pure ()
  freewalk pagetable

def uvmcopyLoop (old new : Nat) : Nat → Nat → Prog Phys Int
  | 0, _ => pure 0
  | n+1, i => do
    match ← walk old i false with
    | none => throw "uvmcopy: pte should exist"
    | some slot =>
      let s ← get
      let pte := loadPte s.mem slot.1 slot.2
      panicIf (¬ pte.has PTE_V) "uvmcopy: page not present"
      let pa := PTE2PA pte
      let pte := (pte &&& ~~~PTE_W) ||| PTE_COW
      storePte slot pte
      let r ← mappages new i PGSIZE pa (PTE_FLAGS pte)
      if r ≠ 0 then
        uvmunmap new 0 (i / PGSIZE) true
        pure (-1)
      else
        pageRef pa
        uvmcopyLoop old new n (i+PGSIZE)

def uvmcopy (old new sz : Nat) : Prog Phys Int :=
  uvmcopyLoop old new ((sz + PGSIZE - 1) / PGSIZE) 0

def uvmclear (pagetable va : Nat) : Prog Phys Unit := do
  match ← walk pagetable va false with
  | none => throw "uvmclear"
  | some slot =>
    let s ← get
    storePte slot (loadPte s.mem slot.1 slot.2 &&& ~~~PTE_U)

/-- `mypt` and `mysz` are the page table and the size of the running process. -/
def should_copyon_write (mypt mysz va : Nat) : Prog Phys Bool := do
  match ← walk mypt va false with
  | none => pure false
  | some slot =>
    let s ← get
    let pte := loadPte s.mem slot.1 slot.2
    pure (decide (PGROUNDDOWN va < mysz) && pte.has PTE_V && pte.has PTE_COW)

/-- The source dereferences the result of `walk` unchecked; its callers have
asked `should_copyon_write` first. -/
def copy_on_write (mypt va : Nat) : Prog Phys Int := do
  match ← walk mypt va false with
  | none => throw "copy_on_write: null pte"
  | some slot =>
    let s ← get
    let pte := loadPte s.mem slot.1 slot.2
    let old_pa := PTE2PA pte
    match ← cow_kalloc old_pa with
    | none => pure (-1)
    | some new_pa =>
      let flags := (PTE_FLAGS pte &&& ~~~PTE_COW) ||| PTE_W
      if new_pa = old_pa then
        storePte slot ((pte &&& ~~~PTE_COW) ||| PTE_W)
        pure 0
      else
        uvmunmap mypt (PGROUNDDOWN va) 1 false
        let r ← mappages mypt (PGROUNDDOWN va) PGSIZE new_pa flags
        if r ≠ 0 then
          kfree new_pa
          pure (-1)
        else
          pure 0

/-- The loop of `copyout`; every round copies at least one byte, so as many
rounds as bytes are enough. -/
def copyoutLoop (mypt mysz pagetable : Nat) : Nat → Nat → List UInt8 → Prog Phys Int
  | 0, _, _ => pure 0
  | k+1, dstva, src => do
    if src.length = 0 then pure 0 else
    let cow ← should_copyon_write mypt mysz dstva
    if cow then
      let _ ← copy_on_write mypt dstva
    else pure ()
    let va0 := PGROUNDDOWN dstva
    let pa0 ← walkaddr pagetable va0
    if pa0 = 0 then pure (-1) else
    let n := min (PGSIZE - (dstva - va0)) src.length
    modify fun s => s.setPage pa0 (blit (s.mem pa0) (dstva - va0) (src.take n))
    copyoutLoop mypt mysz pagetable k ((va0+PGSIZE) % 2^64) (src.drop n)

def copyout (mypt mysz pagetable dstva : Nat) (src : List UInt8) : Prog Phys Int :=
  copyoutLoop mypt mysz pagetable src.length dstva src

end

/-- The loop of `copyin`: the return code and the bytes that were copied. -/
def copyinLoop (pagetable : Nat) : Nat → Nat → Nat → List UInt8 → Prog Phys (Int × List UInt8)
  | 0, _, _, dst => pure (0, dst)
  | k+1, srcva, len, dst => do
    if len = 0 then pure (0, dst) else
    let va0 := PGROUNDDOWN srcva
    let pa0 ← walkaddr pagetable va0
    if pa0 = 0 then pure (-1, dst) else
    let n := min (PGSIZE - (srcva - va0)) len
    let s ← get
    let bytes := (List.range n).map fun i => s.mem pa0 (srcva - va0 + i)
    copyinLoop pagetable k ((va0+PGSIZE) % 2^64) (len-n) (dst ++ bytes)

def copyin (pagetable srcva len : Nat) : Prog Phys (Int × List UInt8) :=
  copyinLoop pagetable len srcva len []

/-- The bytes `p[0..n-1]` up to and including the first NUL, and whether there is one. -/
def takeString (p : Nat → UInt8) : Nat → List UInt8 × Bool
  | 0 => ([], false)
  | n+1 => if p 0 = 0 then ([0], true) else
    let r := takeString (fun i => p (i+1)) n
    (p 0 :: r.1, r.2)

def copyinstrLoop (pagetable : Nat) : Nat → Nat → Nat → List UInt8 → Prog Phys (Int × List UInt8)
  | 0, _, _, dst => pure (-1, dst)
  | k+1, srcva, max, dst => do
    if max = 0 then pure (-1, dst) else
    let va0 := PGROUNDDOWN srcva
    let pa0 ← walkaddr pagetable va0
    if pa0 = 0 then pure (-1, dst) else
    let n := min (PGSIZE - (srcva - va0)) max
    let s ← get
    let r := takeString (fun i => s.mem pa0 (srcva - va0 + i)) n
    if r.2 then pure (0, dst ++ r.1) else
    copyinstrLoop pagetable k ((va0+PGSIZE) % 2^64) (max-n) (dst ++ r.1)

def copyinstr (pagetable srcva max : Nat) : Prog Phys (Int × List UInt8) :=
  copyinstrLoop pagetable max srcva max []

end Xv6
