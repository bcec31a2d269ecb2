import Xv6.KernelProg
import Xv6.LittleEndian
import Xv6.Riscv

/-! `kernel/kalloc.c`: the page allocator with one reference count for each
physical page. The free list is kept as a list of page addresses; the link word
that `kfree` leaves inside a free page is not part of the page's content here. -/
namespace Xv6

/-- What the linker decides: the first address after the kernel, and the page of
the trampoline, the last one of its text. The kernel leaves 4 MB or more free. -/
class Layout where
  kend : Nat
  trampoline : Nat
  tramp_aligned : trampoline % PGSIZE = 0
  tramp_ge : KERNBASE ≤ trampoline
  etext_le : trampoline + PGSIZE ≤ kend
  room : kend + 4*1024*1024 ≤ PHYSTOP

def Layout.etext [Layout] : Nat := Layout.trampoline + PGSIZE

theorem Layout.tramp_lt [Layout] : Layout.trampoline < Layout.kend := by
  have h1 := Layout.etext_le
  have h2 : 0 < PGSIZE := by decide
  omega

/-- Physical memory by page address and byte offset, and the allocator's state. -/
structure Phys where
  mem : Nat → Bytes
  freelist : List Nat
  pageref : Nat → Int

def PA2PAGE_ID (pa : Nat) : Nat := (pa - KERNBASE) / PGSIZE
def PAGE_COUNT : Nat := PA2PAGE_ID PHYSTOP

def Phys.ref (s : Phys) (pa : Nat) : Int := s.pageref (PA2PAGE_ID pa)

def Phys.setRef (s : Phys) (pa : Nat) (n : Int) : Phys :=
  { s with pageref := Function.update s.pageref (PA2PAGE_ID pa) n }

def Phys.setPage (s : Phys) (pa : Nat) (b : Bytes) : Phys :=
  { s with mem := Function.update s.mem pa b }

def memsetPage (pa : Nat) (c : UInt8) : Prog Phys Unit :=
  modify fun s => s.setPage pa (fun _ => c)

def pageRef (pa : Nat) : Prog Phys Unit :=
  modify fun s => s.setRef pa (s.ref pa + 1)

def kalloc : Prog Phys (Option Nat) := do
  let s ← get
  match s.freelist with
  | [] => pure none
  | r :: rest =>
    set { s with freelist := rest }
    memsetPage r 5
    modify fun s => s.setRef r 1
    pure (some r)

/-- Copy on write: the page itself when nobody else uses it, else a fresh copy
that takes over one reference. -/
def cow_kalloc (pa : Nat) : Prog Phys (Option Nat) := do
  let s ← get
  if s.ref pa ≤ 1 then
    pure (some pa)
  else
    match ← kalloc with
    | none => pure none
    | some new_pa =>
      modify fun s => s.setPage new_pa (s.mem pa)
      modify fun s => s.setRef pa (s.ref pa - 1)
      pure (some new_pa)

section
variable [Layout]

def kfree (pa : Nat) : Prog Phys Unit := do
  panicIf (pa % PGSIZE ≠ 0 ∨ pa < Layout.kend ∨ PHYSTOP ≤ pa) "kfree"
  modify fun s => s.setRef pa (s.ref pa - 1)
  let s ← get
  if s.ref pa ≤ 0 then
    memsetPage pa 1
    modify fun s => { s with freelist := pa :: s.freelist }
  else
    pure ()

def freerangeLoop : Nat → Nat → Prog Phys Unit
  | _, 0 => pure ()
  | p, n+1 => do
    kfree p
    freerangeLoop (p+PGSIZE) n

def freerange (pa_start pa_end : Nat) : Prog Phys Unit :=
  freerangeLoop (PGROUNDUP pa_start) ((pa_end - PGROUNDUP pa_start) / PGSIZE)

def kinit : Prog Phys Unit := freerange Layout.kend PHYSTOP

end

end Xv6
