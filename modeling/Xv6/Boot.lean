import Xv6.Exec

/-! From power-on to the first process: `kinit`, `kvminit`, `procinit` and
`userinit`, in the order of `main`. -/
namespace Xv6

def UART0 : Nat := 0x10000000
def VIRTIO0 : Nat := 0x10001000
def CLINT : Nat := 0x2000000
def PLIC : Nat := 0x0c000000

def KSTACK (p : Nat) : Nat := TRAMPOLINE - (p+1)*2*PGSIZE

def initcode : List UInt8 := [
  0x17, 0x05, 0x00, 0x00, 0x13, 0x05, 0x45, 0x02,
  0x97, 0x05, 0x00, 0x00, 0x93, 0x85, 0x35, 0x02,
  0x93, 0x08, 0x70, 0x00, 0x73, 0x00, 0x00, 0x00,
  0x93, 0x08, 0x20, 0x00, 0x73, 0x00, 0x00, 0x00,
  0xef, 0xf0, 0x9f, 0xff, 0x2f, 0x69, 0x6e, 0x69,
  0x74, 0x00, 0x00, 0x24, 0x00, 0x00, 0x00, 0x00,
  0x00, 0x00, 0x00, 0x00]

def Proc.zero : Proc where
  state := .UNUSED
  parent := none
  killed := false
  xstate := 0
  pid := 0
  sz := 0
  pagetable := 0
  trapframe := 0

/-- The kernel's data before `main`, with memory of any content. -/
def powerOn (mem : Nat → Bytes) : Kernel where
  phys := { mem := mem, freelist := [], pageref := fun _ => 0 }
  kernel_pagetable := 0
  kstack := []
  proc := fun _ => Proc.zero
  initproc := 0
  nextpid := 1
  pipes := []
  held := []

def kvmmap (va pa sz : Nat) (perm : Pte) : Prog Kernel Unit := do
  let k ← get
  let r ← inPhys (mappages k.kernel_pagetable va sz pa perm)
  panicIf (r ≠ 0) "kvmmap"

/-- The source clears the new table without a check of `kalloc`. -/
def kvminitTable : Prog Kernel Unit := do
  match ← inPhys kalloc with
  | none => throw "kvminit: null page"
  | some pagetable =>
    inPhys (memsetPage pagetable 0)
    modify fun k => { k with kernel_pagetable := pagetable }

def procinitLoop : List Nat → Prog Kernel Unit
  | [] => pure ()
  | p :: ps => do
    match ← inPhys kalloc with
    | none => throw "kalloc"
    | some pa =>
      kvmmap (KSTACK p) pa PGSIZE (PTE_R ||| PTE_W)
      modify fun k => { k with kstack := k.kstack ++ [pa] }
      procinitLoop ps

def procinit : Prog Kernel Unit := procinitLoop procs

section
variable [Layout]

def kvminit : Prog Kernel Unit := do
  kvminitTable
  kvmmap UART0 UART0 PGSIZE (PTE_R ||| PTE_W)
  kvmmap VIRTIO0 VIRTIO0 PGSIZE (PTE_R ||| PTE_W)
  kvmmap CLINT CLINT 0x10000 (PTE_R ||| PTE_W)
  kvmmap PLIC PLIC 0x400000 (PTE_R ||| PTE_W)
  kvmmap KERNBASE KERNBASE (Layout.etext-KERNBASE) (PTE_R ||| PTE_X)
  kvmmap Layout.etext Layout.etext (PHYSTOP-Layout.etext) (PTE_R ||| PTE_W)
  kvmmap TRAMPOLINE Layout.trampoline PGSIZE (PTE_R ||| PTE_X)

def userinit : Prog Kernel Unit := do
  match ← allocproc with
  | none => throw "userinit: null process"
  | some p =>
    modify fun k => { k with initproc := p }
    let k ← get
    inPhys (uvminit (k.proc p).pagetable initcode)
    setProc p fun x => { x with sz := PGSIZE }
    inPhys (setTrapframe (k.proc p).trapframe TF_EPC 0)
    inPhys (setTrapframe (k.proc p).trapframe TF_SP PGSIZE)
    setProc p fun x => { x with state := .RUNNABLE }

def boot : Prog Kernel Unit := do
  inPhys kinit
  kvminit
  procinit
  userinit

end

end Xv6
