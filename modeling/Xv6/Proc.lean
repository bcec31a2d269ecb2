import Xv6.UserGrow

/-! `kernel/proc.c` and the page-fault branch of `usertrap`: the process table,
`fork`, `exit`, `wait`, `sbrk`, and the pipes of `kernel/pipe.c`, as code over one
kernel state. A null pointer is 0. -/
namespace Xv6

inductive ProcState
  | UNUSED | SLEEPING | RUNNABLE | RUNNING | ZOMBIE
  deriving DecidableEq

structure Proc where
  state : ProcState
  parent : Option Nat
  killed : Bool
  xstate : Int
  pid : Nat
  sz : Nat
  pagetable : Nat
  trapframe : Nat

structure Pipe where
  page : Nat
  readopen : Bool
  writeopen : Bool

/-- `held` are pages that kernel code has from `kalloc` for itself. -/
structure Kernel where
  phys : Phys
  kernel_pagetable : Nat
  kstack : List Nat
  proc : Nat → Proc
  initproc : Nat
  nextpid : Nat
  pipes : List Pipe
  held : List Nat

@[irreducible] def procs : List Nat := List.range NPROC

theorem mem_procs {p : Nat} : p ∈ procs ↔ p < NPROC := by
  unfold procs
  exact List.mem_range

theorem procs_nodup : procs.Nodup := by
  unfold procs
  exact List.nodup_range

/-- Code of `kalloc.c` and `vm.c` run by the kernel. -/
def inPhys {α : Type} (x : Prog Phys α) : Prog Kernel α :=
  zoom Kernel.phys (fun s k => { k with phys := s }) x

def setProc (p : Nat) (g : Proc → Proc) : Prog Kernel Unit :=
  modify fun k => { k with proc := Function.update k.proc p (g (k.proc p)) }

def intBytes (x : Int) : List UInt8 :=
  (List.range 4).map fun i => UInt8.ofNat ((x % 2^32).toNat / 256^i)

def Proc.alive (x : Proc) : Prop := x.state ≠ .UNUSED ∧ x.state ≠ .ZOMBIE

instance (x : Proc) : Decidable x.alive := inferInstanceAs (Decidable (_ ∧ _))

section
variable [Layout]

def freeproc (p : Nat) : Prog Kernel Unit := do
  let k ← get
  if (k.proc p).trapframe ≠ 0 then inPhys (kfree (k.proc p).trapframe) else pure ()
  setProc p fun x => { x with trapframe := 0 }
  if (k.proc p).pagetable ≠ 0 then
    inPhys (proc_freepagetable (k.proc p).pagetable (k.proc p).sz)
  else pure ()
  setProc p fun x => { x with
    pagetable := 0, sz := 0, pid := 0, parent := none, killed := false, xstate := 0,
    state := .UNUSED }

def allocpid : Prog Kernel Nat := do
  let k ← get
  set { k with nextpid := k.nextpid + 1 }
  pure k.nextpid

/-- The first unused slot, with a trapframe and an empty page table. -/
def allocproc : Prog Kernel (Option Nat) := do
  let k ← get
  match procs.find? fun p => (k.proc p).state = .UNUSED with
  | none => pure none
  | some p =>
    let pid ← allocpid
    setProc p fun x => { x with pid := pid }
    match ← inPhys kalloc with
    | none =>
      setProc p fun x => { x with trapframe := 0 }
      pure none
    | some trapframe =>
      setProc p fun x => { x with trapframe := trapframe }
      match ← inPhys (proc_pagetable trapframe) with
      | none =>
        setProc p fun x => { x with pagetable := 0 }
        freeproc p
        pure none
      | some pagetable =>
        setProc p fun x => { x with pagetable := pagetable }
        pure (some p)

/-- `p->sz` goes through a `uint`. -/
def growproc (p : Nat) (n : Int) : Prog Kernel Int := do
  let k ← get
  let sz := (k.proc p).sz % 2^32
  let newsz := ((sz + n) % 2^32).toNat
  if n > 0 then
    let r ← inPhys (uvmalloc (k.proc p).pagetable sz newsz)
    if r % 2^32 = 0 then pure (-1) else
    setProc p fun x => { x with sz := r % 2^32 }
    pure 0
  else if n < 0 then
    let r ← inPhys (uvmdealloc (k.proc p).pagetable sz newsz)
    setProc p fun x => { x with sz := r % 2^32 }
    pure 0
  else
    setProc p fun x => { x with sz := sz }
    pure 0

/-- `n` is the system call's argument as an `int`; the old size goes through an `int` too. -/
def sys_sbrk (p : Nat) (n : Int) : Prog Kernel Int := do
  let k ← get
  let addr := (BitVec.ofNat 32 (k.proc p).sz).toInt
  let r ← growproc p n
  if r < 0 then pure (-1) else pure addr

def TRAPFRAME_SIZE : Nat := 288
def TF_EPC : Nat := 24
def TF_SP : Nat := 48
def TF_A0 : Nat := 112
def TF_A1 : Nat := 120

/-- `*(np->trapframe) = *(p->trapframe); np->trapframe->a0 = 0` -/
def copyTrapframe (src dst : Nat) : Prog Phys Unit := do
  modify fun s => s.setPage dst fun i => if i < TRAPFRAME_SIZE then s.mem src i else s.mem dst i
  modify fun s => s.setPage dst (leSet 8 (s.mem dst) TF_A0 0)

def fork (p : Nat) : Prog Kernel Int := do
  match ← allocproc with
  | none => pure (-1)
  | some np =>
    let k ← get
    let r ← inPhys (uvmcopy (k.proc p).pagetable (k.proc np).pagetable (k.proc p).sz)
    if r < 0 then
      freeproc np
      pure (-1)
    else
      setProc np fun x => { x with sz := (k.proc p).sz, parent := some p }
      inPhys (copyTrapframe (k.proc p).trapframe (k.proc np).trapframe)
      setProc np fun x => { x with state := .RUNNABLE }
      pure (k.proc np).pid

def reparent (p : Nat) : Prog Kernel Unit :=
  modify fun k => { k with proc := fun q =>
    if (k.proc q).parent = some p then { k.proc q with parent := some k.initproc } else k.proc q }

/-- The open files of `p` are closed by other steps. -/
def exit (p : Nat) (status : Int) : Prog Kernel Unit := do
  let k ← get
  panicIf (p = k.initproc) "init exiting"
  reparent p
  setProc p fun x => { x with xstate := status, state := .ZOMBIE }

/-- One scan of the table; no result means that `p` goes to sleep. -/
def wait (p addr : Nat) : Prog Kernel (Option Int) := do
  let k ← get
  match procs.find? fun np => (k.proc np).parent = some p ∧ (k.proc np).state = .ZOMBIE with
  | some np =>
    let r ← if addr ≠ 0 then
        inPhys (copyout (k.proc p).pagetable (k.proc p).sz (k.proc p).pagetable addr
          (intBytes (k.proc np).xstate))
      else pure 0
    if r < 0 then pure (some (-1)) else
    freeproc np
    pure (some (k.proc np).pid)
  | none =>
    if (procs.all fun np => (k.proc np).parent ≠ some p) ∨ (k.proc p).killed then
      pure (some (-1))
    else pure none

def kill (pid : Nat) : Prog Kernel Int := do
  let k ← get
  match procs.find? fun p => (k.proc p).pid = pid with
  | none => pure (-1)
  | some p =>
    setProc p fun x => { x with
      killed := true, state := if x.state = .SLEEPING then .RUNNABLE else x.state }
    pure 0

/-- `usertrap` for `scause` 13 and 15, up to the end of its fault branch. -/
def usertrapFault (p stval : Nat) : Prog Kernel Unit := do
  let k ← get
  let cow ← inPhys (should_copyon_write (k.proc p).pagetable (k.proc p).sz stval)
  if cow then
    let r ← inPhys (copy_on_write (k.proc p).pagetable stval)
    if r ≠ 0 then setProc p fun x => { x with killed := true } else pure ()
  else pure ()

/-- `usertrap` for a page fault: a killed process does not return to user space. -/
def usertrap (p stval : Nat) : Prog Kernel Unit := do
  usertrapFault p stval
  let k ← get
  if (k.proc p).killed then exit p (-1) else pure ()

/-- `files` tells whether `filealloc` finds two free slots. -/
def pipealloc (files : Bool) : Prog Kernel Int := do
  if files = false then pure (-1) else
  match ← inPhys kalloc with
  | none => pure (-1)
  | some pi =>
    modify fun k => { k with pipes := ⟨pi, true, true⟩ :: k.pipes }
    pure 0

def Pipe.close (pi : Pipe) (writable : Bool) : Pipe :=
  if writable then { pi with writeopen := false } else { pi with readopen := false }

def pipeclose (i : Nat) (writable : Bool) : Prog Kernel Unit := do
  let k ← get
  match k.pipes[i]? with
  | none => pure ()
  | some pi =>
    if (pi.close writable).readopen = false ∧ (pi.close writable).writeopen = false then
      modify fun k => { k with pipes := k.pipes.eraseIdx i }
      inPhys (kfree pi.page)
    else
      modify fun k => { k with pipes := k.pipes.set i (pi.close writable) }

def holdPage : Prog Kernel (Option Nat) := do
  match ← inPhys kalloc with
  | none => pure none
  | some pa =>
    modify fun k => { k with held := pa :: k.held }
    pure (some pa)

def dropPage (pa : Nat) : Prog Kernel Unit := do
  modify fun k => { k with held := k.held.erase pa }
  inPhys (kfree pa)

end

end Xv6
