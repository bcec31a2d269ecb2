import Xv6.Interleave

/-! `kernel/pipe.c` as any number of processes use one pipe. A process takes `pi->lock`,
goes around the loop of `pipewrite` or `piperead` one byte at a time, and gives the lock
back when it sleeps or returns. `kill` may come between any two of these steps. -/
namespace Xv6

open Function

def PIPESIZE : Nat := 512

/-- `struct pipe` without its lock. Only the first `PIPESIZE` places of `data` are used. -/
structure PipeRing where
  data : Nat → UInt8
  nread : BitVec 32
  nwrite : BitVec 32
  readopen : Bool
  writeopen : Bool

def PipeRing.full (pi : PipeRing) : Prop := pi.nwrite = pi.nread + BitVec.ofNat 32 PIPESIZE

def PipeRing.empty (pi : PipeRing) : Prop := pi.nread = pi.nwrite

instance PipeRing.decidableFull (pi : PipeRing) : Decidable pi.full :=
  inferInstanceAs (Decidable (_ = _))

instance PipeRing.decidableEmpty (pi : PipeRing) : Decidable pi.empty :=
  inferInstanceAs (Decidable (_ = _))

/-- `pi->data[pi->nwrite++ % PIPESIZE] = ch` -/
def PipeRing.store (pi : PipeRing) (ch : UInt8) : PipeRing :=
  { pi with
    data := update pi.data (pi.nwrite.toNat % PIPESIZE) ch
    nwrite := pi.nwrite + 1 }

/-- `pi->data[pi->nread++ % PIPESIZE]` -/
def PipeRing.next (pi : PipeRing) : UInt8 := pi.data (pi.nread.toNat % PIPESIZE)

def PipeRing.remove (pi : PipeRing) : PipeRing := { pi with nread := pi.nread + 1 }

/-- The channels `&pi->nread` and `&pi->nwrite`. -/
inductive PipeChan
  | nread
  | nwrite
  deriving DecidableEq

/-- Where a process stands. `out r` is outside of the pipe, where the last call returned
`r`. The bytes of a `pipewrite` are what `copyin` gives for them, and for `piperead` the
list says which calls of `copyout` succeed; `i` is the loop variable, and `i0` its value
when the lock was taken. -/
inductive PipePc
  | out (r : Int)
  | wlock (src : List (Option UInt8)) (i : Nat)
  | wloop (src : List (Option UInt8)) (i0 i : Nat)
  | wsleep (src : List (Option UInt8)) (i : Nat)
  | wend (i : Nat)
  | rlock (dst : List Bool)
  | rwait (dst : List Bool)
  | rsleep (dst : List Bool)
  | rloop (dst : List Bool) (i : Nat)
  | rend (i : Nat)

/-- The pipe, its lock, and its users: the channel that a process is `SLEEPING` on, and
`p->killed`. `stored` and `removed` are all bytes that went into `data` and out of it. -/
structure PipeState (ι : Type) where
  ring : PipeRing
  lock : Option ι
  pc : ι → PipePc
  sleeping : ι → Option PipeChan
  killed : ι → Bool
  stored : List UInt8
  removed : List UInt8

variable {ι : Type}

def PipeState.wakeup (s : PipeState ι) (chan : PipeChan) : PipeState ι :=
  { s with sleeping := fun p => if s.sleeping p = some chan then none else s.sleeping p }

def PipePc.outside : PipePc → Bool
  | .out .. => true
  | .wlock .. | .wloop .. | .wsleep .. | .wend .. | .rlock .. | .rwait .. | .rsleep .. | .rloop ..
  | .rend .. => false

def PipePc.writing : PipePc → Bool
  | .wlock .. | .wloop .. | .wsleep .. | .wend .. => true
  | .out .. | .rlock .. | .rwait .. | .rsleep .. | .rloop .. | .rend .. => false

def PipePc.reading : PipePc → Bool
  | .rlock .. | .rwait .. | .rsleep .. | .rloop .. | .rend .. => true
  | .out .. | .wlock .. | .wloop .. | .wsleep .. | .wend .. => false

/-- Before `acquire(&pi->lock)`, in the beginning or at the end of `sleep`. -/
def PipePc.acquires : PipePc → Bool
  | .wlock .. | .rlock .. => true
  | .out .. | .wloop .. | .wsleep .. | .wend .. | .rwait .. | .rsleep .. | .rloop .. | .rend .. =>
    false

/-- After `pipealloc`, with any bytes in the new page. -/
def PipeState.Fresh (s : PipeState ι) : Prop :=
  s.ring.nread = 0 ∧ s.ring.nwrite = 0 ∧ s.ring.readopen = true ∧ s.ring.writeopen = true ∧
    s.lock = none ∧ (∀ p, (s.pc p).outside = true) ∧ (∀ p, s.sleeping p = none) ∧
    s.stored = [] ∧ s.removed = []

variable [DecidableEq ι]

def PipeState.move (s : PipeState ι) (p : ι) (x : PipePc) : PipeState ι :=
  { s with pc := update s.pc p x }

/-- `release(&pi->lock); return r` -/
def PipeState.leave (s : PipeState ι) (p : ι) (r : Int) : PipeState ι :=
  { s.move p (.out r) with lock := none }

/-- `sleep(chan, &pi->lock)`; the process takes the lock again when it is woken. -/
def PipeState.sleep (s : PipeState ι) (p : ι) (chan : PipeChan) (x : PipePc) : PipeState ι :=
  { s.move p x with
    lock := none
    sleeping := update s.sleeping p (some chan) }

/-- One round of the loop of `pipewrite`. -/
def PipeState.write (s : PipeState ι) (p : ι) (src : List (Option UInt8)) (i0 i : Nat) :
    PipeState ι :=
  match src[i]? with
  | none => s.move p (.wend i)
  | some byte =>
    if s.ring.full then
      if s.ring.readopen = false ∨ s.killed p = true then s.leave p (-1)
      else (s.wakeup .nread).move p (.wsleep src i)
    else
      match byte with
      | none => s.move p (.wend i)
      | some ch =>
        { s.move p (.wloop src i0 (i+1)) with
          ring := s.ring.store ch
          stored := s.stored ++ [ch] }

/-- One round of the second loop of `piperead`. The byte is gone also when `copyout`
fails. -/
def PipeState.read (s : PipeState ι) (p : ι) (dst : List Bool) (i : Nat) : PipeState ι :=
  match dst[i]? with
  | none => s.move p (.rend i)
  | some ok =>
    if s.ring.empty then s.move p (.rend i)
    else
      { s.move p (if ok then .rloop dst (i+1) else .rend i) with
        ring := s.ring.remove
        removed := s.removed ++ [s.ring.next] }

def PipeState.step (s : PipeState ι) (p : ι) : PipeState ι :=
  match s.pc p with
  | .out _ => s
  | .wlock src i => { s.move p (.wloop src i i) with lock := some p }
  | .wloop src i0 i => s.write p src i0 i
  | .wsleep src i => s.sleep p .nwrite (.wlock src i)
  | .wend i => (s.wakeup .nread).leave p i
  | .rlock dst => { s.move p (.rwait dst) with lock := some p }
  | .rwait dst =>
    if s.ring.empty ∧ s.ring.writeopen = true then
      if s.killed p = true then s.leave p (-1) else s.move p (.rsleep dst)
    else s.move p (.rloop dst 0)
  | .rsleep dst => s.sleep p .nread (.rlock dst)
  | .rloop dst i => s.read p dst i
  | .rend i => (s.wakeup .nwrite).leave p i

def PipeState.close (s : PipeState ι) (writable : Bool) : PipeState ι :=
  if writable then
    { s.wakeup .nread with ring := { s.ring with writeopen := false } }
  else
    { s.wakeup .nwrite with ring := { s.ring with readopen := false } }

/-- `kill` marks its victim, and wakes it when it sleeps. -/
def PipeState.kill (s : PipeState ι) (p : ι) : PipeState ι :=
  { s with
    killed := update s.killed p true
    sleeping := update s.sleeping p none }

inductive PipeOp (ι : Type)
  | write (p : ι) (src : List (Option UInt8))
  | read (p : ι) (dst : List Bool)
  | step (p : ι)
  | close (writable : Bool)
  | kill (p : ι)

def PipeOp.next (s : PipeState ι) : PipeOp ι → PipeState ι
  | .write p src => s.move p (.wlock src 0)
  | .read p dst => s.move p (.rlock dst)
  | .step p => s.step p
  | .close writable => s.close writable
  | .kill p => s.kill p

def PipeOp.run (op : PipeOp ι) : Prog (PipeState ι) Unit := modify op.next

/-- A process that sleeps does not run. `fileclose` closes an end when no descriptor is
left for it, so that no process is in a call on that end. -/
def PipeOp.enabled (s : PipeState ι) : PipeOp ι → Prop
  | .write p _ => (s.pc p).outside = true ∧ s.ring.writeopen = true
  | .read p _ => (s.pc p).outside = true ∧ s.ring.readopen = true
  | .step p => s.sleeping p = none ∧ (s.pc p).outside = false ∧
      ((s.pc p).acquires = true → s.lock = none)
  | .close true => s.lock = none ∧ s.ring.writeopen = true ∧ ∀ p, (s.pc p).writing = false
  | .close false => s.lock = none ∧ s.ring.readopen = true ∧ ∀ p, (s.pc p).reading = false
  | .kill _ => True

abbrev PipeReachable (may : PipeState ι → PipeOp ι → Prop) : PipeState ι → Prop :=
  Reaches PipeState.Fresh (fun s op => op.enabled s ∧ may s op) PipeOp.run

end Xv6
