import Xv6.Interleave

/-! The input side of `kernel/console.c`: `consoleintr` edits a line in the ring `cons`,
and any number of processes read committed lines with `consoleread`. A process has
`cons.lock` while it goes around the loop and gives it back when it sleeps or returns;
`consoleintr` is one step, since it has the lock all the time. -/
namespace Xv6.Console

open Function

def INPUT_BUF : Nat := 128

/-- `C('D')`, `C('H')`, `C('P')`, `C('U')`, `'\x7f'`, `'\n'` and `'\r'` -/
def CTRL_D : UInt8 := 4
def CTRL_H : UInt8 := 8
def CTRL_P : UInt8 := 16
def CTRL_U : UInt8 := 21
def DEL : UInt8 := 127
def NL : UInt8 := 10
def CR : UInt8 := 13

/-- `cons` without its lock. Only the first `INPUT_BUF` places of `buf` are used. -/
structure Cons where
  buf : Nat → UInt8
  r : BitVec 32
  w : BitVec 32
  e : BitVec 32

def Cons.at (c : Cons) (i : BitVec 32) : UInt8 := c.buf (i.toNat % INPUT_BUF)

def Cons.killLoop : Nat → Cons → Cons
  | 0, c => c
  | k+1, c => if c.e ≠ c.w ∧ c.at (c.e-1) ≠ NL then killLoop k { c with e := c.e-1 } else c

/-- The character is stored, and the line committed where it ends. The flag says whether
readers are woken. -/
def Cons.store (c : Cons) (ch : UInt8) : Cons × Bool :=
  let c := { c with buf := update c.buf (c.e.toNat % INPUT_BUF) ch, e := c.e+1 }
  if ch = NL ∨ ch = CTRL_D ∨ c.e = c.r + BitVec.ofNat 32 INPUT_BUF then ({ c with w := c.e }, true)
  else (c, false)

/-- `consoleintr`, without its echo. -/
def Cons.intr (c : Cons) (ch : UInt8) : Cons × Bool :=
  if ch = CTRL_P then (c, false)
  else if ch = CTRL_U then (c.killLoop (c.e-c.w).toNat, false)
  else if ch = CTRL_H ∨ ch = DEL then
    if c.e ≠ c.w then ({ c with e := c.e-1 }, false) else (c, false)
  else if ch ≠ 0 ∧ (c.e-c.r).toNat < INPUT_BUF then c.store (if ch = CR then NL else ch)
  else (c, false)

/-- Where a process stands: outside of `consoleread`, before it takes the lock, or in its
loop with the variables `target` and `n` and the bytes that were copied to the user. -/
inductive ReadPc
  | out
  | lock (target : BitVec 32) (n : Int) (dst : List UInt8)
  | loop (target : BitVec 32) (n : Int) (dst : List UInt8)
  deriving DecidableEq

/-- Before `acquire(&cons.lock)`, in the beginning or at the end of `sleep`. -/
def ReadPc.acquires : ReadPc → Bool
  | .lock .. => true
  | .out | .loop .. => false

/-- The console and its readers. `returned` has the results of the calls so far, with the
bytes that each got. -/
structure State (ι : Type) where
  cons : Cons
  lock : Option ι
  pc : ι → ReadPc
  sleeping : ι → Bool
  returned : List (ι × Int × List UInt8)

variable {ι : Type}

def State.wakeup (s : State ι) : State ι := { s with sleeping := fun _ => false }

/-- After `consoleinit`, with nobody in a call. -/
def State.Fresh (s : State ι) : Prop :=
  s.cons.r = 0 ∧ s.cons.w = 0 ∧ s.cons.e = 0 ∧ s.lock = none ∧ s.pc = (fun _ => .out) ∧
    s.sleeping = (fun _ => false) ∧ s.returned = []

variable [DecidableEq ι]

def State.goto (s : State ι) (p : ι) (x : ReadPc) : State ι := { s with pc := update s.pc p x }

/-- `release(&cons.lock); return target - n` -/
def State.leave (s : State ι) (p : ι) (target : BitVec 32) (n : Int) (dst : List UInt8) : State ι :=
  { s.goto p .out with
    lock := none
    returned := s.returned ++ [(p, (target - BitVec.ofInt 32 n).toInt, dst)] }

/-- `sleep(&cons.r, &cons.lock)`; the process takes the lock again when it is woken. -/
def State.sleep (s : State ι) (p : ι) (target : BitVec 32) (n : Int) (dst : List UInt8) : State ι :=
  { s.goto p (.lock target n dst) with lock := none, sleeping := update s.sleeping p true }

/-- One round of the loop of `consoleread`; `either_copyout` succeeds. -/
def State.round (s : State ι) (p : ι) (target : BitVec 32) (n : Int) (dst : List UInt8) : State ι :=
  if ¬ 0 < n then s.leave p target n dst
  else if s.cons.r = s.cons.w then s.sleep p target n dst
  else
    let c := s.cons.at s.cons.r
    let s1 := { s with cons := { s.cons with r := s.cons.r+1 } }
    if c = CTRL_D then
      -- `cons.r--` saves it for the next call.
      if BitVec.ofInt 32 n < target then s.leave p target n dst else s1.leave p target n dst
    else if c = NL then s1.leave p target (n-1) (dst ++ [c])
    else s1.goto p (.loop target (n-1) (dst ++ [c]))

inductive Op (ι : Type)
  | intr (c : UInt8)
  | read (p : ι) (n : Int)
  | acquire (p : ι)
  | round (p : ι)

/-- An `int` comes as the argument of `read`. Nobody runs without the lock, and a process
that sleeps does not run. -/
def Op.enabled (s : State ι) : Op ι → Prop
  | .intr _ => s.lock = none
  | .read p n => s.pc p = .out ∧ -2^31 ≤ n ∧ n < 2^31
  | .acquire p => s.lock = none ∧ s.sleeping p = false ∧ (s.pc p).acquires = true
  | .round p => s.lock = some p

instance Op.decidableEnabled (s : State ι) (o : Op ι) : Decidable (o.enabled s) := by
  cases o <;> unfold Op.enabled <;> infer_instance

def Op.run : Op ι → Prog (State ι) Unit
  | .intr c => modify fun s =>
    let r := s.cons.intr c
    if r.2 then { s with cons := r.1 }.wakeup else { s with cons := r.1 }
  | .read p n => modify fun s => s.goto p (.lock (BitVec.ofInt 32 n) n [])
  | .acquire p => modify fun s =>
    match s.pc p with
    | .lock target n dst => { s.goto p (.loop target n dst) with lock := some p }
    | _ => s
  | .round p => modify fun s =>
    match s.pc p with
    | .loop target n dst => s.round p target n dst
    | _ => s

end Xv6.Console
