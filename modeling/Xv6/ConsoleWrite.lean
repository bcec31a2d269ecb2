import Xv6.Interrupts

/-! The output side of `kernel/console.c`: processes in `consolewrite`, the transmit buffer
of `kernel/uart.c`, and how deep each has turned interrupts off when `uartputc` sleeps. A
process keeps the CPU while it holds a spinlock, so `noff` of its CPU is counted with the
process. What is done with `uart_tx_lock` held is one step. -/
namespace Xv6.Uart

open Function

def UART_TX_BUF_SIZE : Nat := 32

/-- `uart_tx_buf`, `uart_tx_w` and `uart_tx_r` -/
structure TxBuf where
  buf : Nat → UInt8
  w : Nat
  r : Nat

def TxBuf.full (t : TxBuf) : Prop := (t.w+1) % UART_TX_BUF_SIZE = t.r

instance (t : TxBuf) : Decidable t.full := inferInstanceAs (Decidable (_ = _))

def TxBuf.store (t : TxBuf) (c : UInt8) : TxBuf :=
  { t with buf := update t.buf t.w c, w := (t.w+1) % UART_TX_BUF_SIZE }

/-- Where a process stands. `copy i` is what `either_copyin` gives for byte `i` of the `n`
bytes of a `consolewrite`. In `wait` it was put to sleep by `uartputc` with the byte `c`. -/
inductive WritePc
  | out (r : Int)
  | lock (n : Int) (copy : Nat → Option UInt8)
  | loop (n : Int) (copy : Nat → Option UInt8) (i : Nat)
  | wait (n : Int) (copy : Nat → Option UInt8) (i : Nat) (c : UInt8)

/-- `sent` are the bytes that were written to THR. -/
structure State (ι : Type) where
  consLock : Option ι
  txLock : Option ι
  noff : ι → Nat
  tx : TxBuf
  pc : ι → WritePc
  sleeping : ι → Bool
  sent : List UInt8

variable {ι : Type}

def State.Fresh (s : State ι) : Prop :=
  s.consLock = none ∧ s.txLock = none ∧ s.noff = (fun _ => 0) ∧ s.tx.w = 0 ∧ s.tx.r = 0 ∧
    s.pc = (fun _ => .out 0) ∧ s.sleeping = (fun _ => false) ∧ s.sent = []

/-- The loop of `uartstart`; `lsr` are the answers to its reads of `LSR_TX_IDLE`. The
buffer holds less bytes than it has places, which bounds the rounds. -/
def uartstartLoop (lsr : Nat → Bool) : Nat → State ι → State ι
  | 0, s => s
  | k+1, s =>
    if s.tx.w = s.tx.r then s
    else if lsr k = false then s
    else uartstartLoop lsr k { s with
      tx := { s.tx with r := (s.tx.r+1) % UART_TX_BUF_SIZE }
      sleeping := fun _ => false
      sent := s.sent ++ [s.tx.buf s.tx.r] }

def uartstart (lsr : Nat → Bool) : Prog (State ι) Unit := modify (uartstartLoop lsr UART_TX_BUF_SIZE)

variable [DecidableEq ι]

def State.goto (s : State ι) (p : ι) (x : WritePc) : State ι := { s with pc := update s.pc p x }

def push_off (p : ι) : Prog (State ι) Unit :=
  modify fun s => { s with noff := update s.noff p (s.noff p + 1) }

def pop_off (p : ι) : Prog (State ι) Unit := do
  let s ← get
  panicIf (s.noff p < 1) "pop_off"
  set { s with noff := update s.noff p (s.noff p - 1) }

/-- Here `push_off` and `pop_off` do what `Intr.push_off` and `Intr.pop_off` do to the `noff`
of the CPU. -/
theorem push_off_noff {p : ι} {s : State ι} {c : Intr.Cpu} (h : c.noff = s.noff p) :
    (Runs Intr.push_off c fun _ c' => Runs (push_off p) s fun _ s' => c'.noff = s'.noff p) ∧
      (c.intr = false → 0 < c.noff →
        Runs Intr.pop_off c fun _ c' => Runs (pop_off p) s fun _ s' => c'.noff = s'.noff p) := by
  constructor
  · unfold Intr.push_off push_off
    simp only [runs_bind, runs_get, runs_modify, runs_ite, update_self, h, implies_true, and_self]
  · intro hi hpos
    have hno : ¬ s.noff p < 1 := by omega
    unfold Intr.pop_off pop_off
    simp only [runs_bind, runs_get, runs_panicIf, runs_modify, runs_set, runs_ite, runs_pure,
      update_self, h, hi, hno]
    simp

def acquireCons (p : ι) : Prog (State ι) Unit := do
  push_off p
  modify fun s => { s with consLock := some p }

def releaseCons (p : ι) : Prog (State ι) Unit := do
  modify fun s => { s with consLock := none }
  pop_off p

def acquireTx (p : ι) : Prog (State ι) Unit := do
  push_off p
  modify fun s => { s with txLock := some p }

def releaseTx (p : ι) : Prog (State ι) Unit := do
  modify fun s => { s with txLock := none }
  pop_off p

/-- `sched`, up to the switch to the scheduler. -/
def sched (p : ι) : Prog (State ι) Unit := do
  let s ← get
  panicIf (s.noff p ≠ 1) "sched locks"

/-- `sleep(&uart_tx_r, &uart_tx_lock)` up to the switch; `p->lock` is free for `p`. -/
def sleepTx (p : ι) : Prog (State ι) Unit := do
  push_off p
  releaseTx p
  modify fun s => { s with sleeping := update s.sleeping p true }
  sched p

/-- The loop of `uartputc` with the lock held: a full buffer puts the process to sleep,
and the result says whether the byte was stored. -/
def uartputc (p : ι) (c : UInt8) (lsr : Nat → Bool) : Prog (State ι) Bool := do
  let s ← get
  if s.tx.full then
    sleepTx p
    pure false
  else
    set { s with tx := s.tx.store c }
    uartstart lsr
    releaseTx p
    pure true

/-- `release(&cons.lock); return i` -/
def leave (p : ι) (i : Nat) : Prog (State ι) Unit := do
  releaseCons p
  modify fun s => s.goto p (.out i)

def putByte (p : ι) (n : Int) (copy : Nat → Option UInt8) (i : Nat) (c : UInt8) (lsr : Nat → Bool) :
    Prog (State ι) Unit := do
  acquireTx p
  if ← uartputc p c lsr then
    modify fun s => s.goto p (.loop n copy (i+1))
  else
    modify fun s => s.goto p (.wait n copy i c)

inductive Op (ι : Type)
  | write (p : ι) (n : Int) (copy : Nat → Option UInt8)
  | acquire (p : ι)
  | byte (p : ι) (lsr : Nat → Bool)
  | wake (p : ι) (lsr : Nat → Bool)
  | uartintr (lsr : Nat → Bool)

def WritePc.stage : WritePc → Nat
  | .out .. => 0
  | .lock .. => 1
  | .loop .. => 2
  | .wait .. => 3

/-- A lock is taken when it is free, and a process that sleeps does not run. -/
def Op.enabled (s : State ι) : Op ι → Prop
  | .write p _ _ => (s.pc p).stage = 0
  | .acquire p => (s.pc p).stage = 1 ∧ s.consLock = none
  | .byte p _ => (s.pc p).stage = 2 ∧ s.txLock = none
  | .wake p _ => (s.pc p).stage = 3 ∧ s.sleeping p = false ∧ s.txLock = none
  | .uartintr _ => s.txLock = none

instance (s : State ι) (o : Op ι) : Decidable (o.enabled s) := by
  cases o <;> unfold Op.enabled <;> infer_instance

def Op.run : Op ι → Prog (State ι) Unit
  | .write p n copy => modify fun s => s.goto p (.lock n copy)
  | .acquire p => do
    let s ← get
    match s.pc p with
    | .lock n copy =>
      acquireCons p
      modify fun s => s.goto p (.loop n copy 0)
    | _ => pure ()
  | .byte p lsr => do
    let s ← get
    match s.pc p with
    | .loop n copy i =>
      if (i : Int) < n then
        match copy i with
        | none => leave p i
        | some c => putByte p n copy i c lsr
      else leave p i
    | _ => pure ()
  | .wake p lsr => do
    let s ← get
    match s.pc p with
    | .wait n copy i c =>
      -- The end of `sleep` gives `p->lock` back.
      pop_off p
      putByte p n copy i c lsr
    | _ => pure ()
  | .uartintr lsr => uartstart lsr

/-- What the UART answers while a step runs. -/
def Op.lsr : Op ι → Nat → Bool
  | .byte _ lsr | .wake _ lsr | .uartintr lsr => lsr
  | .write .. | .acquire .. => fun _ => true

def Op.idle (o : Op ι) : Prop := ∀ k, o.lsr k = true

section Idle
variable {s s' : State ι}

/-- With an idle UART the buffer is empty between two steps. -/
structure Empty (s : State ι) : Prop where
  tx : s.tx.w = s.tx.r
  small : s.tx.r < UART_TX_BUF_SIZE
  noff : ∀ p, s.noff p = if (s.pc p).stage = 2 then 1 else 0
  awake : ∀ p, (s.pc p).stage ≠ 3

omit [DecidableEq ι] in
theorem uartstart_idle {lsr : Nat → Bool} (hlsr : ∀ k, lsr k = true) (hs : s.tx.r < UART_TX_BUF_SIZE)
    (hw : s.tx.w = s.tx.r ∨ s.tx.w = (s.tx.r+1) % UART_TX_BUF_SIZE) :
    let t := uartstartLoop lsr UART_TX_BUF_SIZE s
    t.tx.w = t.tx.r ∧ t.tx.r < UART_TX_BUF_SIZE ∧ t.noff = s.noff ∧ t.pc = s.pc := by
  have hloop (k : Nat) (u : State ι) (hu : u.tx.w = u.tx.r) : uartstartLoop lsr (k+1) u = u := by
    unfold uartstartLoop
    rw [if_pos hu]
  intro t
  by_cases he : s.tx.w = s.tx.r
  · have ht : t = s := hloop 31 s he
    rw [ht]
    exact ⟨he, hs, rfl, rfl⟩
  · have hstep : t = uartstartLoop lsr (30+1) { s with
        tx := { s.tx with r := (s.tx.r+1) % UART_TX_BUF_SIZE }
        sleeping := fun _ => false
        sent := s.sent ++ [s.tx.buf s.tx.r] } := by
      change uartstartLoop lsr (31+1) s = _
      rw [uartstartLoop, if_neg he, if_neg (by rw [hlsr]; exact Bool.noConfusion)]
    have hw := hw.resolve_left he
    rw [hstep, hloop 30 _ hw]
    exact ⟨hw, Nat.mod_lt _ (by decide), rfl, rfl⟩

theorem pop_off_runs {p : ι} {Q : Unit → State ι → Prop} (h : 0 < s.noff p)
    (hq : Q () { s with noff := update s.noff p (s.noff p - 1) }) : Runs (pop_off p) s Q := by
  unfold pop_off
  rw [runs_bind, runs_get, runs_bind, runs_panicIf]
  exact ⟨by omega, runs_set.mpr hq⟩

theorem Empty.move (h : Empty s) {p : ι} {x : WritePc} {t : State ι} (htx : t.tx.w = t.tx.r)
    (hsmall : t.tx.r < UART_TX_BUF_SIZE) (hpc : t.pc = update s.pc p x)
    (hnoff : ∀ q, q ≠ p → t.noff q = s.noff q) (hp : t.noff p = if x.stage = 2 then 1 else 0)
    (hx : x.stage ≠ 3) : Empty t := by
  refine ⟨htx, hsmall, ?_, ?_⟩
  · intro q
    rw [hpc]
    by_cases hq : q = p
    · rw [hq, update_self]
      exact hp
    · rw [update_of_ne hq, hnoff q hq]
      exact h.noff q
  · intro q
    rw [hpc]
    by_cases hq : q = p
    · rw [hq, update_self]
      exact hx
    · rw [update_of_ne hq]
      exact h.awake q

theorem Empty.leave (h : Empty s) {p : ι} (hp : (s.pc p).stage = 2) (i : Nat) :
    Runs (leave p i) s fun _ t => Empty t := by
  have hnoff := h.noff p
  rw [if_pos hp] at hnoff
  unfold Uart.leave releaseCons
  rw [runs_bind, runs_bind, runs_modify]
  apply pop_off_runs (by change 0 < s.noff p; omega)
  rw [runs_modify]
  refine h.move (x := .out i) h.tx h.small rfl ?_ ?_ (show (0 : Nat) ≠ 3 by decide)
  · intro q hq
    exact update_of_ne hq _ _
  · change update s.noff p (s.noff p - 1) p = 0
    rw [update_self, hnoff]

theorem Empty.putByte (h : Empty s) {p : ι} {n : Int} {copy : Nat → Option UInt8} {i : Nat} {c : UInt8}
    {lsr : Nat → Bool} (hlsr : ∀ k, lsr k = true) (hp : (s.pc p).stage = 2) :
    Runs (putByte p n copy i c lsr) s fun _ t => Empty t := by
  have hnoff := h.noff p
  rw [if_pos hp] at hnoff
  have hr := h.small
  have hnotfull : ¬ s.tx.full := by
    unfold TxBuf.full
    rw [h.tx]
    unfold UART_TX_BUF_SIZE at *
    omega
  unfold Uart.putByte acquireTx uartputc push_off
  rw [runs_bind, runs_bind, runs_modify, runs_modify, runs_bind, runs_bind, runs_get, if_neg hnotfull,
    runs_bind, runs_set, runs_bind]
  have hstored : (s.tx.store c).w = ((s.tx.store c).r + 1) % UART_TX_BUF_SIZE := by
    change (s.tx.w + 1) % _ = (s.tx.r + 1) % _
    rw [h.tx]
  have hstart := uartstart_idle hlsr (s := { s with
    noff := update s.noff p (s.noff p + 1), txLock := some p, tx := s.tx.store c }) hr (Or.inr hstored)
  unfold uartstart
  rw [runs_modify]
  dsimp only at hstart ⊢
  generalize uartstartLoop lsr UART_TX_BUF_SIZE _ = u at hstart ⊢
  obtain ⟨hw, hsmall, hn, hpc⟩ := hstart
  unfold releaseTx
  rw [runs_bind, runs_bind, runs_modify]
  have hnp : u.noff p = 2 := by
    rw [hn, update_self, hnoff]
  apply pop_off_runs (by change 0 < u.noff p; omega)
  rw [runs_pure, if_pos rfl, runs_modify]
  refine h.move (p := p) (x := .loop n copy (i+1)) hw hsmall ?_ ?_ ?_ (show (2 : Nat) ≠ 3 by decide)
  · exact congrArg (fun f => update f p _) hpc
  · intro q hq
    change update u.noff p (u.noff p - 1) q = _
    rw [update_of_ne hq, hn, update_of_ne hq]
  · change update u.noff p (u.noff p - 1) p = 1
    rw [update_self, hnp]

theorem Empty.step (h : Empty s) {o : Op ι} (he : o.enabled s) (hi : o.idle) :
    Runs o.run s fun _ t => Empty t := by
  cases o with
  | write p n copy =>
    unfold Op.run
    rw [runs_modify]
    have hstage : (s.pc p).stage = 0 := he
    have hnoff := h.noff p
    rw [hstage] at hnoff
    exact h.move (x := .lock n copy) h.tx h.small rfl (fun _ _ => rfl) hnoff (show (1 : Nat) ≠ 3 by decide)
  | acquire p =>
    obtain ⟨hstage, _⟩ := he
    have hnoff := h.noff p
    rw [hstage] at hnoff
    unfold Op.run
    rw [runs_bind, runs_get]
    cases hpc : s.pc p with
    | out r => rw [hpc] at hstage; cases hstage
    | loop n copy i => rw [hpc] at hstage; cases hstage
    | wait n copy i c => rw [hpc] at hstage; cases hstage
    | lock n copy =>
      dsimp only
      unfold acquireCons push_off
      rw [runs_bind, runs_bind, runs_modify, runs_modify, runs_modify]
      refine h.move (x := .loop n copy 0) h.tx h.small rfl ?_ ?_ (show (2 : Nat) ≠ 3 by decide)
      · intro q hq
        exact update_of_ne hq _ _
      · change update s.noff p (s.noff p + 1) p = 1
        rw [update_self, hnoff]
        rfl
  | byte p lsr =>
    obtain ⟨hstage, _⟩ := he
    unfold Op.run
    rw [runs_bind, runs_get]
    cases hpc : s.pc p with
    | out r => rw [hpc] at hstage; cases hstage
    | lock n copy => rw [hpc] at hstage; cases hstage
    | wait n copy i c => rw [hpc] at hstage; cases hstage
    | loop n copy i =>
      dsimp only
      split_ifs with hlt
      · cases hcopy : copy i with
        | none => exact h.leave hstage i
        | some c => exact h.putByte hi hstage
      · exact h.leave hstage i
  | wake p lsr => exact absurd he.1 (h.awake p)
  | uartintr lsr =>
    unfold Op.run uartstart
    rw [runs_modify]
    have hlsr : ∀ k, lsr k = true := hi
    obtain ⟨hw, hsmall, hn, hpc⟩ := uartstart_idle hlsr h.small (Or.inl h.tx)
    refine ⟨hw, hsmall, ?_, ?_⟩
    · rw [hn, hpc]
      exact h.noff
    · rw [hpc]
      exact h.awake

end Idle

section Runs
variable {s : State ι}

/-- The states of any run in which `P` holds of every step. -/
def Writes (P : Op ι → Prop) : State ι → Prop :=
  Reaches State.Fresh (fun s o => o.enabled s ∧ P o) Op.run

omit [DecidableEq ι] in
theorem fresh_empty (h : s.Fresh) : Empty s := by
  obtain ⟨_, _, hnoff, hw, hr, hpc, _, _⟩ := h
  refine ⟨by rw [hw, hr], by rw [hr]; decide, ?_, ?_⟩
  · intro p
    rw [hnoff, hpc]
    rfl
  · intro p
    rw [hpc]
    exact (show (0 : Nat) ≠ 3 by decide)

/-- While the UART is idle whenever `uartstart` looks, no step of a writer panics, in
`sched` or elsewhere, and nobody has to wait for space. -/
theorem idle_writers_never_sleep (hs : Writes Op.idle s) {o : Op ι} (he : o.enabled s) (hi : o.idle) :
    Runs o.run s fun _ s' => ∀ p, (s'.pc p).stage ≠ 3 := by
  have hempty : Empty s := by
    refine Reaches.invariant (I := Empty) (fun _ h => fresh_empty h) ?_ hs
    intro s o h he
    exact (h.step he.1 he.2).ends
  refine (hempty.step he hi).imp ?_
  intro _ s' h
  exact h.awake

def fresh : State Unit :=
  ⟨none, none, fun _ => 0, ⟨fun _ => 0, 0, 0⟩, fun _ => .out 0, fun _ => false, []⟩

def begun (k : Nat) (lsr : Nat → Bool) : List (Op Unit) :=
  .write () 32 (fun _ => some 65) :: .acquire () :: List.replicate k (.byte () lsr)

theorem fresh_is_fresh : fresh.Fresh := ⟨rfl, rfl, rfl, rfl, rfl, rfl, rfl, rfl⟩

/-- The UART is busy all the time: the buffer is full after 31 bytes, and the next one
makes the writer sleep with `cons.lock`. -/
theorem busy_writer_panics : ∃ s : State Unit, Writes (fun _ => True) s ∧
    (Op.byte () fun _ => false).enabled s ∧ s.consLock = some () ∧
    (Op.byte () fun _ => false).run s = .error "sched locks" := by
  have hexec : ((runSteps (fun s o => Op.enabled s o ∧ True) Op.run (begun 31 fun _ => false) fresh).any
      fun s => decide ((Op.byte () fun _ => false).enabled s) && decide (s.consLock = some ()) &&
        match (Op.byte () fun _ => false).run s with
        | .error e => e == "sched locks"
        | .ok _ => false) = true := by decide
  obtain ⟨s, hrun, hs⟩ := (Option.any_eq_true _ _).mp hexec
  rw [Bool.and_eq_true, Bool.and_eq_true] at hs
  refine ⟨s, Reaches.exec (Reaches.init fresh_is_fresh) hrun, of_decide_eq_true hs.1.1,
    of_decide_eq_true hs.1.2, ?_⟩
  have hpanic := hs.2
  cases ho : (Op.byte () fun _ => false).run s with
  | error e =>
    rw [ho] at hpanic
    rw [eq_of_beq hpanic]
  | ok r =>
    rw [ho] at hpanic
    cases hpanic

/-- The first byte of a write. -/
theorem idle_writers_never_sleep_first : ∃ s : State Unit, Writes Op.idle s ∧ s.consLock = some () ∧
    Runs (Op.byte () fun _ => true).run s fun _ s' => ∀ p, (s'.pc p).stage ≠ 3 := by
  have hwrite : Writes Op.idle (fresh.goto () (.lock 5 fun _ => some 65)) :=
    (Reaches.init fresh_is_fresh).step (o := Op.write () 5 fun _ => some 65) ⟨rfl, fun _ => rfl⟩ rfl
  have hlock := hwrite.step (o := Op.acquire ()) ⟨⟨rfl, rfl⟩, fun _ => rfl⟩ rfl
  exact ⟨_, hlock, rfl, idle_writers_never_sleep (o := Op.byte () fun _ => true) hlock ⟨rfl, rfl⟩ fun _ => rfl⟩

end Runs

end Xv6.Uart
