import Xv6.Interleave

/-! `kernel/log.c` as any number of processes use it: `begin_op`, `log_write`,
`end_op` and the steps of `commit`. Each section under `log.lock` is one step;
`log_write` makes its checks before it takes the lock, in a step of their own. -/
namespace Xv6

def MAXOPBLOCKS : Nat := 10
def LOGSIZE : Nat := MAXOPBLOCKS*3

/-- Where `commit` stands. `write_log` and `install_trans` are at block `i`. -/
inductive CommitPc
  | start
  | write_log (i : Nat)
  | write_head
  | install_trans (i : Nat)
  | clear
  | erase_head
  | finish
  deriving DecidableEq

/-- Where a process stands. An operation has a number, and `used` are the distinct
blocks that it has logged. -/
inductive LogPc
  | idle
  | starting
  | asleep
  | inOp (op : Nat) (used : List Nat)
  | logging (op : Nat) (used : List Nat) (b : Nat)
  | commit (c : CommitPc)
  deriving DecidableEq

/-- `struct log`, the processes, and a record of what was logged and committed.
`logged` holds the operation, the block and the number of commits before it;
`installed` are the blocks that the running commit has written to their places. -/
structure LogState (N : Nat) where
  size : Nat
  outstanding : Int
  committing : Bool
  lh : List Nat
  pc : Fin N → LogPc
  nextop : Nat
  logged : List (Nat × Nat × Nat)
  installed : List Nat
  commits : List (List Nat)

variable {N : Nat}

def LogState.init (N size : Nat) : LogState N where
  size := size
  outstanding := 0
  committing := false
  lh := []
  pc _ := .idle
  nextop := 0
  logged := []
  installed := []
  commits := []

def LogState.move (s : LogState N) (p : Fin N) (x : LogPc) : LogState N :=
  { s with pc := Function.update s.pc p x }

def LogState.wakeup (s : LogState N) : LogState N :=
  { s with pc := fun p => if s.pc p = .asleep then .starting else s.pc p }

/-- Each process in turn: it enters `begin_op`, tests for room under the lock, is
woken early by `kill`, checks and appends in `log_write`, enters `end_op`, or takes
a step of `commit`. -/
inductive LogOp (N : Nat)
  | begin_op (p : Fin N)
  | test (p : Fin N)
  | wake (p : Fin N)
  | check (p : Fin N) (b : Nat)
  | append (p : Fin N)
  | end_op (p : Fin N)
  | commit (p : Fin N)
  deriving DecidableEq

/-- The loop of `begin_op`, from one sleep to the next. -/
def logTest (p : Fin N) : Prog (LogState N) Unit := do
  let s ← get
  if s.committing then
    set (s.move p .asleep)
  else if (s.lh.length : Int) + (s.outstanding+1)*MAXOPBLOCKS > LOGSIZE then
    set (s.move p .asleep)
  else
    set { s.move p (.inOp s.nextop []) with
      outstanding := s.outstanding+1
      nextop := s.nextop+1 }

/-- The checks of `log_write`, which read `log` without the lock. -/
def logCheck (p : Fin N) (b : Nat) : Prog (LogState N) Unit := do
  let s ← get
  panicIf (LOGSIZE ≤ s.lh.length ∨ s.size-1 ≤ s.lh.length) "too big a transaction"
  panicIf (s.outstanding < 1) "log_write outside of trans"
  match s.pc p with
  | .inOp op used => set (s.move p (.logging op used b))
  | _ => pure ()

/-- The rest of `log_write`. A store behind the array `block` is undefined in C,
and the model stops there. -/
def logAppend (p : Fin N) : Prog (LogState N) Unit := do
  let s ← get
  match s.pc p with
  | .logging op used b =>
    panicIf (LOGSIZE ≤ s.lh.idxOf b) "log_write: block out of bounds"
    set { s.move p (.inOp op (used.insert b)) with
      lh := if b ∈ s.lh then s.lh else s.lh ++ [b]
      logged := (op, b, s.commits.length) :: s.logged }
  | _ => pure ()

/-- `end_op` up to the call of `commit`. -/
def logEnd (p : Fin N) : Prog (LogState N) Unit := do
  modify fun s => { s with outstanding := s.outstanding-1 }
  let s ← get
  panicIf s.committing "log.committing"
  if s.outstanding = 0 then
    set { s.move p (.commit .start) with committing := true }
  else
    set (s.wakeup.move p .idle)

/-- One step of `commit`, and of `end_op` after it. -/
def logCommit (p : Fin N) : Prog (LogState N) Unit := do
  let s ← get
  match s.pc p with
  | .commit .start =>
    set (s.move p (.commit (if 0 < s.lh.length then .write_log 0 else .finish)))
  | .commit (.write_log i) =>
    set (s.move p (.commit (if i < s.lh.length then .write_log (i+1) else .write_head)))
  | .commit .write_head => set (s.move p (.commit (.install_trans 0)))
  | .commit (.install_trans i) =>
    match s.lh[i]? with
    | some b =>
      set { s.move p (.commit (.install_trans (i+1))) with installed := s.installed ++ [b] }
    | none => set (s.move p (.commit .clear))
  | .commit .clear => set { s.move p (.commit .erase_head) with lh := [] }
  | .commit .erase_head => set (s.move p (.commit .finish))
  | .commit .finish =>
    set { s.wakeup.move p .idle with
      committing := false
      installed := []
      commits := s.commits ++ [s.installed] }
  | _ => pure ()

/-- `n` steps of the process that commits. -/
def commitSteps (p : Fin N) : Nat → Prog (LogState N) Unit
  | 0 => pure ()
  | n+1 => do
    logCommit p
    commitSteps p n

/-- `may` says which sets of blocks an operation may log. -/
def LogOp.enabled (may : List Nat → Prop) (s : LogState N) : LogOp N → Prop
  | .begin_op p => s.pc p = .idle
  | .test p => s.pc p = .starting
  | .wake p => s.pc p = .asleep
  | .check p b => ∃ op used, s.pc p = .inOp op used ∧ may (used.insert b)
  | .append p => ∃ op used b, s.pc p = .logging op used b
  | .end_op p => ∃ op used, s.pc p = .inOp op used
  | .commit p => ∃ c, s.pc p = .commit c

def LogOp.run : LogOp N → Prog (LogState N) Unit
  | .begin_op p => modify fun s => s.move p .starting
  | .test p => logTest p
  | .wake p => modify fun s => s.move p .starting
  | .check p b => logCheck p b
  | .append p => logAppend p
  | .end_op p => logEnd p
  | .commit p => logCommit p

/-- The states of the log from boot on. -/
inductive LogReachable (N size : Nat) (may : List Nat → Prop) : LogState N → Prop
  | init : LogReachable N size may (LogState.init N size)
  | step {s s' : LogState N} {op : LogOp N} : LogReachable N size may s → op.enabled may s →
      op.run s = .ok ((), s') → LogReachable N size may s'

/-- All that a step can do, with the tests that it has passed. -/
inductive LogStep (may : List Nat → Prop) (s : LogState N) : LogState N → Prop
  | start {p : Fin N} : s.pc p = .idle ∨ s.pc p = .asleep → LogStep may s (s.move p .starting)
  | sleep {p : Fin N} : s.pc p = .starting → (s.committing = true ∨
      LOGSIZE < (s.lh.length : Int) + (s.outstanding+1)*MAXOPBLOCKS) →
      LogStep may s (s.move p .asleep)
  | enter {p : Fin N} : s.pc p = .starting → s.committing = false →
      (s.lh.length : Int) + (s.outstanding+1)*MAXOPBLOCKS ≤ LOGSIZE →
      LogStep may s { s.move p (.inOp s.nextop []) with
        outstanding := s.outstanding+1
        nextop := s.nextop+1 }
  | check {p : Fin N} {op b : Nat} {used : List Nat} : s.pc p = .inOp op used →
      may (used.insert b) → LogStep may s (s.move p (.logging op used b))
  | append {p : Fin N} {op b : Nat} {used : List Nat} : s.pc p = .logging op used b →
      LogStep may s { s.move p (.inOp op (used.insert b)) with
        lh := if b ∈ s.lh then s.lh else s.lh ++ [b]
        logged := (op, b, s.commits.length) :: s.logged }
  | leave {p : Fin N} {op : Nat} {used : List Nat} : s.pc p = .inOp op used →
      s.committing = false → s.outstanding-1 ≠ 0 →
      LogStep may s { s.wakeup.move p .idle with outstanding := s.outstanding-1 }
  | last {p : Fin N} {op : Nat} {used : List Nat} : s.pc p = .inOp op used →
      s.committing = false → s.outstanding-1 = 0 →
      LogStep may s { s.move p (.commit .start) with
        outstanding := s.outstanding-1
        committing := true }
  | empty {p : Fin N} : s.pc p = .commit .start → s.lh = [] →
      LogStep may s (s.move p (.commit .finish))
  | write {p : Fin N} {c c' : CommitPc} : s.pc p = .commit c → c' = .install_trans 0 ∨
      (∃ i, c' = .write_log i) ∨ c' = .write_head → c ≠ .finish → c ≠ .erase_head → c ≠ .clear →
      (∀ i, c ≠ .install_trans i) → LogStep may s (s.move p (.commit c'))
  | install {p : Fin N} {i b : Nat} : s.pc p = .commit (.install_trans i) → s.lh[i]? = some b →
      LogStep may s { s.move p (.commit (.install_trans (i+1))) with
        installed := s.installed ++ [b] }
  | installed {p : Fin N} {i : Nat} : s.pc p = .commit (.install_trans i) → s.lh[i]? = none →
      LogStep may s (s.move p (.commit .clear))
  | clear {p : Fin N} : s.pc p = .commit .clear →
      LogStep may s { s.move p (.commit .erase_head) with lh := [] }
  | erase {p : Fin N} : s.pc p = .commit .erase_head → LogStep may s (s.move p (.commit .finish))
  | finish {p : Fin N} : s.pc p = .commit .finish →
      LogStep may s { s.wakeup.move p .idle with
        committing := false
        installed := []
        commits := s.commits ++ [s.installed] }

section Inversion
variable (may : List Nat → Prop) {s : LogState N}

theorem logTest_step {p : Fin N} (hp : s.pc p = .starting) :
    Runs (logTest p) s fun _ s' => LogStep may s s' := by
  unfold logTest
  rw [runs_bind, runs_get, runs_ite]
  constructor
  · intro hc
    exact runs_set.mpr (LogStep.sleep hp (Or.inl hc))
  · intro hc
    rw [runs_ite]
    constructor
    · intro hfull
      exact runs_set.mpr (LogStep.sleep hp (Or.inr hfull))
    · intro hroom
      exact runs_set.mpr (LogStep.enter hp (Bool.eq_false_iff.mpr hc) (not_lt.mp hroom))

theorem logEnd_step {p : Fin N} {op : Nat} {used : List Nat} (hp : s.pc p = .inOp op used)
    (hc : s.committing = false) : Runs (logEnd p) s fun _ s' => LogStep may s s' := by
  unfold logEnd
  rw [runs_bind, runs_modify, runs_bind, runs_get, runs_bind, runs_panicIf, runs_ite]
  refine ⟨by simp [hc], ?_, ?_⟩
  · intro h0
    exact runs_set.mpr (LogStep.last hp hc h0)
  · intro h0
    exact runs_set.mpr (LogStep.leave hp hc h0)

theorem logCommit_step {p : Fin N} {c : CommitPc} (hp : s.pc p = .commit c) :
    Runs (logCommit p) s fun _ s' => LogStep may s s' := by
  unfold logCommit
  rw [runs_bind, runs_get, hp]
  cases c with
  | start =>
    by_cases hn : 0 < s.lh.length
    · rw [if_pos hn]
      exact runs_set.mpr (LogStep.write hp (Or.inr (Or.inl ⟨0, rfl⟩)) (by simp) (by simp)
        (by simp) (by simp))
    · rw [if_neg hn]
      exact runs_set.mpr (LogStep.empty hp (List.length_eq_zero_iff.mp (by omega)))
  | write_log i =>
    apply runs_set.mpr
    apply LogStep.write hp ?_ (by simp) (by simp) (by simp) (by simp)
    by_cases hi : i < s.lh.length
    · rw [if_pos hi]
      exact Or.inr (Or.inl ⟨i+1, rfl⟩)
    · rw [if_neg hi]
      exact Or.inr (Or.inr rfl)
  | write_head =>
    exact runs_set.mpr (LogStep.write hp (Or.inl rfl) (by simp) (by simp) (by simp) (by simp))
  | install_trans i =>
    cases hb : s.lh[i]? with
    | none =>
      simp only [hb]
      exact runs_set.mpr (LogStep.installed hp hb)
    | some b =>
      simp only [hb]
      exact runs_set.mpr (LogStep.install hp hb)
  | clear => exact runs_set.mpr (LogStep.clear hp)
  | erase_head => exact runs_set.mpr (LogStep.erase hp)
  | finish => exact runs_set.mpr (LogStep.finish hp)

theorem LogOp.run_ends {may : List Nat → Prop} {op : LogOp N} (he : op.enabled may s) :
    Ends op.run s fun _ s' => LogStep may s s' := by
  cases op with
  | begin_op p => exact (runs_modify.mpr (LogStep.start (Or.inl he))).ends
  | test p => exact (logTest_step may he).ends
  | wake p => exact (runs_modify.mpr (LogStep.start (Or.inr he))).ends
  | check p b =>
    obtain ⟨o, used, hp, hmay⟩ := he
    intro _ s' hrun
    have hruns : Runs (logCheck p b) s fun _ t => t = s' := ⟨_, s', hrun, rfl⟩
    unfold logCheck at hruns
    simp only [runs_bind, runs_get, runs_panicIf, hp, runs_set] at hruns
    rw [← hruns.2.2]
    exact LogStep.check hp hmay
  | append p =>
    obtain ⟨o, used, b, hp⟩ := he
    intro _ s' hrun
    have hruns : Runs (logAppend p) s fun _ t => t = s' := ⟨_, s', hrun, rfl⟩
    unfold logAppend at hruns
    simp only [runs_bind, runs_get, runs_panicIf, hp, runs_set] at hruns
    rw [← hruns.2]
    exact LogStep.append hp
  | end_op p =>
    obtain ⟨o, used, hp⟩ := he
    by_cases hc : s.committing = true
    · have hpanic : logEnd p s = .error "log.committing" := by
        unfold logEnd
        change (do panicIf _ _; _ : Prog (LogState N) Unit) _ = _
        exact panics_bind (panicIf_panics hc)
      exact ends_of_panic hpanic
    · exact (logEnd_step may hp (Bool.eq_false_iff.mpr hc)).ends
  | commit p =>
    obtain ⟨c, hp⟩ := he
    exact (logCommit_step may hp).ends

end Inversion

section Exec

instance (may : List Nat → Prop) [DecidablePred may] (s : LogState N) (op : LogOp N) :
    Decidable (op.enabled may s) :=
  match op with
  | .begin_op p => inferInstanceAs (Decidable (s.pc p = .idle))
  | .test p => inferInstanceAs (Decidable (s.pc p = .starting))
  | .wake p => inferInstanceAs (Decidable (s.pc p = .asleep))
  | .check p b => match hp : s.pc p with
    | .inOp _ used => decidable_of_iff (may (used.insert b)) (by simp [LogOp.enabled, hp])
    | .idle | .starting | .asleep | .logging _ _ _ | .commit _ =>
      isFalse (by simp [LogOp.enabled, hp])
  | .append p => match hp : s.pc p with
    | .logging op used b => isTrue ⟨op, used, b, hp⟩
    | .idle | .starting | .asleep | .inOp _ _ | .commit _ => isFalse (by simp [LogOp.enabled, hp])
  | .end_op p => match hp : s.pc p with
    | .inOp op used => isTrue ⟨op, used, hp⟩
    | .idle | .starting | .asleep | .logging _ _ _ | .commit _ =>
      isFalse (by simp [LogOp.enabled, hp])
  | .commit p => match hp : s.pc p with
    | .commit c => isTrue ⟨c, hp⟩
    | .idle | .starting | .asleep | .logging _ _ _ | .inOp _ _ =>
      isFalse (by simp [LogOp.enabled, hp])

theorem LogReachable.exec {size : Nat} {may : List Nat → Prop} [DecidablePred may]
    {ops : List (LogOp N)} {s s' : LogState N} (h : LogReachable N size may s)
    (he : runSteps (LogOp.enabled may) LogOp.run ops s = some s') : LogReachable N size may s' :=
  runSteps_keeps _ _ (fun _ _ _ => LogReachable.step) ops h he

end Exec

end Xv6
