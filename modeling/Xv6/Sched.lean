import Xv6.Proc
import Xv6.Interleave

/-! The process table of `kernel/proc.c` with any number of CPUs and slots. A step is what
one thread does between two acquisitions of a `p->lock`. A `swtch` hands the lock over and
is part of the step. `wait` and `reparent` look at `np->parent` without a lock, so each
such look is a step of its own. The rounds of the loops of `allocproc`, `wakeup` and `kill`
hold one lock each and may come in any order. -/
namespace Xv6.Sched

open Function

inductive Chan
  | proc (p : Nat)
  | other (x : Nat)
  deriving DecidableEq

structure Slot where
  state : ProcState
  parent : Option Nat
  chan : Option Chan
  killed : Bool
  xstate : Int
  pid : Int

/-- Where the thread of a process stands: `run` outside the functions here, `sleep` in a
`sleep` of other code. A `waitScan` has `p->lock`, a `waitLock` is about to lock the child
`i`. The steps of `exit` carry its argument and `original_parent`. -/
inductive Pc
  | run
  | sleep
  | waitScan (i : Nat) (havekids : Bool)
  | waitLock (i : Nat)
  | waitSleep
  | exitInit (status : Int)
  | exitParent (status : Int)
  | exitLock (status : Int) (op : Nat)
  | exitSelf (status : Int) (op : Nat)
  | reparent (status : Int) (op i : Nat)
  | reparentLock (status : Int) (op i : Nat)
  | exitSched
  | dead
  deriving DecidableEq

/-- An exit status on its way: which process by the number of its creation, and what its
parent gets to see. -/
structure Exit where
  serial : Nat
  pid : Int
  xstate : Int
  deriving DecidableEq

/-- `lock p` is the process that holds `p->lock`, between its steps. A record counts the
calls of `allocpid`, and keeps the number of the one for each slot, the processes that
have exited, and the results of `wait`. -/
structure State (κ : Type) where
  proc : Nat → Slot
  pc : Nat → Pc
  lock : Nat → Option Nat
  cpu : κ → Option Nat
  initproc : Option Nat
  nextpid : BitVec 32
  created : Nat
  born : Nat → Nat
  exited : List Exit
  reaped : List Exit

variable {κ : Type}

def Slot.zero : Slot := ⟨.UNUSED, none, none, false, 0, 0⟩

def State.Fresh (s : State κ) : Prop :=
  s.proc = (fun _ => Slot.zero) ∧ s.pc = (fun _ => .run) ∧ s.lock = (fun _ => none) ∧
    s.cpu = (fun _ => none) ∧ s.initproc = none ∧ s.nextpid = 1 ∧ s.created = 0 ∧
    s.exited = [] ∧ s.reaped = []

def State.setSlot (s : State κ) (p : Nat) (x : Slot) : State κ :=
  { s with proc := update s.proc p x }

def State.goto (s : State κ) (p : Nat) (x : Pc) : State κ :=
  { s with pc := update s.pc p x }

def State.acquire (s : State κ) (q p : Nat) : State κ :=
  { s with lock := update s.lock q (some p) }

def State.release (s : State κ) (q : Nat) : State κ :=
  { s with lock := update s.lock q none }

/-- The scheduler that `p` came from goes on: `c->proc = 0`. -/
def State.offCpu (s : State κ) (p : Nat) : State κ :=
  { s with cpu := fun c => if s.cpu c = some p then none else s.cpu c }

def State.onCpu (s : State κ) (p : Nat) : Prop := ∃ c, s.cpu c = some p

/-- One round of `wakeup`, and `wakeup1` with the process as channel. -/
def Slot.wakeup (x : Slot) (chan : Chan) : Slot :=
  if x.state = .SLEEPING ∧ x.chan = some chan then { x with state := .RUNNABLE } else x

def State.wakeup1 (s : State κ) (p : Nat) : State κ := s.setSlot p ((s.proc p).wakeup (.proc p))

def Slot.kill (x : Slot) (pid : Int) : Slot :=
  if x.pid = pid then
    { x with killed := true, state := if x.state = .SLEEPING then .RUNNABLE else x.state }
  else x

def Slot.freeproc (x : Slot) : Slot :=
  { x with state := .UNUSED, parent := none, chan := none, killed := false, xstate := 0, pid := 0 }

def State.allocpid (s : State κ) (np : Nat) : State κ :=
  { s with
    proc := update s.proc np { s.proc np with pid := s.nextpid.toInt }
    nextpid := s.nextpid + 1
    created := s.created + 1
    born := update s.born np (s.created + 1) }

/-- How the allocations of a `fork` end: no trapframe page, no page table, no memory in
`uvmcopy`, or all well. -/
inductive Alloc
  | trapframe
  | pagetable
  | uvmcopy
  | ok

/-- `fork` from the slot that `allocproc` has found. -/
def State.fork (s : State κ) (p np : Nat) (a : Alloc) : State κ :=
  let s := s.allocpid np
  match a with
  | .trapframe => s
  | .pagetable | .uvmcopy => s.setSlot np (s.proc np).freeproc
  | .ok => (s.setSlot np { s.proc np with parent := some p, state := .RUNNABLE }).goto np .run

def State.userinit (s : State κ) (np : Nat) : State κ :=
  let s := s.allocpid np
  { (s.setSlot np { s.proc np with state := .RUNNABLE }).goto np .run with initproc := some np }

section Steps
variable [DecidableEq κ]

/-- The scheduler of `c` switches to `p`. Who slept goes on in `sleep`; `wait` then still
has `p->lock`, and everybody else releases it. -/
def State.dispatch (s : State κ) (c : κ) (p : Nat) : State κ :=
  let x := { s.proc p with state := .RUNNING }
  let s := { s with cpu := update s.cpu c (some p) }
  match s.pc p with
  | .sleep => (s.setSlot p { x with chan := none }).goto p .run
  | .waitSleep => ((s.setSlot p { x with chan := none }).goto p (.waitScan 0 false)).acquire p p
  | _ => s.setSlot p x

end Steps

def State.yield (s : State κ) (p : Nat) : State κ :=
  (s.setSlot p { s.proc p with state := .RUNNABLE }).offCpu p

def State.sleep (s : State κ) (p : Nat) (chan : Chan) (pc : Pc) : State κ :=
  ((s.setSlot p { s.proc p with chan := some chan, state := .SLEEPING }).goto p pc).offCpu p

/-- The loop of `wait` at slot `i`, and behind the last slot. -/
def State.waitScan (s : State κ) (n p i : Nat) (havekids : Bool) : State κ :=
  if i < n then
    if (s.proc i).parent = some p then s.goto p (.waitLock i) else s.goto p (.waitScan (i+1) havekids)
  else if havekids = false ∨ (s.proc p).killed = true then (s.goto p .run).release p
  else (s.sleep p (.proc p) .waitSleep).release p

/-- `wait` with the lock of the child `i`; `copied` is how `copyout` ends. -/
def State.waitLock (s : State κ) (p i : Nat) (copied : Bool) : State κ :=
  if (s.proc i).state = .ZOMBIE then
    if copied then
      { ((s.setSlot i (s.proc i).freeproc).goto p .run).release p with
        reaped := s.reaped ++ [⟨s.born i, (s.proc i).pid, (s.proc i).xstate⟩] }
    else (s.goto p .run).release p
  else s.goto p (.waitScan (i+1) true)

/-- The loop of `reparent` at slot `i`, and the rest of `exit` up to `sched`. -/
def State.reparent (s : State κ) (n p : Nat) (status : Int) (op i : Nat) : State κ :=
  if i < n then
    if (s.proc i).parent = some p then s.goto p (.reparentLock status op i)
    else s.goto p (.reparent status op (i+1))
  else
    let s := s.wakeup1 op
    let x := { s.proc p with xstate := status, state := .ZOMBIE }
    { ((s.setSlot p x).release op).goto p .exitSched with
      exited := s.exited ++ [⟨s.born p, x.pid, status⟩] }

inductive Op (κ : Type)
  | userinit (np : Nat)
  | dispatch (c : κ) (p : Nat)
  | yield (p : Nat)
  | sleep (p x : Nat)
  | wakeup (chan : Chan) (q : Nat)
  | kill (pid : Int) (q : Nat)
  | fork (p np : Nat) (a : Alloc)
  | wait (p : Nat)
  | waitScan (p : Nat)
  | waitLock (p : Nat) (copied : Bool)
  | exit (p : Nat) (status : Int)
  | exitInit (p : Nat)
  | exitParent (p : Nat)
  | exitLock (p : Nat)
  | exitSelf (p : Nat)
  | reparent (p : Nat)
  | reparentLock (p : Nat)
  | exitSched (p : Nat)

/-- The steps with `wakeup`, `wakeup1` or `kill`. -/
def Op.wakes : Op κ → Prop
  | .wakeup _ _ | .kill _ _ | .exitInit _ | .reparent _ => True
  | _ => False

/-- Where a thread has no `p->lock`, so that a timer interrupt can make it yield. -/
def Pc.unlocked : Pc → Prop
  | .run | .exitInit _ | .exitParent _ | .exitLock _ _ => True
  | _ => False

/-- `exit` of the first process panics and is no step. -/
def Op.enabled (n : Nat) (s : State κ) : Op κ → Prop
  | .userinit np => s.initproc = none ∧ np < n ∧ s.lock np = none ∧ (s.proc np).state = .UNUSED
  | .dispatch c p => s.cpu c = none ∧ p < n ∧ s.lock p = none ∧ (s.proc p).state = .RUNNABLE
  | .yield p => s.onCpu p ∧ s.lock p = none ∧ (s.pc p).unlocked
  | .sleep p _ => s.onCpu p ∧ s.lock p = none ∧ s.pc p = .run
  | .wakeup _ q | .kill _ q => q < n ∧ s.lock q = none
  | .fork p np _ => s.onCpu p ∧ s.pc p = .run ∧ np < n ∧ s.lock np = none ∧
      (s.proc np).state = .UNUSED
  | .wait p => s.onCpu p ∧ s.pc p = .run ∧ s.lock p = none
  | .waitScan p => s.onCpu p ∧ ∃ i havekids, s.pc p = .waitScan i havekids
  | .waitLock p _ => s.onCpu p ∧ ∃ i, s.pc p = .waitLock i ∧ s.lock i = none
  | .exit p _ => s.onCpu p ∧ s.pc p = .run ∧ s.initproc ≠ some p
  | .exitInit p => s.onCpu p ∧ ∃ status i, s.pc p = .exitInit status ∧ s.initproc = some i ∧
      s.lock i = none
  | .exitParent p => s.onCpu p ∧ ∃ status op, s.pc p = .exitParent status ∧ s.lock p = none ∧
      (s.proc p).parent = some op
  | .exitLock p => s.onCpu p ∧ ∃ status op, s.pc p = .exitLock status op ∧ s.lock op = none
  | .exitSelf p => s.onCpu p ∧ ∃ status op, s.pc p = .exitSelf status op ∧ s.lock p = none
  | .reparent p => s.onCpu p ∧ ∃ status op i, s.pc p = .reparent status op i
  | .reparentLock p => s.onCpu p ∧ ∃ status op i, s.pc p = .reparentLock status op i ∧
      s.lock i = none
  | .exitSched p => s.onCpu p ∧ s.pc p = .exitSched

variable [DecidableEq κ]

def Op.step (n : Nat) (s : State κ) : Op κ → State κ
  | .userinit np => s.userinit np
  | .dispatch c p => s.dispatch c p
  | .yield p => s.yield p
  | .sleep p x => s.sleep p (.other x) .sleep
  | .wakeup chan q => s.setSlot q ((s.proc q).wakeup chan)
  | .kill pid q => s.setSlot q ((s.proc q).kill pid)
  | .fork p np a => s.fork p np a
  | .wait p => (s.goto p (.waitScan 0 false)).acquire p p
  | .waitScan p =>
    match s.pc p with
    | .waitScan i havekids => s.waitScan n p i havekids
    | _ => s
  | .waitLock p copied =>
    match s.pc p with
    | .waitLock i => s.waitLock p i copied
    | _ => s
  | .exit p status => s.goto p (.exitInit status)
  | .exitInit p =>
    match s.pc p, s.initproc with
    | .exitInit status, some i => (s.wakeup1 i).goto p (.exitParent status)
    | _, _ => s
  | .exitParent p =>
    match s.pc p, (s.proc p).parent with
    | .exitParent status, some op => s.goto p (.exitLock status op)
    | _, _ => s
  | .exitLock p =>
    match s.pc p with
    | .exitLock status op => (s.acquire op p).goto p (.exitSelf status op)
    | _ => s
  | .exitSelf p =>
    match s.pc p with
    | .exitSelf status op => (s.acquire p p).goto p (.reparent status op 0)
    | _ => s
  | .reparent p =>
    match s.pc p with
    | .reparent status op i => s.reparent n p status op i
    | _ => s
  | .reparentLock p =>
    match s.pc p with
    | .reparentLock status op i =>
      (s.setSlot i { s.proc i with parent := s.initproc }).goto p (.reparent status op (i+1))
    | _ => s
  | .exitSched p => ((s.goto p .dead).offCpu p).release p

abbrev Reachable (n : Nat) : State κ → Prop :=
  Reaches State.Fresh (Op.enabled n) fun op => modify fun s => op.step n s

/-! `kill` and `wait` of `Xv6.Proc` run as a whole. They are runs of the steps here in which no
one else takes a step. -/

/-- The two process tables agree. The kernel of `Xv6.Proc` has no channels. -/
def Shows (k : Kernel) (s : State κ) : Prop :=
  ∀ q, (s.proc q).state = (k.proc q).state ∧ (s.proc q).parent = (k.proc q).parent ∧
    (s.proc q).killed = (k.proc q).killed ∧ (s.proc q).xstate = (k.proc q).xstate ∧
    (s.proc q).pid = (k.proc q).pid

section Whole
variable {k k' : Kernel} {s s' : State κ} {p q : Nat}

omit [DecidableEq κ] in
theorem Shows.setSlot (h : Shows k s) {x : Slot} {y : Proc} (hproc : k'.proc = update k.proc q y)
    (hs : s'.proc = update s.proc q x) (hx : x.state = y.state ∧ x.parent = y.parent ∧
      x.killed = y.killed ∧ x.xstate = y.xstate ∧ x.pid = y.pid) : Shows k' s' := by
  intro r
  rw [hproc, hs]
  by_cases hr : r = q
  · rw [hr, update_self, update_self]
    exact hx
  · rw [update_of_ne hr, update_of_ne hr]
    exact h r

/-- `kill` is one round at the first slot with the pid; the rounds before it do nothing. -/
theorem kill_rounds (h : Shows k s) {pid n : Nat} : Runs (Xv6.kill pid) k fun r k' =>
    (r = -1 ∧ k' = k ∧ ∀ q ∈ procs, (Op.kill pid q).step n s = s) ∨
      (r = 0 ∧ ∃ l q l', procs = l ++ q :: l' ∧ (∀ j ∈ l, (Op.kill pid j).step n s = s) ∧
        Shows k' ((Op.kill pid q).step n s)) := by
  have hskip (j : Nat) (hj : ¬ (k.proc j).pid = pid) : (Op.kill pid j).step n s = s := by
    have hpid : ¬ (s.proc j).pid = pid := by
      rw [(h j).2.2.2.2]
      exact_mod_cast hj
    change s.setSlot j ((s.proc j).kill pid) = s
    unfold Slot.kill State.setSlot
    rw [if_neg hpid, update_eq_self]
  unfold Xv6.kill
  rw [runs_bind, runs_get]
  cases hfind : procs.find? fun p => (k.proc p).pid = pid with
  | none =>
    rw [List.find?_eq_none] at hfind
    refine (runs_pure _).mpr (Or.inl ⟨rfl, rfl, ?_⟩)
    intro q hq
    exact hskip q (by simpa using hfind q hq)
  | some q =>
    obtain ⟨hq, l, l', hprocs, hl⟩ := List.find?_eq_some_iff_append.mp hfind
    have hpid : (s.proc q).pid = pid := by
      rw [(h q).2.2.2.2]
      exact_mod_cast of_decide_eq_true hq
    unfold setProc
    simp only [runs_bind, runs_modify, runs_pure]
    refine Or.inr ⟨trivial, l, q, l', hprocs, fun j hj => hskip j (by simpa using hl j hj), ?_⟩
    refine h.setSlot rfl rfl ?_
    unfold Slot.kill
    rw [if_pos hpid]
    obtain ⟨h1, h2, _, h4, h5⟩ := h q
    dsimp only
    rw [h1]
    exact ⟨rfl, h2, rfl, h4, h5⟩

/-- What the steps of `p` in `wait` reach from `s` when nobody else takes one. -/
def WaitRun (p : Nat) (copied : Bool) (s : State κ) : State κ → Prop :=
  Reaches (fun t => t = s)
    (fun t (o : Op κ) => o.enabled NPROC t ∧ (o = .waitScan p ∨ o = .waitLock p copied))
    fun o => modify fun t => o.step NPROC t

theorem WaitRun.next {copied : Bool} {t : State κ} {o : Op κ} (h : WaitRun p copied s t)
    (he : o.enabled NPROC t) (ho : o = .waitScan p ∨ o = .waitLock p copied)
    (hs : o.step NPROC t = s') : WaitRun p copied s s' := by
  rw [← hs]
  exact h.step ⟨he, ho⟩ rfl

omit [DecidableEq κ] in
theorem goto_pc (x : Pc) : (s.goto p x).pc p = x := update_self ..

omit [DecidableEq κ] in
theorem goto_goto (x y : Pc) : (s.goto p x).goto p y = s.goto p y := by
  unfold State.goto
  dsimp only
  rw [update_idem]

/-- The scan comes to the first zombie among the children, or to the end of the table. -/
theorem wait_scan {copied : Bool} (h : Shows k s) (hon : s.onCpu p)
    (hlock : ∀ i, (s.proc i).parent = some p → s.lock i = none) (j : Nat) :
    ∀ {i havekids}, i + j = NPROC → WaitRun p copied s (s.goto p (.waitScan i havekids)) →
      ∃ x, WaitRun p copied s (s.goto p x) ∧
        match (List.range' i j).find? fun c =>
          (k.proc c).parent = some p ∧ (k.proc c).state = .ZOMBIE with
        | some c => x = .waitLock c
        | none => x = .waitScan NPROC
            (havekids || (List.range' i j).any fun c => (k.proc c).parent = some p) := by
  induction j with
  | zero =>
    intro i havekids hi hr
    cases hi
    exact ⟨_, hr, by rw [List.range'_zero, List.any_nil, Bool.or_false]; rfl⟩
  | succ j ih =>
    intro i havekids hi hr
    have hscan : (Op.waitScan p : Op κ).step NPROC (s.goto p (.waitScan i havekids)) =
        if (s.proc i).parent = some p then s.goto p (.waitLock i)
        else s.goto p (.waitScan (i+1) havekids) := by
      simp only [Op.step, goto_pc]
      unfold State.waitScan
      rw [if_pos (by omega), goto_goto, goto_goto]
      rfl
    have hgo := hr.next (o := .waitScan p) ⟨hon, i, havekids, goto_pc _⟩ (Or.inl rfl) hscan
    rw [List.range'_succ, List.find?_cons, List.any_cons, ← (h i).1, ← (h i).2.1]
    by_cases hc : (s.proc i).parent = some p
    · rw [if_pos hc] at hgo
      by_cases hz : (s.proc i).state = .ZOMBIE
      · refine ⟨_, hgo, ?_⟩
        simp [hc, hz]
      · have hnext : (Op.waitLock p copied : Op κ).step NPROC (s.goto p (.waitLock i)) =
            s.goto p (.waitScan (i+1) true) := by
          simp only [Op.step, goto_pc]
          unfold State.waitLock
          rw [if_neg (show ¬ ((s.goto p _).proc i).state = .ZOMBIE from hz), goto_goto]
        obtain ⟨x, hx, hm⟩ := ih (by omega)
          (hgo.next (o := .waitLock p copied) ⟨hon, i, goto_pc _, hlock i hc⟩ (Or.inr rfl) hnext)
        refine ⟨x, hx, ?_⟩
        simpa [hc, hz] using hm
    · rw [if_neg hc] at hgo
      obtain ⟨x, hx, hm⟩ := ih (by omega) hgo
      refine ⟨x, hx, ?_⟩
      simpa [hc] using hm

/-- Code on physical memory leaves the process table alone. -/
theorem ends_inPhys {α β : Type} {c : Prop} [Decidable c] {x : Prog Phys β} {b : β}
    {f : β → Prog Kernel α} {Q : α → Kernel → Prop}
    (h : ∀ b k', k'.proc = k.proc → Ends (f b) k' Q) :
    Ends (if c then inPhys x >>= f else f b) k Q := by
  split_ifs
  · exact ends_bind (ends_zoom fun b t _ => h b _ rfl)
  · exact h b k rfl

theorem freeproc_proc [Layout] : Ends (Xv6.freeproc q) k fun _ k' =>
    k'.proc = update k.proc q ⟨.UNUSED, none, false, 0, 0, 0, 0, 0⟩ := by
  unfold Xv6.freeproc
  apply ends_get
  refine ends_inPhys (b := ()) ?_
  intro _ k1 h1
  apply ends_bind
  refine ends_modify ?_
  refine ends_inPhys (b := ()) ?_
  intro _ k2 h2
  refine ends_modify ?_
  dsimp only at h2 ⊢
  rw [h2, h1, update_self, update_idem]

/-- A scan of `wait` is a run of the steps of `p` up to its return or to its `sleep`. -/
theorem wait_run [Layout] {addr : Nat} (h : Shows k s) (hon : s.onCpu p)
    (hpc : s.pc p = .waitScan 0 false) (hlock : ∀ i, (s.proc i).parent = some p → s.lock i = none) :
    Ends (Xv6.wait p addr) k fun r k' => ∃ copied s', WaitRun p copied s s' ∧
      (r = none ∧ s'.pc p = .waitSleep ∧
          Shows { k' with proc := update k'.proc p { k'.proc p with state := .SLEEPING } } s' ∨
        r = some (-1) ∧ s'.pc p = .run ∧ s'.reaped = s.reaped ∧ Shows k' s' ∨
        ∃ e, r = some e.pid ∧ s'.pc p = .run ∧ s'.reaped = s.reaped ++ [e] ∧ Shows k' s') := by
  have hstart (copied : Bool) : WaitRun p copied s (s.goto p (.waitScan 0 false)) := by
    refine Reaches.init ?_
    unfold State.goto
    rw [← hpc, update_eq_self]
  have hprocs : procs = List.range' 0 NPROC := by
    unfold procs
    exact List.range_eq_range'
  have hscan (copied : Bool) := wait_scan h hon hlock NPROC (Nat.zero_add _) (hstart copied)
  rw [← hprocs] at hscan
  unfold Xv6.wait
  apply ends_get
  cases hf : procs.find? fun c => (k.proc c).parent = some p ∧ (k.proc c).state = .ZOMBIE with
  | some c =>
    have hc := List.find?_some hf
    obtain ⟨hchild, hz⟩ := of_decide_eq_true hc
    rw [← (h c).1] at hz
    rw [← (h c).2.1] at hchild
    -- The child is locked; how `copyout` ends decides the last step.
    have hlast (copied : Bool) : WaitRun p copied s ((s.goto p (.waitLock c)).waitLock p c copied) := by
      obtain ⟨x, hx, hm⟩ := hscan copied
      rw [hf] at hm
      rw [hm] at hx
      refine hx.next (o := .waitLock p copied) ⟨hon, c, goto_pc _, hlock c hchild⟩ (Or.inr rfl) ?_
      simp only [Op.step, goto_pc]
    have hwait (copied : Bool) : (s.goto p (.waitLock c)).waitLock p c copied = _ := if_pos hz
    dsimp only
    refine ends_inPhys (c := addr ≠ 0) (b := (0 : Int)) ?_
    intro r k1 hk1
    split_ifs with hr
    · refine ends_pure ⟨false, _, hlast false, Or.inr (Or.inl ⟨rfl, ?_⟩)⟩
      rw [hwait false]
      refine ⟨goto_pc _, rfl, ?_⟩
      unfold Shows
      rw [hk1]
      exact h
    · apply ends_bind
      refine freeproc_proc.imp ?_
      intro _ k2 hk2
      refine ends_pure ⟨true, _, hlast true, Or.inr (Or.inr ?_)⟩
      rw [hwait true, if_pos rfl]
      refine ⟨⟨s.born c, (s.proc c).pid, (s.proc c).xstate⟩, ?_, goto_pc _, rfl, ?_⟩
      · rw [(h c).2.2.2.2]
      · exact h.setSlot (by rw [hk2, hk1]) rfl ⟨rfl, rfl, rfl, rfl, rfl⟩
  | none =>
    obtain ⟨x, hx, hm⟩ := hscan true
    rw [hf] at hm
    rw [hm] at hx
    set havekids := false || procs.any fun c => (k.proc c).parent = some p with hkids
    set t := s.goto p (.waitScan NPROC havekids)
    have hend : WaitRun p true s (t.waitScan NPROC p NPROC havekids) := by
      have hpc' : t.pc p = .waitScan NPROC havekids := goto_pc _
      refine hx.next (o := .waitScan p) ⟨hon, _, _, hpc'⟩ (Or.inl rfl) ?_
      simp only [Op.step, hpc']
    have hsame : ((procs.all fun c => (k.proc c).parent ≠ some p) ∨ (k.proc p).killed = true) ↔
        havekids = false ∨ (t.proc p).killed = true := by
      change _ ↔ _ ∨ (s.proc p).killed = true
      rw [hkids, (h p).2.2.1]
      simp
    unfold State.waitScan at hend
    rw [if_neg (Nat.lt_irrefl _)] at hend
    dsimp only
    split_ifs with hr
    · rw [hsame] at hr
      refine ends_pure ⟨true, _, hend, Or.inr (Or.inl ⟨rfl, ?_⟩)⟩
      rw [if_pos hr]
      exact ⟨goto_pc _, rfl, h⟩
    · rw [hsame] at hr
      refine ends_pure ⟨true, _, hend, Or.inl ⟨rfl, ?_⟩⟩
      rw [if_neg hr]
      refine ⟨goto_pc _, h.setSlot rfl rfl ?_⟩
      obtain ⟨_, h2, h3, h4, h5⟩ := h p
      exact ⟨rfl, h2, h3, h4, h5⟩

end Whole

end Xv6.Sched
