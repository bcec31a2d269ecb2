import Xv6.ExitWait

/-! `kill` and slots that no process has. `freeproc` clears the pid and the flag of a slot,
but `allocproc` without a trapframe page leaves the new pid behind, and `kill` compares
pids without a look at the state. -/
namespace Xv6.Sched

open Function

variable {κ : Type} {n : Nat} {s s' : State κ} {q : Nat} {x : Slot}

/-- Steps that keep clear of both: every `fork` gets its trapframe page, and nobody calls
`kill(0)`. -/
def Op.Careful : Op κ → Prop
  | .fork _ _ .trapframe => False
  | .kill pid _ => pid ≠ 0
  | _ => True

def Slot.Clean (x : Slot) : Prop := x.state = .UNUSED → x.pid = 0 ∧ x.killed = false

theorem Clean.slot (h : ∀ r, (s.proc r).Clean) (hproc : s'.proc = update s.proc q x)
    (hx : x.Clean) (r : Nat) : (s'.proc r).Clean := by
  rw [hproc]
  by_cases hr : r = q
  · rw [hr, update_self]
    exact hx
  · rw [update_of_ne hr]
    exact h r

theorem Woken.clean {o : Op κ} {y : Slot} (hxy : Woken o x y) (ho : o.Careful) (h : x.Clean) :
    y.Clean := by
  intro hu
  obtain ⟨hpid, hkilled⟩ := h (hxy.same.unused.mp hu)
  refine ⟨hxy.pid.trans hpid, ?_⟩
  rcases hxy.killed with hk | ⟨q, rfl⟩
  · exact hk.trans hkilled
  · exact absurd hpid ho

variable [DecidableEq κ]

theorem Clean.effect (h : ∀ r, (s.proc r).Clean) {o : Op κ} (he : Effect n o s s') (ho : o.Careful) :
    ∀ r, (s'.proc r).Clean := by
  -- A slot whose process can run is clean, whatever else is stored there.
  have hlive {y : Slot} (hy : y.state ≠ .UNUSED) : y.Clean := fun hu => absurd hu hy
  cases he with
  | walk | leave => exact h
  | @woken q x hx => exact Clean.slot h rfl (hx.clean ho (h q))
  | @init p i status hw => exact Clean.slot (q := i) h rfl ((wakeup_woken hw _).clean ho (h i))
  | start _ hs => exact Clean.slot h hs.proc (hlive (by rw [hs.state]; exact nofun))
  | @yield p | @sleep p | @waitSleep p => exact Clean.slot (q := p) h rfl (hlive nofun)
  | @unused p np a x hf hold hx hpar hclean =>
    refine Clean.slot h (allocpid_proc_update s np x) fun _ => ?_
    rcases hclean with rfl | hclean
    · rw [hf] at ho
      exact ho.elim
    · exact hclean
  | fork | userinit => exact Clean.slot h (allocpid_proc_update ..) (hlive nofun)
  | @reap p i _ _ _ _ hz =>
    unfold State.waitLock
    rw [if_pos hz]
    exact Clean.slot (q := i) (x := (s.proc i).freeproc) h rfl fun _ => ⟨rfl, rfl⟩
  | @zombie p op i status hop _ _ hi =>
    have hw : Woken o (s.proc op) ((s.proc op).wakeup (.proc op)) :=
      wakeup_woken (by rw [hop]; trivial) _
    have h1 : ∀ r, ((s.wakeup1 op).proc r).Clean := Clean.slot h rfl (hw.clean ho (h op))
    unfold State.reparent
    rw [if_neg hi]
    exact Clean.slot (s := s.wakeup1 op) (q := p) h1 rfl (hlive nofun)
  | @adopt p op i =>
    exact Clean.slot (q := i) (x := { s.proc i with parent := s.initproc }) h rfl (h i)

abbrev CarefulReachable (n : Nat) : State κ → Prop :=
  Reaches State.Fresh (fun s o => Op.enabled n s o ∧ o.Careful) fun o => modify fun s => o.step n s

theorem careful_clean (hr : CarefulReachable n s) : ∀ r, (s.proc r).Clean := by
  apply Reaches.invariant (I := fun s => ∀ r, (s.proc r).Clean) ?_ ?_ hr
  · intro s hs r
    rw [hs.1]
    exact fun _ => ⟨rfl, rfl⟩
  · intro s o h ⟨he, ho⟩
    exact (runs_modify.mpr (Clean.effect h (step_effect he) ho)).ends

/-- In careful runs `kill` hits processes only, and a new process is not killed. -/
theorem kill_hits_processes (hr : CarefulReachable n s) :
    (∀ r, (s.proc r).state = .UNUSED → (s.proc r).pid = 0 ∧ (s.proc r).killed = false) ∧
    (∀ pid q, pid ≠ 0 → (s.proc q).pid = pid → (s.proc q).state ≠ .UNUSED) ∧
    ∀ p np, (Op.fork p np .ok : Op κ).enabled n s →
      (((Op.fork p np .ok).step n s).proc np).state = .RUNNABLE ∧
      (((Op.fork p np .ok).step n s).proc np).killed = false := by
  have h := careful_clean hr
  refine ⟨h, ?_, ?_⟩
  · intro pid q hpid heq hu
    rw [(h q hu).1] at heq
    exact hpid heq.symm
  · intro p np ⟨_, _, _, _, hold⟩
    have hslot : ((Op.fork p np .ok).step n s).proc np =
        { (s.allocpid np).proc np with parent := some p, state := .RUNNABLE } :=
      update_self ..
    rw [hslot, allocpid_slot]
    exact ⟨rfl, (h np hold).2⟩

omit [DecidableEq κ] in
theorem kill_hits_processes_init : ∃ s : State Unit, CarefulReachable 2 s ∧
    (Op.fork 0 1 .ok : Op Unit).enabled 2 s ∧
    (((Op.fork 0 1 .ok).step 2 s).proc 1).killed = false := by
  have h0 : CarefulReachable 2 (bootTable Unit) :=
    Reaches.init ⟨rfl, rfl, rfl, rfl, rfl, rfl, rfl, rfl, rfl⟩
  have h1 := h0.step (o := Op.userinit 0) ⟨⟨rfl, by decide, rfl, rfl⟩, trivial⟩ rfl
  have h2 := h1.step (o := Op.dispatch () 0) ⟨⟨rfl, by decide, rfl, rfl⟩, trivial⟩ rfl
  refine ⟨_, h2, ⟨⟨(), rfl⟩, rfl, by decide, rfl, rfl⟩, ?_⟩
  exact ((kill_hits_processes h2).2.2 0 1 ⟨⟨(), rfl⟩, rfl, by decide, rfl, rfl⟩).2

omit [DecidableEq κ] in
/-- A `fork` without memory for the trapframe leaves pid 2 in an unused slot, `kill(2)`
finds it there, and the next process in the slot is killed from the start. -/
theorem stale_pid_killed : ∃ s s' s'' : State Unit, Reachable 2 s ∧ Reachable 2 s' ∧ Reachable 2 s'' ∧
    (s.proc 1).state = .UNUSED ∧ (s.proc 1).pid = 2 ∧
    s' = (Op.kill 2 1).step 2 s ∧ (s'.proc 1).state = .UNUSED ∧ (s'.proc 1).killed = true ∧
    s'' = (Op.fork 0 1 .ok).step 2 s' ∧ (s''.proc 1).state = .RUNNABLE ∧
    (s''.proc 1).killed = true := by
  have h0 : Reachable 2 (bootTable Unit) := bootTable_reachable 2
  have h1 := h0.step (o := Op.userinit 0) ⟨rfl, by decide, rfl, rfl⟩ rfl
  have h2 := h1.step (o := Op.dispatch () 0) ⟨rfl, by decide, rfl, rfl⟩ rfl
  have h3 := h2.step (o := Op.fork 0 1 .trapframe) ⟨⟨(), rfl⟩, rfl, by decide, rfl, rfl⟩ rfl
  have h4 := h3.step (o := Op.kill 2 1) ⟨by decide, rfl⟩ rfl
  have h5 := h4.step (o := Op.fork 0 1 .ok) ⟨⟨(), rfl⟩, rfl, by decide, rfl, rfl⟩ rfl
  exact ⟨_, _, _, h3, h4, h5, rfl, rfl, rfl, rfl, rfl, rfl, rfl, rfl⟩

end Xv6.Sched
