import Xv6.Sched

/-! What a step can do to the process table. A process runs on one CPU at most, and on one
exactly when it is `RUNNING`. -/
namespace Xv6.Sched

open Function

variable {κ : Type} {n : Nat} {s s' : State κ} {p q : Nat} {x y : Slot} {l : Pc} {o : Op κ}

section Effects

/-- What `wakeup` and `kill` do to a slot. -/
structure Woken (o : Op κ) (x y : Slot) : Prop where
  wakes : o.wakes
  parent : y.parent = x.parent
  pid : y.pid = x.pid
  xstate : y.xstate = x.xstate
  chan : y.chan = x.chan
  state : y.state = x.state ∨ x.state = .SLEEPING ∧ y.state = .RUNNABLE
  killed : y.killed = x.killed ∨ ∃ q, o = .kill x.pid q

theorem wakeup_woken (ho : o.wakes) (chan : Chan) : Woken o x (x.wakeup chan) := by
  unfold Slot.wakeup
  split_ifs with h
  · exact ⟨ho, rfl, rfl, rfl, rfl, Or.inr ⟨h.1, rfl⟩, Or.inl rfl⟩
  · exact ⟨ho, rfl, rfl, rfl, rfl, Or.inl rfl, Or.inl rfl⟩

theorem kill_woken {pid : Int} : Woken (.kill pid q : Op κ) x (x.kill pid) := by
  unfold Slot.kill
  split_ifs with h hs
  · exact ⟨trivial, rfl, rfl, rfl, rfl, Or.inr ⟨hs, rfl⟩, Or.inr ⟨q, by rw [h]⟩⟩
  · exact ⟨trivial, rfl, rfl, rfl, rfl, Or.inl rfl, Or.inr ⟨q, by rw [h]⟩⟩
  · exact ⟨trivial, rfl, rfl, rfl, rfl, Or.inl rfl, Or.inl rfl⟩

/-- A thread goes on in its code and takes or gives up a lock, and nothing else changes. -/
inductive Walk (s : State κ) (p : Nat) : Pc → Pc → (Nat → Option Nat) → Prop
  | wait : s.lock p = none → Walk s p .run (.waitScan 0 false) (update s.lock p (some p))
  | child {i : Nat} {havekids : Bool} : (s.proc i).parent = some p →
      Walk s p (.waitScan i havekids) (.waitLock i) s.lock
  | skip {i : Nat} {havekids : Bool} : (s.proc i).parent ≠ some p →
      Walk s p (.waitScan i havekids) (.waitScan (i+1) havekids) s.lock
  | back {i : Nat} {havekids : Bool} :
      Walk s p (.waitScan i havekids) .run (update s.lock p none)
  | next {i : Nat} : (s.proc i).state ≠ .ZOMBIE →
      Walk s p (.waitLock i) (.waitScan (i+1) true) s.lock
  | fail {i : Nat} : Walk s p (.waitLock i) .run (update s.lock p none)
  | exit {status : Int} : s.initproc ≠ some p → Walk s p .run (.exitInit status) s.lock
  | parent {status : Int} {op : Nat} : (s.proc p).parent = some op →
      Walk s p (.exitParent status) (.exitLock status op) s.lock
  | lock {status : Int} {op : Nat} : s.lock op = none →
      Walk s p (.exitLock status op) (.exitSelf status op) (update s.lock op (some p))
  | self {status : Int} {op : Nat} : s.lock p = none →
      Walk s p (.exitSelf status op) (.reparent status op 0) (update s.lock p (some p))
  | own {status : Int} {op i : Nat} : (s.proc i).parent = some p →
      Walk s p (.reparent status op i) (.reparentLock status op i) s.lock
  | other {status : Int} {op i : Nat} : (s.proc i).parent ≠ some p →
      Walk s p (.reparent status op i) (.reparent status op (i+1)) s.lock

/-- What a state has besides the slots, the places of the threads, the locks and the CPUs. -/
def State.books (s : State κ) : Option Nat × BitVec 32 × Nat × (Nat → Nat) × List Exit × List Exit :=
  (s.initproc, s.nextpid, s.created, s.born, s.exited, s.reaped)

variable [DecidableEq κ]

/-- Process `p` goes on at `l`, on the CPU `c`. -/
structure Started (s : State κ) (c : κ) (p : Nat) (x : Slot) (l : Pc) (s' : State κ) : Prop where
  idle : s.cpu c = none
  old : (s.proc p).state = .RUNNABLE
  cpu : s'.cpu = update s.cpu c (some p)
  proc : s'.proc = update s.proc p x
  pc : s'.pc = update s.pc p l
  books : s'.books = s.books
  state : x.state = .RUNNING
  same : x.parent = (s.proc p).parent ∧ x.pid = (s.proc p).pid ∧ x.xstate = (s.proc p).xstate
  place : (l = .run ∨ l = s.pc p ∧ l ≠ .waitSleep) ∧ s'.lock = s.lock ∨
    l = .waitScan 0 false ∧ s.lock p = none ∧ s'.lock = update s.lock p (some p)

/-- The steps again, by what they change. -/
inductive Effect (n : Nat) (o : Op κ) (s : State κ) : State κ → Prop
  | walk {p : Nat} {l : Pc} {lock : Nat → Option Nat} : s.onCpu p → Walk s p (s.pc p) l lock →
      Effect n o s { s with pc := update s.pc p l, lock := lock }
  | woken {q : Nat} {x : Slot} : Woken o (s.proc q) x → Effect n o s (s.setSlot q x)
  | init {p i : Nat} {status : Int} : o.wakes → s.onCpu p → s.pc p = .exitInit status →
      Effect n o s ((s.wakeup1 i).goto p (.exitParent status))
  | start {c : κ} {p : Nat} {x : Slot} {l : Pc} {s' : State κ} : o = .dispatch c p →
      Started s c p x l s' → Effect n o s s'
  | yield {p : Nat} : o = .yield p → s.onCpu p → (s.pc p).unlocked → Effect n o s (s.yield p)
  | sleep {p x : Nat} : s.onCpu p → s.pc p = .run → Effect n o s (s.sleep p (.other x) .sleep)
  | waitSleep {p i : Nat} {havekids : Bool} : s.onCpu p → s.pc p = .waitScan i havekids →
      ¬ i < n → Effect n o s ((s.sleep p (.proc p) .waitSleep).release p)
  | leave {p : Nat} : s.pc p = .exitSched →
      Effect n o s (((s.goto p .dead).offCpu p).release p)
  | unused {p np : Nat} {a : Alloc} {x : Slot} : o = .fork p np a →
      (s.proc np).state = .UNUSED → x.state = .UNUSED →
      (x.parent = (s.proc np).parent ∨ x.parent = none) →
      (a = .trapframe ∨ x.pid = 0 ∧ x.killed = false) →
      Effect n o s ((s.allocpid np).setSlot np x)
  | fork {p np : Nat} : o = .fork p np .ok → s.onCpu p → s.pc p = .run → np < n →
      (s.proc np).state = .UNUSED → Effect n o s (s.fork p np .ok)
  | userinit {np : Nat} : o = .userinit np → s.initproc = none → np < n →
      (s.proc np).state = .UNUSED → Effect n o s (s.userinit np)
  | reap {p i : Nat} : o = .waitLock p true → s.onCpu p → s.pc p = .waitLock i →
      s.lock i = none → (s.proc i).state = .ZOMBIE → Effect n o s (s.waitLock p i true)
  | zombie {p op i : Nat} {status : Int} : o = .reparent p → s.onCpu p →
      s.pc p = .reparent status op i → ¬ i < n → Effect n o s (s.reparent n p status op i)
  | adopt {p op i : Nat} {status : Int} : s.onCpu p → s.pc p = .reparentLock status op i →
      Effect n o s ((s.setSlot i { s.proc i with parent := s.initproc }).goto p
        (.reparent status op (i+1)))

omit [DecidableEq κ] in
theorem allocpid_slot (s : State κ) (np : Nat) :
    (s.allocpid np).proc np = { s.proc np with pid := s.nextpid.toInt } := update_self ..

omit [DecidableEq κ] in
theorem allocpid_proc_update (s : State κ) (q : Nat) (x : Slot) :
    update (s.allocpid q).proc q x = update s.proc q x :=
  update_idem ..

theorem dispatch_started {c : κ} (hc : s.cpu c = none) (hl : s.lock p = none)
    (hp : (s.proc p).state = .RUNNABLE) : ∃ x l, Started s c p x l (s.dispatch c p) := by
  unfold State.dispatch
  dsimp only
  split
  · exact ⟨_, _, hc, hp, rfl, rfl, rfl, rfl, rfl, ⟨rfl, rfl, rfl⟩, Or.inl ⟨Or.inl rfl, rfl⟩⟩
  · exact ⟨_, _, hc, hp, rfl, rfl, rfl, rfl, rfl, ⟨rfl, rfl, rfl⟩, Or.inr ⟨rfl, hl, rfl⟩⟩
  · next hw =>
    exact ⟨_, s.pc p, hc, hp, rfl, rfl, (update_eq_self ..).symm, rfl, rfl, ⟨rfl, rfl, rfl⟩,
      Or.inl ⟨Or.inr ⟨rfl, hw⟩, rfl⟩⟩

theorem step_effect (he : o.enabled n s) : Effect n o s (o.step n s) := by
  have walk {p : Nat} {l l' : Pc} {lock : Nat → Option Nat} (hon : s.onCpu p) (hpc : s.pc p = l)
      (hw : Walk s p l l' lock) : Effect n o s { s with pc := update s.pc p l', lock := lock } := by
    subst hpc
    exact .walk hon hw
  cases o with
  | userinit np => exact .userinit rfl he.1 he.2.1 he.2.2.2
  | dispatch c p =>
    obtain ⟨x, l, hs⟩ := dispatch_started he.1 he.2.2.1 he.2.2.2
    exact .start rfl hs
  | yield p => exact .yield rfl he.1 he.2.2
  | sleep p x => exact .sleep he.1 he.2.2
  | wakeup chan q => exact .woken (wakeup_woken (by trivial) chan)
  | kill pid q => exact .woken kill_woken
  | fork p np a =>
    obtain ⟨hon, hpc, hnp, _, hold⟩ := he
    have hfree : Effect n (.fork p np a) s
        ((s.allocpid np).setSlot np ((s.allocpid np).proc np).freeproc) :=
      .unused rfl hold rfl (Or.inr rfl) (Or.inr ⟨rfl, rfl⟩)
    cases a with
    | trapframe =>
      have hsame : (s.allocpid np).setSlot np ((s.allocpid np).proc np) = s.allocpid np :=
        congrArg (fun f => { s.allocpid np with proc := f }) (update_eq_self ..)
      change Effect n _ s (s.allocpid np)
      rw [← hsame, allocpid_slot]
      exact .unused rfl hold hold (Or.inl rfl) (Or.inl rfl)
    | pagetable => exact hfree
    | uvmcopy => exact hfree
    | ok => exact .fork rfl hon hpc hnp hold
  | wait p => exact walk he.1 he.2.1 (.wait he.2.2)
  | waitScan p =>
    obtain ⟨hon, i, havekids, hpc⟩ := he
    simp only [Op.step, hpc]
    unfold State.waitScan
    split_ifs with hi hpar hend
    · exact walk hon hpc (.child hpar)
    · exact walk hon hpc (.skip hpar)
    · exact walk hon hpc .back
    · exact .waitSleep hon hpc hi
  | waitLock p copied =>
    obtain ⟨hon, i, hpc, hi⟩ := he
    simp only [Op.step, hpc]
    by_cases hz : (s.proc i).state = .ZOMBIE
    · cases copied with
      | true => exact .reap rfl hon hpc hi hz
      | false =>
        unfold State.waitLock
        rw [if_pos hz]
        exact walk hon hpc .fail
    · unfold State.waitLock
      rw [if_neg hz]
      exact walk hon hpc (.next hz)
  | exit p status => exact walk he.1 he.2.1 (.exit he.2.2)
  | exitInit p =>
    obtain ⟨hon, status, i, hpc, hi, _⟩ := he
    simp only [Op.step, hpc, hi]
    exact .init trivial hon hpc
  | exitParent p =>
    obtain ⟨hon, status, op, hpc, _, hop⟩ := he
    simp only [Op.step, hpc, hop]
    exact walk hon hpc (.parent hop)
  | exitLock p =>
    obtain ⟨hon, status, op, hpc, hop⟩ := he
    simp only [Op.step, hpc]
    exact walk hon hpc (.lock hop)
  | exitSelf p =>
    obtain ⟨hon, status, op, hpc, hp⟩ := he
    simp only [Op.step, hpc]
    exact walk hon hpc (.self hp)
  | reparent p =>
    obtain ⟨hon, status, op, i, hpc⟩ := he
    simp only [Op.step, hpc]
    by_cases hi : i < n
    · unfold State.reparent
      rw [if_pos hi]
      split_ifs with hpar
      · exact walk hon hpc (.own hpar)
      · exact walk hon hpc (.other hpar)
    · exact .zombie rfl hon hpc hi
  | reparentLock p =>
    obtain ⟨hon, status, op, i, hpc, _⟩ := he
    simp only [Op.step, hpc]
    exact .adopt hon hpc
  | exitSched p => exact .leave he.2

end Effects

section Fields

theorem updated {α : Type} {f g : Nat → α} {v : α} (h : g = update f q v) :
    g q = v ∧ ∀ r, r ≠ q → g r = f r := by
  rw [h]
  exact ⟨update_self .., fun r hr => update_of_ne hr _ _⟩

theorem offCpu_cpu {c : κ} : (s.offCpu p).cpu c = some q ↔ q ≠ p ∧ s.cpu c = some q := by
  unfold State.offCpu
  dsimp only
  split_ifs with hp
  · constructor
    · exact nofun
    · intro ⟨hne, hq⟩
      rw [hp] at hq
      exact absurd (Option.some.inj hq).symm hne
  · constructor
    · intro hq
      refine ⟨?_, hq⟩
      rintro rfl
      exact hp hq
    · exact And.right

end Fields

section Locks

def Pc.locks (p : Nat) : Pc → List Nat
  | .waitScan _ _ | .waitLock _ | .exitSched => [p]
  | .exitSelf _ op => [op]
  | .reparent _ op _ | .reparentLock _ op _ => [op, p]
  | .run | .sleep | .waitSleep | .exitInit _ | .exitParent _ | .exitLock _ _ | .dead => []

def Locks (s : State κ) : Prop :=
  ∀ p, ((s.pc p).locks p).Nodup ∧ ∀ q ∈ (s.pc p).locks p, s.lock q = some p

theorem Locks.move (h : Locks s) (hpc : s'.pc = update s.pc p l)
    (hkeep : ∀ r q, r ≠ p → s.lock q = some r → s'.lock q = some r)
    (hown : (l.locks p).Nodup ∧ ∀ q ∈ l.locks p, s'.lock q = some p) : Locks s' := by
  intro r
  rw [hpc]
  by_cases hr : r = p
  · rw [hr, update_self]
    exact hown
  · rw [update_of_ne hr]
    exact ⟨(h r).1, fun q hq => hkeep r q hr ((h r).2 q hq)⟩

theorem Locks.goto (h : Locks s) (hpc : s'.pc = update s.pc p l) (hlock : s'.lock = s.lock)
    (hown : (l.locks p).Nodup ∧ ∀ x ∈ l.locks p, s.lock x = some p) : Locks s' := by
  rw [← hlock] at hown
  exact h.move hpc (fun _ _ _ hx => by rw [hlock]; exact hx) hown

theorem Locks.stay (h : Locks s) (hpc : s'.pc = s.pc) (hlock : s'.lock = s.lock) : Locks s' := by
  intro r
  rw [hpc, hlock]
  exact h r

theorem Locks.acquire (h : Locks s) (hfree : s.lock q = none) (hpc : s'.pc = update s.pc p l)
    (hlock : s'.lock = update s.lock q (some p))
    (hown : (l.locks p).Nodup ∧ ∀ x ∈ l.locks p, x = q ∨ s.lock x = some p) : Locks s' := by
  obtain ⟨hself, hother⟩ := updated hlock
  apply h.move hpc
  · intro r x _ hx
    rw [hother x]
    · exact hx
    · rintro rfl
      rw [hfree] at hx
      cases hx
  · refine ⟨hown.1, ?_⟩
    intro x hx
    by_cases heq : x = q
    · rw [heq, hself]
    · rw [hother x heq]
      exact (hown.2 x hx).resolve_left heq

theorem Locks.release (h : Locks s) (hmine : s.lock q = some p) (hpc : s'.pc = update s.pc p l)
    (hlock : s'.lock = update s.lock q none)
    (hown : (l.locks p).Nodup ∧ ∀ x ∈ l.locks p, x ≠ q ∧ s.lock x = some p) : Locks s' := by
  obtain ⟨_, hother⟩ := updated hlock
  apply h.move hpc
  · intro r x hr hx
    rw [hother x]
    · exact hx
    · rintro rfl
      rw [hmine] at hx
      exact hr (Option.some.inj hx).symm
  · refine ⟨hown.1, ?_⟩
    intro x hx
    rw [hother x (hown.2 x hx).1]
    exact (hown.2 x hx).2

theorem Locks.wait (h : Locks s) (hpc : (s.pc p).locks p = [p]) : s.lock p = some p :=
  (h p).2 p (by rw [hpc]; exact List.mem_singleton_self p)

theorem Locks.reparent (h : Locks s) (op : Nat) (hpc : (s.pc p).locks p = [op, p]) :
    op ≠ p ∧ s.lock op = some p ∧ s.lock p = some p := by
  obtain ⟨hnd, hl⟩ := h p
  rw [hpc] at hnd hl
  refine ⟨?_, hl op (by simp), hl p (by simp)⟩
  rintro rfl
  simp at hnd

theorem Locks.walk (h : Locks s) {lock : Nat → Option Nat} (hw : Walk s p (s.pc p) l lock) :
    Locks { s with pc := update s.pc p l, lock := lock } := by
  generalize hpc : s.pc p = l' at hw
  have hwait (hl : l'.locks p = [p]) : s.lock p = some p := h.wait (by rw [hpc, hl])
  have hrep (op : Nat) (hl : l'.locks p = [op, p]) : op ≠ p ∧ s.lock op = some p ∧ s.lock p = some p :=
    h.reparent op (by rw [hpc, hl])
  cases hw with
  | wait hp => exact h.acquire hp rfl rfl (by simp [Pc.locks])
  | child | skip | next => exact h.goto rfl rfl (by simpa [Pc.locks] using hwait rfl)
  | back | fail => exact h.release (hwait rfl) rfl rfl (by simp [Pc.locks])
  | exit | parent => exact h.goto rfl rfl (by simp [Pc.locks])
  | lock hop => exact h.acquire hop rfl rfl (by simp [Pc.locks])
  | @self status op hp =>
    have hop : s.lock op = some p := (h p).2 op (by rw [hpc]; simp [Pc.locks])
    have hne : op ≠ p := by
      rintro rfl
      rw [hp] at hop
      cases hop
    exact h.acquire hp rfl rfl (by simp [Pc.locks, hop, hne])
  | @own status op | @other status op =>
    obtain ⟨hne, hop, hp⟩ := hrep op rfl
    exact h.goto rfl rfl (by simp [Pc.locks, hop, hp, hne])

theorem Locks.effect [DecidableEq κ] (h : Locks s) (he : Effect n o s s') : Locks s' := by
  cases he with
  | walk _ hw => exact h.walk hw
  | woken | unused | yield => exact h.stay rfl rfl
  | init | sleep | fork | userinit => exact h.goto rfl rfl (by simp [Pc.locks])
  | @start c p x l _ _ hs =>
    rcases hs.place with ⟨rfl | ⟨hl, _⟩, hlock⟩ | ⟨rfl, hp, hlock⟩
    · exact h.goto hs.pc hlock (by simp [Pc.locks])
    · exact h.goto hs.pc hlock (hl ▸ h p)
    · exact h.acquire hp hs.pc hlock (by simp [Pc.locks])
  | @waitSleep p _ _ _ hpc _ =>
    exact h.release (h.wait (p := p) (by rw [hpc]; rfl)) rfl rfl (by simp [Pc.locks])
  | @leave p hpc =>
    exact h.release (h.wait (p := p) (by rw [hpc]; rfl)) rfl rfl (by simp [Pc.locks])
  | @reap p i _ _ hpc _ hz =>
    unfold State.waitLock
    rw [if_pos hz]
    exact h.release (h.wait (p := p) (by rw [hpc]; rfl)) rfl rfl (by simp [Pc.locks])
  | @zombie p op i status _ _ hpc hi =>
    obtain ⟨hne, hop, hp⟩ := h.reparent op (by rw [hpc]; rfl)
    unfold State.reparent
    rw [if_neg hi]
    exact h.release hop rfl rfl (by simp [Pc.locks, hp, hne.symm])
  | @adopt p op i status _ hpc =>
    obtain ⟨hne, hop, hp⟩ := h.reparent op (by rw [hpc]; rfl)
    exact h.goto rfl rfl (by simp [Pc.locks, hop, hp, hne])

end Locks

section Cpus

/-- A process on a CPU is `RUNNING`, unless it is on its way out of `exit`. -/
structure Cpus (s : State κ) : Prop where
  inj : ∀ c c' p, s.cpu c = some p → s.cpu c' = some p → c = c'
  state : ∀ p, s.onCpu p → (s.proc p).state = .RUNNING ∨ s.pc p = .exitSched
  sched : ∀ p, s.pc p = .exitSched → (s.proc p).state = .ZOMBIE
  running : ∀ p, (s.proc p).state = .RUNNING → s.onCpu p

/-- Only what concerns process `p` changes. -/
theorem Cpus.change (h : Cpus s) (hproc : s'.proc = update s.proc p x)
    (hpc : ∀ r, r ≠ p → s'.pc r = s.pc r)
    (hcpu : ∀ c r, r ≠ p → (s'.cpu c = some r ↔ s.cpu c = some r))
    (hinj : ∀ c c', s'.cpu c = some p → s'.cpu c' = some p → c = c')
    (hstate : s'.onCpu p → x.state = .RUNNING ∨ s'.pc p = .exitSched)
    (hsched : s'.pc p = .exitSched → x.state = .ZOMBIE)
    (hrunning : x.state = .RUNNING → s'.onCpu p) : Cpus s' := by
  obtain ⟨hself, hother⟩ := updated hproc
  have hon (r : Nat) (hr : r ≠ p) : s'.onCpu r ↔ s.onCpu r := exists_congr fun c => hcpu c r hr
  refine ⟨?_, ?_, ?_, ?_⟩
  · intro c c' r hc hc'
    by_cases hr : r = p
    · subst hr
      exact hinj c c' hc hc'
    · rw [hcpu _ r hr] at hc hc'
      exact h.inj c c' r hc hc'
  · intro r hc
    by_cases hr : r = p
    · subst hr
      rw [hself]
      exact hstate hc
    · rw [hother r hr, hpc r hr]
      exact h.state r ((hon r hr).mp hc)
  · intro r hc
    by_cases hr : r = p
    · subst hr
      rw [hself]
      exact hsched hc
    · rw [hpc r hr] at hc
      rw [hother r hr]
      exact h.sched r hc
  · intro r hc
    by_cases hr : r = p
    · subst hr
      rw [hself] at hc
      exact hrunning hc
    · rw [hother r hr] at hc
      exact (hon r hr).mpr (h.running r hc)

theorem Cpus.slot (h : Cpus s) (hproc : s'.proc = update s.proc q x) (hpc : s'.pc = s.pc)
    (hcpu : s'.cpu = s.cpu) (hx : x.state = .RUNNING ↔ (s.proc q).state = .RUNNING)
    (hz : s.pc q = .exitSched → x.state = .ZOMBIE) : Cpus s' := by
  have hon : s'.onCpu q ↔ s.onCpu q := by
    unfold State.onCpu
    rw [hcpu]
  apply h.change hproc
  · exact fun r _ => congrFun hpc r
  · exact fun c r _ => by rw [hcpu]
  · rw [hcpu]
    exact fun c c' => h.inj c c' q
  · rw [hon, hpc, hx]
    exact h.state q
  · rw [hpc]
    exact hz
  · rw [hon, hx]
    exact h.running q

theorem Cpus.woken (h : Cpus s) (hx : Woken o (s.proc q) x) : Cpus (s.setSlot q x) := by
  refine h.slot rfl rfl rfl ?_ ?_
  · rcases hx.state with hx | ⟨h1, h2⟩
    · rw [hx]
    · rw [h1, h2]
      exact ⟨nofun, nofun⟩
  · intro hc
    rcases hx.state with hx | ⟨h1, _⟩
    · rw [hx]
      exact h.sched q hc
    · rw [h.sched q hc] at h1
      cases h1

theorem Cpus.goto (h : Cpus s) (hpc : s'.pc = update s.pc p l) (hproc : s'.proc = s.proc)
    (hcpu : s'.cpu = s.cpu) (hp : s.pc p ≠ .exitSched) (hl : l ≠ .exitSched) : Cpus s' := by
  obtain ⟨hself, hother⟩ := updated hpc
  have hon : s'.onCpu p ↔ s.onCpu p := by
    unfold State.onCpu
    rw [hcpu]
  apply h.change (x := s.proc p) (by rw [hproc, update_eq_self]) hother
  · exact fun c r _ => by rw [hcpu]
  · rw [hcpu]
    exact fun c c' => h.inj c c' p
  · exact fun hc => Or.inl ((h.state p (hon.mp hc)).resolve_right hp)
  · exact fun hc => absurd (hself.symm.trans hc) hl
  · exact fun hc => hon.mpr (h.running p hc)

theorem Cpus.leave (h : Cpus s) (hcpu : s'.cpu = (s.offCpu p).cpu)
    (hproc : s'.proc = update s.proc p x) (hpc : s'.pc = update s.pc p l)
    (hx : x.state ≠ .RUNNING) (hl : l ≠ .exitSched) : Cpus s' := by
  obtain ⟨hself, hother⟩ := updated hpc
  have hoff (c : κ) : s'.cpu c ≠ some p := by
    rw [hcpu]
    exact fun hc => (offCpu_cpu.mp hc).1 rfl
  apply h.change hproc hother
  · intro c r hr
    rw [hcpu, offCpu_cpu, and_iff_right hr]
  · exact fun c _ hc => absurd hc (hoff c)
  · exact fun ⟨c, hc⟩ => absurd hc (hoff c)
  · exact fun hc => absurd (hself.symm.trans hc) hl
  · exact fun hc => absurd hc hx

/-- A slot without a process gets one that can run. -/
theorem Cpus.fresh (h : Cpus s) (hold : (s.proc q).state = .UNUSED) (hx : x.state = .RUNNABLE)
    (hproc : s'.proc = update s.proc q x) (hpc : s'.pc = update s.pc q .run)
    (hcpu : s'.cpu = s.cpu) : Cpus s' := by
  have hne : s.pc q ≠ .exitSched := by
    intro hc
    rw [h.sched q hc] at hold
    cases hold
  have hs : Cpus (s.setSlot q x) := by
    refine h.slot rfl rfl rfl ?_ fun hc => absurd hc hne
    rw [hold, hx]
    exact ⟨nofun, nofun⟩
  exact hs.goto hpc hproc hcpu hne nofun

theorem Cpus.start [DecidableEq κ] (h : Cpus s) {c : κ} (hs : Started s c p x l s') : Cpus s' := by
  obtain ⟨hself, hother⟩ := updated hs.pc
  have hsched : s.pc p ≠ .exitSched := by
    intro hc
    have hold := hs.old
    rw [h.sched p hc] at hold
    cases hold
  have hoff (d : κ) : s.cpu d ≠ some p := by
    intro hd
    have hold := hs.old
    rw [(h.state p ⟨d, hd⟩).resolve_right hsched] at hold
    cases hold
  have hnew (d : κ) (hd : s'.cpu d = some p) : d = c := by
    by_contra hdc
    rw [hs.cpu, update_of_ne hdc] at hd
    exact hoff d hd
  have hl : l ≠ .exitSched := by
    rcases hs.place with ⟨rfl | ⟨rfl, _⟩, _⟩ | ⟨rfl, _⟩
    · exact nofun
    · exact hsched
    · exact nofun
  apply h.change hs.proc hother
  · intro d r hr
    rw [hs.cpu]
    by_cases hdc : d = c
    · rw [hdc, update_self, hs.idle]
      exact iff_of_false (fun hc => hr (Option.some.inj hc).symm) nofun
    · rw [update_of_ne hdc]
  · exact fun d d' hd hd' => (hnew d hd).trans (hnew d' hd').symm
  · exact fun _ => Or.inl hs.state
  · exact fun hc => absurd (hself.symm.trans hc) hl
  · exact fun _ => ⟨c, by rw [hs.cpu, update_self]⟩

theorem walk_not_sched {lock : Nat → Option Nat} (hw : Walk s p (s.pc p) l lock) :
    s.pc p ≠ .exitSched ∧ l ≠ .exitSched := by
  generalize s.pc p = l' at hw
  cases hw <;> exact ⟨nofun, nofun⟩

theorem Cpus.effect [DecidableEq κ] (h : Cpus s) (hl : Locks s) (he : Effect n o s s') : Cpus s' := by
  cases he with
  | walk _ hw => exact h.goto rfl rfl rfl (walk_not_sched hw).1 (walk_not_sched hw).2
  | woken hx => exact h.woken hx
  | @init p i status ho _ hpc =>
    have hs : Cpus (s.wakeup1 i) := h.woken (wakeup_woken ho _)
    exact hs.goto rfl rfl rfl (by change s.pc p ≠ _; rw [hpc]; exact nofun) nofun
  | start _ hs => exact h.start hs
  | @yield p _ _ hun =>
    refine h.leave (x := { s.proc p with state := .RUNNABLE }) (l := s.pc p) rfl rfl
      (update_eq_self ..).symm nofun ?_
    intro hc
    rw [hc] at hun
    exact hun
  | @sleep p x =>
    exact h.leave (x := { s.proc p with chan := some (.other x), state := .SLEEPING }) rfl rfl rfl
      nofun nofun
  | @waitSleep p =>
    exact h.leave (x := { s.proc p with chan := some (.proc p), state := .SLEEPING }) rfl rfl rfl
      nofun nofun
  | @leave p hpc =>
    refine h.leave (p := p) (x := s.proc p) rfl (update_eq_self ..).symm rfl ?_ nofun
    rw [h.sched p hpc]
    exact nofun
  | @unused p np a x _ hold hx =>
    refine h.slot (q := np) (x := x) (allocpid_proc_update ..) rfl rfl ?_ ?_
    · rw [hold, hx]
    · intro hc
      rw [h.sched np hc] at hold
      cases hold
  | fork _ _ _ _ hold => exact h.fresh hold rfl (allocpid_proc_update ..) rfl rfl
  | userinit _ _ _ hold => exact h.fresh hold rfl (allocpid_proc_update ..) rfl rfl
  | @reap p i _ _ hpc hi hz =>
    -- The zombie has left its CPU, since its lock is free.
    have hni : s.pc i ≠ .exitSched := by
      intro hc
      rw [hl.wait (p := i) (by rw [hc]; rfl)] at hi
      cases hi
    have hs : Cpus (s.setSlot i (s.proc i).freeproc) := by
      refine h.slot rfl rfl rfl ?_ fun hc => absurd hc hni
      rw [hz]
      exact ⟨nofun, nofun⟩
    unfold State.waitLock
    rw [if_pos hz]
    exact hs.goto rfl rfl rfl (by change s.pc p ≠ _; rw [hpc]; exact nofun) nofun
  | @zombie p op i status ho hon _ hi =>
    have hs : Cpus (s.wakeup1 op) := h.woken (o := o) (wakeup_woken (by rw [ho]; trivial) _)
    unfold State.reparent
    rw [if_neg hi]
    apply hs.change (p := p) (x := { (s.wakeup1 op).proc p with xstate := status, state := .ZOMBIE }) rfl
    · exact fun r hr => update_of_ne hr _ _
    · exact fun _ _ _ => Iff.rfl
    · exact fun c c' => h.inj c c' p
    · exact fun _ => Or.inr (update_self ..)
    · exact fun _ => rfl
    · exact nofun
  | @adopt p op i status _ hpc =>
    have hs : Cpus (s.setSlot i { s.proc i with parent := s.initproc }) :=
      h.slot rfl rfl rfl Iff.rfl fun hc => h.sched i hc
    exact hs.goto rfl rfl rfl (by change s.pc p ≠ _; rw [hpc]; exact nofun) nofun

theorem reachable_cpus [DecidableEq κ] (hr : Reachable n s) : Cpus s ∧ Locks s := by
  apply Reaches.invariant (I := fun s => Cpus s ∧ Locks s) ?_ ?_ hr
  · intro s ⟨hproc, hpc, _, hcpu, _⟩
    refine ⟨⟨?_, ?_, ?_, ?_⟩, ?_⟩
    · intro c c' p hc
      rw [hcpu] at hc
      cases hc
    · intro p ⟨c, hc⟩
      rw [hcpu] at hc
      cases hc
    · intro p hc
      rw [hpc] at hc
      cases hc
    · intro p hc
      rw [hproc] at hc
      cases hc
    · intro p
      rw [hpc]
      exact ⟨List.nodup_nil, nofun⟩
  · intro s op ⟨hc, hl⟩ he
    exact (runs_modify.mpr ⟨hc.effect hl (step_effect he), hl.effect (step_effect he)⟩).ends

end Cpus

end Xv6.Sched
