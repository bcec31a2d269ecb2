import Xv6.Interleave

/-! Interrupts and the nesting of spinlocks: `push_off` and `pop_off` of `kernel/spinlock.c` on
the variables of a CPU, with `sched`, the `swtch` of `scheduler` and `forkret` of
`kernel/proc.c`. An `acquire` or `release` is here its `push_off` or `pop_off`. A trap between
`intr_get` and `intr_off` comes with interrupts on and returns with them on, so `push_off` is
one step. -/
namespace Xv6.Intr

open Function

/-- The variables of a CPU, with the interrupt bit of its `sstatus`. -/
structure Cpu where
  noff : Nat
  intena : Bool
  intr : Bool
  deriving DecidableEq

def push_off : Prog Cpu Unit := do
  let old := (← get).intr
  modify fun c => { c with intr := false }
  if (← get).noff = 0 then modify fun c => { c with intena := old }
  modify fun c => { c with noff := c.noff+1 }

def pop_off : Prog Cpu Unit := do
  let c ← get
  panicIf (c.intr = true) "pop_off - interruptible"
  panicIf (c.noff < 1) "pop_off"
  modify fun c => { c with noff := c.noff-1 }
  let c ← get
  if c.noff = 0 ∧ c.intena = true then modify fun c => { c with intr := true }

/-- `sched` up to its `swtch`; the local variable `intena`. -/
def schedSave : Prog Cpu Bool := do
  let c ← get
  panicIf (c.noff ≠ 1) "sched locks"
  panicIf (c.intr = true) "sched interruptible"
  return c.intena

def schedRestore (intena : Bool) : Prog Cpu Unit := modify fun c => { c with intena := intena }

/-- Where the thread of a process stands: before `forkret`, in `sched` behind the `swtch` with
its local variable, or elsewhere in the kernel. -/
inductive Pc
  | forkret
  | sched (intena : Bool)
  | code
  deriving DecidableEq

/-- The CPUs `κ`, each with its scheduler thread, and the processes `ι`. A CPU without `proc`
runs its scheduler. The `depth` of a thread is what it has pushed and not popped. -/
structure State (κ ι : Type) where
  cpu : κ → Cpu
  proc : κ → Option ι
  pc : ι → Pc
  depth : κ ⊕ ι → Nat

inductive Op (κ ι : Type)
  | push_off (c : κ)
  | pop_off (c : κ)
  | intr (c : κ) (b : Bool)
  | sched (c : κ) (p : ι)
  | resume (c : κ) (p : ι) (intena : Bool)
  | swtch (c : κ) (p : ι)
  | allocproc (p : ι)

variable {κ ι : Type}

def threadOf (c : κ) : Option ι → κ ⊕ ι
  | none => .inl c
  | some p => .inr p

def State.thread (s : State κ ι) (c : κ) : κ ⊕ ι := threadOf c (s.proc c)

def State.inCode (s : State κ ι) (c : κ) : Prop := ∀ p, s.proc c = some p → s.pc p = .code

/-- A thread pops what it has pushed. It turns interrupts on or off by itself, or in a trap, with
nothing pushed, and calls `sched` with one lock. A scheduler switches with the lock of a process
that no CPU runs. -/
def Op.enabled (s : State κ ι) : Op κ ι → Prop
  | .push_off c => s.inCode c
  | .pop_off c => s.inCode c ∧ 0 < s.depth (s.thread c)
  | .intr c _ => s.inCode c ∧ s.depth (s.thread c) = 0
  | .sched c p => s.proc c = some p ∧ s.pc p = .code ∧ s.depth (.inr p) = 1
  | .resume c p intena => s.proc c = some p ∧ s.pc p = .sched intena
  | .swtch c p => s.proc c = none ∧ s.depth (.inl c) = 1 ∧ ∀ c', s.proc c' ≠ some p
  | .allocproc p => ∀ c, s.proc c ≠ some p

/-- The schedulers have not yet taken a lock, and no process has run. -/
structure State.Fresh (s : State κ ι) : Prop where
  noff : ∀ c, (s.cpu c).noff = 0
  proc : ∀ c, s.proc c = none
  pc : ∀ p, s.pc p = .forkret
  scheduler : ∀ c, s.depth (.inl c) = 0
  forkret : ∀ p, s.depth (.inr p) = 1

/-- What holds between any two steps. A thread that does not run has one lock, and so has a
scheduler whose CPU runs a process. -/
structure Inv (s : State κ ι) : Prop where
  noff : ∀ c, (s.cpu c).noff = s.depth (s.thread c)
  off : ∀ c, 0 < (s.cpu c).noff → (s.cpu c).intr = false
  once : ∀ c c' p, s.proc c = some p → s.proc c' = some p → c = c'
  scheduler : ∀ c p, s.proc c = some p → s.depth (.inl c) = 1
  waiting : ∀ p, (∀ c, s.proc c ≠ some p) → s.depth (.inr p) = 1
  inSched : ∀ p b, s.pc p = .sched b → s.depth (.inr p) = 1

section Threads
variable {s : State κ ι} {c : κ} {p : ι}

theorem thread_of_proc (h : s.proc c = some p) : s.thread c = .inr p := congrArg (threadOf c) h

theorem thread_of_none (h : s.proc c = none) : s.thread c = .inl c := congrArg (threadOf c) h

theorem thread_eq_inr (h : s.thread c = .inr p) : s.proc c = some p := by
  cases hp : s.proc c with
  | none =>
    rw [thread_of_none hp] at h
    cases h
  | some q =>
    rw [thread_of_proc hp] at h
    cases h
    rfl

theorem thread_eq_inl {c' : κ} (h : s.thread c = .inl c') : c' = c ∧ s.proc c = none := by
  cases hp : s.proc c with
  | none =>
    rw [thread_of_none hp] at h
    cases h
    exact ⟨rfl, rfl⟩
  | some q =>
    rw [thread_of_proc hp] at h
    cases h

/-- Two CPUs run two threads. -/
theorem Inv.thread_ne (h : Inv s) {c' : κ} (hne : c' ≠ c) : s.thread c' ≠ s.thread c := by
  intro heq
  cases hp : s.proc c' with
  | none =>
    rw [thread_of_none hp] at heq
    exact hne (thread_eq_inl heq.symm).1
  | some p =>
    rw [thread_of_proc hp] at heq
    exact hne (h.once c' c p hp (thread_eq_inr heq.symm))

theorem State.Fresh.inv (h : s.Fresh) : Inv s where
  noff c := by
    rw [h.noff, thread_of_none (h.proc c), h.scheduler]
  off c hpos := absurd hpos (by rw [h.noff]; exact Nat.lt_irrefl 0)
  once c c' p hp := by
    rw [h.proc] at hp
    cases hp
  scheduler c p hp := by
    rw [h.proc] at hp
    cases hp
  waiting p _ := h.forkret p
  inSched p _ _ := h.forkret p

end Threads

variable [DecidableEq κ] [DecidableEq ι]

instance [Fintype ι] (s : State κ ι) (c : κ) : Decidable (s.inCode c) :=
  inferInstanceAs (Decidable (∀ p, s.proc c = some p → s.pc p = .code))

instance [Fintype κ] [Fintype ι] (s : State κ ι) (o : Op κ ι) : Decidable (Op.enabled s o) :=
  match o with
  | .push_off c => inferInstanceAs (Decidable (s.inCode c))
  | .allocproc p => inferInstanceAs (Decidable (∀ c, s.proc c ≠ some p))
  | .pop_off _ | .intr _ _ | .sched _ _ | .resume _ _ _ | .swtch _ _ => instDecidableAnd

def onCpu {α : Type} (c : κ) (x : Prog Cpu α) : Prog (State κ ι) α :=
  zoom (fun s => s.cpu c) (fun k s => { s with cpu := update s.cpu c k }) x

def Op.run : Op κ ι → Prog (State κ ι) Unit
  | .push_off c => do
    onCpu c Intr.push_off
    modify fun s => { s with depth := update s.depth (s.thread c) (s.depth (s.thread c)+1) }
  | .pop_off c => do
    onCpu c Intr.pop_off
    modify fun s => { s with depth := update s.depth (s.thread c) (s.depth (s.thread c)-1) }
  | .intr c b => onCpu c (modify fun k => { k with intr := b })
  | .sched c p => do
    let intena ← onCpu c schedSave
    modify fun s => { s with proc := update s.proc c none, pc := update s.pc p (.sched intena) }
  | .resume c p intena => do
    onCpu c (schedRestore intena)
    modify fun s => { s with pc := update s.pc p .code }
  | .swtch c p => modify fun s =>
      { s with proc := update s.proc c (some p),
               pc := if s.pc p = .forkret then update s.pc p .code else s.pc }
  | .allocproc p => modify fun s =>
      { s with pc := update s.pc p .forkret, depth := update s.depth (.inr p) 1 }

abbrev Reachable : State κ ι → Prop := Reaches State.Fresh (fun s o => Op.enabled s o) Op.run

def Cpu.pushed (k : Cpu) : Cpu := ⟨k.noff+1, if k.noff = 0 then k.intr else k.intena, false⟩

/-- A CPU after `pop_off`, which it starts with interrupts off. -/
def Cpu.popped (k : Cpu) : Cpu := ⟨k.noff-1, k.intena, decide (k.noff = 1) && k.intena⟩

section Code
variable {k : Cpu}

theorem push_off_runs {Q : Unit → Cpu → Prop} : Runs push_off k Q ↔ Q () k.pushed := by
  unfold push_off Cpu.pushed
  simp only [runs_bind, runs_get, runs_modify]
  by_cases h : k.noff = 0
  · rw [if_pos h, if_pos h, runs_bind, runs_modify, runs_modify]
  · rw [if_neg h, if_neg h, runs_modify]

theorem pop_off_runs {Q : Unit → Cpu → Prop} (hintr : k.intr = false) (hnoff : 0 < k.noff) :
    Runs pop_off k Q ↔ Q () k.popped := by
  have hlast : k.noff-1 = 0 ↔ k.noff = 1 := by omega
  have hmay : ¬ k.noff < 1 := by omega
  unfold pop_off Cpu.popped
  simp only [runs_bind, runs_get, runs_modify, runs_panicIf, hintr, hlast, hmay]
  by_cases h : k.noff = 1 <;> cases k.intena <;> simp [h]

theorem schedSave_runs {Q : Bool → Cpu → Prop} (hintr : k.intr = false) (hnoff : k.noff = 1) :
    Runs schedSave k Q ↔ Q k.intena k := by
  unfold schedSave
  simp [hintr, hnoff]

end Code

section Steps
variable {s : State κ ι} {c : κ} {p : ι}

def Op.next (s : State κ ι) : Op κ ι → State κ ι
  | .push_off c =>
    { s with cpu := update s.cpu c (s.cpu c).pushed,
             depth := update s.depth (s.thread c) (s.depth (s.thread c)+1) }
  | .pop_off c =>
    { s with cpu := update s.cpu c (s.cpu c).popped,
             depth := update s.depth (s.thread c) (s.depth (s.thread c)-1) }
  | .intr c b => { s with cpu := update s.cpu c { s.cpu c with intr := b } }
  | .sched c p =>
    { s with proc := update s.proc c none, pc := update s.pc p (.sched (s.cpu c).intena) }
  | .resume c p intena =>
    { s with cpu := update s.cpu c { s.cpu c with intena := intena }, pc := update s.pc p .code }
  | .swtch c p =>
    { s with proc := update s.proc c (some p),
             pc := if s.pc p = .forkret then update s.pc p .code else s.pc }
  | .allocproc p => { s with pc := update s.pc p .forkret, depth := update s.depth (.inr p) 1 }

theorem next_push_depth : ((Op.push_off c).next s).depth (s.thread c) = s.depth (s.thread c)+1 :=
  update_self _ _ _

theorem next_push_cpu : ((Op.push_off c).next s).cpu c = (s.cpu c).pushed := update_self _ _ _

theorem next_pop_depth : ((Op.pop_off c).next s).depth (s.thread c) = s.depth (s.thread c)-1 :=
  update_self _ _ _

theorem next_pop_cpu : ((Op.pop_off c).next s).cpu c = (s.cpu c).popped := update_self _ _ _

/-- No step panics: with something pushed interrupts are off, and `noff` is the depth. -/
theorem Inv.runs (h : Inv s) {o : Op κ ι} (he : Op.enabled s o) {Q : Unit → State κ ι → Prop}
    (hq : Q () (o.next s)) : Runs o.run s Q := by
  cases o with
  | push_off c =>
    apply runs_bind.mpr
    apply runs_zoom.mpr
    apply push_off_runs.mpr
    exact runs_modify.mpr hq
  | pop_off c =>
    have hnoff : 0 < (s.cpu c).noff := (h.noff c).symm ▸ he.2
    apply runs_bind.mpr
    apply runs_zoom.mpr
    apply (pop_off_runs (h.off c hnoff) hnoff).mpr
    exact runs_modify.mpr hq
  | intr c b =>
    rw [Op.run]
    apply runs_zoom.mpr
    exact runs_modify.mpr hq
  | sched c p =>
    obtain ⟨hp, -, hdepth⟩ := he
    have hnoff : (s.cpu c).noff = 1 := by rw [h.noff, thread_of_proc hp, hdepth]
    apply runs_bind.mpr
    apply runs_zoom.mpr
    apply (schedSave_runs (h.off c (by omega)) hnoff).mpr
    apply runs_modify.mpr
    rw [update_eq_self]
    exact hq
  | resume c p intena =>
    apply runs_bind.mpr
    apply runs_zoom.mpr
    apply runs_modify.mpr
    exact runs_modify.mpr hq
  | swtch c p => exact runs_modify.mpr hq
  | allocproc p => exact runs_modify.mpr hq

theorem Inv.next_of_run (h : Inv s) {o : Op κ ι} (he : Op.enabled s o) {t : State κ ι}
    (hrun : o.run s = .ok ((), t)) : t = o.next s :=
  (h.runs he (Q := fun _ t => t = o.next s) rfl).of_eq hrun

/-- The thread of `c` changes its depth and the variables of its CPU with it. -/
theorem Inv.count (h : Inv s) (k : Cpu) (hcode : s.inCode c ∨ k.noff = (s.cpu c).noff)
    (hoff : 0 < k.noff → k.intr = false) :
    Inv { s with cpu := update s.cpu c k, depth := update s.depth (s.thread c) k.noff } where
  noff c' := by
    change (update s.cpu c k c').noff = update s.depth (s.thread c) k.noff (s.thread c')
    by_cases hc : c' = c
    · rw [hc, update_self, update_self]
    · rw [update_of_ne hc, update_of_ne (h.thread_ne hc), h.noff]
  off c' := by
    change 0 < (update s.cpu c k c').noff → (update s.cpu c k c').intr = false
    by_cases hc : c' = c
    · rw [hc, update_self]
      exact hoff
    · rw [update_of_ne hc]
      exact h.off c'
  once := h.once
  scheduler c' p hp := by
    have hother : Sum.inl c' ≠ s.thread c := by
      intro heq
      obtain ⟨rfl, hnone⟩ := thread_eq_inl heq.symm
      rw [hp] at hnone
      cases hnone
    exact (update_of_ne hother _ _).trans (h.scheduler c' p hp)
  waiting p hp := by
    have hother : Sum.inr p ≠ s.thread c := fun heq => hp c (thread_eq_inr heq.symm)
    exact (update_of_ne hother _ _).trans (h.waiting p hp)
  inSched p b hpc := by
    change update s.depth (s.thread c) k.noff (.inr p) = 1
    rcases hcode with hcode | hnoff
    · have hother : Sum.inr p ≠ s.thread c := by
        intro heq
        have hrun := hcode p (thread_eq_inr heq.symm)
        rw [hpc] at hrun
        cases hrun
      rw [update_of_ne hother]
      exact h.inSched p b hpc
    · rw [hnoff, h.noff, update_eq_self]
      exact h.inSched p b hpc

/-- A CPU keeps `noff`. -/
theorem Inv.setCpu (h : Inv s) (k : Cpu) (hnoff : k.noff = (s.cpu c).noff)
    (hoff : 0 < k.noff → k.intr = false) : Inv { s with cpu := update s.cpu c k } := by
  have hcount := h.count k (Or.inr hnoff) hoff
  rw [hnoff, h.noff, update_eq_self] at hcount
  exact hcount

omit [DecidableEq κ] in
theorem Inv.setPc (h : Inv s) {x : Pc} (hx : ∀ b, x = .sched b → s.depth (.inr p) = 1) :
    Inv { s with pc := update s.pc p x } :=
  { h with
    inSched := by
      intro q b hq
      obtain ⟨rfl, hb⟩ | ⟨-, hq⟩ := update_eq hq
      · exact hx b hb
      · exact h.inSched q b hq }

/-- A switch hands `noff` to a thread with the same depth. -/
theorem Inv.switch (h : Inv s) (hold : s.depth (s.thread c) = 1) {x : Option ι}
    (hfree : ∀ p, x = some p → ∀ c', s.proc c' ≠ some p)
    (hnew : s.depth (threadOf c x) = 1)
    (hsched : s.depth (.inl c) = 1) : Inv { s with proc := update s.proc c x } where
  noff c' := by
    change (s.cpu c').noff = s.depth (threadOf c' (update s.proc c x c'))
    by_cases hc : c' = c
    · rw [hc, update_self, hnew, h.noff, hold]
    · rw [update_of_ne hc]
      exact h.noff c'
  off := h.off
  once c1 c2 p h1 h2 := by
    obtain ⟨hc1, hx1⟩ | ⟨-, hp1⟩ := update_eq h1 <;> obtain ⟨hc2, hx2⟩ | ⟨-, hp2⟩ := update_eq h2
    · rw [hc1, hc2]
    · exact absurd hp2 (hfree p hx1 c2)
    · exact absurd hp1 (hfree p hx2 c1)
    · exact h.once c1 c2 p hp1 hp2
  scheduler c' p hp := by
    obtain ⟨rfl, -⟩ | ⟨-, hp⟩ := update_eq hp
    · exact hsched
    · exact h.scheduler c' p hp
  waiting p hp := by
    by_cases hwas : s.proc c = some p
    · rw [thread_of_proc hwas] at hold
      exact hold
    · apply h.waiting p
      intro c' hc'
      have hne : c' ≠ c := fun heq => hwas (heq ▸ hc')
      exact hp c' ((update_of_ne hne _ _).trans hc')
  inSched := h.inSched

theorem Inv.step (h : Inv s) {o : Op κ ι} (he : Op.enabled s o) : Inv (o.next s) := by
  cases o with
  | push_off c =>
    have hcount := h.count (s.cpu c).pushed (Or.inl he) fun _ => rfl
    rw [Cpu.pushed, h.noff c] at hcount
    rw [Op.next, Cpu.pushed, h.noff c]
    exact hcount
  | pop_off c =>
    have hoff : 0 < (s.cpu c).popped.noff → (s.cpu c).popped.intr = false := by
      intro hpos
      have hmore : (s.cpu c).noff ≠ 1 := by
        intro h1
        rw [Cpu.popped, h1] at hpos
        exact Nat.lt_irrefl 0 hpos
      rw [Cpu.popped, decide_eq_false hmore, Bool.false_and]
    have hcount := h.count (s.cpu c).popped (Or.inl he.1) hoff
    rw [Cpu.popped, h.noff c] at hcount
    rw [Op.next, Cpu.popped, h.noff c]
    exact hcount
  | intr c b =>
    apply h.setCpu { s.cpu c with intr := b } rfl
    intro hpos
    dsimp only at hpos
    rw [h.noff, he.2] at hpos
    exact absurd hpos (Nat.lt_irrefl 0)
  | sched c p =>
    obtain ⟨hp, -, hdepth⟩ := he
    have hpc := h.setPc (p := p) (x := .sched (s.cpu c).intena) fun _ _ => hdepth
    have hsched := h.scheduler c p hp
    apply hpc.switch (c := c) (x := none)
    · exact (congrArg s.depth (thread_of_proc hp)).trans hdepth
    · exact nofun
    · exact hsched
    · exact hsched
  | resume c p intena =>
    have hcpu := h.setCpu (c := c) { s.cpu c with intena := intena } rfl (h.off c)
    exact hcpu.setPc nofun
  | swtch c p =>
    obtain ⟨hnone, hdepth, hfree⟩ := he
    have hpc : Inv { s with pc := if s.pc p = .forkret then update s.pc p .code else s.pc } := by
      split
      · exact h.setPc nofun
      · exact h
    apply hpc.switch (c := c) (x := some p)
    · exact (congrArg s.depth (thread_of_none hnone)).trans hdepth
    · intro q hq
      cases hq
      exact hfree
    · exact h.waiting p hfree
    · exact hdepth
  | allocproc p =>
    have hsame : update s.depth (.inr p) 1 = s.depth := by
      rw [← h.waiting p he, update_eq_self]
    rw [Op.next, hsame]
    exact h.setPc nofun

theorem Reachable.inv (h : Reachable s) : Inv s :=
  h.invariant (fun _ h0 => h0.inv) fun _ _ hs he => (hs.runs he (hs.step he)).ends

theorem Reachable.run (h : Reachable s) {o : Op κ ι} (he : Op.enabled s o) :
    o.run s = .ok ((), o.next s) := by
  obtain ⟨⟨⟩, t, hrun, rfl⟩ := h.inv.runs he (Q := fun _ t => t = o.next s) rfl
  exact hrun

theorem Reachable.next (h : Reachable s) {o : Op κ ι} (he : Op.enabled s o) : Reachable (o.next s) :=
  h.step he (h.run he)

end Steps

/-- The `intena` of the thread of `p` is `b`: the variable of its CPU, or in `sched` its own. -/
def Kept (p : ι) (b : Bool) (s : State κ ι) : Prop :=
  s.pc p = .sched b ∨ ∃ c, s.proc c = some p ∧ s.pc p = .code ∧ (s.cpu c).intena = b

section Kept
variable {s : State κ ι} {p : ι} {b : Bool}

omit [DecidableEq κ] [DecidableEq ι] in
theorem Kept.frame {t : State κ ι} (h : Kept p b s) (hpc : t.pc p = s.pc p)
    (hrun : ∀ c, s.proc c = some p → t.proc c = some p ∧ (t.cpu c).intena = (s.cpu c).intena) :
    Kept p b t := by
  obtain hsched | ⟨c, hp, hcode, hb⟩ := h
  · exact Or.inl (hpc.trans hsched)
  · obtain ⟨hp', hsame⟩ := hrun c hp
    exact Or.inr ⟨c, hp', hpc.trans hcode, hsame.trans hb⟩

/-- Only the thread itself changes what it keeps, and only when it has nothing pushed. -/
theorem Kept.step (h : Kept p b s) (hs : Inv s) (hpos : 0 < s.depth (.inr p)) {o : Op κ ι}
    (hother : o ≠ .allocproc p) (he : Op.enabled s o) : Kept p b (o.next s) := by
  have hcpu (c : κ) (k : Cpu) (hk : s.proc c = some p → k.intena = (s.cpu c).intena) (c0 : κ)
      (hp : s.proc c0 = some p) : (update s.cpu c k c0).intena = (s.cpu c0).intena := by
    by_cases hc : c0 = c
    · rw [hc] at hp ⊢
      rw [update_self]
      exact hk hp
    · rw [update_of_ne hc]
  cases o with
  | push_off c =>
    refine h.frame rfl fun c0 hp0 => ⟨hp0, hcpu c (s.cpu c).pushed ?_ c0 hp0⟩
    intro hp
    have hnoff : (s.cpu c).noff ≠ 0 := by
      rw [hs.noff, thread_of_proc hp]
      exact hpos.ne'
    exact if_neg hnoff
  | pop_off c => exact h.frame rfl fun c0 hp => ⟨hp, hcpu c (s.cpu c).popped (fun _ => rfl) c0 hp⟩
  | intr c b' => exact h.frame rfl fun c0 hp => ⟨hp, hcpu c { s.cpu c with intr := b' } (fun _ => rfl) c0 hp⟩
  | sched c q =>
    obtain ⟨hq, hcode, -⟩ := he
    by_cases hpq : p = q
    · subst hpq
      obtain hpc | ⟨c0, hp, -, hb⟩ := h
      · rw [hpc] at hcode
        cases hcode
      · refine Or.inl ((update_self _ _ _).trans ?_)
        rw [hs.once c c0 p hq hp, hb]
    · apply h.frame (update_of_ne hpq _ _)
      intro c0 hp
      refine ⟨update_keeps hp ?_, rfl⟩
      rw [hq]
      exact fun heq => hpq (Option.some.inj heq).symm
  | resume c q intena =>
    obtain ⟨hq, hsched⟩ := he
    by_cases hpq : p = q
    · subst hpq
      obtain hpc | ⟨-, -, hpc, -⟩ := h
      · rw [hpc] at hsched
        cases hsched
        have hcpu : ((Op.resume c p b).next s).cpu c = { s.cpu c with intena := b } := update_self _ _ _
        exact Or.inr ⟨c, hq, update_self _ _ _, congrArg Cpu.intena hcpu⟩
      · rw [hpc] at hsched
        cases hsched
    · apply h.frame (update_of_ne hpq _ _)
      intro c0 hp
      refine ⟨hp, hcpu c { s.cpu c with intena := intena } ?_ c0 hp⟩
      intro hpc
      rw [hq] at hpc
      exact absurd (Option.some.inj hpc).symm hpq
  | swtch c q =>
    obtain ⟨hnone, -, hfree⟩ := he
    have hstarted : s.pc p ≠ .forkret := by
      obtain hpc | ⟨-, -, hpc, -⟩ := h <;> · rw [hpc]; exact nofun
    apply h.frame
    · change (if s.pc q = .forkret then update s.pc q .code else s.pc) p = s.pc p
      split_ifs with hnew
      · apply update_keeps rfl
        rw [hnew]
        exact hstarted.symm
      · rfl
    · intro c0 hp
      refine ⟨update_keeps hp ?_, rfl⟩
      rw [hnone]
      exact nofun
  | allocproc q =>
    have hpq : p ≠ q := by
      intro heq
      rw [heq] at hother
      exact hother rfl
    exact h.frame (update_of_ne hpq _ _) fun _ hp => ⟨hp, rfl⟩

end Kept

/-- Steps during which the thread of `p` has something pushed. -/
inductive Pushed (p : ι) : State κ ι → State κ ι → Prop
  | refl (s : State κ ι) : Pushed p s s
  | step {s t u : State κ ι} {o : Op κ ι} : Pushed p s t → o ≠ .allocproc p → Op.enabled t o →
      o.run t = .ok ((), u) → 0 < u.depth (.inr p) → Pushed p s u

theorem Pushed.kept {s t : State κ ι} {p : ι} {b : Bool} (h : Pushed p s t) (hs : Inv s)
    (hpos : 0 < s.depth (.inr p)) (hb : Kept p b s) : Inv t ∧ 0 < t.depth (.inr p) ∧ Kept p b t := by
  induction h with
  | refl => exact ⟨hs, hpos, hb⟩
  | step _ hother he hrun hpos' ih =>
    obtain ⟨ht, htpos, htb⟩ := ih
    have hnext := ht.next_of_run he hrun
    rw [hnext] at hpos' ⊢
    exact ⟨ht.step he, hpos', htb.step ht htpos hother he⟩

/-- In every reachable state interrupts are off on a CPU with `noff > 0`, `noff` is the depth of
the thread that runs, and no step panics. A process that pushes from depth 0 has the interrupts
it had when it is back at depth 0, on whatever CPU it then runs. -/
theorem interrupts_follow_process {s : State κ ι} (h : Reachable s) :
    (∀ c, 0 < (s.cpu c).noff → (s.cpu c).intr = false) ∧
    (∀ c, (s.cpu c).noff = s.depth (s.thread c)) ∧
    (∀ o, Op.enabled s o → Runs o.run s fun _ _ => True) ∧
    ∀ c p s1 s2 s3 c', s.proc c = some p → s.depth (.inr p) = 0 →
      Op.enabled s (.push_off c) → (Op.push_off c).run s = .ok ((), s1) → Pushed p s1 s2 →
      s2.proc c' = some p → Op.enabled s2 (.pop_off c') → (Op.pop_off c').run s2 = .ok ((), s3) →
      s3.depth (.inr p) = 0 → (s3.cpu c').intr = (s.cpu c).intr := by
  have hs := h.inv
  refine ⟨hs.off, hs.noff, fun o he => hs.runs he trivial, ?_⟩
  intro c p s1 s2 s3 c' hp hzero he hpush hbetween hp' he' hpop hback
  have hfirst := hs.next_of_run he hpush
  have hs1 : Inv s1 := hfirst ▸ hs.step he
  have hpos1 : 0 < s1.depth (.inr p) := by
    rw [hfirst, ← thread_of_proc hp, next_push_depth]
    exact Nat.succ_pos _
  have hkept1 : Kept p (s.cpu c).intr s1 := by
    have hnoff : (s.cpu c).noff = 0 := by rw [hs.noff, thread_of_proc hp, hzero]
    rw [hfirst]
    refine Or.inr ⟨c, hp, he p hp, ?_⟩
    rw [next_push_cpu, Cpu.pushed, hnoff]
    rfl
  obtain ⟨hs2, hpos2, hkept2⟩ := hbetween.kept hs1 hpos1 hkept1
  have hlast := hs2.next_of_run he' hpop
  obtain hpc | ⟨c0, hc0, -, hb⟩ := hkept2
  · -- a thread in `sched` does not pop
    have hcode := he'.1 p hp'
    rw [hpc] at hcode
    cases hcode
  · rw [hs2.once c0 c' p hc0 hp'] at hb
    rw [hlast, ← thread_of_proc hp', next_pop_depth] at hback
    have hnoff : (s2.cpu c').noff = 1 := by
      rw [← thread_of_proc hp'] at hpos2
      rw [hs2.noff]
      omega
    rw [hlast, next_pop_cpu, Cpu.popped, hnoff, hb]
    rfl

def twoCpus (os : List (Op Bool Unit)) : State Bool Unit :=
  os.foldl (fun s o => o.next s)
    ⟨fun _ => ⟨0, false, true⟩, fun _ => none, fun _ => .forkret, fun t => if t.isLeft then 0 else 1⟩

/-- A process that takes its lock on one CPU, calls `sched` and releases the lock on the other. -/
theorem interrupts_follow_process_to_other_cpu :
    ((twoCpus [.push_off false, .swtch false (), .pop_off false, .push_off false, .sched false (),
      .pop_off false, .push_off true, .swtch true (), .resume true () true, .pop_off true]).cpu true).intr =
      ((twoCpus [.push_off false, .swtch false (), .pop_off false]).cpu false).intr := by
  have h0 : Reachable (twoCpus []) :=
    Reaches.init ⟨fun _ => rfl, fun _ => rfl, fun _ => rfl, fun _ => rfl, fun _ => rfl⟩
  have h1 := h0.next (o := .push_off false) (by decide)
  have h2 := h1.next (o := .swtch false ()) (by decide)
  have h3 := h2.next (o := .pop_off false) (by decide)
  have h4 := h3.next (o := .push_off false) (by decide)
  have h5 := h4.next (o := .sched false ()) (by decide)
  have h6 := h5.next (o := .pop_off false) (by decide)
  have h7 := h6.next (o := .push_off true) (by decide)
  have h8 := h7.next (o := .swtch true ()) (by decide)
  have h9 := h8.next (o := .resume true () true) (by decide)
  have hp0 := Pushed.refl (p := ())
    (twoCpus [.push_off false, .swtch false (), .pop_off false, .push_off false])
  have hp1 := hp0.step (o := .sched false ()) nofun (by decide) (h4.run (by decide)) (by decide)
  have hp2 := hp1.step (o := .pop_off false) nofun (by decide) (h5.run (by decide)) (by decide)
  have hp3 := hp2.step (o := .push_off true) nofun (by decide) (h6.run (by decide)) (by decide)
  have hp4 := hp3.step (o := .swtch true ()) nofun (by decide) (h7.run (by decide)) (by decide)
  have hp5 := hp4.step (o := .resume true () true) nofun (by decide) (h8.run (by decide)) (by decide)
  exact (interrupts_follow_process h3).2.2.2 false () _ _ _ true rfl rfl (by decide)
    (h3.run (by decide)) hp5 rfl (by decide) (h9.run (by decide)) rfl

end Xv6.Intr
