import Xv6.BootSpec
import Xv6.ExecSteps
import Xv6.UserAccess

/-! The kernel as a transition system: any process or kernel code takes the next
step, each step is run to its end, and the invariant holds after every one. -/
namespace Xv6

open Function

/-- `hold` and `drop` are kernel code that takes a page from `kalloc` and gives it
back, and `sched` is the scheduler with `sleep` and `wakeup`. -/
inductive Op
  | hold
  | drop (pa : Nat)
  | sbrk (p : Nat) (n : Int)
  | fork (p : Nat)
  | load (p va : Nat)
  | store (p va : Nat) (b : UInt8)
  | copyout (p dstva : Nat) (src : List UInt8)
  | exec (p : Nat) (namei : List UInt8 → Option (List UInt8)) (path uargv : Nat)
  | exit (p : Nat) (status : Int)
  | wait (p addr : Nat)
  | kill (pid : Nat)
  | sched (p : Nat) (state : ProcState)
  | pipealloc (files : Bool)
  | pipeclose (i : Nat) (writable : Bool)

def Kernel.active (k : Kernel) (p : Nat) : Prop := p ∈ procs ∧ (k.proc p).alive

def Op.enabled (k : Kernel) : Op → Prop
  | .drop pa => pa ∈ k.held
  | .sched p state => k.active p ∧ state ≠ .UNUSED ∧ state ≠ .ZOMBIE
  | .sbrk p _ | .fork p | .load p _ | .store p _ _ | .copyout p _ _ | .exec p _ _ _ | .exit p _
  | .wait p _ => k.active p
  | .hold | .kill _ | .pipealloc _ | .pipeclose _ _ => True

section
variable [Layout]

def Op.run : Op → Prog Kernel Int
  | .hold => do
    let _ ← holdPage
    pure 0
  | .drop pa => do
    dropPage pa
    pure 0
  | .sbrk p n => growproc p n
  | .fork p => Xv6.fork p
  | .load p va => do
    userLoad p va
    pure 0
  | .store p va b => do
    userStore p va b
    pure 0
  | .copyout p dstva src => copyoutTo p dstva src
  | .exec p namei path uargv => sys_exec namei p path uargv
  | .exit p status => do
    Xv6.exit p status
    pure 0
  | .wait p addr => do
    let r ← Xv6.wait p addr
    pure (r.getD (-1))
  | .kill pid => Xv6.kill pid
  | .sched p state => do
    setProc p fun x => { x with state := state }
    pure 0
  | .pipealloc files => Xv6.pipealloc files
  | .pipeclose i writable => do
    Xv6.pipeclose i writable
    pure 0

/-- The states of the kernel from boot on. -/
inductive Reachable : Kernel → Prop
  | boot {mem : Nat → Bytes} {k : Kernel} : boot (powerOn mem) = .ok ((), k) → Reachable k
  | step {k k' : Kernel} {op : Op} {r : Int} : Reachable k → op.enabled k →
      op.run k = .ok (r, k') → Reachable k'

/-- What each step does, from the specification of its code. -/
def Op.Effect (k : Kernel) : Op → Int → Kernel → Prop
  | .hold, _, k' | .drop _, _, k' | .pipealloc _, _, k' | .pipeclose _ _, _, k' => KernelStep k k'
  | .sbrk p n, r, k' =>
    (r = 0 ∧ k'.proc p = { k.proc p with sz := growSize (k.proc p).sz n } ∧
      StepOf k k' p ((k.umem p).resize (npages (k.proc p).sz)
        (npages (growSize (k.proc p).sz n)))) ∨
    (r = -1 ∧ k'.proc p = k.proc p ∧ StepOf k k' p (k.umem p))
  | .fork p, r, k' => Inv k' ∧ k'.initproc = k.initproc ∧
    (r = -1 ∧ Unnoticed k k' ∨ 0 ≤ r ∧ ∃ np, Forked k k' p np)
  | .load p va, _, k' => k' = k ∨ Trapped k k' p va
  | .store p va b, _, k' => Stored k k' p va b ∨ StoreFault k k' p va b
  | .copyout p dstva src, r, k' => Written k k' p dstva src r
  | .exec p namei path uargv, r, k' =>
    (r = -1 ∧ k'.proc p = k.proc p ∧ StepOf k k' p (k.umem p)) ∨
    (0 ≤ r ∧ ∃ bytes pt, namei ((k.umem p).copyinstr path MAXPATH).2 = some bytes ∧ pt ≠ 0 ∧
      k'.proc p = { k.proc p with
        pagetable := pt
        sz := (execImage bytes ((k.umem p).execArgs (k.proc p).sz uargv)).2 } ∧
      StepOf k k' p (execImage bytes ((k.umem p).execArgs (k.proc p).sz uargv)).1)
  | .exit p status, _, k' => Exited k k' p status
  | .wait p addr, _, k' => ∃ r, Waited k k' p addr r
  | .kill _, _, k' => Signalled k k'
  | .sched p state, _, k' => StepOf k k' p (k.umem p) ∧
    k'.proc p = { k.proc p with state := state }

end

variable [Layout]

section Steps
variable {k k' : Kernel} {p : Nat}

omit [Layout] in
theorem Settled.pagetable_ne (hs : Settled k) (ha : k.active p) : (k.proc p).pagetable ≠ 0 :=
  fun hz => ha.2.1 ((hs p ha.1).mpr hz)

theorem sched_spec (h : Inv k) (p : Nat) (state : ProcState) :
    Runs (setProc p fun x => { x with state := state }) k fun _ k' =>
      StepOf k k' p (k.umem p) ∧ k'.proc p = { k.proc p with state := state } := by
  rw [runs_setProc]
  set k' : Kernel := { k with proc := update k.proc p { k.proc p with state := state } }
  have hproc (q : Nat) (hq : q ≠ p) : k'.proc q = k.proc q := update_of_ne hq _ _
  have hself : k'.proc p = { k.proc p with state := state } := update_self _ _ _
  obtain ⟨hi, hu⟩ := h.congr k' rfl ⟨rfl, rfl, rfl, rfl⟩ fun q => by
    by_cases hq : q = p
    · subst hq
      rw [hself]
      exact ⟨rfl, rfl, rfl⟩
    · rw [hproc q hq]
      exact ⟨rfl, rfl, rfl⟩
  exact ⟨⟨hi, rfl, hproc, hu p, fun q _ _ => hu q⟩, hself⟩

omit [Layout] in
theorem ends_then {α : Type} {x : Prog Kernel α} {f : α → Int} {Q : Int → Kernel → Prop}
    (h : Ends x k fun a k' => Q (f a) k') : Ends (do let a ← x; pure (f a)) k Q :=
  ends_bind (h.imp fun _ _ hq => ends_pure hq)

theorem Op.run_ends (h : Inv k) (hs : Settled k) {op : Op} (he : op.enabled k) :
    Ends op.run k (op.Effect k) := by
  cases op with
  | hold => exact ends_then ((holdPage_spec h).ends.imp fun _ _ hk => hk.1)
  | drop pa => exact ends_then ((dropPage_spec h he).ends.imp fun _ _ hk => hk.1)
  | sbrk p n =>
    refine (growproc_spec h he.1 (hs.pagetable_ne he) n).ends.imp ?_
    rintro r k' (hk | ⟨hr, -, hproc, hstep, -⟩)
    · exact Or.inl hk
    · exact Or.inr ⟨hr, hproc, hstep⟩
  | fork p =>
    refine (fork_spec h hs he.1 (hs.pagetable_ne he)).ends.imp ?_
    rintro r k' ⟨hi, -, hinit, ⟨hr, hk, -⟩ | ⟨hr, hk, -⟩⟩
    · exact ⟨hi, hinit, Or.inl ⟨hr, hk.toUnnoticed⟩⟩
    · exact ⟨hi, hinit, Or.inr ⟨hr, hk⟩⟩
  | load p va =>
    exact ends_then ((userLoad_ends h he.1 (hs.pagetable_ne he)).imp fun _ _ hk =>
      hk.imp_right And.left)
  | store p va b => exact ends_then (userStore_ends h he.1 (hs.pagetable_ne he) b)
  | copyout p dstva src => exact copyoutTo_ends h he.1 (hs.pagetable_ne he)
  | exec p namei path uargv =>
    refine (sys_exec_spec h he.1 (hs.pagetable_ne he) namei path uargv).ends.imp ?_
    rintro r k' (⟨hr, hf⟩ | ⟨bytes, hfile, hd⟩)
    · exact Or.inl ⟨hr, hf.proc, hf.step⟩
    · exact Or.inr ⟨by rw [hd.argc]; omega, bytes, _, hfile, hd.pagetable, hd.proc, hd.step⟩
  | exit p status => exact ends_then (exit_ends h status)
  | wait p addr => exact ends_then ((wait_ends h hs he.1 he.2 addr).imp fun r _ hk => ⟨r, hk⟩)
  | kill pid => exact (kill_spec h pid).ends
  | sched p state => exact ends_then (sched_spec h p state).ends
  | pipealloc files => exact (pipealloc_spec h files).ends
  | pipeclose i writable => exact ends_then (pipeclose_spec h i writable).ends

end Steps

section Preserved
variable {k k' : Kernel} {p : Nat}

theorem Settled.of_step {m : UserMem} (hs : Settled k) (h : StepOf k k' p m)
    (hp : (k'.proc p).state = .UNUSED ↔ (k'.proc p).pagetable = 0) : Settled k' := by
  intro q hq
  by_cases hqp : q = p
  · subst hqp
    exact hp
  · rw [h.proc q hqp]
    exact hs q hq

theorem Faulted.settled {v : Nat} (h : Faulted k k' p v) (hs : Settled k) (hp : p ∈ procs) :
    Settled k' := by
  apply hs.of_step h.step
  rw [h.proc]
  exact hs p hp

theorem Exited.settled {status : Int} (h : Exited k k' p status) (hs : Settled k)
    (ha : k.active p) : Settled k' := by
  intro q hq
  rw [h.proc q]
  by_cases hqp : q = p
  · subst hqp
    simp only [if_true]
    exact iff_of_false ProcState.noConfusion (hs.pagetable_ne ha)
  · simp only [if_neg hqp]
    exact hs q hq

theorem Faulted.active {v : Nat} (h : Faulted k k' p v) (ha : k.active p) : k'.active p := by
  refine ⟨ha.1, ?_⟩
  rw [h.proc]
  exact ha.2

theorem Trapped.preserved {va : Nat} (h : Trapped k k' p va) (hs : Settled k) (ha : k.active p) :
    Inv k' ∧ Settled k' := by
  obtain ⟨k1, h1, ⟨-, rfl⟩ | ⟨-, hex⟩⟩ := h
  · exact ⟨h1.step.inv, h1.settled hs ha.1⟩
  · exact ⟨hex.inv, hex.settled (h1.settled hs ha.1) (h1.active ha)⟩

theorem Stored.preserved {va : Nat} {b : UInt8} (h : Stored k k' p va b) (hs : Settled k) :
    Inv k' ∧ Settled k' := by
  obtain ⟨-, hst, hproc⟩ := h
  exact ⟨hst.inv, by unfold Settled; rw [hproc]; exact hs⟩

theorem StoreFault.preserved {va : Nat} {b : UInt8} (h : StoreFault k k' p va b) (hs : Settled k)
    (ha : k.active p) : Inv k' ∧ Settled k' := by
  obtain ⟨-, -, k1, h1, ⟨-, hex⟩ | ⟨-, hst⟩ | ⟨-, rfl, -⟩⟩ := h
  · exact ⟨hex.inv, hex.settled (h1.settled hs ha.1) (h1.active ha)⟩
  · exact hst.preserved (h1.settled hs ha.1)
  · exact ⟨h1.step.inv, h1.settled hs ha.1⟩

theorem Freed.settled (h : Freed k k' p) (hs : Settled k) : Settled k' := by
  intro q hq
  by_cases hqp : q = p
  · subst hqp
    exact iff_of_true h.idle.state h.idle.pagetable
  · rw [h.proc q hqp]
    exact hs q hq

theorem Waited.preserved {addr : Nat} {r : Option Int} (h : Waited k k' p addr r) (hi : Inv k)
    (hs : Settled k) : Inv k' ∧ Settled k' := by
  unfold Waited at h
  cases hf : k.zombieOf p with
  | none =>
    rw [hf] at h
    rw [h.1]
    exact ⟨hi, hs⟩
  | some np =>
    rw [hf] at h
    obtain ⟨k1, r1, h1, h2⟩ := h
    have hk1 : Inv k1 ∧ Settled k1 := by
      rcases h1 with ⟨-, rfl, -⟩ | ⟨-, hw⟩
      · exact ⟨hi, hs⟩
      · exact ⟨hw.inv, by unfold Settled; rw [hw.proc]; exact hs⟩
    rcases h2 with ⟨-, rfl, -⟩ | ⟨-, hfr, -⟩
    · exact hk1
    · exact ⟨hfr.inv, hfr.settled hk1.2⟩

theorem Op.Effect.preserved {op : Op} {r : Int} (h : op.Effect k r k') (hi : Inv k)
    (hs : Settled k) (he : op.enabled k) : Inv k' ∧ Settled k' := by
  have hker (h : KernelStep k k') : Inv k' ∧ Settled k' :=
    ⟨h.inv, by unfold Settled; rw [h.proc]; exact hs⟩
  cases op with
  | hold => exact hker h
  | drop pa => exact hker h
  | pipealloc files => exact hker h
  | pipeclose i writable => exact hker h
  | sbrk p n =>
    rcases h with ⟨-, hproc, hst⟩ | ⟨-, hproc, hst⟩
    · exact ⟨hst.inv, hs.of_step hst (by rw [hproc]; exact hs p he.1)⟩
    · exact ⟨hst.inv, hs.of_step hst (by rw [hproc]; exact hs p he.1)⟩
  | fork p =>
    obtain ⟨hinv, -, ⟨-, hun⟩ | ⟨-, np, hf⟩⟩ := h
    · refine ⟨hinv, fun q hq => ?_⟩
      rcases hun.proc q with heq | ⟨-, hidle⟩
      · rw [heq]
        exact hs q hq
      · exact iff_of_true hidle.state hidle.pagetable
    · refine ⟨hinv, fun q hq => ?_⟩
      by_cases hqn : q = np
      · subst hqn
        exact iff_of_false (by rw [hf.state]; exact ProcState.noConfusion) hf.pagetable
      · rw [hf.proc q hqn]
        exact hs q hq
  | load p va =>
    rcases h with rfl | h
    · exact ⟨hi, hs⟩
    · exact h.preserved hs he
  | store p va b =>
    rcases h with h | h
    · exact h.preserved hs
    · exact h.preserved hs he
  | copyout p dstva src => exact ⟨h.inv, by unfold Settled; rw [h.proc]; exact hs⟩
  | exec p namei path uargv =>
    rcases h with ⟨-, hproc, hst⟩ | ⟨-, bytes, pt, -, hpt, hproc, hst⟩
    · exact ⟨hst.inv, hs.of_step hst (by rw [hproc]; exact hs p he.1)⟩
    · refine ⟨hst.inv, hs.of_step hst ?_⟩
      rw [hproc]
      exact iff_of_false he.2.1 hpt
  | exit p status => exact ⟨h.inv, h.settled hs he⟩
  | wait p addr =>
    obtain ⟨_, h⟩ := h
    exact h.preserved hi hs
  | kill pid =>
    refine ⟨h.inv, fun q hq => ?_⟩
    rcases h.proc q with heq | heq
    · rw [heq]
      exact hs q hq
    · rw [heq, ← hs q hq]
      dsimp only
      split_ifs with hsl
      · simp [hsl]
      · rfl
  | sched p state =>
    refine ⟨h.1.inv, hs.of_step h.1 ?_⟩
    rw [h.2]
    exact iff_of_false he.2.1 (hs.pagetable_ne he.1)

theorem Reachable.inv (h : Reachable k) : Inv k ∧ Settled k := by
  induction h with
  | boot hb =>
    have hk := (boot_spec _).of_eq hb
    exact ⟨hk.inv, hk.settled⟩
  | step _ he hrun ih => exact ((Op.run_ends ih.1 ih.2 he) _ _ hrun).preserved ih.1 ih.2 he

/-- A step of the kernel on its own pages leaves the process with its page table. -/
theorem KernelStep.pagetable_ne {k0 k : Kernel} {p : Nat} (hk : KernelStep k0 k)
    (h : Reachable k0) (ha : k.active p) : (k.proc p).pagetable ≠ 0 := by
  have hs := h.inv.2
  unfold Kernel.active at ha
  rw [hk.proc] at ha ⊢
  exact hs.pagetable_ne ha

end Preserved

section FromBoot
variable {k : Kernel}

theorem Booted.active (h : Booted k) : k.active k.initproc := by
  refine ⟨h.init, ?_, ?_⟩
  · rw [h.state]
    exact ProcState.noConfusion
  · rw [h.state]
    exact ProcState.noConfusion

theorem Booted.unused (h : Booted k) : ∃ q ∈ procs, (k.proc q).state = .UNUSED := by
  obtain ⟨q, hq, hne⟩ : ∃ q ∈ procs, q ≠ k.initproc := by
    by_cases h0 : k.initproc = 0
    · exact ⟨1, mem_procs.mpr (by decide), by omega⟩
    · exact ⟨0, mem_procs.mpr (by decide), by omega⟩
  exact ⟨q, hq, by rw [h.others q hne]; rfl⟩

theorem Booted.fork (h : Booted k) : ∃ r k' np, Op.run (.fork k.initproc) k = .ok (r, k') ∧
    k'.initproc = k.initproc ∧ Forked k k' k.initproc np ∧ 500 ≤ k'.phys.freelist.length := by
  obtain ⟨r, k', hrun, -, -, hinit, hcase⟩ :=
    fork_spec h.inv h.settled h.init (h.settled.pagetable_ne h.active)
  have hfree := h.free
  have hone : npages PGSIZE = 1 := by decide
  rcases hcase with ⟨-, -, hfull | hfew⟩ | ⟨-, ⟨np, hf⟩, hused⟩
  · obtain ⟨q, hq, hun⟩ := h.unused
    exact absurd hun (hfull q hq)
  · exfalso
    rw [h.sz, hone] at hfew
    omega
  · rw [h.sz, hone] at hused
    exact ⟨r, k', np, hrun, hinit, hf, by omega⟩

omit [Layout] in
theorem Forked.ne {k' : Kernel} {p np : Nat} (h : Forked k k' p np) (ha : k.active p) : np ≠ p := by
  rintro rfl
  exact ha.2.1 h.idle.state

omit [Layout] in
theorem Forked.active {k' : Kernel} {p np : Nat} (h : Forked k k' p np) : k'.active np := by
  refine ⟨h.mem, ?_, ?_⟩
  · rw [h.state]
    exact ProcState.noConfusion
  · rw [h.state]
    exact ProcState.noConfusion

/-- Kernel code can take all pages but `m`. -/
theorem Reachable.exhaust (m n : Nat) : ∀ {k : Kernel}, Reachable k →
    k.phys.freelist.length = n + m →
    ∃ k', Reachable k' ∧ KernelStep k k' ∧ k'.phys.freelist.length = m := by
  induction n with
  | zero =>
    intro k h hn
    exact ⟨k, h, KernelStep.refl h.inv.1, by omega⟩
  | succ n ih =>
    intro k h hn
    obtain ⟨r, k1, hrun, hstep, -, hr⟩ := holdPage_spec h.inv.1
    have hreach : Reachable k1 := by
      have he : Op.enabled k .hold := trivial
      refine Reachable.step (r := 0) h he ?_
      change (holdPage k >>= fun x => pure (0, x.2)) = _
      rw [hrun]
      rfl
    cases r with
    | none =>
      rw [hr.2, List.length_nil] at hn
      omega
    | some pa =>
      rw [hr.1, List.length_cons] at hn
      obtain ⟨k', hk', hst, hfree⟩ := ih hreach (by omega)
      exact ⟨k', hk', hstep.trans hst, hfree⟩

/-- Two processes that share their only page. -/
structure Sharers (k : Kernel) (p q : Nat) : Prop where
  reach : Reachable k
  left : k.active p
  right : k.active q
  ne : p ≠ q
  sz : (k.proc p).sz = PGSIZE ∧ (k.proc q).sz = PGSIZE
  mem : k.umem p = initMem ∧ k.umem q = initMem
  same : PTE2PA (k.map p 0) = PTE2PA (k.map q 0)

section Sharers
variable {k k' : Kernel} {p q : Nat}

theorem Sharers.symm (h : Sharers k p q) : Sharers k q p :=
  ⟨h.reach, h.right, h.left, h.ne.symm, h.sz.symm, h.mem.symm, h.same.symm⟩

theorem Sharers.pagetable (h : Sharers k p q) : (k.proc p).pagetable ≠ 0 :=
  h.reach.inv.2.pagetable_ne h.left

theorem Sharers.npages (h : Sharers k p q) : npages (k.proc p).sz = 1 := by
  rw [h.sz.1]
  decide

theorem Sharers.user (h : Sharers k p q) : (k.umem p).user 0 = true ∧
    (k.map p 0).has PTE_U = true := by
  have hu : (k.umem p).user 0 = true := by
    rw [h.mem.1]
    decide
  refine ⟨hu, ?_⟩
  simp only [Kernel.umem, userMem, Bool.and_eq_true] at hu
  exact hu.2

theorem Sharers.shared (h : Sharers k p q) : PTE2PA (k.map p 0) ∈ k.mappedBeside [p] := by
  rw [h.same]
  exact mem_mappedBeside h.right.1 h.ne.symm h.symm.pagetable (by rw [h.symm.npages]; decide)

theorem Sharers.step (h : Sharers k p q) (hr : Reachable k') (hst : KernelStep k k') :
    Sharers k' p q := by
  refine ⟨hr, ?_, ?_, h.ne, by rw [hst.proc]; exact h.sz, ?_, ?_⟩
  · unfold Kernel.active
    rw [hst.proc]
    exact h.left
  · unfold Kernel.active
    rw [hst.proc]
    exact h.right
  · rw [hst.mem p h.left.1, hst.mem q h.right.1]
    exact h.mem
  · rw [hst.map p h.left.1 h.pagetable, hst.map q h.right.1 h.symm.pagetable]
    exact h.same

end Sharers

omit [Layout] in
/-- The first process and its child. -/
theorem exists_sharers : ∃ (_ : Layout) (k : Kernel) (q : Nat), Sharers k k.initproc q ∧
    500 ≤ k.phys.freelist.length := by
  let _ := sampleLayout
  obtain ⟨k0, hb, hk0⟩ := exists_booted
  obtain ⟨r, k, np, hrun, hinit, hf, hfree⟩ := hk0.fork
  have he : Op.enabled k0 (.fork k0.initproc) := hk0.active
  have hne : np ≠ k0.initproc := hf.ne hk0.active
  have hproc := hf.proc k0.initproc hne.symm
  refine ⟨sampleLayout, k, np, ?_, hfree⟩
  rw [hinit]
  refine ⟨(Reachable.boot hb).step he hrun, ?_, hf.active, hne.symm, ?_, ?_,
    (hf.shared 0 (by rw [hk0.sz]; decide)).symm⟩
  · unfold Kernel.active
    rw [hproc]
    exact hk0.active
  · rw [hproc, hf.sz]
    exact ⟨hk0.sz, hk0.sz⟩
  · rw [hf.others _ hk0.init hne.symm, hf.child]
    exact ⟨hk0.mem, hk0.mem⟩

end FromBoot

end Xv6
