import Mathlib.Data.List.Find
import Xv6.System

/-! The kernel refines a system in which every process has memory of its own:
`fork` copies all of it at once, and a store to a page of the process just
happens. -/
namespace Xv6

open Function

structure RefProc where
  state : ProcState
  parent : Option Nat
  xstate : Int
  sz : Nat
  mem : UserMem

def RefProc.unused : RefProc := ⟨.UNUSED, none, 0, 0, UserMem.empty⟩

structure Ref where
  proc : Nat → RefProc
  initproc : Nat

def Ref.put (R : Ref) (p : Nat) (x : RefProc) : Ref := { R with proc := update R.proc p x }

def Ref.setMem (R : Ref) (p : Nat) (m : UserMem) : Ref := R.put p { R.proc p with mem := m }

def Ref.boot (init : Nat) : Ref where
  proc := update (fun _ => RefProc.unused) init ⟨.RUNNABLE, none, 0, PGSIZE, initMem⟩
  initproc := init

def Ref.fork (R : Ref) (p : Nat) : Ref :=
  match procs.find? fun q => (R.proc q).state = .UNUSED with
  | none => R
  | some np => R.put np ⟨.RUNNABLE, some p, 0, (R.proc p).sz, (R.proc p).mem⟩

def Ref.exec (R : Ref) (p : Nat) (namei : List UInt8 → Option (List UInt8)) (path uargv : Nat) :
    Ref :=
  match namei ((R.proc p).mem.copyinstr path MAXPATH).2 with
  | none => R
  | some bytes =>
    let im := execImage bytes ((R.proc p).mem.execArgs (R.proc p).sz uargv)
    R.put p { R.proc p with sz := im.2, mem := im.1 }

def Ref.exit (R : Ref) (p : Nat) (status : Int) : Ref where
  proc q := { R.proc q with
    parent := if (R.proc q).parent = some p then some R.initproc else (R.proc q).parent
    xstate := if q = p then status else (R.proc q).xstate
    state := if q = p then .ZOMBIE else (R.proc q).state }
  initproc := R.initproc

def Ref.zombieOf (R : Ref) (p : Nat) : Option Nat :=
  procs.find? fun np => (R.proc np).parent = some p ∧ (R.proc np).state = .ZOMBIE

def Ref.wait (R : Ref) (p addr : Nat) : Ref :=
  match R.zombieOf p with
  | none => R
  | some np =>
    if addr = 0 then R.put np RefProc.unused else
    let res := (R.proc p).mem.copyout addr (intBytes (R.proc np).xstate)
    if res.1 < 0 then R.setMem p res.2 else (R.setMem p res.2).put np RefProc.unused

/-- The step of the reference system for a step that has returned `r`: whether
`fork`, `sbrk` and `exec` find the memory they need is not decided here. -/
def Ref.step (R : Ref) : Op → Int → Ref
  | .sbrk p n, r =>
    if r < 0 then R else
    let sz := growSize (R.proc p).sz n
    R.put p { R.proc p with
      sz := sz, mem := (R.proc p).mem.resize (npages (R.proc p).sz) (npages sz) }
  | .fork p, r => if r < 0 then R else R.fork p
  | .store p va b, _ => R.setMem p ((R.proc p).mem.store va b)
  | .copyout p dstva src, _ => R.setMem p ((R.proc p).mem.copyout dstva src).2
  | .exec p namei path uargv, r => if r < 0 then R else R.exec p namei path uargv
  | .exit p status, _ => R.exit p status
  | .wait p addr, _ => R.wait p addr
  | .sched p state, _ => R.put p { R.proc p with state := state }
  | .load _ _, _ | .kill _, _ | .hold, _ | .drop _, _ | .pipealloc _, _ | .pipeclose _ _, _ => R

def Ref.run (R : Ref) (trace : List (Op × Int)) : Ref :=
  trace.foldl (fun R s => R.step s.1 s.2) R

/-- The pages that `copyout` has to copy before it writes can be allocated. -/
def Op.room (k : Kernel) : Op → Prop
  | .copyout p dstva src => k.cowNeed p dstva src.length ≤ k.phys.freelist.length
  | .wait p addr => addr ≠ 0 → (k.zombieOf p).isSome = true →
      k.cowNeed p addr 4 ≤ k.phys.freelist.length
  | _ => True

def Calm (k : Kernel) (op : Op) (k' : Kernel) : Prop :=
  op.room k ∧ ∀ q ∈ procs, (k'.proc q).state ≠ .UNUSED → (k'.proc q).killed = false

/-- A slot and its counterpart. The fields of an unused slot do not matter. -/
structure SimProc (x : RefProc) (y : Proc) (m : UserMem) : Prop where
  state : x.state = y.state
  parent : y.state ≠ .UNUSED → x.parent = y.parent
  xstate : y.state = .ZOMBIE → x.xstate = y.xstate
  sz : x.sz = y.sz
  mem : x.mem = m

structure Sim (k : Kernel) (R : Ref) : Prop where
  initproc : R.initproc = k.initproc
  slot : ∀ p ∈ procs, SimProc (R.proc p) (k.proc p) (k.umem p)

section Slots
variable {k k' : Kernel} {R : Ref} {p : Nat} {x : RefProc} {y : Proc} {m : UserMem}

theorem SimProc.congr {y' : Proc} (h : SimProc x y m) (hs : y'.state = y.state)
    (hp : y'.parent = y.parent) (hx : y'.xstate = y.xstate) (hz : y'.sz = y.sz) :
    SimProc x y' m := by
  refine ⟨by rw [hs, h.state], ?_, ?_, by rw [hz, h.sz], h.mem⟩
  · rw [hs, hp]
    exact h.parent
  · rw [hs, hx]
    exact h.xstate

theorem umem_idle (h : Idle (k.proc p)) : k.umem p = UserMem.empty := by
  unfold Kernel.umem
  rw [h.sz, show npages 0 = 0 by decide, userMem_empty]

theorem SimProc.idle (h : Idle (k.proc p)) : SimProc RefProc.unused (k.proc p) (k.umem p) := by
  rw [umem_idle h]
  exact ⟨h.state.symm, fun hn => absurd h.state hn,
    fun hz => (by rw [h.state] at hz; cases hz), h.sz.symm, rfl⟩

@[simp] theorem Ref.put_self (R : Ref) (p : Nat) (x : RefProc) : (R.put p x).proc p = x :=
  update_self _ _ _

theorem Ref.put_of_ne (R : Ref) {p q : Nat} (x : RefProc) (h : q ≠ p) :
    (R.put p x).proc q = R.proc q := update_of_ne h _ _

variable [Layout]

theorem Sim.put (h : Sim k R) (hst : StepOf k k' p m) (hx : SimProc x (k'.proc p) m) :
    Sim k' (R.put p x) := by
  refine ⟨h.initproc.trans hst.initproc.symm, fun q hq => ?_⟩
  by_cases hqp : q = p
  · subst hqp
    rw [Ref.put_self, hst.mem]
    exact hx
  · rw [Ref.put_of_ne R x hqp, hst.proc q hqp, hst.others q hq hqp]
    exact h.slot q hq

theorem Sim.stay (h : Sim k R) (hst : StepOf k k' p (k.umem p))
    (hx : SimProc (R.proc p) (k'.proc p) (k.umem p)) : Sim k' R := by
  have hs := h.put hst hx
  unfold Ref.put at hs
  rwa [update_eq_self] at hs

theorem Sim.faulted {v : Nat} (h : Sim k R) (hp : p ∈ procs) (hf : Faulted k k' p v) : Sim k' R := by
  apply h.stay hf.step
  rw [hf.proc]
  exact (h.slot p hp).congr rfl rfl rfl rfl

omit [Layout] in
theorem Sim.find_unused (h : Sim k R) : procs.find? (fun q => (R.proc q).state = .UNUSED) =
    procs.find? fun q => (k.proc q).state = .UNUSED := by
  apply List.find?_congr
  intro q hq
  rw [(h.slot q hq).state]

omit [Layout] in
theorem Sim.zombieOf (h : Sim k R) (p : Nat) : R.zombieOf p = k.zombieOf p := by
  apply List.find?_congr
  intro q hq
  have hq' := h.slot q hq
  by_cases hz : (k.proc q).state = .ZOMBIE
  · rw [hq'.state, hq'.parent (by rw [hz]; exact ProcState.noConfusion)]
  · rw [hq'.state]
    simp [hz]

theorem Sim.freed (h : Sim k R) (hf : Freed k k' p) : Sim k' (R.put p RefProc.unused) := by
  refine ⟨h.initproc.trans hf.initproc.symm, fun q hq => ?_⟩
  by_cases hqp : q = p
  · subst hqp
    rw [Ref.put_self]
    exact SimProc.idle hf.idle
  · rw [Ref.put_of_ne R _ hqp, hf.proc q hqp, hf.others q hq hqp]
    exact h.slot q hq

theorem Sim.written {dstva : Nat} {src : List UInt8} {r : Int} (h : Sim k R) (hi : Inv k)
    (hp : p ∈ procs) (hw : Written k k' p dstva src r)
    (hroom : k.cowNeed p dstva src.length ≤ k.phys.freelist.length) :
    Sim k' (R.setMem p ((R.proc p).mem.copyout dstva src).2) := by
  have hpm := (h.slot p hp).mem
  have hst : StepOf k k' p ((k.umem p).copyout dstva src).2 :=
    ⟨hw.inv, hw.initproc, fun q _ => by rw [hw.proc], hw.mem,
      fun q hq hqp => hw.others hi hroom hq hqp⟩
  refine h.put hst ?_
  rw [hw.proc, hpm]
  obtain ⟨h1, h2, h3, h4, -⟩ := h.slot p hp
  exact ⟨h1, h2, h3, h4, rfl⟩

end Slots

section Steps
variable [Layout] {k k' : Kernel} {R : Ref} {p : Nat}

/-- A store that is neither done nor fatal is to a page that is not the user's. -/
theorem StoreFault.outside {k1 : Kernel} {va : Nat} (hi : Inv k) (hp : p ∈ procs)
    (hpt : (k.proc p).pagetable ≠ 0) (hno : (k.entry p va).permits .store = false)
    (hf : Faulted k k1 p (va/PGSIZE)) (halive : (k1.proc p).killed = false)
    (hno1 : (k1.entry p va).permits .store = false) :
    ¬ (k.umem p).userByte va := by
  rintro ⟨hva, hu⟩
  have hpt1 : (k1.proc p).pagetable ≠ 0 := by
    rw [hf.proc]
    exact hpt
  have hn : va/PGSIZE < npages (k.proc p).sz := by
    have hu' := hu
    simp only [Kernel.umem, userMem, Bool.and_eq_true, decide_eq_true_eq] at hu'
    exact hu'.1
  have hW : (k.map p (va/PGSIZE)).has PTE_W = false := by
    by_contra hc
    rw [(permits_iff hi hp hpt va .store).mpr ⟨⟨hva, hu⟩, fun _ => by simpa using hc⟩] at hno
    cases hno
  have hcow : k.cowPage p (va/PGSIZE) := by
    refine ⟨hn, ?_⟩
    rw [(((hi.space p hp).map hpt).user _ hn).cow, hW]
    rfl
  have hns : ¬ k.stuck p (va/PGSIZE) := fun hst => by
    rw [hf.proc] at halive
    simp [hcow, hst] at halive
  have hW1 := hf.writable hcow hns
  have hu1 : (k1.umem p).user (va/PGSIZE) = true := by
    rw [hf.step.mem]
    exact hu
  rw [(permits_iff hf.step.inv hp hpt1 va .store).mpr ⟨⟨hva, hu1⟩, fun _ => hW1⟩] at hno1
  cases hno1

theorem Exited.not_calm {k1 : Kernel} {status : Int} (h : Exited k1 k' p status) (hp : p ∈ procs)
    (hk : (k1.proc p).killed = true)
    (hc : ∀ q ∈ procs, (k'.proc q).state ≠ .UNUSED → (k'.proc q).killed = false) : False := by
  have hpp := h.proc p
  have hst : (k'.proc p).state ≠ .UNUSED := by
    rw [hpp]
    simp
  have hkd := hc p hp hst
  rw [hpp] at hkd
  rw [show (k1.proc p).killed = false from hkd] at hk
  cases hk

theorem Sim.stored {va : Nat} {b : UInt8} (h : Sim k R) (hp : p ∈ procs)
    (hs : Stored k k' p va b) : Sim k' (R.setMem p ((R.proc p).mem.store va b)) := by
  obtain ⟨-, hst, hproc⟩ := hs
  refine h.put hst ?_
  rw [hproc, (h.slot p hp).mem]
  obtain ⟨h1, h2, h3, h4, -⟩ := h.slot p hp
  exact ⟨h1, h2, h3, h4, rfl⟩

theorem Sim.store {va : Nat} {b : UInt8} (h : Sim k R) (hi : Inv k) (hs : Settled k)
    (ha : k.active p) (he : Stored k k' p va b ∨ StoreFault k k' p va b)
    (hc : ∀ q ∈ procs, (k'.proc q).state ≠ .UNUSED → (k'.proc q).killed = false) :
    Sim k' (R.setMem p ((R.proc p).mem.store va b)) := by
  rcases he with he | ⟨hno, -, k1, hf, ⟨hk, hex⟩ | ⟨-, hst⟩ | ⟨hk, rfl, hno1⟩⟩
  · exact h.stored ha.1 he
  · exact (hex.not_calm ha.1 hk hc).elim
  · exact (h.faulted ha.1 hf).stored ha.1 hst
  · have hout := StoreFault.outside hi ha.1 (hs.pagetable_ne ha) hno hf hk (hno1 ha.2)
    have hsame : (R.proc p).mem.store va b = (R.proc p).mem := by
      rw [(h.slot p ha.1).mem, UserMem.store, if_neg hout]
    rw [hsame]
    unfold Ref.setMem Ref.put
    rw [update_eq_self]
    exact h.faulted ha.1 hf

theorem Sim.fork {r : Int} (h : Sim k R) (hp : p ∈ procs) (he : Op.Effect k (.fork p) r k') :
    Sim k' (R.step (.fork p) r) := by
  obtain ⟨-, hinit, ⟨rfl, hun⟩ | ⟨hr, np, hf⟩⟩ := he
  · refine ⟨h.initproc.trans hinit.symm, fun q hq => ?_⟩
    rw [hun.mem q hq]
    change SimProc (R.proc q) _ _
    rcases hun.proc q with heq | ⟨h1, h2⟩
    · rw [heq]
      exact h.slot q hq
    · obtain ⟨g1, g2, g3, g4, g5⟩ := h.slot q hq
      exact ⟨by rw [g1, h1.state, h2.state], fun hn => absurd h2.state hn,
        fun hz => (by rw [h2.state] at hz; cases hz), by rw [g4, h1.sz, h2.sz], g5⟩
  · have hstep : R.step (.fork p) r =
        R.put np ⟨.RUNNABLE, some p, 0, (R.proc p).sz, (R.proc p).mem⟩ := by
      rw [Ref.step, if_neg (by omega), Ref.fork, h.find_unused, hf.first]
    rw [hstep]
    refine ⟨h.initproc.trans hinit.symm, fun q hq => ?_⟩
    by_cases hqn : q = np
    · subst hqn
      rw [Ref.put_self, hf.child]
      obtain ⟨-, -, -, g4, g5⟩ := h.slot p hp
      exact ⟨hf.state.symm, fun _ => hf.parent.symm,
        fun hz => (by rw [hf.state] at hz; cases hz), by rw [hf.sz, g4], g5⟩
    · rw [Ref.put_of_ne R _ hqn, hf.proc q hqn, hf.others q hq hqn]
      exact h.slot q hq

theorem Sim.exited {status : Int} (h : Sim k R) (ha : k.active p) (he : Exited k k' p status) :
    Sim k' (R.exit p status) := by
  refine ⟨h.initproc.trans he.initproc.symm, fun q hq => ?_⟩
  obtain ⟨g1, g2, g3, g4, g5⟩ := h.slot q hq
  rw [he.proc q, he.mem q]
  by_cases hqp : q = p
  · subst hqp
    have hne : (k.proc q).state ≠ .UNUSED := ha.2.1
    refine ⟨by simp [Ref.exit], fun _ => ?_, fun _ => by simp [Ref.exit], g4, g5⟩
    simp only [Ref.exit, g2 hne, h.initproc]
  · refine ⟨by simp [Ref.exit, hqp, g1], fun hn => ?_, fun hz => ?_, g4, g5⟩
    · simp only [if_neg hqp] at hn
      simp only [Ref.exit, g2 hn, h.initproc]
    · simp only [if_neg hqp] at hz
      simp only [Ref.exit, if_neg hqp, g3 hz]

theorem Sim.waited {addr : Nat} {r : Option Int} (h : Sim k R) (hi : Inv k) (ha : k.active p)
    (he : Waited k k' p addr r) (hroom : Op.room k (.wait p addr)) : Sim k' (R.wait p addr) := by
  unfold Waited at he
  unfold Ref.wait
  rw [h.zombieOf]
  cases hf : k.zombieOf p with
  | none =>
    rw [hf] at he
    rw [he.1]
    exact h
  | some np =>
    rw [hf] at he
    obtain ⟨hnp, -, hz⟩ := zombieOf_some hf
    obtain ⟨k1, r1, ⟨haddr, rfl, rfl⟩ | ⟨haddr, hw⟩, hrest⟩ := he
    · simp only [if_pos haddr]
      rcases hrest with ⟨hc, -⟩ | ⟨-, hfr, -⟩
      · omega
      · exact h.freed hfr
    · simp only [if_neg haddr]
      have hlen : (intBytes (k.proc np).xstate).length = 4 := by simp [intBytes]
      have hneed : k.cowNeed p addr (intBytes (k.proc np).xstate).length ≤
          k.phys.freelist.length := by
        rw [hlen]
        exact hroom haddr (by rw [hf]; rfl)
      have hs1 := h.written hi ha.1 hw hneed
      have hres := hw.result
      rw [(h.slot np hnp).xstate hz]
      rw [← (h.slot p ha.1).mem] at hres
      rcases hrest with ⟨hlt, rfl, -⟩ | ⟨hge, hfr, -⟩
      · rw [if_pos (by rw [← hres]; exact hlt)]
        exact hs1
      · rw [if_neg (by rw [← hres]; omega)]
        exact hs1.freed hfr

/-- Each calm step of the kernel is the step of the reference system. -/
theorem Sim.step {op : Op} {r : Int} (h : Sim k R) (hi : Inv k) (hs : Settled k)
    (he : op.enabled k) (hk : op.Effect k r k') (hc : Calm k op k') : Sim k' (R.step op r) := by
  have hker (hk : KernelStep k k') : Sim k' R := by
    refine ⟨h.initproc.trans hk.initproc.symm, fun q hq => ?_⟩
    rw [hk.proc, hk.mem q hq]
    exact h.slot q hq
  cases op with
  | hold => exact hker hk
  | drop pa => exact hker hk
  | pipealloc files => exact hker hk
  | pipeclose i writable => exact hker hk
  | sbrk p n =>
    obtain ⟨g1, g2, g3, g4, g5⟩ := h.slot p he.1
    rcases hk with ⟨rfl, hproc, hst⟩ | ⟨rfl, hproc, hst⟩
    · refine h.put hst ?_
      rw [hproc, g4, g5]
      exact ⟨g1, g2, g3, rfl, rfl⟩
    · refine h.stay hst ?_
      rw [hproc]
      exact h.slot p he.1
  | fork p => exact h.fork he.1 hk
  | load p va =>
    rcases hk with rfl | ⟨k1, hf, ⟨-, rfl⟩ | ⟨hkd, hex⟩⟩
    · exact h
    · exact h.faulted he.1 hf
    · exact (hex.not_calm he.1 hkd hc.2).elim
  | store p va b => exact h.store hi hs he hk hc.2
  | copyout p dstva src => exact h.written hi he.1 hk hc.1
  | exec p namei path uargv =>
    obtain ⟨g1, g2, g3, g4, g5⟩ := h.slot p he.1
    rcases hk with ⟨rfl, hproc, hst⟩ | ⟨hr, bytes, pt, hfile, -, hproc, hst⟩
    · refine h.stay hst ?_
      rw [hproc]
      exact h.slot p he.1
    · have hstep : R.step (.exec p namei path uargv) r = R.exec p namei path uargv :=
        if_neg (by omega)
      rw [hstep, Ref.exec, g5, hfile]
      refine h.put hst ?_
      rw [hproc, g4]
      exact ⟨g1, g2, g3, rfl, rfl⟩
  | exit p status => exact h.exited he hk
  | wait p addr =>
    obtain ⟨_, hk⟩ := hk
    exact h.waited hi he hk hc.1
  | kill pid =>
    refine ⟨h.initproc.trans hk.initproc.symm, fun q hq => ?_⟩
    rw [hk.mem q]
    rcases hk.proc q with heq | heq
    · rw [heq]
      exact h.slot q hq
    · -- Only an unused slot can have been marked.
      have hun : (k'.proc q).state = .UNUSED := by
        by_contra hn
        have hkd := hc.2 q hq hn
        rw [heq] at hkd
        cases hkd
      have hsame : (k'.proc q).state = (k.proc q).state := by
        rw [heq] at hun ⊢
        dsimp only at hun ⊢
        split_ifs at hun ⊢
        rfl
      exact (h.slot q hq).congr hsame (by rw [heq]) (by rw [heq]) (by rw [heq])
  | sched p state =>
    obtain ⟨g1, g2, g3, g4, g5⟩ := h.slot p he.1.1
    refine h.put hk.1 ?_
    rw [hk.2]
    exact ⟨rfl, fun _ => g2 he.1.2.1, fun hz => absurd hz he.2.2, g4, g5⟩

end Steps

section Runs
variable [Layout] {k : Kernel} {trace : List (Op × Int)}

end Runs

end Xv6
