import Xv6.SchedTree

/-! `exit` and `wait`: every process has a parent that is alive, every exit status is
delivered once, and no wakeup of `wait` is lost. -/
namespace Xv6.Sched

open Function

variable {κ : Type} {n : Nat} {s s' : State κ} {p q r i : Nat} {x y : Slot} {l : Pc}

section Threads

/-- No child of `p` below slot `i` is a zombie, unless `p` is the first process. -/
def NoZombie (s : State κ) (p i : Nat) : Prop :=
  s.initproc ≠ some p → ∀ j, j < i → (s.proc j).parent = some p → (s.proc j).state ≠ .ZOMBIE

/-- `op` was the parent of `p`, and only the first process can have taken its place. -/
def Captured (s : State κ) (p op : Nat) : Prop :=
  s.initproc ≠ some p ∧ ((s.proc p).parent = some op ∨ (s.proc p).parent = s.initproc)

/-- What a thread knows at a place of its code. -/
def PcOk (n : Nat) (s : State κ) (p : Nat) : Pc → Prop
  | .waitScan i _ => NoZombie s p i
  | .waitLock i => (s.proc i).parent = some p ∧ NoZombie s p i
  | .waitSleep => (s.proc p).state = .SLEEPING → (s.proc p).chan = some (.proc p) ∧ NoZombie s p n
  | .exitInit _ | .exitParent _ => s.initproc ≠ some p
  | .exitLock _ op | .exitSelf _ op => Captured s p op
  | .reparent _ op i => Captured s p op ∧ ∀ j, j < i → (s.proc j).parent ≠ some p
  | .reparentLock _ op i => Captured s p op ∧ (∀ j, j < i → (s.proc j).parent ≠ some p) ∧
      (s.proc i).parent = some p
  | .run | .sleep | .exitSched | .dead => True

/-- Where a thread has seen that its children are no zombies. -/
def Pc.watches : Pc → Prop
  | .waitScan _ _ | .waitLock _ | .waitSleep => True
  | _ => False

/-- What a thread knows stays true when others leave its children alone. A child may
become a zombie where the thread does not rely on the contrary. -/
theorem PcOk.frame_zombie (h : PcOk n s p l) (hinit : s'.initproc = s.initproc)
    (hkeep : ∀ j, (s.proc j).parent = some p → (s'.proc j).parent = some p)
    (hnew : s.initproc ≠ some p → ∀ j, (s'.proc j).parent = some p → (s.proc j).parent = some p)
    (hzombie : s.initproc ≠ some p → l.watches → (l = .waitSleep → (s'.proc p).state = .SLEEPING) →
      ∀ j, (s'.proc j).parent = some p → (s'.proc j).state = .ZOMBIE → (s.proc j).state = .ZOMBIE)
    (hpar : (s'.proc p).parent = (s.proc p).parent ∨ (s'.proc p).parent = s.initproc)
    (hsleep : l = .waitSleep → (s'.proc p).state = .SLEEPING →
      (s.proc p).state = .SLEEPING ∧ (s'.proc p).chan = (s.proc p).chan) : PcOk n s' p l := by
  have hz (i : Nat) (hw : l.watches) (hw' : l = .waitSleep → (s'.proc p).state = .SLEEPING)
      (hold : NoZombie s p i) : NoZombie s' p i := by
    intro hi j hj hjp hjz
    rw [hinit] at hi
    exact hold hi j hj (hnew hi j hjp) (hzombie hi hw hw' j hjp hjz)
  have hcap (op : Nat) (hc : Captured s p op) : Captured s' p op := by
    refine ⟨by rw [hinit]; exact hc.1, ?_⟩
    rw [hinit]
    rcases hpar with heq | heq
    · rw [heq]
      exact hc.2
    · exact Or.inr heq
  have hchild (i : Nat) (hi : s.initproc ≠ some p) (hc : ∀ j, j < i → (s.proc j).parent ≠ some p) :
      ∀ j, j < i → (s'.proc j).parent ≠ some p :=
    fun j hj hjp => hc j hj (hnew hi j hjp)
  cases l with
  | waitScan i havekids => exact hz i trivial nofun h
  | waitLock i => exact ⟨hkeep i h.1, hz i trivial nofun h.2⟩
  | waitSleep =>
    intro hs
    obtain ⟨h1, h2⟩ := hsleep rfl hs
    obtain ⟨h3, h4⟩ := h h1
    exact ⟨h2.trans h3, hz n trivial (fun _ => hs) h4⟩
  | exitInit status =>
    change s'.initproc ≠ some p
    rw [hinit]
    exact h
  | exitParent status =>
    change s'.initproc ≠ some p
    rw [hinit]
    exact h
  | exitLock status op => exact hcap op h
  | exitSelf status op => exact hcap op h
  | reparent status op i => exact ⟨hcap op h.1, hchild i h.1.1 h.2⟩
  | reparentLock status op i => exact ⟨hcap op h.1, hchild i h.1.1 h.2.1, hkeep i h.2.2⟩
  | run => trivial
  | sleep => trivial
  | exitSched => trivial
  | dead => trivial

theorem Woken.asleep {o : Op κ} (h : Woken o x y) (hs : y.state = .SLEEPING) :
    x.state = .SLEEPING ∧ y.chan = x.chan := by
  rcases h.state with heq | ⟨_, h2⟩
  · exact ⟨heq.symm.trans hs, h.chan⟩
  · rw [h2] at hs
    cases hs

theorem PcOk.frame (h : PcOk n s p l) (hinit : s'.initproc = s.initproc)
    (hkeep : ∀ j, (s.proc j).parent = some p → (s'.proc j).parent = some p)
    (hnew : s.initproc ≠ some p → ∀ j, (s'.proc j).parent = some p →
      (s.proc j).parent = some p ∧ ((s'.proc j).state = .ZOMBIE → (s.proc j).state = .ZOMBIE))
    (hpar : (s'.proc p).parent = (s.proc p).parent ∨ (s'.proc p).parent = s.initproc)
    (hsleep : l = .waitSleep → (s'.proc p).state = .SLEEPING →
      (s.proc p).state = .SLEEPING ∧ (s'.proc p).chan = (s.proc p).chan) : PcOk n s' p l :=
  h.frame_zombie hinit hkeep (fun hi j hj => (hnew hi j hj).1)
    (fun hi _ _ j hj => (hnew hi j hj).2) hpar hsleep

theorem PcOk.kept (h : PcOk n s p l) (hk : Kept s s')
    (hsleep : l = .waitSleep → (s'.proc p).state = .SLEEPING →
      (s.proc p).state = .SLEEPING ∧ (s'.proc p).chan = (s.proc p).chan) : PcOk n s' p l := by
  apply h.frame hk.initproc
  · intro j hj
    rw [(hk.same j).parent]
    exact hj
  · intro _ j hj
    rw [(hk.same j).parent] at hj
    exact ⟨hj, (hk.same j).zombie.mp⟩
  · exact Or.inl (hk.same p).parent
  · exact hsleep

/-- One slot changes, which is no child of `p`. Its own slot may be adopted. -/
theorem PcOk.frame_slot (h : PcOk n s p l) (hinit : s'.initproc = s.initproc)
    (hproc : s'.proc = update s.proc q x) (hold : (s.proc q).parent ≠ some p)
    (hnew : s.initproc ≠ some p → x.parent ≠ some p)
    (hown : p = q → x.parent = s.initproc ∧ x.state = (s.proc q).state ∧ x.chan = (s.proc q).chan) :
    PcOk n s' p l := by
  obtain ⟨hself, hother⟩ := updated hproc
  apply h.frame hinit
  · intro j hj
    have hjq : j ≠ q := by
      intro heq
      rw [heq] at hj
      exact hold hj
    rw [hother j hjq]
    exact hj
  · intro hi j hj
    have hjq : j ≠ q := by
      intro heq
      rw [heq, hself] at hj
      exact hnew hi hj
    rw [hother j hjq] at hj ⊢
    exact ⟨hj, id⟩
  · by_cases hpq : p = q
    · rw [hpq, hself]
      exact Or.inr (hown hpq).1
    · rw [hother p hpq]
      exact Or.inl rfl
  · intro _ hs
    by_cases hpq : p = q
    · obtain ⟨_, hstate, hchan⟩ := hown hpq
      rw [hpq, hself] at hs ⊢
      rw [hstate] at hs
      exact ⟨hs, hchan⟩
    · rw [hother p hpq] at hs ⊢
      exact ⟨hs, rfl⟩

/-- Everything about the tree of processes. -/
structure Inv (n : Nat) (s : State κ) : Prop where
  tree : Tree n s
  records : Records s
  zombie : ∀ r, (s.proc r).state = .ZOMBIE → s.pc r = .exitSched ∨ s.pc r = .dead
  boot : s.initproc = none → ∀ r, s.pc r = .run
  threads : ∀ r, PcOk n s r (s.pc r)

theorem Inv.known (h : Inv n s) (hpc : s.pc p = l) : PcOk n s p l := by
  rw [← hpc]
  exact h.threads p

/-- A step that takes one thread to another place. -/
theorem Inv.stepped (h : Inv n s) (htree : Tree n s') (hrec : Records s')
    (hinit : s'.initproc = s.initproc) (hq : (s.proc q).state ≠ .UNUSED)
    (hpc : s'.pc = update s.pc p l)
    (hzombie : ∀ r, (s'.proc r).state = .ZOMBIE →
      r = p ∧ (l = .exitSched ∨ l = .dead) ∨ r ≠ p ∧ (s.proc r).state = .ZOMBIE)
    (hl : PcOk n s' p l) (hothers : ∀ r, r ≠ p → PcOk n s' r (s.pc r)) : Inv n s' := by
  refine ⟨htree, hrec, ?_, ?_, ?_⟩
  · intro r hr
    rw [hpc]
    rcases hzombie r hr with ⟨hrp, hend⟩ | ⟨hrp, hz⟩
    · rw [hrp, update_self]
      exact hend
    · rw [update_of_ne hrp]
      exact h.zombie r hz
  · intro hi
    rw [hinit] at hi
    exact absurd ((h.tree q).boot hi) hq
  · rw [hpc, forall_update_iff s.pc fun r x => PcOk n s' r x]
    exact ⟨hl, hothers⟩

theorem Inv.move (h : Inv n s) (hk : Kept s s') (hpc : s'.pc = update s.pc p l)
    (hu : (s.proc p).state ≠ .UNUSED) (hp : (s.proc p).state ≠ .ZOMBIE ∨ l = .dead)
    (hsleep : ∀ r, r ≠ p → (s'.proc r).state = .SLEEPING →
      (s.proc r).state = .SLEEPING ∧ (s'.proc r).chan = (s.proc r).chan)
    (hl : PcOk n s' p l) : Inv n s' := by
  apply h.stepped (h.tree.kept hk) (h.records.kept hk) hk.initproc hu hpc
  · intro r hr
    rw [(hk.same r).zombie] at hr
    by_cases hrp : r = p
    · rw [hrp] at hr
      exact Or.inl ⟨hrp, Or.inr (hp.resolve_left fun hc => hc hr)⟩
    · exact Or.inr ⟨hrp, hr⟩
  · exact hl
  · exact fun r hrp => (h.threads r).kept hk fun _ => hsleep r hrp

theorem Inv.goto (h : Inv n s) (hu : (s.proc p).state ≠ .UNUSED)
    (hp : (s.proc p).state ≠ .ZOMBIE ∨ l = .dead)
    (hpc : s'.pc = update s.pc p l) (hproc : s'.proc = s.proc) (hbooks : s'.books = s.books)
    (hl : PcOk n s p l) : Inv n s' := by
  have hk : Kept s s' := by
    refine ⟨?_, hbooks⟩
    rw [hproc]
    exact fun r => Same.refl _
  apply h.move hk hpc hu hp
  · intro r _
    rw [hproc]
    exact fun hs => ⟨hs, rfl⟩
  · apply hl.kept hk
    rw [hproc]
    exact fun _ hs => ⟨hs, rfl⟩

theorem Inv.woken (h : Inv n s) {o : Op κ} (hx : Woken o (s.proc q) x) : Inv n (s.setSlot q x) := by
  have hk : Kept s (s.setSlot q x) := Kept.of_slot hx.same rfl rfl
  refine ⟨h.tree.kept hk, h.records.kept hk, ?_, h.boot, ?_⟩
  · intro r hr
    rw [(hk.same r).zombie] at hr
    exact h.zombie r hr
  · intro r
    apply (h.threads r).kept hk
    intro _ hs
    unfold State.setSlot at hs ⊢
    dsimp only at hs ⊢
    by_cases hrq : r = q
    · rw [hrq, update_self] at hs ⊢
      exact hx.asleep hs
    · rw [update_of_ne hrq] at hs ⊢
      exact ⟨hs, rfl⟩

theorem Inv.running (h : Inv n s) (hp : (s.proc p).alive) (hx : x.alive)
    (hsame : x.parent = (s.proc p).parent ∧ x.pid = (s.proc p).pid ∧
      x.xstate = (s.proc p).xstate)
    (hproc : s'.proc = update s.proc p x) (hpc : s'.pc = update s.pc p l)
    (hbooks : s'.books = s.books) (hl : Kept s s' → PcOk n s' p l) : Inv n s' := by
  have hk : Kept s s' :=
    Kept.of_slot (Same.live hp hx hsame.1 hsame.2.1 hsame.2.2) hproc hbooks
  apply h.move hk hpc hp.1 (Or.inl hp.2)
  · intro r hr
    rw [hproc, update_of_ne hr]
    exact fun hs => ⟨hs, rfl⟩
  · exact hl hk

theorem Inv.unused (h : Inv n s) (hold : (s.proc q).state = .UNUSED)
    (hx : x.state = .UNUSED ∧ x.parent = none) (hproc : s'.proc = update s.proc q x)
    (hpc : s'.pc = s.pc) (hinit : s'.initproc = s.initproc) (hrec : Records s') : Inv n s' := by
  obtain ⟨hself, hother⟩ := updated hproc
  have hpar (r : Nat) : (s'.proc r).parent = (s.proc r).parent := by
    by_cases hrq : r = q
    · rw [hrq, hself, hx.2, (h.tree q).unused hold]
    · rw [hother r hrq]
  have hstate (r : Nat) : (s'.proc r).state = (s.proc r).state := by
    by_cases hrq : r = q
    · rw [hrq, hself, hx.1, hold]
    · rw [hother r hrq]
  refine ⟨h.tree.freed (fun ha => ha.1 hold) hx hproc hinit, hrec, ?_, ?_, ?_⟩
  · intro r hr
    rw [hstate] at hr
    rw [hpc]
    exact h.zombie r hr
  · rw [hinit, hpc]
    exact h.boot
  · intro r
    rw [hpc]
    apply (h.threads r).frame hinit
    · intro j hj
      rw [hpar]
      exact hj
    · intro _ j hj
      rw [hpar] at hj
      rw [hstate]
      exact ⟨hj, id⟩
    · exact Or.inl (hpar r)
    · intro _ hs
      have hrq : r ≠ q := by
        intro heq
        rw [heq, hself, hx.1] at hs
        cases hs
      rw [hother r hrq] at hs ⊢
      exact ⟨hs, rfl⟩

theorem Inv.forked (h : Inv n s) (hp : (s.proc p).alive) (hrun : s.pc p = .run)
    (hold : (s.proc q).state = .UNUSED) (hq : q < n) (hx : x.alive ∧ x.parent = some p)
    (hproc : s'.proc = update s.proc q x) (hpc : s'.pc = update s.pc q .run)
    (hinit : s'.initproc = s.initproc) (hrec : Records s') : Inv n s' := by
  obtain ⟨hself, hother⟩ := updated hproc
  have htree := h.tree.forked hold hq hx.1 hproc hp hx.2 hinit
  apply h.stepped htree hrec hinit hp.1 hpc
  · intro r hr
    have hrq : r ≠ q := by
      intro heq
      rw [heq, hself] at hr
      exact hx.1.2 hr
    rw [hother r hrq] at hr
    exact Or.inr ⟨hrq, hr⟩
  · trivial
  · intro r hrq
    by_cases hrp : r = p
    · rw [hrp, hrun]
      trivial
    · apply (h.threads r).frame_slot hinit hproc
      · rw [(h.tree q).unused hold]
        exact nofun
      · rw [hx.2]
        exact fun _ heq => hrp (Option.some.inj heq).symm
      · exact fun heq => absurd heq hrq

theorem Inv.booted (h : Inv n s) (hnone : s.initproc = none) (hq : q < n)
    (hx : x.alive ∧ x.parent = none) (hproc : s'.proc = update s.proc q x)
    (hpc : s'.pc = update s.pc q .run) (hinit : s'.initproc = some q)
    (hrec : Records s') : Inv n s' := by
  have hrun (r : Nat) : s'.pc r = .run := by
    rw [hpc]
    by_cases hrq : r = q
    · rw [hrq, update_self]
    · rw [update_of_ne hrq]
      exact h.boot hnone r
  refine ⟨h.tree.booted hnone hq hx hproc hinit, hrec, ?_, ?_, ?_⟩
  · intro r hr
    by_cases hrq : r = q
    · rw [hproc, hrq, update_self] at hr
      exact absurd hr hx.1.2
    · rw [hproc, update_of_ne hrq, (h.tree r).boot hnone] at hr
      cases hr
  · exact fun _ => hrun
  · intro r
    rw [hrun]
    trivial

theorem Inv.reaped (h : Inv n s) (hp : (s.proc p).alive)
    (hold : (s.proc q).state = .ZOMBIE) (hdead : s.pc q = .dead)
    (hqp : (s.proc q).parent = some p) (hx : x.state = .UNUSED ∧ x.parent = none)
    (hproc : s'.proc = update s.proc q x) (hpc : s'.pc = update s.pc p .run)
    (hinit : s'.initproc = s.initproc) (hrec : Records s') : Inv n s' := by
  obtain ⟨hself, hother⟩ := updated hproc
  apply h.stepped (h.tree.freed (fun ha => ha.2 hold) hx hproc hinit) hrec hinit hp.1 hpc
  · intro r hr
    have hrq : r ≠ q := by
      intro heq
      rw [heq, hself, hx.1] at hr
      cases hr
    rw [hother r hrq] at hr
    refine Or.inr ⟨?_, hr⟩
    intro heq
    rw [heq] at hr
    exact hp.2 hr
  · trivial
  · intro r hrp
    by_cases hrq : r = q
    · rw [hrq, hdead]
      trivial
    · apply (h.threads r).frame_slot hinit hproc
      · rw [hqp]
        exact fun heq => hrp (Option.some.inj heq).symm
      · rw [hx.2]
        exact fun _ => nofun
      · exact fun heq => absurd heq hrq

theorem Inv.adopted (h : Inv n s) (hp : (s.proc p).alive) {status : Int} {op : Nat}
    (hpcp : s.pc p = .reparentLock status op q) (hx : x = { s.proc q with parent := s.initproc })
    (hproc : s'.proc = update s.proc q x)
    (hpc : s'.pc = update s.pc p (.reparent status op (q+1)))
    (hinit : s'.initproc = s.initproc) (hrec : Records s') : Inv n s' := by
  obtain ⟨hself, hother⟩ := updated hproc
  obtain ⟨hcap, hbelow, hqp⟩ := h.known hpcp
  have hstate (r : Nat) : (s'.proc r).state = (s.proc r).state := by
    by_cases hrq : r = q
    · rw [hrq, hself, hx]
    · rw [hother r hrq]
  apply h.stepped (h.tree.adopted hqp hx hproc hinit) hrec hinit hp.1 hpc
  · intro r hr
    rw [hstate] at hr
    refine Or.inr ⟨?_, hr⟩
    intro heq
    rw [heq] at hr
    exact hp.2 hr
  · refine ⟨⟨by rw [hinit]; exact hcap.1, ?_⟩, ?_⟩
    · rw [hinit]
      by_cases hpq : p = q
      · rw [hpq, hself, hx]
        exact Or.inr rfl
      · rw [hother p hpq]
        exact hcap.2
    · intro j hj
      by_cases hjq : j = q
      · rw [hjq, hself, hx]
        exact hcap.1
      · rw [hother j hjq]
        exact hbelow j (by omega)
  · intro r hrp
    apply (h.threads r).frame_slot hinit hproc
    · rw [hqp]
      exact fun heq => hrp (Option.some.inj heq).symm
    · rw [hx]
      exact id
    · rw [hx]
      exact fun _ => ⟨rfl, rfl, rfl⟩

/-- The end of `exit`. The parent that was locked does not rely on the child any more. -/
theorem Inv.exited (h : Inv n s) (hlocks : Locks s) (hp : (s.proc p).alive) {status : Int}
    {op : Nat} (hpcp : s.pc p = .reparent status op i) (hi : ¬ i < n)
    (hwoken : (s.proc op).state = .SLEEPING → (s.proc op).chan ≠ some (.proc op))
    (hx : x = { s.proc p with xstate := status, state := .ZOMBIE })
    (hproc : s'.proc = update s.proc p x)
    (hpc : s'.pc = update s.pc p .exitSched) (hinit : s'.initproc = s.initproc)
    (hrec : Records s') : Inv n s' := by
  obtain ⟨hself, hother⟩ := updated hproc
  have hpar (r : Nat) : (s'.proc r).parent = (s.proc r).parent := by
    by_cases hrp : r = p
    · rw [hrp, hself, hx]
    · rw [hother r hrp]
  obtain ⟨hcap, hbelow⟩ := h.known hpcp
  obtain ⟨hop, hlop, _⟩ := hlocks.reparent op (by rw [hpcp]; rfl)
  have hnone (r : Nat) : (s.proc r).parent ≠ some p := by
    by_cases hr : r < n
    · exact hbelow r (by omega)
    · rw [(h.tree r).unused (by_contra fun hc => hr ((h.tree r).bound hc))]
      exact nofun
  have htree := h.tree.zombie hp hcap.1 hnone (by rw [hx]) (by rw [hx]) hproc hinit
  apply h.stepped htree hrec hinit hp.1 hpc
  · intro r hr
    by_cases hrp : r = p
    · exact Or.inl ⟨hrp, Or.inl rfl⟩
    · rw [hother r hrp] at hr
      exact Or.inr ⟨hrp, hr⟩
  · trivial
  · intro r hrp
    apply (h.threads r).frame_zombie hinit
    · intro j hj
      rw [hpar]
      exact hj
    · intro _ j hj
      rw [hpar] at hj
      exact hj
    · intro hri hw hws j hj hz
      by_cases hjp : j = p
      · -- The parent of `p` is `op`, whose lock `p` has.
        rw [hjp, hpar] at hj
        have hrop : r = op := by
          rcases hcap.2 with hc | hc
          · rw [hj] at hc
            exact Option.some.inj hc
          · rw [hj] at hc
            exact absurd hc.symm hri
        have hmine (hm : r ∈ (s.pc r).locks r) : False := by
          have hl := (hlocks r).2 r hm
          rw [hrop, hlop] at hl
          exact hop (Option.some.inj hl).symm
        exfalso
        cases hpcr : s.pc r with
        | waitScan k havekids => exact hmine (by rw [hpcr]; exact List.mem_singleton_self r)
        | waitLock k => exact hmine (by rw [hpcr]; exact List.mem_singleton_self r)
        | waitSleep =>
          have hs := hws hpcr
          rw [hother r hrp] at hs
          have hchan := (h.known hpcr hs).1
          rw [hrop] at hs hchan
          exact hwoken hs hchan
        | _ => rw [hpcr] at hw; exact hw
      · rw [hother j hjp] at hz
        exact hz
    · exact Or.inl (hpar r)
    · intro _ hs
      rw [hother r hrp] at hs ⊢
      exact ⟨hs, rfl⟩

end Threads

section Steps

theorem Cpus.alive (hc : Cpus s) (hon : s.onCpu p) (hpc : s.pc p ≠ .exitSched) :
    (s.proc p).alive := by
  have hrun := (hc.state p hon).resolve_right hpc
  unfold Slot.alive
  rw [hrun]
  exact ⟨nofun, nofun⟩

theorem NoZombie.zero : NoZombie s p 0 := fun _ j hj => absurd hj (Nat.not_lt_zero j)

theorem NoZombie.succ (h : NoZombie s p i)
    (hi : (s.proc i).parent = some p → (s.proc i).state ≠ .ZOMBIE) : NoZombie s p (i+1) := by
  intro hinit j hj hjp
  by_cases hji : j = i
  · rw [hji] at hjp ⊢
    exact hi hjp
  · exact h hinit j (by omega) hjp

theorem Walk.known {l' : Pc} {lock : Nat → Option Nat} (hw : Walk s p l l' lock)
    (h : PcOk n s p l) : PcOk n s p l' := by
  cases hw with
  | wait => exact NoZombie.zero
  | child hpar => exact ⟨hpar, h⟩
  | skip hpar => exact NoZombie.succ h fun hc => absurd hc hpar
  | next hz => exact h.2.succ fun _ => hz
  | back | fail => trivial
  | exit hinit => exact hinit
  | parent hop => exact ⟨h, Or.inl hop⟩
  | lock => exact h
  | self => exact ⟨h, fun j hj => absurd hj (Nat.not_lt_zero j)⟩
  | own hpar => exact ⟨h.1, h.2, hpar⟩
  | @other status op i hpar =>
    refine ⟨h.1, ?_⟩
    intro j hj
    by_cases hji : j = i
    · rw [hji]
      exact hpar
    · exact h.2 j (by omega)

theorem Inv.waitSleep (h : Inv n s) (hal : (s.proc p).alive) (hz : NoZombie s p n) :
    Inv n ((s.sleep p (.proc p) .waitSleep).release p) := by
  have hx : ({ s.proc p with chan := some (.proc p), state := .SLEEPING } : Slot).alive :=
    ⟨nofun, nofun⟩
  set s1 : State κ := (s.sleep p (.proc p) .waitSleep).release p
  have hproc : s1.proc = update s.proc p
    { s.proc p with chan := some (.proc p), state := .SLEEPING } := rfl
  have hpc : s1.pc = update s.pc p .waitSleep := rfl
  apply h.running hal hx ⟨rfl, rfl, rfl⟩ hproc hpc rfl
  intro hk _
  refine ⟨by rw [hproc, update_self], ?_⟩
  intro hi j hj hjp
  rw [(hk.same j).parent] at hjp
  rw [ne_eq, (hk.same j).zombie]
  exact hz hi j hj hjp

/-- The end of `exit`: first `wakeup1`, then the zombie. -/
theorem Inv.zombified (h : Inv n s) (hl : Locks s) (hal : (s.proc p).alive) {o : Op κ} (ho : o.wakes)
    {status : Int} {op : Nat} (hpc : s.pc p = .reparent status op i) (hi : ¬ i < n) :
    Inv n (s.reparent n p status op i) := by
  obtain ⟨hop, _, _⟩ := hl.reparent op (by rw [hpc]; rfl)
  have hw : Woken o (s.proc op) ((s.proc op).wakeup (.proc op)) := wakeup_woken ho _
  have h1 : Inv n (s.wakeup1 op) := h.woken hw
  have hl1 : Locks (s.wakeup1 op) := hl.stay rfl rfl
  have hp1 : (s.wakeup1 op).proc p = s.proc p := update_of_ne hop.symm _ _
  have hop1 : (s.wakeup1 op).proc op = (s.proc op).wakeup (.proc op) := update_self ..
  have hwoken : ((s.wakeup1 op).proc op).state = .SLEEPING →
      ((s.wakeup1 op).proc op).chan ≠ some (.proc op) := by
    rw [hop1]
    intro hs hc
    obtain ⟨h2, h3⟩ := hw.asleep hs
    rw [h3] at hc
    unfold Slot.wakeup at hs
    rw [if_pos ⟨h2, hc⟩] at hs
    cases hs
  have hal1 : ((s.wakeup1 op).proc p).alive := by
    rw [hp1]
    exact hal
  unfold State.reparent
  rw [if_neg hi]
  exact h1.exited hl1 hal1 hpc hi hwoken rfl rfl rfl rfl
    (h1.records.exit hal1 rfl rfl rfl ⟨h1.records.next, Nat.le_refl _, rfl, (List.append_nil _).symm⟩)

variable [DecidableEq κ]

theorem Inv.start (h : Inv n s) {c : κ} (hs : Started s c p x l s') : Inv n s' := by
  have hal : (s.proc p).alive := by
    unfold Slot.alive
    rw [hs.old]
    exact ⟨nofun, nofun⟩
  have hx : x.alive := by
    unfold Slot.alive
    rw [hs.state]
    exact ⟨nofun, nofun⟩
  apply h.running hal hx hs.same hs.proc hs.pc hs.books
  intro hk
  rcases hs.place with ⟨rfl | ⟨rfl, hw⟩, _⟩ | ⟨rfl, _⟩
  · trivial
  · exact (h.threads p).kept hk fun hc => absurd hc hw
  · exact NoZombie.zero

theorem Inv.effect (h : Inv n s) (hc : Cpus s) (hl : Locks s) {o : Op κ} (he : Effect n o s s') :
    Inv n s' := by
  have alive {p : Nat} {l : Pc} (hon : s.onCpu p) (hpc : s.pc p = l) (hl : l ≠ .exitSched) :
      (s.proc p).alive := hc.alive hon (by rw [hpc]; exact hl)
  cases he with
  | @walk p _ _ hon hw =>
    have hal := hc.alive hon (walk_not_sched hw).1
    exact h.goto hal.1 (Or.inl hal.2) rfl rfl rfl (hw.known (h.threads p))
  | woken hx => exact h.woken hx
  | @init p i status ho hon hpc =>
    have hw : Woken o (s.proc i) ((s.proc i).wakeup (.proc i)) := wakeup_woken ho _
    have h1 : Inv n (s.wakeup1 i) := h.woken hw
    have hk : Kept s (s.wakeup1 i) := Kept.of_slot hw.same rfl rfl
    have hal1 := (hk.same p).alive.mpr (alive hon hpc nofun)
    have hknown := h.known hpc
    exact h1.goto hal1.1 (Or.inl hal1.2) rfl rfl rfl hknown
  | start _ hs => exact h.start hs
  | @yield p _ hon hun =>
    have hpc {l : Pc} (hl : s.pc p = l) : l.unlocked := hl ▸ hun
    have hx : ({ s.proc p with state := .RUNNABLE } : Slot).alive := ⟨nofun, nofun⟩
    refine h.running (hc.alive hon fun hs => hpc hs) hx ⟨rfl, rfl, rfl⟩ rfl (update_eq_self ..).symm rfl ?_
    exact fun hk => (h.threads p).kept hk fun hw => (hpc hw).elim
  | @sleep p x hon hpc =>
    exact h.running (alive hon hpc nofun) (x := { s.proc p with
      chan := some (.other x), state := .SLEEPING }) ⟨nofun, nofun⟩ ⟨rfl, rfl, rfl⟩ rfl rfl rfl
      fun _ => trivial
  | @waitSleep p i havekids hon hpc hi =>
    have hz : NoZombie s p i := h.known hpc
    exact h.waitSleep (alive hon hpc nofun) fun hinit j hj => hz hinit j (by omega)
  | @leave p hpc =>
    have hz := hc.sched p hpc
    exact h.goto (by rw [hz]; exact nofun) (Or.inr rfl) (l := .dead) rfl rfl rfl trivial
  | @unused p np a x _ hold hx hpar =>
    have hnone : x.parent = none := hpar.elim (·.trans ((h.tree np).unused hold)) id
    exact h.unused hold ⟨hx, hnone⟩ (allocpid_proc_update s np x) rfl rfl
      (h.records.emptied hx (h.records.goes rfl rfl rfl rfl) (allocpid_proc_update s np x)
        (fun r hr => update_of_ne hr _ _) nofun)
  | @fork p np _ hon hpc hnp hold =>
    set x : Slot := { (s.allocpid np).proc np with parent := some p, state := .RUNNABLE } with hx
    have hxa : x.alive := ⟨nofun, nofun⟩
    exact h.forked (alive hon hpc nofun) hpc hold hnp ⟨hxa, rfl⟩ (allocpid_proc_update s np x) rfl rfl
      (h.records.fresh hxa (by rw [hx, allocpid_slot]) (allocpid_proc_update s np x) rfl
        (h.records.goes rfl rfl rfl rfl) rfl)
  | @userinit np _ hnone hnp hold =>
    set x : Slot := { (s.allocpid np).proc np with state := .RUNNABLE } with hx
    have hxa : x.alive := ⟨nofun, nofun⟩
    have hpar : x.parent = none := by
      rw [hx, allocpid_slot]
      exact (h.tree np).unused hold
    exact h.booted hnone hnp ⟨hxa, hpar⟩ (allocpid_proc_update s np x) rfl rfl
      (h.records.fresh hxa (by rw [hx, allocpid_slot]) (allocpid_proc_update s np x) rfl
        (h.records.goes rfl rfl rfl rfl) rfl)
  | @reap p i _ hon hpc hi hz =>
    -- The zombie gave its lock up when it left its CPU.
    have hdead : s.pc i = .dead := by
      apply (h.zombie i hz).resolve_left
      intro hs
      rw [hl.wait (p := i) (by rw [hs]; rfl)] at hi
      cases hi
    have hknown := h.known hpc
    unfold State.waitLock
    rw [if_pos hz]
    refine h.reaped (alive hon hpc nofun) hz hdead hknown.1 (x := (s.proc i).freeproc) ⟨rfl, rfl⟩ rfl
      rfl rfl ?_
    refine h.records.emptied (x := (s.proc i).freeproc) rfl (show Goes s _ none
      (some ⟨s.born i, (s.proc i).pid, (s.proc i).xstate⟩) from ?_) rfl (fun _ _ => rfl) ?_
    · exact ⟨h.records.next, Nat.le_refl _, (List.append_nil _).symm, rfl⟩
    · intro u hu
      cases hu
      exact ⟨hz, rfl⟩
  | zombie ho hon hpc hi =>
    exact h.zombified hl (alive hon hpc nofun) (o := o) (by rw [ho]; trivial) hpc hi
  | @adopt p op i status hon hpc =>
    set x : Slot := { s.proc i with parent := s.initproc } with hx
    set s1 : State κ := (s.setSlot i x).goto p (.reparent status op (i+1))
    have hproc : s1.proc = update s.proc i x := rfl
    have hpc1 : s1.pc = update s.pc p (.reparent status op (i+1)) := rfl
    have hrec : Records s1 := by
      refine h.records.alike ?_ rfl
      rw [hproc, forall_update_iff s.proc fun r y => Alike (s.proc r) y]
      exact ⟨⟨rfl, rfl, Iff.rfl, Iff.rfl⟩, fun r _ => (Same.refl _).toAlike⟩
    exact h.adopted (alive hon hpc nofun) hpc hx hproc hpc1 rfl hrec

omit [DecidableEq κ] in
theorem fresh_inv (h : s.Fresh) : Inv n s := by
  obtain ⟨hproc, hpc, _, _, hinit, hnext, hcreated, hexited, hreaped⟩ := h
  have hzero (r : Nat) : s.proc r = Slot.zero := by rw [hproc]
  refine ⟨?_, ⟨?_, ?_, ?_, ?_, ?_, ?_, ?_⟩, ?_, ?_, ?_⟩
  · intro r
    rw [hzero]
    refine ⟨nofun, fun hr => absurd rfl hr, fun _ => rfl, ?_, fun _ => rfl, fun hr => absurd rfl hr⟩
    rw [hinit]
    exact nofun
  · rw [hnext, hcreated]
    rfl
  · intro r
    rw [hzero]
    exact Entry.empty rfl
  · intro r q hr
    rw [hzero] at hr
    exact absurd rfl hr
  · rw [hexited]
    exact List.nodup_nil
  · rw [hreaped]
    exact List.nodup_nil
  · rw [hreaped]
    exact List.nil_subset _
  · rw [hexited]
    exact nofun
  · intro r hr
    rw [hzero] at hr
    cases hr
  · intro _ r
    rw [hpc]
  · intro r
    rw [hpc]
    trivial

theorem reachable_inv (hr : Reachable n s) : Inv n s ∧ Cpus s ∧ Locks s := by
  suffices hs : Inv n s ∧ Reachable n s from ⟨hs.1, reachable_cpus hs.2⟩
  induction hr with
  | init h0 => exact ⟨fresh_inv h0, Reaches.init h0⟩
  | step hprev he hrun ih =>
    obtain ⟨hi, _⟩ := ih
    obtain ⟨hc, hl⟩ := reachable_cpus hprev
    have hnext := hi.effect hc hl (step_effect he)
    cases hrun
    exact ⟨hnext, hprev.step he rfl⟩

/-- Only `wait` with the lock of a zombie child delivers a status. -/
theorem Effect.reaped (h : Inv n s) {o : Op κ} (he : Effect n o s s') :
    s'.reaped = s.reaped ∨
      ∃ p i, o = .waitLock p true ∧ s.pc p = .waitLock i ∧ (s.proc i).parent = some p ∧
        (s.proc i).state = .ZOMBIE ∧
        s'.reaped = s.reaped ++ [⟨s.born i, (s.proc i).pid, (s.proc i).xstate⟩] := by
  cases he with
  | @reap p i ho _ hpc _ hz =>
    have hknown := h.known hpc
    refine Or.inr ⟨p, i, ho, hpc, hknown.1, hz, ?_⟩
    unfold State.waitLock
    rw [if_pos hz]
    rfl
  | start _ hs =>
    have hbooks := hs.books
    simp only [State.books, Prod.mk.injEq] at hbooks
    exact Or.inl hbooks.2.2.2.2.2
  | zombie _ _ _ hi =>
    unfold State.reparent
    rw [if_neg hi]
    exact Or.inl rfl
  | _ => exact Or.inl rfl

/-- `exit` and `wait`. Every process but the first has a parent that is alive. Every
result of `wait` is the status of another process that exited, with its own pid while
the pids have not wrapped, and is given to the parent. A failed `copyout` changes nothing,
and nobody but the first process sleeps in `wait` above a zombie. -/
theorem exit_wait_once (hr : Reachable n s) :
    (∀ r, (s.proc r).state ≠ .UNUSED → s.initproc ≠ some r →
      ∃ q, (s.proc r).parent = some q ∧ (s.proc q).state ≠ .UNUSED ∧ (s.proc q).state ≠ .ZOMBIE) ∧
    ((s.exited.map Exit.serial).Nodup ∧ (s.reaped.map Exit.serial).Nodup ∧ s.reaped ⊆ s.exited ∧
      (s.created < 2^31 → (s.reaped.map Exit.pid).Nodup)) ∧
    (∀ o : Op κ, o.enabled n s → (o.step n s).reaped = s.reaped ∨
      ∃ p i, o = .waitLock p true ∧ s.pc p = .waitLock i ∧ (s.proc i).parent = some p ∧
        (s.proc i).state = .ZOMBIE ∧
        (o.step n s).reaped = s.reaped ++ [⟨s.born i, (s.proc i).pid, (s.proc i).xstate⟩]) ∧
    (∀ p i, (Op.waitLock p false : Op κ).enabled n s → s.pc p = .waitLock i →
      (s.proc i).state = .ZOMBIE → (s.proc i).parent = some p ∧
      ∃ s', (Op.waitLock p false).step n s = s' ∧ s'.proc = s.proc ∧ s'.pc p = .run ∧
        s'.lock i = none ∧ s'.lock p = none) ∧
    ∀ p, s.initproc ≠ some p → s.pc p = .waitSleep → (s.proc p).state = .SLEEPING →
      ∀ c, (s.proc c).parent = some p → (s.proc c).state ≠ .ZOMBIE := by
  obtain ⟨h, hc, hl⟩ := reachable_inv hr
  refine ⟨?_, ⟨h.records.exited, h.records.reaped, h.records.sub, h.records.pids_nodup⟩, ?_, ?_, ?_⟩
  · intro r hu hi
    obtain ⟨q, hq⟩ := Option.ne_none_iff_exists'.mp ((h.tree r).orphan hu hi)
    exact ⟨q, hq, (h.tree r).parent q hq⟩
  · exact fun o he => (step_effect he).reaped h
  · intro p i he hpc hz
    have hknown := h.known hpc
    refine ⟨hknown.1, _, rfl, ?_⟩
    obtain ⟨_, i', hpc', hi⟩ := he
    rw [hpc] at hpc'
    cases hpc'
    simp only [Op.step, hpc]
    unfold State.waitLock
    rw [if_pos hz]
    refine ⟨rfl, update_self .., ?_, update_self ..⟩
    change update s.lock p none i = none
    by_cases hip : i = p
    · rw [hip, update_self]
    · rw [update_of_ne hip]
      exact hi
  · intro p hi hpc hs c hcp
    have hknown := h.known hpc
    by_cases hcn : c < n
    · exact (hknown hs).2 hi c hcn hcp
    · intro hz
      exact hcn ((h.tree c).bound (by rw [hz]; decide))

def bootTable (κ : Type) : State κ where
  proc := fun _ => Slot.zero
  pc := fun _ => .run
  lock := fun _ => none
  cpu := fun _ => none
  initproc := none
  nextpid := 1
  created := 0
  born := fun _ => 0
  exited := []
  reaped := []

theorem bootTable_reachable (n : Nat) : Reachable n (bootTable κ) :=
  Reaches.init ⟨rfl, rfl, rfl, rfl, rfl, rfl, rfl, rfl, rfl⟩

omit [DecidableEq κ] in
/-- The first process forks, and collects the status 7 of its child. -/
theorem exit_wait_once_child : ∃ s : State Unit, Reachable 2 s ∧ s.reaped = [⟨2, 2, 7⟩] ∧
    (s.reaped.map Exit.serial).Nodup := by
  have h0 : Reachable 2 (bootTable Unit) := bootTable_reachable 2
  have h1 := h0.step (o := Op.userinit 0) ⟨rfl, by decide, rfl, rfl⟩ rfl
  have h2 := h1.step (o := Op.dispatch () 0) ⟨rfl, by decide, rfl, rfl⟩ rfl
  have h3 := h2.step (o := Op.fork 0 1 .ok) ⟨⟨(), rfl⟩, rfl, by decide, rfl, rfl⟩ rfl
  have h4 := h3.step (o := Op.yield 0) ⟨⟨(), rfl⟩, rfl, trivial⟩ rfl
  have h5 := h4.step (o := Op.dispatch () 1) ⟨rfl, by decide, rfl, rfl⟩ rfl
  have h6 := h5.step (o := Op.exit 1 7) ⟨⟨(), rfl⟩, rfl, by decide⟩ rfl
  have h7 := h6.step (o := Op.exitInit 1) ⟨⟨(), rfl⟩, 7, 0, rfl, rfl, rfl⟩ rfl
  have h8 := h7.step (o := Op.exitParent 1) ⟨⟨(), rfl⟩, 7, 0, rfl, rfl, rfl⟩ rfl
  have h9 := h8.step (o := Op.exitLock 1) ⟨⟨(), rfl⟩, 7, 0, rfl, rfl⟩ rfl
  have h10 := h9.step (o := Op.exitSelf 1) ⟨⟨(), rfl⟩, 7, 0, rfl, rfl⟩ rfl
  have h11 := h10.step (o := Op.reparent 1) ⟨⟨(), rfl⟩, 7, 0, 0, rfl⟩ rfl
  have h12 := h11.step (o := Op.reparent 1) ⟨⟨(), rfl⟩, 7, 0, 1, rfl⟩ rfl
  have h13 := h12.step (o := Op.reparent 1) ⟨⟨(), rfl⟩, 7, 0, 2, rfl⟩ rfl
  have h14 := h13.step (o := Op.exitSched 1) ⟨⟨(), rfl⟩, rfl⟩ rfl
  have h15 := h14.step (o := Op.dispatch () 0) ⟨rfl, by decide, rfl, rfl⟩ rfl
  have h16 := h15.step (o := Op.wait 0) ⟨⟨(), rfl⟩, rfl, rfl⟩ rfl
  have h17 := h16.step (o := Op.waitScan 0) ⟨⟨(), rfl⟩, 0, false, rfl⟩ rfl
  have h18 := h17.step (o := Op.waitScan 0) ⟨⟨(), rfl⟩, 1, false, rfl⟩ rfl
  have h19 := h18.step (o := Op.waitLock 0 true) ⟨⟨(), rfl⟩, 1, rfl, rfl⟩ rfl
  exact ⟨_, h19, rfl, (exit_wait_once h19).2.1.2.1⟩

/-- What a step can do to the state of a slot. -/
inductive Moves (s : State κ) (o : Op κ) (r : Nat) : ProcState → ProcState → Prop
  | stay (x : ProcState) : Moves s o r x x
  | create : o = .userinit r ∨ (∃ p, o = .fork p r .ok) → Moves s o r .UNUSED .RUNNABLE
  | run (c : κ) : o = .dispatch c r → Moves s o r .RUNNABLE .RUNNING
  | yield : o = .yield r → Moves s o r .RUNNING .RUNNABLE
  | sleep : Moves s o r .RUNNING .SLEEPING
  | wake : o.wakes → Moves s o r .SLEEPING .RUNNABLE
  | exit : o = .reparent r → Moves s o r .RUNNING .ZOMBIE
  | reap (p : Nat) : o = .waitLock p true → (s.proc r).parent = some p →
      Moves s o r .ZOMBIE .UNUSED

omit [DecidableEq κ] in
theorem Moves.slot {o : Op κ} (hproc : s'.proc = update s.proc q x)
    (hq : Moves s o q (s.proc q).state x.state) (r : Nat) :
    Moves s o r (s.proc r).state (s'.proc r).state := by
  rw [hproc]
  by_cases hr : r = q
  · rw [hr, update_self]
    exact hq
  · rw [update_of_ne hr]
    exact Moves.stay _

omit [DecidableEq κ] in
theorem Moves.woken {o : Op κ} (hx : Woken o y x) : Moves s o r y.state x.state := by
  rcases hx.state with heq | ⟨h1, h2⟩
  · rw [heq]
    exact Moves.stay _
  · rw [h1, h2]
    exact Moves.wake hx.wakes

theorem Effect.moves (h : Inv n s) (hc : Cpus s) (hl : Locks s) {o : Op κ} (he : Effect n o s s')
    (r : Nat) : Moves s o r (s.proc r).state (s'.proc r).state := by
  have hrun {p : Nat} {l : Pc} (hon : s.onCpu p) (hpc : s.pc p = l) (hl : l ≠ .exitSched) :
      (s.proc p).state = .RUNNING := (hc.state p hon).resolve_right (by rw [hpc]; exact hl)
  cases he with
  | walk | leave => exact Moves.stay _
  | woken hx => exact Moves.slot rfl (.woken hx) r
  | init ho => exact Moves.slot (x := (s.proc _).wakeup _) rfl (.woken (wakeup_woken ho _)) r
  | start ho hs =>
    refine Moves.slot hs.proc ?_ r
    rw [hs.old, hs.state]
    exact Moves.run _ ho
  | @yield p ho hon hun =>
    refine Moves.slot rfl ?_ r
    rw [hrun hon rfl fun hs => by rw [hs] at hun; exact hun]
    exact Moves.yield ho
  | sleep hon hpc =>
    refine Moves.slot rfl ?_ r
    rw [hrun hon hpc nofun]
    exact Moves.sleep
  | @waitSleep p _ _ hon hpc _ =>
    refine Moves.slot (q := p) rfl ?_ r
    rw [hrun hon hpc nofun]
    exact Moves.sleep
  | @unused p np a x _ hold hx =>
    refine Moves.slot (allocpid_proc_update s np x) ?_ r
    rw [hold, hx]
    exact Moves.stay _
  | fork ho _ _ _ hold =>
    refine Moves.slot (allocpid_proc_update ..) ?_ r
    rw [hold]
    exact Moves.create (Or.inr ⟨_, ho⟩)
  | userinit ho _ _ hold =>
    refine Moves.slot (allocpid_proc_update ..) ?_ r
    rw [hold]
    exact Moves.create (Or.inl ho)
  | @reap p i ho _ hpc _ hz =>
    have hknown := h.known hpc
    unfold State.waitLock
    rw [if_pos hz]
    refine Moves.slot (q := i) rfl ?_ r
    rw [hz]
    exact Moves.reap p ho hknown.1
  | @zombie p op i status ho hon hpc hi =>
    -- The parent may wake up, and `p` becomes a zombie.
    obtain ⟨hop, _, _⟩ := hl.reparent op (by rw [hpc]; rfl)
    unfold State.reparent
    rw [if_neg hi]
    by_cases hrp : r = p
    · rw [hrp]
      change Moves s _ p _ (update (s.wakeup1 op).proc p _ p).state
      rw [update_self, hrun hon hpc nofun]
      exact Moves.exit ho
    · change Moves s _ r _ (update (s.wakeup1 op).proc p _ r).state
      rw [update_of_ne hrp]
      exact Moves.slot (q := op) rfl (.woken (wakeup_woken (by rw [ho]; trivial) _)) r
  | @adopt p op i status _ hpc =>
    refine Moves.slot (q := i) (x := { s.proc i with parent := s.initproc }) rfl ?_ r
    exact Moves.stay _

/-- No process runs on two CPUs and none is lost. -/
theorem running_iff_on_one_cpu (hr : Reachable n s) :
    (∀ p, s.lock p = none → ((s.proc p).state = .RUNNING ↔ ∃! c, s.cpu c = some p)) ∧
    (∀ p c c', s.cpu c = some p → s.cpu c' = some p → c = c') ∧
    (∀ (o : Op κ) p, o.enabled n s → (s.proc p).state = .ZOMBIE →
      ((o.step n s).proc p).state ≠ .ZOMBIE → ((o.step n s).proc p).state = .UNUSED ∧
        ∃ q, o = .waitLock q true ∧ (s.proc p).parent = some q) ∧
    ∀ (o : Op κ) p, o.enabled n s → (s.proc p).state ≠ .RUNNABLE →
      ((o.step n s).proc p).state = .RUNNABLE →
      (s.proc p).state = .RUNNING ∧ o = .yield p ∨ (s.proc p).state = .SLEEPING ∧ o.wakes ∨
      (s.proc p).state = .UNUSED ∧ (o = .userinit p ∨ ∃ q, o = .fork q p .ok) := by
  obtain ⟨h, hc, hl⟩ := reachable_inv hr
  refine ⟨?_, fun p c c' => hc.inj c c' p, ?_, ?_⟩
  · intro p hfree
    constructor
    · intro hrun
      obtain ⟨c, hcp⟩ := hc.running p hrun
      exact ⟨c, hcp, fun d hd => hc.inj d c p hd hcp⟩
    · intro ⟨c, hcp, _⟩
      apply (hc.state p ⟨c, hcp⟩).resolve_right
      intro hx
      rw [hl.wait (p := p) (by rw [hx]; rfl)] at hfree
      cases hfree
  · intro o p he hz hz'
    have hm := (step_effect he).moves h hc hl p
    generalize (s.proc p).state = x at hz hm
    generalize ((o.step n s).proc p).state = y at hz' hm
    cases hm with
    | stay => exact absurd hz hz'
    | reap q ho hq => exact ⟨rfl, q, ho, hq⟩
    | create | run | yield | sleep | wake | exit => cases hz
  · intro o p he hx hy
    have hm := (step_effect he).moves h hc hl p
    generalize (s.proc p).state = x at hx hm ⊢
    generalize ((o.step n s).proc p).state = y at hy hm
    cases hm with
    | stay => exact absurd hy hx
    | yield ho => exact Or.inl ⟨rfl, ho⟩
    | wake ho => exact Or.inr (Or.inl ⟨rfl, ho⟩)
    | create ho => exact Or.inr (Or.inr ⟨rfl, ho⟩)
    | run | sleep | exit | reap => cases hy

omit [DecidableEq κ] in
/-- The first process and its child, on a CPU each. -/
theorem running_iff_on_one_cpu_two : ∃ s : State (Fin 2), Reachable 2 s ∧
    ((s.proc 0).state = .RUNNING ∧ s.cpu 0 = some 0 ∧ ∃! c, s.cpu c = some 0) ∧
    (s.proc 1).state = .RUNNING ∧ s.cpu 1 = some 1 ∧ ∃! c, s.cpu c = some 1 := by
  have h0 : Reachable 2 (bootTable (Fin 2)) := bootTable_reachable 2
  have h1 := h0.step (o := Op.userinit 0) ⟨rfl, by decide, rfl, rfl⟩ rfl
  have h2 := h1.step (o := Op.dispatch 0 0) ⟨rfl, by decide, rfl, rfl⟩ rfl
  have h3 := h2.step (o := Op.fork 0 1 .ok) ⟨⟨0, rfl⟩, rfl, by decide, rfl, rfl⟩ rfl
  have h4 := h3.step (o := Op.dispatch (1 : Fin 2) 1) ⟨rfl, by decide, rfl, rfl⟩ rfl
  have hone := (running_iff_on_one_cpu h4).1
  exact ⟨_, h4, ⟨rfl, rfl, (hone 0 rfl).mp rfl⟩, rfl, rfl, (hone 1 rfl).mp rfl⟩

end Steps

end Xv6.Sched
