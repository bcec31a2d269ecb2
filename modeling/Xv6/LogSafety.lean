import Xv6.LogProtocol

/-! The invariant of the log under every interleaving, and what follows from it
for commits and sleepers. -/
namespace Xv6

open Function

variable {N : Nat}

def LogPc.busy : LogPc → Nat
  | .inOp _ _ | .logging _ _ _ => 1
  | _ => 0

def LogPc.committer : LogPc → Nat
  | .commit _ => 1
  | _ => 0

def LogPc.op : LogPc → Option Nat
  | .inOp op _ | .logging op _ _ => some op
  | _ => none

/-- What the running commit has written home so far. -/
def CommitPhase (s : LogState N) : CommitPc → Prop
  | .start | .write_log _ | .write_head => s.installed = []
  | .install_trans i => s.installed = s.lh.take i
  | .clear => s.installed = s.lh
  | .erase_head | .finish => s.lh = []

/-- The record of what was logged agrees with the commits. -/
structure LogHistory (s : LogState N) : Prop where
  fresh : ∀ op b e, (op, b, e) ∈ s.logged → op < s.nextop
  same : ∀ op b e b' e', (op, b, e) ∈ s.logged → (op, b', e') ∈ s.logged → e = e'
  written : ∀ op b e l, (op, b, e) ∈ s.logged → s.commits[e]? = some l → b ∈ l
  pending : ∀ op b e, (op, b, e) ∈ s.logged → s.commits[e]? = none →
    e = s.commits.length ∧ (b ∈ s.lh ∨ b ∈ s.installed)
  running : ∀ p op, (s.pc p).op = some op → op < s.nextop ∧
    ∀ b e, (op, b, e) ∈ s.logged → e = s.commits.length

structure LogInv (s : LogState N) : Prop where
  outstanding : s.outstanding = total LogPc.busy s.pc
  committing : total LogPc.committer s.pc = if s.committing then 1 else 0
  exclusive : s.committing = true → s.outstanding = 0
  nodup : s.lh.Nodup
  quiet : s.committing = false → s.outstanding = 0 → s.lh = [] ∧ ∀ p, s.pc p ≠ .asleep
  between : s.committing = false → s.installed = []
  phase : ∀ p c, s.pc p = .commit c → CommitPhase s c
  history : LogHistory s

section Facts
variable {s : LogState N} {p : Fin N}

@[simp] theorem move_pc (s : LogState N) (p : Fin N) (x : LogPc) :
    (s.move p x).pc = update s.pc p x := rfl

theorem LogPc.busy_of_op {x : LogPc} {op : Nat} (h : x.op = some op) : x.busy = 1 := by
  cases x with
  | inOp op' used => rfl
  | logging op' used b => rfl
  | _ => cases h

theorem LogInv.idle_ops (h : LogInv s) (h0 : s.outstanding = 0) (p : Fin N) :
    (s.pc p).op = none := by
  have hz : total LogPc.busy s.pc = 0 := by
    have := h.outstanding
    omega
  have hp := (total_eq_zero _ _).mp hz p
  cases ho : (s.pc p).op with
  | none => rfl
  | some op =>
    rw [LogPc.busy_of_op ho] at hp
    cases hp

theorem LogInv.committer (h : LogInv s) {c : CommitPc} (hp : s.pc p = .commit c) :
    s.committing = true := by
  have hle := le_total LogPc.committer s.pc p
  rw [hp, h.committing] at hle
  by_contra hc
  rw [if_neg hc] at hle
  change 1 ≤ 0 at hle
  omega

theorem LogInv.only_committer (h : LogInv s) {c : CommitPc} (hp : s.pc p = .commit c) {q : Fin N}
    (hq : q ≠ p) {c' : CommitPc} : s.pc q ≠ .commit c' := by
  intro hc'
  have hsum := total_update LogPc.committer s.pc p .idle
  have hle := le_total LogPc.committer (update s.pc p .idle) q
  rw [update_of_ne hq, hc'] at hle
  have htot := h.committing
  rw [if_pos (h.committer hp)] at htot
  rw [hp, htot] at hsum
  change 1 ≤ _ at hle
  change _ + 1 = 1 + 0 at hsum
  omega

theorem LogInv.busy_committing (h : LogInv s) (hp : (s.pc p).busy = 1) :
    s.committing = false ∧ 1 ≤ s.outstanding := by
  have hle := le_total LogPc.busy s.pc p
  have hout := h.outstanding
  have hone : 1 ≤ s.outstanding := by omega
  refine ⟨?_, hone⟩
  by_contra hc
  rw [Bool.not_eq_false] at hc
  have := h.exclusive hc
  omega

theorem CommitPhase.congr {s' : LogState N} {c : CommitPc} (h : CommitPhase s c)
    (hlh : s'.lh = s.lh) (hin : s'.installed = s.installed) : CommitPhase s' c := by
  cases c with
  | _ =>
    unfold CommitPhase at h ⊢
    simp only [hlh, hin] at h ⊢
    exact h

end Facts

section Preserved
variable {s : LogState N} {p : Fin N}

/-- A process moves, and nothing is logged or committed. -/
theorem LogHistory.moved {s' : LogState N} {x : LogPc} (h : LogHistory s)
    (hpc : s'.pc = update s.pc p x) (hlogged : s'.logged = s.logged)
    (hcommits : s'.commits = s.commits) (hnext : s.nextop ≤ s'.nextop)
    (hin : ∀ b, b ∈ s.lh ∨ b ∈ s.installed → b ∈ s'.lh ∨ b ∈ s'.installed)
    (hop : ∀ op, x.op = some op → op < s'.nextop ∧
      ∀ b e, (op, b, e) ∈ s.logged → e = s.commits.length) : LogHistory s' where
  fresh := by
    rw [hlogged]
    exact fun op b e hl => (h.fresh op b e hl).trans_le hnext
  same := by
    rw [hlogged]
    exact h.same
  written := by
    rw [hlogged, hcommits]
    exact h.written
  pending := by
    rw [hlogged, hcommits]
    intro op b e hl hcm
    obtain ⟨he, hb⟩ := h.pending op b e hl hcm
    exact ⟨he, hin b hb⟩
  running := by
    rw [hpc, hlogged, hcommits]
    intro q op hq
    by_cases hqp : q = p
    · rw [hqp, update_self] at hq
      exact hop op hq
    · rw [update_of_ne hqp] at hq
      obtain ⟨hlt, he⟩ := h.running q op hq
      exact ⟨hlt.trans_le hnext, he⟩

/-- The invariant after a step of one process, whose old and new place count in the same way
as the variables of the log. -/
theorem LogInv.moved {s' : LogState N} {x : LogPc} (h : LogInv s) (hpc : s'.pc = update s.pc p x)
    (hout : s'.outstanding - s.outstanding = (x.busy : Int) - (s.pc p).busy)
    (hcom : (if s'.committing then 1 else 0) + (s.pc p).committer =
      (if s.committing then 1 else 0) + x.committer)
    (hexclusive : s'.committing = true → s'.outstanding = 0) (hnodup : s'.lh.Nodup)
    (hquiet : s'.committing = false → s'.outstanding = 0 → s'.lh = [] ∧ ∀ q, s'.pc q ≠ .asleep)
    (hbetween : s'.committing = false → s'.installed = [])
    (hphase : ∀ c, x = .commit c → CommitPhase s' c)
    (hothers : ∀ q c, q ≠ p → s.pc q = .commit c → CommitPhase s' c)
    (hhistory : LogHistory s') : LogInv s' where
  outstanding := by
    have hsum := total_update LogPc.busy s.pc p x
    have hold := h.outstanding
    rw [hpc]
    omega
  committing := by
    have hsum := total_update LogPc.committer s.pc p x
    have hold := h.committing
    rw [hpc]
    omega
  exclusive := hexclusive
  nodup := hnodup
  quiet := hquiet
  between := hbetween
  phase q c hq := by
    rw [hpc] at hq
    obtain ⟨_, hx⟩ | ⟨hqp, hq⟩ := update_eq hq
    · exact hphase c hx
    · exact hothers q c hqp hq
  history := hhistory

theorem LogInv.move {x : LogPc} (h : LogInv s)
    (hsame : (x.busy, x.committer, x.op) = ((s.pc p).busy, (s.pc p).committer, (s.pc p).op))
    (hs : x = .asleep → s.committing = true ∨ s.outstanding ≠ 0)
    (hph : ∀ c, x = .commit c → CommitPhase s c) : LogInv (s.move p x) := by
  simp only [Prod.mk.injEq] at hsame
  obtain ⟨hb, hc, ho⟩ := hsame
  apply h.moved rfl
  · rw [hb]
    exact (Int.sub_self _).trans (Int.sub_self _).symm
  · rw [hc]
    rfl
  · exact h.exclusive
  · exact h.nodup
  · intro hf h0
    obtain ⟨hlh, hno⟩ := h.quiet hf h0
    refine ⟨hlh, fun q hq => ?_⟩
    obtain ⟨_, hx⟩ | ⟨_, hq⟩ := update_eq hq
    · rcases hs hx with hc' | hn
      · have hf' : s.committing = false := hf
        rw [hf'] at hc'
        cases hc'
      · exact hn h0
    · exact hno q hq
  · exact h.between
  · exact fun c hx => (hph c hx).congr rfl rfl
  · exact fun q c _ hq => (h.phase q c hq).congr rfl rfl
  · refine h.history.moved rfl rfl rfl le_rfl (fun _ hb => hb) ?_
    intro op hop
    exact h.history.running p op (ho ▸ hop)

theorem wakeup_pc (s : LogState N) (q : Fin N) :
    s.wakeup.pc q = if s.pc q = .asleep then .starting else s.pc q := rfl

theorem wakeup_weight (w : LogPc → Nat) (hw : w .starting = w .asleep) (q : Fin N) :
    w (s.wakeup.pc q) = w (s.pc q) := by
  rw [wakeup_pc]
  split_ifs with hq
  · rw [hq, hw]
  · rfl

theorem wakeup_op (q : Fin N) : (s.wakeup.pc q).op = (s.pc q).op := by
  rw [wakeup_pc]
  split_ifs with hq
  · rw [hq]
    rfl
  · rfl

theorem LogInv.wakeup (h : LogInv s) : LogInv s.wakeup where
  outstanding := by
    rw [total_congr LogPc.busy s.pc _ (wakeup_weight _ rfl)]
    exact h.outstanding
  committing := by
    rw [total_congr LogPc.committer s.pc _ (wakeup_weight _ rfl)]
    exact h.committing
  exclusive := h.exclusive
  nodup := h.nodup
  quiet hf h0 := by
    refine ⟨(h.quiet hf h0).1, fun q => ?_⟩
    rw [wakeup_pc, if_neg ((h.quiet hf h0).2 q)]
    exact (h.quiet hf h0).2 q
  between := h.between
  phase q c hq := by
    rw [wakeup_pc] at hq
    split_ifs at hq with ha
    exact (h.phase q c hq).congr rfl rfl
  history := {
    fresh := h.history.fresh
    same := h.history.same
    written := h.history.written
    pending := h.history.pending
    running := fun q op hq => h.history.running q op (by rw [← wakeup_op]; exact hq) }

theorem LogInv.enter (h : LogInv s) (hp : s.pc p = .starting) (hc : s.committing = false) :
    LogInv { s.move p (.inOp s.nextop []) with
      outstanding := s.outstanding+1
      nextop := s.nextop+1 } := by
  apply h.moved rfl
  · rw [hp]
    exact add_sub_cancel_left _ _
  · rw [hp]
    rfl
  · intro hc'
    change s.committing = true at hc'
    rw [hc] at hc'
    cases hc'
  · exact h.nodup
  · intro _ h0
    have hout := h.outstanding
    change s.outstanding+1 = 0 at h0
    omega
  · exact h.between
  · exact nofun
  · exact fun q c _ hq => (h.phase q c hq).congr rfl rfl
  · refine h.history.moved rfl rfl rfl (Nat.le_succ _) (fun _ hb => hb) ?_
    -- The number is new, so nothing is logged under it.
    intro op hop
    obtain rfl := Option.some.inj hop
    exact ⟨Nat.lt_succ_self _, fun b e hl => absurd (h.history.fresh _ b e hl) (lt_irrefl _)⟩

/-- The header after `log_write` of block `b`. -/
theorem logged_lh (lh : List Nat) (b : Nat) :
    lh ⊆ (if b ∈ lh then lh else lh ++ [b]) ∧ b ∈ if b ∈ lh then lh else lh ++ [b] := by
  split_ifs with hin
  · exact ⟨List.Subset.refl _, hin⟩
  · exact ⟨List.subset_append_left _ _, by simp⟩

theorem LogInv.append {op b : Nat} {used : List Nat} (h : LogInv s)
    (hp : s.pc p = .logging op used b) :
    LogInv { s.move p (.inOp op (used.insert b)) with
      lh := if b ∈ s.lh then s.lh else s.lh ++ [b]
      logged := (op, b, s.commits.length) :: s.logged } := by
  have hbusy : (s.pc p).busy = 1 := by rw [hp]; rfl
  have hpop : (s.pc p).op = some op := by rw [hp]; rfl
  obtain ⟨hcom, hone⟩ := h.busy_committing hbusy
  obtain ⟨hlt, hrun⟩ := h.history.running p op hpop
  -- Where the processes stand changes as in a plain move.
  have hmove : LogInv (s.move p (.inOp op (used.insert b))) := by
    exact h.move (by rw [hp]; rfl) nofun nofun
  obtain ⟨hsub, hb⟩ := logged_lh s.lh b
  exact {
    outstanding := hmove.outstanding
    committing := hmove.committing
    exclusive := hmove.exclusive
    nodup := by
      dsimp only
      split_ifs with hin
      · exact h.nodup
      · rw [List.nodup_append]
        refine ⟨h.nodup, List.nodup_singleton b, ?_⟩
        intro x hx y hy hxy
        rw [List.mem_singleton] at hy
        exact hin (hy ▸ hxy ▸ hx)
    quiet := by
      intro _ h0
      change s.outstanding = 0 at h0
      omega
    between := h.between
    phase := by
      intro q c hq
      have hc := hmove.committer hq
      change s.committing = true at hc
      rw [hcom] at hc
      cases hc
    history := {
      fresh := by
        intro op' b' e hl
        rcases List.mem_cons.mp hl with heq | hl
        · cases heq
          exact hlt
        · exact h.history.fresh op' b' e hl
      same := by
        intro op' b1 e1 b2 e2 h1 h2
        rcases List.mem_cons.mp h1 with heq1 | h1
        · cases heq1
          rcases List.mem_cons.mp h2 with heq2 | h2
          · cases heq2
            rfl
          · exact (hrun b2 e2 h2).symm
        · rcases List.mem_cons.mp h2 with heq2 | h2
          · cases heq2
            exact hrun b1 e1 h1
          · exact h.history.same op' b1 e1 b2 e2 h1 h2
      written := by
        intro op' b' e l hl hcm
        rcases List.mem_cons.mp hl with heq | hl
        · cases heq
          have hnone : s.commits[s.commits.length]? = none := List.getElem?_eq_none le_rfl
          change s.commits[s.commits.length]? = some l at hcm
          rw [hnone] at hcm
          cases hcm
        · exact h.history.written op' b' e l hl hcm
      pending := by
        intro op' b' e hl hcm
        rcases List.mem_cons.mp hl with heq | hl
        · cases heq
          exact ⟨rfl, Or.inl hb⟩
        · obtain ⟨he, hin⟩ := h.history.pending op' b' e hl hcm
          exact ⟨he, hin.imp_left fun hx => hsub hx⟩
      running := by
        intro q op' hq
        obtain ⟨hlt', he'⟩ := hmove.history.running q op' hq
        refine ⟨hlt', fun b' e hl => ?_⟩
        rcases List.mem_cons.mp hl with heq | hl
        · cases heq
          rfl
        · exact he' b' e hl } }

theorem LogInv.leave {op : Nat} {used : List Nat} (h : LogInv s) (hp : s.pc p = .inOp op used)
    (hc : s.committing = false) (hn : s.outstanding-1 ≠ 0) :
    LogInv { s.wakeup.move p .idle with outstanding := s.outstanding-1 } := by
  have hpw : s.wakeup.pc p = .inOp op used := by
    rw [wakeup_pc, hp]
    rfl
  apply h.wakeup.moved rfl
  · rw [hpw]
    exact sub_sub_cancel_left _ _
  · rw [hpw]
    rfl
  · intro hc'
    change s.committing = true at hc'
    rw [hc] at hc'
    cases hc'
  · exact h.nodup
  · exact fun _ h0 => absurd h0 hn
  · exact h.between
  · exact nofun
  · exact fun q c _ hq => (h.wakeup.phase q c hq).congr rfl rfl
  · exact h.wakeup.history.moved rfl rfl rfl le_rfl (fun _ hb => hb) nofun

theorem LogInv.last {op : Nat} {used : List Nat} (h : LogInv s) (hp : s.pc p = .inOp op used)
    (hc : s.committing = false) (hn : s.outstanding-1 = 0) :
    LogInv { s.move p (.commit .start) with
      outstanding := s.outstanding-1
      committing := true } := by
  apply h.moved rfl
  · rw [hp]
    exact sub_sub_cancel_left _ _
  · rw [hp, hc]
    rfl
  · exact fun _ => hn
  · exact h.nodup
  · exact nofun
  · exact nofun
  · intro c hx
    cases hx
    exact h.between hc
  · exact fun q c _ hq => (h.phase q c hq).congr rfl rfl
  · exact h.history.moved rfl rfl rfl le_rfl (fun _ hb => hb) nofun

/-- A step of the commit that moves on and changes `lh` or `installed`. -/
theorem LogInv.commitStep {c c' : CommitPc} {lh installed : List Nat} (h : LogInv s)
    (hp : s.pc p = .commit c) (hnd : lh.Nodup)
    (hph : CommitPhase { s with lh := lh, installed := installed } c')
    (hin : ∀ b, b ∈ s.lh ∨ b ∈ s.installed → b ∈ lh ∨ b ∈ installed) :
    LogInv { s.move p (.commit c') with lh := lh, installed := installed } := by
  have hcom := h.committer hp
  have hbusy (hf : s.committing = false) : False := by
    rw [hcom] at hf
    cases hf
  apply h.moved rfl
  · rw [hp]
    exact Int.sub_self _
  · rw [hp]
    rfl
  · exact h.exclusive
  · exact hnd
  · exact fun hf => (hbusy hf).elim
  · exact fun hf => (hbusy hf).elim
  · intro d hx
    cases hx
    exact hph.congr rfl rfl
  · exact fun q d hqp hq => absurd hq (h.only_committer hp hqp)
  · exact h.history.moved rfl rfl rfl le_rfl hin nofun

theorem LogInv.install {i b : Nat} (h : LogInv s) (hp : s.pc p = .commit (.install_trans i))
    (hb : s.lh[i]? = some b) :
    LogInv { s.move p (.commit (.install_trans (i+1))) with installed := s.installed ++ [b] } := by
  have hph : s.installed = s.lh.take i := h.phase p _ hp
  obtain ⟨hi, hget⟩ := List.getElem?_eq_some_iff.mp hb
  apply h.commitStep hp h.nodup
  · change s.installed ++ [b] = s.lh.take (i+1)
    rw [hph, List.take_add_one, hb]
    rfl
  · intro x hx
    exact hx.imp_right fun hx => List.mem_append_left _ hx

theorem LogInv.finish (h : LogInv s) (hp : s.pc p = .commit .finish) :
    LogInv { s.wakeup.move p .idle with
      committing := false
      installed := []
      commits := s.commits ++ [s.installed] } := by
  have hcom := h.committer hp
  have h0 := h.exclusive hcom
  have hlh : s.lh = [] := h.phase p _ hp
  have hw := h.wakeup
  have hpw : s.wakeup.pc p = .commit .finish := by
    rw [wakeup_pc, hp]
    rfl
  apply hw.moved rfl
  · rw [hpw]
    exact Int.sub_self _
  · have hcw : s.wakeup.committing = true := hcom
    rw [hpw, if_pos hcw]
    rfl
  · exact nofun
  · exact h.nodup
  · intro _ _
    refine ⟨hlh, fun q hq => ?_⟩
    obtain ⟨_, hx⟩ | ⟨_, hq⟩ := update_eq hq
    · cases hx
    · rw [wakeup_pc] at hq
      split_ifs at hq with ha
      exact ha hq
  · exact fun _ => rfl
  · exact nofun
  · exact fun q c hqp hq => absurd hq (hw.only_committer hpw hqp)
  · exact {
      fresh := h.history.fresh
      same := h.history.same
      written := by
        intro op b e l hl hcm
        change (s.commits ++ [s.installed])[e]? = some l at hcm
        cases hold : s.commits[e]? with
        | some l' =>
          have hlt := (List.getElem?_eq_some_iff.mp hold).1
          rw [List.getElem?_append_left hlt, hold] at hcm
          cases hcm
          exact h.history.written op b e _ hl hold
        | none =>
          -- What was logged since the last commit is what this one has installed.
          obtain ⟨rfl, hb⟩ := h.history.pending op b e hl hold
          rw [List.getElem?_concat_length] at hcm
          cases hcm
          rw [hlh] at hb
          exact hb.resolve_left List.not_mem_nil
      pending := by
        intro op b e hl hcm
        change (s.commits ++ [s.installed])[e]? = none at hcm
        exfalso
        rw [List.getElem?_eq_none_iff, List.length_append, List.length_singleton] at hcm
        cases hold : s.commits[e]? with
        | some l =>
          have hlt := (List.getElem?_eq_some_iff.mp hold).1
          omega
        | none =>
          have he := (h.history.pending op b e hl hold).1
          omega
      running := by
        intro q op hq
        change (update s.wakeup.pc p .idle q).op = some op at hq
        by_cases hqp : q = p
        · subst hqp
          rw [update_self] at hq
          cases hq
        · rw [update_of_ne hqp, wakeup_op, h.idle_ops h0 q] at hq
          cases hq }

theorem LogStep.inv {may : List Nat → Prop} {s' : LogState N} (hs : LogStep may s s')
    (h : LogInv s) : LogInv s' := by
  cases hs with
  | @start p hp =>
    refine h.move ?_ nofun nofun
    rcases hp with hp | hp <;> rw [hp] <;> rfl
  | @sleep p hp hfull =>
    refine h.move (by rw [hp]; rfl) ?_ nofun
    intro _
    by_cases hc : s.committing = true
    · exact Or.inl hc
    · right
      intro h0
      -- With nothing outstanding the log is empty, and one operation fits.
      have hlh := (h.quiet (Bool.eq_false_iff.mpr hc) h0).1
      have hroom := hfull.resolve_left hc
      rw [hlh, h0] at hroom
      exact absurd hroom (by decide)
  | enter hp hc hroom => exact h.enter hp hc
  | @check p op b used hp hmay => exact h.move (by rw [hp]; rfl) nofun nofun
  | append hp => exact h.append hp
  | leave hp hc hn => exact h.leave hp hc hn
  | last hp hc hn => exact h.last hp hc hn
  | @empty p hp hlh =>
    refine h.move (by rw [hp]; rfl) nofun ?_
    intro c hc
    cases hc
    exact hlh
  | @write p c c' hp hc' h1 h2 h3 h4 =>
    have hnil : s.installed = [] := by
      have hph := h.phase p c hp
      cases c with
      | start => exact hph
      | write_log i => exact hph
      | write_head => exact hph
      | install_trans i => exact absurd rfl (h4 i)
      | clear => exact absurd rfl h3
      | erase_head => exact absurd rfl h2
      | finish => exact absurd rfl h1
    refine h.move (by rw [hp]; rfl) nofun ?_
    intro d hd
    cases hd
    rcases hc' with rfl | ⟨i, rfl⟩ | rfl
    · exact hnil
    · exact hnil
    · exact hnil
  | install hp hb => exact h.install hp hb
  | @installed p i hp hnone =>
    have hph : s.installed = s.lh.take i := h.phase p _ hp
    have hle := List.getElem?_eq_none_iff.mp hnone
    refine h.move (by rw [hp]; rfl) nofun ?_
    intro c hc
    cases hc
    change s.installed = s.lh
    rw [hph, List.take_of_length_le hle]
  | @clear p hp =>
    have hph : s.installed = s.lh := h.phase p _ hp
    apply h.commitStep hp List.nodup_nil
    · exact rfl
    · intro b hb
      right
      change b ∈ s.installed
      rw [hph] at hb ⊢
      exact hb.elim id id
  | @erase p hp =>
    have hph : s.lh = [] := h.phase p _ hp
    refine h.move (by rw [hp]; rfl) nofun ?_
    intro c hc
    cases hc
    exact hph
  | finish hp => exact h.finish hp

theorem LogInv.init (N size : Nat) : LogInv (LogState.init N size) where
  outstanding := by
    have hz : total LogPc.busy (LogState.init N size).pc = 0 :=
      (total_eq_zero _ _).mpr fun _ => rfl
    rw [hz]
    rfl
  committing := (total_eq_zero _ _).mpr fun _ => rfl
  exclusive hc := by cases hc
  nodup := List.nodup_nil
  quiet _ _ := ⟨rfl, fun _ hc => by cases hc⟩
  between _ := rfl
  phase _ _ hc := by cases hc
  history := {
    fresh := fun _ _ _ hl => by cases hl
    same := fun _ _ _ _ _ hl => by cases hl
    written := fun _ _ _ _ hl => by cases hl
    pending := fun _ _ _ hl => by cases hl
    running := fun _ _ hq => by cases hq }

theorem LogReachable.inv {size : Nat} {may : List Nat → Prop} (h : LogReachable N size may s) :
    LogInv s := by
  induction h with
  | init => exact LogInv.init N size
  | step _ he hrun ih => exact (LogOp.run_ends he () _ hrun).inv ih

end Preserved

/-! A commit that has started ends. -/

section Commit
variable {s : LogState N} {p : Fin N} {c : CommitPc}

/-- The steps that a commit still has to make, with `n` blocks in the log. -/
def CommitPc.left (n : Nat) : CommitPc → Nat
  | .start => 2*n+7
  | .write_log i => (n-i)+n+6
  | .write_head => n+5
  | .install_trans i => (n-i)+4
  | .clear => 3
  | .erase_head => 2
  | .finish => 1

theorem logCommit_left (hp : s.pc p = .commit c) (hc : c ≠ .finish) :
    Runs (logCommit p) s fun _ s' => s'.commits = s.commits ∧ s'.logged = s.logged ∧
      ∃ c', s'.pc p = .commit c' ∧ c'.left s'.lh.length < c.left s.lh.length := by
  have hat (c' : CommitPc) : (s.move p (.commit c')).pc p = .commit c' := update_self ..
  unfold logCommit
  rw [runs_bind, runs_get, hp]
  cases c with
  | start =>
    refine runs_set.mpr ⟨rfl, rfl, _, hat _, ?_⟩
    change CommitPc.left s.lh.length _ < 2*s.lh.length + 7
    split_ifs <;> simp only [CommitPc.left] <;> omega
  | write_log i =>
    refine runs_set.mpr ⟨rfl, rfl, _, hat _, ?_⟩
    change CommitPc.left s.lh.length _ < s.lh.length - i + s.lh.length + 6
    split_ifs <;> simp only [CommitPc.left] <;> omega
  | write_head =>
    refine runs_set.mpr ⟨rfl, rfl, _, hat _, ?_⟩
    change s.lh.length - 0 + 4 < s.lh.length + 5
    omega
  | install_trans i =>
    cases hb : s.lh[i]? with
    | none =>
      simp only [hb]
      refine runs_set.mpr ⟨rfl, rfl, _, hat _, ?_⟩
      change 3 < s.lh.length - i + 4
      omega
    | some b =>
      simp only [hb]
      refine runs_set.mpr ⟨rfl, rfl, .install_trans (i+1), hat _, ?_⟩
      change s.lh.length - (i+1) + 4 < s.lh.length - i + 4
      have hi := (List.getElem?_eq_some_iff.mp hb).1
      omega
  | clear => exact runs_set.mpr ⟨rfl, rfl, .erase_head, hat _, by change 2 < 3; omega⟩
  | erase_head => exact runs_set.mpr ⟨rfl, rfl, .finish, hat _, by change 1 < 2; omega⟩
  | finish => exact absurd rfl hc

/-- A commit of the blocks `l` is over. -/
def Committed (s s' : LogState N) (p : Fin N) (l : List Nat) : Prop :=
  s'.commits = s.commits ++ [l] ∧ s'.pc p = .idle ∧ s'.committing = false ∧ s'.lh = []

/-- Left alone, the process that commits finishes, and has written all that was logged since
the commit before. -/
theorem LogInv.commit_ends (h : LogInv s) (hp : s.pc p = .commit c) :
    ∃ n, Runs (commitSteps p n) s fun _ s' => ∃ l, Committed s s' p l ∧
      ∀ op b, (op, b, s.commits.length) ∈ s.logged → b ∈ l := by
  induction hk : c.left s.lh.length using Nat.strong_induction_on generalizing s c with
  | _ k ih =>
  subst hk
  by_cases hc : c = .finish
  · subst hc
    have hlh : s.lh = [] := h.phase p _ hp
    refine ⟨1, ?_⟩
    unfold commitSteps logCommit
    rw [runs_bind, runs_bind, runs_get, hp]
    refine runs_set.mpr ((runs_pure _).mpr ⟨s.installed, ⟨rfl, update_self .., rfl, hlh⟩, ?_⟩)
    intro op b hl
    have hb := (h.history.pending op b _ hl (List.getElem?_eq_none le_rfl)).2
    rw [hlh] at hb
    exact hb.resolve_left List.not_mem_nil
  · obtain ⟨_, s1, hrun, hcommits, hlogged, c', hp', hlt⟩ := logCommit_left hp hc
    have h1 : LogInv s1 := ((logCommit_step (fun _ => True) hp).of_eq hrun).inv h
    obtain ⟨n, hn⟩ := ih _ hlt h1 hp' rfl
    unfold Committed at hn
    rw [hcommits, hlogged] at hn
    exact ⟨n+1, runs_bind.mpr ⟨_, s1, hrun, hn⟩⟩

end Commit

/-- What the protocol guarantees in a state of the log. -/
structure LogSafe (may : List Nat → Prop) (s : LogState N) : Prop where
  commit_alone : s.committing = true → s.outstanding = 0
  starts_alone : ∀ (op : LogOp N) (s' : LogState N), op.enabled may s → op.run s = .ok ((), s') →
    s.committing = false → s'.committing = true → s'.outstanding = 0
  committer : (∃ p c, s.pc p = .commit c) ↔ s.committing = true
  no_log_write : s.committing = true → ∀ p b,
    ¬ (LogOp.check p b).enabled may s ∧ ¬ (LogOp.append p).enabled may s
  distinct : s.lh.Nodup
  one_commit : ∀ op, ∃ e, ∀ b e', (op, b, e') ∈ s.logged → e' = e ∧
    (∀ l, s.commits[e]? = some l → b ∈ l) ∧
    (s.commits[e]? = none → b ∈ s.lh ∨ b ∈ s.installed)
  /-- The last `end_op` starts a commit, and no other does. -/
  starts : ∀ p op used, s.pc p = .inOp op used → Runs (logEnd p) s fun _ s' =>
    s'.pc p = (if s.outstanding = 1 then .commit .start else .idle) ∧ s'.logged = s.logged ∧
      s'.commits = s.commits
  /-- The process that commits finishes, and all that was logged is written. -/
  ends : ∀ p c, s.pc p = .commit c → ∃ n, Runs (commitSteps p n) s fun _ s' =>
    ∃ l, Committed s s' p l ∧ ∀ op b, (op, b, s.commits.length) ∈ s.logged → b ∈ l
  no_panic : ∀ op : LogOp N, op.enabled may s → op.run s ≠ .error "log.committing"
  sleepers : (∃ p, s.pc p = .asleep) → 0 < s.outstanding ∨ s.committing = true

section Safe
variable {s : LogState N} {may : List Nat → Prop}

theorem LogInv.one_commit (h : LogInv s) (op : Nat) : ∃ e, ∀ b e', (op, b, e') ∈ s.logged →
    e' = e ∧ (∀ l, s.commits[e]? = some l → b ∈ l) ∧
      (s.commits[e]? = none → b ∈ s.lh ∨ b ∈ s.installed) := by
  by_cases hex : ∃ b e, (op, b, e) ∈ s.logged
  · obtain ⟨b0, e0, h0⟩ := hex
    refine ⟨e0, fun b e hl => ?_⟩
    obtain rfl := h.history.same op b e b0 e0 hl h0
    exact ⟨rfl, fun l hcm => h.history.written op b e l hl hcm,
      fun hcm => (h.history.pending op b e hl hcm).2⟩
  · exact ⟨0, fun b e hl => absurd ⟨b, e, hl⟩ hex⟩

def LogWritePanic (e : String) : Prop :=
  e = "too big a transaction" ∨ e = "log_write outside of trans" ∨
    e = "log_write: block out of bounds"

theorem logCheck_panicsOnly (p : Fin N) (b : Nat) : PanicsOnly (logCheck p b) s LogWritePanic := by
  apply panicsOnly_get
  refine panicsOnly_panicIf (fun _ => Or.inl rfl) ?_
  intro _
  refine panicsOnly_panicIf (fun _ => Or.inr (Or.inl rfl)) ?_
  intro _
  cases s.pc p with
  | inOp op used => exact (runs_set.mpr trivial : Runs _ s fun _ _ => True).panicsOnly
  | _ => exact panicsOnly_pure

theorem logAppend_panicsOnly (p : Fin N) : PanicsOnly (logAppend p) s LogWritePanic := by
  apply panicsOnly_get
  cases s.pc p with
  | logging op used b =>
    refine panicsOnly_panicIf (fun _ => Or.inr (Or.inr rfl)) ?_
    intro _
    exact (runs_set.mpr trivial : Runs _ s fun _ _ => True).panicsOnly
  | _ => exact panicsOnly_pure

theorem LogInv.panicsOnly (h : LogInv s) {op : LogOp N} (he : op.enabled may s) :
    PanicsOnly op.run s LogWritePanic := by
  cases op with
  | begin_op p => exact (runs_modify.mpr trivial : Runs _ s fun _ _ => True).panicsOnly
  | test p => exact (logTest_step may he).panicsOnly
  | wake p => exact (runs_modify.mpr trivial : Runs _ s fun _ _ => True).panicsOnly
  | check p b => exact logCheck_panicsOnly p b
  | append p => exact logAppend_panicsOnly p
  | end_op p =>
    obtain ⟨o, used, hp⟩ := he
    have hbusy : (s.pc p).busy = 1 := by rw [hp]; rfl
    exact (logEnd_step may hp (h.busy_committing hbusy).1).panicsOnly
  | commit p =>
    obtain ⟨c, hp⟩ := he
    exact (logCommit_step may hp).panicsOnly

theorem LogInv.no_log_write (h : LogInv s) (hc : s.committing = true) (p : Fin N) (b : Nat) :
    ¬ (LogOp.check p b).enabled may s ∧ ¬ (LogOp.append p).enabled may s := by
  have hfree (hb : (s.pc p).busy = 1) : False := by
    have hf := (h.busy_committing hb).1
    rw [hc] at hf
    cases hf
  constructor
  · intro he
    obtain ⟨op, used, hp, -⟩ := he
    exact hfree (by rw [hp]; rfl)
  · intro he
    obtain ⟨op, used, b', hp⟩ := he
    exact hfree (by rw [hp]; rfl)

theorem LogInv.committer_iff (h : LogInv s) :
    (∃ p c, s.pc p = .commit c) ↔ s.committing = true := by
  constructor
  · intro hex
    obtain ⟨p, c, hp⟩ := hex
    exact h.committer hp
  · intro hc
    have hone := h.committing
    rw [if_pos hc] at hone
    obtain ⟨p, hp⟩ := exists_of_total_pos LogPc.committer s.pc (by omega)
    cases hpc : s.pc p with
    | commit c => exact ⟨p, c, hpc⟩
    | _ =>
      rw [hpc] at hp
      cases hp

theorem LogInv.starts (h : LogInv s) {p : Fin N} {op : Nat} {used : List Nat}
    (hp : s.pc p = .inOp op used) : Runs (logEnd p) s fun _ s' =>
      s'.pc p = (if s.outstanding = 1 then .commit .start else .idle) ∧ s'.logged = s.logged ∧
        s'.commits = s.commits := by
  have hc := (h.busy_committing (p := p) (by rw [hp]; rfl)).1
  unfold logEnd
  rw [runs_bind, runs_modify, runs_bind, runs_get, runs_bind, runs_panicIf, runs_ite]
  dsimp only
  refine ⟨by simp [hc], ?_, ?_⟩
  · intro h0
    rw [runs_set, if_pos (by omega)]
    exact ⟨update_self .., rfl, rfl⟩
  · intro h0
    rw [runs_set, if_neg (by omega)]
    exact ⟨update_self .., rfl, rfl⟩

/-- The protocol is safe in every reachable state, for any number of processes and
any size of the log. -/
theorem log_protocol_safe {N size : Nat} {may : List Nat → Prop} {s : LogState N}
    (h : LogReachable N size may s) : LogSafe may s := by
  have hi := h.inv
  refine ⟨hi.exclusive, ?_, hi.committer_iff, fun hc p b => hi.no_log_write hc p b, hi.nodup,
    hi.one_commit, fun _ _ _ => hi.starts, fun _ _ => hi.commit_ends, ?_, ?_⟩
  · intro op s' he hrun _ hc'
    exact ((LogOp.run_ends he () s' hrun).inv hi).exclusive hc'
  · intro op he hrun
    rcases hi.panicsOnly he _ hrun with hc | hc | hc
    · exact absurd hc (by decide)
    · exact absurd hc (by decide)
    · exact absurd hc (by decide)
  · intro hex
    obtain ⟨p, hp⟩ := hex
    by_cases hc : s.committing = true
    · exact Or.inr hc
    · left
      have hout := hi.outstanding
      have hne : s.outstanding ≠ 0 := fun h0 =>
        (hi.quiet (Bool.eq_false_iff.mpr hc) h0).2 p hp
      omega

/-- Two operations that log a block in common, and a third process that waits for their
commit. -/
theorem log_protocol_safe_run : ∃ s : LogState 3, LogSafe (fun _ => True) s ∧ s.lh = [5, 6, 7] ∧
    s.pc 1 = .commit (.install_trans 2) ∧ s.installed = [5, 6] ∧ s.pc 2 = .asleep := by
  have hexec : ((runSteps (LogOp.enabled fun _ => True) LogOp.run
      [.begin_op 0, .test 0, .begin_op 1, .test 1, .check 0 5, .append 0, .check 1 6, .append 1,
        .check 0 6, .append 0, .check 1 7, .append 1, .end_op 0, .end_op 1, .begin_op 2, .test 2,
        .commit 1, .commit 1, .commit 1, .commit 1, .commit 1, .commit 1, .commit 1, .commit 1]
      (LogState.init 3 LOGSIZE)).any fun s => decide (s.lh = [5, 6, 7] ∧
        s.pc 1 = .commit (.install_trans 2) ∧ s.installed = [5, 6] ∧ s.pc 2 = .asleep)) = true := by
    decide +kernel
  obtain ⟨s, hs, hend⟩ := (Option.any_eq_true _ _).mp hexec
  exact ⟨s, log_protocol_safe (LogReachable.init.exec hs), of_decide_eq_true hend⟩

end Safe

end Xv6
