import Xv6.LogSafety

/-! Room in the log. `begin_op` admits operations against `LOGSIZE`, but
`log_write` stops one block earlier: three operations that use their whole
reservation do not fit. With one block less for each operation they do. -/
namespace Xv6

open Function

variable {N : Nat}

def AtMost (n : Nat) (used : List Nat) : Prop := used.length ≤ n

instance (n : Nat) : DecidablePred (AtMost n) := fun used =>
  inferInstanceAs (Decidable (used.length ≤ n))

/-- The blocks that an operation may still add to the log. -/
def LogPc.spare : LogPc → Nat
  | .inOp _ used | .logging _ used _ => MAXOPBLOCKS-1 - used.length
  | _ => 0

def LogPc.used : LogPc → List Nat
  | .inOp _ used | .logging _ used _ => used
  | _ => []

/-- With one block of every reservation kept back, the log has room for all that
the operations may still log. -/
structure LogRoom (s : LogState N) : Prop where
  size : s.size = LOGSIZE
  room : s.lh.length + total LogPc.spare s.pc ≤ LOGSIZE-2
  used : ∀ p, (s.pc p).used ⊆ s.lh ∧ AtMost (MAXOPBLOCKS-1) (s.pc p).used
  logging : ∀ p op used b, s.pc p = .logging op used b → AtMost (MAXOPBLOCKS-1) (used.insert b)

section Room
variable {s s' : LogState N} {p : Fin N}

theorem LogPc.spare_le (x : LogPc) : x.spare ≤ (MAXOPBLOCKS-1)*x.busy := by
  cases x with
  | inOp op used => simp only [spare, busy]; omega
  | logging op used b => simp only [spare, busy]; omega
  | _ => exact Nat.le_refl 0

theorem LogRoom.moved {x : LogPc} (h : LogRoom s) (hpc : s'.pc = update s.pc p x)
    (hsize : s'.size = s.size) (hlh : s.lh ⊆ s'.lh)
    (hroom : s'.lh.length + total LogPc.spare (update s.pc p x) ≤ LOGSIZE-2)
    (hu : x.used ⊆ s'.lh ∧ AtMost (MAXOPBLOCKS-1) x.used)
    (hl : ∀ op used b, x = .logging op used b → AtMost (MAXOPBLOCKS-1) (used.insert b)) :
    LogRoom s' where
  size := hsize.trans h.size
  room := by
    rw [hpc]
    exact hroom
  used q := by
    rw [hpc]
    by_cases hqp : q = p
    · rw [hqp, update_self]
      exact hu
    · rw [update_of_ne hqp]
      exact ⟨fun b hb => hlh ((h.used q).1 hb), (h.used q).2⟩
  logging q op used b hq := by
    rw [hpc] at hq
    obtain ⟨_, hx⟩ | ⟨_, hq⟩ := update_eq hq
    · exact hl op used b hx
    · exact h.logging q op used b hq

theorem LogRoom.move {x : LogPc} (h : LogRoom s) (hsp : x.spare ≤ (s.pc p).spare)
    (hu : x.used = (s.pc p).used ∨ x.used = [])
    (hl : ∀ op used b, x = .logging op used b → AtMost (MAXOPBLOCKS-1) (used.insert b)) :
    LogRoom (s.move p x) := by
  refine h.moved rfl rfl (List.Subset.refl _) ?_ ?_ hl
  · have hsum := total_update LogPc.spare s.pc p x
    have hroom := h.room
    change s.lh.length + _ ≤ _
    omega
  · rcases hu with hu | hu
    · rw [hu]
      exact h.used p
    · rw [hu]
      exact ⟨List.nil_subset _, Nat.zero_le _⟩

theorem LogRoom.rest {x : LogPc} (h : LogRoom s) (p : Fin N) (hx : x.busy = 0) :
    LogRoom (s.move p x) := by
  cases x with
  | inOp op used => cases hx
  | logging op used b => cases hx
  | _ => exact h.move (Nat.zero_le _) (Or.inr rfl) fun _ _ _ hc => by cases hc

theorem LogRoom.wakeup (h : LogRoom s) : LogRoom s.wakeup where
  size := h.size
  room := by
    rw [total_congr LogPc.spare s.pc _ (wakeup_weight _ rfl)]
    exact h.room
  used q := by
    rw [wakeup_pc]
    split_ifs
    · exact ⟨List.nil_subset _, Nat.zero_le _⟩
    · exact h.used q
  logging q op used b hq := by
    rw [wakeup_pc] at hq
    split_ifs at hq
    exact h.logging q op used b hq

theorem LogRoom.enter (h : LogRoom s) (hi : LogInv s) (hp : s.pc p = .starting)
    (hc : s.committing = false)
    (hroom : (s.lh.length : Int) + (s.outstanding+1)*MAXOPBLOCKS ≤ LOGSIZE) :
    LogRoom { s.move p (.inOp s.nextop []) with
      outstanding := s.outstanding+1
      nextop := s.nextop+1 } := by
  refine h.moved rfl rfl (List.Subset.refl _) ?_ ⟨List.nil_subset _, Nat.zero_le _⟩ nofun
  have hsum := total_update LogPc.spare s.pc p (.inOp s.nextop [])
  have hle := total_le_mul LogPc.spare s.pc LogPc.busy _ LogPc.spare_le
  have hout := hi.outstanding
  rw [hp] at hsum
  change _ + 0 = _ + 9 at hsum
  change _ ≤ 9*_ at hle
  change s.lh.length + total LogPc.spare (update s.pc p _) ≤ 28
  change _ + _*10 ≤ 30 at hroom
  -- The first operation finds the log empty; beside another one, each of at least
  -- two reservations keeps a block back.
  by_cases h0 : s.outstanding = 0
  · have hlh := (hi.quiet hc h0).1
    rw [hlh, List.length_nil]
    omega
  · omega

theorem LogRoom.append {op b : Nat} {used : List Nat} (h : LogRoom s)
    (hp : s.pc p = .logging op used b) :
    LogRoom { s.move p (.inOp op (used.insert b)) with
      lh := if b ∈ s.lh then s.lh else s.lh ++ [b]
      logged := (op, b, s.commits.length) :: s.logged } := by
  have hsub : used ⊆ s.lh := by
    have hu := (h.used p).1
    rw [hp] at hu
    exact hu
  have hmay := h.logging p op used b hp
  obtain ⟨hmono, hb⟩ := logged_lh s.lh b
  refine h.moved rfl rfl hmono ?_ ⟨?_, hmay⟩ nofun
  · have hsum := total_update LogPc.spare s.pc p (.inOp op (used.insert b))
    have hroom := h.room
    rw [hp] at hsum
    change _ + (9 - used.length) = _ + (9 - (used.insert b).length) at hsum
    change (if b ∈ s.lh then s.lh else s.lh ++ [b]).length +
      total LogPc.spare (update s.pc p _) ≤ 28
    change _ ≤ 28 at hroom
    have hlen : used.length ≤ (used.insert b).length := List.length_le_length_insert
    by_cases hin : b ∈ s.lh
    · rw [if_pos hin]
      omega
    · -- A block that is new to the log is new to the operation.
      have hnew : (used.insert b).length = used.length+1 :=
        List.length_insert_of_not_mem fun hu => hin (hsub hu)
      have hle : (used.insert b).length ≤ 9 := hmay
      rw [if_neg hin, List.length_append, List.length_singleton]
      omega
  · intro x hx
    rcases List.mem_insert_iff.mp hx with rfl | hx
    · exact hb
    · exact hmono (hsub hx)

theorem LogStep.room (hs : LogStep (AtMost (MAXOPBLOCKS-1)) s s') (h : LogRoom s)
    (hi : LogInv s) : LogRoom s' := by
  cases hs with
  | start hp => exact h.rest _ rfl
  | sleep hp hfull => exact h.rest _ rfl
  | enter hp hc hroom => exact h.enter hi hp hc hroom
  | check hp hmay =>
    apply h.move
    · rw [hp]
      exact Nat.le_refl _
    · left
      rw [hp]
      rfl
    · intro _ _ _ hc
      cases hc
      exact hmay
  | append hp => exact h.append hp
  | @leave p op used hp hc hn =>
    have hw := h.wakeup.rest (x := .idle) p rfl
    exact ⟨hw.size, hw.room, hw.used, hw.logging⟩
  | @last p op used hp hc hn =>
    have hw := h.rest (x := .commit .start) p rfl
    exact ⟨hw.size, hw.room, hw.used, hw.logging⟩
  | empty hp hlh => exact h.rest _ rfl
  | write hp hc' h1 h2 h3 h4 => exact h.rest _ rfl
  | @install p i b hp hb =>
    have hw := h.rest (x := .commit (.install_trans (i+1))) p rfl
    exact ⟨hw.size, hw.room, hw.used, hw.logging⟩
  | installed hp hnone => exact h.rest _ rfl
  | @clear p hp =>
    have hw := h.rest (x := .commit .erase_head) p rfl
    refine ⟨hw.size, ?_, ?_, hw.logging⟩
    · have hroom := hw.room
      change [].length + total LogPc.spare (s.move p (.commit .erase_head)).pc ≤ _
      rw [List.length_nil]
      omega
    · intro q
      refine ⟨?_, (hw.used q).2⟩
      -- While a commit runs there is no operation with blocks of its own.
      have hnone := hi.idle_ops (hi.exclusive (hi.committer hp)) q
      have hnil : ((s.move p (.commit .erase_head)).pc q).used = [] := by
        rw [move_pc]
        by_cases hqp : q = p
        · subst hqp
          rw [update_self]
          rfl
        · rw [update_of_ne hqp]
          cases hq : s.pc q with
          | inOp op used => rw [hq] at hnone; cases hnone
          | logging op used b => rw [hq] at hnone; cases hnone
          | _ => rfl
      change ((s.move p (.commit .erase_head)).pc q).used ⊆ []
      rw [hnil]
      exact List.nil_subset _
  | erase hp => exact h.rest _ rfl
  | @finish p hp =>
    have hw := h.wakeup.rest (x := .idle) p rfl
    exact ⟨hw.size, hw.room, hw.used, hw.logging⟩

theorem LogReachable.room (h : LogReachable N LOGSIZE (AtMost (MAXOPBLOCKS-1)) s) : LogRoom s := by
  induction h with
  | init =>
    refine ⟨rfl, ?_, fun _ => ⟨List.nil_subset _, Nat.zero_le _⟩, fun _ _ _ _ hc => by cases hc⟩
    have hz : total LogPc.spare (LogState.init N LOGSIZE).pc = 0 :=
      (total_eq_zero _ _).mpr fun _ => rfl
    rw [hz]
    exact Nat.zero_le _
  | step hr he hrun ih => exact (LogOp.run_ends he () _ hrun).room ih hr.inv

end Room

/-- With at most `MAXOPBLOCKS-1` distinct blocks in each operation, no `log_write`
finds the log full. -/
theorem log_space_suffices {N : Nat} {s : LogState N}
    (h : LogReachable N LOGSIZE (AtMost (MAXOPBLOCKS-1)) s) (op : LogOp N)
    (he : op.enabled (AtMost (MAXOPBLOCKS-1)) s) : op.run s ≠ .error "too big a transaction" := by
  have hroom := h.room
  cases op with
  | check p b =>
    have hlen : s.lh.length ≤ 28 := (Nat.le_add_right _ _).trans hroom.room
    have hsize : s.size = 30 := hroom.size
    have hnot : ¬ (LOGSIZE ≤ s.lh.length ∨ s.size-1 ≤ s.lh.length) := by
      change ¬ (30 ≤ _ ∨ _)
      omega
    have honly : PanicsOnly (logCheck p b) s fun e => e = "log_write outside of trans" := by
      apply panicsOnly_get
      refine panicsOnly_panicIf (fun hc => absurd hc hnot) ?_
      intro _
      refine panicsOnly_panicIf (fun _ => rfl) ?_
      intro _
      cases s.pc p with
      | inOp op used => exact (runs_set.mpr trivial : Runs _ s fun _ _ => True).panicsOnly
      | _ => exact panicsOnly_pure
    intro hrun
    exact absurd (honly _ hrun) (by decide)
  | append p =>
    intro hrun
    have honly : PanicsOnly (logAppend p) s fun e => e = "log_write: block out of bounds" := by
      apply panicsOnly_get
      cases s.pc p with
      | logging op used b =>
        refine panicsOnly_panicIf (fun _ => rfl) ?_
        intro _
        exact (runs_set.mpr trivial : Runs _ s fun _ _ => True).panicsOnly
      | _ => exact panicsOnly_pure
    exact absurd (honly _ hrun) (by decide)
  | begin_op p => exact fun hc => by cases hc
  | wake p => exact fun hc => by cases hc
  | test p =>
    exact fun hc => not_runs_of_panic hc (logTest_step (AtMost (MAXOPBLOCKS-1)) he)
  | end_op p =>
    obtain ⟨o, used, hp⟩ := he
    have hbusy : (s.pc p).busy = 1 := by rw [hp]; rfl
    exact fun hc => not_runs_of_panic hc
      (logEnd_step (AtMost (MAXOPBLOCKS-1)) hp (h.inv.busy_committing hbusy).1)
  | commit p =>
    obtain ⟨c, hp⟩ := he
    exact fun hc => not_runs_of_panic hc (logCommit_step (AtMost (MAXOPBLOCKS-1)) hp)

def threeFullOps : List (LogOp 3) :=
  [.begin_op 0, .test 0, .begin_op 1, .test 1, .begin_op 2, .test 2] ++
    (List.range 29).flatMap fun b =>
      let p : Fin 3 := if b < 10 then 0 else if b < 20 then 1 else 2
      [.check p b, .append p]

/-- A first operation with nine blocks is within the bound. -/
theorem log_space_suffices_nine : ∃ s : LogState 1,
    LogReachable 1 LOGSIZE (AtMost (MAXOPBLOCKS-1)) s ∧
    (LogOp.check 0 8).enabled (AtMost (MAXOPBLOCKS-1)) s ∧
    (LogOp.check 0 8).run s ≠ .error "too big a transaction" := by
  have hexec : ((runSteps (LogOp.enabled (AtMost (MAXOPBLOCKS-1))) LogOp.run
      ([.begin_op 0, .test 0] ++ (List.range 8).flatMap fun b => [.check 0 b, .append 0])
      (LogState.init 1 LOGSIZE)).any fun s =>
        decide ((LogOp.check 0 8).enabled (AtMost (MAXOPBLOCKS-1)) s)) = true := by
    decide +kernel
  obtain ⟨s, hs, hen⟩ := (Option.any_eq_true _ _).mp hexec
  have hr := LogReachable.init.exec hs
  have he := of_decide_eq_true hen
  exact ⟨s, hr, he, log_space_suffices hr _ he⟩

/-- Ten blocks for each operation are within its reservation, but the tenth block
of the third operation is refused. -/
theorem log_space_runs_out : ∃ s : LogState 3,
    LogReachable 3 LOGSIZE (AtMost MAXOPBLOCKS) s ∧
    (LogOp.check 2 29).enabled (AtMost MAXOPBLOCKS) s ∧
    (LogOp.check 2 29).run s = .error "too big a transaction" := by
  have hexec : ((runSteps (LogOp.enabled (AtMost MAXOPBLOCKS)) LogOp.run threeFullOps
      (LogState.init 3 LOGSIZE)).any fun s =>
        decide ((LogOp.check 2 29).enabled (AtMost MAXOPBLOCKS) s) &&
        decide (s.lh.length = 29 ∧ s.size = LOGSIZE)) = true := by
    decide +kernel
  obtain ⟨s, hs, hen⟩ := (Option.any_eq_true _ _).mp hexec
  rw [Bool.and_eq_true] at hen
  obtain ⟨hlen, hsize⟩ := of_decide_eq_true hen.2
  refine ⟨s, LogReachable.init.exec hs, of_decide_eq_true hen.1, ?_⟩
  change logCheck 2 29 s = _
  apply panics_get
  apply panics_bind
  apply panicIf_panics
  right
  rw [hlen, hsize]
  decide

end Xv6
