import Xv6.BootSpec
import Xv6.CowSteps

/-! Processes that share one page and fault on it, from any state in which the count of the
page is their number: whole runs of the steps, and how many pages the faults take. -/
namespace Xv6

open Function
open scoped BigOperators

variable {ι : Type}

section Sharing
variable [Fintype ι] [DecidableEq ι] [Layout] {K E : List Nat} {orig : Bytes}
  {s s0 : CowState ι} {S : Finset ι} {p : ι} {pa : Nat}

/-- The processes in `S` share page `pa`, and its count is their number. `K` are the pages
of the kernel and `E` those of all other mappings. -/
structure Sharing (s : CowState ι) (S : Finset ι) (pa : Nat) (K E : List Nat) : Prop where
  nonempty : S.Nonempty
  sharers : ∀ p ∈ S, ∃ w, s.proc p = .idle w ∧ UserPte w ∧ w.has PTE_COW = true ∧ PTE2PA w = pa
  others : ∀ p, p ∉ S → s.proc p = .absent
  ledger : Ledger s.phys K (List.replicate S.card pa ++ E)
  apart : pa ∉ E

omit [Fintype ι] in
theorem Sharing.held (h : Sharing s S pa K E) (p : ι) :
    held s.proc p = if p ∈ S then some pa else none := by
  split_ifs with hp
  · obtain ⟨w, hw, _, _, hpa⟩ := h.sharers p hp
    exact (held_at hw).trans (congrArg some hpa)
  · exact held_at (h.others p hp)

theorem Sharing.total_held (h : Sharing s S pa K E) (a : Nat) :
    total (holds a) (Xv6.held s.proc) = if a = pa then S.card else 0 := by
  have hterm (p : ι) : holds a (Xv6.held s.proc p) = if p ∈ S then holds a (some pa) else 0 := by
    rw [h.held, apply_ite (holds a), holds_none]
  calc total (holds a) (Xv6.held s.proc) = ∑ p, if p ∈ S then holds a (some pa) else 0 :=
        Finset.sum_congr rfl fun p _ => hterm p
    _ = ∑ _p ∈ S, holds a (some pa) := by
        rw [← Finset.sum_filter, Finset.filter_mem_eq_inter, Finset.univ_inter]
    _ = S.card * holds a (some pa) := by rw [Finset.sum_const, smul_eq_mul]
    _ = if a = pa then S.card else 0 := by
        split_ifs with ha
        · rw [ha, holds_self, Nat.mul_one]
        · rw [holds_ne ha, Nat.mul_zero]

theorem Sharing.inv (h : Sharing s S pa K E) : CowInv K E (s.phys.mem pa) s := by
  refine ⟨⟨⟨_, h.ledger, ?_⟩, ?_⟩, ?_, ?_⟩
  · intro a
    rw [List.count_append, List.count_replicate, Nat.add_comm]
    unfold mappings
    rw [h.total_held]
    simp only [beq_iff_eq]
    simp only [eq_comm]
  · intro p a hp
    rw [h.held] at hp
    split_ifs at hp
    cases hp
    rfl
  · intro p
    by_cases hp : p ∈ S
    · obtain ⟨w, hw, huser, _⟩ := h.sharers p hp
      rw [hw]
      exact huser
    · rw [h.others p hp]
      trivial
  · intro p a hsole
    by_cases hp : p ∈ S
    · obtain ⟨w, hw, huser, hcow, _⟩ := h.sharers p hp
      rw [hw] at hsole
      rw [huser.cow, hsole.1] at hcow
      cases hcow
    · rw [h.others p hp] at hsole
      exact hsole.elim

theorem cow_reaches_inv {may : CowOp ι → Prop} (h0 : Sharing s0 S pa K E)
    (hr : CowReaches s0 may s) : CowInv K E (s0.phys.mem pa) s := by
  apply Reaches.invariant (I := CowInv K E (s0.phys.mem pa)) ?_ ?_ hr
  · intro s hs
    rw [hs]
    exact h0.inv
  · intro s op hi he
    exact (cow_step_runs hi he.1).ends.imp fun _ _ h => h.1

/-- Where a process can stand when there are only faults. -/
def FaultAt (S : Finset ι) (pa : Nat) (p : ι) : CowProc ι → Prop
  | .absent => p ∉ S
  | .idle w => p ∈ S ∧ (w.has PTE_COW = true → PTE2PA w = pa)
  | .fault .. => p ∈ S
  | _ => False

omit [Fintype ι] [DecidableEq ι] [Layout] in
theorem FaultAt.cases {x : CowProc ι} (h : FaultAt S pa p x) : x = .absent ∧ p ∉ S ∨
    p ∈ S ∧ ((∃ w, x = .idle w ∧ (w.has PTE_COW = true → PTE2PA w = pa)) ∨
      ∃ new w, x = .fault new w) := by
  cases x with
  | absent => exact Or.inl ⟨rfl, h⟩
  | idle w => exact Or.inr ⟨h.1, Or.inl ⟨w, rfl, h.2⟩⟩
  | fault new w => exact Or.inr ⟨h, Or.inr ⟨new, w, rfl⟩⟩
  | unborn r w => exact h.elim
  | fork c w => exact h.elim
  | unmap w => exact h.elim

/-- What faults alone do: every page that was allocated took over one mapping of `pa`, and
one mapping is left. -/
structure FaultInv (s0 : CowState ι) (S : Finset ι) (pa : Nat) (s : CowState ι) : Prop where
  place : ∀ p, FaultAt S pa p (s.proc p)
  taken : ∃ l, s0.phys.freelist = l ++ s.phys.freelist ∧
    l.length + total (holds pa) (held s.proc) = S.card
  left : 0 < total (holds pa) (held s.proc)

theorem Sharing.faultInv (h : Sharing s0 S pa K E) : FaultInv s0 S pa s0 := by
  have ht := h.total_held pa
  rw [if_pos rfl] at ht
  refine ⟨?_, ⟨[], rfl, ?_⟩, ?_⟩
  · intro p
    by_cases hp : p ∈ S
    · obtain ⟨w, hw, _, _, hpa⟩ := h.sharers p hp
      rw [hw]
      exact ⟨hp, fun _ => hpa⟩
    · rw [h.others p hp]
      exact hp
  · rw [ht, List.length_nil, Nat.zero_add]
  · rw [ht]
    exact Finset.card_pos.mpr h.nonempty

omit [DecidableEq ι] [Layout] in
theorem FaultInv.place_at (hf : FaultInv s0 S pa s) {x : CowProc ι} (hp : s.proc p = x) :
    FaultAt S pa p x := by
  rw [← hp]
  exact hf.place p

theorem FaultInv.fault (hf : FaultInv s0 S pa s) (hi : CowInv K E orig s) (hE : pa ∉ E) {w : Pte}
    (hp : s.proc p = .idle w) (hcow : w.has PTE_COW = true) :
    Runs (CowOp.fault p).run s fun _ s' => FaultInv s0 S pa s' := by
  have hzero : E.count pa = 0 := List.count_eq_zero_of_not_mem hE
  obtain ⟨hpS, hpa⟩ : FaultAt S pa p (.idle w) := hf.place_at hp
  have hheld : held s.proc p = some pa := (held_at hp).trans (congrArg some (hpa hcow))
  apply (fault_step_spec hi hp).imp
  intro _ s' ⟨_, hs'⟩
  rcases hs' with ⟨hs', _⟩ | ⟨new, hs', hnew⟩
  · rw [hs']
    exact hf
  have hplace : ∀ q, FaultAt S pa q (s'.proc q) := by
    rw [hs']
    exact (forall_update_iff s.proc fun q y => FaultAt S pa q y).mpr ⟨hpS, fun q _ => hf.place q⟩
  have hheld' : held s'.proc = update (held s.proc) p (some new) := by
    rw [hs', held_update]
    rfl
  obtain ⟨l, hl, hlen⟩ := hf.taken
  have hleft := hf.left
  rcases hnew with ⟨hsame, hfree⟩ | ⟨hfree, hunused, htwo⟩
  · rw [hsame, hpa hcow, ← hheld, update_eq_self] at hheld'
    refine ⟨hplace, ⟨l, ?_, ?_⟩, ?_⟩
    · rw [hfree]
      exact hl
    · rw [hheld']
      exact hlen
    · rw [hheld']
      exact hleft
  · -- One mapping of `pa` goes over to the new page, and at least one stays.
    rw [hpa hcow] at htwo
    unfold mappings at hunused htwo
    have hne : pa ≠ new := by
      intro heq
      rw [← heq] at hunused
      omega
    have hu := total_update (holds pa) (held s.proc) p (some new)
    rw [← hheld', hheld, holds_self, holds_ne hne] at hu
    refine ⟨hplace, ⟨l ++ [new], ?_, ?_⟩, ?_⟩
    · rw [hl, hfree, List.append_assoc]
      rfl
    · rw [List.length_append, List.length_singleton]
      omega
    · omega

theorem FaultInv.replace (hf : FaultInv s0 S pa s) (hi : CowInv K E orig s) {new : Nat} {w : Pte}
    (hp : s.proc p = .fault new w) :
    Runs (CowOp.replace p).run s fun _ s' => FaultInv s0 S pa s' := by
  have hpS : FaultAt S pa p (.fault new w) := hf.place_at hp
  have hheld : held s.proc p = some new := held_at hp
  apply (replace_step_spec hi hp).imp
  intro _ s' ⟨_, hphys, v, hs', hpa, hcow⟩
  have hsame : held s'.proc = held s.proc := by
    have hv : (CowProc.idle v : CowProc ι).page = held s.proc p := by
      rw [hheld, ← hpa]
      rfl
    rw [hs', held_update, hv, update_eq_self]
  refine ⟨?_, ?_, ?_⟩
  · rw [hs']
    refine (forall_update_iff s.proc fun q y => FaultAt S pa q y).mpr ⟨⟨hpS, ?_⟩, fun q _ => hf.place q⟩
    intro hc
    rw [hcow] at hc
    cases hc
  · rw [hphys, hsame]
    exact hf.taken
  · rw [hsame]
    exact hf.left

theorem cow_reaches_faults (h0 : Sharing s0 S pa K E) (hr : CowReaches s0 CowOp.isFault s) :
    FaultInv s0 S pa s := by
  have hboth : CowInv K E (s0.phys.mem pa) s ∧ FaultInv s0 S pa s := by
    apply Reaches.invariant (I := fun s => CowInv K E (s0.phys.mem pa) s ∧ FaultInv s0 S pa s) ?_ ?_ hr
    · intro s hs
      rw [hs]
      exact ⟨h0.inv, h0.faultInv⟩
    · intro s op ⟨hi, hf⟩ ⟨he, hmay⟩ u s' hrun
      refine ⟨((cow_step_runs hi he).of_eq hrun).1, ?_⟩
      cases op with
      | fault p =>
        obtain ⟨w, hp, hcow⟩ := he
        exact (hf.fault hi h0.apart hp hcow).of_eq hrun
      | replace p =>
        obtain ⟨new, w, hp⟩ := he
        exact (hf.replace hi hp).of_eq hrun
      | fork p c => cases hmay
      | pageRef p => cases hmay
      | kfree p => cases hmay
      | clear p => cases hmay
  exact hboth.2

omit [DecidableEq ι] in
/-- When all sharers own a page, all but one of them have a new one. -/
theorem FaultInv.allocated (hf : FaultInv s0 S pa s) (hi : CowInv K E orig s) (hE : pa ∉ E)
    (hdone : ∀ p ∈ S, s.Owns orig p) :
    ∃ l, s0.phys.freelist = l ++ s.phys.freelist ∧ l.length + 1 = S.card := by
  have hzero : E.count pa = 0 := List.count_eq_zero_of_not_mem hE
  obtain ⟨l, hl, hlen⟩ := hf.taken
  obtain ⟨p, hp⟩ := exists_of_total_pos _ _ hf.left
  have hpa : held s.proc p = some pa := by
    by_contra hne
    rw [holds, if_neg hne] at hp
    exact absurd hp (Nat.lt_irrefl 0)
  have hpS : p ∈ S := by
    rcases (hf.place p).cases with ⟨hx, _⟩ | ⟨hmem, _⟩
    · rw [held_at hx] at hpa
      cases hpa
    · exact hmem
  -- The last one to hold the old page has it for itself.
  obtain ⟨w, hw, _, hW, _⟩ := hdone p hpS
  have hpage : PTE2PA w = pa := Option.some.inj ((held_at hw).symm.trans hpa)
  have hone : mappings E (held s.proc) pa = 1 := by
    apply hi.sole p pa
    rw [hw]
    exact ⟨hW, hpage⟩
  unfold mappings at hone
  exact ⟨l, hl, by omega⟩

/-- The steps that a process still has to make. -/
def CowProc.work : CowProc ι → Nat
  | .idle w => if w.has PTE_COW = true then 2 else 0
  | .fault .. => 1
  | _ => 0

/-- With memory for the copies, faults can always go on until all sharers own a page. -/
theorem faults_finish (h0 : Sharing s0 S pa K E) (hmem : S.card ≤ s0.phys.freelist.length + 1)
    (hr : CowReaches s0 CowOp.isFault s) :
    ∃ s', CowReaches s CowOp.isFault s' ∧ ∀ p ∈ S, s'.Owns (s0.phys.mem pa) p := by
  induction hn : total CowProc.work s.proc using Nat.strong_induction_on generalizing s with
  | _ n ih =>
    have hi := cow_reaches_inv h0 hr
    have hf := cow_reaches_faults h0 hr
    -- One step, after which the process stands at `x`, and then the rest of the run.
    have hgo {p : ι} (op : CowOp ι) {x : CowProc ι} {t : CowState ι} (he : op.enabled s)
        (hop : op.isFault) (hrun : op.run s = .ok ((), t)) (ht : t.proc = update s.proc p x)
        (hx : x.work < (s.proc p).work) :
        ∃ s', CowReaches s CowOp.isFault s' ∧ ∀ p ∈ S, s'.Owns (s0.phys.mem pa) p := by
      have hu := total_update CowProc.work s.proc p x
      rw [← ht] at hu
      obtain ⟨s', hs', hown⟩ := ih _ (by omega) (hr.step ⟨he, hop⟩ hrun) rfl
      have hrefl : CowReaches s CowOp.isFault s := Reaches.init rfl
      exact ⟨s', (hrefl.step ⟨he, hop⟩ hrun).trans hs', hown⟩
    by_cases hall : ∀ p ∈ S, ∃ w, s.proc p = .idle w ∧ w.has PTE_COW = false
    · refine ⟨s, Reaches.init rfl, ?_⟩
      intro p hp
      obtain ⟨w, hw, hcow⟩ := hall p hp
      exact hi.owns hw hcow
    · push Not at hall
      obtain ⟨p, hpS, hp⟩ := hall
      rcases (hf.place p).cases with ⟨_, hnot⟩ | ⟨_, ⟨w, hx, hpa⟩ | ⟨new, w, hx⟩⟩
      · exact absurd hpS hnot
      · have hcow : w.has PTE_COW = true := Bool.not_eq_false _ ▸ hp w hx
        obtain ⟨_, t, hrun, _, ht⟩ := fault_step_spec hi hx
        rcases ht with ⟨_, hfull, htwo⟩ | ⟨new, ht, _⟩
        · -- Whoever needs a copy finds a page for it.
          obtain ⟨l, hl, hlen⟩ := hf.taken
          have hzero : E.count pa = 0 := List.count_eq_zero_of_not_mem h0.apart
          rw [hpa hcow, mappings] at htwo
          rw [hl, hfull, List.append_nil] at hmem
          omega
        · refine hgo (.fault p) ⟨w, hx, hcow⟩ trivial hrun ht ?_
          rw [hx, CowProc.work, CowProc.work, if_pos hcow]
          decide
      · obtain ⟨_, t, hrun, _, _, v, ht, _, hcow⟩ := replace_step_spec hi hx
        refine hgo (.replace p) ⟨new, w, hx⟩ trivial hrun ht ?_
        rw [hx, CowProc.work, CowProc.work, hcow]
        decide

/-- Faults on a shared page are resolved without loss, however they are interleaved with
each other and with forks and unmappings. No step panics. With memory, a fault gets a page,
and then leaves the process with an entry that it can write through, for as long as it
neither forks nor unmaps the page. No page is free that someone still uses, and `k` sharers
need `k-1` new pages. -/
theorem cow_faults_resolved (h0 : Sharing s0 S pa K E) :
    (∀ s, CowReaches s0 (fun _ => True) s →
      (∀ op, CowOp.enabled s op → Runs op.run s fun _ _ => True) ∧
      (∀ p w, s.proc p = .idle w → w.has PTE_COW = true → s.phys.freelist ≠ [] →
        Runs (CowOp.fault p).run s fun _ s' => ∃ new, s'.proc p = .fault new w) ∧
      (∀ p new w, s.proc p = .fault new w → Runs (CowOp.replace p).run s fun _ s1 =>
        ∀ s', CowReaches s1 (fun op => ¬ op.leaves p) s' → s'.Owns (s0.phys.mem pa) p) ∧
      ∀ p a, (s.proc p).maps a → ¬ (s.proc p).midway → a ∉ s.phys.freelist) ∧
    (∀ s, CowReaches s0 CowOp.isFault s → (∀ p ∈ S, s.Owns (s0.phys.mem pa) p) →
      ∃ l, s0.phys.freelist = l ++ s.phys.freelist ∧ l.length + 1 = S.card) ∧
    (S.card ≤ s0.phys.freelist.length + 1 → ∀ s, CowReaches s0 CowOp.isFault s →
      ∃ s', CowReaches s CowOp.isFault s' ∧ ∀ p ∈ S, s'.Owns (s0.phys.mem pa) p) := by
  refine ⟨?_, ?_, fun hmem s hr => faults_finish h0 hmem hr⟩
  · intro s hr
    have hi := cow_reaches_inv h0 hr
    refine ⟨?_, ?_, ?_, fun p a => hi.not_free⟩
    · intro op he
      exact (cow_step_runs hi he).imp fun _ _ _ => trivial
    · intro p w hp _ hmem
      refine (fault_step_spec hi hp).imp ?_
      intro _ s' ⟨_, hs'⟩
      rcases hs' with ⟨_, hfull, _⟩ | ⟨new, hs', _⟩
      · exact absurd hfull hmem
      · exact ⟨new, by rw [hs', update_self]⟩
    · intro p new w hp
      refine (replace_step_spec hi hp).imp ?_
      intro _ s1 ⟨hi1, _, v, hs1, _, hcow⟩ s' hr'
      exact cow_reaches_owns hi1 (by rw [hs1, update_self]) hcow hr'
  · intro s hr hdone
    exact (cow_reaches_faults h0 hr).allocated (cow_reaches_inv h0 hr) h0.apart hdone

/-- A parent and its child after the first fork of the system, on a page that is alone in
user memory. -/
theorem exists_sharing : ∃ (s0 : CowState (Fin 2)) (pa : Nat), Sharing s0 Finset.univ pa [] [] ∧
    2 ≤ s0.phys.freelist.length + 1 := by
  obtain ⟨_, t, _, hL, hlen⟩ := kinit_spec fun _ _ => 0
  obtain ⟨r, t1, _, hr⟩ := kalloc_spec hL
  cases r with
  | none =>
    rw [hr.2] at hlen
    cases hlen
  | some pa =>
    obtain ⟨hfree, _, hL1⟩ := hr
    obtain ⟨_, t2, _, hL2, _, hfree2⟩ := pageRef_spec hL1.to_user List.mem_cons_self
    have hm := hL2.managed pa (Or.inr List.mem_cons_self)
    obtain ⟨hw, hpa, hW, _⟩ := shared_word (w := mapWord pa userPerm) userPte_fresh hm
    set w := mapWord pa (PTE_FLAGS (cowWord (mapWord pa userPerm)))
    refine ⟨⟨t2, fun _ => .idle w⟩, pa, ⟨⟨0, Finset.mem_univ 0⟩, ?_, ?_, hL2, List.not_mem_nil⟩, ?_⟩
    · intro p _
      refine ⟨w, rfl, hw, ?_, hpa⟩
      rw [hw.cow, hW]
      rfl
    · intro p hp
      exact absurd (Finset.mem_univ p) hp
    · change 2 ≤ t2.freelist.length + 1
      rw [hfree, List.length_cons, ← hfree2] at hlen
      omega

omit [Layout] in
theorem cow_faults_resolved_two : ∃ (_ : Layout) (s0 : CowState (Fin 2)) (pa : Nat),
    Sharing s0 Finset.univ pa [] [] ∧ ∃ s, CowReaches s0 CowOp.isFault s ∧
      (∀ p, s.Owns (s0.phys.mem pa) p) ∧ ∃ new, s0.phys.freelist = new :: s.phys.freelist := by
  let _ := sampleLayout
  obtain ⟨s0, pa, h0, hmem⟩ := exists_sharing
  obtain ⟨_, hcount, hfinish⟩ := cow_faults_resolved h0
  obtain ⟨s, hr, hown⟩ := hfinish hmem s0 (Reaches.init rfl)
  obtain ⟨l, hl, hlen⟩ := hcount s hr hown
  obtain ⟨new, hnew⟩ := List.length_eq_one_iff.mp (Nat.succ.inj hlen)
  exact ⟨_, s0, pa, h0, s, hr, fun p => hown p (Finset.mem_univ p), new, by rw [hl, hnew]; rfl⟩

end Sharing

end Xv6
