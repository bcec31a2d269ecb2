import Xv6.System

/-! Which page faults of user code `usertrap` answers: by a repair of the page
table, or by the end of the process. -/
namespace Xv6
variable [Layout]

section Fault
variable {k k' : Kernel} {p stval : Nat}

/-- The fault branch ends with a process that has to die. -/
def Kernel.dies (k : Kernel) (p stval : Nat) : Prop :=
  (k.proc p).killed = true ∨ k.cowPage p (stval/PGSIZE) ∧ k.stuck p (stval/PGSIZE)

theorem Faulted.killed_iff (h : Faulted k k' p (stval/PGSIZE)) :
    (k'.proc p).killed = true ↔ k.dies p stval := by
  rw [h.proc]
  simp [Kernel.dies]

/-- A repair that works: the page was the user's and only lacked `PTE_W`. -/
theorem Faulted.permits_iff (h : Faulted k k' p (stval/PGSIZE)) (hp : p ∈ procs)
    (hpt : (k.proc p).pagetable ≠ 0) (hva : stval < MAXVA) {a : Access}
    (hno : (k.entry p stval).permits a = false) (hlive : ¬ k.dies p stval) :
    (k'.entry p stval).permits a = true ↔
      k.cowPage p (stval/PGSIZE) ∧ (k.map p (stval/PGSIZE)).has PTE_U = true := by
  have hpt' : (k'.proc p).pagetable ≠ 0 := by
    rw [h.proc]
    exact hpt
  by_cases hcow : k.cowPage p (stval/PGSIZE)
  · have hns : ¬ k.stuck p (stval/PGSIZE) := fun hs => hlive (Or.inr ⟨hcow, hs⟩)
    have hW := h.writable hcow hns
    have huser : (k.umem p).userByte stval ↔ (k.map p (stval/PGSIZE)).has PTE_U = true := by
      simp [UserMem.userByte, Kernel.umem, userMem, hva, hcow.1]
    rw [Xv6.permits_iff h.step.inv hp hpt', h.step.mem, huser]
    constructor
    · exact fun hc => ⟨hcow, hc.1⟩
    · exact fun hc => ⟨hc.2, fun _ => hW⟩
  · rw [h.same hcow]
    exact iff_of_false (by rw [hno]; exact Bool.noConfusion) fun hc => hcow hc.1

theorem usertrap_runs_iff (hi : Inv k) (hp : p ∈ procs) (hpt : (k.proc p).pagetable ≠ 0)
    (hva : stval < MAXVA) :
    Runs (usertrap p stval) k (fun _ _ => True) ↔ (k.dies p stval → p ≠ k.initproc) := by
  obtain ⟨_, k1, hrun, hf⟩ := usertrapFault_spec hi hp hpt hva
  unfold usertrap
  rw [runs_bind]
  constructor
  · intro hr hdie hinit
    have hr1 := hr.of_eq hrun
    rw [runs_bind, runs_get, if_pos (hf.killed_iff.mpr hdie)] at hr1
    exact not_runs_of_panic (exit_panics (-1) (hinit.trans hf.step.initproc.symm)) hr1
  · intro hinit
    refine ⟨_, k1, hrun, ?_⟩
    dsimp only
    rw [runs_bind, runs_get]
    by_cases hk : (k1.proc p).killed = true
    · rw [if_pos hk]
      have hne := hinit (hf.killed_iff.mp hk)
      exact (exit_spec hf.step.inv (-1) (by rw [hf.step.initproc]; exact hne)).imp
        fun _ _ _ => trivial
    · rw [if_neg hk]
      exact (runs_pure _).mpr trivial

end Fault

/-- When a fault that the page table calls for is repaired or fatal to the process,
without a panic. -/
theorem usertrap_answers_iff {k : Kernel} {p : Nat} (h : Reachable k) (ha : k.active p)
    (stval : Nat) (a : Access) (hno : (k.entry p stval).permits a = false) :
    (Runs (usertrap p stval) k (fun _ _ => True) ∧
      Runs (usertrapFault p stval) k fun _ k' =>
        (k'.entry p stval).permits a = true ∨ (k'.proc p).killed = true) ↔
    stval < MAXVA ∧ (k.dies p stval ∧ p ≠ k.initproc ∨ ¬ k.dies p stval ∧
      k.cowPage p (stval/PGSIZE) ∧ (k.map p (stval/PGSIZE)).has PTE_U = true) := by
  obtain ⟨hi, hs⟩ := h.inv
  have hpt := hs.pagetable_ne ha
  by_cases hva : stval < MAXVA
  · rw [usertrap_runs_iff hi ha.1 hpt hva]
    obtain ⟨_, k1, hrun, hf⟩ := usertrapFault_spec hi ha.1 hpt hva
    have hfault (Q : Kernel → Prop) : Runs (usertrapFault p stval) k (fun _ k' => Q k') ↔ Q k1 :=
      ⟨fun hr => hr.of_eq hrun, fun hq => ⟨_, k1, hrun, hq⟩⟩
    rw [hfault, hf.killed_iff]
    by_cases hd : k.dies p stval
    · simp [hva, hd]
    · rw [hf.permits_iff ha.1 hpt hva hno hd]
      simp [hva, hd]
  · refine iff_of_false (fun hc => ?_) fun hc => hva hc.1
    exact not_runs_of_panic (usertrapFault_panics (by omega)) hc.2

omit [Layout] in
/-- The first process loads from the page after its only one: the fault is neither
repaired nor fatal. At `MAXVA` the kernel panics. -/
theorem usertrap_leaves_fault : ∃ (_ : Layout) (k : Kernel) (p : Nat), Reachable k ∧ k.active p ∧
    (k.entry p PGSIZE).permits .load = false ∧
    (Runs (usertrapFault p PGSIZE) k fun _ k' =>
      (k'.entry p PGSIZE).permits .load = false ∧ (k'.proc p).killed = false) ∧
    (k.entry p MAXVA).permits .load = false ∧ usertrapFault p MAXVA k = .error "walk" := by
  let _ := sampleLayout
  obtain ⟨k, hb, hk⟩ := exists_booted
  have hr := Reachable.boot hb
  have hpt := hk.settled.pagetable_ne hk.active
  have hout (va : Nat) (hv : npages PGSIZE ≤ va/PGSIZE ∨ MAXVA ≤ va) :
      (k.entry k.initproc va).permits .load = false := by
    rw [← Bool.not_eq_true, permits_iff hk.inv hk.init hpt]
    rintro ⟨⟨hlt, hu⟩, -⟩
    simp only [Kernel.umem, userMem, Bool.and_eq_true, decide_eq_true_eq, hk.sz] at hu
    omega
  have hno := hout PGSIZE (Or.inl (by decide))
  refine ⟨_, k, k.initproc, hr, hk.active, hno, ?_, hout MAXVA (Or.inr le_rfl),
    usertrapFault_panics le_rfl⟩
  refine (usertrapFault_spec hk.inv hk.init hpt (show PGSIZE < MAXVA by decide)).imp ?_
  intro _ k' hf
  have hncow : ¬ k.cowPage k.initproc (PGSIZE/PGSIZE) := by
    rintro ⟨hc, -⟩
    rw [hk.sz] at hc
    exact absurd hc (by decide)
  rw [hf.same hncow]
  exact ⟨hno, hk.killed⟩

omit [Layout] in
/-- The first child writes to the page that it shares with its parent. -/
theorem usertrap_answers_first_child : ∃ (_ : Layout) (k : Kernel) (p : Nat), Reachable k ∧
    k.active p ∧ (k.entry p 0).permits .store = false ∧
    Runs (usertrap p 0) k (fun _ _ => True) ∧
    Runs (usertrapFault p 0) k fun _ k' =>
      (k'.entry p 0).permits .store = true ∨ (k'.proc p).killed = true := by
  obtain ⟨_, k, np, hsh, -⟩ := exists_sharers
  have hch := hsh.symm
  have hr := hch.reach
  obtain ⟨hi, hs⟩ := hr.inv
  have hsz := hch.npages
  -- The parent maps the page too, so it is not writable.
  have hW : (k.map np 0).has PTE_W = false := by
    by_contra hc
    exact (hi.own hch.left.1 hch.pagetable).write 0 (by omega) (by simpa using hc) hch.shared
  have hcow : k.cowPage np (0/PGSIZE) := by
    refine ⟨by rw [hsz]; decide, ?_⟩
    rw [show 0/PGSIZE = 0 by decide,
      (((hi.space np hch.left.1).map hch.pagetable).user 0 (by omega)).cow, hW]
    rfl
  have hno : (k.entry np 0).permits .store = false := by
    rw [entry_low k np (by decide), show 0/PGSIZE = 0 by decide]
    simp [Pte.permits, hW]
  refine ⟨_, k, np, hr, hch.left, hno, (usertrap_answers_iff hr hch.left 0 .store hno).mpr ?_⟩
  refine ⟨by decide, ?_⟩
  by_cases hd : k.dies np 0
  · exact Or.inl ⟨hd, hch.ne⟩
  · exact Or.inr ⟨hd, hcow, hch.user.2⟩

end Xv6
