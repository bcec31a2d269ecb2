import Xv6.ProcSteps

/-! The steps of the kernel on the process table and on pages of its own: `exit`,
`wait`, `kill`, pipes, and pages that kernel code takes for itself. -/
namespace Xv6

open Function
variable [Layout]

section Table
variable {k : Kernel} {p : Nat}

/-- Process `p` has become a zombie; memory is as it was. -/
structure Exited (k k' : Kernel) (p : Nat) (status : Int) : Prop where
  inv : Inv k'
  kernel : SameKernel k k'
  initproc : k'.initproc = k.initproc
  phys : k'.phys = k.phys
  mem : ∀ q, k'.umem q = k.umem q
  proc : ∀ q, k'.proc q = { k.proc q with
    parent := if (k.proc q).parent = some p then some k.initproc else (k.proc q).parent
    xstate := if q = p then status else (k.proc q).xstate
    state := if q = p then .ZOMBIE else (k.proc q).state }

theorem exit_spec (h : Inv k) (status : Int) (hinit : p ≠ k.initproc) :
    Runs (exit p status) k fun _ k' => Exited k k' p status := by
  unfold exit reparent
  simp only [runs_bind, runs_get, runs_panicIf, runs_modify, runs_setProc]
  refine ⟨hinit, ?_⟩
  set k' : Kernel := { k with proc := update _ p _ } with hk'
  have hproc (q : Nat) : k'.proc q = { k.proc q with
      parent := if (k.proc q).parent = some p then some k.initproc else (k.proc q).parent
      xstate := if q = p then status else (k.proc q).xstate
      state := if q = p then .ZOMBIE else (k.proc q).state } := by
    by_cases hq : q = p
    · subst hq
      simp only [k', update_self, if_true]
      split_ifs <;> rfl
    · simp only [k', update_of_ne hq, if_neg hq]
      split_ifs <;> rfl
  obtain ⟨hi, hu⟩ := h.congr k' rfl ⟨rfl, rfl, rfl, rfl⟩ fun q => by
    rw [hproc q]
    exact ⟨rfl, rfl, rfl⟩
  exact ⟨hi, ⟨rfl, rfl, rfl, rfl⟩, rfl, rfl, hu, hproc⟩

omit [Layout] in
theorem exit_panics (status : Int) (hp : p = k.initproc) :
    exit p status k = .error "init exiting" := panics_get (panics_bind (panicIf_panics hp))

theorem exit_ends (h : Inv k) (status : Int) :
    Ends (exit p status) k fun _ k' => Exited k k' p status := by
  by_cases hp : p = k.initproc
  · exact ends_of_panic (exit_panics status hp)
  · exact (exit_spec h status hp).ends

/-- Some process may have been told to die; memory is as it was. -/
structure Signalled (k k' : Kernel) : Prop where
  inv : Inv k'
  initproc : k'.initproc = k.initproc
  mem : ∀ q, k'.umem q = k.umem q
  proc : ∀ q, k'.proc q = k.proc q ∨ k'.proc q = { k.proc q with
    killed := true
    state := if (k.proc q).state = .SLEEPING then .RUNNABLE else (k.proc q).state }

theorem kill_spec (h : Inv k) (pid : Nat) : Runs (kill pid) k fun _ k' => Signalled k k' := by
  unfold kill
  rw [runs_bind, runs_get]
  cases hf : procs.find? (fun p => (k.proc p).pid = pid) with
  | none =>
    exact (runs_pure _).mpr ⟨h, rfl, fun _ => rfl, fun _ => Or.inl rfl⟩
  | some p =>
    simp only [runs_bind, runs_setProc, runs_pure]
    set k' : Kernel := { k with proc := update k.proc p _ } with hk'
    have hproc (q : Nat) : k'.proc q = k.proc q ∨ k'.proc q = { k.proc q with
        killed := true
        state := if (k.proc q).state = .SLEEPING then .RUNNABLE else (k.proc q).state } := by
      by_cases hq : q = p
      · subst hq
        exact Or.inr (update_self _ _ _)
      · exact Or.inl (update_of_ne hq _ _)
    obtain ⟨hi, hu⟩ := h.congr k' rfl ⟨rfl, rfl, rfl, rfl⟩ fun q => by
      rcases hproc q with he | he
      · rw [he]
        exact ⟨rfl, rfl, rfl⟩
      · rw [he]
        exact ⟨rfl, rfl, rfl⟩
    exact ⟨hi, rfl, hu, hproc⟩

def Kernel.zombieOf (k : Kernel) (p : Nat) : Option Nat :=
  procs.find? fun np => (k.proc np).parent = some p ∧ (k.proc np).state = .ZOMBIE

/-- The exit status of `np` is written to `addr` of process `p`, then `np` is freed. -/
def Collected (k k' : Kernel) (p addr np : Nat) (r : Option Int) : Prop :=
  ∃ k1 r1, (addr = 0 ∧ k1 = k ∧ r1 = 0 ∨
      addr ≠ 0 ∧ Written k k1 p addr (intBytes (k.proc np).xstate) r1) ∧
    (r1 < 0 ∧ k' = k1 ∧ r = some (-1) ∨
      0 ≤ r1 ∧ Freed k1 k' np ∧ r = some ((k.proc np).pid : Int))

/-- One scan of `wait`: nothing happens without a zombie child. -/
def Waited (k k' : Kernel) (p addr : Nat) (r : Option Int) : Prop :=
  match k.zombieOf p with
  | none => k' = k ∧ (r = some (-1) ∨ r = none)
  | some np => Collected k k' p addr np r

omit [Layout] in
theorem zombieOf_some {np : Nat} (h : k.zombieOf p = some np) :
    np ∈ procs ∧ (k.proc np).parent = some p ∧ (k.proc np).state = .ZOMBIE := by
  have hz := List.find?_some h
  simp only [decide_eq_true_eq] at hz
  exact ⟨List.mem_of_find?_eq_some h, hz⟩

theorem wait_spec (h : Inv k) (hs : Settled k) (hp : p ∈ procs) (ha : (k.proc p).alive)
    {addr : Nat} (haddr : (k.zombieOf p).isSome = true → addr < MAXVA) :
    Runs (wait p addr) k fun r k' => Waited k k' p addr r := by
  have hpt : (k.proc p).pagetable ≠ 0 := fun hz => ha.1 ((hs p hp).mpr hz)
  unfold Waited
  unfold wait
  rw [runs_bind, runs_get]
  cases hf : k.zombieOf p with
  | none =>
    unfold Kernel.zombieOf at hf
    rw [hf]
    dsimp only
    rw [runs_ite, runs_pure, runs_pure]
    exact ⟨fun _ => ⟨rfl, Or.inl rfl⟩, fun _ => ⟨rfl, Or.inr rfl⟩⟩
  | some np =>
    obtain ⟨hnp, -, hz⟩ := zombieOf_some hf
    have hlt := haddr (by rw [hf]; rfl)
    unfold Kernel.zombieOf at hf
    rw [hf]
    have hnpt : (k.proc np).pagetable ≠ 0 := fun h0 => by
      rw [(hs np hnp).mpr h0] at hz
      cases hz
    -- What is left to do when the status is out.
    have hrest (r1 : Int) (k1 : Kernel) (hi : Inv k1) (hproc : k1.proc = k.proc) :
        Runs (if r1 < 0 then pure (some (-1)) else do
          freeproc np
          pure (some ((k.proc np).pid : Int))) k1 fun r k' => r1 < 0 ∧ k' = k1 ∧ r = some (-1) ∨
            0 ≤ r1 ∧ Freed k1 k' np ∧ r = some ((k.proc np).pid : Int) := by
      rw [runs_ite]
      constructor
      · intro hr
        exact (runs_pure _).mpr (Or.inl ⟨hr, rfl, rfl⟩)
      · intro hr
        refine (freeproc_spec hi hnp (by rw [hproc]; exact hnpt)).bind ?_
        rintro _ k' ⟨hk', -⟩
        exact (runs_pure _).mpr (Or.inr ⟨by omega, hk', rfl⟩)
    dsimp only
    by_cases haz : addr = 0
    · have hna : ¬ addr ≠ 0 := fun hc => hc haz
      rw [if_neg hna, runs_bind, runs_pure]
      refine (hrest 0 k h rfl).imp ?_
      intro r k' hr
      exact ⟨k, 0, Or.inl ⟨haz, rfl, rfl⟩, hr⟩
    · have hna : addr ≠ 0 := haz
      rw [if_pos hna]
      refine (copyout_spec h hp hpt fun _ => hlt).bind ?_
      intro r1 k1 hw
      refine (hrest r1 k1 hw.inv hw.proc).imp ?_
      intro r k' hr
      exact ⟨k1, r1, Or.inr ⟨hna, hw⟩, hr⟩

/-- A step of kernel code on pages of its own. -/
structure KernelStep (k k' : Kernel) : Prop where
  inv : Inv k'
  initproc : k'.initproc = k.initproc
  proc : k'.proc = k.proc
  mem : ∀ q ∈ procs, k'.umem q = k.umem q
  map : ∀ q ∈ procs, (k.proc q).pagetable ≠ 0 → k'.map q = k.map q
  own : ∀ q ∈ procs, k'.ownPages q = k.ownPages q ∧
    ∀ t ∈ k.ownPages q, k'.phys.mem t = k.phys.mem t
  table : k'.kernel_pagetable = k.kernel_pagetable ∧
    tables k'.phys.mem 2 k.kernel_pagetable = tables k.phys.mem 2 k.kernel_pagetable

omit [Layout] in
theorem besidePages_nil (k k' : Kernel) : besidePages k k' [] = procs.flatMap k.ownPages ++
    (tables k.phys.mem 2 k.kernel_pagetable ++ (k'.kstack ++ (k'.pipes.map Pipe.page ++ k'.held))) := by
  unfold besidePages otherProcs
  rw [List.filter_eq_self.mpr (by simp)]

theorem KernelStep.refl (h : Inv k) : KernelStep k k :=
  ⟨h, rfl, rfl, fun _ _ => rfl, fun _ _ _ => rfl, fun _ _ => ⟨rfl, fun _ _ => rfl⟩, rfl, rfl⟩

theorem KernelStep.trans {k' k'' : Kernel} (h : KernelStep k k') (h' : KernelStep k' k'') :
    KernelStep k k'' :=
  ⟨h'.inv, h'.initproc.trans h.initproc, h'.proc.trans h.proc,
    fun q hq => (h'.mem q hq).trans (h.mem q hq),
    fun q hq hpt => (h'.map q hq (by rw [h.proc]; exact hpt)).trans (h.map q hq hpt),
    fun q hq => by
      obtain ⟨h1, h2⟩ := h.own q hq
      obtain ⟨h3, h4⟩ := h'.own q hq
      rw [h1] at h3 h4
      exact ⟨h3, fun t ht => (h4 t ht).trans (h2 t ht)⟩,
    h'.table.1.trans h.table.1, by
      have h2 := h'.table.2
      rw [h.table.1] at h2
      exact h2.trans h.table.2⟩

/-- The pages of the processes and the kernel's page table keep their content. -/
theorem Inv.kernelStep (h : Inv k) (k' : Kernel) (hinit : k'.initproc = k.initproc)
    (hproc : k'.proc = k.proc) (hkpt : k'.kernel_pagetable = k.kernel_pagetable)
    (hl : Ledger k'.phys (besidePages k k' []) k.mapped)
    (hown : ∀ q ∈ procs.flatMap k.ownPages ++ tables k.phys.mem 2 k.kernel_pagetable,
      k'.phys.mem q = k.phys.mem q)
    (hmap : ∀ q ∈ k.mapped, k'.phys.mem q = k.phys.mem q) : KernelStep k k' := by
  obtain ⟨hi, hu, hm⟩ := h.kernel_step k' hproc hkpt hl hown hmap
  refine ⟨hi, hinit, hproc, hu, hm, fun q hq => ?_, hkpt,
    tables_congr fun q hq => hown q (List.mem_append_right _ hq)⟩
  have hkeep : ∀ t ∈ k.ownPages q, k'.phys.mem t = k.phys.mem t := fun t ht =>
    hown t (List.mem_append_left _ (List.mem_flatMap.mpr ⟨q, hq, ht⟩))
  exact ⟨(slot_congr k k' (by rw [hproc]) hkeep).1, hkeep⟩

theorem Inv.write_held (h : Inv k) {pa : Nat} (hpa : pa ∈ k.held) (b : Bytes) :
    KernelStep k { k with phys := k.phys.setPage pa b } := by
  have hl := h.ledger
  have hrest : pa ∈ k.kstack ++ (k.pipes.map Pipe.page ++ k.held) :=
    List.mem_append_right _ (List.mem_append_right _ hpa)
  have hker : pa ∈ k.kernelPages := List.mem_append_right _ hrest
  have hnd := hl.nodup
  unfold Kernel.owned at hnd
  obtain ⟨-, hnd2, hdis⟩ := List.nodup_append.mp hnd
  unfold Kernel.kernelPages at hnd2
  have hmem (q : Nat) (hq : q ≠ pa) : (k.phys.setPage pa b).mem q = k.phys.mem q := by
    rw [setPage_mem, update_of_ne hq]
  exact h.kernelStep { k with phys := k.phys.setPage pa b } rfl rfl rfl
    (by rw [besidePages_nil]; exact hl.of_mem _)
    (fun q hq => hmem q ((List.mem_append.mp hq).elim (fun hq => hdis q hq pa hker)
      fun hq => (List.nodup_append.mp hnd2).2.2 q hq pa hrest))
    fun q hq => hmem q fun he => hl.disjoint pa (List.mem_append_right _ hker) (he ▸ hq)

theorem Inv.take_page {s : Phys} {pa : Nat} (h : Inv k) (k' : Kernel) (hphys : k'.phys = s)
    (hl : Ledger s (pa :: k.owned) k.mapped) (hm : s.mem = update k.phys.mem pa fun _ => 5)
    (hinit : k'.initproc = k.initproc) (hproc : k'.proc = k.proc)
    (hkpt : k'.kernel_pagetable = k.kernel_pagetable)
    (hperm : (k'.kstack ++ (k'.pipes.map Pipe.page ++ k'.held)).Perm
      (pa :: (k.kstack ++ (k.pipes.map Pipe.page ++ k.held)))) : KernelStep k k' := by
  have hfr : Frame k.phys k'.phys k.owned k.mapped := fun q hq => by
    rw [hphys, hm, update_of_ne (hl.kept_ne (T := [pa]) (by simp) hq)]
  have hb : (pa :: k.owned).Perm (besidePages k k' []) := by
    rw [besidePages_nil]
    unfold Kernel.owned Kernel.kernelPages
    have h1 := (hperm.append_left (tables k.phys.mem 2 k.kernel_pagetable)).append_left
      (procs.flatMap k.ownPages)
    refine List.Perm.trans ?_ h1.symm
    refine List.Perm.trans List.perm_middle.symm (List.Perm.append_left _ ?_)
    exact List.perm_middle.symm
  exact h.kernelStep k' hinit hproc hkpt
    (by rw [hphys]; exact hl.perm hb (List.Perm.refl _))
    (fun q hq => hfr q (Kept.kernel (procPages_subset hq))) fun q hq => hfr q (Kept.user hq)

theorem Inv.give_page {pa : Nat} (h : Inv k) (k' : Kernel) (hphys : k'.phys = k.phys)
    (hinit : k'.initproc = k.initproc) (hproc : k'.proc = k.proc)
    (hkpt : k'.kernel_pagetable = k.kernel_pagetable)
    (hperm : (k.kstack ++ (k.pipes.map Pipe.page ++ k.held)).Perm
      (pa :: (k'.kstack ++ (k'.pipes.map Pipe.page ++ k'.held)))) :
    Runs (inPhys (kfree pa)) k' fun _ k'' => KernelStep k k'' ∧ k''.kstack = k'.kstack ∧
      k''.pipes = k'.pipes ∧ k''.held = k'.held ∧ k''.kernel_pagetable = k.kernel_pagetable := by
  have hb : k.owned.Perm (pa :: besidePages k k' []) := by
    rw [besidePages_nil]
    unfold Kernel.owned Kernel.kernelPages
    have h1 := (hperm.append_left (tables k.phys.mem 2 k.kernel_pagetable)).append_left
      (procs.flatMap k.ownPages)
    refine h1.trans (List.Perm.trans (List.Perm.append_left _ ?_) List.perm_middle)
    exact List.perm_middle
  have hl := h.ledger.perm hb (List.Perm.refl _)
  have hown : procs.flatMap k.ownPages ++ tables k.phys.mem 2 k.kernel_pagetable ⊆
      besidePages k k' [] := by
    rw [besidePages_nil, ← List.append_assoc]
    exact List.subset_append_left _ _
  rw [runs_inPhys, hphys]
  refine (kfree_kernel hl).imp ?_
  rintro _ s ⟨hl', hm, -⟩
  have hfr : Frame k.phys s (besidePages k k' []) k.mapped := fun q hq => by
    rw [hm, update_of_ne (hl.kept_ne (T := [pa]) (by simp) hq)]
  exact ⟨h.kernelStep { k' with phys := s } hinit hproc hkpt hl'
    (fun q hq => hfr q (Kept.kernel (hown hq))) fun q hq => hfr q (Kept.user hq), rfl, rfl, rfl, hkpt⟩

theorem pipealloc_spec (h : Inv k) (files : Bool) :
    Runs (pipealloc files) k fun _ k' => KernelStep k k' := by
  unfold pipealloc
  rw [runs_ite]
  constructor
  · intro _
    exact (runs_pure _).mpr (KernelStep.refl h)
  · intro _
    simp only [runs_bind, runs_inPhys]
    refine (kalloc_spec h.ledger).imp ?_
    intro r s hr
    cases r with
    | none =>
      obtain ⟨rfl, -⟩ := hr
      exact (runs_pure _).mpr (KernelStep.refl h)
    | some pi =>
      obtain ⟨-, hm, hl⟩ := hr
      simp only [runs_bind, runs_modify, runs_pure]
      apply h.take_page { k with phys := s, pipes := ⟨pi, true, true⟩ :: k.pipes } rfl hl hm rfl
        rfl rfl
      simp only [List.map_cons, List.cons_append]
      exact List.perm_middle

omit [Layout] in
theorem Pipe.close_page (pi : Pipe) (writable : Bool) : (pi.close writable).page = pi.page := by
  unfold Pipe.close
  split_ifs <;> rfl

theorem pipeclose_spec (h : Inv k) (i : Nat) (writable : Bool) :
    Runs (pipeclose i writable) k fun _ k' => KernelStep k k' := by
  unfold pipeclose
  rw [runs_bind, runs_get]
  cases hi : k.pipes[i]? with
  | none => exact (runs_pure _).mpr (KernelStep.refl h)
  | some pi =>
    obtain ⟨hlt, hget⟩ := List.getElem?_eq_some_iff.mp hi
    simp only [runs_ite]
    constructor
    · intro _
      rw [runs_bind, runs_modify]
      have hperm : k.pipes.Perm (pi :: k.pipes.eraseIdx i) := by
        rw [← hget]
        exact (List.getElem_cons_eraseIdx_perm hlt).symm
      refine (h.give_page { k with pipes := k.pipes.eraseIdx i } rfl rfl rfl rfl ?_).imp
        fun _ k' hk' => hk'.1
      refine List.Perm.trans (List.Perm.append_left _ ((hperm.map Pipe.page).append_right _)) ?_
      exact List.perm_middle
    · intro _
      rw [runs_modify]
      exact h.kernelStep { k with pipes := k.pipes.set i (pi.close writable) } rfl rfl rfl
        (by
          have hpages : (k.pipes.set i (pi.close writable)).map Pipe.page = k.pipes.map Pipe.page := by
            have hlt' : i < (k.pipes.map Pipe.page).length := by rwa [List.length_map]
            rw [List.map_set, Pipe.close_page, ← hget, ← List.getElem_map Pipe.page (h := hlt'),
              List.set_getElem_self]
          rw [besidePages_nil, hpages]
          exact h.ledger)
        (fun _ _ => rfl) fun _ _ => rfl

theorem holdPage_spec (h : Inv k) :
    Runs holdPage k fun r k' => KernelStep k k' ∧
      (k'.kstack = k.kstack ∧ k'.pipes = k.pipes) ∧
      match r with
      | none => k' = k ∧ k.phys.freelist = []
      | some pa => k.phys.freelist = pa :: k'.phys.freelist ∧ k'.held = pa :: k.held ∧
          ∀ q, q ≠ pa → k'.phys.mem q = k.phys.mem q := by
  unfold holdPage
  simp only [runs_bind, runs_inPhys]
  refine (kalloc_spec h.ledger).imp ?_
  intro r s hr
  cases r with
  | none =>
    obtain ⟨rfl, hf⟩ := hr
    exact (runs_pure _).mpr ⟨KernelStep.refl h, ⟨rfl, rfl⟩, rfl, hf⟩
  | some pa =>
    obtain ⟨hf, hm, hl⟩ := hr
    simp only [runs_bind, runs_modify, runs_pure]
    refine ⟨h.take_page _ rfl hl hm rfl rfl rfl ?_, ⟨trivial, trivial⟩, hf, trivial, fun q hq => by
      rw [hm, update_of_ne hq]⟩
    refine List.Perm.trans (List.Perm.append_left _ List.perm_middle) List.perm_middle

theorem dropPage_spec (h : Inv k) {pa : Nat} (hpa : pa ∈ k.held) :
    Runs (dropPage pa) k fun _ k' => KernelStep k k' ∧ (k'.kstack = k.kstack ∧
      k'.pipes = k.pipes) ∧ k'.held = k.held.erase pa := by
  unfold dropPage
  rw [runs_bind, runs_modify]
  refine (h.give_page { k with held := k.held.erase pa } rfl rfl rfl rfl ?_).imp
    fun _ k' hk' => ⟨hk'.1, ⟨hk'.2.1, hk'.2.2.1⟩, hk'.2.2.2.1⟩
  have hperm := List.perm_cons_erase hpa
  refine List.Perm.trans (List.Perm.append_left _ (List.Perm.append_left _ hperm)) ?_
  exact List.Perm.trans (List.Perm.append_left _ List.perm_middle) List.perm_middle

end Table

end Xv6
