import Xv6.KernelInv

/-! What the functions of `proc.c` do to the address spaces of processes: giving
one back, making an empty one, growing, shrinking and writing to one. -/
namespace Xv6

open Function

def Kernel.umem (k : Kernel) (p : Nat) : UserMem :=
  userMem k.phys (k.map p) (npages (k.proc p).sz)

@[simp] theorem runs_inPhys {α : Type} {x : Prog Phys α} {k : Kernel} {Q : α → Kernel → Prop} :
    Runs (inPhys x) k Q ↔ Runs x k.phys fun a s => Q a { k with phys := s } := runs_zoom

@[simp] theorem runs_setProc {p : Nat} {g : Proc → Proc} {k : Kernel} {Q : Unit → Kernel → Prop} :
    Runs (setProc p g) k Q ↔ Q () { k with proc := update k.proc p (g (k.proc p)) } :=
  runs_modify

variable [Layout]

section Views
variable {k k' : Kernel} {ps : List Nat} {q : Nat}

omit [Layout] in
theorem userMem_map {s : Phys} {f g : Nat → Pte} {n : Nat} (h : ∀ v < n, g v = f v) :
    userMem s g n = userMem s f n := by
  ext v
  · simp only [userMem]
    by_cases hv : v < n
    · rw [h v hv]
    · rw [decide_eq_false hv, Bool.false_and, Bool.false_and]
  · simp only [userMem]
    by_cases hv : v < n
    · rw [h v hv]
    · rw [if_neg hv, if_neg hv]

theorem SameBeside.umem (h : SameBeside k k' ps) (hi : Inv k) (hq : q ∈ otherProcs ps)
    (hu : ∀ pa ∈ k.mappedBeside ps, k'.phys.mem pa = k.phys.mem pa) : k'.umem q = k.umem q := by
  have hproc := h.proc q (mem_otherProcs.mp hq).2
  unfold Kernel.umem
  rw [hproc]
  by_cases hp : (k.proc q).pagetable = 0
  · rw [((hi.space q (mem_otherProcs.mp hq).1).none hp).2]
    rw [show npages 0 = 0 by decide, userMem_empty, userMem_empty]
  · rw [h.map hq hp]
    apply userMem_congr
    intro v hv
    apply hu
    refine List.mem_flatMap.mpr ⟨q, hq, ?_⟩
    rw [userPages_of_ne hp]
    exact mem_pagesOf.mpr ⟨v, Nat.zero_le _, by omega, rfl⟩

/-- Fields that are no part of an address space may change freely. -/
theorem Inv.congr (h : Inv k) (k' : Kernel) (hphys : k'.phys = k.phys) (hker : SameKernel k k')
    (hproc : ∀ q, (k'.proc q).pagetable = (k.proc q).pagetable ∧ (k'.proc q).sz = (k.proc q).sz ∧
      (k'.proc q).trapframe = (k.proc q).trapframe) :
    Inv k' ∧ ∀ q, k'.umem q = k.umem q := by
  have hmap (q : Nat) : k'.map q = k.map q := by
    funext v
    unfold Kernel.map
    rw [hphys, (hproc q).1]
  have huser (q : Nat) : k'.userPages q = k.userPages q := by
    unfold Kernel.userPages
    rw [(hproc q).1, (hproc q).2.1, hmap]
  have hown (q : Nat) : k'.ownPages q = k.ownPages q := by
    unfold Kernel.ownPages
    rw [(hproc q).1, (hproc q).2.2, hphys]
  have hmapped : k'.mapped = k.mapped := List.flatMap_congr fun q _ => huser q
  have howned : k'.owned = k.owned := by
    unfold Kernel.owned Kernel.kernelPages
    rw [List.flatMap_congr fun q _ => hown q, hphys, hker.1, hker.2, hker.3, hker.4]
  refine ⟨⟨?_, ?_, ?_⟩, ?_⟩
  · rw [hphys, howned, hmapped]
    exact h.ledger
  · intro q hq
    obtain ⟨h1, h2, h3, h4, h5⟩ := h.space q hq
    refine ⟨?_, ?_, ?_, ?_, ?_⟩
    · rwa [(hproc q).1, hphys]
    · rwa [(hproc q).1, (hproc q).2.1, (hproc q).2.2, hmap]
    · rwa [huser]
    · rwa [(hproc q).1, (hproc q).2.1, (hproc q).2.2]
    · rwa [(hproc q).1, (hproc q).2.2]
  · intro q hq
    have := h.write q hq
    unfold WriteOk at this ⊢
    rwa [(hproc q).1, (hproc q).2.1, hmap, hmapped]
  · intro q
    unfold Kernel.umem
    rw [hphys, hmap, (hproc q).2.1]

end Views

/-- The slot of a process that is gone. -/
structure Idle (x : Proc) : Prop where
  state : x.state = .UNUSED
  pagetable : x.pagetable = 0
  trapframe : x.trapframe = 0
  sz : x.sz = 0

/-- A step that leaves process `p` with memory `m` and all others with theirs. -/
structure StepOf (k k' : Kernel) (p : Nat) (m : UserMem) : Prop where
  inv : Inv k'
  initproc : k'.initproc = k.initproc
  proc : ∀ q, q ≠ p → k'.proc q = k.proc q
  mem : k'.umem p = m
  others : ∀ q ∈ procs, q ≠ p → k'.umem q = k.umem q

/-- A step that gives slot `p` back and leaves everything else alone. -/
structure Freed (k k' : Kernel) (p : Nat) : Prop where
  inv : Inv k'
  kernel : SameKernel k k'
  initproc : k'.initproc = k.initproc
  idle : Idle (k'.proc p)
  proc : ∀ q, q ≠ p → k'.proc q = k.proc q
  others : ∀ q ∈ procs, q ≠ p → k'.umem q = k.umem q

section Steps
variable {k : Kernel} {p : Nat}

theorem Inv.step_of_own {f : Nat → Pte} {m : UserMem} (h : Inv k) (k' : Kernel) (hp : p ∈ procs)
    (hpt : (k.proc p).pagetable ≠ 0) (hproc : ∀ q, q ≠ p → k'.proc q = k.proc q)
    (hker : SameKernel k k') (hinit : k'.initproc = k.initproc)
    (htf : (k'.proc p).trapframe = (k.proc p).trapframe) (hpt' : (k'.proc p).pagetable ≠ 0)
    (hown : Own k'.phys (k'.proc p).pagetable f (k.frame p) (k.mappedBeside [p])
      (npages (k'.proc p).sz) (k.proc p).trapframe)
    (hm : userMem k'.phys f (npages (k'.proc p).sz) = m)
    (hframe : Frame k.phys k'.phys (k.ownedBeside [p]) (k.mappedBeside [p]))
    (hpages : ∀ pa ∈ pagesOf f 0 (npages (k'.proc p).sz), pa ∈ k.mappedBeside [p] →
      pa ∈ pagesOf (k.map p) 0 (npages (k.proc p).sz)) : StepOf k k' p m := by
  have hbeside (q : Nat) (hq : q ∈ k.ownedBeside [p]) : k'.phys.mem q = k.phys.mem q :=
    hframe q (Kept.kernel hq)
  have hsame : SameBeside k k' [p] :=
    ⟨fun q hq => hproc q (by simpa using hq), hker.kernel_pagetable,
      fun q hq => hbeside q (mem_ownedBeside hq)⟩
  refine ⟨h.of_own k' hp hpt hproc hker htf hpt' hown hbeside ?_, hinit, hproc, ?_, ?_⟩
  · rw [userPages_of_ne hpt]
    exact hpages
  · have hT : TFPAGE ≤ 2*VPAGES := by decide
    have hs := hown.map.size
    have hmap (v : Nat) (hv : v < npages (k'.proc p).sz) : k'.map p v = f v :=
      hown.maps.pte v (by omega)
    rw [← hm]
    exact userMem_map hmap
  · intro q hq hqp
    exact hsame.umem h (mem_otherProcs.mpr ⟨hq, by simpa using hqp⟩)
      fun pa hpa => hframe pa (Kept.user hpa)

theorem freeproc_spec (h : Inv k) (hp : p ∈ procs) (hpt : (k.proc p).pagetable ≠ 0) :
    Runs (freeproc p) k fun _ k' => Freed k k' p ∧
      Frame k.phys k'.phys (k.ownedBeside [p]) (k.mappedBeside [p]) := by
  have hown := h.own hp hpt
  have htf := (h.space p hp).trapframe hpt
  have hsz : (k.proc p).sz < 2^63 := by
    have hr := hown.room
    exact (size_lt (by omega)).trans (by decide)
  unfold freeproc
  rw [runs_bind, runs_get, if_pos htf, if_pos hpt]
  simp only [runs_bind, runs_inPhys, runs_setProc]
  refine (Maps.kfree_kernel hown.maps).imp ?_
  rintro _ s1 ⟨hm1, hfr1, -⟩
  refine (proc_freepagetable_spec hsz hown.map hm1).imp ?_
  rintro _ s2 ⟨hl2, hfr2⟩
  have hfr : Frame k.phys s2 (k.ownedBeside [p]) (k.mappedBeside [p]) := by
    intro q hq
    rw [hfr2 q hq]
    exact hfr1 q (hq.mono (List.Subset.refl _) (List.subset_append_right _ _))
  set k' : Kernel := { k with phys := s2, proc := update (update k.proc p _) p _ }
  have hproc (q : Nat) (hq : q ≠ p) : k'.proc q = k.proc q := by
    simp only [k', update_of_ne hq]
  have hzero : Idle (k'.proc p) := by
    constructor <;> simp [k']
  have hpages : k'.ownPages p = [] ∧ k'.userPages p = [] := by
    unfold Kernel.ownPages Kernel.userPages
    rw [if_pos hzero.pagetable, if_pos hzero.trapframe, if_pos hzero.pagetable]
    exact ⟨rfl, rfl⟩
  have hker : SameKernel k k' := ⟨rfl, rfl, rfl, rfl⟩
  have hsame : SameBeside k k' [p] :=
    ⟨fun q hq => hproc q (by simpa using hq), rfl,
      fun q hq => hfr q (Kept.kernel (mem_ownedBeside hq))⟩
  refine ⟨⟨?_, hker, rfl, hzero, hproc, fun q hq hqp => hsame.umem h
    (mem_otherProcs.mpr ⟨hq, by simpa using hqp⟩) fun pa hpa => hfr pa (Kept.user hpa)⟩, hfr⟩
  apply h.updated (List.nodup_singleton p) (by simpa using hp) hsame
  · rw [flatMap_one, flatMap_one, hpages.1, hpages.2, hker.besidePages]
    exact hl2
  · intro q hq
    obtain rfl := List.mem_singleton.mp hq
    refine ⟨fun hc => absurd hzero.pagetable hc, fun hc => absurd hzero.pagetable hc, ?_,
      fun _ => ⟨hzero.trapframe, hzero.sz⟩, fun hc => absurd hzero.pagetable hc⟩
    rw [hpages.2]
    exact List.nodup_nil
  · intro q hq hc
    obtain rfl := List.mem_singleton.mp hq
    exact absurd hzero.pagetable hc
  · intro pa hpa
    rw [flatMap_one, hpages.2] at hpa
    simp at hpa

theorem Inv.kernel_step (h : Inv k) (k' : Kernel) (hproc : k'.proc = k.proc)
    (hkpt : k'.kernel_pagetable = k.kernel_pagetable)
    (hl : Ledger k'.phys (besidePages k k' []) k.mapped)
    (hown : ∀ q ∈ procs.flatMap k.ownPages ++ tables k.phys.mem 2 k.kernel_pagetable,
      k'.phys.mem q = k.phys.mem q)
    (hmap : ∀ q ∈ k.mapped, k'.phys.mem q = k.phys.mem q) :
    Inv k' ∧ (∀ q ∈ procs, k'.umem q = k.umem q) ∧
      ∀ q ∈ procs, (k.proc q).pagetable ≠ 0 → k'.map q = k.map q := by
  have hall : otherProcs [] = procs := by
    unfold otherProcs
    rw [List.filter_eq_self]
    simp
  have hbeside : k.mappedBeside [] = k.mapped := by
    unfold Kernel.mappedBeside Kernel.mapped
    rw [hall]
  have hsame : SameBeside k k' [] := by
    refine ⟨fun q _ => by rw [hproc], hkpt, fun q hq => ?_⟩
    rw [hall] at hq
    exact hown q (List.mem_append.mpr hq)
  refine ⟨h.updated List.nodup_nil (by simp) hsame ?_ (by simp) (by simp) (by simp), ?_, ?_⟩
  · rw [hbeside, List.flatMap_nil, List.flatMap_nil, List.nil_append, List.nil_append]
    exact hl
  · intro q hq
    apply hsame.umem h (by rwa [hall])
    rwa [hbeside]
  · intro q hq hpt
    exact hsame.map (by rwa [hall]) hpt

omit [Layout] in
theorem procPages_subset : procs.flatMap k.ownPages ++ tables k.phys.mem 2 k.kernel_pagetable ⊆
    k.owned := by
  unfold Kernel.owned Kernel.kernelPages
  rw [← List.append_assoc]
  exact List.subset_append_left _ _

theorem Inv.of_frame {s : Phys} (h : Inv k) (hl : Ledger s k.owned k.mapped)
    (hfr : Frame k.phys s k.owned k.mapped) :
    Inv { k with phys := s } ∧ ∀ q ∈ procs, Kernel.umem { k with phys := s } q = k.umem q := by
  have hb : besidePages k { k with phys := s } [] = k.owned := by
    unfold besidePages Kernel.owned Kernel.kernelPages otherProcs
    rw [List.filter_eq_self.mpr (by simp)]
  obtain ⟨hi, hu, -⟩ := h.kernel_step { k with phys := s } rfl rfl (by rw [hb]; exact hl)
    (fun q hq => hfr q (Kept.kernel (procPages_subset hq))) fun q hq => hfr q (Kept.user hq)
  exact ⟨hi, hu⟩

theorem Inv.fill {f : Nat → Pte} {pt tf : Nat} (h : Inv k) (k' : Kernel) (hp : p ∈ procs)
    (hpt : (k.proc p).pagetable = 0) (hproc : ∀ q, q ≠ p → k'.proc q = k.proc q)
    (hker : SameKernel k k') (hm : Maps k'.phys pt f (tf :: k.owned) k.mapped)
    (hum : UserMap f 0 tf) (hpt0 : pt ≠ 0) (htf0 : tf ≠ 0) (hpt' : (k'.proc p).pagetable = pt)
    (htf' : (k'.proc p).trapframe = tf) (hsz' : (k'.proc p).sz = 0)
    (hfr : Frame k.phys k'.phys k.owned k.mapped) :
    Inv k' ∧ ∀ q ∈ procs, k'.umem q = k.umem q := by
  obtain ⟨htf, hsz⟩ := (h.space p hp).none hpt
  have hps : ∀ q ∈ [p], q ∈ procs := by simpa using hp
  have hempty : k.ownPages p = [] ∧ k.userPages p = [] := by
    unfold Kernel.ownPages Kernel.userPages
    rw [if_pos hpt, if_pos htf, if_pos hpt]
    exact ⟨rfl, rfl⟩
  have ho := k.owned_perm (List.nodup_singleton p) hps
  have hmp := k.mapped_perm (List.nodup_singleton p) hps
  rw [flatMap_one, hempty.1, List.nil_append] at ho
  rw [flatMap_one, hempty.2, List.nil_append] at hmp
  have h0 : npages 0 = 0 := by decide
  have hsame : SameBeside k k' [p] :=
    ⟨fun q hq => hproc q (by simpa using hq), hker.kernel_pagetable,
      fun q hq => hfr q (Kept.kernel (ho.mem_iff.mpr (mem_ownedBeside hq)))⟩
  have hup : k'.userPages p = [] := by
    rw [userPages_of_ne (by rw [hpt']; exact hpt0), hsz', h0]
    rfl
  refine ⟨?_, fun q hq => ?_⟩
  · apply h.updated (List.nodup_singleton p) hps hsame
    · rw [flatMap_one, flatMap_one, hup, ownPages_of_ne hpt' hpt0 htf' htf0, hker.besidePages,
        List.append_assoc]
      exact hm.ledger.perm (List.Perm.append_left _ (ho.cons tf)) hmp
    · intro q hq
      obtain rfl := List.mem_singleton.mp hq
      refine ⟨fun _ => by rw [hpt']; exact hm.linked, fun _ => ?_, by rw [hup]; exact List.nodup_nil,
        fun hc => absurd (hpt'.symm.trans hc) hpt0, fun _ => by rw [htf']; exact htf0⟩
      rw [hsz', h0, htf']
      refine hum.congr fun v hv => ?_
      unfold Kernel.map
      rw [hpt']
      exact hm.pte v hv
    · intro q hq _ v hv
      obtain rfl := List.mem_singleton.mp hq
      rw [hsz', h0] at hv
      omega
    · intro pa hpa
      rw [flatMap_one, hup] at hpa
      simp at hpa
  · by_cases hqp : q = p
    · subst hqp
      unfold Kernel.umem
      rw [hsz', hsz, h0]
      rw [userMem_empty, userMem_empty]
    · exact hsame.umem h (mem_otherProcs.mpr ⟨hq, by simpa using hqp⟩)
        fun pa hpa => hfr pa (Kept.user (hmp.mem_iff.mpr hpa))

def Settled (k : Kernel) : Prop :=
  ∀ p ∈ procs, (k.proc p).state = .UNUSED ↔ (k.proc p).pagetable = 0

theorem Settled.idle (h : Settled k) (hi : Inv k) (hp : p ∈ procs)
    (hs : (k.proc p).state = .UNUSED) : Idle (k.proc p) := by
  have hpt := (h p hp).mp hs
  obtain ⟨h1, h2⟩ := (hi.space p hp).none hpt
  exact ⟨hs, hpt, h1, h2⟩

/-- The slot that `allocproc` has filled. -/
structure Allocated (k k' : Kernel) (np : Nat) : Prop where
  mem : np ∈ procs
  idle : Idle (k.proc np)
  first : procs.find? (fun p => (k.proc p).state = .UNUSED) = some np
  proc : ∀ q, q ≠ np → k'.proc q = k.proc q
  pagetable : (k'.proc np).pagetable ≠ 0
  sz : (k'.proc np).sz = 0
  killed : (k'.proc np).killed = (k.proc np).killed
  parent : (k'.proc np).parent = (k.proc np).parent
  used : k.phys.freelist.length ≤ k'.phys.freelist.length + 4
  pages : k.phys.freelist.length =
    (tables k'.phys.mem 2 (k'.proc np).pagetable).length + k'.phys.freelist.length + 1

/-- What `allocproc` does: an empty address space in the first unused slot, or
nothing that any process can notice. -/
theorem allocproc_spec (h : Inv k) (hs : Settled k) :
    Runs allocproc k fun r k' => Inv k' ∧ SameKernel k k' ∧ k'.initproc = k.initproc ∧
      (∀ q ∈ procs, k'.umem q = k.umem q) ∧ Frame k.phys k'.phys k.owned k.mapped ∧ match r with
      | none => (∀ q, k'.proc q = k.proc q ∨ Idle (k.proc q) ∧ Idle (k'.proc q)) ∧
          ((∀ q ∈ procs, (k.proc q).state ≠ .UNUSED) ∨ k.phys.freelist.length ≤ 4)
      | some np => Allocated k k' np := by
  unfold allocproc
  rw [runs_bind, runs_get]
  cases hfind : procs.find? (fun p => (k.proc p).state = .UNUSED) with
  | none =>
    refine (runs_pure _).mpr ⟨h, ⟨rfl, rfl, rfl, rfl⟩, rfl, fun _ _ => rfl, fun _ _ => rfl,
      fun _ => Or.inl rfl, Or.inl fun q hq => ?_⟩
    simpa using List.find?_eq_none.mp hfind q hq
  | some p =>
    have hp : p ∈ procs := List.mem_of_find?_eq_some hfind
    have hidle := hs.idle h hp (by simpa using List.find?_some hfind)
    simp only [allocpid, runs_bind, runs_get, runs_set, runs_pure, runs_setProc, runs_inPhys]
    refine (kalloc_spec h.ledger).imp ?_
    intro r s1 hr
    cases r with
    | none =>
      obtain ⟨rfl, hf⟩ := hr
      simp only [runs_bind, runs_setProc, runs_pure]
      set k' : Kernel := { k with
        nextpid := k.nextpid + 1, proc := update (update k.proc p _) p _ }
      have hproc (q : Nat) : k'.proc q = k.proc q ∨ Idle (k.proc q) ∧ Idle (k'.proc q) := by
        by_cases hq : q = p
        · subst hq
          refine Or.inr ⟨hidle, ?_⟩
          obtain ⟨h1, h2, h3, h4⟩ := hidle
          constructor <;> simp [k', h1, h2, h4]
        · exact Or.inl (by simp only [k', update_of_ne hq])
      obtain ⟨hi, hu⟩ := h.congr k' rfl ⟨rfl, rfl, rfl, rfl⟩ fun q => by
        rcases hproc q with he | ⟨h1, h2⟩
        · rw [he]
          exact ⟨rfl, rfl, rfl⟩
        · rw [h1.pagetable, h1.sz, h1.trapframe]
          exact ⟨h2.pagetable, h2.sz, h2.trapframe⟩
      exact ⟨hi, ⟨rfl, rfl, rfl, rfl⟩, trivial, fun q _ => hu q, fun _ _ => rfl, hproc,
        Or.inr (by rw [hf]; simp)⟩
    | some tf =>
      obtain ⟨hf, hmem, hl1⟩ := hr
      simp only [runs_bind, runs_setProc, runs_inPhys]
      have hman : Managed tf := hl1.managed tf (Or.inl (by simp))
      have hlen : k.phys.freelist.length = s1.freelist.length + 1 := by rw [hf]; rfl
      have hfr1 : Frame k.phys s1 k.owned k.mapped := by
        intro q hq
        rw [hmem, update_of_ne (hl1.kept_ne (T := [tf]) (by simp) hq)]
      refine (proc_pagetable_spec tf hl1).imp ?_
      rintro r s2 ⟨hfr2, hr⟩
      have hfr : Frame k.phys s2 k.owned k.mapped := fun q hq => by
        rw [hfr2 q (hq.mono (List.subset_cons_self _ _) (List.Subset.refl _))]
        exact hfr1 q hq
      cases r with
      | none =>
        obtain ⟨hl2, hfree⟩ := hr
        simp only [runs_bind, runs_setProc]
        unfold freeproc
        simp only [runs_bind, runs_get, update_self, update_idem]
        rw [if_pos hman.ne_zero, if_neg (by simp)]
        simp only [runs_bind, runs_inPhys, runs_setProc, runs_pure, update_idem]
        refine (kfree_kernel hl2).imp ?_
        rintro _ s3 ⟨hl3, hmem3, -⟩
        have hfr3 : Frame k.phys s3 k.owned k.mapped := fun q hq => by
          rw [hmem3, update_of_ne (hl2.kept_ne (T := [tf]) (by simp) hq)]
          exact hfr q hq
        set k' : Kernel := { k with
          phys := s3, nextpid := k.nextpid + 1, proc := update k.proc p _ }
        have hproc (q : Nat) : k'.proc q = k.proc q ∨ Idle (k.proc q) ∧ Idle (k'.proc q) := by
          by_cases hq : q = p
          · subst hq
            refine Or.inr ⟨hidle, ?_⟩
            constructor <;> simp [k']
          · exact Or.inl (by simp only [k', update_of_ne hq])
        obtain ⟨hi1, hu1⟩ := h.of_frame hl3 hfr3
        obtain ⟨hi, hu⟩ := hi1.congr k' rfl ⟨rfl, rfl, rfl, rfl⟩ fun q => by
          rcases hproc q with he | ⟨h1, h2⟩
          · rw [he]
            exact ⟨rfl, rfl, rfl⟩
          · exact ⟨h2.pagetable.trans h1.pagetable.symm, h2.sz.trans h1.sz.symm,
              h2.trapframe.trans h1.trapframe.symm⟩
        exact ⟨hi, ⟨rfl, rfl, rfl, rfl⟩, trivial, fun q hq => (hu q).trans (hu1 q hq), hfr3, hproc,
          Or.inr (by omega)⟩
      | some pt =>
        obtain ⟨hptm, hfree, f, hm, hum⟩ := hr
        simp only [runs_bind, runs_setProc, runs_pure, update_idem, update_self]
        set k' : Kernel := { k with
          phys := s2, nextpid := k.nextpid + 1, proc := update k.proc p _ } with hk'
        have hproc (q : Nat) (hq : q ≠ p) : k'.proc q = k.proc q := by
          simp only [k', update_of_ne hq]
        have hpp : (k'.proc p).pagetable = pt ∧ (k'.proc p).trapframe = tf ∧ (k'.proc p).sz = 0 := by
          simp [k', hidle.sz]
        obtain ⟨hi, hu⟩ := h.fill k' hp hidle.pagetable hproc ⟨rfl, rfl, rfl, rfl⟩ hm hum
          hptm.ne_zero hman.ne_zero hpp.1 hpp.2.1 hpp.2.2 hfr
        have hperm := (hm.ledger.spread (show Ledger s1 ([] ++ tf :: k.owned) k.mapped from hl1)
          fun _ => Iff.rfl).length_eq
        rw [List.nil_append, List.length_append] at hperm
        exact ⟨hi, ⟨rfl, rfl, rfl, rfl⟩, trivial, hu, hfr, ⟨hp, hidle, hfind, hproc,
          by rw [hpp.1]; exact hptm.ne_zero, hpp.2.2, by simp [k'],
          by simp [k'], show k.phys.freelist.length ≤ s2.freelist.length + 4 by omega,
          by rw [hpp.1, hlen, hperm]⟩⟩

end Steps

end Xv6
