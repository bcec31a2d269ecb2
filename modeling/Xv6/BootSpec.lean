import Xv6.BootMemory

/-! Boot to the end: `userinit` makes the first process, and the invariant holds. -/
namespace Xv6

open Function
variable [Layout]

section Uvminit
variable {s : Phys} {pt tf : Nat} {f : Nat → Pte} {F U : List Nat}

theorem uvminit_spec {src : List UInt8} (h : Own s pt f F U 0 tf) (hsrc : src.length < PGSIZE)
    (hfree : 4 ≤ s.freelist.length) :
    Runs (uvminit pt src) s fun _ s' => ∃ g, Own s' pt g F U 1 tf ∧
      userMem s' g 1 = ((userMem s f 0).resize 0 1).write 0 0 src ∧ Frame s s' F U ∧
      (∀ pa ∈ pagesOf g 0 1, pa ∉ U) ∧ s.freelist.length ≤ s'.freelist.length + 3 := by
  have hmaps : Maps s pt f F U := h.maps
  have hgrow : Grown s pt f F U 0 0 f s :=
    ⟨hmaps, fun _ _ => rfl, fun k h1 h2 => by omega, fun _ _ => rfl, List.suffix_rfl,
      by omega, List.nodup_nil, by simp [pagesOf]⟩
  unfold uvminit
  rw [runs_bind, runs_panicIf]
  refine ⟨by omega, ?_⟩
  rw [runs_bind]
  refine hmaps.kalloc.imp ?_
  intro r s1 hr
  cases r with
  | none =>
    rw [hr.2] at hfree
    exact absurd hfree (by decide)
  | some mem =>
    obtain ⟨hf, h1, -, hfr1⟩ := hr
    have hlen : s.freelist.length = s1.freelist.length + 1 := by rw [hf]; rfl
    have hman : Managed mem := h1.ledger.managed mem (Or.inl (by simp))
    have hnot := h1.ledger.perm List.perm_middle (List.Perm.refl _)
    simp only [memsetPage, runs_bind, runs_modify]
    have h2 := h1.setPage (Or.inl (List.mem_cons_self)) fun _ => (0 : UInt8)
    have hfr2 : Frame s (s1.setPage mem fun _ => 0) F U := by
      intro q hq
      rw [setPage_mem, update_of_ne (hnot.kept_ne (T := mem :: tables s1.mem 2 pt)
        (by simp) hq)]
      exact hfr1 q hq
    have hf0 : f 0 = 0 := h.map.gap 0 le_rfl (by decide)
    have hmp := mappages_spec mem userPerm h2 (v := 0) (by decide) (by rw [hf0]; decide)
    rw [Nat.zero_mul] at hmp
    refine hmp.imp ?_
    rintro r s2 ⟨hfr3, hsuf, hused, hcase, -⟩
    have hok := hcase.resolve_right fun hc => by
      rw [hc.2.1, List.length_nil, setPage_freelist] at hused
      omega
    have hg := hgrow.snoc le_rfl hman hok.2 (fun q hq => by
      rw [hfr3 q (hq.mono (List.subset_cons_self _ _) (List.Subset.refl _))]
      exact hfr2 q hq) (by
      rw [hfr3 mem (Kept.kernel (by simp)), setPage_mem, update_self]) hf hsuf
    have hres := h.grown (Nat.zero_le 1) hg (by decide)
    have hpa : PTE2PA (update f 0 (mapWord mem userPerm) 0) = mem := by
      rw [update_self]
      exact managed_mapWord hman _ userPerm_lt
    have hW : (update f 0 (mapWord mem userPerm) 0).has PTE_W = true :=
      hres.fresh 0 le_rfl (by decide)
    obtain ⟨hown, hmem⟩ := hres.own.write_page (v := 0) (by decide) 0 src
    rw [hpa] at hown hmem
    refine ⟨_, hown, by rw [hmem, hres.mem], ?_, ?_, ?_⟩
    · intro q hq
      have hw := hres.own.write_frame (v := 0) (by decide) hW (blit (s2.mem mem) 0 src) q hq
      rw [hpa] at hw
      rw [hw]
      exact hres.frame q hq
    · intro pa hpa' hU
      obtain ⟨j, -, hj, rfl⟩ := mem_pagesOf.mp hpa'
      obtain rfl : j = 0 := by omega
      exact hres.own.write 0 (by decide) hW hU
    · rw [setPage_freelist] at hused ⊢
      omega

end Uvminit

def initMem : UserMem := (UserMem.empty.resize 0 1).write 0 0 initcode

/-- The kernel when `main` enters the scheduler. -/
structure Booted (k : Kernel) : Prop where
  inv : Inv k
  settled : Settled k
  init : k.initproc ∈ procs
  state : (k.proc k.initproc).state = .RUNNABLE
  sz : (k.proc k.initproc).sz = PGSIZE
  killed : (k.proc k.initproc).killed = false
  parent : (k.proc k.initproc).parent = none
  mem : k.umem k.initproc = initMem
  others : ∀ q, q ≠ k.initproc → k.proc q = Proc.zero
  pipes : k.pipes = []
  held : k.held = []
  free : 600 ≤ k.phys.freelist.length

theorem userinit_spec {k : Kernel} {f : Nat → Pte} (h : Booting k f k.kstack 688) :
    Runs userinit k fun _ k' => Booted k' := by
  obtain ⟨hinv, hset⟩ := h.inv
  have hz (p : Nat) : k.proc p = Proc.zero := by rw [h.proc]
  have hfree0 := h.free
  unfold userinit
  refine (allocproc_spec hinv hset).bind ?_
  rintro r k1 ⟨h1, hker1, hinit1, hmem1, -, hr⟩
  cases r with
  | none =>
    have h0 : (0 : Nat) ∈ procs := mem_procs.mpr (by decide)
    rcases hr.2 with hall | hfew
    · exact absurd (by rw [hz]; rfl) (hall 0 h0)
    · omega
  | some p =>
    have hused := hr.used
    have hown := h1.own hr.mem hr.pagetable
    have h00 : npages 0 = 0 := by decide
    rw [hr.sz, h00] at hown
    simp only [runs_bind, runs_modify, runs_get, runs_inPhys]
    refine (uvminit_spec hown (by decide) (by omega)).imp ?_
    rintro _ s2 ⟨g, hown2, hm2, hfr2, hpg2, hused2⟩
    simp only [setTrapframe, runs_setProc, runs_modify]
    have htf : (k1.proc p).trapframe ∈ k1.frame p := List.mem_cons_self
    obtain ⟨hown3, hm3⟩ := hown2.setPage htf (leSet 8 (s2.mem (k1.proc p).trapframe) TF_EPC 0)
    set s3 := s2.setPage (k1.proc p).trapframe (leSet 8 (s2.mem (k1.proc p).trapframe) TF_EPC 0)
      with hs3
    obtain ⟨hown4, hm4⟩ := hown3.setPage htf (leSet 8 (s3.mem (k1.proc p).trapframe) TF_SP PGSIZE)
    set s4 := s3.setPage (k1.proc p).trapframe (leSet 8 (s3.mem (k1.proc p).trapframe) TF_SP PGSIZE)
      with hs4
    rw [update_idem, update_self]
    set x : Proc := { k1.proc p with sz := PGSIZE, state := .RUNNABLE } with hx
    set k' : Kernel := { k1 with phys := s4, initproc := p, proc := update k1.proc p x }
      with hk'
    have hself : k'.proc p = x := update_self _ _ _
    have hother (q : Nat) (hq : q ≠ p) : k'.proc q = k1.proc q := update_of_ne hq _ _
    have hnp : npages x.sz = 1 := show npages PGSIZE = 1 by decide
    have hbeside (q : Nat) (hq : q ∈ k1.ownedBeside [p]) : s4.mem q = k1.phys.mem q := by
      have hne : q ≠ (k1.proc p).trapframe := by
        rintro rfl
        exact (List.nodup_cons.mp (List.nodup_append.mp hown.maps.ledger.nodup).2.1).1 hq
      rw [hs4, setPage_mem, update_of_ne hne, hs3, setPage_mem, update_of_ne hne]
      exact hfr2 q (Kept.kernel (List.mem_cons_of_mem _ hq))
    have hpt' : (k'.proc p).pagetable ≠ 0 := by
      rw [hself]
      exact hr.pagetable
    have hinv' : Inv k' := by
      apply h1.of_own k' hr.mem hr.pagetable hother ⟨rfl, rfl, rfl, rfl⟩ (by rw [hself]) hpt'
        (f := g)
      · rw [hself, hnp]
        exact hown4
      · exact hbeside
      · rw [hself, hnp]
        exact fun pa hpa hU => absurd hU (hpg2 pa hpa)
    have hzero (q : Nat) (hq : q ≠ p) : k'.proc q = Proc.zero := by
      rw [hother q hq, hr.proc q hq, hz]
    exact {
      inv := hinv'
      settled := fun q hq => by
        by_cases hqp : q = p
        · subst hqp
          rw [hself]
          exact iff_of_false ProcState.noConfusion hr.pagetable
        · rw [hzero q hqp]
          exact iff_of_true rfl rfl
      init := hr.mem
      state := by
        change (k'.proc p).state = _
        rw [hself]
      sz := by
        change (k'.proc p).sz = _
        rw [hself]
      killed := by
        change (k'.proc p).killed = _
        rw [hself]
        change (k1.proc p).killed = _
        rw [hr.killed, hz]
        rfl
      parent := by
        change (k'.proc p).parent = _
        rw [hself]
        change (k1.proc p).parent = _
        rw [hr.parent, hz]
        rfl
      mem := by
        change k'.umem p = _
        unfold Kernel.umem initMem
        rw [hself, hnp, ← userMem_empty k1.phys (k1.map p), ← hm2, ← hm3, ← hm4]
        refine userMem_map fun v hv => ?_
        unfold Kernel.map
        rw [hself]
        have hV : 1 < 2*VPAGES := by decide
        exact hown4.maps.pte v (by omega)
      others := hzero
      pipes := hker1.pipes.trans h.pipes
      held := hker1.held.trans h.held
      free := by
        change 600 ≤ s4.freelist.length
        rw [hs4, setPage_freelist, hs3, setPage_freelist]
        omega }

/-- The machine boots: no step of `main` panics or runs out of memory, whatever
memory holds when it is switched on. -/
theorem boot_spec (mem : Nat → Bytes) : Runs boot (powerOn mem) fun _ k => Booted k := by
  unfold boot
  rw [runs_bind, runs_inPhys]
  refine (kinit_spec mem).imp ?_
  rintro _ s ⟨hl, hfree⟩
  refine (kvminit_spec (k := { powerOn mem with phys := s }) hl hfree rfl rfl rfl).bind ?_
  rintro _ k1 ⟨hk1, f, h1, hz⟩
  have hk0 : k1.kstack = [] := hk1
  have hN : NPROC = 64 := rfl
  have hV : VPAGES = 0x4000000 := by decide
  have hlen : procs.length = 64 := by
    unfold procs
    rw [List.length_range, hN]
  refine (procinitLoop_spec procs k1 f 880 (by rw [hk0]; exact h1) procs_nodup (fun p hp => ?_)
    (by omega)).bind ?_
  · have hlt := mem_procs.mp hp
    refine ⟨hlt, hz _ ?_ ?_⟩
    · unfold stackPage
      omega
    · unfold stackPage
      omega
  · rintro _ k2 ⟨f2, h2⟩
    exact userinit_spec (h2.mono (by omega))

@[reducible] def sampleLayout : Layout where
  kend := 0x80027000
  trampoline := 0x80007000
  tramp_aligned := by decide
  tramp_ge := by decide
  etext_le := by decide
  room := by decide

theorem exists_booted :
    ∃ k : Kernel, boot (powerOn fun _ _ => 0) = .ok ((), k) ∧ Booted k := by
  obtain ⟨_, k, hb, hk⟩ := boot_spec fun _ _ => 0
  exact ⟨k, hb, hk⟩

end Xv6
