import Xv6.System

/-! The user region of every process is the pages below its size, and the panics
that guard this in `vm.c` and `exec.c` do not happen. -/
namespace Xv6

/-- The panics that would tell of a size and a page table out of step. -/
def regionPanics : List String :=
  ["uvmunmap: walk", "uvmunmap: not mapped", "uvmcopy: pte should exist",
    "uvmcopy: page not present", "freewalk: leaf", "loadseg: address should exist", "remap"]

/-- The pages below `TRAPFRAME` with a valid leaf entry are those below the size
rounded up, and the two kernel pages at the top are mapped. -/
structure RegionExact (k : Kernel) (p : Nat) : Prop where
  user : ∀ va < TRAPFRAME, Leaf (k.entry p va) ↔ va/PGSIZE*PGSIZE < PGROUNDUP (k.proc p).sz
  trapframe : Leaf (k.entry p TRAPFRAME)
  trampoline : Leaf (k.entry p TRAMPOLINE)

variable [Layout] {k : Kernel} {p : Nat}

omit [Layout] in
theorem not_leaf_zero : ¬ Leaf (0 : Pte) := fun h => h.ne_zero rfl

theorem region_exact (hi : Inv k) (hp : p ∈ procs) (hpt : (k.proc p).pagetable ≠ 0) :
    RegionExact k p := by
  have hmap := (hi.space p hp).map hpt
  have hsz : (k.proc p).sz < 2^63 := (hi.size_lt hp hpt).trans (by decide)
  have htf : TRAPFRAME < MAXVA := by decide
  have htr : TRAMPOLINE < MAXVA := by decide
  refine ⟨?_, ?_, ?_⟩
  · intro va hva
    have hround : va/PGSIZE*PGSIZE < PGROUNDUP (k.proc p).sz ↔
        va/PGSIZE < npages (k.proc p).sz := by
      rw [PGROUNDUP_eq hsz]
      exact Nat.mul_lt_mul_right (by decide)
    have hpage : va/PGSIZE < TFPAGE := by
      rw [TRAPFRAME_eq] at hva
      exact (Nat.div_lt_iff_lt_mul (by decide)).mpr hva
    rw [entry_low k p (hva.trans htf), hround]
    constructor
    · intro hleaf
      by_contra hge
      rw [hmap.gap _ (Nat.le_of_not_lt hge) hpage] at hleaf
      exact not_leaf_zero hleaf
    · intro hlt
      exact (hmap.user _ hlt).leaf
  · rw [entry_low k p htf, TRAPFRAME_eq, page_div, hmap.trapframe]
    exact (trapframe_leaf _).1
  · rw [entry_low k p htr, TRAMPOLINE_eq, page_div, hmap.trampoline]
    exact (trampoline_leaf _).1

theorem UserMap.agree {f g : Nat → Pte} {n tf v : Nat} (hf : UserMap f n tf) (hg : UserMap g n tf)
    (hlow : ∀ v < n, g v = f v) (hv : v < VPAGES) : g v = f v := by
  have hV : VPAGES = TFPAGE+2 := by decide
  by_cases hn : v < n
  · exact hlow v hn
  by_cases hT : v < TFPAGE
  · rw [hf.gap v (by omega) hT, hg.gap v (by omega) hT]
  -- What is left are the trapframe and the trampoline.
  by_cases htf : v = TFPAGE
  · rw [htf, hf.trapframe, hg.trapframe]
  · obtain rfl : v = TFPAGE+1 := by omega
    rw [hf.trampoline, hg.trampoline]

/-- What a step can panic with: a user address that `walk` refuses, or the end of
the first process. -/
def StepPanic (e : String) : Prop := e = "walk" ∨ e = "init exiting"

theorem exit_panicsOnly (hi : Inv k) (status : Int) : PanicsOnly (exit p status) k StepPanic := by
  by_cases hp : p = k.initproc
  · exact panicsOnly_of_panic (exit_panics status hp) (Or.inr rfl)
  · exact (exit_spec hi status hp).panicsOnly

theorem usertrap_panicsOnly (hi : Inv k) (hp : p ∈ procs) (hpt : (k.proc p).pagetable ≠ 0)
    (va : Nat) : PanicsOnly (usertrap p va) k StepPanic := by
  by_cases hva : va < MAXVA
  · have hrun := usertrapFault_spec hi hp hpt hva
    apply panicsOnly_bind (P := StepPanic) hrun.panicsOnly
    refine hrun.ends.imp ?_
    intro _ k1 hf
    apply panicsOnly_get
    by_cases hk : (k1.proc p).killed = true
    · rw [if_pos hk]
      exact exit_panicsOnly hf.step.inv (-1)
    · rw [if_neg hk]
      exact panicsOnly_pure
  · have hpanic : usertrap p va k = .error "walk" :=
      panics_bind (usertrapFault_panics (Nat.le_of_not_lt hva))
    exact panicsOnly_of_panic hpanic (Or.inl rfl)

theorem userLoad_panicsOnly (hi : Inv k) (hp : p ∈ procs) (hpt : (k.proc p).pagetable ≠ 0)
    (va : Nat) : PanicsOnly (userLoad p va) k StepPanic := by
  apply panicsOnly_get
  by_cases hc : (k.entry p va).permits .load = true
  · rw [if_pos hc]
    exact panicsOnly_pure
  · rw [if_neg hc]
    exact usertrap_panicsOnly hi hp hpt va

theorem userStore_panicsOnly (hi : Inv k) (hp : p ∈ procs) (hpt : (k.proc p).pagetable ≠ 0)
    (va : Nat) (b : UInt8) : PanicsOnly (userStore p va b) k StepPanic := by
  apply panicsOnly_get
  by_cases hc : (k.entry p va).permits .store = true
  · rw [if_pos hc]
    exact (writeByte_spec hi hp hpt b hc).panicsOnly
  rw [if_neg hc]
  apply panicsOnly_bind (usertrap_panicsOnly hi hp hpt va)
  refine (usertrap_ends hi hp hpt).imp ?_
  intro _ k2 ht
  obtain ⟨⟨k1, h1, hk⟩, -⟩ := ht
  apply panicsOnly_get
  -- A process that is still alive did not exit, so its memory is as the fault left it.
  by_cases hr : (k2.proc p).alive ∧ (k2.entry p va).permits .store = true
  · rw [if_pos hr]
    rcases hk with ⟨-, rfl⟩ | ⟨-, hex⟩
    · have hpt1 : (k2.proc p).pagetable ≠ 0 := by
        rw [h1.proc]
        exact hpt
      exact (writeByte_spec h1.step.inv hp hpt1 b hr.2).panicsOnly
    · exfalso
      apply hr.1.2
      rw [hex.proc p]
      exact if_pos rfl
  · rw [if_neg hr]
    exact panicsOnly_pure

theorem copyoutTo_panicsOnly (hi : Inv k) (hp : p ∈ procs) (hpt : (k.proc p).pagetable ≠ 0)
    (dstva : Nat) (src : List UInt8) : PanicsOnly (copyoutTo p dstva src) k StepPanic := by
  by_cases hva : src ≠ [] → dstva < MAXVA
  · exact (copyoutTo_spec hi hp hpt hva).panicsOnly
  · push Not at hva
    exact panicsOnly_of_panic (copyoutTo_panics hva.1 hva.2) (Or.inl rfl)

theorem wait_panicsOnly (hi : Inv k) (hs : Settled k) (ha : k.active p) (addr : Nat) :
    PanicsOnly (wait p addr) k StepPanic := by
  by_cases haddr : (k.zombieOf p).isSome = true → addr < MAXVA
  · exact (wait_spec hi hs ha.1 ha.2 haddr).panicsOnly
  · push Not at haddr
    obtain ⟨np, hf⟩ := Option.isSome_iff_exists.mp haddr.1
    exact panicsOnly_of_panic (wait_panics hf haddr.2) (Or.inl rfl)

omit [Layout] in
theorem panicsOnly_then {α : Type} {x : Prog Kernel α} {f : α → Int} {P : String → Prop}
    (h : PanicsOnly x k P) : PanicsOnly (do let a ← x; pure (f a)) k P := by
  apply panicsOnly_bind h
  intro _ _ _
  exact panicsOnly_pure

theorem Op.run_panicsOnly (hi : Inv k) (hs : Settled k) {op : Op} (he : op.enabled k) :
    PanicsOnly op.run k StepPanic := by
  cases op with
  | hold => exact panicsOnly_then (holdPage_spec hi).panicsOnly
  | drop pa => exact panicsOnly_then (dropPage_spec hi he).panicsOnly
  | sbrk p n => exact (growproc_spec hi he.1 (hs.pagetable_ne he) n).panicsOnly
  | fork p => exact (fork_spec hi hs he.1 (hs.pagetable_ne he)).panicsOnly
  | load p va => exact panicsOnly_then (userLoad_panicsOnly hi he.1 (hs.pagetable_ne he) va)
  | store p va b => exact panicsOnly_then (userStore_panicsOnly hi he.1 (hs.pagetable_ne he) va b)
  | copyout p dstva src => exact copyoutTo_panicsOnly hi he.1 (hs.pagetable_ne he) dstva src
  | exec p namei path uargv =>
    exact (sys_exec_spec hi he.1 (hs.pagetable_ne he) namei path uargv).panicsOnly
  | exit p status => exact panicsOnly_then (exit_panicsOnly hi status)
  | wait p addr => exact panicsOnly_then (wait_panicsOnly hi hs he addr)
  | kill pid => exact (kill_spec hi pid).panicsOnly
  | sched p state => exact panicsOnly_then (sched_spec hi p state).panicsOnly
  | pipealloc files => exact (pipealloc_spec hi files).panicsOnly
  | pipeclose i writable => exact panicsOnly_then (pipeclose_spec hi i writable).panicsOnly

omit [Layout] in
theorem StepPanic.not_region {e : String} (h : StepPanic e) : e ∉ regionPanics := by
  rcases h with rfl | rfl
  · decide
  · decide

/-- In every reachable state size and page table agree, and no step from it, and no
boot, ends in one of the panics that check this. -/
theorem reachable_region_exact {k : Kernel} (h : Reachable k) :
    (∀ p ∈ procs, (k.proc p).state ≠ .UNUSED → RegionExact k p) ∧
    (∀ op : Op, op.enabled k → ∀ e ∈ regionPanics, op.run k ≠ .error e) ∧
    ∀ mem, ∀ e ∈ regionPanics, boot (powerOn mem) ≠ .error e := by
  obtain ⟨hi, hs⟩ := h.inv
  refine ⟨?_, ?_, ?_⟩
  · intro p hp hlive
    apply region_exact hi hp
    intro hz
    exact hlive ((hs p hp).mpr hz)
  · intro op he e hmem hrun
    exact (Op.run_panicsOnly hi hs he e hrun).not_region hmem
  · intro mem e _ hrun
    exact not_runs_of_panic hrun (boot_spec mem)

omit [Layout] in
theorem booted_region_exact : ∃ (_ : Layout) (k : Kernel), Reachable k ∧ k.initproc ∈ procs ∧
    (k.proc k.initproc).state ≠ .UNUSED ∧ RegionExact k k.initproc := by
  let _ := sampleLayout
  obtain ⟨k, hb, hk⟩ := exists_booted
  have hr : Reachable k := Reachable.boot hb
  exact ⟨_, k, hr, hk.init, hk.active.2.1,
    (reachable_region_exact hr).1 k.initproc hk.init hk.active.2.1⟩

section Sbrk

theorem Inv.size_le (hi : Inv k) (hp : p ∈ procs) (hpt : (k.proc p).pagetable ≠ 0) :
    (k.proc p).sz ≤ PHYSTOP - KERNBASE := by
  have hroom := (hi.own hp hpt).room
  have hP : PHYSTOP - KERNBASE = PAGE_COUNT*PGSIZE := by decide
  have hle : npages (k.proc p).sz ≤ PAGE_COUNT := by omega
  rw [hP]
  simp only [npages, PGSIZE] at hle ⊢
  omega

section
omit [Layout]

/-- The `uint` arithmetic of `growproc` is exact while the size does not go below zero. -/
theorem growSize_exact {sz : Nat} {n : BitVec 32} (hsz : sz ≤ PHYSTOP - KERNBASE)
    (hn : 0 ≤ (sz : Int) + n.toInt) : (growSize sz n.toInt : Int) = sz + n.toInt := by
  have hP : PHYSTOP - KERNBASE = 2^27 := by decide
  have hlo := n.le_toInt
  have hhi := n.toInt_lt
  have hmod : ((sz : Int) + n.toInt) % 2^32 = sz + n.toInt := by
    apply Int.emod_eq_of_lt hn
    omega
  unfold growSize
  rw [hmod]
  split_ifs
  · omega
  · omega
  · omega

/-- A size that would be negative wraps around to one that is no smaller than the old. -/
theorem growSize_below_zero {sz : Nat} {n : BitVec 32} (hsz : sz ≤ PHYSTOP - KERNBASE)
    (hn : (sz : Int) + n.toInt < 0) : growSize sz n.toInt = sz := by
  have hP : PHYSTOP - KERNBASE = 2^27 := by decide
  have hlo := n.le_toInt
  have hmod : ((sz : Int) + n.toInt) % 2^32 = sz + n.toInt + 2^32 := by
    rw [← Int.add_emod_right]
    apply Int.emod_eq_of_lt
    · omega
    · omega
  unfold growSize
  rw [hmod, if_neg (by omega), if_pos (by omega)]
  omega

theorem sbrk_addr {sz : Nat} (hsz : sz ≤ PHYSTOP - KERNBASE) : (BitVec.ofNat 32 sz).toInt = sz := by
  have hP : PHYSTOP - KERNBASE = 2^27 := by decide
  rw [BitVec.toInt_eq_toNat_of_lt, BitVec.toNat_ofNat, Nat.mod_eq_of_lt (by omega)]
  rw [BitVec.toNat_ofNat]
  omega

end

theorem sys_sbrk_spec (hi : Inv k) (hs : Settled k) (ha : k.active p) (n : Int) :
    Runs (sys_sbrk p n) k fun r k' =>
      (r = (k.proc p).sz ∧ (k'.proc p).sz = growSize (k.proc p).sz n ∧
        k'.umem p = (k.umem p).resize (npages (k.proc p).sz) (npages (growSize (k.proc p).sz n))) ∨
      (r = -1 ∧ 0 < n ∧ (k'.proc p).sz = (k.proc p).sz ∧ k'.umem p = k.umem p ∧
        ∀ v < VPAGES, k'.map p v = k.map p v) := by
  have hpt := hs.pagetable_ne ha
  unfold sys_sbrk
  rw [runs_bind, runs_get]
  apply (growproc_spec hi ha.1 hpt n).bind
  intro r k' hk
  rcases hk with ⟨rfl, hproc, hstep⟩ | ⟨rfl, hpos, hproc, hstep, hmap⟩
  · rw [if_neg (by decide), runs_pure, sbrk_addr (hi.size_le ha.1 hpt), hproc]
    exact Or.inl ⟨rfl, rfl, hstep.mem⟩
  · rw [if_pos (by decide), runs_pure, hproc]
    refine Or.inr ⟨rfl, hpos, rfl, hstep.mem, fun v hv => ?_⟩
    have hpt' : (k'.proc p).pagetable ≠ 0 := by rwa [hproc]
    have hnew := (hstep.inv.own ha.1 hpt').map
    rw [hproc] at hnew
    exact (hi.own ha.1 hpt).map.agree hnew hmap hv

/-- `sbrk` returned `r` and was exact: either it returned -1 and changed neither the size nor
any translation, or it returned the old size and moved the end of the region by exactly `n`:
the bytes below both sizes stay, and the pages that are new read as zero. -/
def SbrkExact (k k' : Kernel) (p : Nat) (n r : Int) : Prop :=
  (r = -1 ∧ (k'.proc p).sz = (k.proc p).sz ∧ k'.umem p = k.umem p ∧
    ∀ v < VPAGES, k'.map p v = k.map p v) ∨
  (r = (k.proc p).sz ∧ ((k'.proc p).sz : Int) = (k.proc p).sz + n ∧
    (∀ va < min (k.proc p).sz (k'.proc p).sz,
      (k'.umem p).user (va/PGSIZE) = (k.umem p).user (va/PGSIZE) ∧
      (k'.umem p).page (va/PGSIZE) (va%PGSIZE) = (k.umem p).page (va/PGSIZE) (va%PGSIZE)) ∧
    ∀ v, npages (k.proc p).sz ≤ v → v < npages (k'.proc p).sz →
      (k'.umem p).user v = true ∧ (k'.umem p).page v = fun _ => 0)

/-- A request below zero has the same answer as one that was granted, and does nothing. -/
theorem sys_sbrk_below_zero (hr : Reachable k) (ha : k.active p) (n : BitVec 32)
    (hn : ((k.proc p).sz : Int) + n.toInt < 0) :
    Runs (sys_sbrk p n.toInt) k fun r k' => r = (k.proc p).sz ∧ (k'.proc p).sz = (k.proc p).sz := by
  obtain ⟨hi, hs⟩ := hr.inv
  apply (sys_sbrk_spec hi hs ha n.toInt).imp
  intro r k' hk
  rcases hk with ⟨hr, hsz, _⟩ | ⟨_, hpos, _⟩
  · rw [growSize_below_zero (hi.size_le ha.1 (hs.pagetable_ne ha)) hn] at hsz
    exact ⟨hr, hsz⟩
  · omega

/-- `sbrk` is exact for the requests that do not go below zero, and for no others. -/
theorem sys_sbrk_exact (hr : Reachable k) (ha : k.active p) (n : BitVec 32) :
    Runs (sys_sbrk p n.toInt) k fun r k' =>
      SbrkExact k k' p n.toInt r ↔ 0 ≤ ((k.proc p).sz : Int) + n.toInt := by
  obtain ⟨hi, hs⟩ := hr.inv
  apply (sys_sbrk_spec hi hs ha n.toInt).imp
  intro r k' hk
  constructor
  · intro hexact
    by_contra hn
    rcases hexact with ⟨hr, _⟩ | ⟨_, hsz, _⟩
    · rcases hk with ⟨hr', _⟩ | ⟨_, hpos, _⟩
      · omega
      · omega
    · omega
  intro hn
  rcases hk with ⟨hr, hsz, hmem⟩ | ⟨hr, _, hk⟩
  · have hexact := growSize_exact (hi.size_le ha.1 (hs.pagetable_ne ha)) hn
    rw [← hsz] at hmem hexact
    refine Or.inr ⟨hr, hexact, ?_, ?_⟩
    · intro va hva
      have hpage (sz : Nat) (h : va < sz) : va/PGSIZE < npages sz := by
        simp only [npages, PGSIZE]
        omega
      have h1 := hpage _ (lt_of_lt_of_le hva (min_le_left _ _))
      have h2 := hpage _ (lt_of_lt_of_le hva (min_le_right _ _))
      rw [hmem]
      simp [UserMem.resize, h1, h2]
    · intro v hlo hhi
      rw [hmem]
      simp [UserMem.resize, hlo, hhi, Nat.not_lt.mpr hlo]
  · exact Or.inl ⟨hr, hk⟩

end Sbrk

omit [Layout] in
/-- The first process grows by a page. -/
theorem sys_sbrk_exact_page : ∃ (_ : Layout) (k : Kernel), Reachable k ∧
    Runs (sys_sbrk k.initproc 4096) k fun r k' =>
      (r = -1 ∧ (k'.proc k.initproc).sz = (k.proc k.initproc).sz) ∨
      (r = 4096 ∧ (k'.proc k.initproc).sz = 8192) := by
  let _ := sampleLayout
  obtain ⟨k, hb, hk⟩ := exists_booted
  have hr : Reachable k := Reachable.boot hb
  refine ⟨_, k, hr, ?_⟩
  apply (sys_sbrk_exact hr hk.active 4096#32).imp
  intro r k' h
  rcases h.mpr (by rw [hk.sz]; decide) with ⟨hr, hsz, _⟩ | ⟨hr, hsz, _⟩
  · exact Or.inl ⟨hr, hsz⟩
  · rw [hk.sz] at hr hsz
    refine Or.inr ⟨hr, ?_⟩
    have h4096 : ((4096#32).toInt : Int) = 4096 := by decide
    rw [h4096] at hsz
    simp only [PGSIZE] at hsz
    omega

omit [Layout] in
/-- The first process has one page and asks to give back a byte more. The answer is its
size, as for a request that was granted, and nothing has changed. -/
theorem sbrk_below_zero_succeeds : ∃ (_ : Layout) (k : Kernel), Reachable k ∧
    (k.proc k.initproc).sz = 4096 ∧
    Runs (sys_sbrk k.initproc (-4097)) k fun r k' => r = 4096 ∧ (k'.proc k.initproc).sz = 4096 := by
  let _ := sampleLayout
  obtain ⟨k, hb, hk⟩ := exists_booted
  have hr : Reachable k := Reachable.boot hb
  refine ⟨_, k, hr, hk.sz, ?_⟩
  apply (sys_sbrk_below_zero hr hk.active (-4097#32) (by rw [hk.sz]; decide)).imp
  intro r k' h
  rw [hk.sz] at h
  exact h

end Xv6
