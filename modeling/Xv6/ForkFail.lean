import Xv6.FsArrays
import Xv6.System

/-! A `fork` that runs out of memory: what it took is free again, no file was
touched, and the parent can load and store as before. -/
namespace Xv6

namespace SysFile

open Function

def modifySys (f : Sys → Sys) : FsCode Unit := do
  let s ← perform .sys
  perform (.setSys (f s))

def setFile (f : Fin NFILE) (x : File) : FsCode Unit :=
  modifySys fun s => { s with file := update s.file f x }

def setProc (p : Fin NPROC) (x : OpenFiles) : FsCode Unit :=
  modifySys fun s => { s with proc := update s.proc p x }

def setOfile (p : Fin NPROC) (fd : Fin NOFILE) (f : Option (Fin NFILE)) : FsCode Unit :=
  modifySys fun s => { s with
    proc := update s.proc p { s.proc p with
      ofile := update (s.proc p).ofile fd f } }

def filedup (f : Fin NFILE) : FsCode Unit := do
  let s ← perform .sys
  Code.panicIf ((s.file f).ref < 1) "filedup"
  setFile f { s.file f with ref := (s.file f).ref + 1 }

def forkFiles (p q : Fin NPROC) : List (Fin NOFILE) → FsCode Unit
  | [] => pure ()
  | fd :: fds => do
    let s ← perform .sys
    match (s.proc p).ofile fd with
    | none => forkFiles p q fds
    | some f =>
      filedup f
      setOfile q fd (some f)
      forkFiles p q fds

/-- `fork` into the unused process `q`; `mem` says whether there was memory for it. -/
def fork (p q : Fin NPROC) (mem : Bool) : FsCode Int := do
  if mem then
    forkFiles p q (List.finRange NOFILE)
    let s ← perform .sys
    match (s.proc p).cwd with
    | none => .panic "kerneltrap"
    | some cwd =>
      perform (.idup cwd)
      setProc q { s.proc q with cwd := some cwd, live := true }
      pure q
  else
    pure (-1)

end SysFile

/-- The processes with their memory, beside the files in any model of them. -/
structure Machine (σ : Type) where
  kernel : Kernel
  files : σ

section Code
variable {σ α : Type}

def onKernel (x : Prog Kernel α) : Prog (Machine σ) α :=
  zoom Machine.kernel (fun k m => { m with kernel := k }) x

def onFiles (x : Prog σ α) : Prog (Machine σ) α :=
  zoom Machine.files (fun f m => { m with files := f }) x

/-- `fork`: the descriptors and the working directory are duplicated after the last
call that can fail. -/
def forkAll [Layout] (impl : ∀ β, FsCall β → Prog σ β) (p : Fin NPROC) : Prog (Machine σ) Int := do
  match ← onKernel allocproc with
  | none => pure (-1)
  | some np =>
    let k := (← get).kernel
    let r ← onKernel (inPhys (uvmcopy (k.proc p).pagetable (k.proc np).pagetable (k.proc p).sz))
    if r < 0 then
      onKernel (freeproc np)
      pure (-1)
    else
      onKernel (setProc np fun x => { x with sz := (k.proc p).sz, parent := some p.val })
      onKernel (inPhys (copyTrapframe (k.proc p).trapframe (k.proc np).trapframe))
      let _ ← onFiles ((SysFile.fork p ⟨np % NPROC, Nat.mod_lt _ (by decide)⟩ true).run impl)
      onKernel (setProc np fun x => { x with state := .RUNNABLE })
      pure (k.proc np).pid

/-- Process `p` can store `b` at `va`, and `k'` is the state after it. -/
def Kernel.stores [Layout] (k : Kernel) (p va : Nat) (b : UInt8) (k' : Kernel) : Prop :=
  userStore p va b k = .ok ((), k') ∧ (k'.proc p).alive ∧ k'.load p va = some b

end Code

/-- The state after a call that has undone itself, as process `p` and the allocator see
it. A killed process does not get back to its code. -/
structure Rewound [Layout] (k k' : Kernel) (p : Nat) : Prop where
  free : ∀ pa, pa ∈ k'.phys.freelist ↔ pa ∈ k.phys.freelist
  refs : ∀ pa, Managed pa → pa ∉ k.phys.freelist → k'.phys.ref pa = k.phys.ref pa
  slot : ∀ q ∈ procs, (k.proc q).state = .UNUSED → (k'.proc q).state = .UNUSED ∧
    (k'.proc q).pagetable = 0 ∧ (k'.proc q).trapframe = 0
  others : ∀ q, (k.proc q).state ≠ .UNUSED → k'.proc q = k.proc q
  loads : ∀ va, k'.load p va = k.load p va
  stores : (k.proc p).killed = false → ∀ va b k1, k.stores p va b k1 →
    ∃ k2, k'.stores p va b k2 ∧ (∀ x, k2.load p x = k1.load p x) ∧
      (k.phys.ref (PTE2PA (k.entry p va)) ≤ 1 →
        k2.phys.freelist.length = k'.phys.freelist.length)

variable [Layout]

section Pages
variable {k k' : Kernel}

omit [Layout] in
theorem Undone.pages (h : Undone k k') : k'.owned = k.owned ∧ k'.mapped = k.mapped := by
  constructor
  · unfold Kernel.owned
    rw [List.flatMap_congr h.own, h.kernel]
  · exact List.flatMap_congr h.user

/-- Who owns a page decides whether it is free and what its count is. -/
theorem Undone.free (h : Undone k k') (hi : Inv k) (hi' : Inv k') (pa : Nat) :
    pa ∈ k'.phys.freelist ↔ pa ∈ k.phys.freelist := by
  obtain ⟨ho, hm⟩ := h.pages
  have hl := hi'.ledger
  rw [ho, hm] at hl
  by_cases hman : Managed pa
  · rw [hl.mem_free pa hman, hi.ledger.mem_free pa hman]
  · exact iff_of_false (fun hc => hman (hl.free_managed pa hc))
      fun hc => hman (hi.ledger.free_managed pa hc)

theorem Undone.refs (h : Undone k k') (hi : Inv k) (hi' : Inv k') {pa : Nat} (hman : Managed pa)
    (hpa : pa ∉ k.phys.freelist) : k'.phys.ref pa = k.phys.ref pa := by
  obtain ⟨ho, hm⟩ := h.pages
  have hl := hi'.ledger
  rw [ho, hm] at hl
  have hin : pa ∈ k.owned ∨ pa ∈ k.mapped := by
    by_contra hc
    push Not at hc
    exact hpa ((hi.ledger.mem_free pa hman).mpr hc)
  rw [hl.ref_of_mem pa hin, hi.ledger.ref_of_mem pa hin]

end Pages

section Stores
variable {k k' k1 : Kernel} {p va : Nat} {b : UInt8}

def Kernel.writable (k : Kernel) (p va : Nat) : Prop :=
  (k.umem p).userByte va ∧
    ((k.map p (va/PGSIZE)).has PTE_W = true ∨ ¬ k.stuck p (va/PGSIZE))

omit [Layout] in
theorem writeByte_free (k : Kernel) (p va : Nat) (b : UInt8) :
    Runs (writeByte p va b) k fun _ k' => k'.phys.freelist = k.phys.freelist := by
  unfold writeByte
  rw [runs_bind, runs_get]
  simp only [runs_inPhys, runs_modify]
  rfl

/-- A page of the process that it cannot write is marked for copy-on-write. -/
theorem cowPage_of_userByte (h : Inv k) (hp : p ∈ procs) (hpt : (k.proc p).pagetable ≠ 0)
    (hu : (k.umem p).userByte va) (hw : (k.map p (va/PGSIZE)).has PTE_W = false) :
    k.cowPage p (va/PGSIZE) := by
  have hv := page_of_userByte hu
  refine ⟨hv, ?_⟩
  rw [(((h.space p hp).map hpt).user _ hv).cow, hw]
  rfl

/-- A store to a writable byte happens, and takes no page for a page mapped once. -/
theorem userStore_writable (h : Inv k) (hp : p ∈ procs) (hpt : (k.proc p).pagetable ≠ 0)
    (ha : (k.proc p).alive) (hk : (k.proc p).killed = false) (hw : k.writable p va) :
    Runs (userStore p va b) k fun _ k1 => StepOf k k1 p ((k.umem p).store va b) ∧
      k1.proc p = k.proc p ∧ (k.phys.ref (PTE2PA (k.map p (va/PGSIZE))) ≤ 1 →
        k1.phys.freelist.length = k.phys.freelist.length) := by
  obtain ⟨hu, hw⟩ := hw
  unfold userStore
  rw [runs_bind, runs_get]
  by_cases hW : (k.map p (va/PGSIZE)).has PTE_W = true
  · have hc := (permits_iff h hp hpt va .store).mpr ⟨hu, fun _ => hW⟩
    rw [if_pos hc]
    obtain ⟨_, k1, hrun, hst, hproc⟩ := writeByte_spec h hp hpt b hc
    have hfree := (writeByte_free k p va b).of_eq hrun
    exact ⟨_, k1, hrun, hst, by rw [hproc], fun _ => by rw [hfree]⟩
  -- The page is shared, or was: the fault makes it private.
  have hWf : (k.map p (va/PGSIZE)).has PTE_W = false := by simpa using hW
  have hcow := cowPage_of_userByte h hp hpt hu hWf
  have hns : ¬ k.stuck p (va/PGSIZE) := hw.resolve_left hW
  have hc : ¬ (k.entry p va).permits .store = true := fun hc =>
    hW (((permits_iff h hp hpt va .store).mp hc).2 rfl)
  rw [if_neg hc]
  obtain ⟨_, kf, hrunf, hf, hone⟩ := usertrapFault_repairs h hp hpt hu.1
  have hprocf : kf.proc p = k.proc p := by
    rw [hf.proc, hk]
    simp [hns, ← hk]
  have htrap : usertrap p va k = .ok ((), kf) := by
    have hrun : Runs (usertrap p va) k fun _ k2 => k2 = kf := by
      unfold usertrap
      rw [runs_bind]
      refine ⟨_, kf, hrunf, ?_⟩
      dsimp only
      rw [runs_bind, runs_get, if_neg (by rw [hprocf, hk]; decide)]
      exact (runs_pure _).mpr rfl
    obtain ⟨_, k2, hk2, rfl⟩ := hrun
    exact hk2
  have hptf : (kf.proc p).pagetable ≠ 0 := by
    rw [hprocf]
    exact hpt
  have hcf : (kf.entry p va).permits .store = true :=
    (permits_iff hf.step.inv hp hptf va .store).mpr
      ⟨by rw [hf.step.mem]; exact hu, fun _ => hf.writable hcow hns⟩
  rw [runs_bind]
  refine ⟨_, kf, htrap, ?_⟩
  dsimp only
  rw [runs_bind, runs_get, if_pos ⟨by rw [hprocf]; exact ha, hcf⟩]
  obtain ⟨_, k1, hrun, hst, hproc⟩ := writeByte_spec hf.step.inv hp hptf b hcf
  have hfree := (writeByte_free kf p va b).of_eq hrun
  refine ⟨_, k1, hrun, ⟨hst.inv, hst.initproc.trans hf.step.initproc, ?_, ?_, ?_⟩, ?_, ?_⟩
  · intro q hq
    rw [hproc, hf.step.proc q hq]
  · rw [hst.mem, hf.step.mem]
  · intro q hq hqp
    rw [hst.others q hq hqp, hf.step.others q hq hqp]
  · rw [hproc, hprocf]
  · intro h1
    rw [hfree, hone h1]

theorem Kernel.stores.writable (hs : k.stores p va b k1) (h : Inv k) (hp : p ∈ procs)
    (hpt : (k.proc p).pagetable ≠ 0) : k.writable p va := by
  obtain ⟨hrun, halive, hload⟩ := hs
  rcases (userStore_ends h hp hpt b) _ _ hrun with ⟨hc, -⟩ | ⟨hc, hva, kf, hf, hcase⟩
  · obtain ⟨hu, hw⟩ := (permits_iff h hp hpt va .store).mp hc
    exact ⟨hu, Or.inl (hw rfl)⟩
  have hptf : (kf.proc p).pagetable ≠ 0 := by
    rw [hf.proc]
    exact hpt
  have hlive (hk : (kf.proc p).killed = false) (hcow : k.cowPage p (va/PGSIZE)) :
      ¬ k.stuck p (va/PGSIZE) := by
    intro hst
    rw [hf.proc] at hk
    simp [hcow, hst] at hk
  have hgoal (hk : (kf.proc p).killed = false) (hu : (k.umem p).userByte va) :
      k.writable p va := by
    refine ⟨hu, ?_⟩
    by_cases hW : (k.map p (va/PGSIZE)).has PTE_W = true
    · exact Or.inl hW
    · exact Or.inr (hlive hk (cowPage_of_userByte h hp hpt hu (by simpa using hW)))
  rcases hcase with ⟨-, hex⟩ | ⟨hk, hc', -, -⟩ | ⟨hk, rfl, -⟩
  · exfalso
    apply halive.2
    rw [hex.proc p]
    exact if_pos rfl
  · obtain ⟨hu, -⟩ := (permits_iff hf.step.inv hp hptf va .store).mp hc'
    rw [hf.step.mem] at hu
    exact hgoal hk hu
  · apply hgoal hk
    rw [load_eq hf.step.inv hp hptf, hf.step.mem] at hload
    by_contra hn
    rw [UserMem.load, if_neg hn] at hload
    cases hload

theorem Undone.page (hd : Undone k k') (h : Inv k) (h' : Inv k') (hp : p ∈ procs)
    (hpt : (k.proc p).pagetable ≠ 0) {v : Nat} (hv : v < npages (k.proc p).sz) :
    PTE2PA (k'.map p v) = PTE2PA (k.map p v) ∧
      k'.phys.ref (PTE2PA (k.map p v)) = k.phys.ref (PTE2PA (k.map p v)) := by
  have hown := h.own hp hpt
  have hroom := hown.map.size
  have hV : TFPAGE ≤ 2*VPAGES := by decide
  have hmapped : PTE2PA (k.map p v) ∈ k.mapped := by
    refine List.mem_flatMap.mpr ⟨p, hp, ?_⟩
    rw [userPages_of_ne hpt]
    exact hown.page_mem hv
  have hman := h.ledger.managed _ (Or.inr hmapped)
  constructor
  · rcases hd.marks p hp hpt v (by omega) with he | he
    · rw [he]
    · rw [he, cowWord_pa]
  · exact hd.refs h h' hman fun hc => ((h.ledger.mem_free _ hman).mp hc).2 hmapped

theorem Undone.writable (hd : Undone k k') (h : Inv k) (h' : Inv k') (hp : p ∈ procs)
    (hpt : (k.proc p).pagetable ≠ 0) (hw : k.writable p va) : k'.writable p va := by
  obtain ⟨hu, hw⟩ := hw
  have hv := page_of_userByte hu
  have hown := h.own hp hpt
  obtain ⟨hpa, href⟩ := hd.page h h' hp hpt hv
  constructor
  · rw [hd.mem p hp]
    exact hu
  · right
    intro hst
    obtain ⟨hgt, hempty⟩ := hst
    rw [hpa, href] at hgt
    rcases hw with hW | hns
    · -- A writable page has one mapping.
      exact hown.write _ hv hW ((hown.ref_gt_one hv).mp hgt)
    · apply hns
      refine ⟨hgt, List.eq_nil_iff_forall_not_mem.mpr fun pa hc => ?_⟩
      have hc' := (hd.free h h' pa).mpr hc
      rw [hempty] at hc'
      cases hc'

end Stores

section Fork
variable {σ : Type} {k k' : Kernel} {p : Nat}

theorem forkAll_fails {Q : Kernel → Prop} (impl : ∀ β, FsCall β → Prog σ β) (p : Fin NPROC)
    (m : Machine σ) (h : Runs (fork p) m.kernel fun r k' => r = -1 ∧ Q k') :
    Runs (forkAll impl p) m fun r m' => r = -1 ∧ m'.files = m.files ∧ Q m'.kernel := by
  unfold fork at h
  unfold forkAll
  rw [runs_bind] at h ⊢
  unfold onKernel
  rw [runs_zoom]
  refine h.imp fun r k1 h1 => ?_
  cases r with
  | none =>
    rw [runs_pure] at h1 ⊢
    exact ⟨h1.1, rfl, h1.2⟩
  | some np =>
    dsimp only at h1 ⊢
    rw [runs_bind, runs_get] at h1 ⊢
    rw [runs_bind] at h1 ⊢
    rw [runs_zoom]
    refine h1.imp fun r k2 h2 => ?_
    by_cases hr : r < 0
    · rw [if_pos hr, runs_bind] at h2 ⊢
      rw [runs_zoom]
      refine h2.imp fun _ k3 h3 => ?_
      rw [runs_pure] at h3 ⊢
      exact ⟨h3.1, rfl, h3.2⟩
    · rw [if_neg hr] at h2
      simp only [runs_bind, runs_setProc, runs_inPhys, runs_pure] at h2
      obtain ⟨_, _, -, hpid, -⟩ := h2
      omega

theorem Undone.rewound (hd : Undone k k') (h : Inv k) (hs : Settled k) (h' : Inv k')
    (ha : k.active p) : Rewound k k' p := by
  have hp := ha.1
  have hpt := hs.pagetable_ne ha
  have hproc (q : Nat) (hq : (k.proc q).state ≠ .UNUSED) : k'.proc q = k.proc q :=
    (hd.proc q).resolve_right fun hc => hq hc.1.state
  have hpp := hproc p ha.2.1
  have hpt' : (k'.proc p).pagetable ≠ 0 := by
    rw [hpp]
    exact hpt
  refine ⟨hd.free h h', fun pa => hd.refs h h', ?_, hproc, ?_, ?_⟩
  · intro q hq hun
    have hidle : Idle (k'.proc q) := by
      rcases hd.proc q with he | he
      · rw [he]
        exact hs.idle h hq hun
      · exact he.2
    exact ⟨hidle.state, hidle.pagetable, hidle.trapframe⟩
  · intro va
    rw [load_eq h' hp hpt', load_eq h hp hpt, hd.mem p hp]
  · intro hk va b k1 hst
    have hw := hst.writable h hp hpt
    obtain ⟨_, k1', hrun1, h1, hproc1, -⟩ :=
      userStore_writable (b := b) h hp hpt ha.2 hk hw
    obtain rfl : k1' = k1 := by
      have := hrun1.symm.trans hst.1
      cases this
      rfl
    obtain ⟨_, k2, hrun2, h2, hproc2, hfree2⟩ := userStore_writable (b := b) h' hp hpt'
      (by rw [hpp]; exact ha.2) (by rw [hpp]; exact hk) (hd.writable h h' hp hpt hw)
    have hload (x : Nat) : k2.load p x = k1'.load p x := by
      rw [load_eq h2.inv hp (by rw [hproc2]; exact hpt'),
        load_eq h1.inv hp (by rw [hproc1]; exact hpt), h1.mem, h2.mem, hd.mem p hp]
    refine ⟨k2, ⟨hrun2, ?_, ?_⟩, hload, ?_⟩
    · rw [hproc2, hpp]
      exact ha.2
    · rw [hload]
      exact hst.2.2
    · intro hone
      rw [entry_low k p hw.1.1] at hone
      obtain ⟨hpa, href⟩ := hd.page h h' hp hpt (page_of_userByte hw.1)
      apply hfree2
      rw [hpa, href]
      exact hone

/-- A child with memory needs five table pages and a trapframe. -/
theorem fork_needs_six (h : Inv k) (hs : Settled k) (hp : p ∈ procs)
    (hpt : (k.proc p).pagetable ≠ 0) (hsz : 0 < npages (k.proc p).sz)
    (hrun : Runs (fork p) k fun r _ => 0 ≤ r) : 6 ≤ k.phys.freelist.length := by
  unfold fork at hrun
  rw [runs_bind] at hrun
  obtain ⟨o, k1, halloc, hrun⟩ := hrun
  obtain ⟨h1, -, -, -, -, hr⟩ := (allocproc_spec h hs).of_eq halloc
  cases o with
  | none => exact absurd ((runs_pure _).mp hrun) (by decide)
  | some np =>
    have hf := hr.forking h1 hp hpt
    have hpp : k1.proc p = k.proc p := hr.proc p hf.ne
    dsimp only at hrun
    rw [runs_bind, runs_get, runs_bind, runs_inPhys] at hrun
    obtain ⟨r, s, hcopy, hrun⟩ := hrun
    rcases hf.uvmcopy.of_eq hcopy with ⟨-, hcop⟩ | ⟨rfl, -⟩
    swap
    · rw [if_pos (by decide), runs_bind] at hrun
      obtain ⟨_, k2, -, hrun⟩ := hrun
      exact absurd ((runs_pure _).mp hrun) (by decide)
    -- The child has a page at the bottom and one at the top.
    have hmap := hcop.two.right
    have hpage := ((h1.own hf.parent hf.ppt).map.user 0 (by rw [hpp]; exact hsz))
    obtain ⟨slot, hl, -⟩ := hmap.slot_of_ne_zero (v := 0) (by decide)
      (copyUpto_leaf hpage (by rw [hpp]; exact hsz)).ne_zero
    have hsize := (h1.own hf.parent hf.ppt).map.size
    obtain ⟨slot', hl', -⟩ := hmap.slot_of_ne_zero (v := TFPAGE) (by decide) (by
      rw [copyUpto, if_neg (by omega), hf.empty.1.trapframe]
      exact (trapframe_leaf _).1.ne_zero)
    have hfive := five_le_tables hl hl' (by decide)
    have htwo := (h1.two hf.parent hf.child hf.ne hf.ppt hf.cpt).right.ledger
    have hledger := hmap.ledger
    rw [hcop.tables] at hledger
    have hperm := (htwo.spread hledger fun pa => by
      rw [List.mem_append, or_iff_right_of_imp]
      intro hpa
      obtain ⟨v, -, hv, rfl⟩ := mem_pagesOf.mp hpa
      exact hf.page_mapped v (by omega)).length_eq
    rw [List.length_append, List.length_append] at hperm
    have hpages := hr.pages
    omega

end Fork

/-- `fork` finds the memory for a child, or undoes all that it did. -/
theorem fork_undoes_itself {σ : Type} (impl : ∀ β, FsCall β → Prog σ β) {m : Machine σ}
    {p : Fin NPROC} (h : Reachable m.kernel) (ha : m.kernel.active p) :
    (Runs (forkAll impl p) m fun r m' =>
      r = -1 ∧ Rewound m.kernel m'.kernel p ∧ m'.files = m.files) ∨
    Runs (fork p) m.kernel fun r k' => 0 ≤ r ∧ ∃ np, Forked m.kernel k' p np := by
  obtain ⟨hi, hs⟩ := h.inv
  obtain ⟨r, k', hrun, hi', -, -, ⟨hr, hd, -⟩ | ⟨hr, hf, -⟩⟩ :=
    fork_spec hi hs ha.1 (hs.pagetable_ne ha)
  · left
    have hfail : Runs (fork p) m.kernel fun r k' => r = -1 ∧ Rewound m.kernel k' p :=
      ⟨r, k', hrun, hr, hd.rewound hi hs hi' ha⟩
    refine (forkAll_fails impl p m hfail).imp ?_
    intro r m' hm'
    exact ⟨hm'.1, hm'.2.2, hm'.2.1⟩
  · right
    exact ⟨r, k', hrun, hr, hf⟩

omit [Layout] in
/-- There is memory for an empty address space, and none for the tables that `uvmcopy`
needs. -/
theorem fork_undoes_itself_uvmcopy : ∃ (_ : Layout) (m : Machine Fs) (p : Fin NPROC),
    Reachable m.kernel ∧ m.kernel.active p ∧ Runs allocproc m.kernel (fun r _ => r ≠ none) ∧
    ∀ impl : ∀ β, FsCall β → Prog Fs β, Runs (forkAll impl p) m fun r m' =>
      r = -1 ∧ Rewound m.kernel m'.kernel p ∧ m'.files = m.files := by
  let _ := sampleLayout
  obtain ⟨k0, hb, hk0⟩ := exists_booted
  have hfree0 := hk0.free
  obtain ⟨k, hr, hstep, hfree⟩ := (Reachable.boot hb).exhaust 5 (k0.phys.freelist.length - 5)
    (by omega)
  have hactive : k.active k0.initproc := by
    refine ⟨hk0.init, ?_⟩
    rw [hstep.proc]
    exact hk0.active.2
  obtain ⟨hi, hs⟩ := hr.inv
  refine ⟨_, ⟨k, freshFs⟩, ⟨k0.initproc, mem_procs.mp hk0.init⟩, hr, hactive, ?_, fun impl => ?_⟩
  · refine (allocproc_spec hi hs).imp ?_
    rintro r k1 ⟨-, -, -, -, -, hr1⟩ rfl
    rcases hr1.2 with hall | hfew
    · obtain ⟨q, hq, hne⟩ := hk0.unused
      exact hall q hq (by rw [hstep.proc]; exact hne)
    · omega
  · refine (fork_undoes_itself impl hr hactive).resolve_right ?_
    rintro ⟨r, k', hrun, hr0, -⟩
    have hsz : 0 < npages (k.proc k0.initproc).sz := by
      rw [hstep.proc, hk0.sz]
      decide
    have := fork_needs_six hi hs hactive.1 (hs.pagetable_ne hactive) hsz ⟨r, k', hrun, hr0⟩
    omega

end Xv6
