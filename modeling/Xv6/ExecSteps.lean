import Xv6.ExecImage
import Xv6.ProcTable

/-! `exec` and `sys_exec` as steps of the kernel: the new image, or the old one
untouched. -/
namespace Xv6

open Function
variable [Layout]

section Spaces
variable {s s' : Phys} {old new n m tf : Nat} {f g : Nat → Pte} {F U F' U' : List Nat}

theorem Own.of_frame (h : Own s old f F U n tf)
    (hl : Ledger s' (tables s.mem 2 old ++ F') (pagesOf f 0 n ++ U')) (hU : U' ⊆ U)
    (hfr : Frame s s' (tables s.mem 2 old) (pagesOf f 0 n)) :
    Own s' old f F' U' n tf ∧ userMem s' f n = userMem s f n := by
  have htab : ∀ q ∈ tables s.mem 2 old, s'.mem q = s.mem q := fun q hq => hfr q (Kept.kernel hq)
  refine ⟨⟨⟨by rw [tables_congr htab]; exact hl, linked_congr htab h.maps.linked, fun v hv => ?_⟩,
    h.map, h.nodup, fun k hk hw hin => h.write k hk hw (hU hin)⟩, ?_⟩
  · rw [pteAt_congr htab]
    exact h.maps.pte v hv
  · exact userMem_congr fun k hk => hfr _ (Kept.user (h.page_mem hk))

theorem Own.pair (h : Own s old f F U n tf)
    (hm : Maps s' new g (tables s.mem 2 old ++ F) (pagesOf f 0 n ++ U)) (hu : UserMap g 0 tf)
    (hfr : Frame s s' (tables s.mem 2 old ++ F) (pagesOf f 0 n ++ U)) :
    Built s old new f F U n tf f g 0 UserMem.empty s' := by
  have hsub : Frame s s' (tables s.mem 2 old) (pagesOf f 0 n) := fun q hq =>
    hfr q (hq.mono (List.subset_append_left _ _) (List.subset_append_left _ _))
  have hT : tables s'.mem 2 old = tables s.mem 2 old :=
    tables_congr fun q hq => hsub q (Kept.kernel hq)
  have hright : Own s' new g (tables s'.mem 2 old ++ F) (pagesOf f 0 n ++ U) 0 tf :=
    ⟨by rw [hT]; exact hm, hu, List.nodup_nil, fun k hk => by omega⟩
  have hl : Ledger s' (tables s.mem 2 old ++ (tables s'.mem 2 new ++ F))
      (pagesOf f 0 n ++ (pagesOf g 0 0 ++ U)) := hm.ledger.perm (perm_two _ _ _) (List.Perm.refl _)
  obtain ⟨hleft, hmem⟩ := h.of_frame hl (List.Subset.refl _) hsub
  exact ⟨⟨hleft, hright⟩, fun k hk => by omega, userMem_empty _ _, hT, hmem,
    fun q hq => hfr q (hq.mono (List.subset_append_right _ _) (List.subset_append_right _ _)),
    fun _ hpa _ => hpa, fun _ _ _ => rfl⟩

theorem Pair.setPage (h : Pair s old new f g F U n m tf) {pa : Nat} (hpa : pa ∈ F) (b : Bytes) :
    Pair (s.setPage pa b) old new f g F U n m tf ∧
      userMem (s.setPage pa b) g m = userMem s g m := by
  have htab {t : Nat} {f : Nat → Pte} {F' U' : List Nat} (hm : Maps s t f F' U') (hF : pa ∈ F') :
      tables (s.setPage pa b).mem 2 t = tables s.mem 2 t := by
    apply tables_congr
    intro q hq
    rw [setPage_mem, update_of_ne]
    rintro rfl
    exact (hm.table_not_frame hq).1 hF
  have hl := List.mem_append_right (tables s.mem 2 new) hpa
  have hr := List.mem_append_right (tables s.mem 2 old) hpa
  refine ⟨⟨?_, ?_⟩, (h.right.setPage hr b).2⟩
  · rw [htab h.right.maps hr]
    exact (h.left.setPage hl b).1
  · rw [htab h.left.maps hl]
    exact (h.right.setPage hr b).1

theorem Pair.free_right {sz : Nat} (h : Pair s old new f g F U n (npages sz) tf) :
    Runs (proc_freepagetable new sz) s fun _ s' => Own s' old f F U n tf ∧
      userMem s' f n = userMem s f n ∧ Frame s s' F U ∧
      tables s'.mem 2 old = tables s.mem 2 old := by
  have hr := h.right.room
  have hsz : sz < 2^63 := (size_lt (by omega)).trans (by decide)
  refine (proc_freepagetable_spec hsz h.right.map h.right.maps).imp ?_
  rintro _ s' ⟨hl, hfr⟩
  obtain ⟨ho, hm⟩ := h.left.of_frame hl (List.subset_append_right _ _) fun q hq =>
    hfr q (hq.mono (List.subset_append_left _ _) (List.subset_append_left _ _))
  exact ⟨ho, hm, fun q hq => hfr q (hq.mono (List.subset_append_right _ _)
    (List.subset_append_right _ _)), tables_congr fun q hq =>
      hfr q (Kept.kernel (List.mem_append_left _ hq))⟩

end Spaces

def execRegs (b : Bytes) (sp entry : Nat) : Bytes :=
  leSet 8 (leSet 8 (leSet 8 b TF_A1 sp) TF_EPC entry) TF_SP sp

omit [Layout] in
theorem execRegs_get (b : Bytes) {sp entry : Nat} (hsp : sp < 256^8) (he : entry < 256^8) :
    leGet 8 (execRegs b sp entry) TF_SP = sp ∧ leGet 8 (execRegs b sp entry) TF_A1 = sp ∧
      leGet 8 (execRegs b sp entry) TF_EPC = entry := by
  unfold execRegs
  refine ⟨?_, ?_, ?_⟩
  · rw [leGet_leSet_same, Nat.mod_eq_of_lt hsp]
  · rw [leGet_leSet_of_disjoint _ _ _ _ _ _ (by decide),
      leGet_leSet_of_disjoint _ _ _ _ _ _ (by decide), leGet_leSet_same, Nat.mod_eq_of_lt hsp]
  · rw [leGet_leSet_of_disjoint _ _ _ _ _ _ (by decide), leGet_leSet_same, Nat.mod_eq_of_lt he]

omit [Layout] in
theorem pushSp_lt (sp n : Nat) : pushSp sp n < 256^8 := by
  have hm : (sp + 2^64 - n) % 2^64 < 2^64 := Nat.mod_lt _ (by decide)
  unfold pushSp
  omega

/-- What a failing `exec` of `p` leaves behind: every page belongs to whom it belonged
before, up to copies of pages that `p` shared. -/
structure ExecFailed (k k' : Kernel) (p : Nat) : Prop where
  proc : k'.proc p = k.proc p
  step : StepOf k k' p (k.umem p)
  own : ∀ q ∈ procs, k'.ownPages q = k.ownPages q
  user : ∀ q ∈ procs, q ≠ p → k'.userPages q = k.userPages q
  kernel : k'.kernelPages = k.kernelPages
  trapframe : k'.phys.mem (k.proc p).trapframe = k.phys.mem (k.proc p).trapframe
  kept : ∀ v < npages (k.proc p).sz, (k.map p v).has PTE_COW = false → k'.map p v = k.map p v

/-- What `exec` of `file` leaves behind when it returns `r`. -/
structure ExecDone (k k' : Kernel) (p : Nat) (file : List UInt8) (args : List (List UInt8))
    (r : Int) : Prop where
  ok : ExecOk file args
  argc : r = args.length
  pagetable : (k'.proc p).pagetable ≠ 0
  proc : k'.proc p = { k.proc p with
    pagetable := (k'.proc p).pagetable
    sz := (execImage file args).2 }
  step : StepOf k k' p (execImage file args).1
  sp : leGet 8 (k'.phys.mem (k.proc p).trapframe) TF_SP = execSp file args
  a1 : leGet 8 (k'.phys.mem (k.proc p).trapframe) TF_A1 = execSp file args
  epc : leGet 8 (k'.phys.mem (k.proc p).trapframe) TF_EPC = (elfHdr file).entry

section Exec
variable {k : Kernel} {p : Nat}

theorem ExecFailed.refl (h : Inv k) : ExecFailed k k p :=
  ⟨rfl, StepOf.refl h, fun _ _ => rfl, fun _ _ _ => rfl, rfl, rfl, fun _ _ _ => rfl⟩

/-- The old image again, as it was except for copy-on-write repairs. -/
theorem Inv.exec_failed {s : Phys} {f : Nat → Pte} (h : Inv k) (hp : p ∈ procs)
    (hpt : (k.proc p).pagetable ≠ 0)
    (ho : Own s (k.proc p).pagetable f (k.frame p) (k.mappedBeside [p])
      (npages (k.proc p).sz) (k.proc p).trapframe)
    (hm : userMem s f (npages (k.proc p).sz) = k.umem p)
    (hfr : Frame k.phys s (k.frame p) (k.mappedBeside [p]))
    (hpg : ∀ pa ∈ pagesOf f 0 (npages (k.proc p).sz), pa ∈ k.mappedBeside [p] →
      pa ∈ pagesOf (k.map p) 0 (npages (k.proc p).sz))
    (htab : tables s.mem 2 (k.proc p).pagetable = tables k.phys.mem 2 (k.proc p).pagetable)
    (hkept : ∀ v < npages (k.proc p).sz, (k.map p v).has PTE_COW = false → f v = k.map p v) :
    ExecFailed k { k with phys := s } p := by
  have hbeside (t : Nat) (ht : t ∈ k.ownedBeside [p]) : s.mem t = k.phys.mem t :=
    hfr t (Kept.kernel (List.mem_cons_of_mem _ ht))
  have hslot (q : Nat) (hq : q ∈ procs) (hqp : q ≠ p) :=
    slot_congr k { k with phys := s } (q := q) rfl fun t ht => hbeside t (mem_ownedBeside (Or.inl
      (List.mem_flatMap.mpr ⟨q, mem_otherProcs.mpr ⟨hq, by simpa using hqp⟩, ht⟩)))
  have hstep : StepOf k { k with phys := s } p (k.umem p) := by
    rw [← put_self]
    exact h.step_put hp hpt (k.proc p) rfl rfl ho hm hfr hpg
  refine ⟨rfl, hstep, fun q hq => ?_, fun q hq hqp => (hslot q hq hqp).2.1, ?_, ?_, ?_⟩
  · by_cases hqp : q = p
    · subst hqp
      have htf := (h.space q hq).trapframe hpt
      have hk : k.ownPages q = _ := ownPages_of_ne rfl hpt rfl htf
      rw [hk, ← htab]
      exact ownPages_of_ne rfl hpt rfl htf
    · exact (hslot q hq hqp).1
  · exact kernelPages_congr ⟨rfl, rfl, rfl, rfl⟩ fun t ht =>
      hbeside t (mem_ownedBeside (Or.inr ht))
  · exact hfr _ (Kept.kernel List.mem_cons_self)
  · intro v hv hc
    have hsize := ho.map.size
    have hT : TFPAGE ≤ 2*VPAGES := by decide
    rw [← hkept v hv hc]
    exact ho.maps.pte v (by omega)

/-- The new image, when the old one has been given back. -/
theorem Inv.exec_done {s : Phys} {g : Nat → Pte} {new : Nat} {b : Bytes} {file : List UInt8}
    {args : List (List UInt8)} (h : Inv k) (hp : p ∈ procs) (hpt : (k.proc p).pagetable ≠ 0)
    (hok : ExecOk file args) (hnew : new ≠ 0)
    (ho : Own s new g (k.frame p) (k.mappedBeside [p]) (npages (execImage file args).2)
      (k.proc p).trapframe)
    (hm : userMem s g (npages (execImage file args).2) = (execImage file args).1)
    (hfr : Frame k.phys s (k.ownedBeside [p]) (k.mappedBeside [p]))
    (hown : ∀ pa ∈ pagesOf g 0 (npages (execImage file args).2), pa ∉ k.mappedBeside [p])
    (hregs : s.mem (k.proc p).trapframe = execRegs b (execSp file args) (elfHdr file).entry) :
    ExecDone k (k.put p s { k.proc p with pagetable := new, sz := (execImage file args).2 }) p file
      args args.length := by
  have hsp : execSp file args < 256^8 := pushSp_lt _ _
  have hentry : (elfHdr file).entry < 256^8 := leGet_lt 8 _ _
  obtain ⟨hr1, hr2, hr3⟩ := execRegs_get b hsp hentry
  rw [← hregs] at hr1 hr2 hr3
  set x : Proc := { k.proc p with pagetable := new, sz := (execImage file args).2 } with hx
  have hself : (k.put p s x).proc p = x := put_proc_self _ _
  refine ⟨hok, rfl, by rw [hself]; exact hnew, by rw [hself], ?_, hr1, hr2, hr3⟩
  apply h.step_of_own (k.put p s x) hp hpt (fun q hq => put_proc_of_ne s x hq)
    ⟨rfl, rfl, rfl, rfl⟩ rfl
  · rw [hself]
  · rw [hself]
    exact hnew
  · rw [hself]
    exact ho
  · rw [hself]
    exact hm
  · exact hfr
  · rw [hself]
    exact fun pa hpa hU => absurd hU (hown pa hpa)

/-- The trapframe page is none of the pages that are left alone. -/
theorem Inv.kept_ne_trapframe (h : Inv k) (hp : p ∈ procs) (hpt : (k.proc p).pagetable ≠ 0) {q : Nat}
    (hq : Kept (k.ownedBeside [p]) (k.mappedBeside [p]) q) : q ≠ (k.proc p).trapframe := by
  have hl := (h.own hp hpt).maps.ledger
  have htf := List.mem_append_right (tables k.phys.mem 2 (k.proc p).pagetable)
    (List.mem_cons_self (a := (k.proc p).trapframe) (l := k.ownedBeside [p]))
  rintro rfl
  rcases hq with hq | hq | hq
  · exact (List.nodup_cons.mp (List.nodup_append.mp hl.nodup).2.1).1 hq
  · exact hl.disjoint _ htf (List.mem_append_right _ hq)
  · exact hq (hl.managed _ (Or.inl htf))

omit [Layout] in
theorem held_beside {ps : List Nat} : k.held ⊆ k.ownedBeside ps := fun _ ha =>
  List.mem_append_right _ (List.mem_append_right _ (List.mem_append_right _
    (List.mem_append_right _ ha)))

/-- `exec` fails and the process goes on, or the process has the image of the file. It does
not fail for a file that it accepts, with memory for the image. -/
theorem exec_spec (h : Inv k) (hp : p ∈ procs) (hpt : (k.proc p).pagetable ≠ 0)
    (file : Option (List UInt8)) {argv : List Nat} (hargv : argv ⊆ k.ownedBeside [p]) :
    Runs (exec file p argv) k fun r k' => SameKernel k k' ∧
      (r = -1 ∧ ExecFailed k k' p ∧ (∀ bytes, file = some bytes →
          ExecAccepts bytes (argStrings k.phys argv) →
          k.phys.freelist.length ≤ 3*npages (loadedImage bytes).2 + 11) ∨
        ∃ bytes, file = some bytes ∧ ExecDone k k' p bytes (argStrings k.phys argv) r) := by
  have hrefused (hno : ∀ bytes, file = some bytes → ¬ ExecAccepts bytes (argStrings k.phys argv)) :
      SameKernel k k ∧ ((-1 : Int) = -1 ∧ ExecFailed k k p ∧ (∀ bytes, file = some bytes →
          ExecAccepts bytes (argStrings k.phys argv) →
          k.phys.freelist.length ≤ 3*npages (loadedImage bytes).2 + 11) ∨
        ∃ bytes, file = some bytes ∧ ExecDone k k p bytes (argStrings k.phys argv) (-1)) :=
    ⟨⟨rfl, rfl, rfl, rfl⟩, Or.inl ⟨rfl, ExecFailed.refl h, fun b hb hacc => absurd hacc (hno b hb)⟩⟩
  have hown := h.own hp hpt
  have hargv' : argv ⊆ k.frame p := fun a ha => List.mem_cons_of_mem _ (hargv ha)
  cases file with
  | none => exact (runs_pure _).mpr (hrefused nofun)
  | some bytes =>
    unfold exec
    dsimp only
    rw [runs_ite]
    refine ⟨fun hshort => (runs_pure _).mpr (hrefused ?_), fun _ => ?_⟩
    · rintro _ ⟨⟩ hacc
      exact hshort hacc.header
    rw [runs_ite]
    refine ⟨fun hmagic => (runs_pure _).mpr (hrefused ?_), fun _ => ?_⟩
    · rintro _ ⟨⟩ hacc
      exact hmagic hacc.magic
    rw [runs_bind, runs_get]
    simp only [runs_bind, runs_inPhys]
    refine (proc_pagetable_spec (k.proc p).trapframe hown.maps.ledger).imp ?_
    rintro r s1 ⟨hfr1, hr⟩
    cases r with
    | none =>
      have hsub : Frame k.phys s1 (tables k.phys.mem 2 (k.proc p).pagetable)
          (pagesOf (k.map p) 0 (npages (k.proc p).sz)) := fun q hq =>
        hfr1 q (hq.mono (List.subset_append_left _ _) (List.subset_append_left _ _))
      obtain ⟨ho, hm⟩ := hown.of_frame hr.1 (List.Subset.refl _) hsub
      refine (runs_pure _).mpr ⟨⟨rfl, rfl, rfl, rfl⟩, Or.inl ⟨rfl, h.exec_failed hp hpt ho hm
        (fun q hq => hfr1 q (hq.mono (List.subset_append_right _ _) (List.subset_append_right _ _)))
        (fun _ hpa _ => hpa) (tables_congr fun q hq => hsub q (Kept.kernel hq))
        fun _ _ _ => rfl, fun _ _ _ => ?_⟩⟩
      have := hr.2
      omega
    | some new =>
      obtain ⟨hman, hused, g, hmaps, hmap⟩ := hr
      have hb1 := hown.pair hmaps hmap hfr1
      simp only [runs_bind, runs_inPhys]
      refine (execBuild_spec bytes rfl hb1.pair hargv').imp ?_
      rintro ⟨res, sz⟩ s2 ⟨f2, g2, mem2, hb2, himg, hnone⟩
      dsimp only at hb2 himg hnone
      have hb := hb1.trans hb2
      rw [hb1.argStrings hargv'] at himg hnone
      cases res with
      | none =>
        simp only [runs_bind, runs_inPhys]
        refine hb.pair.free_right.imp ?_
        rintro _ s3 ⟨ho, hm, hfr, htab⟩
        refine (runs_pure _).mpr ⟨⟨rfl, rfl, rfl, rfl⟩, Or.inl ⟨rfl, h.exec_failed hp hpt ho
          (hm.trans hb.old) (hb.frame.trans hfr) hb.pages (htab.trans hb.tables) hb.kept, ?_⟩⟩
        rintro _ ⟨⟩ hacc
        have := hnone rfl hacc
        omega
      | some res =>
        obtain ⟨sp, argc⟩ := res
        obtain ⟨himage, hok, rfl, rfl⟩ := himg sp argc rfl
        obtain ⟨rfl, rfl⟩ : mem2 = (execImage bytes (argStrings k.phys argv)).1 ∧
            sz = (execImage bytes (argStrings k.phys argv)).2 := Prod.mk.inj himage
        simp only [setTrapframe, runs_bind, runs_inPhys, runs_setProc, runs_modify, setPage_mem,
          update_self, setPage_setPage]
        have htf : (k.proc p).trapframe ∈ k.frame p := List.mem_cons_self
        obtain ⟨hp1, hm1⟩ := hb.pair.setPage htf (execRegs (s2.mem (k.proc p).trapframe)
          (execSp bytes (argStrings k.phys argv)) (elfHdr bytes).entry)
        refine hp1.symm.free_right.imp ?_
        rintro _ s4 ⟨ho, hm4, hfr4, -⟩
        rw [runs_pure]
        refine ⟨⟨rfl, rfl, rfl, rfl⟩, Or.inr ⟨bytes, rfl, ?_⟩⟩
        have hlen : (argv.length : Int) = (argStrings k.phys argv).length := by
          rw [argStrings, List.length_map]
        rw [hlen]
        apply h.exec_done hp hpt hok hman.ne_zero ho (by rw [hm4, hm1, hb.mem])
        · intro q hq
          have hq' : Kept (k.frame p) (k.mappedBeside [p]) q :=
            hq.mono (List.subset_cons_self _ _) (List.Subset.refl _)
          rw [hfr4 q hq', setPage_mem, update_of_ne (h.kept_ne_trapframe hp hpt hq)]
          exact hb.frame q hq'
        · intro pa hpa hU
          obtain ⟨j, -, hj, rfl⟩ := mem_pagesOf.mp hpa
          have hj' : j < npages (execImage bytes (argStrings k.phys argv)).2 := by simpa using hj
          exact hb.pair.right.write j hj' (hb.writable j hj') (List.mem_append_right _ hU)
        · rw [hfr4 _ (Kept.kernel htf), setPage_mem, update_self]

end Exec

def UserMem.fetchaddr (m : UserMem) (sz addr : Nat) : Option Nat :=
  if sz ≤ addr ∨ sz < (addr+8) % 2^64 then none else
  if (m.copyin addr 8).1 ≠ 0 then none else
  some (leGet 8 (bytesOf (m.copyin addr 8).2) 0)

/-- The argument strings that `sys_exec` finds behind `uargv`. -/
def UserMem.fetchArgs (m : UserMem) (sz uargv : Nat) : Nat → List (List UInt8) → List (List UInt8)
  | 0, args => args
  | i+1, args =>
    match m.fetchaddr sz ((uargv + 8*args.length) % 2^64) with
    | none => args
    | some uarg => if uarg = 0 then args else
        m.fetchArgs sz uargv i (args ++ [(m.copyinstr uarg PGSIZE).2])

omit [Layout] in
theorem pageString_blit {l : List UInt8} (h : IsString l) (hlen : l.length ≤ PGSIZE) (b : Bytes) :
    pageString (blit b 0 l) = l := by
  obtain ⟨t, rfl, ht⟩ := h
  rw [List.length_append, List.length_singleton] at hlen
  unfold pageString
  rw [takeString_of_string ht hlen fun i hi => ?_]
  have hb := blit_at b 0 (t ++ [0]) i (by simp; omega)
  rwa [Nat.zero_add] at hb

section Args
variable {k0 k : Kernel} {p uargv : Nat}

/-- The pages with the argument strings read so far. -/
structure Holding (k0 k : Kernel) (argv : List Nat) : Prop where
  step : KernelStep k0 k
  kernel : k.kstack = k0.kstack ∧ k.pipes = k0.pipes
  held : k.held = argv.reverse ++ k0.held
  nodup : argv.Nodup

theorem Holding.sub {argv : List Nat} (h : Holding k0 k argv) : argv ⊆ k.held := by
  intro a ha
  rw [h.held]
  exact List.mem_append_left _ (List.mem_reverse.mpr ha)

theorem fetchaddr_spec (h : Inv k) (hp : p ∈ procs) (hpt : (k.proc p).pagetable ≠ 0) (addr : Nat) :
    Runs (fetchaddr p addr) k fun r k' => k' = k ∧
      r = (k.umem p).fetchaddr (k.proc p).sz addr := by
  unfold fetchaddr UserMem.fetchaddr
  rw [runs_bind, runs_get]
  by_cases hr : (k.proc p).sz ≤ addr ∨ (k.proc p).sz < (addr+8) % 2^64
  · rw [if_pos hr, if_pos hr, runs_pure]
    exact ⟨rfl, rfl⟩
  rw [if_neg hr, if_neg hr, runs_bind, runs_inPhys]
  refine (copyin_spec (h.own hp hpt) addr 8).imp ?_
  rintro r s ⟨rfl, rfl⟩
  have hm : userMem k.phys (k.map p) (npages (k.proc p).sz) = k.umem p := rfl
  rw [hm]
  by_cases hc : ((k.umem p).copyin addr 8).1 ≠ 0
  · rw [if_pos hc, if_pos hc, runs_pure]
    exact ⟨rfl, rfl⟩
  · rw [if_neg hc, if_neg hc, runs_pure]
    exact ⟨rfl, rfl⟩

theorem fetchstr_spec {pa : Nat} (h : Inv k) (hp : p ∈ procs) (hpt : (k.proc p).pagetable ≠ 0)
    (hpa : pa ∈ k.held) (uarg : Nat) :
    Runs (fetchstr p uarg pa PGSIZE) k fun r k' => KernelStep k k' ∧
      (k'.kstack = k.kstack ∧ k'.pipes = k.pipes) ∧ k'.held = k.held ∧
      (∀ q, q ≠ pa → k'.phys.mem q = k.phys.mem q) ∧
      (¬ r < 0 → pageString (k'.phys.mem pa) = ((k.umem p).copyinstr uarg PGSIZE).2) := by
  unfold fetchstr
  rw [runs_bind, runs_get]
  simp only [runs_bind, runs_inPhys, runs_modify]
  refine (copyinstr_spec (h.own hp hpt) uarg PGSIZE).imp ?_
  rintro r s ⟨rfl, rfl⟩
  have hm : userMem k.phys (k.map p) (npages (k.proc p).sz) = k.umem p := rfl
  rw [hm]
  set l := (k.umem p).copyinstr uarg PGSIZE with hl
  have hstep := h.write_held hpa (blit (k.phys.mem pa) 0 l.2)
  have hother (q : Nat) (hq : q ≠ pa) :
      (k.phys.setPage pa (blit (k.phys.mem pa) 0 l.2)).mem q = k.phys.mem q := by
    rw [setPage_mem, update_of_ne hq]
  rw [runs_ite]
  constructor
  · intro hneg
    exact (runs_pure _).mpr ⟨hstep, ⟨rfl, rfl⟩, rfl, hother, fun hc => absurd hneg hc⟩
  · intro hpos
    refine (runs_pure _).mpr ⟨hstep, ⟨rfl, rfl⟩, rfl, hother, fun _ => ?_⟩
    obtain ⟨hstr, hlen⟩ := copyinstr_string hpos
    rw [setPage_mem, update_self]
    exact pageString_blit hstr hlen _

theorem fetchArgs_spec (hp : p ∈ procs) (hpt : (k0.proc p).pagetable ≠ 0) (i : Nat) :
    ∀ (k : Kernel) (argv : List Nat) (args : List (List UInt8)), Holding k0 k argv →
    argv.map (fun a => pageString (k.phys.mem a)) = args →
    Runs (fetchArgs p uargv i argv) k fun r k' => Holding k0 k' r.2 ∧
      (r.1 = true → r.2.map (fun a => pageString (k'.phys.mem a)) =
        (k0.umem p).fetchArgs (k0.proc p).sz uargv i args) := by
  induction i with
  | zero =>
    intro k argv args h hs
    exact (runs_pure _).mpr ⟨h, fun hc => Bool.noConfusion hc⟩
  | succ i ih =>
    intro k argv args h hs
    have hinv := h.step.inv
    have hpt' : (k.proc p).pagetable ≠ 0 := by
      rw [h.step.proc]
      exact hpt
    have hlen : args.length = argv.length := by rw [← hs, List.length_map]
    unfold fetchArgs UserMem.fetchArgs
    rw [runs_bind, hlen]
    refine (fetchaddr_spec hinv hp hpt' _).imp ?_
    rintro r k1 ⟨rfl, hr⟩
    rw [h.step.mem p hp, h.step.proc] at hr
    rw [← hr]
    cases r with
    | none => exact (runs_pure _).mpr ⟨h, fun hc => Bool.noConfusion hc⟩
    | some uarg =>
      dsimp only
      by_cases hz : uarg = 0
      · rw [if_pos hz, if_pos hz, runs_pure]
        exact ⟨h, fun _ => hs⟩
      rw [if_neg hz, if_neg hz]
      refine (holdPage_spec hinv).bind ?_
      rintro r k2 ⟨hstep2, hker2, hr2⟩
      cases r with
      | none =>
        obtain ⟨rfl, -⟩ := hr2
        exact (runs_pure _).mpr ⟨h, fun hc => Bool.noConfusion hc⟩
      | some pa =>
        obtain ⟨hfree, hheld, hmem2⟩ := hr2
        -- The page is a new one.
        have hnew : pa ∉ argv := fun hin => by
          have hpf : pa ∈ k1.phys.freelist := by rw [hfree]; simp
          have hno := (hinv.ledger.free_not_mem hpf).1
          exact hno (List.mem_append_right _ (List.mem_append_right _ (List.mem_append_right _
            (List.mem_append_right _ (h.sub hin)))))
        have hpt2 : (k2.proc p).pagetable ≠ 0 := by
          rw [hstep2.proc]
          exact hpt'
        refine (fetchstr_spec hstep2.inv hp hpt2 (by rw [hheld]; simp) uarg).bind ?_
        rintro r k3 ⟨hstep3, hker3, hheld3, hmem3, hstr⟩
        have hstep := (h.step.trans hstep2).trans hstep3
        have hhold : Holding k0 k3 (argv ++ [pa]) := by
          refine ⟨hstep, ⟨?_, ?_⟩, ?_, ?_⟩
          · rw [hker3.1, hker2.1, h.kernel.1]
          · rw [hker3.2, hker2.2, h.kernel.2]
          · rw [hheld3, hheld, h.held, List.reverse_append]
            rfl
          · rw [List.nodup_append]
            refine ⟨h.nodup, List.nodup_singleton _, fun a ha b hb => ?_⟩
            rw [List.mem_singleton.mp hb]
            exact fun he => hnew (he ▸ ha)
        rw [runs_ite]
        constructor
        · intro _
          exact (runs_pure _).mpr ⟨hhold, fun hc => Bool.noConfusion hc⟩
        · intro hok
          refine ih k3 _ _ hhold ?_
          have hold : argv.map (fun a => pageString (k3.phys.mem a)) = args := by
            rw [← hs]
            refine List.map_congr_left fun a ha => ?_
            have hne : a ≠ pa := fun he => hnew (he ▸ ha)
            rw [hmem3 a hne, hmem2 a hne]
          rw [List.map_append, hold, List.map_singleton, hstr hok, hstep2.mem p hp, h.step.mem p hp]

theorem freeArgs_spec (argv : List Nat) : ∀ k, Inv k → argv ⊆ k.held → argv.Nodup →
    Runs (freeArgs argv) k fun _ k' => KernelStep k k' ∧ (k'.kstack = k.kstack ∧
      k'.pipes = k.pipes) ∧ k'.held = argv.foldl List.erase k.held := by
  induction argv with
  | nil =>
    intro k h _ _
    exact (runs_pure _).mpr ⟨KernelStep.refl h, ⟨rfl, rfl⟩, rfl⟩
  | cons pa argv ih =>
    intro k h hsub hnd
    obtain ⟨hno, hnd'⟩ := List.nodup_cons.mp hnd
    unfold freeArgs
    refine (dropPage_spec h (hsub List.mem_cons_self)).bind ?_
    rintro _ k1 ⟨hstep, hker, hheld⟩
    have hsub' : argv ⊆ k1.held := by
      intro a ha
      rw [hheld]
      have hne : a ≠ pa := fun he => hno (he ▸ ha)
      exact (List.mem_erase_of_ne hne).mpr (hsub (List.mem_cons_of_mem _ ha))
    refine (ih k1 hstep.inv hsub' hnd').imp ?_
    rintro _ k2 ⟨hstep2, hker2, hheld2⟩
    refine ⟨hstep.trans hstep2, ⟨hker2.1.trans hker.1, hker2.2.trans hker.2⟩, ?_⟩
    rw [hheld2, hheld]
    rfl

omit [Layout] in
theorem foldl_erase_reverse (argv : List Nat) : ∀ (l : List Nat), argv.Nodup →
    argv.foldl List.erase (argv.reverse ++ l) = l := by
  induction argv with
  | nil => exact fun l _ => rfl
  | cons a argv ih =>
    intro l h
    obtain ⟨hno, hnd⟩ := List.nodup_cons.mp h
    have hrev : a ∉ argv.reverse := fun hc => hno (List.mem_reverse.mp hc)
    rw [List.foldl_cons, List.reverse_cons, List.append_assoc, List.erase_append_right _ hrev]
    simp only [List.singleton_append, List.erase_cons_head]
    exact ih l hnd

theorem KernelStep.userPages {k' : Kernel} (h : KernelStep k k') {q : Nat} (hq : q ∈ procs) :
    k'.userPages q = k.userPages q := by
  unfold Kernel.userPages
  rw [h.proc]
  by_cases hpt : (k.proc q).pagetable = 0
  · rw [if_pos hpt, if_pos hpt]
  · rw [if_neg hpt, if_neg hpt, h.map q hq hpt]

theorem KernelStep.trapframe {k' : Kernel} (h : KernelStep k k') (hi : Inv k) (hp : p ∈ procs)
    (hpt : (k.proc p).pagetable ≠ 0) :
    k'.phys.mem (k.proc p).trapframe = k.phys.mem (k.proc p).trapframe := by
  apply (h.own p hp).2
  rw [ownPages_of_ne rfl hpt rfl ((hi.space p hp).trapframe hpt)]
  exact List.mem_append_right _ (List.mem_singleton.mpr rfl)

theorem StepOf.around {k1 k2 k3 : Kernel} {m : UserMem} (h1 : KernelStep k k1)
    (h2 : StepOf k1 k2 p m) (h3 : KernelStep k2 k3) (hp : p ∈ procs) : StepOf k k3 p m where
  inv := h3.inv
  initproc := (h3.initproc.trans h2.initproc).trans h1.initproc
  proc q hq := by rw [h3.proc, h2.proc q hq, h1.proc]
  mem := (h3.mem p hp).trans h2.mem
  others q hq hqp := ((h3.mem q hq).trans (h2.others q hq hqp)).trans (h1.mem q hq)

theorem ExecFailed.around {k1 k2 k3 : Kernel} (h1 : KernelStep k k1) (h2 : ExecFailed k1 k2 p)
    (h3 : KernelStep k2 k3) (hi : Inv k) (hp : p ∈ procs) (hpt : (k.proc p).pagetable ≠ 0)
    (hker : k3.kernelPages = k.kernelPages) : ExecFailed k k3 p := by
  have hpt1 : (k1.proc p).pagetable ≠ 0 := by
    rw [h1.proc]
    exact hpt
  have hpt2 : (k2.proc p).pagetable ≠ 0 := by
    rw [h2.proc]
    exact hpt1
  have htf := h1.trapframe hi hp hpt
  have htf2 := h2.trapframe
  have htf3 := h3.trapframe h2.step.inv hp hpt2
  rw [h2.proc] at htf3
  rw [h1.proc] at htf2 htf3
  have hst := h2.step
  rw [h1.mem p hp] at hst
  refine ⟨by rw [h3.proc, h2.proc, h1.proc], StepOf.around h1 hst h3 hp, fun q hq => ?_,
    fun q hq hqp => ?_, hker, htf3.trans (htf2.trans htf), fun v hv hc => ?_⟩
  · rw [(h3.own q hq).1, h2.own q hq, (h1.own q hq).1]
  · rw [h3.userPages hq, h2.user q hq hqp, h1.userPages hq]
  · rw [← h1.map p hp hpt] at hc
    rw [h3.map p hp hpt2, h2.kept v (by rw [h1.proc]; exact hv) hc, h1.map p hp hpt]

theorem ExecDone.around {k1 k2 k3 : Kernel} {file : List UInt8} {args : List (List UInt8)} {r : Int}
    (h1 : KernelStep k k1) (h2 : ExecDone k1 k2 p file args r) (h3 : KernelStep k2 k3)
    (hp : p ∈ procs) : ExecDone k k3 p file args r := by
  have htf3 := h3.trapframe h2.step.inv hp h2.pagetable
  have heq : (k2.proc p).trapframe = (k1.proc p).trapframe := by
    rw [h2.proc]
  obtain ⟨hok, hargc, hpt, hproc, hst, hsp, ha1, hepc⟩ := h2
  rw [heq, h1.proc] at htf3
  rw [h1.proc] at hproc hsp ha1 hepc
  refine ⟨hok, hargc, ?_, ?_, StepOf.around h1 hst h3 hp, ?_, ?_, ?_⟩
  · rw [h3.proc]
    exact hpt
  · rw [h3.proc]
    exact hproc
  · rw [htf3, hsp]
  · rw [htf3, ha1]
  · rw [htf3, hepc]

/-- The image that `sys_exec` makes of the arguments in user memory. -/
def UserMem.execArgs (m : UserMem) (sz uargv : Nat) : List (List UInt8) :=
  m.fetchArgs sz uargv MAXARG []

theorem sys_exec_spec (h : Inv k) (hp : p ∈ procs) (hpt : (k.proc p).pagetable ≠ 0)
    (namei : List UInt8 → Option (List UInt8)) (path uargv : Nat) :
    Runs (sys_exec namei p path uargv) k fun r k' =>
      (r = -1 ∧ ExecFailed k k' p) ∨
      (∃ bytes, namei ((k.umem p).copyinstr path MAXPATH).2 = some bytes ∧
        ExecDone k k' p bytes ((k.umem p).execArgs (k.proc p).sz uargv) r) := by
  unfold sys_exec
  rw [runs_bind, runs_get]
  simp only [runs_bind, runs_inPhys]
  refine (copyinstr_spec (h.own hp hpt) path MAXPATH).imp ?_
  rintro r s ⟨rfl, rfl⟩
  have hm : userMem k.phys (k.map p) (npages (k.proc p).sz) = k.umem p := rfl
  have hk : ({ k with phys := k.phys } : Kernel) = k := rfl
  rw [hm, hk, runs_ite]
  constructor
  · intro _
    exact (runs_pure _).mpr (Or.inl ⟨rfl, ExecFailed.refl h⟩)
  intro _
  rw [runs_bind]
  have hstart : Holding k k [] := ⟨KernelStep.refl h, ⟨rfl, rfl⟩, rfl, List.nodup_nil⟩
  refine (fetchArgs_spec hp hpt MAXARG k [] [] hstart rfl).imp ?_
  rintro ⟨ok, argv⟩ k1 ⟨hhold, hargs⟩
  dsimp only at hhold hargs ⊢
  have hpt1 : (k1.proc p).pagetable ≠ 0 := by
    rw [hhold.step.proc]
    exact hpt
  -- The pages of the strings are given back on every way out.
  have hpages {k2 k3 : Kernel} (hker : SameKernel k1 k2)
      (htab : tables k2.phys.mem 2 k1.kernel_pagetable = tables k1.phys.mem 2 k1.kernel_pagetable)
      (h3 : KernelStep k2 k3) (hker3 : k3.kstack = k2.kstack ∧ k3.pipes = k2.pipes)
      (hheld : k3.held = argv.foldl List.erase k2.held) : k3.kernelPages = k.kernelPages := by
    have ht3 := h3.table
    have ht1 := hhold.step.table
    unfold Kernel.kernelPages
    rw [hker.kernel_pagetable] at ht3
    rw [ht1.1] at ht3 htab
    rw [ht3.1, ht3.2, htab, ht1.2, hker3.1, hker3.2, hheld, hker.kstack, hker.pipes, hker.held,
      hhold.kernel.1, hhold.kernel.2, hhold.held, foldl_erase_reverse argv _ hhold.nodup]
  rw [runs_ite]
  constructor
  · intro _
    refine (freeArgs_spec argv k1 hhold.step.inv hhold.sub hhold.nodup).bind ?_
    rintro _ k2 ⟨h2, hker2, hheld2⟩
    refine (runs_pure _).mpr (Or.inl ⟨rfl, ?_⟩)
    exact ExecFailed.around hhold.step (ExecFailed.refl hhold.step.inv) h2 h hp hpt
      (hpages ⟨rfl, rfl, rfl, rfl⟩ rfl h2 hker2 hheld2)
  · intro hok
    have hargs' : argStrings k1.phys argv = _ := hargs (by simpa using hok)
    refine (exec_spec hhold.step.inv hp hpt1 _ fun a ha => held_beside (hhold.sub ha)).bind ?_
    rintro r k2 ⟨hker, hr⟩
    have hinv2 : Inv k2 := by
      rcases hr with ⟨-, hf, -⟩ | ⟨_, -, hd⟩
      · exact hf.step.inv
      · exact hd.step.inv
    refine (freeArgs_spec argv k2 hinv2 (by rw [hker.held]; exact hhold.sub) hhold.nodup).bind ?_
    rintro _ k3 ⟨h3, hker3, hheld3⟩
    rw [runs_pure]
    rw [hargs'] at hr
    rcases hr with ⟨rfl, hf, -⟩ | ⟨bytes, hfile, hd⟩
    · have htab : tables k2.phys.mem 2 k1.kernel_pagetable =
          tables k1.phys.mem 2 k1.kernel_pagetable := by
        have hkp := hf.kernel
        unfold Kernel.kernelPages at hkp
        rw [hker.kernel_pagetable, hker.kstack, hker.pipes, hker.held] at hkp
        exact List.append_cancel_right hkp
      exact Or.inl ⟨rfl, hf.around hhold.step h3 h hp hpt (hpages hker htab h3 hker3 hheld3)⟩
    · exact Or.inr ⟨bytes, hfile, hd.around hhold.step h3 hp⟩

end Args

end Xv6
