import Xv6.ProcSpace

/-! `fork`: parent and child share every page, and see the same memory. -/
namespace Xv6

open Function
variable [Layout]

section Two
variable {k : Kernel} {p q : Nat}

def Kernel.frameTwo (k : Kernel) (p q : Nat) : List Nat :=
  (k.proc p).trapframe :: (k.proc q).trapframe :: k.ownedBeside [p, q]

omit [Layout] in
theorem flatMap_two (g : Nat → List Nat) : [p, q].flatMap g = g p ++ g q := by simp

omit [Layout] in
theorem perm_tables (A B : List Nat) (a b : Nat) (C : List Nat) :
    ((A ++ [a]) ++ (B ++ [b]) ++ C).Perm (A ++ (B ++ (a :: b :: C))) := by
  have h1 : ((A ++ [a]) ++ (B ++ [b]) ++ C) = A ++ (a :: (B ++ (b :: C))) := by simp
  rw [h1]
  exact List.perm_middle.symm.append_left A

theorem Inv.two (h : Inv k) (hp : p ∈ procs) (hq : q ∈ procs) (hne : p ≠ q)
    (hpt : (k.proc p).pagetable ≠ 0) (hqt : (k.proc q).pagetable ≠ 0) :
    Two k.phys (k.proc p).pagetable (k.proc q).pagetable (k.map p) (k.map q) (k.frameTwo p q)
      k.mapped := by
  have hps : ∀ r ∈ [p, q], r ∈ procs := by simp [hp, hq]
  have hn : [p, q].Nodup := by simp [hne]
  have ho := k.owned_perm hn hps
  rw [flatMap_two, ownPages_of_ne rfl hpt rfl ((h.space p hp).trapframe hpt),
    ownPages_of_ne rfl hqt rfl ((h.space q hq).trapframe hqt)] at ho
  have hl := h.ledger.perm (ho.trans (perm_tables _ _ _ _ _)) (List.Perm.refl _)
  exact Two.of_left ⟨hl, (h.space p hp).linked hpt, fun _ _ => rfl⟩ ((h.space q hq).linked hqt)
    fun _ _ => rfl

theorem Two.setPage {s : Phys} {old new pa : Nat} {f g : Nat → Pte} {F U : List Nat}
    (h : Two s old new f g F U) (hp : pa ∈ F) (b : Bytes) : Two (s.setPage pa b) old new f g F U :=
  h.change_left (h.left.setPage (Or.inl (List.mem_append_right _ hp)) b) fun q hq => by
    rw [setPage_mem, update_of_ne]
    rintro rfl
    exact (h.right.table_not_frame hq).1 (List.mem_append_right _ hp)

theorem Two.kept_ne {s : Phys} {old new pa r : Nat} {f g : Nat → Pte} {T F U : List Nat}
    (h : Two s old new f g (T ++ F) U) (hp : pa ∈ T) (hr : Kept F U r) : r ≠ pa := by
  have hl : Ledger s ((tables s.mem 2 old ++ (tables s.mem 2 new ++ T)) ++ F) U := by
    have := h.left.ledger
    rwa [← List.append_assoc, ← List.append_assoc, List.append_assoc (tables s.mem 2 old)] at this
  exact hl.kept_ne (List.mem_append_right _ (List.mem_append_right _ hp)) hr

theorem Inv.of_two {f g : Nat → Pte} (h : Inv k) (k' : Kernel) (hp : p ∈ procs) (hq : q ∈ procs)
    (hne : p ≠ q) (hpt : (k.proc p).pagetable ≠ 0) (hqt : (k.proc q).pagetable ≠ 0)
    (hproc : ∀ r, r ≠ p → r ≠ q → k'.proc r = k.proc r) (hker : SameKernel k k')
    (hpp : (k'.proc p).pagetable = (k.proc p).pagetable ∧
      (k'.proc p).trapframe = (k.proc p).trapframe)
    (hqq : (k'.proc q).pagetable = (k.proc q).pagetable ∧
      (k'.proc q).trapframe = (k.proc q).trapframe)
    (htwo : Two k'.phys (k.proc p).pagetable (k.proc q).pagetable f g (k.frameTwo p q)
      (pagesOf f 0 (npages (k'.proc p).sz) ++ (pagesOf g 0 (npages (k'.proc q).sz) ++
        k.mappedBeside [p, q])))
    (hf : UserMap f (npages (k'.proc p).sz) (k.proc p).trapframe)
    (hg : UserMap g (npages (k'.proc q).sz) (k.proc q).trapframe)
    (hfn : (pagesOf f 0 (npages (k'.proc p).sz)).Nodup)
    (hgn : (pagesOf g 0 (npages (k'.proc q).sz)).Nodup)
    (hfw : ∀ v < npages (k'.proc p).sz, (f v).has PTE_W = true →
      PTE2PA (f v) ∉ pagesOf g 0 (npages (k'.proc q).sz) ++ k.mappedBeside [p, q])
    (hgw : ∀ v < npages (k'.proc q).sz, (g v).has PTE_W = false)
    (hpages : ∀ pa, pa ∈ pagesOf f 0 (npages (k'.proc p).sz) ∨
      pa ∈ pagesOf g 0 (npages (k'.proc q).sz) → pa ∈ k.userPages p)
    (hfr : ∀ r, Kept (k.ownedBeside [p, q]) k.mapped r → k'.phys.mem r = k.phys.mem r) :
    Inv k' ∧ k'.umem p = userMem k'.phys f (npages (k'.proc p).sz) ∧
      k'.umem q = userMem k'.phys g (npages (k'.proc q).sz) ∧
      ∀ r ∈ procs, r ≠ p → r ≠ q → k'.umem r = k.umem r := by
  have hn : [p, q].Nodup := by simp [hne]
  have hps : ∀ r ∈ [p, q], r ∈ procs := by simp [hp, hq]
  have htp := (h.space p hp).trapframe hpt
  have htq := (h.space q hq).trapframe hqt
  have hT : TFPAGE ≤ 2*VPAGES := by decide
  have hfs := hf.size
  have hgs := hg.size
  have hmapp (v : Nat) (hv : v < 2*VPAGES) : k'.map p v = f v := by
    unfold Kernel.map
    rw [hpp.1]
    exact htwo.left.pte v hv
  have hmapq (v : Nat) (hv : v < 2*VPAGES) : k'.map q v = g v := by
    unfold Kernel.map
    rw [hqq.1]
    exact htwo.right.pte v hv
  have hup : k'.userPages p = pagesOf f 0 (npages (k'.proc p).sz) := by
    rw [userPages_of_ne (by rw [hpp.1]; exact hpt)]
    exact pagesOf_congr fun v _ hv => hmapp v (by omega)
  have huq : k'.userPages q = pagesOf g 0 (npages (k'.proc q).sz) := by
    rw [userPages_of_ne (by rw [hqq.1]; exact hqt)]
    exact pagesOf_congr fun v _ hv => hmapq v (by omega)
  have hsame : SameBeside k k' [p, q] := by
    refine ⟨fun r hr => ?_, hker.kernel_pagetable,
      fun r hr => hfr r (Kept.kernel (mem_ownedBeside hr))⟩
    simp only [List.mem_cons, List.not_mem_nil, or_false, not_or] at hr
    exact hproc r hr.1 hr.2
  have hmapped := k'.mapped_perm hn hps
  rw [flatMap_two, hup, huq, hsame.mappedBeside, List.append_assoc] at hmapped
  refine ⟨?_, ?_, ?_, ?_⟩
  · apply h.updated hn hps hsame
    · rw [flatMap_two, flatMap_two, hup, huq, hker.besidePages, List.append_assoc (pagesOf f _ _),
        ownPages_of_ne hpp.1 hpt hpp.2 htp, ownPages_of_ne hqq.1 hqt hqq.2 htq]
      exact htwo.left.ledger.perm (perm_tables _ _ _ _ _).symm (List.Perm.refl _)
    · intro r hr
      rcases List.mem_cons.mp hr with rfl | hr
      · refine ⟨fun _ => by rw [hpp.1]; exact htwo.left.linked, fun _ => ?_, by rw [hup]; exact hfn,
          fun hc => absurd (hpp.1.symm.trans hc) hpt, fun _ => by rw [hpp.2]; exact htp⟩
        rw [hpp.2]
        exact hf.congr hmapp
      · obtain rfl := List.mem_singleton.mp hr
        refine ⟨fun _ => by rw [hqq.1]; exact htwo.right.linked, fun _ => ?_, by rw [huq]; exact hgn,
          fun hc => absurd (hqq.1.symm.trans hc) hqt, fun _ => by rw [hqq.2]; exact htq⟩
        rw [hqq.2]
        exact hg.congr hmapq
    · intro r hr
      rcases List.mem_cons.mp hr with rfl | hr
      · intro _ v hv hw
        rw [hmapp v (by omega)] at hw ⊢
        rw [hmapped.count_eq, List.count_append, List.count_eq_zero_of_not_mem (hfw v hv hw)]
        exact List.nodup_iff_count_le_one.mp hfn _
      · obtain rfl := List.mem_singleton.mp hr
        intro _ v hv hw
        rw [hmapq v (by omega), hgw v hv] at hw
        exact absurd hw (by decide)
    · intro pa hpa _
      rw [flatMap_two, hup, huq, List.mem_append] at hpa
      rw [flatMap_two]
      exact List.mem_append_left _ (hpages pa hpa)
  · exact userMem_map fun v hv => hmapp v (by omega)
  · exact userMem_map fun v hv => hmapq v (by omega)
  · intro r hr hrp hrq
    apply hsame.umem h (mem_otherProcs.mpr ⟨hr, by simp [hrp, hrq]⟩)
    intro pa hpa
    apply hfr pa (Kept.user _)
    exact (k.mapped_perm hn hps).mem_iff.mpr (List.mem_append_right _ hpa)

end Two

section Words
variable {f g : Nat → Pte} {n j : Nat}

section
omit [Layout]

theorem cowWord_flags (w : Pte) : (cowWord w).has PTE_W = false ∧
    (cowWord w).has PTE_U = w.has PTE_U := by
  rw [has_W, has_U, has_U, cowWord_bit 2 (by decide), cowWord_bit 4 (by decide)]
  simp

theorem shareWord_flags (pa : Nat) {w : Pte} (hv : w.has PTE_V = true) :
    (mapWord pa (PTE_FLAGS w)).has PTE_W = w.has PTE_W ∧
      (mapWord pa (PTE_FLAGS w)).has PTE_U = w.has PTE_U := by
  rw [has_W, has_W, has_U, has_U, mapWord_flags_bit pa hv 2 (by decide),
    mapWord_flags_bit pa hv 4 (by decide)]
  exact ⟨rfl, rfl⟩

theorem cowUpto_pa (k : Nat) : PTE2PA (cowUpto f j k) = PTE2PA (f k) := by
  unfold cowUpto
  split_ifs
  · exact cowWord_pa
  · rfl

theorem pagesOf_cowUpto : pagesOf (cowUpto f j) 0 n = pagesOf f 0 n := by
  unfold pagesOf
  exact List.map_congr_left fun k _ => cowUpto_pa k

end

theorem copyUpto_pa (hm : ∀ k < n, Managed (PTE2PA (f k))) {k : Nat} (hk : k < n) :
    PTE2PA (copyUpto f g n k) = PTE2PA (f k) := by
  unfold copyUpto
  rw [if_pos hk]
  exact managed_copy_word (hm k hk) _

theorem pagesOf_copyUpto (hm : ∀ k < n, Managed (PTE2PA (f k))) :
    pagesOf (copyUpto f g n) 0 n = pagesOf f 0 n := by
  unfold pagesOf
  apply List.map_congr_left
  intro k hk
  have := List.mem_range'_1.mp hk
  exact copyUpto_pa hm (by omega)

theorem UserMap.cowUpto {tf : Nat} (h : UserMap f n tf) (hj : j ≤ n) :
    UserMap (cowUpto f j) n tf := by
  have hs := h.size
  apply h.resize hs
  · intro k hk
    unfold Xv6.cowUpto
    split_ifs
    · exact userPte_cow (h.user k hk)
    · exact h.user k hk
  · intro k h1 h2
    unfold Xv6.cowUpto
    rw [if_neg (by omega)]
    exact h.gap k h1 h2
  · intro k hk
    unfold Xv6.cowUpto
    rw [if_neg (by omega)]

theorem UserMap.copyUpto {tf tf' : Nat} (h : UserMap f n tf) (hg : UserMap g 0 tf') :
    UserMap (copyUpto f g n) n tf' := by
  have hs := h.size
  apply hg.resize hs
  · intro k hk
    unfold Xv6.copyUpto
    rw [if_pos hk]
    exact userPte_copy (userPte_cow (h.user k hk))
  · intro k h1 h2
    unfold Xv6.copyUpto
    rw [if_neg (by omega)]
    exact hg.gap k (by omega) h2
  · intro k hk
    unfold Xv6.copyUpto
    rw [if_neg (by omega)]

omit [Layout] in
theorem userMem_cowUpto {s s' : Phys} (hc : ∀ k < n, s'.mem (PTE2PA (f k)) = s.mem (PTE2PA (f k))) :
    userMem s' (cowUpto f j) n = userMem s f n := by
  ext k
  · simp only [userMem, cowUpto]
    split_ifs
    · rw [(cowWord_flags (f k)).2]
    · rfl
  · simp only [userMem, cowUpto_pa]
    by_cases hk : k < n
    · rw [if_pos hk, if_pos hk, hc k hk]
    · rw [if_neg hk, if_neg hk]

theorem userMem_copyUpto {s s' : Phys} (hu : ∀ k < n, UserPte (f k))
    (hm : ∀ k < n, Managed (PTE2PA (f k)))
    (hc : ∀ k < n, s'.mem (PTE2PA (f k)) = s.mem (PTE2PA (f k))) :
    userMem s' (copyUpto f g n) n = userMem s f n := by
  ext k
  · simp only [userMem]
    by_cases hk : k < n
    · unfold copyUpto
      rw [if_pos hk, (shareWord_flags _ (userPte_cow (hu k hk)).v).2, (cowWord_flags (f k)).2]
    · rw [decide_eq_false hk, Bool.false_and, Bool.false_and]
  · simp only [userMem]
    by_cases hk : k < n
    · rw [if_pos hk, if_pos hk, copyUpto_pa hm hk, hc k hk]
    · rw [if_neg hk, if_neg hk]

end Words

section Fork
variable {k : Kernel} {p : Nat}

omit [Layout] in
theorem copyTrapframe_spec (s : Phys) (src dst : Nat) :
    Runs (copyTrapframe src dst) s fun _ s' => ∃ b, s' = s.setPage dst b := by
  unfold copyTrapframe
  simp only [runs_bind, runs_modify]
  exact ⟨_, by simp only [Phys.setPage, update_idem]; rfl⟩

/-- What a successful `fork` of `p` leaves behind. -/
structure Forked (k k' : Kernel) (p np : Nat) : Prop where
  mem : np ∈ procs
  idle : Idle (k.proc np)
  first : procs.find? (fun q => (k.proc q).state = .UNUSED) = some np
  proc : ∀ q, q ≠ np → k'.proc q = k.proc q
  pagetable : (k'.proc np).pagetable ≠ 0
  state : (k'.proc np).state = .RUNNABLE
  parent : (k'.proc np).parent = some p
  sz : (k'.proc np).sz = (k.proc p).sz
  killed : (k'.proc np).killed = (k.proc np).killed
  child : k'.umem np = k.umem p
  shared : ∀ v < npages (k.proc p).sz, PTE2PA (k'.map np v) = PTE2PA (k'.map p v)
  others : ∀ q ∈ procs, q ≠ np → k'.umem q = k.umem q

/-- A step that no process can notice. -/
structure Unnoticed (k k' : Kernel) : Prop where
  proc : ∀ q, k'.proc q = k.proc q ∨ Idle (k.proc q) ∧ Idle (k'.proc q)
  mem : ∀ q ∈ procs, k'.umem q = k.umem q

/-- A step that gives back what it took: every process and the kernel have the pages they
had, and entries at most got the mark of copy-on-write. -/
structure Undone (k k' : Kernel) : Prop extends Unnoticed k k' where
  own : ∀ q ∈ procs, k'.ownPages q = k.ownPages q
  user : ∀ q ∈ procs, k'.userPages q = k.userPages q
  kernel : k'.kernelPages = k.kernelPages
  marks : ∀ q ∈ procs, (k.proc q).pagetable ≠ 0 → ∀ v < 2*VPAGES,
    k'.map q v = k.map q v ∨ k'.map q v = cowWord (k.map q v)

section Undone
omit [Layout]
variable {k' : Kernel} {q : Nat}

theorem Idle.pages (h : Idle (k.proc q)) : k.ownPages q = [] ∧ k.userPages q = [] := by
  unfold Kernel.ownPages Kernel.userPages
  rw [if_pos h.pagetable, if_pos h.trapframe, if_pos h.pagetable]
  exact ⟨rfl, rfl⟩

theorem slot_congr (k k' : Kernel) (hproc : k'.proc q = k.proc q)
    (hfr : ∀ t ∈ k.ownPages q, k'.phys.mem t = k.phys.mem t) :
    k'.ownPages q = k.ownPages q ∧ k'.userPages q = k.userPages q ∧
      ((k.proc q).pagetable ≠ 0 → k'.map q = k.map q) := by
  unfold Kernel.ownPages Kernel.userPages
  rw [hproc]
  by_cases hp : (k.proc q).pagetable = 0
  · rw [if_pos hp, if_pos hp, if_pos hp, if_pos hp]
    exact ⟨rfl, rfl, fun hc => absurd hp hc⟩
  · have htab : ∀ t ∈ tables k.phys.mem 2 (k.proc q).pagetable, k'.phys.mem t = k.phys.mem t := by
      intro t ht
      apply hfr
      unfold Kernel.ownPages
      rw [if_neg hp]
      exact List.mem_append_left _ ht
    have hmap : k'.map q = k.map q := by
      funext v
      unfold Kernel.map
      rw [hproc]
      exact pteAt_congr htab _
    rw [if_neg hp, if_neg hp, if_neg hp, if_neg hp, tables_congr htab, hmap]
    exact ⟨rfl, rfl, fun _ => rfl⟩

theorem kernelPages_congr (hker : SameKernel k k')
    (hfr : ∀ t ∈ tables k.phys.mem 2 k.kernel_pagetable, k'.phys.mem t = k.phys.mem t) :
    k'.kernelPages = k.kernelPages := by
  unfold Kernel.kernelPages
  rw [hker.kernel_pagetable, tables_congr hfr, hker.kstack, hker.pipes, hker.held]

end Undone

/-- No page with an owner was touched, and the slots that changed are idle. -/
theorem Unnoticed.undone {k' : Kernel} (h : Unnoticed k k') (hker : SameKernel k k')
    (hfr : Frame k.phys k'.phys k.owned k.mapped) : Undone k k' := by
  have hslot (q : Nat) (hq : q ∈ procs) : k'.ownPages q = k.ownPages q ∧
      k'.userPages q = k.userPages q ∧ ((k.proc q).pagetable ≠ 0 → k'.map q = k.map q) := by
    rcases h.proc q with he | ⟨h1, h2⟩
    · refine slot_congr k k' he fun t ht => hfr t (Kept.kernel ?_)
      exact List.mem_append_left _ (List.mem_flatMap.mpr ⟨q, hq, ht⟩)
    · rw [h1.pages.1, h1.pages.2, h2.pages.1, h2.pages.2]
      exact ⟨rfl, rfl, fun hc => absurd h1.pagetable hc⟩
  exact {
    toUnnoticed := h
    own := fun q hq => (hslot q hq).1
    user := fun q hq => (hslot q hq).2.1
    kernel := kernelPages_congr hker fun t ht => hfr t (Kept.kernel
      (List.mem_append_right _ (List.mem_append_left _ ht)))
    marks := fun q hq hpt v _ => Or.inl (congrFun ((hslot q hq).2.2 hpt) v) }

/-- Parent and child between `allocproc` and the end of `fork`: the child is empty. -/
structure Forking (k : Kernel) (p np : Nat) : Prop where
  inv : Inv k
  parent : p ∈ procs
  child : np ∈ procs
  ne : p ≠ np
  ppt : (k.proc p).pagetable ≠ 0
  cpt : (k.proc np).pagetable ≠ 0
  sz : (k.proc np).sz = 0

section Forking
variable {np : Nat}

theorem Forking.page_mapped (h : Forking k p np) (v : Nat) (hv : v < npages (k.proc p).sz) :
    PTE2PA (k.map p v) ∈ k.mapped := by
  refine List.mem_flatMap.mpr ⟨p, h.parent, ?_⟩
  rw [userPages_of_ne h.ppt]
  exact (h.inv.own h.parent h.ppt).page_mem hv

theorem Forking.empty (h : Forking k p np) :
    UserMap (k.map np) 0 (k.proc np).trapframe ∧ k.userPages np = [] := by
  have h0 : npages 0 = 0 := by decide
  have hmap := (h.inv.space np h.child).map h.cpt
  rw [userPages_of_ne h.cpt, h.sz, h0]
  rw [h.sz, h0] at hmap
  exact ⟨hmap, rfl⟩

theorem Forking.mapped_perm (h : Forking k p np) : k.mapped.Perm
    (pagesOf (k.map p) 0 (npages (k.proc p).sz) ++ k.mappedBeside [p, np]) := by
  have hnodup : [p, np].Nodup := by simp [h.ne]
  have hm := k.mapped_perm hnodup (by simp [h.parent, h.child])
  rwa [flatMap_two, h.empty.2, List.append_nil, userPages_of_ne h.ppt] at hm

theorem Forking.uvmcopy (h : Forking k p np) :
    Runs (uvmcopy (k.proc p).pagetable (k.proc np).pagetable (k.proc p).sz) k.phys fun r s =>
      (r = 0 ∧ Copied k.phys (k.proc p).pagetable (k.proc np).pagetable (k.map p) (k.map np)
        (k.frameTwo p np) k.mapped (npages (k.proc p).sz) s) ∨
      (r = -1 ∧ (∃ j ≤ npages (k.proc p).sz, Two s (k.proc p).pagetable (k.proc np).pagetable
          (cowUpto (k.map p) j) (k.map np) (k.frameTwo p np) k.mapped) ∧
        tables s.mem 2 (k.proc p).pagetable = tables k.phys.mem 2 (k.proc p).pagetable ∧
        Frame k.phys s (k.frameTwo p np) k.mapped ∧
        k.phys.freelist.length ≤ 2*npages (k.proc p).sz) := by
  have hmapp := (h.inv.own h.parent h.ppt).map
  have hsize := hmapp.size
  exact uvmcopy_spec (h.inv.two h.parent h.child h.ne h.ppt h.cpt) hsize hmapp.user h.page_mapped
    fun v hv => h.empty.1.gap v (Nat.zero_le _) (by omega)

/-- The child has all pages of the parent: `k'` is `k` with the child's size and its
trapframe filled in. -/
theorem Forking.shared {s : Phys} {b : Bytes} {k' : Kernel} (h : Forking k p np)
    (hcop : Copied k.phys (k.proc p).pagetable (k.proc np).pagetable (k.map p) (k.map np)
      (k.frameTwo p np) k.mapped (npages (k.proc p).sz) s)
    (hphys : k'.phys = s.setPage (k.proc np).trapframe b) (hker : SameKernel k k')
    (hproc : ∀ q, q ≠ np → k'.proc q = k.proc q)
    (hnp : (k'.proc np).pagetable = (k.proc np).pagetable ∧
      (k'.proc np).trapframe = (k.proc np).trapframe ∧ (k'.proc np).sz = (k.proc p).sz) :
    Inv k' ∧ k'.umem np = k.umem p ∧ (∀ q ∈ procs, q ≠ np → k'.umem q = k.umem q) ∧
      ∀ v < npages (k.proc p).sz, PTE2PA (k'.map np v) = PTE2PA (k'.map p v) := by
  have hown := h.inv.own h.parent h.ppt
  have hmapp := hown.map
  have hman (v : Nat) (hv : v < npages (k.proc p).sz) : Managed (PTE2PA (k.map p v)) :=
    hown.page_managed hv
  have hpp := hproc p h.ne
  set n := npages (k.proc p).sz with hn
  have htwo := h.inv.two h.parent h.child h.ne h.ppt h.cpt
  have htn : (k.proc np).trapframe ∈ k.frameTwo p np := by simp [Kernel.frameTwo]
  have hfr : ∀ r, Kept (k.ownedBeside [p, np]) k.mapped r → k'.phys.mem r = k.phys.mem r := by
    intro r hr
    rw [hphys, setPage_mem,
      update_of_ne (htwo.kept_ne (T := [(k.proc p).trapframe, _]) (by simp) hr)]
    exact hcop.frame r (hr.mono (fun x hx => by simp [Kernel.frameTwo, hx]) (List.Subset.refl _))
  have hcont (v : Nat) (hv : v < n) :
      k'.phys.mem (PTE2PA (k.map p v)) = k.phys.mem (PTE2PA (k.map p v)) :=
    hfr _ (Kept.user (h.page_mapped v hv))
  have hu' : (pagesOf (k.map p) 0 n ++ k.mapped).Perm
      (pagesOf (cowUpto (k.map p) n) 0 n ++ (pagesOf (copyUpto (k.map p) (k.map np) n) 0 n ++
        k.mappedBeside [p, np])) := by
    rw [pagesOf_cowUpto, pagesOf_copyUpto hman]
    exact h.mapped_perm.append_left _
  have ht : Two k'.phys (k.proc p).pagetable (k.proc np).pagetable (cowUpto (k.map p) n)
      (copyUpto (k.map p) (k.map np) n) (k.frameTwo p np) (pagesOf (k.map p) 0 n ++ k.mapped) := by
    rw [hphys]
    exact hcop.two.setPage htn b
  obtain ⟨hi, hup, hun, huo⟩ := h.inv.of_two k' h.parent h.child h.ne h.ppt h.cpt
    (f := cowUpto (k.map p) n) (g := copyUpto (k.map p) (k.map np) n)
    (fun r _ hq => hproc r hq) hker (by rw [hpp]; exact ⟨rfl, rfl⟩) ⟨hnp.1, hnp.2.1⟩
    (by rw [hpp, hnp.2.2]; exact ht.perm_user hu')
    (by rw [hpp]; exact hmapp.cowUpto le_rfl) (by rw [hnp.2.2]; exact hmapp.copyUpto h.empty.1)
    (by rw [hpp, pagesOf_cowUpto]; exact hown.nodup)
    (by rw [hnp.2.2, pagesOf_copyUpto hman]; exact hown.nodup)
    (by
      intro v hv hw
      rw [hpp] at hv
      simp only [cowUpto] at hw
      rw [if_pos hv, (cowWord_flags _).1] at hw
      exact absurd hw (by decide))
    (by
      intro v hv
      rw [hnp.2.2] at hv
      simp only [copyUpto]
      rw [if_pos hv, (shareWord_flags _ (userPte_cow (hmapp.user v hv)).v).1,
        (cowWord_flags _).1])
    (by
      rw [hpp, hnp.2.2, pagesOf_cowUpto, pagesOf_copyUpto hman, userPages_of_ne h.ppt]
      exact fun pa hpa => hpa.elim id id)
    hfr
  rw [hpp] at hup
  rw [hnp.2.2] at hun
  refine ⟨hi, hun.trans (userMem_copyUpto hmapp.user hman hcont), ?_, ?_⟩
  · intro q hq hqn
    by_cases hqp : q = p
    · rw [hqp]
      exact hup.trans (userMem_cowUpto hcont)
    · exact huo q hq hqp hqn
  · intro v hv
    have hT : TFPAGE ≤ 2*VPAGES := by decide
    have hsize := hmapp.size
    have hl : k'.map p v = cowUpto (k.map p) n v := by
      unfold Kernel.map
      rw [hpp]
      exact ht.left.pte v (by omega)
    have hr : k'.map np v = copyUpto (k.map p) (k.map np) n v := by
      unfold Kernel.map
      rw [hnp.1]
      exact ht.right.pte v (by omega)
    rw [hl, hr, cowUpto_pa, copyUpto_pa hman hv]

theorem Forking.failed {s : Phys} {j : Nat} (h : Forking k p np) (hj : j ≤ npages (k.proc p).sz)
    (hback : Two s (k.proc p).pagetable (k.proc np).pagetable (cowUpto (k.map p) j) (k.map np)
      (k.frameTwo p np) k.mapped)
    (hfr : Frame k.phys s (k.frameTwo p np) k.mapped) :
    Inv { k with phys := s } ∧
      ∀ q ∈ procs, q ≠ np → Kernel.umem { k with phys := s } q = k.umem q := by
  have hown := h.inv.own h.parent h.ppt
  have h0 : npages 0 = 0 := by decide
  have hsub : k.mappedBeside [p, np] ⊆ k.mappedBeside [p] := by
    intro pa hpa
    obtain ⟨q, hq, hpa⟩ := List.mem_flatMap.mp hpa
    have hq' := mem_otherProcs.mp hq
    exact List.mem_flatMap.mpr ⟨q, mem_otherProcs.mpr ⟨hq'.1, fun hc => hq'.2 (by
      rw [List.mem_singleton.mp hc]; simp)⟩, hpa⟩
  have hfr2 : ∀ r, Kept (k.ownedBeside [p, np]) k.mapped r → s.mem r = k.phys.mem r :=
    fun r hr => hfr r (hr.mono (fun x hx => by simp [Kernel.frameTwo, hx]) (List.Subset.refl _))
  have hu' : k.mapped.Perm (pagesOf (cowUpto (k.map p) j) 0 (npages (k.proc p).sz) ++
      (pagesOf (k.map np) 0 (npages (k.proc np).sz) ++ k.mappedBeside [p, np])) := by
    rw [pagesOf_cowUpto, h.sz, h0]
    simpa [pagesOf] using h.mapped_perm
  obtain ⟨hi, hup, -, huo⟩ := h.inv.of_two { k with phys := s } h.parent h.child h.ne h.ppt h.cpt
    (f := cowUpto (k.map p) j) (g := k.map np) (fun _ _ _ => rfl) ⟨rfl, rfl, rfl, rfl⟩
    ⟨rfl, rfl⟩ ⟨rfl, rfl⟩ (hback.perm_user hu') (hown.map.cowUpto hj)
    (by
      dsimp only
      rw [h.sz, h0]
      exact h.empty.1)
    (by rw [pagesOf_cowUpto]; exact hown.nodup)
    (by
      dsimp only
      rw [h.sz, h0]
      exact List.nodup_nil)
    (by
      intro v hv hw
      dsimp only at hv ⊢
      rw [h.sz, h0, cowUpto_pa]
      simp only [cowUpto] at hw
      split_ifs at hw with hvj
      · rw [(cowWord_flags _).1] at hw
        exact absurd hw (by decide)
      · simpa [pagesOf] using fun hin => hown.write v hv hw (hsub hin))
    (by
      intro v hv
      dsimp only at hv
      rw [h.sz, h0] at hv
      omega)
    (by
      dsimp only
      rw [h.sz, h0, pagesOf_cowUpto, userPages_of_ne h.ppt]
      rintro pa (hpa | hpa)
      · exact hpa
      · simp [pagesOf] at hpa)
    hfr2
  refine ⟨hi, fun q hq hqn => ?_⟩
  by_cases hqp : q = p
  · rw [hqp]
    exact hup.trans (userMem_cowUpto fun v hv => hfr2 _ (Kept.user (h.page_mapped v hv)))
  · exact huo q hq hqp hqn

theorem Forking.failed_pages {s : Phys} {j : Nat} (h : Forking k p np)
    (hback : Two s (k.proc p).pagetable (k.proc np).pagetable (cowUpto (k.map p) j) (k.map np)
      (k.frameTwo p np) k.mapped)
    (htab : tables s.mem 2 (k.proc p).pagetable = tables k.phys.mem 2 (k.proc p).pagetable)
    (hfr : Frame k.phys s (k.frameTwo p np) k.mapped) {q : Nat} (hq : q ∈ procs) (hqn : q ≠ np) :
    Kernel.ownPages { k with phys := s } q = k.ownPages q ∧
      Kernel.userPages { k with phys := s } q = k.userPages q ∧
      ((k.proc q).pagetable ≠ 0 → ∀ v < 2*VPAGES,
        Kernel.map { k with phys := s } q v = k.map q v ∨
        Kernel.map { k with phys := s } q v = cowWord (k.map q v)) := by
  by_cases hqp : q = p
  · subst hqp
    have hsize := (h.inv.own h.parent h.ppt).map.size
    have hT : TFPAGE ≤ 2*VPAGES := by decide
    have hmap (v : Nat) (hv : v < 2*VPAGES) :
        Kernel.map { k with phys := s } q v = cowUpto (k.map q) j v := hback.left.pte v hv
    refine ⟨?_, ?_, fun _ v hv => ?_⟩
    · unfold Kernel.ownPages
      rw [htab]
    · rw [userPages_of_ne (k := { k with phys := s }) h.ppt, userPages_of_ne h.ppt,
        ← pagesOf_cowUpto (f := k.map q) (j := j)]
      exact pagesOf_congr fun v _ hv => hmap v (by dsimp only at hv; omega)
    · rw [hmap v hv]
      unfold cowUpto
      split_ifs
      · exact Or.inr rfl
      · exact Or.inl rfl
  · obtain ⟨h1, h2, h3⟩ := slot_congr k { k with phys := s } (q := q) rfl
      fun t ht => hfr t (Kept.kernel (by
        have ho : t ∈ k.ownedBeside [p, np] := mem_ownedBeside (Or.inl (List.mem_flatMap.mpr
          ⟨q, mem_otherProcs.mpr ⟨hq, by simp [hqp, hqn]⟩, ht⟩))
        simp [Kernel.frameTwo, ho]))
    exact ⟨h1, h2, fun hpt v _ => Or.inl (congrFun (h3 hpt) v)⟩

end Forking

theorem Allocated.forking {k1 : Kernel} {np : Nat} (h : Allocated k k1 np) (hi : Inv k1)
    (hp : p ∈ procs) (hpt : (k.proc p).pagetable ≠ 0) : Forking k1 p np := by
  have hne : p ≠ np := fun he => hpt (he ▸ h.idle.pagetable)
  refine ⟨hi, hp, h.mem, hne, ?_, h.pagetable, h.sz⟩
  rw [h.proc p hne]
  exact hpt

theorem Allocated.undone {k1 k3 : Kernel} {np j : Nat} {s : Phys} (h : Allocated k k1 np)
    (hf : Forking k1 p np) (hker : SameKernel k k1)
    (hmem : ∀ q ∈ procs, k1.umem q = k.umem q) (hfr : Frame k.phys k1.phys k.owned k.mapped)
    (hj : j ≤ npages (k1.proc p).sz)
    (hback : Two s (k1.proc p).pagetable (k1.proc np).pagetable (cowUpto (k1.map p) j) (k1.map np)
      (k1.frameTwo p np) k1.mapped)
    (htab : tables s.mem 2 (k1.proc p).pagetable = tables k1.phys.mem 2 (k1.proc p).pagetable)
    (hfr1 : Frame k1.phys s (k1.frameTwo p np) k1.mapped)
    (hfree : Freed { k1 with phys := s } k3 np)
    (hfr3 : Frame s k3.phys (Kernel.ownedBeside { k1 with phys := s } [np])
      (Kernel.mappedBeside { k1 with phys := s } [np])) : Undone k k3 := by
  obtain ⟨h3, hker3, -, hidle3, hproc3, hmem3⟩ := hfree
  have hstep1 (q : Nat) (hq : q ∈ procs) (hqn : q ≠ np) :=
    slot_congr k k1 (h.proc q hqn) fun t ht => hfr t (Kept.kernel
      (List.mem_append_left _ (List.mem_flatMap.mpr ⟨q, hq, ht⟩)))
  have hstep2 (q : Nat) (hq : q ∈ procs) (hqn : q ≠ np) :=
    hf.failed_pages hback htab hfr1 hq hqn
  have hstep3 (q : Nat) (hq : q ∈ procs) (hqn : q ≠ np) :=
    slot_congr { k1 with phys := s } k3 (hproc3 q hqn) fun t ht =>
      hfr3 t (Kept.kernel (mem_ownedBeside (Or.inl (List.mem_flatMap.mpr
        ⟨q, mem_otherProcs.mpr ⟨hq, by simpa using hqn⟩, ht⟩))))
  refine ⟨⟨fun q => ?_, fun q hq => ?_⟩, fun q hq => ?_, fun q hq => ?_, ?_, fun q hq hpt v hv => ?_⟩
  · by_cases hqn : q = np
    · subst hqn
      exact Or.inr ⟨h.idle, hidle3⟩
    · exact Or.inl ((hproc3 q hqn).trans (h.proc q hqn))
  · by_cases hqn : q = np
    · subst hqn
      unfold Kernel.umem
      rw [hidle3.sz, h.idle.sz, show npages 0 = 0 by decide]
      rw [userMem_empty, userMem_empty]
    · rw [hmem3 q hq hqn, (hf.failed hj hback hfr1).2 q hq hqn, hmem q hq]
  · by_cases hqn : q = np
    · subst hqn
      rw [hidle3.pages.1, h.idle.pages.1]
    · rw [(hstep3 q hq hqn).1, (hstep2 q hq hqn).1, (hstep1 q hq hqn).1]
  · by_cases hqn : q = np
    · subst hqn
      rw [hidle3.pages.2, h.idle.pages.2]
    · rw [(hstep3 q hq hqn).2.1, (hstep2 q hq hqn).2.1, (hstep1 q hq hqn).2.1]
  · -- The kernel's own table is in every frame.
    have hk1 : k1.kernelPages = k.kernelPages := kernelPages_congr hker fun t ht =>
      hfr t (Kept.kernel (List.mem_append_right _ (List.mem_append_left _ ht)))
    have hk2 : Kernel.kernelPages { k1 with phys := s } = k1.kernelPages :=
      kernelPages_congr ⟨rfl, rfl, rfl, rfl⟩ fun t ht => hfr1 t (Kept.kernel (by
        have ho : t ∈ k1.ownedBeside [p, np] := mem_ownedBeside (Or.inr ht)
        simp [Kernel.frameTwo, ho]))
    have hk3 : k3.kernelPages = Kernel.kernelPages { k1 with phys := s } :=
      kernelPages_congr hker3 fun t ht => hfr3 t (Kept.kernel (mem_ownedBeside (Or.inr ht)))
    rw [hk3, hk2, hk1]
  · have hqn : q ≠ np := fun he => hpt (he ▸ h.idle.pagetable)
    have hpt1 : (k1.proc q).pagetable ≠ 0 := by
      rw [h.proc q hqn]
      exact hpt
    rw [congrFun ((hstep3 q hq hqn).2.2 hpt1) v, ← congrFun ((hstep1 q hq hqn).2.2 hpt) v]
    exact (hstep2 q hq hqn).2.2 hpt1 v hv

theorem fork_spec (h : Inv k) (hs : Settled k) (hp : p ∈ procs) (hpt : (k.proc p).pagetable ≠ 0) :
    Runs (fork p) k fun r k' => Inv k' ∧ SameKernel k k' ∧ k'.initproc = k.initproc ∧
      ((r = -1 ∧ Undone k k' ∧ ((∀ q ∈ procs, (k.proc q).state ≠ .UNUSED) ∨
          k.phys.freelist.length ≤ 2*npages (k.proc p).sz + 6)) ∨
        (0 ≤ r ∧ (∃ np, Forked k k' p np) ∧
          k.phys.freelist.length ≤ k'.phys.freelist.length + 2*npages (k.proc p).sz + 6)) := by
  unfold fork
  refine (allocproc_spec h hs).bind ?_
  rintro r k1 ⟨h1, hker1, hinit1, hmem1, hfr0, hr⟩
  cases r with
  | none =>
    have hun : Unnoticed k k1 := ⟨hr.1, hmem1⟩
    exact (runs_pure _).mpr ⟨h1, hker1, hinit1, Or.inl ⟨rfl, hun.undone hker1 hfr0,
      hr.2.imp_right fun hle => by omega⟩⟩
  | some np =>
    have hf := hr.forking h1 hp hpt
    have hpp : k1.proc p = k.proc p := hr.proc p hf.ne
    have hused := hr.used
    rw [runs_bind, runs_get]
    simp only [runs_bind, runs_inPhys]
    refine hf.uvmcopy.imp ?_
    rintro r s2 (⟨rfl, hcop⟩ | ⟨rfl, ⟨j, hj, hback⟩, htab, hfr, hfree⟩)
    · -- The child shares every page.
      have hnofail : ¬ ((0 : Int) < 0) := by decide
      rw [if_neg hnofail]
      simp only [runs_bind, runs_setProc, runs_inPhys, runs_pure]
      refine (copyTrapframe_spec s2 _ _).imp ?_
      rintro _ s3 ⟨b, rfl⟩
      set k' : Kernel := { k1 with
        phys := s2.setPage (k1.proc np).trapframe b
        proc := update (update k1.proc np _) np _ } with hk'
      have hproc (q : Nat) (hq : q ≠ np) : k'.proc q = k1.proc q := by
        simp only [k', update_of_ne hq]
      have hnp : (k'.proc np).pagetable = (k1.proc np).pagetable ∧
          (k'.proc np).trapframe = (k1.proc np).trapframe ∧ (k'.proc np).sz = (k1.proc p).sz := by
        simp [k']
      obtain ⟨hi, hchild, hothers, hshared⟩ := hf.shared hcop
        (show k'.phys = s2.setPage (k1.proc np).trapframe b from rfl) ⟨rfl, rfl, rfl, rfl⟩ hproc hnp
      have hused2 := hcop.used
      rw [hpp] at hused2
      refine ⟨hi, ⟨hker1.1, hker1.2, hker1.3, hker1.4⟩, hinit1, Or.inr ⟨by omega, ⟨np, ?_⟩, ?_⟩⟩
      · exact {
          mem := hr.mem
          idle := hr.idle
          first := hr.first
          proc := fun q hq => (hproc q hq).trans (hr.proc q hq)
          pagetable := by rw [hnp.1]; exact hr.pagetable
          state := by simp [k']
          parent := by simp [k']
          sz := by rw [hnp.2.2, hpp]
          killed := by
            rw [← hr.killed]
            simp [k']
          child := by rw [hchild, hmem1 p hp]
          shared := fun v hv => hshared v (by rw [hpp]; exact hv)
          others := fun q hq hqn => by rw [hothers q hq hqn, hmem1 q hq] }
      · change _ ≤ s2.freelist.length + _ + _
        omega
    · -- No memory for the child: its slot is given back.
      rw [if_pos (by decide)]
      obtain ⟨hi, -⟩ := hf.failed hj hback hfr
      refine (freeproc_spec hi hr.mem hr.pagetable).bind ?_
      have hker12 : SameKernel k { k1 with phys := s2 } := ⟨hker1.1, hker1.2, hker1.3, hker1.4⟩
      rintro _ k3 ⟨hfreed, hfr3⟩
      have hundone := hr.undone hf hker1 hmem1 hfr0 hj hback htab hfr hfreed hfr3
      rw [hpp] at hfree
      exact (runs_pure _).mpr ⟨hfreed.inv, hker12.trans hfreed.kernel, hfreed.initproc.trans hinit1,
        Or.inl ⟨rfl, hundone, Or.inr (by omega)⟩⟩

end Fork

end Xv6
