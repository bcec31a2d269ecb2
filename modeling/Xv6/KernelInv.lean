import Xv6.Proc

/-! The invariant of the whole kernel: one ledger over all processes. A step that
changes some processes is reasoned about with all the others in the frame. -/
namespace Xv6

section Lists
variable {l ps : List Nat} {g h : Nat → List Nat}

def otherProcs (ps : List Nat) : List Nat := procs.filter fun q => q ∉ ps

theorem mem_otherProcs {q : Nat} : q ∈ otherProcs ps ↔ q ∈ procs ∧ q ∉ ps := by
  simp [otherProcs]

theorem procs_perm (hn : ps.Nodup) (hs : ∀ p ∈ ps, p ∈ procs) :
    procs.Perm (ps ++ otherProcs ps) := by
  rw [List.perm_ext_iff_of_nodup procs_nodup]
  · intro q
    rw [List.mem_append, mem_otherProcs]
    constructor
    · intro hq
      by_cases hp : q ∈ ps
      · exact Or.inl hp
      · exact Or.inr ⟨hq, hp⟩
    · rintro (hq | hq)
      · exact hs q hq
      · exact hq.1
  · rw [List.nodup_append]
    refine ⟨hn, procs_nodup.filter _, fun a ha b hb => ?_⟩
    rintro rfl
    exact (mem_otherProcs.mp hb).2 ha

theorem flatMap_procs_perm (hn : ps.Nodup) (hs : ∀ p ∈ ps, p ∈ procs) (g : Nat → List Nat) :
    (procs.flatMap g).Perm (ps.flatMap g ++ (otherProcs ps).flatMap g) := by
  rw [← List.flatMap_append]
  exact (procs_perm hn hs).flatMap_right g

end Lists

def Kernel.map (k : Kernel) (p v : Nat) : Pte := pteAt k.phys.mem 2 (k.proc p).pagetable (v*PGSIZE)

/-- The pages of the user mappings of `p`, one entry for each page below its size. -/
def Kernel.userPages (k : Kernel) (p : Nat) : List Nat :=
  if (k.proc p).pagetable = 0 then [] else pagesOf (k.map p) 0 (npages (k.proc p).sz)

def Kernel.ownPages (k : Kernel) (p : Nat) : List Nat :=
  (if (k.proc p).pagetable = 0 then [] else tables k.phys.mem 2 (k.proc p).pagetable) ++
    if (k.proc p).trapframe = 0 then [] else [(k.proc p).trapframe]

/-- The pages of the kernel itself: its page table, the kernel stacks, the pipes
and what kernel code holds. -/
def Kernel.kernelPages (k : Kernel) : List Nat :=
  tables k.phys.mem 2 k.kernel_pagetable ++ (k.kstack ++ (k.pipes.map Pipe.page ++ k.held))

def Kernel.owned (k : Kernel) : List Nat := procs.flatMap k.ownPages ++ k.kernelPages

def Kernel.mapped (k : Kernel) : List Nat := procs.flatMap k.userPages

def Kernel.ownedBeside (k : Kernel) (ps : List Nat) : List Nat :=
  (otherProcs ps).flatMap k.ownPages ++ k.kernelPages

def Kernel.mappedBeside (k : Kernel) (ps : List Nat) : List Nat := (otherProcs ps).flatMap k.userPages

section Split
variable {ps : List Nat}

theorem Kernel.owned_perm (k : Kernel) (hn : ps.Nodup) (hs : ∀ p ∈ ps, p ∈ procs) :
    k.owned.Perm (ps.flatMap k.ownPages ++ k.ownedBeside ps) := by
  unfold Kernel.owned Kernel.ownedBeside
  rw [← List.append_assoc]
  exact (flatMap_procs_perm hn hs k.ownPages).append_right _

theorem Kernel.mapped_perm (k : Kernel) (hn : ps.Nodup) (hs : ∀ p ∈ ps, p ∈ procs) :
    k.mapped.Perm (ps.flatMap k.userPages ++ k.mappedBeside ps) :=
  flatMap_procs_perm hn hs k.userPages

end Split

variable [Layout]

/-- The address space of one slot of the process table. -/
structure SpaceOk (k : Kernel) (p : Nat) : Prop where
  linked : (k.proc p).pagetable ≠ 0 → Linked k.phys.mem 2 (k.proc p).pagetable
  map : (k.proc p).pagetable ≠ 0 →
    UserMap (k.map p) (npages (k.proc p).sz) (k.proc p).trapframe
  nodup : (k.userPages p).Nodup
  none : (k.proc p).pagetable = 0 → (k.proc p).trapframe = 0 ∧ (k.proc p).sz = 0
  trapframe : (k.proc p).pagetable ≠ 0 → (k.proc p).trapframe ≠ 0

/-- A user page that is writable has one mapping. -/
def WriteOk (k : Kernel) (p : Nat) : Prop :=
  (k.proc p).pagetable ≠ 0 → ∀ v < npages (k.proc p).sz, (k.map p v).has PTE_W = true →
    k.mapped.count (PTE2PA (k.map p v)) ≤ 1

structure Inv (k : Kernel) : Prop where
  ledger : Ledger k.phys k.owned k.mapped
  space : ∀ p ∈ procs, SpaceOk k p
  write : ∀ p ∈ procs, WriteOk k p

/-- The kernel holds the same pages for itself. -/
structure SameKernel (k k' : Kernel) : Prop where
  kernel_pagetable : k'.kernel_pagetable = k.kernel_pagetable
  kstack : k'.kstack = k.kstack
  pipes : k'.pipes = k.pipes
  held : k'.held = k.held

omit [Layout] in
theorem SameKernel.trans {k k' k'' : Kernel} (h : SameKernel k k') (h' : SameKernel k' k'') :
    SameKernel k k'' :=
  ⟨h'.1.trans h.1, h'.2.trans h.2, h'.3.trans h.3, h'.4.trans h.4⟩

/-- Nothing but the processes `ps` and the pages of the kernel has changed. -/
structure SameBeside (k k' : Kernel) (ps : List Nat) : Prop where
  proc : ∀ q, q ∉ ps → k'.proc q = k.proc q
  kernel_pagetable : k'.kernel_pagetable = k.kernel_pagetable
  content : ∀ q, q ∈ (otherProcs ps).flatMap k.ownPages ∨
    q ∈ tables k.phys.mem 2 k.kernel_pagetable → k'.phys.mem q = k.phys.mem q

section Same
variable {k k' : Kernel} {ps : List Nat} {q : Nat}

section
omit [Layout]

theorem SameBeside.tables (h : SameBeside k k' ps) (hq : q ∈ otherProcs ps)
    (hp : (k.proc q).pagetable ≠ 0) :
    ∀ t ∈ tables k.phys.mem 2 (k.proc q).pagetable, k'.phys.mem t = k.phys.mem t := by
  intro t ht
  apply h.content t (Or.inl (List.mem_flatMap.mpr ⟨q, hq, ?_⟩))
  unfold Kernel.ownPages
  rw [if_neg hp]
  exact List.mem_append_left _ ht

theorem SameBeside.map (h : SameBeside k k' ps) (hq : q ∈ otherProcs ps)
    (hp : (k.proc q).pagetable ≠ 0) : k'.map q = k.map q := by
  funext v
  unfold Kernel.map
  rw [h.proc q (mem_otherProcs.mp hq).2]
  exact pteAt_congr (h.tables hq hp) _

theorem SameBeside.userPages (h : SameBeside k k' ps) (hq : q ∈ otherProcs ps) :
    k'.userPages q = k.userPages q := by
  unfold Kernel.userPages
  rw [h.proc q (mem_otherProcs.mp hq).2]
  by_cases hp : (k.proc q).pagetable = 0
  · rw [if_pos hp, if_pos hp]
  · rw [if_neg hp, if_neg hp, h.map hq hp]

theorem SameBeside.ownPages (h : SameBeside k k' ps) (hq : q ∈ otherProcs ps) :
    k'.ownPages q = k.ownPages q := by
  unfold Kernel.ownPages
  rw [h.proc q (mem_otherProcs.mp hq).2]
  by_cases hp : (k.proc q).pagetable = 0
  · rw [if_pos hp, if_pos hp]
  · rw [if_neg hp, if_neg hp, tables_congr (h.tables hq hp)]

theorem SameBeside.mappedBeside (h : SameBeside k k' ps) :
    k'.mappedBeside ps = k.mappedBeside ps :=
  List.flatMap_congr fun _ hq => h.userPages hq

end

theorem SameBeside.space (h : SameBeside k k' ps) (hq : q ∈ otherProcs ps) (hs : SpaceOk k q) :
    SpaceOk k' q := by
  have hproc := h.proc q (mem_otherProcs.mp hq).2
  refine ⟨?_, ?_, ?_, ?_, ?_⟩
  · rw [hproc]
    intro hp
    exact linked_congr (h.tables hq hp) (hs.linked hp)
  · rw [hproc]
    intro hp
    rw [h.map hq hp]
    exact hs.map hp
  · rw [h.userPages hq]
    exact hs.nodup
  · rw [hproc]
    exact hs.none
  · rw [hproc]
    exact hs.trapframe

def besidePages (k k' : Kernel) (ps : List Nat) : List Nat :=
  (otherProcs ps).flatMap k.ownPages ++ (Xv6.tables k.phys.mem 2 k.kernel_pagetable ++
    (k'.kstack ++ (k'.pipes.map Pipe.page ++ k'.held)))

section
omit [Layout]

theorem SameKernel.besidePages (h : SameKernel k k') : besidePages k k' ps = k.ownedBeside ps := by
  unfold Xv6.besidePages Kernel.ownedBeside Kernel.kernelPages
  rw [h.kstack, h.pipes, h.held]

theorem mem_ownedBeside (h : q ∈ (otherProcs ps).flatMap k.ownPages ∨
    q ∈ Xv6.tables k.phys.mem 2 k.kernel_pagetable) : q ∈ k.ownedBeside ps := by
  unfold Kernel.ownedBeside Kernel.kernelPages
  rw [List.mem_append, List.mem_append]
  exact h.imp_right Or.inl

theorem SameBeside.ownedBeside (h : SameBeside k k' ps) :
    k'.ownedBeside ps = besidePages k k' ps := by
  unfold Kernel.ownedBeside Kernel.kernelPages besidePages
  rw [List.flatMap_congr fun q hq => h.ownPages hq, h.kernel_pagetable,
    tables_congr fun q hq => h.content q (Or.inr hq)]

end

/-- The invariant after a change of the processes `ps`, from what they have now. -/
theorem Inv.updated (h : Inv k) (hn : ps.Nodup) (hps : ∀ p ∈ ps, p ∈ procs)
    (hs : SameBeside k k' ps)
    (hl : Ledger k'.phys (ps.flatMap k'.ownPages ++ besidePages k k' ps)
      (ps.flatMap k'.userPages ++ k.mappedBeside ps))
    (hspace : ∀ p ∈ ps, SpaceOk k' p) (hwrite : ∀ p ∈ ps, WriteOk k' p)
    (hnew : ∀ pa ∈ ps.flatMap k'.userPages, pa ∈ k.mappedBeside ps →
      pa ∈ ps.flatMap k.userPages) : Inv k' := by
  have hmapped := k'.mapped_perm hn hps
  rw [hs.mappedBeside] at hmapped
  refine ⟨?_, ?_, ?_⟩
  · apply hl.perm _ hmapped.symm
    have ho := k'.owned_perm hn hps
    rw [hs.ownedBeside] at ho
    exact ho.symm
  · intro p hp
    by_cases hin : p ∈ ps
    · exact hspace p hin
    · exact hs.space (mem_otherProcs.mpr ⟨hp, hin⟩) (h.space p hp)
  · intro p hp
    by_cases hin : p ∈ ps
    · exact hwrite p hin
    · -- A writable page of another process has its one mapping there, before and after.
      have hq := mem_otherProcs.mpr ⟨hp, hin⟩
      intro hpt v hv hw
      rw [hs.proc p hin] at hpt hv
      rw [hs.map hq hpt] at hw ⊢
      have hone := h.write p hp hpt v hv hw
      have hmem : PTE2PA (k.map p v) ∈ k.mappedBeside ps := by
        refine List.mem_flatMap.mpr ⟨p, hq, ?_⟩
        unfold Kernel.userPages
        rw [if_neg hpt]
        exact mem_pagesOf.mpr ⟨v, Nat.zero_le _, by omega, rfl⟩
      rw [(k.mapped_perm hn hps).count_eq, List.count_append] at hone
      rw [hmapped.count_eq, List.count_append]
      have hpos := List.count_pos_iff.mpr hmem
      have hno : PTE2PA (k.map p v) ∉ ps.flatMap k'.userPages := fun hc => by
        have := List.count_pos_iff.mpr (hnew _ hc hmem)
        omega
      rw [List.count_eq_zero_of_not_mem hno]
      omega

end Same

section Focus
variable {k : Kernel} {p : Nat}

section
omit [Layout]

theorem flatMap_one (g : Nat → List Nat) : [p].flatMap g = g p := by simp

theorem ownPages_of_ne {pt tf : Nat} (hpt : (k.proc p).pagetable = pt) (hp : pt ≠ 0)
    (htf : (k.proc p).trapframe = tf) (ht : tf ≠ 0) :
    k.ownPages p = tables k.phys.mem 2 pt ++ [tf] := by
  unfold Kernel.ownPages
  rw [hpt, htf, if_neg hp, if_neg ht]

theorem userPages_of_ne (hp : (k.proc p).pagetable ≠ 0) :
    k.userPages p = pagesOf (k.map p) 0 (npages (k.proc p).sz) := by
  unfold Kernel.userPages
  rw [if_neg hp]

theorem mem_mappedBeside {q v : Nat} (hq : q ∈ procs) (hne : q ≠ p)
    (hpt : (k.proc q).pagetable ≠ 0) (hv : v < npages (k.proc q).sz) :
    PTE2PA (k.map q v) ∈ k.mappedBeside [p] := by
  refine List.mem_flatMap.mpr ⟨q, mem_otherProcs.mpr ⟨hq, by simpa using hne⟩, ?_⟩
  rw [userPages_of_ne hpt]
  exact mem_pagesOf.mpr ⟨v, Nat.zero_le _, by omega, rfl⟩

end

def Kernel.frame (k : Kernel) (p : Nat) : List Nat := (k.proc p).trapframe :: k.ownedBeside [p]

theorem Inv.own (h : Inv k) (hp : p ∈ procs) (hpt : (k.proc p).pagetable ≠ 0) :
    Own k.phys (k.proc p).pagetable (k.map p) (k.frame p) (k.mappedBeside [p])
      (npages (k.proc p).sz) (k.proc p).trapframe := by
  have hs := h.space p hp
  have hps : ∀ q ∈ [p], q ∈ procs := by simpa using hp
  have ho := k.owned_perm (List.nodup_singleton p) hps
  have hm := k.mapped_perm (List.nodup_singleton p) hps
  rw [flatMap_one, ownPages_of_ne rfl hpt rfl (hs.trapframe hpt), List.append_assoc] at ho
  rw [flatMap_one, userPages_of_ne hpt] at hm
  refine ⟨⟨h.ledger.perm ho hm, hs.linked hpt, fun _ _ => rfl⟩, hs.map hpt, ?_, ?_⟩
  · rw [← userPages_of_ne hpt]
    exact hs.nodup
  · intro v hv hw hin
    have hone := h.write p hp hpt v hv hw
    rw [hm.count_eq, List.count_append] at hone
    have h1 := List.count_pos_iff.mpr hin
    have h2 : PTE2PA (k.map p v) ∈ pagesOf (k.map p) 0 (npages (k.proc p).sz) :=
      mem_pagesOf.mpr ⟨v, Nat.zero_le _, by omega, rfl⟩
    have h3 := List.count_pos_iff.mpr h2
    omega

theorem UserMap.congr {f g : Nat → Pte} {n tf : Nat} (h : UserMap f n tf)
    (he : ∀ v < 2*VPAGES, g v = f v) : UserMap g n tf := by
  have hT : TFPAGE+2 = VPAGES := by decide
  have hs := h.size
  refine ⟨hs, ?_, ?_, ?_, ?_, ?_⟩
  · intro k hk
    rw [he k (by omega)]
    exact h.user k hk
  · intro k h1 h2
    rw [he k (by omega)]
    exact h.gap k h1 h2
  · rw [he _ (by omega)]
    exact h.trapframe
  · rw [he _ (by omega)]
    exact h.trampoline
  · intro k h1 h2
    rw [he k h2]
    exact h.top k h1 h2

/-- The invariant after a step of process `p` alone: it has a table of its own
beside what was there. -/
theorem Inv.of_own {f : Nat → Pte} (h : Inv k) (k' : Kernel) (hp : p ∈ procs)
    (hpt : (k.proc p).pagetable ≠ 0) (hproc : ∀ q, q ≠ p → k'.proc q = k.proc q)
    (hker : SameKernel k k') (htf : (k'.proc p).trapframe = (k.proc p).trapframe)
    (hpt' : (k'.proc p).pagetable ≠ 0)
    (hown : Own k'.phys (k'.proc p).pagetable f (k.frame p) (k.mappedBeside [p])
      (npages (k'.proc p).sz) (k.proc p).trapframe)
    (hframe : ∀ q ∈ k.ownedBeside [p], k'.phys.mem q = k.phys.mem q)
    (hpages : ∀ pa ∈ pagesOf f 0 (npages (k'.proc p).sz), pa ∈ k.mappedBeside [p] →
      pa ∈ k.userPages p) : Inv k' := by
  have htf0 := (h.space p hp).trapframe hpt
  have hmap (v : Nat) (hv : v < 2*VPAGES) : k'.map p v = f v := hown.maps.pte v hv
  have hsize : npages (k'.proc p).sz ≤ 2*VPAGES := by
    have hT : TFPAGE ≤ 2*VPAGES := by decide
    exact hown.map.size.trans hT
  have hpg : k'.userPages p = pagesOf f 0 (npages (k'.proc p).sz) := by
    rw [userPages_of_ne hpt']
    exact pagesOf_congr fun v _ hv => hmap v (by omega)
  have hsame : SameBeside k k' [p] :=
    ⟨fun q hq => hproc q (by simpa using hq), hker.kernel_pagetable,
      fun q hq => hframe q (mem_ownedBeside hq)⟩
  have hown' : k'.ownPages p = tables k'.phys.mem 2 (k'.proc p).pagetable ++
      [(k.proc p).trapframe] := ownPages_of_ne rfl hpt' htf htf0
  apply h.updated (List.nodup_singleton p) (by simpa using hp) hsame
  · rw [flatMap_one, flatMap_one, hown', hpg, hker.besidePages, List.append_assoc]
    exact hown.maps.ledger
  · intro q hq
    obtain rfl := List.mem_singleton.mp hq
    refine ⟨fun _ => hown.maps.linked, fun _ => ?_, ?_, fun hc => absurd hc hpt', fun _ => ?_⟩
    · rw [htf]
      exact hown.map.congr hmap
    · rw [hpg]
      exact hown.nodup
    · rw [htf]
      exact htf0
  · intro q hq
    obtain rfl := List.mem_singleton.mp hq
    intro _ v hv hw
    rw [hmap v (by omega)] at hw ⊢
    have hm := k'.mapped_perm (List.nodup_singleton q) (by simpa using hp)
    have hno := hown.write v hv hw
    rw [hm.count_eq, List.count_append, flatMap_one, hpg, hsame.mappedBeside,
      List.count_eq_zero_of_not_mem hno]
    exact List.nodup_iff_count_le_one.mp hown.nodup _
  · intro pa hpa hin
    rw [flatMap_one] at hpa ⊢
    rw [hpg] at hpa
    exact hpages pa hpa hin

end Focus

end Xv6
