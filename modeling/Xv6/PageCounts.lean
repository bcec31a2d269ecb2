import Xv6.System

/-! The reference counts of `kalloc.c` in every reachable state, and isolation. -/
namespace Xv6

instance (w : Pte) : Decidable (Leaf w) := inferInstanceAs (Decidable (_ ∧ _))

/-- The valid leaf entries that map page `pa`, below the size of each process and
over all page tables of processes. -/
def Kernel.leafCount (k : Kernel) (pa : Nat) : Nat :=
  (procs.map fun p => if (k.proc p).pagetable = 0 then 0 else
    (List.range (npages (k.proc p).sz)).countP fun v =>
      Leaf (k.map p v) ∧ PTE2PA (k.map p v) = pa).sum

/-- The kernel owners of page `pa`: page-table pages, trapframes, kernel stacks,
pipes, and pages held by kernel code such as the arguments of `exec`. -/
def Kernel.ownerCount (k : Kernel) (pa : Nat) : Nat := k.owned.count pa

variable [Layout]

/-- The counts of all pages that the allocator manages, and its free list. A
negative count is read as 0. -/
structure CountsExact (k : Kernel) : Prop where
  count : ∀ pa, Managed pa → (k.phys.ref pa).toNat = k.leafCount pa + k.ownerCount pa
  nodup : k.phys.freelist.Nodup
  managed : ∀ pa ∈ k.phys.freelist, Managed pa
  free : ∀ pa, Managed pa → (pa ∈ k.phys.freelist ↔ k.leafCount pa + k.ownerCount pa = 0)

theorem leafCount_eq {k : Kernel} (h : Inv k) (pa : Nat) : k.leafCount pa = k.mapped.count pa := by
  unfold Kernel.leafCount Kernel.mapped
  rw [List.count_flatMap]
  congr 1
  apply List.map_congr_left
  intro p hp
  rw [Function.comp_apply]
  by_cases hpt : (k.proc p).pagetable = 0
  · rw [if_pos hpt, Kernel.userPages, if_pos hpt, List.count_nil]
  · rw [if_neg hpt, userPages_of_ne hpt, pagesOf, List.count, List.countP_map, List.range_eq_range']
    apply List.countP_congr
    intro v hv
    have hv' : v < npages (k.proc p).sz := by simpa using hv
    have hleaf := (((h.space p hp).map hpt).user v hv').leaf
    simp [hleaf]

/-- Page reference counts are exact in every reachable state. -/
theorem reachable_counts_exact {k : Kernel} (h : Reachable k) : CountsExact k := by
  have hi := h.inv.1
  have hl := hi.ledger
  refine ⟨fun pa hm => ?_, hl.free_nodup, hl.free_managed, fun pa hm => ?_⟩
  · rw [hl.ref_eq pa hm, leafCount_eq hi, Kernel.ownerCount]
    exact Nat.add_comm _ _
  · rw [hl.mem_free pa hm, leafCount_eq hi, Kernel.ownerCount, Nat.add_eq_zero_iff,
      List.count_eq_zero, List.count_eq_zero]
    exact and_comm

omit [Layout] in
theorem booted_counts_exact :
    ∃ (_ : Layout) (k : Kernel), boot (powerOn fun _ _ => 0) = .ok ((), k) ∧ CountsExact k := by
  let _ := sampleLayout
  obtain ⟨k, hb, -⟩ := exists_booted
  exact ⟨_, k, hb, reachable_counts_exact (Reachable.boot hb)⟩

/-- User code reaches no page of the kernel and no free page, and what it can write is
mapped nowhere else. -/
theorem reachable_isolated {k : Kernel} (h : Reachable k) {p va : Nat} (ha : k.active p)
    (hload : (k.entry p va).permits .load = true) :
    let pa := PTE2PA (k.entry p va)
    k.ownerCount pa = 0 ∧ pa ∉ k.phys.freelist ∧
      ((k.entry p va).permits .store = true → k.leafCount pa = 1) := by
  obtain ⟨hi, hs⟩ := h.inv
  have hpt := hs.pagetable_ne ha
  have hb := ((permits_iff hi ha.1 hpt va .load).mp hload).1
  have hv := page_of_userByte hb
  have hmem : PTE2PA (k.entry p va) ∈ k.mapped := by
    rw [entry_low k p hb.1]
    refine List.mem_flatMap.mpr ⟨p, ha.1, ?_⟩
    rw [userPages_of_ne hpt]
    exact (hi.own ha.1 hpt).page_mem hv
  refine ⟨List.count_eq_zero.mpr fun hk => hi.ledger.disjoint _ hk hmem,
    hi.ledger.kept_not_free (.user hmem), fun hstore => ?_⟩
  have hw := ((permits_iff hi ha.1 hpt va .store).mp hstore).2 rfl
  have hone := hi.write p ha.1 hpt _ hv hw
  rw [← entry_low k p hb.1] at hone
  rw [leafCount_eq hi]
  exact le_antisymm hone (List.count_pos_iff.mpr hmem)

omit [Layout] in
theorem init_isolated : ∃ (_ : Layout) (k : Kernel), Reachable k ∧
    PTE2PA (k.entry k.initproc 0) ∉ k.phys.freelist := by
  let _ := sampleLayout
  obtain ⟨k, hb, hk⟩ := exists_booted
  refine ⟨_, k, .boot hb, (reachable_isolated (.boot hb) hk.active ?_).2.1⟩
  rw [permits_iff hk.inv hk.init (hk.settled.pagetable_ne hk.active), hk.mem]
  exact ⟨by decide, nofun⟩

end Xv6
