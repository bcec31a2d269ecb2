import Xv6.ProcFork

/-! The steps of a process in its own address space: `sbrk`, page faults and
`copyout`. -/
namespace Xv6

open Function

/-- The size after `growproc(n)`, in the `uint` arithmetic of the source. -/
def growSize (sz : Nat) (n : Int) : Nat :=
  if n > 0 then max sz ((sz + n) % 2^32).toNat
  else if n < 0 then min sz ((sz + n) % 2^32).toNat
  else sz

def Kernel.put (k : Kernel) (p : Nat) (s : Phys) (x : Proc) : Kernel :=
  { k with phys := s, proc := update k.proc p x }

variable [Layout]

section Own
variable {k : Kernel} {p : Nat}

theorem Inv.size_lt (h : Inv k) (hp : p ∈ procs) (hpt : (k.proc p).pagetable ≠ 0) :
    (k.proc p).sz < 2^32 := by
  have hr := (h.own hp hpt).room
  exact Xv6.size_lt (by omega)

section
omit [Layout]

@[simp] theorem put_proc_self (s : Phys) (x : Proc) : (k.put p s x).proc p = x :=
  update_self _ _ _

theorem put_proc_of_ne (s : Phys) (x : Proc) {q : Nat} (hq : q ≠ p) :
    (k.put p s x).proc q = k.proc q := update_of_ne hq _ _

theorem put_self (s : Phys) : k.put p s (k.proc p) = { k with phys := s } := by
  unfold Kernel.put
  rw [update_eq_self]

end

theorem Inv.step_put {f : Nat → Pte} {s : Phys} {m : UserMem} (h : Inv k) (hp : p ∈ procs)
    (hpt : (k.proc p).pagetable ≠ 0) (x : Proc) (hx : x.pagetable = (k.proc p).pagetable)
    (hxt : x.trapframe = (k.proc p).trapframe)
    (hown : Own s (k.proc p).pagetable f (k.frame p) (k.mappedBeside [p]) (npages x.sz)
      (k.proc p).trapframe)
    (hm : userMem s f (npages x.sz) = m)
    (hframe : Frame k.phys s (k.frame p) (k.mappedBeside [p]))
    (hpages : ∀ pa ∈ pagesOf f 0 (npages x.sz), pa ∈ k.mappedBeside [p] →
      pa ∈ pagesOf (k.map p) 0 (npages (k.proc p).sz)) : StepOf k (k.put p s x) p m := by
  apply h.step_of_own (k.put p s x) hp hpt (fun q hq => put_proc_of_ne s x hq)
    ⟨rfl, rfl, rfl, rfl⟩ rfl
  · rw [put_proc_self, hxt]
  · rw [put_proc_self, hx]
    exact hpt
  · rw [put_proc_self, hx]
    exact hown
  · rw [put_proc_self]
    exact hm
  · exact fun q hq => hframe q (hq.mono (List.subset_cons_self _ _) (List.Subset.refl _))
  · rw [put_proc_self]
    exact hpages

theorem Inv.step_resized {f : Nat → Pte} {s : Phys} (h : Inv k) (hp : p ∈ procs)
    (hpt : (k.proc p).pagetable ≠ 0) (sz : Nat)
    (hr : Resized k.phys (k.proc p).pagetable (k.map p) (k.frame p) (k.mappedBeside [p])
      (npages (k.proc p).sz) (k.proc p).trapframe (npages sz) f s) :
    StepOf k (k.put p s { k.proc p with sz := sz }) p
      ((k.umem p).resize (npages (k.proc p).sz) (npages sz)) :=
  h.step_put hp hpt _ rfl rfl hr.own hr.mem hr.frame hr.pages

/-- `sbrk`: the size the arithmetic asks for with zeroed new pages, or nothing. -/
theorem growproc_spec (h : Inv k) (hp : p ∈ procs) (hpt : (k.proc p).pagetable ≠ 0) (n : Int) :
    Runs (growproc p n) k fun r k' =>
      (r = 0 ∧ k'.proc p = { k.proc p with sz := growSize (k.proc p).sz n } ∧
        StepOf k k' p ((k.umem p).resize (npages (k.proc p).sz)
          (npages (growSize (k.proc p).sz n)))) ∨
      (r = -1 ∧ 0 < n ∧ k'.proc p = k.proc p ∧ StepOf k k' p (k.umem p) ∧
        ∀ v < npages (k.proc p).sz, k'.map p v = k.map p v) := by
  have hown := h.own hp hpt
  have hsz := h.size_lt hp hpt
  have hmod : (k.proc p).sz % 2^32 = (k.proc p).sz := Nat.mod_eq_of_lt hsz
  have hstay {s : Phys} {f : Nat → Pte} (hr : Resized k.phys (k.proc p).pagetable (k.map p)
      (k.frame p) (k.mappedBeside [p]) (npages (k.proc p).sz) (k.proc p).trapframe
      (npages (k.proc p).sz) f s) : StepOf k { k with phys := s } p (k.umem p) ∧
        ∀ v < npages (k.proc p).sz, ({ k with phys := s } : Kernel).map p v = k.map p v := by
    have hst := h.step_resized hp hpt (k.proc p).sz hr
    rw [put_self] at hst
    unfold Kernel.umem at hst ⊢
    rw [userMem_resize_self] at hst
    refine ⟨hst, fun v hv => ?_⟩
    have hV : TFPAGE ≤ 2*VPAGES := by decide
    have hlt := hown.map.size
    exact (hr.own.maps.pte v (by omega)).trans (hr.old v hv hv)
  have hbound : ((((k.proc p).sz : Int) + n) % 2^32).toNat < 2^32 := by omega
  unfold growproc
  rw [runs_bind, runs_get]
  simp only [hmod]
  set newsz := ((((k.proc p).sz : Int) + n) % 2^32).toNat with hnew
  rw [runs_ite]
  constructor
  · intro hpos
    have hgs : growSize (k.proc p).sz n = max (k.proc p).sz newsz := if_pos hpos
    simp only [runs_bind, runs_inPhys]
    refine (hown.uvmalloc newsz).imp ?_
    rintro r s (⟨rfl, ⟨f, hr⟩, -⟩ | ⟨rfl, -, hr, -⟩)
    · have hlt : max (k.proc p).sz newsz < 2^32 := by omega
      rw [Nat.mod_eq_of_lt hlt, runs_ite]
      constructor
      · intro hz
        have hz' : (k.proc p).sz = max (k.proc p).sz newsz := by omega
        rw [← hz'] at hr
        exact (runs_pure _).mpr (Or.inr ⟨rfl, hpos, rfl, hstay hr⟩)
      · intro _
        simp only [runs_bind, runs_setProc, runs_pure]
        left
        rw [hgs]
        exact ⟨trivial, update_self _ _ _, h.step_resized hp hpt _ hr⟩
    · rw [Nat.zero_mod, if_pos rfl]
      exact (runs_pure _).mpr (Or.inr ⟨rfl, hpos, rfl, hstay hr⟩)
  · intro hpos
    rw [runs_ite]
    constructor
    · intro hneg
      have hgs : growSize (k.proc p).sz n = min (k.proc p).sz newsz := by
        unfold growSize
        rw [if_neg hpos, if_pos hneg]
      simp only [runs_bind, runs_inPhys]
      refine (hown.uvmdealloc newsz).imp ?_
      rintro r s ⟨rfl, f, hr⟩
      have hlt : min (k.proc p).sz newsz < 2^32 := by omega
      rw [Nat.mod_eq_of_lt hlt]
      simp only [runs_setProc, runs_pure]
      left
      rw [hgs]
      exact ⟨trivial, update_self _ _ _, h.step_resized hp hpt _ hr⟩
    · intro hneg
      have hgs : growSize (k.proc p).sz n = (k.proc p).sz := by
        unfold growSize
        rw [if_neg hpos, if_neg hneg]
      simp only [runs_bind, runs_setProc, runs_pure]
      left
      rw [hgs]
      exact ⟨trivial, update_self _ _ _, h.step_resized hp hpt _ hown.resized_refl⟩

/-- A page that a fault on it turns into a private page. -/
def Kernel.cowPage (k : Kernel) (p v : Nat) : Prop :=
  v < npages (k.proc p).sz ∧ (k.map p v).has PTE_COW = true

instance (k : Kernel) (p v : Nat) : Decidable (k.cowPage p v) := inferInstanceAs (Decidable (_ ∧ _))

/-- No memory to make page `v` private. -/
def Kernel.stuck (k : Kernel) (p v : Nat) : Prop :=
  1 < k.phys.ref (PTE2PA (k.map p v)) ∧ k.phys.freelist = []

instance (k : Kernel) (p v : Nat) : Decidable (k.stuck p v) := inferInstanceAs (Decidable (_ ∧ _))

/-- What the fault branch of `usertrap` leaves behind for an address in page `v`. -/
structure Faulted (k k' : Kernel) (p v : Nat) : Prop where
  step : StepOf k k' p (k.umem p)
  proc : k'.proc p = { k.proc p with
    killed := (k.proc p).killed || decide (k.cowPage p v ∧ k.stuck p v) }
  same : ¬ k.cowPage p v → k' = k
  user : (k'.map p v).has PTE_U = (k.map p v).has PTE_U
  writable : k.cowPage p v → ¬ k.stuck p v → (k'.map p v).has PTE_W = true

theorem StepOf.refl (h : Inv k) : StepOf k k p (k.umem p) :=
  ⟨h, rfl, fun _ _ => rfl, rfl, fun _ _ _ => rfl⟩

theorem usertrapFault_repairs (h : Inv k) (hp : p ∈ procs) (hpt : (k.proc p).pagetable ≠ 0)
    {va : Nat} (hva : va < MAXVA) :
    Runs (usertrapFault p va) k fun _ k' => Faulted k k' p (va/PGSIZE) ∧
      (k.phys.ref (PTE2PA (k.map p (va/PGSIZE))) ≤ 1 →
        k'.phys.freelist.length = k.phys.freelist.length) := by
  have hown := h.own hp hpt
  have hlt : PGROUNDDOWN va < (k.proc p).sz ↔ va/PGSIZE < npages (k.proc p).sz :=
    page_below_iff (va/PGSIZE)
  have hvV := page_lt_iff.mpr hva
  unfold usertrapFault
  rw [runs_bind, runs_get]
  simp only [runs_bind, runs_inPhys]
  refine (should_copyon_write_spec (k.proc p).sz hown.maps hva).imp ?_
  rintro cow s1 ⟨rfl, hcow⟩
  set v := va/PGSIZE with hv
  have hcow' : cow = true ↔ k.cowPage p v := by
    rw [hcow]
    unfold Kernel.cowPage
    simp only [Bool.and_eq_true, decide_eq_true_eq, hlt]
    constructor
    · rintro ⟨⟨h1, -⟩, h3⟩
      exact ⟨h1, h3⟩
    · rintro ⟨h1, h3⟩
      exact ⟨⟨h1, (hown.map.user v h1).v⟩, h3⟩
  rw [runs_ite]
  constructor
  · intro hc
    have hpage := hcow'.mp hc
    have hshare : k.stuck p v ↔ PTE2PA (k.map p v) ∈ k.mappedBeside [p] ∧ k.phys.freelist = [] := by
      unfold Kernel.stuck
      rw [hown.ref_gt_one hpage.1]
    simp only [runs_bind, runs_inPhys]
    refine (hown.copy_on_write hpage.1).imp ?_
    rintro r s ⟨⟨f, hrep⟩, hr⟩
    -- The address space is repaired as far as memory allows, and `killed` tells the rest.
    have hpost (x : Proc) (hx : x = { k.proc p with
          killed := (k.proc p).killed || decide (k.cowPage p v ∧ k.stuck p v) }) :
        Faulted k (k.put p s x) p v ∧ (k.phys.ref (PTE2PA (k.map p v)) ≤ 1 →
          s.freelist.length = k.phys.freelist.length) := by
      have hst : StepOf k (k.put p s x) p (k.umem p) :=
        h.step_put hp hpt x (by rw [hx]) (by rw [hx]) (by rw [hx]; exact hrep.own)
          (by rw [hx]; exact hrep.mem) hrep.frame (by rw [hx]; exact hrep.pages)
      have hentry : (k.put p s x).map p v = f v := by
        unfold Kernel.map
        rw [put_proc_self, hx]
        exact hrep.own.maps.pte v (by omega)
      refine ⟨⟨hst, by rw [put_proc_self, hx], fun hn => absurd hpage hn, ?_, ?_⟩, ?_⟩
      · rw [hentry]
        exact hrep.user
      · intro _ hns
        rw [hentry]
        apply hrep.writable
        rw [hshare] at hns
        tauto
      · intro hone
        have hnot : PTE2PA (k.map p v) ∉ k.mappedBeside [p] := by
          rw [← hown.ref_gt_one hpage.1]
          omega
        rw [hrep.free, if_neg hnot, Nat.sub_zero]
    rw [runs_ite]
    constructor
    · intro hr0
      have hst : k.stuck p v := by
        by_contra hn
        rw [hshare] at hn
        rw [if_neg hn] at hr
        exact hr0 hr
      rw [runs_setProc]
      exact hpost _ (by simp [hpage, hst])
    · intro hr0
      have hns : ¬ k.stuck p v := by
        intro hst
        rw [if_pos (hshare.mp hst)] at hr
        exact hr0 (by rw [hr]; decide)
      rw [runs_pure, ← put_self]
      exact hpost _ (by simp [hns])
  · intro hc
    have hnot : ¬ k.cowPage p v := fun hp => hc (hcow'.mpr hp)
    rw [runs_pure]
    exact ⟨⟨StepOf.refl h, by simp [hnot], fun _ => rfl, rfl, fun hp => absurd hp hnot⟩,
      fun _ => rfl⟩

theorem usertrapFault_spec (h : Inv k) (hp : p ∈ procs) (hpt : (k.proc p).pagetable ≠ 0) {va : Nat}
    (hva : va < MAXVA) :
    Runs (usertrapFault p va) k fun _ k' => Faulted k k' p (va/PGSIZE) :=
  (usertrapFault_repairs h hp hpt hva).imp fun _ _ hk' => hk'.1

/-- The free pages that a copy of `len` bytes to `dstva` in process `p` needs. -/
def Kernel.cowNeed (k : Kernel) (p dstva len : Nat) : Nat :=
  Xv6.cowNeed (k.map p) (k.mappedBeside [p]) (npages (k.proc p).sz) (dstva/PGSIZE)
    (pagesMet dstva len)

/-- `copyout` into process `p`. Whether other processes can notice depends on
there being a free page for every shared page in the way. -/
structure Written (k k' : Kernel) (p dstva : Nat) (src : List UInt8) (r : Int) : Prop where
  inv : Inv k'
  kernel : SameKernel k k'
  initproc : k'.initproc = k.initproc
  proc : k'.proc = k.proc
  result : r = ((k.umem p).copyout dstva src).1
  mem : k'.umem p = ((k.umem p).copyout dstva src).2
  content : k.cowNeed p dstva src.length ≤ k.phys.freelist.length →
    Frame k.phys k'.phys (k.ownedBeside [p]) (k.mappedBeside [p])
  frame : Frame k.phys k'.phys (k.ownedBeside [p]) []
  through : k.phys.freelist.length < k.cowNeed p dstva src.length → ∃ v, dstva/PGSIZE ≤ v ∧
    v < dstva/PGSIZE + pagesMet dstva src.length ∧
    UserUpto (k.map p) (npages (k.proc p).sz) (dstva/PGSIZE) v ∧
    PTE2PA (k.map p v) ∈ k.mappedBeside [p] ∧ PTE2PA (k'.map p v) = PTE2PA (k.map p v)

theorem copyout_spec (h : Inv k) (hp : p ∈ procs) (hpt : (k.proc p).pagetable ≠ 0) {dstva : Nat}
    {src : List UInt8} (hva : src ≠ [] → dstva < MAXVA) :
    Runs (inPhys (copyout (k.proc p).pagetable (k.proc p).sz (k.proc p).pagetable dstva src)) k
      fun r k' => Written k k' p dstva src r := by
  have hown := h.own hp hpt
  rw [runs_inPhys]
  refine (copyout_own_spec rfl hown hva).imp ?_
  rintro r s ⟨hr, ⟨f, hc, hthr⟩, hfr⟩
  have hbeside : Frame k.phys s (k.ownedBeside [p]) [] := fun q hq =>
    hc.frame q (hq.mono (List.subset_cons_self _ _) (List.Subset.refl _))
  have hi : Inv { k with phys := s } := by
    apply h.of_own { k with phys := s } hp hpt (fun _ _ => rfl) ⟨rfl, rfl, rfl, rfl⟩ rfl hpt hc.own
      (fun q hq => hbeside q (Kept.kernel hq))
    rw [userPages_of_ne hpt]
    exact hc.pages
  have hT : TFPAGE ≤ 2*VPAGES := by decide
  have hs := hc.own.map.size
  have hmap (v : Nat) (hv : v < npages (k.proc p).sz) :
      Kernel.map { k with phys := s } p v = f v := hc.own.maps.pte v (by omega)
  refine ⟨hi, ⟨rfl, rfl, rfl, rfl⟩, rfl, rfl, hr, (userMem_map hmap).trans hc.mem, ?_, hbeside, ?_⟩
  · intro hneed q hq
    exact hfr hneed q (hq.mono (List.subset_cons_self _ _) (List.Subset.refl _))
  · intro hlt
    obtain ⟨v, h1, h2, h3, h4, h5⟩ := hthr.shared hlt
    refine ⟨v, h1, h2, h3, h4, ?_⟩
    rw [hmap v (h3 v h1 le_rfl).1]
    exact h5

/-- While nothing is written through a shared page, the other processes keep
their memory. -/
theorem Written.others {k' : Kernel} {dstva : Nat} {src : List UInt8} {r : Int}
    (hw : Written k k' p dstva src r) (h : Inv k)
    (hneed : k.cowNeed p dstva src.length ≤ k.phys.freelist.length) {q : Nat} (hq : q ∈ procs)
    (hqp : q ≠ p) : k'.umem q = k.umem q := by
  have hfr := hw.content hneed
  have hsame : SameBeside k k' [p] :=
    ⟨fun r _ => by rw [hw.proc], hw.kernel.kernel_pagetable,
      fun r hr => hfr r (Kept.kernel (mem_ownedBeside hr))⟩
  exact hsame.umem h (mem_otherProcs.mpr ⟨hq, by simpa using hqp⟩)
    fun pa hpa => hfr pa (Kept.user hpa)

end Own

end Xv6
