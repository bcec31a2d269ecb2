import Xv6.System

/-! What `copyout` does to other processes when memory runs out, and what it does
with addresses outside the address space. -/
namespace Xv6

/-- A page that `copyout` gets to has one of the bytes. -/
theorem copyout_page_byte {m : UserMem} {dstva v : Nat} {src : List UInt8} (h1 : dstva/PGSIZE ≤ v)
    (h2 : v < dstva/PGSIZE + pagesMet dstva src.length)
    (huser : ∀ i, dstva/PGSIZE ≤ i → i ≤ v → i < VPAGES ∧ m.user i = true) :
    ∃ j < src.length, (dstva+j)/PGSIZE = v ∧
      (m.copyout dstva src).2.page v ((dstva+j)%PGSIZE) = src.getD j 0 := by
  obtain ⟨u, hu, hrun⟩ := copyoutLoop_upto src.length dstva src m le_rfl
  obtain ⟨j, hj, hpage⟩ : ∃ j < src.length, (dstva+j)/PGSIZE = v := by
    refine ⟨v*PGSIZE - dstva, ?_⟩
    unfold pagesMet npages at h2
    have hp : PGSIZE = 4096 := rfl
    rw [hp] at h1 h2 ⊢
    split_ifs at h2 <;> omega
  have hju : j < u := by
    by_contra hge
    have hle : (dstva+u)/PGSIZE ≤ v := by
      rw [← hpage]
      exact Nat.div_le_div_right (by omega)
    obtain ⟨hlow, hin⟩ := huser _ (Nat.div_le_div_right (Nat.le_add_right dstva u)) hle
    exact hu.stop (by omega) ⟨page_lt_iff.mp hlow, hin⟩
  refine ⟨j, hj, hpage, ?_⟩
  have hbyte : (m.copyout dstva src).2.byte (dstva+j) = src.getD j 0 := by
    rw [UserMem.copyout, hrun]
    dsimp only
    rw [UserMem.put_byte, List.length_take, if_pos (by omega), Nat.add_sub_cancel_left,
      List.getD_eq_getElem?_getD, List.getElem?_take_of_lt hju, List.getD_eq_getElem?_getD]
  rw [← hpage]
  exact hbyte

variable [Layout]

section Through
variable {k k' : Kernel} {p dstva : Nat} {src : List UInt8} {r : Int}

theorem Written.mappedBeside (h : Written k k' p dstva src r) :
    k'.mappedBeside [p] = k.mappedBeside [p] := by
  have hsame : SameBeside k k' [p] :=
    ⟨fun q _ => by rw [h.proc], h.kernel.kernel_pagetable,
      fun q hq => h.frame q (Kept.kernel (mem_ownedBeside hq))⟩
  exact hsame.mappedBeside

theorem cowNeed_low (hi : Inv k) (hp : p ∈ procs) (hpt : (k.proc p).pagetable ≠ 0) {len m : Nat}
    (h : m < k.cowNeed p dstva len) : dstva < MAXVA := by
  have hsize := ((hi.space p hp).map hpt).size
  have hT : TFPAGE ≤ VPAGES := by decide
  have hv : dstva/PGSIZE < npages (k.proc p).sz := by
    unfold Kernel.cowNeed at h
    cases hm : pagesMet dstva len with
    | zero =>
      rw [hm, cowNeed] at h
      omega
    | succ m =>
      rw [hm, cowNeed] at h
      split_ifs at h with hc
      · exact hc.1
      · exact hc.1
      · omega
  rw [← page_lt_iff]
  omega

/-- Bytes that all differ from what stands in the range. -/
def otherBytes (m : UserMem) (dstva len : Nat) : List UInt8 :=
  (List.range len).map fun j => m.page ((dstva+j)/PGSIZE) ((dstva+j)%PGSIZE) + 1

omit [Layout] in
theorem add_one_ne_self (x : UInt8) : x + 1 ≠ x := by
  intro h
  have hn := congrArg UInt8.toNat h
  have hlt := x.toNat_lt
  rw [UInt8.toNat_add, show (1 : UInt8).toNat = 1 from rfl] at hn
  omega

/-- Without a free page for every shared page in the way, `copyout` writes into a
page of another process. -/
theorem Written.writes_through (hi : Inv k) (hp : p ∈ procs) (hpt : (k.proc p).pagetable ≠ 0)
    (h : Written k k' p dstva src r) (hsrc : src = otherBytes (k.umem p) dstva src.length)
    (hneed : k.phys.freelist.length < k.cowNeed p dstva src.length) :
    ∃ pa ∈ k'.mappedBeside [p], k'.phys.mem pa ≠ k.phys.mem pa := by
  obtain ⟨v, h1, h2, huser, hshared, hsame⟩ := h.through hneed
  refine ⟨PTE2PA (k.map p v), by rw [h.mappedBeside]; exact hshared, fun hc => ?_⟩
  have hsize := ((hi.space p hp).map hpt).size
  have hT : TFPAGE ≤ VPAGES := by decide
  obtain ⟨j, hj, hpg, hbyte⟩ := copyout_page_byte (m := k.umem p) h1 h2 fun i hi1 hi2 => by
      obtain ⟨hin, hU⟩ := huser i hi1 hi2
      refine ⟨by omega, ?_⟩
      simp only [Kernel.umem, userMem, hU, decide_eq_true hin, Bool.and_self]
  have hv := (huser v h1 le_rfl).1
  -- The page as the process sees it, before and after.
  have hold : (k.umem p).page v = k.phys.mem (PTE2PA (k.map p v)) := if_pos hv
  have hnew : (k'.umem p).page v = k'.phys.mem (PTE2PA (k.map p v)) := by
    rw [← hsame]
    exact if_pos (by rw [h.proc]; exact hv)
  have hbyte' : (k'.umem p).page v ((dstva+j)%PGSIZE) = src.getD j 0 := by
    rw [h.mem]
    exact hbyte
  have hval : src.getD j 0 = (k.umem p).page v ((dstva+j)%PGSIZE) + 1 := by
    rw [hsrc, List.getD_eq_getElem _ _ (by simp [otherBytes]; exact hj)]
    simp only [otherBytes, List.getElem_map, List.getElem_range, hpg]
  rw [hnew, hc, ← hold, hval] at hbyte'
  exact add_one_ne_self _ hbyte'.symm

end Through

/-- In a reachable state a call of `copyout` leaves the pages of all other processes
alone, whatever it copies, exactly when there is a free page for every shared page
in the way. -/
theorem copyout_shared_pages_iff {k : Kernel} {p : Nat} (h : Reachable k) (ha : k.active p)
    (dstva len : Nat) :
    (∀ src : List UInt8, src.length = len → Ends (copyoutTo p dstva src) k fun _ k' =>
      ∀ pa ∈ k'.mappedBeside [p], k'.phys.mem pa = k.phys.mem pa) ↔
    k.cowNeed p dstva len ≤ k.phys.freelist.length := by
  obtain ⟨hi, hs⟩ := h.inv
  have hpt := hs.pagetable_ne ha
  constructor
  · intro hall
    by_contra hneed
    set src := otherBytes (k.umem p) dstva len with hsrc
    have hlen : src.length = len := by simp [hsrc, otherBytes]
    rw [not_le, ← hlen] at hneed
    obtain ⟨r, k', hrun, hw⟩ := copyoutTo_spec hi ha.1 hpt fun _ => cowNeed_low hi ha.1 hpt hneed
    obtain ⟨pa, hpa, hne⟩ := hw.writes_through hi ha.1 hpt (by rw [hlen]) hneed
    exact hne (hall src hlen r k' hrun pa hpa)
  · rintro hneed src rfl
    refine (copyoutTo_ends hi ha.1 hpt).imp ?_
    intro r k' hw pa hpa
    rw [hw.mappedBeside] at hpa
    exact hw.content hneed pa (Kept.user hpa)

theorem Sharers.cowNeed {k : Kernel} {p q : Nat} (h : Sharers k p q) : k.cowNeed p 0 1 = 1 := by
  unfold Kernel.cowNeed
  rw [h.npages, show pagesMet 0 1 = 1 by decide, show 0/PGSIZE = 0 by decide, Xv6.cowNeed,
    Xv6.cowNeed, if_pos ⟨by decide, h.user.2⟩, if_pos h.shared]

omit [Layout] in
/-- The first process has forked, and there is memory for its copy of the shared page. -/
theorem copyout_shared_pages_forked : ∃ (_ : Layout) (k : Kernel) (p : Nat),
    Reachable k ∧ k.active p ∧ PTE2PA (k.map p 0) ∈ k.mappedBeside [p] ∧
    ∀ src : List UInt8, src.length = 1 → Ends (copyoutTo p 0 src) k fun _ k' =>
      ∀ pa ∈ k'.mappedBeside [p], k'.phys.mem pa = k.phys.mem pa := by
  obtain ⟨_, k, q, hsh, hfree⟩ := exists_sharers
  have hneed := hsh.cowNeed
  exact ⟨_, k, k.initproc, hsh.reach, hsh.left, hsh.shared,
    (copyout_shared_pages_iff hsh.reach hsh.left 0 1).mpr (by omega)⟩

omit [Layout] in
/-- The first process has forked and kernel code has taken all other memory: a byte
that `copyout` writes for the parent arrives in the child. -/
theorem copyout_reaches_child : ∃ (_ : Layout) (k : Kernel) (p : Nat) (src : List UInt8),
    Reachable k ∧ k.active p ∧ k.phys.freelist = [] ∧ src.length = 1 ∧
    Runs (copyoutTo p 0 src) k fun r k' => r = 0 ∧
      ∃ pa ∈ k'.mappedBeside [p], k'.phys.mem pa ≠ k.phys.mem pa := by
  obtain ⟨_, k0, q, hsh0, -⟩ := exists_sharers
  obtain ⟨k, hr, hst, hfree⟩ := Reachable.exhaust 0 _ hsh0.reach rfl
  have hfree := List.length_eq_zero_iff.mp hfree
  have hsh := hsh0.step hr hst
  set p := k0.initproc
  have ha := hsh.left
  have hpt := hsh.pagetable
  have hi := hr.inv.1
  have hneed := hsh.cowNeed
  refine ⟨_, k, p, otherBytes (k.umem p) 0 1, hr, ha, hfree, by simp [otherBytes], ?_⟩
  refine (copyoutTo_spec hi ha.1 hpt fun _ => by decide).imp ?_
  intro r k' hw
  refine ⟨?_, hw.writes_through hi ha.1 hpt (by simp [otherBytes]) (by simp [otherBytes, hfree, hneed])⟩
  rw [hw.result, (copyout_result _ 0 _).2]
  intro i hi1
  have hi0 : i = 0 := by simpa [otherBytes] using hi1
  subst hi0
  exact ⟨by decide, hsh.user.1⟩

/-- In a reachable state `copyout` returns, with 0 exactly when all bytes of the
range are mapped for the user, unless the range starts outside the address space. -/
theorem copyout_total_iff {k : Kernel} {p : Nat} (h : Reachable k) (ha : k.active p) (dstva : Nat)
    (src : List UInt8) :
    Runs (copyoutTo p dstva src) k (fun r _ => (r = 0 ∨ r = -1) ∧
      (r = 0 ↔ ∀ i < src.length, k.userByte p ((dstva+i) % 2^64))) ↔
    src = [] ∨ dstva < MAXVA := by
  obtain ⟨hi, hs⟩ := h.inv
  have hpt := hs.pagetable_ne ha
  constructor
  · intro hrun
    by_contra hc
    push Not at hc
    exact not_runs_of_panic (copyoutTo_panics hc.1 hc.2) hrun
  · intro hc
    refine (copyoutTo_spec hi ha.1 hpt fun hne => hc.resolve_left hne).imp ?_
    intro r k' hw
    obtain ⟨hor, hiff⟩ := copyout_result (k.umem p) dstva src
    rw [hw.result]
    refine ⟨hor, hiff.trans ⟨fun hall i hi1 => ?_, fun hall i hi1 => ?_⟩⟩
    · have hb := hall i hi1
      rw [Nat.mod_eq_of_lt (hb.1.trans (by decide)), userByte_iff hi ha.1 hpt]
      exact hb
    · -- A range that wraps around would have passed `MAXVA` before.
      have hlt : dstva < MAXVA := hc.resolve_left (by rintro rfl; simp at hi1)
      have hM : MAXVA < 2^64 := by decide
      have hno : dstva + i < MAXVA := by
        by_contra hge
        have hb := hall (MAXVA-dstva) (by omega)
        rw [show dstva + (MAXVA-dstva) = MAXVA by omega, Nat.mod_eq_of_lt hM,
          userByte_iff hi ha.1 hpt] at hb
        exact absurd hb.1 (lt_irrefl _)
      have hb := hall i hi1
      rwa [Nat.mod_eq_of_lt (by omega), userByte_iff hi ha.1 hpt] at hb

omit [Layout] in
/-- The first process asks for one byte at `MAXVA`. -/
theorem copyout_panics_at_maxva : ∃ (_ : Layout) (k : Kernel) (p : Nat),
    Reachable k ∧ k.active p ∧ copyoutTo p MAXVA [0] k = .error "walk" := by
  let _ := sampleLayout
  obtain ⟨k, hb, hk⟩ := exists_booted
  exact ⟨_, k, k.initproc, Reachable.boot hb, hk.active, copyoutTo_panics (by simp) le_rfl⟩

omit [Layout] in
theorem copyout_total_at_boot : ∃ (_ : Layout) (k : Kernel) (p : Nat), Reachable k ∧ k.active p ∧
    Runs (copyoutTo p 0 [0]) k fun r _ => (r = 0 ∨ r = -1) ∧
      (r = 0 ↔ ∀ i < [(0 : UInt8)].length, k.userByte p ((0+i) % 2^64)) := by
  let _ := sampleLayout
  obtain ⟨k, hb, hk⟩ := exists_booted
  have hr := Reachable.boot hb
  exact ⟨_, k, k.initproc, hr, hk.active,
    (copyout_total_iff hr hk.active 0 [0]).mpr (Or.inr (by decide))⟩

end Xv6
