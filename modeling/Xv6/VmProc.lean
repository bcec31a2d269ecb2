import Xv6.VmCow

/-! `proc_pagetable` and `proc_freepagetable` of `kernel/proc.c`: the page table
of a process, with the trapframe and the trampoline at its top. -/
namespace Xv6

open Function
variable [Layout]

def proc_pagetable (trapframe : Nat) : Prog Phys (Option Nat) := do
  match ← uvmcreate with
  | none => pure none
  | some pagetable =>
    let r ← mappages pagetable TRAMPOLINE PGSIZE Layout.trampoline (PTE_R ||| PTE_X)
    if r < 0 then
      uvmfree pagetable 0
      pure none
    else
      let r ← mappages pagetable TRAPFRAME PGSIZE trapframe (PTE_R ||| PTE_W)
      if r < 0 then
        uvmunmap pagetable TRAMPOLINE 1 false
        uvmfree pagetable 0
        pure none
      else
        pure (some pagetable)

def proc_freepagetable (pagetable sz : Nat) : Prog Phys Unit := do
  uvmunmap pagetable TRAMPOLINE 1 false
  uvmunmap pagetable TRAPFRAME 1 false
  uvmfree pagetable sz

/-- The map of a process with `n` user pages and trapframe page `tf`. -/
structure UserMap (f : Nat → Pte) (n tf : Nat) : Prop where
  size : n ≤ TFPAGE
  user : ∀ k < n, UserPte (f k)
  gap : ∀ k, n ≤ k → k < TFPAGE → f k = 0
  trapframe : f TFPAGE = mapWord tf (PTE_R ||| PTE_W)
  trampoline : f (TFPAGE+1) = mapWord Layout.trampoline (PTE_R ||| PTE_X)
  top : ∀ k, VPAGES ≤ k → k < 2*VPAGES → f k = 0

omit [Layout] in
theorem TRAMPOLINE_eq : TRAMPOLINE = (TFPAGE+1)*PGSIZE := by decide

omit [Layout] in
theorem TRAPFRAME_eq : TRAPFRAME = TFPAGE*PGSIZE := by decide

theorem Managed.ne_zero {pa : Nat} (h : Managed pa) : pa ≠ 0 := by
  have h1 := Layout.tramp_ge
  have h2 := Layout.tramp_lt
  have h3 := h.2.1
  have h4 : 0 < KERNBASE := by decide
  omega

section
omit [Layout]

/-- A mapping the kernel makes with `PTE_R` is a leaf that user code cannot use. -/
theorem kernel_leaf (pa : Nat) {perm : Pte} (hR : perm.getLsbD 1 = true)
    (hU : perm.getLsbD 4 = false) (hC : perm.getLsbD 8 = false) :
    Leaf (mapWord pa perm) ∧ (mapWord pa perm).has PTE_U = false ∧
      (mapWord pa perm).has PTE_COW = false := by
  refine ⟨leaf_of_r ?_ ?_, ?_, ?_⟩
  · rw [has_V, mapWord_bit perm 0 (by decide)]
    simp
  · rw [has_R, mapWord_bit perm 1 (by decide), hR]
    rfl
  · rw [has_U, mapWord_bit perm 4 (by decide), hU]
    rfl
  · rw [has_COW, mapWord_bit perm 8 (by decide), hC]
    rfl

theorem trapframe_leaf (tf : Nat) : Leaf (mapWord tf (PTE_R ||| PTE_W)) ∧
    (mapWord tf (PTE_R ||| PTE_W)).has PTE_U = false ∧
    (mapWord tf (PTE_R ||| PTE_W)).has PTE_COW = false :=
  kernel_leaf tf (by decide) (by decide) (by decide)

theorem trampoline_leaf (pa : Nat) : Leaf (mapWord pa (PTE_R ||| PTE_X)) ∧
    (mapWord pa (PTE_R ||| PTE_X)).has PTE_U = false ∧
    (mapWord pa (PTE_R ||| PTE_X)).has PTE_COW = false :=
  kernel_leaf pa (by decide) (by decide) (by decide)

end

section Facts
variable {f : Nat → Pte} {n tf : Nat}

/-- Only the pages below the size are user pages or marked for copy-on-write. -/
theorem UserMap.above (h : UserMap f n tf) {k : Nat} (hk : n ≤ k) (hk' : k < 2*VPAGES) :
    (f k).has PTE_U = false ∧ (f k).has PTE_COW = false := by
  have hz : (0 : Pte).has PTE_U = false ∧ (0 : Pte).has PTE_COW = false := by decide
  have hT : TFPAGE+2 = VPAGES := by decide
  rcases Nat.lt_or_ge k TFPAGE with h1 | h1
  · rw [h.gap k hk h1]
    exact hz
  rcases Nat.lt_or_ge k VPAGES with h2 | h2
  · obtain rfl | rfl : k = TFPAGE ∨ k = TFPAGE+1 := by omega
    · rw [h.trapframe]
      exact (trapframe_leaf tf).2
    · rw [h.trampoline]
      exact (trampoline_leaf _).2
  · rw [h.top k h2 hk']
    exact hz

theorem UserMap.resize (h : UserMap f n tf) {g : Nat → Pte} {m : Nat} (hm : m ≤ TFPAGE)
    (hu : ∀ k < m, UserPte (g k)) (hz : ∀ k, m ≤ k → k < TFPAGE → g k = 0)
    (hr : ∀ k, TFPAGE ≤ k → g k = f k) : UserMap g m tf where
  size := hm
  user := hu
  gap := hz
  trapframe := by rw [hr _ le_rfl]; exact h.trapframe
  trampoline := by rw [hr _ (by omega)]; exact h.trampoline
  top k h1 h2 := by
    have hT : TFPAGE ≤ VPAGES := by decide
    rw [hr k (by omega)]
    exact h.top k h1 h2

theorem UserMap.updated (h : UserMap f n tf) {v : Nat} (hv : v < n) {w : Pte} (hw : UserPte w) :
    UserMap (update f v w) n tf := by
  have hs := h.size
  apply h.resize hs
  · intro k hk
    by_cases hkv : k = v
    · subst hkv
      rwa [update_self]
    · rw [update_of_ne hkv]
      exact h.user k hk
  · intro k h1 h2
    rw [update_of_ne (by omega)]
    exact h.gap k h1 h2
  · intro k hk
    rw [update_of_ne (by omega)]

end Facts

section Specs
variable {s : Phys} {F U : List Nat} {f : Nat → Pte} {pt tf : Nat}

theorem uvmcreate_spec (h : Ledger s F U) :
    Runs uvmcreate s fun r s' => Frame s s' F U ∧ match r with
      | none => s' = s ∧ s.freelist = []
      | some pt => s.freelist = pt :: s'.freelist ∧ Managed pt ∧ Maps s' pt (fun _ => 0) F U := by
  unfold uvmcreate
  refine (kalloc_spec h).bind ?_
  intro r s1 hr
  cases r with
  | none =>
    obtain ⟨rfl, hf⟩ := hr
    exact (runs_pure _).mpr ⟨fun _ _ => rfl, rfl, hf⟩
  | some pt =>
    obtain ⟨hf, hmem, hl⟩ := hr
    have hz : (s1.setPage pt fun _ => 0).mem pt = fun _ => 0 := by
      rw [setPage_mem, update_self]
    simp only [memsetPage, runs_bind, runs_modify, runs_pure]
    refine ⟨fun q hq => ?_, hf, hl.managed pt (Or.inl (by simp)), ?_, (zero_table hz).2.1,
      fun v _ => (zero_table hz).2.2 _⟩
    · have hne : q ≠ pt := hl.kept_ne (T := [pt]) (by simp) hq
      rw [setPage_mem, update_of_ne hne, hmem, update_of_ne hne]
    · rw [(zero_table hz).1]
      exact hl.of_mem _

theorem uvmfree_empty (h : Maps s pt (fun _ => 0) F U) :
    Runs (uvmfree pt 0) s fun _ s' => Ledger s' F U ∧ Frame s s' F U := by
  have h0 : npages 0 = 0 := by decide
  apply uvmfree_spec (by decide) (by rw [h0]; decide)
  · rw [h0]
    simpa [pagesOf] using h
  · rw [h0]
    intro k hk
    omega
  · exact fun _ _ _ => rfl

/-- `proc_pagetable` makes the map of a process without user memory, or leaves
no trace. -/
theorem proc_pagetable_spec (tf : Nat) (h : Ledger s F U) :
    Runs (proc_pagetable tf) s fun r s' => Frame s s' F U ∧ match r with
      | none => Ledger s' F U ∧ s.freelist.length ≤ 3
      | some pt => Managed pt ∧ s.freelist.length ≤ s'.freelist.length + 3 ∧
          ∃ f, Maps s' pt f F U ∧ UserMap f 0 tf := by
  unfold proc_pagetable
  refine (uvmcreate_spec h).bind ?_
  rintro r s1 ⟨hfr1, hr⟩
  cases r with
  | none =>
    obtain ⟨rfl, hf⟩ := hr
    exact (runs_pure _).mpr ⟨hfr1, h, by rw [hf]; simp⟩
  | some pt =>
    obtain ⟨hf, hman, h1⟩ := hr
    have hlen : s.freelist.length = s1.freelist.length + 1 := by rw [hf]; rfl
    dsimp only
    rw [TRAMPOLINE_eq, TRAPFRAME_eq]
    refine (mappages_spec Layout.trampoline (PTE_R ||| PTE_X) h1 (v := TFPAGE+1) (by decide)
      (by decide)).bind ?_
    rintro r s2 ⟨hfr2, -, hused2, hcase2, -⟩
    rw [runs_ite]
    constructor
    · intro hr
      obtain ⟨hempty, h2⟩ : s2.freelist = [] ∧ Maps s2 pt (fun _ => 0) F U := by
        rcases hcase2 with ⟨rfl, -⟩ | ⟨-, hc⟩
        · exact absurd hr (by decide)
        · exact hc
      refine (uvmfree_empty h2).bind ?_
      rintro _ s' ⟨hl, hfr⟩
      rw [hempty, List.length_nil] at hused2
      exact (runs_pure _).mpr ⟨(hfr1.trans hfr2).trans hfr, hl, by omega⟩
    · intro hr
      have h2 : Maps s2 pt (update (fun _ => 0) (TFPAGE+1)
          (mapWord Layout.trampoline (PTE_R ||| PTE_X))) F U := by
        rcases hcase2 with ⟨-, hc⟩ | ⟨rfl, -⟩
        · exact hc
        · exact absurd (by decide) hr
      have hne : TFPAGE ≠ TFPAGE+1 := by omega
      -- The trampoline is in the same table, so there is a slot for the trapframe.
      obtain ⟨slot, hl, -⟩ := h2.slot_of_ne_zero (v := TFPAGE+1) (by decide)
        (by rw [update_self]; exact (trampoline_leaf _).1.ne_zero)
      obtain ⟨slot', hl'⟩ := lookup_neighbour (w := TFPAGE) (by decide) hl
      refine (mappages_spec tf (PTE_R ||| PTE_W) h2 (v := TFPAGE) (by decide)
        (by rw [update_of_ne hne]; decide)).bind ?_
      rintro r s3 ⟨hfr3, -, -, hcase3, hsame⟩
      obtain ⟨rfl, hfree3, -⟩ := hsame slot' hl'
      have h3 := hcase3.resolve_right fun hc => absurd hc.1 (by decide)
      rw [if_neg (by decide), runs_pure, hfree3]
      refine ⟨(hfr1.trans hfr2).trans hfr3, hman, by omega, _, h3.2, ?_⟩
      exact {
        size := Nat.zero_le _
        user := fun k hk => by omega
        gap := fun k _ hk => by
          rw [update_of_ne (by omega), update_of_ne (by omega)]
        trapframe := update_self _ _ _
        trampoline := by
          rw [update_of_ne (by omega), update_self]
        top := fun k hk _ => by
          have hT : TFPAGE+2 = VPAGES := by decide
          rw [update_of_ne (by omega), update_of_ne (by omega)] }

/-- `proc_freepagetable` gives back the table and the user pages. -/
theorem proc_freepagetable_spec {sz : Nat} (hsz : sz < 2^63) (hu : UserMap f (npages sz) tf)
    (h : Maps s pt f F (pagesOf f 0 (npages sz) ++ U)) :
    Runs (proc_freepagetable pt sz) s fun _ s' => Ledger s' F U ∧ Frame s s' F U := by
  have hsize := hu.size
  have hT : TFPAGE+2 = VPAGES := by decide
  unfold proc_freepagetable
  rw [TRAMPOLINE_eq, TRAPFRAME_eq]
  refine (uvmunmap_keep_spec h (v := TFPAGE+1) (by omega)
    (by rw [hu.trampoline]; exact (trampoline_leaf _).1)).bind ?_
  rintro _ s1 ⟨h1, hfr1, -⟩
  refine (uvmunmap_keep_spec h1 (v := TFPAGE) (by omega)
    (by rw [update_of_ne (by omega), hu.trapframe]; exact (trapframe_leaf _).1)).bind ?_
  rintro _ s2 ⟨h2, hfr2, -⟩
  set g := update (update f (TFPAGE+1) 0) TFPAGE 0 with hg
  have hlow (k : Nat) (hk : k < TFPAGE) : g k = f k := by
    rw [hg, update_of_ne (by omega), update_of_ne (by omega)]
  have hpages : pagesOf f 0 (npages sz) = pagesOf g 0 (npages sz) :=
    pagesOf_congr fun k _ hk => (hlow k (by omega)).symm
  rw [hpages] at h2
  refine (uvmfree_spec hsz (by omega) h2 ?_ ?_).imp ?_
  · intro k hk
    rw [hlow k (by omega)]
    exact (hu.user k hk).leaf
  · intro k hk hk'
    rcases Nat.lt_or_ge k TFPAGE with hlt | hge
    · rw [hlow k hlt]
      exact hu.gap k hk hlt
    · rcases Nat.lt_or_ge k VPAGES with hlt | hge'
      · obtain rfl | rfl : k = TFPAGE ∨ k = TFPAGE+1 := by omega
        · rw [hg, update_self]
        · rw [hg, update_of_ne (by omega), update_self]
      · rw [hg, update_of_ne (by omega), update_of_ne (by omega)]
        exact hu.top k hge' hk'
  · rintro _ s' ⟨hl, hfr⟩
    refine ⟨hl, fun q hq => ?_⟩
    have hq' := hq.mono (List.Subset.refl F) (List.subset_append_right (pagesOf f 0 (npages sz)) U)
    rw [hfr q hq, hfr2 q hq', hfr1 q hq']

end Specs

end Xv6
