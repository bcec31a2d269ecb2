import Xv6.VmGrow

/-! `freewalk` and `uvmfree`: a page table without leaves is given back page by
page, and nothing else is touched. -/
namespace Xv6

def Bare (m : Nat → Bytes) : Nat → Nat → Prop
  | 0, pt => ∀ i < 512, (loadPte m pt i).has PTE_V = false
  | l+1, pt => ∀ i < 512, ∀ c, childOf m pt i = some c →
      (loadPte m pt i).has (PTE_R ||| PTE_W ||| PTE_X) = false ∧ Bare m l c

section Shape
variable {m m' : Nat → Bytes} {l pt : Nat}

theorem bare_congr (h : ∀ q ∈ tables m l pt, m' q = m q) (hb : Bare m l pt) : Bare m' l pt := by
  induction l generalizing pt with
  | zero =>
    intro i hi
    rw [loadPte_congr (h pt mem_tables_self)]
    exact hb i hi
  | succ l ih =>
    have hpt : m' pt = m pt := h pt mem_tables_self
    intro i hi c hc
    rw [childOf_congr hpt] at hc
    obtain ⟨hw, hsub⟩ := hb i hi c hc
    refine ⟨by rw [loadPte_congr hpt]; exact hw, ih (fun q hq => h q ?_) hsub⟩
    exact below_subset hi q (by rw [below_some hc]; exact hq)

theorem pteAt_congr_index {va va' : Nat} (h : ∀ k ≤ l, PX k va = PX k va') :
    pteAt m l pt va = pteAt m l pt va' := by
  have hl : lookup m l pt va = lookup m l pt va' := by
    induction l generalizing pt with
    | zero => simp only [lookup, h 0 le_rfl]
    | succ l ih =>
      simp only [lookup, h (l+1) le_rfl]
      cases childOf m pt (PX (l+1) va') with
      | none => rfl
      | some c => exact ih fun k hk => h k (by omega)
  unfold pteAt
  rw [hl]

theorem PX_top (i va : Nat) (hi : i < 512) (hva : va < 2^(12+9*(l+1))) :
    PX (l+1) (i*2^(12+9*(l+1)) + va) = i ∧ ∀ k ≤ l, PX k (i*2^(12+9*(l+1)) + va) = PX k va := by
  constructor
  · rw [PX_eq, mul_comm, Nat.mul_add_div (by positivity), Nat.div_eq_of_lt hva, Nat.add_zero,
      Nat.mod_eq_of_lt hi]
  · intro k hk
    have hsplit : i*2^(12+9*(l+1)) = 2^(12+9*k) * (512 * (i*2^(9*(l-k)))) := by
      rw [show 12+9*(l+1) = (12+9*k) + 9 + 9*(l-k) by omega, pow_add, pow_add]
      ring
    rw [PX_eq, PX_eq, hsplit, Nat.mul_add_div (by positivity), Nat.mul_add_mod]

/-- Links and invalid entries are all there is in a table that maps nothing. -/
theorem bare_of_invalid (hL : Linked m l pt)
    (hz : ∀ va < 2^(12+9*(l+1)), (pteAt m l pt va).has PTE_V = false) : Bare m l pt := by
  induction l generalizing pt with
  | zero =>
    intro i hi
    have hp := hz (i*2^12) (by norm_num; omega)
    have hi0 : PX 0 (i*2^12) = i := by
      rw [PX_eq, Nat.mul_div_cancel _ (by norm_num), Nat.mod_eq_of_lt hi]
    simp only [pteAt, lookup, hi0] at hp
    exact hp
  | succ l ih =>
    intro i hi c hc
    obtain ⟨hw, hsub⟩ := hL i hi c hc
    refine ⟨hw, ih hsub ?_⟩
    intro va hva
    obtain ⟨htop, hlow⟩ := PX_top i va hi hva
    rw [← pteAt_congr_index hlow, ← pteAt_succ_some (by rw [htop]; exact hc)]
    apply hz
    have hpow : 2^(12+9*(l+1+1)) = 512*2^(12+9*(l+1)) := by
      rw [show 12+9*(l+1+1) = 9+(12+9*(l+1)) by omega, pow_add, show (2:Nat)^9 = 512 by norm_num]
    calc i*2^(12+9*(l+1)) + va < i*2^(12+9*(l+1)) + 2^(12+9*(l+1)) := Nat.add_lt_add_left hva _
      _ = (i+1)*2^(12+9*(l+1)) := (Nat.succ_mul _ _).symm
      _ ≤ 512*2^(12+9*(l+1)) := Nat.mul_le_mul_right _ (by omega)
      _ = 2^(12+9*(l+1+1)) := hpow.symm

end Shape

variable [Layout]

section Walk
variable {s : Phys} {F U : List Nat} {l pt : Nat}

omit [Layout] in
/-- On a table page without valid entries the loop changes nothing. -/
theorem freewalkLoop_leafless (free : Nat → Prog Phys Unit) (is : List Nat)
    (h : ∀ i ∈ is, (loadPte s.mem pt i).has PTE_V = false) :
    Runs (freewalkLoop free pt is) s fun _ s' => s' = s := by
  induction is with
  | nil => exact (runs_pure _).mpr rfl
  | cons i is ih =>
    have hi := h i (by simp)
    unfold freewalkLoop
    simp only [runs_bind, runs_get, hi, Bool.false_eq_true, false_and, if_false, runs_panicIf]
    exact ⟨by simp, ih fun j hj => h j (List.mem_cons_of_mem _ hj)⟩

/-- The loop over the entries `is` of a table page of level `l+1`, given what
freeing one child does. -/
theorem freewalkLoop_spec {free : Nat → Prog Phys Unit}
    (hfree : ∀ (s : Phys) (c : Nat) (F : List Nat), Ledger s (tables s.mem l c ++ F) U →
      Bare s.mem l c → Runs (free c) s fun _ s' => Ledger s' F U ∧ Frame s s' F U)
    (is : List Nat) : ∀ s : Phys, (∀ i ∈ is, i < 512) → is.Nodup →
    Ledger s (pt :: is.flatMap (below s.mem l pt) ++ F) U →
    (∀ i ∈ is, ∀ c, childOf s.mem pt i = some c →
      (loadPte s.mem pt i).has (PTE_R ||| PTE_W ||| PTE_X) = false ∧ Bare s.mem l c) →
    Runs (freewalkLoop free pt is) s fun _ s' => Ledger s' (pt :: F) U ∧ Frame s s' F U := by
  induction is with
  | nil =>
    intro s _ _ h _
    exact (runs_pure _).mpr ⟨by simpa using h, fun _ _ => rfl⟩
  | cons i is ih =>
    intro s hlt hnd h hbare
    obtain ⟨hi, hnd'⟩ := List.nodup_cons.mp hnd
    have hlt' : ∀ j ∈ is, j < 512 := fun j hj => hlt j (List.mem_cons_of_mem _ hj)
    unfold freewalkLoop
    simp only [runs_bind, runs_get]
    cases hc : childOf s.mem pt i with
    | none =>
      have hv : (loadPte s.mem pt i).has PTE_V = false := by
        unfold childOf at hc
        split_ifs at hc with hv
        exact Bool.eq_false_iff.mpr hv
      rw [List.flatMap_cons, below_none hc, List.nil_append] at h
      simp only [hv, Bool.false_eq_true, false_and, if_false, runs_bind, runs_panicIf]
      exact ⟨by simp, ih s hlt' hnd' h fun j hj => hbare j (List.mem_cons_of_mem _ hj)⟩
    | some c =>
      obtain ⟨hrwx, hb⟩ := hbare i (by simp) c hc
      have hv : (loadPte s.mem pt i).has PTE_V = true ∧ PTE2PA (loadPte s.mem pt i) = c := by
        unfold childOf at hc
        split_ifs at hc with hv
        exact ⟨hv, Option.some.inj hc⟩
      rw [List.flatMap_cons, below_some hc] at h
      have hperm : (pt :: (tables s.mem l c ++ is.flatMap (below s.mem l pt)) ++ F).Perm
          (tables s.mem l c ++ (pt :: is.flatMap (below s.mem l pt) ++ F)) := by
        rw [List.cons_append, List.append_assoc, List.cons_append]
        exact List.perm_middle.symm
      have h0 := h.perm hperm (List.Perm.refl _)
      rw [if_pos ⟨hv.1, by simp [hrwx]⟩, hv.2, runs_bind]
      refine (hfree s c _ h0 hb).imp ?_
      rintro _ s1 ⟨h1, hfr⟩
      rw [runs_bind]
      simp only [storePte, runs_modify]
      -- Clearing entry `i` leaves the subtrees of the entries still to come.
      have hptn : pt ∉ is.flatMap (below s.mem l pt) := fun hin =>
        (List.nodup_cons.mp h1.nodup).1 (List.mem_append_left _ hin)
      have hkeep (q : Nat) (hq : q ∈ is.flatMap (below s.mem l pt)) :
          setPte s1.mem (pt, i) 0 q = s.mem q := by
        rw [setPte_of_ne (by rintro rfl; exact hptn hq)]
        exact hfr q (Kept.kernel (by simp [hq]))
      have hload (j : Nat) (hj : j ∈ is) :
          loadPte (setPte s1.mem (pt, i) 0) pt j = loadPte s.mem pt j := by
        rw [loadPte_setPte_ne (by rintro ⟨⟩; exact hi hj)]
        exact loadPte_congr (hfr pt (Kept.kernel (by simp)))
      have hchild (j : Nat) (hj : j ∈ is) :
          childOf (setPte s1.mem (pt, i) 0) pt j = childOf s.mem pt j := by
        unfold childOf
        rw [hload j hj]
      have hsub (j d : Nat) (hj : j ∈ is) (hd : childOf s.mem pt j = some d) :
          ∀ q ∈ tables s.mem l d, setPte s1.mem (pt, i) 0 q = s.mem q := by
        intro q hq
        exact hkeep q (List.mem_flatMap.mpr ⟨j, hj, by rw [below_some hd]; exact hq⟩)
      have hbelow (j : Nat) (hj : j ∈ is) :
          below (setPte s1.mem (pt, i) 0) l pt j = below s.mem l pt j := by
        cases hd : childOf s.mem pt j with
        | none => rw [below_none hd, below_none ((hchild j hj).trans hd)]
        | some d =>
          rw [below_some hd, below_some ((hchild j hj).trans hd)]
          exact tables_congr (hsub j d hj hd)
      refine (ih _ hlt' hnd' ?_ ?_).imp ?_
      · change Ledger _ (pt :: is.flatMap (below (setPte s1.mem (pt, i) 0) l pt) ++ F) U
        rw [List.flatMap_congr hbelow]
        exact h1.of_mem _
      · intro j hj d hd
        change childOf (setPte s1.mem (pt, i) 0) pt j = some d at hd
        change (loadPte (setPte s1.mem (pt, i) 0) pt j).has _ = false ∧
          Bare (setPte s1.mem (pt, i) 0) l d
        rw [hchild j hj] at hd
        obtain ⟨hw, hbd⟩ := hbare j (List.mem_cons_of_mem _ hj) d hd
        exact ⟨by rw [hload j hj]; exact hw, bare_congr (hsub j d hj hd) hbd⟩
      · rintro _ s' ⟨hl', hfr'⟩
        refine ⟨hl', fun q hq => ?_⟩
        have hqpt : q ≠ pt :=
          h1.kept_ne (T := pt :: is.flatMap (below s.mem l pt)) (by simp) hq
        rw [hfr' q hq]
        change setPte s1.mem (pt, i) 0 q = s.mem q
        rw [setPte_of_ne hqpt]
        exact hfr q (hq.mono (List.subset_append_right _ _) (List.Subset.refl _))

theorem freewalkDepth_spec (l : Nat) : ∀ (s : Phys) (pt : Nat) (F : List Nat),
    Ledger s (tables s.mem l pt ++ F) U → Bare s.mem l pt →
    Runs (freewalkDepth (l+1) pt) s fun _ s' => Ledger s' F U ∧ Frame s s' F U := by
  -- The table page itself, once the loop has freed what is below it.
  have hlast (s : Phys) (pt : Nat) (F : List Nat) (h : Ledger s (pt :: F) U) :
      Runs (kfree pt) s fun _ s' => Ledger s' F U ∧ Frame s s' F U := by
    refine (kfree_kernel h).imp ?_
    rintro _ s' ⟨h', hm, -⟩
    refine ⟨h', fun q hq => ?_⟩
    rw [hm, Function.update_of_ne (h.kept_ne (T := [pt]) (by simp) hq)]
  induction l with
  | zero =>
    intro s pt F h hb
    unfold freewalkDepth
    refine (freewalkLoop_leafless _ _ fun i hi => hb i (mem_indices.mp hi)).bind ?_
    rintro _ s1 rfl
    exact hlast s1 pt F h
  | succ l ih =>
    intro s pt F h hb
    unfold freewalkDepth
    refine (freewalkLoop_spec ih indices s (fun i hi => mem_indices.mp hi) indices_nodup h
      fun i hi => hb i (mem_indices.mp hi)).bind ?_
    rintro _ s1 ⟨h1, hfr1⟩
    refine (hlast s1 pt F h1).imp ?_
    rintro _ s' ⟨h', hfr'⟩
    exact ⟨h', hfr1.trans hfr'⟩

end Walk

section Free
variable {s : Phys} {pt : Nat} {f : Nat → Pte} {F U : List Nat}

theorem freewalk_invalid_spec (h : Maps s pt f F U)
    (hz : ∀ k < 2*VPAGES, (f k).has PTE_V = false) :
    Runs (freewalk pt) s fun _ s' => Ledger s' F U ∧ Frame s s' F U := by
  refine freewalkDepth_spec 2 s pt F h.ledger (bare_of_invalid h.linked ?_)
  intro va hva
  have hk : va / PGSIZE < 2*VPAGES := by
    have hV : VPAGES = 2^26 := by decide
    rw [hV]
    simp only [PGSIZE]
    norm_num at hva ⊢
    omega
  rw [pteAt_of_same_page (page_div (va / PGSIZE)).symm, h.pte _ hk]
  exact hz _ hk

theorem freewalk_spec (h : Maps s pt f F U) (hz : ∀ k < 2*VPAGES, f k = 0) :
    Runs (freewalk pt) s fun _ s' => Ledger s' F U ∧ Frame s s' F U := by
  apply freewalk_invalid_spec h
  intro k hk
  rw [hz k hk]
  decide

theorem uvmfree_spec {sz : Nat} (hsz : sz < 2^63) (hn : npages sz ≤ VPAGES)
    (h : Maps s pt f F (pagesOf f 0 (npages sz) ++ U)) (hleaf : ∀ k < npages sz, Leaf (f k))
    (hz : ∀ k, npages sz ≤ k → k < 2*VPAGES → f k = 0) :
    Runs (uvmfree pt sz) s fun _ s' => Ledger s' F U ∧ Frame s s' F U := by
  have hdrop (k : Nat) (hk : k < 2*VPAGES) : dropRange f 0 (npages sz) k = 0 := by
    simp only [dropRange]
    by_cases hr : 0 ≤ k ∧ k < 0 + npages sz
    · rw [if_pos hr]
    · rw [if_neg hr]
      exact hz k (by omega) hk
  have hrest (s1 : Phys) (hu : Unmapped s pt f F U 0 (npages sz) s1) :
      Runs (freewalk pt) s1 fun _ s' => Ledger s' F U ∧ Frame s s' F U := by
    refine (freewalk_spec hu.maps hdrop).imp ?_
    rintro _ s' ⟨h', hfr⟩
    exact ⟨h', hu.frame.trans hfr⟩
  unfold uvmfree
  dsimp only
  rw [runs_ite, runs_bind, PGROUNDUP_eq hsz, page_div]
  constructor
  · intro _
    have hu := uvmunmap_free_spec (npages sz) s 0 f h (by omega) fun k _ hk => hleaf k (by omega)
    rw [Nat.zero_mul] at hu
    exact hu.imp fun _ s1 => hrest s1
  · intro hs
    have h0 : npages sz = 0 := by
      simp only [npages, PGSIZE]
      omega
    apply hrest
    rw [h0] at h ⊢
    exact Unmapped.refl (by simpa [pagesOf] using h) 0

end Free

end Xv6
