import Xv6.PageTable

/-! What storing an entry does to a page table, and what `walk` with `alloc`
does: it may add table pages, and changes the entry of no address. -/
namespace Xv6

open Function

section Store
variable {m m' : Nat → Bytes} {l pt i va va' q j : Nat} {w : Pte}

theorem loadPte_setPte_same : loadPte (setPte m (q, j) w) q j = w := by
  unfold loadPte setPte
  rw [update_self, leGet_leSet_same]
  apply BitVec.eq_of_toNat_eq
  have := w.isLt
  rw [BitVec.toNat_ofNat]
  omega

theorem loadPte_setPte_ne (h : (pt, i) ≠ (q, j)) :
    loadPte (setPte m (q, j) w) pt i = loadPte m pt i := by
  unfold loadPte setPte
  by_cases hp : pt = q
  · subst hp
    have hij : i ≠ j := fun he => h (by rw [he])
    rw [update_self, leGet_leSet_of_disjoint _ _ _ _ _ _ (by omega)]
  · rw [update_of_ne hp]

theorem setPte_of_ne {p : Nat} (h : p ≠ q) : setPte m (q, j) w p = m p :=
  update_of_ne h _ _

theorem pteAt_succ_some {c : Nat} (h : childOf m pt (PX (l+1) va) = some c) :
    pteAt m (l+1) pt va = pteAt m l c va := by
  unfold pteAt
  simp only [lookup, h, Option.bind_some]

theorem pteAt_succ_none (h : childOf m pt (PX (l+1) va) = none) : pteAt m (l+1) pt va = 0 := by
  unfold pteAt
  simp only [lookup, h, Option.bind_none]

theorem below_subset_others (hij : i ≠ j) (hj : j < 512) :
    ∀ p ∈ below m l pt j, p ∈ others m l pt i := by
  intro p hp
  exact List.mem_flatMap.mpr
    ⟨j, (List.mem_erase_of_ne (Ne.symm hij)).mpr (mem_indices.mpr hj), hp⟩

/-- In a table without sharing, the pages below one entry are neither the table
page itself nor pages below another entry. -/
theorem below_apart (hn : (tables m (l+1) pt).Nodup) (hi : i < 512) (hq : q ∈ below m l pt i) :
    q ≠ pt ∧ q ∉ others m l pt i := by
  have hs := (tables_split hi).nodup_iff.mp hn
  have hd := (List.nodup_append.mp hs).2.2 q hq
  constructor
  · exact hd pt (by simp)
  · intro ho
    exact hd q (by simp [ho]) rfl

/-- Changing the content of the last table page on the way to `va` moves no
table and no entry. -/
theorem leaf_page_frame (hn : (tables m l pt).Nodup) (hl : lookup m l pt va = some (q, j))
    (hm : ∀ p, p ≠ q → m' p = m p) :
    tables m' l pt = tables m l pt ∧ (∀ va', lookup m' l pt va' = lookup m l pt va') ∧
      (Linked m l pt → Linked m' l pt) := by
  induction l generalizing pt with
  | zero => exact ⟨rfl, fun _ => rfl, fun _ => trivial⟩
  | succ l ih =>
    have hi := PX_lt (l+1) va
    simp only [lookup, Option.bind_eq_some_iff] at hl
    obtain ⟨c, hc, hl⟩ := hl
    have hbe := below_some (l := l) hc
    have hqb : q ∈ below m l pt (PX (l+1) va) := hbe ▸ (lookup_mem hl).1
    obtain ⟨hqpt, hqo⟩ := below_apart hn hi hqb
    have hpt : m' pt = m pt := hm pt (Ne.symm hqpt)
    have hnc : (tables m l c).Nodup := by
      rw [← hbe]
      exact (List.nodup_append.mp ((tables_split hi).nodup_iff.mp hn)).1
    obtain ⟨ht, hlk, hln⟩ := ih hnc hl
    -- The subtree on the way to `va` by induction, all others by `tables_congr`.
    have hsub (k : Nat) (hk : k < 512) (c' : Nat) (hc' : childOf m pt k = some c') :
        tables m' l c' = tables m l c' ∧ (∀ va', lookup m' l c' va' = lookup m l c' va') ∧
          (Linked m l c' → Linked m' l c') := by
      by_cases hki : PX (l+1) va = k
      · subst hki
        rw [hc] at hc'
        obtain rfl := Option.some.inj hc'
        exact ⟨ht, hlk, hln⟩
      · have hfix : ∀ p ∈ tables m l c', m' p = m p := by
          intro p hp
          apply hm
          rintro rfl
          exact hqo (below_subset_others hki hk p (by rw [below_some hc']; exact hp))
        exact ⟨tables_congr hfix, lookup_congr hfix, linked_congr hfix⟩
    refine ⟨?_, ?_, ?_⟩
    · rw [tables_succ, tables_succ]
      have hbelow (k : Nat) (hk : k ∈ indices) : below m' l pt k = below m l pt k := by
        cases hck : childOf m pt k with
        | none => rw [below_none hck, below_none ((childOf_congr hpt).trans hck)]
        | some c' =>
          rw [below_some hck, below_some ((childOf_congr hpt).trans hck)]
          exact (hsub k (mem_indices.mp hk) c' hck).1
      rw [List.flatMap_congr hbelow]
    · intro va'
      simp only [lookup, childOf_congr hpt]
      cases hck : childOf m pt (PX (l+1) va') with
      | none => rfl
      | some c' => exact (hsub _ (PX_lt _ _) c' hck).2.1 va'
    · intro hL k hk c' hck
      rw [childOf_congr hpt] at hck
      obtain ⟨hw, hL'⟩ := hL k hk c' hck
      exact ⟨by rw [loadPte_congr hpt]; exact hw, (hsub k hk c' hck).2.2 hL'⟩

/-- Two addresses with the same entry agree in all their indices. -/
theorem lookup_inj (hn : (tables m l pt).Nodup) (h : lookup m l pt va = some (q, j))
    (h' : lookup m l pt va' = some (q, j)) : ∀ k ≤ l, PX k va = PX k va' := by
  have h0 : PX 0 va = PX 0 va' := (lookup_mem h).2.symm.trans (lookup_mem h').2
  induction l generalizing pt with
  | zero =>
    intro k hk
    obtain rfl : k = 0 := by omega
    exact h0
  | succ l ih =>
    have hi := PX_lt (l+1) va
    simp only [lookup, Option.bind_eq_some_iff] at h h'
    obtain ⟨c, hc, h⟩ := h
    obtain ⟨c', hc', h'⟩ := h'
    have hq : q ∈ below m l pt (PX (l+1) va) := by rw [below_some hc]; exact (lookup_mem h).1
    have hq' : q ∈ below m l pt (PX (l+1) va') := by rw [below_some hc']; exact (lookup_mem h').1
    have htop : PX (l+1) va = PX (l+1) va' := by
      by_contra hne
      exact (below_apart hn hi hq).2 (below_subset_others hne (PX_lt _ _) q hq')
    rw [htop, hc'] at hc
    obtain rfl := Option.some.inj hc
    have hnc : (tables m l c').Nodup := by
      have := (List.nodup_append.mp ((tables_split (PX_lt (l+1) va')).nodup_iff.mp hn)).1
      rwa [below_some hc'] at this
    intro k hk
    rcases Nat.lt_or_ge k (l+1) with hlt | hge
    · exact ih hnc h h' k (by omega)
    · obtain rfl : k = l+1 := by omega
      exact htop

theorem same_page_of_lookup (hn : (tables m 2 pt).Nodup) (hva : va < VASIZE) (hva' : va' < VASIZE)
    (h : lookup m 2 pt va = some (q, j)) (h' : lookup m 2 pt va' = some (q, j)) :
    va / PGSIZE = va' / PGSIZE := by
  have hk := lookup_inj hn h h'
  exact page_eq_of_PX_eq va va' hva hva' (hk 0 (by omega)) (hk 1 (by omega)) (hk 2 (by omega))

theorem lookup_of_same_page (h : va / PGSIZE = va' / PGSIZE) :
    lookup m l pt va = lookup m l pt va' := by
  rw [← lookup_page va, h, lookup_page]

theorem pteAt_of_same_page (h : va / PGSIZE = va' / PGSIZE) :
    pteAt m l pt va = pteAt m l pt va' := by
  unfold pteAt
  rw [lookup_of_same_page h]

/-- Storing an entry changes the entry of the addresses of its page alone. -/
theorem pteAt_setPte (hn : (tables m 2 pt).Nodup) (hva : va < VASIZE) (hva' : va' < VASIZE)
    (hl : lookup m 2 pt va = some (q, j)) :
    pteAt (setPte m (q, j) w) 2 pt va' =
      if va' / PGSIZE = va / PGSIZE then w else pteAt m 2 pt va' := by
  have hother : ∀ p, p ≠ q → setPte m (q, j) w p = m p := fun p hp => setPte_of_ne hp
  obtain ⟨-, hlk, -⟩ := leaf_page_frame hn hl hother
  split_ifs with hp
  · unfold pteAt
    rw [hlk, lookup_of_same_page hp, hl]
    exact loadPte_setPte_same
  · unfold pteAt
    rw [hlk]
    cases hl' : lookup m 2 pt va' with
    | none => rfl
    | some slot =>
      obtain ⟨q', j'⟩ := slot
      apply loadPte_setPte_ne
      intro he
      rw [he] at hl'
      exact hp (same_page_of_lookup hn hva hva' hl hl').symm

theorem loadPte_zero (h : m pt = fun _ => 0) : loadPte m pt i = 0 := by
  unfold loadPte
  rw [h]
  simp [leGet]

theorem childOf_zero (h : m pt = fun _ => 0) : childOf m pt i = none := by
  unfold childOf
  rw [loadPte_zero h]
  rfl

theorem zero_table (h : m pt = fun _ => 0) :
    tables m l pt = [pt] ∧ Linked m l pt ∧ ∀ va, pteAt m l pt va = 0 := by
  cases l with
  | zero =>
    refine ⟨rfl, trivial, fun va => ?_⟩
    simp only [pteAt, lookup, loadPte_zero h]
  | succ l =>
    refine ⟨?_, ?_, fun va => pteAt_succ_none (childOf_zero h)⟩
    · rw [tables_succ]
      have hb : indices.flatMap (below m l pt) = [] := by
        rw [List.flatMap_eq_nil_iff]
        exact fun k _ => below_none (childOf_zero h)
      rw [hb]
    · intro k _ c hc
      rw [childOf_zero h] at hc
      cases hc

end Store

section Alloc
variable [Layout]

theorem managed_word {pa : Nat} (h : Managed pa) (perm : Pte) (hp : perm.toNat < 2^10) :
    PTE2PA (PA2PTE pa ||| perm ||| PTE_V) = pa := by
  obtain ⟨hal, -, hlt⟩ := h
  have htop : PHYSTOP < 2^56 := by decide
  exact PTE2PA_mapped_word pa perm hal (hlt.trans htop) hp

omit [Layout] in
theorem link_word (pa : Nat) : PA2PTE pa ||| PTE_V = PA2PTE pa ||| 0 ||| PTE_V := by
  simp

/-- The entry that links a new table page is valid, has none of `PTE_R`, `PTE_W`
and `PTE_X`, and leads to that page. -/
theorem link_entry {pa : Nat} (h : Managed pa) :
    (PA2PTE pa ||| PTE_V).has PTE_V = true ∧
      (PA2PTE pa ||| PTE_V).has (PTE_R ||| PTE_W ||| PTE_X) = false ∧
      PTE2PA (PA2PTE pa ||| PTE_V) = pa := by
  have hbit (k : Nat) (hk : k < 10) : (PA2PTE pa ||| PTE_V).getLsbD k = decide (k = 0) := by
    rw [link_word, mapped_word_bit pa 0 k hk]
    simp
  refine ⟨by rw [has_V, hbit 0 (by decide)]; rfl, ?_, by rw [link_word]; exact managed_word h 0 (by decide)⟩
  unfold Pte.has
  rw [bne_eq_false_iff_eq]
  apply BitVec.eq_of_getLsbD_eq
  intro k hk
  rw [BitVec.getLsbD_and]
  by_cases h10 : k < 10
  · rw [hbit k h10]
    by_cases h0 : k = 0
    · subst h0; decide
    · simp [h0]
  · have : (PTE_R ||| PTE_W ||| PTE_X).getLsbD k = false := by
      rw [BitVec.getLsbD, Nat.testBit_lt_two_pow]
      exact lt_of_lt_of_le (b := 2^4) (by decide) (Nat.pow_le_pow_right (by decide) (by omega))
    rw [this, Bool.and_false]
    simp

/-- What `walk` with `alloc` leaves behind, for the table pages below `pt` with
the kernel pages `F` and the user mappings `U` beside them. -/
structure Walked (s : Phys) (l pt : Nat) (F U : List Nat) (va : Nat) (r : Option (Nat × Nat))
    (s' : Phys) : Prop where
  ledger : Ledger s' (tables s'.mem l pt ++ F) U
  linked : Linked s'.mem l pt
  pte : ∀ va', pteAt s'.mem l pt va' = pteAt s.mem l pt va'
  frame : ∀ q, Kept F U q → s'.mem q = s.mem q
  suffix : s'.freelist <:+ s.freelist
  used : s.freelist.length ≤ s'.freelist.length + l
  out : r = none → s'.freelist = []
  found : ∀ slot, r = some slot → lookup s'.mem l pt va = some slot
  same : ∀ slot, lookup s.mem l pt va = some slot → r = some slot ∧ s' = s

/-- One level of the walk: what happens below one entry, with the rest of the
table page in the frame, is what happens to the whole table. -/
theorem Walked.up {s s' : Phys} {l pt c va : Nat} {F U : List Nat} {r : Option (Nat × Nat)}
    (hL : Linked s.mem (l+1) pt) (hc : childOf s.mem pt (PX (l+1) va) = some c)
    (h : Walked s l c (pt :: others s.mem l pt (PX (l+1) va) ++ F) U va r s') :
    Walked s (l+1) pt F U va r s' := by
  have hi := PX_lt (l+1) va
  have hpt : s'.mem pt = s.mem pt := h.frame pt (Kept.kernel (by simp))
  have hfo : ∀ q ∈ others s.mem l pt (PX (l+1) va), s'.mem q = s.mem q :=
    fun q hq => h.frame q (Kept.kernel (by simp [hq]))
  have hc' : childOf s'.mem pt (PX (l+1) va) = some c := (childOf_congr hpt).trans hc
  have hother (k : Nat) (hk : k < 512) (hne : PX (l+1) va ≠ k) (d : Nat)
      (hd : childOf s.mem pt k = some d) : ∀ q ∈ tables s.mem l d, s'.mem q = s.mem q := by
    intro q hq
    exact hfo q (below_subset_others hne hk q (by rw [below_some hd]; exact hq))
  have hperm : (tables s'.mem (l+1) pt ++ F).Perm
      (tables s'.mem l c ++ (pt :: others s.mem l pt (PX (l+1) va) ++ F)) := by
    have hs0 : (tables s'.mem (l+1) pt).Perm _ := tables_split hi
    have hs := hs0.append_right F
    rwa [below_some hc', others_congr hpt hfo, List.append_assoc] at hs
  refine ⟨h.ledger.perm hperm.symm (List.Perm.refl _), ?_, ?_, ?_, h.suffix,
    h.used.trans (by omega), h.out, ?_, ?_⟩
  · intro k hk d hd
    rw [childOf_congr hpt] at hd
    rw [loadPte_congr hpt]
    refine ⟨(hL k hk d hd).1, ?_⟩
    by_cases hne : PX (l+1) va = k
    · subst hne
      rw [hc] at hd
      obtain rfl := Option.some.inj hd
      exact h.linked
    · exact linked_congr (hother k hk hne d hd) (hL k hk d hd).2
  · intro va'
    cases hd : childOf s.mem pt (PX (l+1) va') with
    | none => rw [pteAt_succ_none hd, pteAt_succ_none ((childOf_congr hpt).trans hd)]
    | some d =>
      rw [pteAt_succ_some hd, pteAt_succ_some ((childOf_congr hpt).trans hd)]
      by_cases hne : PX (l+1) va = PX (l+1) va'
      · rw [← hne, hc] at hd
        obtain rfl := Option.some.inj hd
        exact h.pte va'
      · exact pteAt_congr (hother _ (PX_lt _ _) hne d hd) va'
  · intro q hq
    exact h.frame q (hq.mono (List.subset_append_right _ _) (List.Subset.refl _))
  · intro slot hr
    simp only [lookup, hc', Option.bind_some]
    exact h.found slot hr
  · intro slot hl
    simp only [lookup, hc, Option.bind_some] at hl
    exact h.same slot hl

theorem link_child {m m' : Nat → Bytes} {l pt i n : Nat} (hn : (tables m (l+1) pt).Nodup)
    (hnew : n ∉ tables m (l+1) pt) (hm : Managed n) (hi : i < 512)
    (hc : childOf m pt i = none) (hL : Linked m (l+1) pt) (hz : m' n = fun _ => 0)
    (hpt : m' pt = setPte m (pt, i) (PA2PTE n ||| PTE_V) pt)
    (ho : ∀ q, q ≠ n → q ≠ pt → m' q = m q) :
    childOf m' pt i = some n ∧ Linked m' (l+1) pt ∧
      others m' l pt i = others m l pt i ∧
      ∀ va, pteAt m' (l+1) pt va = pteAt m (l+1) pt va := by
  obtain ⟨hv, hrwx, hpa⟩ := link_entry hm
  have hsplit : (tables m (l+1) pt).Perm _ := tables_split hi
  rw [below_none hc, List.nil_append] at hsplit
  have hnpt : n ≠ pt := fun he => hnew (he ▸ mem_tables_self)
  have hpo : pt ∉ others m l pt i := (List.nodup_cons.mp (hsplit.nodup_iff.mp hn)).1
  have hload_i : loadPte m' pt i = PA2PTE n ||| PTE_V := by
    rw [loadPte_congr hpt]
    exact loadPte_setPte_same
  have hload (k : Nat) (hk : k ≠ i) : loadPte m' pt k = loadPte m pt k := by
    rw [loadPte_congr hpt]
    exact loadPte_setPte_ne (by simpa using hk)
  have hci : childOf m' pt i = some n := by
    unfold childOf
    rw [hload_i, if_pos hv, hpa]
  have hck (k : Nat) (hk : k ≠ i) : childOf m' pt k = childOf m pt k := by
    unfold childOf
    rw [hload k hk]
  have hfix (k : Nat) (hk : k < 512) (hne : k ≠ i) (d : Nat) (hd : childOf m pt k = some d) :
      ∀ q ∈ tables m l d, m' q = m q := by
    intro q hq
    have hqo : q ∈ others m l pt i :=
      below_subset_others (Ne.symm hne) hk q (by rw [below_some hd]; exact hq)
    apply ho
    · rintro rfl
      exact hnew (hsplit.mem_iff.mpr (List.mem_cons_of_mem _ hqo))
    · rintro rfl
      exact hpo hqo
  refine ⟨hci, ?_, ?_, ?_⟩
  · intro k hk d hd
    by_cases hki : k = i
    · subst hki
      rw [hci] at hd
      obtain rfl := Option.some.inj hd
      exact ⟨by rw [hload_i]; exact hrwx, (zero_table hz).2.1⟩
    · rw [hck k hki] at hd
      obtain ⟨hw, hl⟩ := hL k hk d hd
      exact ⟨by rw [hload k hki]; exact hw, linked_congr (hfix k hk hki d hd) hl⟩
  · apply List.flatMap_congr
    intro k hk
    have hki : k ≠ i := by
      rintro rfl
      exact (indices_nodup.mem_erase_iff.mp hk).1 rfl
    have hk' : k < 512 := mem_indices.mp (List.mem_of_mem_erase hk)
    cases hd : childOf m pt k with
    | none => rw [below_none hd, below_none ((hck k hki).trans hd)]
    | some d =>
      rw [below_some hd, below_some ((hck k hki).trans hd)]
      exact tables_congr (hfix k hk' hki d hd)
  · intro va
    by_cases hki : PX (l+1) va = i
    · subst hki
      rw [pteAt_succ_none hc, pteAt_succ_some hci]
      exact (zero_table hz).2.2 va
    · cases hd : childOf m pt (PX (l+1) va) with
      | none => rw [pteAt_succ_none hd, pteAt_succ_none ((hck _ hki).trans hd)]
      | some d =>
        rw [pteAt_succ_some hd, pteAt_succ_some ((hck _ hki).trans hd)]
        exact pteAt_congr (hfix _ (PX_lt _ _) hki d hd) va

theorem walkLoop_alloc_spec (va l : Nat) : ∀ (s : Phys) (pt : Nat) (F U : List Nat),
    Ledger s (tables s.mem l pt ++ F) U → Linked s.mem l pt →
    Runs (walkLoop true va l pt) s (Walked s l pt F U va) := by
  induction l with
  | zero =>
    intro s pt F U h hL
    unfold walkLoop
    rw [runs_pure]
    exact {
      ledger := h
      linked := hL
      pte := fun _ => rfl
      frame := fun _ _ => rfl
      suffix := List.suffix_refl _
      used := Nat.le_add_right _ _
      out := fun hr => by cases hr
      found := fun slot hs => hs
      same := fun slot hs => ⟨hs, rfl⟩ }
  | succ l ih =>
    intro s pt F U h hL
    have hi := PX_lt (l+1) va
    have hn : (tables s.mem (l+1) pt).Nodup := (List.nodup_append.mp h.nodup).1
    have hall : (tables s.mem (l+1) pt).Perm _ := tables_split hi
    unfold walkLoop
    rw [runs_bind, runs_get, runs_ite]
    constructor
    · -- The next table is there.
      intro hv
      have hc : childOf s.mem pt (PX (l+1) va) =
          some (PTE2PA (loadPte s.mem pt (PX (l+1) va))) := if_pos hv
      have hsplit := hall.append_right F
      rw [below_some hc, List.append_assoc] at hsplit
      exact (ih s _ _ U (h.perm hsplit (List.Perm.refl _)) (hL _ hi _ hc).2).imp
        fun r s' hw => hw.up hL hc
    · -- It is missing: allocate it, or fail.
      intro hv
      have hc : childOf s.mem pt (PX (l+1) va) = none := if_neg hv
      simp only [Bool.true_eq_false, if_false, runs_bind]
      refine (kalloc_spec h).imp ?_
      intro r s1 hr
      have hnone (slot : Nat × Nat) : lookup s.mem (l+1) pt va ≠ some slot := by
        simp [lookup, hc]
      cases r with
      | none =>
        obtain ⟨rfl, hf⟩ := hr
        exact (runs_pure _).mpr ⟨h, hL, fun _ => rfl, fun _ _ => rfl, List.suffix_refl _,
          Nat.le_add_right _ _, fun _ => hf, by simp, fun slot hs => absurd hs (hnone slot)⟩
      | some n =>
        obtain ⟨hf, hmem, h1⟩ := hr
        obtain ⟨hnK, hnU⟩ : n ∉ tables s.mem (l+1) pt ++ F ∧ n ∉ U :=
          ⟨(List.nodup_cons.mp h1.nodup).1, h1.disjoint n (by simp)⟩
        have hnT : n ∉ tables s.mem (l+1) pt := fun hc => hnK (List.mem_append_left _ hc)
        have hnpt : n ≠ pt := fun he => hnT (he ▸ mem_tables_self)
        simp only [memsetPage, storePte, runs_bind, runs_modify, setPage_mem, hmem,
          update_idem]
        -- `t` is the state after the new page is zeroed and linked.
        set t : Phys := { s1.setPage n (fun _ => 0) with
          mem := setPte (update s.mem n fun _ => 0) (pt, PX (l+1) va)
            (PA2PTE n ||| PTE_V) } with ht
        have htm (q : Nat) (h1 : q ≠ n) (h2 : q ≠ pt) : t.mem q = s.mem q := by
          simp only [ht, setPte, update_of_ne h2, update_of_ne h1]
        have hz : t.mem n = fun _ => 0 := by
          simp only [ht, setPte, update_of_ne hnpt, update_self]
        have hpt : t.mem pt = setPte s.mem (pt, PX (l+1) va) (PA2PTE n ||| PTE_V) pt := by
          simp only [ht, setPte, update_self, update_of_ne (Ne.symm hnpt)]
        have hmn : Managed n := h1.managed n (Or.inl (by simp))
        obtain ⟨hci, hLt, hot, hpte⟩ := link_child hn hnT hmn hi hc hL hz hpt htm
        have hold := hall.append_right F
        rw [below_none hc, List.nil_append] at hold
        have hlt : Ledger t ([n] ++ (pt :: others s.mem l pt (PX (l+1) va) ++ F)) U :=
          (h1.perm (hold.cons n) (List.Perm.refl _)).of_mem _
        have hcall := ih t n (pt :: others t.mem l pt (PX (l+1) va) ++ F) U
          (by rw [(zero_table hz).1, hot]; exact hlt) (zero_table hz).2.1
        refine hcall.imp ?_
        intro r s' hw
        have hup := hw.up hLt hci
        refine ⟨hup.ledger, hup.linked, fun va' => (hup.pte va').trans (hpte va'), ?_, ?_, ?_,
          hup.out, hup.found, fun slot hs => absurd hs (hnone slot)⟩
        · intro q hq
          rw [hup.frame q hq]
          apply htm
          · rintro rfl
            have hqK := hq.mono (List.subset_append_right (tables s.mem (l+1) pt) F)
              (List.Subset.refl U)
            exact h.kept_not_free hqK (by rw [hf]; simp)
          · exact h.kept_ne mem_tables_self hq
        · refine hup.suffix.trans ?_
          rw [hf]
          exact List.suffix_cons _ _
        · have hu : s1.freelist.length ≤ s'.freelist.length + l := hw.used
          rw [hf, List.length_cons]
          omega

theorem walk_alloc_spec {s : Phys} {pt va : Nat} {F U : List Nat} (hva : va < MAXVA)
    (h : Ledger s (tables s.mem 2 pt ++ F) U) (hL : Linked s.mem 2 pt) :
    Runs (walk pt va true) s (Walked s 2 pt F U va) := by
  unfold walk
  rw [runs_bind, runs_panicIf]
  exact ⟨by omega, walkLoop_alloc_spec va 2 s pt F U h hL⟩

end Alloc

end Xv6
