import Xv6.PteWords

/-! `uvmalloc` and `uvmdealloc`: growing and shrinking the user part of a page
table, with memory running out at any page. -/
namespace Xv6

open Function

def npages (sz : Nat) : Nat := (sz + PGSIZE - 1) / PGSIZE

theorem PGROUNDUP_eq {sz : Nat} (h : sz < 2^63) : PGROUNDUP sz = npages sz * PGSIZE := by
  unfold PGROUNDUP npages
  rw [Nat.mod_eq_of_lt]
  simp only [PGSIZE]
  omega

theorem npages_mul (v : Nat) : npages (v*PGSIZE) = v := by
  simp only [npages, PGSIZE]
  omega

theorem npages_mono {a b : Nat} (h : a ≤ b) : npages a ≤ npages b := by
  simp only [npages, PGSIZE]
  omega

def TFPAGE : Nat := TRAPFRAME / PGSIZE

theorem VPAGES_eq : VPAGES = 2^26 := by decide

variable [Layout]

section Ops
variable {s s' : Phys} {pt pa : Nat} {f : Nat → Pte} {F U F' U' : List Nat}

theorem Maps.perm (h : Maps s pt f F U) (hF : F.Perm F') (hU : U.Perm U') : Maps s pt f F' U' :=
  ⟨h.ledger.perm (hF.append_left _) hU, h.linked, h.pte⟩

theorem Maps.to_user (h : Maps s pt f (pa :: F) U) : Maps s pt f F (pa :: U) :=
  ⟨(h.ledger.perm List.perm_middle (List.Perm.refl _)).to_user, h.linked, h.pte⟩

theorem Maps.setPage (h : Maps s pt f F U) (hp : pa ∈ F ∨ pa ∈ U) (b : Bytes) :
    Maps (s.setPage pa b) pt f F U := by
  apply h.of_tables _ (h.ledger.of_mem _)
  intro q hq
  apply update_of_ne
  rintro rfl
  obtain ⟨hF, hU⟩ := h.table_not_frame hq
  exact hp.elim hF hU

theorem Maps.kalloc (h : Maps s pt f F U) :
    Runs kalloc s fun r s' => match r with
      | none => s' = s ∧ s.freelist = []
      | some pa => s.freelist = pa :: s'.freelist ∧ Maps s' pt f (pa :: F) U ∧
          s'.mem = update s.mem pa (fun _ => 5) ∧ Frame s s' F U := by
  refine (kalloc_spec h.ledger).imp ?_
  intro r s' hr
  cases r with
  | none => exact hr
  | some pa =>
    obtain ⟨hf, hm, hl⟩ := hr
    obtain ⟨hnK, -⟩ := List.nodup_cons.mp hl.nodup
    have hne (q : Nat) (hq : q ≠ pa) : s'.mem q = s.mem q := by rw [hm, update_of_ne hq]
    refine ⟨hf, h.of_tables ?_ (hl.perm List.perm_middle.symm (List.Perm.refl _)), hm, ?_⟩
    · intro q hq
      apply hne
      rintro rfl
      exact hnK (List.mem_append_left _ hq)
    · intro q hq
      exact hne q (hl.kept_ne (T := pa :: tables s.mem 2 pt) (by simp) hq)

theorem Maps.kfree_kernel (h : Maps s pt f (pa :: F) U) :
    Runs (kfree pa) s fun _ s' => Maps s' pt f F U ∧ Frame s s' F U ∧
      s'.freelist = pa :: s.freelist := by
  have hl := h.ledger.perm List.perm_middle (List.Perm.refl _)
  obtain ⟨hnK, -⟩ := List.nodup_cons.mp hl.nodup
  refine (Xv6.kfree_kernel hl).imp ?_
  rintro _ s' ⟨hl', hm, hf⟩
  have hne (q : Nat) (hq : q ≠ pa) : s'.mem q = s.mem q := by rw [hm, update_of_ne hq]
  refine ⟨h.of_tables ?_ hl', ?_, hf⟩
  · intro q hq
    apply hne
    rintro rfl
    exact hnK (List.mem_append_left _ hq)
  · intro q hq
    exact hne q (hl.kept_ne (T := pa :: tables s.mem 2 pt) (by simp) hq)

theorem Unmapped.refl (h : Maps s pt f F U) (v : Nat) : Unmapped s pt f F U v 0 s := by
  have hd : dropRange f v 0 = f := by
    funext k
    simp only [dropRange]
    rw [if_neg (by omega)]
  exact ⟨by rwa [hd], fun _ _ => rfl, fun _ => rfl⟩

/-- `uvmdealloc` takes out exactly the pages between the two rounded sizes. -/
theorem uvmdealloc_spec {oldsz newsz : Nat} (hold : oldsz < 2^63)
    (h : Maps s pt f F (pagesOf f (npages newsz) (npages oldsz - npages newsz) ++ U))
    (hle : npages oldsz ≤ VPAGES)
    (hleaf : ∀ k, npages newsz ≤ k → k < npages oldsz → Leaf (f k)) :
    Runs (uvmdealloc pt oldsz newsz) s fun r s' => r = min oldsz newsz ∧
      Unmapped s pt f F U (npages newsz) (npages oldsz - npages newsz) s' := by
  unfold uvmdealloc
  rw [runs_ite]
  have hnone (hz : npages oldsz - npages newsz = 0) : Unmapped s pt f F U (npages newsz)
      (npages oldsz - npages newsz) s := by
    rw [hz] at h ⊢
    exact Unmapped.refl (by simpa [pagesOf] using h) _
  constructor
  · intro hge
    have := npages_mono hge
    exact (runs_pure _).mpr ⟨by omega, hnone (by omega)⟩
  · intro hlt
    have hnew : newsz < 2^63 := by omega
    rw [PGROUNDUP_eq hold, PGROUNDUP_eq hnew, runs_ite]
    constructor
    · intro hr
      have hlt' : npages newsz < npages oldsz := Nat.lt_of_mul_lt_mul_right hr
      have hn : (npages oldsz * PGSIZE - npages newsz * PGSIZE) / PGSIZE =
          npages oldsz - npages newsz := by
        rw [← Nat.sub_mul, page_div]
      rw [hn]
      refine (uvmunmap_free_spec _ s (npages newsz) f h (by omega) ?_).bind ?_
      · intro k h1 h2
        exact hleaf k h1 (by omega)
      · intro _ s' hu
        exact (runs_pure _).mpr ⟨by omega, hu⟩
    · intro hr
      have hge : npages oldsz ≤ npages newsz := by
        by_contra hc
        exact hr (Nat.mul_lt_mul_of_pos_right (by omega) (by decide))
      exact (runs_pure _).mpr ⟨by omega, hnone (by omega)⟩

end Ops

/-- The table of `s` grown by zeroed pages `v..w-1`. -/
structure Grown (s : Phys) (pt : Nat) (f : Nat → Pte) (F U : List Nat) (v w : Nat)
    (g : Nat → Pte) (s' : Phys) : Prop where
  maps : Maps s' pt g F (pagesOf g v (w-v) ++ U)
  old : ∀ k, ¬ (v ≤ k ∧ k < w) → g k = f k
  fresh : ∀ k, v ≤ k → k < w → ∃ pa, Managed pa ∧ g k = mapWord pa userPerm ∧
    s'.mem pa = fun _ => 0
  frame : Frame s s' F U
  suffix : s'.freelist <:+ s.freelist
  room : (w-v) + s'.freelist.length ≤ s.freelist.length
  nodup : (pagesOf g v (w-v)).Nodup
  apart : ∀ pa ∈ pagesOf g v (w-v), pa ∉ U

omit [Layout] in
theorem pagesOf_concat (f : Nat → Pte) (v n : Nat) :
    pagesOf f v (n+1) = pagesOf f v n ++ [PTE2PA (f (v+n))] := by
  simp [pagesOf, List.range'_concat]

omit [Layout] in
theorem mem_pagesOf {f : Nat → Pte} {v n pa : Nat} :
    pa ∈ pagesOf f v n ↔ ∃ k, v ≤ k ∧ k < v+n ∧ PTE2PA (f k) = pa := by
  simp only [pagesOf, List.mem_map, List.mem_range'_1]
  constructor
  · rintro ⟨k, ⟨h1, h2⟩, he⟩
    exact ⟨k, h1, h2, he⟩
  · rintro ⟨k, h1, h2, he⟩
    exact ⟨k, ⟨h1, h2⟩, he⟩

section Alloc
variable {s0 s : Phys} {pt v w : Nat} {f g : Nat → Pte} {F U : List Nat}

theorem managed_mapWord {pa : Nat} (h : Managed pa) (perm : Pte) (hp : perm.toNat < 2^10) :
    PTE2PA (mapWord pa perm) = pa := managed_word h perm hp

theorem ungrow_spec (hm : Maps s pt g F (pagesOf g v (w-v) ++ U)) (hvw : v ≤ w) (hw : w ≤ VPAGES)
    (hold : ∀ k, ¬ (v ≤ k ∧ k < w) → g k = f k) (hleaf : ∀ k, v ≤ k → k < w → Leaf (g k))
    (hz : ∀ k, v ≤ k → k < w → f k = 0) :
    Runs (uvmdealloc pt (w*PGSIZE) (v*PGSIZE)) s fun _ s' => Maps s' pt f F U ∧
      Frame s s' F U := by
  have hdrop : dropRange g v (w-v) = f := by
    funext k
    simp only [dropRange]
    by_cases hk : v ≤ k ∧ k < v+(w-v)
    · rw [if_pos hk, hz k hk.1 (by omega)]
    · rw [if_neg hk, hold k (by omega)]
  have hw63 : w*PGSIZE < 2^63 := by
    have := page_lt_VASIZE (v := w) (by rw [VPAGES_eq] at *; omega)
    exact this.trans (by decide)
  refine (uvmdealloc_spec hw63 (by simpa only [npages_mul] using hm) (by rw [npages_mul]; exact hw)
    ?_).imp ?_
  · intro k h1 h2
    rw [npages_mul] at h1 h2
    exact hleaf k h1 h2
  · rintro r s' ⟨-, hu⟩
    rw [npages_mul, npages_mul] at hu
    exact ⟨hdrop ▸ hu.maps, hu.frame⟩

theorem Grown.leaf (h : Grown s0 pt f F U v w g s) (k : Nat) (h1 : v ≤ k) (h2 : k < w) :
    Leaf (g k) := by
  obtain ⟨pa, -, he, -⟩ := h.fresh k h1 h2
  rw [he]
  exact userPte_fresh.leaf

omit [Layout] in
theorem userPerm_lt : userPerm.toNat < 2^10 := by decide

theorem Grown.snoc {s2 : Phys} {mem : Nat} {l : List Nat} (h : Grown s0 pt f F U v w g s)
    (hvw : v ≤ w) (hman : Managed mem)
    (h3 : Maps s2 pt (update g w (mapWord mem userPerm)) (mem :: F)
      (pagesOf g v (w-v) ++ U))
    (hfr : Frame s s2 F (pagesOf g v (w-v) ++ U)) (hzero : s2.mem mem = fun _ => 0)
    (hf : s.freelist = mem :: l) (hsuf : s2.freelist <:+ l) :
    Grown s0 pt f F U v (w+1) (update g w (mapWord mem userPerm)) s2 := by
  have hpa := managed_mapWord hman userPerm userPerm_lt
  have hnew : pagesOf (update g w (mapWord mem userPerm)) v (w+1-v) =
      pagesOf g v (w-v) ++ [mem] := by
    rw [show w+1-v = (w-v)+1 by omega, pagesOf_concat, show v+(w-v) = w by omega,
      update_self, hpa,
      pagesOf_congr (g := g) fun k _ hk => update_of_ne (by omega) _ _]
  have hpages : (pagesOf (update g w (mapWord mem userPerm)) v (w+1-v) ++ U).Perm
      (mem :: (pagesOf g v (w-v) ++ U)) := by
    rw [hnew, List.append_assoc]
    exact List.perm_middle
  have hmemU : mem ∉ pagesOf g v (w-v) ++ U :=
    h3.ledger.disjoint mem (List.mem_append_right _ List.mem_cons_self)
  refine ⟨h3.to_user.perm (List.Perm.refl _) hpages.symm, ?_, ?_, ?_, ?_, ?_, ?_, ?_⟩
  · intro k hk
    rw [update_of_ne (by omega)]
    exact h.old k (by omega)
  · intro k hk1 hk2
    by_cases hkw : k = w
    · subst hkw
      exact ⟨mem, hman, update_self _ _ _, hzero⟩
    · obtain ⟨pa, hp, he, hm⟩ := h.fresh k hk1 (by omega)
      refine ⟨pa, hp, by rw [update_of_ne hkw]; exact he, ?_⟩
      have hin : pa ∈ pagesOf g v (w-v) :=
        mem_pagesOf.mpr ⟨k, hk1, by omega, by rw [he, managed_mapWord hp _ userPerm_lt]⟩
      exact (hfr pa (Kept.user (List.mem_append_left _ hin))).trans hm
  · intro q hq
    exact (hfr q (hq.mono (List.Subset.refl _) (List.subset_append_right _ _))).trans
      (h.frame q hq)
  · refine hsuf.trans ((List.suffix_cons mem _).trans ?_)
    rw [← hf]
    exact h.suffix
  · have h1 := h.room
    have h2 := hsuf.length_le
    have h3 : s.freelist.length = l.length + 1 := by rw [hf]; rfl
    omega
  · rw [hnew, List.nodup_append]
    refine ⟨h.nodup, by simp, fun a ha b hb => ?_⟩
    rw [List.mem_singleton.mp hb]
    rintro rfl
    exact hmemU (List.mem_append_left _ ha)
  · intro pa hin
    rw [hnew, List.mem_append, List.mem_singleton] at hin
    rcases hin with hin | rfl
    · exact h.apart pa hin
    · exact fun hU => hmemU (List.mem_append_right _ hU)

/-- The loop of `uvmalloc` from page `w` on. The free pages bound how far it can
get, so it never reaches the trapframe. -/
theorem uvmallocLoop_spec (newsz n : Nat) (hz : ∀ k, v ≤ k → k < TFPAGE → f k = 0) :
    ∀ (s : Phys) (w : Nat) (g : Nat → Pte), Grown s0 pt f F U v w g s → v ≤ w →
    w + s.freelist.length ≤ TFPAGE →
    Runs (uvmallocLoop pt (v*PGSIZE) newsz n (w*PGSIZE)) s fun r s' =>
      (r = newsz ∧ (∃ g', Grown s0 pt f F U v (w+n) g' s') ∧
        s.freelist.length ≤ s'.freelist.length + 3*n) ∨
      (r = 0 ∧ Maps s' pt f F U ∧ Frame s0 s' F U ∧ s.freelist.length ≤ 3*n) := by
  have hTV : TFPAGE ≤ VPAGES := by decide
  induction n with
  | zero =>
    intro s w g h _ _
    exact (runs_pure _).mpr (Or.inl ⟨rfl, ⟨g, h⟩, by omega⟩)
  | succ n ih =>
    intro s w g h hvw hb
    have hzw (k : Nat) (h1 : v ≤ k) (h2 : k < w) : f k = 0 := hz k h1 (by omega)
    unfold uvmallocLoop
    rw [runs_bind]
    refine h.maps.kalloc.imp ?_
    intro r s1 hr
    cases r with
    | none =>
      obtain ⟨rfl, hempty⟩ := hr
      refine (ungrow_spec h.maps hvw (by omega) h.old h.leaf hzw).bind ?_
      rintro _ s' ⟨hm, hfr⟩
      exact (runs_pure _).mpr (Or.inr ⟨rfl, hm, h.frame.trans hfr, by simp [hempty]⟩)
    | some mem =>
      obtain ⟨hf, h1, hmem, hfr1⟩ := hr
      have hlen : s.freelist.length = s1.freelist.length + 1 := by rw [hf]; rfl
      have hgw : g w = 0 := by
        rw [h.old w (by omega)]
        exact hz w hvw (by omega)
      have hman : Managed mem := h1.ledger.managed mem (Or.inl (by simp))
      simp only [memsetPage, runs_bind, runs_modify]
      set t := s1.setPage mem fun _ => 0 with ht
      have h2 : Maps t pt g (mem :: F) (pagesOf g v (w-v) ++ U) := h1.setPage (Or.inl (by simp)) _
      have hled1 : Ledger s1 (mem :: tables s1.mem 2 pt ++ F) (pagesOf g v (w-v) ++ U) :=
        h1.ledger.perm List.perm_middle (List.Perm.refl _)
      have htf : Frame s t F (pagesOf g v (w-v) ++ U) := by
        intro q hq
        have hne : q ≠ mem := hled1.kept_ne (T := mem :: tables s1.mem 2 pt) (by simp) hq
        rw [ht, setPage_mem, update_of_ne hne]
        exact hfr1 q hq
      refine (mappages_spec mem userPerm h2 (v := w) (by omega) (by rw [hgw]; decide)).imp ?_
      rintro r s2 ⟨hfr2, hsuf, hused, hcase, -⟩
      rw [runs_ite]
      have hused' : s1.freelist.length ≤ s2.freelist.length + 2 := hused
      have hsuf' : s2.freelist <:+ s1.freelist := hsuf
      have hlen2 : s2.freelist.length ≤ s1.freelist.length := hsuf'.length_le
      have hfr02 : Frame s s2 F (pagesOf g v (w-v) ++ U) := by
        intro q hq
        rw [hfr2 q (hq.mono (List.subset_cons_self _ _) (List.Subset.refl _))]
        exact htf q hq
      have hmem2 : s2.mem mem = fun _ => 0 := by
        rw [hfr2 mem (Kept.kernel (by simp)), ht, setPage_mem, update_self]
      constructor
      · -- No memory for a table page: give the page back and undo.
        intro hr0
        obtain ⟨rfl, hempty, h3⟩ : r = -1 ∧ s2.freelist = [] ∧ Maps s2 pt g (mem :: F) _ := by
          rcases hcase with ⟨hr, -⟩ | hc
          · exact absurd hr hr0
          · exact hc
        rw [runs_bind]
        refine h3.kfree_kernel.imp ?_
        rintro _ s3 ⟨h4, hfr3, -⟩
        refine (ungrow_spec h4 hvw (by omega) h.old h.leaf hzw).bind ?_
        rintro _ s' ⟨hm, hfr⟩
        rw [hempty, List.length_nil] at hused'
        refine (runs_pure _).mpr (Or.inr ⟨rfl, hm, fun q hq => ?_, by omega⟩)
        rw [hfr q hq, (hfr02.trans hfr3) q
          (hq.mono (List.Subset.refl _) (List.subset_append_right _ _))]
        exact h.frame q hq
      · -- The page is mapped: it becomes a user page and the loop goes on.
        intro hr0
        have h3 : Maps s2 pt (update g w (mapWord mem userPerm)) (mem :: F)
            (pagesOf g v (w-v) ++ U) := by
          rcases hcase with ⟨-, hc⟩ | ⟨hr, -⟩
          · exact hc
          · exact absurd (by rw [hr]; decide) hr0
        have hgrown := h.snoc hvw hman h3 hfr02 hmem2 hf hsuf'
        rw [show w*PGSIZE + PGSIZE = (w+1)*PGSIZE by ring]
        refine (ih s2 (w+1) _ hgrown (by omega) (by omega)).imp ?_
        rintro r s' (⟨hr, hg, hrest⟩ | ⟨hr, hm, hfr, hrest⟩)
        · rw [show w+1+n = w+(n+1) by omega] at hg
          exact Or.inl ⟨hr, hg, by omega⟩
        · exact Or.inr ⟨hr, hm, hfr, by omega⟩

/-- `uvmalloc`: all pages up to the new size, zeroed, or nothing. A page costs at most
three free pages, itself and two table pages. -/
theorem uvmalloc_spec {oldsz newsz : Nat} (h : Maps s pt f F U) (hold : oldsz < 2^63)
    (hz : ∀ k, npages oldsz ≤ k → k < TFPAGE → f k = 0)
    (hb : npages oldsz + s.freelist.length ≤ TFPAGE) :
    Runs (uvmalloc pt oldsz newsz) s fun r s' =>
      (newsz < oldsz ∧ r = oldsz ∧ s' = s) ∨
      (oldsz ≤ newsz ∧ r = newsz ∧ (∃ g, Grown s pt f F U (npages oldsz) (npages newsz) g s') ∧
        s.freelist.length ≤ s'.freelist.length + 3*(npages newsz - npages oldsz)) ∨
      (oldsz ≤ newsz ∧ r = 0 ∧ Maps s' pt f F U ∧ Frame s s' F U ∧
        s.freelist.length ≤ 3*(npages newsz - npages oldsz)) := by
  unfold uvmalloc
  rw [runs_ite]
  constructor
  · intro hlt
    exact (runs_pure _).mpr (Or.inl ⟨hlt, rfl, rfl⟩)
  · intro hge
    have hle := npages_mono (Nat.le_of_not_lt hge)
    have hn : (newsz - PGROUNDUP oldsz + PGSIZE - 1) / PGSIZE = npages newsz - npages oldsz := by
      rw [PGROUNDUP_eq hold]
      simp only [npages, PGSIZE] at *
      omega
    have hstart : Grown s pt f F U (npages oldsz) (npages oldsz) f s := by
      refine ⟨by simpa [pagesOf] using h, fun _ _ => rfl, fun k h1 h2 => by omega,
        fun _ _ => rfl, List.suffix_refl _, by omega, by simp [pagesOf], by simp [pagesOf]⟩
    dsimp only
    rw [hn, PGROUNDUP_eq hold]
    refine (uvmallocLoop_spec newsz _ hz s _ f hstart le_rfl hb).imp ?_
    rintro r s' (⟨hr, hg, hused⟩ | hfail)
    · rw [show npages oldsz + (npages newsz - npages oldsz) = npages newsz by omega] at hg
      exact Or.inr (Or.inl ⟨by omega, hr, hg, hused⟩)
    · exact Or.inr (Or.inr ⟨by omega, hfail⟩)

end Alloc

end Xv6
