import Xv6.Kalloc
import Mathlib.Data.List.Perm.Basic
import Mathlib.Data.List.Count

/-! The ledger of physical pages: which pages the kernel holds for itself, once
each, and which pages user mappings refer to, once for each mapping. Every
function of `kalloc.c` is a ledger entry. -/
namespace Xv6

open Function
variable [Layout]

def Managed (pa : Nat) : Prop := pa % PGSIZE = 0 ∧ Layout.kend ≤ pa ∧ pa < PHYSTOP

/-- `K` lists the pages with a kernel owner and `U` the pages of the user
mappings; the counts and the free list of `s` agree with them. -/
structure Ledger (s : Phys) (K U : List Nat) : Prop where
  managed : ∀ pa, pa ∈ K ∨ pa ∈ U → Managed pa
  free_managed : ∀ pa ∈ s.freelist, Managed pa
  nodup : K.Nodup
  disjoint : ∀ pa ∈ K, pa ∉ U
  ref_eq : ∀ pa, Managed pa → (s.ref pa).toNat = K.count pa + U.count pa
  free_nodup : s.freelist.Nodup
  mem_free : ∀ pa, Managed pa → (pa ∈ s.freelist ↔ pa ∉ K ∧ pa ∉ U)

/-- A page that code working beside the kernel pages `F` and the user mappings
`U` leaves alone: one of theirs, or one outside the allocator's memory. -/
def Kept (F U : List Nat) (q : Nat) : Prop := q ∈ F ∨ q ∈ U ∨ ¬ Managed q

theorem Kept.kernel {F U : List Nat} {q : Nat} (h : q ∈ F) : Kept F U q := Or.inl h

theorem Kept.user {F U : List Nat} {q : Nat} (h : q ∈ U) : Kept F U q := Or.inr (Or.inl h)

theorem Kept.mono {F U F' U' : List Nat} {q : Nat} (h : Kept F U q) (hF : F ⊆ F') (hU : U ⊆ U') :
    Kept F' U' q := by
  rcases h with h | h | h
  · exact Kept.kernel (hF h)
  · exact Kept.user (hU h)
  · exact Or.inr (Or.inr h)

theorem page_id_inj {a b : Nat} (ha : Managed a) (hb : Managed b)
    (h : PA2PAGE_ID a = PA2PAGE_ID b) : a = b := by
  have hk : KERNBASE ≤ Layout.kend := (Layout.tramp_ge.trans Layout.tramp_lt.le)
  obtain ⟨ha1, ha2, -⟩ := ha
  obtain ⟨hb1, hb2, -⟩ := hb
  simp only [PA2PAGE_ID, PGSIZE, KERNBASE] at *
  omega

section Fields
omit [Layout]
variable (s : Phys) (pa : Nat) (n : Int) (b : Bytes)

@[simp] theorem setRef_mem : (s.setRef pa n).mem = s.mem := rfl
@[simp] theorem setRef_freelist : (s.setRef pa n).freelist = s.freelist := rfl
@[simp] theorem setPage_mem : (s.setPage pa b).mem = update s.mem pa b := rfl
@[simp] theorem setPage_setPage (c : Bytes) : (s.setPage pa b).setPage pa c = s.setPage pa c := by
  unfold Phys.setPage
  rw [update_idem]
@[simp] theorem setPage_freelist : (s.setPage pa b).freelist = s.freelist := rfl
@[simp] theorem setPage_ref (qa : Nat) : (s.setPage pa b).ref qa = s.ref qa := rfl
@[simp] theorem setRef_ref_self : (s.setRef pa n).ref pa = n := by
  simp [Phys.setRef, Phys.ref]

end Fields

theorem setRef_ref_ne (s : Phys) {pa qa : Nat} (n : Int) (hp : Managed pa) (hq : Managed qa)
    (h : qa ≠ pa) : (s.setRef pa n).ref qa = s.ref qa := by
  have hne : PA2PAGE_ID qa ≠ PA2PAGE_ID pa := fun he => h (page_id_inj hq hp he)
  simp [Phys.setRef, Phys.ref, update_of_ne hne]

section Entries
variable {s : Phys} {K U K' U' : List Nat} {pa : Nat}

theorem Ledger.perm (h : Ledger s K U) (hk : K.Perm K') (hu : U.Perm U') : Ledger s K' U' where
  managed p hp := h.managed p (hp.imp hk.mem_iff.mpr hu.mem_iff.mpr)
  free_managed := h.free_managed
  nodup := hk.nodup_iff.mp h.nodup
  disjoint p hp hq := h.disjoint p (hk.mem_iff.mpr hp) (hu.mem_iff.mpr hq)
  ref_eq p hp := by rw [h.ref_eq p hp, hk.count_eq, hu.count_eq]
  free_nodup := h.free_nodup
  mem_free p hp := by rw [h.mem_free p hp, hk.mem_iff, hu.mem_iff]

theorem Ledger.of_mem (h : Ledger s K U) (m : Nat → Bytes) : Ledger { s with mem := m } K U :=
  ⟨h.managed, h.free_managed, h.nodup, h.disjoint, h.ref_eq, h.free_nodup, h.mem_free⟩

/-- A kernel page beside `F` and `U` is none of the pages to be left alone. -/
theorem Ledger.kept_ne {T F : List Nat} {q : Nat} (h : Ledger s (T ++ F) U) (hp : pa ∈ T)
    (hq : Kept F U q) : q ≠ pa := by
  rintro rfl
  rcases hq with hq | hq | hq
  · exact (List.nodup_append.mp h.nodup).2.2 q hp q hq rfl
  · exact h.disjoint q (List.mem_append_left _ hp) hq
  · exact hq (h.managed q (Or.inl (List.mem_append_left _ hp)))

theorem Ledger.kept_not_free {q : Nat} (h : Ledger s K U) (hq : Kept K U q) : q ∉ s.freelist := by
  intro hf
  obtain ⟨hK, hU⟩ := (h.mem_free q (h.free_managed q hf)).mp hf
  rcases hq with hq | hq | hq
  · exact hK hq
  · exact hU hq
  · exact hq (h.free_managed q hf)

theorem Ledger.free_not_mem (h : Ledger s K U) (hf : pa ∈ s.freelist) : pa ∉ K ∧ pa ∉ U :=
  (h.mem_free pa (h.free_managed pa hf)).mp hf

section Spread
variable {s' : Phys} {T T' U' : List Nat}

theorem Ledger.mem_spread (h : Ledger s (T ++ K) U) (pa : Nat) :
    pa ∈ T ++ s.freelist ↔ Managed pa ∧ pa ∉ K ∧ pa ∉ U := by
  have hdis := (List.nodup_append.mp h.nodup).2.2
  rw [List.mem_append]
  constructor
  · rintro (ht | hf)
    · have hin := List.mem_append_left K ht
      exact ⟨h.managed pa (Or.inl hin), fun hK => hdis pa ht pa hK rfl, h.disjoint pa hin⟩
    · obtain ⟨hn, hu⟩ := h.free_not_mem hf
      exact ⟨h.free_managed pa hf, fun hK => hn (List.mem_append_right _ hK), hu⟩
  · rintro ⟨hman, hK, hu⟩
    by_cases ht : pa ∈ T
    · exact Or.inl ht
    · exact Or.inr ((h.mem_free pa hman).mpr ⟨fun hc => (List.mem_append.mp hc).elim ht hK, hu⟩)

theorem Ledger.nodup_spread (h : Ledger s (T ++ K) U) : (T ++ s.freelist).Nodup := by
  refine List.nodup_append.mpr ⟨(List.nodup_append.mp h.nodup).1, h.free_nodup, ?_⟩
  intro a ha b hb hab
  subst hab
  exact (h.free_not_mem hb).1 (List.mem_append_left _ ha)

/-- Pages only move between the free list and the kernel pages `T`. -/
theorem Ledger.spread (h : Ledger s (T ++ K) U) (h' : Ledger s' (T' ++ K) U')
    (hU : ∀ pa, pa ∈ U' ↔ pa ∈ U) : (T' ++ s'.freelist).Perm (T ++ s.freelist) :=
  (List.perm_ext_iff_of_nodup h'.nodup_spread h.nodup_spread).mpr fun pa => by
    rw [h.mem_spread, h'.mem_spread, hU]

end Spread

/-- A page that the kernel holds becomes the page of one user mapping. -/
theorem Ledger.to_user (h : Ledger s (pa :: K) U) : Ledger s K (pa :: U) where
  managed p hp := h.managed p (by simp only [List.mem_cons] at hp ⊢; tauto)
  free_managed := h.free_managed
  nodup := (List.nodup_cons.mp h.nodup).2
  disjoint p hp := by
    have hne : p ≠ pa := fun he => (List.nodup_cons.mp h.nodup).1 (he ▸ hp)
    simpa [hne] using h.disjoint p (List.mem_cons_of_mem _ hp)
  ref_eq p hp := by
    rw [h.ref_eq p hp, List.count_cons, List.count_cons]
    omega
  free_nodup := h.free_nodup
  mem_free p hp := by
    rw [h.mem_free p hp]
    simp only [List.mem_cons, not_or]
    tauto

theorem Ledger.ref_of_mem (h : Ledger s K U) (pa : Nat) (hp : pa ∈ K ∨ pa ∈ U) :
    s.ref pa = (K.count pa + U.count pa : Nat) := by
  have he := h.ref_eq pa (h.managed pa hp)
  have hpos : 0 < K.count pa + U.count pa := by
    rcases hp with hp | hp
    · have := List.count_pos_iff.mpr hp; omega
    · have := List.count_pos_iff.mpr hp; omega
  omega

theorem kalloc_spec (h : Ledger s K U) :
    Runs kalloc s fun r s' => match r with
      | none => s' = s ∧ s.freelist = []
      | some pa => s.freelist = pa :: s'.freelist ∧
          s'.mem = update s.mem pa (fun _ => 5) ∧ Ledger s' (pa :: K) U := by
  unfold kalloc
  rw [runs_bind, runs_get]
  cases hf : s.freelist with
  | nil => simp
  | cons r rest =>
    simp only [memsetPage, runs_bind, runs_set, runs_modify, runs_pure]
    have hr : r ∈ s.freelist := by rw [hf]; simp
    have hm := h.free_managed r hr
    obtain ⟨hrK, hrU⟩ := h.free_not_mem hr
    have hnd := h.free_nodup
    rw [hf, List.nodup_cons] at hnd
    refine ⟨rfl, rfl, ?_⟩
    exact {
      managed := fun p hp => by
        simp only [List.mem_cons] at hp
        rcases hp with (rfl | hp) | hp
        · exact hm
        · exact h.managed p (Or.inl hp)
        · exact h.managed p (Or.inr hp)
      free_managed := fun p hp => h.free_managed p (by rw [hf]; exact List.mem_cons_of_mem _ hp)
      nodup := List.nodup_cons.mpr ⟨hrK, h.nodup⟩
      disjoint := fun p hp => by
        rcases List.mem_cons.mp hp with rfl | hp
        · exact hrU
        · exact h.disjoint p hp
      ref_eq := fun p hp => by
        by_cases hpr : p = r
        · subst hpr
          rw [setRef_ref_self, List.count_cons_self, List.count_eq_zero_of_not_mem hrK,
            List.count_eq_zero_of_not_mem hrU]
          rfl
        · rw [setRef_ref_ne _ _ hm hp hpr, List.count_cons_of_ne (Ne.symm hpr)]
          exact h.ref_eq p hp
      free_nodup := hnd.2
      mem_free := fun p hp => by
        have hi := h.mem_free p hp
        rw [hf] at hi
        by_cases hpr : p = r
        · subst hpr
          simp [hnd.1]
        · simpa [hpr] using hi }

/-- `kfree` gives one reference back; with the last one the page is wiped and
goes to the free list. -/
theorem kfree_ledger (h : Ledger s K U) (hp : pa ∈ K ∨ pa ∈ U) (hK' : K'.Nodup)
    (hsub : (∀ p ∈ K', p ∈ K) ∧ (∀ p ∈ U', p ∈ U))
    (hc : K.count pa + U.count pa = K'.count pa + U'.count pa + 1)
    (ho : ∀ p, p ≠ pa → K.count p + U.count p = K'.count p + U'.count p) :
    Runs (kfree pa) s fun _ s' => Ledger s' K' U' ∧
      if pa ∈ K' ∨ pa ∈ U' then s'.mem = s.mem ∧ s'.freelist = s.freelist
      else s'.mem = update s.mem pa (fun _ => 1) ∧ s'.freelist = pa :: s.freelist := by
  have hm := h.managed pa hp
  have href := h.ref_of_mem pa hp
  have hz : K'.count pa + U'.count pa = 0 ↔ ¬ (pa ∈ K' ∨ pa ∈ U') := by
    rw [not_or, ← List.count_eq_zero, ← List.count_eq_zero]
    omega
  have hpf : pa ∉ s.freelist := fun hf => by
    have := h.free_not_mem hf
    tauto
  have hother : ∀ p, p ≠ pa → (p ∉ K ∧ p ∉ U ↔ p ∉ K' ∧ p ∉ U') := by
    intro p hne
    have := ho p hne
    simp only [← List.count_eq_zero]
    omega
  unfold kfree
  simp only [runs_bind, runs_panicIf, runs_modify, runs_get, runs_ite, memsetPage, runs_pure,
    setRef_ref_self]
  have hrefs (t : Phys) (ht : ∀ p, t.ref p = (s.setRef pa (s.ref pa - 1)).ref p) (p : Nat)
      (hq : Managed p) : (t.ref p).toNat = K'.count p + U'.count p := by
    rw [ht]
    by_cases hne : p = pa
    · subst hne
      rw [setRef_ref_self]
      omega
    · rw [setRef_ref_ne _ _ hm hq hne, h.ref_eq p hq]
      exact ho p hne
  refine ⟨by obtain ⟨h1, h2, h3⟩ := hm; omega, ?_, ?_⟩
  · intro hle
    have hgone : ¬ (pa ∈ K' ∨ pa ∈ U') := hz.mp (by omega)
    rw [if_neg hgone]
    refine ⟨?_, rfl, rfl⟩
    exact {
      managed := fun p hq => h.managed p (hq.imp (hsub.1 p) (hsub.2 p))
      free_managed := fun p hq => by
        rcases List.mem_cons.mp hq with rfl | hq
        · exact hm
        · exact h.free_managed p hq
      nodup := hK'
      disjoint := fun p hq hu => h.disjoint p (hsub.1 p hq) (hsub.2 p hu)
      ref_eq := hrefs _ fun _ => rfl
      free_nodup := List.nodup_cons.mpr ⟨hpf, h.free_nodup⟩
      mem_free := fun p hq => by
        by_cases hne : p = pa
        · subst hne
          simpa [not_or] using hgone
        · rw [← hother p hne, ← h.mem_free p hq]
          simp [hne] }
  · intro hle
    have hstay : pa ∈ K' ∨ pa ∈ U' := by
      by_contra hn
      have := hz.mpr hn
      omega
    rw [if_pos hstay]
    refine ⟨?_, rfl, rfl⟩
    exact {
      managed := fun p hq => h.managed p (hq.imp (hsub.1 p) (hsub.2 p))
      free_managed := h.free_managed
      nodup := hK'
      disjoint := fun p hq hu => h.disjoint p (hsub.1 p hq) (hsub.2 p hu)
      ref_eq := hrefs _ fun _ => rfl
      free_nodup := h.free_nodup
      mem_free := fun p hq => by
        by_cases hne : p = pa
        · subst hne
          have : p ∉ s.freelist := hpf
          simp only [setRef_freelist]
          tauto
        · rw [← hother p hne]
          exact h.mem_free p hq }

theorem kfree_kernel (h : Ledger s (pa :: K) U) :
    Runs (kfree pa) s fun _ s' => Ledger s' K U ∧
      s'.mem = update s.mem pa (fun _ => 1) ∧ s'.freelist = pa :: s.freelist := by
  obtain ⟨hn, hK⟩ := List.nodup_cons.mp h.nodup
  have hU := h.disjoint pa (by simp)
  have hsub : (∀ p ∈ K, p ∈ pa :: K) ∧ ∀ p ∈ U, p ∈ U :=
    ⟨fun p hp => List.mem_cons_of_mem _ hp, fun p hp => hp⟩
  refine (kfree_ledger h (Or.inl (by simp)) hK hsub ?_ ?_).imp ?_
  · rw [List.count_cons_self]
    omega
  · intro p hne
    rw [List.count_cons_of_ne (Ne.symm hne)]
  · intro _ s' hs
    rwa [if_neg (by tauto)] at hs

theorem kfree_user (h : Ledger s K (pa :: U)) :
    Runs (kfree pa) s fun _ s' => Ledger s' K U ∧
      if pa ∈ U then s'.mem = s.mem ∧ s'.freelist = s.freelist
      else s'.mem = update s.mem pa (fun _ => 1) ∧ s'.freelist = pa :: s.freelist := by
  have hK : pa ∉ K := fun hk => h.disjoint pa hk (by simp)
  have hsub : (∀ p ∈ K, p ∈ K) ∧ ∀ p ∈ U, p ∈ pa :: U :=
    ⟨fun p hp => hp, fun p hp => List.mem_cons_of_mem _ hp⟩
  refine (kfree_ledger h (Or.inr (by simp)) h.nodup hsub ?_ ?_).imp ?_
  · rw [List.count_cons_self]
    omega
  · intro p hne
    rw [List.count_cons_of_ne (Ne.symm hne)]
  · intro _ s' hs
    simpa [hK] using hs

theorem pageRef_spec (h : Ledger s K U) (hp : pa ∈ U) :
    Runs (pageRef pa) s fun _ s' => Ledger s' K (pa :: U) ∧ s'.mem = s.mem ∧
      s'.freelist = s.freelist := by
  have hm := h.managed pa (Or.inr hp)
  have href := h.ref_of_mem pa (Or.inr hp)
  unfold pageRef
  rw [runs_modify]
  refine ⟨?_, rfl, rfl⟩
  exact {
    managed := fun p hq => h.managed p (by
      rcases hq with hq | hq
      · exact Or.inl hq
      · rcases List.mem_cons.mp hq with rfl | hq
        · exact Or.inr hp
        · exact Or.inr hq)
    free_managed := h.free_managed
    nodup := h.nodup
    disjoint := fun p hq hu => by
      rcases List.mem_cons.mp hu with rfl | hu
      · exact h.disjoint p hq hp
      · exact h.disjoint p hq hu
    ref_eq := fun p hq => by
      by_cases hne : p = pa
      · subst hne
        rw [setRef_ref_self, href, List.count_cons_self]
        omega
      · rw [setRef_ref_ne _ _ hm hq hne, List.count_cons_of_ne (Ne.symm hne)]
        exact h.ref_eq p hq
    free_nodup := h.free_nodup
    mem_free := fun p hq => by
      rw [setRef_freelist, h.mem_free p hq]
      by_cases hne : p = pa
      · subst hne; simp [hp]
      · simp [hne] }

/-- What `cow_kalloc` can do for one mapping of `pa`: keep a page that has no
other mapping, fail when memory is full, or move this mapping to a copy. -/
theorem cow_kalloc_spec (h : Ledger s K (pa :: U)) :
    Runs (cow_kalloc pa) s fun r s' =>
      (pa ∉ U ∧ r = some pa ∧ s' = s) ∨
      (pa ∈ U ∧ s.freelist = [] ∧ r = none ∧ s' = s) ∨
      (pa ∈ U ∧ ∃ new, r = some new ∧ new ≠ pa ∧ s.freelist = new :: s'.freelist ∧
        s'.mem = update s.mem new (s.mem pa) ∧ Ledger s' K (new :: U)) := by
  have hK : pa ∉ K := fun hk => h.disjoint pa hk (by simp)
  have hm := h.managed pa (Or.inr (by simp))
  have href := h.ref_of_mem pa (Or.inr (by simp))
  rw [List.count_eq_zero_of_not_mem hK, List.count_cons_self] at href
  unfold cow_kalloc
  rw [runs_bind, runs_get, runs_ite]
  constructor
  · intro hle
    have hU : pa ∉ U := by
      rw [← List.count_eq_zero]
      omega
    exact (runs_pure _).mpr (Or.inl ⟨hU, rfl, rfl⟩)
  · intro hgt
    have hU : pa ∈ U := by
      rw [← List.count_pos_iff]
      omega
    refine (kalloc_spec h).bind ?_
    intro r s1 hr
    cases r with
    | none =>
      obtain ⟨rfl, hf⟩ := hr
      exact (runs_pure _).mpr (Or.inr (Or.inl ⟨hU, hf, rfl, rfl⟩))
    | some new =>
      obtain ⟨hf, hmem, h1⟩ := hr
      have hne : new ≠ pa := fun he => h1.disjoint new (by simp) (by simp [he])
      simp only [runs_bind, runs_modify, runs_pure]
      refine Or.inr (Or.inr ⟨hU, new, rfl, hne, hf, ?_, ?_⟩)
      · simp only [setRef_mem, setPage_mem, hmem, update_idem,
          update_of_ne (Ne.symm hne)]
      · have h2 := h1.to_user
        have hr1 : s1.ref pa = (U.count pa + 1 : Nat) := by
          have := h1.ref_of_mem pa (Or.inr (by simp))
          rw [List.count_cons_of_ne hne, List.count_eq_zero_of_not_mem hK,
            List.count_cons_self, Nat.zero_add] at this
          exact this
        exact {
          managed := fun p hq => h2.managed p (by simp only [List.mem_cons] at hq ⊢; tauto)
          free_managed := h2.free_managed
          nodup := h2.nodup
          disjoint := fun p hq hu =>
            h2.disjoint p hq (by simp only [List.mem_cons] at hu ⊢; tauto)
          ref_eq := fun p hq => by
            by_cases hp : p = pa
            · subst hp
              rw [setRef_ref_self, setPage_ref, hr1, List.count_eq_zero_of_not_mem hK,
                List.count_cons_of_ne hne]
              omega
            · rw [setRef_ref_ne _ _ hm hq hp, setPage_ref, h2.ref_eq p hq]
              simp only [List.count_cons, beq_iff_eq]
              rw [if_neg (fun he : pa = p => hp he.symm)]
              omega
          free_nodup := h2.free_nodup
          mem_free := fun p hq => by
            rw [setRef_freelist, setPage_freelist, h2.mem_free p hq]
            by_cases hp : p = pa
            · subst hp; simp [hU]
            · simp [hp] }

end Entries

end Xv6
