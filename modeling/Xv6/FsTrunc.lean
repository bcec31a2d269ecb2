import Xv6.FsNodes

/-! `itrunc`: the blocks of an inode are given back, and its size is set to 0. -/
namespace Xv6

open Function

variable [FsLayout]

/-- The places of inode `i` in `P` are emptied. -/
def cleared (own : Place → Nat) (i : Nat) (P : Nat → Prop) [DecidablePred P] (p : Place) : Nat :=
  if p.1 = i ∧ P p.2 then 0 else own p

section Release
variable {st st' st'' : Store} {own own' own'' : Place → Nat} {i : Nat}

section Cleared
omit [FsLayout]
variable {P Q : Nat → Prop} [DecidablePred P] [DecidablePred Q]

theorem cleared_of_not {k : Nat} (h : ¬ P k) : cleared own i P (i, k) = own (i, k) :=
  if_neg fun hc => h hc.2

theorem cleared_self (h : ∀ k, P k → own (i, k) = 0) : cleared own i P = own := by
  funext ⟨j, k⟩
  unfold cleared
  split_ifs with hc
  · rw [← h k hc.2, ← hc.1]
  · rfl

theorem cleared_congr (h : ∀ k, own (i, k) ≠ 0 → (P k ↔ Q k)) : cleared own i P = cleared own i Q := by
  funext ⟨j, k⟩
  unfold cleared
  by_cases hj : j = i
  · by_cases hz : own (i, k) = 0
    · simp [hj, hz]
    · simp only [hj, h k hz]
  · simp [hj]

theorem update_zero (k : Nat) : update own (i, k) 0 = cleared own i (· = k) := by
  funext ⟨j, m⟩
  unfold cleared
  simp only [update_apply, Prod.mk.injEq]

/-- Places are emptied one after the other. -/
theorem cleared_cleared : cleared (cleared own i P) i Q = cleared own i fun k => P k ∨ Q k := by
  funext p
  unfold cleared
  by_cases hp : p.1 = i
  · by_cases hP : P p.2 <;> by_cases hQ : Q p.2 <;> simp [hp, hP, hQ]
  · simp [hp]

end Cleared

/-- What the loops of `itrunc` keep: the places that still hold a block own it. -/
structure Trimmed (st st' : Store) (own' : Place → Nat) : Prop where
  reserved : MetaUsed st'.used
  owns : Owns own' st'.used DataBlock
  dino : st'.dino = st.dino
  data : st'.data = st.data
  spent : Spent st st' 0 0

theorem Trimmed.after (h : Trimmed st st' own') (h' : Trimmed st' st'' own'') :
    Trimmed st st'' own'' :=
  ⟨h'.reserved, h'.owns, h'.dino.trans h.dino, h'.data.trans h.data, h.spent.trans h'.spent⟩

theorem Trimmed.restart (h : Trimmed st st' own') : Trimmed st' st' own' :=
  ⟨h.reserved, h.owns, rfl, rfl, Spent.refl h.spent.log⟩

theorem Trimmed.quiet (h : Trimmed st st' own) (hq : Quiet st' st'') : Trimmed st st'' own := by
  refine h.after ⟨?_, ?_, hq.dino, hq.data, hq.spent⟩
  · rw [hq.used]
    exact h.reserved
  · rw [hq.used]
    exact h.owns

theorem bfree_release (h : Trimmed st st' own) (ht : InTx st) {p : Place} (hp : own p ≠ 0) :
    Ensures (bfree (own p)) st' (Short st 0 0) fun _ st'' =>
      Trimmed st st'' (update own p 0) := by
  have hb := h.owns.inside p hp
  refine (bfree_spec (h.spent.inTx ht) hb (h.owns.used_own hp)).imp (fun e he => he.after h.spent) ?_
  intro _ st'' ⟨hu, hd, hdata, hsp⟩
  refine h.after ⟨?_, ?_, hd, hdata, hsp⟩
  · rw [hu]
    exact h.reserved.update hb false
  · rw [hu]
    exact h.owns.release not_dataBlock_zero p

omit [FsLayout] in
theorem update_zero_self {p : Place} (hp : own p = 0) : update own p 0 = own := by
  rw [← hp, update_eq_self]

/-- The loop over the indirect block gives back the blocks that it lists from entry `j`
on. -/
theorem itruncIndirect_spec {addr : Nat} (haddr : DataBlock addr) (n : Nat) :
    ∀ (j : Nat) (st' : Store) (own : Place → Nat), InTx st → Trimmed st st' own →
    (∀ e, j ≤ e → e < NINDIRECT → own (i, NDIRECT+1+e) = leGet 4 (st'.data addr) (4*e)) →
    (∀ k, NDIRECT+1+NINDIRECT ≤ k → own (i, k) = 0) → j+n = NINDIRECT →
    Ensures (itruncIndirect addr n j) st' (Short st 0 0) fun _ st'' =>
      Trimmed st st'' (cleared own i (NDIRECT+1+j ≤ ·)) := by
  induction n with
  | zero =>
    intro j st' own ht h hent hout hj
    apply ensures_pure
    rw [cleared_self fun k hk => hout k (by omega)]
    exact h
  | succ n ih =>
    intro j st' own ht h hent hout hj
    unfold itruncIndirect
    apply ensures_get
    have hview : st'.view addr = st'.data addr := by
      unfold Store.data
      rw [if_pos haddr]
    dsimp only
    rw [hview, ← hent j le_rfl (by omega)]
    -- Entry `j` is given back or was empty, and then the rest follows.
    have hnext (st1 : Store) (hdata : st1.data = st'.data)
        (h1 : Trimmed st st1 (update own (i, NDIRECT+1+j) 0)) :
        Ensures (itruncIndirect addr n (j+1)) st1 (Short st 0 0) fun _ st'' =>
          Trimmed st st'' (cleared own i (NDIRECT+1+j ≤ ·)) := by
      have hstep : cleared (update own (i, NDIRECT+1+j) 0) i (NDIRECT+1+(j+1) ≤ ·) =
          cleared own i (NDIRECT+1+j ≤ ·) := by
        rw [update_zero, cleared_cleared]
        exact cleared_congr fun k _ => by omega
      rw [← hstep]
      refine ih (j+1) st1 _ ht h1 ?_ ?_ (by omega)
      · intro e h2 h3
        rw [update_of_ne (by simp; omega), hdata]
        exact hent e (by omega) h3
      · intro k hk
        rw [update_of_ne (by simp; omega)]
        exact hout k hk
    apply ensures_ite
    · intro hne
      refine (bfree_release h ht hne).bind ?_
      intro _ st1 h1
      exact hnext st1 (h1.data.trans h.data.symm) h1
    · intro hz
      rw [not_not] at hz
      apply hnext st' rfl
      rw [update_zero_self hz]
      exact h

end Release

section Itrunc
variable {s s' : Fs} {own : Place → Nat} {ip : ISlot} {i : Nat}

/-- The addresses in `ks` have been cleared, and with them their places. -/
structure Zeroed (s s' : Fs) (own : Place → Nat) (ip : ISlot) (i : Nat)
    (ks : List (Fin (NDIRECT+1))) : Prop where
  cell : s'.cell = s.cell
  sys : s'.sys = s.sys
  store : Trimmed s.st s'.st (cleared own i fun m => ∃ k ∈ ks, k.val = m)
  mem : ∃ addrs, s'.mem = update s.mem ip ((s.mem ip).withAddrs addrs) ∧
    (∀ k ∈ ks, addrs k = 0) ∧ ∀ k, k ∉ ks → addrs k = (s.mem ip).addrs k

omit [FsLayout] in
theorem setAddr_zero {d : Dinode} {k : Fin (NDIRECT+1)} (h : (d.addrs k).toNat = 0) :
    d.setAddr k 0 = d := by
  have hzero : BitVec.ofNat 32 0 = d.addrs k := BitVec.eq_of_toNat_eq h.symm
  unfold Dinode.setAddr
  rw [hzero, update_eq_self]

/-- Address `k` is cleared, and then those in `ks`. -/
theorem Zeroed.cons {s1 : Fs} {k : Fin (NDIRECT+1)} {ks : List (Fin (NDIRECT+1))} (hk : k ∉ ks)
    (hcell : s1.cell = s.cell) (hsys : s1.sys = s.sys)
    (h1 : Trimmed s.st s1.st (update own (i, k.val) 0))
    (hm1 : s1.mem = update s.mem ip ((s.mem ip).setAddr k 0))
    (h2 : Zeroed s1 s' (update own (i, k.val) 0) ip i ks) : Zeroed s s' own ip i (k :: ks) := by
  have hmem1 : s1.mem ip = (s.mem ip).setAddr k 0 := by
    rw [hm1, update_self]
  obtain ⟨addrs, hm2, hz2, hr2⟩ := h2.mem
  refine ⟨h2.cell.trans hcell, h2.sys.trans hsys, ?_, addrs, ?_, ?_, ?_⟩
  · have hstore := h1.after h2.store
    rw [update_zero, cleared_cleared] at hstore
    rw [cleared_congr (Q := fun m => m = k.val ∨ ∃ k' ∈ ks, k'.val = m)]
    · exact hstore
    · intro m _
      simp [eq_comm]
  · rw [hm2, hm1, update_self, update_idem]
    rfl
  · intro k' hk'
    rcases List.mem_cons.mp hk' with rfl | hk'
    · rw [hr2 k' hk, hmem1]
      exact update_self ..
    · exact hz2 k' hk'
  · intro k' hk'
    obtain ⟨hne, hks⟩ := not_or.mp (mt List.mem_cons.mpr hk')
    rw [hr2 k' hks, hmem1, setAddr_addrs_of_ne _ _ _ hne]

theorem itruncDirect_spec (ks : List (Fin (NDIRECT+1))) :
    ∀ (s : Fs) (own : Place → Nat), ks.Nodup → InTx s.st → Trimmed s.st s.st own →
    (∀ k ∈ ks, own (i, k.val) = ((s.mem ip).addrs k).toNat) →
    Ensures (itruncDirect ip ks) s (Short s.st 0 0) fun _ s' => Zeroed s s' own ip i ks := by
  induction ks with
  | nil =>
    intro s own hnd ht h haddr
    apply ensures_pure
    refine ⟨rfl, rfl, ?_, (s.mem ip).addrs, (update_eq_self ip s.mem).symm, ?_, fun _ _ => rfl⟩
    · rw [cleared_self]
      · exact h
      · rintro m ⟨k, hk, _⟩
        cases hk
    · intro k hk
      cases hk
  | cons k ks ih =>
    intro s own hnd ht h haddr
    obtain ⟨hk, hnd⟩ := List.nodup_cons.mp hnd
    have hkaddr := haddr k List.mem_cons_self
    unfold itruncDirect
    apply ensures_get
    dsimp only
    rw [← hkaddr]
    -- The rest of the loop, once place `k` is empty.
    have hnext (s1 : Fs) (hcell : s1.cell = s.cell) (hsys : s1.sys = s.sys)
        (h1 : Trimmed s.st s1.st (update own (i, k.val) 0))
        (hm1 : s1.mem = update s.mem ip ((s.mem ip).setAddr k 0)) :
        Ensures (itruncDirect ip ks) s1 (Short s.st 0 0) fun _ s' =>
          Zeroed s s' own ip i (k :: ks) := by
      refine (ih s1 _ hnd (h1.spent.inTx ht) h1.restart ?_).imp ?_ ?_
      · intro k' hk'
        have hne : k' ≠ k := by
          intro heq
          exact hk (heq ▸ hk')
        rw [update_of_ne (by simpa [Fin.val_inj] using hne), hm1, update_self,
          setAddr_addrs_of_ne _ _ _ hne]
        exact haddr k' (List.mem_cons_of_mem k hk')
      · intro e he
        exact he.after h1.spent
      · intro _ s2 h2
        exact Zeroed.cons hk hcell hsys h1 hm1 h2
    apply ensures_ite
    · intro hne
      apply ensures_bind
      apply ensures_zoom
      refine (bfree_release h ht hne).imp (fun e he => he) ?_
      intro _ st1 h1
      refine (setAddr_runs _ ip k 0).ensures.bind ?_
      intro _ s1 hs1
      subst hs1
      exact hnext _ rfl rfl h1 rfl
    · intro hz
      rw [not_not] at hz
      apply hnext s rfl rfl
      · rw [update_zero_self hz]
        exact h
      · rw [setAddr_zero (hkaddr ▸ hz), update_eq_self]

/-- What is left of `itrunc` when all blocks have been given back. -/
theorem itrunc_end (h : FsOk s) (ha : At s ip i) (ht : 1 ≤ s.st.outstanding)
    (hcell : s'.cell = s.cell) (hsys : s'.sys = s.sys)
    (hr : Trimmed s.st s'.st (cleared (Xv6.own s.st.dino s.st.data) i fun _ => True))
    (hm : s'.mem = update s.mem ip ((s.mem ip).withAddrs fun _ => 0)) :
    Ensures (do
      let s ← get
      setMem ip { s.mem ip with size := 0 }
      iupdate ip) s' (Short s.st 0 0) fun _ s2 =>
        FsOk s2 ∧ s2.cell = s.cell ∧ s2.sys = s.sys ∧
          s2.node = update s.node i ((s.node i).withData []) ∧
          (∀ k, Xv6.own s2.st.dino s2.st.data (i, k) = 0) ∧ Spent s.st s2.st 0 1 := by
  obtain ⟨hmem, hty, hlt⟩ := h.mem_at ha
  apply ensures_get
  refine (setMem_runs s' ip _).ensures.bind ?_
  intro _ s1 hs1
  set d : Dinode := { s'.mem ip with size := 0 } with hd
  have hdeq : d = { s.st.dino i with addrs := fun _ => 0, size := 0 } := by
    rw [hd, hm, update_self, hmem]
    rfl
  have hst1 : s1.st = s'.st := by rw [hs1]
  have hmem1 : s1.mem = update s.mem ip d := by
    rw [hs1]
    change update s'.mem ip d = _
    rw [hm, update_idem]
  have hcell1 : s1.cell = s.cell := by rw [hs1]; exact hcell
  have hinum : (s1.cell ip).inum = i := by rw [hcell1]; exact ha.inum
  have ht1 : InTx s1.st := by rw [hst1]; exact hr.spent.inTx ⟨h.log, ht⟩
  refine (iupdate_spec ht1 (by rw [hinum]; exact hlt)).imp ?_ ?_
  · intro e he
    rw [hst1] at he
    exact he.after hr.spent
  intro _ s2 ⟨⟨hcell2, hmem2, hsys2⟩, hu, hdino, hdata, hsp⟩
  rw [hst1, hinum, hr.dino, hmem1, update_self] at hdino
  rw [hst1, hr.data] at hdata
  rw [hst1] at hu hsp
  have hzero (k : Nat) : Xv6.own (update s.st.dino i d) s.st.data (i, k) = 0 := by
    apply own_empty
    intro k
    rw [update_self, hdeq]
  have hown : Xv6.own (update s.st.dino i d) s.st.data =
      cleared (Xv6.own s.st.dino s.st.data) i fun _ => True := by
    funext ⟨j, k⟩
    unfold cleared
    by_cases hj : j = i
    · rw [if_pos ⟨hj, trivial⟩, hj, hzero]
    · rw [if_neg (fun hc => hj hc.1), own_of_ne hj]
  refine ⟨h.setInode hlt hsp.log hdino hdata ?_ ?_ ?_ (fun _ => filled_empty rfl),
    hcell2.trans hcell1, ?_, ?_, ?_, hr.spent.trans hsp⟩
  · rw [hu]
    exact hr.reserved
  · rw [hown, hu]
    exact hr.owns
  · rw [hcell2, hcell1, hmem2, hmem1]
    exact h.cells.updated ha.ref ha.inum (by rw [hdeq]; exact hty)
  · rw [hsys2, hs1]
    exact hsys
  · unfold Fs.node
    rw [hdino, hdata, nodeOf_setInode, nodeOf_alloc hty,
      nodeOf_alloc (by rw [update_self, hdeq]; exact hty), content_empty (by rw [update_self]),
      update_self, hdeq]
    rfl
  · rw [hdino, hdata]
    exact hzero

/-- The direct addresses, which the first loop of `itrunc` goes through. -/
abbrev directs : List (Fin (NDIRECT+1)) := (List.finRange NDIRECT).map Fin.castSucc

omit [FsLayout] in
theorem mem_directs {k : Fin (NDIRECT+1)} : k ∈ directs ↔ k.val < NDIRECT := by
  rw [List.mem_map]
  constructor
  · rintro ⟨j, _, rfl⟩
    exact j.isLt
  · intro hk
    exact ⟨⟨k.val, hk⟩, List.mem_finRange _, rfl⟩

omit [FsLayout] in
theorem directs_iff {m : Nat} : (∃ k ∈ directs, k.val = m) ↔ m < NDIRECT := by
  constructor
  · rintro ⟨k, hk, rfl⟩
    exact mem_directs.mp hk
  · intro hm
    exact ⟨⟨m, by omega⟩, mem_directs.mpr hm, rfl⟩

omit [FsLayout] in
theorem directs_nodup : directs.Nodup := (List.nodup_finRange _).map (Fin.castSucc_injective _)

/-- The direct addresses are 0, and then the last one is cleared. -/
theorem Zeroed.last (h : Zeroed s s' own ip i directs) :
    update s'.mem ip ((s'.mem ip).setAddr (Fin.last NDIRECT) 0) =
      update s.mem ip ((s.mem ip).withAddrs fun _ => 0) := by
  obtain ⟨addrs, hm, hz, _⟩ := h.mem
  have haddrs : update addrs (Fin.last NDIRECT) (BitVec.ofNat 32 0) = fun _ => 0 := by
    funext k
    by_cases hk : k = Fin.last NDIRECT
    · rw [hk, update_self]
      rfl
    · rw [update_of_ne hk]
      exact hz k (mem_directs.mpr (lt_of_le_of_ne (Nat.lt_succ_iff.mp k.isLt)
        fun heq => hk (Fin.ext heq)))
  rw [hm, update_self, update_idem, ← haddrs]
  rfl

/-- The indirect block gives back the blocks that it lists, and then itself. -/
theorem itruncBlock_spec (h : FsOk s) (ht : InTx s.st) (hty : (s.st.dino i).type ≠ 0)
    (hne : (s.st.dino i).indirect ≠ 0) (hr : Trimmed s.st s'.st
      (cleared (Xv6.own s.st.dino s.st.data) i fun m => ∃ k ∈ directs, k.val = m))
    {rest : Prog Fs Unit} {Q : Unit → Fs → Prop}
    (hrest : ∀ st, Trimmed s.st st (cleared (Xv6.own s.st.dino s.st.data) i fun _ => True) →
      Ensures rest { s' with st := st } (Short s.st 0 0) Q) :
    Ensures (do
      let _ ← disk (bread (s.st.dino i).indirect)
      disk (itruncIndirect (s.st.dino i).indirect NINDIRECT 0)
      disk (bfree (s.st.dino i).indirect)
      rest) s' (Short s.st 0 0) Q := by
  set own := Xv6.own s.st.dino s.st.data with howndef
  have hindown : own (i, NDIRECT) = (s.st.dino i).indirect := own_indirect _ hty
  have hinddata : DataBlock (s.st.dino i).indirect := by
    rw [← hindown]
    apply h.blocks.owns.inside
    rw [← howndef, hindown]
    exact hne
  have hhigh {m : Nat} (hm : NDIRECT ≤ m) : ¬ ∃ k ∈ directs, k.val = m := by
    rw [directs_iff]
    omega
  apply ensures_bind
  apply ensures_zoom
  refine (bread_quiet hr.spent.log _).ensures.imp (fun e he => he) ?_
  intro _ st1 ⟨_, hq⟩
  have h1 := hr.quiet hq
  apply ensures_bind
  apply ensures_zoom
  refine (itruncIndirect_spec (i := i) hinddata NINDIRECT 0 st1 _ ht h1 ?_ ?_ (Nat.zero_add _)).imp
    (fun e he => he) ?_
  · intro e _ he
    rw [cleared_of_not (hhigh (by omega)), h1.data, howndef, own_entry hty hne he]
  · intro k hk
    rw [cleared_of_not (hhigh (by omega)), howndef, own_beyond hk]
  intro _ st2 h2
  rw [cleared_cleared] at h2
  have hplace : cleared own i (fun m => (∃ k ∈ directs, k.val = m) ∨ NDIRECT+1+0 ≤ m) (i, NDIRECT) =
      (s.st.dino i).indirect := by
    rw [cleared_of_not (by rw [directs_iff]; omega), hindown]
  apply ensures_bind
  apply ensures_zoom
  rw [← hplace]
  refine (bfree_release h2 ht (by rw [hplace]; exact hne)).imp (fun e he => he) ?_
  intro _ st3 h3
  rw [update_zero, cleared_cleared] at h3
  apply hrest
  rw [cleared_congr (Q := fun m => ((∃ k ∈ directs, k.val = m) ∨ NDIRECT+1+0 ≤ m) ∨ m = NDIRECT)]
  · exact h3
  · intro m _
    rw [true_iff, directs_iff]
    omega

theorem itrunc_spec (h : FsOk s) (ha : At s ip i) (ht : 1 ≤ s.st.outstanding) :
    Ensures (itrunc ip) s (Short s.st 0 0) fun _ s' =>
      FsOk s' ∧ s'.cell = s.cell ∧ s'.sys = s.sys ∧
        s'.node = update s.node i ((s.node i).withData []) ∧
        (∀ k, Xv6.own s'.st.dino s'.st.data (i, k) = 0) ∧ Spent s.st s'.st 0 1 := by
  obtain ⟨hmem, hty, hlt⟩ := h.mem_at ha
  have hstart : Trimmed s.st s.st (Xv6.own s.st.dino s.st.data) :=
    ⟨h.blocks.reserved, h.blocks.owns, rfl, rfl, Spent.refl h.log⟩
  unfold itrunc
  refine (itruncDirect_spec (i := i) directs s _ directs_nodup ⟨h.log, ht⟩ hstart ?_).bind ?_
  · intro k _
    rw [hmem, own_addr _ hty]
  intro _ s1 h1
  obtain ⟨addrs, hm1, _, hr1⟩ := h1.mem
  have hlast : (s1.mem ip).addrs (Fin.last NDIRECT) = (s.st.dino i).addrs (Fin.last NDIRECT) := by
    rw [hm1, update_self, ← hmem]
    exact hr1 _ fun hin => absurd (mem_directs.mp hin) (Nat.lt_irrefl _)
  have hind : (s1.mem ip).indirect = (s.st.dino i).indirect := by
    unfold Dinode.indirect
    rw [hlast]
  apply ensures_get
  dsimp only
  rw [hind]
  apply ensures_ite
  · intro hne
    apply itruncBlock_spec h ⟨h.log, ht⟩ hty hne h1.store
    intro st2 h2
    refine (setAddr_runs _ ip _ 0).ensures.bind ?_
    intro _ s3 hs3
    subst hs3
    exact itrunc_end h ha ht h1.cell h1.sys h2 h1.last
  · intro hz
    rw [not_not] at hz
    have hlast := h1.last
    rw [setAddr_zero (hind.trans hz), update_eq_self] at hlast
    refine itrunc_end h ha ht h1.cell h1.sys ?_ hlast
    rw [cleared_congr (Q := fun m => ∃ k ∈ directs, k.val = m)]
    · exact h1.store
    · -- Without an indirect block only the direct places hold blocks.
      intro m hm
      rw [true_iff, directs_iff]
      by_contra hge
      rcases Nat.eq_or_lt_of_le (Nat.not_lt.mp hge) with rfl | hlt'
      · exact hm ((own_indirect _ hty).trans hz)
      · exact hm (own_entry_none hz hlt')

end Itrunc

end Xv6
