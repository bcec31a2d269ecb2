import Xv6.FsOwn

/-! The inodes in memory and on disk. `ino` are the inodes as the kernel knows them: the
copy in memory of an inode that is being changed, and the inode on disk otherwise.
`bmap` gives a file one more block and changes nothing that a file already has. -/
namespace Xv6

open Function

variable [FsLayout]

/-- All blocks below the size of inode `i` are allocated. -/
structure Filled (ino : Nat → Dinode) (data : Nat → Bytes) (i : Nat) : Prop where
  size : (ino i).size.toNat ≤ MAXFILE*BSIZE
  blocks : ∀ bn, bn*BSIZE < (ino i).size.toNat → own ino data (i, blockPlace bn) ≠ 0

/-- Each block belongs to one place at most, and the free map says which are free. -/
structure BlocksOk (st : Store) (ino : Nat → Dinode) : Prop where
  reserved : MetaUsed st.used
  owns : Owns (own ino st.data) st.used DataBlock
  none : ∀ i, sb.ninodes ≤ i → (ino i).type = 0

/-- An inode has one entry in the cache at most, and a valid entry holds an allocated
inode. -/
structure CellsOk (cell : ISlot → Icell) (mem : ISlot → Dinode) (ino : Nat → Dinode) : Prop where
  unique : ∀ j k, 0 < (cell j).ref → 0 < (cell k).ref → (cell j).inum = (cell k).inum → j = k
  mem : ∀ j, 0 < (cell j).ref → (cell j).valid = true →
    (ino (cell j).inum).type ≠ 0 ∧ mem j = ino (cell j).inum

structure InodesOk (s : Fs) (ino : Nat → Dinode) : Prop where
  log : LogOk s.st
  blocks : BlocksOk s.st ino
  cells : CellsOk s.cell s.mem ino

structure FsCore (s : Fs) (ino : Nat → Dinode) : Prop extends InodesOk s ino where
  filled : ∀ i, (ino i).type ≠ 0 → Filled ino s.st.data i

structure At (s : Fs) (ip : ISlot) (i : Nat) : Prop where
  ref : 0 < (s.cell ip).ref
  valid : (s.cell ip).valid = true
  inum : (s.cell ip).inum = i

def Dinode.withAddrs (d : Dinode) (addrs : Fin (NDIRECT+1) → BitVec 32) : Dinode :=
  { d with addrs := addrs }

/-- Inode `i` may have got more blocks, and no block was lost. -/
structure Grows (s s' : Fs) (ino ino' : Nat → Dinode) (i : Nat) : Prop where
  cell : s'.cell = s.cell
  sys : s'.sys = s.sys
  dino : s'.st.dino = s.st.dino
  others : ∀ j, j ≠ i → ino' j = ino j
  same : ino' i = (ino i).withAddrs (ino' i).addrs
  own : ∀ p, own ino s.st.data p ≠ 0 → own ino' s'.st.data p = own ino s.st.data p

/-- Besides that, no block of a file has changed. -/
structure Extended (s s' : Fs) (ino ino' : Nat → Dinode) (i : Nat) : Prop
    extends Grows s s' ino ino' i where
  data : ∀ j bn, Xv6.own ino s.st.data (j, blockPlace bn) ≠ 0 →
    s'.st.data (Xv6.own ino s.st.data (j, blockPlace bn)) =
      s.st.data (Xv6.own ino s.st.data (j, blockPlace bn))

/-- Only buffers may have been read in. -/
structure QuietFs (s s' : Fs) : Prop where
  cell : s'.cell = s.cell
  mem : s'.mem = s.mem
  sys : s'.sys = s.sys
  quiet : Quiet s.st s'.st

section Basic
variable {s s' s'' : Fs} {ino ino' ino'' : Nat → Dinode} {ip : ISlot} {i : Nat}

theorem InodesOk.mem_at (h : InodesOk s ino) (ha : At s ip i) :
    s.mem ip = ino i ∧ (ino i).type ≠ 0 ∧ i < sb.ninodes := by
  obtain ⟨hty, hmem⟩ := h.cells.mem ip ha.ref ha.valid
  rw [ha.inum] at hty hmem
  refine ⟨hmem, hty, ?_⟩
  by_contra hge
  exact hty (h.blocks.none i (by omega))

theorem QuietFs.refl (h : LogOk s.st) : QuietFs s s := ⟨rfl, rfl, rfl, Quiet.refl h⟩

theorem QuietFs.trans (h : QuietFs s s') (h' : QuietFs s' s'') : QuietFs s s'' :=
  ⟨h'.cell.trans h.cell, h'.mem.trans h.mem, h'.sys.trans h.sys, h.quiet.trans h'.quiet⟩

theorem QuietFs.inodes (h : QuietFs s s') (hc : InodesOk s ino) : InodesOk s' ino := by
  refine ⟨h.quiet.spent.log, ?_, ?_⟩
  · have hb := hc.blocks
    refine ⟨?_, ?_, hb.none⟩
    · rw [h.quiet.used]
      exact hb.reserved
    · rw [h.quiet.used, h.quiet.data]
      exact hb.owns
  · rw [h.cell, h.mem]
    exact hc.cells

theorem QuietFs.core (h : QuietFs s s') (hc : FsCore s ino) : FsCore s' ino := by
  refine ⟨h.inodes hc.toInodesOk, ?_⟩
  rw [h.quiet.data]
  exact hc.filled

omit [FsLayout] in
theorem At.congr (ha : At s ip i) (h : s'.cell = s.cell) : At s' ip i := by
  refine ⟨?_, ?_, ?_⟩
  · rw [h]
    exact ha.ref
  · rw [h]
    exact ha.valid
  · rw [h]
    exact ha.inum

theorem Extended.refl (s : Fs) (ino : Nat → Dinode) (i : Nat) : Extended s s ino ino i :=
  ⟨⟨rfl, rfl, rfl, fun _ _ => rfl, rfl, fun _ _ => rfl⟩, fun _ _ _ => rfl⟩

theorem Grows.trans (h : Grows s s' ino ino' i) (h' : Grows s' s'' ino' ino'' i) :
    Grows s s'' ino ino'' i := by
  refine ⟨h'.cell.trans h.cell, h'.sys.trans h.sys, h'.dino.trans h.dino, ?_, ?_, ?_⟩
  · intro j hj
    rw [h'.others j hj, h.others j hj]
  · rw [h'.same, h.same]
    rfl
  · intro p hp
    have h1 := h.own p hp
    rw [h'.own p (by rw [h1]; exact hp), h1]

theorem Extended.trans (h : Extended s s' ino ino' i) (h' : Extended s' s'' ino' ino'' i) :
    Extended s s'' ino ino'' i := by
  refine ⟨h.toGrows.trans h'.toGrows, ?_⟩
  intro j bn hne
  have h1 := h.own _ hne
  have h2 := h'.data j bn (by rw [h1]; exact hne)
  rw [h1] at h2
  exact h2.trans (h.data j bn hne)

theorem QuietFs.extended (h : QuietFs s s') (ino : Nat → Dinode) (i : Nat) :
    Extended s s' ino ino i := by
  refine ⟨⟨h.cell, h.sys, h.quiet.dino, fun _ _ => rfl, rfl, ?_⟩, ?_⟩
  · intro p _
    rw [h.quiet.data]
  · intro j bn _
    rw [h.quiet.data]

theorem disk_bread (h : LogOk s.st) (b : Nat) :
    Runs (disk (bread b)) s fun data s' => data = s.st.view b ∧ QuietFs s s' := by
  refine runs_zoom.mpr ((bread_quiet h b).imp ?_)
  intro data st' hst
  exact ⟨hst.1, rfl, rfl, rfl, hst.2⟩

theorem view_data {b : Nat} (h : DataBlock b) : s.st.view b = s.st.data b := by
  unfold Store.data
  rw [if_pos h]

section
omit [FsLayout]

theorem setMem_runs (s : Fs) (ip : ISlot) (d : Dinode) :
    Runs (setMem ip d) s fun _ s' => s' = { s with mem := update s.mem ip d } := by
  unfold setMem
  rw [runs_modify]

theorem setAddr_runs (s : Fs) (ip : ISlot) (k : Fin (NDIRECT+1)) (b : Nat) :
    Runs (setAddr ip k b) s fun _ s' =>
      s' = { s with mem := update s.mem ip ((s.mem ip).setAddr k b) } := by
  unfold setAddr
  rw [runs_bind, runs_get]
  exact setMem_runs s ip _

/-- The blocks of a file stay, and so does the invariant when places only get filled. -/
theorem Filled.mono {data data' : Nat → Bytes} {j : Nat} (h : Filled ino data j)
    (hsize : (ino' j).size = (ino j).size)
    (hown : ∀ bn, own ino data (j, blockPlace bn) ≠ 0 → own ino' data' (j, blockPlace bn) ≠ 0) :
    Filled ino' data' j := by
  refine ⟨?_, ?_⟩
  · rw [hsize]
    exact h.size
  · intro bn hbn
    rw [hsize] at hbn
    exact hown bn (h.blocks bn hbn)

end

/-- Files keep their size and their blocks, so they stay without holes. -/
theorem FsCore.grows (h : FsCore s ino) (h' : InodesOk s' ino') (hg : Grows s s' ino ino' i) :
    FsCore s' ino' := by
  have hsame (j : Nat) : (ino' j).type = (ino j).type ∧ (ino' j).size = (ino j).size := by
    by_cases hj : j = i
    · rw [hj, hg.same]
      exact ⟨rfl, rfl⟩
    · rw [hg.others j hj]
      exact ⟨rfl, rfl⟩
  refine ⟨h', ?_⟩
  intro j hj
  rw [(hsame j).1] at hj
  apply (h.filled j hj).mono (hsame j).2
  intro bn hne
  rw [hg.own _ hne]
  exact hne

section Cells
omit [FsLayout]
variable {cell : ISlot → Icell} {mem mem' : ISlot → Dinode} {c : Icell} {d : Dinode}

/-- An entry gets another value, for the same inode. -/
theorem CellsOk.set (h : CellsOk cell mem ino)
    (href : 0 < c.ref → 0 < (cell ip).ref ∧ c.inum = (cell ip).inum)
    (hmem : 0 < c.ref → c.valid = true → (ino c.inum).type ≠ 0 ∧ d = ino c.inum) :
    CellsOk (update cell ip c) (update mem ip d) ino := by
  have hget (j : ISlot) (hj : 0 < (update cell ip c j).ref) :
      0 < (cell j).ref ∧ (update cell ip c j).inum = (cell j).inum := by
    by_cases hjp : j = ip
    · subst hjp
      rw [update_self] at hj ⊢
      exact href hj
    · rw [update_of_ne hjp] at hj ⊢
      exact ⟨hj, rfl⟩
  refine ⟨?_, ?_⟩
  · intro j k hj hk hjk
    obtain ⟨h1, h2⟩ := hget j hj
    obtain ⟨h3, h4⟩ := hget k hk
    exact h.unique j k h1 h3 (by rw [← h2, ← h4]; exact hjk)
  · intro j hj hv
    by_cases hjp : j = ip
    · subst hjp
      rw [update_self] at hj hv ⊢
      rw [update_self]
      exact hmem hj hv
    · rw [update_of_ne hjp] at hj hv ⊢
      rw [update_of_ne hjp]
      exact h.mem j hj hv

/-- An entry that is in use gets another value with the same inode. -/
theorem CellsOk.recount (h : CellsOk cell mem ino) (href : 0 < c.ref → 0 < (cell ip).ref)
    (hinum : c.inum = (cell ip).inum) (hvalid : c.valid = true → (cell ip).valid = true) :
    CellsOk (update cell ip c) mem ino := by
  rw [← update_eq_self ip mem]
  apply h.set (fun hr => ⟨href hr, hinum⟩)
  intro hr hv
  rw [hinum]
  exact h.mem ip (href hr) (hvalid hv)

theorem cachedSlot_some {inum : Nat} {ip : ISlot}
    (h : cachedSlot cell inum = some ip) : 0 < (cell ip).ref ∧ (cell ip).inum = inum := by
  have := List.find?_some h
  simpa using this

theorem cachedSlot_none {inum : Nat} (h : cachedSlot cell inum = none)
    (ip : ISlot) : ¬ (0 < (cell ip).ref ∧ (cell ip).inum = inum) := by
  have := List.find?_eq_none.mp h ip (List.mem_finRange ip)
  simpa using this

theorem emptySlot_none (h : emptySlot cell = none) (ip : ISlot) :
    (cell ip).ref ≠ 0 := by
  have := List.find?_eq_none.mp h ip (List.mem_finRange ip)
  simpa using this

theorem CellsOk.take (h : CellsOk cell mem ino)
    (hnew : ∀ j, ¬ (0 < (cell j).ref ∧ (cell j).inum = c.inum)) (hvalid : c.valid = false) :
    CellsOk (update cell ip c) mem ino := by
  refine ⟨?_, ?_⟩
  · intro j k hj hk hjk
    by_cases hjp : j = ip
    · by_cases hkp : k = ip
      · rw [hjp, hkp]
      · rw [hjp, update_self, update_of_ne hkp] at hjk
        rw [update_of_ne hkp] at hk
        exact absurd ⟨hk, hjk.symm⟩ (hnew k)
    · rw [update_of_ne hjp] at hj hjk
      by_cases hkp : k = ip
      · rw [hkp, update_self] at hjk
        exact absurd ⟨hj, hjk⟩ (hnew j)
      · rw [update_of_ne hkp] at hk hjk
        exact h.unique j k hj hk hjk
  · intro j hj hv
    by_cases hjp : j = ip
    · rw [hjp, update_self, hvalid] at hv
      cases hv
    · rw [update_of_ne hjp] at hj hv ⊢
      exact h.mem j hj hv

theorem CellsOk.updated (h : CellsOk cell mem ino) (href : 0 < (cell ip).ref)
    (hinum : (cell ip).inum = i) (hd : d.type ≠ 0) :
    CellsOk cell (update mem ip d) (update ino i d) := by
  refine ⟨h.unique, ?_⟩
  intro j hj hv
  by_cases hjp : j = ip
  · subst hjp
    rw [hinum, update_self, update_self]
    exact ⟨hd, rfl⟩
  · have hne : (cell j).inum ≠ i := by
      intro heq
      exact hjp (h.unique j ip hj href (heq.trans hinum.symm))
    rw [update_of_ne hjp, update_of_ne hne]
    exact h.mem j hj hv

end Cells

end Basic

section Budget
variable {own own' : Place → Nat} {lh lh' : List Nat} {T : Finset Place}

omit [FsLayout] in
theorem card_filter_drop {ι : Type} [DecidableEq ι] {T A : Finset ι} {P Q : ι → Prop}
    [DecidablePred P] [DecidablePred Q] (hA : ∀ q ∈ A, q ∈ T ∧ P q ∧ ¬ Q q)
    (hQ : ∀ q ∈ T, Q q → P q) : (T.filter Q).card + A.card ≤ (T.filter P).card := by
  have hdisj : Disjoint (T.filter Q) A := by
    rw [Finset.disjoint_left]
    intro q hq hqA
    exact (hA q hqA).2.2 (Finset.mem_filter.mp hq).2
  rw [← Finset.card_union_of_disjoint hdisj]
  apply Finset.card_le_card
  intro q hq
  rw [Finset.mem_filter]
  rcases Finset.mem_union.mp hq with hq | hq
  · rw [Finset.mem_filter] at hq
    exact ⟨hq.1, hQ q hq.1 hq.2⟩
  · exact ⟨(hA q hq).1, (hA q hq).2.1⟩

def missing (own : Place → Nat) (T : Finset Place) : Nat := (T.filter fun p => own p = 0).card

def unlogged (own : Place → Nat) (lh : List Nat) (T : Finset Place) : Nat :=
  (T.filter fun p => own p ∉ lh).card

/-- All that was allocated and logged were blocks of the places `T`. -/
structure Paid (T : Finset Place) (s s' : Store) (ino ino' : Nat → Dinode) : Prop where
  log : LogOk s'
  outstanding : s'.outstanding = s.outstanding
  lh : ∀ b ∈ s.lh, b ∈ s'.lh
  free : s.free + missing (Xv6.own ino' s'.data) T ≤ s'.free + missing (Xv6.own ino s.data) T
  room : s.room + unlogged (Xv6.own ino' s'.data) s'.lh T ≤
    s'.room + unlogged (Xv6.own ino s.data) s.lh T

/-- The panics of code that allocates and logs blocks of the places `T`. -/
def TooFew (T : Finset Place) (s : Store) (ino : Nat → Dinode) (e : String) : Prop :=
  (e = "balloc: out of blocks" ∧ s.free < missing (Xv6.own ino s.data) T) ∨
  (e = "too big a transaction" ∧ s.room ≤ unlogged (Xv6.own ino s.data) s.lh T)

theorem zero_not_logged {s : Store} (h : LogOk s) : 0 ∉ s.lh := by
  intro hz
  have h1 := h.home 0 hz
  have h2 := inodestart_lt
  omega

omit [FsLayout] in
theorem missing_pos {p : Place} (hT : p ∈ T) (hp : own p = 0) : 1 ≤ missing own T :=
  Finset.card_pos.mpr ⟨p, Finset.mem_filter.mpr ⟨hT, hp⟩⟩

theorem unlogged_pos {s : Store} (h : LogOk s) {p : Place} (hT : p ∈ T) (hp : own p = 0) :
    1 ≤ unlogged own s.lh T := by
  refine Finset.card_pos.mpr ⟨p, Finset.mem_filter.mpr ⟨hT, ?_⟩⟩
  rw [hp]
  exact zero_not_logged h

omit [FsLayout] in
theorem missing_assign {p : Place} {b : Nat} (hT : p ∈ T) (hp : own p = 0)
    (h : own' = update own p b) (hb : b ≠ 0) : missing own' T + 1 ≤ missing own T := by
  rw [← Finset.card_singleton p]
  apply card_filter_drop
  · intro q hq
    rw [Finset.mem_singleton.mp hq, h, update_self]
    exact ⟨hT, hp, hb⟩
  · intro q _ hq
    by_cases hqp : q = p
    · rw [hqp]
      exact hp
    · rw [h, update_of_ne hqp] at hq
      exact hq

theorem unlogged_drop {s : Store} (hlh : ∀ b ∈ s.lh, b ∈ lh')
    (hown : ∀ p, own p ≠ 0 → own' p = own p) (h : LogOk s) {A : Finset Place}
    (hA : ∀ q ∈ A, q ∈ T ∧ own q ∉ s.lh ∧ own' q ∈ lh') :
    unlogged own' lh' T + A.card ≤ unlogged own s.lh T := by
  apply card_filter_drop
  · intro q hq
    obtain ⟨h1, h2, h3⟩ := hA q hq
    exact ⟨h1, h2, not_not.mpr h3⟩
  · intro q _ hq hin
    apply hq
    rw [hown q]
    · exact hlh _ hin
    · intro hz
      rw [hz] at hin
      exact zero_not_logged h hin

theorem unlogged_block {s : Store} (hlh : ∀ b ∈ s.lh, b ∈ lh')
    (hown : ∀ p, own p ≠ 0 → own' p = own p) (h : LogOk s) {p : Place} (hT : p ∈ T)
    (hin : own' p ∈ lh') :
    unlogged own' lh' T + (if own p ∈ s.lh then 0 else 1) ≤ unlogged own s.lh T := by
  by_cases hp : own p ∈ s.lh
  · rw [if_pos hp]
    apply unlogged_drop hlh hown h (A := ∅)
    intro q hq
    exact absurd hq (Finset.notMem_empty q)
  · rw [if_neg hp, ← Finset.card_singleton p]
    apply unlogged_drop hlh hown h
    intro q hq
    rw [Finset.mem_singleton.mp hq]
    exact ⟨hT, hp, hin⟩

/-- An entry of the indirect block got a new block, and both blocks were logged. -/
theorem unlogged_entry {s : Store} (h : LogOk s) (hlh : ∀ b ∈ s.lh, b ∈ lh')
    (hown : ∀ p, own p ≠ 0 → own' p = own p) {i k ind : Nat} (hTind : (i, NDIRECT) ∈ T)
    (hTent : (i, NDIRECT+1+k) ∈ T) (hz : own (i, NDIRECT+1+k) = 0) (hind : own (i, NDIRECT) = ind)
    (hind' : own' (i, NDIRECT) = ind) (hin : own' (i, NDIRECT+1+k) ∈ lh') (hinind : ind ∈ lh') :
    unlogged own' lh' T + (1 + if ind ∈ s.lh then 0 else 1) ≤ unlogged own s.lh T := by
  have hzero : own (i, NDIRECT+1+k) ∉ s.lh := by
    rw [hz]
    exact zero_not_logged h
  by_cases hp : ind ∈ s.lh
  · rw [if_pos hp, Nat.add_zero, ← Finset.card_singleton (i, NDIRECT+1+k)]
    apply unlogged_drop hlh hown h
    intro q hq
    rw [Finset.mem_singleton.mp hq]
    exact ⟨hTent, hzero, hin⟩
  · have hne : ((i, NDIRECT) : Place) ≠ (i, NDIRECT+1+k) := by
      intro heq
      have := (Prod.ext_iff.mp heq).2
      dsimp only at this
      omega
    have hcard : 1 + 1 = ({(i, NDIRECT), (i, NDIRECT+1+k)} : Finset Place).card :=
      (Finset.card_pair hne).symm
    rw [if_neg hp, hcard]
    apply unlogged_drop hlh hown h
    intro q hq
    rw [Finset.mem_insert, Finset.mem_singleton] at hq
    rcases hq with rfl | rfl
    · rw [hind, hind']
      exact ⟨hTind, hp, hinind⟩
    · exact ⟨hTent, hzero, hin⟩

variable {s s' s'' : Store} {ino ino' ino'' : Nat → Dinode}

theorem Paid.refl (h : LogOk s) : Paid T s s ino ino := ⟨h, rfl, fun _ hb => hb, le_rfl, le_rfl⟩

theorem Paid.trans (h : Paid T s s' ino ino') (h' : Paid T s' s'' ino' ino'') :
    Paid T s s'' ino ino'' where
  log := h'.log
  outstanding := h'.outstanding.trans h.outstanding
  lh b hb := h'.lh b (h.lh b hb)
  free := by have := h.free; have := h'.free; omega
  room := by have := h.room; have := h'.room; omega

theorem Quiet.paid (h : Quiet s s') (ino : Nat → Dinode) : Paid T s s' ino ino := by
  refine ⟨h.spent.log, h.spent.outstanding, h.spent.lh, ?_, ?_⟩
  · rw [h.data]
    have := h.spent.free
    omega
  · rw [h.data, h.lh]
    have := h.spent.room
    omega

theorem Spent.paid {nb nl : Nat} (h : Spent s s' nb nl)
    (hm : missing (Xv6.own ino' s'.data) T + nb ≤ missing (Xv6.own ino s.data) T)
    (hu : unlogged (Xv6.own ino' s'.data) s'.lh T + nl ≤ unlogged (Xv6.own ino s.data) s.lh T) :
    Paid T s s' ino ino' := by
  refine ⟨h.log, h.outstanding, h.lh, ?_, ?_⟩
  · have := h.free
    omega
  · have := h.room
    omega

theorem TooFew.after {e : String} (h : TooFew T s' ino' e) (h' : Paid T s s' ino ino') :
    TooFew T s ino e := by
  rcases h with ⟨he, hf⟩ | ⟨he, hr⟩
  · exact Or.inl ⟨he, by have := h'.free; omega⟩
  · exact Or.inr ⟨he, by have := h'.room; omega⟩

theorem Short.tooFew {nb nl : Nat} {e : String} (h : Short s nb nl e)
    (hm : nb ≤ missing (Xv6.own ino s.data) T) (hu : nl ≤ unlogged (Xv6.own ino s.data) s.lh T) :
    TooFew T s ino e := by
  rcases h with ⟨he, hf⟩ | ⟨he, hr⟩
  · exact Or.inl ⟨he, by omega⟩
  · exact Or.inr ⟨he, by omega⟩

def places (i bn : Nat) : Finset Place :=
  if bn < NDIRECT then {(i, bn)} else {(i, NDIRECT), (i, bn+1)}

end Budget

section Bmap
variable {s : Fs} {ino : Nat → Dinode} {ip : ISlot} {i : Nat}

theorem own_dataBlock (h : InodesOk s ino) {p : Place} (hp : own ino s.st.data p ≠ 0) :
    DataBlock (own ino s.st.data p) := h.blocks.owns.inside p hp

theorem not_used_of_new (h : InodesOk s ino) {b : Nat} (hb : DataBlock b)
    (hu : s.st.used b = false) (p : Place) : own ino s.st.data p ≠ b := by
  intro heq
  have := (h.blocks.owns.used b hb).mpr ⟨p, heq⟩
  rw [hu] at this
  cases this

omit [FsLayout] in
/-- A place gets a block, the places of files that had one keep it. -/
theorem kept_of_update {own own' : Place → Nat} {p : Place} {b : Nat}
    (h : own' = update own p b) (hp : own p = 0) {q : Place} (hq : own q ≠ 0) :
    own' q = own q := by
  have hne : q ≠ p := by
    rintro rfl
    exact hq hp
  rw [h, update_of_ne hne]

theorem assign_addr (h : InodesOk s ino) (ha : At s ip i) (ht : 1 ≤ s.st.outstanding)
    (k : Fin (NDIRECT+1)) (hk : own ino s.st.data (i, k) = 0) :
    Ensures (do
      let b ← disk balloc
      setAddr ip k b
      pure b) s (Short s.st 1 1) fun b s' => ∃ ino', InodesOk s' ino' ∧ Extended s s' ino ino' i ∧
        own ino' s'.st.data = update (own ino s.st.data) (i, k.val) b ∧ DataBlock b ∧
        b ∈ s'.st.lh ∧ Spent s.st s'.st 1 1 := by
  obtain ⟨hmem, hty, hlt⟩ := h.mem_at ha
  apply ensures_bind
  apply ensures_zoom
  refine (balloc_spec ⟨h.log, ht⟩ h.blocks.reserved).imp (fun e he => he) ?_
  intro b st1 ⟨hb, hub, hu1, hd1, hdat1, hin1, hsp1⟩
  refine (setAddr_runs _ ip k b).ensures.bind ?_
  intro _ s1 hs1
  subst hs1
  apply ensures_pure
  have hnew := not_used_of_new h hb hub
  have hown := own_setAddr hty k hk hnew hb.lt
  have howns : Owns (own (update ino i ((ino i).setAddr k b)) st1.data) st1.used
      DataBlock := by
    rw [hdat1, hown, hu1]
    exact h.blocks.owns.assign not_dataBlock_zero hk hb hub
  have hkeep {q : Place} (hq : own ino s.st.data q ≠ 0) :
      own (update ino i ((ino i).setAddr k b)) st1.data q = own ino s.st.data q := by
    rw [hdat1]
    exact kept_of_update hown hk hq
  refine ⟨update ino i ((ino i).setAddr k b), ?_, ?_, ?_, hb, hin1, hsp1⟩
  · refine ⟨hsp1.log, ⟨?_, howns, ?_⟩, ?_⟩
    · change MetaUsed st1.used
      rw [hu1]
      exact h.blocks.reserved.update hb true
    · intro j hj
      have hji : j ≠ i := by omega
      rw [update_of_ne hji]
      exact h.blocks.none j hj
    · change CellsOk s.cell (update s.mem ip ((s.mem ip).setAddr k b)) _
      rw [hmem]
      exact h.cells.updated ha.ref ha.inum hty
  · refine ⟨⟨rfl, rfl, hd1, ?_, ?_, ?_⟩, ?_⟩
    · intro j hj
      exact update_of_ne hj _ _
    · rw [update_self]
      rfl
    · intro p hp
      exact hkeep hp
    · intro j bn hne
      change st1.data _ = _
      rw [hdat1, update_of_ne (hnew _)]
  · change own _ st1.data = _
    rw [hdat1, hown]

theorem bmapAddr_spec (h : InodesOk s ino) (ha : At s ip i) (ht : 1 ≤ s.st.outstanding)
    (k : Fin (NDIRECT+1)) {T : Finset Place} (hT : (i, k.val) ∈ T) :
    Ensures (bmapAddr ip k) s (TooFew T s.st ino) fun b s' => ∃ ino', InodesOk s' ino' ∧
      Extended s s' ino ino' i ∧ own ino' s'.st.data (i, k.val) = b ∧ DataBlock b ∧
        Paid T s.st s'.st ino ino' := by
  obtain ⟨hmem, hty, hlt⟩ := h.mem_at ha
  have haddr : ((s.mem ip).addrs k).toNat = own ino s.st.data (i, k.val) := by
    rw [hmem, own_addr _ hty]
  unfold bmapAddr
  apply ensures_get
  dsimp only
  rw [haddr]
  apply ensures_ite
  · intro hz
    refine (assign_addr h ha ht k hz).imp ?_ ?_
    · intro e he
      exact he.tooFew (missing_pos hT hz) (unlogged_pos h.log hT hz)
    intro b s1 ⟨ino1, hc1, hg1, hown1, hb, hin1, hsp1⟩
    refine ⟨ino1, hc1, hg1, ?_, hb, hsp1.paid ?_ ?_⟩
    · rw [hown1, update_self]
    · exact missing_assign hT hz hown1 hb.ne_zero
    · apply unlogged_drop hsp1.lh (fun p hp => hg1.own p hp) h.log (A := {(i, k.val)})
      intro q hq
      rw [Finset.mem_singleton.mp hq]
      refine ⟨hT, ?_, ?_⟩
      · rw [hz]
        exact zero_not_logged h.log
      · rw [hown1, update_self]
        exact hin1
  · intro hne
    apply ensures_pure
    exact ⟨ino, h, Extended.refl s ino i, rfl, own_dataBlock h hne, Paid.refl h.log⟩

theorem assign_entry (h : InodesOk s ino) (ha : At s ip i) (ht : 1 ≤ s.st.outstanding) {e : Nat}
    (he : e < NINDIRECT) (hind : (ino i).indirect ≠ 0)
    (hk : own ino s.st.data (i, NDIRECT+1+e) = 0) :
    Ensures (do
      let b ← disk balloc
      disk (logged (ino i).indirect fun a => leSet 4 a (4*e) b)
      pure b) s (Short s.st 1 1) fun b s' => InodesOk s' ino ∧ Extended s s' ino ino i ∧
        own ino s'.st.data = update (own ino s.st.data) (i, NDIRECT+1+e) b ∧
        DataBlock b ∧ b ∈ s'.st.lh ∧ (ino i).indirect ∈ s'.st.lh ∧
        Spent s.st s'.st 1 (1 + if (ino i).indirect ∈ s.st.lh then 0 else 1) := by
  obtain ⟨hmem, hty, hlt⟩ := h.mem_at ha
  have hindown : own ino s.st.data (i, NDIRECT) = (ino i).indirect := own_indirect _ hty
  have hinddata : DataBlock (ino i).indirect := by
    rw [← hindown]
    apply own_dataBlock h
    rw [hindown]
    exact hind
  apply ensures_bind
  apply ensures_zoom
  refine (balloc_spec ⟨h.log, ht⟩ h.blocks.reserved).imp (fun e he => he) ?_
  intro b st1 ⟨hb, hub, hu1, hd1, hdat1, hin1, hsp1⟩
  have hnew := not_used_of_new h hb hub
  apply ensures_bind
  apply ensures_zoom
  refine (logged_data (hsp1.inTx ⟨h.log, ht⟩) hinddata _).imp ?_ ?_
  · intro e he
    exact (he.after hsp1).mono (by omega) (by omega)
  intro _ st2 ⟨hu2, hd2, hdat2, hsp2, hin2⟩
  apply ensures_pure
  -- The new block is clear, and then the number goes into the indirect block.
  have hclear : own ino st1.data = own ino s.st.data := by
    funext ⟨j, m⟩
    apply own_congr rfl
    intro hj hindj
    rw [hdat1, update_of_ne]
    rw [← own_indirect s.st.data hj]
    exact hnew _
  have howns := h.blocks.owns
  rw [← hclear] at howns
  have hown2 : own ino st2.data = update (own ino s.st.data) (i, NDIRECT+1+e) b := by
    rw [hdat2, own_setEntry howns hty hind he hb.lt, hclear]
  have hkeep {q : Place} (hq : own ino s.st.data q ≠ 0) : own ino st2.data q = own ino s.st.data q :=
    kept_of_update hown2 hk hq
  have hcost : (if (ino i).indirect ∈ st1.lh then 0 else 1) ≤
      if (ino i).indirect ∈ s.st.lh then 0 else 1 := by
    by_cases hin : (ino i).indirect ∈ s.st.lh
    · rw [if_pos hin, if_pos (hsp1.lh _ hin)]
    · rw [if_neg hin]
      split_ifs <;> omega
  refine ⟨?_, ?_, hown2, hb, hsp2.lh b hin1, hin2,
    (hsp1.trans hsp2).mono (by omega) (Nat.add_le_add_left hcost 1)⟩
  · refine ⟨hsp2.log, ⟨?_, ?_, h.blocks.none⟩, h.cells⟩
    · change MetaUsed st2.used
      rw [hu2, hu1]
      exact h.blocks.reserved.update hb true
    · change Owns (own ino st2.data) st2.used DataBlock
      rw [hown2, hu2, hu1]
      exact h.blocks.owns.assign not_dataBlock_zero hk hb hub
  · refine ⟨⟨rfl, rfl, hd2.trans hd1, fun _ _ => rfl, rfl, fun p hp => hkeep hp⟩, ?_⟩
    intro j bn hne
    change st2.data _ = _
    have hneind : own ino s.st.data (j, blockPlace bn) ≠ (ino i).indirect := by
      apply Ne.symm
      apply h.blocks.owns.indirect_ne hty hind
      intro heq
      exact blockPlace_ne bn (Prod.ext_iff.mp heq).2
    rw [hdat2, update_of_ne hneind, hdat1, update_of_ne (hnew _)]

omit [FsLayout] in
theorem blockPlace_direct {bn : Nat} (h : bn < NDIRECT) :
    blockPlace bn = (Fin.ofNat (NDIRECT+1) bn).val := by
  have hmod : bn % (NDIRECT+1) = bn := Nat.mod_eq_of_lt (by omega)
  unfold blockPlace
  rw [if_pos h, Fin.val_ofNat, hmod]

omit [FsLayout] in
theorem blockPlace_indirect {bn : Nat} (h : ¬ bn < NDIRECT) :
    blockPlace bn = NDIRECT+1+(bn-NDIRECT) := by
  unfold blockPlace
  rw [if_neg h]
  omega

/-- `bmap` gives block `bn` of the file, and allocates it where there is none. -/
theorem bmap_spec (h : InodesOk s ino) (ha : At s ip i) (ht : 1 ≤ s.st.outstanding) {bn : Nat}
    (hbn : bn < MAXFILE) {T : Finset Place} (hT : places i bn ⊆ T) :
    Ensures (bmap ip bn) s (TooFew T s.st ino) fun b s' => ∃ ino', InodesOk s' ino' ∧
      Extended s s' ino ino' i ∧ own ino' s'.st.data (i, blockPlace bn) = b ∧ DataBlock b ∧
        Paid T s.st s'.st ino ino' := by
  unfold bmap
  apply ensures_ite
  · intro hdir
    rw [blockPlace_direct hdir]
    apply bmapAddr_spec h ha ht
    apply hT
    unfold places
    rw [if_pos hdir, ← blockPlace_direct hdir, Finset.mem_singleton]
    unfold blockPlace
    rw [if_pos hdir]
  · intro hdir
    have hent : bn - NDIRECT < NINDIRECT := by
      unfold MAXFILE at hbn
      omega
    unfold places at hT
    rw [if_neg hdir] at hT
    have hTind : (i, NDIRECT) ∈ T := hT (Finset.mem_insert_self _ _)
    have hTent : (i, NDIRECT+1+(bn-NDIRECT)) ∈ T := by
      rw [← blockPlace_indirect hdir]
      apply hT
      unfold blockPlace
      rw [if_neg hdir]
      exact Finset.mem_insert_of_mem (Finset.mem_singleton_self _)
    rw [if_pos hent, blockPlace_indirect hdir]
    refine (bmapAddr_spec h ha ht (Fin.last NDIRECT) hTind).bind ?_
    intro ind s1 ⟨ino1, hc1, hg1, hown1, hind, hpd1⟩
    have ha1 := ha.congr hg1.cell
    have hty1 := (hc1.mem_at ha1).2.1
    have hindeq : (ino1 i).indirect = ind := (own_indirect _ hty1).symm.trans hown1
    have hindne : (ino1 i).indirect ≠ 0 := by
      rw [hindeq]
      exact hind.ne_zero
    refine (disk_bread hc1.log ind).ensures.bind ?_
    intro a s2 ⟨hdata, hq2⟩
    have hc2 := hq2.inodes hc1
    have ha2 := ha1.congr hq2.cell
    have hpd2 := hpd1.trans (hq2.quiet.paid ino1)
    have ht2 : 1 ≤ s2.st.outstanding := by rw [hpd2.outstanding]; exact ht
    have hentry : leGet 4 a (4*(bn-NDIRECT)) = own ino1 s2.st.data (i, NDIRECT+1+(bn-NDIRECT)) := by
      rw [own_entry hty1 hindne hent, hq2.quiet.data, hindeq, ← view_data hind, hdata]
    have hg2 := hg1.trans (hq2.extended ino1 i)
    dsimp only
    rw [hentry]
    apply ensures_ite
    · intro hz
      rw [← hindeq]
      refine (assign_entry hc2 ha2 ht2 hent hindne hz).imp ?_ ?_
      · intro e he
        exact (he.tooFew (missing_pos hTent hz) (unlogged_pos hc2.log hTent hz)).after hpd2
      intro b s3 ⟨hc3, hg3, hown3, hb, hin3, hinind, hsp3⟩
      refine ⟨ino1, hc3, hg2.trans hg3, ?_, hb, hpd2.trans (hsp3.paid ?_ ?_)⟩
      · rw [hown3, update_self]
      · exact missing_assign hTent hz hown3 hb.ne_zero
      · -- The new block and, if it was not yet there, the indirect block are in the log.
        exact unlogged_entry hc2.log hsp3.lh (fun p hp => hg3.own p hp) hTind hTent hz
          (own_indirect _ hty1) (own_indirect _ hty1) (by rw [hown3, update_self]; exact hin3)
          hinind
    · intro hne
      apply ensures_pure
      exact ⟨ino1, hc2, hg2, rfl, own_dataBlock hc2 hne, hpd2⟩

theorem bmap_quiet (h : InodesOk s ino) (ha : At s ip i) {bn : Nat} (hbn : bn < MAXFILE)
    (hne : own ino s.st.data (i, blockPlace bn) ≠ 0) :
    Runs (bmap ip bn) s fun b s' => b = own ino s.st.data (i, blockPlace bn) ∧ QuietFs s s' := by
  obtain ⟨hmem, hty, hlt⟩ := h.mem_at ha
  have haddr (k : Fin (NDIRECT+1)) (hk : own ino s.st.data (i, k.val) ≠ 0) :
      bmapAddr ip k s = .ok (own ino s.st.data (i, k.val), s) := by
    have heq : ((s.mem ip).addrs k).toNat = own ino s.st.data (i, k.val) := by
      rw [hmem, own_addr _ hty]
    change (if ((s.mem ip).addrs k).toNat = 0 then _ else _ : Prog Fs Nat) s = _
    rw [heq, if_neg hk]
    rfl
  unfold bmap
  by_cases hdir : bn < NDIRECT
  · rw [if_pos hdir]
    rw [blockPlace_direct hdir] at hne ⊢
    exact ⟨_, s, haddr _ hne, rfl, QuietFs.refl h.log⟩
  · have hent : bn - NDIRECT < NINDIRECT := by
      unfold MAXFILE at hbn
      omega
    rw [if_neg hdir, if_pos hent]
    rw [blockPlace_indirect hdir] at hne ⊢
    have hindne : (ino i).indirect ≠ 0 := by
      intro hz
      exact hne (own_entry_none hz (by omega))
    have hindown : own ino s.st.data (i, (Fin.last NDIRECT).val) = (ino i).indirect :=
      own_indirect _ hty
    have hinddata : DataBlock (ino i).indirect := by
      rw [← hindown]
      apply own_dataBlock h
      rw [hindown]
      exact hindne
    rw [runs_bind]
    refine ⟨_, s, haddr _ (by rw [hindown]; exact hindne), ?_⟩
    rw [hindown]
    dsimp only
    refine (disk_bread h.log _).bind ?_
    intro a s1 ⟨hdata, hq1⟩
    have hentry : leGet 4 a (4*(bn-NDIRECT)) = own ino s.st.data (i, NDIRECT+1+(bn-NDIRECT)) := by
      rw [own_entry hty hindne hent, ← view_data hinddata, hdata]
    rw [hentry, if_neg hne, runs_pure]
    exact ⟨rfl, hq1⟩

end Bmap

end Xv6
