import Xv6.Mkfs
import Xv6.BufCoherence
import Xv6.FsNodes

/-! `iappend`: the blocks below the mark `freeblock` have one place each, those from the mark
on are clear, and an append extends the content of one inode. -/
namespace Xv6.Mkfs

open Function

/-- A superblock with the areas of `mkfs`. The number of inodes is free: there are places for
more than `NINODES`. -/
class Layout extends FsLayout where
  size_eq : FsLayout.sb.size = FSSIZE
  inodestart_eq : FsLayout.sb.inodestart = Mkfs.sb.inodestart
  bmapstart_eq : FsLayout.sb.bmapstart = Mkfs.sb.bmapstart

variable [Layout]

def Image.fs (m : Image) : Fs := bootFs m.block noFiles

section Areas

theorem datastart_eq : FsLayout.sb.datastart = nmeta := by
  unfold Superblock.datastart
  rw [Layout.size_eq, Layout.bmapstart_eq]
  decide

theorem dataBlock_iff (b : Nat) : DataBlock b ↔ nmeta ≤ b ∧ b < FSSIZE := by
  unfold DataBlock
  rw [datastart_eq, Layout.size_eq]

theorem IBLOCK_eq (i : Nat) : Xv6.IBLOCK i = IBLOCK i := by
  unfold Xv6.IBLOCK IBLOCK
  rw [Layout.inodestart_eq]

/-- The blocks of the inodes lie in the image, in front of the free map. -/
theorem IBLOCK_lt {i : Nat} (hi : i < FsLayout.sb.ninodes) :
    sb.inodestart ≤ IBLOCK i ∧ IBLOCK i < sb.bmapstart := by
  have h := IBLOCK_bounds hi
  rwa [IBLOCK_eq, Layout.inodestart_eq, Layout.bmapstart_eq] at h

omit [Layout] in
theorem areas_lt : sb.bmapstart < nmeta ∧ nmeta < FSSIZE ∧ FSSIZE < 2^22 := by decide

end Areas

section Sectors
variable {m : Image} {b : Nat} {buf : Bytes}

section
omit [Layout]

theorem rsect_ok (hb : b < FSSIZE) (hlen : m.len = FSSIZE) : rsect b m = .ok (m.block b, m) := by
  have hmod : b % 2^22 = b := Nat.mod_eq_of_lt (hb.trans areas_lt.2.2)
  unfold rsect
  change (panicIf (m.len ≤ b % 2^22) "read" >>= fun _ => pure (m.block (b % 2^22)) : Prog Image Bytes) m = _
  unfold panicIf
  rw [hmod, if_neg (by omega)]
  rfl

theorem rsect_end (hlen : m.len = FSSIZE) : rsect FSSIZE m = .error "read" := by
  unfold rsect
  apply panics_get
  apply panics_bind
  apply panicIf_panics
  rw [hlen, Nat.mod_eq_of_lt areas_lt.2.2]

theorem wsect_ok (hb : b < FSSIZE) : wsect b buf m = .ok ((), m.write b buf) := by
  unfold wsect
  rw [Nat.mod_eq_of_lt (hb.trans areas_lt.2.2)]
  rfl

theorem write_len (hb : b < FSSIZE) (hlen : m.len = FSSIZE) : (m.write b buf).len = FSSIZE := by
  unfold Image.write
  dsimp only
  omega

end

theorem write_data (m : Image) (hb : DataBlock b) (buf : Bytes) :
    (m.write b buf).fs.st.dino = m.fs.st.dino ∧
      (m.write b buf).fs.st.data = update m.fs.st.data b buf := by
  have hview : (m.write b buf).fs.st.view = update m.fs.st.view b buf := rfl
  exact (data_of_data_write hb hview).2

theorem write_inode (m : Image) {i : Nat} (hi : i < FsLayout.sb.ninodes) (d : Dinode) :
    (m.write (IBLOCK i) (putDinode (m.block (IBLOCK i)) i d)).fs.st.dino =
        update m.fs.st.dino i d ∧
      (m.write (IBLOCK i) (putDinode (m.block (IBLOCK i)) i d)).fs.st.data = m.fs.st.data := by
  have hview : (m.write (IBLOCK i) (putDinode (m.block (IBLOCK i)) i d)).fs.st.view =
      update m.fs.st.view (Xv6.IBLOCK i) (putDinode (m.fs.st.view (Xv6.IBLOCK i)) i d) := by
    rw [IBLOCK_eq]
    rfl
  exact (dino_of_inode_write hi hview).2

theorem view_data_eq (m : Image) (hb : DataBlock b) : m.fs.st.data b = m.block b := if_pos hb

theorem dino_eq (m : Image) {i : Nat} (hi : i < FsLayout.sb.ninodes) :
    m.fs.st.dino i = dinodeAt (m.block (IBLOCK i)) i := by
  unfold Store.dino
  rw [if_pos hi, IBLOCK_eq]
  rfl

end Sectors

/-- The counter `freeblock` is the mark between the blocks that have a place and those that
are clear. -/
structure Laid (m : Image) (ino : Nat → Dinode) : Prop where
  len : m.len = FSSIZE
  low : nmeta ≤ m.freeblock
  high : m.freeblock ≤ FSSIZE
  fresh : ∀ b, m.freeblock ≤ b → m.block b = zeroes
  owns : Owns (own ino m.fs.st.data) (fun b => decide (b < m.freeblock)) DataBlock

section Blocks
variable {m : Image} {ino : Nat → Dinode} {i : Nat}

omit [Layout] in
theorem mark_succ (f : Nat) :
    (fun b => decide (b < f+1)) = update (fun b => decide (b < f)) f true := by
  funext b
  by_cases hb : b = f
  · rw [hb, update_self]
    exact decide_eq_true (Nat.lt_succ_self f)
  · rw [update_of_ne hb]
    congr 1
    rw [eq_iff_iff]
    omega

def Image.bump (m : Image) : Image := { m with freeblock := m.freeblock+1 }

theorem bump_fs (m : Image) : m.bump.fs = m.fs := rfl

theorem nextBlock_eq (h : Laid m ino) : nextBlock m = .ok (m.freeblock, m.bump) := by
  have hhigh := h.high
  have hlt := areas_lt.2.2
  unfold nextBlock
  change (.ok (m.freeblock, { m with freeblock := (m.freeblock+1) % 2^32 }) :
    Except String (Nat × Image)) = _
  rw [Nat.mod_eq_of_lt (by omega)]
  rfl

theorem Laid.unplaced (h : Laid m ino) (hlt : m.freeblock < FSSIZE) :
    DataBlock m.freeblock ∧ (∀ p, own ino m.fs.st.data p ≠ m.freeblock) ∧
      m.fs.st.data m.freeblock = zeroes := by
  have hb : DataBlock m.freeblock := (dataBlock_iff _).mpr ⟨h.low, hlt⟩
  refine ⟨hb, ?_, ?_⟩
  · intro p hp
    have hu := (h.owns.used _ hb).mpr ⟨p, hp⟩
    rw [decide_eq_true_eq] at hu
    exact Nat.lt_irrefl _ hu
  · rw [view_data_eq m hb]
    exact h.fresh _ le_rfl

theorem Laid.placed {m' : Image} {ino' : Nat → Dinode} (h : Laid m ino) (hlt : m.freeblock < FSSIZE)
    {p : Place} (hp : own ino m.fs.st.data p = 0) (hfree : m'.freeblock = m.freeblock+1)
    (hlen : m'.len = m.len) (hblock : ∀ b, m.freeblock ≤ b → m'.block b = m.block b)
    (hown : own ino' m'.fs.st.data = update (own ino m.fs.st.data) p m.freeblock) :
    Laid m' ino' := by
  obtain ⟨hb, _, _⟩ := h.unplaced hlt
  have hlow := h.low
  refine ⟨hlen.trans h.len, by omega, by omega, ?_, ?_⟩
  · intro b hb
    rw [hblock b (by omega)]
    exact h.fresh b (by omega)
  · rw [hown, hfree, mark_succ]
    exact h.owns.assign not_dataBlock_zero hp hb (decide_eq_false (Nat.lt_irrefl _))

/-- A block that has a place lies below the mark. -/
theorem Laid.below (h : Laid m ino) {p : Place} {b : Nat} (hp : own ino m.fs.st.data p = b)
    (hb : b ≠ 0) : DataBlock b ∧ nmeta ≤ b ∧ b < FSSIZE ∧ b < m.freeblock := by
  have hdata : DataBlock b := by
    rw [← hp] at hb ⊢
    exact h.owns.inside p hb
  have hu := (h.owns.used _ hdata).mpr ⟨p, hp⟩
  rw [decide_eq_true_eq] at hu
  exact ⟨hdata, ((dataBlock_iff b).mp hdata).1, ((dataBlock_iff b).mp hdata).2, hu⟩

/-- Inode `i` may have got blocks, and the areas in front of the data are as they were. -/
structure Steps (m m' : Image) (ino ino' : Nat → Dinode) (i : Nat) : Prop where
  laid : Laid m' ino'
  ext : Extended m.fs m'.fs ino ino' i
  head : ∀ b, b < nmeta → m'.block b = m.block b
  freeinode : m'.freeinode = m.freeinode

theorem Steps.refl (h : Laid m ino) (i : Nat) : Steps m m ino ino i :=
  ⟨h, Extended.refl _ _ _, fun _ _ => rfl, rfl⟩

theorem Steps.trans {m1 m2 : Image} {ino1 ino2 : Nat → Dinode} (h : Steps m m1 ino ino1 i)
    (h' : Steps m1 m2 ino1 ino2 i) : Steps m m2 ino ino2 i :=
  ⟨h'.laid, h.ext.trans h'.ext, fun b hb => (h'.head b hb).trans (h.head b hb),
    h'.freeinode.trans h.freeinode⟩

theorem Laid.assign_addr (h : Laid m ino) (hlt : m.freeblock < FSSIZE) (hty : (ino i).type ≠ 0)
    (k : Fin (NDIRECT+1)) (hk : own ino m.fs.st.data (i, k.val) = 0) :
    Steps m m.bump ino (update ino i ((ino i).setAddr k m.freeblock)) i ∧
    own (update ino i ((ino i).setAddr k m.freeblock)) m.bump.fs.st.data =
      update (own ino m.fs.st.data) (i, k.val) m.freeblock := by
  obtain ⟨hb, hnew, hzero⟩ := h.unplaced hlt
  have hown := own_setAddr hty k hk hnew hb.lt
  have hsame : update m.fs.st.data m.freeblock (fun _ => 0) = m.fs.st.data := by
    rw [show (fun _ => 0 : Bytes) = m.fs.st.data m.freeblock from hzero.symm]
    exact update_eq_self _ _
  rw [hsame] at hown
  refine ⟨⟨h.placed hlt hk rfl rfl (fun _ _ => rfl) hown, ⟨⟨rfl, rfl, rfl, ?_, ?_, ?_⟩,
    fun _ _ _ => rfl⟩, fun _ _ => rfl, rfl⟩, hown⟩
  · intro j hj
    exact update_of_ne hj _ _
  · rw [update_self]
    rfl
  · intro p hp
    exact kept_of_update hown hk hp

/-- `indirect[e] = freeblock++`, and the indirect block is written. -/
theorem Laid.assign_entry (h : Laid m ino) (hlt : m.freeblock < FSSIZE) (hty : (ino i).type ≠ 0)
    (hind : (ino i).indirect ≠ 0) {e : Nat} (he : e < NINDIRECT)
    (hk : own ino m.fs.st.data (i, NDIRECT+1+e) = 0) {m' : Image}
    (hm' : m' = m.bump.write (ino i).indirect
      (leSet 4 (m.block (ino i).indirect) (4*e) m.freeblock)) :
    Steps m m' ino ino i ∧
      own ino m'.fs.st.data = update (own ino m.fs.st.data) (i, NDIRECT+1+e) m.freeblock := by
  obtain ⟨hb, _, _⟩ := h.unplaced hlt
  have hplace : own ino m.fs.st.data (i, NDIRECT) = (ino i).indirect := own_indirect _ hty
  obtain ⟨hdata, hlow, hhigh, hbelow⟩ := h.below hplace hind
  have hfs := write_data m.bump hdata (leSet 4 (m.block (ino i).indirect) (4*e) m.freeblock)
  rw [← hm', bump_fs, ← view_data_eq m hdata] at hfs
  have hown := own_setEntry h.owns hty hind he hb.lt
  rw [← hfs.2] at hown
  have hblock (b : Nat) (hne : b ≠ (ino i).indirect) : m'.block b = m.block b := by
    rw [hm']
    exact update_of_ne hne _ _
  have hlen : m'.len = m.len := by
    rw [hm', h.len]
    exact write_len (m := m.bump) hhigh h.len
  refine ⟨⟨h.placed hlt hk (by rw [hm']; rfl) hlen (fun b hb => hblock b (by omega)) hown,
    ⟨⟨rfl, rfl, hfs.1, fun _ _ => rfl, rfl, fun p hp => kept_of_update hown hk hp⟩, ?_⟩,
    fun b hb => hblock b (by omega), by rw [hm']; rfl⟩, hown⟩
  -- The indirect block is no block of a file.
  intro j bn hne
  rw [hfs.2, update_of_ne]
  intro heq
  have hp := h.owns.inj _ _ hne (heq.trans hplace.symm)
  exact blockPlace_ne bn (Prod.ext_iff.mp hp).2

def need (own : Place → Nat) (i fbn : Nat) : Nat :=
  (if own (i, blockPlace fbn) = 0 then 1 else 0) +
    if own (i, NDIRECT) = 0 ∧ NDIRECT ≤ fbn then 1 else 0

/-- Block `fbn` of inode `i` is `x`, after it may have got new blocks. -/
structure Placed (m m' : Image) (ino ino' : Nat → Dinode) (i fbn x : Nat) : Prop
    extends Steps m m' ino ino' i where
  found : own ino' m'.fs.st.data (i, blockPlace fbn) = x
  block : x ≠ 0
  indirect : own ino' m'.fs.st.data (i, NDIRECT) = 0 ↔
    own ino m.fs.st.data (i, NDIRECT) = 0 ∧ fbn < NDIRECT
  rest : ∀ p, p ≠ (i, blockPlace fbn) → p ≠ (i, NDIRECT) →
    own ino' m'.fs.st.data p = own ino m.fs.st.data p
  mark : m'.freeblock = m.freeblock + need (own ino m.fs.st.data) i fbn

/-- `addrFor` leaves a block that is there and takes the next one otherwise. -/
theorem addrFor_eq (h : Laid m ino) (hty : (ino i).type ≠ 0) (k : Fin (NDIRECT+1)) :
    addrFor (ino i) k m = if own ino m.fs.st.data (i, k.val) = 0
      then .ok ((ino i).setAddr k m.freeblock, m.bump) else .ok (ino i, m) := by
  rw [own_addr _ hty]
  unfold addrFor
  split_ifs with hz
  · change (nextBlock m >>= fun r => pure ((ino i).setAddr k r.1, r.2)) = _
    rw [nextBlock_eq h]
    rfl
  · rfl

theorem entryFor_eq (h : Laid m ino) (hty : (ino i).type ≠ 0) (hind : (ino i).indirect ≠ 0)
    {e : Nat} (he : e < NINDIRECT) :
    entryFor (ino i) e m = if own ino m.fs.st.data (i, NDIRECT+1+e) = 0
      then .ok (m.freeblock, m.bump.write (ino i).indirect
        (leSet 4 (m.block (ino i).indirect) (4*e) m.freeblock))
      else .ok (own ino m.fs.st.data (i, NDIRECT+1+e), m) := by
  have hplace : own ino m.fs.st.data (i, NDIRECT) = (ino i).indirect := own_indirect _ hty
  obtain ⟨hdata, _, hlt, _⟩ := h.below hplace hind
  have hread := rsect_ok hlt h.len
  rw [own_entry hty hind he, view_data_eq m hdata]
  unfold entryFor
  change (rsect (ino i).indirect m >>= fun r => (if leGet 4 r.1 (4*e) = 0 then
    (do let b ← nextBlock; wsect (ino i).indirect (leSet 4 r.1 (4*e) b); pure b)
    else pure (leGet 4 r.1 (4*e)) : Prog Image Nat) r.2) = _
  rw [hread]
  change (if leGet 4 (m.block (ino i).indirect) (4*e) = 0 then _ else _ : Prog Image Nat) m = _
  split_ifs with hz
  · change (nextBlock m >>= fun r => wsect (ino i).indirect
      (leSet 4 (m.block (ino i).indirect) (4*e) r.1) r.2 >>= fun q => pure (r.1, q.2)) = _
    rw [nextBlock_eq h]
    change (wsect (ino i).indirect (leSet 4 (m.block (ino i).indirect) (4*e) m.freeblock) m.bump >>=
      fun q => pure (m.freeblock, q.2)) = _
    rw [wsect_ok hlt]
    rfl
  · rfl

/-- The image is full: more blocks are needed than it has. -/
def Full (m : Image) (ino : Nat → Dinode) (i fbn : Nat) : Prop :=
  FSSIZE < m.freeblock + need (own ino m.fs.st.data) i fbn

/-- What `blockFor` gives: the block, or the first block behind the image. -/
def Located (m : Image) (ino : Nat → Dinode) (i fbn : Nat) (r : Nat × Dinode) (m' : Image) : Prop :=
  Placed m m' ino (update ino i r.2) i fbn r.1 ∨
    r.1 = FSSIZE ∧ m'.len = FSSIZE ∧ Full m ino i fbn

theorem blockFor_direct (h : Laid m ino) (hty : (ino i).type ≠ 0) {fbn : Nat} (hfbn : fbn < NDIRECT) :
    Runs (blockFor (ino i) fbn) m (Located m ino i fbn) := by
  set k := Fin.ofNat (NDIRECT+1) fbn with hk
  have hplace : blockPlace fbn = k.val := blockPlace_direct hfbn
  have hlast : k.val ≠ NDIRECT := by
    rw [← hplace]
    exact blockPlace_ne fbn
  have hpair : (i, NDIRECT) ≠ (i, k.val) := fun heq => hlast (Prod.ext_iff.mp heq).2.symm
  unfold blockFor
  rw [if_pos hfbn, runs_bind]
  by_cases hz : own ino m.fs.st.data (i, k.val) = 0
  · have hneed : need (own ino m.fs.st.data) i fbn = 1 := by
      unfold need
      rw [hplace, if_pos hz, if_neg (by omega)]
    refine ⟨(ino i).setAddr k m.freeblock, m.bump, ?_, ?_⟩
    · rw [addrFor_eq h hty, if_pos hz]
    dsimp only
    rw [runs_pure]
    have hhigh := h.high
    have hval : (((ino i).setAddr k m.freeblock).addrs k).toNat = m.freeblock :=
      setAddr_addrs_self _ _ _ (by have := areas_lt.2.2; omega)
    by_cases hlt : m.freeblock < FSSIZE
    · obtain ⟨hsteps, hown⟩ := h.assign_addr hlt hty k hz
      refine Or.inl ⟨hsteps, ?_, ?_, ?_, ?_, ?_⟩
      · rw [hown, hplace, update_self]
        exact hval.symm
      · rw [hval]
        exact (h.unplaced hlt).1.ne_zero
      · rw [hown, update_of_ne hpair]
        exact ⟨fun h => ⟨h, hfbn⟩, fun h => h.1⟩
      · intro p hp _
        rw [hplace] at hp
        rw [hown, update_of_ne hp]
      · rw [hneed]
        rfl
    · have hend : m.freeblock = FSSIZE := by omega
      refine Or.inr ⟨hval.trans hend, h.len, ?_⟩
      unfold Full
      omega
  · have hneed : need (own ino m.fs.st.data) i fbn = 0 := by
      unfold need
      rw [hplace, if_neg hz, if_neg (by omega)]
    refine ⟨ino i, m, ?_, ?_⟩
    · rw [addrFor_eq h hty, if_neg hz]
    dsimp only
    rw [runs_pure]
    rw [own_addr _ hty] at hz
    left
    rw [update_eq_self]
    refine ⟨Steps.refl h i, ?_, hz, ?_, fun _ _ _ => rfl, by rw [hneed]; rfl⟩
    · rw [hplace]
      exact own_addr _ hty k
    · exact ⟨fun h => ⟨h, hfbn⟩, fun h => h.1⟩

theorem Placed.after {m1 m2 : Image} {ino1 ino2 : Nat → Dinode} {fbn x : Nat}
    (h' : Placed m1 m2 ino1 ino2 i fbn x) (h : Steps m m1 ino ino1 i) (hown : own ino1 m1.fs.st.data =
      update (own ino m.fs.st.data) (i, NDIRECT) m.freeblock)
    (hmark : m1.freeblock = m.freeblock+1) (hneed : need (own ino m.fs.st.data) i fbn =
      need (own ino1 m1.fs.st.data) i fbn + 1) (hfbn : ¬ fbn < NDIRECT) : Placed m m2 ino ino2 i fbn x := by
  refine ⟨h.trans h'.toSteps, h'.found, h'.block, ?_, ?_, ?_⟩
  · rw [h'.indirect]
    exact iff_of_false (fun hc => hfbn hc.2) (fun hc => hfbn hc.2)
  · intro p h1 h2
    rw [h'.rest p h1 h2, hown, update_of_ne h2]
  · rw [h'.mark, hmark, hneed]
    omega

theorem blockFor_entry (h : Laid m ino) (hty : (ino i).type ≠ 0) (hind : (ino i).indirect ≠ 0)
    {fbn : Nat} (hfbn : ¬ fbn < NDIRECT) (hmax : fbn < MAXFILE) :
    Runs (entryFor (ino i) (fbn-NDIRECT)) m fun x m' => Located m ino i fbn (x, ino i) m' := by
  have hplace : blockPlace fbn = NDIRECT+1+(fbn-NDIRECT) := blockPlace_indirect hfbn
  have he : fbn - NDIRECT < NINDIRECT := by
    unfold MAXFILE at hmax
    omega
  have hindown : own ino m.fs.st.data (i, NDIRECT) = (ino i).indirect := own_indirect _ hty
  have hpair : (i, NDIRECT) ≠ (i, NDIRECT+1+(fbn-NDIRECT)) := by
    intro heq
    have := (Prod.ext_iff.mp heq).2
    dsimp only at this
    omega
  have hsecond : ¬ (own ino m.fs.st.data (i, NDIRECT) = 0 ∧ NDIRECT ≤ fbn) := by
    rw [hindown]
    exact fun hc => hind hc.1
  have heq := entryFor_eq h hty hind he
  by_cases hz : own ino m.fs.st.data (i, NDIRECT+1+(fbn-NDIRECT)) = 0
  · have hneed : need (own ino m.fs.st.data) i fbn = 1 := by
      unfold need
      rw [hplace, if_pos hz, if_neg hsecond]
    rw [if_pos hz] at heq
    refine ⟨_, _, heq, ?_⟩
    set m' := m.bump.write (ino i).indirect
      (leSet 4 (m.block (ino i).indirect) (4*(fbn-NDIRECT)) m.freeblock) with hm'
    have hhigh := h.high
    by_cases hlt : m.freeblock < FSSIZE
    · obtain ⟨hsteps, hown⟩ := h.assign_entry hlt hty hind he hz hm'
      left
      rw [update_eq_self]
      refine ⟨hsteps, ?_, (h.unplaced hlt).1.ne_zero, ?_, ?_, ?_⟩
      · rw [hown, hplace, update_self]
      · rw [hown, update_of_ne hpair]
        exact ⟨fun h => absurd (hindown.symm.trans h) hind, fun h => h.1⟩
      · intro p hp _
        rw [hplace] at hp
        rw [hown, update_of_ne hp]
      · rw [hneed]
        rfl
    · have hend : m.freeblock = FSSIZE := by omega
      obtain ⟨_, _, hin, _⟩ := h.below hindown hind
      refine Or.inr ⟨hend, write_len (m := m.bump) hin h.len, ?_⟩
      unfold Full
      omega
  · have hneed : need (own ino m.fs.st.data) i fbn = 0 := by
      unfold need
      rw [hplace, if_neg hz, if_neg hsecond]
    rw [if_neg hz] at heq
    refine ⟨_, m, heq, ?_⟩
    left
    rw [update_eq_self]
    refine ⟨Steps.refl h i, ?_, hz, ?_, fun _ _ _ => rfl, by rw [hneed]; rfl⟩
    · rw [hplace]
    · exact ⟨fun h => absurd (hindown.symm.trans h) hind, fun h => h.1⟩

theorem blockFor_spec (h : Laid m ino) (hty : (ino i).type ≠ 0) {fbn : Nat} (hmax : fbn < MAXFILE) :
    Ensures (blockFor (ino i) fbn) m (fun _ => Full m ino i fbn) (Located m ino i fbn) := by
  by_cases hfbn : fbn < NDIRECT
  · exact (blockFor_direct h hty hfbn).ensures
  have hindown : own ino m.fs.st.data (i, NDIRECT) = (ino i).indirect := own_indirect _ hty
  have haddr := addrFor_eq h hty (Fin.last NDIRECT)
  rw [Fin.val_last] at haddr
  unfold blockFor
  rw [if_neg hfbn]
  apply ensures_bind
  by_cases hz : own ino m.fs.st.data (i, NDIRECT) = 0
  · rw [if_pos hz] at haddr
    apply Runs.ensures
    refine ⟨_, _, haddr, ?_⟩
    apply ensures_bind
    set d := (ino i).setAddr (Fin.last NDIRECT) m.freeblock with hd
    have hhigh := h.high
    have hval : d.indirect = m.freeblock :=
      setAddr_addrs_self _ _ _ (by have := areas_lt.2.2; omega)
    have hfirst : 1 ≤ need (own ino m.fs.st.data) i fbn := by
      unfold need
      rw [if_pos (⟨hz, Nat.not_lt.mp hfbn⟩ : own ino m.fs.st.data (i, NDIRECT) = 0 ∧ NDIRECT ≤ fbn)]
      exact Nat.le_add_left _ _
    by_cases hlt : m.freeblock < FSSIZE
    · obtain ⟨hsteps, hown⟩ := h.assign_addr hlt hty (Fin.last NDIRECT) hz
      set ino1 := update ino i d with hino1
      rw [Fin.val_last] at hown
      have hself : ino1 i = d := update_self ..
      have hne : m.freeblock ≠ 0 := (h.unplaced hlt).1.ne_zero
      have hneed : need (own ino m.fs.st.data) i fbn =
          need (own ino1 m.bump.fs.st.data) i fbn + 1 := by
        have hpair : (i, blockPlace fbn) ≠ (i, NDIRECT) :=
          fun heq => blockPlace_ne fbn (Prod.ext_iff.mp heq).2
        have hset : ¬ (m.freeblock = 0 ∧ NDIRECT ≤ fbn) := fun hc => hne hc.1
        unfold need
        rw [hown, update_of_ne hpair, update_self, if_neg hset,
          if_pos (⟨hz, Nat.not_lt.mp hfbn⟩ : own ino m.fs.st.data (i, NDIRECT) = 0 ∧ NDIRECT ≤ fbn)]
      rw [← hself]
      have hentry := blockFor_entry hsteps.laid (i := i) (by rw [hself]; exact hty)
        (by rw [hself, hval]; exact hne) hfbn hmax
      apply (hentry.imp ?_).ensures
      intro x m' hx
      apply ensures_pure
      rcases hx with hx | ⟨hx, hlen, hfull⟩
      · left
        rw [update_eq_self] at hx
        dsimp only
        rw [hself, ← hino1]
        exact hx.after hsteps hown rfl hneed hfbn
      · refine Or.inr ⟨hx, hlen, ?_⟩
        have hmark : m.bump.freeblock = m.freeblock+1 := rfl
        unfold Full at hfull ⊢
        omega
    · -- There is no block for the indirect block, which is read at once.
      have hend : m.freeblock = FSSIZE := by omega
      have herr : entryFor d (fbn-NDIRECT) m.bump = .error "read" := by
        unfold entryFor
        apply panics_bind
        rw [hval, hend]
        exact rsect_end h.len
      refine ⟨ends_of_panic herr, panicsOnly_of_panic herr ?_⟩
      unfold Full
      omega
  · rw [if_neg hz] at haddr
    apply Runs.ensures
    refine ⟨_, _, haddr, ?_⟩
    apply ensures_bind
    rw [hindown] at hz
    apply ((blockFor_entry h hty hz hfbn hmax).imp ?_).ensures
    intro x m' hx
    exact ensures_pure hx

end Blocks

/-- Inode `i` has the blocks of a file of `n` bytes, and no others. -/
structure Sized (own : Place → Nat) (i n : Nat) : Prop where
  block : ∀ bn, bn < MAXFILE → (own (i, blockPlace bn) ≠ 0 ↔ bn*BSIZE < n)
  indirect : own (i, NDIRECT) ≠ 0 ↔ NDIRECT*BSIZE < n

def blocksOf (n : Nat) : Nat := (n+BSIZE-1)/BSIZE + if NDIRECT*BSIZE < n then 1 else 0

section Sizes
variable {i off n : Nat}

omit [Layout] in
theorem blocksOf_mono {m n : Nat} (h : m ≤ n) : blocksOf m ≤ blocksOf n := by
  unfold blocksOf BSIZE NDIRECT
  split_ifs <;> omega

/-- The bytes that one round of `iappend` can write. -/
structure InBlock (off n : Nat) : Prop where
  pos : 0 < n
  le : n ≤ (off/BSIZE + 1)*BSIZE - off

omit [Layout] in
theorem Sized.blocksOf {own : Place → Nat} (h : Sized own i off) (hmax : off/BSIZE < MAXFILE)
    (hn : InBlock off n) : blocksOf (off+n) = blocksOf off + need own i (off/BSIZE) := by
  have hblock := h.block _ hmax
  have hind := h.indirect
  have hpos := hn.pos
  have hle := hn.le
  unfold need Mkfs.blocksOf
  unfold BSIZE NDIRECT at *
  by_cases h1 : own (i, blockPlace (off/1024)) = 0 <;> by_cases h2 : own (i, 12) = 0 <;>
    simp only [h1, h2, ne_eq, not_true_eq_false, not_false_eq_true, false_iff, true_iff] at hblock hind <;>
    split_ifs <;> omega

theorem Placed.sized {m m' : Image} {ino ino' : Nat → Dinode} {x : Nat}
    (hp : Placed m m' ino ino' i (off/BSIZE) x) (h : Sized (own ino m.fs.st.data) i off)
    (hn : InBlock off n) : Sized (own ino' m'.fs.st.data) i (off+n) := by
  have hpos := hn.pos
  have hle := hn.le
  constructor
  · intro bn hbn
    by_cases heq : bn = off/BSIZE
    · rw [heq, hp.found]
      refine iff_of_true hp.block ?_
      have := Nat.div_mul_le_self off BSIZE
      omega
    · have hne : (i, blockPlace bn) ≠ (i, blockPlace (off/BSIZE)) :=
        fun hc => heq (blockPlace_inj (Prod.ext_iff.mp hc).2)
      have hind : (i, blockPlace bn) ≠ (i, NDIRECT) := fun hc => blockPlace_ne bn (Prod.ext_iff.mp hc).2
      rw [hp.rest _ hne hind, h.block bn hbn]
      unfold BSIZE at *
      omega
  · have hind := h.indirect
    rw [Ne, hp.indirect, not_and_or, ← Ne, hind]
    unfold BSIZE NDIRECT at *
    omega

end Sizes

section Append
variable {i : Nat}

theorem Placed.write {m m1 : Image} {ino ino1 : Nat → Dinode} {off x : Nat} {bs : List UInt8}
    (h : Placed m m1 ino ino1 i (off/BSIZE) x) (hlen : bs.length ≤ BSIZE - off%BSIZE) {m2 : Image}
    (hm2 : m2 = m1.write x (blit (m1.block x) (off%BSIZE) bs)) :
    Laid m2 ino1 ∧ own ino1 m2.fs.st.data = own ino1 m1.fs.st.data ∧
      FileWritten m.fs m2.fs ino ino1 i off bs ∧ ∀ b, b < nmeta → m2.block b = m1.block b := by
  have hne : own ino1 m1.fs.st.data (i, blockPlace (off/BSIZE)) ≠ 0 := by
    rw [h.found]
    exact h.block
  obtain ⟨hx, hlow, hhigh, hbelow⟩ := h.laid.below h.found h.block
  obtain ⟨hdino, hdata⟩ := write_data m1 hx (blit (m1.block x) (off%BSIZE) bs)
  rw [← hm2, ← view_data_eq m1 hx] at hdata
  rw [← hm2] at hdino
  rw [← h.found] at hdata
  have hown : own ino1 m2.fs.st.data = own ino1 m1.fs.st.data := by
    rw [hdata]
    exact own_setContent h.laid.owns
  refine ⟨⟨?_, ?_, ?_, ?_, ?_⟩, hown, written_chunk h.laid.owns h.ext hdino hne hdata hlen, ?_⟩
  · rw [hm2]
    exact write_len hhigh h.laid.len
  · rw [hm2]
    exact h.laid.low
  · rw [hm2]
    exact h.laid.high
  · intro b hb
    rw [hm2] at hb ⊢
    have hb : m1.freeblock ≤ b := hb
    exact (update_of_ne (by omega) _ _).trans (h.laid.fresh b hb)
  · rw [hown, hm2]
    exact h.laid.owns
  · intro b hb
    rw [hm2]
    exact update_of_ne (by omega) _ _

/-- What the loop of `iappend` has done with the bytes `p` at `off`. -/
structure Looped (m m' : Image) (ino ino' : Nat → Dinode) (i off : Nat) (p : List UInt8) : Prop where
  laid : Laid m' ino'
  sized : Sized (own ino' m'.fs.st.data) i (off + p.length)
  max : off + p.length ≤ MAXFILE*BSIZE
  written : FileWritten m.fs m'.fs ino ino' i off p
  rest : ∀ q : Place, q.1 ≠ i → own ino' m'.fs.st.data q = own ino m.fs.st.data q
  head : ∀ b, b < nmeta → m'.block b = m.block b
  freeinode : m'.freeinode = m.freeinode
  mark : m'.freeblock + blocksOf off = m.freeblock + blocksOf (off + p.length)

def TooBig (m : Image) (off n : Nat) : Prop :=
  MAXFILE*BSIZE < off+n ∨ FSSIZE + blocksOf off < m.freeblock + blocksOf (off+n)

theorem iappendLoop_spec (k : Nat) : ∀ (m : Image) (ino : Nat → Dinode) (off : Nat)
    (p : List UInt8), p.length ≤ k → off ≤ MAXFILE*BSIZE → Laid m ino → (ino i).type ≠ 0 →
    Sized (own ino m.fs.st.data) i off →
    Ensures (iappendLoop k (ino i) off p) m (fun _ => TooBig m off p.length) fun r m' =>
      r.2 = off + p.length ∧ ∃ ino', r.1 = ino' i ∧ Looped m m' ino ino' i off p := by
  have hdone (m : Image) (ino : Nat → Dinode) (off : Nat) (p : List UInt8) (hp : p.length = 0)
      (hoff : off ≤ MAXFILE*BSIZE) (h : Laid m ino) (hs : Sized (own ino m.fs.st.data) i off) :
      off = off + p.length ∧ ∃ ino', ino i = ino' i ∧ Looped m m ino ino' i off p := by
    obtain rfl := List.length_eq_zero_iff.mp hp
    exact ⟨rfl, ino, rfl, h, hs, hoff, written_nil _ _ _ _, fun _ _ => rfl, fun _ _ => rfl, rfl, rfl⟩
  induction k with
  | zero =>
    intro m ino off p hk hoff h hty hs
    unfold iappendLoop
    exact ensures_pure (hdone m ino off p (by omega) hoff h hs)
  | succ k ih =>
    intro m ino off p hk hoff h hty hs
    unfold iappendLoop
    apply ensures_ite
    · intro hp
      exact ensures_pure (hdone m ino off p hp hoff h hs)
    intro hp
    apply ensures_panicIf
    · intro hmax
      left
      have : MAXFILE*BSIZE ≤ off := by
        by_contra hlt
        exact hmax (block_lt (by omega))
      omega
    intro hmax
    have hmax := not_not.mp hmax
    set n1 := min p.length ((off/BSIZE + 1)*BSIZE - off) with hn1
    have hroom : (off/BSIZE + 1)*BSIZE - off = BSIZE - off%BSIZE ∧ 0 < BSIZE - off%BSIZE ∧
        off - off/BSIZE*BSIZE = off%BSIZE := by
      unfold BSIZE
      omega
    have hin : InBlock off n1 := ⟨by omega, by omega⟩
    have hneed := hs.blocksOf hmax hin
    have hmono : blocksOf (off+n1) ≤ blocksOf (off + p.length) := blocksOf_mono (by omega)
    have hfull (hf : Full m ino i (off/BSIZE)) : TooBig m off p.length := by
      unfold Full at hf
      right
      omega
    apply ensures_bind
    apply (blockFor_spec h hty hmax).imp (fun _ hf => hfull hf)
    intro r m1 hr
    rcases hr with hplaced | ⟨hx, hlen, hf⟩
    · obtain ⟨x, d⟩ := r
      set ino1 := update ino i d with hino1
      have hself : ino1 i = d := update_self ..
      have hty1 : (ino1 i).type ≠ 0 := by
        rw [hplaced.ext.same]
        exact hty
      obtain ⟨_, _, hx, _⟩ := hplaced.laid.below hplaced.found hplaced.block
      have hlen1 : (p.take n1).length = n1 := by
        rw [List.length_take]
        omega
      dsimp only
      apply ensures_bind
      apply Runs.ensures
      refine ⟨_, _, rsect_ok hx hplaced.laid.len, ?_⟩
      apply ensures_bind
      apply Runs.ensures
      refine ⟨_, _, wsect_ok hx, ?_⟩
      dsimp only
      rw [hroom.2.2, ← hself]
      set m2 := m1.write x (blit (m1.block x) (off%BSIZE) (p.take n1)) with hm2
      obtain ⟨hlaid2, hown2, hw2, hhead2⟩ := hplaced.write (by omega) hm2
      have hmark2 : m2.freeblock = m.freeblock + need (own ino m.fs.st.data) i (off/BSIZE) := hplaced.mark
      have hsized2 : Sized (own ino1 m2.fs.st.data) i (off+n1) := by
        rw [hown2]
        exact hplaced.sized hs hin
      have hmax2 : off + n1 ≤ MAXFILE*BSIZE := by
        have := Nat.mul_le_mul_right BSIZE (Nat.succ_le_of_lt hmax)
        rw [Nat.succ_eq_add_one] at this
        omega
      have hrest : off + n1 + (p.drop n1).length = off + p.length := by
        rw [List.length_drop]
        omega
      have hrec := ih m2 ino1 (off+n1) (p.drop n1) (by omega) hmax2 hlaid2 hty1 hsized2
      rw [hrest] at hrec
      apply hrec.imp
      · intro _ hbig
        unfold TooBig at hbig ⊢
        rw [hrest] at hbig
        omega
      · intro q m3 hq
        obtain ⟨hoff3, ino3, hd3, hloop⟩ := hq
        refine ⟨hoff3, ino3, hd3, hloop.laid, ?_, ?_, ?_, ?_, ?_, ?_, ?_⟩
        · rw [← hrest]
          exact hloop.sized
        · rw [← hrest]
          exact hloop.max
        · have hw : FileWritten m.fs m3.fs ino ino3 i off (p.take n1 ++ p.drop n1) :=
            hw2.trans (by rw [hlen1]; exact hloop.written)
          rwa [List.take_append_drop] at hw
        · intro q hq
          have hne (k : Nat) : q ≠ (i, k) := fun heq => hq (congrArg Prod.fst heq)
          rw [hloop.rest q hq, hown2, hplaced.rest q (hne _) (hne _)]
        · intro b hb
          rw [hloop.head b hb, hhead2 b hb, hplaced.head b hb]
        · exact hloop.freeinode.trans hplaced.freeinode
        · have hm := hloop.mark
          rw [hrest] at hm
          omega
    · -- The first block behind the image cannot be read.
      have herr : rsect r.1 m1 = .error "read" := by
        rw [hx]
        exact rsect_end hlen
      dsimp only
      apply ensures_bind
      exact ⟨ends_of_panic herr, panicsOnly_of_panic herr (hfull hf)⟩

end Append

end Xv6.Mkfs
