import Xv6.Bio

/-! The disk format of `kernel/fs.h`: the areas of the disk, the inodes in a block,
and the bits of the free map. -/
namespace Xv6

open Function

def NDIRECT : Nat := 12
def NINDIRECT : Nat := BSIZE/4
def MAXFILE : Nat := NDIRECT + NINDIRECT
def IPB : Nat := BSIZE/64
def BPB : Nat := BSIZE*8
def ROOTINO : Nat := 1

instance (priority := 2000) : NeZero (NDIRECT+1) := ⟨Nat.succ_ne_zero NDIRECT⟩

def NINODE : Nat := 50

/-- A place in `icache.inode`, for a pointer to it. -/
abbrev ISlot := Fin NINODE

instance : NeZero NINODE := ⟨by decide⟩

def T_DIR : BitVec 16 := 1
def T_FILE : BitVec 16 := 2

/-- `struct superblock`, without the magic number and the count `nblocks`, which
nothing reads after `fsinit`. -/
structure Superblock where
  size : Nat
  ninodes : Nat
  nlog : Nat
  logstart : Nat
  inodestart : Nat
  bmapstart : Nat

/-- The first block behind the free map, which has the length that `mkfs` gives it. -/
def Superblock.datastart (sb : Superblock) : Nat := sb.bmapstart + (sb.size/BPB + 1)

/-- A superblock whose areas follow one another as in `fs.h`. Block numbers fit into an
`int` and inode numbers into the `ushort` of a directory entry. -/
class FsLayout where
  sb : Superblock
  log_ge : 2 ≤ sb.logstart := by decide
  log_end : sb.logstart + sb.nlog ≤ sb.inodestart := by decide
  inodes_end : sb.inodestart + (sb.ninodes/IPB + 1) ≤ sb.bmapstart := by decide
  data_le : sb.datastart ≤ sb.size := by decide
  size_lt : sb.size < 2^31 := by decide
  root_lt : ROOTINO < sb.ninodes := by decide
  ninodes_le : sb.ninodes ≤ 2^16 := by decide

export FsLayout (sb)

/-- `struct dinode` -/
@[ext] structure Dinode where
  type : BitVec 16
  major : BitVec 16
  minor : BitVec 16
  nlink : BitVec 16
  size : BitVec 32
  addrs : Fin (NDIRECT+1) → BitVec 32

def Dinode.new (type : BitVec 16) : Dinode where
  type := type
  major := 0
  minor := 0
  nlink := 0
  size := 0
  addrs _ := 0

def Dinode.setAddr (d : Dinode) (k : Fin (NDIRECT+1)) (b : Nat) : Dinode :=
  { d with addrs := update d.addrs k (BitVec.ofNat 32 b) }

def Dinode.indirect (d : Dinode) : Nat := (d.addrs (Fin.last NDIRECT)).toNat

def dinodeAt (data : Bytes) (i : Nat) : Dinode where
  type := BitVec.ofNat 16 (leGet 2 data (64*(i % IPB)))
  major := BitVec.ofNat 16 (leGet 2 data (64*(i % IPB) + 2))
  minor := BitVec.ofNat 16 (leGet 2 data (64*(i % IPB) + 4))
  nlink := BitVec.ofNat 16 (leGet 2 data (64*(i % IPB) + 6))
  size := BitVec.ofNat 32 (leGet 4 data (64*(i % IPB) + 8))
  addrs k := BitVec.ofNat 32 (leGet 4 data (64*(i % IPB) + 12 + 4*k))

def putAddrs (addrs : Fin (NDIRECT+1) → BitVec 32) (o : Nat) : Nat → Bytes → Bytes
  | 0, data => data
  | k+1, data => leSet 4 (putAddrs addrs o k data) (o + 4*k) (addrs (Fin.ofNat _ k)).toNat

def putDinode (data : Bytes) (i : Nat) (d : Dinode) : Bytes :=
  let o := 64*(i % IPB)
  let data := leSet 2 data o d.type.toNat
  let data := leSet 2 data (o+2) d.major.toNat
  let data := leSet 2 data (o+4) d.minor.toNat
  let data := leSet 2 data (o+6) d.nlink.toNat
  let data := leSet 4 data (o+8) d.size.toNat
  putAddrs d.addrs (o+12) (NDIRECT+1) data

/-- `m = 1 << (bi % 8)` -/
def bitMask (bi : Nat) : BitVec 8 := 1#8 <<< (bi % 8)

/-- `bp->data[bi/8] & m` -/
def bitOf (data : Bytes) (bi : Nat) : Bool := (data (bi/8)).toBitVec &&& bitMask bi != 0

def setBit (data : Bytes) (bi : Nat) : Bytes :=
  update data (bi/8) ⟨(data (bi/8)).toBitVec ||| bitMask bi⟩

def clearBit (data : Bytes) (bi : Nat) : Bytes :=
  update data (bi/8) ⟨(data (bi/8)).toBitVec &&& ~~~bitMask bi⟩

section SetAddr
variable (d : Dinode) (k : Fin (NDIRECT+1)) (b : Nat)

theorem setAddr_addrs_self (hb : b < 2^32) : ((d.setAddr k b).addrs k).toNat = b := by
  unfold Dinode.setAddr
  dsimp only
  rw [update_self, BitVec.toNat_ofNat, Nat.mod_eq_of_lt hb]

theorem setAddr_addrs_of_ne {j : Fin (NDIRECT+1)} (h : j ≠ k) :
    (d.setAddr k b).addrs j = d.addrs j := update_of_ne h _ _

theorem setAddr_indirect_of_ne (h : k ≠ Fin.last NDIRECT) :
    (d.setAddr k b).indirect = d.indirect := by
  unfold Dinode.indirect
  rw [setAddr_addrs_of_ne d k b (Ne.symm h)]

end SetAddr

section Dinodes
variable (data : Bytes) (addrs : Fin (NDIRECT+1) → BitVec 32) (o : Nat)

theorem leGet_putAddrs_of_disjoint (l p : Nat) : ∀ k, p+l ≤ o ∨ o+4*k ≤ p →
    leGet l (putAddrs addrs o k data) p = leGet l data p := by
  intro k
  induction k with
  | zero => intro _; rfl
  | succ k ih =>
    intro h
    rw [putAddrs, leGet_leSet_of_disjoint _ _ _ _ _ _ (by omega), ih (by omega)]

theorem leGet_putAddrs (j : Nat) : ∀ k, j < k →
    leGet 4 (putAddrs addrs o k data) (o+4*j) = (addrs (Fin.ofNat _ j)).toNat := by
  intro k
  induction k with
  | zero => intro h; cases h
  | succ k ih =>
    intro h
    rw [putAddrs]
    by_cases hj : j = k
    · subst hj
      rw [leGet_leSet_same]
      exact Nat.mod_eq_of_lt (addrs (Fin.ofNat _ j)).isLt
    · rw [leGet_leSet_of_disjoint _ _ _ _ _ _ (by omega)]
      exact ih (by omega)

theorem toNat_mod_short (x : BitVec 16) : BitVec.ofNat 16 (x.toNat % 256^2) = x := by
  rw [show 256^2 = 2^16 from rfl, Nat.mod_eq_of_lt x.isLt, BitVec.ofNat_toNat, BitVec.setWidth_eq]

theorem toNat_mod_uint (x : BitVec 32) : BitVec.ofNat 32 (x.toNat % 256^4) = x := by
  rw [show 256^4 = 2^32 from rfl, Nat.mod_eq_of_lt x.isLt, BitVec.ofNat_toNat, BitVec.setWidth_eq]

theorem dinodeAt_putDinode (i : Nat) (d : Dinode) : dinodeAt (putDinode data i d) i = d := by
  unfold dinodeAt putDinode
  apply Dinode.ext
  iterate 4
    · simp (disch := omega) only [leGet_putAddrs_of_disjoint, leGet_leSet_of_disjoint,
        leGet_leSet_same, toNat_mod_short]
  · simp (disch := omega) only [leGet_putAddrs_of_disjoint, leGet_leSet_same, toNat_mod_uint]
  · funext k
    have hk : Fin.ofNat (NDIRECT+1) k.val = k := Fin.ofNat_val_eq_self k
    dsimp only
    rw [leGet_putAddrs _ _ _ _ _ k.isLt, hk, BitVec.ofNat_toNat, BitVec.setWidth_eq]

theorem leGet_putDinode (i : Nat) (d : Dinode) (l p : Nat)
    (h : p+l ≤ 64*(i % IPB) ∨ 64*(i % IPB) + 64 ≤ p) :
    leGet l (putDinode data i d) p = leGet l data p := by
  unfold putDinode
  dsimp only
  rw [leGet_putAddrs_of_disjoint _ _ _ _ _ _ (by unfold NDIRECT; omega)]
  simp (disch := omega) only [leGet_leSet_of_disjoint]

theorem dinodeAt_putDinode_of_ne {i j : Nat} (h : j % IPB ≠ i % IPB) (d : Dinode) :
    dinodeAt (putDinode data i d) j = dinodeAt data j := by
  have hword (l p : Nat) (hp : p+l ≤ 64) :
      leGet l (putDinode data i d) (64*(j % IPB) + p) = leGet l data (64*(j % IPB) + p) := by
    apply leGet_putDinode
    omega
  unfold dinodeAt
  apply Dinode.ext
  · exact congrArg (BitVec.ofNat 16) (hword 2 0 (by omega))
  · exact congrArg (BitVec.ofNat 16) (hword 2 2 (by omega))
  · exact congrArg (BitVec.ofNat 16) (hword 2 4 (by omega))
  · exact congrArg (BitVec.ofNat 16) (hword 2 6 (by omega))
  · exact congrArg (BitVec.ofNat 32) (hword 4 8 (by omega))
  · funext k
    have hk := k.isLt
    dsimp only
    rw [Nat.add_assoc, hword 4 (12+4*k) (by unfold NDIRECT at hk; omega)]

end Dinodes

section Bits
variable (data : Bytes)

theorem bitMask_getLsbD (bi j : Nat) (hj : j < 8) :
    (bitMask bi).getLsbD j = decide (j = bi % 8) := by
  have hlt : bi % 8 < 8 := Nat.mod_lt _ (by decide)
  unfold bitMask
  rw [BitVec.getLsbD_shiftLeft, BitVec.getLsbD_one]
  by_cases h : j = bi % 8
  · subst h
    simp [hlt]
  · simp only [h, decide_false, Bool.and_eq_false_iff, decide_eq_false_iff_not,
      Bool.not_eq_false', decide_eq_true_eq]
    omega

theorem bitOf_eq (bi : Nat) : bitOf data bi = (data (bi/8)).toBitVec.getLsbD (bi % 8) := by
  have hlt : bi % 8 < 8 := Nat.mod_lt _ (by decide)
  have hself : (bitMask bi).getLsbD (bi % 8) = true := by
    rw [bitMask_getLsbD bi _ hlt, decide_eq_true rfl]
  unfold bitOf
  by_cases h : (data (bi/8)).toBitVec.getLsbD (bi % 8) = true
  · rw [h, bne_iff_ne]
    intro hz
    have hx := congrArg (fun x : BitVec 8 => x.getLsbD (bi % 8)) hz
    simp only [BitVec.getLsbD_and, hself, h, Bool.and_self] at hx
    exact absurd hx (by simp)
  · rw [Bool.not_eq_true] at h
    have hz : (data (bi/8)).toBitVec &&& bitMask bi = 0 := by
      apply BitVec.eq_of_getLsbD_eq
      intro j hj
      rw [BitVec.getLsbD_and, bitMask_getLsbD bi j hj]
      by_cases hji : j = bi % 8
      · simp [hji, h]
      · simp [hji]
    rw [h, hz]
    rfl

theorem bitOf_setBit (bi bj : Nat) :
    bitOf (setBit data bi) bj = if bj = bi then true else bitOf data bj := by
  rw [bitOf_eq, bitOf_eq]
  unfold setBit
  have hlt : bj % 8 < 8 := Nat.mod_lt _ (by decide)
  by_cases h : bj/8 = bi/8
  · rw [h, update_self, BitVec.getLsbD_or, bitMask_getLsbD bi _ hlt]
    by_cases hb : bj = bi
    · simp [hb]
    · have hne : bj % 8 ≠ bi % 8 := by omega
      simp [hb, hne]
  · have hb : bj ≠ bi := fun hb => h (hb ▸ rfl)
    rw [update_of_ne h, if_neg hb]

theorem bitOf_clearBit (bi bj : Nat) :
    bitOf (clearBit data bi) bj = if bj = bi then false else bitOf data bj := by
  rw [bitOf_eq, bitOf_eq]
  unfold clearBit
  have hlt : bj % 8 < 8 := Nat.mod_lt _ (by decide)
  by_cases h : bj/8 = bi/8
  · rw [h, update_self, BitVec.getLsbD_and, BitVec.getLsbD_not, bitMask_getLsbD bi _ hlt]
    by_cases hb : bj = bi
    · simp [hb]
    · have hne : bj % 8 ≠ bi % 8 := by omega
      simp [hb, hne, hlt]
  · have hb : bj ≠ bi := fun hb => h (hb ▸ rfl)
    rw [update_of_ne h, if_neg hb]

end Bits

end Xv6
