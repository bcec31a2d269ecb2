import Xv6.MkfsRun
import Xv6.DirNames

/-! The image that `mkfs` leaves: every block number in it is one of a data block, the free
map marks the blocks in use, and files have no holes, except for a root directory whose
entries fill its last block. -/
namespace Xv6.Mkfs

open Function

section Image
variable [Layout]

def rootTable : Nat → Node :=
  update (fun _ => Node.free) ROOTINO
    ⟨T_DIR, 0, 0, 1, dirent ROOTINO [46] ++ dirent ROOTINO [46, 46]⟩

def tableOf (files : List Input) : Nat → Node := table rootTable (ROOTINO+1) files

def blank : Image := ⟨FSSIZE, update (fun _ => zeroes) 1 superblock, 1, nmeta⟩

section Start

omit [Layout] in
theorem zeroBlocks_eq (k : Nat) (hk : k ≤ FSSIZE) :
    zeroBlocks k start = .ok ((), ⟨k, fun _ => zeroes, 1, nmeta⟩) := by
  induction k with
  | zero => rfl
  | succ k ih =>
    have hmod : k % 2^22 = k := Nat.mod_eq_of_lt (by have := areas_lt; omega)
    unfold zeroBlocks
    change (zeroBlocks k start >>= fun r => wsect k zeroes r.2) = _
    rw [ih (by omega)]
    change (.ok ((), Image.write _ (k % 2^22) zeroes) : Except String (Unit × Image)) = _
    unfold Image.write
    dsimp only
    rw [hmod, Nat.max_eq_right (Nat.le_succ k)]
    congr 3
    exact update_eq_self k _

theorem blank_dino (i : Nat) : blank.fs.st.dino i = Dinode.new 0 := by
  unfold Store.dino
  split_ifs with hi
  · have h := IBLOCK_lt hi
    have hne : IBLOCK i ≠ 1 := by
      have : (2 : Nat) ≤ sb.inodestart := by decide
      omega
    rw [IBLOCK_eq]
    change dinodeAt (update (fun _ => zeroes) 1 superblock (IBLOCK i)) i = _
    rw [update_of_ne hne]
    exact dinodeAt_zero i
  · rfl

theorem blank_holds : Holds blank (fun _ => Node.free) := by
  have htype (i : Nat) : (blank.fs.st.dino i).type = 0 := by
    rw [blank_dino]
    rfl
  have hown (p : Place) : own blank.fs.st.dino blank.fs.st.data p = 0 := own_free (htype p.1) p.2
  have hnone : total (fun _ => Node.free) = 0 := by
    unfold total
    exact Finset.sum_eq_zero fun _ _ => blocksOf_zero
  have hareas := areas_lt
  have hroot := FsLayout.root_lt
  refine ⟨⟨rfl, le_rfl, by change nmeta ≤ FSSIZE; omega, ?_, ⟨?_, ?_, ?_⟩⟩, ?_, ?_, ?_, ?_, ?_, ?_, ?_⟩
  · intro b hb
    change nmeta ≤ b at hb
    have hlow : 1 < nmeta := by decide
    have hne : b ≠ 1 := by omega
    exact update_of_ne hne superblock fun _ => zeroes
  · intro p hp
    exact absurd (hown p) hp
  · intro p _ hp
    exact absurd (hown p) hp
  · intro b hb
    have hge := ((dataBlock_iff b).mp hb).1
    refine iff_of_false ?_ ?_
    · rw [decide_eq_true_eq]
      change ¬ b < nmeta
      omega
    · rintro ⟨p, hp⟩
      rw [hown] at hp
      exact hb.ne_zero hp.symm
  · funext i
    exact nodeOf_free (htype i)
  · intro i hi
    exact absurd rfl hi
  · intro i
    exact Nat.zero_le _
  · rw [hnone]
    rfl
  · change 1 ≤ _
    unfold ROOTINO at hroot
    omega
  · intro i _
    rfl
  · intro b _ _
    change update (fun _ => zeroes) 1 superblock b = _
    by_cases hb : b = 1
    · rw [hb, update_self, if_pos rfl]
    · rw [update_of_ne hb, if_neg hb]

end Start

/-- The end of `main`: the size of the root directory is rounded, and the free map written. -/
def Image.finish (m : Image) : Image :=
  let din := dinodeAt (m.block (IBLOCK ROOTINO)) ROOTINO
  (m.putInode ROOTINO { din with size := BitVec.ofNat 32 ((din.size.toNat/BSIZE + 1)*BSIZE) }).write
    sb.bmapstart (markFirst m.freeblock)

omit [Layout] in
theorem root_steps : extend (extend (update (fun _ => Node.free) ROOTINO (Node.fresh T_DIR))
    ROOTINO (dirent ROOTINO [46])) ROOTINO (dirent ROOTINO [46, 46]) = rootTable := by
  rw [extend_extend]
  unfold extend rootTable
  rw [update_idem, update_self]
  rfl

/-- A run of `mkfs` on files that do not pass the end of the inode blocks. It stops on a file
that it refuses or if the table is too large for the image. -/
theorem main_spec (files : List Input) (hlt : files.length + 2 ≤ FsLayout.sb.ninodes) :
    Ensures (main files) start
      (fun _ => (∃ f ∈ files, f.Refused) ∨ Over (tableOf files)) fun _ m' =>
      ∃ m, Holds m (tableOf files) ∧ m.freeinode = files.length + 2 ∧ m' = m.finish := by
  have hroot := FsLayout.root_lt
  have hfree : ∀ j, ROOTINO+1 ≤ j → rootTable j = Node.free := by
    intro j hj
    exact update_of_ne (by omega) _ _
  have htype : (rootTable ROOTINO).type ≠ 0 := by
    unfold rootTable
    rw [update_self]
    decide
  have hover (t : Nat → Node) (h : Over t) (hle : ∀ j, (t j).data.length ≤ (rootTable j).data.length) :
      (∃ f ∈ files, f.Refused) ∨ Over (tableOf files) :=
    Or.inr ((h.mono hle).mono (length_table files hfree (Nat.lt_succ_self _)))
  unfold main
  apply ensures_bind
  apply Runs.ensures
  refine ⟨_, _, zeroBlocks_eq FSSIZE le_rfl, ?_⟩
  apply ensures_bind
  apply Runs.ensures
  refine ⟨_, _, wsect_ok (by decide), ?_⟩
  change Ensures _ blank _ _
  apply ensures_bind
  apply ((ialloc_spec blank_holds (by decide) hroot (by decide)).imp ?_).ensures
  intro r m1 h1
  obtain ⟨hr, hfree1, h1⟩ := h1
  obtain rfl : r = ROOTINO := hr
  change Holds m1 (update _ ROOTINO (Node.fresh T_DIR)) at h1
  change m1.freeinode = 2 at hfree1
  apply ensures_panicIf
  · exact fun hne => absurd rfl hne
  intro _
  apply ensures_bind
  apply (iappend_spec h1 hroot (by rw [update_self]; decide) (dirent ROOTINO [46])).imp
  · intro _ h
    apply hover _ h
    intro j
    rw [← root_steps]
    exact length_extend _ j
  intro _ m2 h2
  apply ensures_bind
  apply (iappend_spec h2.1 hroot (by
    unfold extend
    rw [update_self, update_self]
    decide) (dirent ROOTINO [46, 46])).imp
  · intro _ h
    rw [root_steps] at h
    exact hover _ h fun _ => le_rfl
  intro _ m3 h3
  rw [root_steps] at h3
  have hfree3 : m3.freeinode = ROOTINO+1 := h3.2.trans (h2.2.trans hfree1)
  apply ensures_bind
  have hfiles := addFiles_spec h3.1 htype files (by rw [hfree3]; change 1+1+_ ≤ _; omega)
  rw [hfree3] at hfiles
  apply hfiles.imp (fun _ he => he)
  intro _ m4 h4
  obtain ⟨h4, hfree4⟩ := h4
  apply ensures_bind
  apply Runs.ensures
  refine ⟨_, _, rinode_ok hroot h4.laid.len, ?_⟩
  apply ensures_bind
  apply Runs.ensures
  refine ⟨_, _, winode_ok hroot h4.laid.len _, ?_⟩
  apply ensures_get
  have hhigh := h4.laid.high
  apply ensures_panicIf
  · intro hbig
    change ¬ m4.freeblock < BSIZE*8 at hbig
    have : FSSIZE < BSIZE*8 := by decide
    omega
  intro _
  apply Runs.ensures
  refine ⟨_, _, wsect_ok (by decide), m4, h4, ?_, ?_⟩
  · rw [hfree4]
    change 1+1+_ = _
    omega
  · rw [dino_eq m4 hroot]
    rfl

section Finished
variable {m : Image} {t : Nat → Node}

def rootSize (n : Nat) : Nat := (n/BSIZE + 1)*BSIZE

omit [Layout] in
theorem bitOf_markFirst (used b : Nat) : bitOf (markFirst used) b = decide (b < used) := by
  induction used with
  | zero =>
    rw [bitOf_eq]
    change (0#8).getLsbD _ = _
    rw [BitVec.getLsbD_zero]
    rfl
  | succ used ih =>
    unfold markFirst
    rw [bitOf_setBit, ih]
    by_cases hb : b = used
    · rw [if_pos hb, hb]
      exact (decide_eq_true (Nat.lt_succ_self _)).symm
    · rw [if_neg hb]
      congr 1
      rw [eq_iff_iff]
      omega

theorem finish_parts (m : Image) :
    m.finish.fs.st.dino = update m.fs.st.dino ROOTINO
      { m.fs.st.dino ROOTINO with
        size := BitVec.ofNat 32 (rootSize (m.fs.st.dino ROOTINO).size.toNat) } ∧
    m.finish.fs.st.data = m.fs.st.data ∧
    ∀ b, b < FSSIZE → m.finish.fs.st.used b = decide (b < m.freeblock) := by
  have hroot := FsLayout.root_lt
  have hareas := areas_lt
  set d : Dinode := { m.fs.st.dino ROOTINO with
    size := BitVec.ofNat 32 (rootSize (m.fs.st.dino ROOTINO).size.toNat) } with hd
  have hfin : m.finish = (m.putInode ROOTINO d).write sb.bmapstart (markFirst m.freeblock) := by
    unfold Image.finish
    rw [hd, dino_eq m hroot]
    rfl
  obtain ⟨hdino, hdata⟩ := write_inode m hroot d
  refine ⟨?_, ?_, ?_⟩
  · rw [← hdino, hfin]
    funext i
    unfold Store.dino
    split_ifs with hi
    · have hne : Xv6.IBLOCK i ≠ sb.bmapstart := by
        have h1 := (IBLOCK_lt hi).2
        rw [IBLOCK_eq]
        omega
      exact congrArg (dinodeAt · i) (update_of_ne hne _ _)
    · rfl
  · rw [← hdata, hfin]
    funext b
    unfold Store.data
    split_ifs with hb
    · have hne : b ≠ sb.bmapstart := by
        have h1 := ((dataBlock_iff b).mp hb).1
        omega
      exact update_of_ne hne _ _
    · rfl
  · intro b hb
    have hblk : BBLOCK b = sb.bmapstart := by
      unfold BBLOCK
      rw [Layout.bmapstart_eq]
      have : b/BPB = 0 := Nat.div_eq_of_lt (hb.trans (by decide))
      omega
    have hmod : b % BPB = b := Nat.mod_eq_of_lt (hb.trans (by decide))
    have hsize : b < FsLayout.sb.size := by
      rw [Layout.size_eq]
      exact hb
    have hview : m.finish.fs.st.view sb.bmapstart = markFirst m.freeblock := by
      rw [hfin]
      change update (m.putInode ROOTINO d).block sb.bmapstart (markFirst m.freeblock)
        sb.bmapstart = _
      rw [update_self]
    unfold Store.used
    rw [decide_eq_true hsize, Bool.true_and, hblk, hmod, hview, bitOf_markFirst]

theorem finish_own (m : Image) :
    own m.finish.fs.st.dino m.finish.fs.st.data = own m.fs.st.dino m.fs.st.data := by
  obtain ⟨hdino, hdata, _⟩ := finish_parts m
  rw [hdino, hdata]
  exact own_withFields rfl rfl

/-- The free map of the finished image agrees with the block numbers in it. -/
theorem finish_blocks (h : Holds m t) : BlocksOk m.finish.fs.st m.finish.fs.st.dino := by
  obtain ⟨_, _, hused⟩ := finish_parts m
  have hareas := areas_lt
  have hlow := h.laid.low
  refine ⟨?_, ⟨?_, ?_, ?_⟩, ?_⟩
  · intro b hb
    rw [datastart_eq] at hb
    rw [hused b (by omega)]
    exact decide_eq_true (by omega)
  · rw [finish_own m]
    exact h.laid.owns.inside
  · rw [finish_own m]
    exact h.laid.owns.inj
  · intro b hb
    rw [finish_own m, hused b ((dataBlock_iff b).mp hb).2]
    exact h.laid.owns.used b hb
  · intro i hi
    unfold Store.dino
    rw [if_neg (by omega)]
    rfl

/-- A machine with the finished image on its disk and none of it in its log. -/
structure Boots (m : Image) (s : Fs) : Prop where
  view : s.st.view = m.block
  log : LogOk s.st
  cells : CellsOk s.cell s.mem m.fs.st.dino

theorem Boots.parts {s : Fs} (hb : Boots m s) :
    s.st.dino = m.fs.st.dino ∧ s.st.data = m.fs.st.data ∧ s.st.used = m.fs.st.used := by
  have hview : s.st.view = m.fs.st.view := hb.view
  refine ⟨?_, ?_, ?_⟩
  · funext i
    unfold Store.dino
    rw [hview]
  · funext b
    unfold Store.data
    rw [hview]
  · funext b
    unfold Store.used
    rw [hview]

theorem Boots.inodes {s : Fs} (h : Holds m t) (hb : Boots m.finish s) : InodesOk s s.st.dino := by
  obtain ⟨hdino, hdata, hused⟩ := hb.parts
  have hok := finish_blocks h
  refine ⟨hb.log, ⟨?_, ?_, ?_⟩, ?_⟩
  · rw [hused]
    exact hok.reserved
  · rw [hdino, hdata, hused]
    exact hok.owns
  · rw [hdino]
    exact hok.none
  · rw [hdino]
    exact hb.cells

/-- The root directory of the finished image: its size is rounded up past what its entries
fill, and it has the blocks that they reach. -/
theorem finish_root (h : Holds m t) (hty : (t ROOTINO).type ≠ 0)
    (hmax : rootSize (t ROOTINO).data.length ≤ MAXFILE*BSIZE) :
    (m.finish.fs.st.dino ROOTINO).type ≠ 0 ∧
    (m.finish.fs.st.dino ROOTINO).size.toNat = rootSize (t ROOTINO).data.length ∧
    ∀ bn < MAXFILE, own m.finish.fs.st.dino m.finish.fs.st.data (ROOTINO, blockPlace bn) ≠ 0 ↔
      bn*BSIZE < (t ROOTINO).data.length := by
  obtain ⟨hdino, _, _⟩ := finish_parts m
  obtain ⟨hdty, hsize⟩ := h.size hty
  have hM : MAXFILE*BSIZE < 2^32 := by decide
  rw [finish_own, hdino, update_self]
  refine ⟨hdty, ?_, (h.sized ROOTINO hty).block⟩
  dsimp only
  rw [hsize, BitVec.toNat_ofNat]
  exact Nat.mod_eq_of_lt (by omega)

/-- The blocks of the finished image that are there: all of a file, and those of the root
directory that its entries reach. -/
theorem finish_filled (h : Holds m t) {i : Nat} (hty : (m.finish.fs.st.dino i).type ≠ 0)
    (hroot : i = ROOTINO → (t ROOTINO).data.length % BSIZE ≠ 0) :
    Filled m.finish.fs.st.dino m.finish.fs.st.data i := by
  obtain ⟨hdino, _, _⟩ := finish_parts m
  by_cases hi : i = ROOTINO
  · have hlen := hroot hi
    subst hi
    rw [hdino, update_self] at hty
    have hmax := h.max ROOTINO
    have hM : MAXFILE*BSIZE = 268*1024 := by decide
    have hround : rootSize (t ROOTINO).data.length ≤ MAXFILE*BSIZE := by
      unfold rootSize
      unfold BSIZE at *
      omega
    obtain ⟨_, hnew, hblock⟩ := finish_root h (by rw [h.type]; exact hty) hround
    refine ⟨by rw [hnew]; exact hround, fun bn hbn => ?_⟩
    rw [hnew] at hbn
    have hM' : MAXFILE = 268 := by decide
    rw [hblock bn (by unfold BSIZE at *; omega)]
    unfold rootSize at hbn
    unfold BSIZE at *
    omega
  · have hsame : m.finish.fs.st.dino i = m.fs.st.dino i := by
      rw [hdino, update_of_ne hi]
    rw [hsame] at hty
    have hfill := h.filled hty
    refine ⟨by rw [hsame]; exact hfill.size, fun bn hbn => ?_⟩
    rw [hsame] at hbn
    rw [finish_own]
    exact hfill.blocks bn hbn

end Finished

section Tables
variable {t : Nat → Node} {n : Nat}

def entries (n : Nat) : List Input → List UInt8
  | [] => []
  | f :: fs => dirent n f.name ++ entries (n+1) fs

section
omit [Layout]

theorem length_entries (fs : List Input) : (entries n fs).length = DIRENT*fs.length := by
  induction fs generalizing n with
  | nil => rfl
  | cons f fs ih =>
    unfold entries
    rw [List.length_append, dirent_length, ih, List.length_cons]
    ring

theorem table_root (hn : ROOTINO < n) (fs : List Input) :
    table t n fs ROOTINO = (t ROOTINO).withData ((t ROOTINO).data ++ entries n fs) := by
  induction fs generalizing t n with
  | nil =>
    unfold table entries
    rw [List.append_nil]
    rfl
  | cons f fs ih =>
    unfold table entries
    rw [ih (by omega)]
    unfold added extend
    rw [update_of_ne (by omega), update_self, ← List.append_assoc]
    rfl

theorem table_below {i : Nat} (hi : i < n) (hroot : i ≠ ROOTINO) (fs : List Input) :
    table t n fs i = t i := by
  induction fs generalizing t n with
  | nil => rfl
  | cons f fs ih =>
    unfold table
    rw [ih (by omega)]
    unfold added extend
    rw [update_of_ne (by omega), update_of_ne hroot]

theorem table_file (hn : ROOTINO < n) (fs : List Input) {k : Nat} (hk : k < fs.length) :
    table t n fs (n+k) = (fs[k]).node := by
  induction fs generalizing t n k with
  | nil => exact absurd hk (Nat.not_lt_zero k)
  | cons f fs ih =>
    unfold table
    cases k with
    | zero =>
      change table (added t n f) (n+1) fs n = f.node
      rw [table_below (by omega) (by omega)]
      unfold added
      rw [update_self]
    | succ k =>
      have hrec := ih (t := added t n f) (n := n+1) (by omega) (k := k) (by
        rw [List.length_cons] at hk
        omega)
      rw [show n + (k+1) = n+1+k by omega, hrec]
      rfl

theorem table_above {i : Nat} (fs : List Input) (hn : ROOTINO < n) (hi : n + fs.length ≤ i) :
    table t n fs i = t i := by
  induction fs generalizing t n with
  | nil => rfl
  | cons f fs ih =>
    rw [List.length_cons] at hi
    unfold table
    rw [ih (by omega) (by omega)]
    unfold added extend
    rw [update_of_ne (by omega), update_of_ne (by omega)]

theorem tableOf_root (files : List Input) : tableOf files ROOTINO = ⟨T_DIR, 0, 0, 1,
    dirent ROOTINO [46] ++ dirent ROOTINO [46, 46] ++ entries (ROOTINO+1) files⟩ := by
  unfold tableOf
  rw [table_root (Nat.lt_succ_self _)]
  unfold rootTable
  rw [update_self]
  rfl

theorem length_root (files : List Input) :
    (tableOf files ROOTINO).data.length = DIRENT*(files.length+2) := by
  rw [tableOf_root]
  dsimp only
  rw [List.length_append, List.length_append, dirent_length, dirent_length, length_entries]
  ring

theorem tableOf_file (files : List Input) {k : Nat} (hk : k < files.length) :
    tableOf files (k+2) = (files[k]).node := by
  rw [Nat.add_comm]
  exact table_file (Nat.lt_succ_self _) files hk

theorem tableOf_free (files : List Input) {i : Nat} (hi : i = 0 ∨ files.length + 2 ≤ i) :
    tableOf files i = Node.free := by
  have hroot : i ≠ ROOTINO := by
    unfold ROOTINO
    omega
  have hfree : rootTable i = Node.free := update_of_ne hroot _ _
  unfold tableOf
  rcases hi with hi | hi
  · rw [table_below (by omega) hroot]
    exact hfree
  · rw [table_above files (Nat.lt_succ_self _) (by change 1+1+_ ≤ _; omega)]
    exact hfree

end

theorem total_table (hn : ROOTINO < n) (fs : List Input) (hfree : ∀ j, n ≤ j → t j = Node.free)
    (hlt : n + fs.length ≤ FsLayout.sb.ninodes) :
    total (table t n fs) + blocksOf (t ROOTINO).data.length =
      total t + blocksOf ((t ROOTINO).data.length + DIRENT*fs.length) +
        (fs.map fun f => blocksOf f.data.length).sum := by
  induction fs generalizing t n with
  | nil => rfl
  | cons f fs ih =>
    rw [List.length_cons] at hlt
    obtain ⟨hfree', _⟩ := added_free hfree hn f
    have hrec := ih (t := added t n f) (n := n+1) (by omega) hfree' (by omega)
    have hroot : (added t n f ROOTINO).data.length = (t ROOTINO).data.length + DIRENT := by
      unfold added extend
      rw [update_of_ne (by omega), update_self]
      unfold Node.withData
      rw [List.length_append, dirent_length]
    have hfile := total_update (t := extend t ROOTINO (dirent n f.name)) (i := n) (by omega) f.node
    have hold : extend t ROOTINO (dirent n f.name) n = Node.free := by
      unfold extend
      rw [update_of_ne (by omega), hfree n le_rfl]
    have hentry := total_update (t := t) (i := ROOTINO) FsLayout.root_lt
      ((t ROOTINO).withData ((t ROOTINO).data ++ dirent n f.name))
    have hlen : ((t ROOTINO).withData ((t ROOTINO).data ++ dirent n f.name)).data.length =
        (t ROOTINO).data.length + DIRENT := by
      unfold Node.withData
      rw [List.length_append, dirent_length]
    rw [hlen] at hentry
    change total (extend t ROOTINO (dirent n f.name)) + _ = _ at hentry
    rw [hold] at hfile
    change total (added t n f) + 0 = _ + blocksOf f.data.length at hfile
    rw [hroot, show (t ROOTINO).data.length + DIRENT + DIRENT*fs.length =
      (t ROOTINO).data.length + DIRENT*(fs.length+1) by ring] at hrec
    unfold table
    rw [List.length_cons, List.map_cons, List.sum_cons]
    omega

end Tables

/-- Files that `mkfs` can open and that fit: fewer inodes than `NINODES` with the root, none
too large, and with all indirect blocks no more than `FSSIZE` blocks. -/
structure Fits (files : List Input) : Prop where
  opened : ∀ f ∈ files, ¬ f.Refused
  inodes : files.length + 1 < NINODES
  sizes : ∀ f ∈ files, f.data.length ≤ MAXFILE*BSIZE
  blocks : nmeta + blocksOf (DIRENT*(files.length+2)) +
    (files.map fun f => blocksOf f.data.length).sum ≤ FSSIZE

section Fit
variable {files : List Input}

theorem total_tableOf (hlt : files.length + 2 ≤ FsLayout.sb.ninodes) :
    total (tableOf files) = blocksOf (DIRENT*(files.length+2)) +
      (files.map fun f => blocksOf f.data.length).sum := by
  have hfree : ∀ j, ROOTINO+1 ≤ j → rootTable j = Node.free := by
    intro j hj
    exact update_of_ne (by omega) _ _
  have htable := total_table (Nat.lt_succ_self ROOTINO) files hfree (by change 1+1+_ ≤ _; omega)
  have hempty : total (fun _ => Node.free) = 0 := Finset.sum_eq_zero fun _ _ => blocksOf_zero
  have hroot := total_update (t := fun _ => Node.free) FsLayout.root_lt (rootTable ROOTINO)
  have hself : update (fun _ => Node.free) ROOTINO (rootTable ROOTINO) = rootTable := by
    unfold rootTable
    rw [update_self]
  have hlen : (rootTable ROOTINO).data.length = 2*DIRENT := rfl
  rw [hself, hempty] at hroot
  change total rootTable + 0 = _ at hroot
  rw [hlen, show 2*DIRENT + DIRENT*files.length = DIRENT*(files.length+2) by ring] at htable
  change total (tableOf files) + _ = _ at htable
  rw [hlen] at hroot
  omega

theorem ninodes_lt : FsLayout.sb.ninodes < 208 := by
  have h := FsLayout.inodes_end
  rw [Layout.inodestart_eq, Layout.bmapstart_eq] at h
  have hblocks : FsLayout.sb.ninodes/IPB + 1 ≤ ninodeblocks := by
    change sb.inodestart + _ ≤ sb.inodestart + ninodeblocks at h
    omega
  have hdiv : FsLayout.sb.ninodes/16 < 13 := hblocks
  omega

theorem not_over (hsizes : ∀ f ∈ files, f.data.length ≤ MAXFILE*BSIZE)
    (hblocks : nmeta + blocksOf (DIRENT*(files.length+2)) +
      (files.map fun f => blocksOf f.data.length).sum ≤ FSSIZE)
    (hlt : files.length + 2 ≤ FsLayout.sb.ninodes) : ¬ Over (tableOf files) := by
  have htotal := total_tableOf hlt
  have hninodes := ninodes_lt
  rintro (⟨i, hi⟩ | hover)
  · by_cases hroot : i = ROOTINO
    · have hM : MAXFILE*BSIZE = 268*1024 := by decide
      have hD : DIRENT = 16 := rfl
      rw [hroot, length_root, hM, hD] at hi
      omega
    · by_cases hfile : 2 ≤ i ∧ i < files.length + 2
      · obtain ⟨k, rfl⟩ : ∃ k, i = k+2 := ⟨i-2, by omega⟩
        have hk : k < files.length := by omega
        rw [tableOf_file files hk] at hi
        have hsize := hsizes _ (List.getElem_mem hk)
        exact absurd hi (Nat.not_lt.mpr hsize)
      · unfold ROOTINO at hroot
        rw [tableOf_free files (by omega)] at hi
        exact absurd hi (Nat.not_lt_zero _)
  · omega

/-- `mkfs` runs on files that it can open if there is room for them. -/
theorem main_runs (hopened : ∀ f ∈ files, ¬ f.Refused)
    (hsizes : ∀ f ∈ files, f.data.length ≤ MAXFILE*BSIZE)
    (hblocks : nmeta + blocksOf (DIRENT*(files.length+2)) +
      (files.map fun f => blocksOf f.data.length).sum ≤ FSSIZE)
    (hlt : files.length + 2 ≤ FsLayout.sb.ninodes) :
    Runs (main files) start fun _ m' =>
      ∃ m, Holds m (tableOf files) ∧ m.freeinode = files.length + 2 ∧ m' = m.finish := by
  apply (main_spec files hlt).runs
  intro _ he
  rcases he with ⟨f, hf, hr⟩ | he
  · exact hopened f hf hr
  · exact not_over hsizes hblocks hlt he

end Fit

end Image

@[reducible] def layout : Layout where
  sb := Mkfs.sb
  size_eq := rfl
  inodestart_eq := rfl
  bmapstart_eq := rfl

section NoHoles

theorem Fits.made {files : List Input} (h : Fits files) : let _ := layout
    Runs (main files) start fun _ m' =>
      ∃ m, Holds m (tableOf files) ∧ m.freeinode = files.length + 2 ∧ m' = m.finish :=
  let _ := layout
  main_runs h.opened h.sizes h.blocks h.inodes

/-- If the entries of the root directory fill its last block, the block behind is missing. -/
theorem root_hole [Layout] {files : List Input} {m : Image} (h : Holds m (tableOf files))
    (hfull : (files.length+2) % (BSIZE/DIRENT) = 0) (hlt : files.length < 2*NINODES) :
    ∃ bn, (m.finish.fs.st.dino ROOTINO).type ≠ 0 ∧
      (m.finish.fs.st.dino ROOTINO).size.toNat = (bn+1)*BSIZE ∧
      bn*BSIZE = DIRENT*(files.length+2) ∧
      own m.finish.fs.st.dino m.finish.fs.st.data (ROOTINO, blockPlace bn) = 0 := by
  have hB : BSIZE = 1024 := rfl
  have hD : DIRENT = 16 := rfl
  have hN : NINODES = 200 := rfl
  have hM : MAXFILE = 268 := by decide
  have hty : (tableOf files ROOTINO).type ≠ 0 := by
    rw [tableOf_root]
    exact (by decide : T_DIR ≠ 0)
  rw [hB, hD] at hfull
  obtain ⟨bn, hbn⟩ := Nat.dvd_of_mod_eq_zero hfull
  have hround : rootSize (tableOf files ROOTINO).data.length = (bn+1)*BSIZE := by
    rw [length_root, rootSize, hB, hD]
    omega
  obtain ⟨hdty, hsize, hblock⟩ := finish_root h hty (by rw [hround, hB, hM]; omega)
  refine ⟨bn, hdty, hsize.trans hround, by rw [hB, hD]; omega, ?_⟩
  by_contra hne
  have := (hblock bn (by omega)).mp hne
  rw [length_root, hB, hD] at this
  omega

/-- The image has no holes, and the kernel reads it without allocating blocks. -/
def NoHoles [Layout] (m : Image) : Prop :=
  (∀ i bn, (m.fs.st.dino i).type ≠ 0 → bn*BSIZE < (m.fs.st.dino i).size.toNat →
    own m.fs.st.dino m.fs.st.data (i, blockPlace bn) ≠ 0) ∧
  ∀ s ip i off n, Boots m s → At s ip i →
    Runs (readi kernelCopy ip [] off n) s fun _ s' => QuietFs s s'

/-- The image of files that fit has no holes exactly if the entries of the root directory do
not fill its last block. -/
theorem mkfs_no_holes {files : List Input} (hfits : Fits files) : let _ := layout
    Runs (main files) start fun _ m => NoHoles m ↔ (files.length+2) % (BSIZE/DIRENT) ≠ 0 := by
  intro _
  apply hfits.made.imp
  intro _ m' hm'
  obtain ⟨m, h, _, rfl⟩ := hm'
  constructor
  · intro hno hfull
    have hlt := hfits.inodes
    obtain ⟨bn, hty, hsize, _, hzero⟩ := root_hole h hfull (by omega)
    refine hno.1 ROOTINO bn hty ?_ hzero
    rw [hsize]
    exact Nat.mul_lt_mul_of_pos_right (Nat.lt_succ_self bn) (by decide)
  intro hlast
  have hroot : (tableOf files ROOTINO).data.length % BSIZE ≠ 0 := by
    have hB : BSIZE = 1024 := rfl
    have hD : DIRENT = 16 := rfl
    rw [hB, hD] at hlast
    rw [length_root, hB, hD]
    omega
  have hfill (i : Nat) (hty : (m.finish.fs.st.dino i).type ≠ 0) :
      Filled m.finish.fs.st.dino m.finish.fs.st.data i := finish_filled h hty fun _ => hroot
  refine ⟨fun i bn hty hbn => (hfill i hty).blocks bn hbn, ?_⟩
  intro s ip i off n hb ha
  obtain ⟨hdino, hdata, _⟩ := hb.parts
  have hok : FsCore s s.st.dino := by
    refine ⟨hb.inodes h, ?_⟩
    rw [hdino, hdata]
    exact hfill
  have hread : Runs (readi kernelBuffer.copy ip [] off n) s _ := readi_spec hok ha trivial
  exact hread.imp fun _ _ hr => hr.2

def emptyFile : Input where
  path := [97]
  pieces := some []
  cstring c hc := by
    rw [List.mem_singleton.mp hc]
    decide
  piece _ hps _ hp := by
    cases hps
    cases hp

theorem emptyFile_opened : ¬ emptyFile.Refused := by
  unfold Input.Refused
  decide

theorem emptyFile_data : emptyFile.data.length = 0 := rfl

theorem empties_blocks (n : Nat) :
    ((List.replicate n emptyFile).map fun f => blocksOf f.data.length).sum = 0 := by
  rw [List.map_replicate, List.sum_replicate, emptyFile_data, blocksOf_zero]
  exact Nat.mul_zero n

theorem empties_runs [Layout] {n : Nat} (hblocks : nmeta + blocksOf (DIRENT*(n+2)) ≤ FSSIZE)
    (hlt : n + 2 ≤ FsLayout.sb.ninodes) :
    Runs (main (List.replicate n emptyFile)) start fun _ m' =>
      ∃ m, Holds m (tableOf (List.replicate n emptyFile)) ∧ m.freeinode = n+2 ∧ m' = m.finish := by
  have hmem (f : Input) (hf : f ∈ List.replicate n emptyFile) : f = emptyFile :=
    List.eq_of_mem_replicate hf
  have hlen : (List.replicate n emptyFile).length = n := List.length_replicate
  have hrun : Runs (main (List.replicate n emptyFile)) start _ := main_runs (fun f hf => hmem f hf ▸ emptyFile_opened)
    (fun f hf => by rw [hmem f hf, emptyFile_data]; exact Nat.zero_le _)
    (by rw [empties_blocks, hlen]; exact hblocks) (by rw [hlen]; exact hlt)
  rwa [hlen] at hrun

/-- One empty file. -/
theorem mkfs_no_holes_one : let _ := layout
    Runs (main [emptyFile]) start fun _ m => NoHoles m := by
  intro _
  have hfits : Fits [emptyFile] := by
    refine ⟨?_, by decide, ?_, ?_⟩
    · intro f hf
      rw [List.mem_singleton.mp hf]
      exact emptyFile_opened
    · intro f hf
      rw [List.mem_singleton.mp hf, emptyFile_data]
      exact Nat.zero_le _
    · decide
  exact (mkfs_no_holes hfits).imp fun _ _ hm => hm.mpr (by decide)

/-- With 62 files the 64 entries fill a block, and the size is rounded to two: the root
directory has a hole. -/
theorem mkfs_leaves_hole : let _ := layout
    ∃ m, main (List.replicate 62 emptyFile) start = .ok ((), m) ∧
      (m.fs.st.dino ROOTINO).type ≠ 0 ∧ (m.fs.st.dino ROOTINO).size.toNat = 2*BSIZE ∧
      own m.fs.st.dino m.fs.st.data (ROOTINO, blockPlace 1) = 0 := by
  intro _
  obtain ⟨_, m', hrun, m, h, _, rfl⟩ := empties_runs (n := 62) (by decide) (by decide)
  obtain ⟨bn, hty, hsize, hbn, hzero⟩ := root_hole h (by rw [List.length_replicate]; decide)
    (by rw [List.length_replicate]; decide)
  rw [List.length_replicate] at hbn
  obtain rfl : bn = 1 := Nat.eq_of_mul_eq_mul_right (show 0 < BSIZE by decide) (hbn.trans (by decide))
  exact ⟨m.finish, hrun, hty, hsize, hzero⟩

end NoHoles

section Inside

section Count
variable {α β : Type} {n b : Nat} {m : Image}

/-- An image of its full length, with inodes given out up to `n`. -/
def Counted (n : Nat) (m : Image) : Prop := m.len = FSSIZE ∧ m.freeinode = n

def Keeps (x : Prog Image α) : Prop := ∀ ⦃n m⦄, Counted n m → Ends x m fun _ m' => Counted n m'

theorem keeps_pure {a : α} : Keeps (pure a) := fun _ _ h => ends_pure h

theorem Keeps.bind {x : Prog Image β} {f : β → Prog Image α} (hx : Keeps x)
    (hf : ∀ b, Keeps (f b)) : Keeps (x >>= f) := fun _ _ h => Ends.bind (hx h) fun b _ h1 => hf b h1

/-- A block that was read lies in the image, so that writing it does not make it longer. -/
theorem rsect_counted (h : Counted n m) (b : Nat) :
    Ends (rsect b) m fun _ m' => Counted n m' ∧ b % 2^22 < FSSIZE := by
  refine ends_get (ends_bind (ends_panicIf fun hlt => ends_pure ⟨h, ?_⟩))
  rw [← h.1]
  exact Nat.not_le.mp hlt

theorem keeps_rsect {f : Bytes → Prog Image α} (hf : b % 2^22 < FSSIZE → ∀ buf, Keeps (f buf)) :
    Keeps (rsect b >>= f) := fun _ _ h => (rsect_counted h b).bind fun buf _ h1 => hf h1.2 buf h1.1

theorem keeps_wsect (hb : b % 2^22 < FSSIZE) (buf : Bytes) : Keeps (wsect b buf) :=
  fun _ _ h => ends_modify ⟨write_len hb h.1, h.2⟩

theorem keeps_rinode (i : Nat) : Keeps (rinode i) := keeps_rsect fun _ _ => keeps_pure

theorem keeps_winode (i : Nat) (d : Dinode) : Keeps (winode i d) :=
  keeps_rsect fun hb _ => keeps_wsect hb _

theorem keeps_nextBlock : Keeps nextBlock := fun _ _ h => ends_get (ends_bind (ends_set (ends_pure h)))

theorem keeps_addrFor (d : Dinode) (k : Fin (NDIRECT+1)) : Keeps (addrFor d k) := by
  unfold addrFor
  split_ifs
  · exact keeps_nextBlock.bind fun _ => keeps_pure
  · exact keeps_pure

theorem keeps_blockFor (d : Dinode) (fbn : Nat) : Keeps (blockFor d fbn) := by
  unfold blockFor
  split_ifs
  · exact (keeps_addrFor d _).bind fun _ => keeps_pure
  · refine (keeps_addrFor d _).bind fun _ => Keeps.bind (keeps_rsect fun hb _ => ?_) fun _ => keeps_pure
    split_ifs
    · exact keeps_nextBlock.bind fun _ => (keeps_wsect hb _).bind fun _ => keeps_pure
    · exact keeps_pure

theorem keeps_iappendLoop (k : Nat) : ∀ d off p, Keeps (iappendLoop k d off p) := by
  induction k with
  | zero => exact fun _ _ _ => keeps_pure
  | succ k ih =>
    intro d off p
    unfold iappendLoop
    split_ifs
    · exact keeps_pure
    · refine Keeps.bind (fun _ _ h => ends_panicIf fun _ => h) fun _ => (keeps_blockFor d _).bind fun _ => ?_
      exact keeps_rsect fun hb _ => (keeps_wsect hb _).bind fun _ => ih _ _ _

theorem keeps_iappend (i : Nat) (p : List UInt8) : Keeps (iappend i p) :=
  (keeps_rinode i).bind fun _ => (keeps_iappendLoop _ _ _ _).bind fun _ => keeps_winode i _

theorem keeps_appendPieces (i : Nat) (ps : List (List UInt8)) : Keeps (appendPieces i ps) := by
  induction ps with
  | nil => exact keeps_pure
  | cons p ps ih => exact (keeps_iappend i p).bind fun _ => ih

/-- An inode number is given out only if its block lies in the image, so the counter stays
far from its bound. -/
theorem ialloc_counted (h : Counted n m) (hn : n < 2^22) (type : BitVec 16) :
    Ends (ialloc type) m fun _ m' => Counted (n+1) m' ∧ n+1 < 2^22 := by
  have h1 : Counted (n+1) { m with freeinode := n+1 } := ⟨h.1, rfl⟩
  refine ends_get (ends_bind (ends_set ?_))
  rw [h.2, Nat.mod_eq_of_lt (show n+1 < 2^32 by omega)]
  refine Ends.bind ((rsect_counted h1 _).bind fun _ _ h2 =>
    (keeps_wsect h2.2 _ h2.1).imp fun _ _ h3 => (⟨h3, ?_⟩ : _ ∧ n+1 < 2^22)) fun _ _ h4 => ends_pure h4
  have hlt := h2.2
  have hblock : IBLOCK n = n/16 + 32 := rfl
  have hsize : FSSIZE = 1000 := rfl
  rw [hblock, hsize, Nat.mod_eq_of_lt (by omega)] at hlt
  omega

theorem addFiles_counted (root : Nat) (fs : List Input) : ∀ {n : Nat} {m : Image}, Counted n m →
    n < 2^22 → Ends (addFiles root fs) m fun _ m' => Counted (n + fs.length) m' := by
  induction fs with
  | nil => exact fun h _ => ends_pure h
  | cons f fs ih =>
    intro n m h hn
    refine ends_bind (ends_bind (ends_panicIf fun _ => ?_))
    cases f.pieces with
    | none => exact ends_of_panic rfl
    | some ps =>
      refine (ialloc_counted h hn _).bind fun _ _ h1 => (keeps_iappend _ _ h1.1).bind fun _ _ h2 => ?_
      refine (keeps_appendPieces _ ps h2).imp fun _ _ h3 => ?_
      rw [List.length_cons, Nat.add_comm fs.length, ← Nat.add_assoc]
      exact ih h3 h1.2

/-- Every run that succeeds has given out one inode to the root directory and one to each
file. -/
theorem main_counted (files : List Input) :
    Ends (main files) start fun _ m => m.freeinode = files.length + 2 := by
  unfold main
  refine ends_bind (Runs.ends ⟨_, _, zeroBlocks_eq FSSIZE le_rfl, ?_⟩)
  have h0 : Counted 1 (⟨FSSIZE, fun _ => zeroes, 1, nmeta⟩ : Image) := ⟨rfl, rfl⟩
  refine (keeps_wsect (by decide) _ h0).bind fun _ _ h1 => ?_
  refine (ialloc_counted h1 (by decide) _).bind fun _ _ h2 => ends_bind (ends_panicIf fun _ => ?_)
  refine (keeps_iappend _ _ h2.1).bind fun _ _ h3 => (keeps_iappend _ _ h3).bind fun _ _ h4 => ?_
  refine (addFiles_counted _ files h4 (by decide)).bind fun _ _ h5 => ?_
  refine (keeps_rinode _ h5).bind fun _ _ h6 => (keeps_winode _ _ h6).bind fun _ _ h7 => ends_get ?_
  refine ends_bind (ends_panicIf fun _ => (keeps_wsect (by decide) _ h7).imp fun _ _ h8 => ?_)
  rw [h8.2]
  omega

end Count

/-- The image keeps to its layout: block numbers are those of data blocks, the inodes in use
are below `NINODES` and lie in the inode blocks, the superblock and the log are as they were
written first, and the free map marks the blocks in use. -/
structure Inside [Layout] (m : Image) : Prop where
  len : m.len = FSSIZE
  blocks : ∀ p, own m.fs.st.dino m.fs.st.data p ≠ 0 →
    nmeta ≤ own m.fs.st.dino m.fs.st.data p ∧ own m.fs.st.dino m.fs.st.data p < FSSIZE
  inums : m.freeinode ≤ NINODES
  used : ∀ i, (m.fs.st.dino i).type ≠ 0 → 0 < i ∧ i < m.freeinode
  inodes : ∀ i, i < m.freeinode → sb.inodestart ≤ IBLOCK i ∧ IBLOCK i < sb.bmapstart
  superblock : m.block 1 = superblock
  log : ∀ b, 2 ≤ b → b < sb.inodestart → m.block b = zeroes
  bitmap : BlocksOk m.fs.st m.fs.st.dino

theorem finish_block {m : Image} {b : Nat} (hb : b < sb.inodestart) : m.finish.block b = m.block b := by
  have h1 : b ≠ sb.bmapstart := by
    have : sb.inodestart < sb.bmapstart := by decide
    omega
  have h2 : b ≠ IBLOCK ROOTINO := by
    have : sb.inodestart ≤ IBLOCK ROOTINO := by decide
    omega
  unfold Image.finish
  exact (update_of_ne h1 _ _).trans (update_of_ne h2 _ _)

/-- If `mkfs` succeeds, the image keeps to its layout exactly if there were fewer than
`NINODES - 1` files. -/
theorem mkfs_inside {files : List Input} {m : Image} (hrun : main files start = .ok ((), m)) :
    let _ := layout
    Inside m ↔ files.length + 1 < NINODES := by
  intro _
  refine ⟨fun h => (main_counted files _ _ hrun).ge.trans h.inums, fun hlt => ?_⟩
  obtain ⟨m, h, hfree, rfl⟩ := (main_spec files hlt).1 _ _ hrun
  obtain ⟨hdino, _, _⟩ := finish_parts m
  have hnum : m.finish.freeinode = files.length + 2 := hfree
  have hareas := areas_lt
  refine ⟨?_, ?_, ?_, ?_, ?_, ?_, ?_, finish_blocks h⟩
  · unfold Image.finish
    exact write_len (by decide) (write_len (by decide) h.laid.len)
  · intro p hp
    rw [finish_own] at hp ⊢
    exact (dataBlock_iff _).mp (h.laid.owns.inside p hp)
  · rw [hnum]
    exact hlt
  · intro i hi
    rw [hnum]
    by_contra hout
    have hnone := h.free i (by omega)
    have hroot : i ≠ ROOTINO := by
      unfold ROOTINO
      omega
    rw [hdino, update_of_ne hroot, ← h.type, hnone] at hi
    exact hi rfl
  · intro i hi
    rw [hnum] at hi
    exact IBLOCK_lt (show i < NINODES by omega)
  · rw [finish_block (by decide)]
    exact h.head 1 (by decide) (by decide)
  · intro b hlo hhi
    have hmeta : sb.inodestart < nmeta := by decide
    rw [finish_block hhi, h.head b (by omega) (by omega), if_neg (by omega)]

theorem mkfs_inside_one : let _ := layout
    ∃ m, main [emptyFile] start = .ok ((), m) ∧ Inside m := by
  intro _
  obtain ⟨_, m, hrun, _⟩ := empties_runs (n := 1) (by decide) (by decide)
  exact ⟨m, hrun, (mkfs_inside hrun).mpr (show [emptyFile].length + 1 < NINODES by decide)⟩

@[reducible] def wideLayout : Layout where
  sb := { Mkfs.sb with ninodes := 207 }
  size_eq := rfl
  inodestart_eq := rfl
  bmapstart_eq := rfl

/-- With 199 files `mkfs` succeeds and has given out inode 200, which the kernel does not see:
the superblock says that there are `NINODES` inodes. -/
theorem mkfs_passes_ninodes : ∃ m, main (List.replicate 199 emptyFile) start = .ok ((), m) ∧
    m.freeinode = NINODES+1 ∧ (dinodeAt (m.block (IBLOCK NINODES)) NINODES).type = T_FILE := by
  let _ := wideLayout
  obtain ⟨_, m', hrun, m, h, _, rfl⟩ := empties_runs (n := 199) (by decide) (by decide)
  obtain ⟨hdino, _, _⟩ := finish_parts m
  refine ⟨m.finish, hrun, main_counted _ _ _ hrun, ?_⟩
  have hlt : 198 < (List.replicate 199 emptyFile).length := by
    rw [List.length_replicate]
    decide
  rw [← dino_eq m.finish (show NINODES < 207 by decide), hdino, update_of_ne (by decide),
    ← h.type]
  change (tableOf (List.replicate 199 emptyFile) (198+2)).type = T_FILE
  rw [tableOf_file _ hlt]
  rfl

end Inside

end Xv6.Mkfs
