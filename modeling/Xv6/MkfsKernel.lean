import Xv6.MkfsMain

/-! `mkfs` and the kernel agree on the format of the disk: in the image that `mkfs` leaves the
kernel finds every file in the root directory under its name, and reads the bytes of it. -/
namespace Xv6.Mkfs

open Function

section Superblock

/-- The superblock that `readsb` copies out of block 1, without `magic` and `nblocks`. -/
def readsb (data : Bytes) : Superblock where
  size := leGet 4 data 4
  ninodes := leGet 4 data 12
  nlog := leGet 4 data 16
  logstart := leGet 4 data 20
  inodestart := leGet 4 data 24
  bmapstart := leGet 4 data 28

/-- `fsinit` up to the call of `initlog`. -/
def fsinit (data : Bytes) : Except String Superblock :=
  if leGet 4 data 0 ≠ FSMAGIC then .error "invalid file system" else .ok (readsb data)

theorem fsinit_superblock : fsinit superblock = .ok sb := by
  have hmagic : leGet 4 superblock 0 = FSMAGIC := by decide +kernel
  have hsb : readsb superblock = sb := rfl
  unfold fsinit
  rw [if_neg (fun hne => hne hmagic), hsb]

end Superblock

section Entries
variable {files : List Input} {k : Nat}

theorem Input.name_ne_zero (f : Input) : ∀ c ∈ f.name, c ≠ 0 := by
  have hshort : ∀ c ∈ f.shortname, c ≠ 0 := by
    intro c hc
    unfold Input.shortname at hc
    split_ifs at hc
    · exact f.cstring c (List.mem_of_mem_drop hc)
    · exact f.cstring c hc
  intro c hc
  unfold Input.name at hc
  split_ifs at hc
  · exact hshort c (List.mem_of_mem_tail hc)
  · exact hshort c hc

theorem Input.nameKey_eq (f : Input) : nameKey f.name = f.name.take DIRSIZ := by
  unfold nameKey Xv6.cstring
  apply List.takeWhile_eq_self_iff.mpr
  intro c hc
  exact decide_eq_true (f.name_ne_zero c (List.mem_of_mem_take hc))

theorem entryAt_cons {de data : List UInt8} (hde : de.length = DIRENT) (k : Nat) :
    entryAt (de ++ data) (k+1) = entryAt data k := by
  unfold entryAt
  rw [show (k+1)*DIRENT = de.length + k*DIRENT by rw [hde]; ring, List.drop_length_add_append]

theorem entryAt_head {de data : List UInt8} (hde : de.length = DIRENT) :
    entryAt (de ++ data) 0 = de := by
  unfold entryAt
  rw [Nat.zero_mul, List.drop_zero, ← hde, List.take_left]

theorem entryAt_entries {n : Nat} (hk : k < files.length) :
    entryAt (entries n files) k = dirent (n+k) files[k].name := by
  induction files generalizing n k with
  | nil => exact absurd hk (Nat.not_lt_zero k)
  | cons f fs ih =>
    unfold entries
    cases k with
    | zero => exact entryAt_head (dirent_length n f.name)
    | succ k =>
      rw [entryAt_cons (dirent_length n f.name), ih (Nat.lt_of_succ_lt_succ hk)]
      rw [show n+1+k = n+(k+1) by omega]
      rfl

theorem entryAt_root (files : List Input) :
    entryAt (tableOf files ROOTINO).data 0 = dirent ROOTINO [46] ∧
    entryAt (tableOf files ROOTINO).data 1 = dirent ROOTINO [46, 46] ∧
    ∀ k (hk : k < files.length),
      entryAt (tableOf files ROOTINO).data (k+2) = dirent (k+2) files[k].name := by
  rw [tableOf_root]
  dsimp only
  rw [List.append_assoc]
  have hdot := dirent_length ROOTINO [46]
  have hdots := dirent_length ROOTINO [46, 46]
  refine ⟨entryAt_head hdot, ?_, ?_⟩
  · rw [entryAt_cons hdot, entryAt_head hdots]
  · intro k hk
    rw [entryAt_cons hdot, entryAt_cons hdots, entryAt_entries hk, Nat.add_comm k 2]
    rfl

/-- The names that `mkfs` gives to the files are distinct in the bytes that count, and none
is `"."` or `".."`. -/
structure Named (files : List Input) : Prop where
  distinct : ∀ j k (hj : j < files.length) (hk : k < files.length),
    files[j].name.take DIRSIZ = files[k].name.take DIRSIZ → j = k
  dots : ∀ f ∈ files, f.name ≠ [46] ∧ f.name ≠ [46, 46]

theorem Named.first (h : Named files) (hk : k < files.length) {e : Nat} (he : e < k+2) :
    namecmp files[k].name (direntName (entryAt (tableOf files ROOTINO).data e)) ≠ 0 := by
  obtain ⟨h0, h1, hfile⟩ := entryAt_root files
  obtain ⟨hdot, hdots⟩ := h.dots _ (List.getElem_mem hk)
  rw [Ne, namecmp_eq_zero, Input.nameKey_eq]
  -- A name whose first bytes are those of a shorter one is equal to it.
  have hshort {t : List UInt8} (ht : t.length < DIRSIZ) (heq : files[k].name.take DIRSIZ = t) :
      files[k].name = t := by
    have hlen := congrArg List.length heq
    rw [List.length_take] at hlen
    rw [← heq, List.take_of_length_le (by omega)]
  match e, he with
  | 0, _ =>
    rw [h0, direntName_dirent, nameKey_strncpy]
    exact fun heq => hdot (hshort (by decide) heq)
  | 1, _ =>
    rw [h1, direntName_dirent, nameKey_strncpy]
    exact fun heq => hdots (hshort (by decide) heq)
  | j+2, he =>
    have hj : j < files.length := by omega
    rw [hfile j hj, direntName_dirent, nameKey_strncpy, Input.nameKey_eq]
    intro heq
    have := h.distinct k j hk hj heq
    omega

end Entries

section Kernel
variable [Layout] {m : Image} {files : List Input} {s s' : Fs} {ip dp : ISlot} {k : Nat}

theorem Boots.quiet (hb : Boots m s) (hq : QuietFs s s') : Boots m s' := by
  refine ⟨?_, hq.quiet.spent.log, ?_⟩
  · rw [hq.quiet.view]
    exact hb.view
  · rw [hq.cell, hq.mem]
    exact hb.cells

theorem Boots.iget (hb : Boots m s) (hfree : ∃ j, (s.cell j).ref = 0) (inum : Nat) :
    Runs (iget inum) s fun ip s' =>
      Boots m s' ∧ 0 < (s'.cell ip).ref ∧ (s'.cell ip).inum = inum := by
  unfold Xv6.iget
  rw [runs_bind, runs_get]
  cases hc : cachedSlot s.cell inum with
  | some ip =>
    obtain ⟨href, hinum⟩ := cachedSlot_some hc
    refine ⟨ip, _, rfl, ⟨hb.view, hb.log, hb.cells.recount (fun _ => href) rfl id⟩, ?_, ?_⟩
    · change 0 < (update s.cell ip _ ip).ref
      rw [update_self]
      exact Nat.succ_pos _
    · change (update s.cell ip _ ip).inum = _
      rw [update_self]
      exact hinum
  | none =>
    cases he : emptySlot s.cell with
    | none =>
      obtain ⟨j, hj⟩ := hfree
      exact absurd hj (emptySlot_none he j)
    | some ip =>
      refine ⟨ip, _, rfl, ⟨hb.view, hb.log, hb.cells.take (cachedSlot_none hc) rfl⟩, ?_, ?_⟩
      · change 0 < (update s.cell ip _ ip).ref
        rw [update_self]
        exact Nat.one_pos
      · change (update s.cell ip _ ip).inum = _
        rw [update_self]

/-- The bytes of a file that were written are those of the finished image. -/
theorem finish_window (h : Holds m (tableOf files)) {i off n : Nat}
    (hty : (tableOf files i).type ≠ 0) (hle : off+n ≤ (tableOf files i).data.length) :
    window m.finish.fs.st.dino m.finish.fs.st.data i off n =
      ((tableOf files i).data.drop off).take n := by
  obtain ⟨_, hdata, _⟩ := finish_parts m
  obtain ⟨hdty, hsize⟩ := h.size hty
  have hcontent : (tableOf files i).data = content m.fs.st.dino m.fs.st.data i := by
    rw [← h.node]
    exact nodeOf_data hdty
  rw [hcontent, take_drop_content (by omega)]
  unfold window byteAt
  rw [finish_own, hdata]

omit [Layout] in
theorem le_rootSize (n : Nat) : n ≤ rootSize n := by
  have hB : BSIZE = 1024 := rfl
  unfold rootSize
  rw [hB]
  omega

theorem root_size (h : Holds m (tableOf files)) : (m.finish.fs.st.dino ROOTINO).type = T_DIR ∧
    (m.finish.fs.st.dino ROOTINO).size.toNat = rootSize (DIRENT*(files.length+2)) := by
  obtain ⟨hfin, _, _⟩ := finish_parts m
  have htype : (tableOf files ROOTINO).type = T_DIR := by rw [tableOf_root]
  obtain ⟨_, hsize⟩ := h.size (i := ROOTINO) (by rw [htype]; decide)
  have hmax := h.max ROOTINO
  have hB : BSIZE = 1024 := rfl
  have hM : MAXFILE = 268 := rfl
  rw [length_root] at hsize hmax
  rw [hfin, update_self]
  refine ⟨h.type.symm.trans htype, ?_⟩
  rw [hsize, BitVec.toNat_ofNat]
  apply Nat.mod_eq_of_lt
  unfold rootSize
  rw [hM, hB] at hmax
  rw [hB]
  omega

theorem read_root (h : Holds m (tableOf files)) (hb : Boots m.finish s) (ha : At s dp ROOTINO)
    {e : Nat} (he : e < files.length + 2) :
    Runs (readi kernelCopy dp [] (e*DIRENT) DIRENT) s fun r s' =>
      r = (DIRENT, entryAt (tableOf files ROOTINO).data e) ∧ QuietFs s s' := by
  obtain ⟨hdino, hdata, _⟩ := hb.parts
  obtain ⟨_, hsize⟩ := root_size h
  have hty : (tableOf files ROOTINO).type ≠ 0 := by
    rw [tableOf_root]
    exact (by decide : T_DIR ≠ 0)
  have hmax := h.max ROOTINO
  have hsized := h.sized ROOTINO hty
  have hlen := length_root files
  have hD : DIRENT = 16 := rfl
  have hB : BSIZE = 1024 := rfl
  have hM : MAXFILE = 268 := rfl
  rw [hlen] at hmax hsized
  have hin : e*DIRENT + DIRENT ≤ DIRENT*(files.length+2) := by
    rw [hD]
    omega
  have hcov : Covered s.st.dino s.st.data ROOTINO (e*DIRENT) DIRENT := by
    intro x _ hhi
    rw [hM, hB] at hmax
    rw [hdino, hdata, finish_own, hsized.block _ (by rw [hM, hB]; omega), hB]
    omega
  have hle : e*DIRENT + DIRENT ≤ (s.st.dino ROOTINO).size.toNat := by
    rw [hdino, hsize]
    exact hin.trans (le_rootSize _)
  have hread : Runs (readi kernelBuffer.copy dp [] (e*DIRENT) DIRENT) s _ :=
    readi_window (hb.inodes h) ha hle (by omega) hcov trivial
  apply hread.imp
  intro r s' hr
  refine ⟨hr.1.trans ?_, hr.2⟩
  rw [hdino, hdata, finish_window h hty (by rw [hlen]; exact hin)]
  rfl

theorem lookup_root (h : Holds m (tableOf files)) (hnames : Named files) (hk : k < files.length)
    (hsmall : k+2 < 2^16) {size : Nat} (hsize : DIRENT*(files.length+2) ≤ size) (rounds : Nat) :
    ∀ e s, e ≤ k+2 → k+2 - e < rounds → Boots m.finish s → At s dp ROOTINO →
    (∃ j, (s.cell j).ref = 0) →
    Runs ((dirlookupLoop dp files[k].name size rounds (e*DIRENT)).run fsImpl) s fun r s' =>
      ∃ ip, r = some (ip, (k+2)*DIRENT) ∧ (s'.cell ip).inum = k+2 ∧ 0 < (s'.cell ip).ref ∧
        Boots m.finish s' := by
  induction rounds with
  | zero =>
    intro e s _ hlt
    exact absurd hlt (Nat.not_lt_zero _)
  | succ rounds ih =>
    intro e s he hlt hb ha hfree
    have hD : DIRENT = 16 := rfl
    have hoff : e*DIRENT < size := by
      rw [hD] at hsize ⊢
      omega
    unfold dirlookupLoop
    rw [if_pos hoff, run_bind, runs_bind, run_perform]
    apply (read_root h hb ha (by omega)).imp
    intro r s' hr
    obtain ⟨hr, hq⟩ := hr
    subst hr
    have hb' := hb.quiet hq
    dsimp only
    rw [run_bind, runs_bind]
    refine ⟨(), s', rfl, ?_⟩
    by_cases hek : e = k+2
    · -- The entry of the file itself.
      subst hek
      have hentry := (entryAt_root files).2.2 k hk
      have hinum : direntInum (dirent (k+2) files[k].name) = k+2 := by
        rw [direntInum_dirent]
        exact Nat.mod_eq_of_lt hsmall
      have hcmp : namecmp files[k].name (direntName (dirent (k+2) files[k].name)) = 0 := by
        rw [namecmp_eq_zero, direntName_dirent, nameKey_strncpy]
      rw [hentry, hinum, if_neg (by omega), if_pos hcmp, run_bind, runs_bind, run_perform]
      apply (hb'.iget (by rw [hq.cell]; exact hfree) (k+2)).imp
      intro ip s'' hip
      exact ⟨_, _, rfl, ip, rfl, hip.2.2, hip.2.1, hip.1⟩
    · have hrec := ih (e+1) s' (by omega) (by omega) hb' (by
        refine ⟨?_, ?_, ?_⟩
        · rw [hq.cell]
          exact ha.ref
        · rw [hq.cell]
          exact ha.valid
        · rw [hq.cell]
          exact ha.inum) (by rw [hq.cell]; exact hfree)
      rw [Nat.succ_mul] at hrec
      rw [if_neg (hnames.first hk (e := e) (by omega))]
      split_ifs
      · exact hrec
      · exact hrec

end Kernel

/-- What the kernel finds in an image. The superblock is the one that `mkfs` used. On a machine
with the image on its disk, `dirlookup` in the root directory finds every file under its name,
and `readi` reads its bytes. In the free map the metadata blocks are marked and those with a
number in an inode or an indirect block, and no block has its number there twice. -/
structure Serves [Layout] (m : Image) (files : List Input) : Prop where
  superblock : fsinit (m.block 1) = .ok Mkfs.sb
  lookup : ∀ s dp k (hk : k < files.length), Boots m s → At s dp ROOTINO →
    (∃ j, (s.cell j).ref = 0) →
    Runs ((dirlookup dp files[k].name).run fsImpl) s fun r s' =>
      ∃ ip, r = some (ip, (k+2)*DIRENT) ∧ (s'.cell ip).inum = k+2 ∧ 0 < (s'.cell ip).ref ∧ Boots m s'
  read : ∀ s ip k (hk : k < files.length) off n, Boots m s → At s ip (k+2) → off+n < 2^32 →
    Runs (readi kernelCopy ip [] off n) s fun r s' =>
      r = (((files[k].data.drop off).take n).length, (files[k].data.drop off).take n) ∧ Boots m s'
  bitmap : ∀ b, b < FSSIZE → (m.fs.st.used b = true ↔
    b < nmeta ∨ ∃ p, own m.fs.st.dino m.fs.st.data p = b)
  once : ∀ p q, own m.fs.st.dino m.fs.st.data p ≠ 0 →
    own m.fs.st.dino m.fs.st.data p = own m.fs.st.dino m.fs.st.data q → p = q

/-- Files for which there is room: fewer inodes than `NINODES` with the root, none too large,
and with all indirect blocks no more than `FSSIZE` blocks. -/
structure Room (files : List Input) : Prop where
  inodes : files.length + 1 < NINODES
  sizes : ∀ f ∈ files, f.data.length ≤ MAXFILE*BSIZE
  blocks : nmeta + blocksOf (DIRENT*(files.length+2)) +
    (files.map fun f => blocksOf f.data.length).sum ≤ FSSIZE

section Agree
variable [Layout] {m : Image} {files : List Input}

theorem finish_bitmap (h : Holds m (tableOf files)) {b : Nat} (hb : b < FSSIZE) :
    m.finish.fs.st.used b = true ↔
      b < nmeta ∨ ∃ p, own m.finish.fs.st.dino m.finish.fs.st.data p = b := by
  have hok := finish_blocks h
  by_cases hmeta : b < nmeta
  · refine iff_of_true ?_ (Or.inl hmeta)
    apply hok.reserved
    rw [datastart_eq]
    exact hmeta
  · rw [hok.owns.used b ((dataBlock_iff b).mpr ⟨by omega, hb⟩)]
    exact ⟨Or.inr, fun hp => hp.resolve_left hmeta⟩

theorem dirlookup_root (h : Holds m (tableOf files)) (hroom : Room files) (hnames : Named files)
    {k : Nat} (hk : k < files.length) {s : Fs} {dp : ISlot} (hb : Boots m.finish s)
    (ha : At s dp ROOTINO) (hfree : ∃ j, (s.cell j).ref = 0) :
    Runs ((dirlookup dp files[k].name).run fsImpl) s fun r s' =>
      ∃ ip, r = some (ip, (k+2)*DIRENT) ∧ (s'.cell ip).inum = k+2 ∧ 0 < (s'.cell ip).ref ∧
        Boots m.finish s' := by
  obtain ⟨hdino, _, _⟩ := hb.parts
  obtain ⟨hmem, _, _⟩ := (hb.inodes h).mem_at ha
  obtain ⟨hrootty, hsize⟩ := root_size h
  have hlt : k+2 < 2^16 := by
    have hN : NINODES < 2^16 := by decide
    have := hroom.inodes
    omega
  have hD : DIRENT = 16 := rfl
  have hle : DIRENT*(files.length+2) ≤ (s.mem dp).size.toNat := by
    rw [hmem, hdino, hsize]
    exact le_rootSize _
  have hty : (s.mem dp).type = T_DIR := by
    rw [hmem, hdino, hrootty]
  unfold dirlookup
  rw [run_bind, runs_bind, run_perform]
  refine ⟨_, s, rfl, ?_⟩
  dsimp only
  rw [run_bind, runs_bind, hty]
  refine ⟨(), s, rfl, ?_⟩
  have hloop := lookup_root h hnames hk hlt hle ((s.mem dp).size.toNat/DIRENT + 1) 0 s (Nat.zero_le _)
    (by rw [hD] at hle ⊢; omega) hb ha hfree
  rw [Nat.zero_mul] at hloop
  exact hloop

theorem read_file (h : Holds m (tableOf files)) {s : Fs} (hb : Boots m.finish s) {ip : ISlot} {k : Nat}
    (hk : k < files.length) (ha : At s ip (k+2)) {off n : Nat} (hoff : off+n < 2^32) :
    Runs (readi kernelCopy ip [] off n) s fun r s' =>
      r = (((files[k].data.drop off).take n).length, (files[k].data.drop off).take n) ∧
        Boots m.finish s' := by
  obtain ⟨hdino, hdata, _⟩ := hb.parts
  obtain ⟨hfin, _, _⟩ := finish_parts m
  have hroot : k+2 ≠ ROOTINO := by
    unfold ROOTINO
    omega
  have hnode : tableOf files (k+2) = files[k].node := tableOf_file files hk
  have hty : (tableOf files (k+2)).type ≠ 0 := by
    rw [hnode]
    exact (by decide : T_FILE ≠ 0)
  obtain ⟨hdty, hsize⟩ := h.size hty
  have hsame : m.finish.fs.st.dino (k+2) = m.fs.st.dino (k+2) := by
    rw [hfin, update_of_ne hroot]
  have hfill : Filled s.st.dino s.st.data (k+2) := by
    rw [hdino, hdata]
    exact finish_filled h (by rw [hsame]; exact hdty) fun he => absurd he hroot
  have hcontent : content s.st.dino s.st.data (k+2) = files[k].data := by
    have hle : 0+(tableOf files (k+2)).data.length ≤ (tableOf files (k+2)).data.length := (Nat.zero_add _).le
    have hwin := finish_window h hty hle
    rw [List.drop_zero, List.take_length, hnode] at hwin
    unfold content
    rw [hdino, hdata, hsame, hsize, hnode]
    exact hwin
  have hdata' : readData files[k].data off n = (files[k].data.drop off).take n := by
    unfold readData
    split_ifs with hend
    · rw [Nat.mod_eq_of_lt hoff] at hend
      rw [List.drop_eq_nil_of_le (by omega), List.take_nil]
    · rfl
  have hread : Runs (readi kernelBuffer.copy ip [] off n) s _ :=
    readi_filled (hb.inodes h) hfill ha trivial
  rw [hcontent, hdata'] at hread
  exact hread.imp fun _ _ hr => ⟨hr.1, hb.quiet hr.2⟩

end Agree

/-- `mkfs` stops on a file that it refuses, and otherwise writes an image from which the kernel
reads all files. -/
theorem mkfs_serves {files : List Input} (hroom : Room files) (hnames : Named files) : let _ := layout
    Ensures (main files) start (fun _ => ∃ f ∈ files, f.Refused) fun _ m => Serves m files := by
  intro _
  apply (main_spec files hroom.inodes).imp
  · intro _ he
    exact he.resolve_right (not_over hroom.sizes hroom.blocks hroom.inodes)
  intro _ m' hm'
  obtain ⟨m, h, _, rfl⟩ := hm'
  refine ⟨?_, ?_, ?_, fun b hb => finish_bitmap h hb, fun p q => (finish_blocks h).owns.inj p q⟩
  · rw [finish_block (by decide), h.head 1 (by decide) (by decide), if_pos rfl]
    exact fsinit_superblock
  · intro s dp k hk hb ha hfree
    exact dirlookup_root h hroom hnames hk hb ha hfree
  · intro s ip k hk off n hb ha hoff
    exact read_file h hb hk ha hoff

def hiFile : Input where
  path := [98]
  pieces := some [[104, 105]]
  cstring := by
    intro c hc
    rw [List.mem_singleton.mp hc]
    decide
  piece := by
    intro ps hps p hp
    rw [← Option.mem_some_iff.mp hps, List.mem_singleton] at hp
    rw [hp]
    decide

def rootHeld [Layout] (m : Image) : Fs :=
  { m.fs with
    cell := update m.fs.cell 0 ⟨ROOTINO, 1, true, true⟩
    mem := fun _ => m.fs.st.dino ROOTINO }

theorem rootHeld_boots [Layout] {m : Image} (hty : (m.fs.st.dino ROOTINO).type ≠ 0) :
    Boots m (rootHeld m) := by
  have hother {j : ISlot} (hj : 0 < ((rootHeld m).cell j).ref) : j = 0 := by
    by_contra hne
    have hcell : (rootHeld m).cell j = m.fs.cell j := update_of_ne hne _ _
    rw [hcell] at hj
    exact absurd hj (Nat.lt_irrefl 0)
  have hlog : LogOk (rootHeld m).st := by
    refine ⟨rfl, rfl, ?_, List.nodup_nil, Nat.zero_le _⟩
    intro b hb
    exact absurd hb List.not_mem_nil
  refine ⟨rfl, hlog, ?_, ?_⟩
  · intro j k hj hk _
    rw [hother hj, hother hk]
  · intro j hj _
    obtain rfl := hother hj
    exact ⟨hty, rfl⟩

/-- The kernel finds `b` in the image with this file. -/
theorem mkfs_serves_hi : let _ := layout
    ∃ m, main [hiFile] start = .ok ((), m) ∧ Boots m (rootHeld m) ∧ At (rootHeld m) 0 ROOTINO ∧
      Runs ((dirlookup 0 [98]).run fsImpl) (rootHeld m) fun r s' =>
        ∃ ip, r = some (ip, 2*DIRENT) ∧ (s'.cell ip).inum = 2 ∧ 0 < (s'.cell ip).ref ∧ Boots m s' := by
  intro _
  have hroom : Room [hiFile] := by
    refine ⟨by decide, ?_, by decide⟩
    intro f hf
    rw [List.mem_singleton.mp hf]
    decide
  have hnames : Named [hiFile] := by
    refine ⟨?_, ?_⟩
    · intro j k hj hk _
      rw [Nat.lt_one_iff.mp hj, Nat.lt_one_iff.mp hk]
    · intro f hf
      rw [List.mem_singleton.mp hf]
      decide
  have hopened : ¬ ∃ f ∈ [hiFile], f.Refused := by
    intro h
    obtain ⟨f, hf, hr⟩ := h
    rw [List.mem_singleton.mp hf] at hr
    exact absurd hr (by unfold Input.Refused; decide)
  obtain ⟨_, m, hrun, hm⟩ := (mkfs_serves hroom hnames).runs fun _ => hopened
  obtain ⟨m0, h0, _, heq⟩ := (main_spec [hiFile] hroom.inodes).1 _ _ hrun
  have hboots : Boots m (rootHeld m) := by
    apply rootHeld_boots
    rw [heq, (root_size h0).1]
    decide
  have hat : At (rootHeld m) 0 ROOTINO := ⟨Nat.one_pos, rfl, rfl⟩
  exact ⟨m, hrun, hboots, hat, hm.lookup _ 0 0 Nat.one_pos hboots hat ⟨1, rfl⟩⟩

end Xv6.Mkfs
