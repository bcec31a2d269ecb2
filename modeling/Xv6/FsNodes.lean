import Xv6.FsContent
import Xv6.FsDir

/-! Inodes as nodes: their fields and their content. Each function of the inode layer
changes one node, and keeps the invariant of the file system. -/
namespace Xv6

open Function

structure Node where
  type : BitVec 16
  major : BitVec 16
  minor : BitVec 16
  nlink : BitVec 16
  data : List UInt8

def Node.free : Node := ⟨0, 0, 0, 0, []⟩

def Node.withData (n : Node) (data : List UInt8) : Node := { n with data := data }

def nodeOf (ino : Nat → Dinode) (data : Nat → Bytes) (i : Nat) : Node :=
  if (ino i).type = 0 then Node.free
  else ⟨(ino i).type, (ino i).major, (ino i).minor, (ino i).nlink, content ino data i⟩

section NodeOf
variable {ino ino' : Nat → Dinode} {data data' : Nat → Bytes} {i : Nat}

theorem nodeOf_free (h : (ino i).type = 0) : nodeOf ino data i = Node.free := if_pos h

theorem nodeOf_alloc (h : (ino i).type ≠ 0) : nodeOf ino data i =
    ⟨(ino i).type, (ino i).major, (ino i).minor, (ino i).nlink, content ino data i⟩ := if_neg h

theorem nodeOf_type : (nodeOf ino data i).type = (ino i).type := by
  unfold nodeOf
  split_ifs with h
  · exact h.symm
  · rfl

theorem nodeOf_data (h : (ino i).type ≠ 0) : (nodeOf ino data i).data = content ino data i := by
  rw [nodeOf_alloc h]

theorem content_congr (hs : (ino' i).size = (ino i).size)
    (h : ∀ x, x < (ino i).size.toNat → byteAt ino' data' i x = byteAt ino data i x) :
    content ino' data' i = content ino data i := by
  unfold content window
  rw [hs]
  apply List.map_congr_left
  intro x hx
  rw [Nat.zero_add]
  exact h x (List.mem_range.mp hx)

theorem nodeOf_congr (hi : ino' i = ino i)
    (h : (ino i).type ≠ 0 → ∀ x, x < (ino i).size.toNat →
      byteAt ino' data' i x = byteAt ino data i x) : nodeOf ino' data' i = nodeOf ino data i := by
  unfold nodeOf
  rw [hi]
  split_ifs with hty
  · rfl
  · rw [content_congr (by rw [hi]) (h hty)]

end NodeOf

/-- The file system between two calls of the inode layer. -/
def FsOk [FsLayout] (s : Fs) : Prop := FsCore s s.st.dino

def Fs.node [FsLayout] (s : Fs) : Nat → Node := nodeOf s.st.dino s.st.data

variable [FsLayout]

section Update
variable {s s' : Fs} {ino ino' : Nat → Dinode} {ip : ISlot} {i : Nat}

theorem QuietFs.ok (h : QuietFs s s') (hs : FsOk s) : FsOk s' := by
  unfold FsOk
  rw [h.quiet.dino]
  exact h.core hs

theorem QuietFs.node (h : QuietFs s s') : s'.node = s.node := by
  unfold Fs.node
  rw [h.quiet.dino, h.quiet.data]

omit [FsLayout] in
theorem nodes_update {node node' : Nat → Node} {n : Node} (h : node' i = n)
    (ho : ∀ j, j ≠ i → node' j = node j) : node' = update node i n := by
  funext j
  by_cases hj : j = i
  · rw [hj, update_self]
    exact h
  · rw [update_of_ne hj]
    exact ho j hj

theorem iupdate_spec (ht : InTx s.st) (hi : (s.cell ip).inum < sb.ninodes) :
    Ensures (iupdate ip) s (Short s.st 0 0) fun _ s' =>
      (s'.cell = s.cell ∧ s'.mem = s.mem ∧ s'.sys = s.sys) ∧ s'.st.used = s.st.used ∧
        s'.st.dino = update s.st.dino (s.cell ip).inum (s.mem ip) ∧
        s'.st.data = s.st.data ∧ Spent s.st s'.st 0 1 := by
  unfold iupdate
  apply ensures_get
  refine (disk_bread ht.log _).ensures.bind ?_
  intro _ s1 ⟨_, hq1⟩
  apply ensures_zoom
  refine (logged_inode (hq1.quiet.spent.inTx ht) hi _).imp ?_ ?_
  · intro e he
    exact he.after hq1.quiet.spent
  intro _ st2 ⟨hu, hd, hdata, hsp⟩
  rw [hq1.quiet.used] at hu
  rw [hq1.quiet.dino] at hd
  rw [hq1.quiet.data] at hdata
  exact ⟨⟨hq1.cell, hq1.mem, hq1.sys⟩, hu, hd, hdata,
    (hq1.quiet.spent.trans hsp).mono (by omega) (by omega)⟩

omit [FsLayout] in
theorem nodeOf_setInode {data : Nat → Bytes} {d : Dinode} :
    nodeOf (update ino i d) data =
      update (nodeOf ino data) i (nodeOf (update ino i d) data i) := by
  apply nodes_update rfl
  intro j hj
  apply nodeOf_congr (update_of_ne hj _ _)
  intro _ x _
  unfold byteAt
  rw [own_of_ne hj]

/-- Inode `i` is written to the disk as `d`, and no block of a file has changed. -/
theorem FsCore.setInode {d : Dinode} (h : FsCore s ino) (hi : i < sb.ninodes)
    (hlog : LogOk s'.st) (hd : s'.st.dino = update ino i d) (hdata : s'.st.data = s.st.data)
    (hres : MetaUsed s'.st.used)
    (howns : Owns (own (update ino i d) s.st.data) s'.st.used DataBlock)
    (hcells : CellsOk s'.cell s'.mem (update ino i d))
    (hfill : d.type ≠ 0 → Filled (update ino i d) s.st.data i) : FsOk s' := by
  unfold FsOk
  rw [hd]
  refine ⟨⟨hlog, ⟨hres, ?_, ?_⟩, hcells⟩, ?_⟩
  · rw [hdata]
    exact howns
  · intro j hj
    rw [update_of_ne (by omega)]
    exact h.blocks.none j hj
  · intro j hj
    rw [hdata]
    by_cases hji : j = i
    · subst hji
      rw [update_self] at hj
      exact hfill hj
    · rw [update_of_ne hji] at hj
      apply (h.filled j hj).mono
      · rw [update_of_ne hji]
      · intro bn hne
        rw [own_of_ne hji]
        exact hne

omit [FsLayout] in
theorem filled_empty {data : Nat → Bytes} {d : Dinode} (h : d.size = 0) :
    Filled (update ino i d) data i := by
  refine ⟨?_, ?_⟩
  · rw [update_self, h]
    exact Nat.zero_le _
  · intro bn hbn
    rw [update_self, h] at hbn
    exact absurd hbn (Nat.not_lt_zero _)

omit [FsLayout] in
theorem content_empty {data : Nat → Bytes} (h : (ino i).size = 0) : content ino data i = [] := by
  apply List.eq_nil_of_length_eq_zero
  rw [length_content, h]
  rfl

/-- `iupdate` of an inode whose type and addresses are as they were. -/
theorem iupdate_fields {d : Dinode} (h : FsCore s ino) (ha : At s ip i)
    (ht : 1 ≤ s.st.outstanding) (ho : ∀ j, j ≠ i → ino j = s.st.dino j)
    (hty : d.type = (ino i).type) (haddrs : d.addrs = (ino i).addrs)
    (hfill : Filled (update ino i d) s.st.data i) :
    Ensures (do setMem ip d; iupdate ip) s (Short s.st 0 0) fun _ s' =>
      FsOk s' ∧ s'.cell = s.cell ∧ s'.sys = s.sys ∧ s'.st.dino = update ino i d ∧
        s'.st.data = s.st.data ∧ Spent s.st s'.st 0 1 := by
  obtain ⟨hmem, htype, hlt⟩ := h.mem_at ha
  refine (setMem_runs s ip d).ensures.bind ?_
  intro _ s1 hs1
  subst hs1
  have hinum : (s.cell ip).inum = i := ha.inum
  have hup : Ensures (iupdate ip) { s with mem := update s.mem ip d } _ _ :=
    iupdate_spec ⟨h.log, ht⟩ (by rw [hinum]; exact hlt)
  dsimp only at hup
  refine hup.imp (fun e he => he) ?_
  intro _ s2 ⟨⟨hcell, hmem2, hsys⟩, hu, hd, hdata, hsp⟩
  have hdino : s2.st.dino = update ino i d := by
    rw [hd, hinum]
    funext j
    by_cases hj : j = i
    · rw [hj, update_self, update_self, update_self]
    · rw [update_of_ne hj, update_of_ne hj, ho j hj]
  refine ⟨h.setInode hlt hsp.log hdino hdata ?_ ?_ ?_ (fun _ => hfill), hcell, hsys, hdino, hdata, hsp⟩
  · rw [hu]
    exact h.blocks.reserved
  · rw [own_withFields hty haddrs, hu]
    exact h.blocks.owns
  · rw [hcell, hmem2]
    exact h.cells.updated ha.ref hinum (by rw [hty]; exact htype)

end Update

section Writei
variable {s s' : Fs} {ino' : Nat → Dinode} {ip : ISlot} {i : Nat}

theorem content_written {ino : Nat → Dinode} {off size : Nat} {bytes : List UInt8}
    (h : FileWritten s s' ino ino' i off bytes)
    (hfill : Filled ino s.st.data i) (hoff : off ≤ (ino i).size.toNat)
    (hsize : size ≤ max (ino i).size.toNat (off + bytes.length)) :
    window ino' s'.st.data i 0 size = (splice (content ino s.st.data i) off bytes).take size := by
  have hlen : (splice (content ino s.st.data i) off bytes).length = _ :=
    length_splice (by rw [length_content]; exact hoff)
  rw [length_content] at hlen
  apply List.ext_getElem
  · rw [length_window, List.length_take, hlen]
    omega
  · intro x h1 h2
    rw [length_window] at h1
    rw [getElem_window, List.getElem_take, Nat.zero_add, ← List.getD_eq_getElem _ 0,
      getD_splice (by rw [length_content]; exact hoff)]
    by_cases hx : off ≤ x ∧ x < off + bytes.length
    · rw [if_pos hx]
      exact (h.new x hx.1 hx.2).2
    · rw [if_neg hx]
      have hxs : x < (ino i).size.toNat := by omega
      have hall : Covered ino s.st.data i 0 (ino i).size.toNat := hfill.covered (by omega)
      have hcov := hall x (by omega) (by omega)
      rw [h.kept i x hcov (fun hc => hx hc.2), List.getD_eq_getElem _ _ (by
        rw [length_content]; exact hxs)]
      unfold content
      rw [getElem_window, Nat.zero_add]

omit [FsLayout] in
theorem write_out {data : List UInt8} {src : Source} {off n : Nat}
    (h : data.length < off ∨ (off+n) % 2^32 < off ∨ MAXFILE*BSIZE < off+n) :
    src.write data off n = (minusOne, data) := by
  unfold Source.write
  split_ifs with h1 h2
  · rfl
  · rfl
  · omega

omit [FsLayout] in
theorem write_in {data : List UInt8} {src : Source} {off n : Nat}
    (h : ¬ (data.length < off ∨ (off+n) % 2^32 < off ∨ MAXFILE*BSIZE < off+n)) :
    src.write data off n = ((writeChunks src n n 0 off).2.2,
      (splice data off (writeChunks src n n 0 off).1).take
        (max data.length (writeChunks src n n 0 off).2.1)) := by
  unfold Source.write
  rw [if_neg (by omega), if_neg (by omega)]

theorem node_withData_self (i : Nat) :
    s.node = update s.node i ((s.node i).withData (s.node i).data) :=
  (update_eq_self i s.node).symm

/-- The nodes after bytes were written into a file and its inode has got its new size. -/
theorem written_node {off size : Nat} {bytes : List UInt8} {s2 : Fs}
    (hfill : ∀ j, (s.st.dino j).type ≠ 0 → Filled s.st.dino s.st.data j)
    (hty : (s.st.dino i).type ≠ 0) (hw : FileWritten s s' s.st.dino ino' i off bytes)
    (hoff : off ≤ (s.st.dino i).size.toNat)
    (hsize : size ≤ max (s.st.dino i).size.toNat (off + bytes.length)) {d : Dinode}
    (hsizeNat : d.size.toNat = size) (hd : d = { ino' i with size := BitVec.ofNat 32 size })
    (hd2 : s2.st.dino = update ino' i d) (hdata2 : s2.st.data = s'.st.data) :
    s2.node = update s.node i ((s.node i).withData
      ((splice (s.node i).data off bytes).take size)) := by
  have hown : own (update ino' i d) s'.st.data = own ino' s'.st.data :=
    own_withFields (by rw [hd]) (by rw [hd])
  have hbyte (j x : Nat) : byteAt s2.st.dino s2.st.data j x = byteAt ino' s'.st.data j x := by
    unfold byteAt
    rw [hd2, hdata2, hown]
  apply nodes_update
  · have hty2 : (s2.st.dino i).type ≠ 0 := by
      rw [hd2, update_self, hd, hw.same]
      exact hty
    have hcont : content s2.st.dino s2.st.data i =
        (splice (content s.st.dino s.st.data i) off bytes).take size := by
      rw [← content_written hw (hfill i hty) hoff hsize]
      unfold content window
      rw [hd2, update_self, hsizeNat, ← hd2]
      apply List.map_congr_left
      intro x _
      exact hbyte i _
    unfold Fs.node
    rw [nodeOf_alloc hty2, nodeOf_alloc hty, hcont, hd2, update_self, hd, hw.same]
    rfl
  · intro j hj
    apply nodeOf_congr
    · rw [hd2, update_of_ne hj, hw.others j hj]
    · intro htj x hx
      rw [hbyte]
      have hall : Covered s.st.dino s.st.data j 0 (s.st.dino j).size.toNat :=
        (hfill j htj).covered (by omega)
      have hcov := hall x (by omega) (by omega)
      exact hw.kept j x hcov (fun hc => hj hc.1)

theorem writei_end {off size : Nat} {bytes : List UInt8} (h : FsOk s) (ha : At s ip i)
    (hw : FileWritten s s' s.st.dino ino' i off bytes) (hc : FsCore s' ino')
    (ht : 1 ≤ s'.st.outstanding) (hoff : off ≤ (s.st.dino i).size.toNat) {end_ : Nat}
    (hend : end_ ≤ off + bytes.length) (hmax : end_ ≤ MAXFILE*BSIZE)
    (hsize : size = max (s.st.dino i).size.toNat end_) {d : Dinode}
    (hd : d = { ino' i with size := BitVec.ofNat 32 size }) :
    Ensures (do setMem ip d; iupdate ip) s' (Short s'.st 0 0) fun _ s2 =>
      FsOk s2 ∧ s2.cell = s.cell ∧ s2.sys = s.sys ∧
        s2.node = update s.node i ((s.node i).withData
          ((splice (s.node i).data off bytes).take size)) ∧ Spent s'.st s2.st 0 1 := by
  obtain ⟨hmem, hty, hlt⟩ := h.mem_at ha
  have hfill := h.filled i hty
  have ha' := ha.congr hw.cell
  have hty' : (ino' i).type ≠ 0 := (hc.mem_at ha').2.1
  have hdty : d.type = (ino' i).type := by rw [hd]
  have hsizeNat : d.size.toNat = size := by
    have hle := hfill.size
    have hM : MAXFILE*BSIZE < 2^32 := by decide
    rw [hd, BitVec.toNat_ofNat, Nat.mod_eq_of_lt (by omega)]
  have hown : own (update ino' i d) s'.st.data = own ino' s'.st.data :=
    own_withFields hdty (by rw [hd])
  have hfill' : Filled (update ino' i d) s'.st.data i := by
    refine ⟨?_, ?_⟩
    · have hle := hfill.size
      rw [update_self, hsizeNat]
      omega
    · intro bn hbn
      rw [update_self, hsizeNat] at hbn
      rw [hown]
      by_cases hold : bn*BSIZE < (s.st.dino i).size.toNat
      · have hne := hfill.blocks bn hold
        rw [hw.own _ hne]
        exact hne
      · -- The block lies behind the old end, so it was written.
        have hnew := (hw.new (bn*BSIZE) (by omega) (by omega)).1
        have hdiv : bn*BSIZE/BSIZE = bn := Nat.mul_div_cancel bn (by decide)
        rw [hdiv] at hnew
        exact hnew
  refine (iupdate_fields hc ha' ht ?_ hdty (by rw [hd]) hfill').imp (fun e he => he) ?_
  · intro j hj
    rw [hw.others j hj, hw.dino]
  intro _ s2 ⟨hok, hcell, hsys, hd2, hdata2, hsp⟩
  refine ⟨hok, hcell.trans hw.cell, hsys.trans hw.sys, ?_, hsp⟩
  exact written_node h.filled hty hw hoff (by omega) hsizeNat hd hd2 hdata2

/-- The number of blocks that `n` bytes at `off` lie in. -/
def span (off n : Nat) : Nat := if n = 0 then 0 else (off+n-1)/BSIZE - off/BSIZE + 1

omit [FsLayout] in
theorem card_touched (i off n : Nat) : (touched i off n).card ≤ span off n + 1 := by
  unfold touched span
  by_cases hn : n = 0
  · rw [if_pos hn, if_pos hn, Finset.card_empty]
    omega
  · rw [if_neg hn, if_neg hn]
    set lo := off/BSIZE
    set hi := (off+n-1)/BSIZE
    have hsub : (Finset.Icc lo hi).biUnion (places i) ⊆
        insert (i, NDIRECT) ((Finset.Icc lo hi).image fun bn => (i, blockPlace bn)) := by
      intro p hp
      rw [Finset.mem_biUnion] at hp
      obtain ⟨bn, hbn, hp⟩ := hp
      unfold places at hp
      rw [Finset.mem_insert, Finset.mem_image]
      split_ifs at hp with hlt
      · rw [Finset.mem_singleton] at hp
        refine Or.inr ⟨bn, hbn, ?_⟩
        rw [hp]
        unfold blockPlace
        rw [if_pos hlt]
      · rw [Finset.mem_insert, Finset.mem_singleton] at hp
        rcases hp with hp | hp
        · exact Or.inl hp
        · refine Or.inr ⟨bn, hbn, ?_⟩
          rw [hp]
          unfold blockPlace
          rw [if_neg hlt]
    have h1 := Finset.card_le_card hsub
    have h2 := Finset.card_insert_le (i, NDIRECT)
      ((Finset.Icc lo hi).image fun bn => ((i, blockPlace bn) : Place))
    have h3 := Finset.card_image_le (s := Finset.Icc lo hi)
      (f := fun bn => ((i, blockPlace bn) : Place))
    have h4 : (Finset.Icc lo hi).card = hi+1-lo := Nat.card_Icc lo hi
    omega

def Fs.lacks (s : Fs) (i off n : Nat) : Nat := missing (own s.st.dino s.st.data) (touched i off n)

def Fs.logs (s : Fs) (i off n : Nat) : Nat :=
  unlogged (own s.st.dino s.st.data) s.st.lh (touched i off n)

theorem writei_spec {src : Source} {off n : Nat} (h : FsOk s) (ha : At s ip i)
    (ht : 1 ≤ s.st.outstanding) (hsrc : src.Enough n) :
    Ensures (writei ip src off n) s (Short s.st (s.lacks i off n) (s.logs i off n)) fun r s' =>
      FsOk s' ∧ s'.cell = s.cell ∧ s'.sys = s.sys ∧ r = (src.write (s.node i).data off n).1 ∧
        s'.node = update s.node i
          ((s.node i).withData (src.write (s.node i).data off n).2) ∧
        Spent s.st s'.st (s.lacks i off n) (s.logs i off n + 1) := by
  obtain ⟨hmem, hty, hlt⟩ := h.mem_at ha
  have hlen : (s.node i).data.length = (s.st.dino i).size.toNat := by
    unfold Fs.node
    rw [nodeOf_data hty, length_content]
  have hstay : Ensures (pure minusOne) s (Short s.st (s.lacks i off n) (s.logs i off n)) fun r s' =>
      FsOk s' ∧ s'.cell = s.cell ∧ s'.sys = s.sys ∧ r = minusOne ∧
        s'.node = update s.node i ((s.node i).withData (s.node i).data) ∧
        Spent s.st s'.st (s.lacks i off n) (s.logs i off n + 1) :=
    ensures_pure ⟨h, rfl, rfl, rfl, node_withData_self i,
      (Spent.refl h.log).mono (Nat.zero_le _) (Nat.zero_le _)⟩
  unfold writei
  apply ensures_get
  rw [hmem]
  dsimp only
  apply ensures_ite
  · intro hout
    rw [write_out (by rw [hlen]; exact hout.imp id Or.inl)]
    exact hstay
  intro hin
  apply ensures_ite
  · intro hbig
    rw [write_out (by rw [hlen]; exact Or.inr (Or.inr hbig))]
    exact hstay
  intro hfits
  rw [write_in (by rw [hlen]; omega), hlen]
  by_cases hn : n = 0
  · -- Nothing to write, and the inode is not updated either.
    subst hn
    apply ensures_bind
    apply ensures_pure
    rw [if_neg (by omega)]
    apply ensures_pure
    refine ⟨h, rfl, rfl, rfl, ?_, (Spent.refl h.log).mono (Nat.zero_le _) (Nat.zero_le _)⟩
    have hsame : (splice (s.node i).data off []).take (max (s.st.dino i).size.toNat off) =
        (s.node i).data := by
      unfold splice
      rw [List.append_nil, List.length_nil, Nat.add_zero, List.take_append_drop, ← hlen]
      exact List.take_of_length_le (by omega)
    change s.node = update s.node i ((s.node i).withData
      ((splice (s.node i).data off []).take (max (s.st.dino i).size.toNat off)))
    rw [hsame]
    exact node_withData_self i
  obtain ⟨hb1, hb2, hb3, hb4⟩ := writeChunks_bounds hsrc n 0 off (Nat.zero_le n) (Nat.sub_le n 0)
  refine (writeLoop_spec hsrc n 0 off s s.st.dino h.toInodesOk ha ht (Nat.zero_le n)
    (Nat.sub_le n 0) (by omega) (Nat.add_zero off).symm).bind ?_
  intro r s1 ⟨hr, ino1, hi1, hw1, hpd1⟩
  have hc1 := h.grows hi1 hw1.toGrows
  rw [hr]
  dsimp only
  have hpos : 0 < (writeChunks src n n 0 off).2.2 := by
    rcases hb4 with ⟨hb4, _⟩ | hb4
    · omega
    · rw [hb4]
      decide
  have ha1 := ha.congr hw1.cell
  have ht1 : 1 ≤ s1.st.outstanding := by rw [hpd1.outstanding]; exact ht
  have hsize1 : (ino1 i).size = (s.st.dino i).size := by
    rw [hw1.same]
    rfl
  have hmem1 : s1.mem ip = ino1 i := (hc1.mem_at ha1).1
  have hshort (e : String) (he : Short s1.st 0 0 e) :
      Short s.st (s.lacks i off n) (s.logs i off n) e :=
    (he.tooFew (Nat.zero_le _) (Nat.zero_le _)).after hpd1
  have hspent {s2 : Fs} (hsp : Spent s1.st s2.st 0 1) :
      Spent s.st s2.st (s.lacks i off n) (s.logs i off n + 1) := by
    have h1 := hpd1.free
    have h2 := hpd1.room
    have h3 := hsp.free
    have h4 := hsp.room
    refine ⟨hsp.log, hsp.outstanding.trans hpd1.outstanding, ?_, ?_, ?_⟩
    · unfold Fs.lacks
      omega
    · unfold Fs.logs
      omega
    · intro b hb
      exact hsp.lh b (hpd1.lh b hb)
  have hend := fun (d : Dinode) (hd : d = { ino1 i with
      size := BitVec.ofNat 32 (max (s.st.dino i).size.toNat (writeChunks src n n 0 off).2.1) }) =>
    writei_end h ha hw1 hc1 ht1 (by omega) hb2 (by omega) rfl hd
  rw [if_pos hpos]
  apply ensures_get
  rw [hmem1, hsize1]
  by_cases hgrow : (s.st.dino i).size.toNat < (writeChunks src n n 0 off).2.1
  · rw [if_pos hgrow, ← bind_assoc]
    apply ensures_bind
    refine (hend _ ?_).imp hshort ?_
    · rw [Nat.max_eq_right hgrow.le]
    intro _ s2 ⟨hok, hcell, hsys, hnode, hsp⟩
    apply ensures_pure
    exact ⟨hok, hcell, hsys, rfl, hnode, hspent hsp⟩
  · rw [if_neg hgrow]
    -- The size stays, so the inode goes to the disk as it is.
    have hself : setMem ip (ino1 i) s1 = .ok ((), s1) := by
      change Except.ok ((), { s1 with mem := update s1.mem ip (ino1 i) }) = _
      rw [← hmem1, update_eq_self]
    have heq : (do setMem ip (ino1 i); iupdate ip) s1 = iupdate ip s1 := by
      change (setMem ip (ino1 i) s1 >>= fun p => iupdate ip p.2) = _
      rw [hself]
      rfl
    have hd1 : ino1 i = { ino1 i with
        size := BitVec.ofNat 32 (max (s.st.dino i).size.toNat (writeChunks src n n 0 off).2.1) } := by
      apply Dinode.ext <;> try rfl
      rw [Nat.max_eq_left (by omega), hsize1, BitVec.ofNat_toNat, BitVec.setWidth_eq]
    have hrun := hend _ hd1
    unfold Ensures Ends PanicsOnly at hrun
    rw [heq] at hrun
    apply ensures_bind
    refine Ensures.imp hrun hshort ?_
    intro _ s2 ⟨hok, hcell, hsys, hnode, hsp⟩
    apply ensures_pure
    exact ⟨hok, hcell, hsys, rfl, hnode, hspent hsp⟩

end Writei

end Xv6
