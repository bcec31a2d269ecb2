import Xv6.MkfsAppend
import Xv6.FsArrays
import Mathlib.Algebra.BigOperators.Group.Finset.Basic

/-! A run of `mkfs`. After each step the image holds a table of nodes: the root directory
with an entry for each file so far, and the files with what has been read of them. -/
namespace Xv6.Mkfs

open Function

variable [Layout]

def total (t : Nat → Node) : Nat :=
  ∑ i ∈ Finset.range FsLayout.sb.ninodes, blocksOf (t i).data.length

/-- A table that no image of `FSSIZE` blocks can hold. -/
def Over (t : Nat → Node) : Prop :=
  (∃ i, MAXFILE*BSIZE < (t i).data.length) ∨ FSSIZE < nmeta + total t

/-- The image holds the nodes `t` between two calls, and nothing else. -/
structure Holds (m : Image) (t : Nat → Node) : Prop where
  laid : Laid m m.fs.st.dino
  node : m.fs.node = t
  sized : ∀ i, (t i).type ≠ 0 → Sized (own m.fs.st.dino m.fs.st.data) i (t i).data.length
  max : ∀ i, (t i).data.length ≤ MAXFILE*BSIZE
  mark : m.freeblock = nmeta + total t
  inodes : m.freeinode ≤ FsLayout.sb.ninodes
  free : ∀ i, i = 0 ∨ m.freeinode ≤ i → t i = Node.free
  head : ∀ b, b < nmeta → ¬ (sb.inodestart ≤ b ∧ b < sb.bmapstart) →
    m.block b = if b = 1 then superblock else zeroes

section Totals
variable {t : Nat → Node} {i : Nat}

theorem total_update (hi : i < FsLayout.sb.ninodes) (n : Node) :
    total (update t i n) + blocksOf (t i).data.length =
      total t + blocksOf n.data.length := by
  have hmem := Finset.mem_range.mpr hi
  unfold total
  rw [← Finset.add_sum_erase _ _ hmem, ← Finset.add_sum_erase _ (fun j => blocksOf (t j).data.length) hmem,
    update_self]
  have hrest : ∑ j ∈ (Finset.range FsLayout.sb.ninodes).erase i,
      blocksOf (update t i n j).data.length =
        ∑ j ∈ (Finset.range FsLayout.sb.ninodes).erase i, blocksOf (t j).data.length := by
    apply Finset.sum_congr rfl
    intro j hj
    rw [update_of_ne (Finset.ne_of_mem_erase hj)]
  rw [hrest]
  omega

omit [Layout] in
theorem blocksOf_zero : blocksOf 0 = 0 := by decide

theorem Over.mono {t' : Nat → Node} (h : Over t)
    (hle : ∀ i, (t i).data.length ≤ (t' i).data.length) : Over t' := by
  rcases h with ⟨i, hi⟩ | h
  · exact Or.inl ⟨i, hi.trans_le (hle i)⟩
  · right
    have : total t ≤ total t' := Finset.sum_le_sum fun i _ => blocksOf_mono (hle i)
    omega

end Totals

section Inodes
variable {m : Image} {t : Nat → Node} {i : Nat}

theorem IBLOCK_size (hi : i < FsLayout.sb.ninodes) : IBLOCK i < FSSIZE := by
  have h1 := (IBLOCK_lt hi).2
  have h2 := areas_lt
  omega

theorem rinode_ok (hi : i < FsLayout.sb.ninodes) (hlen : m.len = FSSIZE) :
    rinode i m = .ok (m.fs.st.dino i, m) := by
  unfold rinode
  change (rsect (IBLOCK i) m >>= fun r => pure (dinodeAt r.1 i, r.2)) = _
  rw [rsect_ok (IBLOCK_size hi) hlen, dino_eq m hi]
  rfl

def Image.putInode (m : Image) (i : Nat) (d : Dinode) : Image :=
  m.write (IBLOCK i) (putDinode (m.block (IBLOCK i)) i d)

theorem winode_ok (hi : i < FsLayout.sb.ninodes) (hlen : m.len = FSSIZE) (d : Dinode) :
    winode i d m = .ok ((), m.putInode i d) := by
  unfold winode
  change (rsect (IBLOCK i) m >>= fun r => wsect (IBLOCK i) (putDinode r.1 i d) r.2) = _
  rw [rsect_ok (IBLOCK_size hi) hlen]
  exact wsect_ok (IBLOCK_size hi)

theorem putInode_block (hi : i < FsLayout.sb.ninodes) (d : Dinode) {b : Nat}
    (hb : ¬ (sb.inodestart ≤ b ∧ b < sb.bmapstart)) : (m.putInode i d).block b = m.block b := by
  have h := IBLOCK_lt hi
  exact update_of_ne (by omega) _ _

theorem Laid.putInode {ino : Nat → Dinode} (h : Laid m ino) (hi : i < FsLayout.sb.ninodes) (d : Dinode)
    {ino' : Nat → Dinode} (hown : own ino' m.fs.st.data = own ino m.fs.st.data) :
    Laid (m.putInode i d) ino' := by
  have hlow := h.low
  have hlt := areas_lt
  have hdata := (write_inode m hi d).2
  refine ⟨write_len (IBLOCK_size hi) h.len, h.low, h.high, ?_, ?_⟩
  · intro b hb
    have hb : m.freeblock ≤ b := hb
    rw [putInode_block hi d (by omega)]
    exact h.fresh b hb
  · unfold Image.putInode
    rw [hdata, hown]
    exact h.owns

theorem Holds.size (h : Holds m t) (hty : (t i).type ≠ 0) :
    (m.fs.st.dino i).type ≠ 0 ∧ (m.fs.st.dino i).size.toNat = (t i).data.length := by
  have hdino : (m.fs.st.dino i).type ≠ 0 := by
    rw [← h.node] at hty
    unfold Fs.node at hty
    rwa [nodeOf_type] at hty
  refine ⟨hdino, ?_⟩
  rw [← h.node]
  unfold Fs.node
  rw [nodeOf_data hdino, length_content]

theorem Holds.type (h : Holds m t) : (t i).type = (m.fs.st.dino i).type := by
  rw [← h.node]
  exact nodeOf_type

theorem Holds.filled (h : Holds m t) (hty : (m.fs.st.dino i).type ≠ 0) :
    Filled m.fs.st.dino m.fs.st.data i := by
  rw [← h.type] at hty
  obtain ⟨_, hsize⟩ := h.size hty
  have hmax := h.max i
  refine ⟨by omega, fun bn hbn => ?_⟩
  apply ((h.sized i hty).block bn ?_).mpr
  · omega
  · unfold BSIZE at *
    omega

def extend (t : Nat → Node) (i : Nat) (p : List UInt8) : Nat → Node :=
  update t i ((t i).withData ((t i).data ++ p))

theorem iappend_spec (h : Holds m t) (hi : i < FsLayout.sb.ninodes) (hty : (t i).type ≠ 0)
    (p : List UInt8) :
    Ensures (iappend i p) m (fun _ => Over (extend t i p)) fun _ m' =>
      Holds m' (extend t i p) ∧ m'.freeinode = m.freeinode := by
  obtain ⟨hdty, hsize⟩ := h.size hty
  have hself : (extend t i p i).data = (t i).data ++ p := by
    unfold extend
    rw [update_self]
    rfl
  have htotal : total (extend t i p) + blocksOf (t i).data.length =
      total t + blocksOf ((t i).data.length + p.length) := by
    have h := total_update (t := t) hi ((t i).withData ((t i).data ++ p))
    rw [show ((t i).withData ((t i).data ++ p)).data.length = (t i).data.length + p.length from
      List.length_append] at h
    exact h
  have hmark := h.mark
  unfold iappend
  apply ensures_bind
  apply Runs.ensures
  refine ⟨_, _, rinode_ok hi h.laid.len, ?_⟩
  apply ensures_bind
  rw [hsize]
  apply (iappendLoop_spec p.length m m.fs.st.dino (t i).data.length p le_rfl (h.max i) h.laid hdty
    (h.sized i hty)).imp
  · intro _ hbig
    rcases hbig with hbig | hbig
    · left
      refine ⟨i, ?_⟩
      rw [hself, List.length_append]
      exact hbig
    · right
      omega
  intro r m1 hr
  obtain ⟨hoff, ino1, hd1, hloop⟩ := hr
  obtain ⟨d1, off1⟩ := r
  dsimp only at hoff hd1 ⊢
  subst hoff
  apply Runs.ensures
  refine ⟨_, _, winode_ok hi hloop.laid.len _, ?_⟩
  set d : Dinode := { d1 with size := BitVec.ofNat 32 ((t i).data.length + p.length) } with hd
  have hdsize : d.size.toNat = (t i).data.length + p.length := by
    have hM : MAXFILE*BSIZE < 2^32 := by decide
    have hmax := hloop.max
    rw [hd, BitVec.toNat_ofNat, Nat.mod_eq_of_lt (by omega)]
  obtain ⟨hdino, hdata⟩ := write_inode m1 hi d
  change (m1.putInode i d).fs.st.dino = _ at hdino
  change (m1.putInode i d).fs.st.data = _ at hdata
  -- On the disk all other inodes are as they were before the loop.
  have hdino1 : (m1.putInode i d).fs.st.dino = update ino1 i d := by
    rw [hdino, hloop.written.dino]
    funext j
    by_cases hj : j = i
    · rw [hj, update_self, update_self]
    · rw [update_of_ne hj, update_of_ne hj, hloop.written.others j hj]
  have hown : own (m1.putInode i d).fs.st.dino m1.fs.st.data = own ino1 m1.fs.st.data := by
    rw [hdino1]
    exact own_withFields (by rw [hd, hd1]) (by rw [hd, hd1])
  have hnode : (m1.putInode i d).fs.node = extend t i p := by
    have hw := written_node (fun j hj => h.filled hj) hdty hloop.written (le_of_eq hsize.symm)
      (by omega) hdsize (by rw [hd, hd1]) hdino1 hdata
    rw [hw, h.node]
    unfold extend splice
    rw [List.take_length, List.drop_of_length_le (by omega), List.append_nil, List.take_of_length_le
      (by rw [List.length_append])]
  have hlater (j : Nat) (hj : j ≠ i) : extend t i p j = t j := update_of_ne hj _ _
  refine ⟨⟨hloop.laid.putInode hi d hown, hnode, ?_, ?_, ?_, ?_, ?_, ?_⟩, hloop.freeinode⟩
  · intro j hj
    rw [hdata, hown]
    by_cases hji : j = i
    · rw [hji, hself, List.length_append]
      exact hloop.sized
    · rw [hlater j hji] at hj ⊢
      -- The blocks of another inode are those it had.
      have hsame (k : Nat) : own ino1 m1.fs.st.data (j, k) = own m.fs.st.dino m.fs.st.data (j, k) :=
        hloop.rest (j, k) hji
      refine ⟨fun bn hbn => ?_, ?_⟩
      · rw [hsame]
        exact (h.sized j hj).block bn hbn
      · rw [hsame]
        exact (h.sized j hj).indirect
  · intro j
    by_cases hji : j = i
    · rw [hji, hself, List.length_append]
      exact hloop.max
    · rw [hlater j hji]
      exact h.max j
  · have := hloop.mark
    change m1.freeblock = _
    omega
  · change m1.freeinode ≤ _
    rw [hloop.freeinode]
    exact h.inodes
  · intro j hj
    change j = 0 ∨ m1.freeinode ≤ j at hj
    rw [hloop.freeinode] at hj
    have hji : j ≠ i := by
      intro heq
      rw [heq] at hj
      rw [h.free i hj] at hty
      exact hty rfl
    rw [hlater j hji]
    exact h.free j hj
  · intro b hb hout
    rw [putInode_block hi d hout, hloop.head b hb]
    exact h.head b hb hout

def Node.fresh (type : BitVec 16) : Node := ⟨type, 0, 0, 1, []⟩

theorem ialloc_spec (h : Holds m t) (hpos : 0 < m.freeinode) (hlt : m.freeinode < FsLayout.sb.ninodes)
    {type : BitVec 16} (hty : type ≠ 0) :
    Runs (ialloc type) m fun r m' => r = m.freeinode ∧ m'.freeinode = m.freeinode+1 ∧
      Holds m' (update t m.freeinode (Node.fresh type)) := by
  set n := m.freeinode with hn
  have hmod : (n+1) % 2^32 = n+1 := by
    have := FsLayout.ninodes_le
    exact Nat.mod_eq_of_lt (by omega)
  have hold : t n = Node.free := h.free n (Or.inr le_rfl)
  have hdold : (m.fs.st.dino n).type = 0 := by
    rw [← h.type, hold]
    rfl
  set d : Dinode := { Dinode.new type with nlink := 1 } with hd
  set m1 : Image := { m with freeinode := n+1 } with hm1
  unfold ialloc
  rw [runs_bind, runs_get, runs_bind, runs_set, ← hn, hmod, runs_bind]
  refine ⟨_, _, winode_ok (m := m1) hlt h.laid.len d, ?_⟩
  dsimp only
  rw [runs_pure]
  obtain ⟨hdino, hdata⟩ := write_inode m1 hlt d
  change (m1.putInode n d).fs.st.dino = update m.fs.st.dino n d at hdino
  change (m1.putInode n d).fs.st.data = m.fs.st.data at hdata
  have hnew (k : Nat) : own (m1.putInode n d).fs.st.dino m.fs.st.data (n, k) = 0 := by
    apply own_empty
    intro k
    rw [hdino, update_self]
    rfl
  have hown : own (m1.putInode n d).fs.st.dino m.fs.st.data = own m.fs.st.dino m.fs.st.data := by
    rw [hdino]
    exact own_blank (own_free hdold) (Or.inr fun _ => rfl)
  have hnode : (m1.putInode n d).fs.node = update t n (Node.fresh type) := by
    unfold Fs.node
    rw [hdino, hdata, nodeOf_setInode, nodeOf_alloc (by rw [update_self]; exact hty),
      content_empty (by rw [update_self]; rfl), update_self, ← h.node]
    rfl
  have hlater (j : Nat) (hj : j ≠ n) : update t n (Node.fresh type) j = t j :=
    update_of_ne hj _ _
  have hlaid : Laid m1 m.fs.st.dino := ⟨h.laid.len, h.laid.low, h.laid.high, h.laid.fresh, h.laid.owns⟩
  refine ⟨rfl, rfl, hlaid.putInode hlt d hown, hnode, ?_, ?_, ?_, hlt, ?_, ?_⟩
  · intro j hj
    rw [hdata]
    by_cases hjn : j = n
    · rw [hjn, update_self]
      exact ⟨fun bn _ => iff_of_false (not_not.mpr (hnew _)) (by change ¬ _ < 0; omega),
        iff_of_false (not_not.mpr (hnew _)) (by change ¬ _ < 0; omega)⟩
    · rw [hlater j hjn] at hj ⊢
      rw [hown]
      exact h.sized j hj
  · intro j
    by_cases hjn : j = n
    · rw [hjn, update_self]
      exact Nat.zero_le _
    · rw [hlater j hjn]
      exact h.max j
  · have htotal := total_update (t := t) hlt (Node.fresh type)
    rw [hold] at htotal
    have hz : total (update t n (Node.fresh type)) = total t := Nat.add_right_cancel htotal
    rw [hz]
    exact h.mark
  · intro j hj
    change j = 0 ∨ n+1 ≤ j at hj
    rw [hlater j (by omega)]
    exact h.free j (by omega)
  · intro b hb hout
    rw [putInode_block hlt d hout]
    exact h.head b hb hout

end Inodes

def Input.data (f : Input) : List UInt8 := (f.pieces.getD []).flatten

/-- An input on which `mkfs` stops at once. -/
def Input.Refused (f : Input) : Prop := 47 ∈ f.shortname ∨ f.pieces = none

def Input.node (f : Input) : Node := ⟨T_FILE, 0, 0, 1, f.data⟩

def added (t : Nat → Node) (n : Nat) (f : Input) : Nat → Node :=
  update (extend t ROOTINO (dirent n f.name)) n f.node

def table (t : Nat → Node) (n : Nat) : List Input → Nat → Node
  | [] => t
  | f :: fs => table (added t n f) (n+1) fs

section Files
variable {m : Image} {t : Nat → Node} {i n : Nat}

section
omit [Layout]

theorem extend_nil : extend t i [] = t := by
  unfold extend
  rw [List.append_nil]
  exact update_eq_self _ _

theorem extend_extend (p q : List UInt8) : extend (extend t i p) i q = extend t i (p ++ q) := by
  unfold extend
  rw [update_self, update_idem]
  congr 1
  unfold Node.withData
  rw [List.append_assoc]

theorem length_extend (p : List UInt8) (j : Nat) :
    (t j).data.length ≤ (extend t i p j).data.length := by
  unfold extend
  by_cases hj : j = i
  · rw [hj, update_self]
    unfold Node.withData
    rw [List.length_append]
    exact Nat.le_add_right _ _
  · rw [update_of_ne hj]

end

theorem appendPieces_spec (h : Holds m t) (hi : i < FsLayout.sb.ninodes) (hty : (t i).type ≠ 0)
    (ps : List (List UInt8)) :
    Ensures (appendPieces i ps) m (fun _ => Over (extend t i ps.flatten)) fun _ m' =>
      Holds m' (extend t i ps.flatten) ∧ m'.freeinode = m.freeinode := by
  induction ps generalizing m t with
  | nil =>
    rw [List.flatten_nil, extend_nil]
    exact ensures_pure ⟨h, rfl⟩
  | cons p ps ih =>
    rw [List.flatten_cons, ← extend_extend]
    unfold appendPieces
    apply ensures_bind
    apply (iappend_spec h hi hty p).imp
    · intro _ hover
      exact hover.mono (length_extend _)
    intro _ m1 h1
    have hty1 : (extend t i p i).type ≠ 0 := by
      unfold extend
      rw [update_self]
      exact hty
    apply (ih h1.1 hty1).imp (fun _ he => he)
    intro _ m2 h2
    exact ⟨h2.1, h2.2.trans h1.2⟩

omit [Layout] in
theorem added_eq (hn : n ≠ ROOTINO) (f : Input) :
    extend (extend (update t n (Node.fresh T_FILE)) ROOTINO (dirent n f.name)) n f.data =
      added t n f := by
  funext j
  unfold added extend
  by_cases hj : j = n
  · rw [hj, update_self, update_self, update_of_ne hn, update_self]
    rfl
  · rw [update_of_ne hj, update_of_ne hj]
    by_cases hr : j = ROOTINO
    · rw [hr, update_self, update_self, update_of_ne (Ne.symm hn)]
    · rw [update_of_ne hr, update_of_ne hr, update_of_ne hj]

theorem addFile_spec (h : Holds m t) (hroot : (t ROOTINO).type ≠ 0)
    (hlt : m.freeinode < FsLayout.sb.ninodes) (f : Input) :
    Ensures (addFile ROOTINO f) m (fun _ => f.Refused ∨ Over (added t m.freeinode f)) fun _ m' =>
      Holds m' (added t m.freeinode f) ∧ m'.freeinode = m.freeinode+1 := by
  have hrootlt := FsLayout.root_lt
  have hn : ROOTINO < m.freeinode := by
    by_contra hge
    rw [h.free ROOTINO (Or.inr (by omega))] at hroot
    exact hroot rfl
  rw [← added_eq (by omega)]
  unfold addFile
  apply ensures_panicIf
  · exact fun hslash => Or.inl (Or.inl hslash)
  intro _
  unfold Input.data
  cases hps : f.pieces with
  | none => exact ensures_throw (Or.inl (Or.inr hps))
  | some ps =>
    dsimp only
    rw [Option.getD_some]
    apply ensures_bind
    apply ((ialloc_spec h (by omega) hlt (by decide)).imp ?_).ensures
    intro r m1 h1
    obtain ⟨rfl, hfree1, h1⟩ := h1
    have hnew : (extend (update t m.freeinode (Node.fresh T_FILE)) ROOTINO
        (dirent m.freeinode f.name) m.freeinode).type ≠ 0 := by
      unfold extend
      rw [update_of_ne (by omega), update_self]
      decide
    apply ensures_bind
    apply (iappend_spec h1 hrootlt ?_ (dirent m.freeinode f.name)).imp
    · intro _ hover
      exact Or.inr (hover.mono (length_extend _))
    · intro _ m2 h2
      apply (appendPieces_spec h2.1 hlt hnew ps).imp
      · exact fun _ hover => Or.inr hover
      · intro _ m3 h3
        exact ⟨h3.1, h3.2.trans (h2.2.trans hfree1)⟩
    · rw [update_of_ne (by omega)]
      exact hroot

omit [Layout] in
theorem added_free (hfree : ∀ j, n ≤ j → t j = Node.free) (hn : ROOTINO < n) (f : Input) :
    (∀ j, n+1 ≤ j → added t n f j = Node.free) ∧
      ∀ j, (t j).data.length ≤ (added t n f j).data.length := by
  constructor
  · intro j hj
    unfold added extend
    rw [update_of_ne (by omega), update_of_ne (by omega)]
    exact hfree j (by omega)
  · intro j
    unfold added
    by_cases hj : j = n
    · rw [hj, hfree n le_rfl]
      exact Nat.zero_le _
    · rw [update_of_ne hj]
      exact length_extend _ j

omit [Layout] in
theorem length_table (fs : List Input) (hfree : ∀ j, n ≤ j → t j = Node.free) (hn : ROOTINO < n)
    (j : Nat) : (t j).data.length ≤ (table t n fs j).data.length := by
  induction fs generalizing t n with
  | nil => exact le_rfl
  | cons f fs ih =>
    obtain ⟨hfree', hle⟩ := added_free hfree hn f
    exact (hle j).trans (ih hfree' (by omega))

theorem addFiles_spec (h : Holds m t) (hroot : (t ROOTINO).type ≠ 0) (fs : List Input)
    (hlt : m.freeinode + fs.length ≤ FsLayout.sb.ninodes) :
    Ensures (addFiles ROOTINO fs) m
      (fun _ => (∃ f ∈ fs, f.Refused) ∨ Over (table t m.freeinode fs)) fun _ m' =>
      Holds m' (table t m.freeinode fs) ∧ m'.freeinode = m.freeinode + fs.length := by
  induction fs generalizing m t with
  | nil => exact ensures_pure ⟨h, rfl⟩
  | cons f fs ih =>
    rw [List.length_cons] at hlt
    have hn : ROOTINO < m.freeinode := by
      by_contra hge
      rw [h.free ROOTINO (Or.inr (by omega))] at hroot
      exact hroot rfl
    obtain ⟨hfree, _⟩ := added_free (fun j hj => h.free j (Or.inr hj)) hn f
    have hroot' : (added t m.freeinode f ROOTINO).type ≠ 0 := by
      unfold added extend
      rw [update_of_ne (by omega), update_self]
      exact hroot
    unfold addFiles table
    apply ensures_bind
    apply (addFile_spec h hroot (by omega) f).imp
    · intro _ he
      rcases he with he | he
      · exact Or.inl ⟨f, List.mem_cons_self, he⟩
      · exact Or.inr (he.mono (length_table fs hfree (by omega)))
    intro _ m1 h1
    obtain ⟨h1, hfree1⟩ := h1
    have hrec := ih h1 hroot' (by omega)
    rw [hfree1] at hrec
    apply hrec.imp
    · intro _ he
      exact he.imp_left fun ⟨g, hg, hr⟩ => ⟨g, List.mem_cons_of_mem _ hg, hr⟩
    · intro _ m2 h2
      refine ⟨h2.1, ?_⟩
      rw [h2.2, List.length_cons]
      omega

end Files

end Xv6.Mkfs
