import Xv6.FsInodes
import Mathlib.Data.List.GetD

/-! The content of an inode as a list of bytes. `readi` reads a window of it and
`writei` splices new bytes into it; no other inode is touched. -/
namespace Xv6

open Function

def byteAt (ino : Nat → Dinode) (data : Nat → Bytes) (i x : Nat) : UInt8 :=
  data (own ino data (i, blockPlace (x/BSIZE))) (x % BSIZE)

def window (ino : Nat → Dinode) (data : Nat → Bytes) (i off n : Nat) : List UInt8 :=
  (List.range n).map fun j => byteAt ino data i (off+j)

def content (ino : Nat → Dinode) (data : Nat → Bytes) (i : Nat) : List UInt8 :=
  window ino data i 0 (ino i).size.toNat

/-- `bytes` put over the array at `off`, which may make it longer. -/
def splice (old : List UInt8) (off : Nat) (bytes : List UInt8) : List UInt8 :=
  old.take off ++ bytes ++ old.drop (off + bytes.length)

theorem block_rest_ne (off : Nat) : BSIZE - off%BSIZE ≠ 0 := by
  have hb : BSIZE = 1024 := rfl
  rw [hb]
  omega

section Lists
variable {ino : Nat → Dinode} {data : Nat → Bytes} {i off m n : Nat}

@[simp] theorem length_window : (window ino data i off n).length = n := by
  unfold window
  rw [List.length_map, List.length_range]

@[simp] theorem length_content : (content ino data i).length = (ino i).size.toNat := length_window

theorem getElem_window {j : Nat} (hj : j < (window ino data i off n).length) :
    (window ino data i off n)[j] = byteAt ino data i (off+j) := by
  simp only [window, List.getElem_map, List.getElem_range]

theorem window_append :
    window ino data i off (m+n) = window ino data i off m ++ window ino data i (off+m) n := by
  apply List.ext_getElem
  · rw [List.length_append, length_window, length_window, length_window]
  · intro j h1 h2
    rw [getElem_window, List.getElem_append]
    split_ifs with hj
    · rw [getElem_window]
    · rw [getElem_window]
      rw [length_window] at hj ⊢
      congr 1
      omega

theorem take_drop_content (h : off+n ≤ (ino i).size.toNat) :
    ((content ino data i).drop off).take n = window ino data i off n := by
  apply List.ext_getElem
  · rw [List.length_take, List.length_drop, length_content, length_window]
    omega
  · intro j h1 h2
    rw [List.getElem_take, List.getElem_drop, getElem_window]
    unfold content
    rw [getElem_window, Nat.zero_add]

theorem length_splice {old bytes : List UInt8} (h : off ≤ old.length) :
    (splice old off bytes).length = max old.length (off + bytes.length) := by
  unfold splice
  rw [List.length_append, List.length_append, List.length_take, List.length_drop]
  omega

theorem getD_splice {old bytes : List UInt8} (h : off ≤ old.length) (x : Nat) :
    (splice old off bytes).getD x 0 =
      if off ≤ x ∧ x < off + bytes.length then bytes.getD (x-off) 0 else old.getD x 0 := by
  have hlen : (old.take off).length = off := by
    rw [List.length_take]
    omega
  unfold splice
  by_cases h1 : x < off
  · rw [if_neg (by omega), List.append_assoc, List.getD_append _ _ _ _ (by omega)]
    rw [List.getD_eq_getElem _ _ (by omega), List.getElem_take, List.getD_eq_getElem]
  · by_cases h2 : x < off + bytes.length
    · rw [if_pos ⟨by omega, h2⟩, List.append_assoc, List.getD_append_right _ _ _ _ (by omega),
        List.getD_append _ _ _ _ (by omega), hlen]
    · have hle : (old.take off ++ bytes).length = off + bytes.length := by
        rw [List.length_append, hlen]
      rw [if_neg (by omega), List.getD_append_right _ _ _ _ (by omega), hle,
        List.getD_eq_getElem?_getD, List.getD_eq_getElem?_getD, List.getElem?_drop]
      congr 2
      omega

theorem splice_nil (old : List UInt8) : splice old off [] = old := by
  unfold splice
  rw [List.append_nil, List.length_nil, Nat.add_zero, List.take_append_drop]

theorem splice_splice {old as bs : List UInt8} (h : off ≤ old.length) :
    splice (splice old off as) (off + as.length) bs = splice old off (as ++ bs) := by
  have hlen : (old.take off ++ as).length = off + as.length := by
    rw [List.length_append, List.length_take, Nat.min_eq_left h]
  unfold splice
  rw [List.take_left' hlen, List.length_append, ← List.drop_drop, List.drop_left' hlen,
    List.drop_drop, ← Nat.add_assoc, List.append_assoc (old.take off) as bs]

theorem take_splice {old bs : List UInt8} (h : off ≤ old.length) :
    (splice old off bs).take off = old.take off := by
  have hlen : (old.take off).length = off := by
    rw [List.length_take, Nat.min_eq_left h]
  unfold splice
  rw [List.append_assoc, List.take_left' hlen]

theorem drop_splice {old bs : List UInt8} (h : off ≤ old.length) :
    ((splice old off bs).drop off).take bs.length = bs := by
  have hlen : (old.take off).length = off := by
    rw [List.length_take, Nat.min_eq_left h]
  unfold splice
  rw [List.append_assoc, List.drop_left' hlen, List.take_left' rfl]

theorem range_in_block {x : Nat} (h1 : off ≤ x) (h2 : x < off+m) (hm : m ≤ BSIZE - off%BSIZE) :
    x/BSIZE = off/BSIZE ∧ x%BSIZE = off%BSIZE + (x-off) := by
  unfold BSIZE at *
  omega

theorem range_outside_block {x : Nat} (hx : x/BSIZE = off/BSIZE)
    (h : ¬ (off ≤ x ∧ x < off+m)) : ¬ (off%BSIZE ≤ x%BSIZE ∧ x%BSIZE < off%BSIZE + m) := by
  unfold BSIZE at *
  omega

theorem block_lt {x : Nat} (h : x < MAXFILE*BSIZE) : x/BSIZE < MAXFILE :=
  Nat.div_lt_of_lt_mul (Nat.mul_comm MAXFILE BSIZE ▸ h)

theorem window_block (hm : m ≤ BSIZE - off%BSIZE) :
    ((List.range m).map fun j => data (own ino data (i, blockPlace (off/BSIZE))) (off%BSIZE + j)) =
      window ino data i off m := by
  unfold window
  apply List.map_congr_left
  intro j hj
  obtain ⟨h1, h2⟩ := range_in_block (x := off+j) (by omega)
    (Nat.add_lt_add_left (List.mem_range.mp hj) off) hm
  unfold byteAt
  rw [h1, h2]
  congr 2
  omega

end Lists

/-- A place that takes bytes piece by piece: `copy` is `either_copyout` to the part that
comes next, `put` what is there afterwards, and `room d n` says that `n` more bytes fit. -/
structure Buffer (δ : Type) where
  copy : δ → List UInt8 → Except String (Int × δ)
  put : δ → List UInt8 → δ
  room : δ → Nat → Prop
  copy_eq : ∀ d bytes, room d bytes.length → copy d bytes = .ok (0, put d bytes)
  put_nil : ∀ d, put d [] = d
  put_append : ∀ d a b, put d (a ++ b) = put (put d a) b
  room_append : ∀ d a n, room d (a.length + n) → room d a.length ∧ room (put d a) n

def kernelBuffer : Buffer (List UInt8) where
  copy d bytes := .ok (0, d ++ bytes)
  put d bytes := d ++ bytes
  room _ _ := True
  copy_eq _ _ _ := rfl
  put_nil := List.append_nil
  put_append d a b := (List.append_assoc d a b).symm
  room_append _ _ _ _ := ⟨trivial, trivial⟩

section Pieces
variable {δ : Type} {B : Buffer δ} {copy : δ → List UInt8 → Except String (Int × δ)} {d d' : δ}
  {bytes : List UInt8} {all : Bool} {e : String}

/-- `copy` takes the bytes piece by piece, all of them or up to a piece that fails. -/
inductive Pieces (copy : δ → List UInt8 → Except String (Int × δ)) :
    δ → List UInt8 → Bool → δ → Prop
  | nil {d : δ} : Pieces copy d [] true d
  | fail {d d' : δ} {a b : List UInt8} : copy d a = .ok (-1, d') → Pieces copy d (a ++ b) false d'
  | cons {d d1 d' : δ} {a b : List UInt8} {r : Int} {all : Bool} : copy d a = .ok (r, d1) → r ≠ -1 →
      Pieces copy d1 b all d' → Pieces copy d (a ++ b) all d'

/-- `copy` panics at one of the pieces. -/
inductive CopyPanics (copy : δ → List UInt8 → Except String (Int × δ)) :
    δ → List UInt8 → String → Prop
  | here {d : δ} {a b : List UInt8} {e : String} : copy d a = .error e → CopyPanics copy d (a ++ b) e
  | later {d d1 : δ} {a b : List UInt8} {r : Int} {e : String} : copy d a = .ok (r, d1) → r ≠ -1 →
      CopyPanics copy d1 b e → CopyPanics copy d (a ++ b) e

theorem Buffer.room_pieces {a b : List UInt8} (h : B.room d (a ++ b).length) :
    B.copy d a = .ok (0, B.put d a) ∧ B.room (B.put d a) b.length := by
  rw [List.length_append] at h
  obtain ⟨ha, hb⟩ := B.room_append d a b.length h
  exact ⟨B.copy_eq d a ha, hb⟩

/-- Where there is room, no piece fails. -/
theorem Pieces.put (h : Pieces B.copy d bytes all d') (hroom : B.room d bytes.length) :
    all = true ∧ d' = B.put d bytes := by
  induction h with
  | nil => exact ⟨rfl, (B.put_nil _).symm⟩
  | fail hc =>
    rw [(B.room_pieces hroom).1] at hc
    simp at hc
  | cons hc _ _ ih =>
    obtain ⟨ha, hb⟩ := B.room_pieces hroom
    rw [ha] at hc
    cases hc
    rw [B.put_append]
    exact ih hb

theorem CopyPanics.no_room (h : CopyPanics B.copy d bytes e) : ¬ B.room d bytes.length := by
  induction h with
  | here hc =>
    intro hroom
    rw [(B.room_pieces hroom).1] at hc
    cases hc
  | later hc _ _ ih =>
    intro hroom
    obtain ⟨ha, hb⟩ := B.room_pieces hroom
    rw [ha] at hc
    cases hc
    exact ih hb

end Pieces

variable [FsLayout]

section Read
variable {δ : Type} {B : Buffer δ} {copy : δ → List UInt8 → Except String (Int × δ)} {s : Fs}
  {ino : Nat → Dinode} {ip : ISlot} {i off n : Nat} {dst : δ}

def Covered (ino : Nat → Dinode) (data : Nat → Bytes) (i off n : Nat) : Prop :=
  ∀ x, off ≤ x → x < off+n → own ino data (i, blockPlace (x/BSIZE)) ≠ 0

/-- What `readi` did with the bytes that it read: it returns their number, or -1. -/
def ReadBack (copy : δ → List UInt8 → Except String (Int × δ)) (s : Fs) (dst : δ)
    (bytes : List UInt8) (n : Nat) (r : Nat × δ) (s' : Fs) : Prop :=
  (∃ all, Pieces copy dst bytes all r.2 ∧ r.1 = if all then n else minusOne) ∧ QuietFs s s'

theorem readLoop_spec (k : Nat) :
    ∀ (tot off : Nat) (s : Fs) (dst : δ), InodesOk s ino → At s ip i → tot ≤ n → n-tot ≤ k →
    (tot < n → off + (n-tot) ≤ MAXFILE*BSIZE) → Covered ino s.st.data i off (n-tot) →
    Ensures (readLoop copy ip n k tot off dst) s
      (CopyPanics copy dst (window ino s.st.data i off (n-tot)))
      (ReadBack copy s dst (window ino s.st.data i off (n-tot)) n) := by
  have hend (tot off : Nat) (s : Fs) (dst : δ) (h : InodesOk s ino) (heq : tot = n) :
      ReadBack copy s dst (window ino s.st.data i off (n-tot)) n (tot, dst) s := by
    rw [heq, Nat.sub_self]
    exact ⟨⟨true, .nil, rfl⟩, QuietFs.refl h.log⟩
  induction k with
  | zero =>
    intro tot off s dst h ha hle hk hmax hcov
    unfold readLoop
    exact ensures_pure (hend tot off s dst h (by omega))
  | succ k ih =>
    intro tot off s dst h ha hle hk hmax hcov
    unfold readLoop
    by_cases hlt : tot < n
    · have hpos := block_rest_ne off
      have hmax := hmax hlt
      set m := min (n-tot) (BSIZE - off%BSIZE) with hm
      have hmle : m ≤ BSIZE - off%BSIZE := by omega
      have hblk : off/BSIZE < MAXFILE := block_lt (by omega)
      have hown := hcov off le_rfl (by omega)
      rw [if_pos hlt]
      refine (bmap_quiet h ha hblk hown).ensures.bind ?_
      intro b s1 ⟨hb, hq1⟩
      refine (disk_bread (hq1.inodes h).log b).ensures.bind ?_
      intro data s2 ⟨hdata, hq2⟩
      have hq := hq1.trans hq2
      have hchunk : ((List.range m).map fun j => data (off%BSIZE + j)) =
          window ino s.st.data i off m := by
        rw [← window_block hmle, hdata, hb, hq1.quiet.view,
          view_data (own_dataBlock h hown)]
      have hsplit : window ino s.st.data i off (n-tot) =
          window ino s.st.data i off m ++ window ino s.st.data i (off+m) (n-(tot+m)) := by
        rw [← window_append]
        congr 1
        omega
      dsimp only
      rw [hchunk, hsplit]
      cases hcopy : copy dst (window ino s.st.data i off m) with
      | error e => exact ensures_throw (.here hcopy)
      | ok p =>
        dsimp only
        split_ifs with hfail
        · apply ensures_pure
          refine ⟨⟨false, .fail ?_, rfl⟩, hq⟩
          rw [hcopy, ← hfail]
        · have hrest := ih (tot+m) (off+m) s2 p.2 (hq.inodes h) (ha.congr hq.cell) (by omega)
            (by omega) (by omega)
          rw [hq.quiet.data] at hrest
          refine (hrest fun x h1 h2 => hcov x (by omega) (by omega)).imp
            (fun _ he => .later hcopy hfail he) ?_
          intro r s3 ⟨⟨all, hc, hr⟩, hq3⟩
          exact ⟨⟨all, .cons hcopy hfail hc, hr⟩, hq.trans hq3⟩
    · rw [if_neg hlt]
      exact ensures_pure (hend tot off s dst h (by omega))

omit [FsLayout] in
theorem Filled.covered {data : Nat → Bytes} (h : Filled ino data i)
    (hle : off+n ≤ (ino i).size.toNat) : Covered ino data i off n := by
  intro x _ hx
  apply h.blocks
  have := Nat.div_mul_le_self x BSIZE
  omega

def readData (data : List UInt8) (off n : Nat) : List UInt8 :=
  if data.length < off ∨ (off+n) % 2^32 < off then [] else (data.drop off).take n

omit [FsLayout] in
theorem length_readData (data : List UInt8) (off n : Nat) : (readData data off n).length ≤ n := by
  unfold readData
  split_ifs
  · exact Nat.zero_le n
  · rw [List.length_take]
    exact Nat.min_le_left _ _

omit [FsLayout] in
theorem readData_end {data : List UInt8} (h : 0 < (readData data off n).length) :
    off + (readData data off n).length ≤ data.length := by
  unfold readData at h ⊢
  split_ifs at h ⊢ with hout
  · exact absurd h (Nat.lt_irrefl 0)
  · rw [List.length_take, List.length_drop]
    omega

/-- `readi` of a part of a file that has its blocks. -/
theorem readi_covered (h : InodesOk s ino) (ha : At s ip i)
    (hmax : 0 < (readData (content ino s.st.data i) off n).length →
      off + (readData (content ino s.st.data i) off n).length ≤ MAXFILE*BSIZE)
    (hcov : Covered ino s.st.data i off (readData (content ino s.st.data i) off n).length) :
    Ensures (readi copy ip dst off n) s
      (CopyPanics copy dst (readData (content ino s.st.data i) off n))
      (ReadBack copy s dst (readData (content ino s.st.data i) off n)
        (readData (content ino s.st.data i) off n).length) := by
  obtain ⟨hmem, _, _⟩ := h.mem_at ha
  unfold readi
  apply ensures_get
  rw [hmem]
  unfold readData at hmax hcov ⊢
  rw [length_content] at hmax hcov ⊢
  dsimp only
  by_cases hout : (ino i).size.toNat < off ∨ (off+n) % 2^32 < off
  · rw [if_pos hout, if_pos hout]
    exact ensures_pure ⟨⟨true, .nil, rfl⟩, QuietFs.refl h.log⟩
  · rw [if_neg hout] at hmax hcov ⊢
    rw [if_neg hout]
    -- The number of bytes is cut at the end of the file.
    set n' := if (ino i).size.toNat < off+n then (ino i).size.toNat - off else n with hn'
    have htake : ((content ino s.st.data i).drop off).take n = window ino s.st.data i off n' := by
      rw [← take_drop_content (show off+n' ≤ (ino i).size.toNat by rw [hn']; split_ifs <;> omega), hn']
      split_ifs with hcut
      · have hlen : ((content ino s.st.data i).drop off).length = (ino i).size.toNat - off := by
          rw [List.length_drop, length_content]
        rw [List.take_of_length_le (by omega), List.take_of_length_le (by omega)]
      · rfl
    rw [htake, length_window] at hmax hcov
    rw [htake, length_window]
    exact readLoop_spec n' 0 off s dst h ha (Nat.zero_le _) (Nat.sub_le _ _) hmax hcov

/-- `readi` of a file without holes. -/
theorem readi_copies (h : InodesOk s ino) (hfill : Filled ino s.st.data i) (ha : At s ip i) :
    Ensures (readi copy ip dst off n) s
      (CopyPanics copy dst (readData (content ino s.st.data i) off n))
      (ReadBack copy s dst (readData (content ino s.st.data i) off n)
        (readData (content ino s.st.data i) off n).length) := by
  have hin (hpos : 0 < (readData (content ino s.st.data i) off n).length) :
      off + (readData (content ino s.st.data i) off n).length ≤ (ino i).size.toNat := by
    have := readData_end hpos
    rwa [length_content] at this
  have hsize := hfill.size
  apply readi_covered h ha
  · intro hpos
    have := hin hpos
    omega
  · intro x hlo hhi
    exact hfill.covered (hin (by omega)) x hlo hhi

theorem readi_room {bytes : List UInt8} (hroom : B.room dst bytes.length)
    (hread : Ensures (readi B.copy ip dst off n) s (CopyPanics B.copy dst bytes)
      (ReadBack B.copy s dst bytes bytes.length)) :
    Runs (readi B.copy ip dst off n) s fun r s' =>
      r = (bytes.length, B.put dst bytes) ∧ QuietFs s s' := by
  apply (hread.runs fun e he => he.no_room hroom).imp
  intro r s' ⟨⟨all, hc, hr⟩, hq⟩
  obtain ⟨rfl, hput⟩ := hc.put hroom
  exact ⟨Prod.ext hr hput, hq⟩

/-- `readi` reads a window of the content of a file without holes. -/
theorem readi_filled (h : InodesOk s ino) (hfill : Filled ino s.st.data i) (ha : At s ip i)
    (hroom : B.room dst (readData (content ino s.st.data i) off n).length) :
    Runs (readi B.copy ip dst off n) s fun r s' =>
      r = ((readData (content ino s.st.data i) off n).length,
        B.put dst (readData (content ino s.st.data i) off n)) ∧ QuietFs s s' :=
  readi_room hroom (readi_copies h hfill ha)

theorem readi_spec (h : FsCore s ino) (ha : At s ip i)
    (hroom : B.room dst (readData (content ino s.st.data i) off n).length) :
    Runs (readi B.copy ip dst off n) s fun r s' =>
      r = ((readData (content ino s.st.data i) off n).length,
        B.put dst (readData (content ino s.st.data i) off n)) ∧ QuietFs s s' :=
  readi_filled h.toInodesOk (h.filled i (h.mem_at ha).2.1) ha hroom

theorem readi_window (h : InodesOk s ino) (ha : At s ip i) (hle : off+n ≤ (ino i).size.toNat)
    (hmax : off+n ≤ MAXFILE*BSIZE) (hcov : Covered ino s.st.data i off n) (hroom : B.room dst n) :
    Runs (readi B.copy ip dst off n) s fun r s' =>
      r = (n, B.put dst (window ino s.st.data i off n)) ∧ QuietFs s s' := by
  have hM : MAXFILE*BSIZE < 2^32 := by decide
  have hbytes : readData (content ino s.st.data i) off n = window ino s.st.data i off n := by
    unfold readData
    rw [length_content, if_neg (by rw [Nat.mod_eq_of_lt (by omega)]; omega), take_drop_content hle]
  have hlen : (readData (content ino s.st.data i) off n).length = n := by
    rw [hbytes, length_window]
  rw [← hlen] at hroom
  have hread := readi_room hroom
    (readi_covered h ha (by rw [hlen]; exact fun _ => hmax) (by rw [hlen]; exact hcov))
  rwa [hbytes, length_window] at hread

end Read

section Sources

def Source.Enough (n : Nat) : Source → Prop
  | .kernel bytes => n ≤ bytes.length
  | .user _ _ => True

omit [FsLayout] in
/-- A copy that does not fail gives as many bytes as it was asked for. -/
theorem either_copyin_length {src : Source} {n tot m : Nat} (h : src.Enough n) (hm : tot+m ≤ n) :
    (src.either_copyin tot m).2.length ≤ m ∧
      ((src.either_copyin tot m).1 ≠ -1 → (src.either_copyin tot m).2.length = m) := by
  cases src with
  | kernel bytes =>
    change n ≤ bytes.length at h
    have hlen : ((bytes.drop tot).take m).length = m := by
      rw [List.length_take, List.length_drop]
      omega
    exact ⟨hlen.le, fun _ => hlen⟩
  | user mem va =>
    obtain ⟨hle, _, ⟨_, hall, _⟩ | ⟨hfail, _⟩⟩ :=
      fetch_bytes (fun i => mem.loadByte ((va+tot) % 2^64 + i)) m
    · exact ⟨hle, fun _ => hall⟩
    · exact ⟨hle, fun hr => absurd hfail hr⟩

/-- The bytes that the rounds of `writei` copy, one after the other, and the values of
`off` and `n` at the end. -/
def writeChunks (src : Source) (n : Nat) : Nat → Nat → Nat → List UInt8 × Nat × Nat
  | 0, _, off => ([], off, n)
  | k+1, tot, off =>
    if tot < n then
      let m := min (n - tot) (BSIZE - off%BSIZE)
      let r := src.either_copyin tot m
      if r.1 = -1 then (r.2, off, minusOne)
      else
        let q := writeChunks src n k (tot+m) (off+m)
        (r.2 ++ q.1, q.2)
    else ([], off, n)

def Source.write (src : Source) (data : List UInt8) (off n : Nat) : Nat × List UInt8 :=
  if data.length < off ∨ (off+n) % 2^32 < off then (minusOne, data)
  else if MAXFILE*BSIZE < off+n then (minusOne, data)
  else
    let r := writeChunks src n n 0 off
    (r.2.2, (splice data off r.1).take (max data.length r.2.1))

omit [FsLayout] in
theorem writeChunks_bounds {src : Source} {n : Nat} (h : src.Enough n) (k : Nat) :
    ∀ tot off, tot ≤ n → n - tot ≤ k →
      off ≤ (writeChunks src n k tot off).2.1 ∧
      (writeChunks src n k tot off).2.1 ≤ off + (writeChunks src n k tot off).1.length ∧
      off + (writeChunks src n k tot off).1.length ≤ off + (n-tot) ∧
      ((writeChunks src n k tot off).2.2 = n ∧
          (writeChunks src n k tot off).2.1 = off + (n-tot) ∨
        (writeChunks src n k tot off).2.2 = minusOne) := by
  induction k with
  | zero =>
    intro tot off hle hk
    have hz : n - tot = 0 := by omega
    unfold writeChunks
    exact ⟨le_rfl, le_rfl, Nat.le_add_right _ _, Or.inl ⟨rfl, by dsimp only; omega⟩⟩
  | succ k ih =>
    intro tot off hle hk
    unfold writeChunks
    by_cases hlt : tot < n
    · have hpos := block_rest_ne off
      rw [if_pos hlt]
      set m := min (n-tot) (BSIZE - off%BSIZE) with hm
      obtain ⟨hl1, hl2⟩ := either_copyin_length (m := m) h (show tot+m ≤ n by omega)
      dsimp only
      by_cases hr : (src.either_copyin tot m).1 = -1
      · rw [if_pos hr]
        dsimp only
        exact ⟨le_rfl, Nat.le_add_right _ _, by omega, Or.inr rfl⟩
      · rw [if_neg hr]
        obtain ⟨h1, h2, h3, h4⟩ := ih (tot+m) (off+m) (by omega) (by omega)
        have hlen := hl2 hr
        dsimp only
        rw [List.length_append, hlen]
        refine ⟨by omega, by omega, by omega, ?_⟩
        rcases h4 with ⟨h4, h5⟩ | h4
        · exact Or.inl ⟨h4, by omega⟩
        · exact Or.inr h4
    · rw [if_neg hlt]
      exact ⟨le_rfl, le_rfl, Nat.le_add_right _ _, Or.inl ⟨rfl, by dsimp only; omega⟩⟩

end Sources

section Write
variable {s s1 s2 : Fs} {ino ino1 ino2 : Nat → Dinode} {ip : ISlot} {i : Nat}

/-- The bytes `bytes` were written at `off` into the file of inode `i`. -/
structure FileWritten (s s' : Fs) (ino ino' : Nat → Dinode) (i off : Nat) (bytes : List UInt8) : Prop
    extends Grows s s' ino ino' i where
  kept : ∀ j x, Xv6.own ino s.st.data (j, blockPlace (x/BSIZE)) ≠ 0 →
    ¬ (j = i ∧ off ≤ x ∧ x < off + bytes.length) →
    byteAt ino' s'.st.data j x = byteAt ino s.st.data j x
  new : ∀ x, off ≤ x → x < off + bytes.length →
    Xv6.own ino' s'.st.data (i, blockPlace (x/BSIZE)) ≠ 0 ∧
      byteAt ino' s'.st.data i x = bytes.getD (x-off) 0

theorem FileWritten.trans {off : Nat} {as bs : List UInt8} (h : FileWritten s s1 ino ino1 i off as)
    (h' : FileWritten s1 s2 ino1 ino2 i (off+as.length) bs) :
    FileWritten s s2 ino ino2 i off (as ++ bs) := by
  refine ⟨h.toGrows.trans h'.toGrows, ?_, ?_⟩
  · intro j x hown hout
    rw [List.length_append] at hout
    rw [h'.kept j x (by rw [h.own _ hown]; exact hown) (by omega), h.kept j x hown (by omega)]
  · intro x h1 h2
    rw [List.length_append] at h2
    by_cases hx : x < off + as.length
    · obtain ⟨hown, hbyte⟩ := h.new x h1 hx
      refine ⟨by rw [h'.own _ hown]; exact hown, ?_⟩
      rw [h'.kept i x hown (by omega), hbyte, List.getD_append _ _ _ _ (by omega)]
    · obtain ⟨hown, hbyte⟩ := h'.new x (by omega) (by omega)
      refine ⟨hown, ?_⟩
      rw [hbyte, List.getD_append_right _ _ _ _ (by omega)]
      congr 1
      omega

theorem written_nil (s : Fs) (ino : Nat → Dinode) (i off : Nat) : FileWritten s s ino ino i off [] := by
  refine ⟨(Extended.refl s ino i).toGrows, fun _ _ _ _ => rfl, ?_⟩
  intro x h1 h2
  rw [List.length_nil] at h2
  omega

theorem InodesOk.content (h : InodesOk s ino) {st : Store} {bn : Nat} {bytes : Bytes}
    (hlog : LogOk st) (hu : st.used = s.st.used)
    (hdata : st.data = update s.st.data (own ino s.st.data (i, blockPlace bn)) bytes) :
    InodesOk { s with st := st } ino ∧ own ino st.data = own ino s.st.data := by
  have hown : own ino st.data = own ino s.st.data := by
    rw [hdata]
    exact own_setContent h.blocks.owns
  refine ⟨⟨hlog, ⟨?_, ?_, h.blocks.none⟩, h.cells⟩, hown⟩
  · rw [hu]
    exact h.blocks.reserved
  · rw [hown, hu]
    exact h.blocks.owns

/-- One round of `writei`: `bmap` may have given a block, and then bytes go into it. -/
theorem written_chunk {off : Nat} {bs : List UInt8} {st : Store} {used : Nat → Bool}
    {area : Nat → Prop} (ho : Owns (own ino1 s1.st.data) used area)
    (hg : Extended s s1 ino ino1 i) (hd : st.dino = s1.st.dino)
    (hne : own ino1 s1.st.data (i, blockPlace (off/BSIZE)) ≠ 0)
    (hdata : st.data = update s1.st.data (own ino1 s1.st.data (i, blockPlace (off/BSIZE)))
      (blit (s1.st.data (own ino1 s1.st.data (i, blockPlace (off/BSIZE)))) (off%BSIZE) bs))
    (hlen : bs.length ≤ BSIZE - off%BSIZE) :
    FileWritten s { s1 with st := st } ino ino1 i off bs := by
  have hown : own ino1 st.data = own ino1 s1.st.data := by
    rw [hdata]
    exact own_setContent ho
  -- A byte of the block that is written, and a byte of any other block.
  have hsame (x : Nat) (hx : x/BSIZE = off/BSIZE) : byteAt ino1 st.data i x =
      blit (s1.st.data (own ino1 s1.st.data (i, blockPlace (off/BSIZE)))) (off%BSIZE) bs
        (x%BSIZE) := by
    unfold byteAt
    rw [hown, hx, hdata, update_self]
  have hother (j x : Nat) (hx : ¬ (j = i ∧ x/BSIZE = off/BSIZE)) :
      byteAt ino1 st.data j x = byteAt ino1 s1.st.data j x := by
    unfold byteAt
    rw [hown, hdata, update_of_ne]
    intro heq
    have hp := ho.inj _ _ hne heq.symm
    have h1 := (Prod.ext_iff.mp hp).1
    have h2 := blockPlace_inj (Prod.ext_iff.mp hp).2
    exact hx ⟨h1.symm, h2.symm⟩
  refine ⟨⟨hg.cell, hg.sys, hd.trans hg.dino, hg.others, hg.same, ?_⟩, ?_, ?_⟩
  · intro p hp
    change own ino1 st.data p = _
    rw [hown, hg.own p hp]
  · intro j x hx hout
    change byteAt ino1 st.data j x = _
    have hbyte : byteAt ino1 s1.st.data j x = byteAt ino s.st.data j x := by
      unfold byteAt
      rw [hg.own _ hx, hg.data _ _ hx]
    rw [← hbyte]
    by_cases hblk : j = i ∧ x/BSIZE = off/BSIZE
    · obtain ⟨rfl, hxb⟩ := hblk
      rw [hsame x hxb]
      unfold blit
      rw [if_neg (range_outside_block hxb (fun hc => hout ⟨rfl, hc⟩))]
      unfold byteAt
      rw [hxb]
    · exact hother j x hblk
  · intro x h1 h2
    change own ino1 st.data _ ≠ 0 ∧ byteAt ino1 st.data i x = _
    obtain ⟨hx1, hx2⟩ := range_in_block h1 h2 hlen
    rw [hown, hx1]
    refine ⟨hne, ?_⟩
    rw [hsame x hx1, hx2, blit_at _ _ _ _ (by omega)]

theorem setData_spec {st : Store} (h : LogOk st) {b : Nat} (hb : DataBlock b) (data : Bytes) :
    Runs (setData b data) st fun _ st' => st'.used = st.used ∧ st'.dino = st.dino ∧
      st'.data = update st.data b data ∧ st'.lh = st.lh ∧ Spent st st' 0 0 := by
  unfold setData
  rw [runs_modify]
  obtain ⟨h1, h2, h3⟩ := data_of_data_write (s := st) hb (view_update st b data)
  refine ⟨h1, h2, h3, rfl, ⟨h.start, h.size, h.home, h.nodup, h.fits⟩, rfl, (free_congr h1).ge,
    le_rfl, fun _ hx => hx⟩

def touched (i off n : Nat) : Finset Place :=
  if n = 0 then ∅
  else (Finset.Icc (off/BSIZE) ((off+n-1)/BSIZE)).biUnion (places i)

omit [FsLayout] in
theorem places_subset_touched {off n x : Nat} (h1 : off ≤ x) (h2 : x < off+n) :
    places i (x/BSIZE) ⊆ touched i off n := by
  unfold touched
  rw [if_neg (by omega)]
  apply Finset.subset_biUnion_of_mem (places i)
  rw [Finset.mem_Icc]
  exact ⟨Nat.div_le_div_right h1, Nat.div_le_div_right (by omega)⟩

omit [FsLayout] in
theorem place_mem_places (i bn : Nat) : (i, blockPlace bn) ∈ places i bn := by
  unfold places blockPlace
  split_ifs
  · exact Finset.mem_singleton_self _
  · exact Finset.mem_insert_of_mem (Finset.mem_singleton_self _)

theorem writeLoop_spec {src : Source} {n off0 : Nat} (hsrc : src.Enough n) (k : Nat) :
    ∀ (tot off : Nat) (s : Fs) (ino : Nat → Dinode), InodesOk s ino → At s ip i →
    1 ≤ s.st.outstanding → tot ≤ n → n-tot ≤ k → off + (n-tot) ≤ MAXFILE*BSIZE →
    off = off0 + tot →
    Ensures (writeLoop ip src n k tot off) s (TooFew (touched i off0 n) s.st ino) fun r s' =>
      r = (writeChunks src n k tot off).2 ∧ ∃ ino', InodesOk s' ino' ∧
        FileWritten s s' ino ino' i off (writeChunks src n k tot off).1 ∧
        Paid (touched i off0 n) s.st s'.st ino ino' := by
  induction k with
  | zero =>
    intro tot off s ino h ha ht hle hk hmax hoff
    unfold writeLoop writeChunks
    apply ensures_pure
    exact ⟨rfl, ino, h, written_nil s ino i off, Paid.refl h.log⟩
  | succ k ih =>
    intro tot off s ino h ha ht hle hk hmax hoff
    unfold writeLoop writeChunks
    by_cases hlt : tot < n
    · have hpos := block_rest_ne off
      rw [if_pos hlt, if_pos hlt]
      set m := min (n-tot) (BSIZE - off%BSIZE) with hm
      have hT : places i (off/BSIZE) ⊆ touched i off0 n :=
        places_subset_touched (by omega) (by omega)
      have hpT : (i, blockPlace (off/BSIZE)) ∈ touched i off0 n := hT (place_mem_places _ _)
      obtain ⟨hl1, hl2⟩ := either_copyin_length (m := m) hsrc (show tot+m ≤ n by omega)
      refine (bmap_spec h ha ht (block_lt (by omega)) hT).bind ?_
      intro b s1 ⟨ino1, hc1, hg1, hown1, hb, hpd1⟩
      refine (disk_bread hc1.log b).ensures.bind ?_
      intro data s2 ⟨hdata, hq2⟩
      have hc2 := hq2.inodes hc1
      have hg2 := hg1.trans (hq2.extended ino1 i)
      have hpd2 := hpd1.trans (hq2.quiet.paid (T := touched i off0 n) ino1)
      have hown2 : own ino1 s2.st.data (i, blockPlace (off/BSIZE)) = b := by
        rw [hq2.quiet.data, hown1]
      have hne2 : own ino1 s2.st.data (i, blockPlace (off/BSIZE)) ≠ 0 := by
        rw [hown2]
        exact hb.ne_zero
      have hblk : data = s2.st.data b := by
        rw [hdata, hq2.quiet.data, view_data hb]
      have ht2 : 1 ≤ s2.st.outstanding := by rw [hpd2.outstanding]; exact ht
      dsimp only
      by_cases hr : (src.either_copyin tot m).1 = -1
      · -- The copy failed, and the buffer keeps what it got.
        rw [if_pos hr, if_pos hr]
        apply ensures_bind
        apply ensures_zoom
        refine (setData_spec hc2.log hb _).ensures.imp (fun e he => he) ?_
        intro _ st3 ⟨hu3, hd3, hdat3, hlh3, hsp3⟩
        rw [hblk, ← hown2] at hdat3
        obtain ⟨hc3, hown3⟩ := hc2.content hsp3.log hu3 hdat3
        apply ensures_pure
        refine ⟨rfl, ino1, hc3, written_chunk hc2.blocks.owns hg2 hd3 hne2 hdat3 (by dsimp only; omega), ?_⟩
        apply hpd2.trans
        apply hsp3.paid
        · rw [hown3, Nat.add_zero]
        · rw [hown3, hlh3, Nat.add_zero]
      · rw [if_neg hr, if_neg hr]
        have hlen := hl2 hr
        apply ensures_bind
        apply ensures_zoom
        refine (logged_data ⟨hc2.log, ht2⟩ hb _).imp ?_ ?_
        · intro e he
          refine (he.tooFew (Nat.zero_le _) (Nat.zero_le _)).after hpd2
        intro _ st3 ⟨hu3, hd3, hdat3, hsp3, hin3⟩
        rw [← hown2] at hdat3
        obtain ⟨hc3, hown3⟩ := hc2.content hsp3.log hu3 hdat3
        have hw3 := written_chunk hc2.blocks.owns hg2 hd3 hne2 hdat3 (by omega)
        have hin3' : own ino1 st3.data (i, blockPlace (off/BSIZE)) ∈ st3.lh := by
          rw [hown3, hown2]
          exact hin3
        have hpd3 : Paid (touched i off0 n) s.st st3 ino ino1 := by
          apply hpd2.trans
          rw [← hown2] at hsp3
          apply hsp3.paid
          · rw [hown3, Nat.add_zero]
          · apply unlogged_block hsp3.lh _ hc2.log hpT hin3'
            intro p _
            rw [hown3]
        refine (ih (tot+m) (off+m) _ ino1 hc3 (ha.congr hg2.cell) ?_ (by omega) (by omega) (by omega)
          (by omega)).imp ?_ ?_
        · change 1 ≤ st3.outstanding
          rw [hpd3.outstanding]
          exact ht
        · intro e he
          exact TooFew.after he hpd3
        intro r s4 ⟨hr4, ino4, hc4, hw4, hpd4⟩
        refine ⟨hr4, ino4, hc4, ?_, hpd3.trans hpd4⟩
        apply hw3.trans
        rw [hlen]
        exact hw4
    · rw [if_neg hlt, if_neg hlt]
      apply ensures_pure
      exact ⟨rfl, ino, h, written_nil s ino i off, Paid.refl h.log⟩

end Write

end Xv6
