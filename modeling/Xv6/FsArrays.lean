import Xv6.BufCoherence
import Xv6.FsTrunc
import Xv6.LogCrash

/-! The content of the inodes refines arrays of bytes: `writei`, `readi` and `itrunc`,
with kernel or user memory, do what the same calls do on arrays. -/
namespace Xv6

open Function

section Transactions
variable [FsLayout] {s : Fs}

theorem LogOk.setOps {st : Store} (h : LogOk st) (n : Nat) : LogOk { st with outstanding := n } :=
  ⟨h.start, h.size, h.home, h.nodup, h.fits⟩

theorem commit_quiet {st : Store} (h : LogOk st) :
    Runs commit st fun _ st' => LogOk st' ∧ st'.outstanding = st.outstanding ∧
      ∀ b, sb.inodestart ≤ b → st'.view b = st.view b := by
  by_cases hne : st.lh = []
  · have hrun : commit st = .ok ((), st) := by
      unfold commit
      change (if 0 < st.lh.length then _ else _ : Prog Store Unit) st = _
      rw [hne]
      rfl
    exact ⟨(), st, hrun, h, rfl, fun _ _ => rfl⟩
  · have hend := FsLayout.log_end
    have hpos : 0 < st.lh.length := List.length_pos_of_ne_nil hne
    have hfits := h.fits
    have hstart := h.start
    have hsize := h.size
    have hhome : ∀ b ∈ st.lh, Home st.start st.size b := by
      intro b hb hlog
      have h1 := (h.home b hb).1
      have h2 : st.start ≤ b ∧ b ≤ st.start + (st.size-1) := hlog
      omega
    refine (commit_spec st hne h.fits hhome).imp ?_
    intro _ st' hw
    refine ⟨⟨hw.start.trans h.start, hw.size.trans h.size, ?_, ?_, ?_⟩, hw.outstanding, ?_⟩
    · rw [hw.lh]
      intro b hb
      cases hb
    · rw [hw.lh]
      exact List.nodup_nil
    · rw [hw.lh]
      exact Nat.zero_le _
    · intro b hb
      rw [hw.view]
      apply applyWrites_same _ _ rfl
      intro w hw' hwb
      unfold commitWrites at hw'
      rw [List.mem_append, List.mem_cons, List.mem_append, List.mem_singleton] at hw'
      -- Only the writes to the home places go to blocks behind the log.
      rcases hw' with hlog | hhead | hhomes | hhead
      · have := mem_logWrites st.lh _ w hlog
        omega
      · rw [hhead] at hwb
        dsimp only at hwb
        omega
      · obtain ⟨x, hx, rfl⟩ := List.mem_map.mp hhomes
        dsimp only at hwb ⊢
        rw [hwb]
        rfl
      · rw [hhead] at hwb
        dsimp only at hwb
        omega

theorem used_congr {st st' : Store} (h : ∀ b, sb.inodestart ≤ b → st'.view b = st.view b) :
    st'.used = st.used := by
  funext b
  unfold Store.used
  by_cases hb : b < sb.size
  · have h1 := (BBLOCK_map hb).1
    have h2 := inodestart_lt
    rw [h _ (by omega)]
  · rw [decide_eq_false hb, Bool.false_and, Bool.false_and]

theorem dino_congr {st st' : Store} (h : ∀ b, sb.inodestart ≤ b → st'.view b = st.view b) :
    st'.dino = st.dino := by
  funext i
  unfold Store.dino
  split_ifs with hi
  · rw [h _ (IBLOCK_bounds hi).1]
  · rfl

theorem data_congr {st st' : Store} (h : ∀ b, sb.inodestart ≤ b → st'.view b = st.view b) :
    st'.data = st.data := by
  funext b
  unfold Store.data
  split_ifs with hb
  · have h1 := hb.1
    have h2 := inodestart_lt
    have h3 := bmapstart_lt
    rw [h b (by omega)]
  · rfl

theorem FsOk.setStore (h : FsOk s) {st : Store} (hlog : LogOk st)
    (hview : ∀ b, sb.inodestart ≤ b → st.view b = s.st.view b) :
    FsOk { s with st := st } ∧ Fs.node { s with st := st } = s.node := by
  unfold FsOk Fs.node
  dsimp only
  rw [dino_congr hview, data_congr hview]
  refine ⟨⟨⟨hlog, ⟨?_, ?_, h.blocks.none⟩, h.cells⟩, ?_⟩, rfl⟩
  · change MetaUsed st.used
    rw [used_congr hview]
    exact h.blocks.reserved
  · change Owns (own _ st.data) st.used DataBlock
    rw [used_congr hview, data_congr hview]
    exact h.blocks.owns
  · change ∀ i, _ → Filled _ st.data i
    rw [data_congr hview]
    exact h.filled

theorem end_op_quiet {st : Store} (h : LogOk st) :
    Runs end_op st fun _ st' => LogOk st' ∧ st'.outstanding = st.outstanding - 1 ∧
      ∀ b, sb.inodestart ≤ b → st'.view b = st.view b := by
  have hlog0 := h.setOps (st.outstanding - 1)
  unfold end_op
  rw [runs_bind, runs_modify, runs_bind, runs_get]
  dsimp only
  split_ifs
  · exact commit_quiet hlog0
  · rw [runs_pure]
    exact ⟨hlog0, rfl, fun _ _ => rfl⟩

end Transactions

section UserMemory

/-- `either_copyout` to memory of the process. `should_copyon_write` calls `walk`, which
panics above `MAXVA`. -/
def userCopy (d : UserMem × Nat) (bytes : List UInt8) : Except String (Int × (UserMem × Nat)) :=
  if bytes ≠ [] ∧ MAXVA ≤ d.2 then .error "walk" else
  let r := d.1.copyout d.2 bytes
  .ok (r.1, r.2, d.2 + bytes.length)

def userBuffer : Buffer (UserMem × Nat) where
  copy := userCopy
  put d bytes := (d.1.put d.2 bytes, d.2 + bytes.length)
  room d n := ∀ x, x < n → d.1.userByte (d.2 + x)
  copy_eq d bytes h := by
    have hcopy : d.1.copyout d.2 bytes = (0, d.1.put d.2 bytes) := copyout_mapped h
    have hlow : ¬ (bytes ≠ [] ∧ MAXVA ≤ d.2) := by
      intro hc
      have hfirst := (h 0 (List.length_pos_iff.mpr hc.1)).1
      omega
    unfold userCopy
    rw [if_neg hlow, hcopy]
  put_nil d := by
    rw [UserMem.put_nil]
    rfl
  put_append d a b := by
    dsimp only
    rw [UserMem.put_append, List.length_append, Nat.add_assoc]
  room_append d a n h := by
    refine ⟨fun x hx => h x (by omega), ?_⟩
    intro x hx
    have := h (a.length + x) (by omega)
    rw [← Nat.add_assoc] at this
    exact this

/-- `user_dst` of `either_copyout` chooses between the two. -/
def eitherBuffer : Buffer (List UInt8 ⊕ UserMem × Nat) where
  copy d bytes :=
    match d with
    | .inl k => (kernelBuffer.copy k bytes).map (Prod.map id .inl)
    | .inr u => (userBuffer.copy u bytes).map (Prod.map id .inr)
  put d bytes := d.map (kernelBuffer.put · bytes) (userBuffer.put · bytes)
  room d n := d.elim (kernelBuffer.room · n) (userBuffer.room · n)
  copy_eq d bytes h := by
    cases d with
    | inl k => exact congrArg (Except.map (Prod.map id Sum.inl)) (kernelBuffer.copy_eq k bytes h)
    | inr u => exact congrArg (Except.map (Prod.map id Sum.inr)) (userBuffer.copy_eq u bytes h)
  put_nil d := by
    cases d with
    | inl k => exact congrArg Sum.inl (kernelBuffer.put_nil k)
    | inr u => exact congrArg Sum.inr (userBuffer.put_nil u)
  put_append d a b := by
    cases d with
    | inl k => exact congrArg Sum.inl (kernelBuffer.put_append k a b)
    | inr u => exact congrArg Sum.inr (userBuffer.put_append u a b)
  room_append d a n h := by
    cases d with
    | inl k => exact kernelBuffer.room_append k a n h
    | inr u => exact userBuffer.room_append u a n h

def Source.Mapped (n : Nat) : Source → Prop
  | .kernel bytes => n ≤ bytes.length
  | .user mem va => ∀ x, x < n → mem.userByte (va+x)

def Source.bytes (n : Nat) : Source → List UInt8
  | .kernel bytes => bytes.take n
  | .user mem va => mem.bytes va n

theorem Source.Mapped.enough {src : Source} {n : Nat} (h : src.Mapped n) : src.Enough n := by
  cases src with
  | kernel bytes => exact h
  | user mem va => trivial

theorem length_bytes {src : Source} {n : Nat} (h : src.Mapped n) : (src.bytes n).length = n := by
  cases src with
  | kernel bytes =>
    change (bytes.take n).length = n
    rw [List.length_take]
    exact Nat.min_eq_left h
  | user mem va =>
    change ((List.range n).map _).length = n
    rw [List.length_map, List.length_range]

theorem either_copyin_mapped {src : Source} {n tot m : Nat} (h : src.Mapped n) (hm : tot+m ≤ n) :
    src.either_copyin tot m = (0, ((src.bytes n).drop tot).take m) := by
  cases src with
  | kernel bytes =>
    change (0, (bytes.drop tot).take m) = (0, ((bytes.take n).drop tot).take m)
    rw [List.drop_take, List.take_take, Nat.min_eq_left (by omega)]
  | user mem va =>
    by_cases hz : m = 0
    · rw [hz, List.take_zero]
      rfl
    have hlt : (va+tot) % 2^64 = va+tot := by
      have h1 := (h tot (by omega)).1
      have h2 : MAXVA < 2^64 := by decide
      exact Nat.mod_eq_of_lt (by omega)
    change mem.copyin ((va+tot) % 2^64) m = _
    rw [hlt, copyin_mapped]
    · have hsplit : n = tot + (m + (n-tot-m)) := by omega
      change (0, mem.bytes (va+tot) m) = (0, ((mem.bytes va n).drop tot).take m)
      have hlen : (mem.bytes va tot).length = tot := by
        unfold UserMem.bytes
        rw [List.length_map, List.length_range]
      have hlen' : (mem.bytes (va+tot) m).length = m := by
        unfold UserMem.bytes
        rw [List.length_map, List.length_range]
      rw [hsplit, mem.bytes_add, List.drop_left' hlen, mem.bytes_add, List.take_left' hlen']
    · intro x hx
      rw [Nat.add_assoc]
      exact h (tot+x) (by omega)

theorem writeChunks_mapped {src : Source} {n : Nat} (h : src.Mapped n) (k : Nat) :
    ∀ tot off, tot ≤ n → n - tot ≤ k →
      writeChunks src n k tot off = ((src.bytes n).drop tot, off + (n-tot), n) := by
  have hlen := length_bytes h
  induction k with
  | zero =>
    intro tot off hle hk
    have hz : n - tot = 0 := by omega
    unfold writeChunks
    rw [List.drop_eq_nil_of_le (by omega), hz]
    rfl
  | succ k ih =>
    intro tot off hle hk
    unfold writeChunks
    by_cases hlt : tot < n
    · have hpos := block_rest_ne off
      rw [if_pos hlt]
      set m := min (n-tot) (BSIZE - off%BSIZE) with hm
      dsimp only
      rw [either_copyin_mapped h (show tot+m ≤ n by omega)]
      dsimp only
      rw [if_neg (by decide), ih _ _ (by omega) (by omega)]
      dsimp only
      rw [← List.drop_drop, List.take_append_drop]
      have hoff : off+m+(n-(tot+m)) = off+(n-tot) := by omega
      rw [hoff]
    · have hz : n - tot = 0 := by omega
      rw [if_neg hlt, List.drop_eq_nil_of_le (by omega), hz]
      rfl

theorem write_mapped {src : Source} {data : List UInt8} {off n : Nat} (h : src.Mapped n) :
    src.write data off n = if off ≤ data.length ∧ off+n ≤ MAXFILE*BSIZE
      then (n, splice data off (src.bytes n)) else (minusOne, data) := by
  by_cases hin : off ≤ data.length ∧ off+n ≤ MAXFILE*BSIZE
  · have hmax : MAXFILE*BSIZE < 2^32 := by decide
    have hmod : (off+n) % 2^32 = off+n := Nat.mod_eq_of_lt (by omega)
    have hlen : (splice data off (src.bytes n)).length = max data.length (off+n) := by
      rw [length_splice hin.1, length_bytes h]
    rw [if_pos hin, write_in (by rw [hmod]; omega), writeChunks_mapped h n 0 off (Nat.zero_le n)
      (Nat.sub_le n 0)]
    dsimp only
    rw [List.drop_zero, Nat.sub_zero, List.take_of_length_le hlen.le]
  · rw [if_neg hin]
    apply write_out
    omega

theorem writeChunks_readable {mem : UserMem} {va n : Nat} (k : Nat) :
    ∀ tot off, n - tot ≤ k → va+tot < 2^64 → (writeChunks (.user mem va) n k tot off).2.2 ≠ minusOne →
      ∀ x, tot ≤ x → x < n → mem.userByte (va+x) := by
  induction k with
  | zero =>
    intro tot off hk _ _ x h1 h2
    omega
  | succ k ih =>
    intro tot off hk hva hr x h1 h2
    have hpos : BSIZE - off%BSIZE ≠ 0 := by
      have hb : BSIZE = 1024 := rfl
      rw [hb]
      omega
    unfold writeChunks at hr
    rw [if_pos (show tot < n by omega)] at hr
    set m := min (n-tot) (BSIZE - off%BSIZE) with hm
    dsimp only at hr
    split_ifs at hr with hc
    · exact absurd rfl hr
    have hchunk : ∀ y, y < m → mem.userByte (va+tot+y) := by
      change (mem.copyin ((va+tot) % 2^64) m).1 ≠ -1 at hc
      rw [Nat.mod_eq_of_lt hva] at hc
      exact copyin_userByte hc
    by_cases hx : x < tot+m
    · have hy := hchunk (x-tot) (by omega)
      have heq : va+tot+(x-tot) = va+x := by omega
      rw [heq] at hy
      exact hy
    · have hlast := (hchunk (m-1) (by omega)).1
      have hmax : MAXVA < 2^64 := by decide
      exact ih (tot+m) (off+m) (by omega) (by omega) hr x (by omega) h2

/-- A write that does not fail is one of bytes that can all be read. -/
theorem write_succeeds {mem : UserMem} {va : Nat} {data : List UInt8} {off n : Nat} (hva : va < 2^64)
    (h : (Source.write (.user mem va) data off n).1 ≠ minusOne) :
    off ≤ data.length ∧ off+n ≤ MAXFILE*BSIZE ∧ va+n < 2^64 ∧
      Source.write (.user mem va) data off n = (n, splice data off (mem.bytes va n)) := by
  by_cases hout : data.length < off ∨ (off+n) % 2^32 < off ∨ MAXFILE*BSIZE < off+n
  · rw [write_out hout] at h
    exact absurd rfl h
  · have hin : off ≤ data.length ∧ off+n ≤ MAXFILE*BSIZE := by omega
    rw [write_in hout] at h
    have hmapped : Source.Mapped n (.user mem va) := by
      intro x hx
      exact writeChunks_readable n 0 off (Nat.sub_le n 0) hva h x (Nat.zero_le x) hx
    refine ⟨hin.1, hin.2, ?_, ?_⟩
    · by_cases hz : n = 0
      · rw [hz]
        exact hva
      · have hlast := (hmapped (n-1) (by omega)).1
        have hmax : MAXVA < 2^64 := by decide
        omega
    · rw [write_mapped hmapped, if_pos hin]
      rfl

end UserMemory

/-- The calls on the content of inodes, and the ends of transactions. -/
inductive FileOp (δ : Type)
  | read (ip : ISlot) (dst : δ) (off n : Nat)
  | write (ip : ISlot) (src : Source) (off n : Nat)
  | trunc (ip : ISlot)
  | begin_op
  | end_op

/-- What a call returns: the return value, and where `readi` put its bytes. -/
abbrev FileResult (δ : Type) := Nat × Option δ

section Arrays
variable {δ : Type} (B : Buffer δ)

def FileOp.run [FsLayout] : FileOp δ → Prog Fs (FileResult δ)
  | .read ip dst off n => do
    let r ← readi B.copy ip dst off n
    pure (r.1, some r.2)
  | .write ip src off n => do
    let r ← writei ip src off n
    pure (r, none)
  | .trunc ip => do
    itrunc ip
    pure (0, none)
  | .begin_op => do
    disk Xv6.begin_op
    pure (0, none)
  | .end_op => do
    disk Xv6.end_op
    pure (0, none)

/-- The same on arrays, one for each inode. -/
def FileOp.replay (cell : ISlot → Icell) (arr : Nat → List UInt8) :
    FileOp δ → FileResult δ × (Nat → List UInt8)
  | .read ip dst off n =>
    let data := arr (cell ip).inum
    let bytes := if off ≤ data.length ∧ off+n < 2^32 then (data.drop off).take n else []
    ((bytes.length, some (B.put dst bytes)), arr)
  | .write ip src off n =>
    let data := arr (cell ip).inum
    if off ≤ data.length ∧ off+n ≤ MAXFILE*BSIZE then
      ((n, none), update arr (cell ip).inum (splice data off (src.bytes n)))
    else
      ((minusOne, none), arr)
  | .trunc ip => ((0, none), update arr (cell ip).inum [])
  | .begin_op | .end_op => ((0, none), arr)

def runFileOps [FsLayout] : List (FileOp δ) → Prog Fs (List (FileResult δ))
  | [] => pure []
  | op :: ops => do
    let r ← op.run B
    let rs ← runFileOps ops
    pure (r :: rs)

def replayFileOps (cell : ISlot → Icell) :
    List (FileOp δ) → (Nat → List UInt8) → List (FileResult δ) × (Nat → List UInt8)
  | [], arr => ([], arr)
  | op :: ops, arr =>
    let r := op.replay B cell arr
    let q := replayFileOps cell ops r.2
    (r.1 :: q.1, q.2)

/-- The entry holds an inode, the numbers are `uint`s, and the memory is mapped. -/
def FileOp.Valid (cell : ISlot → Icell) : FileOp δ → Prop
  | .read ip dst off n => 0 < (cell ip).ref ∧ (cell ip).valid = true ∧ off < 2^32 ∧ n < 2^32 ∧
      B.room dst n
  | .write ip src _ n => 0 < (cell ip).ref ∧ (cell ip).valid = true ∧ src.Mapped n
  | .trunc ip => 0 < (cell ip).ref ∧ (cell ip).valid = true
  | .begin_op | .end_op => True

variable [FsLayout]

/-- A transaction runs, there are as many free blocks as the write has to get, and the
log has room for the blocks it writes, their indirect block and the inode. -/
def FileOp.Fits (s : Fs) : FileOp δ → Prop
  | .read .. => True
  | .write ip _ off n => 1 ≤ s.st.outstanding ∧ s.lacks (s.cell ip).inum off n ≤ s.st.free ∧
      s.logs (s.cell ip).inum off n < s.st.room
  | .trunc _ => 1 ≤ s.st.outstanding ∧ 0 < s.st.room
  | .begin_op | .end_op => True

def FitAll : List (FileOp δ) → Fs → Prop
  | [], _ => True
  | op :: ops, s => op.Fits s ∧ ∀ r s', op.run B s = .ok (r, s') → FitAll ops s'

def Arrays (s : Fs) (arr : Nat → List UInt8) : Prop :=
  ∀ i, (s.node i).type ≠ 0 → (s.node i).data = arr i

theorem arrays_update {s s' : Fs} {arr : Nat → List UInt8} (h : Arrays s arr) {i : Nat}
    {data : List UInt8} (hn : s'.node = update s.node i ((s.node i).withData data)) :
    Arrays s' (update arr i data) := by
  intro j hj
  rw [hn] at hj ⊢
  by_cases hji : j = i
  · rw [hji, update_self, update_self]
    rfl
  · rw [update_of_ne hji] at hj ⊢
    rw [update_of_ne hji]
    exact h j hj

variable {B}

theorem FileOp.run_spec {op : FileOp δ} {s : Fs} {arr : Nat → List UInt8} (h : FsOk s)
    (harr : Arrays s arr) (hv : op.Valid B s.cell) (hf : op.Fits s) :
    Runs (op.run B) s fun r s' => r = (op.replay B s.cell arr).1 ∧ FsOk s' ∧ s'.cell = s.cell ∧
      Arrays s' (op.replay B s.cell arr).2 := by
  have hat (ip : ISlot) (h1 : 0 < (s.cell ip).ref) (h2 : (s.cell ip).valid = true) :
      At s ip (s.cell ip).inum ∧ (s.node (s.cell ip).inum).data = arr (s.cell ip).inum := by
    have ha : At s ip (s.cell ip).inum := ⟨h1, h2, rfl⟩
    refine ⟨ha, harr _ ?_⟩
    have hty : (s.node (s.cell ip).inum).type = (s.st.dino (s.cell ip).inum).type := nodeOf_type
    rw [hty]
    exact (h.mem_at ha).2.1
  cases op with
  | read ip dst off n =>
    obtain ⟨href, hvalid, hoff, hn, hroom⟩ := hv
    obtain ⟨ha, hdata⟩ := hat ip href hvalid
    have hty := (h.mem_at ha).2.1
    have hcont : content s.st.dino s.st.data (s.cell ip).inum = arr (s.cell ip).inum := by
      rw [← hdata]
      exact (nodeOf_data hty).symm
    have hbytes : readData (arr (s.cell ip).inum) off n =
        if off ≤ (arr (s.cell ip).inum).length ∧ off+n < 2^32
          then ((arr (s.cell ip).inum).drop off).take n else [] := by
      unfold readData
      by_cases hin : off ≤ (arr (s.cell ip).inum).length ∧ off+n < 2^32
      · rw [if_pos hin, if_neg (by rw [Nat.mod_eq_of_lt hin.2]; omega)]
      · rw [if_neg hin, if_pos (by omega)]
    have hfit : B.room dst (readData (content s.st.dino s.st.data (s.cell ip).inum) off n).length := by
      have hle := length_readData (content s.st.dino s.st.data (s.cell ip).inum) off n
      refine (B.room_append dst _ (n - (readData (content s.st.dino s.st.data (s.cell ip).inum)
        off n).length) ?_).1
      rw [Nat.add_sub_cancel' hle]
      exact hroom
    unfold FileOp.run
    refine (readi_spec h ha hfit).bind ?_
    intro r s' ⟨hr, hq⟩
    rw [hcont, hbytes] at hr
    rw [runs_pure, hr]
    refine ⟨rfl, hq.ok h, hq.cell, ?_⟩
    intro i hi
    rw [hq.node] at hi ⊢
    exact harr i hi
  | write ip src off n =>
    obtain ⟨href, hvalid, hmapped⟩ := hv
    obtain ⟨hops, hlacks, hlogs⟩ := hf
    obtain ⟨ha, hdata⟩ := hat ip href hvalid
    have hspec : Ensures (writei ip src off n) s _ _ := writei_spec h ha hops hmapped.enough
    have hno : ∀ e, ¬ Short s.st (s.lacks (s.cell ip).inum off n) (s.logs (s.cell ip).inum off n) e := by
      intro e he
      rcases he with ⟨_, hc⟩ | ⟨_, hc⟩
      · omega
      · omega
    unfold FileOp.run
    refine (hspec.runs hno).bind ?_
    intro r s' ⟨hok, hcell, _, hr, hnode, _⟩
    rw [write_mapped hmapped, hdata] at hr hnode
    rw [runs_pure]
    unfold FileOp.replay
    dsimp only
    split_ifs at hr hnode ⊢ with hin
    · exact ⟨by rw [hr], hok, hcell, arrays_update harr hnode⟩
    · refine ⟨by rw [hr], hok, hcell, ?_⟩
      have := arrays_update harr hnode
      rw [update_eq_self] at this
      exact this
  | trunc ip =>
    obtain ⟨href, hvalid⟩ := hv
    obtain ⟨hops, hroom⟩ := hf
    obtain ⟨ha, _⟩ := hat ip href hvalid
    have hno : ∀ e, ¬ Short s.st 0 0 e := by
      intro e he
      rcases he with ⟨_, hc⟩ | ⟨_, hc⟩
      · omega
      · omega
    unfold FileOp.run
    refine ((itrunc_spec h ha hops).runs hno).bind ?_
    intro _ s' ⟨hok, hcell, _, hnode, _, _⟩
    rw [runs_pure]
    exact ⟨rfl, hok, hcell, arrays_update harr hnode⟩
  | begin_op =>
    obtain ⟨hok, hnode⟩ := h.setStore (h.log.setOps (s.st.outstanding + 1)) (fun _ _ => rfl)
    refine ⟨_, _, rfl, rfl, hok, rfl, ?_⟩
    intro i hi
    rw [hnode] at hi ⊢
    exact harr i hi
  | end_op =>
    unfold FileOp.run
    rw [runs_bind]
    refine runs_zoom.mpr ((end_op_quiet h.log).imp ?_)
    intro _ st ⟨hlog, _, hview⟩
    obtain ⟨hok, hnode⟩ := h.setStore hlog hview
    rw [runs_pure]
    refine ⟨rfl, hok, rfl, ?_⟩
    intro i hi
    rw [hnode] at hi ⊢
    exact harr i hi

/-- Every sequence of reads, writes and truncations of any inodes, grouped into
transactions in any way, runs as it does on arrays of bytes. -/
theorem content_refines (ops : List (FileOp δ)) : ∀ (s : Fs) (arr : Nat → List UInt8), FsOk s →
    Arrays s arr → (∀ op ∈ ops, op.Valid B s.cell) → FitAll B ops s →
    Runs (runFileOps B ops) s fun rs s' =>
      rs = (replayFileOps B s.cell ops arr).1 ∧ FsOk s' ∧
        Arrays s' (replayFileOps B s.cell ops arr).2 := by
  induction ops with
  | nil =>
    intro s arr h harr _ _
    exact (runs_pure _).mpr ⟨rfl, h, harr⟩
  | cons op ops ih =>
    intro s arr h harr hv hf
    obtain ⟨r, s1, hrun, hr, hok, hcell, harr1⟩ :=
      op.run_spec h harr (hv op List.mem_cons_self) hf.1
    have hrest := ih s1 _ hok harr1 (by
      rw [hcell]
      exact fun op' hop => hv op' (List.mem_cons_of_mem op hop)) (hf.2 r s1 hrun)
    unfold runFileOps
    rw [runs_bind]
    refine ⟨r, s1, hrun, ?_⟩
    dsimp only
    rw [runs_bind]
    refine hrest.imp ?_
    intro rs s2 ⟨hrs, hok2, harr2⟩
    rw [runs_pure, hrs, hr, hcell]
    rw [hcell] at harr2
    exact ⟨rfl, hok2, harr2⟩

end Arrays

section Image

/-- The inodes and blocks that `mkfs` writes for one empty file `f`: the root directory
in block 46, its inode 1, and inode 2. -/
def rootDinode : Dinode :=
  { Dinode.new T_DIR with nlink := 1, size := 1024, addrs := fun k => if k = 0 then 46 else 0 }

def emptyDinode : Dinode := { Dinode.new T_FILE with nlink := 1 }

def rootEntries : List UInt8 := dirent 1 [46] ++ dirent 1 [46, 46] ++ dirent 2 [102]

def mkfsDisk : Nat → Bytes
  | 32 => putDinode (putDinode (fun _ => 0) 1 rootDinode) 2 emptyDinode
  | 45 => fun j => if j < 5 then 255 else if j = 5 then 127 else 0
  | 46 => blit (fun _ => 0) 0 rootEntries
  | _ => fun _ => 0

theorem leGet_zero (k : Nat) : ∀ o, leGet k (fun _ => 0) o = 0 := by
  induction k with
  | zero => exact fun _ => rfl
  | succ k ih =>
    intro o
    unfold leGet
    rw [ih]
    rfl

theorem dinodeAt_zero (i : Nat) : dinodeAt (fun _ => 0) i = Dinode.new 0 := by
  unfold dinodeAt
  simp only [leGet_zero]
  rfl

variable {st : Store}

theorem mkfs_dino (h : st.view = mkfsDisk) : let _ := sampleFs
    st.dino = update (update (fun _ => Dinode.new 0) 1 rootDinode) 2
      emptyDinode := by
  intro _
  funext i
  unfold Store.dino
  rw [h]
  by_cases hi : i < sb.ninodes
  · rw [if_pos hi]
    change i < 200 at hi
    by_cases hlow : i < 16
    · have hblk : IBLOCK i = 32 := by
        change i/16 + 32 = 32
        omega
      rw [hblk]
      change dinodeAt (putDinode (putDinode (fun _ => 0) 1 rootDinode) 2 emptyDinode) i = _
      have hmod (j : Nat) (hj : j < 16) (hne : i ≠ j) : i % IPB ≠ j % IPB := by
        change i % 16 ≠ j % 16
        omega
      by_cases h2 : i = 2
      · rw [h2, dinodeAt_putDinode, update_self]
      · rw [dinodeAt_putDinode_of_ne _ (hmod 2 (by omega) h2), update_of_ne h2]
        by_cases h1 : i = 1
        · rw [h1, dinodeAt_putDinode, update_self]
        · rw [dinodeAt_putDinode_of_ne _ (hmod 1 (by omega) h1), update_of_ne h1,
            dinodeAt_zero]
    · have hblk : mkfsDisk (IBLOCK i) = fun _ => 0 := by
        have hib : 33 ≤ IBLOCK i ∧ IBLOCK i < 45 := by
          change 33 ≤ i/16 + 32 ∧ i/16 + 32 < 45
          omega
        unfold mkfsDisk
        split
        · omega
        · omega
        · omega
        · rfl
      rw [hblk, dinodeAt_zero, update_of_ne (by omega), update_of_ne (by omega)]
  · rw [if_neg hi]
    change ¬ i < 200 at hi
    rw [update_of_ne (by omega), update_of_ne (by omega)]

theorem mkfs_empty (h : st.view = mkfsDisk) {i : Nat} (h1 : i ≠ 1) : let _ := sampleFs
    (st.dino i).size.toNat = 0 ∧ ∀ k, (st.dino i).addrs k = 0 := by
  intro _
  rw [mkfs_dino h]
  by_cases h2 : i = 2
  · rw [h2, update_self]
    exact ⟨rfl, fun _ => rfl⟩
  · rw [update_of_ne h2, update_of_ne h1]
    exact ⟨rfl, fun _ => rfl⟩

theorem mkfs_used (h : st.view = mkfsDisk) : let _ := sampleFs
    st.used = update (fun b => decide (b < 46)) 46 true := by
  intro _
  have hbits : ∀ b, b < 1000 → bitOf (mkfsDisk 45) b = decide (b < 47) := by
    decide +kernel
  funext b
  unfold Store.used
  rw [h]
  by_cases hb : b < 1000
  · have hblk : BBLOCK b = 45 := by
      change b/8192 + 45 = 45
      omega
    have hmod : b % BPB = b := Nat.mod_eq_of_lt (by change b < 8192; omega)
    have hsize : b < sb.size := hb
    rw [decide_eq_true hsize, Bool.true_and, hblk, hmod, hbits b hb]
    by_cases h46 : b = 46
    · rw [h46, update_self]
      rfl
    · rw [update_of_ne h46]
      congr 1
      rw [eq_iff_iff]
      omega
  · have hsize : ¬ b < sb.size := hb
    rw [decide_eq_false hsize, Bool.false_and, update_of_ne (by omega)]
    exact (decide_eq_false (by omega)).symm

theorem mkfs_ok {s : Fs} : let _ := sampleFs
    s.st.view = mkfsDisk → s.st.start = 2 → s.st.size = 30 → s.st.lh = [] →
      CellsOk s.cell s.mem s.st.dino → FsOk s := by
  intro _ hview hstart hsize hlh hcells
  have hd := mkfs_dino hview
  have hu := mkfs_used hview
  have hds : sb.datastart = 46 := by decide
  have hroot : s.st.dino 1 = rootDinode := by
    rw [hd, update_of_ne (by decide), update_self]
  have hown : own s.st.dino s.st.data = update (fun _ => 0) (1, 0) 46 := by
    funext ⟨i, k⟩
    by_cases h1 : i = 1
    · subst h1
      have hty : (s.st.dino 1).type ≠ 0 := by
        rw [hroot]
        decide
      by_cases hk : k = 0
      · subst hk
        have haddr := own_addr s.st.data hty 0
        rw [hroot] at haddr
        rw [update_self]
        exact haddr
      · rw [update_of_ne (fun heq => hk (Prod.ext_iff.mp heq).2)]
        by_cases hlt : k < NDIRECT+1
        · have haddr := own_addr s.st.data hty ⟨k, hlt⟩
          have hne : (⟨k, hlt⟩ : Fin (NDIRECT+1)) ≠ 0 := fun heq => hk (congrArg Fin.val heq)
          rw [hroot] at haddr
          rw [haddr]
          change (if (⟨k, hlt⟩ : Fin (NDIRECT+1)) = 0 then (46 : BitVec 32) else 0).toNat = 0
          rw [if_neg hne]
          rfl
        · apply own_entry_none
          · rw [hroot]
            rfl
          · omega
    · rw [own_empty (mkfs_empty hview h1).2, update_of_ne (fun heq => h1 (Prod.ext_iff.mp heq).1)]
  have hempty : Owns (fun _ : Place => 0) (fun b => decide (b < 46)) DataBlock := by
    refine ⟨fun _ h => absurd rfl h, fun _ _ h => absurd rfl h, ?_⟩
    intro b hb
    have hge : 46 ≤ b := hds ▸ hb.1
    rw [decide_eq_false (by omega)]
    refine iff_of_false (by simp) ?_
    intro ⟨_, hz⟩
    omega
  have h46 : DataBlock 46 := by
    unfold DataBlock
    decide
  refine ⟨⟨⟨hstart, hsize, ?_, ?_, ?_⟩, ⟨?_, ?_, ?_⟩, hcells⟩, ?_⟩
  · rw [hlh]
    intro b hb
    cases hb
  · rw [hlh]
    exact List.nodup_nil
  · rw [hlh]
    exact Nat.zero_le _
  · intro b hb
    rw [hds] at hb
    rw [hu, update_of_ne (by omega)]
    exact decide_eq_true hb
  · rw [hown, hu]
    exact hempty.assign not_dataBlock_zero rfl h46 (by decide)
  · intro i hi
    change 200 ≤ i at hi
    rw [hd, update_of_ne (by omega), update_of_ne (by omega)]
    rfl
  · intro i hty
    by_cases h1 : i = 1
    · subst h1
      have hsz : (s.st.dino 1).size.toNat = 1024 := by
        rw [hroot]
        rfl
      refine ⟨by rw [hsz]; decide, ?_⟩
      intro bn hbn
      rw [hsz] at hbn
      have hz : bn = 0 := by
        change bn*1024 < 1024 at hbn
        omega
      rw [hz, hown]
      decide
    · have hsz := (mkfs_empty hview h1).1
      refine ⟨by rw [hsz]; exact Nat.zero_le _, ?_⟩
      intro bn hbn
      omega

def freshFs : Fs where
  st := { bootStore 2 30 mkfsDisk with outstanding := 1 }
  cell j := if j = 0 then ⟨2, 1, true, true⟩ else ⟨0, 0, false, false⟩
  mem j := if j = 0 then emptyDinode else Dinode.new 0
  sys := noFiles

theorem freshFs_ok : let _ := sampleFs
    FsOk freshFs ∧ At freshFs 0 2 ∧ freshFs.st.free = 953 ∧ freshFs.st.room = 28 := by
  intro _
  have hview : freshFs.st.view = mkfsDisk := rfl
  have hd := mkfs_dino hview
  have hused (j : ISlot) (hj : 0 < (freshFs.cell j).ref) : j = 0 := by
    by_contra hne
    change 0 < (if j = 0 then (⟨2, 1, true, true⟩ : Icell) else ⟨0, 0, false, false⟩).ref at hj
    rw [if_neg hne] at hj
    exact Nat.lt_irrefl 0 hj
  refine ⟨mkfs_ok hview rfl rfl rfl ⟨?_, ?_⟩, ⟨by decide, rfl, rfl⟩, ?_, ?_⟩
  · intro j k hj hk _
    rw [hused j hj, hused k hk]
  · intro j hj _
    rw [hused j hj, hd]
    exact ⟨by decide, rfl⟩
  · unfold Store.free
    rw [mkfs_used hview]
    decide +kernel
  · decide

theorem freshFs_arrays : let _ := sampleFs
    Arrays freshFs fun i => if i = 1 then (freshFs.node 1).data else [] := by
  intro _ i hi
  by_cases h1 : i = 1
  · rw [h1]
    rfl
  · dsimp only
    rw [if_neg h1]
    apply List.length_eq_zero_iff.mp
    unfold Fs.node
    rw [nodeOf_data (nodeOf_type ▸ hi), length_content]
    exact (mkfs_empty rfl h1).1

theorem content_refines_fresh : let _ := sampleFs
    Runs (runFileOps eitherBuffer [.write 0 (.kernel [7, 8]) 0 2, .end_op,
      .read 0 (.inl []) 1 5, .read 0 (.inr (onePage, 40)) 0 2]) freshFs
      fun rs _ => rs = [(2, none), (0, none), (1, some (.inl [8])),
        (2, some (.inr (onePage.put 40 [7, 8], 42)))] := by
  intro _
  obtain ⟨hok, _, hfree, hroom⟩ := freshFs_ok
  have hrun := content_refines (B := eitherBuffer) [.write 0 (.kernel [7, 8]) 0 2, .end_op,
    .read 0 (.inl []) 1 5, .read 0 (.inr (onePage, 40)) 0 2] freshFs _ hok freshFs_arrays ?_ ?_
  · refine hrun.imp ?_
    intro rs _ ⟨hrs, _⟩
    rw [hrs]
    rfl
  · simp only [List.forall_mem_cons]
    have hpage : ∀ x, x < 2 → onePage.userByte (40+x) := by decide
    exact ⟨⟨by decide, rfl, Nat.le_refl 2⟩, trivial, ⟨by decide, rfl, by decide, by decide, trivial⟩,
      ⟨by decide, rfl, by decide, by decide, hpage⟩, by simp⟩
  · have hcard : (touched 2 0 2).card ≤ 2 := card_touched 2 0 2
    have hlacks : freshFs.lacks 2 0 2 ≤ 2 := (Finset.card_filter_le _ _).trans hcard
    have hlogs : freshFs.logs 2 0 2 ≤ 2 := (Finset.card_filter_le _ _).trans hcard
    refine ⟨⟨Nat.le_refl 1, ?_, ?_⟩, fun _ _ _ => ⟨trivial, fun _ _ _ => ⟨trivial, fun _ _ _ =>
      ⟨trivial, fun _ _ _ => trivial⟩⟩⟩⟩
    · change freshFs.lacks 2 0 2 ≤ _
      omega
    · change freshFs.logs 2 0 2 < _
      omega

/-- A write of 31 blocks into the empty file stops the machine. -/
theorem writei_too_big : let _ := sampleFs
    FsOk freshFs ∧ At freshFs 0 2 ∧ freshFs.lacks 2 0 (31*BSIZE) ≤ freshFs.st.free ∧
      31*BSIZE ≤ MAXFILE*BSIZE ∧
      writei 0 (.kernel (List.replicate (31*BSIZE) 7)) 0 (31*BSIZE) freshFs =
        .error "too big a transaction" := by
  intro _
  obtain ⟨hok, hat, hfree, _⟩ := freshFs_ok
  have hlacks : freshFs.lacks 2 0 (31*BSIZE) ≤ freshFs.st.free := by
    have hcard : (touched 2 0 (31*BSIZE)).card ≤ 32 := card_touched 2 0 (31*BSIZE)
    have hle : freshFs.lacks 2 0 (31*BSIZE) ≤ 32 := (Finset.card_filter_le _ _).trans hcard
    omega
  refine ⟨hok, hat, hlacks, by decide, panics_of_panicsWith ?_⟩
  decide +kernel

end Image

end Xv6
