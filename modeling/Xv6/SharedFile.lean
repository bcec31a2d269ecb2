import Xv6.FsArrays

/-! Several processes that read and write one `struct file` of type `FD_INODE`. What
`filewrite` and `fileread` do between `ilock` and `iunlock` is one step; `begin_op` and
`end_op` are steps of their own, and other processes work on the rest of the file system
in between. -/
namespace Xv6

open Function
open scoped BigOperators

/-- `max` of `filewrite`: the bytes of one transaction. -/
def writeMax : Nat := ((MAXOPBLOCKS-1-1-2)/2)*BSIZE

/-- What one `filewrite` is called with. -/
structure WriteCall where
  mem : UserMem
  addr : Nat
  n : Int

def WriteCall.n1 (w : WriteCall) (i : Nat) : Nat := min (w.n.toNat - i) writeMax

def WriteCall.bytes (w : WriteCall) (i : Nat) : List UInt8 := w.mem.bytes w.addr i

/-- Where a process stands in `filewrite`: before `begin_op`, before `ilock`, and before
`end_op` with what `writei` has returned. -/
inductive SharePc
  | idle
  | loop (w : WriteCall) (i : Nat)
  | inOp (w : WriteCall) (i : Nat)
  | inEnd (w : WriteCall) (i r : Nat)

/-- What one process wrote or read at `off` while it held the lock. -/
inductive Round (ι : Type)
  | write (p : ι) (off : Nat) (bytes : List UInt8)
  | read (p : ι) (off r : Nat)

variable {ι : Type}

def Round.off : Round ι → Nat
  | .write _ off _ | .read _ off _ => off

def Round.count : Round ι → Nat
  | .write _ _ bytes => bytes.length
  | .read _ _ r => r

def Round.isWrite : Round ι → Prop
  | .write .. => True
  | .read .. => False

def Round.written : Round ι → List UInt8
  | .write _ _ bytes => bytes
  | .read .. => []

/-- `rounds` is the history in the order of the lock, `calls` has the buffers of the
writes of each process that have returned, and `failed` records that a call returned
or will return -1. -/
structure ShareState (ι : Type) where
  fs : Fs
  pc : ι → SharePc
  rounds : List (Round ι)
  calls : ι → List (List UInt8)
  failed : Bool

inductive ShareOp (ι : Type)
  | filewrite (p : ι) (w : WriteCall)
  | begin_op (p : ι)
  | write (p : ι)
  | end_op (p : ι)
  | ret (p : ι)
  | fileread (p : ι) (mem : UserMem) (addr n : Nat)
  | other (fs : Fs)

def onFs {α : Type} (x : Prog Fs α) : Prog (ShareState ι) α :=
  zoom ShareState.fs (fun t s => { s with fs := t }) x

/-- The transactions that a process has open. -/
def SharePc.ops : SharePc → Nat
  | .inOp .. | .inEnd .. => 1
  | _ => 0

def File.advance (x : File) (r : Nat) : File := { x with off := (x.off + r) % 2^32 }

def Fs.setFile (s : Fs) (f : Fin NFILE) (x : File) : Fs :=
  { s with sys := { s.sys with file := update s.sys.file f x } }

section Model
variable [FsLayout] (f : Fin NFILE)

/-- What `fileread` and `filewrite` do from `ilock` to `iunlock`: `x` reads or writes at the
offset, which then moves by the number that it returned. -/
def fileRound {α : Type} (ip : ISlot) (count : α → Nat) (x : Nat → Prog Fs α) : Prog Fs α := do
  ilock ip
  let s ← get
  let y ← x (s.sys.file f).off
  -- As an `int`, -1 is not greater than 0.
  if 0 < count y ∧ count y < 2^31 then
    modify fun s => s.setFile f ((s.sys.file f).advance (count y))
  iunlock ip
  pure y

/-- A round of `fileread`, with the memory and the address to copy to. -/
def readRound (ip : ISlot) (d : UserMem × Nat) (n : Nat) : Prog Fs (Nat × (UserMem × Nat)) :=
  fileRound f ip Prod.fst fun off => readi userCopy ip d off n

/-- A round of `filewrite`, for `n1` bytes at `va`. -/
def writeRound (ip : ISlot) (mem : UserMem) (va n1 : Nat) : Prog Fs Nat :=
  fileRound f ip id fun off => writei ip (.user mem va) off n1

/-- Others keep the file system whole, the fields of the file but its count, its inode in
use with its content, and the transactions of the processes that share the file. -/
structure Aside (ops : Nat) (s s' : Fs) : Prop where
  ok : FsOk s'
  file : ∃ ref, s'.sys.file f = { s.sys.file f with ref := ref }
  cell : 0 < (s'.cell (s.sys.file f).ip).ref ∧ (s'.cell (s.sys.file f).ip).valid = true ∧
    (s'.cell (s.sys.file f).ip).inum = (s.cell (s.sys.file f).ip).inum
  data : (s'.node (s.cell (s.sys.file f).ip).inum).data =
    (s.node (s.cell (s.sys.file f).ip).inum).data
  ops : ops ≤ s'.st.outstanding

variable [Fintype ι]

def ShareOp.enabled (s : ShareState ι) : ShareOp ι → Prop
  | .filewrite p w => s.pc p = .idle ∧ w.addr < 2^64
  | .begin_op p => ∃ w i, s.pc p = .loop w i ∧ i < w.n.toNat
  | .write p => ∃ w i, s.pc p = .inOp w i
  | .end_op p => ∃ w i r, s.pc p = .inEnd w i r
  | .ret p => ∃ w i, s.pc p = .loop w i ∧ ¬ i < w.n.toNat
  | .fileread p _ _ _ => s.pc p = .idle
  | .other fs => Aside f (total SharePc.ops s.pc) s.fs fs

variable [DecidableEq ι]

def ShareState.goto (s : ShareState ι) (p : ι) (x : SharePc) : ShareState ι :=
  { s with pc := update s.pc p x }

def ShareState.record (s : ShareState ι) (r : Round ι) : ShareState ι :=
  { s with rounds := s.rounds ++ [r] }

def ShareOp.run : ShareOp ι → Prog (ShareState ι) Unit
  | .filewrite p w => do
    let s ← get
    if (s.fs.sys.file f).writable = false then
      set { s with failed := true }
    else
      set (s.goto p (.loop w 0))
  | .begin_op p => do
    let s ← get
    match s.pc p with
    | .loop w i =>
      onFs (disk Xv6.begin_op)
      modify fun s => s.goto p (.inOp w i)
    | _ => pure ()
  | .write p => do
    let s ← get
    match s.pc p with
    | .inOp w i =>
      let x := s.fs.sys.file f
      let r ← onFs (writeRound f x.ip w.mem (w.addr+i) (w.n1 i))
      if 2^31 ≤ r then
        modify fun s => { s.goto p (.inEnd w i r) with failed := true }
      else
        modify fun s => (s.goto p (.inEnd w i r)).record
          (.write p x.off (w.mem.bytes (w.addr+i) (w.n1 i)))
    | _ => pure ()
  | .end_op p => do
    let s ← get
    match s.pc p with
    | .inEnd w i r =>
      onFs (disk Xv6.end_op)
      if 2^31 ≤ r then
        modify fun s => s.goto p .idle
      else
        panicIf (r ≠ w.n1 i) "short filewrite"
        modify fun s => s.goto p (.loop w (i+r))
    | _ => pure ()
  | .ret p => do
    let s ← get
    match s.pc p with
    | .loop w i =>
      if (i : Int) = w.n then
        set { s.goto p .idle with
          calls := update s.calls p (s.calls p ++ [w.bytes i]) }
      else
        set { s.goto p .idle with failed := true }
    | _ => pure ()
  | .fileread p mem addr n => do
    let s ← get
    let x := s.fs.sys.file f
    if x.readable = false then
      set { s with failed := true }
    else
      let (r, _) ← onFs (readRound f x.ip (mem, addr) n)
      if 2^31 ≤ r then
        modify fun s => { s with failed := true }
      else
        modify fun s => s.record (.read p x.off r)
  | .other fs => modify fun s => { s with fs := fs }

/-- The file is open on an inode that is in use, and no one is in a call. -/
structure ShareInit (fs : Fs) (s : ShareState ι) : Prop where
  start : s.fs = fs
  ok : FsOk fs
  type : (fs.sys.file f).type = .FD_INODE
  cell : 0 < (fs.cell (fs.sys.file f).ip).ref ∧ (fs.cell (fs.sys.file f).ip).valid = true
  pc : s.pc = fun _ => .idle
  rounds : s.rounds = []
  calls : s.calls = fun _ => []
  failed : s.failed = false

/-- The states that the processes reach when they share file `f` of `fs`. -/
def Shares (fs : Fs) : ShareState ι → Prop :=
  Reaches (ShareInit f fs) (ShareOp.enabled f) (ShareOp.run f)

end Model

section Rounds
variable [FsLayout] {f : Fin NFILE} {s s' : Fs} {ip : ISlot}

/-- A round that returned `r` has moved the offset; the inode then holds `data`. -/
structure RoundDone (f : Fin NFILE) (s s' : Fs) (r : Nat) (data : List UInt8) : Prop where
  ok : FsOk s'
  file : s'.sys.file f = { s.sys.file f with off := (s.sys.file f).off + r }
  cell : 0 < (s'.cell (s.sys.file f).ip).ref ∧ (s'.cell (s.sys.file f).ip).valid = true ∧
    (s'.cell (s.sys.file f).ip).inum = (s.cell (s.sys.file f).ip).inum
  data : (s'.node (s.cell (s.sys.file f).ip).inum).data = data
  ops : s'.st.outstanding = s.st.outstanding

def FileHeld (f : Fin NFILE) (s : Fs) : Prop :=
  0 < (s.cell (s.sys.file f).ip).ref ∧ (s.cell (s.sys.file f).ip).valid = true

def fileInum (f : Fin NFILE) (s : Fs) : Nat := (s.cell (s.sys.file f).ip).inum

def fileData (f : Fin NFILE) (s : Fs) : List UInt8 :=
  (s.node (s.cell (s.sys.file f).ip).inum).data

omit [FsLayout] in
theorem setFile_file (x : File) : (s.setFile f x).sys.file f = x := update_self ..

theorem FsOk.setFile (h : FsOk s) (x : File) : FsOk (s.setFile f x) :=
  ⟨⟨h.log, h.blocks, h.cells⟩, h.filled⟩

theorem FsOk.setLocked (h : FsOk s) (ip : ISlot) (locked : Bool) :
    FsOk { s with cell := update s.cell ip { s.cell ip with locked := locked } } :=
  ⟨⟨h.log, h.blocks, h.cells.recount (fun hr => hr) rfl id⟩, h.filled⟩

theorem fileData_eq (h : FsOk s) (hh : FileHeld f s) : fileData f s =
    content s.st.dino s.st.data (s.cell (s.sys.file f).ip).inum :=
  nodeOf_data (h.mem_at ⟨hh.1, hh.2, rfl⟩).2.1

/-- The bytes of the file that a read of `n` bytes gets. -/
def fileBytes (f : Fin NFILE) (s : Fs) (n : Nat) : List UInt8 :=
  readData (fileData f s) (s.sys.file f).off n

theorem fileBytes_end {n : Nat} (h : FsOk s) (hh : FileHeld f s) (hpos : 0 < (fileBytes f s n).length) :
    (s.sys.file f).off + (fileBytes f s n).length ≤ MAXFILE*BSIZE := by
  refine (readData_end hpos).trans ?_
  rw [fileData_eq h hh, length_content]
  exact (h.filled _ (h.mem_at ⟨hh.1, hh.2, rfl⟩).2.1).size

/-- `s` with the entry `ip` locked. -/
def Fs.locking (s : Fs) (ip : ISlot) : Fs :=
  { s with cell := update s.cell ip { s.cell ip with locked := true } }

/-- A round does what `x` does under the lock, and the offset moves by what `x` returned,
unless it failed. -/
theorem fileRound_spec {α : Type} {count : α → Nat} {x : Nat → Prog Fs α} {P : String → Prop}
    {R : α → List UInt8 → Prop} (h : FsOk s) (hh : FileHeld f s)
    (hx : FsOk (s.locking (s.sys.file f).ip) → At (s.locking (s.sys.file f).ip) (s.sys.file f).ip (fileInum f s) →
      Ensures (x (s.sys.file f).off) (s.locking (s.sys.file f).ip) P fun y s' =>
        FsOk s' ∧ s'.cell = (s.locking (s.sys.file f).ip).cell ∧ s'.sys = s.sys ∧
          s'.st.outstanding = s.st.outstanding ∧ R y (s'.node (fileInum f s)).data)
    (hbound : ∀ y data, R y data → 0 < count y → count y < 2^31 →
      (s.sys.file f).off + count y ≤ MAXFILE*BSIZE) :
    Ensures (fileRound f (s.sys.file f).ip count x) s
      (fun e => (s.cell (s.sys.file f).ip).locked = true ∨ P e) fun y s' =>
        ∃ data, R y data ∧ RoundDone f s s' (if count y < 2^31 then count y else 0) data := by
  obtain ⟨href, hvalid⟩ := hh
  unfold fileInum at hx
  set ip := (s.sys.file f).ip with hip
  have hcell1 : (s.locking ip).cell ip = { s.cell ip with locked := true } := update_self ..
  have hat : At (s.locking ip) ip (s.cell ip).inum := by
    refine ⟨?_, ?_, ?_⟩ <;> rw [hcell1]
    · exact href
    · exact hvalid
  unfold fileRound ilock setCell
  apply ensures_bind
  apply ensures_get
  apply ensures_panicIf (fun hc => absurd href (by omega))
  intro _
  apply ensures_panicIf Or.inl
  intro _
  rw [if_pos hvalid]
  refine (runs_modify.mpr ?_).ensures
  apply ensures_get
  apply ensures_bind
  refine (hx (h.setLocked ip true) hat).imp (fun _ he => Or.inr he) ?_
  intro y s2 ⟨hok2, hcell2, hsys2, hops2, hr⟩
  -- What is left is the same with and without a new offset.
  have hdone (v : File) (hv : v = { s.sys.file f with
      off := (s.sys.file f).off + if count y < 2^31 then count y else 0 }) :
      Runs (do iunlock ip; pure y) (s2.setFile f v) fun y s' =>
        ∃ data, R y data ∧ RoundDone f s s' (if count y < 2^31 then count y else 0) data := by
    have hcell3 : (s2.setFile f v).cell ip = { s.cell ip with locked := true } := by
      rw [← hcell1]
      exact congrFun hcell2 ip
    unfold iunlock setCell
    simp only [runs_bind, runs_get, runs_panicIf, runs_modify, runs_pure]
    refine ⟨by rw [hcell3]; simp; omega, _, hr, (hok2.setFile v).setLocked ip false,
      (setFile_file v).trans hv, ?_, rfl, hops2⟩
    dsimp only
    rw [← hip, update_self, hcell3]
    exact ⟨href, hvalid, rfl⟩
  split_ifs with hpos
  · -- The offset stays below the largest size of a file.
    have hend := hbound y _ hr hpos.1 hpos.2
    have hmax : MAXFILE*BSIZE < 2^32 := by decide
    apply ensures_modify
    refine (hdone _ ?_).ensures
    unfold File.advance
    rw [hsys2, if_pos hpos.2, Nat.mod_eq_of_lt (by omega)]
  · have hzero : (if count y < 2^31 then count y else 0) = 0 := by
      split_ifs with hlt
      · omega
      · rfl
    have hsame : s2 = s2.setFile f (s2.sys.file f) := by
      unfold Fs.setFile
      rw [update_eq_self]
    rw [hsame]
    refine (hdone _ ?_).ensures
    rw [hsys2, hzero]
    rfl

/-- A round of `fileread` copies the bytes and moves the offset by their number, or a copy
fails; it panics where the inode is locked or a copy does. -/
theorem readRound_spec {d : UserMem × Nat} {n : Nat} (h : FsOk s) (hh : FileHeld f s) :
    Ensures (readRound f (s.sys.file f).ip d n) s
      (fun e => (s.cell (s.sys.file f).ip).locked = true ∨ CopyPanics userCopy d (fileBytes f s n) e)
      fun x s' => ∃ all, Pieces userCopy d (fileBytes f s n) all x.2 ∧
        x.1 = (if all then (fileBytes f s n).length else minusOne) ∧
        RoundDone f s s' (if all then (fileBytes f s n).length else 0) (fileData f s) := by
  have hend := fileBytes_end (n := n) h hh
  have hround : Ensures (readRound f (s.sys.file f).ip d n) s
      (fun e => (s.cell (s.sys.file f).ip).locked = true ∨ CopyPanics userCopy d (fileBytes f s n) e)
      fun x s' => ∃ data, ((∃ all, Pieces userCopy d (fileBytes f s n) all x.2 ∧
        x.1 = if all then (fileBytes f s n).length else minusOne) ∧ data = fileData f s) ∧
        RoundDone f s s' (if x.1 < 2^31 then x.1 else 0) data := by
    refine fileRound_spec h hh ?_ ?_
    · intro hok hat
      unfold fileBytes
      rw [fileData_eq h hh]
      refine (readi_copies hok.toInodesOk (hok.filled _ (hok.mem_at hat).2.1) hat).imp
        (fun _ he => he) ?_
      intro x s' ⟨hx, hq⟩
      refine ⟨hq.ok hok, hq.cell, hq.sys, hq.quiet.spent.outstanding, hx, ?_⟩
      rw [hq.node, ← fileData_eq h hh]
      rfl
    · intro x data ⟨⟨all, _, hx⟩, _⟩ hpos hlt
      cases all with
      | true =>
        rw [if_pos rfl] at hx
        rw [hx] at hpos ⊢
        exact hend hpos
      | false =>
        rw [hx] at hlt
        exact absurd hlt (by decide : ¬ minusOne < 2^31)
  refine hround.imp (fun _ he => he) ?_
  intro x s' ⟨data, ⟨⟨all, hpieces, hx⟩, hdata⟩, hd⟩
  refine ⟨all, hpieces, hx, ?_⟩
  rw [hdata, hx] at hd
  cases all with
  | false => exact hd
  | true =>
    have hmax : MAXFILE*BSIZE < 2^31 := by decide
    have hlt : (fileBytes f s n).length < 2^31 := by
      by_cases hz : 0 < (fileBytes f s n).length
      · have := hend hz
        omega
      · omega
    rw [if_pos rfl, if_pos hlt] at hd
    exact hd

/-- A round of `filewrite` fails, or it has written all bytes at the offset. -/
theorem writeRound_spec {mem : UserMem} {va n : Nat} (h : FsOk s) (hh : FileHeld f s)
    (hops : 1 ≤ s.st.outstanding) (hva : va < 2^64) :
    Ends (writeRound f (s.sys.file f).ip mem va n) s fun r s' =>
      2^31 ≤ r ∨ r = n ∧ va+n < 2^64 ∧ (s.sys.file f).off ≤ (fileData f s).length ∧
        RoundDone f s s' n (splice (fileData f s) (s.sys.file f).off (mem.bytes va n)) := by
  set w := Source.write (.user mem va) (fileData f s) (s.sys.file f).off n with hw
  have hgood (hlt : w.1 < 2^31) := write_succeeds (n := n) hva (fun hm => absurd (hm ▸ hlt) (by decide))
  have hround : Ensures (writeRound f (s.sys.file f).ip mem va n) s (fun _ => True) fun r s' =>
      ∃ data, (r = w.1 ∧ data = w.2) ∧ RoundDone f s s' (if r < 2^31 then r else 0) data := by
    refine (fileRound_spec (P := fun _ => True) h hh ?_ ?_).imp (fun _ _ => trivial) fun _ _ hq => hq
    · intro hok hat
      have hsrc : (Source.user mem va).Enough n := trivial
      refine (writei_spec hok hat hops hsrc).imp (fun _ _ => trivial) ?_
      intro r s' ⟨hok', hcell, hsys, hr, hnode, hsp⟩
      refine ⟨hok', hcell, hsys, hsp.outstanding, hr, ?_⟩
      rw [hnode, update_self]
      rfl
    · intro r data ⟨hr, _⟩ hpos hlt
      obtain ⟨_, hmax, _, hw'⟩ := hgood (hr ▸ hlt)
      rw [← hw] at hw'
      rw [hr, hw']
      exact hmax
  refine hround.1.imp ?_
  intro r s' ⟨data, ⟨hr, hdata⟩, hd⟩
  by_cases hbig : 2^31 ≤ r
  · exact Or.inl hbig
  · obtain ⟨hoff, _, hend, hw'⟩ := hgood (hr ▸ Nat.lt_of_not_le hbig)
    rw [← hw] at hw'
    rw [if_pos (Nat.lt_of_not_le hbig), hdata, hr, hw'] at hd
    exact Or.inr ⟨hr.trans (congrArg Prod.fst hw'), hend, hoff, hd⟩

end Rounds

section History

def countAll (rs : List (Round ι)) : Nat := (rs.map Round.count).sum

theorem countAll_append (rs : List (Round ι)) (r : Round ι) :
    countAll (rs ++ [r]) = countAll rs + r.count := by
  unfold countAll
  rw [List.map_append, List.sum_append]
  rfl

/-- The first round begins at `off`, and each round where the one before it has ended. -/
def Contiguous : Nat → List (Round ι) → Prop
  | _, [] => True
  | off, r :: rs => r.off = off ∧ Contiguous (off + r.count) rs

def chunks (rs : List (Round ι)) : List UInt8 := rs.flatMap Round.written

def Round.writtenBy [DecidableEq ι] (p : ι) : Round ι → List UInt8
  | .write q _ bytes => if q = p then bytes else []
  | .read .. => []

def chunksOf [DecidableEq ι] (p : ι) (rs : List (Round ι)) : List UInt8 :=
  rs.flatMap (Round.writtenBy p)

variable {off : Nat} {rs : List (Round ι)} {r : Round ι}

theorem Contiguous.append (h : Contiguous off rs) (hr : r.off = off + countAll rs) :
    Contiguous off (rs ++ [r]) := by
  induction rs generalizing off with
  | nil => exact ⟨hr, trivial⟩
  | cons x rs ih =>
    have hsum : countAll (x :: rs) = x.count + countAll rs := List.sum_cons
    rw [hsum, ← Nat.add_assoc] at hr
    exact ⟨h.1, ih h.2 hr⟩

theorem Contiguous.le_off (h : Contiguous off rs) : ∀ x ∈ rs, off ≤ x.off := by
  induction rs generalizing off with
  | nil =>
    intro x hx
    cases hx
  | cons y rs ih =>
    intro x hx
    rcases List.mem_cons.mp hx with rfl | hx
    · exact h.1.ge
    · exact (Nat.le_add_right _ _).trans (ih h.2 x hx)

theorem Contiguous.pairwise (h : Contiguous off rs) :
    rs.Pairwise fun x y => x.off + x.count ≤ y.off := by
  induction rs generalizing off with
  | nil => exact List.Pairwise.nil
  | cons x rs ih =>
    refine List.Pairwise.cons ?_ (ih h.2)
    rw [h.1]
    exact h.2.le_off

theorem length_chunks (h : ∀ x ∈ rs, x.isWrite) : (chunks rs).length = countAll rs := by
  induction rs with
  | nil => rfl
  | cons x rs ih =>
    have hx := h x List.mem_cons_self
    have hsum : countAll (x :: rs) = x.count + countAll rs := List.sum_cons
    rw [hsum, ← ih fun y hy => h y (List.mem_cons_of_mem x hy)]
    cases x with
    | write p o bytes => exact List.length_append
    | read p o n => exact hx.elim

theorem chunks_append : chunks (rs ++ [r]) = chunks rs ++ r.written := by
  unfold chunks
  rw [List.flatMap_append, List.flatMap_singleton]

theorem chunksOf_append [DecidableEq ι] (p : ι) :
    chunksOf p (rs ++ [r]) = chunksOf p rs ++ r.writtenBy p := by
  unfold chunksOf
  rw [List.flatMap_append, List.flatMap_singleton]

end History

section Invariant
variable [FsLayout] [Fintype ι] {f : Fin NFILE} {fs0 : Fs} {s s' : ShareState ι} {p : ι}

def SharePc.part : SharePc → List UInt8
  | .idle => []
  | .loop w i | .inOp w i => w.bytes i
  | .inEnd w i r => w.bytes (i+r)

/-- The counters of a process in `filewrite`. -/
def SharePc.Ok : SharePc → Prop
  | .idle => True
  | .loop w i => w.addr+i < 2^64 ∧ i ≤ w.n.toNat
  | .inOp w i => w.addr+i < 2^64 ∧ i < w.n.toNat
  | .inEnd w i r => w.addr+i+r < 2^64 ∧ i < w.n.toNat ∧ r = w.n1 i

/-- The invariant of runs in which no call failed. -/
structure ShareInv [DecidableEq ι] (f : Fin NFILE) (fs0 : Fs) (s : ShareState ι) : Prop where
  ok : FsOk s.fs
  held : FileHeld f s.fs
  inum : fileInum f s.fs = fileInum f fs0
  ops : total SharePc.ops s.pc ≤ s.fs.st.outstanding
  off : (s.fs.sys.file f).off = (fs0.sys.file f).off + countAll s.rounds
  contiguous : Contiguous (fs0.sys.file f).off s.rounds
  kept : ∀ q o bytes, Round.write q o bytes ∈ s.rounds →
    ((fileData f s.fs).drop o).take bytes.length = bytes
  only : (∀ x ∈ s.rounds, x.isWrite) → (s.rounds ≠ [] → (fs0.sys.file f).off ≤ (fileData f fs0).length) ∧
    fileData f s.fs = splice (fileData f fs0) (fs0.sys.file f).off (chunks s.rounds)
  order : ∀ q, chunksOf q s.rounds = (s.calls q).flatten ++ (s.pc q).part
  pcs : ∀ q, (s.pc q).Ok

/-- The file stays with its inode. -/
theorem held_of_cell {fs fs' : Fs} (hip : (fs'.sys.file f).ip = (fs.sys.file f).ip)
    (hcell : 0 < (fs'.cell (fs.sys.file f).ip).ref ∧ (fs'.cell (fs.sys.file f).ip).valid = true ∧
      (fs'.cell (fs.sys.file f).ip).inum = fileInum f fs) :
    FileHeld f fs' ∧ fileInum f fs' = fileInum f fs ∧
      fileData f fs' = (fs'.node (fileInum f fs)).data := by
  unfold FileHeld fileInum fileData
  rw [hip]
  exact ⟨⟨hcell.1, hcell.2.1⟩, hcell.2.2, by rw [hcell.2.2]; rfl⟩

theorem Aside.facts {n : Nat} {fs fs' : Fs} (h : Aside f n fs fs') :
    FileHeld f fs' ∧ fileInum f fs' = fileInum f fs ∧ fileData f fs' = fileData f fs ∧
      (fs'.sys.file f).off = (fs.sys.file f).off := by
  obtain ⟨ref, hf⟩ := h.file
  obtain ⟨hheld, hinum, hdata⟩ := held_of_cell (by rw [hf]) h.cell
  exact ⟨hheld, hinum, hdata.trans h.data, by rw [hf]⟩

theorem RoundDone.facts {n : Nat} {data : List UInt8} {fs fs' : Fs} (h : RoundDone f fs fs' n data) :
    FileHeld f fs' ∧ fileInum f fs' = fileInum f fs ∧ fileData f fs' = data ∧
      (fs'.sys.file f).off = (fs.sys.file f).off + n := by
  obtain ⟨hheld, hinum, hdata⟩ := held_of_cell (by rw [h.file]) h.cell
  exact ⟨hheld, hinum, hdata.trans h.data, by rw [h.file]⟩

variable [DecidableEq ι]

theorem ShareInv.aside (h : ShareInv f fs0 s) (hrounds : s'.rounds = s.rounds)
    (ha : Aside f (total SharePc.ops s'.pc) s.fs s'.fs)
    (hpart : ∀ q, (s'.calls q).flatten ++ (s'.pc q).part = (s.calls q).flatten ++ (s.pc q).part)
    (hpcs : ∀ q, (s'.pc q).Ok) : ShareInv f fs0 s' := by
  obtain ⟨hheld, hinum, hdata, hoff⟩ := ha.facts
  refine ⟨ha.ok, hheld, hinum.trans h.inum, ha.ops, ?_, ?_, ?_, ?_, ?_, hpcs⟩
  · rw [hoff, hrounds]
    exact h.off
  · rw [hrounds]
    exact h.contiguous
  · rw [hdata, hrounds]
    exact h.kept
  · rw [hdata, hrounds]
    exact h.only
  · intro q
    rw [hpart, hrounds]
    exact h.order q

theorem ShareInv.write (h : ShareInv f fs0 s) {w : WriteCall} {i : Nat} {fs' : Fs}
    (hpc : s.pc p = .inOp w i) (hva : w.addr+i+w.n1 i < 2^64)
    (hoff : (s.fs.sys.file f).off ≤ (fileData f s.fs).length)
    (hd : RoundDone f s.fs fs' (w.n1 i) (splice (fileData f s.fs) (s.fs.sys.file f).off
      (w.mem.bytes (w.addr+i) (w.n1 i)))) :
    ShareInv f fs0 (({ s with fs := fs' }.goto p (.inEnd w i (w.n1 i))).record
      (.write p (s.fs.sys.file f).off (w.mem.bytes (w.addr+i) (w.n1 i)))) := by
  obtain ⟨hheld, hinum, hdata, hoff'⟩ := hd.facts
  have hcount : (w.mem.bytes (w.addr+i) (w.n1 i)).length = w.n1 i := by
    unfold UserMem.bytes
    rw [List.length_map, List.length_range]
  have hpos := h.pcs p
  rw [hpc] at hpos
  set bytes := w.mem.bytes (w.addr+i) (w.n1 i) with hbytes
  set off := (s.fs.sys.file f).off with hoffdef
  refine ⟨hd.ok, hheld, hinum.trans h.inum, ?_, ?_, ?_, ?_, ?_, ?_, ?_⟩
  · change total SharePc.ops (update s.pc p _) ≤ fs'.st.outstanding
    rw [total_update_same SharePc.ops s.pc (by rw [hpc]; rfl), hd.ops]
    exact h.ops
  · change (fs'.sys.file f).off = _ + countAll (s.rounds ++ [_])
    rw [hoff', countAll_append, ← Nat.add_assoc, ← h.off]
    change _ = _ + bytes.length
    rw [hcount]
  · exact h.contiguous.append h.off
  · intro q o bs hmem
    change ((fileData f fs').drop o).take bs.length = bs
    rw [hdata]
    rcases List.mem_append.mp hmem with hold | hnew
    · -- An earlier round ended at or before the offset.
      have hbefore : o + bs.length ≤ off := by
        have hpair := (h.contiguous.append (r := .write p off bytes) h.off).pairwise
        exact (List.pairwise_append.mp hpair).2.2 _ hold _ (List.mem_singleton_self _)
      have hkept := h.kept q o bs hold
      have hwin (l : List UInt8) : (l.drop o).take bs.length = ((l.take off).drop o).take bs.length := by
        rw [List.drop_take, List.take_take, Nat.min_eq_left (by omega)]
      rw [hwin, take_splice hoff, ← hwin]
      exact hkept
    · cases List.mem_singleton.mp hnew
      exact drop_splice hoff
  · intro hall
    change ∀ x ∈ s.rounds ++ [_], _ at hall
    have hold : ∀ x ∈ s.rounds, x.isWrite := fun x hx => hall x (List.mem_append_left _ hx)
    obtain ⟨hstart, hsplice⟩ := h.only hold
    have hstart' : (fs0.sys.file f).off ≤ (fileData f fs0).length := by
      by_cases hnil : s.rounds = []
      · have h0 : off = (fs0.sys.file f).off := by
          rw [hoffdef, h.off, hnil]
          rfl
        rw [hnil] at hsplice
        change _ = splice _ _ [] at hsplice
        rw [hsplice, splice_nil, h0] at hoff
        exact hoff
      · exact hstart hnil
    refine ⟨fun _ => hstart', ?_⟩
    change fileData f fs' = splice _ _ (chunks (s.rounds ++ [_]))
    rw [hdata, hsplice, chunks_append, ← splice_splice hstart', length_chunks hold]
    congr 1
    exact h.off
  · intro q
    change chunksOf q (s.rounds ++ [_]) = (s.calls q).flatten ++ (update s.pc p _ q).part
    rw [chunksOf_append, h.order q]
    by_cases hq : q = p
    · subst hq
      rw [update_self, hpc]
      change _ ++ w.bytes i ++ (if q = q then bytes else []) = _ ++ w.mem.bytes w.addr (i + w.n1 i)
      rw [if_pos rfl, w.mem.bytes_add, List.append_assoc]
      rfl
    · rw [update_of_ne hq]
      change _ ++ (if p = q then bytes else []) = _
      rw [if_neg (fun h => hq h.symm), List.append_nil]
  · exact (forall_update_iff s.pc fun _ x => x.Ok).mpr ⟨⟨hva, hpos.2, rfl⟩, fun q _ => h.pcs q⟩

theorem ShareInv.read (h : ShareInv f fs0 s) {fs' : Fs} {r : Nat}
    (hd : RoundDone f s.fs fs' r (fileData f s.fs)) :
    ShareInv f fs0 ({ s with fs := fs' }.record (.read p (s.fs.sys.file f).off r)) := by
  obtain ⟨hheld, hinum, hdata, hoff⟩ := hd.facts
  refine ⟨hd.ok, hheld, hinum.trans h.inum, hd.ops ▸ h.ops, ?_, h.contiguous.append h.off, ?_, ?_,
    ?_, h.pcs⟩
  · change (fs'.sys.file f).off = _ + countAll (s.rounds ++ [_])
    rw [hoff, countAll_append, ← Nat.add_assoc, ← h.off]
    rfl
  · intro q o bs hmem
    change ((fileData f fs').drop o).take bs.length = bs
    rw [hdata]
    rcases List.mem_append.mp hmem with hold | hnew
    · exact h.kept q o bs hold
    · cases List.mem_singleton.mp hnew
  · intro hall
    exact (hall _ (List.mem_append_right _ (List.mem_singleton_self _))).elim
  · intro q
    change chunksOf q (s.rounds ++ [_]) = _
    rw [chunksOf_append, h.order q]
    exact List.append_nil _

omit [FsLayout] [Fintype ι] [DecidableEq ι] in
theorem onFs_ends {α : Type} {x : Prog Fs α} {Q : α → Fs → Prop} {R : α → ShareState ι → Prop}
    (hx : Ends x s.fs Q) (hq : ∀ r fs', Q r fs' → R r { s with fs := fs' }) : Ends (onFs x) s R :=
  ends_zoom (hx.imp hq)

/-- A call has failed, or the invariant holds. -/
def ShareGood (f : Fin NFILE) (fs0 : Fs) (s : ShareState ι) : Prop :=
  s.failed = true ∨ ShareInv f fs0 s

theorem aside_refl {fs : Fs} {n : Nat} (hok : FsOk fs) (hheld : FileHeld f fs)
    (hn : n ≤ fs.st.outstanding) : Aside f n fs fs :=
  ⟨hok, ⟨_, rfl⟩, ⟨hheld.1, hheld.2, rfl⟩, rfl, hn⟩

theorem aside_store {fs : Fs} {st : Store} {n : Nat} (hok : FsOk fs) (hheld : FileHeld f fs)
    (hlog : LogOk st) (hview : ∀ b, sb.inodestart ≤ b → st.view b = fs.st.view b)
    (hn : n ≤ st.outstanding) : Aside f n fs { fs with st := st } := by
  obtain ⟨hok', hnode⟩ := hok.setStore hlog hview
  exact ⟨hok', ⟨_, rfl⟩, ⟨hheld.1, hheld.2, rfl⟩, by rw [hnode], hn⟩

theorem begin_op_aside {fs : Fs} (hok : FsOk fs) (hheld : FileHeld f fs) :
    Ends (disk begin_op) fs fun _ fs' => ∀ n ≤ fs.st.outstanding+1, Aside f n fs fs' := by
  intro _ fs' hrun n hn
  cases hrun
  exact aside_store hok hheld (hok.log.setOps _) (fun _ _ => rfl) hn

theorem end_op_aside {fs : Fs} (hok : FsOk fs) (hheld : FileHeld f fs) :
    Ends (disk end_op) fs fun _ fs' => ∀ n ≤ fs.st.outstanding-1, Aside f n fs fs' := by
  refine ends_zoom ((end_op_quiet hok.log).ends.imp ?_)
  intro _ st ⟨hlog, hout, hview⟩ n hn
  exact aside_store hok hheld hlog hview (hout ▸ hn)

theorem ShareInv.goto (h : ShareInv f fs0 s) {x : SharePc} {fs' : Fs} {calls : ι → List (List UInt8)}
    (ha : Aside f (total SharePc.ops (update s.pc p x)) s.fs fs')
    (hcalls : ∀ q, q ≠ p → calls q = s.calls q)
    (hpart : (calls p).flatten ++ x.part = (s.calls p).flatten ++ (s.pc p).part) (hx : x.Ok) :
    ShareInv f fs0 { s.goto p x with fs := fs', calls := calls } := by
  have hrounds : ({ s.goto p x with fs := fs', calls := calls } : ShareState ι).rounds = s.rounds := rfl
  refine h.aside hrounds ha ?_ ?_
  · intro q
    change (calls q).flatten ++ (update s.pc p x q).part = _
    by_cases hq : q = p
    · rw [hq, update_self]
      exact hpart
    · rw [update_of_ne hq, hcalls q hq]
  · exact (forall_update_iff s.pc fun _ x => x.Ok).mpr ⟨hx, fun q _ => h.pcs q⟩

theorem ShareInv.step (h : ShareInv f fs0 s) {o : ShareOp ι} (he : o.enabled f s) :
    Ends (o.run f) s fun _ t => ShareGood f fs0 t := by
  cases o with
  | filewrite p w =>
    obtain ⟨hpc, haddr⟩ := he
    apply ends_get
    split_ifs
    · exact ends_set (Or.inl rfl)
    · refine ends_set (Or.inr ?_)
      have hops := (total_update_same SharePc.ops s.pc (p := p) (x := .loop w 0) (by rw [hpc]; rfl)).le.trans h.ops
      apply h.goto (aside_refl h.ok h.held hops) (fun _ _ => rfl)
      · rw [hpc]
        rfl
      · exact ⟨haddr, Nat.zero_le _⟩
  | begin_op p =>
    obtain ⟨w, i, hpc, hi⟩ := he
    apply ends_get
    rw [hpc]
    apply ends_bind
    refine onFs_ends (begin_op_aside h.ok h.held) ?_
    intro _ fs' haside
    refine ends_modify (Or.inr ?_)
    have hops := total_update SharePc.ops s.pc p (.inOp w i)
    rw [hpc] at hops
    change _ + 0 = _ + 1 at hops
    have hle := h.ops
    refine h.goto (haside _ (by omega)) (fun _ _ => rfl) ?_ ?_
    · rw [hpc]
      rfl
    · have hpos := h.pcs p
      rw [hpc] at hpos
      exact ⟨hpos.1, hi⟩
  | write p =>
    obtain ⟨w, i, hpc⟩ := he
    have hpos := h.pcs p
    rw [hpc] at hpos
    have hone : 1 ≤ s.fs.st.outstanding := by
      have hw := le_total SharePc.ops s.pc p
      rw [hpc] at hw
      exact hw.trans h.ops
    apply ends_get
    rw [hpc]
    apply ends_bind
    refine onFs_ends (writeRound_spec h.ok h.held hone hpos.1) ?_
    intro r fs' hr
    split_ifs with hbig
    · exact ends_modify (Or.inl rfl)
    · refine ends_modify (Or.inr ?_)
      obtain ⟨hrn, hend, hoff, hd⟩ := hr.resolve_left hbig
      rw [hrn]
      exact h.write hpc hend hoff hd
  | end_op p =>
    obtain ⟨w, i, r, hpc⟩ := he
    have hpos := h.pcs p
    rw [hpc] at hpos
    apply ends_get
    rw [hpc]
    apply ends_bind
    refine onFs_ends (end_op_aside h.ok h.held) ?_
    intro _ fs' haside
    have hsmall : ¬ 2^31 ≤ r := by
      have hmax : writeMax < 2^31 := by decide
      rw [hpos.2.2]
      unfold WriteCall.n1
      omega
    rw [if_neg hsmall]
    apply ends_bind
    apply ends_panicIf
    intro _
    refine ends_modify (Or.inr ?_)
    have hops := total_update SharePc.ops s.pc p (.loop w (i+r))
    rw [hpc] at hops
    change _ + 1 = _ + 0 at hops
    have hle := h.ops
    refine h.goto (haside _ (by omega)) (fun _ _ => rfl) ?_ ?_
    · rw [hpc]
      rfl
    · have hlt := hpos.2.1
      refine ⟨by have := hpos.1; omega, ?_⟩
      rw [hpos.2.2]
      unfold WriteCall.n1
      omega
  | ret p =>
    obtain ⟨w, i, hpc, hi⟩ := he
    have hpos := h.pcs p
    rw [hpc] at hpos
    apply ends_get
    rw [hpc]
    dsimp only
    split_ifs with hn
    · refine ends_set (Or.inr ?_)
      have hops := (total_update_same SharePc.ops s.pc (p := p) (x := .idle) (by rw [hpc]; rfl)).le.trans h.ops
      refine h.goto (aside_refl h.ok h.held hops) (fun q hq => update_of_ne hq _ _) ?_ trivial
      rw [update_self, hpc, List.flatten_append]
      change _ ++ (w.bytes i ++ []) ++ [] = _ ++ w.bytes i
      rw [List.append_nil, List.append_nil]
    · exact ends_set (Or.inl rfl)
  | fileread p mem addr n =>
    apply ends_get
    dsimp only
    split_ifs
    · exact ends_set (Or.inl rfl)
    · apply ends_bind
      refine onFs_ends (readRound_spec h.ok h.held).1 ?_
      intro ⟨r, d⟩ fs' ⟨all, _, hr, hd⟩
      dsimp only at hr ⊢
      split_ifs with hbig
      · exact ends_modify (Or.inl rfl)
      · have hall : all = true := by
          by_contra hno
          rw [hr, if_neg hno] at hbig
          exact hbig (by decide)
        rw [hall, if_pos rfl] at hr hd
        rw [hr]
        exact ends_modify (Or.inr (h.read hd))
  | other fs =>
    refine ends_modify (Or.inr ?_)
    have hrounds : ({ s with fs := fs } : ShareState ι).rounds = s.rounds := rfl
    exact h.aside hrounds he (fun _ => rfl) h.pcs

omit [Fintype ι] in
theorem failed_stays (o : ShareOp ι) (hf : s.failed = true) :
    Ends (o.run f) s fun _ t => t.failed = true := by
  have hfs {α : Type} (x : Prog Fs α) (k : α → Prog (ShareState ι) Unit)
      (hk : ∀ r fs, Ends (k r) { s with fs := fs } fun _ t => t.failed = true) :
      Ends (onFs x >>= k) s fun _ t => t.failed = true := by
    apply ends_bind
    refine onFs_ends (Q := fun _ _ => True) (fun _ _ _ => trivial) ?_
    intro r fs _
    exact hk r fs
  cases o with
  | filewrite p w =>
    apply ends_get
    split_ifs
    · exact ends_set rfl
    · exact ends_set hf
  | begin_op p =>
    apply ends_get
    split
    · exact hfs _ _ fun _ _ => ends_modify hf
    · exact ends_pure hf
  | write p =>
    apply ends_get
    split
    · apply hfs
      intro r fs
      split_ifs
      · exact ends_modify rfl
      · exact ends_modify hf
    · exact ends_pure hf
  | end_op p =>
    apply ends_get
    split
    · apply hfs
      intro r fs
      split_ifs
      · exact ends_modify hf
      · exact ends_bind (ends_panicIf fun _ => ends_modify hf)
    · exact ends_pure hf
  | ret p =>
    apply ends_get
    split
    · split_ifs
      · exact ends_set hf
      · exact ends_set rfl
    · exact ends_pure hf
  | fileread p mem addr n =>
    apply ends_get
    dsimp only
    split_ifs
    · exact ends_set rfl
    · apply hfs
      intro r fs
      split_ifs
      · exact ends_modify rfl
      · exact ends_modify hf
  | other fs => exact ends_modify hf

theorem ShareInit.inv (h : ShareInit f fs0 s) : ShareInv f fs0 s := by
  obtain ⟨hfs, hok, _, hcell, hpc, hrounds, hcalls, _⟩ := h
  have hheld : FileHeld f s.fs := by
    rw [hfs]
    exact hcell
  have hops : total SharePc.ops s.pc = 0 := by
    rw [total_eq_zero, hpc]
    exact fun _ => rfl
  refine ⟨hfs ▸ hok, hheld, by rw [hfs], by omega, ?_, ?_, ?_, ?_, ?_, ?_⟩
  · rw [hfs, hrounds]
    rfl
  · rw [hrounds]
    trivial
  · rw [hrounds]
    intro q o bytes hmem
    cases hmem
  · rw [hrounds, hfs]
    intro _
    exact ⟨fun hne => absurd rfl hne, (splice_nil _).symm⟩
  · intro q
    rw [hrounds, hcalls, hpc]
    rfl
  · intro q
    rw [hpc]
    trivial

theorem shares_inv (h : Shares f fs0 s) : ShareGood f fs0 s := by
  refine Reaches.invariant ?_ ?_ h
  · intro t h0
    exact Or.inr h0.inv
  · intro t o hgood he
    rcases hgood with hf | hinv
    · exact (failed_stays o hf).imp fun _ _ ht => Or.inl ht
    · exact hinv.step he

/-- Processes that share one open file, in any order: the offset counts all the bytes that
were returned, each round begins where the one before it has ended, no round writes over
another, and what a process wrote is in the order of its calls. If no one reads, the file
holds all chunks in the order of the lock. -/
theorem shared_writes_in_order (h : Shares f fs0 s) (hok : s.failed = false) :
    (s.fs.sys.file f).off = (fs0.sys.file f).off + countAll s.rounds ∧
      Contiguous (fs0.sys.file f).off s.rounds ∧
      s.rounds.Pairwise (fun x y => x.off + x.count ≤ y.off) ∧
      (∀ q o bytes, Round.write q o bytes ∈ s.rounds →
        ((s.fs.node (fileInum f fs0)).data.drop o).take bytes.length = bytes) ∧
      (∀ q, chunksOf q s.rounds = (s.calls q).flatten ++ (s.pc q).part) ∧
      ((∀ x ∈ s.rounds, x.isWrite) → (s.fs.node (fileInum f fs0)).data =
        splice (fs0.node (fileInum f fs0)).data (fs0.sys.file f).off (chunks s.rounds)) := by
  have hinv := (shares_inv h).resolve_left (by rw [hok]; decide)
  have hdata : fileData f s.fs = (s.fs.node (fileInum f fs0)).data := by
    rw [← hinv.inum]
    rfl
  rw [← hdata]
  exact ⟨hinv.off, hinv.contiguous, hinv.contiguous.pairwise, hinv.kept, hinv.order,
    fun hall => (hinv.only hall).2⟩

end Invariant

section Sample

/-- The steps of the processes that can be taken. -/
def ShareState.allows (s : ShareState ι) : ShareOp ι → Bool
  | .filewrite p w => match s.pc p with | .idle => decide (w.addr < 2^64) | _ => false
  | .fileread p _ _ _ => match s.pc p with | .idle => true | _ => false
  | .begin_op p => match s.pc p with | .loop w i => decide (i < w.n.toNat) | _ => false
  | .ret p => match s.pc p with | .loop w i => decide (¬ i < w.n.toNat) | _ => false
  | .write p => match s.pc p with | .inOp _ _ => true | _ => false
  | .end_op p => match s.pc p with | .inEnd _ _ _ => true | _ => false
  | .other _ => false

theorem allows_enabled [FsLayout] [Fintype ι] {f : Fin NFILE} {s : ShareState ι} {o : ShareOp ι}
    (h : s.allows o = true) : o.enabled f s := by
  unfold ShareState.allows at h
  split at h
  · split at h
    · exact ⟨‹_›, of_decide_eq_true h⟩
    · cases h
  · split at h
    · exact ‹s.pc _ = .idle›
    · cases h
  · split at h
    · exact ⟨_, _, ‹_›, of_decide_eq_true h⟩
    · cases h
  · split at h
    · exact ⟨_, _, ‹_›, of_decide_eq_true h⟩
    · cases h
  · split at h
    · exact ⟨_, _, ‹_›⟩
    · cases h
  · split at h
    · exact ⟨_, _, _, ‹_›⟩
    · cases h
  · cases h

def openFile : File := ⟨.FD_INODE, 1, true, true, 0, 0, 0, 0⟩

def secondFile : Fin NFILE := ⟨1, by decide⟩

def together (os : List (ShareOp Bool)) (fs : Fs) : Option (ShareState Bool) :=
  let _ := sampleFs
  runSteps (fun s o => s.allows o = true) (ShareOp.run secondFile) os
    ⟨fs, fun _ => .idle, [], fun _ => [], false⟩

def writeSteps (n : Nat) : List (ShareOp Bool) :=
  [.filewrite false ⟨onePage, 0, n⟩, .begin_op false, .write false, .end_op false, .ret false]

def emptyOpen : Fs :=
  { freshFs with cell := fun j => { freshFs.cell j with locked := false } }.setFile secondFile
    openFile

def threeOpen : Fs :=
  match together (writeSteps 3) emptyOpen with
  | some s => s.fs.setFile secondFile openFile
  | none => emptyOpen

theorem together_shares {os : List (ShareOp Bool)} {fs : Fs} {s : ShareState Bool} : let _ := sampleFs
    FsOk fs → fs.sys.file secondFile = openFile → FileHeld secondFile fs →
    together os fs = some s → Shares secondFile fs s := by
  intro _ hok hfile hheld hrun
  have hinit : Shares secondFile fs (⟨fs, fun _ => .idle, [], fun _ => [], false⟩ : ShareState Bool) :=
    Reaches.init ⟨rfl, hok, congrArg File.type hfile, hheld, rfl, rfl, rfl, rfl⟩
  exact runSteps_keeps _ _ (fun _ _ _ hs ho hrun => Reaches.step hs (allows_enabled ho) hrun) os hinit hrun

/-- Two processes write at the same time, and one reads in between. -/
def writeReadWrite : Option (ShareState Bool) :=
  together [.filewrite false ⟨onePage, 0, 1⟩, .filewrite true ⟨onePage, 0, 1⟩, .begin_op false,
    .begin_op true, .write false, .end_op false, .ret false, .fileread false onePage 0 1,
    .write true, .end_op true, .ret true] threeOpen

deriving instance DecidableEq for Round

set_option maxRecDepth 4000 in
theorem together_ends : let _ := sampleFs
    (together (writeSteps 3) emptyOpen).map ShareState.failed = some false ∧
      FileHeld secondFile threeOpen ∧ writeReadWrite.map ShareState.failed = some false ∧
      writeReadWrite.map ShareState.rounds = some [.write false 0 [7], .read false 1 1, .write true 2 [7]] := by
  unfold FileHeld
  decide +kernel

theorem threeOpen_ok : let _ := sampleFs
    FsOk threeOpen ∧ threeOpen.sys.file secondFile = openFile := by
  intro _
  have hfresh := freshFs_ok.1
  have hempty : FsOk emptyOpen :=
    ⟨⟨hfresh.log, hfresh.blocks, hfresh.cells.unique, hfresh.cells.mem⟩, hfresh.filled⟩
  obtain ⟨s, hs, hfailed⟩ := Option.map_eq_some_iff.mp together_ends.1
  have hshares := together_shares hempty (setFile_file _) ⟨by decide, rfl⟩ hs
  have hinv := (shares_inv hshares).resolve_left (by rw [hfailed]; decide)
  unfold threeOpen
  rw [hs]
  exact ⟨hinv.ok.setFile _, setFile_file _⟩

theorem shared_run : let _ := sampleFs
    ∃ (fs0 : Fs) (s : ShareState Bool), Shares secondFile fs0 s ∧ s.failed = false ∧
      (fs0.sys.file secondFile).off = 0 ∧
      s.rounds = [.write false 0 [7], .read false 1 1, .write true 2 [7]] := by
  intro _
  obtain ⟨hok, hfile⟩ := threeOpen_ok
  obtain ⟨-, hheld, hfailed, hrounds⟩ := together_ends
  obtain ⟨s, hs, hf⟩ := Option.map_eq_some_iff.mp hfailed
  rw [hs] at hrounds
  exact ⟨threeOpen, s, together_shares hok hfile hheld hs, hf, congrArg File.off hfile, Option.some.inj hrounds⟩

instance (x : Round ι) : Decidable x.isWrite :=
  match x with
  | .write .. => inferInstanceAs (Decidable True)
  | .read .. => inferInstanceAs (Decidable False)

/-- What was written lies apart where someone reads in between. -/
theorem written_ranges_apart : let _ := sampleFs
    ∃ (fs0 : Fs) (s : ShareState Bool), Shares secondFile fs0 s ∧ s.failed = false ∧
      ¬ Contiguous (fs0.sys.file secondFile).off (s.rounds.filter fun x => decide x.isWrite) := by
  intro _
  obtain ⟨fs0, s, h, hok, hoff, hrounds⟩ := shared_run
  refine ⟨fs0, s, h, hok, ?_⟩
  rw [hoff, hrounds]
  exact fun hc => absurd hc.2.1 (by decide)

theorem shared_writes_in_order_two : let _ := sampleFs
    ∃ (fs0 : Fs) (s : ShareState Bool), Shares secondFile fs0 s ∧ s.failed = false ∧
      (s.fs.sys.file secondFile).off = 3 ∧
      ((s.fs.node (fileInum secondFile fs0)).data.drop 0).take 1 = [7] ∧
      ((s.fs.node (fileInum secondFile fs0)).data.drop 2).take 1 = [7] ∧
      (s.calls false).flatten ++ (s.pc false).part = [7] ∧
      (s.calls true).flatten ++ (s.pc true).part = [7] := by
  intro _
  obtain ⟨fs0, s, h, hok, hoff, hrounds⟩ := shared_run
  obtain ⟨hend, _, _, hkept, horder, _⟩ := shared_writes_in_order h hok
  rw [hrounds] at hkept horder
  refine ⟨fs0, s, h, hok, ?_, hkept false 0 [7] (by simp), hkept true 2 [7] (by simp),
    (horder false).symm, (horder true).symm⟩
  rw [hend, hoff, hrounds]
  rfl

end Sample

end Xv6
