import Xv6.FsFormat
import Xv6.VmCopyin

/-! `kernel/fs.c` up to the content of inodes: the block allocator, the inode cache,
and `bmap`, `itrunc`, `readi` and `writei`, with the tables of `kernel/file.c`,
`kernel/pipe.c` and `kernel/proc.c` that a process reaches its files through. One process
runs at a time, and there is one device. -/
namespace Xv6

def NFILE : Nat := 100
def NOFILE : Nat := 16
def NDEV : Nat := 10

inductive FdType
  | FD_NONE
  | FD_PIPE
  | FD_INODE
  | FD_DEVICE
  deriving DecidableEq

/-- `struct file`. A pipe is known by a number. -/
structure File where
  type : FdType
  ref : Nat
  readable : Bool
  writable : Bool
  pipe : Nat
  ip : ISlot
  off : Nat
  major : BitVec 16
  deriving DecidableEq

/-- The ends of a pipe that are open. -/
structure PipeEnds where
  readopen : Bool
  writeopen : Bool

/-- What a process has open, and its current directory. A process that is not `live`
has exited or was never made. -/
structure OpenFiles where
  live : Bool
  cwd : Option ISlot
  ofile : Fin NOFILE → Option (Fin NFILE)

/-- `npipe` pipes were made so far; those whose page was freed are gone from `pipe`,
and `freed` counts how often. -/
structure Sys where
  file : Fin NFILE → File
  proc : Fin NPROC → OpenFiles
  pipe : Nat → Option PipeEnds
  npipe : Nat
  freed : Nat → Nat

/-- The buffer of block `b` is changed in place and given to `log_write`. -/
def logged (b : Nat) (f : Bytes → Bytes) : Prog Store Unit := do
  let s ← get
  setData b (f (s.view b))
  log_write b

variable [FsLayout]

def IBLOCK (i : Nat) : Nat := i/IPB + sb.inodestart

def BBLOCK (b : Nat) : Nat := b/BPB + sb.bmapstart

def bzero (bno : Nat) : Prog Store Unit := do
  let _ ← bread bno
  logged bno fun _ _ => 0

def freeBit (data : Bytes) (b : Nat) : Option Nat :=
  (List.range (min BPB (sb.size - b))).find? fun bi => !bitOf data bi

def ballocLoop : Nat → Nat → Prog Store Nat
  | 0, _ => throw "balloc: out of blocks"
  | n+1, b => do
    let data ← bread (BBLOCK b)
    match freeBit data b with
    | some bi =>
      logged (BBLOCK b) (setBit · bi)
      bzero (b+bi)
      pure (b+bi)
    | none => ballocLoop n (b+BPB)

def balloc : Prog Store Nat := ballocLoop ((sb.size + BPB - 1)/BPB) 0

def bfree (b : Nat) : Prog Store Unit := do
  let data ← bread (BBLOCK b)
  panicIf (bitOf data (b % BPB) = false) "freeing free block"
  logged (BBLOCK b) (clearBit · (b % BPB))

/-- The part of `struct inode` that is not a copy of the disk. -/
structure Icell where
  inum : Nat
  ref : Nat
  valid : Bool
  locked : Bool

/-- The buffers and the log, `icache`, and the tables of open files. `mem` holds the
copies of the disk inodes. -/
structure Fs where
  st : Store
  cell : ISlot → Icell
  mem : ISlot → Dinode
  sys : Sys

/-- Code on the buffers, run as file system code. -/
def disk {α : Type} (x : Prog Store α) : Prog Fs α := zoom Fs.st (fun st s => { s with st := st }) x

def setCell (ip : ISlot) (c : Icell) : Prog Fs Unit :=
  modify fun s => { s with cell := Function.update s.cell ip c }

def setMem (ip : ISlot) (d : Dinode) : Prog Fs Unit :=
  modify fun s => { s with mem := Function.update s.mem ip d }

def iupdate (ip : ISlot) : Prog Fs Unit := do
  let s ← get
  let inum := (s.cell ip).inum
  let _ ← disk (bread (IBLOCK inum))
  disk (logged (IBLOCK inum) (putDinode · inum (s.mem ip)))

def cachedSlot (cell : ISlot → Icell) (inum : Nat) : Option ISlot :=
  (List.finRange NINODE).find? fun i => decide (0 < (cell i).ref ∧ (cell i).inum = inum)

def emptySlot (cell : ISlot → Icell) : Option ISlot :=
  (List.finRange NINODE).find? fun i => decide ((cell i).ref = 0)

def iget (inum : Nat) : Prog Fs ISlot := do
  let s ← get
  match cachedSlot s.cell inum with
  | some ip =>
    setCell ip { s.cell ip with ref := (s.cell ip).ref + 1 }
    pure ip
  | none =>
    match emptySlot s.cell with
    | some ip =>
      setCell ip { s.cell ip with inum := inum, ref := 1, valid := false }
      pure ip
    | none => throw "iget: no inodes"

def iallocLoop (type : BitVec 16) : Nat → Nat → Prog Fs ISlot
  | 0, _ => throw "ialloc: no inodes"
  | n+1, inum => do
    let data ← disk (bread (IBLOCK inum))
    if (dinodeAt data inum).type = 0 then
      disk (logged (IBLOCK inum) (putDinode · inum (Dinode.new type)))
      iget inum
    else
      iallocLoop type n (inum+1)

def ialloc (type : BitVec 16) : Prog Fs ISlot := iallocLoop type (sb.ninodes-1) 1

def idup (ip : ISlot) : Prog Fs Unit := do
  let s ← get
  setCell ip { s.cell ip with ref := (s.cell ip).ref + 1 }

/-- The only process that could release the lock of an entry is the one that runs, so
`acquiresleep` of a locked entry sleeps for ever; the model stops there. -/
def ilock (ip : ISlot) : Prog Fs Unit := do
  let s ← get
  panicIf ((s.cell ip).ref < 1) "ilock"
  panicIf (s.cell ip).locked "acquiresleep: sleeps for ever"
  if (s.cell ip).valid then
    setCell ip { s.cell ip with locked := true }
  else
    let inum := (s.cell ip).inum
    let data ← disk (bread (IBLOCK inum))
    setMem ip (dinodeAt data inum)
    setCell ip { s.cell ip with locked := true, valid := true }
    panicIf ((dinodeAt data inum).type = 0) "ilock: no type"

def iunlock (ip : ISlot) : Prog Fs Unit := do
  let s ← get
  panicIf ((s.cell ip).locked = false ∨ (s.cell ip).ref < 1) "iunlock"
  setCell ip { s.cell ip with locked := false }

def setAddr (ip : ISlot) (k : Fin (NDIRECT+1)) (b : Nat) : Prog Fs Unit := do
  let s ← get
  setMem ip ((s.mem ip).setAddr k b)

/-- `ip->addrs[k]`, with a new block if it is 0. -/
def bmapAddr (ip : ISlot) (k : Fin (NDIRECT+1)) : Prog Fs Nat := do
  let s ← get
  let addr := ((s.mem ip).addrs k).toNat
  if addr = 0 then
    let b ← disk balloc
    setAddr ip k b
    pure b
  else
    pure addr

def bmap (ip : ISlot) (bn : Nat) : Prog Fs Nat :=
  if bn < NDIRECT then
    bmapAddr ip (Fin.ofNat _ bn)
  else if bn - NDIRECT < NINDIRECT then do
    let ind ← bmapAddr ip (Fin.last NDIRECT)
    let a ← disk (bread ind)
    let addr := leGet 4 a (4*(bn-NDIRECT))
    if addr = 0 then
      let b ← disk balloc
      disk (logged ind fun a => leSet 4 a (4*(bn-NDIRECT)) b)
      pure b
    else
      pure addr
  else
    throw "bmap: out of range"

def itruncDirect (ip : ISlot) : List (Fin (NDIRECT+1)) → Prog Fs Unit
  | [] => pure ()
  | k :: ks => do
    let s ← get
    let addr := ((s.mem ip).addrs k).toNat
    if addr ≠ 0 then
      disk (bfree addr)
      setAddr ip k 0
      itruncDirect ip ks
    else
      itruncDirect ip ks

def itruncIndirect (addr : Nat) : Nat → Nat → Prog Store Unit
  | 0, _ => pure ()
  | n+1, j => do
    let s ← get
    let b := leGet 4 (s.view addr) (4*j)
    if b ≠ 0 then
      bfree b
      itruncIndirect addr n (j+1)
    else
      itruncIndirect addr n (j+1)

def itrunc (ip : ISlot) : Prog Fs Unit := do
  itruncDirect ip ((List.finRange NDIRECT).map Fin.castSucc)
  let s ← get
  let addr := (s.mem ip).indirect
  if addr ≠ 0 then
    let _ ← disk (bread addr)
    disk (itruncIndirect addr NINDIRECT 0)
    disk (bfree addr)
    setAddr ip (Fin.last NDIRECT) 0
  let s ← get
  setMem ip { s.mem ip with size := 0 }
  iupdate ip

/-- A process that sleeps in `acquiresleep` with `icache.lock` held panics in `sched`. -/
def iput (ip : ISlot) : Prog Fs Unit := do
  let s ← get
  if (s.cell ip).ref = 1 ∧ (s.cell ip).valid = true ∧ (s.mem ip).nlink = 0 then
    panicIf (s.cell ip).locked "sched locks"
    setCell ip { s.cell ip with locked := true }
    itrunc ip
    let s ← get
    setMem ip { s.mem ip with type := 0 }
    iupdate ip
    let s ← get
    setCell ip { s.cell ip with valid := false, locked := false }
  let s ← get
  setCell ip { s.cell ip with ref := (s.cell ip).ref - 1 }

def minusOne : Nat := 2^32 - 1

section Read
variable {δ : Type} (copy : δ → List UInt8 → Except String (Int × δ))

/-- The loop of `readi`. `copy` is `either_copyout` to the place that comes next, which may
panic; a copy that fails leaves what it has written. -/
def readLoop (ip : ISlot) (n : Nat) : Nat → Nat → Nat → δ → Prog Fs (Nat × δ)
  | 0, tot, _, dst => pure (tot, dst)
  | k+1, tot, off, dst =>
    if tot < n then do
      let b ← bmap ip (off/BSIZE)
      let data ← disk (bread b)
      let m := min (n - tot) (BSIZE - off%BSIZE)
      match copy dst ((List.range m).map fun j => data (off%BSIZE + j)) with
      | .error e => throw e
      | .ok (r, dst) =>
        if r = -1 then pure (minusOne, dst) else readLoop ip n k (tot+m) (off+m) dst
    else
      pure (tot, dst)

def readi (ip : ISlot) (dst : δ) (off n : Nat) : Prog Fs (Nat × δ) := do
  let s ← get
  let size := (s.mem ip).size.toNat
  if size < off ∨ (off+n) % 2^32 < off then
    pure (0, dst)
  else
    let n := if size < off+n then size - off else n
    readLoop copy ip n n 0 off dst

end Read

/-- Where `writei` reads from: bytes of the kernel, or a user address. -/
inductive Source
  | kernel (bytes : List UInt8)
  | user (mem : UserMem) (va : Nat)

/-- `either_copyin` of `m` bytes from `src + tot`, and what it has copied. -/
def Source.either_copyin (src : Source) (tot m : Nat) : Int × List UInt8 :=
  match src with
  | .kernel bytes => (0, (bytes.drop tot).take m)
  | .user mem va => mem.copyin ((va + tot) % 2^64) m

/-- The loop of `writei`, which ends with the values of `off` and `n`. A copy that fails
leaves what it has copied in the buffer. -/
def writeLoop (ip : ISlot) (src : Source) (n : Nat) : Nat → Nat → Nat → Prog Fs (Nat × Nat)
  | 0, _, off => pure (off, n)
  | k+1, tot, off =>
    if tot < n then do
      let b ← bmap ip (off/BSIZE)
      let data ← disk (bread b)
      let m := min (n - tot) (BSIZE - off%BSIZE)
      let r := src.either_copyin tot m
      if r.1 = -1 then
        disk (setData b (blit data (off%BSIZE) r.2))
        pure (off, minusOne)
      else
        disk (logged b (blit · (off%BSIZE) r.2))
        writeLoop ip src n k (tot+m) (off+m)
    else
      pure (off, n)

/-- After a copy that failed `n` is -1, which is greater than 0 as a `uint`. -/
def writei (ip : ISlot) (src : Source) (off n : Nat) : Prog Fs Nat := do
  let s ← get
  if (s.mem ip).size.toNat < off ∨ (off+n) % 2^32 < off then
    pure minusOne
  else if MAXFILE*BSIZE < off+n then
    pure minusOne
  else
    let (off, n) ← writeLoop ip src n n 0 off
    if 0 < n then
      let s ← get
      if (s.mem ip).size.toNat < off then
        setMem ip { s.mem ip with size := BitVec.ofNat 32 off }
      iupdate ip
    pure n

end Xv6
