import Xv6.FsDir

/-! `mkfs.c`, which builds the image of the file system on the host. `exit(1)` and a failed
`assert` are a throw. -/
namespace Xv6.Mkfs

def FSSIZE : Nat := 1000
def NINODES : Nat := 200
def FSMAGIC : Nat := 0x10203040

def nbitmap : Nat := FSSIZE/(BSIZE*8) + 1
def ninodeblocks : Nat := NINODES/IPB + 1
def nlog : Nat := LOGSIZE
def nmeta : Nat := 2 + nlog + ninodeblocks + nbitmap
def nblocks : Nat := FSSIZE - nmeta

/-- The global `sb`, with `magic` and `nblocks` left to `superblock`. -/
def sb : Superblock where
  size := FSSIZE
  ninodes := NINODES
  nlog := nlog
  logstart := 2
  inodestart := 2+nlog
  bmapstart := 2+nlog+ninodeblocks

/-- The image file, which has `len` blocks, and the two counters. -/
structure Image where
  len : Nat
  block : Nat → Bytes
  freeinode : Nat
  freeblock : Nat

def zeroes : Bytes := fun _ => 0

def Image.write (m : Image) (b : Nat) (buf : Bytes) : Image :=
  { m with len := max m.len (b+1), block := Function.update m.block b buf }

/-- The offset `sec * BSIZE` is a `uint`. -/
def wsect (sec : Nat) (buf : Bytes) : Prog Image Unit := modify fun m => m.write (sec % 2^22) buf

/-- Behind the end of the file `read` gives no block. -/
def rsect (sec : Nat) : Prog Image Bytes := do
  let m ← get
  panicIf (m.len ≤ sec % 2^22) "read"
  pure (m.block (sec % 2^22))

def IBLOCK (inum : Nat) : Nat := inum/IPB + sb.inodestart

def winode (inum : Nat) (ip : Dinode) : Prog Image Unit := do
  let buf ← rsect (IBLOCK inum)
  wsect (IBLOCK inum) (putDinode buf inum ip)

def rinode (inum : Nat) : Prog Image Dinode := do
  let buf ← rsect (IBLOCK inum)
  pure (dinodeAt buf inum)

def ialloc (type : BitVec 16) : Prog Image Nat := do
  let m ← get
  set { m with freeinode := (m.freeinode+1) % 2^32 }
  winode m.freeinode { Dinode.new type with nlink := 1 }
  pure m.freeinode

/-- The block of the free map after the loop of `balloc`. -/
def markFirst : Nat → Bytes
  | 0 => zeroes
  | used+1 => setBit (markFirst used) used

def balloc (used : Nat) : Prog Image Unit := do
  panicIf (¬ used < BSIZE*8) "used < BSIZE*8"
  wsect sb.bmapstart (markFirst used)

def nextBlock : Prog Image Nat := do
  let m ← get
  set { m with freeblock := (m.freeblock+1) % 2^32 }
  pure m.freeblock

def addrFor (din : Dinode) (k : Fin (NDIRECT+1)) : Prog Image Dinode :=
  if (din.addrs k).toNat = 0 then do
    let b ← nextBlock
    pure (din.setAddr k b)
  else pure din

def entryFor (din : Dinode) (e : Nat) : Prog Image Nat := do
  let indirect ← rsect din.indirect
  if leGet 4 indirect (4*e) = 0 then do
    let b ← nextBlock
    wsect din.indirect (leSet 4 indirect (4*e) b)
    pure b
  else pure (leGet 4 indirect (4*e))

/-- The part of `iappend` that finds the block `x`; the inode may have got new blocks. -/
def blockFor (din : Dinode) (fbn : Nat) : Prog Image (Nat × Dinode) :=
  if fbn < NDIRECT then do
    let din ← addrFor din (Fin.ofNat _ fbn)
    pure ((din.addrs (Fin.ofNat _ fbn)).toNat, din)
  else do
    let din ← addrFor din (Fin.last NDIRECT)
    let x ← entryFor din (fbn-NDIRECT)
    pure (x, din)

def iappendLoop : Nat → Dinode → Nat → List UInt8 → Prog Image (Dinode × Nat)
  | 0, din, off, _ => pure (din, off)
  | k+1, din, off, p =>
    if p.length = 0 then pure (din, off)
    else do
      panicIf (¬ off/BSIZE < MAXFILE) "fbn < MAXFILE"
      let (x, din) ← blockFor din (off/BSIZE)
      let n1 := min p.length ((off/BSIZE + 1)*BSIZE - off)
      let buf ← rsect x
      wsect x (blit buf (off - off/BSIZE*BSIZE) (p.take n1))
      iappendLoop k din (off+n1) (p.drop n1)

def iappend (inum : Nat) (p : List UInt8) : Prog Image Unit := do
  let din ← rinode inum
  let (din, off) ← iappendLoop p.length din din.size.toNat p
  winode inum { din with size := BitVec.ofNat 32 off }

/-- An input file: its name in `argv`, and its content in the pieces that `read` gives, if it
can be opened. -/
structure Input where
  path : List UInt8
  pieces : Option (List (List UInt8))
  cstring : ∀ c ∈ path, c ≠ 0
  piece : ∀ ps ∈ pieces, ∀ p ∈ ps, 0 < p.length ∧ p.length ≤ BSIZE

def userDir : List UInt8 := [117, 115, 101, 114, 47]

def Input.shortname (f : Input) : List UInt8 :=
  if strncmp f.path userDir 5 = 0 then f.path.drop 5 else f.path

def Input.name (f : Input) : List UInt8 :=
  if f.shortname.headD 0 = 95 then f.shortname.tail else f.shortname

def appendPieces (inum : Nat) : List (List UInt8) → Prog Image Unit
  | [] => pure ()
  | p :: ps => do
    iappend inum p
    appendPieces inum ps

def addFile (rootino : Nat) (f : Input) : Prog Image Unit := do
  panicIf ((47 : UInt8) ∈ f.shortname) "index(shortname, '/') == 0"
  match f.pieces with
  | none => throw "open"
  | some ps => do
    let inum ← ialloc T_FILE
    iappend rootino (dirent inum f.name)
    appendPieces inum ps

def addFiles (rootino : Nat) : List Input → Prog Image Unit
  | [] => pure ()
  | f :: fs => do
    addFile rootino f
    addFiles rootino fs

def zeroBlocks : Nat → Prog Image Unit
  | 0 => pure ()
  | i+1 => do
    zeroBlocks i
    wsect i zeroes

def superblock : Bytes :=
  let buf := leSet 4 zeroes 0 FSMAGIC
  let buf := leSet 4 buf 4 sb.size
  let buf := leSet 4 buf 8 nblocks
  let buf := leSet 4 buf 12 sb.ninodes
  let buf := leSet 4 buf 16 sb.nlog
  let buf := leSet 4 buf 20 sb.logstart
  let buf := leSet 4 buf 24 sb.inodestart
  leSet 4 buf 28 sb.bmapstart

/-- `main`, from the loop that clears the image on. -/
def main (files : List Input) : Prog Image Unit := do
  zeroBlocks FSSIZE
  wsect 1 superblock
  let rootino ← ialloc T_DIR
  panicIf (rootino ≠ ROOTINO) "rootino == ROOTINO"
  iappend rootino (dirent rootino [46])
  iappend rootino (dirent rootino [46, 46])
  addFiles rootino files
  let din ← rinode rootino
  winode rootino { din with size := BitVec.ofNat 32 ((din.size.toNat/BSIZE + 1)*BSIZE) }
  let m ← get
  balloc m.freeblock

def start : Image := ⟨0, fun _ => zeroes, 1, nmeta⟩

end Xv6.Mkfs
