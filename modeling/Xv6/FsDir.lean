import Xv6.Fs
import Xv6.Calls

/-! The directories of `kernel/fs.c` and the table of open files, written over the calls of
the inode layer. A C string is the list of its bytes; behind the end of the list comes its NUL. -/
namespace Xv6

def DIRSIZ : Nat := 14

def DIRENT : Nat := 16

/-- The fields of an inode that a caller reads through its pointer. -/
structure Attr where
  type : BitVec 16
  size : Nat

/-- What the code above the inode layer calls. `readi` reads into memory of the kernel, and
`sys` and `setSys` are the tables of open files, which that code works on itself. -/
inductive FsCall : Type → Type
  | iget (inum : Nat) : FsCall ISlot
  | idup (ip : ISlot) : FsCall Unit
  | iput (ip : ISlot) : FsCall Unit
  | attr (ip : ISlot) : FsCall Attr
  | readi (ip : ISlot) (off n : Nat) : FsCall (Nat × List UInt8)
  | writei (ip : ISlot) (src : Source) (off n : Nat) : FsCall Nat
  | sys : FsCall Sys
  | setSys (sys : Sys) : FsCall Unit

abbrev FsCode (α : Type) := Code FsCall α

def kernelCopy (dst bytes : List UInt8) : Except String (Int × List UInt8) := .ok (0, dst ++ bytes)

def fsImpl [FsLayout] : ∀ β, FsCall β → Prog Fs β
  | _, .iget inum => iget inum
  | _, .idup ip => idup ip
  | _, .iput ip => iput ip
  | _, .attr ip => do
    let s ← get
    pure ⟨(s.mem ip).type, (s.mem ip).size.toNat⟩
  | _, .readi ip off n => readi kernelCopy ip [] off n
  | _, .writei ip src off n => writei ip src off n
  | _, .sys => do
    let s ← get
    pure s.sys
  | _, .setSys sys => modify fun s => { s with sys := sys }

def strncmp : List UInt8 → List UInt8 → Nat → Int
  | _, _, 0 => 0
  | p, q, n+1 =>
    if p.headD 0 ≠ 0 ∧ p.headD 0 = q.headD 0 then strncmp p.tail q.tail n
    else (p.headD 0).toNat - (q.headD 0).toNat

def strncpy (t : List UInt8) : Nat → List UInt8
  | 0 => []
  | n+1 => if t.headD 0 = 0 then List.replicate (n+1) 0 else t.headD 0 :: strncpy t.tail n

def namecmp (s t : List UInt8) : Int := strncmp s t DIRSIZ

/-- `de.inum` and `de.name` of the bytes of a directory entry. -/
def direntInum (de : List UInt8) : Nat := (de.getD 0 0).toNat + 256*(de.getD 1 0).toNat

def direntName (de : List UInt8) : List UInt8 := de.drop 2

/-- The bytes of a directory entry; `inum` is stored as a `ushort`. -/
def dirent (inum : Nat) (name : List UInt8) : List UInt8 :=
  UInt8.ofNat inum :: UInt8.ofNat (inum/256) :: strncpy name DIRSIZ

def dirlookupLoop (dp : ISlot) (name : List UInt8) (size : Nat) :
    Nat → Nat → FsCode (Option (ISlot × Nat))
  | 0, _ => pure none
  | k+1, off =>
    if off < size then do
      let (r, de) ← perform (.readi dp off DIRENT)
      Code.panicIf (r ≠ DIRENT) "dirlookup read"
      if direntInum de = 0 then
        dirlookupLoop dp name size k (off+DIRENT)
      else if namecmp name (direntName de) = 0 then do
        let ip ← perform (.iget (direntInum de))
        pure (some (ip, off))
      else
        dirlookupLoop dp name size k (off+DIRENT)
    else
      pure none

/-- The inode and the offset `*poff` of its entry. -/
def dirlookup (dp : ISlot) (name : List UInt8) : FsCode (Option (ISlot × Nat)) := do
  let d ← perform (.attr dp)
  Code.panicIf (d.type ≠ T_DIR) "dirlookup not DIR"
  dirlookupLoop dp name d.size (d.size/DIRENT + 1) 0

/-- The loop of `dirlink` that looks for an empty entry, for `k` more rounds. -/
def emptyDirent (dp : ISlot) (size : Nat) : Nat → Nat → FsCode Nat
  | 0, off => pure off
  | k+1, off =>
    if off < size then do
      let (r, de) ← perform (.readi dp off DIRENT)
      Code.panicIf (r ≠ DIRENT) "dirlink read"
      if direntInum de = 0 then pure off else emptyDirent dp size k (off+DIRENT)
    else
      pure off

def dirlink (dp : ISlot) (name : List UInt8) (inum : Nat) : FsCode Int := do
  match ← dirlookup dp name with
  | some (ip, _) =>
    perform (.iput ip)
    pure (-1)
  | none =>
    let d ← perform (.attr dp)
    let off ← emptyDirent dp d.size (d.size/DIRENT + 1) 0
    let r ← perform (.writei dp (.kernel (dirent inum name)) off DIRENT)
    Code.panicIf (r ≠ DIRENT) "dirlink"
    pure 0

end Xv6
