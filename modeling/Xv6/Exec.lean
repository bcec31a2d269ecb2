import Xv6.Proc

/-! `kernel/exec.c` and `sys_exec` of `kernel/sysfile.c`. A file is the list of its
bytes, and `namei` stands for the file system: the file behind a path. -/
namespace Xv6

def MAXPATH : Nat := 128
def ELF_MAGIC : Nat := 0x464C457F
def ELF_PROG_LOAD : Nat := 1

/-- `sizeof(struct elfhdr)` and `sizeof(struct proghdr)` -/
def ELFHDR_SIZE : Nat := 64
def PROGHDR_SIZE : Nat := 56

def bytesOf (l : List UInt8) : Bytes := fun i => l.getD i 0

def wordBytes (x : Nat) : List UInt8 := (List.range 8).map fun i => UInt8.ofNat (x / 256^i)

/-- The fields of `struct elfhdr` that `exec` reads. -/
structure ElfHdr where
  magic : Nat
  entry : Nat
  phoff : Nat
  phnum : Nat

def ElfHdr.ofBytes (b : Bytes) : ElfHdr where
  magic := leGet 4 b 0
  entry := leGet 8 b 24
  phoff := leGet 8 b 32
  phnum := leGet 2 b 56

/-- The fields of `struct proghdr` that `exec` reads. -/
structure ProgHdr where
  type : Nat
  off : Nat
  vaddr : Nat
  filesz : Nat
  memsz : Nat

def ProgHdr.ofBytes (b : Bytes) : ProgHdr where
  type := leGet 4 b 0
  off := leGet 8 b 8
  vaddr := leGet 8 b 16
  filesz := leGet 8 b 32
  memsz := leGet 8 b 40

/-- What `readi` copies out of a file with these bytes; `off` and `n` are `uint`s. -/
def readiBytes (file : List UInt8) (off n : Nat) : List UInt8 :=
  if file.length < off ∨ (off+n) % 2^32 < off then [] else (file.drop off).take n

def loadsegLoop (pagetable va : Nat) (file : List UInt8) (offset sz : Nat) :
    Nat → Nat → Prog Phys Int
  | 0, _ => pure 0
  | k+1, i => do
    let pa ← walkaddr pagetable ((va+i) % 2^64)
    panicIf (pa = 0) "loadseg: address should exist"
    let n := min (sz-i) PGSIZE
    let data := readiBytes file ((offset+i) % 2^32) n
    modify fun s => s.setPage pa (blit (s.mem pa) 0 data)
    if data.length ≠ n then pure (-1) else
    loadsegLoop pagetable va file offset sz k (i+PGSIZE)

def loadseg (pagetable va : Nat) (file : List UInt8) (offset sz : Nat) : Prog Phys Int := do
  panicIf (va % PGSIZE ≠ 0) "loadseg: va must be page aligned"
  loadsegLoop pagetable va file offset sz ((sz+PGSIZE-1)/PGSIZE) 0

/-- `sp -= n; sp -= sp % 16` -/
def pushSp (sp n : Nat) : Nat := (sp + 2^64 - n) % 2^64 / 16 * 16

def pageString (b : Bytes) : List UInt8 := (takeString b PGSIZE).1

section
variable [Layout]

/-- The loop over the program headers. The second result is `sz`, which the
caller needs on the way out too. -/
def execLoop (pagetable : Nat) (file : List UInt8) : Nat → Nat → Nat → Prog Phys (Bool × Nat)
  | 0, _, sz => pure (true, sz)
  | i+1, off, sz => do
    let data := readiBytes file off PROGHDR_SIZE
    if data.length ≠ PROGHDR_SIZE then pure (false, sz) else
    let ph := ProgHdr.ofBytes (bytesOf data)
    if ph.type ≠ ELF_PROG_LOAD then
      execLoop pagetable file i ((off+PROGHDR_SIZE) % 2^32) sz
    else
    if ph.memsz < ph.filesz then pure (false, sz) else
    if (ph.vaddr + ph.memsz) % 2^64 < ph.vaddr then pure (false, sz) else
    let sz1 ← uvmalloc pagetable sz ((ph.vaddr + ph.memsz) % 2^64)
    if sz1 = 0 then pure (false, sz) else
    if ph.vaddr % PGSIZE ≠ 0 then pure (false, sz1) else
    let r ← loadseg pagetable ph.vaddr file (ph.off % 2^32) (ph.filesz % 2^32)
    if r < 0 then pure (false, sz1) else
    execLoop pagetable file i ((off+PROGHDR_SIZE) % 2^32) sz1

/-- Push the argument strings; `mypt` and `mysz` are still those of the old image. -/
def pushArgs (mypt mysz pagetable stackbase : Nat) :
    List Nat → Nat → List Nat → Prog Phys (Option (Nat × List Nat))
  | [], sp, ustack => pure (some (sp, ustack))
  | a :: argv, sp, ustack => do
    if MAXARG ≤ ustack.length then pure none else
    let s ← get
    let arg := pageString (s.mem a)
    let sp := pushSp sp arg.length
    if sp < stackbase then pure none else
    let r ← copyout mypt mysz pagetable sp arg
    if r < 0 then pure none else
    pushArgs mypt mysz pagetable stackbase argv sp (ustack ++ [sp])

/-- The part of `exec` between the new page table and the commit: the stack
pointer and the number of arguments, and the size of the new image. -/
def execBuild (mypt mysz pagetable : Nat) (file : List UInt8) (elf : ElfHdr) (argv : List Nat) :
    Prog Phys (Option (Nat × Nat) × Nat) := do
  let r ← execLoop pagetable file elf.phnum (elf.phoff % 2^32) 0
  if r.1 = false then pure (none, r.2) else
  let sz := PGROUNDUP r.2
  let sz1 ← uvmalloc pagetable sz ((sz + 2*PGSIZE) % 2^64)
  if sz1 = 0 then pure (none, sz) else
  uvmclear pagetable (sz1 - 2*PGSIZE)
  match ← pushArgs mypt mysz pagetable (sz1-PGSIZE) argv sz1 [] with
  | none => pure (none, sz1)
  | some (sp, ustack) =>
    let sp := pushSp sp ((ustack.length+1)*8)
    if sp < sz1-PGSIZE then pure (none, sz1) else
    let r ← copyout mypt mysz pagetable sp ((ustack ++ [0]).flatMap wordBytes)
    if r < 0 then pure (none, sz1) else
    pure (some (sp, ustack.length), sz1)

def setTrapframe (trapframe reg x : Nat) : Prog Phys Unit :=
  modify fun s => s.setPage trapframe (leSet 8 (s.mem trapframe) reg x)

def exec (file : Option (List UInt8)) (p : Nat) (argv : List Nat) : Prog Kernel Int := do
  match file with
  | none => pure (-1)
  | some file =>
    let data := readiBytes file 0 ELFHDR_SIZE
    if data.length ≠ ELFHDR_SIZE then pure (-1) else
    let elf := ElfHdr.ofBytes (bytesOf data)
    if elf.magic ≠ ELF_MAGIC then pure (-1) else
    let k ← get
    let x := k.proc p
    match ← inPhys (proc_pagetable x.trapframe) with
    | none => pure (-1)
    | some pagetable =>
      match ← inPhys (execBuild x.pagetable x.sz pagetable file elf argv) with
      | (none, sz) =>
        inPhys (proc_freepagetable pagetable sz)
        pure (-1)
      | (some (sp, argc), sz) =>
        inPhys (setTrapframe x.trapframe TF_A1 sp)
        setProc p fun x => { x with pagetable := pagetable, sz := sz }
        inPhys (setTrapframe x.trapframe TF_EPC elf.entry)
        inPhys (setTrapframe x.trapframe TF_SP sp)
        inPhys (proc_freepagetable x.pagetable x.sz)
        pure argc

def fetchaddr (p addr : Nat) : Prog Kernel (Option Nat) := do
  let k ← get
  if (k.proc p).sz ≤ addr ∨ (k.proc p).sz < (addr+8) % 2^64 then pure none else
  let r ← inPhys (copyin (k.proc p).pagetable addr 8)
  if r.1 ≠ 0 then pure none else
  pure (some (leGet 8 (bytesOf r.2) 0))

def fetchstr (p addr buf max : Nat) : Prog Kernel Int := do
  let k ← get
  let r ← inPhys (copyinstr (k.proc p).pagetable addr max)
  inPhys (modify fun s => s.setPage buf (blit (s.mem buf) 0 r.2))
  if r.1 < 0 then pure r.1 else
  pure ((r.2.length : Int) - 1)

/-- The loop of `sys_exec`: a page for each argument string. -/
def fetchArgs (p uargv : Nat) : Nat → List Nat → Prog Kernel (Bool × List Nat)
  | 0, argv => pure (false, argv)
  | i+1, argv => do
    match ← fetchaddr p ((uargv + 8*argv.length) % 2^64) with
    | none => pure (false, argv)
    | some uarg =>
      if uarg = 0 then pure (true, argv) else
      match ← holdPage with
      | none => pure (false, argv)
      | some pa =>
        let r ← fetchstr p uarg pa PGSIZE
        if r < 0 then pure (false, argv ++ [pa]) else
        fetchArgs p uargv i (argv ++ [pa])

def freeArgs : List Nat → Prog Kernel Unit
  | [] => pure ()
  | pa :: argv => do
    dropPage pa
    freeArgs argv

def sys_exec (namei : List UInt8 → Option (List UInt8)) (p path uargv : Nat) : Prog Kernel Int := do
  let k ← get
  let r ← inPhys (copyinstr (k.proc p).pagetable path MAXPATH)
  if r.1 < 0 then pure (-1) else
  let args ← fetchArgs p uargv MAXARG []
  if args.1 = false then
    freeArgs args.2
    pure (-1)
  else
    let ret ← exec (namei r.2) p args.2
    freeArgs args.2
    pure ret

end

end Xv6
