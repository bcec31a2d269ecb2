import Xv6.Interleave

/-! `kernel/virtio_disk.c` with any number of buffers. A call of `virtio_disk_rw` is known
by its buffer, since nobody else reads or writes that buffer meanwhile. Its sections
under `disk.vdisk_lock` are steps, and so is each round of the loop of
`virtio_disk_intr`, which has the lock from its first round to its last. The device takes
chains from the available ring and puts them into the used ring whenever it likes. -/
namespace Xv6.Virtio

open Function

def NUM : Nat := 8

def VRING_DESC_F_NEXT : BitVec 16 := 1
def VRING_DESC_F_WRITE : BitVec 16 := 2

variable {β : Type}

/-- What a descriptor points to: the header of the request on the stack of the caller,
`b->data`, or `disk.info[i].status`. -/
inductive Addr (β : Type)
  | null
  | header (b : β) (write : Bool)
  | data (b : β)
  | status (i : Nat)

structure VRingDesc (β : Type) where
  addr : Addr β
  len : Nat
  flags : BitVec 16
  next : Nat

/-- `disk.info[i]` -/
@[ext] structure Info (β : Type) where
  b : Option β
  status : Nat

/-- Where the call for a buffer stands: outside, without descriptors, or in the loop that
waits for the device, with the array `idx`. -/
inductive Pc
  | out
  | alloc (write : Bool)
  | wait (i j k : Nat)
  deriving DecidableEq

/-- `struct disk`, the fields `b->disk`, the calls, whether `virtio_disk_intr` runs, and
the device: how far it has looked in the available ring, and the chains that it works on.
A record keeps for each chain the buffer it was last submitted with, the buffers whose
chains were completed, and those that `virtio_disk_intr` has seen. -/
structure State (β : Type) where
  free : Nat → Bool
  desc : Nat → VRingDesc β
  info : Nat → Info β
  avail : Nat → Nat
  availIdx : BitVec 16
  elems : Nat → Nat
  usedId : BitVec 16
  used_idx : Nat
  disk : β → Bool
  pc : β → Pc
  intr : Bool
  seen : BitVec 16
  pending : List Nat
  chain : Nat → Option β
  completed : List β
  cleared : List β

def State.Fresh (s : State β) : Prop :=
  (∀ i, i < NUM → s.free i = true) ∧ s.availIdx = 0 ∧ s.usedId = 0 ∧ s.used_idx = 0 ∧
    (∀ b, s.disk b = false) ∧ (∀ b, s.pc b = .out) ∧ s.intr = false ∧ s.seen = 0 ∧
    s.pending = [] ∧ s.completed = [] ∧ s.cleared = []

def alloc_desc : Prog (State β) (Option Nat) := do
  let s ← get
  match (List.range NUM).find? s.free with
  | some i =>
    set { s with free := update s.free i false }
    pure (some i)
  | none => pure none

def free_desc (i : Nat) : Prog (State β) Unit := do
  panicIf (NUM ≤ i) "virtio_disk_intr 1"
  let s ← get
  panicIf (s.free i = true) "virtio_disk_intr 2"
  set { s with
    desc := update s.desc i { s.desc i with addr := .null }
    free := update s.free i true }

def free_chain : Nat → Nat → Prog (State β) Unit
  | 0, _ => throw "free_chain: runs for ever"
  | n+1, i => do
    free_desc i
    let s ← get
    if (s.desc i).flags &&& VRING_DESC_F_NEXT ≠ 0 then
      free_chain n (s.desc i).next

/-- The three rounds of `alloc3_desc`, each of which gives back what the ones before it
got when it fails. -/
def alloc3_desc : Prog (State β) (Option (Nat × Nat × Nat)) := do
  match ← alloc_desc with
  | none => pure none
  | some i =>
    match ← alloc_desc with
    | none =>
      free_desc i
      pure none
    | some j =>
      match ← alloc_desc with
      | none =>
        free_desc i
        free_desc j
        pure none
      | some k => pure (some (i, j, k))

/-- The device takes the next chain from the available ring. -/
def State.fetch (s : State β) : State β :=
  { s with
    pending := s.avail (s.seen.toNat % NUM) :: s.pending
    seen := s.seen + 1 }

/-- The device stores the status 0 through the last descriptor of chain `i`. -/
def State.putStatus (s : State β) (i : Nat) : Nat → Info β :=
  match (s.desc (s.desc (s.desc i).next).next).addr with
  | .status x => update s.info x { s.info x with status := 0 }
  | _ => s.info

/-- The device completes the `n`-th of the chains that it works on. -/
def State.complete (s : State β) (n : Nat) : State β :=
  match s.pending[n]? with
  | none => s
  | some i =>
    { s with
      info := s.putStatus i
      elems := update s.elems (s.usedId.toNat % NUM) i
      usedId := s.usedId + 1
      pending := s.pending.eraseIdx n
      completed := s.completed ++ (s.chain i).toList }

variable [DecidableEq β]

/-- `virtio_disk_rw` from the three descriptors to the first `sleep(b, ...)`. -/
def State.submit (s : State β) (b : β) (write : Bool) (i j k : Nat) : State β :=
  let desc := update s.desc i ⟨.header b write, 16, VRING_DESC_F_NEXT, j⟩
  let desc := update desc j
    ⟨.data b, 1024, (if write then 0 else VRING_DESC_F_WRITE) ||| VRING_DESC_F_NEXT, k⟩
  let desc := update desc k ⟨.status i, 1, VRING_DESC_F_WRITE, 0⟩
  { s with
    desc := desc
    info := update s.info i ⟨some b, 0⟩
    disk := update s.disk b true
    avail := update s.avail (s.availIdx.toNat % NUM) i
    availIdx := s.availIdx + 1
    pc := update s.pc b (.wait i j k)
    chain := update s.chain i (some b) }

/-- The first section of `virtio_disk_rw`; without descriptors it sleeps and tries again. -/
def rwBegin (b : β) (write : Bool) : Prog (State β) Unit := do
  match ← alloc3_desc with
  | none => pure ()
  | some (i, j, k) => modify fun s => s.submit b write i j k

/-- The rest of `virtio_disk_rw`, when it wakes up. -/
def rwEnd (b : β) (i : Nat) : Prog (State β) Unit := do
  let s ← get
  if s.disk b then
    pure ()
  else
    set { s with info := update s.info i { s.info i with b := none } }
    free_chain (NUM+1) i
    modify fun s => { s with pc := update s.pc b .out }

/-- One round of the loop of `virtio_disk_intr`. A null `info[id].b` is a fault in the
kernel. -/
def intrRound : Prog (State β) Unit := do
  let s ← get
  let id := s.elems s.used_idx
  panicIf ((s.info id).status ≠ 0) "virtio_disk_intr status"
  match (s.info id).b with
  | none => throw "kerneltrap"
  | some b =>
    set { s with
      disk := update s.disk b false
      used_idx := (s.used_idx+1) % NUM
      cleared := s.cleared ++ [b] }

inductive Op (β : Type)
  | call (b : β) (write : Bool)
  | begin (b : β)
  | wake (b : β)
  | intrBegin
  | intrRound
  | intrEnd
  | fetch
  | complete (n : Nat)

/-- `disk.used_idx % NUM != disk.used->id % NUM` -/
def State.behind (s : State β) : Prop := s.used_idx % NUM ≠ s.usedId.toNat % NUM

def Op.run : Op β → Prog (State β) Unit
  | .call b write => modify fun s => { s with pc := update s.pc b (.alloc write) }
  | .begin b => do
    let s ← get
    match s.pc b with
    | .alloc write => rwBegin b write
    | _ => pure ()
  | .wake b => do
    let s ← get
    match s.pc b with
    | .wait i _ _ => rwEnd b i
    | _ => pure ()
  | .intrBegin => modify fun s => { s with intr := true }
  | .intrRound => Virtio.intrRound
  | .intrEnd => modify fun s => { s with intr := false }
  | .fetch => modify State.fetch
  | .complete n => modify fun s => s.complete n

def Op.enabled (s : State β) : Op β → Prop
  | .call b _ => s.pc b = .out
  | .begin b => s.intr = false ∧ ∃ write, s.pc b = .alloc write
  | .wake b => s.intr = false ∧ ∃ i j k, s.pc b = .wait i j k
  | .intrBegin => s.intr = false
  | .intrRound => s.intr = true ∧ s.behind
  | .intrEnd => s.intr = true ∧ ¬ s.behind
  | .fetch => s.seen ≠ s.availIdx
  | .complete n => n < s.pending.length

abbrev Reachable : State β → Prop := Reaches State.Fresh Op.enabled Op.run

end Xv6.Virtio
