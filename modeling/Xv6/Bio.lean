import Xv6.LittleEndian
import Xv6.LogProtocol
import Xv6.RedoLog

/-! `kernel/bio.c` and `kernel/log.c` as one process sees them: the disk, the
blocks in the buffer cache, and the log in memory and on disk. The cache has no
bound here; a block that leaves it is read from the disk again. -/
namespace Xv6

open Function

def BSIZE : Nat := 1024

/-- `start` and `size` are the place of the log on disk, `lh` the blocks of
`log.lh`, and `writes` all the single-block writes so far. -/
structure Store where
  start : Nat
  size : Nat
  disk : Nat → Bytes
  cache : Nat → Option Bytes
  lh : List Nat
  outstanding : Nat
  writes : List (Nat × Bytes)

/-- What `bread` gives. -/
def Store.view (s : Store) (b : Nat) : Bytes := (s.cache b).getD (s.disk b)

def bread (b : Nat) : Prog Store Bytes := do
  let s ← get
  set { s with cache := update s.cache b (some (s.view b)) }
  pure (s.view b)

def setData (b : Nat) (data : Bytes) : Prog Store Unit :=
  modify fun s => { s with cache := update s.cache b (some data) }

def bwrite (b : Nat) (data : Bytes) : Prog Store Unit :=
  modify fun s => { s with
    disk := update s.disk b data
    cache := update s.cache b (some data)
    writes := s.writes ++ [(b, data)] }

def log_write (b : Nat) : Prog Store Unit := do
  let s ← get
  panicIf (LOGSIZE ≤ s.lh.length ∨ s.size-1 ≤ s.lh.length) "too big a transaction"
  panicIf (s.outstanding < 1) "log_write outside of trans"
  set { s with lh := if b ∈ s.lh then s.lh else s.lh ++ [b] }

/-- `hb->block[i] = ...` for the blocks from index `i` on. -/
def setBlocks (hb : Bytes) : Nat → List Nat → Bytes
  | _, [] => hb
  | i, b :: bs => setBlocks (leSet 4 hb (4+4*i) b) (i+1) bs

def setHeader (hb : Bytes) (lh : List Nat) : Bytes := setBlocks (leSet 4 hb 0 lh.length) 0 lh

/-- The blocks that a header block lists. A count with the sign bit set is negative. -/
def headerBlocks (hb : Bytes) : List Nat :=
  if leGet 4 hb 0 < 2^31 then (List.range (leGet 4 hb 0)).map fun i => leGet 4 hb (4+4*i) else []

/-- A header with more than `LOGSIZE` blocks runs out of `log.lh.block`. -/
def read_head : Prog Store Unit := do
  let s ← get
  let hb ← bread s.start
  panicIf (LOGSIZE < (headerBlocks hb).length) "read_head: block out of bounds"
  modify fun s => { s with lh := headerBlocks hb }

def write_head : Prog Store Unit := do
  let s ← get
  let hb ← bread s.start
  bwrite s.start (setHeader hb s.lh)

def writeLogLoop : List Nat → Nat → Prog Store Unit
  | [], _ => pure ()
  | b :: bs, a => do
    let _ ← bread a
    let from_ ← bread b
    bwrite a from_
    writeLogLoop bs (a+1)

def write_log : Prog Store Unit := do
  let s ← get
  writeLogLoop s.lh (s.start+1)

def installLoop : List Nat → Nat → Prog Store Unit
  | [], _ => pure ()
  | b :: bs, a => do
    let lbuf ← bread a
    let _ ← bread b
    bwrite b lbuf
    installLoop bs (a+1)

def install_trans : Prog Store Unit := do
  let s ← get
  installLoop s.lh (s.start+1)

def recover_from_log : Prog Store Unit := do
  read_head
  install_trans
  modify fun s => { s with lh := [] }
  write_head

def commit : Prog Store Unit := do
  let s ← get
  if 0 < s.lh.length then
    write_log
    write_head
    install_trans
    modify fun s => { s with lh := [] }
    write_head
  else
    pure ()

/-- `begin_op` of a process that finds room in the log. -/
def begin_op : Prog Store Unit := modify fun s => { s with outstanding := s.outstanding+1 }

def end_op : Prog Store Unit := do
  modify fun s => { s with outstanding := s.outstanding-1 }
  let s ← get
  if s.outstanding = 0 then commit else pure ()

/-- The machine after a restart with this disk. -/
def bootStore (start size : Nat) (disk : Nat → Bytes) : Store where
  start := start
  size := size
  disk := disk
  cache _ := none
  lh := []
  outstanding := 0
  writes := []

section View
variable (s : Store)

/-- The buffer of block `b` gets `data`, and no other block of the disk changes. -/
theorem view_cached {s' : Store} {b : Nat} {data : Bytes}
    (hc : s'.cache = update s.cache b (some data)) (hd : ∀ x, x ≠ b → s'.disk x = s.disk x) :
    s'.view = update s.view b data := by
  funext x
  simp only [Store.view, hc]
  by_cases hx : x = b
  · subst hx
    rw [update_self, Option.getD_some, update_self]
  · rw [update_of_ne hx, update_of_ne hx, hd x hx]
    rfl

theorem view_update (b : Nat) (data : Bytes) :
    ({ s with cache := update s.cache b (some data) } : Store).view = update s.view b data :=
  view_cached s rfl fun _ _ => rfl

end View

/-- The writes `ws` have been done, to the disk and to the buffers. -/
structure Wrote (s s' : Store) (ws : List (Nat × Bytes)) : Prop where
  start : s'.start = s.start
  size : s'.size = s.size
  disk : s'.disk = applyWrites s.disk ws
  view : s'.view = applyWrites s.view ws
  writes : s'.writes = s.writes ++ ws
  lh : s'.lh = s.lh
  outstanding : s'.outstanding = s.outstanding

section Steps
variable {s s' s'' : Store} {ws vs : List (Nat × Bytes)}

theorem Wrote.refl (s : Store) : Wrote s s [] := ⟨rfl, rfl, rfl, rfl, by simp, rfl, rfl⟩

theorem Wrote.trans (h : Wrote s s' ws) (h' : Wrote s' s'' vs) : Wrote s s'' (ws ++ vs) where
  start := h'.start.trans h.start
  size := h'.size.trans h.size
  disk := by rw [h'.disk, h.disk, applyWrites_append]
  view := by rw [h'.view, h.view, applyWrites_append]
  writes := by rw [h'.writes, h.writes, List.append_assoc]
  lh := h'.lh.trans h.lh
  outstanding := h'.outstanding.trans h.outstanding

theorem Wrote.view_of_ne {w : Nat × Bytes} (h : Wrote s s' [w]) {x : Nat} (hx : x ≠ w.1) :
    s'.view x = s.view x := by
  rw [h.view]
  exact update_of_ne hx _ _

theorem bread_spec (s : Store) (b : Nat) :
    Runs (bread b) s fun data s' => data = s.view b ∧ Wrote s s' [] := by
  unfold bread
  simp only [runs_bind, runs_get, runs_set, runs_pure]
  refine ⟨trivial, rfl, rfl, rfl, ?_, by simp, rfl, rfl⟩
  rw [view_update]
  exact update_eq_self b s.view

theorem bwrite_spec (s : Store) (b : Nat) (data : Bytes) :
    Runs (bwrite b data) s fun _ s' => Wrote s s' [(b, data)] := by
  unfold bwrite
  rw [runs_modify]
  exact ⟨rfl, rfl, rfl, view_cached s rfl fun _ hx => update_of_ne hx _ _, rfl, rfl, rfl⟩

end Steps

section Header
variable (hb : Bytes)

theorem setBlocks_get (bs : List Nat) : ∀ (hb : Bytes) (i o : Nat), o+4 ≤ 4+4*i →
    leGet 4 (setBlocks hb i bs) o = leGet 4 hb o := by
  induction bs with
  | nil => intro hb i o _; rfl
  | cons b bs ih =>
    intro hb i o ho
    rw [setBlocks, ih _ (i+1) o (by omega), leGet_leSet_of_disjoint 4 4 hb o _ b (Or.inl ho)]

theorem setBlocks_map (bs : List Nat) : ∀ (hb : Bytes) (i : Nat), (∀ b ∈ bs, b < 2^32) →
    (List.range' i bs.length).map (fun j => leGet 4 (setBlocks hb i bs) (4+4*j)) = bs := by
  induction bs with
  | nil => intro hb i _; rfl
  | cons b bs ih =>
    intro hb i hlt
    have hb32 : b % 256^4 = b := Nat.mod_eq_of_lt (hlt b (by simp))
    rw [List.length_cons, List.range'_succ, List.map_cons, setBlocks,
      setBlocks_get bs _ (i+1) (4+4*i) (by omega), leGet_leSet_same, hb32,
      ih _ (i+1) fun x hx => hlt x (List.mem_cons_of_mem _ hx)]

theorem headerBlocks_setHeader {lh : List Nat} (hlen : lh.length < 2^31)
    (hlt : ∀ b ∈ lh, b < 2^32) : headerBlocks (setHeader hb lh) = lh := by
  have hcount : leGet 4 (setHeader hb lh) 0 = lh.length := by
    unfold setHeader
    rw [setBlocks_get lh _ 0 0 (by omega), leGet_leSet_same]
    apply Nat.mod_eq_of_lt
    norm_num
    omega
  unfold headerBlocks
  rw [hcount, if_pos hlen, List.range_eq_range']
  exact setBlocks_map lh _ 0 hlt

end Header

end Xv6
