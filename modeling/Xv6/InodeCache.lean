import Xv6.FsFormat

/-! The inode cache of `kernel/fs.c` under every interleaving. Each section under
`icache.lock` and each section with an inode's buffer is one step, and so are taking
and releasing the sleep lock of an entry. `iput` gives `icache.lock` up while it
frees an inode, so `ialloc` and `iget` can run in the middle of it. -/
namespace Xv6

open Function

/-- Where a process stands in a function of the inode cache: in `ilock` before and
after `acquiresleep`, in the loop of `ialloc` and behind it, and in `iput` from the
moment it has locked the entry. `itrunc` has cleared the first `k` addresses. -/
inductive ICachePc (M : Nat)
  | idle
  | waiting (i : ISlot) (r : Fin M)
  | loading (i : ISlot)
  | scanning (dev inum : Nat) (type : BitVec 16)
  | found (dev inum : Nat)
  | trunc (i : ISlot) (k : Nat)
  | truncated (i : ISlot)
  | cleared (i : ISlot)
  | dropping (i : ISlot)
  deriving DecidableEq

/-- The cache as `N` processes see it. `M` places in memory (variables, open files,
current directories) can hold a pointer to an entry, and `ref` counts such pointers,
of which there are far fewer than 2^31. A locked entry knows its locker and the
pointer through which it was locked; `iput` has given its pointer up. `dirty` says
that an entry was changed after its last `iupdate`, and `disk` are the inodes as
`bread` gives them. -/
structure ICache (N M : Nat) where
  key : ISlot → Nat × Nat
  ref : ISlot → Nat
  valid : ISlot → Bool
  fields : ISlot → Dinode
  lock : ISlot → Option (Fin N × Option (Fin M))
  dirty : ISlot → Bool
  ptr : Fin M → Option ISlot
  pc : Fin N → ICachePc M
  disk : Nat × Nat → Dinode

variable {N M : Nat}

def ICache.boot (N M : Nat) (disk : Nat × Nat → Dinode) : ICache N M where
  key _ := (0, 0)
  ref _ := 0
  valid _ := false
  fields _ := Dinode.new 0
  lock _ := none
  dirty _ := false
  ptr _ := none
  pc _ := .idle
  disk := disk

def ICache.move (s : ICache N M) (p : Fin N) (x : ICachePc M) : ICache N M :=
  { s with pc := update s.pc p x }

def ICache.cached (s : ICache N M) (key : Nat × Nat) : Option ISlot :=
  (List.finRange NINODE).find? fun i => decide (0 < s.ref i ∧ s.key i = key)

def ICache.empty (s : ICache N M) : Option ISlot :=
  (List.finRange NINODE).find? fun i => decide (s.ref i = 0)

/-- `iget`, with the result stored in place `r`. -/
def icacheGet (r : Fin M) (key : Nat × Nat) : Prog (ICache N M) Unit := do
  let s ← get
  match s.cached key with
  | some i =>
    set { s with
      ref := update s.ref i (s.ref i + 1)
      ptr := update s.ptr r (some i) }
  | none =>
    match s.empty with
    | some i =>
      set { s with
        key := update s.key i key
        ref := update s.ref i 1
        valid := update s.valid i false
        ptr := update s.ptr r (some i) }
    | none => throw "iget: no inodes"

/-- `idup` of the pointer in `r`, with the result stored in `r'`. -/
def icacheDup (r r' : Fin M) : Prog (ICache N M) Unit :=
  modify fun s =>
    match s.ptr r with
    | some i => { s with
        ref := update s.ref i (s.ref i + 1)
        ptr := update s.ptr r' (some i) }
    | none => s

/-- `ilock` up to `acquiresleep`. -/
def icacheLock (p : Fin N) (r : Fin M) : Prog (ICache N M) Unit := do
  let s ← get
  match s.ptr r with
  | some i =>
    panicIf (s.ref i < 1) "ilock"
    set (s.move p (.waiting i r))
  | none => throw "ilock"

def icacheAcquire (p : Fin N) (i : ISlot) (r : Fin M) : Prog (ICache N M) Unit :=
  modify fun s => { s.move p (.loading i) with
    lock := update s.lock i (some (p, some r)) }

/-- The rest of `ilock`. -/
def icacheLoad (p : Fin N) (i : ISlot) : Prog (ICache N M) Unit := do
  let s ← get
  if s.valid i then
    set (s.move p .idle)
  else
    set { s.move p .idle with
      fields := update s.fields i (s.disk (s.key i))
      valid := update s.valid i true
      dirty := update s.dirty i false }
    panicIf ((s.disk (s.key i)).type = 0) "ilock: no type"

def icacheModify (i : ISlot) (d : Dinode) : Prog (ICache N M) Unit :=
  modify fun s => { s with
    fields := update s.fields i d
    dirty := update s.dirty i true }

def icacheUpdate (i : ISlot) : Prog (ICache N M) Unit :=
  modify fun s => { s with
    disk := update s.disk (s.key i) (s.fields i)
    dirty := update s.dirty i false }

def icacheUnlock (p : Fin N) (i : ISlot) : Prog (ICache N M) Unit := do
  let s ← get
  panicIf ((s.lock i).map Prod.fst ≠ some p ∨ s.ref i < 1) "iunlock"
  set { s with lock := update s.lock i none }

/-- `iput` up to the first `release`. A process that sleeps with `icache.lock` held
panics in `sched`. -/
def icachePut (p : Fin N) (r : Fin M) : Prog (ICache N M) Unit := do
  let s ← get
  match s.ptr r with
  | some i =>
    if s.ref i = 1 ∧ s.valid i = true ∧ (s.fields i).nlink = 0 then
      panicIf (s.lock i ≠ none) "sched locks"
      set { s.move p (.trunc i 0) with
        lock := update s.lock i (some (p, none))
        ptr := update s.ptr r none }
    else
      set { s with
        ref := update s.ref i (s.ref i - 1)
        ptr := update s.ptr r none }
  | none => pure ()

/-- What `iput` does between `release` and the second `acquire`: one address of
`itrunc`, the end of `itrunc`, `ip->type = 0` with `iupdate`, and `valid = 0` with
`releasesleep`. -/
def icacheFree (p : Fin N) : Prog (ICache N M) Unit :=
  modify fun s =>
    match s.pc p with
    | .trunc i k =>
      if h : k < NDIRECT+1 then
        { s.move p (.trunc i (k+1)) with
          fields := update s.fields i { s.fields i with
            addrs := update (s.fields i).addrs ⟨k, h⟩ 0 } }
      else
        { s.move p (.truncated i) with
          fields := update s.fields i { s.fields i with size := 0 }
          disk := update s.disk (s.key i) { s.fields i with size := 0 } }
    | .truncated i =>
      { s.move p (.cleared i) with
        fields := update s.fields i { s.fields i with type := 0 }
        disk := update s.disk (s.key i) { s.fields i with type := 0 } }
    | .cleared i =>
      { s.move p (.dropping i) with
        valid := update s.valid i false
        lock := update s.lock i none }
    | _ => s

/-- The last section of `iput`. -/
def icacheDrop (p : Fin N) : Prog (ICache N M) Unit :=
  modify fun s =>
    match s.pc p with
    | .dropping i => { s.move p .idle with ref := update s.ref i (s.ref i - 1) }
    | _ => s

/-- One round of the loop of `ialloc`. -/
def icacheScan (ninodes : Nat) (p : Fin N) : Prog (ICache N M) Unit := do
  let s ← get
  match s.pc p with
  | .scanning dev inum type =>
    panicIf (ninodes ≤ inum) "ialloc: no inodes"
    if (s.disk (dev, inum)).type = 0 then
      set { s.move p (.found dev inum) with
        disk := update s.disk (dev, inum) (Dinode.new type) }
    else
      set (s.move p (.scanning dev (inum+1) type))
  | _ => pure ()

/-- The call of `iget` at the end of `ialloc`. -/
def icacheTake (p : Fin N) (r : Fin M) : Prog (ICache N M) Unit := do
  let s ← get
  match s.pc p with
  | .found dev inum => do
    icacheGet r (dev, inum)
    modify fun s => s.move p .idle
  | _ => pure ()

inductive ICacheOp (N M : Nat)
  | iget (p : Fin N) (r : Fin M) (dev inum : Nat)
  | idup (p : Fin N) (r r' : Fin M)
  | ilock (p : Fin N) (r : Fin M)
  | acquire (p : Fin N) (i : ISlot) (r : Fin M)
  | load (p : Fin N) (i : ISlot)
  | change (p : Fin N) (i : ISlot) (d : Dinode)
  | iupdate (p : Fin N) (i : ISlot)
  | iunlock (p : Fin N) (i : ISlot)
  | iput (p : Fin N) (r : Fin M)
  | free (p : Fin N)
  | drop (p : Fin N)
  | ialloc (p : Fin N) (dev : Nat) (type : BitVec 16)
  | scan (p : Fin N)
  | take (p : Fin N) (r : Fin M)

/-- No process locks, or waits to lock, an entry through this pointer. -/
def ICache.Unused (s : ICache N M) (r : Fin M) : Prop :=
  (∀ q i, s.pc q ≠ .waiting i r) ∧ ∀ i q, s.lock i ≠ some (q, some r)

def ICache.Holds (s : ICache N M) (p : Fin N) (i : ISlot) : Prop :=
  s.pc p = .idle ∧ ∃ r, s.lock i = some (p, some r)

/-- The protocol of the callers: one thing after the other, through pointers that
are kept while they are in use; a lock is not released before `iupdate`, and only
`iput` makes an inode free. -/
def ICacheOp.enabled (s : ICache N M) : ICacheOp N M → Prop
  | .iget p r _ _ => s.pc p = .idle ∧ s.ptr r = none
  | .idup p r r' => s.pc p = .idle ∧ s.ptr r ≠ none ∧ s.ptr r' = none
  | .ilock p r => s.pc p = .idle ∧ s.ptr r ≠ none
  | .acquire p i r => s.pc p = .waiting i r ∧ s.lock i = none
  | .load p i => s.pc p = .loading i
  | .change p i d => s.Holds p i ∧ d.type ≠ 0
  | .iupdate p i => s.Holds p i
  | .iunlock p i => s.Holds p i ∧ s.dirty i = false
  | .iput p r => s.pc p = .idle ∧ s.ptr r ≠ none ∧ s.Unused r
  | .free _ | .drop _ | .scan _ => True
  | .ialloc p _ _ => s.pc p = .idle
  | .take _ r => s.ptr r = none

def ICacheOp.run (ninodes : Nat) : ICacheOp N M → Prog (ICache N M) Unit
  | .iget _ r dev inum => icacheGet r (dev, inum)
  | .idup _ r r' => icacheDup r r'
  | .ilock p r => icacheLock p r
  | .acquire p i r => icacheAcquire p i r
  | .load p i => icacheLoad p i
  | .change _ i d => icacheModify i d
  | .iupdate _ i => icacheUpdate i
  | .iunlock p i => icacheUnlock p i
  | .iput p r => icachePut p r
  | .free p => icacheFree p
  | .drop p => icacheDrop p
  | .ialloc p dev type => modify fun s => s.move p (.scanning dev 1 type)
  | .scan p => icacheScan ninodes p
  | .take p r => icacheTake p r

/-- The states of the cache from boot on, with this disk at boot. -/
inductive ICacheReachable (ninodes : Nat) (disk : Nat × Nat → Dinode) : ICache N M → Prop
  | boot : ICacheReachable ninodes disk (ICache.boot N M disk)
  | step {s s' : ICache N M} {op : ICacheOp N M} : ICacheReachable ninodes disk s →
      op.enabled s → op.run ninodes s = .ok ((), s') → ICacheReachable ninodes disk s'

def ptrAt (i : ISlot) (x : Option ISlot) : Nat := if x = some i then 1 else 0

/-- 1 for an `iput` of entry `i` that has given its pointer up and not yet counted
it down. -/
def ICachePc.at (i : ISlot) : ICachePc M → Nat
  | .trunc j _ | .truncated j | .cleared j | .dropping j => if j = i then 1 else 0
  | _ => 0

/-- An `iput` that has entry `i` locked. -/
def ICachePc.frees (i : ISlot) : ICachePc M → Prop
  | .trunc j _ | .truncated j | .cleared j => j = i
  | _ => False

/-- A valid entry holds an allocated inode, and after `iupdate` what is on disk. -/
structure Synced (s : ICache N M) (i : ISlot) : Prop where
  type : (s.fields i).type ≠ 0
  disk : (s.disk (s.key i)).type ≠ 0
  same : s.dirty i = false → s.fields i = s.disk (s.key i)

structure ICacheInv (s : ICache N M) : Prop where
  refs : ∀ i, s.ref i = total (ptrAt i) s.ptr + total (ICachePc.at i) s.pc
  unique : ∀ i j, 0 < s.ref i → 0 < s.ref j → s.key i = s.key j → i = j
  waiting : ∀ p i r, s.pc p = .waiting i r → s.ptr r = some i
  held : ∀ i p r, s.lock i = some (p, some r) → s.ptr r = some i
  loading : ∀ p i, s.pc p = .loading i → ∃ r, s.lock i = some (p, some r)
  freeing : ∀ i p, s.lock i = some (p, none) ↔ (s.pc p).frees i
  sync : ∀ i, 0 < s.ref i → s.valid i = true → (∀ p, s.lock i ≠ some (p, none)) → Synced s i
  clean : ∀ i, (∀ p r, s.lock i ≠ some (p, some r)) → s.dirty i = false

section Refs
variable {s : ICache N M} {i j : ISlot} {p q : Fin N} {r r' : Fin M}

theorem ptrAt_none (i : ISlot) : ptrAt i none = 0 := rfl

theorem ptrAt_some (i j : ISlot) : ptrAt i (some j) = if i = j then 1 else 0 := by
  unfold ptrAt
  simp [eq_comm]

theorem ref_pos_of_ptr (h : ICacheInv s) (hr : s.ptr r = some i) : 0 < s.ref i := by
  have hle := le_total (ptrAt i) s.ptr r
  rw [hr, ptrAt_some, if_pos rfl] at hle
  have := h.refs i
  omega

theorem at_of_frees {x : ICachePc M} (hx : x.frees i) : x.at i = 1 := by
  cases x with
  | trunc j k => exact if_pos hx
  | truncated j => exact if_pos hx
  | cleared j => exact if_pos hx
  | _ => exact hx.elim

theorem ref_pos_of_pc (h : ICacheInv s) (hp : (s.pc p).at i = 1) : 0 < s.ref i := by
  have hle := le_total (ICachePc.at i) s.pc p
  have := h.refs i
  omega

theorem ref_pos_of_lock (h : ICacheInv s) (hl : s.lock i ≠ none) : 0 < s.ref i := by
  obtain ⟨⟨q, r⟩, hq⟩ := Option.ne_none_iff_exists'.mp hl
  cases r with
  | some r => exact ref_pos_of_ptr h (h.held i q r hq)
  | none => exact ref_pos_of_pc h (at_of_frees ((h.freeing i q).mp hq))

theorem cached_some_slot {key : Nat × Nat} (h : s.cached key = some i) :
    0 < s.ref i ∧ s.key i = key :=
  of_decide_eq_true (List.find?_some h :)

theorem cached_none_slot {key : Nat × Nat} (h : s.cached key = none) (i : ISlot)
    (hi : 0 < s.ref i) : s.key i ≠ key := by
  intro hk
  exact List.find?_eq_none.mp h i (List.mem_finRange i) (decide_eq_true ⟨hi, hk⟩)

theorem empty_some_slot (h : s.empty = some i) : s.ref i = 0 :=
  of_decide_eq_true (List.find?_some h :)

theorem ICacheInv.recount (h : ICacheInv s) {x : Option ISlot} {n : Nat}
    (hi : n + ptrAt i (s.ptr r) = s.ref i + ptrAt i x)
    (hother : ∀ j, j ≠ i → ptrAt j x = ptrAt j (s.ptr r)) (j : ISlot) :
    update s.ref i n j = total (ptrAt j) (update s.ptr r x) + total (ICachePc.at j) s.pc := by
  have hsum := total_update (ptrAt j) s.ptr r x
  have hj := h.refs j
  by_cases hji : j = i
  · subst hji
    rw [update_self]
    omega
  · rw [update_of_ne hji, total_update_same _ _ (hother j hji)]
    exact hj

theorem ICacheInv.refs_move (h : ICacheInv s) {x : ICachePc M}
    (hx : ∀ j, x.at j = (s.pc p).at j) (j : ISlot) :
    s.ref j = total (ptrAt j) s.ptr + total (ICachePc.at j) (update s.pc p x) := by
  rw [total_update_same _ _ (hx j)]
  exact h.refs j

/-- Process `p` moves and the lock of entry `i` changes. Both sides of `freeing` follow. -/
theorem ICacheInv.freeing_update (h : ICacheInv s) {x : ICachePc M}
    {l : Option (Fin N × Option (Fin M))} (hi : l = some (p, none) ↔ x.frees i)
    (hp : ∀ j, j ≠ i → ((s.pc p).frees j ↔ x.frees j))
    (hq : ∀ q, q ≠ p → (s.lock i = some (q, none) ↔ l = some (q, none))) (j : ISlot) (q : Fin N) :
    update s.lock i l j = some (q, none) ↔ (update s.pc p x q).frees j := by
  rw [update_apply, update_apply]
  split_ifs with hji hqp hqp
  · rw [hji, hqp]
    exact hi
  · rw [hji, ← h.freeing i q]
    exact (hq q hqp).symm
  · rw [hqp, h.freeing j p]
    exact hp j hji
  · exact h.freeing j q

/-- What `sync` needs to know about the locks, before the lock of entry `i` changed. -/
theorem lock_before {l : Option (Fin N × Option (Fin M))} (hi : ∀ q, s.lock i ≠ some (q, none))
    (hj : ∀ q, update s.lock i l j ≠ some (q, none)) (q : Fin N) : s.lock j ≠ some (q, none) :=
  fun hq => hj q (update_keeps hq (hi q))

theorem Synced.congr {s' : ICache N M} (h : Synced s i) (hf : s'.fields i = s.fields i)
    (hd : s'.disk (s'.key i) = s.disk (s.key i)) (hy : s'.dirty i = s.dirty i) : Synced s' i := by
  refine ⟨?_, ?_, ?_⟩
  · rw [hf]
    exact h.type
  · rw [hd]
    exact h.disk
  · rw [hf, hd, hy]
    exact h.same

end Refs

section Steps
variable {s : ICache N M} {i : ISlot} {p : Fin N} {r : Fin M}

/-- A process moves between places where it has no reference of its own. -/
theorem ICacheInv.move (h : ICacheInv s) {x : ICachePc M}
    (hold : ∀ i, (s.pc p).at i = 0) (hnew : ∀ i, x.at i = 0)
    (hw : ∀ i r, x = .waiting i r → s.ptr r = some i)
    (hl : ∀ i, x = .loading i → ∃ r, s.lock i = some (p, some r)) : ICacheInv (s.move p x) := by
  refine ⟨?_, h.unique, ?_, h.held, ?_, ?_, ?_, h.clean⟩
  · exact h.refs_move fun j => (hnew j).trans (hold j).symm
  · intro q i r hq
    obtain ⟨_, hx⟩ | ⟨_, hx⟩ := update_eq hq
    · exact hw i r hx
    · exact h.waiting q i r hx
  · intro q i hq
    obtain ⟨rfl, hx⟩ | ⟨_, hx⟩ := update_eq hq
    · exact hl i hx
    · exact h.loading q i hx
  · intro i q
    change s.lock i = _ ↔ (update s.pc p x q).frees i
    rw [h.freeing i q, update_apply]
    split_ifs with hqp
    · -- Neither place is in the middle of an `iput`.
      have hno {y : ICachePc M} (hy : y.at i = 0) : ¬ y.frees i := by
        intro hf
        have := at_of_frees hf
        omega
      rw [hqp]
      exact iff_of_false (hno (hold i)) (hno (hnew i))
    · exact Iff.rfl
  · intro i hi hv hlk
    exact (h.sync i hi hv hlk).congr rfl rfl rfl

theorem ICacheInv.goto (h : ICacheInv s) {x : ICachePc M} (hold : ∀ i, (s.pc p).at i = 0)
    (hnew : ∀ i, x.at i = 0) (hw : ∀ i r, x ≠ .waiting i r) (hl : ∀ i, x ≠ .loading i) :
    ICacheInv (s.move p x) :=
  h.move hold hnew (fun i r hx => absurd hx (hw i r)) (fun i hx => absurd hx (hl i))

theorem ICacheInv.addPtr (h : ICacheInv s) (hr : s.ptr r = none) (hi : 0 < s.ref i) :
    ICacheInv { s with
      ref := update s.ref i (s.ref i + 1)
      ptr := update s.ptr r (some i) } := by
  have hpos (j : ISlot) (hj : 0 < update s.ref i (s.ref i + 1) j) : 0 < s.ref j := by
    rw [update_apply] at hj
    split_ifs at hj with hji
    · rw [hji]
      exact hi
    · exact hj
  refine ⟨?_, ?_, ?_, ?_, h.loading, h.freeing, ?_, h.clean⟩
  · apply h.recount
    · rw [hr, ptrAt_none, ptrAt_some, if_pos rfl]
    · intro j hji
      rw [hr, ptrAt_none, ptrAt_some, if_neg hji]
  · intro j k hj hk hkey
    exact h.unique j k (hpos j hj) (hpos k hk) hkey
  · intro q j r' hq
    exact update_keeps (h.waiting q j r' hq) (by simp [hr])
  · intro j q r' hq
    exact update_keeps (h.held j q r' hq) (by simp [hr])
  · intro j hj hv hlk
    exact (h.sync j (hpos j hj) hv hlk).congr rfl rfl rfl

/-- `iget` of an inode that is not in the cache, with a free entry. -/
theorem ICacheInv.recycle (h : ICacheInv s) {key : Nat × Nat} (hr : s.ptr r = none)
    (hno : ∀ j, 0 < s.ref j → s.key j ≠ key) (hi : s.ref i = 0) :
    ICacheInv { s with
      key := update s.key i key
      ref := update s.ref i 1
      valid := update s.valid i false
      ptr := update s.ptr r (some i) } := by
  refine ⟨?_, ?_, ?_, ?_, h.loading, h.freeing, ?_, h.clean⟩
  · apply h.recount
    · rw [hr, hi, ptrAt_none, ptrAt_some, if_pos rfl]
    · intro j hji
      rw [hr, ptrAt_none, ptrAt_some, if_neg hji]
  · intro j k hj hk hkey
    dsimp only at hj hk hkey
    by_cases hji : j = i
    · by_cases hki : k = i
      · rw [hji, hki]
      · rw [hji, update_self, update_of_ne hki] at hkey
        rw [update_of_ne hki] at hk
        exact absurd hkey.symm (hno k hk)
    · rw [update_of_ne hji] at hj hkey
      by_cases hki : k = i
      · rw [hki, update_self] at hkey
        exact absurd hkey (hno j hj)
      · rw [update_of_ne hki] at hk hkey
        exact h.unique j k hj hk hkey
  · intro q j r' hq
    exact update_keeps (h.waiting q j r' hq) (by simp [hr])
  · intro j q r' hq
    exact update_keeps (h.held j q r' hq) (by simp [hr])
  · intro j hj hv hlk
    obtain ⟨_, hv⟩ | ⟨hji, hv⟩ := update_eq hv
    · cases hv
    · dsimp only at hj
      rw [update_of_ne hji] at hj
      refine (h.sync j hj hv hlk).congr rfl ?_ rfl
      dsimp only
      rw [update_of_ne hji]

theorem icacheGet_inv (h : ICacheInv s) {key : Nat × Nat} (hr : s.ptr r = none) :
    Ends (icacheGet r key) s fun _ s' => ICacheInv s' ∧ s'.pc = s.pc := by
  apply ends_get
  cases hc : s.cached key with
  | some i => exact ends_set ⟨h.addPtr hr (cached_some_slot hc).1, rfl⟩
  | none =>
    cases he : s.empty with
    | none => exact ends_of_panic rfl
    | some i => exact ends_set ⟨h.recycle hr (cached_none_slot hc) (empty_some_slot he), rfl⟩

theorem ICacheInv.acquire (h : ICacheInv s) (hp : s.pc p = .waiting i r) (hl : s.lock i = none) :
    ICacheInv { s.move p (.loading i) with
      lock := update s.lock i (some (p, some r)) } := by
  refine ⟨?_, h.unique, ?_, ?_, ?_, ?_, ?_, ?_⟩
  · apply h.refs_move
    rw [hp]
    exact fun _ => rfl
  · intro q j r' hq
    exact h.waiting q j r' (update_back hq (by simp))
  · intro j q r' hq
    obtain ⟨rfl, hx⟩ | ⟨_, hx⟩ := update_eq hq
    · cases hx
      exact h.waiting p j r hp
    · exact h.held j q r' hx
  · intro q j hq
    obtain ⟨rfl, hx⟩ | ⟨_, hx⟩ := update_eq hq
    · cases hx
      exact ⟨r, update_self ..⟩
    · obtain ⟨r', hr'⟩ := h.loading q j hx
      exact ⟨r', update_keeps hr' (by simp [hl])⟩
  · apply h.freeing_update
    · exact iff_of_false (by simp) (fun hf => hf.elim)
    · intro j _
      rw [hp]
      exact Iff.rfl
    · intro q _
      simp [hl]
  · intro j hj hv hlk
    exact (h.sync j hj hv (lock_before (by simp [hl]) hlk)).congr rfl rfl rfl
  · intro j hj
    exact h.clean j fun q r' hq => hj q r' (update_keeps hq (by simp [hl]))

theorem ICacheInv.load (h : ICacheInv s) (hp : s.pc p = .loading i)
    (htype : (s.disk (s.key i)).type ≠ 0) :
    ICacheInv { s.move p .idle with
      fields := update s.fields i (s.disk (s.key i))
      valid := update s.valid i true
      dirty := update s.dirty i false } := by
  have hm := h.goto (p := p) (x := .idle) (by rw [hp]; intro; rfl) (fun _ => rfl)
    (by intro _ _ hx; cases hx) (by intro _ hx; cases hx)
  refine ⟨hm.refs, hm.unique, hm.waiting, hm.held, hm.loading, hm.freeing, ?_, ?_⟩
  · intro j hj hv hlk
    obtain ⟨rfl, _⟩ | ⟨hji, hv⟩ := update_eq hv
    · refine ⟨?_, htype, fun _ => update_self ..⟩
      dsimp only
      rw [update_self]
      exact htype
    · exact (hm.sync j hj hv hlk).congr (update_of_ne hji _ _) rfl (update_of_ne hji _ _)
  · intro j hj
    dsimp only
    rw [update_apply]
    split_ifs
    · rfl
    · exact h.clean j hj

theorem ICacheInv.change (h : ICacheInv s) (hp : s.Holds p i) {d : Dinode} (hd : d.type ≠ 0) :
    ICacheInv { s with
      fields := update s.fields i d
      dirty := update s.dirty i true } := by
  refine ⟨h.refs, h.unique, h.waiting, h.held, h.loading, h.freeing, ?_, ?_⟩
  · intro j hj hv hlk
    have hs := h.sync j hj hv hlk
    by_cases hji : j = i
    · subst hji
      refine ⟨?_, hs.disk, ?_⟩
      · dsimp only
        rw [update_self]
        exact hd
      · intro hdirty
        simp at hdirty
    · exact hs.congr (update_of_ne hji _ _) rfl (update_of_ne hji _ _)
  · intro j hj
    obtain ⟨-, r, hr⟩ := hp
    dsimp only
    rw [update_of_ne]
    · exact h.clean j hj
    · rintro rfl
      exact hj p r hr

/-- A write to the inode of one entry is not seen through any other entry. -/
theorem Synced.write (h : ICacheInv s) {j : ISlot} (hj : 0 < s.ref j) (hi : 0 < s.ref i)
    (hji : j ≠ i) (d : Dinode) :
    update s.disk (s.key i) d (s.key j) = s.disk (s.key j) := by
  rw [update_of_ne]
  intro hkey
  exact hji (h.unique j i hj hi hkey)

theorem ICacheInv.iupdate (h : ICacheInv s) (hp : s.Holds p i) :
    ICacheInv { s with
      disk := update s.disk (s.key i) (s.fields i)
      dirty := update s.dirty i false } := by
  obtain ⟨-, r, hr⟩ := hp
  have hi : 0 < s.ref i := ref_pos_of_lock h (by rw [hr]; exact Option.some_ne_none _)
  refine ⟨h.refs, h.unique, h.waiting, h.held, h.loading, h.freeing, ?_, ?_⟩
  · intro j hj hv hlk
    have hs := h.sync j hj hv hlk
    by_cases hji : j = i
    · subst hji
      have hself : update s.disk (s.key j) (s.fields j) (s.key j) = s.fields j := update_self ..
      refine ⟨hs.type, ?_, fun _ => hself.symm⟩
      dsimp only
      rw [hself]
      exact hs.type
    · exact hs.congr rfl (Synced.write h hj hi hji _) (update_of_ne hji _ _)
  · intro j hj
    dsimp only
    rw [update_apply]
    split_ifs
    · rfl
    · exact h.clean j hj

theorem ICacheInv.iunlock (h : ICacheInv s) (hp : s.Holds p i) (hd : s.dirty i = false) :
    ICacheInv { s with lock := update s.lock i none } := by
  obtain ⟨hidle, r, hr⟩ := hp
  refine ⟨h.refs, h.unique, h.waiting, ?_, ?_, ?_, ?_, ?_⟩
  · intro j q r' hq
    exact h.held j q r' (update_back hq (by simp))
  · intro q j hq
    obtain ⟨r', hr'⟩ := h.loading q j hq
    refine ⟨r', update_keeps hr' ?_⟩
    -- The locker is behind its `ilock`, so nobody is inside one with this lock.
    rw [hr]
    rintro heq
    cases heq
    rw [hidle] at hq
    cases hq
  · have hfree := h.freeing_update (p := p) (i := i) (x := s.pc p) (l := none)
      (iff_of_false (by simp) (by rw [hidle]; exact fun hf => hf.elim)) (fun _ _ => Iff.rfl)
      (fun q _ => by simp [hr])
    rw [update_eq_self] at hfree
    exact hfree
  · intro j hj hv hlk
    exact (h.sync j hj hv (lock_before (by simp [hr]) hlk)).congr rfl rfl rfl
  · intro j hj
    by_cases hji : j = i
    · rw [hji]
      exact hd
    · exact h.clean j fun q r' hq => hj q r' ((update_of_ne hji _ _).trans hq)

theorem ptr_kept (hu : s.Unused r) (h : ICacheInv s) :
    (∀ q j r', s.pc q = .waiting j r' → update s.ptr r none r' = some j) ∧
    (∀ j q r', s.lock j = some (q, some r') → update s.ptr r none r' = some j) := by
  constructor
  · intro q j r' hq
    rw [update_of_ne]
    · exact h.waiting q j r' hq
    · rintro rfl
      exact hu.1 q j hq
  · intro j q r' hq
    rw [update_of_ne]
    · exact h.held j q r' hq
    · rintro rfl
      exact hu.2 j q hq

theorem ref_pos_before {j : ISlot} (hj : 0 < update s.ref i (s.ref i - 1) j) : 0 < s.ref j := by
  rw [update_apply] at hj
  split_ifs at hj with hji
  · rw [hji]
    omega
  · exact hj

theorem ICacheInv.dropPtr (h : ICacheInv s) (hr : s.ptr r = some i) (hu : s.Unused r) :
    ICacheInv { s with
      ref := update s.ref i (s.ref i - 1)
      ptr := update s.ptr r none } := by
  obtain ⟨hw, hh⟩ := ptr_kept hu h
  refine ⟨?_, ?_, hw, hh, h.loading, h.freeing, ?_, h.clean⟩
  · apply h.recount
    · have hpos := ref_pos_of_ptr h hr
      rw [hr, ptrAt_none, ptrAt_some, if_pos rfl]
      omega
    · intro j hji
      rw [hr, ptrAt_none, ptrAt_some, if_neg hji]
  · intro j k hj hk hkey
    exact h.unique j k (ref_pos_before hj) (ref_pos_before hk) hkey
  · intro j hj hv hlk
    exact (h.sync j (ref_pos_before hj) hv hlk).congr rfl rfl rfl

/-- With a single reference, held by the caller and not in use, nobody has the lock. -/
theorem lock_free (h : ICacheInv s) (hr : s.ptr r = some i) (hu : s.Unused r)
    (h1 : s.ref i = 1) : s.lock i = none := by
  by_contra hl
  obtain ⟨⟨q, x⟩, hq⟩ := Option.ne_none_iff_exists'.mp hl
  have hrefs := h.refs i
  have hle := le_total (ptrAt i) s.ptr r
  rw [hr, ptrAt_some, if_pos rfl] at hle
  cases x with
  | some r' =>
    -- The locker's pointer is another one, so there are two.
    have hsum := total_update (ptrAt i) s.ptr r none
    rw [hr, ptrAt_none, ptrAt_some, if_pos rfl] at hsum
    have hle' := le_total (ptrAt i) (update s.ptr r none) r'
    rw [(ptr_kept hu h).2 i q r' hq, ptrAt_some, if_pos rfl] at hle'
    omega
  | none =>
    have hat := at_of_frees ((h.freeing i q).mp hq)
    have hle' := le_total (ICachePc.at i) s.pc q
    omega

theorem ICacheInv.beginFree (h : ICacheInv s) (hp : s.pc p = .idle) (hr : s.ptr r = some i)
    (hu : s.Unused r) (hl : s.lock i = none) :
    ICacheInv { s.move p (.trunc i 0) with
      lock := update s.lock i (some (p, none))
      ptr := update s.ptr r none } := by
  obtain ⟨hw, hh⟩ := ptr_kept hu h
  refine ⟨?_, h.unique, ?_, ?_, ?_, ?_, ?_, ?_⟩
  · intro j
    -- The reference goes from the pointer to the process.
    have hsum := total_update (ptrAt j) s.ptr r none
    have hsum' := total_update (ICachePc.at j) s.pc p (.trunc i 0)
    rw [hr, ptrAt_none] at hsum
    rw [hp] at hsum'
    have hj := h.refs j
    change s.ref j = total (ptrAt j) (update s.ptr r none) +
      total (ICachePc.at j) (update s.pc p (.trunc i 0))
    change _ + 0 = _ + (if i = j then 1 else 0) at hsum'
    rw [ptrAt_some, if_congr eq_comm rfl rfl] at hsum
    omega
  · intro q j r' hq
    exact hw q j r' (update_back hq (by simp))
  · intro j q r' hq
    exact hh j q r' (update_back hq (by simp))
  · intro q j hq
    obtain ⟨r', hr'⟩ := h.loading q j (update_back hq (by simp))
    exact ⟨r', update_keeps hr' (by simp [hl])⟩
  · apply h.freeing_update
    · exact iff_of_true rfl rfl
    · intro j hji
      rw [hp]
      exact iff_of_false (fun hf => hf.elim) (Ne.symm hji)
    · intro q hqp
      simp [hl, Ne.symm hqp]
  · intro j hj hv hlk
    exact (h.sync j hj hv (lock_before (by simp [hl]) hlk)).congr rfl rfl rfl
  · intro j hj
    exact h.clean j fun q r' hq => hj q r' (update_keeps hq (by simp [hl]))

/-- The locker of an entry that is being freed goes on. What it writes to the disk
belongs to this inode, which no other entry holds. -/
theorem ICacheInv.freeStep (h : ICacheInv s) {x : ICachePc M} (hp : (s.pc p).frees i)
    (hold : ∀ j, x.at j = (s.pc p).at j) (hx : ∀ j, x.frees j ↔ (s.pc p).frees j)
    (d : Dinode) {disk : Nat × Nat → Dinode} (hdisk : ∀ k, k ≠ s.key i → disk k = s.disk k) :
    ICacheInv { s.move p x with
      fields := update s.fields i d
      disk := disk } := by
  have hlock := (h.freeing i p).mpr hp
  have hi : 0 < s.ref i := ref_pos_of_lock h (by rw [hlock]; exact Option.some_ne_none _)
  have hpc {q : Fin N} {y : ICachePc M} (hy : ∀ j, ¬ y.frees j)
      (hq : update s.pc p x q = y) : s.pc q = y := by
    apply update_back hq
    rintro rfl
    exact hy i ((hx i).mpr hp)
  refine ⟨h.refs_move hold, h.unique, ?_, h.held, ?_, ?_, ?_, h.clean⟩
  · intro q j r' hq
    exact h.waiting q j r' (hpc (fun _ hf => hf.elim) hq)
  · intro q j hq
    exact h.loading q j (hpc (fun _ hf => hf.elim) hq)
  · intro j q
    change s.lock j = _ ↔ (update s.pc p x q).frees j
    rw [h.freeing j q, update_apply]
    split_ifs with hqp
    · rw [hqp]
      exact (hx j).symm
    · exact Iff.rfl
  · intro j hj hv hlk
    have hji : j ≠ i := by
      rintro rfl
      exact hlk p hlock
    have hkey : s.key j ≠ s.key i := fun hk => hji (h.unique j i hj hi hk)
    exact (h.sync j hj hv hlk).congr (update_of_ne hji _ _) (hdisk _ hkey) rfl

theorem ICacheInv.endFree (h : ICacheInv s) (hp : s.pc p = .cleared i) :
    ICacheInv { s.move p (.dropping i) with
      valid := update s.valid i false
      lock := update s.lock i none } := by
  have hlock : s.lock i = some (p, none) := (h.freeing i p).mpr (by rw [hp]; exact rfl)
  refine ⟨?_, h.unique, ?_, ?_, ?_, ?_, ?_, ?_⟩
  · apply h.refs_move
    rw [hp]
    exact fun _ => rfl
  · intro q j r' hq
    exact h.waiting q j r' (update_back hq (by simp))
  · intro j q r' hq
    exact h.held j q r' (update_back hq (by simp))
  · intro q j hq
    obtain ⟨r', hr'⟩ := h.loading q j (update_back hq (by simp))
    exact ⟨r', update_keeps hr' (by simp [hlock])⟩
  · apply h.freeing_update
    · exact iff_of_false (by simp) (fun hf => hf.elim)
    · intro j hji
      rw [hp]
      exact iff_of_false (Ne.symm hji) (fun hf => hf.elim)
    · intro q hqp
      simp [hlock, Ne.symm hqp]
  · intro j hj hv hlk
    obtain ⟨_, hv⟩ | ⟨hji, hv⟩ := update_eq hv
    · cases hv
    · have hlk' (q : Fin N) (hq : s.lock j = some (q, none)) : False :=
        hlk q ((update_of_ne hji _ _).trans hq)
      exact (h.sync j hj hv hlk').congr rfl rfl rfl
  · intro j hj
    exact h.clean j fun q r' hq => hj q r' (update_keeps hq (by simp [hlock]))

theorem ICacheInv.drop (h : ICacheInv s) (hp : s.pc p = .dropping i) :
    ICacheInv { s.move p .idle with ref := update s.ref i (s.ref i - 1) } := by
  refine ⟨?_, ?_, ?_, h.held, ?_, ?_, ?_, h.clean⟩
  · intro j
    have hsum := total_update (ICachePc.at j) s.pc p .idle
    rw [hp] at hsum
    have hj := h.refs j
    change update s.ref i (s.ref i - 1) j =
      total (ptrAt j) s.ptr + total (ICachePc.at j) (update s.pc p .idle)
    change _ + (if i = j then 1 else 0) = _ + 0 at hsum
    rw [update_apply]
    split_ifs at hsum ⊢ with h1 h2 h2
    · subst h1
      omega
    · exact absurd h1.symm h2
    · exact absurd h2.symm h1
    · omega
  · intro j k hj hk hkey
    exact h.unique j k (ref_pos_before hj) (ref_pos_before hk) hkey
  · intro q j r' hq
    exact h.waiting q j r' (update_back hq (by simp))
  · intro q j hq
    exact h.loading q j (update_back hq (by simp))
  · intro j q
    change s.lock j = _ ↔ (update s.pc p _ q).frees j
    rw [h.freeing j q, update_apply]
    split_ifs with hqp
    · rw [hqp, hp]
      exact Iff.rfl
    · exact Iff.rfl
  · intro j hj hv hlk
    exact (h.sync j (ref_pos_before hj) hv hlk).congr rfl rfl rfl

/-- `ialloc` hands a free inode out. If an entry for it is valid, an `iput` that
frees it has still to clear `valid`. -/
theorem ICacheInv.alloc (h : ICacheInv s) {key : Nat × Nat} {x : ICachePc M}
    (hfree : (s.disk key).type = 0) (hold : ∀ i, (s.pc p).at i = 0) (hnew : ∀ i, x.at i = 0)
    (hw : ∀ i r, x ≠ .waiting i r) (hl : ∀ i, x ≠ .loading i) (d : Dinode) :
    ICacheInv { s.move p x with disk := update s.disk key d } := by
  have hm := h.goto hold hnew hw hl
  refine ⟨hm.refs, hm.unique, hm.waiting, hm.held, hm.loading, hm.freeing, ?_, hm.clean⟩
  intro j hj hv hlk
  have hs := h.sync j hj hv hlk
  have hkey : s.key j ≠ key := by
    rintro rfl
    exact hs.disk hfree
  exact hs.congr rfl (update_of_ne hkey _ _) rfl

theorem icacheLock_inv (h : ICacheInv s) (hp : s.pc p = .idle) :
    Ends (icacheLock p r) s fun _ s' => ICacheInv s' := by
  apply ends_get
  cases hr : s.ptr r with
  | none => exact ends_of_panic rfl
  | some i =>
    apply ends_bind
    apply ends_panicIf
    intro _
    apply ends_set
    apply h.move (by rw [hp]; intro; rfl) (fun _ => rfl)
    · intro j r' hx
      cases hx
      exact hr
    · intro j hx
      cases hx

theorem icacheLoad_inv (h : ICacheInv s) (hp : s.pc p = .loading i) :
    Ends (icacheLoad p i) s fun _ s' => ICacheInv s' := by
  apply ends_get
  split_ifs with hv
  · exact ends_set (h.goto (by rw [hp]; intro; rfl) (fun _ => rfl) (by simp) (by simp))
  · apply ends_bind
    apply ends_set
    exact ends_panicIf fun htype => h.load hp htype

theorem icachePut_inv (h : ICacheInv s) (hp : s.pc p = .idle) (hu : s.Unused r) :
    Ends (icachePut p r) s fun _ s' => ICacheInv s' := by
  apply ends_get
  cases hr : s.ptr r with
  | none => exact ends_pure h
  | some i =>
    dsimp only
    split_ifs with hc
    · apply ends_bind
      apply ends_panicIf
      intro _
      exact ends_set (h.beginFree hp hr hu (lock_free h hr hu hc.1))
    · exact ends_set (h.dropPtr hr hu)

theorem icacheFree_inv (h : ICacheInv s) : Ends (icacheFree p) s fun _ s' => ICacheInv s' := by
  apply ends_modify
  have hself (i : ISlot) (d : Dinode) (k : Nat × Nat) (hk : k ≠ s.key i) :
      update s.disk (s.key i) d k = s.disk k := update_of_ne hk _ _
  cases hp : s.pc p with
  | trunc i k =>
    have hf : (s.pc p).frees i := by rw [hp]; exact rfl
    dsimp only
    split_ifs with hk
    · exact h.freeStep hf (by rw [hp]; intro; rfl) (by rw [hp]; intro; rfl) _ (fun _ _ => rfl)
    · exact h.freeStep hf (by rw [hp]; intro; rfl) (by rw [hp]; intro; rfl) _ (hself i _)
  | truncated i =>
    have hf : (s.pc p).frees i := by rw [hp]; exact rfl
    exact h.freeStep hf (by rw [hp]; intro; rfl) (by rw [hp]; intro; rfl) _ (hself i _)
  | cleared i => exact h.endFree hp
  | _ => exact h

theorem icacheScan_inv (h : ICacheInv s) (ninodes : Nat) :
    Ends (icacheScan ninodes p) s fun _ s' => ICacheInv s' := by
  apply ends_get
  cases hp : s.pc p with
  | scanning dev inum type =>
    apply ends_bind
    apply ends_panicIf
    intro _
    split_ifs with hfree
    · exact ends_set (h.alloc hfree (by rw [hp]; intro; rfl) (fun _ => rfl) (by simp) (by simp) _)
    · exact ends_set (h.goto (by rw [hp]; intro; rfl) (fun _ => rfl) (by simp) (by simp))
  | _ => exact ends_pure h

theorem icacheTake_inv (h : ICacheInv s) (hr : s.ptr r = none) :
    Ends (icacheTake p r) s fun _ s' => ICacheInv s' := by
  apply ends_get
  cases hp : s.pc p with
  | found dev inum =>
    refine (icacheGet_inv h hr).bind ?_
    intro _ s1 ⟨h1, hpc⟩
    exact ends_modify (h1.goto (by rw [hpc, hp]; intro; rfl) (fun _ => rfl) (by simp) (by simp))
  | _ => exact ends_pure h

theorem ICacheOp.run_inv (h : ICacheInv s) {ninodes : Nat} {op : ICacheOp N M}
    (he : op.enabled s) : Ends (op.run ninodes) s fun _ s' => ICacheInv s' := by
  cases op with
  | iget p r dev inum =>
    refine (icacheGet_inv h he.2).imp ?_
    intro _ s' h'
    exact h'.1
  | idup p r r' =>
    apply ends_modify
    cases hr : s.ptr r with
    | none => exact h
    | some i => exact h.addPtr he.2.2 (ref_pos_of_ptr h hr)
  | ilock p r => exact icacheLock_inv h he.1
  | acquire p i r => exact ends_modify (h.acquire he.1 he.2)
  | load p i => exact icacheLoad_inv h he
  | change p i d => exact ends_modify (h.change he.1 he.2)
  | iupdate p i => exact ends_modify (h.iupdate he)
  | iunlock p i =>
    apply ends_get
    apply ends_bind
    apply ends_panicIf
    intro _
    exact ends_set (h.iunlock he.1 he.2)
  | iput p r => exact icachePut_inv h he.1 he.2.2
  | free p => exact icacheFree_inv h
  | drop p =>
    apply ends_modify
    cases hp : s.pc p with
    | dropping i => exact h.drop hp
    | _ => exact h
  | ialloc p dev type =>
    have hp : s.pc p = .idle := he
    exact ends_modify (h.goto (by rw [hp]; intro; rfl) (fun _ => rfl) (by simp) (by simp))
  | scan p => exact icacheScan_inv h ninodes
  | take p r => exact icacheTake_inv h he

theorem ICacheInv.boot (disk : Nat × Nat → Dinode) : ICacheInv (ICache.boot N M disk) := by
  refine ⟨?_, ?_, ?_, ?_, ?_, ?_, ?_, fun _ _ => rfl⟩
  · intro i
    have h1 : total (ptrAt i) (ICache.boot N M disk).ptr = 0 :=
      (total_eq_zero _ _).mpr fun _ => rfl
    have h2 : total (ICachePc.at i) (ICache.boot N M disk).pc = 0 :=
      (total_eq_zero _ _).mpr fun _ => rfl
    rw [h1, h2]
    rfl
  · intro i j hi
    cases hi
  · intro p i r hp
    cases hp
  · intro i p r hl
    cases hl
  · intro p i hp
    cases hp
  · intro i p
    exact iff_of_false (by intro hl; cases hl) (fun hf => hf.elim)
  · intro i hi
    cases hi

theorem ICacheReachable.inv {ninodes : Nat} {disk : Nat × Nat → Dinode}
    (h : ICacheReachable ninodes disk s) : ICacheInv s := by
  induction h with
  | boot => exact ICacheInv.boot disk
  | step _ he hrun ih => exact ICacheOp.run_inv ih he () _ hrun

end Steps

section Safety
variable {s : ICache N M}

instance (s : ICache N M) (r : Fin M) : Decidable (s.Unused r) :=
  inferInstanceAs (Decidable (_ ∧ _))

instance (s : ICache N M) (p : Fin N) (i : ISlot) : Decidable (s.Holds p i) :=
  inferInstanceAs (Decidable (_ ∧ _))

instance ICacheOp.decidableEnabled (s : ICache N M) (op : ICacheOp N M) : Decidable (op.enabled s) :=
  match op with
  | .iget .. | .idup .. | .ilock .. | .acquire .. | .change .. | .iunlock .. | .iput .. =>
    inferInstanceAs (Decidable (_ ∧ _))
  | .load .. | .ialloc .. | .take .. => inferInstanceAs (Decidable (_ = _))
  | .iupdate .. => inferInstanceAs (Decidable (ICache.Holds ..))
  | .free .. | .drop .. | .scan .. => inferInstanceAs (Decidable True)

theorem ICacheReachable.exec {ninodes : Nat} {disk : Nat × Nat → Dinode}
    {ops : List (ICacheOp N M)} {s s' : ICache N M} (h : ICacheReachable ninodes disk s)
    (he : runSteps ICacheOp.enabled (ICacheOp.run ninodes) ops s = some s') :
    ICacheReachable ninodes disk s' :=
  runSteps_keeps _ _ (fun _ _ _ => ICacheReachable.step) ops h he

end Safety

end Xv6
