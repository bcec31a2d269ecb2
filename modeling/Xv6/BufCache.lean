import Xv6.Riscv
import Xv6.LogProtocol

/-! The reference counts of `kernel/bio.c` under every interleaving. Each section
under `bcache.lock` is one step, and so are taking and releasing the sleep lock of
a buffer. The log pins a buffer in `log_write` and unpins it in `install_trans`,
which the recovery at boot uses as well. -/
namespace Xv6

open Function

def NBUF : Nat := MAXOPBLOCKS*3

abbrev Slot := Fin NBUF
abbrev Pid := Fin NPROC

instance : NeZero NBUF := ⟨by decide⟩
instance : NeZero NPROC := ⟨by decide⟩

/-- A process on its way into a buffer, asleep or about to take its lock, or on its
way out, with the lock given up. -/
inductive Flight
  | waiting (i : Slot)
  | releasing (i : Slot)
  deriving DecidableEq

/-- `block` is the block of device `ROOTDEV` that a buffer holds; at first it holds
none. `order` is the list from `head.next` on. The first `unpinned` blocks of `lh`
are those that `install_trans` has unpinned. -/
structure BufState where
  block : Slot → Option Nat
  valid : Slot → Bool
  refcnt : Slot → BitVec 32
  owner : Slot → Option Pid
  order : List Slot
  flight : Pid → Option Flight
  lh : List Nat
  unpinned : Nat
  committing : Option Pid
  header : Option (List Nat)

/-- After `binit`, with a log header on disk that `recover_from_log` has still to
read. -/
def BufState.boot (header : List Nat) : BufState where
  block _ := none
  valid _ := false
  refcnt _ := 0
  owner _ := none
  order := (List.finRange NBUF).reverse
  flight _ := none
  lh := []
  unpinned := 0
  committing := none
  header := some header

/-- The first loop of `bget`. -/
def BufState.cached (s : BufState) (b : Nat) : Option Slot :=
  s.order.find? fun i => decide (s.block i = some b)

/-- The second loop of `bget`, from the end of the list. -/
def BufState.unused (s : BufState) : Option Slot :=
  s.order.reverse.find? fun i => decide (s.refcnt i = 0)

/-- `bget` up to `acquiresleep`. -/
def bget (p : Pid) (b : Nat) : Prog BufState Unit := do
  let s ← get
  match s.cached b with
  | some i =>
    set { s with
      refcnt := update s.refcnt i (s.refcnt i + 1)
      flight := update s.flight p (some (.waiting i)) }
  | none =>
    match s.unused with
    | some i =>
      set { s with
        block := update s.block i (some b)
        valid := update s.valid i false
        refcnt := update s.refcnt i 1
        flight := update s.flight p (some (.waiting i)) }
    | none => throw "bget: no buffers"

/-- `acquiresleep` of the buffer that a process waits for. -/
def bufAcquire (p : Pid) (i : Slot) : Prog BufState Unit :=
  modify fun s => { s with
    owner := update s.owner i (some p)
    flight := update s.flight p none }

/-- The rest of `bread`. -/
def bufFill (i : Slot) : Prog BufState Unit :=
  modify fun s => { s with valid := update s.valid i true }

/-- `brelse` up to the section under `bcache.lock`. -/
def bufRelease (p : Pid) (i : Slot) : Prog BufState Unit :=
  modify fun s => { s with
    owner := update s.owner i none
    flight := update s.flight p (some (.releasing i)) }

/-- The section of `brelse` under `bcache.lock`. -/
def bufDrop (p : Pid) (i : Slot) : Prog BufState Unit :=
  modify fun s => { s with
    refcnt := update s.refcnt i (s.refcnt i - 1)
    order := if s.refcnt i - 1 = 0 then i :: s.order.erase i else s.order
    flight := update s.flight p none }

/-- `log_write` of the buffer under `log.lock`, with `bpin` in it. -/
def bufLogWrite (i : Slot) : Prog BufState Unit :=
  modify fun s =>
    match s.block i with
    | some b =>
      if b ∈ s.lh then s else
      { s with
        lh := s.lh ++ [b]
        refcnt := update s.refcnt i (s.refcnt i + 1) }
    | none => s

def bufUnpin (i : Slot) : Prog BufState Unit :=
  modify fun s => { s with
    refcnt := update s.refcnt i (s.refcnt i - 1)
    unpinned := s.unpinned+1 }

/-- What one process does next. `commit` and `read_head` begin a run of
`install_trans`, and `clear` is the `log.lh.n = 0` after it. -/
inductive BufOp
  | bget (p : Pid) (b : Nat)
  | acquire (p : Pid) (i : Slot)
  | fill (p : Pid) (i : Slot)
  | release (p : Pid) (i : Slot)
  | drop (p : Pid) (i : Slot)
  | log_write (p : Pid) (i : Slot)
  | commit (p : Pid)
  | read_head (p : Pid)
  | bunpin (p : Pid) (i : Slot)
  | clear (p : Pid)

/-- A process does one thing after the other, uses buffers that it has locked, and
logs no block while a commit or a recovery runs. -/
def BufOp.enabled (s : BufState) : BufOp → Prop
  | .bget p _ => s.flight p = none
  | .acquire p i => s.flight p = some (.waiting i) ∧ s.owner i = none
  | .fill p i | .release p i => s.owner i = some p ∧ s.flight p = none
  | .drop p i => s.flight p = some (.releasing i)
  | .log_write p i => s.owner i = some p ∧ s.flight p = none ∧ s.committing = none ∧
    s.header = none
  | .commit p => s.flight p = none ∧ s.committing = none ∧ s.header = none
  | .read_head p => s.flight p = none ∧ s.committing = none ∧ s.header ≠ none
  | .bunpin p i => s.owner i = some p ∧ s.flight p = none ∧ s.committing = some p ∧
    s.unpinned < s.lh.length ∧ s.block i = s.lh[s.unpinned]?
  | .clear p => s.flight p = none ∧ s.committing = some p ∧ s.unpinned = s.lh.length

def BufOp.run : BufOp → Prog BufState Unit
  | .bget p b => Xv6.bget p b
  | .acquire p i => bufAcquire p i
  | .fill _ i => bufFill i
  | .release p i => bufRelease p i
  | .drop p i => bufDrop p i
  | .log_write _ i => bufLogWrite i
  | .commit p => modify fun s => { s with committing := some p }
  | .read_head p => modify fun s => { s with
      committing := some p
      lh := s.header.getD []
      header := none }
  | .bunpin _ i => bufUnpin i
  | .clear _ => modify fun s => { s with committing := none, lh := [], unpinned := 0 }

/-- The states of the buffer cache from boot on. -/
inductive BufReachable (header : List Nat) : BufState → Prop
  | boot : BufReachable header (BufState.boot header)
  | step {s s' : BufState} {op : BufOp} : BufReachable header s → op.enabled s →
      op.run s = .ok ((), s') → BufReachable header s'

def Flight.at (i : Slot) (f : Option Flight) : Nat :=
  if f = some (.waiting i) ∨ f = some (.releasing i) then 1 else 0

def BufState.callers (s : BufState) (i : Slot) : Nat :=
  (s.owner i).elim 0 (fun _ => 1) + total (Flight.at i) s.flight

def pinOf (blocks : List Nat) (b : Option Nat) : Nat :=
  b.elim 0 fun b => if b ∈ blocks then 1 else 0

/-- 1 for a buffer whose block is listed in `log.lh` and not yet unpinned. -/
def BufState.pins (s : BufState) (i : Slot) : Nat := pinOf (s.lh.drop s.unpinned) (s.block i)

structure BufInv (s : BufState) : Prop where
  exact : ∀ i, (s.refcnt i).toNat = s.callers i + s.pins i
  order : ∀ i, i ∈ s.order
  unique : ∀ i j b, s.block i = some b → s.block j = some b → i = j
  pinned : ∀ b ∈ s.lh.drop s.unpinned, ∃ i, s.block i = some b
  nodup : s.lh.Nodup
  logging : s.committing = none → s.unpinned = 0
  header : ∀ h, s.header = some h → h = [] ∧ s.lh = [] ∧ s.unpinned = 0

section Counts
variable {s : BufState} {i : Slot} {p : Pid}

theorem pinOf_mem {l : List Nat} {b : Nat} (h : b ∈ l) : pinOf l (some b) = 1 := if_pos h

theorem pinOf_not_mem {l : List Nat} {b : Nat} (h : b ∉ l) : pinOf l (some b) = 0 := if_neg h

theorem pinOf_congr {l l' : List Nat} {b : Option Nat} (h : ∀ c, b = some c → (c ∈ l ↔ c ∈ l')) :
    pinOf l b = pinOf l' b := by
  cases b with
  | none => rfl
  | some c =>
    by_cases hc : c ∈ l
    · rw [pinOf_mem hc, pinOf_mem ((h c rfl).mp hc)]
    · rw [pinOf_not_mem hc, pinOf_not_mem fun hc' => hc ((h c rfl).mpr hc')]

theorem pins_le (s : BufState) (i : Slot) : s.pins i ≤ 1 := by
  unfold BufState.pins
  cases s.block i with
  | none => exact Nat.zero_le 1
  | some b =>
    by_cases hb : b ∈ s.lh.drop s.unpinned
    · rw [pinOf_mem hb]
    · rw [pinOf_not_mem hb]
      exact Nat.zero_le 1

theorem callers_le (s : BufState) (i : Slot) : s.callers i ≤ NPROC+1 := by
  have hle := total_le_mul (Flight.at i) s.flight (fun _ => 1) 1 (by
    intro f
    unfold Flight.at
    split_ifs <;> omega)
  have hcard : total (fun _ : Option Flight => 1) s.flight = NPROC := by
    unfold total
    simp
  have hown : (s.owner i).elim 0 (fun _ => 1) ≤ 1 := by
    cases s.owner i with
    | none => exact Nat.zero_le 1
    | some p => exact Nat.le_refl 1
  unfold BufState.callers
  omega

theorem refcnt_lt (h : BufInv s) (i : Slot) : (s.refcnt i).toNat < 2^32-1 := by
  have h1 := pins_le s i
  have h2 := callers_le s i
  have h3 := h.exact i
  have hn : NPROC = 64 := rfl
  omega

theorem flight_at_none (i : Slot) : Flight.at i none = 0 := rfl

theorem flight_at_waiting (i j : Slot) :
    Flight.at i (some (.waiting j)) = if j = i then 1 else 0 := by
  unfold Flight.at
  simp

theorem flight_at_releasing (i j : Slot) :
    Flight.at i (some (.releasing j)) = if j = i then 1 else 0 := by
  unfold Flight.at
  simp

theorem refcnt_pos_of_flight (h : BufInv s) {f : Flight} (hp : s.flight p = some f)
    (hf : Flight.at i (some f) = 1) : 1 ≤ (s.refcnt i).toNat := by
  have hle := le_total (Flight.at i) s.flight p
  rw [hp, hf] at hle
  have := h.exact i
  unfold BufState.callers at this
  omega

theorem cached_none {b : Nat} (hi : BufInv s) (h : s.cached b = none) (i : Slot) :
    s.block i ≠ some b := by
  intro hb
  have := List.find?_eq_none.mp h i (hi.order i)
  exact this (decide_eq_true hb)

theorem unused_some (h : s.unused = some i) : s.refcnt i = 0 :=
  of_decide_eq_true (List.find?_some h :)

theorem toNat_succ {x : BitVec 32} (h : x.toNat < 2^32-1) : (x + 1).toNat = x.toNat+1 := by
  bv_omega

theorem toNat_pred {x : BitVec 32} (h : 1 ≤ x.toNat) : (x - 1).toNat = x.toNat-1 := by
  bv_omega

end Counts

section Steps
variable {s s' : BufState} {i : Slot} {p : Pid}

theorem bget_inv (h : BufInv s) {b : Nat} (hp : s.flight p = none) :
    Ends (bget p b) s fun _ s' => BufInv s' := by
  have hflight (i j : Slot) : total (Flight.at j) (update s.flight p (some (.waiting i))) =
      total (Flight.at j) s.flight + if i = j then 1 else 0 := by
    have hsum := total_update (Flight.at j) s.flight p (some (.waiting i))
    rw [hp, flight_at_none, flight_at_waiting, Nat.add_zero] at hsum
    exact hsum
  intro _ s' hrun
  have hruns : Runs (bget p b) s fun _ t => t = s' := ⟨_, s', hrun, rfl⟩
  unfold bget at hruns
  rw [runs_bind, runs_get] at hruns
  cases hc : s.cached b with
  | some i =>
    simp only [hc, runs_set] at hruns
    subst hruns
    refine ⟨?_, h.order, h.unique, h.pinned, h.nodup, h.logging, h.header⟩
    intro j
    have hj := h.exact j
    change (update s.refcnt i (s.refcnt i + 1) j).toNat =
      ((s.owner j).elim 0 (fun _ => 1) + total (Flight.at j) (update s.flight p _)) +
        s.pins j
    rw [hflight i j]
    unfold BufState.callers at hj
    by_cases hij : j = i
    · subst hij
      rw [update_self, toNat_succ (refcnt_lt h j), if_pos rfl]
      omega
    · rw [update_of_ne hij, if_neg (Ne.symm hij)]
      omega
  | none =>
    cases hu : s.unused with
    | none =>
      simp only [hc, hu, runs_throw] at hruns
    | some i =>
      simp only [hc, hu, runs_set] at hruns
      subst hruns
      have hzero : s.callers i = 0 ∧ s.pins i = 0 := by
        have hi := h.exact i
        rw [unused_some hu] at hi
        change 0 = _ at hi
        omega
      have hnew := cached_none h hc
      have hpin : ∀ b' ∈ s.lh.drop s.unpinned, s.block i ≠ some b' := by
        intro b' hb' hbl
        have hz := hzero.2
        unfold BufState.pins at hz
        rw [hbl, pinOf_mem hb'] at hz
        cases hz
      have hbpin : b ∉ s.lh.drop s.unpinned := by
        intro hb
        obtain ⟨j, hj⟩ := h.pinned b hb
        exact hnew j hj
      refine ⟨?_, h.order, ?_, ?_, h.nodup, h.logging, h.header⟩
      · intro j
        have hj := h.exact j
        unfold BufState.callers BufState.pins at hj ⊢
        dsimp only
        rw [hflight i j]
        by_cases hij : j = i
        · subst hij
          have hz := hzero.1
          unfold BufState.callers at hz
          rw [update_self, update_self, if_pos rfl, pinOf_not_mem hbpin]
          change 1 = _
          omega
        · rw [update_of_ne hij, update_of_ne hij, if_neg (Ne.symm hij)]
          omega
      · intro j k c hj hk
        dsimp only at hj hk
        by_cases hji : j = i
        · subst hji
          rw [update_self] at hj
          cases hj
          by_cases hki : k = j
          · exact hki.symm
          · rw [update_of_ne hki] at hk
            exact absurd hk (hnew k)
        · rw [update_of_ne hji] at hj
          by_cases hki : k = i
          · subst hki
            rw [update_self] at hk
            cases hk
            exact absurd hj (hnew j)
          · rw [update_of_ne hki] at hk
            exact h.unique j k c hj hk
      · -- The block that is given up was not pinned, so every pinned one is still there.
        intro b' hb'
        obtain ⟨j, hj⟩ := h.pinned b' hb'
        refine ⟨j, ?_⟩
        dsimp only
        rw [update_of_ne]
        · exact hj
        · rintro rfl
          exact hpin b' hb' hj

/-- A process is a caller on both sides of a sleep lock. -/
theorem BufInv.handover (h : BufInv s) {o : Option Pid} {f : Option Flight}
    (hsame : (s.owner i).elim 0 (fun _ => 1) + Flight.at i (s.flight p) =
      o.elim 0 (fun _ => 1) + Flight.at i f)
    (hother : ∀ j, j ≠ i → Flight.at j f = Flight.at j (s.flight p)) :
    BufInv { s with owner := update s.owner i o, flight := update s.flight p f } := by
  refine ⟨?_, h.order, h.unique, h.pinned, h.nodup, h.logging, h.header⟩
  intro j
  have hj := h.exact j
  have hsum := total_update (Flight.at j) s.flight p f
  unfold BufState.callers at hj ⊢
  change (s.refcnt j).toNat = (update s.owner i o j).elim 0 (fun _ => 1) +
    total (Flight.at j) (update s.flight p f) + s.pins j
  by_cases hij : j = i
  · subst hij
    rw [update_self]
    omega
  · rw [update_of_ne hij]
    have := hother j hij
    omega

theorem acquire_inv (h : BufInv s) (hp : s.flight p = some (.waiting i)) (ho : s.owner i = none) :
    BufInv { s with
      owner := update s.owner i (some p)
      flight := update s.flight p none } := by
  apply h.handover
  · rw [ho, hp, flight_at_waiting, if_pos rfl]
    rfl
  · intro j hj
    rw [hp, flight_at_waiting, if_neg (Ne.symm hj)]
    rfl

theorem release_inv (h : BufInv s) (ho : s.owner i = some p) (hp : s.flight p = none) :
    BufInv { s with
      owner := update s.owner i none
      flight := update s.flight p (some (.releasing i)) } := by
  apply h.handover
  · rw [ho, hp, flight_at_releasing, if_pos rfl]
    rfl
  · intro j hj
    rw [hp, flight_at_releasing, if_neg (Ne.symm hj)]
    rfl

theorem drop_inv (h : BufInv s) (hp : s.flight p = some (.releasing i)) :
    BufInv { s with
      refcnt := update s.refcnt i (s.refcnt i - 1)
      order := if s.refcnt i - 1 = 0 then i :: s.order.erase i else s.order
      flight := update s.flight p none } := by
  have hpos : 1 ≤ (s.refcnt i).toNat := by
    apply refcnt_pos_of_flight h hp
    rw [flight_at_releasing, if_pos rfl]
  refine ⟨?_, ?_, h.unique, h.pinned, h.nodup, h.logging, h.header⟩
  · intro j
    have hj := h.exact j
    have hsum := total_update (Flight.at j) s.flight p none
    rw [hp, flight_at_none, flight_at_releasing] at hsum
    unfold BufState.callers at hj ⊢
    dsimp only
    change _ = (_ + _) + s.pins j
    by_cases hij : j = i
    · subst hij
      rw [update_self, toNat_pred hpos]
      rw [if_pos rfl] at hsum
      omega
    · rw [update_of_ne hij]
      rw [if_neg (Ne.symm hij)] at hsum
      omega
  · intro j
    dsimp only
    split_ifs
    · by_cases hij : j = i
      · rw [hij]
        exact List.mem_cons_self
      · exact List.mem_cons_of_mem _ ((List.mem_erase_of_ne hij).mpr (h.order j))
    · exact h.order j

theorem logWrite_inv (h : BufInv s) {b : Nat} (hb : s.block i = some b) (hnew : b ∉ s.lh)
    (hc : s.committing = none) (hh : s.header = none) :
    BufInv { s with
      lh := s.lh ++ [b]
      refcnt := update s.refcnt i (s.refcnt i + 1) } := by
  have hu := h.logging hc
  refine ⟨?_, h.order, h.unique, ?_, ?_, h.logging, ?_⟩
  · intro j
    have hj := h.exact j
    unfold BufState.callers BufState.pins at hj ⊢
    dsimp only
    rw [hu, List.drop_zero] at hj ⊢
    by_cases hij : j = i
    · subst hij
      rw [update_self, toNat_succ (refcnt_lt h j)]
      rw [hb] at hj ⊢
      rw [pinOf_not_mem hnew] at hj
      rw [pinOf_mem (by simp)]
      omega
    · rw [update_of_ne hij, hj]
      congr 1
      apply pinOf_congr
      intro c hbl
      have hcb : c ≠ b := by
        rintro rfl
        exact hij (h.unique j i c hbl hb)
      simp [hcb]
  · intro c hc'
    dsimp only at hc' ⊢
    rw [hu, List.drop_zero, List.mem_append, List.mem_singleton] at hc'
    rcases hc' with hc' | rfl
    · exact h.pinned c (by rw [hu, List.drop_zero]; exact hc')
    · exact ⟨i, hb⟩
  · rw [List.nodup_append]
    refine ⟨h.nodup, List.nodup_singleton b, ?_⟩
    intro x hx y hy hxy
    rw [List.mem_singleton] at hy
    exact hnew (hy ▸ hxy ▸ hx)
  · intro l hl
    change s.header = some l at hl
    rw [hh] at hl
    cases hl

theorem unpin_inv (h : BufInv s) (hlt : s.unpinned < s.lh.length)
    (hb : s.block i = s.lh[s.unpinned]?) (hc : s.committing = some p) :
    BufInv { s with
      refcnt := update s.refcnt i (s.refcnt i - 1)
      unpinned := s.unpinned+1 } := by
  set b := s.lh[s.unpinned] with hbdef
  have hdrop : s.lh.drop s.unpinned = b :: s.lh.drop (s.unpinned+1) :=
    List.drop_eq_getElem_cons hlt
  have hbi : s.block i = some b := by rw [hb, List.getElem?_eq_getElem hlt]
  have hnot : b ∉ s.lh.drop (s.unpinned+1) := by
    have hnd : (s.lh.drop s.unpinned).Nodup := h.nodup.sublist (List.drop_sublist _ _)
    rw [hdrop] at hnd
    exact (List.nodup_cons.mp hnd).1
  have hpos : 1 ≤ (s.refcnt i).toNat := by
    have hi := h.exact i
    unfold BufState.pins at hi
    rw [hbi, hdrop, pinOf_mem List.mem_cons_self] at hi
    omega
  refine ⟨?_, h.order, h.unique, ?_, h.nodup, ?_, ?_⟩
  · intro j
    have hj := h.exact j
    unfold BufState.callers BufState.pins at hj ⊢
    dsimp only
    rw [hdrop] at hj
    by_cases hij : j = i
    · subst hij
      rw [update_self, toNat_pred hpos]
      rw [hbi] at hj ⊢
      rw [pinOf_mem List.mem_cons_self] at hj
      rw [pinOf_not_mem hnot]
      omega
    · rw [update_of_ne hij, hj]
      congr 1
      apply pinOf_congr
      intro c hbl
      have hcb : c ≠ b := by
        rintro rfl
        exact hij (h.unique j i _ hbl hbi)
      simp [hcb]
  · intro c hc'
    apply h.pinned c
    rw [hdrop]
    exact List.mem_cons_of_mem _ hc'
  · intro hc'
    change s.committing = none at hc'
    rw [hc] at hc'
    cases hc'
  · intro l hl
    have hempty := (h.header l hl).2.1
    rw [hempty] at hlt
    cases hlt

theorem clear_inv (h : BufInv s) (hu : s.unpinned = s.lh.length) :
    BufInv { s with committing := none, lh := [], unpinned := 0 } := by
  refine ⟨?_, h.order, h.unique, ?_, List.nodup_nil, fun _ => rfl, ?_⟩
  · intro j
    have hj := h.exact j
    unfold BufState.callers BufState.pins at hj ⊢
    dsimp only
    rw [hu, List.drop_length] at hj
    exact hj
  · intro b hb
    cases hb
  · intro l hl
    exact ⟨(h.header l hl).1, rfl, rfl⟩

/-- The counts stay exact in every step, once the log on disk was empty at boot. -/
theorem BufOp.run_inv (h : BufInv s) {op : BufOp} (he : op.enabled s) :
    Ends op.run s fun _ s' => BufInv s' := by
  cases op with
  | bget p b => exact bget_inv h he
  | acquire p i => exact (runs_modify.mpr (acquire_inv h he.1 he.2)).ends
  | fill p i =>
    refine (runs_modify.mpr ?_).ends
    exact ⟨h.exact, h.order, h.unique, h.pinned, h.nodup, h.logging, h.header⟩
  | release p i => exact (runs_modify.mpr (release_inv h he.1 he.2)).ends
  | drop p i => exact (runs_modify.mpr (drop_inv h he)).ends
  | log_write p i =>
    obtain ⟨-, -, hc, hh⟩ := he
    refine (runs_modify.mpr ?_).ends
    cases hb : s.block i with
    | none => exact h
    | some b =>
      dsimp only
      by_cases hin : b ∈ s.lh
      · rw [if_pos hin]
        exact h
      · rw [if_neg hin]
        exact logWrite_inv h hb hin hc hh
  | commit p =>
    refine (runs_modify.mpr ?_).ends
    refine ⟨h.exact, h.order, h.unique, h.pinned, h.nodup, ?_, h.header⟩
    intro hc
    cases hc
  | read_head p =>
    obtain ⟨-, hc, hh⟩ := he
    obtain ⟨l, hl⟩ := Option.ne_none_iff_exists'.mp hh
    obtain ⟨rfl, hlh, hu⟩ := h.header l hl
    refine (runs_modify.mpr ?_).ends
    rw [hl, Option.getD_some, ← hlh]
    refine ⟨h.exact, h.order, h.unique, h.pinned, h.nodup, ?_, ?_⟩
    · intro hc
      cases hc
    · intro l hl
      cases hl
  | bunpin p i =>
    obtain ⟨-, -, hc, hlt, hb⟩ := he
    exact (runs_modify.mpr (unpin_inv h hlt hb hc)).ends
  | clear p => exact (runs_modify.mpr (clear_inv h he.2.2)).ends

theorem BufReachable.inv (h : BufReachable [] s) : BufInv s := by
  induction h with
  | boot =>
    refine ⟨?_, ?_, ?_, ?_, List.nodup_nil, fun _ => rfl, ?_⟩
    · intro i
      have hz : total (Flight.at i) (BufState.boot []).flight = 0 :=
        (total_eq_zero _ _).mpr fun _ => rfl
      change 0 = (0 + total (Flight.at i) (BufState.boot []).flight) + 0
      rw [hz]
    · intro i
      exact List.mem_reverse.mpr (List.mem_finRange i)
    · intro i j b hi
      cases hi
    · intro b hb
      cases hb
    · intro l hl
      cases hl
      exact ⟨rfl, rfl, rfl⟩
  | step _ he hrun ih => exact BufOp.run_inv ih he () _ hrun

end Steps

/-- The counts are exact, no count wraps below zero, and no step gives a buffer to
another block while it is held or pinned. -/
structure BufExact (s : BufState) : Prop where
  exact : ∀ i, (s.refcnt i).toNat = s.callers i + s.pins i
  no_wrap : ∀ p i, (BufOp.drop p i).enabled s ∨ (BufOp.bunpin p i).enabled s → s.refcnt i ≠ 0
  kept : ∀ (op : BufOp) (s' : BufState), op.enabled s → op.run s = .ok ((), s') → ∀ i,
    s'.block i ≠ s.block i → s.callers i = 0 ∧ s.pins i = 0

section Exact
variable {s : BufState}

/-- Only `bget` changes what a buffer holds, and only a buffer with count 0. -/
theorem block_changes {op : BufOp} {s' : BufState} (hrun : op.run s = .ok ((), s')) {i : Slot}
    (hne : s'.block i ≠ s.block i) : s.refcnt i = 0 := by
  have hruns : Runs op.run s fun _ t => t = s' := ⟨_, s', hrun, rfl⟩
  cases op with
  | bget p b =>
    change Runs (bget p b) s _ at hruns
    unfold bget at hruns
    rw [runs_bind, runs_get] at hruns
    cases hc : s.cached b with
    | some j =>
      simp only [hc, runs_set] at hruns
      subst hruns
      exact absurd rfl hne
    | none =>
      cases hu : s.unused with
      | none => simp only [hc, hu, runs_throw] at hruns
      | some j =>
        simp only [hc, hu, runs_set] at hruns
        subst hruns
        by_cases hij : i = j
        · subst hij
          exact unused_some hu
        · exact absurd (update_of_ne hij _ _) hne
  | log_write p j =>
    have heq := runs_modify.mp hruns
    subst heq
    exfalso
    apply hne
    cases hb : s.block j with
    | none => rfl
    | some b =>
      dsimp only
      split_ifs <;> rfl
  | _ =>
    have heq := runs_modify.mp hruns
    subst heq
    exact absurd rfl hne

instance (s : BufState) (op : BufOp) : Decidable (op.enabled s) :=
  match op with
  | .bget .. | .drop .. => inferInstanceAs (Decidable (_ = _))
  | .acquire .. | .fill .. | .release .. | .log_write .. | .commit .. | .read_head .. | .bunpin ..
  | .clear .. => inferInstanceAs (Decidable (_ ∧ _))

theorem BufReachable.exec {header : List Nat} {ops : List BufOp} {s s' : BufState}
    (h : BufReachable header s) (he : runSteps BufOp.enabled BufOp.run ops s = some s') :
    BufReachable header s' :=
  runSteps_keeps _ _ (fun _ _ _ => BufReachable.step) ops h he

/-- If the log on disk is empty at boot, the reference counts of all buffers are
exact in every state from then on. -/
theorem buf_counts_exact {s : BufState} (h : BufReachable [] s) : BufExact s := by
  have hi := h.inv
  refine ⟨hi.exact, ?_, ?_⟩
  · intro p i he hz
    have h0 : (s.refcnt i).toNat = 0 := by rw [hz]; rfl
    rcases he with he | he
    · have hpos := refcnt_pos_of_flight hi he (by rw [flight_at_releasing, if_pos rfl])
      omega
    · obtain ⟨-, -, -, hlt, hb⟩ := he
      have hx := hi.exact i
      unfold BufState.pins at hx
      rw [hb, List.getElem?_eq_getElem hlt, List.drop_eq_getElem_cons hlt,
        pinOf_mem List.mem_cons_self] at hx
      omega
  · intro op s' _ hrun i hne
    have hx := hi.exact i
    rw [block_changes hrun hne] at hx
    change 0 = _ at hx
    omega

/-- A boot with an empty log. Block 40 is read, logged and released, another process asks for
it, and the commit installs and unpins it. -/
def logOne : List BufOp :=
  [.bget 0 2, .acquire 0 0, .fill 0 0, .release 0 0, .drop 0 0, .read_head 0, .clear 0,
    .bget 0 40, .acquire 0 1, .fill 0 1, .log_write 0 1, .release 0 1, .drop 0 1,
    .commit 0, .bget 0 3, .acquire 0 2, .fill 0 2, .bget 0 40, .acquire 0 1, .bget 1 40, .fill 0 1,
    .bunpin 0 1, .release 0 2, .drop 0 2, .release 0 1, .drop 0 1, .clear 0]

theorem buf_counts_exact_commit : ∃ s : BufState, BufReachable [] s ∧ BufExact s ∧ s.lh = [] ∧
    s.block 1 = some 40 ∧ s.owner 1 = none ∧ s.flight 1 = some (.waiting 1) ∧ s.refcnt 1 = 1 := by
  have hexec : ((runSteps BufOp.enabled BufOp.run logOne (BufState.boot [])).any fun s =>
      decide (s.lh = [] ∧ s.block 1 = some 40 ∧ s.owner 1 = none ∧
        s.flight 1 = some (.waiting 1) ∧ s.refcnt 1 = 1)) = true := by
    decide +kernel
  obtain ⟨s, hs, hend⟩ := (Option.any_eq_true _ _).mp hexec
  have hr := BufReachable.boot.exec hs
  exact ⟨s, hr, buf_counts_exact hr, of_decide_eq_true hend⟩

/-- The recovery of a log with one block: the header, then its block and the home block. -/
def recoverOne : List BufOp :=
  [.bget 0 2, .acquire 0 0, .fill 0 0, .release 0 0, .drop 0 0, .read_head 0,
    .bget 0 3, .acquire 0 1, .fill 0 1, .bget 0 40, .acquire 0 2, .fill 0 2,
    .bunpin 0 2, .release 0 1, .drop 0 1, .release 0 2, .drop 0 2, .clear 0]

/-- After the recovery of a log with one block nobody holds a buffer and nothing is
pinned, but the count of the home block's buffer is 2^32-1. -/
theorem buf_count_wraps : ∃ s : BufState, BufReachable [40] s ∧ s.lh = [] ∧
    (∀ i, s.owner i = none) ∧ (∀ p, s.flight p = none) ∧ (s.refcnt 2).toNat = 2^32-1 := by
  have hexec : ((runSteps BufOp.enabled BufOp.run recoverOne (BufState.boot [40])).any fun s =>
      decide (s.lh = [] ∧ (∀ i, s.owner i = none) ∧ (∀ p, s.flight p = none) ∧
        (s.refcnt 2).toNat = 2^32-1)) = true := by
    decide +kernel
  obtain ⟨s, hs, hend⟩ := (Option.any_eq_true _ _).mp hexec
  exact ⟨s, BufReachable.boot.exec hs, of_decide_eq_true hend⟩

end Exact

end Xv6
