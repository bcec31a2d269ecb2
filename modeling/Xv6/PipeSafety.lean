import Xv6.Pipe
import Mathlib.Data.List.GetD

/-! A pipe is a queue of bytes, and nobody sleeps on it without a reason. -/
namespace Xv6

open Function

variable {ι : Type}

section Fifo
variable {pi : PipeRing} {stored removed : List UInt8}

/-- The counters are the numbers of bytes that came and went, modulo 2^32, and `data`
holds the bytes between them. -/
structure Fifo (pi : PipeRing) (stored removed : List UInt8) : Prop where
  nwrite : pi.nwrite = BitVec.ofNat 32 stored.length
  nread : pi.nread = BitVec.ofNat 32 removed.length
  room : stored.length ≤ removed.length + PIPESIZE
  kept : ∀ k, removed.length ≤ k → k < stored.length →
    pi.data (k % PIPESIZE) = stored.getD k 0
  before : removed <+: stored

theorem Fifo.le (h : Fifo pi stored removed) : removed.length ≤ stored.length := h.before.length_le

theorem ofNat_mod_pipesize (n : Nat) : (BitVec.ofNat 32 n).toNat % PIPESIZE = n % PIPESIZE := by
  rw [BitVec.toNat_ofNat]
  exact Nat.mod_mod_of_dvd n (by decide)

theorem ofNat_add_one (n : Nat) : BitVec.ofNat 32 n + 1 = BitVec.ofNat 32 (n+1) :=
  (BitVec.ofNat_add n 1).symm

/-- Counters that are at most a pipe apart are equal only if the numbers are. -/
theorem ofNat_inj_near {m n : Nat} (h : m ≤ n + PIPESIZE ∧ n ≤ m + PIPESIZE) :
    BitVec.ofNat 32 m = BitVec.ofNat 32 n ↔ m = n := by
  refine ⟨fun heq => ?_, fun heq => by rw [heq]⟩
  have hmod := congrArg BitVec.toNat heq
  rw [BitVec.toNat_ofNat, BitVec.toNat_ofNat] at hmod
  unfold PIPESIZE at h
  omega

theorem Fifo.full_iff (h : Fifo pi stored removed) :
    pi.full ↔ stored.length = removed.length + PIPESIZE := by
  have hle := h.le
  have hroom := h.room
  unfold PipeRing.full
  rw [h.nwrite, h.nread, ← BitVec.ofNat_add, ofNat_inj_near (by omega)]

theorem Fifo.empty_iff (h : Fifo pi stored removed) :
    pi.empty ↔ removed.length = stored.length := by
  have hle := h.le
  unfold PipeRing.empty
  rw [h.nwrite, h.nread, ofNat_inj_near ⟨by omega, h.room⟩]

theorem Fifo.difference (h : Fifo pi stored removed) :
    (pi.nwrite - pi.nread).toNat = stored.length - removed.length := by
  have hle := h.le
  have hroom := h.room
  rw [h.nwrite, h.nread, BitVec.toNat_sub, BitVec.toNat_ofNat, BitVec.toNat_ofNat]
  unfold PIPESIZE at *
  omega

theorem Fifo.store (h : Fifo pi stored removed) (hroom : ¬ pi.full) (ch : UInt8) :
    Fifo (pi.store ch) (stored ++ [ch]) removed := by
  have hle := h.le
  have hlt : stored.length < removed.length + PIPESIZE :=
    Nat.lt_of_le_of_ne h.room (fun heq => hroom (h.full_iff.mpr heq))
  have hlen : (stored ++ [ch]).length = stored.length + 1 := by simp
  refine ⟨?_, h.nread, ?_, ?_, h.before.trans (List.prefix_append _ _)⟩
  · change pi.nwrite + 1 = _
    rw [h.nwrite, hlen, ofNat_add_one]
  · rw [hlen]
    omega
  · intro k hk1 hk2
    rw [hlen] at hk2
    change update pi.data (pi.nwrite.toNat % PIPESIZE) ch (k % PIPESIZE) = _
    rw [h.nwrite, ofNat_mod_pipesize]
    by_cases hk : k = stored.length
    · rw [hk, update_self]
      simp
    · -- Two bytes of the queue are never `PIPESIZE` apart.
      have hne : k % PIPESIZE ≠ stored.length % PIPESIZE := by
        unfold PIPESIZE at *
        omega
      rw [update_of_ne hne, h.kept k hk1 (by omega), List.getD_append _ _ _ _ (by omega)]

theorem Fifo.next_eq (h : Fifo pi stored removed) (hne : ¬ pi.empty) :
    removed.length < stored.length ∧ pi.next = stored.getD removed.length 0 := by
  have hlt : removed.length < stored.length :=
    Nat.lt_of_le_of_ne h.le (fun heq => hne (h.empty_iff.mpr heq))
  refine ⟨hlt, ?_⟩
  unfold PipeRing.next
  rw [h.nread, ofNat_mod_pipesize, h.kept _ (Nat.le_refl _) hlt]

theorem Fifo.remove (h : Fifo pi stored removed) (hne : ¬ pi.empty) :
    Fifo pi.remove stored (removed ++ [pi.next]) := by
  obtain ⟨hlt, hnext⟩ := h.next_eq hne
  have hlen : (removed ++ [pi.next]).length = removed.length + 1 := by simp
  have hroom := h.room
  refine ⟨h.nwrite, ?_, ?_, ?_, ?_⟩
  · change pi.nread + 1 = _
    rw [h.nread, hlen, ofNat_add_one]
  · omega
  · intro k hk1 hk2
    exact h.kept k (by omega) hk2
  · obtain ⟨rest, hrest⟩ := h.before
    subst hrest
    cases rest with
    | nil => simp at hlt
    | cons ch rest =>
      have hch : pi.next = ch := by
        rw [hnext]
        simp
      rw [hch]
      exact ⟨rest, by simp⟩

end Fifo

variable {s s' : PipeState ι}

/-- A step moves no byte, stores one in a pipe that is not full, or removes one from a
pipe that is not empty. -/
inductive Moved (s : PipeState ι) (s' : PipeState ι) : Prop
  | none : (s'.ring.data, s'.ring.nread, s'.ring.nwrite, s'.stored, s'.removed) =
      (s.ring.data, s.ring.nread, s.ring.nwrite, s.stored, s.removed) → Moved s s'
  | store (ch : UInt8) : ¬ s.ring.full → s'.ring = s.ring.store ch → s'.stored = s.stored ++ [ch] →
      s'.removed = s.removed → Moved s s'
  | remove : ¬ s.ring.empty → s'.ring = s.ring.remove → s'.stored = s.stored →
      s'.removed = s.removed ++ [s.ring.next] → Moved s s'

theorem Moved.fifo (h : Moved s s') (hf : Fifo s.ring s.stored s.removed) :
    Fifo s'.ring s'.stored s'.removed := by
  cases h with
  | none hsame =>
    simp only [Prod.mk.injEq] at hsame
    obtain ⟨hdata, hread, hwrite, hst, hrem⟩ := hsame
    rw [hst, hrem]
    exact ⟨hwrite.trans hf.nwrite, hread.trans hf.nread, hf.room, hdata ▸ hf.kept, hf.before⟩
  | store ch hroom hring hst hrem =>
    rw [hring, hst, hrem]
    exact hf.store hroom ch
  | remove hne hring hst hrem =>
    rw [hring, hst, hrem]
    exact hf.remove hne

variable [DecidableEq ι]

theorem write_moved (s : PipeState ι) (p : ι) (src : List (Option UInt8)) (i0 i : Nat) :
    Moved s (s.write p src i0 i) := by
  unfold PipeState.write
  cases src[i]? with
  | none => exact .none rfl
  | some byte =>
    dsimp only
    by_cases hfull : s.ring.full
    · rw [if_pos hfull]
      split_ifs
      · exact .none rfl
      · exact .none rfl
    · rw [if_neg hfull]
      cases byte with
      | none => exact .none rfl
      | some ch => exact .store ch hfull rfl rfl rfl

theorem read_moved (s : PipeState ι) (p : ι) (dst : List Bool) (i : Nat) :
    Moved s (s.read p dst i) := by
  unfold PipeState.read
  cases dst[i]? with
  | none => exact .none rfl
  | some ok =>
    dsimp only
    by_cases hempty : s.ring.empty
    · rw [if_pos hempty]
      exact .none rfl
    · rw [if_neg hempty]
      exact .remove hempty rfl rfl rfl

theorem step_moved (s : PipeState ι) (p : ι) : Moved s (s.step p) := by
  unfold PipeState.step
  split
  · exact .none rfl
  · exact .none rfl
  · exact write_moved s p _ _ _
  · exact .none rfl
  · exact .none rfl
  · exact .none rfl
  · split_ifs <;> exact .none rfl
  · exact .none rfl
  · exact read_moved s p _ _
  · exact .none rfl

theorem PipeOp.next_moved (s : PipeState ι) (op : PipeOp ι) : Moved s (op.next s) := by
  cases op with
  | write p src => exact .none rfl
  | read p dst => exact .none rfl
  | step p => exact step_moved s p
  | close writable => cases writable <;> exact .none rfl
  | kill p => exact .none rfl

omit [DecidableEq ι] in
theorem Fresh.fifo (h : s.Fresh) : Fifo s.ring s.stored s.removed := by
  obtain ⟨hread, hwrite, _, _, _, _, _, hst, hrem⟩ := h
  rw [hst, hrem]
  refine ⟨hwrite, hread, Nat.zero_le _, ?_, List.nil_prefix⟩
  intro k _ hk
  cases hk

instance PipeOp.decidableEnabled [Fintype ι] (s : PipeState ι) (op : PipeOp ι) :
    Decidable (op.enabled s) :=
  match op with
  | .write .. | .read .. | .step .. | .close true | .close false =>
    inferInstanceAs (Decidable (_ ∧ _))
  | .kill .. => inferInstanceAs (Decidable True)

def newPipe : PipeState (Fin 2) where
  ring := ⟨fun _ => 0, 0, 0, true, true⟩
  lock := none
  pc _ := .out 0
  sleeping _ := none
  killed _ := false
  stored := []
  removed := []

theorem newPipe_fresh : newPipe.Fresh :=
  ⟨rfl, rfl, rfl, rfl, rfl, fun _ => rfl, fun _ => rfl, rfl, rfl⟩

theorem reachable_fifo {may : PipeState ι → PipeOp ι → Prop} (h : PipeReachable may s) :
    Fifo s.ring s.stored s.removed := by
  apply h.invariant (I := fun s => Fifo s.ring s.stored s.removed)
  · exact fun s h => Fresh.fifo h
  · intro s op hf _
    exact (runs_modify.mpr ((op.next_moved s).fifo hf)).ends

/-- A pipe is a bounded queue, however often its counters wrap. -/
theorem pipe_fifo (h : PipeReachable (fun _ _ => True) s) :
    (s.ring.nwrite - s.ring.nread).toNat ≤ PIPESIZE ∧
      (s.ring.nwrite - s.ring.nread).toNat = s.stored.length - s.removed.length ∧
      s.removed <+: s.stored ∧
      ∀ k, s.removed.length ≤ k → k < s.stored.length →
        s.ring.data (k % PIPESIZE) = s.stored.getD k 0 := by
  have hf := reachable_fifo h
  refine ⟨?_, hf.difference, hf.before, hf.kept⟩
  rw [hf.difference]
  have := hf.room
  omega

/-- Process 0 writes two bytes and process 1 reads one. -/
theorem pipe_fifo_two : ∃ s : PipeState (Fin 2), PipeReachable (fun _ _ => True) s ∧
    s.removed = [7] ∧ s.stored = [7, 8] ∧ (s.ring.nwrite - s.ring.nread).toNat = 1 := by
  have hexec : ((runSteps (fun (s : PipeState (Fin 2)) (op : PipeOp (Fin 2)) => op.enabled s ∧ True)
      PipeOp.run ([.write 0 [some 7, some 8]] ++ List.replicate 5 (.step 0) ++ [.read 1 [true]] ++
        List.replicate 5 (.step 1)) newPipe).any
      fun s => decide (s.removed = [7] ∧ s.stored = [7, 8])) = true := by
    decide +kernel
  obtain ⟨s, hs, hend⟩ := (Option.any_eq_true _ _).mp hexec
  obtain ⟨hrem, hst⟩ := of_decide_eq_true hend
  have hreach : PipeReachable (fun _ _ => True) s := (Reaches.init newPipe_fresh).exec hs
  obtain ⟨_, hdiff, _, _⟩ := pipe_fifo hreach
  rw [hrem, hst] at hdiff
  exact ⟨s, hreach, hrem, hst, hdiff⟩

section Sleepers

/-- A process may sleep on `c` only while this holds: the pipe is empty for a reader and
full for a writer. -/
def PipeRing.blocked (pi : PipeRing) : PipeChan → Prop
  | .nread => pi.empty
  | .nwrite => pi.full

def PipeRing.peer (pi : PipeRing) : PipeChan → Bool
  | .nread => pi.writeopen
  | .nwrite => pi.readopen

def PipePc.holds (x : PipePc) : Bool := !x.outside && !x.acquires

def PipePc.about : PipePc → Option PipeChan
  | .wsleep .. => some .nwrite
  | .rsleep .. => some .nread
  | _ => none

/-- The process has stored or removed a byte in its turn and has not called `wakeup`. -/
def PipePc.owes : PipePc → PipeChan → Prop
  | .wloop _ i0 i, .nread => i0 < i
  | .wend _, .nread => True
  | .rloop _ i, .nwrite => 0 < i
  | .rend _, .nwrite => True
  | _, _ => False

/-- What holds of a process `p` that stands at `x`. -/
structure PipeAt (s : PipeState ι) (p : ι) (x : PipePc) : Prop where
  lock : x.holds = true → s.lock = some p
  turn : ∀ src i0 i, x = .wloop src i0 i → i0 ≤ i
  readopen : x.reading = true → s.ring.readopen = true
  about : ∀ c, x.about = some c → s.ring.peer c = true ∧ s.ring.blocked c

structure PipeInv (s : PipeState ι) : Prop where
  place : ∀ p, PipeAt s p (s.pc p)
  reader : ∀ p, s.sleeping p = some .nread → (s.pc p).reading = true
  asleep : ∀ p c, s.sleeping p = some c →
    s.ring.peer c = true ∧ (s.ring.blocked c ∨ ∃ q, s.lock = some q ∧ (s.pc q).owes c)

section
omit [DecidableEq ι]

theorem PipePc.holds_of_about {x : PipePc} {c : PipeChan} (h : x.about = some c) :
    x.holds = true := by
  cases x <;> first | rfl | cases h

/-- Without the lock nothing but the open end is needed. -/
theorem PipeAt.of_outside {p : ι} {x : PipePc} (hx : x.holds = false)
    (hread : x.reading = true → s.ring.readopen = true) : PipeAt s p x := by
  refine ⟨fun hh => ?_, fun src i0 i heq => ?_, hread, fun c hc => ?_⟩
  · rw [hx] at hh
    cases hh
  · rw [heq] at hx
    cases hx
  · rw [PipePc.holds_of_about hc] at hx
    cases hx

theorem PipePc.eq_out {x : PipePc} (h : x.outside = true) : ∃ r, x = .out r := by
  cases x with
  | out r => exact ⟨r, rfl⟩
  | _ => cases h

theorem PipeInv.reason (h : PipeInv s) {c : PipeChan} {q : ι} (hq : s.sleeping q = some c)
    (hl : ∀ p, s.lock = some p → ¬ (s.pc p).owes c) :
    s.ring.peer c = true ∧ s.ring.blocked c := by
  obtain ⟨hpeer, hor⟩ := h.asleep q c hq
  refine ⟨hpeer, ?_⟩
  rcases hor with hb | ⟨p, hp, howes⟩
  · exact hb
  · exact absurd howes (hl p hp)

end

theorem PipeInv.stepped (h : PipeInv s) {p : ι} {x : PipePc}
    (hfree : s.lock = none ∨ s.lock = some p ∨ s'.lock = s.lock ∧ s'.ring = s.ring)
    (hpc : s'.pc = update s.pc p x) (hpeer : s'.ring.peer = s.ring.peer) (hx : PipeAt s' p x)
    (hreader : ∀ q, s'.sleeping q = some .nread →
      q ≠ p ∧ s.sleeping q = some .nread ∨ q = p ∧ x.reading = true)
    (hasleep : ∀ q c, s'.sleeping q = some c → s'.ring.peer c = true ∧
      (s'.ring.blocked c ∨ ∃ q, s'.lock = some q ∧ (s'.pc q).owes c)) : PipeInv s' := by
  refine ⟨?_, ?_, hasleep⟩
  · intro q
    rw [hpc]
    by_cases hqp : q = p
    · rw [hqp, update_self]
      exact hx
    rw [update_of_ne hqp]
    obtain ⟨hlock, hturn, hopen, habout⟩ := h.place q
    have hsame (hh : (s.pc q).holds = true) : s'.lock = s.lock ∧ s'.ring = s.ring := by
      rcases hfree with hn | hp | hsame
      · rw [hlock hh] at hn
        cases hn
      · rw [hlock hh] at hp
        exact absurd (Option.some.inj hp) hqp
      · exact hsame
    refine ⟨fun hh => (hsame hh).1.trans (hlock hh), hturn, ?_, fun c hc => ?_⟩
    · exact fun hr => (congrFun hpeer .nwrite).trans (hopen hr)
    · rw [(hsame (PipePc.holds_of_about hc)).2]
      exact habout c hc
  · intro q hq
    rw [hpc]
    rcases hreader q hq with ⟨hqp, hs⟩ | ⟨hqp, hx⟩
    · rw [update_of_ne hqp]
      exact h.reader q hs
    · rw [hqp, update_self]
      exact hx

omit [DecidableEq ι] in
theorem wakeup_sleeping {c c' : PipeChan} {q : ι} (h : (s.wakeup c).sleeping q = some c') :
    s.sleeping q = some c' ∧ c' ≠ c := by
  change (if s.sleeping q = some c then none else s.sleeping q) = some c' at h
  split_ifs at h with hc
  refine ⟨h, ?_⟩
  intro heq
  exact hc (by rw [h, heq])

/-- A writer that has filled the pipe in its turn, and has more to write, is not killed
at that point. -/
def PipeOp.Announces (s : PipeState ι) : PipeOp ι → Prop
  | .step p => ∀ src i0 i, s.pc p = .wloop src i0 i → i0 < i → i < src.length → s.ring.full →
      s.killed p = false
  | _ => True

section Steps
variable {p : ι}

omit [DecidableEq ι] in
theorem other_reader (hp : s.sleeping p = none) {q : ι} {x : PipePc}
    (hq : s.sleeping q = some .nread) :
    q ≠ p ∧ s.sleeping q = some .nread ∨ q = p ∧ x.reading = true := by
  refine Or.inl ⟨?_, hq⟩
  intro heq
  rw [heq, hp] at hq
  cases hq

omit [DecidableEq ι] in
theorem PipeInv.reason_of_holder (h : PipeInv s) {c : PipeChan} {q : ι}
    (hq : s.sleeping q = some c) (hl : s.lock = some p) (ho : ¬ (s.pc p).owes c) :
    s.ring.peer c = true ∧ s.ring.blocked c := by
  apply h.reason hq
  intro p' hp'
  rw [hl] at hp'
  rw [← Option.some.inj hp']
  exact ho

theorem PipeInv.acquire (h : PipeInv s) {x : PipePc} (hp : s.sleeping p = none)
    (hl : s.lock = none) (hx : PipeAt { s.move p x with lock := some p } p x) :
    PipeInv { s.move p x with lock := some p } := by
  refine h.stepped (Or.inl hl) rfl rfl hx (fun q hq => other_reader hp hq) ?_
  intro q c hq
  obtain ⟨hpeer, hb⟩ := h.reason hq (fun p' hp' => by rw [hl] at hp'; cases hp')
  exact ⟨hpeer, Or.inl hb⟩

/-- The holder goes on without touching the ring and owes at least what it owed. -/
theorem PipeInv.goOn (h : PipeInv s) {x : PipePc} (hp : s.sleeping p = none)
    (hl : s.lock = some p) (hx : PipeAt s p x) (howes : ∀ c, (s.pc p).owes c → x.owes c) :
    PipeInv (s.move p x) := by
  refine h.stepped (Or.inr (Or.inl hl)) rfl rfl ⟨hx.lock, hx.turn, hx.readopen, hx.about⟩
    (fun q hq => other_reader hp hq) ?_
  intro q c hq
  obtain ⟨hpeer, hor⟩ := h.asleep q c hq
  refine ⟨hpeer, hor.imp id ?_⟩
  intro ⟨p', hp', ho⟩
  rw [hl] at hp'
  cases hp'
  refine ⟨p, hl, ?_⟩
  change (update s.pc p x p).owes c
  rw [update_self]
  exact howes c ho

/-- The holder gives the lock back and owes nothing to those that still sleep. -/
theorem PipeInv.release (h : PipeInv s) {x : PipePc} (hp : s.sleeping p = none)
    (hl : s.lock = some p) (hpc : s'.pc = update s.pc p x) (hring : s'.ring = s.ring)
    (hx : x.holds = false) (hread : x.reading = true → s.ring.readopen = true)
    (hsleep : ∀ q c, s'.sleeping q = some c → s.sleeping q = some c ∧ ¬ (s.pc p).owes c ∨
      q = p ∧ (s.pc p).about = some c ∧ (c = .nread → x.reading = true)) : PipeInv s' := by
  rw [← hring] at hread
  refine h.stepped (Or.inr (Or.inl hl)) hpc (by rw [hring]) (.of_outside hx hread) ?_ ?_
  · intro q hq
    rcases hsleep q _ hq with ⟨hs, _⟩ | ⟨hqp, _, hr⟩
    · exact other_reader hp hs
    · exact Or.inr ⟨hqp, hr rfl⟩
  · intro q c hq
    rw [hring]
    rcases hsleep q c hq with ⟨hs, ho⟩ | ⟨_, ha, _⟩
    · obtain ⟨hpeer, hb⟩ := h.reason_of_holder hs hl ho
      exact ⟨hpeer, Or.inl hb⟩
    · obtain ⟨hpeer, hb⟩ := (h.place p).about c ha
      exact ⟨hpeer, Or.inl hb⟩

/-- The holder moves a byte and owes a wakeup on `c`; on the other channel nobody can
sleep. -/
theorem PipeInv.moved (h : PipeInv s) {x : PipePc} (hp : s.sleeping p = none)
    (hl : s.lock = some p) (hpc : s'.pc = update s.pc p x)
    (hpeer : s'.ring.peer = s.ring.peer) (hs : s'.sleeping = s.sleeping) (hx : PipeAt s' p x)
    {c : PipeChan} (hl' : s'.lock = some p) (howes : x.owes c)
    (hother : ∀ c', c' ≠ c → ¬ s.ring.blocked c' ∧ ¬ (s.pc p).owes c') : PipeInv s' := by
  refine h.stepped (Or.inr (Or.inl hl)) hpc hpeer hx ?_ ?_
  · intro q hq
    rw [hs] at hq
    exact other_reader hp hq
  · intro q c' hq
    rw [hs] at hq
    by_cases hc : c' = c
    · subst hc
      rw [hpeer]
      refine ⟨(h.asleep q _ hq).1, Or.inr ⟨p, hl', ?_⟩⟩
      rw [hpc, update_self]
      exact howes
    · obtain ⟨hnb, hno⟩ := hother c' hc
      exact absurd (h.reason_of_holder hq hl hno).2 hnb

theorem PipeInv.write (h : PipeInv s) {src : List (Option UInt8)} {i0 i : Nat}
    (hp : s.sleeping p = none) (hpc : s.pc p = .wloop src i0 i)
    (hann : i0 < i → i < src.length → s.ring.full → s.killed p = false) :
    PipeInv (s.write p src i0 i) := by
  have hl : s.lock = some p := (h.place p).lock (by rw [hpc]; rfl)
  have hno : ¬ (s.pc p).owes .nwrite := by
    rw [hpc]
    exact id
  have hend : PipeInv (s.move p (.wend i)) := by
    refine h.goOn hp hl ⟨fun _ => hl, nofun, nofun, nofun⟩ fun c hc => ?_
    cases c with
    | nread => trivial
    | nwrite => exact absurd hc hno
  unfold PipeState.write
  cases hsrc : src[i]? with
  | none => exact hend
  | some byte =>
    have hlt : i < src.length := (List.getElem?_eq_some_iff.mp hsrc).1
    dsimp only
    by_cases hfull : s.ring.full
    · rw [if_pos hfull]
      by_cases hexit : s.ring.readopen = false ∨ s.killed p = true
      · -- No reader sleeps when its end is closed, and a killed writer has stored nothing.
        rw [if_pos hexit]
        refine h.release (x := .out (-1)) hp hl rfl rfl rfl nofun ?_
        intro q c hq
        refine Or.inl ⟨hq, ?_⟩
        cases c with
        | nwrite => exact hno
        | nread =>
          rw [hpc]
          intro howes
          rcases hexit with hclosed | hkilled
          · rw [(h.place q).readopen (h.reader q hq)] at hclosed
            cases hclosed
          · rw [hann howes hlt hfull] at hkilled
            cases hkilled
      · rw [if_neg hexit]
        have hopen : s.ring.readopen = true := by
          cases hr : s.ring.readopen with
          | true => rfl
          | false => exact absurd (Or.inl hr) hexit
        have hpc' : ((s.wakeup .nread).move p (.wsleep src i)).pc =
            update s.pc p (.wsleep src i) := rfl
        refine h.stepped (Or.inr (Or.inl hl)) hpc' rfl ⟨fun _ => hl, nofun, nofun, ?_⟩ ?_ ?_
        · intro c hc
          cases hc
          exact ⟨hopen, hfull⟩
        · intro q hq
          exact absurd rfl (wakeup_sleeping hq).2
        · intro q c hq
          obtain ⟨hs, hc⟩ := wakeup_sleeping hq
          cases c with
          | nread => exact absurd rfl hc
          | nwrite => exact ⟨hopen, Or.inl hfull⟩
    · rw [if_neg hfull]
      cases byte with
      | none => exact hend
      | some ch =>
        have hturn := (h.place p).turn src i0 i hpc
        refine h.moved (x := .wloop src i0 (i+1)) (c := .nread) hp hl rfl rfl rfl
          ⟨fun _ => hl, ?_, nofun, nofun⟩ hl (Nat.lt_succ_of_le hturn) ?_
        · intro src' j0 j heq
          cases heq
          omega
        · intro c hc
          cases c with
          | nread => exact absurd rfl hc
          | nwrite => exact ⟨hfull, hno⟩

theorem PipeInv.read (h : PipeInv s) {dst : List Bool} {i : Nat} (hp : s.sleeping p = none)
    (hpc : s.pc p = .rloop dst i) : PipeInv (s.read p dst i) := by
  have hl : s.lock = some p := (h.place p).lock (by rw [hpc]; rfl)
  have hopen := (h.place p).readopen (by rw [hpc]; rfl)
  have hno : ¬ (s.pc p).owes .nread := by
    rw [hpc]
    exact id
  have hend : PipeInv (s.move p (.rend i)) := by
    refine h.goOn hp hl ⟨fun _ => hl, nofun, fun _ => hopen, nofun⟩ fun c hc => ?_
    cases c with
    | nread => exact absurd hc hno
    | nwrite => trivial
  unfold PipeState.read
  cases dst[i]? with
  | none => exact hend
  | some ok =>
    dsimp only
    by_cases hempty : s.ring.empty
    · rw [if_pos hempty]
      exact hend
    · rw [if_neg hempty]
      have hother : ∀ c', c' ≠ PipeChan.nwrite → ¬ s.ring.blocked c' ∧ ¬ (s.pc p).owes c' := by
        intro c hc
        cases c with
        | nread => exact ⟨hempty, hno⟩
        | nwrite => exact absurd rfl hc
      cases ok with
      | true =>
        exact h.moved (x := .rloop dst (i+1)) (c := .nwrite) hp hl rfl rfl rfl
          ⟨fun _ => hl, nofun, fun _ => hopen, nofun⟩ hl (Nat.succ_pos i) hother
      | false =>
        exact h.moved (x := .rend i) (c := .nwrite) hp hl rfl rfl rfl
          ⟨fun _ => hl, nofun, fun _ => hopen, nofun⟩ hl trivial hother

/-- `wakeup(chan)` and the way out: nobody sleeps on `chan` any more. -/
theorem PipeInv.wakeLeave (h : PipeInv s) {r : Int} (hp : s.sleeping p = none)
    (hl : s.lock = some p) {chan : PipeChan} (ho : ∀ c, c ≠ chan → ¬ (s.pc p).owes c) :
    PipeInv ((s.wakeup chan).leave p r) := by
  refine h.release (x := .out r) hp hl rfl rfl rfl nofun ?_
  intro q c hq
  obtain ⟨hs, hc⟩ := wakeup_sleeping hq
  exact Or.inl ⟨hs, ho c hc⟩

theorem PipeInv.sleep (h : PipeInv s) {chan : PipeChan} {x : PipePc} (hp : s.sleeping p = none)
    (habout : (s.pc p).about = some chan) (hx : x.holds = false)
    (hread : x.reading = (s.pc p).reading) (hchan : chan = .nread → x.reading = true)
    (ho : ∀ c, ¬ (s.pc p).owes c) : PipeInv (s.sleep p chan x) := by
  have hl := (h.place p).lock (PipePc.holds_of_about habout)
  refine h.release hp hl rfl rfl hx (fun hr => (h.place p).readopen (hread.symm.trans hr)) ?_
  intro q c hq
  change update s.sleeping p (some chan) q = some c at hq
  by_cases hqp : q = p
  · rw [hqp, update_self] at hq
    cases hq
    exact Or.inr ⟨hqp, habout, hchan⟩
  · rw [update_of_ne hqp] at hq
    exact Or.inl ⟨hq, ho c⟩

theorem PipeInv.step (h : PipeInv s) (he : (PipeOp.step p).enabled s)
    (hann : (PipeOp.step p).Announces s) : PipeInv (s.step p) := by
  obtain ⟨hp, hout, hacq⟩ := he
  unfold PipeState.step
  split
  · exact h
  · rename_i src i hpc
    refine h.acquire hp (hacq (by rw [hpc]; rfl)) ⟨fun _ => rfl, ?_, nofun, nofun⟩
    intro src' j0 j heq
    cases heq
    exact Nat.le_refl _
  · rename_i src i0 i hpc
    exact h.write hp hpc (fun h1 h2 h3 => hann src i0 i hpc h1 h2 h3)
  · rename_i src i hpc
    apply h.sleep hp
    · rw [hpc]
      rfl
    · rfl
    · rw [hpc]
      rfl
    · intro hc
      cases hc
    · intro c
      rw [hpc]
      exact id
  · rename_i i hpc
    apply h.wakeLeave hp ((h.place p).lock (by rw [hpc]; rfl))
    intro c hc
    rw [hpc]
    cases c with
    | nread => exact absurd rfl hc
    | nwrite => exact id
  · rename_i dst hpc
    exact h.acquire hp (hacq (by rw [hpc]; rfl))
      ⟨fun _ => rfl, nofun, fun _ => (h.place p).readopen (by rw [hpc]; rfl), nofun⟩
  · rename_i dst hpc
    have hl := (h.place p).lock (by rw [hpc]; rfl)
    have hno (c : PipeChan) : ¬ (s.pc p).owes c := by
      rw [hpc]
      exact id
    have hopen := (h.place p).readopen (by rw [hpc]; rfl)
    split_ifs with hwait hkilled
    · exact h.release (x := .out (-1)) hp hl rfl rfl rfl nofun
        (fun q c hq => Or.inl ⟨hq, hno c⟩)
    · refine h.goOn hp hl ⟨fun _ => hl, nofun, fun _ => hopen, fun c hc => ?_⟩
        fun c hc => absurd hc (hno c)
      cases hc
      exact ⟨hwait.2, hwait.1⟩
    · exact h.goOn hp hl ⟨fun _ => hl, nofun, fun _ => hopen, nofun⟩ fun c hc => absurd hc (hno c)
  · rename_i dst hpc
    apply h.sleep hp
    · rw [hpc]
      rfl
    · rfl
    · rw [hpc]
      rfl
    · exact fun _ => rfl
    · intro c
      rw [hpc]
      exact id
  · rename_i dst i hpc
    exact h.read hp hpc
  · rename_i i hpc
    apply h.wakeLeave hp ((h.place p).lock (by rw [hpc]; rfl))
    intro c hc
    rw [hpc]
    cases c with
    | nread => exact id
    | nwrite => exact absurd rfl hc

/-- A process outside begins a call, which asks for the lock first. -/
theorem PipeInv.call (h : PipeInv s) {x : PipePc} (hout : (s.pc p).outside = true)
    (hx : x.acquires = true) (hread : x.reading = true → s.ring.readopen = true) :
    PipeInv (s.move p x) := by
  have hxh : x.holds = false := by
    unfold PipePc.holds
    rw [hx, Bool.not_true, Bool.and_false]
  obtain ⟨r, hr⟩ := PipePc.eq_out hout
  refine h.stepped (Or.inr (Or.inr ⟨rfl, rfl⟩)) rfl rfl (.of_outside hxh hread) ?_ ?_
  · intro q hq
    refine Or.inl ⟨?_, hq⟩
    intro hqp
    have hreading := h.reader q hq
    rw [hqp, hr] at hreading
    cases hreading
  · intro q c hq
    obtain ⟨hpeer, hor⟩ := h.asleep q c hq
    refine ⟨hpeer, hor.imp id ?_⟩
    intro ⟨p', hp', ho⟩
    refine ⟨p', hp', ?_⟩
    have hne : p' ≠ p := by
      intro heq
      rw [heq, hr] at ho
      cases ho
    change (update s.pc p x p').owes c
    rw [update_of_ne hne]
    exact ho

omit [DecidableEq ι] in
/-- With the lock free, `pipeclose` wakes those that wait for the end it closes. -/
theorem PipeInv.close (h : PipeInv s) {writable : Bool} (he : (PipeOp.close writable).enabled s) :
    PipeInv (s.close writable) := by
  have hl : s.lock = none := by
    cases writable with
    | true => exact he.1
    | false => exact he.1
  have hnobody (q : ι) : (s.pc q).holds = false := by
    rw [Bool.eq_false_iff]
    intro hh
    rw [(h.place q).lock hh] at hl
    cases hl
  have hreason (q : ι) (c : PipeChan) (hq : s.sleeping q = some c) :=
    h.reason hq (fun p' hp' => by rw [hl] at hp'; cases hp')
  have hslept (q : ι) (c : PipeChan) (hq : (s.close writable).sleeping q = some c) :
      s.sleeping q = some c ∧ (s.close writable).ring.peer c = true ∧
        (s.close writable).ring.blocked c := by
    cases writable with
    | true =>
      obtain ⟨hs, hc⟩ := wakeup_sleeping hq
      cases c with
      | nread => exact absurd rfl hc
      | nwrite => exact ⟨hs, hreason q _ hs⟩
    | false =>
      obtain ⟨hs, hc⟩ := wakeup_sleeping hq
      cases c with
      | nread => exact ⟨hs, hreason q _ hs⟩
      | nwrite => exact absurd rfl hc
  have hpc : (s.close writable).pc = s.pc := by
    cases writable <;> rfl
  refine ⟨fun q => ?_, fun q hq => ?_, fun q c hq => (hslept q c hq).2.imp id Or.inl⟩
  · rw [hpc]
    refine .of_outside (hnobody q) fun hr => ?_
    cases writable with
    | true => exact (h.place q).readopen hr
    | false => exact absurd (he.2.2 q) (ne_false_of_eq_true hr)
  · rw [hpc]
    exact h.reader q (hslept q _ hq).1

theorem PipeInv.kill (h : PipeInv s) : PipeInv (s.kill p) := by
  have hs (q : ι) (c : PipeChan) (hq : (s.kill p).sleeping q = some c) : s.sleeping q = some c := by
    change update s.sleeping p none q = some c at hq
    by_cases hqp : q = p
    · rw [hqp, update_self] at hq
      cases hq
    · rw [update_of_ne hqp] at hq
      exact hq
  refine ⟨fun q => ?_, fun q hq => h.reader q (hs q _ hq), fun q c hq => h.asleep q c (hs q c hq)⟩
  obtain ⟨h1, h2, h3, h4⟩ := h.place q
  exact ⟨h1, h2, h3, h4⟩

end Steps

theorem PipeOp.next_inv {op : PipeOp ι} (h : PipeInv s) (he : op.enabled s)
    (hann : op.Announces s) : PipeInv (op.next s) := by
  cases op with
  | write p src => exact h.call he.1 rfl nofun
  | read p dst => exact h.call he.1 rfl (fun _ => he.2)
  | step p => exact h.step he hann
  | close writable => exact h.close he
  | kill p => exact h.kill

omit [DecidableEq ι] in
theorem Fresh.inv (h : s.Fresh) : PipeInv s := by
  obtain ⟨_, _, hro, _, _, hout, hsl, _, _⟩ := h
  refine ⟨fun p => ?_, fun p hp => ?_, fun p c hp => ?_⟩
  · obtain ⟨r, hr⟩ := PipePc.eq_out (hout p)
    rw [hr]
    exact .of_outside rfl nofun
  · rw [hsl] at hp
    cases hp
  · rw [hsl] at hp
    cases hp

/-- In runs where no writer is killed at a pipe that it has just filled, no wakeup is
lost. -/
theorem pipe_wakeups (h : PipeReachable PipeOp.Announces s) (hl : s.lock = none) (p : ι) :
    (s.sleeping p = some .nread →
      s.ring.nread = s.ring.nwrite ∧ s.ring.writeopen = true) ∧
    (s.sleeping p = some .nwrite →
      s.ring.nwrite = s.ring.nread + BitVec.ofNat 32 PIPESIZE ∧ s.ring.readopen = true) := by
  have hinv : PipeInv s := by
    apply h.invariant
    · exact fun s h => Fresh.inv h
    · intro s op hi he
      exact (runs_modify.mpr (PipeOp.next_inv hi he.1 he.2)).ends
  have hreason (c : PipeChan) (hp : s.sleeping p = some c) :=
    hinv.reason hp (fun q hq => by rw [hl] at hq; cases hq)
  constructor
  · intro hp
    obtain ⟨hpeer, hb⟩ := hreason _ hp
    exact ⟨hb, hpeer⟩
  · intro hp
    obtain ⟨hpeer, hb⟩ := hreason _ hp
    exact ⟨hb, hpeer⟩

instance PipeOp.decidableAnnounces (s : PipeState ι) (op : PipeOp ι) :
    Decidable (op.Announces s) :=
  match op with
  | .step p =>
    match h : s.pc p with
    | .wloop src i0 i =>
      decidable_of_iff (i0 < i → i < src.length → s.ring.full → s.killed p = false) (by
        constructor
        · intro hc src' j0 j heq
          rw [h] at heq
          cases heq
          exact hc
        · exact fun hc => hc src i0 i h)
    | .out .. | .wlock .. | .wsleep .. | .wend .. | .rlock .. | .rwait .. | .rsleep .. | .rloop ..
    | .rend .. => isTrue (fun src i0 i heq => by rw [h] at heq; cases heq)
  | .write .. | .read .. | .close .. | .kill .. => inferInstanceAs (Decidable True)

/-- A reader sleeps on the new pipe. -/
theorem pipe_wakeups_reader : ∃ s : PipeState (Fin 2), PipeReachable PipeOp.Announces s ∧
    s.sleeping 0 = some .nread ∧ s.ring.nread = s.ring.nwrite := by
  have hexec : ((runSteps (fun (s : PipeState (Fin 2)) (op : PipeOp (Fin 2)) =>
      op.enabled s ∧ op.Announces s) PipeOp.run [.read 0 [true], .step 0, .step 0, .step 0]
      newPipe).any fun s => decide (s.lock = none ∧ s.sleeping 0 = some .nread)) = true := by
    decide +kernel
  obtain ⟨s, hs, hend⟩ := (Option.any_eq_true _ _).mp hexec
  obtain ⟨hl, hsl⟩ := of_decide_eq_true hend
  have hreach : PipeReachable PipeOp.Announces s := (Reaches.init newPipe_fresh).exec hs
  exact ⟨s, hreach, hsl, ((pipe_wakeups hreach hl 0).1 hsl).1⟩

/-- Process 0 sleeps in `piperead`. Process 1, which was killed, writes 513 bytes: it
fills the pipe and returns -1, and process 0 sleeps on. -/
theorem killed_writer_loses_wakeup : ∃ s : PipeState (Fin 2),
    PipeReachable (fun _ _ => True) s ∧ s.lock = none ∧ s.sleeping 0 = some .nread ∧
      s.ring.nread ≠ s.ring.nwrite := by
  have hexec : ((runSteps (fun (s : PipeState (Fin 2)) (op : PipeOp (Fin 2)) => op.enabled s ∧ True)
      PipeOp.run ([.read 0 [true], .step 0, .step 0, .step 0,
        .write 1 (List.replicate 513 (some 65)), .kill 1] ++ List.replicate 514 (.step 1))
      newPipe).any fun s => decide (s.lock = none ∧ s.sleeping 0 = some .nread ∧
        s.ring.nread ≠ s.ring.nwrite)) = true := by
    decide +kernel
  obtain ⟨s, hs, hend⟩ := (Option.any_eq_true _ _).mp hexec
  exact ⟨s, (Reaches.init newPipe_fresh).exec hs, of_decide_eq_true hend⟩

end Sleepers

end Xv6
