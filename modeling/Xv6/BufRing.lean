import Xv6.LinkedRing
import Xv6.BufCache

/-! The list of buffers of `kernel/bio.c` with its pointers. Each section under
`bcache.lock` is one step: `bget` up to `acquiresleep`, the end of `brelse`, `bpin` and
`bunpin`. -/
namespace Xv6.Bcache

open Function

/-- The fields of `struct buf` that these sections use. -/
structure Buf where
  dev : Nat
  blockno : Nat
  valid : Bool
  refcnt : Nat

/-- A pointer to a buffer; `none` is `&bcache.head`. -/
abbrev Ptr := Option Slot

/-- The pointers and the buffers, with a record beside them: how many callers of `bget`
have a buffer, how often it is pinned, and when its count last went to 0. -/
structure State where
  links : Links Ptr
  buf : Slot → Buf
  holds : Slot → Nat
  pins : Slot → Nat
  released : Slot → Option Nat
  clock : Nat

def binit (r : Links Ptr) : Links Ptr :=
  (List.finRange NBUF).foldl (fun r b => r.pushFront none (some b))
    ((r.setPrev none none).setNext none none)

def State.Fresh (s : State) : Prop :=
  (∃ r, s.links = binit r) ∧ (∀ b, s.buf b = ⟨0, 0, false, 0⟩) ∧ (∀ b, s.holds b = 0) ∧
    (∀ b, s.pins b = 0) ∧ ∀ b, s.released b = none

def State.setBuf (s : State) (b : Slot) (x : Buf) : State :=
  { s with buf := update s.buf b x }

def State.hold (s : State) (b : Slot) : State :=
  { s with holds := update s.holds b (s.holds b + 1) }

def State.matches (s : State) (dev blockno : Nat) : Ptr → Bool
  | none => false
  | some b => decide ((s.buf b).dev = dev ∧ (s.buf b).blockno = blockno)

def State.unused (s : State) : Ptr → Bool
  | none => false
  | some b => decide ((s.buf b).refcnt = 0)

/-- The loops of `bget` along `next` and `prev`, for at most as many rounds as there are
buffers. -/
def bget (dev blockno : Nat) : Prog State Slot := do
  let s ← get
  match scan s.links.next none (s.matches dev blockno) (NBUF+1) (s.links.next none) with
  | some (some (some b)) =>
    set ((s.setBuf b { s.buf b with refcnt := (s.buf b).refcnt + 1 }).hold b)
    pure b
  | some _ =>
    match scan s.links.prev none s.unused (NBUF+1) (s.links.prev none) with
    | some (some (some b)) =>
      set ((s.setBuf b ⟨dev, blockno, false, 1⟩).hold b)
      pure b
    | some _ => throw "bget: no buffers"
    | none => throw "bget: runs for ever"
  | none => throw "bget: runs for ever"

def brelse (b : Slot) : Prog State Unit := do
  modify fun s => { s.setBuf b { s.buf b with refcnt := (s.buf b).refcnt - 1 } with
    holds := update s.holds b (s.holds b - 1) }
  let s ← get
  if (s.buf b).refcnt = 0 then
    set { s with
      links := (s.links.unlink (some b)).pushFront none (some b)
      released := update s.released b (some s.clock)
      clock := s.clock + 1 }

def bpin (b : Slot) : Prog State Unit :=
  modify fun s => { s.setBuf b { s.buf b with refcnt := (s.buf b).refcnt + 1 } with
    pins := update s.pins b (s.pins b + 1) }

def bunpin (b : Slot) : Prog State Unit :=
  modify fun s => { s.setBuf b { s.buf b with refcnt := (s.buf b).refcnt - 1 } with
    pins := update s.pins b (s.pins b - 1) }

inductive Op
  | bget (dev blockno : Nat)
  | brelse (b : Slot)
  | bpin (b : Slot)
  | bunpin (b : Slot)

def Op.run : Op → Prog State Unit
  | .bget dev blockno => do
    let _ ← Bcache.bget dev blockno
  | .brelse b => Bcache.brelse b
  | .bpin b => Bcache.bpin b
  | .bunpin b => Bcache.bunpin b

/-- `brelse`, `bpin` and `bunpin` are called by one who has the buffer, and `bunpin`
takes back a `bpin`. -/
def Op.enabled (s : State) : Op → Prop
  | .bget .. => True
  | .brelse b => 0 < s.holds b
  | .bpin b => 0 < s.holds b
  | .bunpin b => 0 < s.holds b ∧ 0 < s.pins b

abbrev Reachable : State → Prop := Reaches State.Fresh Op.enabled Op.run

/-- `a` went out of use after `b`; a buffer that was never used is the oldest. -/
def State.Newer (s : State) (a b : Slot) : Prop :=
  match s.released a, s.released b with
  | _, none => True
  | none, some _ => False
  | some t, some u => u < t

/-- `l` are the buffers from `head.next` on. -/
structure Inv (s : State) (l : List Slot) : Prop where
  ring : Ring s.links none (l.map some)
  all : ∀ b, b ∈ l
  count : ∀ b, (s.buf b).refcnt = s.holds b + s.pins b
  unique : ∀ a b, (s.buf a).dev ≠ 0 → (s.buf a).dev = (s.buf b).dev →
    (s.buf a).blockno = (s.buf b).blockno → a = b
  past : ∀ b t, s.released b = some t → t < s.clock
  order : (l.filter fun b => decide ((s.buf b).refcnt = 0)).Pairwise s.Newer

section Lists
variable {s : State} {l : List Slot}

def State.cached (s : State) (l : List Slot) (dev blockno : Nat) : Option Slot :=
  l.find? fun b => decide ((s.buf b).dev = dev ∧ (s.buf b).blockno = blockno)

def State.oldest (s : State) (l : List Slot) : Option Slot :=
  l.reverse.find? fun b => decide ((s.buf b).refcnt = 0)

theorem Inv.length (h : Inv s l) : l.length < NBUF+1 := by
  have hnd : l.Nodup := List.Nodup.of_map some (List.nodup_cons.mp h.ring.nodup).2
  have := hnd.length_le_card
  rw [Fintype.card_fin] at this
  omega

theorem Inv.nodup (h : Inv s l) : l.Nodup :=
  List.Nodup.of_map some (List.nodup_cons.mp h.ring.nodup).2

theorem Inv.scan_cached (h : Inv s l) (dev blockno : Nat) :
    scan s.links.next none (s.matches dev blockno) (NBUF+1) (s.links.next none) =
      some ((s.cached l dev blockno).map some) := by
  rw [h.ring.scan_next (by rw [List.length_map]; exact h.length), List.find?_map]
  rfl

theorem Inv.scan_oldest (h : Inv s l) :
    scan s.links.prev none s.unused (NBUF+1) (s.links.prev none) =
      some ((s.oldest l).map some) := by
  rw [h.ring.scan_prev (by rw [List.length_map]; exact h.length), ← List.map_reverse,
    List.find?_map]
  rfl

theorem cached_none (h : Inv s l) {dev blockno : Nat} (hc : s.cached l dev blockno = none)
    (a : Slot) : ¬ ((s.buf a).dev = dev ∧ (s.buf a).blockno = blockno) := by
  have := List.find?_eq_none.mp hc a (h.all a)
  simpa using this

theorem cached_some {dev blockno : Nat} {b : Slot} (hc : s.cached l dev blockno = some b) :
    (s.buf b).dev = dev ∧ (s.buf b).blockno = blockno := by
  have := List.find?_some hc
  simpa using this

theorem oldest_none (h : Inv s l) (hc : s.oldest l = none) (a : Slot) : 0 < (s.buf a).refcnt := by
  have := List.find?_eq_none.mp hc a (List.mem_reverse.mpr (h.all a))
  rw [decide_eq_true_eq] at this
  omega

/-- The last unused buffer has been out of use for longer than all others. -/
theorem oldest_some (h : Inv s l) {b : Slot} (hc : s.oldest l = some b) :
    (s.buf b).refcnt = 0 ∧ ∀ a, a ≠ b → (s.buf a).refcnt = 0 → s.Newer a b := by
  have hb := List.find?_some hc
  rw [decide_eq_true_eq] at hb
  refine ⟨hb, ?_⟩
  intro a hne ha
  obtain ⟨_, as, bs, hsplit, hbefore⟩ := List.find?_eq_some_iff_append.mp hc
  have hl : l = bs.reverse ++ b :: as.reverse := by
    calc l = l.reverse.reverse := (List.reverse_reverse l).symm
      _ = bs.reverse ++ b :: as.reverse := by rw [hsplit]; simp
  have hmem : a ∈ bs.reverse := by
    have := h.all a
    rw [hl, List.mem_append, List.mem_cons] at this
    rcases this with hm | hm | hm
    · exact hm
    · exact absurd hm hne
    · have := hbefore a (List.mem_reverse.mp hm)
      rw [ha] at this
      simp at this
  have hord := h.order
  rw [hl, List.filter_append, List.pairwise_append] at hord
  apply hord.2.2 a
  · exact List.mem_filter.mpr ⟨hmem, decide_eq_true ha⟩
  · exact List.mem_filter.mpr ⟨List.mem_cons_self, decide_eq_true hb⟩

theorem Inv.bget_eq (h : Inv s l) (dev blockno : Nat) :
    bget dev blockno s = match s.cached l dev blockno with
      | some b => .ok (b, (s.setBuf b { s.buf b with refcnt := (s.buf b).refcnt + 1 }).hold b)
      | none => match s.oldest l with
        | some b => .ok (b, (s.setBuf b ⟨dev, blockno, false, 1⟩).hold b)
        | none => .error "bget: no buffers" := by
  unfold bget
  change (match scan s.links.next none (s.matches dev blockno) (NBUF+1) (s.links.next none) with
    | some (some (some b)) => _
    | some _ => _
    | none => _ : Prog State Slot) s = _
  rw [h.scan_cached, h.scan_oldest]
  cases s.cached l dev blockno with
  | some b => rfl
  | none =>
    cases s.oldest l with
    | some b => rfl
    | none => rfl

end Lists

section View
variable {s s' : State} {l : List Slot} {t t' : BufState}

/-- `t` is the cache with the list in place of its pointers and only the blocks of device 1. -/
structure View (s : State) (l : List Slot) (t : BufState) : Prop where
  order : t.order = l
  block : ∀ b, t.block b = if (s.buf b).dev = 1 then some (s.buf b).blockno else none
  valid : ∀ b, t.valid b = (s.buf b).valid
  refcnt : ∀ b, t.refcnt b = BitVec.ofNat 32 (s.buf b).refcnt

theorem View.setBuf (h : View s l t) {b : Slot} {x : Buf} (hs : s'.buf = update s.buf b x)
    (horder : t'.order = t.order)
    (hblock : t'.block = update t.block b (if x.dev = 1 then some x.blockno else none))
    (hvalid : t'.valid = update t.valid b x.valid)
    (hrefcnt : t'.refcnt = update t.refcnt b (BitVec.ofNat 32 x.refcnt)) : View s' l t' := by
  refine ⟨horder.trans h.order, fun a => ?_, fun a => ?_, fun a => ?_⟩
  all_goals
    by_cases hab : a = b
    · simp only [hs, hblock, hvalid, hrefcnt, hab, update_self]
    · simp only [hs, hblock, hvalid, hrefcnt, update_of_ne hab, h.block, h.valid, h.refcnt]

/-- Over the pointers `bget` does what it does over the list. -/
theorem Inv.bget_view (hi : Inv s l) (h : View s l t) (hlt : ∀ b, (s.buf b).refcnt < 2^32) (p : Pid)
    (blockno : Nat) : match Bcache.bget 1 blockno s with
      | .ok (b, s') => Runs (Xv6.bget p blockno) t fun _ t' =>
          View s' l t' ∧ t'.flight = update t.flight p (some (.waiting b))
      | .error e => Xv6.bget p blockno t = .error e := by
  have hcached : t.cached blockno = s.cached l 1 blockno := by
    unfold BufState.cached State.cached
    rw [h.order]
    congr 1
    funext b
    rw [h.block]
    split_ifs with hdev <;> simp [hdev]
  have hunused : t.unused = s.oldest l := by
    unfold BufState.unused State.oldest
    rw [h.order]
    congr 1
    funext b
    have hb := hlt b
    rw [h.refcnt, decide_eq_decide, ← BitVec.toNat_inj, BitVec.toNat_ofNat, Nat.mod_eq_of_lt hb]
    rfl
  rw [hi.bget_eq, Xv6.bget]
  cases hc : s.cached l 1 blockno with
  | some b =>
    dsimp only
    rw [runs_bind, runs_get, hcached, hc]
    refine runs_set.mpr ⟨h.setBuf rfl rfl ?_ ?_ ?_, rfl⟩
    · rw [← h.block, update_eq_self]
    · rw [← h.valid, update_eq_self]
    · rw [h.refcnt, BitVec.ofNat_add]
      rfl
  | none =>
    cases ho : s.oldest l with
    | some b =>
      dsimp only
      rw [runs_bind, runs_get, hcached, hc, hunused, ho]
      exact runs_set.mpr ⟨h.setBuf rfl rfl rfl rfl rfl, rfl⟩
    | none =>
      change (match t.cached blockno with | some i => _ | none => _ : Prog BufState Unit) t = _
      rw [hcached, hc, hunused, ho]
      rfl

end View

section Steps
variable {s s' : State} {l : List Slot} {b : Slot}

/-- A buffer changes that is in use afterwards; it keeps its place. -/
theorem Inv.inUse (h : Inv s l) (hlinks : s'.links = s.links) (hrel : s'.released = s.released)
    (hclock : s'.clock = s.clock) (hbuf : ∀ a, a ≠ b → s'.buf a = s.buf a)
    (hpos : 0 < (s'.buf b).refcnt) (hcount : ∀ a, (s'.buf a).refcnt = s'.holds a + s'.pins a)
    (hunique : ∀ a c, (s'.buf a).dev ≠ 0 → (s'.buf a).dev = (s'.buf c).dev →
      (s'.buf a).blockno = (s'.buf c).blockno → a = c) : Inv s' l := by
  refine ⟨by rw [hlinks]; exact h.ring, h.all, hcount, hunique, ?_, ?_⟩
  · rw [hrel, hclock]
    exact h.past
  · have hnewer : s'.Newer = s.Newer := by
      unfold State.Newer
      rw [hrel]
    rw [hnewer]
    refine List.Pairwise.sublist ?_ h.order
    apply List.monotone_filter_right
    intro a ha
    rw [decide_eq_true_eq] at ha ⊢
    have hab : a ≠ b := by
      intro heq
      rw [heq] at ha
      omega
    rw [← hbuf a hab]
    exact ha

theorem Inv.bget (h : Inv s l) (dev blockno : Nat) :
    Ends (bget dev blockno) s fun _ s' => Inv s' l := by
  intro b s' hrun
  rw [h.bget_eq] at hrun
  have hother (x : Buf) (a : Slot) (hne : a ≠ b) : ((s.setBuf b x).hold b).buf a = s.buf a :=
    update_of_ne hne _ _
  have hsame (x : Buf) : ((s.setBuf b x).hold b).buf b = x := update_self ..
  have hholds (x : Buf) (a : Slot) : ((s.setBuf b x).hold b).holds a =
      if a = b then s.holds b + 1 else s.holds a := update_apply _ _ _ _
  have hcount (x : Buf) (hx : x.refcnt = s.holds b + 1 + s.pins b) (a : Slot) :
      (((s.setBuf b x).hold b).buf a).refcnt =
        ((s.setBuf b x).hold b).holds a + ((s.setBuf b x).hold b).pins a := by
    rw [hholds]
    split_ifs with hab
    · rw [hab, hsame, hx]
      rfl
    · rw [hother x a hab, h.count]
      rfl
  cases hc : s.cached l dev blockno with
  | some b' =>
    rw [hc] at hrun
    cases hrun
    refine h.inUse rfl rfl rfl (hother _) (by rw [hsame]; exact Nat.succ_pos _) ?_ ?_
    · apply hcount
      have := h.count b
      dsimp only
      omega
    · intro a c
      have hkey (a : Slot) : (((s.setBuf b { s.buf b with refcnt := (s.buf b).refcnt + 1 }).hold b).buf
          a).dev = (s.buf a).dev ∧ (((s.setBuf b { s.buf b with
            refcnt := (s.buf b).refcnt + 1 }).hold b).buf a).blockno = (s.buf a).blockno := by
        by_cases hab : a = b
        · rw [hab, hsame]
          exact ⟨rfl, rfl⟩
        · rw [hother _ a hab]
          exact ⟨rfl, rfl⟩
      rw [(hkey a).1, (hkey a).2, (hkey c).1, (hkey c).2]
      exact h.unique a c
  | none =>
    rw [hc] at hrun
    cases ho : s.oldest l with
    | none =>
      rw [ho] at hrun
      cases hrun
    | some b' =>
      rw [ho] at hrun
      cases hrun
      have hzero := (oldest_some h ho).1
      have hnew := cached_none h hc
      refine h.inUse rfl rfl rfl (hother _) (by rw [hsame]; exact Nat.one_pos) ?_ ?_
      · apply hcount
        have := h.count b
        dsimp only
        omega
      · intro a c hdev hd hn
        by_cases hab : a = b
        · by_cases hcb : c = b
          · rw [hab, hcb]
          · rw [hab, hsame, hother _ c hcb] at hd hn
            exact absurd ⟨hd.symm, hn.symm⟩ (hnew c)
        · rw [hother _ a hab] at hd hn hdev
          by_cases hcb : c = b
          · rw [hcb, hsame] at hd hn
            exact absurd ⟨hd, hn⟩ (hnew a)
          · rw [hother _ c hcb] at hd hn
            exact h.unique a c hdev hd hn

theorem Inv.recount (h : Inv s l) {n : Nat}
    (hs' : s'.buf = update s.buf b { s.buf b with refcnt := n })
    (hlinks : s'.links = s.links) (hrel : s'.released = s.released) (hclock : s'.clock = s.clock)
    (hpos : 0 < n) (hb : n = s'.holds b + s'.pins b)
    (hother : ∀ a, a ≠ b → s'.holds a = s.holds a ∧ s'.pins a = s.pins a) : Inv s' l := by
  have hsame : s'.buf b = { s.buf b with refcnt := n } := by rw [hs', update_self]
  have hne (a : Slot) (hab : a ≠ b) : s'.buf a = s.buf a := by
    rw [hs', update_of_ne hab]
  have hkey (a : Slot) : (s'.buf a).dev = (s.buf a).dev ∧ (s'.buf a).blockno = (s.buf a).blockno := by
    by_cases hab : a = b
    · rw [hab, hsame]
      exact ⟨rfl, rfl⟩
    · rw [hne a hab]
      exact ⟨rfl, rfl⟩
  refine h.inUse hlinks hrel hclock hne (by rw [hsame]; exact hpos) ?_ ?_
  · intro a
    by_cases hab : a = b
    · rw [hab, hsame]
      exact hb
    · rw [hne a hab, h.count, (hother a hab).1, (hother a hab).2]
  · intro a c
    rw [(hkey a).1, (hkey a).2, (hkey c).1, (hkey c).2]
    exact h.unique a c

/-- A buffer that goes out of use becomes the first and the newest. -/
theorem Inv.toFront (h : Inv s l) (hpins : s.pins b = 0)
    (hs' : s' = { s with
      links := (s.links.unlink (some b)).pushFront none (some b)
      buf := update s.buf b { s.buf b with refcnt := 0 }
      holds := update s.holds b 0
      released := update s.released b (some s.clock)
      clock := s.clock + 1 }) : ∃ l', Inv s' l' := by
  obtain ⟨l1, l2, hl⟩ := List.append_of_mem (h.all b)
  have hnd := h.nodup
  rw [hl, List.nodup_middle, List.nodup_cons] at hnd
  have hnotin : b ∉ l1 ++ l2 := hnd.1
  have hother (a : Slot) (hab : a ≠ b) : s'.buf a = s.buf a := by
    rw [hs']
    exact update_of_ne hab _ _
  have hsame : s'.buf b = { s.buf b with refcnt := 0 } := by
    rw [hs']
    exact update_self ..
  have hrel (a : Slot) : s'.released a = if a = b then some s.clock else s.released a := by
    rw [hs']
    exact update_apply _ _ _ _
  have hkey (a : Slot) : (s'.buf a).dev = (s.buf a).dev ∧ (s'.buf a).blockno = (s.buf a).blockno := by
    by_cases hab : a = b
    · rw [hab, hsame]
      exact ⟨rfl, rfl⟩
    · rw [hother a hab]
      exact ⟨rfl, rfl⟩
  refine ⟨b :: (l1 ++ l2), ?_, ?_, ?_, ?_, ?_, ?_⟩
  · have hring := h.ring
    rw [hl, List.map_append, List.map_cons] at hring
    have hunlinked := hring.unlink
    rw [hs', List.map_cons, List.map_append]
    apply hunlinked.pushFront
    rw [← List.map_append]
    simpa using hnotin
  · intro a
    have := h.all a
    rw [hl, List.mem_append, List.mem_cons] at this
    rw [List.mem_cons, List.mem_append]
    tauto
  · intro a
    by_cases hab : a = b
    · rw [hab, hsame, hs']
      change 0 = update s.holds b 0 b + s.pins b
      rw [update_self, hpins]
    · rw [hother a hab, h.count, hs']
      change s.holds a + s.pins a = update s.holds b 0 a + s.pins a
      rw [update_of_ne hab]
  · intro a c
    rw [(hkey a).1, (hkey a).2, (hkey c).1, (hkey c).2]
    exact h.unique a c
  · intro a t ha
    have hclock : s'.clock = s.clock + 1 := by rw [hs']
    rw [hrel] at ha
    rw [hclock]
    split_ifs at ha with hab
    · cases ha
      exact Nat.lt_succ_self _
    · exact (h.past a t ha).trans (Nat.lt_succ_self _)
  · have hb0 : decide ((s'.buf b).refcnt = 0) = true := by
      rw [hsame]
      rfl
    have hfilter : (l1 ++ l2).filter (fun a => decide ((s'.buf a).refcnt = 0)) =
        (l1 ++ l2).filter fun a => decide ((s.buf a).refcnt = 0) := by
      apply List.filter_congr
      intro a ha
      rw [hother a (fun heq => hnotin (heq ▸ ha))]
    rw [List.filter_cons, if_pos hb0, hfilter, List.pairwise_cons]
    constructor
    · intro a ha
      have hab : a ≠ b := fun heq => hnotin (heq ▸ (List.mem_filter.mp ha).1)
      unfold State.Newer
      rw [hrel, hrel, if_pos rfl, if_neg hab]
      cases hra : s.released a with
      | none => trivial
      | some t => exact h.past a t hra
    · -- The others keep their order and their times.
      have hsub : ((l1 ++ l2).filter fun a => decide ((s.buf a).refcnt = 0)).Pairwise s.Newer := by
        refine List.Pairwise.sublist ?_ h.order
        apply List.Sublist.filter
        rw [hl]
        exact List.Sublist.append_left (List.sublist_cons_self b l2) l1
      apply hsub.imp_of_mem
      intro a c ha hc hac
      have hab : a ≠ b := fun heq => hnotin (heq ▸ (List.mem_filter.mp ha).1)
      have hcb : c ≠ b := fun heq => hnotin (heq ▸ (List.mem_filter.mp hc).1)
      unfold State.Newer at hac ⊢
      rw [hrel, hrel, if_neg hab, if_neg hcb]
      exact hac

/-- The state without one of the references to `b` that callers have. -/
def State.less (s : State) (b : Slot) : State :=
  { s.setBuf b { s.buf b with refcnt := (s.buf b).refcnt - 1 } with
    holds := update s.holds b (s.holds b - 1) }

theorem brelse_runs (s : State) (b : Slot) : Runs (brelse b) s fun _ s' =>
    s' = if (s.buf b).refcnt - 1 = 0 then { s.less b with
      links := (s.links.unlink (some b)).pushFront none (some b)
      released := update s.released b (some s.clock)
      clock := s.clock + 1 } else s.less b := by
  have hbuf : (s.less b).buf b = { s.buf b with refcnt := (s.buf b).refcnt - 1 } := update_self ..
  unfold brelse
  rw [runs_bind, runs_modify, runs_bind, runs_get]
  change Runs (if ((s.less b).buf b).refcnt = 0 then _ else _) (s.less b) _
  rw [hbuf, runs_ite]
  constructor
  · intro hzero
    rw [runs_set, if_pos hzero]
    rfl
  · intro hpos
    rw [runs_pure, if_neg hpos]

theorem Inv.brelse (h : Inv s l) (hb : 0 < s.holds b) :
    Ends (brelse b) s fun _ s' => ∃ l', Inv s' l' := by
  have hcount := h.count b
  refine (brelse_runs s b).ends.imp ?_
  intro _ s' hs'
  split_ifs at hs' with hzero
  · apply h.toFront (b := b) (by omega)
    have hlast : s.holds b - 1 = 0 := by omega
    rw [hs', State.less, hzero, hlast]
    rfl
  · rw [hs']
    refine ⟨l, h.recount rfl rfl rfl rfl (by omega) ?_ ?_⟩
    · change _ = update s.holds b (s.holds b - 1) b + s.pins b
      rw [update_self]
      omega
    · intro a hab
      exact ⟨update_of_ne hab _ _, rfl⟩

theorem Inv.bpin (h : Inv s l) : Ends (bpin b) s fun _ s' => Inv s' l := by
  refine Runs.ends (runs_modify.mpr ?_)
  refine h.recount rfl rfl rfl rfl (Nat.succ_pos _) ?_ ?_
  · change _ = s.holds b + update s.pins b (s.pins b + 1) b
    rw [update_self, h.count]
    omega
  · intro a hab
    exact ⟨rfl, update_of_ne hab _ _⟩

theorem Inv.bunpin (h : Inv s l) (hb : 0 < s.holds b) (hp : 0 < s.pins b) :
    Ends (bunpin b) s fun _ s' => Inv s' l := by
  have hcount := h.count b
  refine Runs.ends (runs_modify.mpr ?_)
  refine h.recount rfl rfl rfl rfl (by omega) ?_ ?_
  · change _ = s.holds b + update s.pins b (s.pins b - 1) b
    rw [update_self]
    omega
  · intro a hab
    exact ⟨rfl, update_of_ne hab _ _⟩

theorem Op.run_inv {op : Op} (h : ∃ l, Inv s l) (he : op.enabled s) :
    Ends op.run s fun _ s' => ∃ l, Inv s' l := by
  obtain ⟨l, h⟩ := h
  cases op with
  | bget dev blockno =>
    refine (h.bget dev blockno).bind ?_
    intro _ s' hs'
    exact ends_pure ⟨l, hs'⟩
  | brelse b => exact h.brelse he
  | bpin b => exact h.bpin.imp fun _ _ hs' => ⟨l, hs'⟩
  | bunpin b => exact (h.bunpin he.1 he.2).imp fun _ _ hs' => ⟨l, hs'⟩

end Steps

section Boot

theorem pushAll_ring (bs : List Slot) : ∀ (r : Links Ptr) (l : List Slot),
    Ring r none (l.map some) → (bs ++ l).Nodup →
    Ring (bs.foldl (fun r b => r.pushFront none (some b)) r) none ((bs.reverse ++ l).map some) := by
  induction bs with
  | nil =>
    intro r l h _
    exact h
  | cons b bs ih =>
    intro r l h hnd
    rw [List.cons_append, List.nodup_cons, List.mem_append, not_or] at hnd
    have hpush : Ring (r.pushFront none (some b)) none ((b :: l).map some) := by
      apply h.pushFront
      simpa using hnd.1.2
    have hrest := ih _ (b :: l) hpush (by
      rw [List.nodup_middle, List.nodup_cons, List.mem_append, not_or]
      exact hnd)
    rw [List.foldl_cons, List.reverse_cons, List.append_assoc]
    exact hrest

theorem binit_ring (r : Links Ptr) :
    Ring (binit r) none ((List.finRange NBUF).reverse.map some) := by
  have hempty : Ring ((r.setPrev none none).setNext none none) none (([] : List Slot).map some) := by
    refine ⟨List.nodup_singleton _, ?_⟩
    rw [List.map_nil, List.nil_append, List.isChain_cons_cons]
    refine ⟨⟨?_, ?_⟩, List.IsChain.singleton _⟩
    · exact update_self none none r.next
    · exact update_self none none r.prev
  have hall := pushAll_ring (List.finRange NBUF) _ [] hempty (by
    rw [List.append_nil]
    exact List.nodup_finRange NBUF)
  rw [List.append_nil] at hall
  exact hall

theorem Fresh.inv {s : State} (h : s.Fresh) : ∃ l, Inv s l := by
  obtain ⟨⟨r, hr⟩, hbuf, hholds, hpins, hrel⟩ := h
  refine ⟨(List.finRange NBUF).reverse, ?_, ?_, ?_, ?_, ?_, ?_⟩
  · rw [hr]
    exact binit_ring r
  · intro b
    exact List.mem_reverse.mpr (List.mem_finRange b)
  · intro b
    rw [hbuf, hholds, hpins]
  · intro a b hdev
    rw [hbuf] at hdev
    exact absurd rfl hdev
  · intro b t hb
    rw [hrel] at hb
    cases hb
  · apply List.pairwise_of_forall
    intro a b
    unfold State.Newer
    rw [hrel b]
    cases s.released a with
    | none => trivial
    | some t => trivial

end Boot

/-- The buffers form a ring in the order of their last release, and `bget` recycles the
one that has been out of use for the longest time. -/
theorem lru_ring {s : State} (h : Reachable s) :
    (∃ l : List Slot, l.Nodup ∧ (∀ b, b ∈ l) ∧
      visit s.links.next none (NBUF+1) (s.links.next none) = some (l.map some) ∧
      visit s.links.prev none (NBUF+1) (s.links.prev none) = some (l.reverse.map some) ∧
      (l.filter fun b => decide ((s.buf b).refcnt = 0)).Pairwise s.Newer) ∧
    (∀ a b, (s.buf a).dev ≠ 0 → (s.buf a).dev = (s.buf b).dev →
      (s.buf a).blockno = (s.buf b).blockno → a = b) ∧
    (∀ dev blockno,
      (∃ b s', bget dev blockno s = .ok (b, s') ∧ s'.links = s.links ∧
        (∀ a, a ≠ b → s'.buf a = s.buf a) ∧
        (s'.buf b = ⟨dev, blockno, (s.buf b).valid, (s.buf b).refcnt + 1⟩ ∧
            (s.buf b).dev = dev ∧ (s.buf b).blockno = blockno ∨
          s'.buf b = ⟨dev, blockno, false, 1⟩ ∧
            (∀ a, ¬ ((s.buf a).dev = dev ∧ (s.buf a).blockno = blockno)) ∧
            (s.buf b).refcnt = 0 ∧ ∀ a, a ≠ b → (s.buf a).refcnt = 0 → s.Newer a b)) ∨
      bget dev blockno s = .error "bget: no buffers" ∧ ∀ b, 0 < (s.buf b).refcnt) ∧
    ∀ b, 0 < s.holds b → Runs (brelse b) s fun _ s' =>
      s'.buf = update s.buf b { s.buf b with refcnt := (s.buf b).refcnt - 1 } ∧
      if (s.buf b).refcnt = 1 then s'.links.next none = some b ∧ s'.released b = some s.clock
      else s'.links = s.links ∧ s'.released = s.released := by
  obtain ⟨l, hi⟩ : ∃ l, Inv s l := by
    apply h.invariant (I := fun s => ∃ l, Inv s l)
    · exact fun s h => Fresh.inv h
    · exact fun s op hi he => Op.run_inv hi he
  have hlen : (l.map some).length < NBUF+1 := by
    rw [List.length_map]
    exact hi.length
  refine ⟨⟨l, hi.nodup, hi.all, hi.ring.visit_next hlen, ?_, hi.order⟩, hi.unique, ?_, ?_⟩
  · rw [hi.ring.visit_prev hlen, List.map_reverse]
  · intro dev blockno
    rw [hi.bget_eq]
    cases hc : s.cached l dev blockno with
    | some b =>
      obtain ⟨hdev, hno⟩ := cached_some hc
      refine Or.inl ⟨b, _, rfl, rfl, fun a ha => update_of_ne ha _ _, Or.inl ⟨?_, hdev, hno⟩⟩
      rw [← hdev, ← hno]
      exact update_self ..
    | none =>
      cases ho : s.oldest l with
      | some b => exact Or.inl ⟨b, _, rfl, rfl, fun a ha => update_of_ne ha _ _,
          Or.inr ⟨update_self .., cached_none hi hc, oldest_some hi ho⟩⟩
      | none => exact Or.inr ⟨rfl, oldest_none hi ho⟩
  · intro b hb
    have hcount := hi.count b
    apply (brelse_runs s b).imp
    intro _ s' hs'
    by_cases hone : (s.buf b).refcnt = 1
    · rw [if_pos (by omega)] at hs'
      rw [if_pos hone, hs']
      exact ⟨rfl, rfl, update_self ..⟩
    · rw [if_neg (by omega)] at hs'
      rw [if_neg hone, hs']
      exact ⟨rfl, rfl, rfl⟩

instance (s : State) (op : Op) : Decidable (op.enabled s) :=
  match op with
  | .bget .. => inferInstanceAs (Decidable True)
  | .brelse .. | .bpin .. => inferInstanceAs (Decidable (0 < _))
  | .bunpin .. => inferInstanceAs (Decidable (_ ∧ _))

def emptyCache : State where
  links := binit ⟨id, id⟩
  buf _ := ⟨0, 0, false, 0⟩
  holds _ := 0
  pins _ := 0
  released _ := none
  clock := 0

/-- All buffers are used once; the next block goes to the one that was released first. -/
theorem lru_ring_full : ∃ s, Reachable s ∧ s.released 0 = some 0 ∧ s.released 29 = some 29 ∧
    ∃ b s', bget 1 100 s = .ok (b, s') ∧ s'.buf b = ⟨1, 100, false, 1⟩ ∧
      ∀ a, a ≠ b → (s.buf a).refcnt = 0 → s.Newer a b := by
  have hexec : ((runSteps Op.enabled Op.run
      ((List.range NBUF).map (.bget 1) ++ (List.finRange NBUF).map .brelse) emptyCache).any fun s =>
        decide (s.released 0 = some 0 ∧ s.released 29 = some 29 ∧ (s.buf 0).refcnt = 0 ∧
          ∀ b, (s.buf b).blockno ≠ 100)) = true := by
    decide +kernel
  obtain ⟨s, hs, hend⟩ := (Option.any_eq_true _ _).mp hexec
  obtain ⟨h0, h29, href, hno⟩ := of_decide_eq_true hend
  have hreach : Reachable s :=
    Reaches.exec (.init ⟨⟨_, rfl⟩, fun _ => rfl, fun _ => rfl, fun _ => rfl, fun _ => rfl⟩) hs
  refine ⟨s, hreach, h0, h29, ?_⟩
  rcases (lru_ring hreach).2.2.1 1 100 with ⟨b, s', hrun, _, _, hb⟩ | ⟨_, hpos⟩
  · rcases hb with ⟨_, _, hb⟩ | ⟨hbuf, _, _, hb⟩
    · exact absurd hb (hno b)
    · exact ⟨b, s', hrun, hbuf, hb⟩
  · have := hpos 0
    omega

end Xv6.Bcache
