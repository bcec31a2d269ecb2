import Xv6.Console
import Xv6.LinkedRing

/-! The console as its users see it: a queue of committed characters and the line that is
being edited. The ring of `kernel/console.c` behaves like it in every run. -/
namespace Xv6.Console

open Function

section Abstract
variable {ι : Type} [DecidableEq ι]

inductive Reader
  | out
  | reading (n : Int) (got : List UInt8)

/-- The committed queue `C`, the edit line `E`, and who reads. -/
structure Line (ι : Type) where
  C : List UInt8
  E : List UInt8
  reader : ι → Reader
  returned : List (ι × Int × List UInt8)

def Line.empty : Line ι := ⟨[], [], fun _ => .out, []⟩

def Line.type (a : Line ι) (c : UInt8) : Line ι :=
  if c = CTRL_U then { a with E := [] }
  else if c = CTRL_H ∨ c = DEL then { a with E := a.E.dropLast }
  else if c = CTRL_P then a
  else if c ≠ 0 ∧ a.C.length + a.E.length < INPUT_BUF then
    let c := if c = CR then NL else c
    let E := a.E ++ [c]
    if c = NL ∨ c = CTRL_D ∨ a.C.length + E.length = INPUT_BUF then { a with C := a.C ++ E, E := [] }
    else { a with E := E }
  else a

def Line.finish (a : Line ι) (p : ι) (got : List UInt8) : Line ι :=
  { a with
    reader := update a.reader p .out
    returned := a.returned ++ [(p, (got.length : Int), got)] }

/-- A reader takes the next character, or waits for one, or has enough. -/
def Line.take (a : Line ι) (p : ι) : Line ι :=
  match a.reader p with
  | .out => a
  | .reading n got =>
    if n ≤ got.length then a.finish p got
    else match a.C with
      | [] => a
      | c :: C =>
        if c = CTRL_D then
          if got = [] then { a with C := C }.finish p got else a.finish p got
        else if c = NL then { a with C := C }.finish p (got ++ [c])
        else { a with C := C, reader := update a.reader p (.reading n (got ++ [c])) }

def Line.step (a : Line ι) : Op ι → Line ι
  | .intr c => a.type c
  | .read p n => { a with reader := update a.reader p (.reading n []) }
  | .acquire _ => a
  | .round p => a.take p

end Abstract

section Ring
variable {c : Cons} {C E : List UInt8} {x : UInt8}

/-- The ring holds the queue from `r` to `w` and the line from `w` to `e`. -/
structure Agrees (c : Cons) (C E : List UInt8) : Prop where
  queue : QueueAt c.buf INPUT_BUF c.r.toNat (C ++ E)
  w : c.w = c.r + BitVec.ofNat 32 C.length
  e : c.e = c.w + BitVec.ofNat 32 E.length
  len : C.length + E.length ≤ INPUT_BUF
  clean : ∀ x ∈ E, x ≠ NL

theorem ofNat_small {m n : Nat} (hm : m ≤ INPUT_BUF) (hn : n ≤ INPUT_BUF) :
    BitVec.ofNat 32 m = BitVec.ofNat 32 n ↔ m = n := by
  unfold INPUT_BUF at hm hn
  rw [← BitVec.toNat_inj, BitVec.toNat_ofNat, BitVec.toNat_ofNat, Nat.mod_eq_of_lt (by omega),
    Nat.mod_eq_of_lt (by omega)]

theorem toNat_small {m : Nat} (hm : m ≤ INPUT_BUF) : (BitVec.ofNat 32 m).toNat = m := by
  unfold INPUT_BUF at hm
  rw [BitVec.toNat_ofNat]
  exact Nat.mod_eq_of_lt (by omega)

theorem Agrees.w_sub (h : Agrees c C E) : c.w - c.r = BitVec.ofNat 32 C.length := by
  rw [h.w, BitVec.add_comm, BitVec.add_sub_cancel]

theorem Agrees.e_sub_w (h : Agrees c C E) : c.e - c.w = BitVec.ofNat 32 E.length := by
  rw [h.e, BitVec.add_comm, BitVec.add_sub_cancel]

theorem Agrees.e_eq (h : Agrees c C E) : c.e = c.r + BitVec.ofNat 32 (C.length + E.length) := by
  rw [h.e, h.w, BitVec.add_assoc, ← BitVec.ofNat_add]

theorem Agrees.e_sub_r (h : Agrees c C E) : (c.e - c.r).toNat = C.length + E.length := by
  rw [h.e_eq, BitVec.add_comm, BitVec.add_sub_cancel, toNat_small h.len]

/-- The number of places divides that of the indices, so the place of an index is found
from where the queue starts. -/
theorem place_add (r : BitVec 32) (m : Nat) :
    (r + BitVec.ofNat 32 m).toNat % INPUT_BUF = (r.toNat + m) % INPUT_BUF := by
  unfold INPUT_BUF
  rw [BitVec.toNat_add, BitVec.toNat_ofNat]
  omega

theorem Agrees.e_eq_w (h : Agrees c C E) : c.e = c.w ↔ E = [] := by
  have hlen := h.len
  have hz : c.w + BitVec.ofNat 32 E.length = c.w + BitVec.ofNat 32 0 ↔ E.length = 0 := by
    rw [BitVec.add_right_inj]
    exact ofNat_small (by omega) (by omega)
  rw [h.e, ← List.length_eq_zero_iff, ← hz, BitVec.add_zero]

theorem Agrees.r_eq_w (h : Agrees c C E) : c.r = c.w ↔ C = [] := by
  have hlen := h.len
  have hz : c.r + BitVec.ofNat 32 0 = c.r + BitVec.ofNat 32 C.length ↔ 0 = C.length := by
    rw [BitVec.add_right_inj]
    exact ofNat_small (by omega) (by omega)
  rw [h.w, ← List.length_eq_zero_iff, eq_comm (a := C.length), ← hz, BitVec.add_zero]

theorem Agrees.erase (h : Agrees c C (E ++ [x])) :
    Agrees { c with e := c.e-1 } C E ∧ c.at (c.e-1) = x := by
  have hlen := h.len
  rw [List.length_append, List.length_singleton] at hlen
  have he : c.e - 1 = c.w + BitVec.ofNat 32 E.length := by
    rw [h.e, List.length_append, List.length_singleton, BitVec.ofNat_add, ← BitVec.add_assoc]
    exact BitVec.add_sub_cancel _ _
  have hq := h.queue
  rw [← List.append_assoc] at hq
  refine ⟨⟨?_, h.w, he, by omega, ?_⟩, ?_⟩
  · intro k y hk
    apply hq k y
    obtain ⟨hlt, _⟩ := List.getElem?_eq_some_iff.mp hk
    rw [List.getElem?_append_left hlt]
    exact hk
  · intro y hy
    exact h.clean y (List.mem_append_left _ hy)
  · unfold Cons.at
    rw [he, h.w, BitVec.add_assoc, ← BitVec.ofNat_add, place_add]
    apply hq
    rw [← List.length_append, List.getElem?_append_right (Nat.le_refl _), Nat.sub_self]
    rfl

theorem Agrees.kill {n : Nat} : ∀ {c : Cons} {E : List UInt8}, Agrees c C E → E.length = n →
    Agrees (c.killLoop n) C [] := by
  induction n with
  | zero =>
    intro c E h hn
    rw [List.length_eq_zero_iff.mp hn] at h
    exact h
  | succ n ih =>
    intro c E h hn
    have hne : E ≠ [] := by
      intro he
      rw [he] at hn
      cases hn
    obtain ⟨E', x, rfl⟩ : ∃ E' x, E = E' ++ [x] := ⟨E.dropLast, E.getLast hne, (List.dropLast_append_getLast hne).symm⟩
    obtain ⟨herase, hx⟩ := h.erase
    have hnl : x ≠ NL := h.clean x (List.mem_append_right _ List.mem_cons_self)
    unfold Cons.killLoop
    rw [if_pos ⟨fun he => hne (h.e_eq_w.mp he), by rw [hx]; exact hnl⟩]
    apply ih herase
    rw [List.length_append, List.length_singleton] at hn
    omega

theorem Agrees.append (h : Agrees c C E) (hlen : C.length + E.length < INPUT_BUF) (x : UInt8) :
    QueueAt (update c.buf (c.e.toNat % INPUT_BUF) x) INPUT_BUF c.r.toNat (C ++ (E ++ [x])) := by
  have hplace : c.e.toNat % INPUT_BUF = (c.r.toNat + (C ++ E).length) % INPUT_BUF := by
    rw [h.e_eq, place_add, List.length_append]
  rw [hplace, ← List.append_assoc]
  exact h.queue.push (by rw [List.length_append]; exact hlen) x

theorem Agrees.store (h : Agrees c C E) (hlen : C.length + E.length < INPUT_BUF) (x : UInt8) :
    if x = NL ∨ x = CTRL_D ∨ C.length + (E ++ [x]).length = INPUT_BUF then Agrees (c.store x).1 (C ++ (E ++ [x])) []
    else Agrees (c.store x).1 C (E ++ [x]) := by
  have hlen' : (E ++ [x]).length = E.length + 1 := by rw [List.length_append, List.length_singleton]
  have he : c.e + 1 = c.w + BitVec.ofNat 32 (E ++ [x]).length := by
    rw [hlen', BitVec.ofNat_add, ← BitVec.add_assoc, ← h.e]
    rfl
  have hfull : c.e + 1 = c.r + BitVec.ofNat 32 INPUT_BUF ↔ C.length + (E ++ [x]).length = INPUT_BUF := by
    rw [he, h.w, BitVec.add_assoc, ← BitVec.ofNat_add, BitVec.add_right_inj]
    exact ofNat_small (by omega) (Nat.le_refl _)
  have hq := h.append hlen x
  unfold Cons.store
  dsimp only
  by_cases hc : x = NL ∨ x = CTRL_D ∨ C.length + (E ++ [x]).length = INPUT_BUF
  · have hc' : x = NL ∨ x = CTRL_D ∨ c.e + 1 = c.r + BitVec.ofNat 32 INPUT_BUF := by
      rw [hfull]
      exact hc
    rw [if_pos hc, if_pos hc']
    refine ⟨?_, ?_, ?_, ?_, ?_⟩
    · rw [List.append_nil]
      exact hq
    · change c.e + 1 = c.r + _
      have hsum : (C ++ (E ++ [x])).length = C.length + (E ++ [x]).length := List.length_append
      rw [he, h.w, BitVec.add_assoc, ← BitVec.ofNat_add, hsum]
    · exact (BitVec.add_zero _).symm
    · rw [List.length_append, List.length_nil]
      omega
    · intro y hy
      cases hy
  · have hc' : ¬ (x = NL ∨ x = CTRL_D ∨ c.e + 1 = c.r + BitVec.ofNat 32 INPUT_BUF) := by
      rw [hfull]
      exact hc
    rw [if_neg hc, if_neg hc']
    refine ⟨hq, h.w, he, by omega, ?_⟩
    intro y hy
    rcases List.mem_append.mp hy with hy | hy
    · exact h.clean y hy
    · rw [List.mem_singleton.mp hy]
      exact fun hx => hc (Or.inl hx)

theorem Agrees.pop (h : Agrees c (x :: C) E) :
    Agrees { c with r := c.r+1 } C E ∧ c.at c.r = x := by
  have hlen := h.len
  rw [List.length_cons] at hlen
  have hw : c.w = c.r + 1 + BitVec.ofNat 32 C.length := by
    rw [h.w, List.length_cons, Nat.add_comm, BitVec.ofNat_add, ← BitVec.add_assoc]
    rfl
  refine ⟨⟨?_, hw, h.e, by omega, h.clean⟩, h.queue.first⟩
  apply h.queue.pop.congr
  exact place_add c.r 1

/-- What `consoleintr` does to the ring is what typing does to the line. -/
theorem Agrees.intr {ι : Type} {a : Line ι} (h : Agrees c a.C a.E) (x : UInt8) :
    Agrees (c.intr x).1 (a.type x).C (a.type x).E := by
  unfold Cons.intr Line.type
  by_cases hP : x = CTRL_P
  · rw [if_pos hP, hP, if_neg (by decide), if_neg (by decide), if_pos rfl]
    exact h
  rw [if_neg hP]
  by_cases hU : x = CTRL_U
  · rw [if_pos hU, if_pos hU, h.e_sub_w, toNat_small (by have := h.len; omega)]
    exact h.kill rfl
  rw [if_neg hU, if_neg hU]
  by_cases hH : x = CTRL_H ∨ x = DEL
  · rw [if_pos hH, if_pos hH]
    by_cases hE : a.E = []
    · rw [if_neg (not_not.mpr (h.e_eq_w.mpr hE))]
      dsimp only
      rw [hE, List.dropLast_nil, ← hE]
      exact h
    · rw [if_pos (fun he => hE (h.e_eq_w.mp he))]
      rw [← List.dropLast_append_getLast hE] at h
      exact h.erase.1
  rw [if_neg hH, if_neg hH, if_neg hP, h.e_sub_r]
  by_cases hc : x ≠ 0 ∧ a.C.length + a.E.length < INPUT_BUF
  · rw [if_pos hc, if_pos hc]
    dsimp only
    have hstore := h.store hc.2 (if x = CR then NL else x)
    split_ifs at hstore ⊢ <;> exact hstore
  · rw [if_neg hc, if_neg hc]
    exact h

end Ring

section Readers
variable {ι : Type} [DecidableEq ι] {s s' : State ι} {a : Line ι}

/-- The variables of `consoleread` are those of the reader. -/
def ReadPc.Follows : ReadPc → Reader → Prop
  | .out, .out => True
  | .lock target n dst, .reading m got | .loop target n dst, .reading m got =>
    target = BitVec.ofInt 32 m ∧ n = m - got.length ∧ dst = got ∧ m < 2^31 ∧
      (got ≠ [] → (got.length : Int) ≤ m)
  | _, _ => False

structure Refines (s : State ι) (a : Line ι) : Prop where
  ring : Agrees s.cons a.C a.E
  readers : ∀ p, (s.pc p).Follows (a.reader p)
  holder : ∀ p, s.lock = some p → ∃ target n dst, s.pc p = .loop target n dst
  returned : s.returned = a.returned

omit [DecidableEq ι] in
theorem Line.type_reader (a : Line ι) (c : UInt8) :
    (a.type c).reader = a.reader ∧ (a.type c).returned = a.returned := by
  unfold Line.type
  dsimp only
  split_ifs <;> exact ⟨rfl, rfl⟩

theorem result_eq {m : Int} {got : List UInt8} (hm : m < 2^31) (hle : got ≠ [] → (got.length : Int) ≤ m) :
    (BitVec.ofInt 32 m - BitVec.ofInt 32 (m - got.length)).toInt = got.length := by
  have hsmall : (got.length : Int) < 2^31 := by
    by_cases hg : got = []
    · rw [hg]
      decide
    · have := hle hg
      omega
  rw [BitVec.toInt_sub, BitVec.toInt_ofInt, BitVec.toInt_ofInt, Int.bmod_sub_bmod, Int.sub_bmod_bmod]
  have hsub : m - (m - (got.length : Int)) = got.length := by omega
  rw [hsub]
  apply Int.bmod_eq_of_le <;> omega

theorem less_iff {m : Int} {got : List UInt8} (hm : m < 2^31) (hn : 0 < m - got.length) :
    BitVec.ofInt 32 (m - got.length) < BitVec.ofInt 32 m ↔ got ≠ [] := by
  have hword (x : Int) (hx : 0 < x) (hlt : x < 2^31) : ((BitVec.ofInt 32 x).toNat : Int) = x := by
    rw [BitVec.toNat_ofInt]
    omega
  have h1 := hword (m - got.length) hn (by omega)
  have h2 := hword m (by omega) hm
  rw [BitVec.lt_def, ← List.length_pos_iff]
  omega

theorem follows_update {x : ReadPc} {y : Reader} (h : ∀ p, (s.pc p).Follows (a.reader p)) (p : ι)
    (hxy : x.Follows y) (q : ι) : (update s.pc p x q).Follows (update a.reader p y q) := by
  by_cases hq : q = p
  · rw [hq, update_self, update_self]
    exact hxy
  · rw [update_of_ne hq, update_of_ne hq]
    exact h q

theorem Refines.leave {c : Cons} {C : List UInt8} {p : ι} {m : Int} {got : List UInt8} (h : Refines s a)
    (hring : Agrees c C a.E) (hm : m < 2^31) (hle : got ≠ [] → (got.length : Int) ≤ m) :
    Refines ({ s with cons := c }.leave p (BitVec.ofInt 32 m) (m - got.length) got)
      ({ a with C := C }.finish p got) where
  ring := hring
  readers := follows_update h.readers p trivial
  holder := by
    intro q hq
    cases hq
  returned := by
    change s.returned ++ _ = a.returned ++ _
    rw [h.returned, result_eq hm hle]

theorem Refines.sleep {p : ι} {m : Int} {got : List UInt8} (h : Refines s a)
    (hr : a.reader p = .reading m got) (hm : m < 2^31) (hle : got ≠ [] → (got.length : Int) ≤ m) :
    Refines (s.sleep p (BitVec.ofInt 32 m) (m - got.length) got) a where
  ring := h.ring
  readers := by
    have hsame : update a.reader p (.reading m got) = a.reader := by
      rw [← hr]
      exact update_eq_self p a.reader
    have hmove := follows_update (x := .lock (BitVec.ofInt 32 m) (m - got.length) got) h.readers p
      (y := .reading m got) ⟨rfl, rfl, rfl, hm, hle⟩
    rw [hsame] at hmove
    exact hmove
  holder := by
    intro q hq
    cases hq
  returned := h.returned

theorem Refines.round {p : ι} {target : BitVec 32} {n : Int} {dst : List UInt8} (h : Refines s a)
    (hlock : s.lock = some p) (hpc : s.pc p = .loop target n dst) :
    Refines (s.round p target n dst) (a.take p) := by
  have hf := h.readers p
  rw [hpc] at hf
  unfold Line.take
  cases hr : a.reader p with
  | out =>
    rw [hr] at hf
    exact hf.elim
  | reading m got =>
    rw [hr] at hf
    obtain ⟨rfl, rfl, rfl, hm, hle⟩ := hf
    unfold State.round
    dsimp only
    by_cases hn : 0 < m - dst.length
    · have hmore : ¬ m ≤ (dst.length : Int) := by omega
      rw [if_neg (not_not.mpr hn), if_neg hmore]
      cases hC : a.C with
      | nil =>
        rw [if_pos (h.ring.r_eq_w.mpr hC)]
        exact h.sleep hr hm hle
      | cons c C =>
        have hring := h.ring
        rw [hC] at hring
        obtain ⟨hpop, hat⟩ := hring.pop
        rw [if_neg (fun he => List.cons_ne_nil c C (hring.r_eq_w.mp he)), hat]
        dsimp only
        split_ifs with hD hless hgot hgot hNL
        · exact absurd hgot ((less_iff hm hn).mp hless)
        · exact h.leave h.ring hm hle
        · exact h.leave hpop hm hle
        · exact absurd ((less_iff hm hn).mpr hgot) hless
        · have hlen : ((dst ++ [c]).length : Int) = dst.length + 1 := by
            rw [List.length_append, List.length_singleton]
            push_cast
            rfl
          have hsub : m - (dst.length : Int) - 1 = m - ((dst ++ [c]).length : Int) := by omega
          rw [hsub]
          exact h.leave hpop hm fun _ => by omega
        · have hlen : ((dst ++ [c]).length : Int) = dst.length + 1 := by
            rw [List.length_append, List.length_singleton]
            push_cast
            rfl
          refine ⟨hpop, ?_, ?_, h.returned⟩
          · refine follows_update h.readers p ⟨rfl, by omega, rfl, hm, fun _ => by omega⟩
          · intro q hq
            have hqp : q = p := by
              have := hlock.symm.trans hq
              cases this
              rfl
            exact ⟨_, _, _, by rw [hqp]; exact update_self ..⟩
    · have henough : m ≤ (dst.length : Int) := by omega
      rw [if_pos hn, if_pos henough]
      exact h.leave h.ring hm hle

theorem Refines.step (h : Refines s a) {o : Op ι} (he : o.enabled s) (hrun : o.run s = .ok ((), s')) :
    Refines s' (a.step o) := by
  cases o with
  | intr c =>
    obtain ⟨hreader, hret⟩ := a.type_reader c
    have hkeep : ∀ sleeping, Refines { s with cons := (s.cons.intr c).1, sleeping := sleeping } (a.type c) := by
      intro sleeping
      refine ⟨h.ring.intr c, ?_, h.holder, ?_⟩
      · rw [hreader]
        exact h.readers
      · rw [hret]
        exact h.returned
    cases hrun
    dsimp only
    split_ifs
    · exact hkeep fun _ => false
    · exact hkeep s.sleeping
  | read p n =>
    cases hrun
    obtain ⟨hout, _, hn⟩ := he
    refine ⟨h.ring, ?_, ?_, h.returned⟩
    · exact follows_update h.readers p ⟨rfl, (Int.sub_zero n).symm, rfl, hn, fun hne => absurd rfl hne⟩
    · intro q hq
      obtain ⟨target, m, dst, hpc⟩ := h.holder q hq
      have hqp : q ≠ p := by
        intro heq
        rw [heq, hout] at hpc
        cases hpc
      exact ⟨target, m, dst, by rw [← hpc]; exact update_of_ne hqp _ _⟩
  | acquire p =>
    obtain ⟨hfree, _, hacq⟩ := he
    cases hpc : s.pc p with
    | out =>
      rw [hpc] at hacq
      cases hacq
    | loop target n dst =>
      rw [hpc] at hacq
      cases hacq
    | lock target n dst =>
      have hs' : s' = { s.goto p (.loop target n dst) with lock := some p } := by
        cases hrun
        dsimp only
        rw [hpc]
      rw [hs']
      refine ⟨h.ring, ?_, ?_, h.returned⟩
      · intro q
        by_cases hq : q = p
        · have hf := h.readers p
          rw [hpc] at hf
          rw [hq]
          change (update s.pc p _ p).Follows (a.reader p)
          rw [update_self]
          cases hr : a.reader p with
          | out =>
            rw [hr] at hf
            exact hf.elim
          | reading m got =>
            rw [hr] at hf
            exact hf
        · change (update s.pc p _ q).Follows (a.reader q)
          rw [update_of_ne hq]
          exact h.readers q
      · intro q hq
        cases hq
        exact ⟨target, n, dst, update_self ..⟩
  | round p =>
    obtain ⟨target, n, dst, hpc⟩ := h.holder p he
    have hs' : s' = s.round p target n dst := by
      cases hrun
      dsimp only
      rw [hpc]
    rw [hs']
    exact h.round he hpc

end Readers

section Runs
variable {ι : Type} [DecidableEq ι] {s s' : State ι} {os : List (Op ι)}

omit [DecidableEq ι] in
theorem fresh_refines (h : s.Fresh) : Refines s Line.empty := by
  obtain ⟨hr, hw, he, hlock, hpc, _, hret⟩ := h
  refine ⟨⟨QueueAt.nil, ?_, ?_, Nat.zero_le _, ?_⟩, ?_, ?_, hret⟩
  · rw [hw, hr]
    rfl
  · rw [he, hw]
    rfl
  · intro x hx
    cases hx
  · intro p
    rw [hpc]
    trivial
  · intro p hp
    rw [hlock] at hp
    cases hp

/-- After any run the ring and the results are those of the line that the same run edits. -/
theorem console_edits_lines (hs : s.Fresh) (hrun : runSteps Op.enabled Op.run os s = some s') :
    let a := os.foldl Line.step (Line.empty : Line ι)
    a.C.length + a.E.length ≤ INPUT_BUF ∧ s'.returned = a.returned ∧
      (s'.cons.w - s'.cons.r).toNat = a.C.length ∧ (s'.cons.e - s'.cons.r).toNat = a.C.length + a.E.length ∧
      (∀ k x, a.C[k]? = some x → s'.cons.at (s'.cons.r + BitVec.ofNat 32 k) = x) ∧
      (∀ k x, a.E[k]? = some x → s'.cons.at (s'.cons.w + BitVec.ofNat 32 k) = x) := by
  intro a
  have h : Refines s' a := by
    refine runSteps_follows Op.enabled Op.run Line.step ?_ os (fresh_refines hs) hrun
    intro s a o s1 h he ho
    exact h.step he ho
  have hring := h.ring
  refine ⟨hring.len, h.returned, ?_, hring.e_sub_r, ?_, ?_⟩
  · rw [hring.w_sub, toNat_small (by have := hring.len; omega)]
  · intro k x hk
    obtain ⟨hlt, _⟩ := List.getElem?_eq_some_iff.mp hk
    unfold Cons.at
    rw [place_add]
    apply hring.queue k x
    rw [List.getElem?_append_left hlt]
    exact hk
  · intro k x hk
    unfold Cons.at
    rw [hring.w, BitVec.add_assoc, ← BitVec.ofNat_add, place_add]
    apply hring.queue
    rw [List.getElem?_append_right (Nat.le_add_right _ _), Nat.add_sub_cancel_left]
    exact hk

def fresh : State Unit := ⟨⟨fun _ => 0, 0, 0, 0⟩, none, fun _ => .out, fun _ => false, []⟩

/-- `x`, backspace, `h`, `i` and return are typed, and one read of ten bytes follows. -/
def typed : List (Op Unit) :=
  [.intr 120, .intr CTRL_H, .intr 104, .intr 105, .intr CR, .read () 10, .acquire (), .round (),
    .round (), .round ()]

theorem console_edits_lines_typed : fresh.Fresh ∧ (runSteps Op.enabled Op.run typed fresh).isSome ∧
    ∀ s', runSteps Op.enabled Op.run typed fresh = some s' → s'.returned = [((), 3, [104, 105, NL])] := by
  have hfresh : fresh.Fresh := ⟨rfl, rfl, rfl, rfl, rfl, rfl, rfl⟩
  refine ⟨hfresh, by decide, ?_⟩
  intro s' hrun
  rw [(console_edits_lines hfresh hrun).2.1]
  decide

end Runs

end Xv6.Console
