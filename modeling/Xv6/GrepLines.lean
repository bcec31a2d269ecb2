import Xv6.Grep
import Xv6.Memmove

/-! The loop of `user/grep.c` over its input, on a memory with the buffer at `buf`. What
`read` delivers is decided from outside. The scans carry the size of the buffer as fuel. -/
namespace Xv6.Grep

open Function

def BUFSIZE : Nat := 1024

def NL : UInt8 := '\n'.toUInt8

def strchr (mem : Bytes) (c : UInt8) : Nat → Nat → Option Nat
  | 0, _ => none
  | k+1, s =>
    if mem s = 0 then none
    else if mem s = c then some s else strchr mem c k (s+1)

def stringAt (mem : Bytes) : Nat → Nat → List UInt8
  | 0, _ => []
  | k+1, s => if mem s = 0 then [] else mem s :: stringAt mem k (s+1)

def bytesAt (mem : Bytes) : Nat → Nat → List UInt8
  | 0, _ => []
  | n+1, a => mem a :: bytesAt mem n (a+1)

/-- The loop over the lines in the buffer, with `out` for what was written to file 1. A newline
comes back only in a line that is written. -/
def lineLoop (pattern : List UInt8) :
    Nat → Bytes → Nat → List (List UInt8) → Bytes × Nat × List (List UInt8)
  | 0, mem, p, out => (mem, p, out)
  | k+1, mem, p, out =>
    match strchr mem NL BUFSIZE p with
    | none => (mem, p, out)
    | some q =>
      let mem := update mem q 0
      if «match» pattern (stringAt mem BUFSIZE p) then
        let mem := update mem q NL
        lineLoop pattern k mem (q+1) (out ++ [bytesAt mem (q+1-p) p])
      else lineLoop pattern k mem (q+1) out

/-- How many bytes a `read` returns that could return `want`: no more than it was asked for or
than there are, and at least one if it can. -/
def readLen (want request avail : Nat) : Nat := min (max want 1) (min request avail)

/-- The loop of `grep`; the `i`th `read` would return `want i` bytes. `none` is a loop that has
not ended. -/
def grepLoop (pattern : List UInt8) (buf : Nat) (want : Nat → Nat) :
    Nat → Nat → List UInt8 → Bytes → Nat → List (List UInt8) → Option (List (List UInt8))
  | 0, _, _, _, _, _ => none
  | k+1, i, input, mem, m, out =>
    let n := readLen (want i) (BUFSIZE-m-1) input.length
    if n = 0 then some out
    else
      let mem := blit mem (buf+m) (input.take n)
      let m := m+n
      let mem := update mem (buf+m) 0
      let (mem, p, out) := lineLoop pattern BUFSIZE mem buf out
      if m > 0 then
        let m := m-(p-buf)
        grepLoop pattern buf want k (i+1) (input.drop n) (Ulib.memmove mem buf p (Int32.ofNat m)).2 m out
      else grepLoop pattern buf want k (i+1) (input.drop n) mem m out

def grep (pattern : List UInt8) (buf : Nat) (want : Nat → Nat) (fuel : Nat) (input : List UInt8)
    (mem : Bytes) : Option (List (List UInt8)) :=
  grepLoop pattern buf want fuel 0 input mem 0 []

def lines : List UInt8 → List (List UInt8)
  | [] => []
  | c :: text =>
    if c = NL then [c] :: lines text
    else match lines text with
      | [] => []
      | l :: ls => (c :: l) :: ls

section Lines
variable {l text : List UInt8}

theorem lines_line (h : NL ∉ l) : lines (l ++ NL :: text) = (l ++ [NL]) :: lines text := by
  induction l with
  | nil =>
    rw [List.nil_append, lines, if_pos rfl]
    rfl
  | cons c l ih =>
    obtain ⟨hc, hl⟩ := not_or.mp (mt List.mem_cons.mpr h)
    rw [List.cons_append, lines, if_neg (Ne.symm hc), ih hl]
    rfl

theorem lines_none (h : NL ∉ text) : lines text = [] := by
  induction text with
  | nil => rfl
  | cons c text ih =>
    obtain ⟨hc, htext⟩ := not_or.mp (mt List.mem_cons.mpr h)
    rw [lines, if_neg (Ne.symm hc), ih htext]

end Lines

def Holds (mem : Bytes) : Nat → List UInt8 → Prop
  | _, [] => True
  | a, c :: l => mem a = c ∧ Holds mem (a+1) l

section Holds
variable {mem mem' : Bytes} {a b : Nat} {l r : List UInt8}

theorem holds_append : Holds mem a (l ++ r) ↔ Holds mem a l ∧ Holds mem (a+l.length) r := by
  induction l generalizing a with
  | nil =>
    constructor
    · intro h
      exact ⟨trivial, h⟩
    · intro h
      exact h.2
  | cons c l ih =>
    have hnext : a+1+l.length = a+(c :: l).length := by
      rw [List.length_cons]
      omega
    change mem a = c ∧ Holds mem (a+1) (l ++ r) ↔
      (mem a = c ∧ Holds mem (a+1) l) ∧ Holds mem (a+(c :: l).length) r
    rw [ih, hnext, and_assoc]

theorem Holds.copied (h : Holds mem a l) (hcopy : ∀ i < l.length, mem' (b+i) = mem (a+i)) :
    Holds mem' b l := by
  induction l generalizing a b with
  | nil => trivial
  | cons c l ih =>
    constructor
    · exact (hcopy 0 (Nat.zero_lt_succ _)).trans h.1
    · apply ih h.2
      intro i hi
      have hstep := hcopy (i+1) (Nat.succ_lt_succ hi)
      rwa [← Nat.add_assoc, ← Nat.add_assoc, Nat.add_right_comm b, Nat.add_right_comm a] at hstep

theorem Holds.update_outside (h : Holds mem a l) {x : Nat} {c : UInt8}
    (hx : x < a ∨ a+l.length ≤ x) : Holds (update mem x c) a l := by
  apply h.copied
  intro i hi
  rw [update_of_ne (by omega)]

/-- One more character behind those that are there. -/
theorem Holds.snoc (h : Holds mem a l) (c : UInt8) :
    Holds (update mem (a+l.length) c) a (l ++ [c]) := by
  apply holds_append.mpr
  exact ⟨h.update_outside (Or.inr le_rfl), update_self _ _ _, trivial⟩

theorem Holds.blit (h : Holds mem a l) : Holds (blit mem (a+l.length) r) a (l ++ r) := by
  apply holds_append.mpr
  constructor
  · apply h.copied
    intro i hi
    unfold Xv6.blit
    rw [if_neg (by omega)]
  · clear h
    generalize a+l.length = b
    -- the bytes of `r` as they stand in a memory that has them at 0
    have hsrc : Holds (fun i => r.getD i 0) 0 r := by
      induction r with
      | nil => trivial
      | cons c r ih =>
        constructor
        · rfl
        · apply ih.copied
          intro i _
          rw [Nat.zero_add, Nat.zero_add, Nat.add_comm]
          rfl
    apply hsrc.copied
    intro i hi
    rw [blit_at mem b r i hi, Nat.zero_add]

theorem Holds.moved (h : Holds mem a l) : Holds (moved mem b a l.length) b l :=
  h.copied fun _ hi => moved_inside hi

theorem Holds.bytesAt (h : Holds mem a l) : bytesAt mem l.length a = l := by
  induction l generalizing a with
  | nil => rfl
  | cons c l ih =>
    rw [List.length_cons, Grep.bytesAt, ih h.2, h.1]

theorem Holds.stringAt (h : Holds mem a (l ++ [0])) (hnul : 0 ∉ l) {k : Nat} (hk : l.length < k) :
    stringAt mem k a = l := by
  induction l generalizing a k with
  | nil =>
    cases k with
    | zero => exact absurd hk (Nat.not_lt_zero _)
    | succ k => rw [Grep.stringAt, if_pos h.1]
  | cons c l ih =>
    obtain ⟨hc, hl⟩ := not_or.mp (mt List.mem_cons.mpr hnul)
    cases k with
    | zero => exact absurd hk (Nat.not_lt_zero _)
    | succ k =>
      have hrest := ih h.2 hl (Nat.lt_of_succ_lt_succ hk)
      rw [Grep.stringAt, h.1, if_neg (Ne.symm hc), hrest]

theorem Holds.strchr_some (h : Holds mem a (l ++ NL :: r)) (hl : NL ∉ l) (hnul : 0 ∉ l) {k : Nat}
    (hk : l.length < k) : strchr mem NL k a = some (a+l.length) := by
  induction l generalizing a k with
  | nil =>
    cases k with
    | zero => exact absurd hk (Nat.not_lt_zero _)
    | succ k =>
      rw [strchr, h.1, if_neg (by decide), if_pos rfl]
      rfl
  | cons c l ih =>
    obtain ⟨hc, hl⟩ := not_or.mp (mt List.mem_cons.mpr hl)
    obtain ⟨hc0, hnul⟩ := not_or.mp (mt List.mem_cons.mpr hnul)
    cases k with
    | zero => exact absurd hk (Nat.not_lt_zero _)
    | succ k =>
      have hrest := ih h.2 hl hnul (Nat.lt_of_succ_lt_succ hk)
      rw [strchr, h.1, if_neg (Ne.symm hc0), if_neg (Ne.symm hc), hrest, List.length_cons]
      congr 1
      omega

theorem Holds.strchr_none (h : Holds mem a (l ++ [0])) (hl : NL ∉ l) (k : Nat) :
    strchr mem NL k a = none := by
  induction l generalizing a k with
  | nil =>
    cases k with
    | zero => rfl
    | succ k => rw [strchr, if_pos h.1]
  | cons c l ih =>
    obtain ⟨hc, hl⟩ := not_or.mp (mt List.mem_cons.mpr hl)
    cases k with
    | zero => rfl
    | succ k => rw [strchr, h.1, if_neg (Ne.symm hc), ih h.2 hl k, ite_self]

end Holds

section Loops
variable {pattern : List UInt8}

def wanted (pattern : List UInt8) (ls : List (List UInt8)) : List (List UInt8) :=
  ls.filter fun l => «match» pattern l.dropLast

theorem wanted_line (l : List UInt8) :
    wanted pattern [l ++ [NL]] = if «match» pattern l then [l ++ [NL]] else [] := by
  unfold wanted
  rw [List.filter_cons, List.dropLast_concat, List.filter_nil]

/-- Where the loop over the buffer ends: it has taken the lines `ls` from the text and leaves
`rest`, whatever comes behind the text. -/
def Taken (pattern text : List UInt8) (p : Nat) (out : List (List UInt8))
    (r : Bytes × Nat × List (List UInt8)) : Prop :=
  ∃ ls rest, NL ∉ rest ∧ rest ⊆ text ∧ Holds r.1 r.2.1 rest ∧
    (p ≤ r.2.1 ∧ r.2.1+rest.length = p+text.length) ∧ r.2.2 = out ++ wanted pattern ls ∧
    ∀ more, lines (text ++ more) = ls ++ lines (rest ++ more)

theorem Taken.line {l later : List UInt8} {p : Nat} {out : List (List UInt8)}
    {r : Bytes × Nat × List (List UInt8)} (hl : NL ∉ l)
    (h : Taken pattern later (p+l.length+1) (out ++ wanted pattern [l ++ [NL]]) r) :
    Taken pattern (l ++ NL :: later) p out r := by
  obtain ⟨ls, rest, hrest, hsub, hmem, hpos, hout, hlines⟩ := h
  have hlen : (l ++ NL :: later).length = l.length+(later.length+1) := List.length_append
  refine ⟨(l ++ [NL]) :: ls, rest, hrest, ?_, hmem, by omega, ?_, ?_⟩
  · intro x hx
    exact List.mem_append_right _ (List.mem_cons_of_mem _ (hsub hx))
  · have hfilter : wanted pattern ((l ++ [NL]) :: ls) = wanted pattern [l ++ [NL]] ++ wanted pattern ls :=
      @List.filter_append _ _ [l ++ [NL]] ls
    rw [hout, hfilter, List.append_assoc]
  · intro more
    rw [List.append_assoc, List.cons_append, lines_line hl, hlines, List.cons_append]

/-- By induction on the rounds; each takes the first line of the text. -/
theorem lineLoop_spec (k : Nat) : ∀ {mem : Bytes} {p : Nat} {text : List UInt8}
    {out : List (List UInt8)}, Holds mem p (text ++ [0]) → 0 ∉ text → text.length < k → k ≤ BUFSIZE →
    Taken pattern text p out (lineLoop pattern k mem p out) := by
  induction k with
  | zero =>
    intro mem p text out _ _ hk _
    exact absurd hk (Nat.not_lt_zero _)
  | succ k ih =>
    intro mem p text out hmem hnul hk hbound
    rw [lineLoop]
    by_cases hnl : NL ∈ text
    · obtain ⟨l, later, rfl, hl⟩ := List.eq_append_cons_of_mem hnl
      rw [List.append_assoc, List.cons_append] at hmem
      rw [List.mem_append, List.mem_cons, not_or, not_or] at hnul
      rw [List.length_append, List.length_cons] at hk
      rw [hmem.strchr_some hl hnul.1 (by omega)]
      obtain ⟨hline, -, hlater⟩ := holds_append.mp hmem
      have hcut := hline.update_outside (x := p+l.length) (c := 0) (Or.inr le_rfl)
      have hlater1 := hlater.update_outside (x := p+l.length) (c := 0) (Or.inl (Nat.lt_succ_self _))
      dsimp only
      rw [(hline.snoc 0).stringAt hnul.1 (by omega)]
      apply Taken.line hl
      rw [wanted_line]
      split_ifs with hm
      · have hlater2 := hlater1.update_outside (x := p+l.length) (c := NL) (Or.inl (Nat.lt_succ_self _))
        have hcount : p+l.length+1-p = (l ++ [NL]).length := by
          rw [List.length_append, List.length_singleton]
          omega
        rw [hcount, (hcut.snoc NL).bytesAt]
        exact ih hlater2 hnul.2.2 (by omega) (by omega)
      · rw [List.append_nil]
        exact ih hlater1 hnul.2.2 (by omega) (by omega)
    · rw [hmem.strchr_none hnl]
      exact ⟨[], text, hnl, List.Subset.refl _, (holds_append.mp hmem).1, ⟨le_rfl, rfl⟩,
        (List.append_nil _).symm, fun _ => rfl⟩

/-- A text whose lines fit into the buffer has none that starts with `rest` if `rest` fills it. -/
theorem lines_none_of_full {rest input : List UInt8} (hrest : NL ∉ rest)
    (hfull : BUFSIZE ≤ rest.length+1) (hlen : ∀ l ∈ lines (rest ++ input), l.length < BUFSIZE) :
    lines (rest ++ input) = [] := by
  apply lines_none
  intro hnl
  have hin : NL ∈ input := (List.mem_append.mp hnl).resolve_left hrest
  obtain ⟨l, later, rfl, hl⟩ := List.eq_append_cons_of_mem hin
  have hno : NL ∉ rest ++ l := by
    rw [List.mem_append, not_or]
    exact ⟨hrest, hl⟩
  have hshort := hlen ((rest ++ l) ++ [NL]) (by
    rw [← List.append_assoc, lines_line hno]
    exact List.mem_cons_self)
  rw [List.length_append, List.length_append, List.length_singleton] at hshort
  omega

/-- The loop has `rest` in the buffer and `input` before it; by induction on the reads. -/
theorem grepLoop_spec {buf : Nat} (hbuf : buf+BUFSIZE ≤ 2^64) (want : Nat → Nat) (k : Nat) :
    ∀ {i : Nat} {rest input : List UInt8} {mem : Bytes} {out : List (List UInt8)},
    Holds mem buf rest → NL ∉ rest → 0 ∉ rest → 0 ∉ input → rest.length < BUFSIZE →
    (∀ l ∈ lines (rest ++ input), l.length < BUFSIZE) → input.length < k →
    grepLoop pattern buf want k i input mem rest.length out =
      some (out ++ wanted pattern (lines (rest ++ input))) := by
  have hsize : BUFSIZE = 1024 := rfl
  induction k with
  | zero =>
    intro i rest input mem out _ _ _ _ _ _ hk
    exact absurd hk (Nat.not_lt_zero _)
  | succ k ih =>
    intro i rest input mem out hmem hrest hnul hnul' hroom hlen hk
    rw [grepLoop]
    generalize hn : readLen (want i) (BUFSIZE-rest.length-1) input.length = n
    unfold readLen at hn
    dsimp only
    split_ifs with hstop hpos
    · -- nothing more comes, or the buffer is full of a line that does not end
      have hnone : lines (rest ++ input) = [] := by
        by_cases hempty : input = []
        · rw [hempty, List.append_nil]
          exact lines_none hrest
        · have hpos := List.length_pos_iff.mpr hempty
          exact lines_none_of_full hrest (by omega) hlen
      rw [hnone]
      exact congrArg some (List.append_nil out).symm
    · have hsplit : input = input.take n ++ input.drop n := (List.take_append_drop n input).symm
      have htake : (input.take n).length = n := List.length_take_of_le (by omega)
      have hdrop : (input.drop n).length = input.length-n := List.length_drop
      rw [hsplit, List.mem_append, not_or] at hnul'
      have htext : (rest ++ input.take n).length = rest.length+n := by
        rw [List.length_append, htake]
      have hread := (hmem.blit (r := input.take n)).snoc 0
      rw [htext] at hread
      have hzero : 0 ∉ rest ++ input.take n := by
        rw [List.mem_append, not_or]
        exact ⟨hnul, hnul'.1⟩
      have hloop := @lineLoop_spec pattern BUFSIZE _ _ _ out hread hzero (by omega) le_rfl
      generalize lineLoop pattern BUFSIZE _ buf out = r at hloop ⊢
      obtain ⟨mem', q, out'⟩ := r
      obtain ⟨ls, rest', hrest', hsub, hleft, hpos, hout, hlines⟩ := hloop
      dsimp only at hleft hpos hout ⊢
      have hall : lines (rest ++ input) = ls ++ lines (rest' ++ input.drop n) := by
        rw [← hlines, List.append_assoc, ← hsplit]
      have hm : rest.length+n-(q-buf) = rest'.length := by omega
      rw [hm, Ulib.memmove_eq (by omega) (by omega) (by omega), hout]
      rw [ih hleft.moved hrest' (fun h0 => hzero (hsub h0)) hnul'.2 (by omega) ?_ (by omega)]
      · rw [hall, wanted, wanted, wanted, List.filter_append, List.append_assoc]
      · intro l hl
        exact hlen l (hall ▸ List.mem_append_right _ hl)
    · omega

end Loops

/-- Whatever the reads deliver at a time, `grep` writes the terminated lines that match. -/
theorem grep_writes_matching_lines (pattern input : List UInt8) (buf : Nat) (mem : Bytes)
    (want : Nat → Nat) (fuel : Nat) (hbuf : buf+BUFSIZE ≤ 2^64) (hnul : 0 ∉ input)
    (hlen : ∀ l ∈ lines input, l.length ≤ 1023) (hfuel : input.length < fuel) :
    grep pattern buf want fuel input mem =
      some ((lines input).filter fun l => «match» pattern l.dropLast) := by
  have hstart : Holds mem buf [] := trivial
  exact grepLoop_spec hbuf want fuel hstart List.not_mem_nil List.not_mem_nil hnul (by decide)
    (fun l hl => Nat.lt_succ_of_le (hlen l hl)) hfuel

/-- The pattern `b` and an input that comes one byte at a time. -/
theorem grep_writes_matching_lines_by_bytes :
    grep [98] 4096 (fun _ => 1) 9 [97, 10, 98, 99, 10, 98] (fun _ => 0) = some [[98, 99, 10]] := by
  have h := grep_writes_matching_lines [98] [97, 10, 98, 99, 10, 98] 4096 (fun _ => 0) (fun _ => 1) 9
    (by decide) (by decide) (by decide) (by decide)
  rw [h]
  decide

end Xv6.Grep
