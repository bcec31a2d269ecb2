import Xv6.ShParse
import Mathlib.Data.List.DropRight
import Mathlib.Data.List.GetD
import Mathlib.Tactic.Ring

/-! The tokens of a command line, told from its characters alone, and what `peek` and
`gettoken` see of them. -/
namespace Xv6.Sh

/-- The character of a symbol; `>>` has it twice, and a word's is no symbol. -/
def Tok.char : Tok → UInt8
  | .nul => 0
  | .bar => 124
  | .lparen => 40
  | .rparen => 41
  | .semi => 59
  | .amp => 38
  | .lt => 60
  | .gt => 62
  | .gtgt => 62
  | .word => 97

/-- A space, a tab, a carriage return, a newline or a vertical tab. -/
def Blank (c : UInt8) : Prop := c = 32 ∨ c = 9 ∨ c = 13 ∨ c = 10 ∨ c = 11

instance (c : UInt8) : Decidable (Blank c) := inferInstanceAs (Decidable (_ ∨ _))

/-- A character of a word: not blank and none of `<|>&;()`. -/
def Plain (c : UInt8) : Prop := ¬ Blank c ∧ c ∉ [60, 124, 62, 38, 59, 40, 41]

/-- `t` are the characters of a token of kind `k` in front of `s`: one symbol, `>>`, or a
word that does not go on in `s`. -/
inductive Lexeme : Tok → List UInt8 → List UInt8 → Prop
  | symbol {k : Tok} {s : List UInt8} (hk : k ∈ [.bar, .lparen, .rparen, .semi, .amp, .lt]) :
      Lexeme k [k.char] s
  | gt {s : List UInt8} (hs : s.head? ≠ some 62) : Lexeme .gt [62] s
  | gtgt {s : List UInt8} : Lexeme .gtgt [62, 62] s
  | word {w s : List UInt8} (hw : w ≠ []) (hin : ∀ c ∈ w, Plain c)
      (hout : ∀ c ∈ s.head?, ¬ Plain c) : Lexeme .word w s

/-- `ts` are the tokens of the characters `s`, which stand in a line from `i` on. -/
inductive Lexes : Nat → List UInt8 → List Token → Prop
  | nil {i : Nat} : Lexes i [] []
  | blank {i : Nat} {c : UInt8} {s : List UInt8} {ts : List Token} (hc : Blank c)
      (h : Lexes (i+1) s ts) : Lexes i (c :: s) ts
  | token {i : Nat} {k : Tok} {t s : List UInt8} {ts : List Token} (hk : Lexeme k t s)
      (h : Lexes (i + t.length) s ts) : Lexes i (t ++ s) (⟨k, i, i + t.length⟩ :: ts)

/-- The tokens that `gettoken` finds in `s`, the rest of a line of `es` characters. -/
def lex (es : Nat) : Nat → List UInt8 → List Token
  | 0, _ => []
  | k+1, s =>
    if (gettoken es s).1.tok = .nul then []
    else (gettoken es s).1 :: lex es k (gettoken es s).2

def tokens (es : Nat) (s : List UInt8) : List Token := lex es s.length s

theorem isWhite_iff {c : UInt8} : isWhite c = true ↔ Blank c := by
  simp [isWhite, strchr, whitespace, Blank]

theorem isWord_iff {c : UInt8} : isWord c = true ↔ Plain c := by
  simp [isWord, strchr, whitespace, symbols, Plain, Blank]

theorem dropWhile_head {p : UInt8 → Bool} {s r : List UInt8} {c : UInt8}
    (h : s.dropWhile p = c :: r) : p c = false := by
  have := List.head?_dropWhile_not p s
  rw [h] at this
  simpa using this

section Lexeme
variable {s t : List UInt8} {k : Tok}

theorem Lexeme.black (h : Lexeme k t s) : k ≠ .nul ∧ t ≠ [] ∧ ∀ c ∈ t, ¬ Blank c := by
  cases h with
  | symbol hk =>
    simp only [List.mem_cons, List.not_mem_nil, or_false] at hk
    rcases hk with rfl | rfl | rfl | rfl | rfl | rfl <;>
      exact ⟨nofun, nofun, fun c hc => by rw [List.mem_singleton.mp hc]; decide⟩
  | gt => exact ⟨nofun, nofun, fun c hc => by rw [List.mem_singleton.mp hc]; decide⟩
  | gtgt => exact ⟨nofun, nofun, fun c hc => by rw [List.eq_of_mem_replicate (n := 2) hc]; decide⟩
  | word hw hin _ => exact ⟨nofun, hw, fun c hc => (hin c hc).1⟩

theorem tokenAt_word {c : UInt8} {r : List UInt8} (hc : Plain c) (h0 : c ≠ 0) :
    tokenAt (c :: r) = (.word, (c :: r).dropWhile isWord) := by
  obtain ⟨_, hc⟩ := hc
  simp only [List.mem_cons, List.not_mem_nil, or_false, not_or] at hc
  obtain ⟨h1, h2, h3, h4, h5, h6, h7⟩ := hc
  simp only [tokenAt, List.headD_cons, h0, h1, h2, h3, h4, h5, h6, h7, if_false]

theorem Lexeme.tokenAt (h : Lexeme k t s) (h0 : (t ++ s).headD 0 ≠ 0) :
    tokenAt (t ++ s) = (k, s) := by
  cases h with
  | symbol hk =>
    simp only [List.mem_cons, List.not_mem_nil, or_false] at hk
    rcases hk with rfl | rfl | rfl | rfl | rfl | rfl <;> rfl
  | gt hs =>
    have hne : s.headD 0 ≠ 62 := by
      intro heq
      cases s with
      | nil => cases heq
      | cons c r => exact hs (congrArg some heq)
    show (if s.headD 0 = 62 then _ else _) = _
    rw [if_neg hne]
    rfl
  | gtgt => rfl
  | word hw hin hout =>
    have hall : ∀ c ∈ t, isWord c = true := fun c hc => isWord_iff.mpr (hin c hc)
    have hstop : s.dropWhile isWord = s := by
      cases s with
      | nil => rfl
      | cons c r => exact List.dropWhile_cons_of_neg (mt isWord_iff.mp (hout c rfl))
    obtain ⟨c, r, rfl⟩ := List.exists_cons_of_ne_nil hw
    have hword : tokenAt (c :: (r ++ s)) = _ := tokenAt_word (hin c List.mem_cons_self) h0
    rw [List.cons_append, hword, ← List.cons_append, List.dropWhile_append_of_pos hall, hstop]

theorem exists_lexeme {c : UInt8} (hb : ¬ Blank c) (r : List UInt8) :
    ∃ k t s, c :: r = t ++ s ∧ Lexeme k t s := by
  by_cases hc : c ∈ [60, 124, 62, 38, 59, 40, 41]
  · simp only [List.mem_cons, List.not_mem_nil, or_false] at hc
    rcases hc with rfl | rfl | rfl | rfl | rfl | rfl | rfl
    · exact ⟨.lt, [60], r, rfl, .symbol (by decide)⟩
    · exact ⟨.bar, [124], r, rfl, .symbol (by decide)⟩
    · by_cases hr : r.head? = some 62
      · obtain ⟨u, rfl⟩ := List.head?_eq_some_iff.mp hr
        exact ⟨.gtgt, [62, 62], u, rfl, .gtgt⟩
      · exact ⟨.gt, [62], r, rfl, .gt hr⟩
    · exact ⟨.amp, [38], r, rfl, .symbol (by decide)⟩
    · exact ⟨.semi, [59], r, rfl, .symbol (by decide)⟩
    · exact ⟨.lparen, [40], r, rfl, .symbol (by decide)⟩
    · exact ⟨.rparen, [41], r, rfl, .symbol (by decide)⟩
  · refine ⟨.word, (c :: r).takeWhile isWord, (c :: r).dropWhile isWord,
      List.takeWhile_append_dropWhile.symm, .word ?_ ?_ ?_⟩
    · rw [List.takeWhile_cons_of_pos (isWord_iff.mpr ⟨hb, hc⟩)]
      exact List.cons_ne_nil _ _
    · exact fun d hd => isWord_iff.mp (List.mem_takeWhile_imp hd)
    · intro d hd
      have hnot := List.head?_dropWhile_not isWord (c :: r)
      rw [Option.mem_def.mp hd] at hnot
      exact fun hp => Bool.not_eq_true _ |>.mpr hnot (isWord_iff.mpr hp)

end Lexeme

section Lexer
variable {es : Nat} {s : List UInt8}

theorem tokenAt_nul (s : List UInt8) :
    (tokenAt s).1 = .nul → s.headD 0 = 0 ∧ (tokenAt s).2 = s := by
  fun_cases tokenAt s with
  | case1 h0 => exact fun _ => ⟨h0, rfl⟩
  | _ => exact nofun

theorem tokenAt_suffix (s : List UInt8) : (tokenAt s).2 <:+ s := by
  fun_cases tokenAt s with
  | case1 => exact List.suffix_rfl
  | case8 => exact (List.tail_suffix _).trans (List.tail_suffix _)
  | case10 => exact List.dropWhile_suffix _
  | _ => exact List.tail_suffix _

theorem gettoken_suffix (es : Nat) (s : List UInt8) : (gettoken es s).2 <:+ s :=
  (List.dropWhile_suffix _).trans ((tokenAt_suffix _).trans (List.dropWhile_suffix _))

theorem gettoken_lt (h : (gettoken es s).1.tok ≠ .nul) :
    (gettoken es s).2.length < s.length := by
  have hle := (List.dropWhile_suffix isWhite (l := s)).length_le
  simp only [gettoken] at h ⊢
  cases hs : s.dropWhile isWhite with
  | nil =>
    rw [hs] at h
    exact absurd rfl h
  | cons c r =>
    obtain ⟨k, t, u, hsplit, hk⟩ := exists_lexeme (mt isWhite_iff.mpr (by rw [dropWhile_head hs]; nofun)) r
    have h0 : (t ++ u).headD 0 ≠ 0 := by
      intro h0
      rw [hs, hsplit, Sh.tokenAt, if_pos h0] at h
      exact h rfl
    have hlen := congrArg List.length hsplit
    have hpos := List.length_pos_of_ne_nil hk.black.2.1
    have hdrop := (List.dropWhile_suffix isWhite (l := u)).length_le
    rw [hs] at hle
    rw [List.length_append] at hlen
    rw [hsplit, hk.tokenAt h0]
    dsimp only
    omega

theorem peek_suffix (s t : List UInt8) : (peek s t).2 <:+ s := List.dropWhile_suffix _

theorem lex_stable (k l : Nat) : ∀ s : List UInt8, s.length ≤ k → s.length ≤ l →
    lex es k s = lex es l s := by
  induction k generalizing l with
  | zero =>
    intro s hk _
    have hs : s = [] := List.length_eq_zero_iff.mp (by omega)
    subst hs
    cases l with
    | zero => rfl
    | succ l => rfl
  | succ k ih =>
    intro s hk hl
    cases l with
    | zero =>
      have hs : s = [] := List.length_eq_zero_iff.mp (by omega)
      subst hs
      rfl
    | succ l =>
      simp only [lex]
      split_ifs with hnul
      · rfl
      · have hlt := gettoken_lt hnul
        rw [ih l (gettoken es s).2 (by omega) (by omega)]

theorem tokens_eq (es : Nat) (s : List UInt8) :
    tokens es s = if (gettoken es s).1.tok = .nul then []
      else (gettoken es s).1 :: tokens es (gettoken es s).2 := by
  unfold tokens
  rw [lex_stable s.length (s.length + 1) s le_rfl (by omega), lex]
  split_ifs with hnul
  · rfl
  · have hlt := gettoken_lt hnul
    rw [lex_stable s.length (gettoken es s).2.length _ (by omega) le_rfl]

theorem tokens_cons {k : Token} {ts : List Token} (h : tokens es s = k :: ts) :
    gettoken es s = (k, (gettoken es s).2) ∧ tokens es (gettoken es s).2 = ts ∧ k.tok ≠ .nul := by
  rw [tokens_eq] at h
  split_ifs at h with hnul
  obtain ⟨rfl, hts⟩ := List.cons.inj h
  exact ⟨rfl, hts, hnul⟩

theorem tokens_nil (h : tokens es s = []) : (gettoken es s).1.tok = .nul := by
  rw [tokens_eq] at h
  by_contra hne
  rw [if_neg hne] at h
  exact List.cons_ne_nil _ _ h

theorem tokens_peek (es : Nat) (s t : List UInt8) : tokens es (peek s t).2 = tokens es s := by
  have hget : gettoken es (s.dropWhile isWhite) = gettoken es s := by
    simp only [gettoken, List.dropWhile_idempotent]
  rw [tokens_eq es s, tokens_eq es (peek s t).2]
  simp only [peek, hget]

theorem tokenAt_char (s : List UInt8) {t : List UInt8} (ht : t ⊆ symbols) :
    (s.headD 0 != 0 && strchr t (s.headD 0)) = strchr t (tokenAt s).1.char := by
  have hno : ∀ c : UInt8, c ∉ symbols → strchr t c = false := by
    intro c hc
    rw [strchr, List.contains_eq_mem, decide_eq_false_iff_not]
    exact fun hmem => hc (ht hmem)
  fun_cases tokenAt s with
  | case1 h0 =>
    rw [h0]
    exact (hno 0 (by decide)).symm
  | case2 _ h | case3 _ _ h | case4 _ _ _ h | case5 _ _ _ _ h | case6 _ _ _ _ _ h
  | case7 _ _ _ _ _ _ h | case8 _ _ _ _ _ _ _ h _ | case9 _ _ _ _ _ _ _ h _ =>
    rw [h]
    rfl
  | case10 _ h1 h2 h3 h4 h5 h6 h7 =>
    have hsym : s.headD 0 ∉ symbols := by
      simp only [symbols, List.mem_cons, List.not_mem_nil, or_false, not_or]
      exact ⟨h6, h1, h7, h5, h4, h2, h3⟩
    rw [hno _ hsym, Bool.and_false]
    exact (hno 97 (by decide)).symm

theorem peek_tokens (es : Nat) (s : List UInt8) {t : List UInt8} (ht : t ⊆ symbols) :
    (peek s t).1 = (tokens es s).head?.any fun k => strchr t k.tok.char := by
  have hchar := tokenAt_char (s.dropWhile isWhite) ht
  simp only [peek]
  rw [hchar, tokens_eq]
  split_ifs with hnul
  · have hnul : (tokenAt (s.dropWhile isWhite)).1 = .nul := hnul
    rw [hnul, strchr, List.contains_eq_mem]
    simp only [List.head?_nil, Option.any_none, decide_eq_false_iff_not]
    exact fun hmem => absurd (ht hmem) (by decide)
  · rfl

theorem tokens_nul (h : (gettoken es s).1.tok = .nul) :
    tokens es s = [] ∧ tokens es (gettoken es s).2 = [] := by
  have hnil : tokens es s = [] := by rw [tokens_eq, if_pos h]
  have hrest : (gettoken es s).2 = (peek s []).2 := by
    simp only [gettoken, peek, (tokenAt_nul _ h).2, List.dropWhile_idempotent]
  rw [hrest, tokens_peek]
  exact ⟨hnil, hnil⟩

theorem tokens_blank {c : UInt8} (hc : Blank c) : tokens es (c :: s) = tokens es s := by
  have hdrop : (peek (c :: s) []).2 = (peek s []).2 :=
    List.dropWhile_cons_of_pos (isWhite_iff.mpr hc)
  rw [← tokens_peek es (c :: s) [], hdrop, tokens_peek]

/-! `gettoken` finds the tokens of the line. -/

variable {i : Nat} {k : Tok} {t : List UInt8} {ts : List Token}

theorem Lexes.tokens (h : Lexes i s ts) (hs : ∀ c ∈ s, c ≠ 0) : tokens (i + s.length) s = ts := by
  induction h with
  | nil => rfl
  | @blank i c s ts hc _ ih =>
    rw [tokens_blank hc, List.length_cons, ← Nat.add_assoc, Nat.add_right_comm]
    exact ih (List.forall_mem_cons.mp hs).2
  | @token i k t s ts hk _ ih =>
    obtain ⟨ht, hrest⟩ := List.forall_mem_append.mp hs
    obtain ⟨hnul, hne, hblack⟩ := hk.black
    obtain ⟨c, r, rfl⟩ := List.exists_cons_of_ne_nil hne
    have hat := hk.tokenAt (ht c List.mem_cons_self)
    have hwhite : (c :: r ++ s).dropWhile isWhite = c :: r ++ s :=
      List.dropWhile_cons_of_neg (mt isWhite_iff.mp (hblack c List.mem_cons_self))
    have hget : gettoken (i + (c :: r ++ s).length) (c :: r ++ s) =
        (⟨k, i, i + (c :: r).length⟩, (peek s []).2) := by
      simp only [gettoken, hwhite, hat, List.length_append, peek]
      congr 2 <;> omega
    rw [tokens_eq, hget, if_neg hnul, tokens_peek, List.length_append, ← Nat.add_assoc, ih hrest]

theorem exists_lexes (s : List UInt8) : ∀ i, ∃ ts, Lexes i s ts := by
  induction hn : s.length using Nat.strong_induction_on generalizing s with
  | _ n ih =>
  intro i
  subst hn
  cases s with
  | nil => exact ⟨[], .nil⟩
  | cons c r =>
    by_cases hb : Blank c
    · obtain ⟨ts, h⟩ := ih r.length (Nat.lt_succ_self _) r rfl (i+1)
      exact ⟨ts, .blank hb h⟩
    · obtain ⟨k, t, u, hsplit, hk⟩ := exists_lexeme hb r
      have hlen := congrArg List.length hsplit
      have hpos := List.length_pos_of_ne_nil hk.black.2.1
      rw [List.length_append] at hlen
      obtain ⟨ts, h⟩ := ih u.length (by omega) u rfl (i + t.length)
      rw [hsplit]
      exact ⟨_, .token hk h⟩

/-- A line has one sequence of tokens, and these are the ones that `gettoken` finds. -/
theorem lexes_iff (hs : ∀ c ∈ s, c ≠ 0) : Lexes 0 s ts ↔ ts = Sh.tokens s.length s := by
  have hfound {us : List Token} (h : Lexes 0 s us) : Sh.tokens s.length s = us := by
    have := h.tokens hs
    rwa [Nat.zero_add] at this
  constructor
  · exact fun h => (hfound h).symm
  · rintro rfl
    obtain ⟨us, h⟩ := exists_lexes s 0
    rw [hfound h]
    exact h

theorem getD_mem {l : List UInt8} {j : Nat} (h : j < l.length) : l.getD j 0 ∈ l := by
  rw [List.getD_eq_getElem _ _ h]
  exact List.getElem_mem h

theorem white_of_nul (h : (s.dropWhile isWhite).headD 0 = 0) (hs : ∀ c ∈ s, c ≠ 0) :
    s.dropWhile isWhite = [] := by
  cases hd : s.dropWhile isWhite with
  | nil => rfl
  | cons c r =>
    rw [hd, List.headD_cons] at h
    have hmem : c ∈ s := (List.dropWhile_suffix _).mem (hd ▸ List.mem_cons_self)
    exact absurd h (hs c hmem)

/-- Every character that is not blank lies in exactly one token, and no other does. -/
theorem Lexes.cover (h : Lexes i s ts) (x : Nat) : cover Token.q Token.eq ts x =
    if i ≤ x ∧ x < i + s.length ∧ ¬ Blank (s.getD (x-i) 0) then 1 else 0 := by
  induction h with
  | nil =>
    rw [cover_nil, if_neg]
    rintro ⟨h1, h2, _⟩
    exact absurd h2 (Nat.not_lt.mpr h1)
  | @blank i c s ts hc _ ih =>
    rw [ih, List.length_cons]
    rcases Nat.lt_or_ge i x with hx | hx
    · obtain ⟨j, rfl⟩ := Nat.exists_eq_add_of_le hx
      rw [show i.succ + j - i = j + 1 by omega, List.getD_cons_succ, Nat.add_sub_cancel_left]
      apply if_congr _ rfl rfl
      constructor <;> exact fun h => ⟨by omega, by omega, h.2.2⟩
    · rw [if_neg (by omega), if_neg]
      rintro ⟨_, _, h3⟩
      rw [Nat.sub_eq_zero_of_le hx] at h3
      exact h3 hc
  | @token i k t s ts hk _ ih =>
    rw [cover_cons, List.length_append]
    dsimp only
    -- A position in front of the token or in it, and one behind it.
    rcases Nat.lt_or_ge x (i + t.length) with hx | hx
    · rw [ih.trans (if_neg (by omega)), Nat.add_zero]
      apply if_congr _ rfl rfl
      constructor
      · rintro ⟨h1, _⟩
        refine ⟨h1, by omega, ?_⟩
        rw [List.getD_append _ _ _ _ (by omega)]
        exact hk.black.2.2 _ (getD_mem (by omega))
      · exact fun h => ⟨h.1, hx⟩
    · rw [if_neg (by omega), Nat.zero_add, ih, List.getD_append_right _ _ _ _ (by omega),
        Nat.sub_sub]
      apply if_congr _ rfl rfl
      constructor <;> exact fun h => ⟨by omega, by omega, h.2.2⟩

/-- The characters of a word in its line. -/
structure WordAt (line : List UInt8) (k : Token) : Prop where
  lt : k.q < k.eq
  le : k.eq ≤ line.length
  inner : ∀ i, k.q ≤ i → i < k.eq → Plain (line.getD i 0)
  outer : k.eq < line.length → ¬ Plain (line.getD k.eq 0)

theorem wordAt_of_split {line p w : List UInt8} (hline : line = p ++ (w ++ s)) (hne : w ≠ [])
    (hin : ∀ c ∈ w, Plain c) (hout : ∀ c ∈ s.head?, ¬ Plain c) :
    WordAt line ⟨.word, p.length, p.length + w.length⟩ := by
  have hpos := List.length_pos_of_ne_nil hne
  have hlen := congrArg List.length hline
  simp only [List.length_append] at hlen
  refine ⟨Nat.lt_add_of_pos_right hpos, by dsimp only; omega, fun i h1 h2 => ?_, fun h1 => ?_⟩
  · dsimp only at h1 h2
    rw [hline, List.getD_append_right _ _ _ _ h1, List.getD_append _ _ _ _ (by omega)]
    exact hin _ (getD_mem (by omega))
  · dsimp only at h1 ⊢
    rw [hline, List.getD_append_right _ _ _ _ (by omega),
      List.getD_append_right _ _ _ _ (by omega), show p.length + w.length - p.length - w.length = 0 by omega]
    apply hout
    cases s with
    | nil => rw [List.length_nil] at hlen; omega
    | cons c r => rfl

theorem Lexes.words {line p : List UInt8} (h : Lexes i s ts) : line = p ++ s → i = p.length →
    ∀ k ∈ ts, k.tok = .word → WordAt line k := by
  induction h generalizing p with
  | nil => exact fun _ _ k hk => absurd hk List.not_mem_nil
  | @blank i c s ts _ _ ih =>
    intro hline hi
    exact ih (p := p ++ [c]) (by rw [hline, List.append_assoc]; rfl) (by rw [hi, List.length_append]; rfl)
  | @token i j t s ts hk _ ih =>
    rintro hline rfl k hmem hword
    rcases List.mem_cons.mp hmem with rfl | hmem
    · cases hk with
      | word hw hin hout => exact wordAt_of_split hline hw hin hout
      | symbol hj =>
        dsimp only at hword
        rw [hword] at hj
        exact absurd hj (by decide)
      | _ => cases hword
    · exact ih (p := p ++ t) (by rw [hline, List.append_assoc]) List.length_append.symm k hmem hword

theorem tokens_words {line : List UInt8} (hline : ∀ c ∈ line, c ≠ 0) :
    ∀ k ∈ tokens line.length line, k.tok = .word → WordAt line k :=
  ((lexes_iff hline).mpr rfl).words (p := []) rfl rfl

end Lexer

end Xv6.Sh
