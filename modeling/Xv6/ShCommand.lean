import Xv6.ShGrammar

/-! `parsecmd`: the tree of the line's derivation, whose words stand in the buffer as strings. -/
namespace Xv6.Sh

def Cmd.words : Cmd → List (Nat × Nat)
  | .exec argv => argv
  | .redir cmd file _ _ => file :: cmd.words
  | .pipe left right => left.words ++ right.words
  | .list left right => left.words ++ right.words
  | .back cmd => cmd.words

def WordOf (ts : List Token) (p : Nat × Nat) : Prop := ∃ w ∈ ts, w.tok = .word ∧ p = w.span

theorem WordOf.mono {ts us : List Token} {p : Nat × Nat} (h : WordOf ts p)
    (hsub : ∀ w ∈ ts, w ∈ us) : WordOf us p := by
  obtain ⟨w, hw, h⟩ := h
  exact ⟨w, hsub w hw, h⟩

theorem words_applyRedir {c : Cmd} {r : Redir} {p : Nat × Nat} (h : p ∈ (applyRedir c r).words) :
    p ∈ c.words ∨ p = r.file.span := by
  unfold applyRedir at h
  split_ifs at h <;> exact (List.mem_cons.mp h).symm

theorem words_foldl (rs : List Redir) (c : Cmd) {p : Nat × Nat}
    (h : p ∈ (rs.foldl applyRedir c).words) : p ∈ c.words ∨ ∃ r ∈ rs, p = r.file.span := by
  induction rs generalizing c with
  | nil => exact Or.inl h
  | cons r rs ih =>
    rcases ih (applyRedir c r) h with h | ⟨r', hr', h⟩
    · rcases words_applyRedir h with h | h
      · exact Or.inl h
      · exact Or.inr ⟨r, List.mem_cons_self, h⟩
    · exact Or.inr ⟨r', List.mem_cons_of_mem _ hr', h⟩

theorem Redirs.files {ts : List Token} {rs : List Redir} (h : Redirs ts rs) :
    ∀ r ∈ rs, WordOf ts r.file.span := by
  induction h with
  | nil => exact fun r hr => absurd hr List.not_mem_nil
  | @cons op w ts rs _ hw _ ih =>
    intro r hr
    rcases List.mem_cons.mp hr with rfl | hr
    · exact ⟨w, by simp, hw, rfl⟩
    · exact (ih r hr).mono fun w hw => by simp [hw]

theorem Args.words {us ws : List Token} {rs : List Redir} (h : Args us ws rs) :
    (∀ w ∈ ws, WordOf us w.span) ∧ ∀ r ∈ rs, WordOf us r.file.span := by
  induction h with
  | nil => exact ⟨fun w hw => absurd hw List.not_mem_nil, fun r hr => absurd hr List.not_mem_nil⟩
  | @cons w ts us ws rs rs' hw hr _ ih =>
    have hus : ∀ v ∈ us, v ∈ w :: (ts ++ us) := fun v hv => by simp [hv]
    constructor
    · intro v hv
      rcases List.mem_cons.mp hv with rfl | hv
      · exact ⟨v, List.mem_cons_self, hw, rfl⟩
      · exact (ih.1 v hv).mono hus
    · intro r hr'
      rcases List.mem_append.mp hr' with hr' | hr'
      · exact (hr.files r hr').mono fun v hv => by simp [hv]
      · exact (ih.2 r hr').mono hus

theorem words_backs (amps : List Token) (c : Cmd) : (backs amps c).words = c.words := by
  induction amps generalizing c with
  | nil => rfl
  | cons a amps ih => exact ih (.back c)

theorem Derives.words {nt : Nonterm} {ts : List Token} {c : Cmd} (h : Derives nt ts c) :
    ∀ p ∈ c.words, WordOf ts p := by
  induction h with
  | @simple ts us ws rs rs' hr ha _ =>
    intro p hp
    rcases words_foldl _ _ hp with hp | ⟨r, hr', rfl⟩
    · obtain ⟨w, hw, rfl⟩ := List.mem_map.mp hp
      exact (ha.words.1 w hw).mono fun v hv => List.mem_append_right _ hv
    · rcases List.mem_append.mp hr' with hr' | hr'
      · exact (hr.files r hr').mono fun v hv => List.mem_append_left _ hv
      · exact (ha.words.2 r hr').mono fun v hv => List.mem_append_right _ hv
  | @block l r ts us rs c _ _ _ hs ih =>
    intro p hp
    rcases words_foldl _ _ hp with hp | ⟨r', hr', rfl⟩
    · exact (ih p hp).mono fun v hv => by simp [hv]
    · exact (hs.files r' hr').mono fun v hv => by simp [hv]
  | single _ ih => exact ih
  | pipe _ _ _ ih ih' =>
    intro p hp
    rcases List.mem_append.mp hp with hp | hp
    · exact (ih p hp).mono fun v hv => by simp [hv]
    · exact (ih' p hp).mono fun v hv => by simp [hv]
  | last _ _ ih =>
    intro p hp
    rw [words_backs] at hp
    exact (ih p hp).mono fun v hv => by simp [hv]
  | seq _ _ _ _ ih ih' =>
    intro p hp
    rcases List.mem_append.mp hp with hp | hp
    · rw [words_backs] at hp
      exact (ih p hp).mono fun v hv => by simp [hv]
    · exact (ih' p hp).mono fun v hv => by simp [hv]

/-! The buffer behind `nulterminate`. -/

theorem getD_set (b : List UInt8) (k i : Nat) :
    (b.set k 0).getD i 0 = if k = i then 0 else b.getD i 0 := by
  rw [List.getD_eq_getElem?_getD, List.getElem?_set, List.getD_eq_getElem?_getD]
  split_ifs <;> simp_all

def isEnd (ws : List (Nat × Nat)) (i : Nat) : Bool := ws.any fun w => w.2 == i

theorem getD_setAll (ws : List (Nat × Nat)) (b : List UInt8) (i : Nat) :
    (ws.foldl (fun b w => b.set w.2 0) b).getD i 0 = if isEnd ws i then 0 else b.getD i 0 := by
  induction ws generalizing b with
  | nil => rfl
  | cons w ws ih =>
    rw [List.foldl_cons, ih, getD_set]
    simp only [isEnd, List.any_cons, Bool.or_eq_true, beq_iff_eq]
    split_ifs <;> simp_all

theorem isEnd_append (ws ws' : List (Nat × Nat)) (i : Nat) :
    isEnd (ws ++ ws') i = (isEnd ws i || isEnd ws' i) := List.any_append

/-- `nulterminate` clears the ends of the tree's words, and nothing else. -/
theorem getD_nulterminate (c : Cmd) (b : List UInt8) (i : Nat) :
    (nulterminate c b).getD i 0 = if isEnd c.words i then 0 else b.getD i 0 := by
  induction c generalizing b with
  | exec argv => exact getD_setAll argv b i
  | redir cmd file mode fd ih =>
    rw [nulterminate, getD_set, ih]
    simp only [Cmd.words, isEnd, List.any_cons, Bool.or_eq_true, beq_iff_eq]
    split_ifs <;> simp_all
  | pipe left right ihl ihr =>
    rw [nulterminate, ihr, ihl, Cmd.words, isEnd_append]
    cases isEnd left.words i <;> cases isEnd right.words i <;> rfl
  | list left right ihl ihr =>
    rw [nulterminate, ihr, ihl, Cmd.words, isEnd_append]
    cases isEnd left.words i <;> cases isEnd right.words i <;> rfl
  | back cmd ih => exact ih b

theorem length_nulterminate (c : Cmd) (b : List UInt8) : (nulterminate c b).length = b.length := by
  induction c generalizing b with
  | exec argv =>
    rw [nulterminate]
    induction argv generalizing b with
    | nil => rfl
    | cons w argv ih => rw [List.foldl_cons, ih, List.length_set]
  | redir cmd file mode fd ih => rw [nulterminate, List.length_set, ih]
  | pipe left right ihl ihr => rw [nulterminate, ihr, ihl]
  | list left right ihl ihr => rw [nulterminate, ihr, ihl]
  | back cmd ih => exact ih b

theorem cstring_eq_of_getD (w l : List UInt8) (hw : ∀ j < w.length, l.getD j 0 = w.getD j 0)
    (hne : ∀ c ∈ w, c ≠ 0) (hend : l.getD w.length 0 = 0) : cstring l = w := by
  induction w generalizing l with
  | nil =>
    cases l with
    | nil => rfl
    | cons c l =>
      have hc : c = 0 := hend
      rw [cstring, hc]
      rfl
  | cons d w ih =>
    have hd : d ≠ 0 := hne d List.mem_cons_self
    cases l with
    | nil =>
      have h0 := hw 0 (by simp)
      exact absurd h0.symm hd
    | cons c l =>
      have hc : c = d := hw 0 (by simp)
      subst hc
      have hrest : cstring l = w := by
        apply ih l
        · intro j hj
          exact hw (j+1) (by rw [List.length_cons]; omega)
        · exact fun e he => hne e (List.mem_cons_of_mem _ he)
        · exact hend
      rw [cstring, List.takeWhile_cons_of_pos (by simpa using hd)]
      exact congrArg _ hrest

theorem cstring_ne_zero {buf : List UInt8} : ∀ c ∈ cstring buf, c ≠ 0 := by
  intro c hc
  simpa using List.mem_takeWhile_imp hc

theorem length_cstring_lt (line : List UInt8) :
    (cstring (line ++ [0])).length < (line ++ [0]).length := by
  induction line with
  | nil => exact Nat.zero_lt_one
  | cons c line ih =>
    rw [cstring, List.cons_append, List.takeWhile_cons]
    split
    · exact Nat.succ_lt_succ ih
    · exact Nat.zero_lt_succ _

theorem getD_cstring (buf : List UInt8) (i : Nat) (hi : i < (cstring buf).length) :
    buf.getD i 0 = (cstring buf).getD i 0 := by
  have hsplit : buf = cstring buf ++ buf.dropWhile (· != 0) :=
    List.takeWhile_append_dropWhile.symm
  conv_lhs => rw [hsplit]
  exact List.getD_append _ _ _ _ hi

/-- No word ends inside a word: behind its end there is no character of a word. -/
theorem WordAt.apart {line : List UInt8} {w w' : Token} (h : WordAt line w) (h' : WordAt line w') :
    ¬ (w.q ≤ w'.eq ∧ w'.eq < w.eq) := by
  intro hin
  obtain ⟨hge, hlt⟩ := hin
  have hle := h.le
  exact h'.outer (by omega) (h.inner w'.eq hge hlt)

section Words
variable {buf : List UInt8} {c : Cmd}
  (h : Derives .line (tokens (cstring buf).length (cstring buf)) c)
include h

theorem Derives.wordAt {p : Nat × Nat} (hp : p ∈ c.words) :
    ∃ w, p = w.span ∧ WordAt (cstring buf) w := by
  obtain ⟨w, hw, hword, rfl⟩ := h.words p hp
  exact ⟨w, rfl, tokens_words cstring_ne_zero w hw hword⟩

theorem word_string : ∀ p ∈ c.words, cstring ((nulterminate c buf).drop p.1) =
      ((cstring buf).drop p.1).take (p.2 - p.1) := by
  intro p hp
  obtain ⟨w, rfl, hw⟩ := h.wordAt hp
  have hlt := hw.lt
  have hle := hw.le
  have hlen : (((cstring buf).drop w.q).take (w.eq - w.q)).length = w.eq - w.q := by
    rw [List.length_take, List.length_drop]
    omega
  have hchar : ∀ j < w.eq - w.q, (((cstring buf).drop w.q).take (w.eq - w.q)).getD j 0 =
      (cstring buf).getD (w.q + j) 0 := by
    intro j hj
    simp only [List.getD_eq_getElem?_getD, List.getElem?_take, List.getElem?_drop, if_pos hj]
  have hdrop : ∀ j, ((nulterminate c buf).drop w.q).getD j 0 =
      (nulterminate c buf).getD (w.q + j) 0 := by
    intro j
    simp only [List.getD_eq_getElem?_getD, List.getElem?_drop]
  show cstring ((nulterminate c buf).drop w.q) = ((cstring buf).drop w.q).take (w.eq - w.q)
  apply cstring_eq_of_getD
  · intro j hj
    rw [hlen] at hj
    have hno : isEnd c.words (w.q + j) = false := by
      rw [isEnd, List.any_eq_false]
      intro p' hp' heq
      obtain ⟨w', rfl, hw'⟩ := h.wordAt hp'
      have heq : w'.eq = w.q + j := by simpa [Token.span] using heq
      exact hw.apart hw' (by omega)
    rw [hdrop, getD_nulterminate, hno, hchar j hj]
    exact getD_cstring buf _ (by omega)
  · intro d hd
    exact cstring_ne_zero d (List.mem_of_mem_drop (List.mem_of_mem_take hd))
  · rw [hlen]
    have hyes : isEnd c.words w.eq = true := by
      rw [isEnd, List.any_eq_true]
      exact ⟨w.span, hp, by simp [Token.span]⟩
    rw [hdrop, show w.q + (w.eq - w.q) = w.eq by omega, getD_nulterminate, hyes]
    rfl

end Words

theorem parsecmd_eq (fuel : Nat) (buf : List UInt8) :
    parsecmd fuel buf = (parseline (cstring buf).length fuel (cstring buf) >>= fun r =>
      if (peek r.2 []).2 ≠ [] then .error (.panic "syntax")
      else .ok (r.1, nulterminate r.1 buf)) := rfl

theorem peek_end {es : Nat} {s : List UInt8} (hs : ∀ c ∈ s, c ≠ 0) :
    (peek s []).2 = [] ↔ tokens es s = [] := by
  constructor
  · intro h
    rw [← tokens_peek es s [], h]
    rfl
  · intro h
    exact white_of_nul (tokenAt_nul _ (tokens_nil h)).1 hs

section Parsecmd
variable {buf : List UInt8} {fuel : Nat} (hfuel : 4*(cstring buf).length + 5 ≤ fuel)
include hfuel

theorem line_outcome : Outcome (cstring buf).length (cstring buf) (Derives .line)
    (parseline (cstring buf).length fuel (cstring buf)) :=
  (parse_outcome fuel).1 .line (cstring buf) hfuel

/-- With enough fuel `parsecmd` ends, and a tree that it returns is derived from the line. -/
theorem parsecmd_sound : parsecmd fuel buf ≠ .error .fuel ∧
    ∀ c buf', parsecmd fuel buf = .ok (c, buf') →
      Derives .line (tokens (cstring buf).length (cstring buf)) c ∧ buf' = nulterminate c buf := by
  have hsound := line_outcome hfuel
  rw [parsecmd_eq]
  cases hr : parseline (cstring buf).length fuel (cstring buf) with
  | error e =>
    rw [hr] at hsound
    constructor
    · intro he
      cases he
      exact hsound
    · intro c buf' h
      cases h
  | ok r =>
    obtain ⟨c, s'⟩ := r
    rw [hr] at hsound
    obtain ⟨hsuf, ts, htoks, hD⟩ := hsound
    have hne : ∀ d ∈ s', d ≠ 0 := fun d hd => cstring_ne_zero d (hsuf.mem hd)
    dsimp only [bind, Except.bind]
    by_cases hend : (peek s' []).2 = []
    · rw [if_neg (not_not.mpr hend)]
      rw [(peek_end hne).mp hend, List.append_nil] at htoks
      rw [← htoks] at hD
      constructor
      · intro h
        cases h
      · intro c' buf' h
        cases h
        exact ⟨hD, rfl⟩
    · rw [if_pos hend]
      constructor
      · intro h
        cases h
      · intro c' buf' h
        cases h

theorem parsecmd_complete {c : Cmd}
    (h : Derives .line (tokens (cstring buf).length (cstring buf)) c) :
    parsecmd fuel buf = .ok (c, nulterminate c buf) := by
  obtain ⟨s', hparse, hs', _⟩ := parse_complete h fuel (cstring buf) []
    (List.append_nil _).symm (Or.inl rfl) hfuel
  rw [parse] at hparse
  have hsound := line_outcome hfuel
  rw [hparse] at hsound
  have hne : ∀ d ∈ s', d ≠ 0 := fun d hd => cstring_ne_zero d (hsound.1.mem hd)
  rw [parsecmd_eq, hparse]
  show (if _ then _ else _) = _
  rw [if_neg (not_not.mpr ((peek_end hne).mpr hs'))]

end Parsecmd

/-- A line has one sequence of tokens, and every character that is not blank lies in exactly
one of them. `parsecmd` ends; it returns a tree exactly if the tokens are derived from `line`,
and then the tree of that derivation, with each of its words a string in the buffer;
otherwise it panics. -/
theorem parsecmd_accepts_grammar (line : List UInt8) :
    ∃ ts, (∀ us, Lexes 0 (cstring (line ++ [0])) us ↔ us = ts) ∧
    (∀ i < (cstring (line ++ [0])).length, cover Token.q Token.eq ts i =
      if Blank ((cstring (line ++ [0])).getD i 0) then 0 else 1) ∧
    ∃ N, ∀ fuel, N ≤ fuel →
      ((∃ msg, parsecmd fuel (line ++ [0]) = .error (.panic msg)) ∧ ∀ c, ¬ Derives .line ts c) ∨
      ∃ c buf, parsecmd fuel (line ++ [0]) = .ok (c, buf) ∧
        (∀ c', Derives .line ts c' ↔ c' = c) ∧
        ∀ p ∈ c.words,
          cstring (buf.drop p.1) = ((cstring (line ++ [0])).drop p.1).take (p.2 - p.1) := by
  generalize line ++ [0] = buf
  refine ⟨tokens (cstring buf).length (cstring buf), fun us => lexes_iff cstring_ne_zero, ?_, ?_⟩
  · intro i hi
    rw [((lexes_iff cstring_ne_zero).mpr rfl).cover i, Nat.zero_add, Nat.sub_zero]
    by_cases hb : Blank ((cstring buf).getD i 0)
    · rw [if_pos hb, if_neg fun h => h.2.2 hb]
    · rw [if_neg hb, if_pos ⟨Nat.zero_le i, hi, hb⟩]
  refine ⟨4*(cstring buf).length + 5, fun fuel hfuel => ?_⟩
  obtain ⟨hends, hsound⟩ := parsecmd_sound hfuel
  cases hr : parsecmd fuel buf with
  | error e =>
    cases e with
    | fuel => exact absurd hr hends
    | panic msg =>
      refine Or.inl ⟨⟨msg, rfl⟩, fun c hc => ?_⟩
      rw [parsecmd_complete hfuel hc] at hr
      cases hr
  | ok r =>
    obtain ⟨hD, hbuf⟩ := hsound r.1 r.2 hr
    refine Or.inr ⟨r.1, r.2, rfl, fun c' => ⟨fun hc' => ?_, fun heq => heq ▸ hD⟩, ?_⟩
    · rw [parsecmd_complete hfuel hc'] at hr
      cases hr
      rfl
    · rw [hbuf]
      exact word_string hD

/-- What `nulterminate` did to the buffer of a line: the words of the tree `c` are words of
the line, each is a string in the new buffer, and the buffers differ only in the bytes
behind these words. Such a byte is in no word of the line, and it is not behind the 0 that
ended the line. -/
structure Terminated (line : List UInt8) (c : Cmd) (buf buf' : List UInt8) : Prop where
  tree : Derives .line (tokens line.length line) c
  words : ∀ p ∈ c.words, ∃ w ∈ tokens line.length line, w.tok = .word ∧ p = (w.q, w.eq) ∧
    cstring (buf'.drop w.q) = (line.drop w.q).take (w.eq - w.q) ∧ (line.drop w.q).take (w.eq - w.q) ≠ []
  inside : ∀ p ∈ c.words, p.2 ≤ line.length ∧
    ∀ w ∈ tokens line.length line, w.tok = .word → ¬ (w.q ≤ p.2 ∧ p.2 < w.eq)
  others : buf'.length = buf.length ∧
    ∀ i, buf'.getD i 0 = if isEnd c.words i then 0 else buf.getD i 0

/-- Whenever `parsecmd` accepts a line, it has turned every word of the tree into a string. -/
theorem parsecmd_terminates_words (line : List UInt8) : ∃ N, ∀ fuel, N ≤ fuel →
    parsecmd fuel (line ++ [0]) ≠ .error .fuel ∧
    ∀ c buf, parsecmd fuel (line ++ [0]) = .ok (c, buf) →
      (cstring (line ++ [0])).length < (line ++ [0]).length ∧
      Terminated (cstring (line ++ [0])) c (line ++ [0]) buf := by
  have hnul := length_cstring_lt line
  generalize line ++ [0] = buf at *
  refine ⟨4*(cstring buf).length + 5, fun fuel hfuel => ?_⟩
  obtain ⟨hends, hsound⟩ := parsecmd_sound hfuel
  refine ⟨hends, fun c buf' hr => ⟨hnul, ?_⟩⟩
  obtain ⟨hD, rfl⟩ := hsound c buf' hr
  refine ⟨hD, ?_, ?_, length_nulterminate c buf, getD_nulterminate c buf⟩
  · intro p hp
    obtain ⟨w, hw, hword, rfl⟩ := hD.words p hp
    have hat := tokens_words cstring_ne_zero w hw hword
    refine ⟨w, hw, hword, rfl, word_string hD w.span hp, ?_⟩
    have hlt := hat.lt
    have hle := hat.le
    apply List.ne_nil_of_length_pos
    rw [List.length_take, List.length_drop]
    omega
  · intro p hp
    obtain ⟨v, rfl, hv⟩ := hD.wordAt hp
    exact ⟨hv.le, fun w hw hword => (tokens_words cstring_ne_zero w hw hword).apart hv⟩

/-- The line `a>b|c`. -/
example : parsecmd 30 [97, 62, 98, 124, 99, 0] =
    .ok (.pipe (.redir (.exec [(0, 1)]) (2, 3) 0x601 1) (.exec [(4, 5)]),
      [97, 0, 98, 0, 99, 0]) := by rfl

theorem parsecmd_terminates_words_pipe : ∃ fuel c buf,
    parsecmd fuel [97, 62, 98, 124, 99, 0] = .ok (c, buf) ∧ c.words = [(2, 3), (0, 1), (4, 5)] ∧
      Terminated [97, 62, 98, 124, 99] c [97, 62, 98, 124, 99, 0] buf := by
  obtain ⟨N, hN⟩ := parsecmd_terminates_words [97, 62, 98, 124, 99]
  obtain ⟨hD, _⟩ := (parsecmd_sound (show 4*(cstring [97, 62, 98, 124, 99, 0]).length + 5 ≤ 30 by decide)).2
    (.pipe (.redir (.exec [(0, 1)]) (2, 3) 0x601 1) (.exec [(4, 5)])) [97, 0, 98, 0, 99, 0] rfl
  have hfuel : 4*(cstring [97, 62, 98, 124, 99, 0]).length + 5 ≤ N + 25 := by
    change 4*5+5 ≤ N+25
    omega
  have hrun := parsecmd_complete hfuel hD
  exact ⟨N+25, _, _, hrun, rfl, ((hN (N+25) (by omega)).2 _ _ hrun).2⟩

end Xv6.Sh
