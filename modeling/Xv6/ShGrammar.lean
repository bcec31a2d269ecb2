import Xv6.ShTokens

/-! The grammar of the shell, and that its parser accepts exactly that: it ends on every
line, what it returns is derived, and it finds every derivation. -/
namespace Xv6.Sh

structure Redir where
  op : Token
  file : Token

def Token.span (w : Token) : Nat × Nat := (w.q, w.eq)

/-- The node of a redirection: `<` opens its file to read as descriptor 0, `>` creates it empty
and `>>` creates it or leaves its bytes, both to write as descriptor 1. -/
def applyRedir (c : Cmd) (r : Redir) : Cmd :=
  if r.op.tok = .lt then .redir c r.file.span 0 0
  else .redir c r.file.span (if r.op.tok = .gt then 0x601 else 0x201) 1

def IsRedirOp (k : Tok) : Prop := k = .lt ∨ k = .gt ∨ k = .gtgt

inductive Redirs : List Token → List Redir → Prop
  | nil : Redirs [] []
  | cons {op w : Token} {ts : List Token} {rs : List Redir} (hop : IsRedirOp op.tok)
      (hw : w.tok = .word) (h : Redirs ts rs) : Redirs (op :: w :: ts) (⟨op, w⟩ :: rs)

/-- `(word redir*)*`, with its words and its redirections. -/
inductive Args : List Token → List Token → List Redir → Prop
  | nil : Args [] [] []
  | cons {w : Token} {ts us ws : List Token} {rs rs' : List Redir} (hw : w.tok = .word)
      (hr : Redirs ts rs) (h : Args us ws rs') : Args (w :: (ts ++ us)) (w :: ws) (rs ++ rs')

def backs (amps : List Token) (c : Cmd) : Cmd := amps.foldl (fun c _ => .back c) c

inductive Nonterm
  | exec | pipe | line
deriving DecidableEq

/-- The derivations of the grammar with their trees:
`line := pipe '&'* [';' line]`, `pipe := exec ['|' pipe]`,
`exec := '(' line ')' redir* | redir* (word redir*)*` with fewer than `MAXARGS` words. -/
inductive Derives : Nonterm → List Token → Cmd → Prop
  | simple {ts us ws : List Token} {rs rs' : List Redir} (hr : Redirs ts rs) (ha : Args us ws rs')
      (hlen : ws.length < MAXARGS) :
      Derives .exec (ts ++ us) ((rs ++ rs').foldl applyRedir (.exec (ws.map Token.span)))
  | block {l r : Token} {ts us : List Token} {rs : List Redir} {c : Cmd} (hl : l.tok = .lparen)
      (h : Derives .line ts c) (hr : r.tok = .rparen) (hs : Redirs us rs) :
      Derives .exec (l :: (ts ++ r :: us)) (rs.foldl applyRedir c)
  | single {ts : List Token} {c : Cmd} (h : Derives .exec ts c) : Derives .pipe ts c
  | pipe {b : Token} {ts us : List Token} {c d : Cmd} (h : Derives .exec ts c) (hb : b.tok = .bar)
      (hd : Derives .pipe us d) : Derives .pipe (ts ++ b :: us) (.pipe c d)
  | last {ts amps : List Token} {c : Cmd} (h : Derives .pipe ts c) (ha : ∀ a ∈ amps, a.tok = .amp) :
      Derives .line (ts ++ amps) (backs amps c)
  | seq {m : Token} {ts amps us : List Token} {c d : Cmd} (h : Derives .pipe ts c)
      (ha : ∀ a ∈ amps, a.tok = .amp) (hm : m.tok = .semi) (hd : Derives .line us d) :
      Derives .line (ts ++ (amps ++ m :: us)) (.list (backs amps c) d)

/-! What the parser returns is derived. -/

/-- A parse of `s` ends, and a tree it returns is one of the tokens it has used up. -/
def Outcome (es : Nat) (s : List UInt8) (D : List Token → Cmd → Prop) :
    Except Fail (Cmd × List UInt8) → Prop
  | .ok (c, s') => s' <:+ s ∧ ∃ ts, tokens es s = ts ++ tokens es s' ∧ D ts c
  | .error (.panic _) => True
  | .error .fuel => False

section Outcome
variable {es : Nat} {s s1 : List UInt8} {D D1 : List Token → Cmd → Prop}
  {r : Except Fail (Cmd × List UInt8)} {f : Cmd × List UInt8 → Except Fail (Cmd × List UInt8)}

theorem Outcome.bind (h : Outcome es s D1 r)
    (hf : ∀ c s1 ts, s1 <:+ s → tokens es s = ts ++ tokens es s1 → D1 ts c →
      Outcome es s D (f (c, s1))) : Outcome es s D (r >>= f) := by
  match r, h with
  | .ok (c, s1), ⟨hsuf, ts, htoks, hD⟩ => exact hf c s1 ts hsuf htoks hD
  | .error (.panic _), _ => trivial

theorem Outcome.behind {ts : List Token} (h : Outcome es s1 D1 r) (hsuf : s1 <:+ s)
    (htoks : tokens es s = ts ++ tokens es s1) (hD : ∀ us c, D1 us c → D (ts ++ us) c) :
    Outcome es s D r := by
  match r, h with
  | .ok (c, s2), ⟨hsuf', us, htoks', hD'⟩ =>
    refine ⟨hsuf'.trans hsuf, ts ++ us, ?_, hD us c hD'⟩
    rw [htoks, htoks', List.append_assoc]
  | .error (.panic _), _ => trivial

theorem Outcome.here {c : Cmd} {t : List UInt8} (hD : D [] c) :
    Outcome es s D (.ok (c, (peek s t).2)) :=
  ⟨peek_suffix s t, [], (tokens_peek es s t).symm, hD⟩

end Outcome

theorem peek_gettoken (es : Nat) {s t : List UInt8} (ht : t ⊆ symbols)
    (h : (peek s t).1 = true) :
    ∃ k, strchr t k.tok.char = true ∧ gettoken es (peek s t).2 = (k, (gettoken es (peek s t).2).2) ∧
      tokens es s = k :: tokens es (gettoken es (peek s t).2).2 ∧
      (gettoken es (peek s t).2).2 <:+ s ∧ (gettoken es (peek s t).2).2.length < s.length := by
  rw [peek_tokens es s ht] at h
  cases htoks : tokens es s with
  | nil => rw [htoks] at h; exact absurd h (by simp)
  | cons k ts =>
    rw [htoks] at h
    have hpk : tokens es (peek s t).2 = k :: ts := (tokens_peek es s t).trans htoks
    obtain ⟨hget, hrest, hnul⟩ := tokens_cons hpk
    have hlt : (gettoken es (peek s t).2).2.length < (peek s t).2.length := by
      apply gettoken_lt
      rw [hget]
      exact hnul
    refine ⟨k, h, hget, by rw [hrest], (gettoken_suffix _ _).trans (peek_suffix s t), ?_⟩
    exact hlt.trans_le (peek_suffix s t).length_le

section Sound
variable {es : Nat}

theorem parseredirs_succ (es fuel : Nat) (cmd : Cmd) (s : List UInt8) :
    parseredirs es (fuel+1) cmd s =
      if (peek s [60, 62]).1 then
        if (gettoken es (gettoken es (peek s [60, 62]).2).2).1.tok ≠ .word then
          .error (.panic "missing file for redirection")
        else parseredirs es fuel (redirect cmd (gettoken es (peek s [60, 62]).2).1.tok
          (gettoken es (gettoken es (peek s [60, 62]).2).2).1)
          (gettoken es (gettoken es (peek s [60, 62]).2).2).2
      else .ok (cmd, (peek s [60, 62]).2) := rfl

theorem redirect_eq {op : Token} (h : IsRedirOp op.tok) (c : Cmd) (w : Token) :
    redirect c op.tok w = applyRedir c ⟨op, w⟩ := by
  unfold applyRedir
  rcases h with h | h | h <;> rw [h] <;> rfl

theorem isRedirOp_iff {k : Tok} : IsRedirOp k ↔ strchr [60, 62] k.char = true := by
  cases k <;> simp [IsRedirOp, Tok.char, strchr]

theorem parseredirs_outcome (fuel : Nat) : ∀ (cmd : Cmd) (s : List UInt8), s.length < fuel →
    Outcome es s (fun ts c => ∃ rs, Redirs ts rs ∧ c = rs.foldl applyRedir cmd)
      (parseredirs es fuel cmd s) := by
  induction fuel with
  | zero => intro _ _ h; omega
  | succ fuel ih =>
    intro cmd s hfuel
    rw [parseredirs_succ]
    split_ifs with hmore hword
    · trivial
    · obtain ⟨k, hk, hget, htoks, hsuf, hlt⟩ := peek_gettoken es (by decide) hmore
      generalize (gettoken es (peek s [60, 62]).2).2 = s1 at *
      rw [hget]
      have hword := not_not.mp hword
      have hnul : (gettoken es s1).1.tok ≠ .nul := by
        rw [hword]
        exact nofun
      have hlt' := gettoken_lt hnul
      have htoks' := tokens_eq es s1
      rw [if_neg hnul] at htoks'
      have hused : tokens es s = [k, (gettoken es s1).1] ++ tokens es (gettoken es s1).2 := by
        rw [htoks, htoks']
        rfl
      apply (ih _ (gettoken es s1).2 (by omega)).behind ((gettoken_suffix es s1).trans hsuf) hused
      rintro us c ⟨rs, hrs, rfl⟩
      rw [redirect_eq (isRedirOp_iff.mpr hk)]
      exact ⟨⟨k, (gettoken es s1).1⟩ :: rs, .cons (isRedirOp_iff.mpr hk) hword hrs, rfl⟩
    · exact Outcome.here ⟨[], .nil, rfl⟩

theorem addArg_applyRedir (c : Cmd) (r : Redir) (w : Nat × Nat) :
    addArg (applyRedir c r) w = applyRedir (addArg c w) r := by
  unfold applyRedir
  split_ifs <;> rfl

theorem addArg_foldl (rs : List Redir) (c : Cmd) (w : Nat × Nat) :
    addArg (rs.foldl applyRedir c) w = rs.foldl applyRedir (addArg c w) := by
  induction rs generalizing c with
  | nil => rfl
  | cons r rs ih => rw [List.foldl_cons, ih, addArg_applyRedir, List.foldl_cons]

def simpleCmd (ws : List Token) (rs : List Redir) : Cmd :=
  rs.foldl applyRedir (.exec (ws.map Token.span))

theorem simpleCmd_addArg (ws : List Token) (rs : List Redir) (w : Token) :
    addArg (simpleCmd ws rs) (w.q, w.eq) = simpleCmd (ws ++ [w]) rs := by
  rw [simpleCmd, addArg_foldl, addArg, simpleCmd, List.map_append]
  rfl

theorem simpleCmd_foldl (ws : List Token) (rs rs' : List Redir) :
    rs'.foldl applyRedir (simpleCmd ws rs) = simpleCmd ws (rs ++ rs') := by
  rw [simpleCmd, simpleCmd, List.foldl_append]

theorem argsLoop_succ (es fuel argc : Nat) (ret : Cmd) (s : List UInt8) :
    argsLoop es (fuel+1) argc ret s =
      if (peek s [124, 41, 38, 59]).1 then .ok (ret, (peek s [124, 41, 38, 59]).2)
      else
        if (gettoken es (peek s [124, 41, 38, 59]).2).1.tok = .nul then
          .ok (ret, (gettoken es (peek s [124, 41, 38, 59]).2).2)
        else if (gettoken es (peek s [124, 41, 38, 59]).2).1.tok ≠ .word then
          .error (.panic "syntax")
        else if argc + 1 ≥ MAXARGS then .error (.panic "too many args")
        else parseredirs es fuel (addArg ret ((gettoken es (peek s [124, 41, 38, 59]).2).1.q,
            (gettoken es (peek s [124, 41, 38, 59]).2).1.eq))
            (gettoken es (peek s [124, 41, 38, 59]).2).2 >>= fun r =>
          argsLoop es fuel (argc + 1) r.1 r.2 := rfl

theorem argsLoop_outcome (fuel : Nat) : ∀ (ws : List Token) (rs : List Redir) (s : List UInt8),
    s.length < fuel → ws.length < MAXARGS →
    Outcome es s (fun ts c => ∃ ws' rs', Args ts ws' rs' ∧ (ws ++ ws').length < MAXARGS ∧
      c = simpleCmd (ws ++ ws') (rs ++ rs')) (argsLoop es fuel ws.length (simpleCmd ws rs) s) := by
  induction fuel with
  | zero => intro _ _ _ h; omega
  | succ fuel ih =>
    intro ws rs s hfuel hlen
    have hnone : ∃ ws' rs', Args [] ws' rs' ∧ (ws ++ ws').length < MAXARGS ∧
        simpleCmd ws rs = simpleCmd (ws ++ ws') (rs ++ rs') :=
      ⟨[], [], .nil, by rwa [List.append_nil], by rw [List.append_nil, List.append_nil]⟩
    rw [argsLoop_succ]
    have htoks := tokens_peek es s [124, 41, 38, 59]
    have hsuf := peek_suffix s [124, 41, 38, 59]
    split_ifs with hstop hnul hword hmax
    · exact Outcome.here hnone
    · -- The line ends here.
      obtain ⟨h1, h2⟩ := tokens_nul hnul
      refine ⟨(gettoken_suffix _ _).trans hsuf, [], ?_, hnone⟩
      rw [← htoks, h1, h2]
      rfl
    · trivial
    · trivial
    · have hword := not_not.mp hword
      have hlt := gettoken_lt hnul
      have hle := hsuf.length_le
      have hread := tokens_eq es (peek s [124, 41, 38, 59]).2
      rw [if_neg hnul, htoks] at hread
      have hsuf2 := (gettoken_suffix es (peek s [124, 41, 38, 59]).2).trans hsuf
      generalize (gettoken es (peek s [124, 41, 38, 59]).2).1 = w at *
      generalize (gettoken es (peek s [124, 41, 38, 59]).2).2 = s2 at *
      have hcount : (ws ++ [w]).length = ws.length + 1 := by simp
      have hrest : Outcome es s2 (fun us c => ∃ ws' rs', Args (w :: us) ws' rs' ∧
          (ws ++ ws').length < MAXARGS ∧ c = simpleCmd (ws ++ ws') (rs ++ rs'))
          (parseredirs es fuel (addArg (simpleCmd ws rs) (w.q, w.eq)) s2 >>= fun r =>
            argsLoop es fuel (ws.length + 1) r.1 r.2) := by
        apply (parseredirs_outcome fuel _ s2 (by omega)).bind
        rintro c s3 us1 hsuf3 htoks3 ⟨rs1, hrs1, rfl⟩
        have hloop := ih (ws ++ [w]) (rs ++ rs1) s3 (by have := hsuf3.length_le; omega) (by omega)
        rw [simpleCmd_addArg, simpleCmd_foldl, ← hcount]
        apply hloop.behind hsuf3 htoks3
        rintro us2 c ⟨ws', rs', hargs, hlt', rfl⟩
        refine ⟨w :: ws', rs1 ++ rs', .cons hword hrs1 hargs, ?_, ?_⟩
        · rwa [List.append_assoc, List.singleton_append] at hlt'
        · rw [List.append_assoc, List.singleton_append, List.append_assoc]
      have hused : tokens es s = [w] ++ tokens es s2 := hread
      exact hrest.behind hsuf2 hused fun us c h => h

theorem backLoop_succ (es fuel : Nat) (cmd : Cmd) (s : List UInt8) :
    backLoop es (fuel+1) cmd s =
      if (peek s [38]).1 then backLoop es fuel (.back cmd) (gettoken es (peek s [38]).2).2
      else .ok (cmd, (peek s [38]).2) := rfl

theorem strchr_char {j : Tok} (hgt : j ≠ .gt) (hgtgt : j ≠ .gtgt) (k : Tok) :
    strchr [j.char] k.char = true ↔ k = j := by
  cases j <;> first
    | exact absurd rfl hgt
    | exact absurd rfl hgtgt
    | (cases k <;> decide)

theorem backLoop_outcome (fuel : Nat) : ∀ (cmd : Cmd) (s : List UInt8), s.length < fuel →
    Outcome es s (fun ts c => (∀ a ∈ ts, a.tok = .amp) ∧ c = backs ts cmd)
      (backLoop es fuel cmd s) := by
  induction fuel with
  | zero => intro _ _ h; omega
  | succ fuel ih =>
    intro cmd s hfuel
    rw [backLoop_succ]
    split_ifs with hmore
    · obtain ⟨k, hk, _, htoks, hsuf, hlt⟩ := peek_gettoken es (by decide) hmore
      have hamp : k.tok = .amp := (strchr_char (j := .amp) nofun nofun _).mp hk
      have hused : tokens es s = [k] ++ tokens es (gettoken es (peek s [38]).2).2 := htoks
      apply (ih (.back cmd) _ (by omega)).behind hsuf hused
      rintro us c ⟨hall, rfl⟩
      exact ⟨List.forall_mem_cons.mpr ⟨hamp, hall⟩, rfl⟩
    · exact Outcome.here ⟨fun _ h => absurd h List.not_mem_nil, rfl⟩

def parse (es fuel : Nat) : Nonterm → List UInt8 → Except Fail (Cmd × List UInt8)
  | .exec, s => parseexec es fuel s
  | .pipe, s => parsepipe es fuel s
  | .line, s => parseline es fuel s

/-- The calls down to the next `(`. -/
def Nonterm.rank : Nonterm → Nat
  | .exec => 3
  | .pipe => 4
  | .line => 5

theorem parseline_succ (es fuel : Nat) (s : List UInt8) :
    parseline es (fuel+1) s = (parsepipe es fuel s >>= fun r => backLoop es fuel r.1 r.2 >>= fun r =>
      if (peek r.2 [59]).1 then
        parseline es fuel (gettoken es (peek r.2 [59]).2).2 >>= fun q => .ok (.list r.1 q.1, q.2)
      else .ok (r.1, (peek r.2 [59]).2)) := by
  rw [parseline]

theorem parsepipe_succ (es fuel : Nat) (s : List UInt8) :
    parsepipe es (fuel+1) s = (parseexec es fuel s >>= fun r =>
      if (peek r.2 [124]).1 then
        parsepipe es fuel (gettoken es (peek r.2 [124]).2).2 >>= fun q => .ok (.pipe r.1 q.1, q.2)
      else .ok (r.1, (peek r.2 [124]).2)) := by
  rw [parsepipe]

theorem parseexec_succ (es fuel : Nat) (s : List UInt8) :
    parseexec es (fuel+1) s =
      if (peek s [40]).1 then parseblock es fuel (peek s [40]).2
      else parseredirs es fuel (.exec []) (peek s [40]).2 >>= fun r =>
        argsLoop es fuel 0 r.1 r.2 := by
  rw [parseexec]

theorem parseblock_succ (es fuel : Nat) (s : List UInt8) :
    parseblock es (fuel+1) s =
      if !(peek s [40]).1 then .error (.panic "parseblock")
      else parseline es fuel (gettoken es (peek s [40]).2).2 >>= fun r =>
        if !(peek r.2 [41]).1 then .error (.panic "syntax - missing )")
        else parseredirs es fuel r.1 (gettoken es (peek r.2 [41]).2).2 := by
  rw [parseblock]

/-! One level of the recursive descent, given what the calls below it do. -/

variable {fuel : Nat} {s : List UInt8}

theorem parseexec_outcome (hfuel : s.length < fuel)
    (hblock : Outcome es (peek s [40]).2 (Derives .exec) (parseblock es fuel (peek s [40]).2)) :
    Outcome es s (Derives .exec) (parseexec es (fuel+1) s) := by
  have hsuf := peek_suffix s [40]
  have hle := hsuf.length_le
  have hused : tokens es s = [] ++ tokens es (peek s [40]).2 := (tokens_peek es s [40]).symm
  rw [parseexec_succ]
  split_ifs
  · exact hblock.behind hsuf hused fun _ _ hD => hD
  · apply Outcome.behind _ hsuf hused fun _ _ hD => hD
    apply (parseredirs_outcome fuel _ _ (by omega)).bind
    rintro c s1 ts hsuf1 htoks1 ⟨rs, hrs, rfl⟩
    have hle1 := hsuf1.length_le
    apply (argsLoop_outcome fuel [] rs s1 (by omega) (by decide)).behind hsuf1 htoks1
    rintro us c ⟨ws, rs', hargs, hlen, rfl⟩
    exact .simple hrs hargs hlen

theorem parsepipe_outcome (hexec : Outcome es s (Derives .exec) (parseexec es fuel s))
    (hpipe : ∀ s1, s1.length < s.length →
      Outcome es s1 (Derives .pipe) (parsepipe es fuel s1)) :
    Outcome es s (Derives .pipe) (parsepipe es (fuel+1) s) := by
  rw [parsepipe_succ]
  apply hexec.bind
  intro c s1 ts hsuf1 htoks1 hD1
  dsimp only
  split_ifs with hmore
  · obtain ⟨k, hk, _, htoks2, hsuf2, hlt⟩ := peek_gettoken es (by decide) hmore
    have hbar : k.tok = .bar := (strchr_char (j := .bar) nofun nofun _).mp hk
    generalize (gettoken es (peek s1 [124]).2).2 = s2 at *
    have hle1 := hsuf1.length_le
    have hright : Outcome es s2 (fun us d => ∃ c', Derives .pipe us c' ∧ d = .pipe c c')
        (parsepipe es fuel s2 >>= fun q => .ok (.pipe c q.1, q.2)) :=
      (hpipe s2 (by omega)).bind fun c' s3 us hsuf3 htoks3 hD => ⟨hsuf3, us, htoks3, c', hD, rfl⟩
    have hused : tokens es s = (ts ++ [k]) ++ tokens es s2 := by
      rw [htoks1, htoks2, List.append_assoc]
      rfl
    apply hright.behind (hsuf2.trans hsuf1) hused
    rintro us d ⟨c', hD, rfl⟩
    rw [List.append_assoc]
    exact .pipe hD1 hbar hD
  · exact ⟨(peek_suffix s1 _).trans hsuf1, ts, by rw [tokens_peek]; exact htoks1, .single hD1⟩

theorem parseline_outcome (hfuel : s.length < fuel)
    (hpipe : Outcome es s (Derives .pipe) (parsepipe es fuel s))
    (hline : ∀ s1, s1.length < s.length →
      Outcome es s1 (Derives .line) (parseline es fuel s1)) :
    Outcome es s (Derives .line) (parseline es (fuel+1) s) := by
  rw [parseline_succ]
  apply hpipe.bind
  intro c s1 ts hsuf1 htoks1 hD1
  have hle1 := hsuf1.length_le
  apply Outcome.behind _ hsuf1 htoks1 fun _ _ hD => hD
  apply (backLoop_outcome fuel c s1 (by omega)).bind
  rintro d s2 amps hsuf2 htoks2 ⟨hamps, rfl⟩
  have hle2 := hsuf2.length_le
  dsimp only
  split_ifs with hmore
  · obtain ⟨m, hm, _, htoks3, hsuf3, hlt⟩ := peek_gettoken es (by decide) hmore
    have hsemi : m.tok = .semi := (strchr_char (j := .semi) nofun nofun _).mp hm
    generalize (gettoken es (peek s2 [59]).2).2 = s3 at *
    have hright : Outcome es s3
        (fun us d => ∃ c', Derives .line us c' ∧ d = .list (backs amps c) c')
        (parseline es fuel s3 >>= fun q => .ok (.list (backs amps c) q.1, q.2)) :=
      (hline s3 (by omega)).bind fun c' s4 us hsuf4 htoks4 hD => ⟨hsuf4, us, htoks4, c', hD, rfl⟩
    have hused : tokens es s1 = (amps ++ [m]) ++ tokens es s3 := by
      rw [htoks2, htoks3, List.append_assoc]
      rfl
    apply hright.behind (hsuf3.trans hsuf2) hused
    rintro us d ⟨c', hD, rfl⟩
    rw [List.append_assoc]
    exact .seq hD1 hamps hsemi hD
  · exact ⟨(peek_suffix s2 _).trans hsuf2, amps, by rw [tokens_peek]; exact htoks2,
      .last hD1 hamps⟩

theorem parseblock_outcome (hfuel : s.length < fuel)
    (hline : ∀ s1, s1.length < s.length →
      Outcome es s1 (Derives .line) (parseline es fuel s1)) :
    Outcome es s (Derives .exec) (parseblock es (fuel+1) s) := by
  rw [parseblock_succ]
  split_ifs with hopens
  · trivial
  rw [Bool.not_eq_true, Bool.not_eq_false'] at hopens
  obtain ⟨l, hl, _, htoks1, hsuf1, hlt1⟩ := peek_gettoken es (by decide) hopens
  have hlparen : l.tok = .lparen := (strchr_char (j := .lparen) nofun nofun _).mp hl
  generalize (gettoken es (peek s [40]).2).2 = s1 at *
  have hused : tokens es s = [l] ++ tokens es s1 := htoks1
  apply Outcome.behind _ hsuf1 hused fun _ _ hD => hD
  apply (hline s1 hlt1).bind
  intro c s2 ts hsuf2 htoks2 hD
  have hle2 := hsuf2.length_le
  dsimp only
  split_ifs with hcloses
  · trivial
  rw [Bool.not_eq_true, Bool.not_eq_false'] at hcloses
  obtain ⟨r, hr, _, htoks3, hsuf3, hlt3⟩ := peek_gettoken es (by decide) hcloses
  have hrparen : r.tok = .rparen := (strchr_char (j := .rparen) nofun nofun _).mp hr
  generalize (gettoken es (peek s2 [41]).2).2 = s3 at *
  have hused' : tokens es s1 = (ts ++ [r]) ++ tokens es s3 := by
    rw [htoks2, htoks3, List.append_assoc]
    rfl
  apply (parseredirs_outcome fuel c s3 (by omega)).behind (hsuf3.trans hsuf2) hused'
  rintro us d ⟨rs, hrs, rfl⟩
  rw [List.append_assoc]
  exact .block hlparen hD hrparen hrs

theorem parse_outcome (fuel : Nat) :
    (∀ nt s, 4*s.length + nt.rank ≤ fuel → Outcome es s (Derives nt) (parse es fuel nt s)) ∧
    ∀ s, 4*s.length + 2 ≤ fuel → Outcome es s (Derives .exec) (parseblock es fuel s) := by
  induction fuel with
  | zero =>
    refine ⟨fun nt s h => ?_, fun s h => ?_⟩
    · cases nt <;> simp only [Nonterm.rank] at h <;> omega
    · omega
  | succ fuel ih =>
    obtain ⟨ih, ihblock⟩ := ih
    refine ⟨fun nt s h => ?_, fun s h => ?_⟩
    · cases nt with
      | exec =>
        rw [Nonterm.rank] at h
        have hle := (peek_suffix s [40]).length_le
        exact parseexec_outcome (by omega) (ihblock _ (by omega))
      | pipe =>
        rw [Nonterm.rank] at h
        exact parsepipe_outcome (ih .exec s (by rw [Nonterm.rank]; omega))
          fun s1 h1 => ih .pipe s1 (by rw [Nonterm.rank]; omega)
      | line =>
        rw [Nonterm.rank] at h
        exact parseline_outcome (by omega) (ih .pipe s (by rw [Nonterm.rank]; omega))
          fun s1 h1 => ih .line s1 (by rw [Nonterm.rank]; omega)
    · exact parseblock_outcome (by omega) fun s1 h1 => ih .line s1 (by rw [Nonterm.rank]; omega)

end Sound

/-! The parser finds every derivation whose tokens are followed by a token that ends it. -/

/-- Whether a token sequence begins with one of the symbols `t`; what `peek` tells. -/
def follows (t : List UInt8) (ts : List Token) : Bool :=
  ts.head?.any fun k => strchr t k.tok.char

/-- The symbols that may come behind a nonterminal. -/
def Nonterm.stops : Nonterm → List UInt8
  | .exec => [124, 41, 38, 59]
  | .pipe => [41, 38, 59]
  | .line => [41]

/-- What is left begins with such a symbol, or nothing is left. -/
def Stop (nt : Nonterm) (rest : List Token) : Prop := rest = [] ∨ follows nt.stops rest = true

section Complete
variable {es fuel : Nat} {s t : List UInt8} {rest ts us ws : List Token} {rs rs' : List Redir}

theorem follows_cons (t : List UInt8) (k : Token) (ts : List Token) :
    follows t (k :: ts) = strchr t k.tok.char := rfl

theorem Stop.not_follows {nt : Nonterm} (h : Stop nt rest) (ht : t.any nt.stops.contains = false) :
    follows t rest = false := by
  rcases h with rfl | h
  · rfl
  · cases rest with
    | nil => rfl
    | cons k rest =>
      simp only [follows, List.head?_cons, Option.any_some, strchr, List.contains_eq_mem,
        decide_eq_true_eq, decide_eq_false_iff_not] at h ⊢
      rw [List.any_eq_false] at ht
      exact fun hmem => ht _ hmem (List.contains_iff_mem.2 h)

theorem Stop.mono {nt nt' : Nonterm} (h : Stop nt rest) (hsub : nt.stops ⊆ nt'.stops) :
    Stop nt' rest := by
  rcases h with rfl | h
  · exact Or.inl rfl
  · right
    cases rest with
    | nil => exact absurd h (by simp [follows])
    | cons k rest =>
      simp only [follows, List.head?_cons, Option.any_some, strchr, List.contains_eq_mem,
        decide_eq_true_eq] at h ⊢
      exact hsub h

theorem Redirs.not_follows (h : Redirs ts rs) (hrest : follows [40] rest = false) :
    follows [40] (ts ++ rest) = false := by
  cases h with
  | nil => exact hrest
  | cons hop _ _ =>
    simp only [follows, List.cons_append, List.head?_cons, Option.any_some]
    rcases hop with h | h | h <;> rw [h] <;> decide

theorem Args.not_follows (h : Args us ws rs) (ht : 97 ∉ t) (hrest : follows t rest = false) :
    follows t (us ++ rest) = false := by
  cases h with
  | nil => exact hrest
  | cons hw _ _ =>
    simp only [follows, List.cons_append, List.head?_cons, Option.any_some, hw, strchr,
      List.contains_eq_mem, decide_eq_false_iff_not]
    exact ht

theorem stop_amps {amps : List Token} (ha : ∀ a ∈ amps, a.tok = .amp) (h : Stop .pipe rest) :
    Stop .pipe (amps ++ rest) := by
  cases amps with
  | nil => exact h
  | cons a amps =>
    right
    rw [List.cons_append, follows_cons, ha a List.mem_cons_self]
    decide

theorem peek_follows (htoks : tokens es s = ts) (ht : t ⊆ symbols) :
    (peek s t).1 = follows t ts := by
  rw [← htoks]
  exact peek_tokens es s ht

theorem peek_symbol {k : Token} {j : Tok} (htoks : tokens es s = k :: ts) (hk : k.tok = j)
    (ht : t ⊆ symbols) (hj : strchr t j.char = true) : (peek s t).1 = true := by
  rw [peek_follows htoks ht, follows_cons, hk]
  exact hj

theorem gettoken_peek {k : Token} (h : tokens es s = k :: ts) (t : List UInt8) :
    (gettoken es (peek s t).2).1 = k ∧ tokens es (gettoken es (peek s t).2).2 = ts ∧
      (gettoken es (peek s t).2).2.length < s.length := by
  rw [← tokens_peek es s t] at h
  obtain ⟨hget, hrest, hnul⟩ := tokens_cons h
  have hk : (gettoken es (peek s t).2).1 = k := congrArg Prod.fst hget
  refine ⟨hk, hrest, ?_⟩
  exact (gettoken_lt (by rw [hk]; exact hnul)).trans_le (peek_suffix s t).length_le

theorem parseredirs_complete (h : Redirs ts rs) : ∀ (fuel : Nat) (cmd : Cmd) (s : List UInt8),
    tokens es s = ts ++ rest → follows [60, 62] rest = false → s.length < fuel →
    ∃ s', parseredirs es fuel cmd s = .ok (rs.foldl applyRedir cmd, s') ∧ tokens es s' = rest ∧
      s'.length ≤ s.length := by
  induction h with
  | nil =>
    intro fuel cmd s htoks hstop hfuel
    obtain ⟨n, rfl⟩ : ∃ n, fuel = n+1 := ⟨fuel-1, by omega⟩
    rw [List.nil_append] at htoks
    have hpeek := peek_follows htoks (show [60, 62] ⊆ symbols by decide)
    rw [hstop] at hpeek
    refine ⟨(peek s [60, 62]).2, ?_, (tokens_peek _ _ _).trans htoks, (peek_suffix _ _).length_le⟩
    rw [parseredirs_succ, hpeek, if_neg (by decide)]
    rfl
  | @cons op w ts rs hop hw _ ih =>
    intro fuel cmd s htoks hstop hfuel
    obtain ⟨n, rfl⟩ : ∃ n, fuel = n+1 := ⟨fuel-1, by omega⟩
    rw [List.cons_append, List.cons_append] at htoks
    have hpeek := peek_follows htoks (show [60, 62] ⊆ symbols by decide)
    have hyes : follows [60, 62] (op :: w :: (ts ++ rest)) = true := isRedirOp_iff.mp hop
    rw [hyes] at hpeek
    obtain ⟨hop1, htoks1, hlt1⟩ := gettoken_peek htoks [60, 62]
    obtain ⟨hget2, htoks2, hnul⟩ := tokens_cons htoks1
    have hw2 := congrArg Prod.fst hget2
    dsimp only at hw2
    have hlt2 : (gettoken es (gettoken es (peek s [60, 62]).2).2).2.length <
        (gettoken es (peek s [60, 62]).2).2.length := by
      apply gettoken_lt
      rw [hw2]
      exact hnul
    obtain ⟨s', hparse, hs', hle⟩ := ih n (applyRedir cmd ⟨op, w⟩) _ htoks2 hstop (by omega)
    refine ⟨s', ?_, hs', by omega⟩
    rw [parseredirs_succ, hpeek, if_pos rfl, hw2, if_neg (not_not.mpr hw), hop1,
      redirect_eq hop]
    exact hparse

theorem backLoop_complete (amps : List Token) : ∀ (fuel : Nat) (cmd : Cmd) (s : List UInt8),
    (∀ a ∈ amps, a.tok = .amp) → tokens es s = amps ++ rest → follows [38] rest = false →
    s.length < fuel →
    ∃ s', backLoop es fuel cmd s = .ok (backs amps cmd, s') ∧ tokens es s' = rest ∧
      s'.length ≤ s.length := by
  induction amps with
  | nil =>
    intro fuel cmd s _ htoks hstop hfuel
    obtain ⟨n, rfl⟩ : ∃ n, fuel = n+1 := ⟨fuel-1, by omega⟩
    rw [List.nil_append] at htoks
    have hpeek := peek_follows htoks (show [38] ⊆ symbols by decide)
    rw [hstop] at hpeek
    refine ⟨(peek s [38]).2, ?_, (tokens_peek _ _ _).trans htoks, (peek_suffix _ _).length_le⟩
    rw [backLoop_succ, hpeek, if_neg (by decide)]
    rfl
  | cons a amps ih =>
    intro fuel cmd s hamps htoks hstop hfuel
    obtain ⟨n, rfl⟩ : ∃ n, fuel = n+1 := ⟨fuel-1, by omega⟩
    obtain ⟨ha, hamps⟩ := List.forall_mem_cons.mp hamps
    rw [List.cons_append] at htoks
    have hpeek : (peek s [38]).1 = true := peek_symbol htoks ha (by decide) (by decide)
    obtain ⟨_, htoks1, hlt1⟩ := gettoken_peek htoks [38]
    obtain ⟨s', hloop, hs', hle⟩ := ih n (.back cmd) _ hamps htoks1 hstop (by omega)
    refine ⟨s', ?_, hs', by omega⟩
    rw [backLoop_succ, if_pos hpeek]
    exact hloop

theorem argsLoop_complete (h : Args us ws rs') : ∀ (fuel : Nat) (ws0 : List Token)
    (rs0 : List Redir) (s : List UInt8), tokens es s = us ++ rest → Stop .exec rest →
    s.length < fuel → (ws0 ++ ws).length < MAXARGS →
    ∃ s', argsLoop es fuel ws0.length (simpleCmd ws0 rs0) s =
        .ok (simpleCmd (ws0 ++ ws) (rs0 ++ rs'), s') ∧ tokens es s' = rest ∧
      s'.length ≤ s.length := by
  induction h with
  | nil =>
    intro fuel ws0 rs0 s htoks hstop hfuel _
    obtain ⟨n, rfl⟩ : ∃ n, fuel = n+1 := ⟨fuel-1, by omega⟩
    rw [List.nil_append] at htoks
    rw [List.append_nil, List.append_nil, argsLoop_succ]
    have hpeek := peek_follows htoks (show [124, 41, 38, 59] ⊆ symbols by decide)
    have hle := (peek_suffix s [124, 41, 38, 59]).length_le
    rcases hstop with rfl | hstop
    · -- Nothing is left: `peek` finds no symbol and `gettoken` returns 0.
      have hnul := tokens_nil ((tokens_peek es s [124, 41, 38, 59]).trans htoks)
      have hle' := (gettoken_suffix es (peek s [124, 41, 38, 59]).2).length_le
      refine ⟨_, ?_, (tokens_nul hnul).2, by omega⟩
      rw [hpeek, if_neg (by decide), if_pos hnul]
    · have hyes : (peek s [124, 41, 38, 59]).1 = true := hpeek.trans hstop
      refine ⟨_, ?_, (tokens_peek es s _).trans htoks, hle⟩
      rw [if_pos hyes]
  | @cons w ts us ws rs1 rs' hw hr hargs ih =>
    intro fuel ws0 rs0 s htoks hstop hfuel hmax
    obtain ⟨n, rfl⟩ : ∃ n, fuel = n+1 := ⟨fuel-1, by omega⟩
    rw [List.cons_append, List.append_assoc] at htoks
    have hpeek := peek_follows htoks (show [124, 41, 38, 59] ⊆ symbols by decide)
    rw [follows_cons, hw] at hpeek
    obtain ⟨hget, htoks1, hlt1⟩ := gettoken_peek htoks [124, 41, 38, 59]
    have hnot : follows [60, 62] (us ++ rest) = false :=
      hargs.not_follows (by decide) (hstop.not_follows (by decide))
    have hcount : (ws0 ++ [w]).length = ws0.length + 1 := by simp
    have hassoc : ws0 ++ [w] ++ ws = ws0 ++ w :: ws := by simp
    have hmax1 : ¬ ws0.length + 1 ≥ MAXARGS := by
      rw [List.length_append, List.length_cons] at hmax
      omega
    obtain ⟨s2, hredirs, htoks2, hle2⟩ := parseredirs_complete hr n
      (simpleCmd (ws0 ++ [w]) rs0) _ htoks1 hnot (by omega)
    obtain ⟨s3, hloop, htoks3, hle3⟩ := ih n (ws0 ++ [w]) (rs0 ++ rs1) s2 htoks2 hstop (by omega)
      (by rw [hassoc]; exact hmax)
    refine ⟨s3, ?_, htoks3, by omega⟩
    rw [argsLoop_succ, hpeek, if_neg (by decide), hget, if_neg (by rw [hw]; decide),
      if_neg (not_not.mpr hw), if_neg hmax1, simpleCmd_addArg, hredirs, simpleCmd_foldl]
    rw [hcount, hassoc, List.append_assoc] at hloop
    exact hloop

theorem parse_complete {nt : Nonterm} {c : Cmd} (h : Derives nt ts c) :
    ∀ (fuel : Nat) (s : List UInt8) (rest : List Token), tokens es s = ts ++ rest → Stop nt rest →
    4*s.length + nt.rank ≤ fuel →
    ∃ s', parse es fuel nt s = .ok (c, s') ∧ tokens es s' = rest ∧ s'.length ≤ s.length := by
  induction h with
  | @simple ts us ws rs rs' hr ha hlen =>
    intro fuel s rest htoks hstop hfuel
    rw [Nonterm.rank] at hfuel
    obtain ⟨n, rfl⟩ : ∃ n, fuel = n+1 := ⟨fuel-1, by omega⟩
    rw [List.append_assoc] at htoks
    have hpeek := peek_follows htoks (show [40] ⊆ symbols by decide)
    have hno : follows [40] (ts ++ (us ++ rest)) = false :=
      hr.not_follows (ha.not_follows (by decide) (hstop.not_follows (by decide)))
    rw [hno] at hpeek
    have hle := (peek_suffix s [40]).length_le
    obtain ⟨s1, hredirs, htoks1, hle1⟩ := parseredirs_complete hr n (.exec []) (peek s [40]).2
      ((tokens_peek es s [40]).trans htoks)
      (ha.not_follows (by decide) (hstop.not_follows (by decide))) (by omega)
    obtain ⟨s2, hloop, htoks2, hle2⟩ := argsLoop_complete ha n [] rs s1 htoks1 hstop (by omega) hlen
    refine ⟨s2, ?_, htoks2, by omega⟩
    rw [parse, parseexec_succ, hpeek, if_neg (by decide), hredirs]
    exact hloop
  | @block l r ts us rs c hl hline hr hs ih =>
    intro fuel s rest htoks hstop hfuel
    rw [Nonterm.rank] at hfuel
    obtain ⟨n, rfl⟩ : ∃ n, fuel = n+2 := ⟨fuel-2, by omega⟩
    rw [List.cons_append, List.append_assoc, List.cons_append] at htoks
    have hpeek : (peek s [40]).1 = true := peek_symbol htoks hl (by decide) (by decide)
    have htoks0 := (tokens_peek es s [40]).trans htoks
    have hpeek0 : (peek (peek s [40]).2 [40]).1 = true :=
      peek_symbol htoks0 hl (by decide) (by decide)
    have hle0 := (peek_suffix s [40]).length_le
    obtain ⟨_, htoks1, hlt1⟩ := gettoken_peek htoks0 [40]
    have hstop1 : Stop .line (r :: (us ++ rest)) := by
      right
      rw [follows_cons, hr]
      decide
    obtain ⟨s2, hparse, htoks2, hle2⟩ := ih n _ _ htoks1 hstop1 (by rw [Nonterm.rank]; omega)
    have hpeek2 : (peek s2 [41]).1 = true := peek_symbol htoks2 hr (by decide) (by decide)
    obtain ⟨_, htoks3, hlt3⟩ := gettoken_peek htoks2 [41]
    obtain ⟨s4, hredirs, htoks4, hle4⟩ := parseredirs_complete hs n c _ htoks3
      (hstop.not_follows (by decide)) (by omega)
    refine ⟨s4, ?_, htoks4, by omega⟩
    simp only [parse] at hparse ⊢
    rw [parseexec_succ, if_pos hpeek, parseblock_succ, hpeek0, if_neg (by decide), hparse]
    show (if _ then _ else _) = _
    rw [hpeek2, if_neg (by decide)]
    exact hredirs
  | @single ts c _ ih =>
    intro fuel s rest htoks hstop hfuel
    rw [Nonterm.rank] at hfuel
    obtain ⟨n, rfl⟩ : ∃ n, fuel = n+1 := ⟨fuel-1, by omega⟩
    obtain ⟨s1, hparse, htoks1, hle1⟩ := ih n s rest htoks (hstop.mono (by decide))
      (by rw [Nonterm.rank]; omega)
    have hpeek := peek_follows htoks1 (show [124] ⊆ symbols by decide)
    rw [hstop.not_follows (by decide)] at hpeek
    have hle := (peek_suffix s1 [124]).length_le
    refine ⟨_, ?_, (tokens_peek es s1 [124]).trans htoks1, by omega⟩
    simp only [parse] at hparse ⊢
    rw [parsepipe_succ, hparse]
    show (if _ then _ else _) = _
    rw [hpeek, if_neg (by decide)]
  | @pipe b ts us c d _ hb _ ih ih' =>
    intro fuel s rest htoks hstop hfuel
    rw [Nonterm.rank] at hfuel
    obtain ⟨n, rfl⟩ : ∃ n, fuel = n+1 := ⟨fuel-1, by omega⟩
    rw [List.append_assoc, List.cons_append] at htoks
    have hstop1 : Stop .exec (b :: (us ++ rest)) := by
      right
      rw [follows_cons, hb]
      decide
    obtain ⟨s1, hparse, htoks1, hle1⟩ := ih n s _ htoks hstop1 (by rw [Nonterm.rank]; omega)
    have hpeek : (peek s1 [124]).1 = true := peek_symbol htoks1 hb (by decide) (by decide)
    obtain ⟨_, htoks2, hlt2⟩ := gettoken_peek htoks1 [124]
    obtain ⟨s3, hparse', htoks3, hle3⟩ := ih' n _ rest htoks2 hstop (by rw [Nonterm.rank]; omega)
    refine ⟨s3, ?_, htoks3, by omega⟩
    simp only [parse] at hparse hparse' ⊢
    rw [parsepipe_succ, hparse]
    show (if _ then _ else _) = _
    rw [if_pos hpeek, hparse']
    rfl
  | @last ts amps c _ ha ih =>
    intro fuel s rest htoks hstop hfuel
    rw [Nonterm.rank] at hfuel
    obtain ⟨n, rfl⟩ : ∃ n, fuel = n+1 := ⟨fuel-1, by omega⟩
    rw [List.append_assoc] at htoks
    obtain ⟨s1, hparse, htoks1, hle1⟩ := ih n s _ htoks (stop_amps ha (hstop.mono (by decide)))
      (by rw [Nonterm.rank]; omega)
    obtain ⟨s2, hloop, htoks2, hle2⟩ := backLoop_complete amps n c s1 ha htoks1
      (hstop.not_follows (by decide)) (by omega)
    have hpeek := peek_follows htoks2 (show [59] ⊆ symbols by decide)
    rw [hstop.not_follows (by decide)] at hpeek
    have hle := (peek_suffix s2 [59]).length_le
    refine ⟨_, ?_, (tokens_peek es s2 [59]).trans htoks2, by omega⟩
    simp only [parse] at hparse ⊢
    rw [parseline_succ, hparse]
    show (backLoop es n c s1 >>= _) = _
    rw [hloop]
    show (if _ then _ else _) = _
    rw [hpeek, if_neg (by decide)]
  | @seq m ts amps us c d _ ha hm _ ih ih' =>
    intro fuel s rest htoks hstop hfuel
    rw [Nonterm.rank] at hfuel
    obtain ⟨n, rfl⟩ : ∃ n, fuel = n+1 := ⟨fuel-1, by omega⟩
    rw [List.append_assoc, List.append_assoc, List.cons_append] at htoks
    have hsemi : follows [41, 38, 59] (m :: (us ++ rest)) = true := by
      rw [follows_cons, hm]
      decide
    obtain ⟨s1, hparse, htoks1, hle1⟩ := ih n s _ htoks (stop_amps ha (Or.inr hsemi))
      (by rw [Nonterm.rank]; omega)
    obtain ⟨s2, hloop, htoks2, hle2⟩ := backLoop_complete amps n c s1 ha htoks1
      (by rw [follows_cons, hm]; decide) (by omega)
    have hpeek : (peek s2 [59]).1 = true := peek_symbol htoks2 hm (by decide) (by decide)
    obtain ⟨_, htoks3, hlt3⟩ := gettoken_peek htoks2 [59]
    obtain ⟨s4, hparse', htoks4, hle4⟩ := ih' n _ rest htoks3 hstop (by rw [Nonterm.rank]; omega)
    refine ⟨s4, ?_, htoks4, by omega⟩
    simp only [parse] at hparse hparse' ⊢
    rw [parseline_succ, hparse]
    show (backLoop es n c s1 >>= _) = _
    rw [hloop]
    show (if _ then _ else _) = _
    rw [if_pos hpeek, hparse']
    rfl

end Complete

end Xv6.Sh
