import Xv6.Bio

/-! Crashes. A crash keeps a prefix of the single-block writes, and so does a
crash in the recovery from one; in the end the home blocks hold a whole number of
transactions. -/
namespace Xv6

open Function

def LogBlock (start size b : Nat) : Prop := start ≤ b ∧ b ≤ start + (size-1)

def Home (start size b : Nat) : Prop := ¬ LogBlock start size b

/-- A transaction: distinct home blocks with their new contents, no more than the
log and the array `log.lh.block` hold. -/
structure Tx (start size : Nat) where
  blocks : List (Nat × Bytes)
  nodup : (blocks.map Prod.fst).Nodup
  fits : blocks.length ≤ size-1
  array : blocks.length ≤ LOGSIZE
  home : ∀ w ∈ blocks, w.1 < 2^32 ∧ Home start size w.1

def logAll : List (Nat × Bytes) → Prog Store Unit
  | [] => pure ()
  | w :: ws => do
    let _ ← bread w.1
    setData w.1 w.2
    log_write w.1
    logAll ws

def Tx.run {start size : Nat} (t : Tx start size) : Prog Store Unit := do
  begin_op
  logAll t.blocks
  end_op

def after {start size : Nat} (d : Nat → Bytes) (txs : List (Tx start size)) : Nat → Bytes :=
  txs.foldl (fun d t => applyWrites d t.blocks) d

/-- A running machine between transactions: the log is empty in memory and on
disk, and every buffer agrees with the disk. -/
structure Clean (start size : Nat) (s : Store) : Prop where
  place : s.start = start ∧ s.size = size
  lh : s.lh = []
  outstanding : s.outstanding = 0
  header : headerBlocks (s.disk start) = []
  view : s.view = s.disk

/-- Transactions one after the other; in between, buffers come and go. -/
inductive Commits (start size : Nat) : Store → List (Tx start size) → Store → Prop
  | nil {s : Store} : Commits start size s [] s
  | recache {s s' : Store} {txs : List (Tx start size)} {cache : Nat → Option Bytes} :
      Commits start size s txs s' → (∀ b data, cache b = some data → data = s'.disk b) →
      Commits start size s txs { s' with cache := cache }
  | commit {s s' s'' : Store} {txs : List (Tx start size)} {t : Tx start size} :
      Commits start size s txs s' → t.run s' = .ok ((), s'') →
      Commits start size s (txs ++ [t]) s''

/-- The disk after any number of recoveries, each of which crashed after some of
its writes. -/
inductive Crashes (start size : Nat) (d : Nat → Bytes) : (Nat → Bytes) → Prop
  | none : Crashes start size d d
  | crash {d' : Nat → Bytes} {s : Store} (j : Nat) : Crashes start size d d' →
      recover_from_log (bootStore start size d') = .ok ((), s) →
      Crashes start size d (applyWrites d' (s.writes.take j))

def logWrites : Nat → List Nat → (Nat → Bytes) → List (Nat × Bytes)
  | _, [], _ => []
  | a, b :: bs, v => (a, v b) :: logWrites (a+1) bs v

def installs : Nat → List Nat → (Nat → Bytes) → List (Nat × Bytes)
  | _, [], _ => []
  | a, b :: bs, v => (b, v a) :: installs (a+1) bs v

section Lists
variable {v u : Nat → Bytes}

theorem length_logWrites (bs : List Nat) : ∀ a, (logWrites a bs v).length = bs.length := by
  induction bs with
  | nil => intro a; rfl
  | cons b bs ih =>
    intro a
    rw [logWrites, List.length_cons, ih, List.length_cons]

theorem mem_logWrites (bs : List Nat) : ∀ a, ∀ w ∈ logWrites a bs v,
    a ≤ w.1 ∧ w.1 < a + bs.length := by
  induction bs with
  | nil =>
    intro a w hw
    cases hw
  | cons b bs ih =>
    intro a w hw
    rw [logWrites] at hw
    rw [List.length_cons]
    rcases List.mem_cons.mp hw with rfl | hw
    · dsimp only
      omega
    · have := ih (a+1) w hw
      omega

theorem logWrites_congr (bs : List Nat) (h : ∀ b ∈ bs, u b = v b) : ∀ a,
    logWrites a bs u = logWrites a bs v := by
  induction bs with
  | nil => intro a; rfl
  | cons b bs ih =>
    intro a
    rw [logWrites, logWrites, h b (by simp), ih fun x hx => h x (List.mem_cons_of_mem _ hx)]

theorem installs_congr (bs : List Nat) : ∀ a, (∀ x, a ≤ x → x < a + bs.length → u x = v x) →
    installs a bs u = installs a bs v := by
  induction bs with
  | nil => intro a _; rfl
  | cons b bs ih =>
    intro a h
    rw [List.length_cons] at h
    rw [installs, installs, h a le_rfl (by omega),
      ih (a+1) fun x h1 h2 => h x (by omega) (by omega)]

theorem installs_fst (bs : List Nat) : ∀ a, (installs a bs v).map Prod.fst = bs := by
  induction bs with
  | nil => intro a; rfl
  | cons b bs ih =>
    intro a
    rw [installs, List.map_cons, ih]

theorem mem_installs {bs : List Nat} {a : Nat} {w : Nat × Bytes} (h : w ∈ installs a bs v) :
    w.1 ∈ bs := by
  rw [← installs_fst bs a (v := v)]
  exact List.mem_map.mpr ⟨w, h, rfl⟩

theorem installs_logWrites (bs : List Nat) : ∀ (a : Nat) (u : Nat → Bytes),
    installs a bs (applyWrites u (logWrites a bs v)) = bs.map fun b => (b, v b) := by
  induction bs with
  | nil => intro a u; rfl
  | cons b bs ih =>
    intro a u
    have hfirst : applyWrites u (logWrites a (b :: bs) v) a = v b := by
      rw [logWrites, applyWrites_cons, applyWrites_of_not_mem]
      · exact update_self _ _ _
      · intro w hw
        have := (mem_logWrites bs (a+1) w hw).1
        omega
    rw [installs, hfirst, List.map_cons, logWrites, applyWrites_cons, ih]

end Lists

section Loops
variable {s : Store}

theorem writeLogLoop_spec (bs : List Nat) : ∀ (a : Nat) (s : Store),
    (∀ b ∈ bs, ¬ (a ≤ b ∧ b < a + bs.length)) →
    Runs (writeLogLoop bs a) s fun _ s' => Wrote s s' (logWrites a bs s.view) := by
  induction bs with
  | nil =>
    intro a s _
    exact (runs_pure _).mpr (Wrote.refl s)
  | cons b bs ih =>
    intro a s hout
    rw [List.length_cons] at hout
    unfold writeLogLoop
    refine (bread_spec s a).bind ?_
    rintro _ s1 ⟨-, h1⟩
    refine (bread_spec s1 b).bind ?_
    rintro data s2 ⟨hdata, h2⟩
    refine (bwrite_spec s2 a data).bind ?_
    intro _ s3 h3
    have h13 : Wrote s s3 [(a, data)] := (h1.trans h2).trans h3
    refine (ih (a+1) s3 ?_).imp ?_
    · intro x hx
      have := hout x (List.mem_cons_of_mem _ hx)
      omega
    · intro _ s' h4
      have hdata' : data = s.view b := by
        rw [hdata, h1.view]
        rfl
      have hview : logWrites (a+1) bs s3.view = logWrites (a+1) bs s.view := by
        apply logWrites_congr
        intro x hx
        have hne := hout x (List.mem_cons_of_mem _ hx)
        exact h13.view_of_ne (by dsimp only; omega)
      have h := h13.trans h4
      rw [hview, hdata'] at h
      exact h

theorem installLoop_spec (bs : List Nat) : ∀ (a : Nat) (s : Store),
    (∀ b ∈ bs, ¬ (a ≤ b ∧ b < a + bs.length)) →
    Runs (installLoop bs a) s fun _ s' => Wrote s s' (installs a bs s.view) := by
  induction bs with
  | nil =>
    intro a s _
    exact (runs_pure _).mpr (Wrote.refl s)
  | cons b bs ih =>
    intro a s hout
    rw [List.length_cons] at hout
    unfold installLoop
    refine (bread_spec s a).bind ?_
    rintro data s1 ⟨hdata, h1⟩
    refine (bread_spec s1 b).bind ?_
    rintro _ s2 ⟨-, h2⟩
    refine (bwrite_spec s2 b data).bind ?_
    intro _ s3 h3
    have h13 : Wrote s s3 [(b, data)] := (h1.trans h2).trans h3
    refine (ih (a+1) s3 ?_).imp ?_
    · intro x hx
      have := hout x (List.mem_cons_of_mem _ hx)
      omega
    · intro _ s' h4
      have hview : installs (a+1) bs s3.view = installs (a+1) bs s.view := by
        apply installs_congr
        intro x hx1 hx2
        have hne := hout b (by simp)
        exact h13.view_of_ne (by dsimp only; omega)
      have h := h13.trans h4
      rw [hview, hdata] at h
      exact h

theorem write_head_spec (s : Store) : Runs write_head s fun _ s' =>
    Wrote s s' [(s.start, setHeader (s.view s.start) s.lh)] := by
  unfold write_head
  rw [runs_bind, runs_get]
  refine (bread_spec s s.start).bind ?_
  rintro data s1 ⟨hdata, h1⟩
  refine (bwrite_spec s1 s.start _).imp ?_
  intro _ s' h2
  rw [hdata] at h2
  exact h1.trans h2

/-- The blocks of the log in memory do not matter for what was written. -/
theorem Wrote.with_lh {s s' : Store} {ws : List (Nat × Bytes)} (h : Wrote s s' ws)
    (lh : List Nat) : Wrote { s with lh := lh } { s' with lh := lh } ws :=
  ⟨h.start, h.size, h.disk, h.view, h.writes, rfl, h.outstanding⟩

end Loops

section Redo
variable {start size : Nat} {d T : Nat → Bytes}

/-- A recovery from this disk gives the home blocks `T`. -/
structure Sound (start size : Nat) (d T : Nat → Bytes) : Prop where
  array : (headerBlocks (d start)).length ≤ LOGSIZE
  fits : (headerBlocks (d start)).length ≤ size-1
  home : ∀ b ∈ headerBlocks (d start), Home start size b
  state : ∀ b, Home start size b →
    applyWrites d (installs (start+1) (headerBlocks (d start)) d) b = T b

theorem Sound.not_log (h : Sound start size d T) {b : Nat} (hb : b ∈ headerBlocks (d start)) :
    ¬ (start+1 ≤ b ∧ b < start+1 + (headerBlocks (d start)).length) := by
  intro hc
  have hfits := h.fits
  exact h.home b hb ⟨by omega, by omega⟩

theorem start_ne_home {b : Nat} (h : Home start size b) : b ≠ start := by
  rintro rfl
  exact h ⟨le_rfl, Nat.le_add_right _ _⟩

theorem headerBlocks_clear (hb : Bytes) : headerBlocks (setHeader hb []) = [] := by
  apply headerBlocks_setHeader
  · decide
  · intro b hb
    cases hb

/-- Writes to home blocks that go no further than the transaction in the log. -/
theorem Sound.install (h : Sound start size d T) (j : Nat) :
    Sound start size
      (applyWrites d ((installs (start+1) (headerBlocks (d start)) d).take j)) T := by
  set ws := installs (start+1) (headerBlocks (d start)) d with hws
  have hkeep (x : Nat) (hx : LogBlock start size x) : applyWrites d (ws.take j) x = d x := by
    apply applyWrites_of_not_mem
    intro w hw hwx
    exact h.home _ (mem_installs (List.mem_of_mem_take hw)) (hwx ▸ hx)
  have hstart : applyWrites d (ws.take j) start = d start :=
    hkeep start ⟨le_rfl, Nat.le_add_right _ _⟩
  have hsame : installs (start+1) (headerBlocks (d start)) (applyWrites d (ws.take j)) = ws := by
    apply installs_congr
    intro x hx1 hx2
    have hfits := h.fits
    exact hkeep x ⟨by omega, by omega⟩
  refine ⟨?_, ?_, ?_, ?_⟩
  · rw [hstart]
    exact h.array
  · rw [hstart]
    exact h.fits
  · rw [hstart]
    exact h.home
  · intro b hb
    rw [hstart, hsame, applyWrites_take_all]
    exact h.state b hb

/-- The installed transaction with the header erased, or any part of these writes. -/
theorem Sound.redo (h : Sound start size d T) (hb : Bytes) (j : Nat) :
    Sound start size (applyWrites d ((installs (start+1) (headerBlocks (d start)) d ++
      [(start, setHeader hb [])]).take j)) T := by
  set ws := installs (start+1) (headerBlocks (d start)) d with hws
  by_cases hj : j ≤ ws.length
  · rw [List.take_append_of_le_length hj]
    exact h.install j
  · rw [List.take_of_length_le (by rw [List.length_append, List.length_singleton]; omega),
      applyWrites_append]
    have hhead : headerBlocks (applyWrites (applyWrites d ws) [(start, setHeader hb [])] start) =
        [] := by
      rw [applyWrites_cons, applyWrites_nil, update_self, headerBlocks_clear]
    refine ⟨?_, ?_, ?_, ?_⟩
    · rw [hhead]
      exact Nat.zero_le _
    · rw [hhead]
      exact Nat.zero_le _
    · rw [hhead]
      intro b hb
      cases hb
    · intro b hb'
      rw [hhead, installs, applyWrites_nil, applyWrites_cons, applyWrites_nil,
        update_of_ne (start_ne_home hb')]
      exact h.state b hb'

theorem Sound.recover (h : Sound start size d T) :
    Runs recover_from_log (bootStore start size d) fun _ s =>
      s.writes = installs (start+1) (headerBlocks (d start)) d ++
        [(start, setHeader (d start) [])] ∧ s.disk = applyWrites d s.writes := by
  unfold recover_from_log
  rw [runs_bind]
  have hread : Runs read_head (bootStore start size d) fun _ s =>
      Wrote { bootStore start size d with lh := headerBlocks (d start) } s [] := by
    unfold read_head
    rw [runs_bind, runs_get]
    refine (bread_spec _ _).bind ?_
    rintro data s1 ⟨hdata, h1⟩
    have hdata' : data = d start := hdata
    rw [runs_bind, runs_panicIf, runs_modify, hdata']
    exact ⟨not_lt.mpr h.array, h1.with_lh _⟩
  refine hread.imp ?_
  intro _ s1 h1
  have hlh : s1.lh = headerBlocks (d start) := h1.lh
  have hst : s1.start = start := h1.start
  have hview : s1.view = d := h1.view
  rw [runs_bind]
  unfold install_trans
  rw [runs_bind, runs_get, hlh, hst]
  refine (installLoop_spec _ (start+1) s1 fun b hb => h.not_log hb).imp ?_
  intro _ s2 h2
  rw [runs_bind, runs_modify]
  refine (write_head_spec _).imp ?_
  intro _ s3 h3
  have h23 := ((h1.trans h2).with_lh []).trans h3
  -- No home block is the header, so it is erased as it was read.
  have hhead : s2.view start = d start := by
    rw [h2.view, hview]
    apply applyWrites_of_not_mem
    intro w hw
    exact start_ne_home (h.home _ (mem_installs hw))
  have hst2 : s2.start = start := h2.start.trans hst
  have hw := h23.writes
  have hd := h23.disk
  change s3.writes = [] ++ ([] ++ installs (start+1) (headerBlocks (d start)) s1.view ++
    [(s2.start, setHeader (s2.view s2.start) [])]) at hw
  change s3.disk = applyWrites d ([] ++ installs (start+1) (headerBlocks (d start)) s1.view ++
    [(s2.start, setHeader (s2.view s2.start) [])]) at hd
  rw [List.nil_append, List.nil_append, hst2, hhead, hview] at hw
  rw [List.nil_append, hst2, hhead, hview, ← hw] at hd
  exact ⟨hw, hd⟩

theorem Sound.crashes {d' : Nat → Bytes} (h : Sound start size d T)
    (hc : Crashes start size d d') : Sound start size d' T := by
  induction hc with
  | none => exact h
  | crash j _ hrun ih =>
    have hws := (ih.recover.of_eq hrun).1
    rw [hws]
    exact ih.redo _ j

theorem Sound.recovered {d' : Nat → Bytes} (h : Sound start size d T)
    (hc : Crashes start size d d') :
    Runs recover_from_log (bootStore start size d') fun _ s =>
      ∀ b, Home start size b → s.disk b = T b := by
  have h' := h.crashes hc
  refine h'.recover.imp ?_
  rintro _ s ⟨hws, hd⟩ b hb
  rw [hd, hws, applyWrites_append, applyWrites_cons, applyWrites_nil,
    update_of_ne (start_ne_home hb)]
  exact h'.state b hb

end Redo

section Commit
variable {start size : Nat} {s : Store}

/-- Blocks were changed in the cache and listed in the log, and nothing was written. -/
structure Listed (s s' : Store) (ws : List (Nat × Bytes)) : Prop where
  start : s'.start = s.start
  size : s'.size = s.size
  disk : s'.disk = s.disk
  view : s'.view = applyWrites s.view ws
  writes : s'.writes = s.writes
  lh : s'.lh = s.lh ++ ws.map Prod.fst
  outstanding : s'.outstanding = s.outstanding

theorem logAll_spec (ws : List (Nat × Bytes)) : ∀ s : Store, 1 ≤ s.outstanding →
    (s.lh ++ ws.map Prod.fst).Nodup → s.lh.length + ws.length ≤ s.size-1 →
    s.lh.length + ws.length ≤ LOGSIZE → Runs (logAll ws) s fun _ s' => Listed s s' ws := by
  induction ws with
  | nil =>
    intro s _ _ _ _
    exact (runs_pure _).mpr ⟨rfl, rfl, rfl, rfl, rfl, by simp, rfl⟩
  | cons w ws ih =>
    intro s hout hnd hsize harr
    rw [List.length_cons] at hsize harr
    unfold logAll
    refine (bread_spec s w.1).bind ?_
    rintro _ s1 ⟨-, h1⟩
    have hlh := h1.lh
    have hsz := h1.size
    have ho := h1.outstanding
    have hnew : w.1 ∉ s.lh := by
      intro hin
      exact (List.nodup_append.mp hnd).2.2 w.1 hin w.1 (by simp) rfl
    unfold setData log_write
    simp only [runs_bind, runs_modify, runs_get, runs_panicIf, runs_set]
    refine ⟨?_, ?_, ?_⟩
    · rw [hlh, hsz]
      omega
    · rw [ho]
      omega
    · rw [hlh, if_neg hnew]
      refine (ih _ ?_ ?_ ?_ ?_).imp ?_
      · change 1 ≤ s1.outstanding
        rw [ho]
        exact hout
      · change (s.lh ++ [w.1] ++ ws.map Prod.fst).Nodup
        rw [List.append_assoc]
        exact hnd
      · change (s.lh ++ [w.1]).length + ws.length ≤ s1.size-1
        rw [hsz, List.length_append, List.length_singleton]
        omega
      · change (s.lh ++ [w.1]).length + ws.length ≤ LOGSIZE
        rw [List.length_append, List.length_singleton]
        omega
      · intro _ s' h2
        refine ⟨h2.start.trans h1.start, h2.size.trans hsz, h2.disk.trans h1.disk, ?_,
          h2.writes.trans (by simpa using h1.writes), ?_, h2.outstanding.trans ho⟩
        · rw [h2.view, applyWrites_cons]
          congr 1
          have hv := view_update s1 w.1 w.2
          rw [h1.view] at hv
          exact hv
        · rw [h2.lh]
          simp

def commitWrites (start : Nat) (bs : List Nat) (v : Nat → Bytes) : List (Nat × Bytes) :=
  logWrites (start+1) bs v ++ ((start, setHeader (v start) bs) ::
    (bs.map (fun b => (b, v b)) ++ [(start, setHeader (setHeader (v start) bs) [])]))

theorem commit_spec (s : Store) (hne : s.lh ≠ []) (hfits : s.lh.length ≤ s.size-1)
    (hhome : ∀ b ∈ s.lh, Home s.start s.size b) :
    Runs commit s fun _ s' => Wrote { s with lh := [] } s' (commitWrites s.start s.lh s.view) := by
  have hpos : 0 < s.lh.length := List.length_pos_of_ne_nil hne
  have hout : ∀ b ∈ s.lh, ¬ (s.start+1 ≤ b ∧ b < s.start+1 + s.lh.length) := by
    intro b hb hc
    exact hhome b hb ⟨by omega, by omega⟩
  unfold commit write_log
  rw [runs_bind, runs_get, if_pos hpos, runs_bind, runs_bind, runs_get]
  refine (writeLogLoop_spec s.lh _ s hout).imp ?_
  intro _ s1 h1
  refine (write_head_spec s1).bind ?_
  intro _ s2 h2
  have hst2 : s2.start = s.start := h2.start.trans h1.start
  have hlh2 : s2.lh = s.lh := h2.lh.trans h1.lh
  have hv1 : s1.view s.start = s.view s.start := by
    rw [h1.view]
    apply applyWrites_of_not_mem
    intro w hw
    have := (mem_logWrites _ _ w hw).1
    omega
  rw [h1.start, h1.lh, hv1] at h2
  unfold install_trans
  rw [runs_bind, runs_bind, runs_get, hlh2, hst2]
  refine (installLoop_spec s.lh _ s2 hout).imp ?_
  intro _ s3 h3
  -- The blocks that come from the log are the ones that went into it.
  have hinst : installs (s.start+1) s.lh s2.view = s.lh.map fun b => (b, s.view b) := by
    rw [h2.view, h1.view, ← installs_logWrites s.lh (s.start+1) s.view]
    apply installs_congr
    intro x hx _
    rw [applyWrites_cons, applyWrites_nil]
    exact update_of_ne (by omega) _ _
  rw [hinst] at h3
  have hst3 : s3.start = s.start := h3.start.trans hst2
  have hv3 : s3.view s.start = setHeader (s.view s.start) s.lh := by
    rw [h3.view, applyWrites_of_not_mem, h2.view, applyWrites_cons, applyWrites_nil,
      update_self]
    intro w hw
    obtain ⟨b, hb, rfl⟩ := List.mem_map.mp hw
    exact start_ne_home (hhome b hb)
  rw [runs_bind, runs_modify]
  refine (write_head_spec _).imp ?_
  intro _ s4 h4
  have h := (((h1.trans h2).trans h3).with_lh []).trans h4
  change Wrote _ s4 (_ ++ [(s3.start, setHeader (s3.view s3.start) [])]) at h
  rw [hst3, hv3, List.append_assoc, List.append_assoc, List.singleton_append] at h
  exact h

/-- The disk in the middle of a commit: the old state as long as the header is not
written, and the new one from then on. -/
theorem commit_sound {d v : Nat → Bytes} (t : Tx start size)
    (hhead : headerBlocks (d start) = []) (hv : v = applyWrites d t.blocks) (k : Nat) :
    Sound start size
      (applyWrites d ((commitWrites start (t.blocks.map Prod.fst) v).take k))
      (if k ≤ t.blocks.length then d else applyWrites d t.blocks) := by
  set bs := t.blocks.map Prod.fst with hbs
  have hlen : (logWrites (start+1) bs v).length = t.blocks.length := by
    rw [length_logWrites, hbs, List.length_map]
  have hbhome : ∀ b ∈ bs, Home start size b := by
    intro b hb
    obtain ⟨w, hw, rfl⟩ := List.mem_map.mp hb
    exact (t.home w hw).2
  -- The blocks of the log proper are no home blocks and not the header.
  have hlog (w : Nat × Bytes) (hw : w ∈ logWrites (start+1) bs v) :
      w.1 ≠ start ∧ ∀ b, Home start size b → w.1 ≠ b := by
    have hm := mem_logWrites bs (start+1) w hw
    have hfits := t.fits
    have hlb : bs.length = t.blocks.length := List.length_map _
    refine ⟨by omega, fun b hb hwb => ?_⟩
    apply hb
    rw [← hwb]
    exact ⟨by omega, by omega⟩
  by_cases hk : k ≤ t.blocks.length
  · rw [if_pos hk]
    unfold commitWrites
    rw [List.take_append_of_le_length (by omega)]
    have hstart : applyWrites d ((logWrites (start+1) bs v).take k) start = d start :=
      applyWrites_of_not_mem d fun w hw => (hlog w (List.mem_of_mem_take hw)).1
    refine ⟨?_, ?_, ?_, ?_⟩
    · rw [hstart, hhead]
      exact Nat.zero_le _
    · rw [hstart, hhead]
      exact Nat.zero_le _
    · rw [hstart, hhead]
      intro b hb
      cases hb
    · intro b hb
      rw [hstart, hhead, installs, applyWrites_nil]
      exact applyWrites_of_not_mem d fun w hw => (hlog w (List.mem_of_mem_take hw)).2 b hb
  · rw [if_neg hk]
    -- The disk once the header is written.
    set d1 := update (applyWrites d (logWrites (start+1) bs v)) start
      (setHeader (v start) bs) with hd1
    have hd1start : headerBlocks (d1 start) = bs := by
      rw [hd1, update_self]
      apply headerBlocks_setHeader
      · have harr := t.array
        rw [hbs, List.length_map]
        exact lt_of_le_of_lt harr (by decide)
      · intro b hb
        obtain ⟨w, hw, rfl⟩ := List.mem_map.mp hb
        exact (t.home w hw).1
    have hblocks : (bs.map fun b => (b, v b)) = t.blocks := by
      rw [hbs, List.map_map]
      conv_rhs => rw [← List.map_id t.blocks]
      apply List.map_congr_left
      intro w hw
      have hvw : v w.1 = w.2 := by
        rw [hv]
        exact applyWrites_of_mem d t.nodup hw
      change (w.1, v w.1) = w
      rw [hvw]
    have hinst : installs (start+1) bs d1 = t.blocks := by
      rw [← hblocks, ← installs_logWrites bs (start+1) d]
      apply installs_congr
      intro x hx _
      exact update_of_ne (by omega) _ _
    have hsound : Sound start size d1 (applyWrites d t.blocks) := by
      refine ⟨?_, ?_, ?_, ?_⟩
      · rw [hd1start, hbs, List.length_map]
        exact t.array
      · rw [hd1start, hbs, List.length_map]
        exact t.fits
      · rw [hd1start]
        exact hbhome
      · intro b hb
        rw [hd1start, hinst]
        apply applyWrites_congr
        right
        rw [hd1, update_of_ne (start_ne_home hb)]
        exact applyWrites_of_not_mem d fun w hw => (hlog w hw).2 b hb
    have hredo := hsound.redo (setHeader (v start) bs) (k - t.blocks.length - 1)
    rw [hd1start, hinst] at hredo
    unfold commitWrites
    rw [hblocks, List.take_append, hlen, List.take_of_length_le (by omega), applyWrites_append,
      show k - t.blocks.length = (k - t.blocks.length - 1) + 1 by omega, List.take_succ_cons,
      applyWrites_cons]
    exact hredo

/-- A transaction from begin to end: its writes, and a clean machine after it. -/
theorem Tx.run_spec (t : Tx start size) (h : Clean start size s) :
    Runs t.run s fun _ s' => Clean start size s' ∧
      (∀ b, Home start size b → s'.disk b = applyWrites s.disk t.blocks b) ∧
      ∃ ws, s'.writes = s.writes ++ ws ∧ ∀ k, Sound start size (applyWrites s.disk (ws.take k))
        (if k ≤ t.blocks.length then s.disk else applyWrites s.disk t.blocks) := by
  obtain ⟨hst, hsz⟩ := h.place
  unfold Tx.run begin_op
  rw [runs_bind, runs_modify]
  refine (logAll_spec t.blocks _ (Nat.le_add_left 1 _) ?_ ?_ ?_).bind ?_
  · change (s.lh ++ _).Nodup
    rw [h.lh]
    exact t.nodup
  · change s.lh.length + _ ≤ s.size-1
    rw [h.lh, hsz, List.length_nil, Nat.zero_add]
    exact t.fits
  · change s.lh.length + _ ≤ LOGSIZE
    rw [h.lh, List.length_nil, Nat.zero_add]
    exact t.array
  intro _ s1 h1
  have hlh : s1.lh = t.blocks.map Prod.fst := by
    rw [h1.lh]
    change s.lh ++ _ = _
    rw [h.lh, List.nil_append]
  have hst1 : s1.start = start := h1.start.trans hst
  have hsz1 : s1.size = size := h1.size.trans hsz
  have hview1 : s1.view = applyWrites s.disk t.blocks := by
    have hv : s1.view = applyWrites s.view t.blocks := h1.view
    rw [hv, h.view]
  have hdisk1 : s1.disk = s.disk := h1.disk
  have hout1 : s1.outstanding - 1 = 0 := by
    rw [h1.outstanding]
    change s.outstanding + 1 - 1 = 0
    rw [h.outstanding]
  unfold end_op
  rw [runs_bind, runs_modify, runs_bind, runs_get, if_pos hout1]
  by_cases hne : t.blocks = []
  · -- Nothing was logged, and `commit` has nothing to do.
    have hlh0 : s1.lh = [] := by rw [hlh, hne]; rfl
    have hlen0 : ¬ 0 < s1.lh.length := by rw [hlh0]; exact lt_irrefl 0
    unfold commit
    rw [runs_bind, runs_get, if_neg hlen0, runs_pure]
    have hv : s1.view = s1.disk := by rw [hview1, hdisk1, hne]; rfl
    refine ⟨⟨⟨hst1, hsz1⟩, hlh0, hout1, ?_, hv⟩, ?_, [], ?_, ?_⟩
    · change headerBlocks (s1.disk start) = []
      rw [hdisk1]
      exact h.header
    · intro b _
      change s1.disk b = _
      rw [hdisk1, hne]
      rfl
    · rw [List.append_nil]
      exact h1.writes
    · intro k
      have hs := commit_sound t h.header rfl 0
      rw [List.take_zero, if_pos (Nat.zero_le _)] at hs
      rw [List.take_nil, hne, applyWrites_nil, ite_self]
      exact hs
  · have hhome : ∀ b ∈ s1.lh, Home s1.start s1.size b := by
      rw [hst1, hsz1, hlh]
      intro b hb
      obtain ⟨w, hw, rfl⟩ := List.mem_map.mp hb
      exact (t.home w hw).2
    refine (commit_spec { s1 with outstanding := s1.outstanding-1 } ?_ ?_ hhome).imp ?_
    · change s1.lh ≠ []
      rw [hlh]
      simpa using hne
    · change s1.lh.length ≤ s1.size-1
      rw [hlh, hsz1, List.length_map]
      exact t.fits
    intro _ s2 h2
    have hcw : commitWrites s1.start s1.lh s1.view =
        commitWrites start (t.blocks.map Prod.fst) s1.view := by rw [hst1, hlh]
    change Wrote _ s2 (commitWrites s1.start s1.lh s1.view) at h2
    rw [hcw] at h2
    have hsound := commit_sound t h.header hview1
    set ws := commitWrites start (t.blocks.map Prod.fst) s1.view with hws
    have hdisk2 : s2.disk = applyWrites s.disk ws := by
      rw [h2.disk]
      change applyWrites s1.disk ws = _
      rw [hdisk1]
    have hwrites2 : s2.writes = s.writes ++ ws := by
      rw [h2.writes]
      change s1.writes ++ ws = _
      rw [h1.writes]
    -- The whole commit leaves an erased header and the new home blocks.
    have hlen : ws.length = 2*t.blocks.length+2 := by
      simp only [hws, commitWrites, List.length_append, length_logWrites, List.length_cons,
        List.length_map, List.length_nil]
      omega
    have hall := hsound ws.length
    rw [List.take_length, if_neg (by omega), ← hdisk2] at hall
    have hhead2 : headerBlocks (s2.disk start) = [] := by
      rw [hdisk2, hws, commitWrites, applyWrites_append, applyWrites_cons, applyWrites_append,
        applyWrites_cons, applyWrites_nil, update_self, headerBlocks_clear]
    have hstate2 (b : Nat) (hb : Home start size b) :
        s2.disk b = applyWrites s.disk t.blocks b := by
      have := hall.state b hb
      rw [hhead2, installs, applyWrites_nil] at this
      exact this
    refine ⟨⟨⟨h2.start.trans hst1, h2.size.trans hsz1⟩, h2.lh, h2.outstanding.trans hout1, hhead2,
      ?_⟩, hstate2, ws, hwrites2, hsound⟩
    -- Every block that was changed in the cache has been written home.
    funext b
    rw [h2.view, hdisk2]
    change applyWrites s1.view ws b = _
    apply applyWrites_congr
    by_cases hb : ∃ w ∈ t.blocks, w.1 = b
    · left
      obtain ⟨w, hw, rfl⟩ := hb
      refine ⟨(w.1, s1.view w.1), ?_, rfl⟩
      rw [hws, commitWrites]
      apply List.mem_append_right
      apply List.mem_cons_of_mem
      apply List.mem_append_left
      exact List.mem_map.mpr ⟨w.1, List.mem_map.mpr ⟨w, hw, rfl⟩, rfl⟩
    · right
      rw [hview1]
      apply applyWrites_of_not_mem
      intro w hw hwb
      exact hb ⟨w, hw, hwb⟩

theorem Clean.sound (h : Clean start size s) : Sound start size s.disk s.disk := by
  refine ⟨?_, ?_, ?_, ?_⟩
  · rw [h.header]
    exact Nat.zero_le _
  · rw [h.header]
    exact Nat.zero_le _
  · rw [h.header]
    intro b hb
    cases hb
  · intro b _
    rw [h.header]
    rfl

theorem Sound.congr {d T T' : Nat → Bytes} (h : Sound start size d T)
    (hT : ∀ b, Home start size b → T b = T' b) : Sound start size d T' :=
  ⟨h.array, h.fits, h.home, fun b hb => (h.state b hb).trans (hT b hb)⟩

/-- After whole transactions the machine is clean and its home blocks are theirs. -/
theorem Commits.clean {s0 : Store} {txs : List (Tx start size)} (hrun : Commits start size s0 txs s)
    (h0 : Clean start size s0) :
    Clean start size s ∧ ∀ b, Home start size b → s.disk b = after s0.disk txs b := by
  induction hrun with
  | nil => exact ⟨h0, fun b _ => rfl⟩
  | @recache s1 txs cache _ hcache ih =>
    obtain ⟨hc, hd⟩ := ih
    refine ⟨⟨hc.place, hc.lh, hc.outstanding, hc.header, ?_⟩, hd⟩
    funext b
    simp only [Store.view]
    cases hb : cache b with
    | none => rfl
    | some data => exact hcache b data hb
  | @commit s1 s2 txs t _ hrun ih =>
    obtain ⟨hc, hd⟩ := ih
    obtain ⟨hc', hd', -⟩ := (t.run_spec hc).of_eq hrun
    refine ⟨hc', fun b hb => ?_⟩
    rw [hd' b hb]
    unfold after
    rw [List.foldl_append, List.foldl_cons, List.foldl_nil]
    apply applyWrites_congr
    exact Or.inr (hd b hb)

/-- A crash between two transactions, or after any of the writes of the next one,
and any number of crashes during recovery: the home blocks hold the transactions
that were committed, and the one in progress wholly or not at all. -/
theorem log_crash_atomic {start size : Nat} {s0 s : Store} {txs : List (Tx start size)}
    (h0 : Clean start size s0) (hrun : Commits start size s0 txs s) :
    (∀ d, Crashes start size s.disk d →
      Runs recover_from_log (bootStore start size d) fun _ s' =>
        ∀ b, Home start size b → s'.disk b = after s0.disk txs b) ∧
    ∀ t : Tx start size, Runs t.run s fun _ s1 => ∃ ws, s1.writes = s.writes ++ ws ∧
      ∀ k d, Crashes start size (applyWrites s.disk (ws.take k)) d →
        Runs recover_from_log (bootStore start size d) fun _ s' =>
          ∃ j, (j = txs.length ∨ j = txs.length+1) ∧
            ∀ b, Home start size b → s'.disk b = after s0.disk ((txs ++ [t]).take j) b := by
  obtain ⟨hc, hd⟩ := hrun.clean h0
  constructor
  · intro d hcr
    exact (hc.sound.congr hd).recovered hcr
  · intro t
    refine (t.run_spec hc).imp ?_
    rintro _ s1 ⟨-, -, ws, hws, hsound⟩
    refine ⟨ws, hws, fun k d hcr => ?_⟩
    have hs := hsound k
    by_cases hk : k ≤ t.blocks.length
    · rw [if_pos hk] at hs
      refine ((hs.congr hd).recovered hcr).imp ?_
      intro _ s' hs'
      refine ⟨txs.length, Or.inl rfl, fun b hb => ?_⟩
      rw [List.take_left]
      exact hs' b hb
    · rw [if_neg hk] at hs
      refine (hs.recovered hcr).imp ?_
      intro _ s' hs'
      refine ⟨txs.length+1, Or.inr rfl, fun b hb => ?_⟩
      rw [List.take_of_length_le (by rw [List.length_append, List.length_singleton]), hs' b hb]
      unfold after
      rw [List.foldl_append, List.foldl_cons, List.foldl_nil]
      apply applyWrites_congr
      exact Or.inr (hd b hb)

def oneBlock : Tx 2 30 where
  blocks := [(40, fun _ => 7)]
  nodup := List.nodup_singleton 40
  fits := by decide
  array := by decide
  home w hw := by
    rw [List.mem_singleton] at hw
    rw [hw]
    refine ⟨by decide, fun hc => ?_⟩
    exact absurd hc.2 (by decide)

theorem log_crash_atomic_one : ∃ s0 s : Store, Clean 2 30 s0 ∧ Commits 2 30 s0 [oneBlock] s ∧
    ∀ d, Crashes 2 30 s.disk d → Runs recover_from_log (bootStore 2 30 d) fun _ s' =>
      ∀ b, Home 2 30 b → s'.disk b = after s0.disk [oneBlock] b := by
  have h0 : Clean 2 30 (bootStore 2 30 fun _ _ => 0) := ⟨⟨rfl, rfl⟩, rfl, rfl, by decide, rfl⟩
  obtain ⟨_, s, hrun, -⟩ := oneBlock.run_spec h0
  have hcom : Commits 2 30 (bootStore 2 30 fun _ _ => 0) [oneBlock] s :=
    Commits.commit Commits.nil hrun
  exact ⟨_, s, h0, hcom, (log_crash_atomic h0 hcom).1⟩

end Commit

end Xv6
