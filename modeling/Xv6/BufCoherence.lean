import Xv6.FsDir
import Xv6.LogCrash

/-! The buffer cache against the disk and the log, over all the functions of
`kernel/fs.c`. A function that changes a buffer gives it to `log_write`, except where
the copy of `writei` fails in the middle. -/
namespace Xv6

open Function

def Coherent (s : Store) : Prop :=
  ∀ b data, s.cache b = some data → b ∉ s.lh → data = s.disk b

/-- Every block that has changed is in the log. -/
structure Logs (s s' : Store) : Prop where
  disk : s'.disk = s.disk
  lh : ∀ b ∈ s.lh, b ∈ s'.lh
  view : ∀ b, s'.view b ≠ s.view b → b ∈ s'.lh

section Logs
variable {s s' s'' : Store}

theorem coherent_iff : Coherent s ↔ ∀ b, b ∉ s.lh → s.view b = s.disk b := by
  constructor
  · intro h b hb
    unfold Store.view
    cases hc : s.cache b with
    | none => rfl
    | some data => exact h b data hc hb
  · intro h b data hc hb
    have hv := h b hb
    unfold Store.view at hv
    rw [hc] at hv
    exact hv

theorem Logs.refl (s : Store) : Logs s s := ⟨rfl, fun _ h => h, fun _ h => absurd rfl h⟩

theorem Logs.trans (h : Logs s s') (h' : Logs s' s'') : Logs s s'' := by
  refine ⟨h'.disk.trans h.disk, fun b hb => h'.lh b (h.lh b hb), ?_⟩
  intro b hb
  by_cases hmid : s''.view b = s'.view b
  · exact h'.lh b (h.view b (hmid ▸ hb))
  · exact h'.view b hmid

theorem Logs.coherent (h : Logs s s') (hc : Coherent s) : Coherent s' := by
  rw [coherent_iff] at hc ⊢
  intro b hb
  have hold : b ∉ s.lh := fun hin => hb (h.lh b hin)
  have hsame : s'.view b = s.view b := by
    by_contra hne
    exact hb (h.view b hne)
  rw [hsame, h.disk]
  exact hc b hold

theorem Wrote.logs (h : Wrote s s' []) : Logs s s' := by
  refine ⟨h.disk, fun b hb => h.lh ▸ hb, ?_⟩
  intro b hb
  exact absurd (congrFun h.view b) hb

end Logs

section Steady
variable {σ α β : Type} {π : σ → Store}

/-- Whatever state it starts in, the code logs what it changes. -/
def Steady (π : σ → Store) (x : Prog σ α) : Prop := ∀ s, Ends x s fun _ s' => Logs (π s) (π s')

theorem steady_pure (a : α) : Steady π (pure a) := by
  intro s
  exact ends_pure (Logs.refl _)

theorem steady_throw (e : String) : Steady π (throw e : Prog σ α) := by
  intro s
  exact ends_of_panic rfl

theorem steady_get : Steady π (get : Prog σ σ) := by
  intro s
  exact Runs.ends (runs_get.mpr (Logs.refl _))

theorem steady_modify {g : σ → σ} (h : ∀ s, π (g s) = π s) :
    Steady π (modify g : Prog σ PUnit) := by
  intro s
  refine (runs_modify.mpr ?_).ends
  rw [h s]
  exact Logs.refl _

theorem steady_bind {x : Prog σ β} {f : β → Prog σ α} (hx : Steady π x)
    (hf : ∀ b, Steady π (f b)) : Steady π (x >>= f) := by
  intro s
  refine (hx s).bind ?_
  intro b t ht
  refine (hf b t).imp ?_
  intro a t' ht'
  exact ht.trans ht'

theorem steady_ite {c : Prop} [Decidable c] {x y : Prog σ α} (hx : Steady π x)
    (hy : Steady π y) : Steady π (if c then x else y) := by
  split_ifs
  · exact hx
  · exact hy

theorem steady_panicIf {c : Prop} [Decidable c] (e : String) :
    Steady π (panicIf c e : Prog σ Unit) := steady_ite (steady_throw e) (steady_pure ())

theorem steady_disk {x : Prog Store α} (h : Steady id x) : Steady Fs.st (disk x) := by
  intro s
  exact ends_zoom (h s.st)

theorem steady_bread (b : Nat) : Steady id (bread b) := by
  intro s
  refine (bread_spec s b).ends.imp ?_
  intro _ s' h
  exact h.2.logs

theorem steady_logged (b : Nat) (f : Bytes → Bytes) : Steady id (logged b f) := by
  intro s _ s' hrun
  have hruns : Runs (logged b f) s fun _ t => t = s' := ⟨_, s', hrun, rfl⟩
  unfold logged setData log_write at hruns
  simp only [runs_bind, runs_get, runs_modify, runs_panicIf, runs_set] at hruns
  obtain ⟨-, -, rfl⟩ := hruns
  have hin : b ∈ if b ∈ s.lh then s.lh else s.lh ++ [b] := by
    split_ifs with hb
    · exact hb
    · simp
  refine ⟨rfl, ?_, ?_⟩
  · intro x hx
    change x ∈ if b ∈ s.lh then s.lh else s.lh ++ [b]
    split_ifs
    · exact hx
    · exact List.mem_append_left _ hx
  · intro x hx
    have hxb : x = b := by
      by_contra hne
      apply hx
      exact (congrFun (view_update s b _) x).trans (update_of_ne hne _ _)
    rw [hxb]
    exact hin

end Steady

section Blocks

theorem steady_bzero (b : Nat) : Steady id (bzero b) :=
  steady_bind (steady_bread b) fun _ => steady_logged b _

variable [FsLayout]

theorem steady_ballocLoop (n : Nat) : ∀ b, Steady id (ballocLoop n b) := by
  induction n with
  | zero =>
    intro b
    exact steady_throw _
  | succ n ih =>
    intro b
    apply steady_bind (steady_bread _)
    intro data
    cases freeBit data b with
    | none => exact ih _
    | some bi =>
      apply steady_bind (steady_logged _ _)
      intro _
      apply steady_bind (steady_bzero _)
      intro _
      exact steady_pure _

theorem steady_balloc : Steady id balloc := steady_ballocLoop _ _

theorem steady_bfree (b : Nat) : Steady id (bfree b) := by
  apply steady_bind (steady_bread _)
  intro data
  apply steady_bind (steady_panicIf _)
  intro _
  exact steady_logged _ _

end Blocks

section Inodes

theorem steady_setCell (ip : ISlot) (c : Icell) : Steady Fs.st (setCell ip c) :=
  steady_modify fun _ => rfl

theorem steady_setMem (ip : ISlot) (d : Dinode) : Steady Fs.st (setMem ip d) :=
  steady_modify fun _ => rfl

theorem steady_setAddr (ip : ISlot) (k : Fin (NDIRECT+1)) (b : Nat) :
    Steady Fs.st (setAddr ip k b) :=
  steady_bind steady_get fun _ => steady_setMem ip _

theorem steady_iget (inum : Nat) : Steady Fs.st (iget inum) := by
  apply steady_bind steady_get
  intro s
  cases cachedSlot s.cell inum with
  | some ip => exact steady_bind (steady_setCell ip _) fun _ => steady_pure ip
  | none =>
    cases emptySlot s.cell with
    | some ip => exact steady_bind (steady_setCell ip _) fun _ => steady_pure ip
    | none => exact steady_throw _

theorem steady_idup (ip : ISlot) : Steady Fs.st (idup ip) :=
  steady_bind steady_get fun _ => steady_setCell ip _

theorem steady_iunlock (ip : ISlot) : Steady Fs.st (iunlock ip) := by
  apply steady_bind steady_get
  intro s
  exact steady_bind (steady_panicIf _) fun _ => steady_setCell ip _

variable [FsLayout]

theorem steady_iupdate (ip : ISlot) : Steady Fs.st (iupdate ip) := by
  apply steady_bind steady_get
  intro s
  exact steady_bind (steady_disk (steady_bread _)) fun _ => steady_disk (steady_logged _ _)

theorem steady_iallocLoop (type : BitVec 16) (n : Nat) :
    ∀ inum, Steady Fs.st (iallocLoop type n inum) := by
  induction n with
  | zero =>
    intro inum
    exact steady_throw _
  | succ n ih =>
    intro inum
    apply steady_bind (steady_disk (steady_bread _))
    intro data
    apply steady_ite
    · exact steady_bind (steady_disk (steady_logged _ _)) fun _ => steady_iget inum
    · exact ih _

theorem steady_ilock (ip : ISlot) : Steady Fs.st (ilock ip) := by
  apply steady_bind steady_get
  intro s
  apply steady_bind (steady_panicIf _)
  intro _
  apply steady_bind (steady_panicIf _)
  intro _
  apply steady_ite
  · exact steady_setCell ip _
  · apply steady_bind (steady_disk (steady_bread _))
    intro data
    apply steady_bind (steady_setMem ip _)
    intro _
    exact steady_bind (steady_setCell ip _) fun _ => steady_panicIf _

theorem steady_bmapAddr (ip : ISlot) (k : Fin (NDIRECT+1)) : Steady Fs.st (bmapAddr ip k) := by
  apply steady_bind steady_get
  intro s
  apply steady_ite
  · apply steady_bind (steady_disk steady_balloc)
    intro b
    exact steady_bind (steady_setAddr ip k b) fun _ => steady_pure b
  · exact steady_pure _

theorem steady_bmap (ip : ISlot) (bn : Nat) : Steady Fs.st (bmap ip bn) := by
  unfold bmap
  apply steady_ite
  · exact steady_bmapAddr ip _
  · apply steady_ite
    · apply steady_bind (steady_bmapAddr ip _)
      intro ind
      apply steady_bind (steady_disk (steady_bread ind))
      intro a
      apply steady_ite
      · apply steady_bind (steady_disk steady_balloc)
        intro b
        exact steady_bind (steady_disk (steady_logged ind _)) fun _ => steady_pure b
      · exact steady_pure _
    · exact steady_throw _

theorem steady_itruncDirect (ip : ISlot) (ks : List (Fin (NDIRECT+1))) :
    Steady Fs.st (itruncDirect ip ks) := by
  induction ks with
  | nil => exact steady_pure ()
  | cons k ks ih =>
    apply steady_bind steady_get
    intro s
    apply steady_ite
    · apply steady_bind (steady_disk (steady_bfree _))
      intro _
      exact steady_bind (steady_setAddr ip k 0) fun _ => ih
    · exact ih

theorem steady_itruncIndirect (addr n : Nat) : ∀ j, Steady id (itruncIndirect addr n j) := by
  induction n with
  | zero =>
    intro j
    exact steady_pure ()
  | succ n ih =>
    intro j
    apply steady_bind steady_get
    intro s
    apply steady_ite
    · exact steady_bind (steady_bfree _) fun _ => ih _
    · exact ih _

theorem steady_itrunc (ip : ISlot) : Steady Fs.st (itrunc ip) := by
  have hend : Steady Fs.st (do
      let s ← get
      setMem ip { s.mem ip with size := 0 }
      iupdate ip) := by
    apply steady_bind steady_get
    intro s
    exact steady_bind (steady_setMem ip _) fun _ => steady_iupdate ip
  apply steady_bind (steady_itruncDirect ip _)
  intro _
  apply steady_bind steady_get
  intro s
  apply steady_ite
  · apply steady_bind (steady_disk (steady_bread _))
    intro _
    apply steady_bind (steady_disk (steady_itruncIndirect _ _ _))
    intro _
    apply steady_bind (steady_disk (steady_bfree _))
    intro _
    exact steady_bind (steady_setAddr ip _ 0) fun _ => hend
  · exact hend

theorem steady_iput (ip : ISlot) : Steady Fs.st (iput ip) := by
  have hend : Steady Fs.st (do
      let s ← get
      setCell ip { s.cell ip with ref := (s.cell ip).ref - 1 }) :=
    steady_bind steady_get fun _ => steady_setCell ip _
  apply steady_bind steady_get
  intro s
  apply steady_ite
  · apply steady_bind (steady_panicIf _)
    intro _
    apply steady_bind (steady_setCell ip _)
    intro _
    apply steady_bind (steady_itrunc ip)
    intro _
    apply steady_bind steady_get
    intro s
    apply steady_bind (steady_setMem ip _)
    intro _
    apply steady_bind (steady_iupdate ip)
    intro _
    apply steady_bind steady_get
    intro s
    exact steady_bind (steady_setCell ip _) fun _ => hend
  · exact hend

theorem steady_readi {δ : Type} (copy : δ → List UInt8 → Except String (Int × δ)) (ip : ISlot) (dst : δ)
    (off n : Nat) : Steady Fs.st (readi copy ip dst off n) := by
  have hloop (n k : Nat) : ∀ tot off dst, Steady Fs.st (readLoop copy ip n k tot off dst) := by
    induction k with
    | zero =>
      intro tot off dst
      exact steady_pure _
    | succ k ih =>
      intro tot off dst
      apply steady_ite
      · apply steady_bind (steady_bmap ip _)
        intro b
        apply steady_bind (steady_disk (steady_bread b))
        intro data
        dsimp only
        cases copy dst _ with
        | error e => exact steady_throw e
        | ok p => exact steady_ite (steady_pure _) (ih _ _ _)
      · exact steady_pure _
  apply steady_bind steady_get
  intro s
  apply steady_ite
  · exact steady_pure _
  · exact hloop _ _ _ _ _

end Inodes

/-- No piece of the source that `writei` copies into one block begins at an address
that can be read and ends at one that cannot. -/
def Source.Untorn (off n : Nat) : Source → Prop
  | .kernel _ => True
  | .user mem va => ∀ tot, tot < n → tot = 0 ∨ (off+tot) % BSIZE = 0 →
    mem.userByte ((va+tot) % 2^64) →
    mem.userByte ((va+tot) % 2^64 + (min (n-tot) (BSIZE - (off+tot)%BSIZE) - 1))

section Torn

/-- A copy of at most a page that fails has copied nothing, unless its last byte is the
one that cannot be read. -/
theorem copyin_fails {m : UserMem} {va len : Nat} (hlen : len ≤ PGSIZE)
    (hends : m.userByte va → m.userByte (va + (len-1))) (hfail : (m.copyin va len).1 = -1) :
    (m.copyin va len).2 = [] := by
  obtain ⟨u, hu, hrun⟩ := copyin_upto m va len
  rw [hrun] at hfail ⊢
  have hlt : u < len := by
    apply Nat.lt_of_le_of_ne hu.le
    intro hall
    rw [if_pos hall] at hfail
    cases hfail
  by_cases hz : u = 0
  · rw [hz]
    rfl
  · -- The byte that is missing is on the page of the first one or on that of the last.
    exfalso
    have hfirst : m.userByte va := hu.user 0 (Nat.pos_of_ne_zero hz)
    have hlast := hends hfirst
    apply hu.stop hlt
    refine ⟨by have := hlast.1; omega, ?_⟩
    have hpage : (va+u)/PGSIZE = va/PGSIZE ∨ (va+u)/PGSIZE = (va + (len-1))/PGSIZE := by
      unfold PGSIZE at *
      omega
    rcases hpage with hp | hp
    · rw [hp]
      exact hfirst.2
    · rw [hp]
      exact hlast.2

theorem either_copyin_fails {src : Source} {off n tot : Nat} (h : src.Untorn off n)
    (htot : tot < n) (hstart : tot = 0 ∨ (off+tot) % BSIZE = 0)
    (hfail : (src.either_copyin tot (min (n-tot) (BSIZE - (off+tot)%BSIZE))).1 = -1) :
    (src.either_copyin tot (min (n-tot) (BSIZE - (off+tot)%BSIZE))).2 = [] := by
  cases src with
  | kernel bytes =>
    change (0 : Int) = -1 at hfail
    cases hfail
  | user mem va =>
    apply copyin_fails ?_ (h tot htot hstart) hfail
    have h1 : BSIZE = 1024 := rfl
    have h2 : PGSIZE = 4096 := rfl
    omega

end Torn

section Writes
variable [FsLayout] {ip : ISlot} {src : Source} {off n : Nat}

theorem writeLoop_logs (h : src.Untorn off n) (k : Nat) : ∀ (tot : Nat) (s : Fs),
    tot = 0 ∨ (off+tot) % BSIZE = 0 ∨ n ≤ tot →
    Ends (writeLoop ip src n k tot (off+tot)) s fun _ s' => Logs s.st s'.st := by
  induction k with
  | zero =>
    intro tot s _
    exact ends_pure (Logs.refl _)
  | succ k ih =>
    intro tot s hstart
    unfold writeLoop
    split_ifs with htot
    · have hstart' : tot = 0 ∨ (off+tot) % BSIZE = 0 := by omega
      refine (steady_bmap ip _ s).bind ?_
      intro b s1 h1
      apply ends_bind
      have hread : Ends (disk (bread b)) s1 fun data s2 => data = s2.st.view b ∧
          Logs s1.st s2.st := by
        refine Runs.ends (runs_zoom.mpr ((bread_spec s1.st b).imp ?_))
        intro data t ht
        refine ⟨?_, ht.2.logs⟩
        rw [ht.1]
        exact (congrFun ht.2.view b).symm
      refine hread.imp ?_
      intro data s2 ⟨hdata, h2⟩
      dsimp only
      split_ifs with hfail
      · -- Nothing was copied, so the buffer is as it was.
        rw [either_copyin_fails h htot hstart' hfail, blit_nil]
        apply ends_bind
        refine Runs.ends (runs_zoom.mpr (runs_modify.mpr ?_))
        apply ends_pure
        have hsame : ({ s2.st with cache := update s2.st.cache b (some data) } : Store).view
            = s2.st.view := by
          rw [view_update, hdata]
          exact update_eq_self b s2.st.view
        refine (h1.trans h2).trans ⟨rfl, fun _ hb => hb, ?_⟩
        intro x hx
        exact absurd (congrFun hsame x) hx
      · refine (steady_disk (steady_logged b _) s2).bind ?_
        intro _ s3 h3
        rw [Nat.add_assoc]
        refine (ih _ s3 ?_).imp ?_
        · -- The next piece begins at a block boundary, or there is none.
          have hb : BSIZE = 1024 := rfl
          rw [hb]
          omega
        · intro _ s4 h4
          exact ((h1.trans h2).trans h3).trans h4
    · exact ends_pure (Logs.refl _)

theorem writei_logs (h : src.Untorn off n) (s : Fs) :
    Ends (writei ip src off n) s fun _ s' => Logs s.st s'.st := by
  unfold writei
  apply ends_get
  split_ifs
  · exact ends_pure (Logs.refl _)
  · exact ends_pure (Logs.refl _)
  · refine (writeLoop_logs h n 0 s (Or.inl rfl)).bind ?_
    intro r s1 h1
    dsimp only
    have hend : Steady Fs.st (do
        iupdate ip
        pure r.2) := steady_bind (steady_iupdate ip) fun _ => steady_pure _
    split_ifs
    · apply ends_get
      split_ifs
      · refine (steady_bind (steady_setMem ip _) (fun _ => hend) s1).imp ?_
        intro _ s2 h2
        exact h1.trans h2
      · refine (hend s1).imp ?_
        intro _ s2 h2
        exact h1.trans h2
    · exact ends_pure h1

/-- Calls of the inode layer that copy no user memory. -/
def FsCall.Inside : ∀ β, FsCall β → Prop
  | _, .writei _ src _ _ => ∃ bytes, src = .kernel bytes
  | _, _ => True

theorem fsImpl_logs {β : Type} (c : FsCall β) (hc : FsCall.Inside β c) :
    Steady Fs.st (fsImpl β c) := by
  cases c with
  | iget inum => exact steady_iget inum
  | idup ip => exact steady_idup ip
  | iput ip => exact steady_iput ip
  | attr ip => exact steady_bind steady_get fun _ => steady_pure _
  | readi ip off n => exact steady_readi kernelCopy ip [] off n
  | writei ip src off n =>
    obtain ⟨bytes, rfl⟩ := hc
    intro s
    have hwhole : (Source.kernel bytes).Untorn off n := trivial
    exact writei_logs hwhole s
  | sys => exact steady_bind steady_get fun _ => steady_pure _
  | setSys sys => exact steady_modify fun _ => rfl

section
omit [FsLayout]

theorem only_panicIf {c : Prop} [Decidable c] {C : Type → Type} {p : ∀ β, C β → Prop}
    (e : String) : (Code.panicIf c e).Only p := by
  unfold Code.panicIf
  split_ifs <;> trivial

theorem dirlookup_inside (dp : ISlot) (name : List UInt8) :
    (dirlookup dp name).Only FsCall.Inside := by
  have hloop (size k : Nat) : ∀ off,
      (dirlookupLoop dp name size k off).Only FsCall.Inside := by
    induction k with
    | zero =>
      intro off
      trivial
    | succ k ih =>
      intro off
      unfold dirlookupLoop
      split_ifs
      · apply only_bind (only_perform trivial)
        intro r
        apply only_bind (only_panicIf _)
        intro _
        split_ifs
        · exact ih _
        · exact only_bind (only_perform trivial) fun _ => trivial
        · exact ih _
      · trivial
  apply only_bind (only_perform trivial)
  intro d
  exact only_bind (only_panicIf _) fun _ => hloop _ _ _

theorem dirlink_inside (dp : ISlot) (name : List UInt8) (inum : Nat) :
    (dirlink dp name inum).Only FsCall.Inside := by
  have hloop (size k : Nat) : ∀ off, (emptyDirent dp size k off).Only FsCall.Inside := by
    induction k with
    | zero =>
      intro off
      trivial
    | succ k ih =>
      intro off
      unfold emptyDirent
      split_ifs
      · apply only_bind (only_perform trivial)
        intro r
        apply only_bind (only_panicIf _)
        intro _
        split_ifs
        · trivial
        · exact ih _
      · trivial
  apply only_bind (dirlookup_inside dp name)
  intro r
  cases r with
  | some x => exact only_bind (only_perform trivial) fun _ => trivial
  | none =>
    apply only_bind (only_perform trivial)
    intro d
    apply only_bind (hloop _ _ _)
    intro off
    apply only_bind (only_perform ⟨_, rfl⟩)
    intro r
    exact only_bind (only_panicIf _) fun _ => trivial

end

theorem dirlink_coherent (dp : ISlot) (name : List UInt8) (inum : Nat) {s : Fs}
    (h : Coherent s.st) :
    Ends ((dirlink dp name inum).run fsImpl) s fun _ s' => Coherent s'.st := by
  apply (dirlink_inside dp name inum).keeps (I := fun s : Fs => Coherent s.st)
  · intro β c s hc hs
    refine (fsImpl_logs c hc s).imp ?_
    intro _ s' hs'
    exact hs'.coherent hs
  · exact h

end Writes

section Commit
variable {s s' : Store}

theorem Wrote.same {ws : List (Nat × Bytes)} (h : Wrote s s' ws) {b : Nat}
    (hb : (∃ w ∈ ws, w.1 = b) ∨ s.view b = s.disk b) : s'.view b = s'.disk b := by
  rw [h.view, h.disk]
  exact applyWrites_congr hb

theorem writeLogLoop_writes (bs : List Nat) : ∀ (a : Nat) (s : Store),
    Runs (writeLogLoop bs a) s fun _ s' => ∃ ws, Wrote s s' ws := by
  induction bs with
  | nil =>
    intro a s
    exact (runs_pure _).mpr ⟨[], Wrote.refl s⟩
  | cons b bs ih =>
    intro a s
    unfold writeLogLoop
    refine (bread_spec s a).bind ?_
    intro _ s1 h1
    refine (bread_spec s1 b).bind ?_
    intro data s2 h2
    refine (bwrite_spec s2 a data).bind ?_
    intro _ s3 h3
    refine (ih (a+1) s3).imp ?_
    intro _ s4 hpost
    obtain ⟨ws, h4⟩ := hpost
    exact ⟨_, ((h1.2.trans h2.2).trans h3).trans h4⟩

theorem installLoop_writes (bs : List Nat) : ∀ (a : Nat) (s : Store),
    Runs (installLoop bs a) s fun _ s' => ∃ ws, Wrote s s' ws ∧ ∀ b ∈ bs, ∃ w ∈ ws, w.1 = b := by
  induction bs with
  | nil =>
    intro a s
    refine (runs_pure _).mpr ⟨[], Wrote.refl s, ?_⟩
    intro b hb
    cases hb
  | cons b bs ih =>
    intro a s
    unfold installLoop
    refine (bread_spec s a).bind ?_
    intro data s1 h1
    refine (bread_spec s1 b).bind ?_
    intro _ s2 h2
    refine (bwrite_spec s2 b data).bind ?_
    intro _ s3 h3
    refine (ih (a+1) s3).imp ?_
    intro _ s4 hpost
    obtain ⟨ws, h4, hmem⟩ := hpost
    refine ⟨_, ((h1.2.trans h2.2).trans h3).trans h4, ?_⟩
    intro x hx
    rcases List.mem_cons.mp hx with rfl | hx
    · exact ⟨(x, data), by simp, rfl⟩
    · obtain ⟨w, hw, hwx⟩ := hmem x hx
      exact ⟨w, List.mem_append_right _ hw, hwx⟩

/-- `commit` empties the log, and every buffer equals its disk block. -/
theorem commit_coherent (h : Coherent s) : Runs commit s fun _ s' => Coherent s' := by
  rw [coherent_iff] at h
  unfold commit
  rw [runs_bind, runs_get]
  by_cases hpos : 0 < s.lh.length
  · rw [if_pos hpos]
    unfold write_log
    rw [runs_bind, runs_bind, runs_get]
    refine (writeLogLoop_writes _ _ s).imp ?_
    intro _ s1 ⟨ws1, h1⟩
    refine (write_head_spec s1).bind ?_
    intro _ s2 h2
    unfold install_trans
    rw [runs_bind, runs_bind, runs_get]
    refine (installLoop_writes _ _ s2).imp ?_
    intro _ s3 ⟨ws3, h3, hall⟩
    rw [runs_bind, runs_modify]
    refine (write_head_spec _).imp ?_
    intro _ s4 h4
    have hlh : s2.lh = s.lh := h2.lh.trans h1.lh
    rw [coherent_iff]
    intro b _
    apply h4.same
    right
    change s3.view b = s3.disk b
    apply h3.same
    by_cases hb : b ∈ s.lh
    · exact Or.inl (hall b (hlh ▸ hb))
    · exact Or.inr (h2.same (Or.inr (h1.same (Or.inr (h b hb)))))
  · rw [if_neg hpos, runs_pure]
    exact coherent_iff.mpr h

theorem end_op_coherent (h : Coherent s) : Runs end_op s fun _ s' => Coherent s' := by
  unfold end_op
  rw [runs_bind, runs_modify, runs_bind, runs_get]
  split_ifs
  · exact commit_coherent h
  · exact (runs_pure _).mpr h

end Commit

section Runs
variable [FsLayout]

def bootFs (disk : Nat → Bytes) (sys : Sys) : Fs where
  st := bootStore sb.logstart sb.nlog disk
  cell _ := ⟨0, 0, false, false⟩
  mem _ := Dinode.new 0
  sys := sys

/-- The functions of `fs.c`, the two ends of a transaction, and the loss of a buffer
that `bget` gives to another block. -/
inductive BufferOp
  | readi (copy : List UInt8 → List UInt8 → Except String (Int × List UInt8)) (ip : ISlot) (off n : Nat)
  | writei (ip : ISlot) (src : Source) (off n : Nat)
  | bmap (ip : ISlot) (bn : Nat)
  | balloc
  | bfree (b : Nat)
  | iupdate (ip : ISlot)
  | itrunc (ip : ISlot)
  | ialloc (type : BitVec 16)
  | iget (inum : Nat)
  | idup (ip : ISlot)
  | ilock (ip : ISlot)
  | iunlock (ip : ISlot)
  | iput (ip : ISlot)
  | dirlink (dp : ISlot) (name : List UInt8) (inum : Nat)
  | begin_op
  | end_op
  | evict (b : Nat)

/-- The log pins its buffers. -/
def BufferOp.enabled (s : Fs) : BufferOp → Prop
  | .evict b => b ∉ s.st.lh
  | _ => True

def BufferOp.run : BufferOp → Prog Fs Unit
  | .readi copy ip off n => do let _ ← Xv6.readi copy ip [] off n
  | .writei ip src off n => do let _ ← Xv6.writei ip src off n
  | .bmap ip bn => do let _ ← Xv6.bmap ip bn
  | .balloc => do let _ ← disk Xv6.balloc
  | .bfree b => disk (Xv6.bfree b)
  | .iupdate ip => Xv6.iupdate ip
  | .itrunc ip => Xv6.itrunc ip
  | .ialloc type => do let _ ← Xv6.ialloc type
  | .iget inum => do let _ ← Xv6.iget inum
  | .idup ip => Xv6.idup ip
  | .ilock ip => Xv6.ilock ip
  | .iunlock ip => Xv6.iunlock ip
  | .iput ip => Xv6.iput ip
  | .dirlink dp name inum => do let _ ← (Xv6.dirlink dp name inum).run fsImpl
  | .begin_op => disk Xv6.begin_op
  | .end_op => disk Xv6.end_op
  | .evict b => disk (modify fun st => { st with cache := update st.cache b none })

/-- The states from a restart on, by operations that satisfy `may`. -/
inductive BuffersReachable (may : BufferOp → Prop) (d : Nat → Bytes) (sys : Sys) : Fs → Prop
  | boot : BuffersReachable may d sys (bootFs d sys)
  | step {s s' : Fs} {op : BufferOp} : BuffersReachable may d sys s → op.enabled s → may op →
      op.run s = .ok ((), s') → BuffersReachable may d sys s'

def BufferOp.Untorn : BufferOp → Prop
  | .writei _ src off n => src.Untorn off n
  | _ => True

omit [FsLayout] in
theorem steady_drop {α : Type} {x : Prog Fs α} (h : Steady Fs.st x) :
    Steady Fs.st (do let _ ← x) := steady_bind h fun _ => steady_pure _

theorem BufferOp.run_coherent {op : BufferOp} {s : Fs} (h : Coherent s.st) (he : op.enabled s)
    (hop : op.Untorn) : Ends op.run s fun _ s' => Coherent s'.st := by
  have hsteady {x : Prog Fs Unit} (hx : Steady Fs.st x) : Ends x s fun _ s' => Coherent s'.st := by
    refine (hx s).imp ?_
    intro _ s' hs'
    exact hs'.coherent h
  cases op with
  | readi copy ip off n => exact hsteady (steady_drop (steady_readi copy ip [] off n))
  | writei ip src off n =>
    refine (writei_logs hop s).bind ?_
    intro _ s' hs'
    exact ends_pure (hs'.coherent h)
  | bmap ip bn => exact hsteady (steady_drop (steady_bmap ip bn))
  | balloc => exact hsteady (steady_drop (steady_disk steady_balloc))
  | bfree b => exact hsteady (steady_disk (steady_bfree b))
  | iupdate ip => exact hsteady (steady_iupdate ip)
  | itrunc ip => exact hsteady (steady_itrunc ip)
  | ialloc type => exact hsteady (steady_drop (steady_iallocLoop type _ _))
  | iget inum => exact hsteady (steady_drop (steady_iget inum))
  | idup ip => exact hsteady (steady_idup ip)
  | ilock ip => exact hsteady (steady_ilock ip)
  | iunlock ip => exact hsteady (steady_iunlock ip)
  | iput ip => exact hsteady (steady_iput ip)
  | dirlink dp name inum =>
    refine (dirlink_coherent dp name inum h).bind ?_
    intro _ s' hs'
    exact ends_pure hs'
  | begin_op =>
    apply hsteady
    apply steady_disk
    intro s
    exact (runs_modify.mpr ⟨rfl, fun _ h => h, fun _ h => absurd rfl h⟩).ends
  | end_op => exact (runs_zoom.mpr (end_op_coherent h)).ends
  | evict b =>
    have hruns : Runs (BufferOp.evict b).run s fun _ s' => s' = { s with
        st := { s.st with cache := update s.st.cache b none } } := ⟨_, _, rfl, rfl⟩
    refine hruns.ends.imp ?_
    rintro _ s' rfl x data hx hl
    by_cases hxb : x = b
    · rw [hxb] at hx
      cases (update_self b none s.st.cache).symm.trans hx
    · exact h x data ((update_of_ne hxb _ _).symm.trans hx) hl

/-- As long as no copy of `writei` fails in the middle of a block, the cache is coherent
with the disk and the log. -/
theorem buffers_coherent {d : Nat → Bytes} {sys : Sys} {s : Fs}
    (h : BuffersReachable BufferOp.Untorn d sys s) : Coherent s.st := by
  induction h with
  | boot =>
    intro b data hb
    cases hb
  | step _ he hop hrun ih => exact BufferOp.run_coherent ih he hop () _ hrun

end Runs

/-- The disk that `mkfs` lays out for `FSSIZE` blocks and 200 inodes. -/
@[reducible] def sampleFs : FsLayout where
  sb := ⟨1000, 200, 30, 2, 32, 45⟩

def twoBytes : Nat → Bytes :=
  update (fun _ _ => 0) 32 (putDinode (fun _ => 0) 1
    { Dinode.new T_FILE with nlink := 1, size := 2, addrs := fun k => if k = 0 then 46 else 0 })

def onePage : UserMem := ⟨fun v => decide (v = 0), fun _ _ => 7⟩

def noFiles : Sys where
  file _ := ⟨.FD_NONE, 0, false, false, 0, 0, 0, 0⟩
  proc _ := ⟨false, none, fun _ => none⟩
  pipe _ := none
  npipe := 0
  freed _ := 0

section Torn

instance (mem : UserMem) (va : Nat) : Decidable (mem.userByte va) :=
  inferInstanceAs (Decidable (_ ∧ _))

instance Source.decidableUntorn (src : Source) (off n : Nat) : Decidable (src.Untorn off n) :=
  match src with
  | .kernel _ => inferInstanceAs (Decidable True)
  | .user mem va => inferInstanceAs (Decidable (∀ tot, tot < n → tot = 0 ∨ (off+tot) % BSIZE = 0 →
      mem.userByte ((va+tot) % 2^64) →
      mem.userByte ((va+tot) % 2^64 + (min (n-tot) (BSIZE - (off+tot)%BSIZE) - 1))))

instance BufferOp.decidableUntorn (op : BufferOp) : Decidable op.Untorn :=
  match op with
  | .writei _ src off n => inferInstanceAs (Decidable (src.Untorn off n))
  | .readi .. | .bmap .. | .balloc | .bfree .. | .iupdate .. | .itrunc .. | .ialloc .. | .iget ..
  | .idup .. | .ilock .. | .iunlock .. | .iput .. | .dirlink .. | .begin_op | .end_op | .evict .. =>
    inferInstanceAs (Decidable True)

instance BufferOp.decidableEnabled (s : Fs) (op : BufferOp) : Decidable (op.enabled s) :=
  match op with
  | .evict b => inferInstanceAs (Decidable (b ∉ s.st.lh))
  | .readi .. | .writei .. | .bmap .. | .balloc | .bfree .. | .iupdate .. | .itrunc .. | .ialloc ..
  | .iget .. | .idup .. | .ilock .. | .iunlock .. | .iput .. | .dirlink .. | .begin_op | .end_op =>
    inferInstanceAs (Decidable True)

variable [FsLayout]

theorem BuffersReachable.exec {may : BufferOp → Prop} [DecidablePred may] {d : Nat → Bytes}
    {sys : Sys} {ops : List BufferOp} {s s' : Fs} (h : BuffersReachable may d sys s)
    (he : runSteps (fun s op => op.enabled s ∧ may op) BufferOp.run ops s = some s') :
    BuffersReachable may d sys s' :=
  runSteps_keeps _ _ (fun _ _ _ h he hrun => h.step he.1 he.2 hrun) ops h he

end Torn

def writeTwo (va : Nat) : List BufferOp :=
  [.begin_op, .iget 1, .ilock 0, .writei 0 (.user onePage va) 0 2, .iunlock 0, .evict 2]

theorem buffers_coherent_whole : let _ := sampleFs
    ∃ s : Fs, BuffersReachable BufferOp.Untorn twoBytes noFiles s ∧ s.st.view 46 0 = 7 ∧
      Coherent s.st := by
  let _ := sampleFs
  have hexec : ((runSteps (fun s op => op.enabled s ∧ op.Untorn) BufferOp.run (writeTwo 0)
      (bootFs twoBytes noFiles)).any fun s => decide (s.st.view 46 0 = 7)) = true := by
    decide +kernel
  obtain ⟨s, hs, hend⟩ := (Option.any_eq_true _ _).mp hexec
  have hreach := BuffersReachable.boot.exec hs
  exact ⟨s, hreach, of_decide_eq_true hend, buffers_coherent hreach⟩

/-- When the second byte cannot be read, the first one is in the buffer after `writei`,
and neither on disk nor in the log. -/
theorem torn_write_incoherent : let _ := sampleFs
    ∃ s : Fs, BuffersReachable (fun _ => True) twoBytes noFiles s ∧ ¬ Coherent s.st := by
  let _ := sampleFs
  have hexec : ((runSteps (fun s op => BufferOp.enabled s op ∧ True) BufferOp.run (writeTwo 4095)
      (bootFs twoBytes noFiles)).any
      fun s => decide (46 ∉ s.st.lh ∧ s.st.view 46 0 ≠ s.st.disk 46 0)) = true := by
    decide +kernel
  obtain ⟨s, hs, hend⟩ := (Option.any_eq_true _ _).mp hexec
  obtain ⟨hlh, hne⟩ := of_decide_eq_true hend
  have hreach : BuffersReachable (fun _ => True) twoBytes noFiles s :=
    BuffersReachable.boot.exec hs
  refine ⟨s, hreach, ?_⟩
  intro hc
  exact hne (congrFun (coherent_iff.mp hc 46 hlh) 0)

end Xv6
