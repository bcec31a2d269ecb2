import Xv6.FsArrays

/-! Which blocks code passes to `log_write`. The log lists the blocks that were passed since it
was empty, so a bound for its list is one for them. -/
namespace Xv6

open Function

/-- The log lists blocks of `L`, from before, and of `W`. -/
structure LogHolds (L W : List Nat) (s : Store) : Prop where
  nodup : s.lh.Nodup
  mem : ∀ b ∈ s.lh, b ∈ L ∨ b ∈ W

/-- The log is too small only if it has no room for `N` blocks besides those of `L`. -/
def Quota (L : List Nat) (N size : Nat) (e : String) : Prop :=
  e = "too big a transaction" → min LOGSIZE (size-1) ≤ L.length + N

/-- `x` passes blocks to `log_write`, and those passed before and now are in a list `W'` with
`Q`. There are at most `N` of them, whenever `x` passes one. -/
def Passes {σ α : Type} (st : σ → Store) (N : Nat) (L W : List Nat) (x : Prog σ α) (s : σ)
    (Q : α → List Nat → σ → Prop) : Prop :=
  Ensures x s (Quota L N (st s).size) fun r s' =>
    ∃ W', W ⊆ W' ∧ LogHolds L W' (st s') ∧ (st s').size = (st s).size ∧ Q r W' s'

section Rules
variable {σ α β : Type} {st : σ → Store} {N : Nat} {L W : List Nat} {s : σ} {Q : α → List Nat → σ → Prop}

theorem LogHolds.length_le {s : Store} (h : LogHolds L W s) : s.lh.length ≤ L.length + W.length := by
  have hsub : s.lh ⊆ L ++ W := by
    intro b hb
    exact List.mem_append.mpr (h.mem b hb)
  have hle := (h.nodup.subperm hsub).length_le
  rwa [List.length_append] at hle

theorem LogHolds.congr {s s' : Store} (h : LogHolds L W s) (hlh : s'.lh = s.lh) : LogHolds L W s' := by
  refine ⟨?_, ?_⟩
  · rw [hlh]
    exact h.nodup
  · rw [hlh]
    exact h.mem

theorem quota_of_ne {e : String} {n : Nat} (h : e ≠ "too big a transaction") : Quota L N n e :=
  fun he => absurd he h

theorem Passes.imp {x : Prog σ α} {R : α → List Nat → σ → Prop} (h : Passes st N L W x s Q)
    (hi : ∀ r W' s', W ⊆ W' → LogHolds L W' (st s') → Q r W' s' → R r W' s') : Passes st N L W x s R := by
  refine Ensures.imp h (fun _ he => he) ?_
  intro r s' hr
  obtain ⟨W', hsub, hl, hsize, hq⟩ := hr
  exact ⟨W', hsub, hl, hsize, hi r W' s' hsub hl hq⟩

theorem passes_pure {a : α} (hl : LogHolds L W (st s)) (hq : Q a W s) : Passes st N L W (pure a) s Q :=
  ensures_pure ⟨W, List.Subset.refl W, hl, rfl, hq⟩

theorem passes_throw {e : String} (he : e ≠ "too big a transaction") :
    Passes st N L W (throw e : Prog σ α) s Q := ensures_throw (quota_of_ne he)

theorem passes_bind {x : Prog σ β} {f : β → Prog σ α}
    (hx : Passes st N L W x s fun r W' s' => Passes st N L W' (f r) s' Q) : Passes st N L W (x >>= f) s Q := by
  apply ensures_bind
  refine Ensures.imp hx (fun _ he => he) ?_
  intro r s' hr
  obtain ⟨W', hsub, hl, hsize, hq⟩ := hr
  unfold Passes at hq
  rw [hsize] at hq
  refine hq.imp (fun _ he => he) ?_
  intro r' s'' hr'
  obtain ⟨W'', hsub', hl', hsize', hq'⟩ := hr'
  exact ⟨W'', List.Subset.trans hsub hsub', hl', hsize', hq'⟩

theorem passes_get {f : σ → Prog σ α} (h : Passes st N L W (f s) s Q) : Passes st N L W (get >>= f) s Q := h

theorem passes_ite {c : Prop} [Decidable c] {x y : Prog σ α} (hx : c → Passes st N L W x s Q)
    (hy : ¬ c → Passes st N L W y s Q) : Passes st N L W (if c then x else y) s Q := ensures_ite hx hy

theorem Passes.weaken {W' : List Nat} {x : Prog σ α} (hsub : W ⊆ W') (h : Passes st N L W' x s Q) :
    Passes st N L W x s Q := by
  refine Ensures.imp h (fun _ he => he) ?_
  intro r s' hr
  obtain ⟨W'', hsub', hl, hsize, hq⟩ := hr
  exact ⟨W'', List.Subset.trans hsub hsub', hl, hsize, hq⟩

theorem LogHolds.weaken {W' : List Nat} {s : Store} (h : LogHolds L W s) (hsub : W ⊆ W') :
    LogHolds L W' s := ⟨h.nodup, fun b hb => (h.mem b hb).imp id fun hw => hsub hw⟩

theorem Passes.and {P : String → Prop} {x : Prog σ α} {R : α → σ → Prop} (h : Passes st N L W x s Q)
    (hx : Ensures x s P R) : Passes st N L W x s fun r W' s' => Q r W' s' ∧ R r s' := by
  refine ⟨?_, h.2⟩
  intro r s' hr
  obtain ⟨W', hsub, hl, hsize, hq⟩ := h.1 r s' hr
  exact ⟨W', hsub, hl, hsize, hq, hx.1 r s' hr⟩

theorem Runs.passes {x : Prog σ α} {R : α → σ → Prop} (h : Runs x s R) (hl : LogHolds L W (st s))
    (hq : ∀ r s', R r s' → (st s').lh = (st s).lh ∧ (st s').size = (st s).size ∧ Q r W s') :
    Passes st N L W x s Q := by
  refine (h.imp ?_).ensures
  intro r s' hr
  obtain ⟨hlh, hsize, hq⟩ := hq r s' hr
  exact ⟨W, List.Subset.refl W, hl.congr hlh, hsize, hq⟩

end Rules

section Blocks
variable {α : Type} {N : Nat} {L W : List Nat} {s : Store}

theorem passes_disk {x : Prog Store α} {t : Fs} {Q : α → List Nat → Fs → Prop}
    (h : Passes id N L W x t.st fun r W' st => Q r W' { t with st := st }) :
    Passes Fs.st N L W (disk x) t Q := by
  apply ensures_zoom
  exact h

def withBlock (W : List Nat) (b : Nat) : List Nat := if b ∈ W then W else b :: W

theorem subset_withBlock (b : Nat) : W ⊆ withBlock W b := by
  unfold withBlock
  split_ifs
  · exact List.Subset.refl W
  · exact List.subset_cons_self b W

theorem mem_withBlock (b : Nat) : b ∈ withBlock W b := by
  unfold withBlock
  split_ifs with hb
  · exact hb
  · exact List.mem_cons_self

theorem length_withBlock (b : Nat) :
    (withBlock W b).length = W.length + if b ∈ W then 0 else 1 := by
  unfold withBlock
  split_ifs
  · rfl
  · rfl

theorem bread_passes (hl : LogHolds L W s) (b : Nat) :
    Passes id N L W (bread b) s fun _ W' _ => W' = W := by
  apply (bread_spec s b).passes hl
  intro _ s' hr
  exact ⟨hr.2.lh, hr.2.size, rfl⟩

theorem logged_passes (hl : LogHolds L W s) (hlen : W.length ≤ N) (b : Nat) (f : Bytes → Bytes) :
    Passes id N L W (logged b f) s fun _ W' _ => W' = withBlock W b := by
  have hlh := hl.length_le
  unfold logged setData log_write
  apply ensures_get
  apply ensures_modify
  apply ensures_get
  apply ensures_panicIf
  · intro hfull _
    change LOGSIZE ≤ s.lh.length ∨ s.size-1 ≤ s.lh.length at hfull
    change min LOGSIZE (s.size-1) ≤ _
    omega
  intro _
  apply ensures_panicIf
  · intro _
    exact quota_of_ne (by decide)
  intro _
  apply ensures_set_pure
  refine ⟨withBlock W b, subset_withBlock b, ⟨?_, ?_⟩, rfl, rfl⟩
  · change (if b ∈ s.lh then s.lh else s.lh ++ [b]).Nodup
    split_ifs with hin
    · exact hl.nodup
    · exact List.nodup_append.mpr ⟨hl.nodup, List.nodup_singleton b, by
        intro x hx y hy hxy
        rw [List.mem_singleton.mp hy] at hxy
        exact hin (hxy ▸ hx)⟩
  · intro x hx
    change x ∈ (if b ∈ s.lh then s.lh else s.lh ++ [b]) at hx
    have hcase : x ∈ s.lh ∨ x = b := by
      split_ifs at hx with hin
      · exact Or.inl hx
      · exact (List.mem_append.mp hx).imp id List.mem_singleton.mp
    rcases hcase with hx | hx
    · exact (hl.mem x hx).imp id fun hw => subset_withBlock b hw
    · rw [hx]
      exact Or.inr (mem_withBlock b)

end Blocks

variable [FsLayout]

section Bmap
variable {N : Nat} {L W : List Nat} {c : Nat}

/-- What passing a block of the free map adds: nothing if they all count as passed. -/
def MapCost (W : List Nat) (c : Nat) : Prop := c = 1 ∨ ∀ b, b < sb.size → BBLOCK b ∈ W

theorem MapCost.mono {W' : List Nat} (h : MapCost W c) (hsub : W ⊆ W') : MapCost W' c :=
  h.imp id fun hall b hb => hsub (hall b hb)

theorem MapCost.length_le (h : MapCost W c) {b : Nat} (hb : b < sb.size) :
    (withBlock W (BBLOCK b)).length ≤ W.length + c := by
  rw [length_withBlock]
  rcases h with h | h
  · rw [h]
    split_ifs <;> omega
  · rw [if_pos (h b hb)]
    omega

theorem ballocLoop_passes (n : Nat) : ∀ (b : Nat) (s : Store), LogHolds L W s → MapCost W c →
    W.length + c ≤ N →
    Passes id N L W (ballocLoop n b) s fun x W' _ =>
      x ∈ W' ∧ x < sb.size ∧ W'.length ≤ W.length + c + 1 := by
  induction n with
  | zero =>
    intro b s _ _ _
    exact passes_throw (by decide)
  | succ n ih =>
    intro b s hl hc hlen
    unfold ballocLoop
    apply passes_bind
    apply (bread_passes hl (BBLOCK b)).imp
    rintro data _ s1 - hl1 rfl
    cases hbit : freeBit data b with
    | none => exact ih (b+BPB) s1 hl1 hc hlen
    | some bi =>
      have hlt := (freeBit_some hbit).2.1
      have hmap := hc.length_le (show b < sb.size by omega)
      apply passes_bind
      apply (logged_passes hl1 (by omega) (BBLOCK b) _).imp
      rintro _ _ s2 - hl2 rfl
      unfold bzero
      apply passes_bind
      apply passes_bind
      apply (bread_passes hl2 (b+bi)).imp
      rintro _ _ s3 - hl3 rfl
      apply (logged_passes hl3 (by omega) (b+bi) _).imp
      rintro _ _ s4 - hl4 rfl
      apply passes_pure hl4
      refine ⟨mem_withBlock _, hlt, ?_⟩
      rw [length_withBlock]
      split_ifs <;> omega

theorem balloc_passes {s : Store} (hl : LogHolds L W s) (hc : MapCost W c)
    (hlen : W.length + c ≤ N) :
    Passes id N L W balloc s fun x W' _ =>
      x ∈ W' ∧ x < sb.size ∧ W'.length ≤ W.length + c + 1 :=
  ballocLoop_passes _ 0 s hl hc hlen

/-- `ip->addrs[k]` is there, or becomes a new block that was passed. -/
theorem bmapAddr_passes {s : Fs} (hl : LogHolds L W s.st) (hc : MapCost W c)
    (hlen : W.length + c ≤ N) (ip : ISlot) (k : Fin (NDIRECT+1)) :
    Passes Fs.st N L W (bmapAddr ip k) s fun b W' s' =>
      (W' = W ∧ s'.mem = s.mem ∧ b = ((s.mem ip).addrs k).toNat ∧ b ≠ 0) ∨
      (((s.mem ip).addrs k).toNat = 0 ∧ b ∈ W' ∧ b < sb.size ∧ W'.length ≤ W.length + c + 1 ∧
        s'.mem = update s.mem ip ((s.mem ip).setAddr k b)) := by
  unfold bmapAddr
  apply passes_get
  apply passes_ite
  · intro hz
    apply passes_bind
    apply passes_disk
    apply (balloc_passes hl hc hlen).imp
    intro b W' st _ hl' hb
    apply passes_bind
    apply (setAddr_runs { s with st := st } ip k b).passes hl'
    rintro _ s2 rfl
    refine ⟨rfl, rfl, ?_⟩
    exact passes_pure hl' (Or.inr ⟨hz, hb.1, hb.2.1, hb.2.2, rfl⟩)
  · intro hne
    exact passes_pure hl (Or.inl ⟨rfl, rfl, rfl, hne⟩)

omit [FsLayout] in
theorem withBlock_of_mem {b : Nat} (h : b ∈ W) : withBlock W b = W := if_pos h

omit [FsLayout] in
theorem length_withBlock_le (V : List Nat) (b : Nat) : (withBlock V b).length ≤ V.length + 1 := by
  rw [length_withBlock]
  split_ifs <;> omega

theorem bmapEntry_passes {s : Fs} (hl : LogHolds L W s.st) (hc : MapCost W c) {ind : Nat}
    (hind : ind ∈ W) (hlen : W.length + (c+1) ≤ N) (e : Nat) :
    Passes Fs.st N L W (do
      let a ← disk (bread ind)
      let addr := leGet 4 a (4*e)
      if addr = 0 then
        let b ← disk balloc
        disk (logged ind fun a => leSet 4 a (4*e) b)
        pure b
      else
        pure addr) s fun b W' s' => s'.mem = s.mem ∧ (withBlock W' b).length ≤ W.length + (c+1) := by
  apply passes_bind
  apply passes_disk
  apply (bread_passes hl ind).imp
  intro a W1 st1 _ hl1 hW1
  subst hW1
  dsimp only
  apply passes_ite
  · intro _
    apply passes_bind
    apply passes_disk
    apply (balloc_passes hl1 hc (by omega)).imp
    intro b W2 st2 hsub hl2 hb
    obtain ⟨hbW, _, hle⟩ := hb
    apply passes_bind
    apply passes_disk
    apply (logged_passes hl2 (by omega) ind _).imp
    intro _ W3 st3 _ hl3 hW3
    rw [withBlock_of_mem (hsub hind)] at hW3
    subst hW3
    refine passes_pure hl3 ⟨rfl, ?_⟩
    rw [withBlock_of_mem hbW]
    omega
  · intro _
    refine passes_pure hl1 ⟨rfl, ?_⟩
    have := length_withBlock_le W1 (leGet 4 a (4*e))
    omega

/-- What it will add when a file without an indirect block gets one. -/
def pending (c : Nat) (d : Dinode) : Nat := if d.indirect = 0 then c+1 else 0

/-- `bmap`, and then `log_write` of the block. A new block adds itself and a block of the free
map. -/
theorem bmap_passes {s : Fs} {ip : ISlot} (hl : LogHolds L W s.st) (hc : MapCost W c)
    (hind : (s.mem ip).indirect ≠ 0 → (s.mem ip).indirect ∈ W)
    (hlen : W.length + (c+1) + pending c (s.mem ip) ≤ N) {bn : Nat} (hbn : bn < MAXFILE) :
    Passes Fs.st N L W (bmap ip bn) s fun b W' s' =>
      (NDIRECT ≤ bn → (s'.mem ip).indirect ≠ 0) →
      ((s'.mem ip).indirect ≠ 0 → (s'.mem ip).indirect ∈ W') ∧
        (withBlock W' b).length + pending c (s'.mem ip) ≤ W.length + (c+1) + pending c (s.mem ip) := by
  unfold bmap
  apply passes_ite
  · intro hdir
    apply (bmapAddr_passes hl hc (by omega) ip _).imp
    intro b W' s' hsub _ hb _
    rcases hb with ⟨hW', hmem, _⟩ | ⟨_, hbW, _, hlen', hmem⟩
    · have := length_withBlock_le W b
      rw [hmem, hW']
      exact ⟨hind, by omega⟩
    · have hlast : Fin.ofNat (NDIRECT+1) bn ≠ Fin.last NDIRECT := by
        intro heq
        have := congrArg Fin.val heq
        rw [← blockPlace_direct hdir, Fin.val_last] at this
        exact blockPlace_ne bn this
      have hsame : (s'.mem ip).indirect = (s.mem ip).indirect := by
        rw [hmem, update_self]
        exact setAddr_indirect_of_ne _ _ _ hlast
      refine ⟨?_, ?_⟩
      · rw [hsame]
        exact fun hne => hsub (hind hne)
      · rw [withBlock_of_mem hbW]
        unfold pending
        rw [hsame]
        omega
  · intro hdir
    have hent : bn - NDIRECT < NINDIRECT := by
      unfold MAXFILE at hbn
      omega
    rw [if_pos hent]
    apply passes_bind
    apply (bmapAddr_passes hl hc (by omega) ip (Fin.last NDIRECT)).imp
    intro ind W1 s1 hsub hl1 hb
    rcases hb with ⟨hW1, hmem, heq, hne⟩ | ⟨hz, hbW, hlt, hlen1, hmem⟩
    · -- The indirect block was there.
      have hindW : ind ∈ W1 := by
        rw [hW1, heq]
        rw [heq] at hne
        exact hind hne
      rw [← hW1] at hlen ⊢
      apply (bmapEntry_passes hl1 (hc.mono hsub) hindW (by omega) (bn-NDIRECT)).imp
      intro b W2 s2 hsub2 _ hb _
      obtain ⟨hmem2, hle⟩ := hb
      rw [hmem2, hmem]
      refine ⟨fun hne => hsub2 (hsub (hind hne)), by omega⟩
    · have hold : pending c (s.mem ip) = c+1 := if_pos hz
      rw [hold] at hlen ⊢
      apply (bmapEntry_passes hl1 (hc.mono hsub) hbW (by omega) (bn-NDIRECT)).imp
      intro b W2 s2 hsub2 _ hb hnew
      obtain ⟨hmem2, hle⟩ := hb
      have hind1 : (s2.mem ip).indirect = ind := by
        have hsize := FsLayout.size_lt
        rw [hmem2, hmem, update_self]
        exact setAddr_addrs_self _ _ ind (by omega)
      have hnone : pending c (s2.mem ip) = 0 := if_neg (hnew (by omega))
      rw [hnone, hind1]
      refine ⟨fun _ => hsub2 hbW, ?_⟩
      omega

end Bmap

section Write
variable {N : Nat} {L W : List Nat} {c : Nat} {ip : ISlot} {i : Nat} {src : Source} {n : Nat}

theorem blocks_indirect {s : Fs} {ino : Nat → Dinode} (h : InodesOk s ino) (ha : At s ip i) {bn : Nat}
    (hne : own ino s.st.data (i, blockPlace bn) ≠ 0) (hbn : NDIRECT ≤ bn) : (s.mem ip).indirect ≠ 0 := by
  rw [(h.mem_at ha).1]
  intro hz
  apply hne
  apply own_entry_none hz
  unfold blockPlace
  rw [if_neg (by omega)]
  omega

/-- One round of `writei` after `bmap`: the block is passed, unless the copy fails. -/
theorem writeChunk_passes {s : Fs} {ino : Nat → Dinode} {b bn x off : Nat} {r : Int × List UInt8}
    {rest : Prog Fs (Nat × Nat)} {Q : Nat × Nat → List Nat → Fs → Prop} (h : InodesOk s ino)
    (ht : 1 ≤ s.st.outstanding) (hl : LogHolds L W s.st) (hlen : W.length ≤ N)
    (hown : own ino s.st.data (i, blockPlace bn) = b) (hb : DataBlock b)
    (hstop : ∀ s' : Fs, s'.cell = s.cell → Q (off, minusOne) W s')
    (hrest : ∀ s' : Fs, InodesOk s' ino → s'.cell = s.cell → s'.mem = s.mem →
      1 ≤ s'.st.outstanding → LogHolds L (withBlock W b) s'.st → Passes Fs.st N L (withBlock W b) rest s' Q) :
    Passes Fs.st N L W (do
      let data ← disk (bread b)
      if r.1 = -1 then
        disk (setData b (blit data x r.2))
        pure (off, minusOne)
      else
        disk (logged b (blit · x r.2))
        rest) s Q := by
  apply passes_bind
  apply (disk_bread h.log b).passes hl
  intro data s2 hr2
  obtain ⟨_, hq2⟩ := hr2
  have h2 := hq2.inodes h
  have hl2 := hl.congr hq2.quiet.lh
  have ht2 : 1 ≤ s2.st.outstanding := by
    rw [hq2.quiet.spent.outstanding]
    exact ht
  refine ⟨hq2.quiet.lh, h2.log.size.trans h.log.size.symm, ?_⟩
  apply passes_ite
  · -- The copy failed: the buffer is changed and not logged.
    intro _
    apply passes_bind
    apply passes_disk
    apply (setData_spec h2.log hb _).passes hl2
    intro _ st3 hr3
    obtain ⟨_, _, _, hlh3, hsp3⟩ := hr3
    refine ⟨hlh3, hsp3.log.size.trans h2.log.size.symm, ?_⟩
    exact passes_pure (hl2.congr hlh3) (hstop _ hq2.cell)
  · intro _
    apply passes_bind
    apply passes_disk
    apply ((logged_passes hl2 hlen b _).and (logged_data ⟨h2.log, ht2⟩ hb _)).imp
    intro _ W3 st3 _ hl3 hr3
    obtain ⟨rfl, hu3, hd3, hdat3, hsp3, _⟩ := hr3
    have hown2 : own ino s2.st.data (i, blockPlace bn) = b := by
      rw [hq2.quiet.data, hown]
    rw [← hown2] at hdat3
    refine hrest _ (h2.content hsp3.log hu3 hdat3).1 hq2.cell hq2.mem ?_ hl3
    change 1 ≤ st3.outstanding
    rw [hsp3.outstanding]
    exact ht2

/-- The loop of `writei` from the start of a block on. Each of the `r` blocks may be new. -/
theorem writeLoop_passes (k : Nat) : ∀ (r tot off : Nat) (s : Fs)
    (ino : Nat → Dinode) (W : List Nat), InodesOk s ino → At s ip i → 1 ≤ s.st.outstanding → tot ≤ n →
    off + (n-tot) ≤ MAXFILE*BSIZE → (tot < n → off % BSIZE = 0) → n-tot ≤ r*BSIZE →
    LogHolds L W s.st → MapCost W c → ((s.mem ip).indirect ≠ 0 → (s.mem ip).indirect ∈ W) →
    W.length + (c+1)*r + pending c (s.mem ip) ≤ N →
    Passes Fs.st N L W (writeLoop ip src n k tot off) s fun _ W' s' =>
      s'.cell = s.cell ∧ W'.length ≤ W.length + (c+1)*r + pending c (s.mem ip) := by
  induction k with
  | zero =>
    intro r tot off s ino W _ _ _ _ _ _ _ hl _ _ _
    exact passes_pure hl ⟨rfl, by omega⟩
  | succ k ih =>
    intro r tot off s ino W h ha ht hle hmax hal hr hl hc hind hlen
    unfold writeLoop
    by_cases hlt : tot < n
    · rw [if_pos hlt]
      obtain ⟨r, rfl⟩ : ∃ r', r = r'+1 := by
        refine ⟨r-1, ?_⟩
        by_contra hz
        have hz : r = 0 := by omega
        rw [hz, Nat.zero_mul] at hr
        omega
      rw [Nat.mul_succ] at hlen ⊢
      have hB : BSIZE = 1024 := rfl
      set m := min (n-tot) (BSIZE - off%BSIZE) with hm
      have hbn : off/BSIZE < MAXFILE := block_lt (by omega)
      have hal := hal hlt
      have halign : tot+m < n → (off+m) % BSIZE = 0 := by
        intro _
        rw [hB] at hm hal ⊢
        omega
      have hr' : n - (tot+m) ≤ r*BSIZE := by
        rw [hB] at hm hr hal ⊢
        omega
      apply passes_bind
      apply ((bmap_passes hl hc hind (by omega) hbn).and
        (bmap_spec h ha ht hbn (Finset.Subset.refl _))).imp
      intro b W1 s1 hsub1 hl1 hb
      obtain ⟨hpass, ino1, h1, hg1, hown1, hb1, hpd1⟩ := hb
      have ha1 := ha.congr hg1.cell
      have hne1 : own ino1 s1.st.data (i, blockPlace (off/BSIZE)) ≠ 0 := by
        rw [hown1]
        exact hb1.ne_zero
      obtain ⟨hind1, hlen1⟩ := hpass (blocks_indirect h1 ha1 hne1)
      have hle1 : W1.length ≤ (withBlock W1 b).length := by
        rw [length_withBlock]
        omega
      have ht1 : 1 ≤ s1.st.outstanding := by
        rw [hpd1.outstanding]
        exact ht
      apply writeChunk_passes h1 ht1 hl1 (by omega) hown1 hb1
      · intro s2 hcell2
        exact ⟨hcell2.trans hg1.cell, by omega⟩
      · intro s2 h2 hcell2 hmem2 ht2 hl2
        rw [← hmem2] at hind1 hlen1
        have hsub2 := subset_withBlock (W := W1) b
        have hnext := ih r (tot+m) (off+m) s2 ino1 _ h2 (ha1.congr hcell2) ht2 (by omega) (by omega)
          halign hr' hl2 (hc.mono (List.Subset.trans hsub1 hsub2)) (fun hne => hsub2 (hind1 hne))
          (by omega)
        apply hnext.imp
        intro _ W4 s4 _ _ hr4
        obtain ⟨hcell4, hlen4⟩ := hr4
        exact ⟨hcell4.trans (hcell2.trans hg1.cell), by omega⟩
    · rw [if_neg hlt]
      exact passes_pure hl ⟨rfl, by omega⟩

/-- The loop of `writei` from the middle of a block on, which the file has. -/
theorem writeLoop_passes_inside {s : Fs} {ino : Nat → Dinode} {off r : Nat} (h : InodesOk s ino)
    (ha : At s ip i) (ht : 1 ≤ s.st.outstanding) (hn : 0 < n) (hmax : off+n ≤ MAXFILE*BSIZE)
    (hne : own ino s.st.data (i, blockPlace (off/BSIZE)) ≠ 0)
    (hr : n ≤ BSIZE - off%BSIZE + r*BSIZE) (hl : LogHolds L W s.st) (hc : MapCost W c)
    (hind : (s.mem ip).indirect ≠ 0 → (s.mem ip).indirect ∈ W)
    (hlen : W.length + 1 + (c+1)*r + pending c (s.mem ip) ≤ N) :
    Passes Fs.st N L W (writeLoop ip src n n 0 off) s fun _ W' s' =>
      s'.cell = s.cell ∧ W'.length ≤ W.length + 1 + (c+1)*r + pending c (s.mem ip) := by
  obtain ⟨k, rfl⟩ : ∃ k, n = k+1 := ⟨n-1, by omega⟩
  have hB : BSIZE = 1024 := rfl
  have hbn : off/BSIZE < MAXFILE := block_lt (by omega)
  unfold writeLoop
  rw [if_pos hn]
  set m := min (k+1-0) (BSIZE - off%BSIZE) with hm
  have halign : 0+m < k+1 → (off+m) % BSIZE = 0 := by
    intro _
    rw [hB] at hm ⊢
    omega
  have hr' : k+1 - (0+m) ≤ r*BSIZE := by
    rw [hB] at hm hr ⊢
    omega
  apply passes_bind
  apply (bmap_quiet h ha hbn hne).passes hl
  intro b s1 hb
  obtain ⟨hb, hq1⟩ := hb
  have h1 := hq1.inodes h
  refine ⟨hq1.quiet.lh, h1.log.size.trans h.log.size.symm, ?_⟩
  have hown1 : own ino s1.st.data (i, blockPlace (off/BSIZE)) = b := by
    rw [hq1.quiet.data, hb]
  have hb1 : DataBlock b := by
    rw [hb]
    exact own_dataBlock h hne
  have hone := length_withBlock_le W b
  have hsub := subset_withBlock (W := W) b
  apply writeChunk_passes h1 (by rw [hq1.quiet.spent.outstanding]; exact ht) (hl.congr hq1.quiet.lh)
    (by omega) hown1 hb1
  · intro s2 hcell2
    exact ⟨hcell2.trans hq1.cell, by omega⟩
  · intro s2 h2 hcell2 hmem2 ht2 hl2
    have hmem : s2.mem = s.mem := hmem2.trans hq1.mem
    have hcell : s2.cell = s.cell := hcell2.trans hq1.cell
    rw [← hmem] at hind hlen ⊢
    apply (writeLoop_passes k r (0+m) (off+m) s2 ino _ h2 (ha.congr hcell) ht2 (by omega) (by omega)
      halign hr' hl2 (hc.mono hsub) (fun hne => hsub (hind hne)) (by omega)).imp
    intro _ W4 s4 _ _ hr4
    exact ⟨hr4.1.trans hcell, by omega⟩

theorem iupdate_passes {s : Fs} (hl : LogHolds L W s.st) (hlen : W.length ≤ N)
    (hin : IBLOCK (s.cell ip).inum ∈ W) :
    Passes Fs.st N L W (iupdate ip) s fun _ W' s' => W' = W ∧ s'.cell = s.cell ∧ s'.mem = s.mem := by
  unfold iupdate
  apply passes_get
  apply passes_bind
  apply passes_disk
  apply (bread_passes hl _).imp
  intro _ W1 st1 _ hl1 hW1
  subst hW1
  apply passes_disk
  apply (logged_passes hl1 hlen _ _).imp
  intro _ W2 st2 _ _ hW2
  rw [withBlock_of_mem hin] at hW2
  exact ⟨hW2, rfl, rfl⟩

/-- `writei`: one block that the file has if `off` is in the middle of it, and `r` blocks that may
be new. -/
theorem writei_passes {s : Fs} {ino : Nat → Dinode} {off r : Nat} (h : InodesOk s ino)
    (ha : At s ip i) (ht : 1 ≤ s.st.outstanding)
    (hne : off % BSIZE ≠ 0 → own ino s.st.data (i, blockPlace (off/BSIZE)) ≠ 0) {cut : Nat}
    (hcut : cut = if off % BSIZE = 0 then 0 else 1) (hr : off%BSIZE + n ≤ (cut+r)*BSIZE)
    (hl : LogHolds L W s.st) (hc : MapCost W c) (hin : IBLOCK i ∈ W)
    (hind : (s.mem ip).indirect ≠ 0 → (s.mem ip).indirect ∈ W)
    (hlen : W.length + cut + (c+1)*r + pending c (s.mem ip) ≤ N) :
    Passes Fs.st N L W (writei ip src off n) s fun _ W' s' =>
      s'.cell = s.cell ∧ W'.length ≤ W.length + cut + (c+1)*r + pending c (s.mem ip) := by
  unfold writei
  apply passes_get
  apply passes_ite
  · intro _
    exact passes_pure hl ⟨rfl, by omega⟩
  intro _
  apply passes_ite
  · intro _
    exact passes_pure hl ⟨rfl, by omega⟩
  intro hmax
  have hB : BSIZE = 1024 := rfl
  have hloop : Passes Fs.st N L W (writeLoop ip src n n 0 off) s fun _ W' s' =>
      s'.cell = s.cell ∧ W'.length ≤ W.length + cut + (c+1)*r + pending c (s.mem ip) := by
    by_cases hal : off % BSIZE = 0
    · rw [if_pos hal] at hcut
      rw [hcut, hal] at hr
      rw [hcut] at hlen ⊢
      exact writeLoop_passes n r 0 off s ino W h ha ht (Nat.zero_le n) (by omega) (fun _ => hal)
        (by rw [hB] at hr ⊢; omega) hl hc hind (by omega)
    · rw [if_neg hal] at hcut
      rw [hcut] at hr hlen ⊢
      by_cases hn : n = 0
      · rw [hn]
        exact passes_pure hl ⟨rfl, by omega⟩
      · exact writeLoop_passes_inside h ha ht (Nat.pos_of_ne_zero hn) (by omega) (hne hal)
          (by rw [hB] at hr ⊢; omega) hl hc hind (by omega)
  apply passes_bind
  apply hloop.imp
  intro q W1 s1 hsub1 hl1 hq
  obtain ⟨hcell1, hlen1⟩ := hq
  have hupdate (t : Fs) (hcell : t.cell = s1.cell) (hst : t.st = s1.st) (m : Nat) :
      Passes Fs.st N L W1 (iupdate ip >>= fun _ => pure m) t fun _ W' s' =>
        s'.cell = s.cell ∧ W'.length ≤ W.length + cut + (c+1)*r + pending c (s.mem ip) := by
    have hin1 : IBLOCK (t.cell ip).inum ∈ W1 := by
      rw [hcell, hcell1, ha.inum]
      exact hsub1 hin
    apply passes_bind
    apply (iupdate_passes (by rw [hst]; exact hl1) (by omega) hin1).imp
    intro _ W2 s2 _ hl2 hq2
    obtain ⟨hW2, hcell2, _⟩ := hq2
    refine passes_pure hl2 ⟨hcell2.trans (hcell.trans hcell1), ?_⟩
    rw [hW2]
    exact hlen1
  obtain ⟨off', m⟩ := q
  dsimp only
  apply passes_ite
  · intro _
    apply passes_get
    apply passes_ite
    · intro _
      apply passes_bind
      apply (setMem_runs s1 ip _).passes hl1
      intro _ t ht
      have hcell : t.cell = s1.cell := by rw [ht]
      have hst : t.st = s1.st := by rw [ht]
      refine ⟨by rw [hst], by rw [hst], ?_⟩
      exact hupdate t hcell hst m
    · intro _
      exact hupdate s1 rfl rfl m
  · intro _
    exact passes_pure hl1 ⟨hcell1, hlen1⟩

end Write

section Quota

/-- The machine with an empty log. A log that was empty lists each block that is passed to
`log_write` once. -/
def Fs.clearLog (s : Fs) : Fs := { s with st := { s.st with lh := [] } }

theorem InodesOk.clearLog {s : Fs} {ino : Nat → Dinode} (h : InodesOk s ino) : InodesOk s.clearLog ino := by
  refine ⟨⟨h.log.start, h.log.size, ?_, List.nodup_nil, Nat.zero_le _⟩,
    ⟨h.blocks.reserved, h.blocks.owns, h.blocks.none⟩, h.cells⟩
  intro b hb
  exact absurd hb List.not_mem_nil

omit [FsLayout] in
theorem logHolds_nil (s : Fs) : LogHolds [] [] s.clearLog.st := by
  refine ⟨List.nodup_nil, ?_⟩
  intro b hb
  exact absurd hb List.not_mem_nil

/-- One chunk of `filewrite` passes at most `MAXOPBLOCKS` distinct blocks to `log_write`, with any
number of free map blocks, so a log with room for them is not too small for it. -/
theorem writei_log_blocks {s : Fs} {ino : Nat → Dinode} {ip : ISlot} {i off n : Nat}
    (h : InodesOk s ino) (hfill : Filled ino s.st.data i) (ha : At s ip i)
    (ht : 1 ≤ s.st.outstanding) (hoff : off ≤ (ino i).size.toNat)
    (hn : n ≤ (MAXOPBLOCKS-1-1-2)/2*BSIZE) (mem : UserMem) (addr : Nat) :
    Ensures (writei ip (.user mem addr) off n) s.clearLog
      (fun e => e = "too big a transaction" → min LOGSIZE (s.st.size-1) ≤ MAXOPBLOCKS) fun _ s' =>
        s'.st.lh.Nodup ∧ s'.st.lh.length ≤ MAXOPBLOCKS := by
  have hB : BSIZE = 1024 := rfl
  have hmax : MAXOPBLOCKS = 10 := rfl
  have hn : n ≤ 3*1024 := hn
  have hne : off % BSIZE ≠ 0 → own ino s.clearLog.st.data (i, blockPlace (off/BSIZE)) ≠ 0 := by
    intro hcut
    apply hfill.blocks
    rw [hB] at hcut ⊢
    omega
  set d := s.mem ip with hd
  -- The block of the inode counts from the start, and so does an indirect block.
  have hwrite (W : List Nat) (hin : IBLOCK i ∈ W) (hind : d.indirect ≠ 0 → d.indirect ∈ W)
      (hlen : W.length + 7 + pending 1 d ≤ MAXOPBLOCKS) :
      Passes Fs.st MAXOPBLOCKS [] [] (writei ip (.user mem addr) off n) s.clearLog fun _ W' _ =>
        W'.length ≤ MAXOPBLOCKS := by
    apply Passes.weaken (List.nil_subset W)
    have hle : (if off % BSIZE = 0 then 0 else 1) ≤ 1 := by split_ifs <;> omega
    apply (writei_passes h.clearLog (ha.congr rfl) ht hne rfl (r := 3) ?_
      ((logHolds_nil s).weaken (List.nil_subset W)) (Or.inl rfl) hin hind ?_).imp
    · intro _ W' _ _ _ hq
      have hq := hq.2
      change W'.length ≤ _ + _ + _ + pending 1 d at hq
      omega
    · split_ifs with hal
      · rw [hal, hB]
        omega
      · rw [hB]
        omega
    · change _ + _ + _ + pending 1 d ≤ _
      omega
  have hpass : Passes Fs.st MAXOPBLOCKS [] [] (writei ip (.user mem addr) off n) s.clearLog fun _ W' _ =>
      W'.length ≤ MAXOPBLOCKS := by
    by_cases hz : d.indirect = 0
    · have hpend : pending 1 d = 2 := if_pos hz
      exact hwrite [IBLOCK i] (List.mem_singleton_self _) (fun hne => absurd hz hne) (by
        change 1 + 7 + pending 1 d ≤ 10
        omega)
    · have hpend : pending 1 d = 0 := if_neg hz
      exact hwrite [d.indirect, IBLOCK i] (List.mem_cons_of_mem _ (List.mem_singleton_self _))
        (fun _ => List.mem_cons_self) (by
          change 2 + 7 + pending 1 d ≤ 10
          omega)
  refine Ensures.imp hpass ?_ ?_
  · intro e he hbig
    have := he hbig
    rwa [List.length_nil, Nat.zero_add] at this
  · intro _ s' hq
    obtain ⟨W', _, hl, _, hlen⟩ := hq
    have := hl.length_le
    rw [List.length_nil] at this
    exact ⟨hl.nodup, by omega⟩

omit [FsLayout] in
/-- The empty file is written in a chunk of three blocks. -/
theorem writei_log_blocks_fresh : let _ := sampleFs
    Ensures (writei 0 (.user onePage 40) 0 3072) freshFs.clearLog
      (fun e => e = "too big a transaction" → min LOGSIZE 29 ≤ MAXOPBLOCKS) fun _ s' =>
        s'.st.lh.Nodup ∧ s'.st.lh.length ≤ MAXOPBLOCKS := by
  intro _
  obtain ⟨hok, hat, _, _⟩ := freshFs_ok
  have hfill := hok.filled 2 (hok.mem_at hat).2.1
  exact writei_log_blocks hok.toInodesOk hfill hat (Nat.le_refl 1) (Nat.zero_le _) (by decide) onePage 40

end Quota

end Xv6
