import Xv6.Fs
import Mathlib.Data.Finset.Card
import Mathlib.Data.List.Perm.Subperm

/-! What `balloc`, `bfree` and the writes of inodes do to the three parts of a volume:
the free map, the inodes and the data blocks. -/
namespace Xv6

open Function

variable [FsLayout]

def DataBlock (b : Nat) : Prop := sb.datastart ≤ b ∧ b < sb.size

instance (b : Nat) : Decidable (DataBlock b) := inferInstanceAs (Decidable (_ ∧ _))

def MapBlock (b : Nat) : Prop := sb.bmapstart ≤ b ∧ b < sb.datastart

instance (b : Nat) : Decidable (MapBlock b) := inferInstanceAs (Decidable (_ ∧ _))

def Store.used (s : Store) (b : Nat) : Bool :=
  decide (b < sb.size) && bitOf (s.view (BBLOCK b)) (b % BPB)

def Store.dino (s : Store) (i : Nat) : Dinode :=
  if i < sb.ninodes then dinodeAt (s.view (IBLOCK i)) i else Dinode.new 0

def Store.data (s : Store) (b : Nat) : Bytes := if DataBlock b then s.view b else fun _ => 0

section Areas
variable {i b : Nat}

theorem bmapstart_lt : sb.bmapstart < sb.datastart := Nat.lt_add_of_pos_right (Nat.succ_pos _)

theorem inodestart_lt : 2 ≤ sb.inodestart ∧ sb.inodestart < sb.bmapstart := by
  have h1 := FsLayout.log_ge
  have h2 := FsLayout.log_end
  have h3 := FsLayout.inodes_end
  have h4 : 0 < sb.ninodes/IPB + 1 := Nat.succ_pos _
  constructor
  · omega
  · exact lt_of_lt_of_le (Nat.lt_add_of_pos_right h4) h3

theorem IBLOCK_bounds (h : i < sb.ninodes) : sb.inodestart ≤ IBLOCK i ∧ IBLOCK i < sb.bmapstart := by
  have h1 := FsLayout.inodes_end
  have h2 : i/IPB ≤ sb.ninodes/IPB := Nat.div_le_div_right h.le
  unfold IBLOCK
  constructor
  · exact Nat.le_add_left _ _
  · calc i/IPB + sb.inodestart ≤ sb.ninodes/IPB + sb.inodestart := Nat.add_le_add_right h2 _
      _ < sb.inodestart + (sb.ninodes/IPB + 1) := by rw [Nat.add_comm]; exact Nat.lt_succ_self _
      _ ≤ sb.bmapstart := h1

theorem BBLOCK_map (h : b < sb.size) : MapBlock (BBLOCK b) := by
  have h2 : b/BPB ≤ sb.size/BPB := Nat.div_le_div_right h.le
  unfold MapBlock BBLOCK Superblock.datastart
  constructor
  · exact Nat.le_add_left _ _
  · rw [Nat.add_comm]
    exact Nat.add_lt_add_left (Nat.lt_succ_of_le h2) _

theorem DataBlock.ne_zero (h : DataBlock b) : b ≠ 0 := by
  have h1 := inodestart_lt
  have h2 := bmapstart_lt
  have h3 := h.1
  omega

theorem not_dataBlock_zero : ¬ DataBlock 0 := fun h => h.ne_zero rfl

theorem DataBlock.lt (h : DataBlock b) : b < 2^32 := by
  have h1 := FsLayout.size_lt
  have h2 := h.2
  omega

theorem IBLOCK_ne_or {j : Nat} (h : j ≠ i) : IBLOCK j ≠ IBLOCK i ∨ j % IPB ≠ i % IPB := by
  unfold IBLOCK IPB BSIZE
  omega

theorem BBLOCK_ne_or {c : Nat} (h : c ≠ b) : BBLOCK c ≠ BBLOCK b ∨ c % BPB ≠ b % BPB := by
  unfold BBLOCK BPB BSIZE
  omega

end Areas

section Writes
variable {s s' : Store} {b i : Nat} {data : Bytes}

theorem used_of_map_write (hb : b < sb.size)
    (hv : s'.view = update s.view (BBLOCK b) data) {v : Bool}
    (hbit : ∀ j, bitOf data j = if j = b % BPB then v else bitOf (s.view (BBLOCK b)) j) :
    s'.used = update s.used b v ∧ s'.dino = s.dino ∧ s'.data = s.data := by
  have hmap := BBLOCK_map hb
  refine ⟨?_, ?_, ?_⟩
  · funext c
    unfold Store.used
    rw [hv]
    by_cases hc : c = b
    · subst hc
      rw [update_self, update_self, hbit, if_pos rfl, decide_eq_true hb,
        Bool.true_and]
    · rw [update_of_ne hc]
      rcases BBLOCK_ne_or hc with hne | hne
      · rw [update_of_ne hne]
      · by_cases hblk : BBLOCK c = BBLOCK b
        · rw [hblk, update_self, hbit, if_neg hne]
        · rw [update_of_ne hblk]
  · funext j
    unfold Store.dino
    split_ifs with hj
    · have hne : IBLOCK j ≠ BBLOCK b := by
        have h1 := (IBLOCK_bounds hj).2
        have h2 := hmap.1
        omega
      rw [hv, update_of_ne hne]
    · rfl
  · funext c
    unfold Store.data
    split_ifs with hc
    · have hne : c ≠ BBLOCK b := by
        have h1 := hc.1
        have h2 := hmap.2
        omega
      rw [hv, update_of_ne hne]
    · rfl

theorem dino_of_inode_write (hi : i < sb.ninodes) {d : Dinode}
    (hv : s'.view = update s.view (IBLOCK i) (putDinode (s.view (IBLOCK i)) i d)) :
    s'.used = s.used ∧ s'.dino = update s.dino i d ∧ s'.data = s.data := by
  have hib := IBLOCK_bounds hi
  refine ⟨?_, ?_, ?_⟩
  · funext c
    unfold Store.used
    by_cases hc : c < sb.size
    · have hne : BBLOCK c ≠ IBLOCK i := by
        have h1 := (BBLOCK_map hc).1
        omega
      rw [hv, update_of_ne hne]
    · rw [decide_eq_false hc, Bool.false_and, Bool.false_and]
  · funext j
    unfold Store.dino
    by_cases hj : j = i
    · subst hj
      rw [update_self, if_pos hi, hv, update_self, dinodeAt_putDinode]
    · rw [update_of_ne hj]
      split_ifs
      · rw [hv]
        rcases IBLOCK_ne_or hj with hne | hne
        · rw [update_of_ne hne]
        · by_cases hblk : IBLOCK j = IBLOCK i
          · rw [hblk, update_self, dinodeAt_putDinode_of_ne _ hne]
          · rw [update_of_ne hblk]
      · rfl
  · funext c
    unfold Store.data
    split_ifs with hc
    · have hne : c ≠ IBLOCK i := by
        have h1 := hc.1
        have h2 := bmapstart_lt
        omega
      rw [hv, update_of_ne hne]
    · rfl

theorem data_of_data_write (hb : DataBlock b) (hv : s'.view = update s.view b data) :
    s'.used = s.used ∧ s'.dino = s.dino ∧ s'.data = update s.data b data := by
  refine ⟨?_, ?_, ?_⟩
  · funext c
    unfold Store.used
    by_cases hc : c < sb.size
    · have hne : BBLOCK c ≠ b := by
        have h1 := (BBLOCK_map hc).2
        have h2 := hb.1
        omega
      rw [hv, update_of_ne hne]
    · rw [decide_eq_false hc, Bool.false_and, Bool.false_and]
  · funext j
    unfold Store.dino
    split_ifs with hj
    · have hne : IBLOCK j ≠ b := by
        have h1 := (IBLOCK_bounds hj).2
        have h2 := hb.1
        have h3 := bmapstart_lt
        omega
      rw [hv, update_of_ne hne]
    · rfl
  · funext c
    unfold Store.data
    by_cases hc : c = b
    · subst hc
      rw [update_self, if_pos hb, hv, update_self]
    · rw [update_of_ne hc, hv]
      split_ifs
      · rw [update_of_ne hc]
      · rfl

end Writes

/-- The log while a transaction runs: it holds distinct blocks from the inodes on. -/
structure LogOk (s : Store) : Prop where
  start : s.start = sb.logstart
  size : s.size = sb.nlog
  home : ∀ b ∈ s.lh, sb.inodestart ≤ b ∧ b < sb.size
  nodup : s.lh.Nodup
  fits : s.lh.length ≤ s.size-1

/-- How many more blocks besides those of the free map the log has room for. -/
def Store.room (s : Store) : Nat :=
  min LOGSIZE (sb.nlog-1) -
    ((sb.size/BPB + 1) + (s.lh.filter fun b => decide ¬ MapBlock b).length)

def Store.free (s : Store) : Nat :=
  ((Finset.range sb.size).filter fun b => s.used b = false).card

/-- From `s` to `s'` at most `nb` data blocks were allocated and `nl` blocks logged,
those of the free map not counted. -/
structure Spent (s s' : Store) (nb nl : Nat) : Prop where
  log : LogOk s'
  outstanding : s'.outstanding = s.outstanding
  free : s.free ≤ s'.free + nb
  room : s.room ≤ s'.room + nl
  lh : ∀ b ∈ s.lh, b ∈ s'.lh

/-- The panics of code that allocates at most `nb` data blocks and logs at most `nl`
blocks. -/
def Short (s : Store) (nb nl : Nat) (e : String) : Prop :=
  (e = "balloc: out of blocks" ∧ s.free < nb) ∨ (e = "too big a transaction" ∧ s.room ≤ nl)

structure InTx (s : Store) : Prop where
  log : LogOk s
  outstanding : 1 ≤ s.outstanding

section Budget
variable {s s' s'' : Store} {nb nl mb ml : Nat}

theorem Spent.inTx (h : Spent s s' nb nl) (ht : InTx s) : InTx s' :=
  ⟨h.log, by rw [h.outstanding]; exact ht.outstanding⟩

theorem Spent.trans (h : Spent s s' nb nl) (h' : Spent s' s'' mb ml) :
    Spent s s'' (nb+mb) (nl+ml) where
  log := h'.log
  outstanding := h'.outstanding.trans h.outstanding
  free := by have := h.free; have := h'.free; omega
  room := by have := h.room; have := h'.room; omega
  lh b hb := h'.lh b (h.lh b hb)

theorem Spent.mono (h : Spent s s' nb nl) (hb : nb ≤ mb) (hl : nl ≤ ml) : Spent s s' mb ml :=
  ⟨h.log, h.outstanding, by have := h.free; omega, by have := h.room; omega, h.lh⟩

theorem Short.mono {e : String} (h : Short s nb nl e) (hb : nb ≤ mb) (hl : nl ≤ ml) :
    Short s mb ml e := by
  rcases h with ⟨he, hf⟩ | ⟨he, hr⟩
  · exact Or.inl ⟨he, by omega⟩
  · exact Or.inr ⟨he, by omega⟩

/-- A shortage after a part of the work is a shortage for the whole. -/
theorem Short.after {e : String} (h : Spent s s' nb nl) (h' : Short s' mb ml e) :
    Short s (nb+mb) (nl+ml) e := by
  rcases h' with ⟨he, hf⟩ | ⟨he, hr⟩
  · exact Or.inl ⟨he, by have := h.free; omega⟩
  · exact Or.inr ⟨he, by have := h.room; omega⟩

theorem free_congr (h : s'.used = s.used) : s'.free = s.free := by
  unfold Store.free
  rw [h]

theorem free_alloc {b : Nat} (hb : b < sb.size) (hu : s.used b = false)
    (h : s'.used = update s.used b true) : s.free = s'.free + 1 := by
  have hset : (Finset.range sb.size).filter (fun c => s'.used c = false) =
      ((Finset.range sb.size).filter fun c => s.used c = false).erase b := by
    ext c
    rw [Finset.mem_erase, Finset.mem_filter, Finset.mem_filter, h]
    by_cases hc : c = b
    · subst hc
      simp
    · rw [update_of_ne hc]
      exact ⟨fun hx => ⟨hc, hx⟩, fun hx => hx.2⟩
  have hmem : b ∈ (Finset.range sb.size).filter fun c => s.used c = false :=
    Finset.mem_filter.mpr ⟨Finset.mem_range.mpr hb, hu⟩
  have hpos := Finset.card_pos.mpr ⟨b, hmem⟩
  unfold Store.free
  rw [hset, Finset.card_erase_of_mem hmem]
  omega

theorem free_release {b : Nat} (h : s'.used = update s.used b false) :
    s.free ≤ s'.free := by
  unfold Store.free
  apply Finset.card_le_card
  intro c hc
  rw [Finset.mem_filter] at hc ⊢
  refine ⟨hc.1, ?_⟩
  rw [h]
  by_cases hcb : c = b
  · rw [hcb, update_self]
  · rw [update_of_ne hcb]
    exact hc.2

theorem LogOk.length_lt (h : LogOk s) (hr : 0 < s.room) :
    s.lh.length < min LOGSIZE (sb.nlog-1) := by
  have hsub : (s.lh.filter fun b => decide (MapBlock b)).length ≤ sb.size/BPB + 1 := by
    have hle : (s.lh.filter fun b => decide (MapBlock b)).length ≤
        (List.range' sb.bmapstart (sb.size/BPB + 1)).length := by
      apply List.Subperm.length_le
      apply List.Nodup.subperm (h.nodup.filter _)
      intro b hb
      rw [List.mem_filter, decide_eq_true_eq] at hb
      have h1 := hb.2.1
      have h2 := hb.2.2
      unfold Superblock.datastart at h2
      rw [List.mem_range'_1]
      omega
    rw [List.length_range'] at hle
    exact hle
  have hsplit : s.lh.length = (s.lh.filter fun b => decide (MapBlock b)).length +
      (s.lh.filter fun b => decide ¬ MapBlock b).length := by
    have hsum := List.length_eq_length_filter_add (l := s.lh) fun b => decide (MapBlock b)
    rw [hsum]
    congr 2
    apply List.filter_congr
    intro b _
    rw [decide_not]
  unfold Store.room at hr
  omega

end Budget

structure Quiet (s s' : Store) : Prop where
  view : s'.view = s.view
  lh : s'.lh = s.lh
  spent : Spent s s' 0 0

section Quiet
variable {s s' s'' : Store}

theorem Spent.refl (h : LogOk s) : Spent s s 0 0 :=
  ⟨h, rfl, le_rfl, le_rfl, fun _ hb => hb⟩

theorem Quiet.refl (h : LogOk s) : Quiet s s := ⟨rfl, rfl, Spent.refl h⟩

theorem Quiet.trans (h : Quiet s s') (h' : Quiet s' s'') : Quiet s s'' :=
  ⟨h'.view.trans h.view, h'.lh.trans h.lh, h.spent.trans h'.spent⟩

theorem Quiet.used (h : Quiet s s') : s'.used = s.used := by
  unfold Store.used
  rw [h.view]

theorem Quiet.dino (h : Quiet s s') : s'.dino = s.dino := by
  unfold Store.dino
  rw [h.view]

theorem Quiet.data (h : Quiet s s') : s'.data = s.data := by
  unfold Store.data
  rw [h.view]

theorem Wrote.quiet (hl : LogOk s) (h : Wrote s s' []) : Quiet s s' := by
  have hv : s'.view = s.view := h.view
  have hu : s'.used = s.used := by
    unfold Store.used
    rw [hv]
  refine ⟨hv, h.lh, ?_, h.outstanding, (free_congr hu).ge, ?_, ?_⟩
  · exact ⟨h.start.trans hl.start, h.size.trans hl.size, by rw [h.lh]; exact hl.home,
      by rw [h.lh]; exact hl.nodup, by rw [h.lh, h.size]; exact hl.fits⟩
  · unfold Store.room
    rw [h.lh]
    exact le_rfl
  · rw [h.lh]
    exact fun _ hb => hb

theorem bread_quiet (hl : LogOk s) (b : Nat) :
    Runs (bread b) s fun data s' => data = s.view b ∧ Quiet s s' := by
  refine (bread_spec s b).imp ?_
  intro data s' h
  exact ⟨h.1, h.2.quiet hl⟩

end Quiet

section Blocks
variable {s : Store} {b : Nat}

def logCost (s : Store) (b : Nat) : Nat := if MapBlock b ∨ b ∈ s.lh then 0 else 1

theorem logged_spec (ht : InTx s) (hb : sb.inodestart ≤ b ∧ b < sb.size) (f : Bytes → Bytes) :
    Ensures (logged b f) s (fun e => e = "too big a transaction" ∧ s.room = 0) fun _ s' =>
      s'.view = update s.view b (f (s.view b)) ∧ LogOk s' ∧
        s'.outstanding = s.outstanding ∧ s.room ≤ s'.room + logCost s b ∧
        b ∈ s'.lh ∧ ∀ x ∈ s.lh, x ∈ s'.lh := by
  unfold logged setData log_write
  apply ensures_get
  apply ensures_modify
  apply ensures_get
  apply ensures_panicIf
  · intro hfull
    refine ⟨rfl, ?_⟩
    by_contra hr
    have hlt := ht.log.length_lt (Nat.pos_of_ne_zero hr)
    change LOGSIZE ≤ s.lh.length ∨ s.size-1 ≤ s.lh.length at hfull
    rw [ht.log.size] at hfull
    omega
  intro hnot
  change ¬ (LOGSIZE ≤ s.lh.length ∨ s.size-1 ≤ s.lh.length) at hnot
  apply ensures_panicIf
  · intro hout
    have h1 := ht.outstanding
    change s.outstanding < 1 at hout
    omega
  intro _
  refine (runs_set.mpr ⟨?_, ?_, rfl, ?_, ?_, ?_⟩).ensures
  · exact view_update s b _
  · refine ⟨ht.log.start, ht.log.size, ?_, ?_, ?_⟩
    · intro x hx
      dsimp only at hx
      split_ifs at hx with hin
      · exact ht.log.home x hx
      · rcases List.mem_append.mp hx with hx | hx
        · exact ht.log.home x hx
        · rw [List.mem_singleton.mp hx]
          exact hb
    · dsimp only
      split_ifs with hin
      · exact ht.log.nodup
      · rw [List.nodup_append]
        refine ⟨ht.log.nodup, List.nodup_singleton b, ?_⟩
        intro x hx y hy hxy
        rw [List.mem_singleton] at hy
        exact hin (hy ▸ hxy ▸ hx)
    · dsimp only
      split_ifs
      · exact ht.log.fits
      · rw [List.length_append, List.length_singleton]
        omega
  · -- Only a new block outside the free map takes room.
    unfold Store.room logCost
    dsimp only
    by_cases hin : b ∈ s.lh
    · rw [if_pos hin]
      omega
    · rw [if_neg hin, List.filter_append, List.length_append]
      by_cases hm : MapBlock b
      · have hnil : [b].filter (fun b => decide ¬ MapBlock b) = [] := by simp [hm]
        rw [hnil, if_pos (Or.inl hm), List.length_nil]
        omega
      · have hone : [b].filter (fun b => decide ¬ MapBlock b) = [b] := by simp [hm]
        have hnew : ¬ (MapBlock b ∨ b ∈ s.lh) := not_or.mpr ⟨hm, hin⟩
        rw [hone, if_neg hnew, List.length_singleton]
        omega
  · dsimp only
    split_ifs with hin
    · exact hin
    · exact List.mem_append_right _ (List.mem_singleton_self b)
  · intro x hx
    dsimp only
    split_ifs
    · exact hx
    · exact List.mem_append_left _ hx

theorem logged_map (ht : InTx s) (hb : b < sb.size) {f : Bytes → Bytes} {v : Bool}
    (hbit : ∀ j, bitOf (f (s.view (BBLOCK b))) j =
      if j = b % BPB then v else bitOf (s.view (BBLOCK b)) j) :
    Ensures (logged (BBLOCK b) f) s (Short s 0 0) fun _ s' =>
      (s'.used = update s.used b v ∧ s'.dino = s.dino ∧ s'.data = s.data) ∧
        LogOk s' ∧ s'.outstanding = s.outstanding ∧ s.room ≤ s'.room ∧
        ∀ x ∈ s.lh, x ∈ s'.lh := by
  have hmap := BBLOCK_map hb
  have hrange : sb.inodestart ≤ BBLOCK b ∧ BBLOCK b < sb.size := by
    have h1 := inodestart_lt
    have h2 := FsLayout.data_le
    have h3 := hmap.1
    have h4 := hmap.2
    omega
  refine (logged_spec ht hrange f).imp ?_ ?_
  · intro e he
    exact Or.inr ⟨he.1, he.2.le⟩
  · intro _ s' ⟨hv, hl, ho, hr, _, hlh⟩
    unfold logCost at hr
    rw [if_pos (Or.inl hmap), Nat.add_zero] at hr
    exact ⟨used_of_map_write hb hv hbit, hl, ho, hr, hlh⟩

theorem logged_inode (ht : InTx s) {i : Nat} (hi : i < sb.ninodes) (d : Dinode) :
    Ensures (logged (IBLOCK i) (putDinode · i d)) s (Short s 0 0) fun _ s' =>
      s'.used = s.used ∧ s'.dino = update s.dino i d ∧ s'.data = s.data ∧
        Spent s s' 0 1 := by
  have hib := IBLOCK_bounds hi
  have hrange : sb.inodestart ≤ IBLOCK i ∧ IBLOCK i < sb.size := by
    have h1 := bmapstart_lt
    have h2 := FsLayout.data_le
    omega
  refine (logged_spec ht hrange _).imp ?_ ?_
  · intro e he
    exact Or.inr ⟨he.1, he.2.le⟩
  · intro _ s' ⟨hv, hl, ho, hr, _, hlh⟩
    have hcost : logCost s (IBLOCK i) ≤ 1 := by
      unfold logCost
      split_ifs <;> omega
    obtain ⟨hu, hd, hdata⟩ := dino_of_inode_write hi hv
    exact ⟨hu, hd, hdata, hl, ho, (free_congr hu).ge, by omega, hlh⟩

theorem logged_data (ht : InTx s) (hb : DataBlock b) (f : Bytes → Bytes) :
    Ensures (logged b f) s (Short s 0 0) fun _ s' =>
      s'.used = s.used ∧ s'.dino = s.dino ∧
        s'.data = update s.data b (f (s.data b)) ∧
        Spent s s' 0 (if b ∈ s.lh then 0 else 1) ∧ b ∈ s'.lh := by
  have hrange : sb.inodestart ≤ b ∧ b < sb.size := by
    have h1 := inodestart_lt
    have h2 := bmapstart_lt
    have h3 := hb.1
    have h4 := hb.2
    omega
  refine (logged_spec ht hrange f).imp ?_ ?_
  · intro e he
    exact Or.inr ⟨he.1, he.2.le⟩
  · intro _ s' ⟨hv, hl, ho, hr, hin, hlh⟩
    have hm : ¬ MapBlock b := by
      intro h
      have h1 := h.2
      have h2 := hb.1
      omega
    have hview : s.view b = s.data b := by
      unfold Store.data
      rw [if_pos hb]
    unfold logCost at hr
    simp only [hm, false_or] at hr
    rw [hview] at hv
    obtain ⟨hu, hd, hdata⟩ := data_of_data_write hb hv
    exact ⟨hu, hd, hdata, ⟨hl, ho, (free_congr hu).ge, hr, hlh⟩, hin⟩

end Blocks

section Balloc
variable {s : Store}

def MetaUsed (used : Nat → Bool) : Prop := ∀ b, b < sb.datastart → used b = true

theorem MetaUsed.update {used : Nat → Bool} {b : Nat} (h : MetaUsed used) (hb : DataBlock b)
    (v : Bool) : MetaUsed (Function.update used b v) := by
  intro c hc
  rw [Function.update_of_ne (hc.trans_le hb.1).ne]
  exact h c hc

/-- Block `x` was handed out, cleared, and is in the log. -/
structure Balloced (s s' : Store) (x : Nat) : Prop where
  block : DataBlock x
  unused : s.used x = false
  used : s'.used = update s.used x true
  dino : s'.dino = s.dino
  data : s'.data = update s.data x fun _ => 0
  logged : x ∈ s'.lh
  spent : Spent s s' 1 1

theorem freeBit_some {data : Bytes} {b bi : Nat} (h : freeBit data b = some bi) :
    bi < BPB ∧ b + bi < sb.size ∧ bitOf data bi = false := by
  have hmem := List.mem_range.mp (List.mem_of_find?_eq_some h)
  have hbit := List.find?_some h
  refine ⟨by omega, by omega, ?_⟩
  simpa using hbit

theorem freeBit_none {data : Bytes} {b : Nat} (h : freeBit data b = none) {bi : Nat}
    (hbi : bi < BPB) (hlt : b + bi < sb.size) : bitOf data bi = true := by
  have := List.find?_eq_none.mp h bi (List.mem_range.mpr (by omega))
  simpa using this

/-- A block below `sb.size` whose number starts a round of `balloc`. -/
theorem BBLOCK_round {m bi : Nat} (hbi : bi < BPB) :
    BBLOCK (m*BPB + bi) = BBLOCK (m*BPB) ∧ (m*BPB + bi) % BPB = bi := by
  have hpos : 0 < BPB := by decide
  unfold BBLOCK
  constructor
  · rw [Nat.mul_comm, Nat.mul_add_div hpos, Nat.div_eq_of_lt hbi, Nat.add_zero,
      Nat.mul_div_cancel_left _ hpos]
  · rw [Nat.mul_comm, Nat.mul_add_mod, Nat.mod_eq_of_lt hbi]

theorem balloc_take (ht : InTx s) (hmeta : MetaUsed s.used) {b bi : Nat}
    (hblk : BBLOCK (b+bi) = BBLOCK b) (hmod : (b+bi) % BPB = bi) (hlt : b+bi < sb.size)
    (hbit : bitOf (s.view (BBLOCK b)) bi = false) :
    Ensures (do
      logged (BBLOCK b) (setBit · bi)
      bzero (b+bi)
      pure (b+bi)) s (Short s 1 1) fun x s' => Balloced s s' x := by
  have hused : s.used (b+bi) = false := by
    unfold Store.used
    rw [hblk, hmod, hbit, Bool.and_false]
  have hdata : DataBlock (b+bi) := by
    refine ⟨?_, hlt⟩
    by_contra hlow
    rw [hmeta _ (by omega)] at hused
    cases hused
  apply ensures_bind
  rw [← hblk]
  refine (logged_map ht hlt (v := true) ?_).imp ?_ ?_
  · intro j
    rw [bitOf_setBit, hmod]
  · intro e he
    exact he.mono (by omega) (by omega)
  intro _ s1 ⟨⟨hu1, hd1, hdat1⟩, hl1, ho1, hr1, hlh1⟩
  have hfree := free_alloc hlt hused hu1
  have hsp1 : Spent s s1 1 0 := ⟨hl1, ho1, by omega, hr1, hlh1⟩
  have ht1 := hsp1.inTx ht
  apply ensures_bind
  unfold bzero
  refine (bread_quiet ht1.log _).ensures.bind ?_
  intro _ s2 ⟨_, hq2⟩
  have hsp2 := hsp1.trans hq2.spent
  refine (logged_data (hsp2.inTx ht) hdata _).imp ?_ ?_
  · intro e he
    exact (he.after hsp2).mono (by omega) (by omega)
  intro _ s3 ⟨hu3, hd3, hdat3, hsp3, hin3⟩
  apply ensures_pure
  refine ⟨hdata, hused, ?_, ?_, ?_, hin3,
    (hsp2.trans hsp3).mono (by omega) (by split_ifs <;> omega)⟩
  · rw [hu3, hq2.used, hu1]
  · rw [hd3, hq2.dino, hd1]
  · rw [hdat3, hq2.data, hdat1]

theorem ballocLoop_spec (n : Nat) : ∀ (m : Nat) (s : Store), InTx s → MetaUsed s.used →
    sb.size ≤ (m+n)*BPB → (∀ c, c < m*BPB → c < sb.size → s.used c = true) →
    Ensures (ballocLoop n (m*BPB)) s (Short s 1 1) fun x s' => Balloced s s' x := by
  induction n with
  | zero =>
    intro m s _ _ hsize hall
    apply ensures_throw
    refine Or.inl ⟨rfl, ?_⟩
    have hnone : s.free = 0 := by
      unfold Store.free
      rw [Finset.card_eq_zero, Finset.filter_eq_empty_iff]
      intro c hc
      rw [Finset.mem_range] at hc
      rw [hall c (by rw [Nat.add_zero] at hsize; omega) hc]
      simp
    omega
  | succ n ih =>
    intro m s ht hmeta hsize hall
    unfold ballocLoop
    refine (bread_quiet ht.log _).ensures.bind ?_
    intro data s1 ⟨hdata, hq1⟩
    have ht1 := hq1.spent.inTx ht
    have hmeta1 : MetaUsed s1.used := by rw [hq1.used]; exact hmeta
    have hfree1 : s1.free = s.free := free_congr hq1.used
    have hshort (e : String) (he : Short s1 1 1 e) : Short s 1 1 e :=
      (he.after hq1.spent).mono (by omega) (by omega)
    have hview : s1.view (BBLOCK (m*BPB)) = data := by rw [hq1.view, hdata]
    have hpost (x : Nat) (s' : Store) (hx : Balloced s1 s' x) : Balloced s s' x := by
      obtain ⟨h1, h2, h3, h4, h5, h6, h7⟩ := hx
      rw [hq1.used] at h2 h3
      rw [hq1.dino] at h4
      rw [hq1.data] at h5
      exact ⟨h1, h2, h3, h4, h5, h6, (hq1.spent.trans h7).mono (by omega) (by omega)⟩
    cases hf : freeBit data (m*BPB) with
    | some bi =>
      obtain ⟨hbi, hlt, hbit⟩ := freeBit_some hf
      obtain ⟨hblk, hmod⟩ := BBLOCK_round hbi (m := m)
      refine (balloc_take ht1 hmeta1 hblk hmod hlt ?_).imp hshort hpost
      rw [hview]
      exact hbit
    | none =>
      rw [← Nat.succ_mul]
      refine (ih (m+1) s1 ht1 hmeta1 ?_ ?_).imp hshort hpost
      · rw [show m+1+n = m+(n+1) by omega]
        exact hsize
      · -- All bits of this block of the free map are set.
        intro c hc hcs
        rw [hq1.used]
        by_cases hcm : c < m*BPB
        · exact hall c hcm hcs
        · obtain ⟨bi, rfl⟩ := Nat.exists_eq_add_of_le (Nat.not_lt.mp hcm)
          have hbi : bi < BPB := by
            rw [Nat.succ_mul] at hc
            omega
          obtain ⟨hblk, hmod⟩ := BBLOCK_round hbi (m := m)
          unfold Store.used
          rw [hblk, hmod, ← hq1.view, hview, decide_eq_true hcs, Bool.true_and]
          exact freeBit_none hf hbi hcs

/-- `balloc` hands out a data block that was not in use, cleared. -/
theorem balloc_spec (ht : InTx s) (hmeta : MetaUsed s.used) :
    Ensures balloc s (Short s 1 1) fun x s' => Balloced s s' x := by
  have h := ballocLoop_spec ((sb.size + BPB - 1)/BPB) 0 s ht hmeta
  rw [Nat.zero_mul] at h
  apply h
  · have hb : BPB = 8192 := rfl
    rw [hb]
    omega
  · intro c hc
    exact absurd hc (Nat.not_lt_zero c)

theorem bfree_spec (ht : InTx s) {b : Nat} (hb : DataBlock b) (hu : s.used b = true) :
    Ensures (bfree b) s (Short s 0 0) fun _ s' =>
      s'.used = update s.used b false ∧ s'.dino = s.dino ∧ s'.data = s.data ∧
        Spent s s' 0 0 := by
  unfold bfree
  refine (bread_quiet ht.log _).ensures.bind ?_
  intro data s1 ⟨hdata, hq1⟩
  have hbit : bitOf data (b % BPB) = true := by
    unfold Store.used at hu
    rw [Bool.and_eq_true] at hu
    rw [hdata]
    exact hu.2
  apply ensures_panicIf
  · intro hc
    rw [hbit] at hc
    cases hc
  intro _
  refine (logged_map (hq1.spent.inTx ht) hb.2 (v := false) ?_).imp ?_ ?_
  · intro j
    exact bitOf_clearBit _ _ _
  · intro e he
    exact he.after hq1.spent
  intro _ s2 ⟨⟨hu2, hd2, hdat2⟩, hl2, ho2, hr2, hlh2⟩
  rw [hq1.used] at hu2
  rw [hq1.dino] at hd2
  rw [hq1.data] at hdat2
  refine ⟨hu2, hd2, hdat2, hl2, ho2.trans hq1.spent.outstanding, free_release hu2, ?_, ?_⟩
  · have := hq1.spent.room
    omega
  · intro b hb
    exact hlh2 b (hq1.spent.lh b hb)

end Balloc

end Xv6
