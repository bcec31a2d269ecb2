import Xv6.VmMaps

/-! The words that stand in user page tables: fresh user memory, a page shared
copy-on-write, a private page, the guard page. -/
namespace Xv6

section Bits
variable (k : Nat)

theorem bit_V : PTE_V.getLsbD k = decide (k = 0) := by
  rw [show PTE_V = BitVec.twoPow 64 0 by decide, BitVec.getLsbD_twoPow]
  simp [eq_comm]

theorem bit_W : PTE_W.getLsbD k = decide (k = 2) := by
  rw [show PTE_W = BitVec.twoPow 64 2 by decide, BitVec.getLsbD_twoPow]
  simp [eq_comm]

theorem bit_U : PTE_U.getLsbD k = decide (k = 4) := by
  rw [show PTE_U = BitVec.twoPow 64 4 by decide, BitVec.getLsbD_twoPow]
  simp [eq_comm]

theorem bit_COW : PTE_COW.getLsbD k = decide (k = 8) := by
  rw [show PTE_COW = BitVec.twoPow 64 8 by decide, BitVec.getLsbD_twoPow]
  simp [eq_comm]

theorem bit_FLAGS (w : Pte) : (PTE_FLAGS w).getLsbD k = (w.getLsbD k && decide (k < 10)) := by
  have hm : (0x3FF : Pte).getLsbD k = decide (k < 10) := by
    rw [show (0x3FF : Pte) = BitVec.ofNat 64 (2^10-1) by decide, BitVec.getLsbD_ofNat,
      Nat.testBit_two_pow_sub_one]
    by_cases hk : k < 10
    · simp [hk]; omega
    · simp [hk]
  rw [PTE_FLAGS, BitVec.getLsbD_and, hm]

end Bits

theorem flags_lt (w : Pte) : (PTE_FLAGS w).toNat < 2^10 := by
  rw [PTE_FLAGS, BitVec.toNat_and]
  exact lt_of_le_of_lt Nat.and_le_right (by decide)

/-- A valid entry of the user part: readable and executable, and marked for
copy-on-write exactly when it is not writable. -/
structure UserPte (w : Pte) : Prop where
  v : w.has PTE_V = true
  r : w.has PTE_R = true
  x : w.has PTE_X = true
  cow : w.has PTE_COW = !w.has PTE_W

theorem leaf_of_r {w : Pte} (hv : w.has PTE_V = true) (hr : w.has PTE_R = true) : Leaf w := by
  refine ⟨hv, fun he => ?_⟩
  have hb := congrArg (fun v : Pte => v.getLsbD 1) he
  rw [has_R] at hr
  simp only [bit_FLAGS, hr, bit_V] at hb
  exact absurd hb (by decide)

theorem UserPte.leaf {w : Pte} (h : UserPte w) : Leaf w := leaf_of_r h.v h.r

/-- `uvmcopy`: take `PTE_W` away and mark the entry. -/
def cowWord (w : Pte) : Pte := (w &&& ~~~PTE_W) ||| PTE_COW

/-- `copy_on_write` of a page without another mapping. -/
def ownWord (w : Pte) : Pte := (w &&& ~~~PTE_COW) ||| PTE_W

/-- What `mappages` stores for page `pa` with permissions `perm`. -/
def mapWord (pa : Nat) (perm : Pte) : Pte := PA2PTE pa ||| perm ||| PTE_V

/-- `copy_on_write`: the permissions of the private copy. -/
def ownFlags (w : Pte) : Pte := (PTE_FLAGS w &&& ~~~PTE_COW) ||| PTE_W

/-- `uvmclear`: the guard page of the stack. -/
def guardWord (w : Pte) : Pte := w &&& ~~~PTE_U

section Words
variable {w : Pte} {pa : Nat}

theorem cowWord_pa : PTE2PA (cowWord w) = PTE2PA w := by
  apply PTE2PA_congr
  intro k hk hk'
  simp only [cowWord, BitVec.getLsbD_or, BitVec.getLsbD_and, BitVec.getLsbD_not, bit_W, bit_COW,
    hk', show k ≠ 2 by omega, show k ≠ 8 by omega]
  simp

theorem ownWord_pa : PTE2PA (ownWord w) = PTE2PA w := by
  apply PTE2PA_congr
  intro k hk hk'
  simp only [ownWord, BitVec.getLsbD_or, BitVec.getLsbD_and, BitVec.getLsbD_not, bit_W, bit_COW,
    hk', show k ≠ 2 by omega, show k ≠ 8 by omega]
  simp

theorem guardWord_pa : PTE2PA (guardWord w) = PTE2PA w := by
  apply PTE2PA_congr
  intro k hk hk'
  simp only [guardWord, BitVec.getLsbD_and, BitVec.getLsbD_not, bit_U, hk',
    show k ≠ 4 by omega]
  simp

theorem cowWord_bit (k : Nat) (hk : k < 10) :
    (cowWord w).getLsbD k = (w.getLsbD k && decide (k ≠ 2) || decide (k = 8)) := by
  simp only [cowWord, BitVec.getLsbD_or, BitVec.getLsbD_and, BitVec.getLsbD_not, bit_W, bit_COW,
    show k < 64 by omega]
  simp

theorem ownWord_bit (k : Nat) (hk : k < 10) :
    (ownWord w).getLsbD k = (w.getLsbD k && decide (k ≠ 8) || decide (k = 2)) := by
  simp only [ownWord, BitVec.getLsbD_or, BitVec.getLsbD_and, BitVec.getLsbD_not, bit_W, bit_COW,
    show k < 64 by omega]
  simp

theorem ownFlags_bit (k : Nat) (hk : k < 10) :
    (ownFlags w).getLsbD k = (w.getLsbD k && decide (k ≠ 8) || decide (k = 2)) := by
  simp only [ownFlags, BitVec.getLsbD_or, BitVec.getLsbD_and, BitVec.getLsbD_not, bit_W, bit_COW,
    bit_FLAGS, hk, show k < 64 by omega]
  simp

theorem guardWord_bit (k : Nat) (hk : k < 10) :
    (guardWord w).getLsbD k = (w.getLsbD k && decide (k ≠ 4)) := by
  simp only [guardWord, BitVec.getLsbD_and, BitVec.getLsbD_not, bit_U, show k < 64 by omega]
  simp

theorem mapWord_bit (perm : Pte) (k : Nat) (hk : k < 10) :
    (mapWord pa perm).getLsbD k = (perm.getLsbD k || decide (k = 0)) :=
  mapped_word_bit pa perm k hk

theorem userPte_iff_bits : UserPte w ↔ w.getLsbD 0 = true ∧ w.getLsbD 1 = true ∧
    w.getLsbD 3 = true ∧ w.getLsbD 8 = !w.getLsbD 2 := by
  constructor
  · rintro ⟨hv, hr, hx, hc⟩
    rw [has_V] at hv
    rw [has_R] at hr
    rw [has_X] at hx
    rw [has_COW, has_W] at hc
    exact ⟨hv, hr, hx, hc⟩
  · rintro ⟨hv, hr, hx, hc⟩
    exact ⟨by rwa [has_V], by rwa [has_R], by rwa [has_X], by rwa [has_COW, has_W]⟩

theorem userPte_fresh : UserPte (mapWord pa userPerm) := by
  rw [userPte_iff_bits]
  simp only [mapWord_bit userPerm _ (show (0:Nat) < 10 by decide),
    mapWord_bit userPerm _ (show (1:Nat) < 10 by decide),
    mapWord_bit userPerm _ (show (2:Nat) < 10 by decide),
    mapWord_bit userPerm _ (show (3:Nat) < 10 by decide),
    mapWord_bit userPerm _ (show (8:Nat) < 10 by decide)]
  decide

theorem userPte_cow (h : UserPte w) : UserPte (cowWord w) := by
  rw [userPte_iff_bits] at h ⊢
  obtain ⟨hv, hr, hx, -⟩ := h
  rw [cowWord_bit 0 (by decide), cowWord_bit 1 (by decide), cowWord_bit 2 (by decide),
    cowWord_bit 3 (by decide), cowWord_bit 8 (by decide), hv, hr, hx]
  simp

theorem userPte_own (h : UserPte w) : UserPte (ownWord w) := by
  rw [userPte_iff_bits] at h ⊢
  obtain ⟨hv, hr, hx, -⟩ := h
  rw [ownWord_bit 0 (by decide), ownWord_bit 1 (by decide), ownWord_bit 2 (by decide),
    ownWord_bit 3 (by decide), ownWord_bit 8 (by decide), hv, hr, hx]
  simp

theorem userPte_guard (h : UserPte w) : UserPte (guardWord w) := by
  rw [userPte_iff_bits] at h ⊢
  obtain ⟨hv, hr, hx, hc⟩ := h
  rw [guardWord_bit 0 (by decide), guardWord_bit 1 (by decide), guardWord_bit 2 (by decide),
    guardWord_bit 3 (by decide), guardWord_bit 8 (by decide), hv, hr, hx, hc]
  simp

/-- The child's entry of `uvmcopy` has the bits of the parent's new entry. -/
theorem mapWord_flags_bit (pa : Nat) (h : w.has PTE_V = true) (k : Nat) (hk : k < 10) :
    (mapWord pa (PTE_FLAGS w)).getLsbD k = w.getLsbD k := by
  rw [mapWord_bit _ k hk, bit_FLAGS]
  by_cases h0 : k = 0
  · subst h0
    rw [has_V] at h
    simp [h]
  · simp [hk, h0]

theorem userPte_copy (h : UserPte w) : UserPte (mapWord pa (PTE_FLAGS w)) := by
  have hb := mapWord_flags_bit pa h.v
  rw [userPte_iff_bits] at h ⊢
  rw [hb 0 (by decide), hb 1 (by decide), hb 2 (by decide), hb 3 (by decide), hb 8 (by decide)]
  exact h

theorem mapWord_ownFlags_bit (pa : Nat) (h : w.has PTE_V = true) (k : Nat) (hk : k < 10) :
    (mapWord pa (ownFlags w)).getLsbD k = (ownWord w).getLsbD k := by
  rw [mapWord_bit _ k hk, ownFlags_bit k hk, ownWord_bit k hk]
  by_cases h0 : k = 0
  · subst h0
    rw [has_V] at h
    simp [h]
  · simp [h0]

theorem userPte_ownFlags (h : UserPte w) : UserPte (mapWord pa (ownFlags w)) := by
  have hb := mapWord_ownFlags_bit pa h.v
  have ho := userPte_own h
  rw [userPte_iff_bits] at ho ⊢
  rw [hb 0 (by decide), hb 1 (by decide), hb 2 (by decide), hb 3 (by decide), hb 8 (by decide)]
  exact ho

theorem ownFlags_lt : (ownFlags w).toNat < 2^10 := by
  have h1 : (PTE_FLAGS w &&& ~~~PTE_COW).toNat < 2^10 := by
    rw [BitVec.toNat_and]
    exact lt_of_le_of_lt Nat.and_le_left (flags_lt w)
  rw [ownFlags, BitVec.toNat_or]
  exact Nat.or_lt_two_pow h1 (by decide)

end Words

end Xv6
