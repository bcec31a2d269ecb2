import Mathlib.Tactic.Common
import Mathlib.Tactic.NormNum
import Mathlib.Tactic.Ring
import Mathlib.Algebra.Order.Ring.Nat

/-! `kernel/riscv.h`, `kernel/memlayout.h` and `kernel/param.h`: page sizes, the
memory map, and the page-table entry as a 64-bit word. -/
namespace Xv6

def NPROC : Nat := 64
def MAXARG : Nat := 32
def PGSIZE : Nat := 4096
def PGSHIFT : Nat := 12

def MAXVA : Nat := 2^(9+9+9+12-1)
def KERNBASE : Nat := 0x80000000
def PHYSTOP : Nat := KERNBASE + 128*1024*1024
def TRAMPOLINE : Nat := MAXVA - PGSIZE
def TRAPFRAME : Nat := TRAMPOLINE - PGSIZE

/-- `uint64` arithmetic: the sum wraps before it is rounded down. -/
def PGROUNDUP (sz : Nat) : Nat := (sz + PGSIZE - 1) % 2^64 / PGSIZE * PGSIZE
def PGROUNDDOWN (a : Nat) : Nat := a / PGSIZE * PGSIZE

abbrev Pte := BitVec 64

def PTE_V : Pte := 1
def PTE_R : Pte := 2
def PTE_W : Pte := 4
def PTE_X : Pte := 8
def PTE_U : Pte := 16
def PTE_COW : Pte := 256

def PA2PTE (pa : Nat) : Pte := (BitVec.ofNat 64 pa >>> 12) <<< 10
def PTE2PA (pte : Pte) : Nat := ((pte >>> 10) <<< 12).toNat
def PTE_FLAGS (pte : Pte) : Pte := pte &&& 0x3FF

def Pte.has (pte flag : Pte) : Bool := (pte &&& flag) != 0

def PXMASK : Nat := 0x1FF
def PXSHIFT (level : Nat) : Nat := PGSHIFT + 9*level
def PX (level va : Nat) : Nat := (va >>> PXSHIFT level) &&& PXMASK

theorem PX_eq (level va : Nat) : PX level va = va / 2^(12+9*level) % 512 := by
  simp only [PX, PXSHIFT, PGSHIFT, PXMASK, Nat.shiftRight_eq_div_pow]
  exact Nat.and_two_pow_sub_one_eq_mod _ 9

theorem PX_lt (level va : Nat) : PX level va < 512 := by
  rw [PX_eq]
  exact Nat.mod_lt _ (by norm_num)

/-- What three indices and an offset can address: twice `MAXVA`. -/
def VASIZE : Nat := 2^(9+9+9+12)

theorem page_eq_of_PX_eq (a b : Nat) (ha : a < VASIZE) (hb : b < VASIZE)
    (h0 : PX 0 a = PX 0 b) (h1 : PX 1 a = PX 1 b) (h2 : PX 2 a = PX 2 b) :
    a / PGSIZE = b / PGSIZE := by
  simp only [PX_eq, VASIZE, PGSIZE] at *
  norm_num at h0 h1 h2 ha hb ⊢
  omega

theorem PX_page (level va : Nat) : PX level (va / PGSIZE * PGSIZE) = PX level va := by
  rw [PX_eq, PX_eq, pow_add, ← Nat.div_div_eq_div_mul, ← Nat.div_div_eq_div_mul]
  norm_num [PGSIZE]

section Words
variable (w : Pte)

theorem and_bit_ne_zero (k : Nat) (hk : k < 64) :
    ((w &&& BitVec.twoPow 64 k) != 0) = w.getLsbD k := by
  by_cases hb : w.getLsbD k = true
  · rw [hb, bne_iff_ne]
    intro hz
    have hc := congrArg (fun v : Pte => v.getLsbD k) hz
    simp only [BitVec.getLsbD_and, BitVec.getLsbD_twoPow, hb, hk] at hc
    simp at hc
  · rw [Bool.not_eq_true] at hb
    rw [hb, bne_eq_false_iff_eq]
    apply BitVec.eq_of_getLsbD_eq
    intro i hi
    simp only [BitVec.getLsbD_and, BitVec.getLsbD_twoPow]
    by_cases hik : k = i
    · subst hik; simp [hb]
    · simp [hik]

theorem has_V : w.has PTE_V = w.getLsbD 0 := and_bit_ne_zero w 0 (by decide)
theorem has_R : w.has PTE_R = w.getLsbD 1 := and_bit_ne_zero w 1 (by decide)
theorem has_W : w.has PTE_W = w.getLsbD 2 := and_bit_ne_zero w 2 (by decide)
theorem has_X : w.has PTE_X = w.getLsbD 3 := and_bit_ne_zero w 3 (by decide)
theorem has_U : w.has PTE_U = w.getLsbD 4 := and_bit_ne_zero w 4 (by decide)
theorem has_COW : w.has PTE_COW = w.getLsbD 8 := and_bit_ne_zero w 8 (by decide)

theorem PTE2PA_congr (v : Pte) (h : ∀ k, 10 ≤ k → k < 64 → w.getLsbD k = v.getLsbD k) :
    PTE2PA w = PTE2PA v := by
  have hw : (w >>> 10) <<< 12 = (v >>> 10) <<< 12 := by
    apply BitVec.eq_of_getLsbD_eq
    intro i hi
    simp only [BitVec.getLsbD_shiftLeft, BitVec.getLsbD_ushiftRight]
    by_cases h12 : i < 12
    · simp [h12]
    · by_cases h64 : 10+(i-12) < 64
      · rw [h _ (by omega) h64]
      · rw [BitVec.getLsbD_of_ge _ _ (by omega), BitVec.getLsbD_of_ge _ _ (by omega)]
  unfold PTE2PA
  rw [hw]

theorem mapped_word_bit (pa : Nat) (perm : Pte) (k : Nat) (hk : k < 10) :
    (PA2PTE pa ||| perm ||| PTE_V).getLsbD k = (perm.getLsbD k || decide (k = 0)) := by
  have hpa : (PA2PTE pa).getLsbD k = false := by
    simp only [PA2PTE, BitVec.getLsbD_shiftLeft]
    simp [hk]
  have hv : PTE_V.getLsbD k = decide (k = 0) := by
    have : PTE_V = BitVec.twoPow 64 0 := by decide
    rw [this, BitVec.getLsbD_twoPow]
    simp [eq_comm]
  rw [BitVec.getLsbD_or, BitVec.getLsbD_or, hpa, hv, Bool.false_or]

theorem PTE2PA_mapped_word (pa : Nat) (perm : Pte) (hal : pa % PGSIZE = 0) (hpa : pa < 2^56)
    (hp : perm.toNat < 2^10) : PTE2PA (PA2PTE pa ||| perm ||| PTE_V) = pa := by
  have hperm (k : Nat) (hk : 10 ≤ k) : perm.getLsbD k = false := by
    rw [BitVec.getLsbD, Nat.testBit_lt_two_pow]
    exact lt_of_lt_of_le hp (Nat.pow_le_pow_right (by decide) hk)
  have hv (k : Nat) (hk : 10 ≤ k) : PTE_V.getLsbD k = false := by
    have : PTE_V = BitVec.twoPow 64 0 := by decide
    rw [this, BitVec.getLsbD_twoPow]
    simp; omega
  have hstrip : PTE2PA (PA2PTE pa ||| perm ||| PTE_V) = PTE2PA (PA2PTE pa) := by
    apply PTE2PA_congr
    intro k hk _
    rw [BitVec.getLsbD_or, BitVec.getLsbD_or, hperm k hk, hv k hk, Bool.or_false, Bool.or_false]
  have hn : (BitVec.ofNat 64 pa).toNat = pa := by
    rw [BitVec.toNat_ofNat, Nat.mod_eq_of_lt (hpa.trans (by norm_num))]
  have hal' : pa % 4096 = 0 := hal
  rw [hstrip, PTE2PA, PA2PTE, BitVec.toNat_shiftLeft, BitVec.toNat_ushiftRight,
    BitVec.toNat_shiftLeft, BitVec.toNat_ushiftRight, hn, Nat.shiftLeft_eq, Nat.shiftLeft_eq,
    Nat.shiftRight_eq_div_pow, Nat.shiftRight_eq_div_pow]
  norm_num at hpa ⊢
  omega

end Words

end Xv6
