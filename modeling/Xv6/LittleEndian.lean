import Mathlib.Algebra.Order.Ring.Nat
import Mathlib.Tactic.Ring
import Mathlib.Tactic.Linarith

/-! Fixed-width little-endian words in an array of bytes, and block copies into
one. The array is read by offset; its length belongs to its user. -/
namespace Xv6

abbrev Bytes := Nat → UInt8

def leGet : Nat → Bytes → Nat → Nat
  | 0, _, _ => 0
  | k+1, b, o => (b o).toNat + 256 * leGet k b (o+1)

/-- Store `v`, taken modulo `256^k`, as the `k`-byte word at offset `o`. -/
def leSet (k : Nat) (b : Bytes) (o v : Nat) : Bytes := fun i =>
  if o ≤ i ∧ i < o+k then UInt8.ofNat (v / 256^(i-o)) else b i

theorem leGet_congr (k : Nat) (b c : Bytes) (o : Nat)
    (h : ∀ i, o ≤ i → i < o+k → b i = c i) : leGet k b o = leGet k c o := by
  induction k generalizing o with
  | zero => rfl
  | succ k ih =>
    simp only [leGet]
    rw [h o le_rfl (by omega), ih (o+1) (fun i h1 h2 => h i (by omega) (by omega))]

theorem leGet_lt (k : Nat) (b : Bytes) (o : Nat) : leGet k b o < 256^k := by
  induction k generalizing o with
  | zero => simp [leGet]
  | succ k ih =>
    have hb := (b o).toNat_lt
    have hi := ih (o+1)
    simp only [leGet]
    rw [pow_succ]
    omega

theorem leGet_leSet_same (k : Nat) (b : Bytes) (o v : Nat) :
    leGet k (leSet k b o v) o = v % 256^k := by
  -- Reading `j` bytes from the middle of the stored word gives the matching digits.
  have hmid : ∀ j d, d+j ≤ k → leGet j (leSet k b o v) (o+d) = v / 256^d % 256^j := by
    intro j
    induction j with
    | zero => intro d _; simp [leGet, Nat.mod_one]
    | succ j ih =>
      intro d hd
      have hbyte : (leSet k b o v (o+d)).toNat = v / 256^d % 256 := by
        simp only [leSet]
        rw [if_pos ⟨by omega, by omega⟩]
        simp [UInt8.toNat_ofNat']
      have hrest := ih (d+1) (by omega)
      simp only [leGet]
      rw [hbyte, show o+d+1 = o+(d+1) by omega, hrest, pow_succ 256 d, ← Nat.div_div_eq_div_mul,
        pow_succ' 256 j, Nat.mod_mul]
  simpa using hmid k 0 (by omega)

theorem leGet_leSet_of_disjoint (k l : Nat) (b : Bytes) (o p v : Nat)
    (h : o+k ≤ p ∨ p+l ≤ o) : leGet k (leSet l b p v) o = leGet k b o := by
  apply leGet_congr
  intro i h1 h2
  simp only [leSet]
  rw [if_neg (by omega)]

def blit (b : Bytes) (o : Nat) (src : List UInt8) : Bytes := fun i =>
  if o ≤ i ∧ i < o+src.length then src.getD (i-o) 0 else b i

@[simp] theorem blit_nil (b : Bytes) (o : Nat) : blit b o [] = b := by
  funext i
  simp only [blit, List.length_nil]
  rw [if_neg (by omega)]

theorem blit_at (b : Bytes) (o : Nat) (src : List UInt8) (j : Nat) (h : j < src.length) :
    blit b o src (o+j) = src.getD j 0 := by
  simp only [blit]
  rw [if_pos ⟨by omega, by omega⟩]
  congr 1
  omega

end Xv6
