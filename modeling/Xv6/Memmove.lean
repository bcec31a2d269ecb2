import Xv6.LittleEndian
import Mathlib.Logic.Function.Basic
import Mathlib.Tactic.Common

/-! The two `memmove`s, of `kernel/string.c` and of `user/ulib.c`, on a memory of bytes with
64-bit pointers. Both have the same two loops and choose between them by different tests. -/
namespace Xv6

open Function

/-- `while(n-- > 0) *d++ = *s++;` -/
def copyUp : Nat → Nat → Nat → Bytes → Bytes
  | 0, _, _, mem => mem
  | n+1, d, s, mem => copyUp n ((d+1) % 2^64) ((s+1) % 2^64) (update mem d (mem s))

/-- `while(n-- > 0) *--d = *--s;` -/
def copyDown : Nat → Nat → Nat → Bytes → Bytes
  | 0, _, _, mem => mem
  | n+1, d, s, mem =>
    let d := (d+2^64-1) % 2^64
    let s := (s+2^64-1) % 2^64
    copyDown n d s (update mem d (mem s))

/-- The kernel's `memmove`. The pointer `s + n` wraps. -/
def memmove (mem : Bytes) (dst src : Nat) (n : UInt32) : Nat × Bytes :=
  if src < dst ∧ (src+n.toNat) % 2^64 > dst then
    (dst, copyDown n.toNat ((dst+n.toNat) % 2^64) ((src+n.toNat) % 2^64) mem)
  else (dst, copyUp n.toNat dst src mem)

def Ulib.memmove (mem : Bytes) (vdst vsrc : Nat) (n : Int32) : Nat × Bytes :=
  if vsrc > vdst then (vdst, copyUp n.toInt.toNat vdst vsrc mem)
  else (vdst, copyDown n.toInt.toNat ((vdst+n.toInt) % 2^64).toNat ((vsrc+n.toInt) % 2^64).toNat mem)

/-- The bytes at `src` put at `dst`, all read before any is written. -/
def moved (mem : Bytes) (dst src n : Nat) : Bytes := fun a =>
  if dst ≤ a ∧ a < dst+n then mem (src+(a-dst)) else mem a

section Moved
variable {mem : Bytes} {dst src n : Nat}

theorem moved_inside {i : Nat} (h : i < n) : moved mem dst src n (dst+i) = mem (src+i) := by
  unfold moved
  rw [if_pos (by omega), Nat.add_sub_cancel_left]

theorem moved_outside {a : Nat} (h : a < dst ∨ dst+n ≤ a) : moved mem dst src n a = mem a := by
  unfold moved
  rw [if_neg (by omega)]

/-- The first byte moved by itself, then the others, if it lies on none that is still to be read. -/
theorem moved_first (h : dst ≤ src ∨ src+n < dst) :
    moved (update mem dst (mem src)) (dst+1) (src+1) n = moved mem dst src (n+1) := by
  funext a
  unfold moved
  by_cases ha : a = dst
  · rw [if_neg (by omega), if_pos (by omega), ha, update_self, Nat.sub_self, Nat.add_zero]
  · rw [update_of_ne ha]
    by_cases hin : dst+1 ≤ a ∧ a < dst+1+n
    · have hfrom : src+1+(a-(dst+1)) = src+(a-dst) := by omega
      rw [if_pos hin, if_pos (by omega), hfrom, update_of_ne (by omega)]
    · rw [if_neg hin, if_neg (by omega)]

theorem moved_last (h : src ≤ dst ∨ dst+n < src) :
    moved (update mem (dst+n) (mem (src+n))) dst src n = moved mem dst src (n+1) := by
  funext a
  unfold moved
  by_cases ha : a = dst+n
  · rw [if_neg (by omega), if_pos (by omega), ha, update_self, Nat.add_sub_cancel_left]
  · rw [update_of_ne ha]
    by_cases hin : dst ≤ a ∧ a < dst+n
    · rw [if_pos hin, if_pos (by omega), update_of_ne (by omega)]
    · rw [if_neg hin, if_neg (by omega)]

theorem moved_zero : moved mem dst src 0 = mem := by
  funext a
  exact moved_outside (by omega)

end Moved

section Loops

/-- Upwards nothing unread is overwritten if the destination does not start inside the source
behind its first byte. -/
theorem copyUp_eq (n : Nat) : ∀ {dst src : Nat} {mem : Bytes}, dst+n ≤ 2^64 → src+n ≤ 2^64 →
    (dst ≤ src ∨ src+n ≤ dst) → copyUp n dst src mem = moved mem dst src n := by
  induction n with
  | zero =>
    intro dst src mem _ _ _
    exact moved_zero.symm
  | succ n ih =>
    intro dst src mem hd hs h
    rw [← moved_first (by omega)]
    unfold copyUp
    by_cases hn : n = 0
    · rw [hn, moved_zero]
      rfl
    · rw [Nat.mod_eq_of_lt (by omega), Nat.mod_eq_of_lt (by omega)]
      exact ih (by omega) (by omega) (by omega)

theorem copyDown_eq (n : Nat) : ∀ {dst src : Nat} {mem : Bytes}, dst+n ≤ 2^64 → src+n ≤ 2^64 →
    (src ≤ dst ∨ dst+n ≤ src) →
    copyDown n ((dst+n) % 2^64) ((src+n) % 2^64) mem = moved mem dst src n := by
  induction n with
  | zero =>
    intro dst src mem _ _ _
    exact moved_zero.symm
  | succ n ih =>
    intro dst src mem hd hs h
    -- one below the end, also where the end is the top of the address space and wraps to 0
    have hback : ∀ a, a+(n+1) ≤ 2^64 → ((a+(n+1)) % 2^64+2^64-1) % 2^64 = a+n := by
      intro a ha
      omega
    have hkept : ∀ a, a+(n+1) ≤ 2^64 → a+n = (a+n) % 2^64 := by
      intro a ha
      exact (Nat.mod_eq_of_lt (by omega)).symm
    unfold copyDown
    rw [hback dst hd, hback src hs, ← moved_last (by omega)]
    rw [← ih (by omega) (by omega) (by omega), ← hkept dst hd, ← hkept src hs]

end Loops

section Both
variable {mem : Bytes} {dst src n : Nat}

/-- The test `s + n > d` of the kernel is exact: with `s < d` the end of the source lies below
that of the destination, so it does not wrap. -/
theorem memmove_eq (hn : n < 2^31) (hd : dst+n ≤ 2^64) (hs : src+n ≤ 2^64) :
    memmove mem dst src (UInt32.ofNat n) = (dst, moved mem dst src n) := by
  unfold memmove
  rw [UInt32.toNat_ofNat_of_lt' (by change n < 2^32; omega)]
  by_cases hlt : src < dst
  · have hend : (src+n) % 2^64 = src+n := Nat.mod_eq_of_lt (by omega)
    by_cases hin : src+n > dst
    · rw [if_pos ⟨hlt, hend.symm ▸ hin⟩, copyDown_eq n hd hs (by omega)]
    · rw [if_neg (by omega), copyUp_eq n hd hs (by omega)]
  · rw [if_neg (by omega), copyUp_eq n hd hs (by omega)]

theorem Ulib.memmove_eq (hn : n < 2^31) (hd : dst+n ≤ 2^64) (hs : src+n ≤ 2^64) :
    Ulib.memmove mem dst src (Int32.ofNat n) = (dst, moved mem dst src n) := by
  unfold Ulib.memmove
  rw [Int32.toInt_ofNat_of_lt hn, Int.toNat_natCast]
  by_cases hup : src > dst
  · rw [if_pos hup, copyUp_eq n hd hs (by omega)]
  · have hend : ∀ a : Nat, (((a:Int)+n) % 2^64).toNat = (a+n) % 2^64 := by
      intro a
      omega
    rw [if_neg hup, hend, hend, copyDown_eq n hd hs (by omega)]

end Both

/-- Every byte of the destination is the byte that was at its place in the source, and nothing
else changes, wherever the regions lie; the two functions therefore do the same. -/
theorem memmoves_move_and_agree (mem : Bytes) (dst src n : Nat) (hn : n < 2^31)
    (hd : dst+n ≤ 2^64) (hs : src+n ≤ 2^64) :
    (∀ i < n, (memmove mem dst src (UInt32.ofNat n)).2 (dst+i) = mem (src+i)) ∧
    (∀ a, a < dst ∨ dst+n ≤ a → (memmove mem dst src (UInt32.ofNat n)).2 a = mem a) ∧
    (∀ i < n, (Ulib.memmove mem dst src (Int32.ofNat n)).2 (dst+i) = mem (src+i)) ∧
    (∀ a, a < dst ∨ dst+n ≤ a → (Ulib.memmove mem dst src (Int32.ofNat n)).2 a = mem a) ∧
    memmove mem dst src (UInt32.ofNat n) = Ulib.memmove mem dst src (Int32.ofNat n) := by
  rw [memmove_eq hn hd hs, Ulib.memmove_eq hn hd hs]
  have hin : ∀ i < n, moved mem dst src n (dst+i) = mem (src+i) := fun i hi => moved_inside hi
  have hout : ∀ a, a < dst ∨ dst+n ≤ a → moved mem dst src n a = mem a := fun a ha => moved_outside ha
  exact ⟨hin, hout, hin, hout, rfl⟩

/-- Four bytes at the top of the address space, moved up by two onto themselves. -/
theorem memmoves_move_and_agree_at_top :
    (∀ i < 4, (memmove (fun a => a.toUInt8) (2^64-4) (2^64-6) (UInt32.ofNat 4)).2 (2^64-4+i) =
      (2^64-6+i).toUInt8) ∧
    memmove (fun a => a.toUInt8) (2^64-4) (2^64-6) (UInt32.ofNat 4) =
      Ulib.memmove (fun a => a.toUInt8) (2^64-4) (2^64-6) (Int32.ofNat 4) := by
  have h := memmoves_move_and_agree (fun a => a.toUInt8) (2^64-4) (2^64-6) 4
    (by decide) (by decide) (by decide)
  exact ⟨h.1, h.2.2.2.2⟩

end Xv6
