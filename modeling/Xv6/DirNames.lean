import Xv6.FsDir
import Mathlib.Data.List.TakeWhile

/-! What names mean. A name counts up to its first NUL and with at most `DIRSIZ` bytes. -/
namespace Xv6

def cstring (n : Nat) (s : List UInt8) : List UInt8 := (s.take n).takeWhile (· ≠ 0)

def nameKey (name : List UInt8) : List UInt8 := cstring DIRSIZ name

theorem cstring_succ (n : Nat) (s : List UInt8) : cstring (n+1) s =
    if s.headD 0 = 0 then [] else s.headD 0 :: cstring n s.tail := by
  unfold cstring
  cases s with
  | nil => rfl
  | cons c s =>
    rw [List.take_succ_cons, List.takeWhile_cons]
    by_cases hc : c = 0
    · simp [hc]
    · simp [hc]

theorem strncmp_eq_zero (n : Nat) : ∀ p q, strncmp p q n = 0 ↔ cstring n p = cstring n q := by
  induction n with
  | zero =>
    intro p q
    exact iff_of_true rfl rfl
  | succ n ih =>
    intro p q
    unfold strncmp
    rw [cstring_succ, cstring_succ]
    by_cases h : p.headD 0 ≠ 0 ∧ p.headD 0 = q.headD 0
    · rw [if_pos h, if_neg h.1, if_neg (h.2 ▸ h.1), ih, h.2, List.cons_inj_right]
    · -- The strings end here, or differ in this byte.
      rw [if_neg h]
      have hz : ((p.headD 0).toNat : Int) - (q.headD 0).toNat = 0 ↔ p.headD 0 = q.headD 0 := by
        rw [Int.sub_eq_zero, Int.ofNat_inj, UInt8.toNat_inj]
      rw [hz]
      by_cases hp : p.headD 0 = 0
      · rw [if_pos hp, hp]
        by_cases hq : q.headD 0 = 0
        · rw [if_pos hq, hq]
          exact iff_of_true rfl rfl
        · rw [if_neg hq]
          exact iff_of_false (fun he => hq he.symm) (by simp)
      · have hne : p.headD 0 ≠ q.headD 0 := fun he => h ⟨hp, he⟩
        rw [if_neg hp]
        refine iff_of_false hne ?_
        split_ifs
        · simp
        · intro he
          exact hne (List.cons.inj he).1

theorem namecmp_eq_zero (s t : List UInt8) : namecmp s t = 0 ↔ nameKey s = nameKey t :=
  strncmp_eq_zero DIRSIZ s t

theorem strncpy_length (t : List UInt8) (n : Nat) : (strncpy t n).length = n := by
  induction n generalizing t with
  | zero => rfl
  | succ n ih =>
    unfold strncpy
    split_ifs
    · exact List.length_replicate
    · rw [List.length_cons, ih]

theorem cstring_strncpy (n : Nat) : ∀ t, cstring n (strncpy t n) = cstring n t := by
  induction n with
  | zero =>
    intro t
    rfl
  | succ n ih =>
    intro t
    rw [cstring_succ, cstring_succ]
    unfold strncpy
    by_cases h : t.headD 0 = 0
    · rw [if_pos h, if_pos h]
      rfl
    · rw [if_neg h, if_neg h, List.headD_cons, if_neg h, List.tail_cons, ih]

theorem nameKey_strncpy (name : List UInt8) : nameKey (strncpy name DIRSIZ) = nameKey name :=
  cstring_strncpy DIRSIZ name

theorem direntName_dirent (inum : Nat) (name : List UInt8) :
    direntName (dirent inum name) = strncpy name DIRSIZ := rfl

theorem dirent_length (inum : Nat) (name : List UInt8) : (dirent inum name).length = DIRENT := by
  unfold dirent
  rw [List.length_cons, List.length_cons, strncpy_length]
  rfl

theorem direntInum_dirent (inum : Nat) (name : List UInt8) :
    direntInum (dirent inum name) = inum % 2^16 := by
  change (UInt8.ofNat inum).toNat + 256*(UInt8.ofNat (inum/256)).toNat = _
  rw [UInt8.toNat_ofNat', UInt8.toNat_ofNat']
  omega

def entryAt (data : List UInt8) (k : Nat) : List UInt8 := (data.drop (k*DIRENT)).take DIRENT

end Xv6
