import Mathlib.Logic.Function.Basic
import Mathlib.Tactic.Common

/-! Blocks that are handed out to places: each place holds a block of its own or none,
and a block is marked as used exactly when some place holds it. Nothing here names a
data structure of the kernel. -/
namespace Xv6

open Function

variable {ι : Type} {own : ι → Nat} {used : Nat → Bool} {area : Nat → Prop}

/-- The block of place `p` is `own p`, and 0 stands for none. -/
structure Owns (own : ι → Nat) (used : Nat → Bool) (area : Nat → Prop) : Prop where
  inside : ∀ p, own p ≠ 0 → area (own p)
  inj : ∀ p q, own p ≠ 0 → own p = own q → p = q
  used : ∀ b, area b → (used b = true ↔ ∃ p, own p = b)

theorem Owns.used_own (h : Owns own used area) {p : ι} (hp : own p ≠ 0) : used (own p) = true :=
  (h.used _ (h.inside p hp)).mpr ⟨p, rfl⟩

variable [DecidableEq ι]

/-- Place `p` gets block `c` instead of its own, or none. -/
theorem Owns.set (h : Owns own used area) (h0 : ¬ area 0) {p : ι} {c : Nat} {used' : Nat → Bool}
    (hc : c ≠ 0 → area c ∧ ∀ q, own q ≠ c)
    (hused : ∀ x, area x → (used' x = true ↔ x = c ∨ used x = true ∧ x ≠ own p)) :
    Owns (update own p c) used' area := by
  refine ⟨?_, ?_, ?_⟩
  · intro q hq
    by_cases hqp : q = p
    · rw [hqp, update_self] at hq ⊢
      exact (hc hq).1
    · rw [update_of_ne hqp] at hq ⊢
      exact h.inside q hq
  · intro q r hq hqr
    by_cases hqp : q = p <;> by_cases hrp : r = p
    · rw [hqp, hrp]
    · rw [hqp, update_self] at hq hqr
      rw [update_of_ne hrp] at hqr
      exact absurd hqr.symm ((hc hq).2 r)
    · rw [update_of_ne hqp] at hq hqr
      rw [hrp, update_self] at hqr
      exact absurd hqr ((hc (hqr ▸ hq)).2 q)
    · rw [update_of_ne hqp] at hq hqr
      rw [update_of_ne hrp] at hqr
      exact h.inj q r hq hqr
  · intro x hx
    rw [hused x hx, h.used x hx]
    constructor
    · rintro (rfl | ⟨⟨q, hq⟩, hne⟩)
      · exact ⟨p, update_self ..⟩
      · have hqp : q ≠ p := fun heq => hne (heq ▸ hq.symm)
        exact ⟨q, (update_of_ne hqp _ _).trans hq⟩
    · intro ⟨q, hq⟩
      by_cases hqp : q = p
      · rw [hqp, update_self] at hq
        exact Or.inl hq.symm
      · -- No other place has the block that `p` had.
        rw [update_of_ne hqp] at hq
        refine Or.inr ⟨⟨q, hq⟩, fun heq => hqp (h.inj q p ?_ (hq.trans heq))⟩
        intro hz
        exact h0 (hz ▸ hq ▸ hx)

theorem Owns.assign (h : Owns own used area) (h0 : ¬ area 0) {p : ι} {b : Nat} (hp : own p = 0)
    (hb : area b) (hu : used b = false) :
    Owns (update own p b) (update used b true) area := by
  refine h.set h0 (fun _ => ⟨hb, fun q hq => ?_⟩) fun x hx => ?_
  · rw [(h.used b hb).mpr ⟨q, hq⟩] at hu
    cases hu
  · have hne : x ≠ own p := fun heq => h0 (hp ▸ heq ▸ hx)
    by_cases hxb : x = b
    · simp [hxb]
    · simp [hxb, hne]

theorem Owns.release (h : Owns own used area) (h0 : ¬ area 0) (p : ι) :
    Owns (update own p 0) (update used (own p) false) area := by
  refine h.set h0 (fun hc => absurd rfl hc) fun x hx => ?_
  have hne : x ≠ 0 := fun heq => h0 (heq ▸ hx)
  by_cases hxp : x = own p
  · subst hxp
    simp [hne]
  · simp [hxp, hne]

end Xv6
