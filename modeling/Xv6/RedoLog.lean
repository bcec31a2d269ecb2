import Mathlib.Logic.Function.Basic
import Mathlib.Data.List.Basic

/-! Disks as functions, lists of writes to them, and what a list of writes does
when a part of it was done before. Nothing here names a data structure of the
kernel. -/
namespace Xv6

open Function

variable {β : Type}

/-- The disk after a list of single-block writes, the first one first. -/
def applyWrites (d : Nat → β) (ws : List (Nat × β)) : Nat → β :=
  ws.foldl (fun d w => update d w.1 w.2) d

@[simp] theorem applyWrites_nil (d : Nat → β) : applyWrites d [] = d := rfl

theorem applyWrites_cons (d : Nat → β) (w : Nat × β) (ws : List (Nat × β)) :
    applyWrites d (w :: ws) = applyWrites (update d w.1 w.2) ws := rfl

theorem applyWrites_append (d : Nat → β) (ws vs : List (Nat × β)) :
    applyWrites d (ws ++ vs) = applyWrites (applyWrites d ws) vs := List.foldl_append

theorem applyWrites_of_not_mem {ws : List (Nat × β)} (d : Nat → β) {x : Nat}
    (h : ∀ w ∈ ws, w.1 ≠ x) : applyWrites d ws x = d x := by
  induction ws generalizing d with
  | nil => rfl
  | cons w ws ih =>
    rw [applyWrites_cons, ih _ fun v hv => h v (List.mem_cons_of_mem _ hv)]
    exact update_of_ne (Ne.symm (h w (by simp))) _ _

theorem applyWrites_same {ws : List (Nat × β)} {x : Nat} (v : β) (d : Nat → β)
    (hd : d x = v) (h : ∀ w ∈ ws, w.1 = x → w.2 = v) : applyWrites d ws x = v := by
  induction ws generalizing d with
  | nil => exact hd
  | cons w ws ih =>
    rw [applyWrites_cons]
    apply ih
    · by_cases hx : x = w.1
      · rw [hx, update_self]
        exact h w List.mem_cons_self hx.symm
      · rw [update_of_ne hx]
        exact hd
    · intro v' hv'
      exact h v' (List.mem_cons_of_mem w hv')

theorem applyWrites_congr {ws : List (Nat × β)} {d e : Nat → β} {x : Nat}
    (h : (∃ w ∈ ws, w.1 = x) ∨ d x = e x) : applyWrites d ws x = applyWrites e ws x := by
  induction ws generalizing d e with
  | nil =>
    rcases h with ⟨w, hw, -⟩ | h
    · cases hw
    · exact h
  | cons w ws ih =>
    rw [applyWrites_cons, applyWrites_cons]
    apply ih
    by_cases hx : x = w.1
    · subst hx
      right
      rw [update_self, update_self]
    · rcases h with ⟨v, hv, hvx⟩ | h
      · left
        rcases List.mem_cons.mp hv with rfl | hv
        · exact absurd hvx.symm hx
        · exact ⟨v, hv, hvx⟩
      · right
        rw [update_of_ne hx, update_of_ne hx]
        exact h

theorem applyWrites_take_all (d : Nat → β) (ws : List (Nat × β)) (j : Nat) :
    applyWrites (applyWrites d (ws.take j)) ws = applyWrites d ws := by
  funext x
  apply applyWrites_congr
  by_cases h : ∃ w ∈ ws, w.1 = x
  · exact Or.inl h
  · right
    apply applyWrites_of_not_mem
    intro w hw hwx
    exact h ⟨w, List.mem_of_mem_take hw, hwx⟩

/-- With distinct targets, each target gets what is written to it. -/
theorem applyWrites_of_mem {ws : List (Nat × β)} (d : Nat → β) (hn : (ws.map Prod.fst).Nodup)
    {w : Nat × β} (h : w ∈ ws) : applyWrites d ws w.1 = w.2 := by
  induction ws generalizing d with
  | nil => cases h
  | cons v ws ih =>
    rw [List.map_cons, List.nodup_cons] at hn
    rw [applyWrites_cons]
    rcases List.mem_cons.mp h with rfl | h
    · rw [applyWrites_of_not_mem]
      · exact update_self _ _ _
      · intro u hu he
        exact hn.1 (List.mem_map.mpr ⟨u, hu, he⟩)
    · exact ih _ hn.2 h

end Xv6
