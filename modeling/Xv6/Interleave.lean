import Xv6.KernelProg
import Mathlib.Algebra.BigOperators.Fin
import Mathlib.Algebra.Order.BigOperators.Group.Finset

/-! Processes with program counters: a total over all of them, how one step of one
process changes it, and whole runs of steps that are evaluated. Nothing here names
a data structure of the kernel. -/
namespace Xv6

open Function
open scoped BigOperators

variable {ι α : Type} [Fintype ι]

/-- The weights of where all processes stand, added up. -/
def total (w : α → Nat) (pc : ι → α) : Nat := ∑ p, w (pc p)

section
variable (w : α → Nat) (pc pc' : ι → α)

theorem total_congr (h : ∀ p, w (pc' p) = w (pc p)) : total w pc' = total w pc :=
  Finset.sum_congr rfl fun p _ => h p

theorem le_total (p : ι) : w (pc p) ≤ total w pc :=
  Finset.single_le_sum (f := fun q => w (pc q)) (fun _ _ => Nat.zero_le _) (Finset.mem_univ p)

theorem total_eq_zero : total w pc = 0 ↔ ∀ p, w (pc p) = 0 := by
  unfold total
  rw [Finset.sum_eq_zero_iff]
  constructor
  · intro h p
    exact h p (Finset.mem_univ p)
  · intro h p _
    exact h p

theorem exists_of_total_pos (h : 0 < total w pc) : ∃ p, 0 < w (pc p) := by
  by_contra hno
  push Not at hno
  have hz : total w pc = 0 := (total_eq_zero w pc).mpr fun p => Nat.le_zero.mp (hno p)
  omega

theorem total_le_mul (w' : α → Nat) (c : Nat) (h : ∀ x, w x ≤ c*w' x) :
    total w pc ≤ c*total w' pc := by
  unfold total
  rw [Finset.mul_sum]
  exact Finset.sum_le_sum fun p _ => h (pc p)

variable [DecidableEq ι]

/-- One process moves: its old weight goes and its new one comes. -/
theorem total_update (p : ι) (x : α) :
    total w (update pc p x) + w (pc p) = total w pc + w x := by
  unfold total
  rw [← Finset.add_sum_erase _ _ (Finset.mem_univ p),
    ← Finset.add_sum_erase _ (fun q => w (pc q)) (Finset.mem_univ p), update_self]
  have hrest : ∑ q ∈ Finset.univ.erase p, w (update pc p x q) =
      ∑ q ∈ Finset.univ.erase p, w (pc q) := by
    apply Finset.sum_congr rfl
    intro q hq
    rw [update_of_ne (Finset.ne_of_mem_erase hq)]
  rw [hrest]
  omega

theorem total_update_same {p : ι} {x : α} (h : w x = w (pc p)) : total w (update pc p x) = total w pc := by
  have hsum := total_update w pc p x
  omega

end

section Exec
variable {σ ω : Type} (enabled : σ → ω → Prop) [∀ s o, Decidable (enabled s o)]
  (run : ω → Prog σ Unit)

def runSteps : List ω → σ → Option σ
  | [], s => some s
  | o :: os, s =>
    if enabled s o then
      match run o s with
      | .ok ((), s') => runSteps os s'
      | .error _ => none
    else none

theorem runSteps_follows {τ : Type} {R : σ → τ → Prop} (f : τ → ω → τ)
    (hstep : ∀ s t o s', R s t → enabled s o → run o s = .ok ((), s') → R s' (f t o)) (os : List ω) :
    ∀ {s s' : σ} {t : τ}, R s t → runSteps enabled run os s = some s' → R s' (os.foldl f t) := by
  induction os with
  | nil =>
    intro s s' t h he
    cases he
    exact h
  | cons o os ih =>
    intro s s' t h he
    unfold runSteps at he
    split_ifs at he with hen
    cases hrun : run o s with
    | error e =>
      rw [hrun] at he
      cases he
    | ok r =>
      obtain ⟨⟨⟩, s1⟩ := r
      rw [hrun] at he
      exact ih (hstep s t o s1 h hen hrun) he

theorem runSteps_keeps {P : σ → Prop}
    (hstep : ∀ s o s', P s → enabled s o → run o s = .ok ((), s') → P s') (os : List ω) :
    ∀ {s s' : σ}, P s → runSteps enabled run os s = some s' → P s' := by
  intro s s' h he
  exact runSteps_follows enabled run (R := fun s (_ : Unit) => P s) (fun t _ => t)
    (fun s _ o s' h he hrun => hstep s o s' h he hrun) os (t := ()) h he

/-- The states of a system that starts in `init` and takes enabled steps. -/
inductive Reaches (init : σ → Prop) (enabled : σ → ω → Prop) (run : ω → Prog σ Unit) : σ → Prop
  | init {s : σ} : init s → Reaches init enabled run s
  | step {s s' : σ} {o : ω} : Reaches init enabled run s → enabled s o → run o s = .ok ((), s') →
      Reaches init enabled run s'

end Exec

section Reaches
variable {σ ω : Type} {init : σ → Prop} {enabled : σ → ω → Prop} {run : ω → Prog σ Unit}

/-- What holds in the beginning and is kept by every step holds always. -/
theorem Reaches.invariant {I : σ → Prop} (hinit : ∀ s, init s → I s)
    (hstep : ∀ s o, I s → enabled s o → Ends (run o) s fun _ s' => I s') {s : σ}
    (h : Reaches init enabled run s) : I s := by
  induction h with
  | init h0 => exact hinit _ h0
  | step _ he hrun ih => exact hstep _ _ ih he () _ hrun

theorem Reaches.trans {s s' : σ} (h : Reaches init enabled run s)
    (h' : Reaches (fun t => t = s) enabled run s') : Reaches init enabled run s' := by
  induction h' with
  | init h0 =>
    rw [h0]
    exact h
  | step _ he hrun ih => exact ih.step he hrun

theorem Reaches.exec [∀ s o, Decidable (enabled s o)] {os : List ω} {s s' : σ}
    (h : Reaches init enabled run s) (he : runSteps enabled run os s = some s') :
    Reaches init enabled run s' :=
  runSteps_keeps enabled run (fun _ _ _ h he hrun => h.step he hrun) os h he

end Reaches

end Xv6
