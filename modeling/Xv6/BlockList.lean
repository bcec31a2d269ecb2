import Mathlib.Data.List.Perm.Basic
import Mathlib.Data.List.Count
import Mathlib.Algebra.BigOperators.Group.List.Basic
import Mathlib.Algebra.Order.Ring.Nat

/-! Address ranges and lists of them threaded through a memory. A list of ranges is
compared with another by how often each covers an address: splitting a range, joining two
neighbours and moving a range between lists leave that count alone. Nothing here names a
program. -/
namespace Xv6

section Cover
variable {β : Type} (lo hi : β → Nat)

/-- How many of the ranges `lo b ≤ · < hi b` contain `x`. -/
def cover (l : List β) (x : Nat) : Nat := l.countP fun b => decide (lo b ≤ x ∧ x < hi b)

def Apart (a b : β) : Prop := hi a ≤ lo b ∨ hi b ≤ lo a

@[simp] theorem cover_nil (x : Nat) : cover lo hi [] x = 0 := rfl

theorem cover_cons (b : β) (l : List β) (x : Nat) :
    cover lo hi (b :: l) x = (if lo b ≤ x ∧ x < hi b then 1 else 0) + cover lo hi l x := by
  simp only [cover, List.countP_cons, decide_eq_true_eq]
  omega

theorem cover_append (l l' : List β) (x : Nat) :
    cover lo hi (l ++ l') x = cover lo hi l x + cover lo hi l' x := List.countP_append

variable {lo hi}

theorem cover_perm {l l' : List β} (h : l.Perm l') (x : Nat) :
    cover lo hi l x = cover lo hi l' x := h.countP_eq _

theorem cover_pos {l : List β} {x : Nat} :
    0 < cover lo hi l x ↔ ∃ b ∈ l, lo b ≤ x ∧ x < hi b := by
  simp [cover, List.countP_pos_iff]

theorem cover_join {a b c : β} (hlo : lo b = lo a) (hmeet : hi a = lo c) (hhi : hi b = hi c)
    (ha : lo a ≤ hi a) (hc : lo c ≤ hi c) (l : List β) (x : Nat) :
    cover lo hi (b :: l) x = cover lo hi (a :: c :: l) x := by
  rw [cover_cons, cover_cons, cover_cons, hlo, hhi]
  split_ifs <;> omega

theorem pairwise_apart {l : List β} (hpos : ∀ b ∈ l, lo b < hi b)
    (h : ∀ x, cover lo hi l x ≤ 1) : l.Pairwise (Apart lo hi) := by
  induction l with
  | nil => exact List.Pairwise.nil
  | cons b l ih =>
    rw [List.pairwise_cons]
    constructor
    · intro c hc
      by_contra hap
      have hb := hpos b List.mem_cons_self
      have hcl := hpos c (List.mem_cons_of_mem _ hc)
      simp only [Apart, not_or, not_le] at hap
      -- The later of the two starts lies in both ranges.
      have hcover : 0 < cover lo hi l (max (lo b) (lo c)) :=
        cover_pos.mpr ⟨c, hc, le_max_right _ _, max_lt hap.2 hcl⟩
      have hx := h (max (lo b) (lo c))
      rw [cover_cons, if_pos ⟨le_max_left _ _, max_lt hb hap.1⟩] at hx
      omega
    · apply ih (fun c hc => hpos c (List.mem_cons_of_mem _ hc))
      intro x
      have hx := h x
      rw [cover_cons] at hx
      omega

end Cover

section Chain
variable {α β : Type} (at_ : β → α)

/-- From node `a` the pointers `next` go through `l` and then to `z`. -/
def Chain (next : α → α) : α → List β → α → Prop
  | a, [], z => next a = z
  | a, b :: l, z => next a = at_ b ∧ Chain next (at_ b) l z

/-- The node in front of what follows `l`, in a list that starts at `a`. -/
def lastNode : α → List β → α
  | a, [] => a
  | _, b :: l => lastNode (at_ b) l

variable {at_} {next next' : α → α}

theorem lastNode_append (a : α) (l l' : List β) :
    lastNode at_ a (l ++ l') = lastNode at_ (lastNode at_ a l) l' := by
  induction l generalizing a with
  | nil => rfl
  | cons b l ih => exact ih (at_ b)

theorem lastNode_mem (a : α) (l : List β) : lastNode at_ a l ∈ a :: l.map at_ := by
  induction l generalizing a with
  | nil => exact List.mem_singleton.mpr rfl
  | cons b l ih => exact List.mem_cons_of_mem _ (ih (at_ b))

theorem chain_append (l l' : List β) (a z : α) :
    Chain at_ next a (l ++ l') z ↔
      Chain at_ next a l (next (lastNode at_ a l)) ∧ Chain at_ next (lastNode at_ a l) l' z := by
  induction l generalizing a with
  | nil => simp [Chain, lastNode]
  | cons b l ih => simp only [List.cons_append, Chain, lastNode, ih (at_ b), and_assoc]

theorem chain_append_cons (l l' : List β) (b : β) (a z : α) :
    Chain at_ next a (l ++ b :: l') z ↔
      Chain at_ next a l (at_ b) ∧ Chain at_ next (at_ b) l' z := by
  induction l generalizing a with
  | nil => exact Iff.rfl
  | cons c l ih => simp only [List.cons_append, Chain, ih (at_ c), and_assoc]

theorem Chain.move {l : List β} {a a' z : α} (h : Chain at_ next a l z)
    (ha : next' a' = next a) (hl : ∀ b ∈ l, next' (at_ b) = next (at_ b)) :
    Chain at_ next' a' l z := by
  induction l generalizing a a' with
  | nil => exact ha.trans h
  | cons b l ih =>
    exact ⟨ha.trans h.1, ih h.2 (hl b List.mem_cons_self)
      fun c hc => hl c (List.mem_cons_of_mem _ hc)⟩

theorem Chain.redirect {l : List β} {a z z' : α} (h : Chain at_ next a l z)
    (hlast : next' (lastNode at_ a l) = z')
    (hl : ∀ x ∈ a :: l.map at_, x ≠ lastNode at_ a l → next' x = next x)
    (hnodup : (a :: l.map at_).Nodup) : Chain at_ next' a l z' := by
  induction l generalizing a with
  | nil => exact hlast
  | cons b l ih =>
    rw [List.map_cons, List.nodup_cons] at hnodup
    have hne : a ≠ lastNode at_ a (b :: l) := by
      intro heq
      apply hnodup.1
      rw [heq]
      exact lastNode_mem (at_ b) l
    refine ⟨(hl a List.mem_cons_self hne).trans h.1, ?_⟩
    exact ih h.2 hlast (fun x hx => hl x (List.mem_cons_of_mem _ hx)) hnodup.2

end Chain

/-- The first element of a list that passes a test, with the list cut there. -/
theorem exists_first {β : Type} (p : β → Prop) [DecidablePred p] (l : List β) :
    (∀ b ∈ l, ¬ p b) ∨ ∃ l1 b l2, l = l1 ++ b :: l2 ∧ p b ∧ ∀ c ∈ l1, ¬ p c := by
  induction l with
  | nil => exact Or.inl fun b hb => absurd hb List.not_mem_nil
  | cons b l ih =>
    by_cases hb : p b
    · exact Or.inr ⟨[], b, l, rfl, hb, fun c hc => absurd hc List.not_mem_nil⟩
    · obtain hall | ⟨l1, c, l2, rfl, hc, hl1⟩ := ih
      · exact Or.inl (List.forall_mem_cons.mpr ⟨hb, hall⟩)
      · exact Or.inr ⟨b :: l1, c, l2, rfl, hc, List.forall_mem_cons.mpr ⟨hb, hl1⟩⟩

end Xv6
