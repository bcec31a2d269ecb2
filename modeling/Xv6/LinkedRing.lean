import Mathlib.Data.List.Chain
import Mathlib.Data.List.Nodup
import Mathlib.Data.Nat.ModEq
import Mathlib.Logic.Function.Basic

/-! Rings: circular doubly linked lists with a head that is not an element, and queues in
the places of an array that are counted modulo its size. Nothing here names a data
structure of the kernel. -/
namespace Xv6

open Function

structure Links (β : Type) where
  next : β → β
  prev : β → β

variable {β : Type}

/-- `y` follows `x`, seen from both sides. -/
def Links.Link (r : Links β) (x y : β) : Prop := r.next x = y ∧ r.prev y = x

/-- From `head` the links go through `l` and back to `head`. -/
structure Ring (r : Links β) (head : β) (l : List β) : Prop where
  nodup : (head :: l).Nodup
  chain : List.IsChain r.Link (head :: (l ++ [head]))

section Walk
variable [DecidableEq β]

/-- The nodes from `x` on along `f`, until `head` is reached; `none` if that takes
more than `n` steps. -/
def visit (f : β → β) (head : β) : Nat → β → Option (List β)
  | 0, _ => none
  | n+1, x => if x = head then some [] else (visit f head n (f x)).map (x :: ·)

/-- The first node from `x` on that satisfies `test`, as a loop finds it. -/
def scan (f : β → β) (head : β) (test : β → Bool) : Nat → β → Option (Option β)
  | 0, _ => none
  | n+1, x =>
    if x = head then some none
    else if test x then some (some x)
    else scan f head test n (f x)

variable {f : β → β} {head : β} {test : β → Bool}

theorem visit_chain (l : List β) : ∀ (n : Nat) (x : β), l.length < n → head ∉ l →
    List.IsChain (fun a b => f a = b) (x :: (l ++ [head])) →
    visit f head n (f x) = some l := by
  induction l with
  | nil =>
    intro n x hn _ hc
    obtain ⟨n, rfl⟩ := Nat.exists_eq_add_of_lt hn
    rw [List.nil_append, List.isChain_cons_cons] at hc
    unfold visit
    rw [if_pos hc.1]
  | cons y l ih =>
    intro n x hn hmem hc
    obtain ⟨n, rfl⟩ : ∃ m, n = m+1 := ⟨n-1, by omega⟩
    rw [List.cons_append, List.isChain_cons_cons] at hc
    rw [List.mem_cons, not_or] at hmem
    have hrest := ih n y (by rw [List.length_cons] at hn; omega) hmem.2 hc.2
    unfold visit
    rw [hc.1, if_neg (fun heq => hmem.1 heq.symm), hrest]
    rfl

/-- Where a visit ends, a search finds the first of the nodes. -/
theorem scan_of_visit {n : Nat} {x : β} {l : List β} (h : visit f head n x = some l) :
    scan f head test n x = some (l.find? test) := by
  induction n generalizing x l with
  | zero => cases h
  | succ n ih =>
    unfold visit at h
    unfold scan
    split_ifs at h ⊢ with hx ht
    · cases h
      rfl
    · obtain ⟨l', _, rfl⟩ := Option.map_eq_some_iff.mp h
      rw [List.find?_cons_of_pos ht]
    · obtain ⟨l', hl', rfl⟩ := Option.map_eq_some_iff.mp h
      rw [ih hl', List.find?_cons_of_neg ht]

end Walk

section Ring
variable {r : Links β} {head b : β} {l l1 l2 : List β}

theorem Ring.head_notMem (h : Ring r head l) : head ∉ l := (List.nodup_cons.mp h.nodup).1

theorem Ring.next_chain (h : Ring r head l) :
    List.IsChain (fun a b => r.next a = b) (head :: (l ++ [head])) :=
  h.chain.imp fun _ _ hl => hl.1

theorem Ring.prev_chain (h : Ring r head l) :
    List.IsChain (fun a b => r.prev a = b) (head :: (l.reverse ++ [head])) := by
  have hrev : head :: (l.reverse ++ [head]) = (head :: (l ++ [head])).reverse := by simp
  rw [hrev, List.isChain_reverse]
  exact h.chain.imp fun _ _ hl => hl.2

variable [DecidableEq β]

theorem Ring.visit_next (h : Ring r head l) {n : Nat} (hn : l.length < n) :
    visit r.next head n (r.next head) = some l :=
  visit_chain l n head hn h.head_notMem h.next_chain

theorem Ring.visit_prev (h : Ring r head l) {n : Nat} (hn : l.length < n) :
    visit r.prev head n (r.prev head) = some l.reverse :=
  visit_chain l.reverse n head (by rw [List.length_reverse]; exact hn)
    (fun hm => h.head_notMem (List.mem_reverse.mp hm)) h.prev_chain

theorem Ring.scan_next (h : Ring r head l) {n : Nat} (hn : l.length < n) (test : β → Bool) :
    scan r.next head test n (r.next head) = some (l.find? test) :=
  scan_of_visit (h.visit_next hn)

theorem Ring.scan_prev (h : Ring r head l) {n : Nat} (hn : l.length < n) (test : β → Bool) :
    scan r.prev head test n (r.prev head) = some (l.reverse.find? test) :=
  scan_of_visit (h.visit_prev hn)

def Links.setNext (r : Links β) (x y : β) : Links β := { r with next := update r.next x y }

def Links.setPrev (r : Links β) (x y : β) : Links β := { r with prev := update r.prev x y }

/-- `b->next->prev = b->prev; b->prev->next = b->next` -/
def Links.unlink (r : Links β) (b : β) : Links β :=
  let r := r.setPrev (r.next b) (r.prev b)
  r.setNext (r.prev b) (r.next b)

/-- `b->next = head.next; b->prev = &head; head.next->prev = b; head.next = b` -/
def Links.pushFront (r : Links β) (head b : β) : Links β :=
  let r := r.setNext b (r.next head)
  let r := r.setPrev b head
  let r := r.setPrev (r.next head) b
  r.setNext head b

theorem Ring.unlink (h : Ring r head (l1 ++ b :: l2)) : Ring (r.unlink b) head (l1 ++ l2) := by
  have hnd := h.nodup
  have hch := h.chain
  have hnd' : (head :: (l1 ++ l2)).Nodup := by
    rw [List.nodup_cons, List.nodup_middle, List.nodup_cons] at hnd
    rw [List.nodup_cons]
    refine ⟨?_, hnd.2.2⟩
    intro hm
    apply hnd.1
    rw [List.mem_append] at hm ⊢
    exact hm.imp id (List.mem_cons_of_mem b)
  -- `y` is the node before `b` and `z` the node behind it.
  obtain ⟨front, y, hfront⟩ : ∃ front y, head :: l1 = front ++ [y] :=
    ⟨(head :: l1).dropLast, (head :: l1).getLast (by simp), (List.dropLast_append_getLast _).symm⟩
  obtain ⟨z, back, hback⟩ : ∃ z back, l2 ++ [head] = z :: back := by
    cases l2 with
    | nil => exact ⟨head, [], rfl⟩
    | cons z l2 => exact ⟨z, l2 ++ [head], rfl⟩
  have hsplit : head :: ((l1 ++ b :: l2) ++ [head]) = front ++ y :: b :: z :: back := by
    calc head :: ((l1 ++ b :: l2) ++ [head])
        = (head :: l1) ++ b :: (l2 ++ [head]) := by simp
      _ = front ++ y :: b :: z :: back := by rw [hfront, hback]; simp
  rw [hsplit, List.isChain_split, List.isChain_cons_cons, List.isChain_cons_cons] at hch
  obtain ⟨hleft, ⟨hyb, hby⟩, ⟨hbz, hzb⟩, hright⟩ := hch
  have hl1 : l1 = (front ++ [y]).tail := by rw [← hfront]; rfl
  rw [List.nodup_cons, List.nodup_middle, List.nodup_cons] at hnd
  obtain ⟨hheadb, hb, hnd12⟩ := hnd
  have hbl : b ∉ l1 := fun hm => hb (List.mem_append_left _ hm)
  have hbr : b ∉ z :: back := by
    rw [← hback, List.mem_append, List.mem_singleton]
    rintro (hm | hm)
    · exact hb (List.mem_append_right _ hm)
    · exact hheadb (by rw [hm]; simp)
  have hzback : (z :: back).Nodup := by
    rw [← hback]
    refine List.Nodup.append (List.Nodup.of_append_right hnd12) (List.nodup_singleton head) ?_
    intro x hx1 hx2
    rw [List.mem_singleton.mp hx2] at hx1
    exact hheadb (List.mem_append_right _ (List.mem_cons_of_mem b hx1))
  have hzl : z ∉ l1 := by
    intro hm
    have hz : z ∈ l2 ++ [head] := by rw [hback]; exact List.mem_cons_self
    rcases List.mem_append.mp hz with hz | hz
    · exact List.disjoint_of_nodup_append hnd12 hm hz
    · rw [List.mem_singleton.mp hz] at hm
      exact hheadb (List.mem_append_left _ hm)
  have hunlink : r.unlink b = ⟨update r.next y z, update r.prev z y⟩ := by
    have hbz' : b ≠ z := fun heq => hbr (heq ▸ List.mem_cons_self)
    unfold Links.unlink Links.setPrev Links.setNext
    dsimp only
    rw [hbz, hby, update_of_ne hbz', hby]
  refine ⟨hnd', ?_⟩
  have hnew : head :: ((l1 ++ l2) ++ [head]) = front ++ y :: z :: back := by
    calc head :: ((l1 ++ l2) ++ [head])
        = (head :: l1) ++ (l2 ++ [head]) := by simp
      _ = front ++ y :: z :: back := by rw [hfront, hback]; simp
  rw [hnew, hunlink, List.isChain_split, List.isChain_cons_cons]
  refine ⟨?_, ⟨update_self .., update_self ..⟩, ?_⟩
  · apply hleft.imp_of_mem_tail_imp
    intro a c _ hc ⟨hac, hca⟩
    rw [← hl1] at hc
    have hay : a ≠ y := by
      intro heq
      rw [heq, hyb] at hac
      exact hbl (hac ▸ hc)
    have hcz : c ≠ z := fun heq => hzl (heq ▸ hc)
    exact ⟨(update_of_ne hay _ _).trans hac, (update_of_ne hcz _ _).trans hca⟩
  · apply hright.imp_of_mem_tail_imp
    intro a c _ hc ⟨hac, hca⟩
    have hay : a ≠ y := by
      intro heq
      rw [heq, hyb] at hac
      exact hbr (hac ▸ List.mem_cons_of_mem z hc)
    have hcz : c ≠ z := fun heq => (List.nodup_cons.mp hzback).1 (heq ▸ hc)
    exact ⟨(update_of_ne hay _ _).trans hac, (update_of_ne hcz _ _).trans hca⟩

theorem Ring.pushFront (h : Ring r head l) (hb : b ∉ head :: l) :
    Ring (r.pushFront head b) head (b :: l) := by
  have hbh : b ≠ head := fun heq => hb (heq ▸ List.mem_cons_self)
  obtain ⟨z, back, hback⟩ : ∃ z back, l ++ [head] = z :: back := by
    cases l with
    | nil => exact ⟨head, [], rfl⟩
    | cons z l => exact ⟨z, l ++ [head], rfl⟩
  have hch := h.chain
  rw [hback, List.isChain_cons_cons] at hch
  obtain ⟨⟨hhz, hzh⟩, hrest⟩ := hch
  have hbz : b ∉ z :: back := by
    rw [← hback, List.mem_append, List.mem_singleton]
    rintro (hm | hm)
    · exact hb (List.mem_cons_of_mem head hm)
    · exact hbh hm
  have hzback : (z :: back).Nodup := by
    rw [← hback]
    refine List.Nodup.append (List.nodup_cons.mp h.nodup).2 (List.nodup_singleton head) ?_
    intro x hx1 hx2
    rw [List.mem_singleton.mp hx2] at hx1
    exact h.head_notMem hx1
  have hpush : r.pushFront head b =
      ⟨update (update r.next b z) head b,
        update (update r.prev b head) z b⟩ := by
    unfold Links.pushFront Links.setPrev Links.setNext
    dsimp only
    rw [hhz, update_of_ne hbh.symm, hhz]
  refine ⟨?_, ?_⟩
  · rw [List.nodup_cons, List.mem_cons, not_or, List.nodup_cons]
    exact ⟨⟨hbh.symm, h.head_notMem⟩, fun hm => hb (List.mem_cons_of_mem head hm),
      (List.nodup_cons.mp h.nodup).2⟩
  · have hbz' : b ≠ z := fun heq => hbz (heq ▸ List.mem_cons_self)
    rw [List.cons_append, hback, List.isChain_cons_cons, List.isChain_cons_cons, hpush]
    refine ⟨⟨update_self .., ?_⟩, ⟨?_, update_self ..⟩, ?_⟩
    · exact (update_of_ne hbz' _ _).trans (update_self ..)
    · exact (update_of_ne hbh _ _).trans (update_self ..)
    · apply hrest.imp_of_mem_tail_imp
      intro a c ha hc ⟨hac, hca⟩
      -- The old pointer of `head` led to `z`, which begins the rest.
      have hah : a ≠ head := by
        intro heq
        rw [heq, hhz] at hac
        exact (List.nodup_cons.mp hzback).1 (hac ▸ hc)
      have hab : a ≠ b := fun heq => hbz (heq ▸ ha)
      have hcz : c ≠ z := fun heq => (List.nodup_cons.mp hzback).1 (heq ▸ hc)
      have hcb : c ≠ b := fun heq => hbz (heq ▸ List.mem_cons_of_mem z hc)
      constructor
      · change update (update r.next b z) head b a = c
        rw [update_of_ne hah, update_of_ne hab]
        exact hac
      · change update (update r.prev b head) z b c = a
        rw [update_of_ne hcz, update_of_ne hcb]
        exact hca

end Ring

section Queue
variable {α : Type} {ring : Nat → α} {n start : Nat} {q : List α} {x : α}

/-- The elements of `q` lie in the array from place `start` on. -/
def QueueAt (ring : Nat → α) (n start : Nat) (q : List α) : Prop :=
  ∀ k x, q[k]? = some x → ring ((start+k) % n) = x

theorem QueueAt.nil : QueueAt ring n start [] := by
  intro k x hk
  cases hk

theorem QueueAt.congr {start' : Nat} (h : QueueAt ring n start q) (hs : start' % n = start % n) :
    QueueAt ring n start' q := by
  intro k x hk
  have hmod : (start'+k) % n = (start+k) % n := Nat.ModEq.add_right k hs
  rw [hmod]
  exact h k x hk

/-- A new element does not touch the others while the queue is shorter than the array. -/
theorem QueueAt.push (h : QueueAt ring n start q) (hlen : q.length < n) (x : α) :
    QueueAt (update ring ((start + q.length) % n) x) n start (q ++ [x]) := by
  intro k y hk
  rcases Nat.lt_trichotomy k q.length with hlt | heq | hgt
  · rw [List.getElem?_append_left hlt] at hk
    have hne : (start+k) % n ≠ (start + q.length) % n := by
      intro hc
      have hmod : k ≡ q.length [MOD n] := Nat.ModEq.add_left_cancel' start hc
      have := Nat.ModEq.eq_of_lt_of_lt hmod (by omega) hlen
      omega
    rw [update_of_ne hne]
    exact h k y hk
  · subst heq
    rw [List.getElem?_append_right (Nat.le_refl _), Nat.sub_self] at hk
    cases hk
    exact update_self ..
  · rw [List.getElem?_eq_none (by rw [List.length_append, List.length_singleton]; omega)] at hk
    cases hk

theorem QueueAt.first (h : QueueAt ring n start (x :: q)) : ring (start % n) = x := h 0 x rfl

theorem QueueAt.pop (h : QueueAt ring n start (x :: q)) : QueueAt ring n (start+1) q := by
  intro k y hk
  rw [Nat.add_right_comm, Nat.add_assoc]
  exact h (k+1) y hk

end Queue

end Xv6
