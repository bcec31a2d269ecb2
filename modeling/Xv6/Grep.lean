import Mathlib.Data.List.Basic
import Mathlib.Data.List.Forall2
import Mathlib.Tactic.Common

/-! The matcher of `user/grep.c`. A string is the list of its characters before the NUL, so a
pointer into it is the rest of the list, and `re[1]` of a list with one element is the NUL. -/
namespace Xv6.Grep

/-- `if(*text!='\0' && (re[0]=='.' || re[0]==*text)) return matchhere(re+1, text+1); return 0;`
with `rest` for `matchhere(re+1, ·)`. -/
def matchchar (c : UInt8) (rest : List UInt8 → Bool) : List UInt8 → Bool
  | [] => false
  | t :: text => if c = '.'.toUInt8 ∨ c = t then rest text else false

/-- `matchstar(c, re, text)`, with `here` for `matchhere(re, ·)`, which is all it does with `re`. -/
def matchstar (c : UInt8) (here : List UInt8 → Bool) : List UInt8 → Bool
  | [] => here []
  | t :: text =>
    if here (t :: text) then true
    else if t = c ∨ c = '.'.toUInt8 then matchstar c here text else false

def matchhere : List UInt8 → List UInt8 → Bool
  | [], _ => true
  | [c], text => if c = '$'.toUInt8 then text.isEmpty else matchchar c (matchhere []) text
  | c :: d :: re, text =>
    if d = '*'.toUInt8 then matchstar c (matchhere re) text else matchchar c (matchhere (d :: re)) text

/-- The loop of `match`, which also looks at the empty rest of the text. -/
def matchLoop (re : List UInt8) : List UInt8 → Bool
  | [] => matchhere re []
  | t :: text => if matchhere re (t :: text) then true else matchLoop re text

def «match» (re text : List UInt8) : Bool :=
  if re.head? = some '^'.toUInt8 then matchhere re.tail text else matchLoop re text

/-! What a pattern means. -/

inductive Item
  | star (c : UInt8)
  | any
  | lit (c : UInt8)
  | eot
  deriving DecidableEq

/-- The strings that one item stands for. -/
def Item.Accepts : Item → List UInt8 → Prop
  | .star c, w => ∀ x ∈ w, x = c ∨ c = '.'.toUInt8
  | .any, w => ∃ x, w = [x]
  | .lit c, w => w = [c]
  | .eot, w => w = []

def single (c : UInt8) : Item := if c = '.'.toUInt8 then .any else .lit c

/-- The items of a pattern without its leading `^`. A `*` counts behind a character only, and a
`$` as the last character only. -/
def items : List UInt8 → List Item
  | [] => []
  | [c] => if c = '$'.toUInt8 then [.eot] else [single c]
  | c :: d :: re => if d = '*'.toUInt8 then .star c :: items re else single c :: items (d :: re)

/-- The string `w` consists of one part for each item, and `$` asks that no text follows it. -/
def Describes (is : List Item) (w after : List UInt8) : Prop :=
  ∃ parts, List.Forall₂ Item.Accepts is parts ∧ w = parts.flatten ∧ (.eot ∈ is → after = [])

def Found (is : List Item) (text : List UInt8) : Prop :=
  ∃ w after, text = w ++ after ∧ Describes is w after

section Found
variable {is : List Item} {text : List UInt8}

theorem found_nil : Found [] text :=
  ⟨[], text, rfl, [], List.Forall₂.nil, rfl, fun h => absurd h List.not_mem_nil⟩

theorem found_eot : Found [.eot] text ↔ text = [] := by
  constructor
  · intro ⟨w, after, htext, parts, hparts, hw, hafter⟩
    obtain ⟨v, vs, hv, hvs, rfl⟩ := List.forall₂_cons_left_iff.mp hparts
    obtain rfl := List.forall₂_nil_left_iff.mp hvs
    obtain rfl : v = [] := hv
    rw [htext, hw, hafter (List.mem_singleton_self _)]
    rfl
  · intro htext
    exact ⟨[], [], htext, [[]], List.Forall₂.cons rfl List.Forall₂.nil, rfl, fun _ => rfl⟩

/-- Any other item takes a first part, and the items behind it are found in what remains. -/
theorem found_cons {i : Item} (hi : i ≠ .eot) :
    Found (i :: is) text ↔ ∃ v rest, text = v ++ rest ∧ i.Accepts v ∧ Found is rest := by
  constructor
  · intro ⟨w, after, htext, parts, hparts, hw, hafter⟩
    obtain ⟨v, vs, hv, hvs, rfl⟩ := List.forall₂_cons_left_iff.mp hparts
    have hsplit : text = v ++ (vs.flatten ++ after) := by
      rw [htext, hw, List.flatten_cons, List.append_assoc]
    have hend : .eot ∈ is → after = [] := fun h => hafter (List.mem_cons_of_mem _ h)
    exact ⟨v, vs.flatten ++ after, hsplit, hv, vs.flatten, after, rfl, vs, hvs, rfl, hend⟩
  · intro ⟨v, rest, htext, hv, w, after, hrest, parts, hparts, hw, hafter⟩
    have hsplit : text = (v ++ w) ++ after := by
      rw [htext, hrest, List.append_assoc]
    have hflat : v ++ w = (v :: parts).flatten := by
      rw [hw, List.flatten_cons]
    have hend : .eot ∈ i :: is → after = [] := by
      intro h
      obtain heq | h := List.mem_cons.mp h
      · exact absurd heq.symm hi
      · exact hafter h
    exact ⟨v ++ w, after, hsplit, v :: parts, List.Forall₂.cons hv hparts, hflat, hend⟩

end Found

section Loops
variable {here : List UInt8 → Bool} {c : UInt8}

theorem single_ne_eot (c : UInt8) : single c ≠ .eot := by
  unfold single
  split <;> exact nofun

theorem single_accepts (w : List UInt8) :
    (single c).Accepts w ↔ ∃ t, w = [t] ∧ (c = '.'.toUInt8 ∨ c = t) := by
  unfold single
  split_ifs with hc
  · exact ⟨fun ⟨t, ht⟩ => ⟨t, ht, Or.inl hc⟩, fun ⟨t, ht, _⟩ => ⟨t, ht⟩⟩
  · constructor
    · intro h
      exact ⟨c, h, Or.inr rfl⟩
    · intro ⟨t, ht, h⟩
      rw [h.resolve_left hc]
      exact ht

theorem matchchar_iff {is : List Item} (hhere : ∀ text, here text = true ↔ Found is text)
    (text : List UInt8) : matchchar c here text = true ↔ Found (single c :: is) text := by
  rw [found_cons (single_ne_eot c)]
  constructor
  · intro h
    cases text with
    | nil => cases h
    | cons t text =>
      rw [matchchar] at h
      split_ifs at h with hc
      exact ⟨[t], text, rfl, (single_accepts _).mpr ⟨t, rfl, hc⟩, (hhere text).mp h⟩
  · intro ⟨v, rest, htext, hv, hrest⟩
    obtain ⟨t, rfl, hc⟩ := (single_accepts v).mp hv
    rw [htext]
    change (if c = '.'.toUInt8 ∨ c = t then here rest else false) = true
    rw [if_pos hc]
    exact (hhere rest).mpr hrest

/-- The loop tries the runs of the repeated character from the empty one on. -/
theorem matchstar_iff (text : List UInt8) :
    matchstar c here text = true ↔
      ∃ v rest, text = v ++ rest ∧ (Item.star c).Accepts v ∧ here rest = true := by
  constructor
  · intro h
    induction text with
    | nil => exact ⟨[], [], rfl, nofun, h⟩
    | cons t text ih =>
      unfold matchstar at h
      split_ifs at h with hnow hc
      · exact ⟨[], t :: text, rfl, nofun, hnow⟩
      · obtain ⟨v, rest, htext, hv, hrest⟩ := ih h
        rw [htext]
        exact ⟨t :: v, rest, rfl, List.forall_mem_cons.mpr ⟨hc, hv⟩, hrest⟩
  · intro ⟨v, rest, htext, hv, hrest⟩
    rw [htext]
    clear htext text
    -- a shorter run may be taken first, so the loop may end before the given one
    induction v with
    | nil =>
      cases rest with
      | nil => exact hrest
      | cons t rest =>
        rw [List.nil_append]
        unfold matchstar
        rw [if_pos hrest]
    | cons t v ih =>
      obtain ⟨hc, hv⟩ := List.forall_mem_cons.mp hv
      rw [List.cons_append]
      unfold matchstar
      rw [if_pos hc, ih hv, ite_self]

theorem matchLoop_iff (re text : List UInt8) :
    matchLoop re text = true ↔ ∃ before rest, text = before ++ rest ∧ matchhere re rest = true := by
  constructor
  · intro h
    induction text with
    | nil => exact ⟨[], [], rfl, h⟩
    | cons t text ih =>
      unfold matchLoop at h
      split_ifs at h with hnow
      · exact ⟨[], t :: text, rfl, hnow⟩
      · obtain ⟨before, rest, htext, hrest⟩ := ih h
        rw [htext]
        exact ⟨t :: before, rest, rfl, hrest⟩
  · intro ⟨before, rest, htext, hrest⟩
    rw [htext]
    clear htext text
    induction before with
    | nil =>
      cases rest with
      | nil => exact hrest
      | cons t rest =>
        rw [List.nil_append]
        unfold matchLoop
        rw [if_pos hrest]
    | cons t before ih =>
      rw [List.cons_append]
      unfold matchLoop
      rw [ih, ite_self]

end Loops

/-- At one place of the text the matcher and the items agree; by induction along the items. -/
theorem matchhere_iff (re : List UInt8) :
    ∀ text, matchhere re text = true ↔ Found (items re) text := by
  induction re using items.induct with
  | case1 =>
    intro text
    exact ⟨fun _ => found_nil, fun _ => rfl⟩
  | case2 =>
    intro text
    unfold matchhere items
    rw [if_pos rfl, if_pos rfl, found_eot]
    exact List.isEmpty_iff
  | case3 c hc =>
    intro text
    unfold matchhere items
    rw [if_neg hc, if_neg hc]
    exact matchchar_iff (fun _ => ⟨fun _ => found_nil, fun _ => rfl⟩) text
  | case4 c re ih =>
    intro text
    unfold matchhere items
    have hstar : Item.star c ≠ .eot := nofun
    rw [if_pos rfl, if_pos rfl, found_cons hstar, matchstar_iff]
    simp only [ih]
  | case5 c d re hd ih =>
    intro text
    unfold matchhere items
    rw [if_neg hd, if_neg hd]
    exact matchchar_iff ih text

/-- `match` finds exactly the patterns whose items describe a part of the text, its first part if
the pattern starts with `^`. -/
theorem match_decides (re text : List UInt8) :
    «match» re text = true ↔
      ∃ before w after, text = before ++ w ++ after ∧
        if re.head? = some '^'.toUInt8 then before = [] ∧ Describes (items re.tail) w after
        else Describes (items re) w after := by
  unfold «match»
  split_ifs with hcaret
  · rw [matchhere_iff]
    constructor
    · intro ⟨w, after, htext, hw⟩
      exact ⟨[], w, after, htext, rfl, hw⟩
    · intro ⟨before, w, after, htext, hbefore, hw⟩
      rw [hbefore] at htext
      exact ⟨w, after, htext, hw⟩
  · rw [matchLoop_iff]
    constructor
    · intro ⟨before, rest, htext, hrest⟩
      obtain ⟨w, after, hsplit, hw⟩ := (matchhere_iff re rest).mp hrest
      rw [hsplit, ← List.append_assoc] at htext
      exact ⟨before, w, after, htext, hw⟩
    · intro ⟨before, w, after, htext, hw⟩
      rw [List.append_assoc] at htext
      exact ⟨before, w ++ after, htext, (matchhere_iff re _).mpr ⟨w, after, rfl, hw⟩⟩

end Xv6.Grep
