import Mathlib.Logic.Function.Basic
import Mathlib.Data.List.Basic
import Mathlib.Tactic.Common

/-! Kernel code as state passing with a panic message, and the rules by which
the proofs run it. Nothing here names a data structure of the kernel. -/
namespace Xv6

open Function

section Update
variable {α β : Type} [DecidableEq α] {f : α → β} {a x : α} {b y : β}

/-- An updated function has the new value at one place and the old ones elsewhere. -/
theorem update_eq (h : update f a b x = y) : (x = a ∧ b = y) ∨ (x ≠ a ∧ f x = y) := by
  by_cases hx : x = a
  · rw [hx, update_self] at h
    exact Or.inl ⟨hx, h⟩
  · rw [update_of_ne hx] at h
    exact Or.inr ⟨hx, h⟩

theorem update_back (h : update f a b x = y) (hb : b ≠ y) : f x = y :=
  ((update_eq h).resolve_left fun hc => hb hc.2).2

theorem update_keeps (hx : f x = y) (ha : f a ≠ y) : update f a b x = y := by
  rw [update_of_ne]
  · exact hx
  · rintro rfl
    exact ha hx

end Update

/-- Kernel code over a state `σ`: it ends with a value and a new state, or in
`panic(msg)`. -/
abbrev Prog (σ α : Type) := StateT σ (Except String) α

def panicIf {σ : Type} (c : Prop) [Decidable c] (msg : String) : Prog σ Unit :=
  if c then throw msg else pure ()

/-- `x` started in `s` does not panic, and its value and final state satisfy `Q`. -/
def Runs {σ α : Type} (x : Prog σ α) (s : σ) (Q : α → σ → Prop) : Prop :=
  ∃ a s', x s = .ok (a, s') ∧ Q a s'

section Rules
variable {σ α β : Type} {s : σ} {Q R : α → σ → Prop}

theorem Runs.imp {x : Prog σ α} (h : Runs x s Q) (hi : ∀ a s', Q a s' → R a s') :
    Runs x s R := by
  obtain ⟨a, s', hx, hq⟩ := h
  exact ⟨a, s', hx, hi a s' hq⟩

/-- A run that is known to have ended in `(a, s')` ended where the rule says. -/
theorem Runs.of_eq {x : Prog σ α} {a : α} {s' : σ} (h : Runs x s Q)
    (hx : x s = .ok (a, s')) : Q a s' := by
  obtain ⟨b, t, hb, hq⟩ := h
  rw [hx] at hb
  injection hb with hb
  injection hb with h1 h2
  subst h1; subst h2
  exact hq

@[simp] theorem runs_pure (a : α) : Runs (pure a : Prog σ α) s Q ↔ Q a s := by
  constructor
  · rintro ⟨b, t, hb, hq⟩
    cases hb
    exact hq
  · intro h
    exact ⟨a, s, rfl, h⟩

@[simp] theorem runs_bind {x : Prog σ β} {f : β → Prog σ α} :
    Runs (x >>= f) s Q ↔ Runs x s (fun b t => Runs (f b) t Q) := by
  constructor
  · rintro ⟨a, s', h, hq⟩
    change (x s >>= fun p => f p.1 p.2) = _ at h
    cases hx : x s with
    | error e => rw [hx] at h; cases h
    | ok p => rw [hx] at h; exact ⟨p.1, p.2, hx, a, s', h, hq⟩
  · rintro ⟨b, t, hb, a, s', ha, hq⟩
    refine ⟨a, s', ?_, hq⟩
    change (x s >>= fun p => f p.1 p.2) = _
    rw [hb]
    exact ha

theorem Runs.bind {x : Prog σ β} {f : β → Prog σ α} {P : β → σ → Prop} (h : Runs x s P)
    (hf : ∀ b t, P b t → Runs (f b) t Q) : Runs (x >>= f) s Q := runs_bind.mpr (h.imp hf)

@[simp] theorem runs_map {x : Prog σ β} {f : β → α} :
    Runs (f <$> x) s Q ↔ Runs x s (fun b t => Q (f b) t) := by
  constructor
  · rintro ⟨a, s', h, hq⟩
    change (x s >>= fun p => pure (f p.1, p.2)) = _ at h
    cases hx : x s with
    | error e => rw [hx] at h; cases h
    | ok p => rw [hx] at h; cases h; exact ⟨p.1, p.2, hx, hq⟩
  · rintro ⟨b, t, hb, hq⟩
    refine ⟨f b, t, ?_, hq⟩
    change (x s >>= fun p => pure (f p.1, p.2)) = _
    rw [hb]
    rfl

@[simp] theorem runs_get {Q : σ → σ → Prop} : Runs (get : Prog σ σ) s Q ↔ Q s s := by
  constructor
  · rintro ⟨a, t, h, hq⟩
    cases h
    exact hq
  · intro h
    exact ⟨s, s, rfl, h⟩

@[simp] theorem runs_set {t : σ} {Q : PUnit → σ → Prop} :
    Runs (set t : Prog σ PUnit) s Q ↔ Q ⟨⟩ t := by
  constructor
  · rintro ⟨a, t', h, hq⟩
    cases h
    exact hq
  · intro h
    exact ⟨⟨⟩, t, rfl, h⟩

@[simp] theorem runs_modify {f : σ → σ} {Q : PUnit → σ → Prop} :
    Runs (modify f : Prog σ PUnit) s Q ↔ Q ⟨⟩ (f s) := by
  constructor
  · rintro ⟨a, t, h, hq⟩
    cases h
    exact hq
  · intro h
    exact ⟨⟨⟩, f s, rfl, h⟩

@[simp] theorem runs_throw {e : String} : Runs (throw e : Prog σ α) s Q ↔ False := by
  constructor
  · rintro ⟨a, t, h, -⟩
    cases h
  · exact False.elim

@[simp] theorem runs_panicIf {c : Prop} [Decidable c] {e : String} {Q : Unit → σ → Prop} :
    Runs (panicIf c e : Prog σ Unit) s Q ↔ ¬ c ∧ Q () s := by
  unfold panicIf
  split_ifs with h <;> simp [h]

theorem runs_ite {c : Prop} [Decidable c] {x y : Prog σ α} :
    Runs (if c then x else y) s Q ↔ (c → Runs x s Q) ∧ (¬ c → Runs y s Q) := by
  split_ifs with h <;> simp [h]

end Rules

section Partial
variable {σ α β : Type} {s : σ} {Q : α → σ → Prop}

/-- If `x` started in `s` does not panic, its value and final state satisfy `Q`. -/
def Ends (x : Prog σ α) (s : σ) (Q : α → σ → Prop) : Prop :=
  ∀ a s', x s = .ok (a, s') → Q a s'

theorem Runs.ends {x : Prog σ α} (h : Runs x s Q) : Ends x s Q := fun _ _ hx => h.of_eq hx

theorem Ends.imp {R : α → σ → Prop} {x : Prog σ α} (h : Ends x s Q)
    (hi : ∀ a s', Q a s' → R a s') : Ends x s R := fun a s' hx => hi a s' (h a s' hx)

theorem ends_of_panic {x : Prog σ α} {e : String} (h : x s = .error e) : Ends x s Q := by
  intro a s' hx
  rw [h] at hx
  cases hx

theorem ends_pure {a : α} (h : Q a s) : Ends (pure a : Prog σ α) s Q := ((runs_pure a).mpr h).ends

theorem ends_get {f : σ → Prog σ α} (h : Ends (f s) s Q) : Ends (get >>= f) s Q := h

theorem ends_set {t : σ} {Q : PUnit → σ → Prop} (h : Q ⟨⟩ t) : Ends (set t : Prog σ PUnit) s Q :=
  (runs_set.mpr h).ends

theorem ends_modify {f : σ → σ} {Q : PUnit → σ → Prop} (h : Q ⟨⟩ (f s)) :
    Ends (modify f : Prog σ PUnit) s Q := (runs_modify.mpr h).ends

theorem ends_panicIf {c : Prop} [Decidable c] {e : String} {Q : Unit → σ → Prop} (h : ¬ c → Q () s) :
    Ends (panicIf c e : Prog σ Unit) s Q := by
  unfold panicIf
  split_ifs with hc
  · exact ends_of_panic rfl
  · exact ends_pure (h hc)

theorem ends_bind {x : Prog σ β} {f : β → Prog σ α}
    (h : Ends x s fun b t => Ends (f b) t Q) : Ends (x >>= f) s Q := by
  intro a s' hx
  change (x s >>= fun p => f p.1 p.2) = _ at hx
  cases hb : x s with
  | error e => rw [hb] at hx; cases hx
  | ok p => rw [hb] at hx; exact h p.1 p.2 hb a s' hx

theorem Ends.bind {x : Prog σ β} {f : β → Prog σ α} {P : β → σ → Prop} (h : Ends x s P)
    (hf : ∀ b t, P b t → Ends (f b) t Q) : Ends (x >>= f) s Q := ends_bind (h.imp hf)

theorem bind_ok {x : Prog σ β} {f : β → Prog σ α} {b : β} {t : σ} (h : x s = .ok (b, t)) :
    (x >>= f) s = f b t := by
  change (x s >>= fun p => f p.1 p.2) = _
  rw [h]
  rfl

theorem panics_bind {x : Prog σ β} {f : β → Prog σ α} {e : String} (h : x s = .error e) :
    (x >>= f) s = .error e := by
  change (x s >>= fun p => f p.1 p.2) = _
  rw [h]
  rfl

/-- A run that can be evaluated ends in the panic `e`. -/
def panicsWith (x : Prog σ α) (s : σ) (e : String) : Bool :=
  match x s with
  | .error e' => e' == e
  | .ok _ => false

theorem panics_of_panicsWith {x : Prog σ α} {e : String} (h : panicsWith x s e = true) :
    x s = .error e := by
  unfold panicsWith at h
  split at h
  · rename_i e' hx
    rw [hx, eq_of_beq h]
  · cases h

theorem panics_get {f : σ → Prog σ α} {e : String} (h : f s s = .error e) :
    ((get : Prog σ σ) >>= f) s = .error e := h

theorem panicIf_panics {c : Prop} [Decidable c] {e : String} (h : c) :
    (panicIf c e : Prog σ Unit) s = .error e := by
  unfold panicIf
  rw [if_pos h]
  rfl

theorem not_runs_of_panic {x : Prog σ α} {e : String} (h : x s = .error e) : ¬ Runs x s Q := by
  rintro ⟨a, s', hx, -⟩
  rw [h] at hx
  cases hx

/-- Only the panics in `P` can happen. -/
def PanicsOnly (x : Prog σ α) (s : σ) (P : String → Prop) : Prop := ∀ e, x s = .error e → P e

theorem Runs.panicsOnly {x : Prog σ α} {P : String → Prop} (h : Runs x s Q) :
    PanicsOnly x s P := by
  intro e hx
  exact absurd h (not_runs_of_panic hx)

theorem panicsOnly_of_panic {x : Prog σ α} {P : String → Prop} {e : String} (h : x s = .error e)
    (he : P e) : PanicsOnly x s P := by
  intro e' hx
  rw [h] at hx
  injection hx with hx
  exact hx ▸ he

theorem panicsOnly_pure {P : String → Prop} {a : α} : PanicsOnly (pure a) s P := by
  intro e hx
  cases hx

theorem panicsOnly_panicIf {c : Prop} [Decidable c] {e : String} {f : Unit → Prog σ α}
    {P : String → Prop} (he : c → P e) (hf : ¬ c → PanicsOnly (f ()) s P) :
    PanicsOnly (panicIf c e >>= f) s P := by
  by_cases h : c
  · exact panicsOnly_of_panic (panics_bind (panicIf_panics h)) (he h)
  · unfold panicIf
    rw [if_neg h]
    exact hf h

theorem panicsOnly_get {f : σ → Prog σ α} {P : String → Prop} (h : PanicsOnly (f s) s P) :
    PanicsOnly (get >>= f) s P := h

theorem panicsOnly_bind {x : Prog σ β} {f : β → Prog σ α} {P : String → Prop}
    (hx : PanicsOnly x s P) (hf : Ends x s fun b t => PanicsOnly (f b) t P) :
    PanicsOnly (x >>= f) s P := by
  intro e he
  change (x s >>= fun p => f p.1 p.2) = _ at he
  cases hb : x s with
  | error e' =>
    rw [hb] at he
    cases he
    exact hx e hb
  | ok p =>
    rw [hb] at he
    exact hf p.1 p.2 hb e he

end Partial

section Ensures
variable {σ α β : Type} {s : σ} {P : String → Prop} {Q : α → σ → Prop}

/-- `x` started in `s` ends with a value and a state that satisfy `Q`, or in a panic
that satisfies `P`. -/
def Ensures (x : Prog σ α) (s : σ) (P : String → Prop) (Q : α → σ → Prop) : Prop :=
  Ends x s Q ∧ PanicsOnly x s P

theorem Ensures.imp {R : α → σ → Prop} {P' : String → Prop} {x : Prog σ α} (h : Ensures x s P Q)
    (hp : ∀ e, P e → P' e) (hq : ∀ a s', Q a s' → R a s') : Ensures x s P' R :=
  ⟨h.1.imp hq, fun e he => hp e (h.2 e he)⟩

theorem Runs.ensures {x : Prog σ α} (h : Runs x s Q) : Ensures x s P Q := ⟨h.ends, h.panicsOnly⟩

theorem Ensures.runs {x : Prog σ α} (h : Ensures x s P Q) (hp : ∀ e, ¬ P e) : Runs x s Q := by
  cases hx : x s with
  | error e => exact absurd (h.2 e hx) (hp e)
  | ok r => exact ⟨r.1, r.2, hx, h.1 r.1 r.2 hx⟩

theorem ensures_pure {a : α} (h : Q a s) : Ensures (pure a) s P Q := ((runs_pure a).mpr h).ensures

theorem ensures_throw {e : String} (h : P e) : Ensures (throw e : Prog σ α) s P Q :=
  ⟨ends_of_panic rfl, panicsOnly_of_panic rfl h⟩

theorem ensures_bind {x : Prog σ β} {f : β → Prog σ α}
    (h : Ensures x s P fun b t => Ensures (f b) t P Q) : Ensures (x >>= f) s P Q := by
  constructor
  · apply ends_bind
    intro b t hx
    exact (h.1 b t hx).1
  · apply panicsOnly_bind h.2
    intro b t hx
    exact (h.1 b t hx).2

theorem Ensures.bind {x : Prog σ β} {f : β → Prog σ α} {R : β → σ → Prop} (h : Ensures x s P R)
    (hf : ∀ b t, R b t → Ensures (f b) t P Q) : Ensures (x >>= f) s P Q :=
  ensures_bind (h.imp (fun _ he => he) hf)

theorem ensures_get {f : σ → Prog σ α} (h : Ensures (f s) s P Q) : Ensures (get >>= f) s P Q := h

theorem ensures_set_pure {t : σ} {Q : PUnit → σ → Prop} (h : Q ⟨⟩ t) : Ensures (set t) s P Q :=
  Runs.ensures ⟨⟨⟩, t, rfl, h⟩

theorem ensures_modify {g : σ → σ} {f : PUnit → Prog σ α} (h : Ensures (f ⟨⟩) (g s) P Q) :
    Ensures (modify g >>= f) s P Q := h

theorem ensures_panicIf {c : Prop} [Decidable c] {e : String} {f : Unit → Prog σ α}
    (he : c → P e) (hf : ¬ c → Ensures (f ()) s P Q) : Ensures (panicIf c e >>= f) s P Q := by
  unfold panicIf
  by_cases h : c
  · rw [if_pos h]
    exact ensures_bind (ensures_throw (he h))
  · rw [if_neg h]
    exact hf h

theorem ensures_ite {c : Prop} [Decidable c] {x y : Prog σ α} (hx : c → Ensures x s P Q)
    (hy : ¬ c → Ensures y s P Q) : Ensures (if c then x else y) s P Q := by
  by_cases h : c
  · rw [if_pos h]
    exact hx h
  · rw [if_neg h]
    exact hy h

end Ensures

section Zoom
variable {σ τ α : Type}

/-- Code over a part of the state, run as code over the whole. -/
def zoom (proj : σ → τ) (put : τ → σ → σ) (x : Prog τ α) : Prog σ α := fun s =>
  match x (proj s) with
  | .ok (a, t) => .ok (a, put t s)
  | .error e => .error e

@[simp] theorem runs_zoom {proj : σ → τ} {put : τ → σ → σ} {x : Prog τ α} {s : σ}
    {Q : α → σ → Prop} :
    Runs (zoom proj put x) s Q ↔ Runs x (proj s) (fun a t => Q a (put t s)) := by
  unfold Runs zoom
  constructor
  · rintro ⟨a, s', h, hq⟩
    cases hx : x (proj s) with
    | error e => rw [hx] at h; cases h
    | ok p =>
      rw [hx] at h
      cases h
      exact ⟨p.1, p.2, rfl, hq⟩
  · rintro ⟨a, t, h, hq⟩
    exact ⟨a, put t s, by rw [h], hq⟩

/-- Code over a part of the state does to this part what it does alone. -/
theorem ends_zoom {proj : σ → τ} {put : τ → σ → σ} {x : Prog τ α} {s : σ} {Q : α → σ → Prop}
    (h : Ends x (proj s) fun a t => Q a (put t s)) : Ends (zoom proj put x) s Q := by
  intro a s' hx
  unfold zoom at hx
  cases hy : x (proj s) with
  | error e => rw [hy] at hx; cases hx
  | ok r =>
    rw [hy] at hx
    cases hx
    exact h r.1 r.2 hy

theorem ensures_zoom {proj : σ → τ} {put : τ → σ → σ} {x : Prog τ α} {s : σ} {P : String → Prop}
    {Q : α → σ → Prop} (h : Ensures x (proj s) P fun a t => Q a (put t s)) :
    Ensures (zoom proj put x) s P Q := by
  constructor
  · exact ends_zoom h.1
  · intro e hx
    unfold zoom at hx
    cases hy : x (proj s) with
    | error e' =>
      rw [hy] at hx
      cases hx
      exact h.2 e hy
    | ok r => rw [hy] at hx; cases hx

theorem zoom_panics {proj : σ → τ} {put : τ → σ → σ} {x : Prog τ α} {s : σ} {e : String}
    (h : x (proj s) = .error e) : zoom proj put x s = .error e := by
  unfold zoom
  rw [h]

end Zoom

end Xv6
