import Xv6.KernelProg

/-! Code that is written against an interface of calls. It runs over every
implementation of the interface, and keeps what the calls that it makes keep. Nothing here
names a data structure of the kernel. -/
namespace Xv6

/-- Code that uses the calls `C`, where `C β` are the calls with a result in `β`. -/
inductive Code (C : Type → Type) (α : Type) : Type 1
  | ret (a : α)
  | panic (msg : String)
  | call {β : Type} (c : C β) (k : β → Code C α)

variable {C : Type → Type} {α β σ : Type}

def Code.bind : Code C α → (α → Code C β) → Code C β
  | .ret a, f => f a
  | .panic msg, _ => .panic msg
  | .call c k, f => .call c fun b => (k b).bind f

instance : Monad (Code C) where
  pure := Code.ret
  bind := Code.bind

def perform (c : C α) : Code C α := .call c .ret

def Code.panicIf (c : Prop) [Decidable c] (msg : String) : Code C Unit :=
  if c then .panic msg else .ret ()

def Code.run (h : ∀ β, C β → Prog σ β) : Code C α → Prog σ α
  | .ret a => pure a
  | .panic msg => throw msg
  | .call c k => do
    let b ← h _ c
    (k b).run h

section Run
variable {h : ∀ β, C β → Prog σ β}

theorem run_bind (x : Code C β) (f : β → Code C α) :
    (x >>= f).run h = x.run h >>= fun b => (f b).run h := by
  induction x with
  | ret a => rfl
  | panic msg => rfl
  | call c k ih =>
    funext s
    change ((h _ c) s >>= fun p => ((k p.1) >>= f).run h p.2) =
      (((h _ c) s >>= fun p => (k p.1).run h p.2) >>= fun q => (f q.1).run h q.2)
    cases h _ c s with
    | error e => rfl
    | ok p =>
      change ((k p.1) >>= f).run h p.2 = ((k p.1).run h p.2 >>= fun q => (f q.1).run h q.2)
      rw [ih p.1]
      rfl

theorem run_perform (c : C α) : (perform c).run h = h _ c := by
  funext s
  change ((h _ c) s >>= fun p => Except.ok (p.1, p.2)) = h _ c s
  cases h _ c s with
  | error e => rfl
  | ok p => rfl

end Run

section Only
variable {h : ∀ β, C β → Prog σ β} {p : ∀ β, C β → Prop}

/-- The code makes calls that satisfy `p` and no others. -/
def Code.Only (p : ∀ β, C β → Prop) : Code C α → Prop
  | .ret _ => True
  | .panic _ => True
  | .call c k => p _ c ∧ ∀ b, (k b).Only p

theorem only_bind {x : Code C β} {f : β → Code C α} (hx : x.Only p) (hf : ∀ b, (f b).Only p) :
    (x >>= f).Only p := by
  induction x with
  | ret a => exact hf a
  | panic msg => trivial
  | call c k ih => exact ⟨hx.1, fun b => ih b (hx.2 b)⟩

theorem only_perform {c : C α} (hc : p _ c) : (perform c).Only p := ⟨hc, fun _ => trivial⟩

theorem Code.Only.keeps {I : σ → Prop}
    (hI : ∀ β (c : C β) s, p β c → I s → Ends (h β c) s fun _ s' => I s') {x : Code C α}
    (hx : x.Only p) : ∀ s, I s → Ends (x.run h) s fun _ s' => I s' := by
  induction x with
  | ret a =>
    intro s hs
    exact ends_pure hs
  | panic msg =>
    intro s hs
    exact ends_of_panic rfl
  | call c k ih =>
    intro s hs
    refine (hI _ c s hx.1 hs).bind ?_
    intro b s' hs'
    exact ih b (hx.2 b) s' hs'

end Only

end Xv6
