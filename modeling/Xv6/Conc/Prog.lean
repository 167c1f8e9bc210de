import Mathlib.Logic.Basic

/-!
# Thread programs

The code of one thread, as a tree of atomic operations.  `Prog Op α` is a
computation that performs operations from the signature `Op` and may return
a value of type `α`.  The signature is a parameter: nothing here knows what
an operation does, only what type of answer it gives.

`iter` is the unbounded loop.  Its body answers `inl b` to go round again
with `b`, and `inr c` to leave the loop with `c`.
-/

namespace Conc

/-- A thread's code over the operations `Op`. -/
inductive Prog (Op : Type → Type 1) : Type → Type 1 where
  | ret {α : Type} (a : α) : Prog Op α
  | op {α β : Type} (o : Op β) (k : β → Prog Op α) : Prog Op α
  | iter {α β γ : Type} (body : β → Prog Op (β ⊕ γ)) (b : β) (k : γ → Prog Op α) :
      Prog Op α

namespace Prog

variable {Op : Type → Type 1} {α β γ : Type}

/-- Run `m`, then the code that `f` gives for its value. -/
def bind : {α : Type} → Prog Op α → (α → Prog Op β) → Prog Op β
  | _, .ret a, f => f a
  | _, .op o k, f => .op o fun b => (k b).bind f
  | _, .iter body b k, f => .iter body b fun c => (k c).bind f

instance : Monad (Prog Op) where
  pure := .ret
  bind := bind

@[simp] theorem pure_eq_ret (a : α) : (pure a : Prog Op α) = .ret a := rfl

@[simp] theorem bind_eq (m : Prog Op α) (f : α → Prog Op β) : m >>= f = m.bind f := rfl

@[simp] theorem bind_ret (a : α) (f : α → Prog Op β) : (ret a : Prog Op α).bind f = f a := rfl

/-- One operation as a program. -/
def perform (o : Op α) : Prog Op α := .op o .ret

/-- The loop that starts with `b`. -/
def loop (body : β → Prog Op (β ⊕ γ)) (b : β) : Prog Op γ := .iter body b .ret

/-- The loop that never ends. -/
def forever (body : Prog Op Unit) : Prog Op Empty :=
  loop (fun _ => body.bind fun _ => .ret (.inl ())) ()

/-- `for` over a list of places, left at the first `some`. -/
def findM? {ι : Type} (f : ι → Prog Op (Option α)) : List ι → Prog Op (Option α)
  | [] => .ret none
  | i :: is => (f i).bind fun
    | some a => .ret (some a)
    | none => findM? f is

/-- `for` over a list of places, with an accumulator. -/
def foldM {ι : Type} (f : α → ι → Prog Op α) : α → List ι → Prog Op α
  | a, [] => .ret a
  | a, i :: is => (f a i).bind fun a' => foldM f a' is

end Prog

end Conc
