/-
  How a C++ function called from R can end: it returns, it throws a C++ exception (destructors
  run on the way out), it makes a non-local jump (no destructor runs), or its behaviour is
  undefined. `Outcome` is the monad of these four. Nothing here is about a particular program.
-/
import Mathlib.Logic.Basic

namespace Unwind

universe u

/-- The end of a computation with results in `α`, exceptions in `ε` and jumps in `ρ`. -/
inductive Outcome (ε ρ : Type) (α : Type u) where
  | done (a : α)
  | thrown (e : ε)
  | jumped (r : ρ)
  | undefined
  deriving DecidableEq, Repr

namespace Outcome

variable {ε ρ : Type}

@[simp] def bind {α β : Type u} : Outcome ε ρ α → (α → Outcome ε ρ β) → Outcome ε ρ β
  | done a, f => f a
  | thrown e, _ => thrown e
  | jumped r, _ => jumped r
  | undefined, _ => undefined

instance : Monad (Outcome ε ρ) where
  pure := done
  bind := bind

variable {α β : Type u}

@[simp] theorem pure_eq (a : α) : (pure a : Outcome ε ρ α) = done a := rfl

@[simp] theorem done_bind (a : α) (f : α → Outcome ε ρ β) : (done a >>= f) = f a := rfl

@[simp] theorem thrown_bind (e : ε) (f : α → Outcome ε ρ β) :
    (thrown e >>= f) = thrown e := rfl

@[simp] theorem jumped_bind (r : ρ) (f : α → Outcome ε ρ β) :
    (jumped r >>= f) = jumped r := rfl

@[simp] theorem undefined_bind (f : α → Outcome ε ρ β) :
    (undefined >>= f) = (undefined : Outcome ε ρ β) := rfl

instance : LawfulMonad (Outcome ε ρ) :=
  LawfulMonad.mk' _ (fun x => by cases x <;> rfl) (fun _ _ => rfl)
    (fun x _ _ => by cases x <;> rfl)

/-- A sequence returns when both its parts do. -/
@[simp] theorem bind_eq_done {x : Outcome ε ρ α} {f : α → Outcome ε ρ β} {b : β} :
    (x >>= f) = done b ↔ ∃ a, x = done a ∧ f a = done b := by
  cases x <;> simp

/-- A pure last step. -/
theorem bind_done_eq_done {x : Outcome ε ρ α} {f : α → β} {b : β} :
    (x >>= fun a => done (f a)) = done b ↔ ∃ a, x = done a ∧ b = f a := by
  cases x <;> simp [eq_comm]

theorem bind₂_eq_done {γ : Type u} {x : Outcome ε ρ α} {y : Outcome ε ρ β} {g : α → β → γ} {c : γ} :
    (x >>= fun a => y >>= fun b => done (g a b)) = done c ↔
      ∃ a b, x = done a ∧ y = done b ∧ c = g a b := by
  cases x <;> cases y <;> simp [eq_comm]

/-- A pure last step throws nothing. -/
@[simp] theorem bind_done_eq_thrown {x : Outcome ε ρ α} {f : α → β} {e : ε} :
    (x >>= fun a => done (f a)) = thrown e ↔ x = thrown e := by
  cases x <;> simp

/-- Nor does it jump. -/
@[simp] theorem bind_done_eq_jumped {x : Outcome ε ρ α} {f : α → β} {r : ρ} :
    (x >>= fun a => done (f a)) = jumped r ↔ x = jumped r := by
  cases x <;> simp

/-- The same end, with another account of the exception. -/
def mapThrown {ε' : Type} (g : ε → ε') : Outcome ε ρ α → Outcome ε' ρ α
  | done a => done a
  | thrown e => thrown (g e)
  | jumped r => jumped r
  | undefined => undefined

@[simp] theorem mapThrown_done {ε' : Type} (g : ε → ε') (a : α) :
    (done a : Outcome ε ρ α).mapThrown g = done a := rfl

theorem mapThrown_bind {ε' : Type} (g : ε → ε') (x : Outcome ε ρ α) (f : α → Outcome ε ρ β) :
    (x >>= f).mapThrown g = x.mapThrown g >>= fun a => (f a).mapThrown g := by
  cases x <;> rfl

/-- The computation returned. -/
def isDone : Outcome ε ρ α → Bool
  | done _ => true
  | _ => false

@[simp] theorem isDone_iff {x : Outcome ε ρ α} : x.isDone ↔ ∃ a, x = done a := by
  cases x <;> simp [isDone]

@[simp] theorem isDone_bind_done {x : Outcome ε ρ α} {f : α → β} :
    (x >>= fun a => done (f a)).isDone = x.isDone := by
  cases x <;> rfl

theorem isDone_bind₂ {γ : Type u} {x : Outcome ε ρ α} {y : Outcome ε ρ β} {g : α → β → γ} :
    (x >>= fun a => y >>= fun b => done (g a b)).isDone = (x.isDone && y.isDone) := by
  cases x <;> cases y <;> rfl

end Outcome

end Unwind
