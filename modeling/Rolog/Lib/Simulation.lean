/-
  When a computation on states ends as a pure one does. The two may have different exceptions;
  a relation says which of them are the same, in the state at the end.
-/
import Rolog.Lib.Proc

namespace Unwind

variable {σ ε ε' ρ α β : Type}

/-- The same end, with exceptions that `E` relates. Undefined behaviour agrees with nothing. -/
inductive Outcome.Agrees (E : ε → ε' → Prop) : Outcome ε ρ α → Outcome ε' ρ α → Prop where
  | done (a : α) : Agrees E (done a) (done a)
  | thrown {e : ε} {e' : ε'} (h : E e e') : Agrees E (thrown e) (thrown e')
  | jumped (r : ρ) : Agrees E (jumped r) (jumped r)

open Outcome

namespace Proc

/-- From `s`, the computation ends as `x` does, in a state in `I`. -/
structure Simulates (E : σ → ε → ε' → Prop) (I : σ → Prop) (p : Proc σ ε ρ α) (s : σ)
    (x : Outcome ε' ρ α) : Prop where
  ends : Agrees (E (p s).2) (p s).1 x
  keeps : I (p s).2

variable {E : σ → ε → ε' → Prop} {I J : σ → Prop} {p : Proc σ ε ρ α} {s t : σ}

theorem simulates_of_done {a : α} (h : p s = (done a, t)) (ht : I t) :
    Simulates E I p s (done a) := by
  refine ⟨?_, ?_⟩
  · rw [h]
    exact .done a
  · rw [h]
    exact ht

theorem simulates_of_thrown {e : ε} {e' : ε'} (h : p s = (thrown e, t)) (he : E t e e')
    (ht : I t) : Simulates E I p s (thrown e') := by
  refine ⟨?_, ?_⟩
  · rw [h]
    exact .thrown he
  · rw [h]
    exact ht

/-- A computation that comes down to another one. -/
theorem Simulates.of_eq {q : Proc σ ε ρ α} {x : Outcome ε' ρ α} (h : p s = q t)
    (hq : Simulates E I q t x) : Simulates E I p s x := by
  refine ⟨?_, ?_⟩
  · rw [h]
    exact hq.ends
  · rw [h]
    exact hq.keeps

theorem Simulates.mono {x : Outcome ε' ρ α} (h : Simulates E I p s x) (hIJ : ∀ t, I t → J t) :
    Simulates E J p s x := ⟨h.ends, hIJ _ h.keeps⟩

/-- A step that returns. -/
theorem Simulates.step {f : α → Proc σ ε ρ β} {a : α} {x : Outcome ε' ρ β}
    (h : p s = (done a, t)) (hf : Simulates E I (f a) t x) : Simulates E I (p >>= f) s x :=
  .of_eq (bind_of_done h f) hf

theorem simulates_of_jumped {r : ρ} (h : p s = (jumped r, t)) (ht : I t) :
    Simulates E I p s (jumped r) := by
  refine ⟨?_, ?_⟩
  · rw [h]
    exact .jumped r
  · rw [h]
    exact ht

/-! ## What an end says -/

theorem Simulates.done_inv {a : α} (h : Simulates E I p s (done a)) :
    ∃ t, p s = (done a, t) ∧ I t := by
  obtain ⟨hends, hkeeps⟩ := h
  refine ⟨(p s).2, Prod.ext ?_ rfl, hkeeps⟩
  generalize (p s).1 = x at hends ⊢
  cases hends
  rfl

theorem Simulates.thrown_inv {e' : ε'} (h : Simulates E I p s (thrown e')) :
    ∃ e t, p s = (thrown e, t) ∧ E t e e' ∧ I t := by
  obtain ⟨hends, hkeeps⟩ := h
  generalize hx : (p s).1 = x at hends
  cases hends with
  | thrown he => exact ⟨_, _, Prod.ext hx rfl, he, hkeeps⟩

theorem Simulates.jumped_inv {r : ρ} (h : Simulates E I p s (jumped r)) :
    ∃ t, p s = (jumped r, t) ∧ I t := by
  obtain ⟨hends, hkeeps⟩ := h
  refine ⟨(p s).2, Prod.ext ?_ rfl, hkeeps⟩
  generalize (p s).1 = x at hends ⊢
  cases hends
  rfl

/-! ## Sequences -/

/-- What is thrown is thrown past the rest. -/
theorem Simulates.bind_thrown {e' : ε'} (hp : Simulates E I p s (thrown e'))
    (f : α → Proc σ ε ρ β) : Simulates E I (p >>= f) s (thrown e') := by
  obtain ⟨e, t, hx, he, ht⟩ := hp.thrown_inv
  refine simulates_of_thrown ?_ he ht
  rw [bind_apply, hx, andThen_thrown]

/-- Two parts of a sequence. -/
theorem Simulates.bind {f : α → Proc σ ε ρ β} {x : Outcome ε' ρ α} {g : α → Outcome ε' ρ β}
    (hp : Simulates E I p s x) (hIJ : ∀ t, I t → J t)
    (hf : ∀ a t, I t → Simulates E J (f a) t (g a)) : Simulates E J (p >>= f) s (x >>= g) := by
  match x with
  | done a =>
    obtain ⟨t, hx, ht⟩ := hp.done_inv
    exact .step hx (hf a t ht)
  | thrown e' => exact (hp.mono hIJ).bind_thrown f
  | jumped r =>
    obtain ⟨t, hx, ht⟩ := hp.jumped_inv
    refine simulates_of_jumped ?_ (hIJ t ht)
    rw [bind_apply, hx, andThen_jumped]
  | undefined =>
    obtain ⟨hends, -⟩ := hp
    generalize (p s).1 = y at hends
    cases hends

/-- A pure last step. -/
theorem Simulates.bind_pure {f : α → β} {x : Outcome ε' ρ α} (hp : Simulates E I p s x) :
    Simulates E I (p >>= fun a => pure (f a)) s (x >>= fun a => done (f a)) :=
  hp.bind (fun _ h => h) fun _ _ h => simulates_of_done rfl h

end Proc

end Unwind
