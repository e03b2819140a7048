/-
  Stateful computations that end in an `Outcome`, with objects whose destructor runs when the
  computation returns or throws and is skipped by a jump, and the rules of pre- and
  postconditions for them.
-/
import Rolog.Lib.Unwind

namespace Unwind

open Outcome

/-- A computation on states `σ`. -/
def Proc (σ ε ρ α : Type) := σ → Outcome ε ρ α × σ

namespace Proc

variable {σ κ ε ρ α β : Type}

/-- What an end leaves to do: after `done a` the computation `f a`, otherwise nothing. -/
def andThen (f : α → Proc σ ε ρ β) : Outcome ε ρ α × σ → Outcome ε ρ β × σ
  | (done a, s) => f a s
  | (thrown e, s) => (thrown e, s)
  | (jumped r, s) => (jumped r, s)
  | (undefined, s) => (undefined, s)

instance : Monad (Proc σ ε ρ) where
  pure a := fun s => (done a, s)
  bind p f := fun s => andThen f (p s)

/-- A computation that does not look at the state. -/
def lift (x : Outcome ε ρ α) : Proc σ ε ρ α := fun s => (x, s)

/-- Run `f` on the state as it is. -/
def withState (f : σ → Proc σ ε ρ α) : Proc σ ε ρ α := fun s => f s s

def modify (f : σ → σ) : Proc σ ε ρ Unit := fun s => (done (), f s)

/-- A step on the state, inside the scope of an object with fields `κ`. -/
def inner (p : Proc σ ε ρ α) : Proc (κ × σ) ε ρ α := fun (k, s) => ((p s).1, k, (p s).2)

/-- The scope of an object. Its destructor runs on return and on exceptions; a jump leaves the
scope without it, and so does undefined behaviour. -/
def object (k : κ) (dtor : κ → Proc σ ε ρ Unit) (body : Proc (κ × σ) ε ρ α) : Proc σ ε ρ α :=
  fun s =>
    match body (k, s) with
    | (done a, k, s) => andThen (fun _ => lift (done a)) (dtor k s)
    | (thrown e, k, s) => andThen (fun _ => lift (thrown e)) (dtor k s)
    | (jumped r, _, s) => (jumped r, s)
    | (undefined, _, s) => (undefined, s)

@[simp] theorem pure_apply (a : α) (s : σ) : (pure a : Proc σ ε ρ α) s = (done a, s) := rfl

@[simp] theorem bind_apply (p : Proc σ ε ρ α) (f : α → Proc σ ε ρ β) (s : σ) :
    (p >>= f) s = andThen f (p s) := rfl

@[simp] theorem map_apply (f : α → β) (p : Proc σ ε ρ α) (s : σ) :
    (f <$> p) s = andThen (fun a s => (done (f a), s)) (p s) := rfl

@[simp] theorem andThen_done (f : α → Proc σ ε ρ β) (a : α) (s : σ) :
    andThen f (done a, s) = f a s := rfl

@[simp] theorem andThen_thrown (f : α → Proc σ ε ρ β) (e : ε) (s : σ) :
    andThen f (thrown e, s) = (thrown e, s) := rfl

@[simp] theorem andThen_jumped (f : α → Proc σ ε ρ β) (r : ρ) (s : σ) :
    andThen f (jumped r, s) = (jumped r, s) := rfl

@[simp] theorem andThen_undefined (f : α → Proc σ ε ρ β) (s : σ) :
    andThen f (undefined, s) = (undefined, s) := rfl

@[simp] theorem lift_apply (x : Outcome ε ρ α) (s : σ) : lift x s = (x, s) := rfl

@[simp] theorem withState_apply (f : σ → Proc σ ε ρ α) (s : σ) : withState f s = f s s := rfl

@[simp] theorem modify_apply (f : σ → σ) (s : σ) :
    (modify f : Proc σ ε ρ Unit) s = (done (), f s) := rfl

@[simp] theorem inner_apply (p : Proc σ ε ρ α) (k : κ) (s : σ) :
    inner p (k, s) = ((p s).1, k, (p s).2) := rfl

theorem andThen_andThen {γ : Type} (f : α → Proc σ ε ρ β) (g : β → Proc σ ε ρ γ)
    (x : Outcome ε ρ α × σ) :
    andThen g (andThen f x) = andThen (fun a s => andThen g (f a s)) x := by
  match x with
  | (done _, _) | (thrown _, _) | (jumped _, _) | (undefined, _) => rfl

theorem andThen_pure (x : Outcome ε ρ α × σ) : andThen (pure : α → Proc σ ε ρ α) x = x := by
  match x with
  | (done _, _) | (thrown _, _) | (jumped _, _) | (undefined, _) => rfl

theorem andThen_map (f : α → β) (x : Outcome ε ρ α × σ) :
    andThen (fun a => (pure (f a) : Proc σ ε ρ β)) x = (x.1 >>= fun a => done (f a), x.2) := by
  match x with
  | (done _, _) | (thrown _, _) | (jumped _, _) | (undefined, _) => rfl

theorem lift_map (f : α → β) (x : Outcome ε ρ α) :
    (lift x >>= fun a => pure (f a) : Proc σ ε ρ β) = lift (x >>= fun a => done (f a)) := by
  funext s
  match x with
  | done _ | thrown _ | jumped _ | undefined => rfl

instance : LawfulMonad (Proc σ ε ρ) :=
  LawfulMonad.mk' _ (fun p => funext fun s => andThen_pure (p s)) (fun _ _ => rfl)
    (fun p f g => funext fun s => andThen_andThen f g (p s))

theorem bind_of_done {p : Proc σ ε ρ α} {s t : σ} {a : α} (h : p s = (done a, t))
    (f : α → Proc σ ε ρ β) : (p >>= f) s = f a t := by
  rw [bind_apply, h, andThen_done]

theorem withState_bind (f : σ → Proc σ ε ρ α) (g : α → Proc σ ε ρ β) :
    withState f >>= g = withState fun s => f s >>= g := rfl

/-! ## Pre- and postconditions -/

/-- From a state in `P`, the end and the state at the end are in `Q`. -/
def Triple (P : σ → Prop) (p : Proc σ ε ρ α) (Q : Outcome ε ρ α → σ → Prop) : Prop :=
  ∀ s, P s → Q (p s).1 (p s).2

/-- The postcondition that leaves `R` to a continuation and `Q` to the abnormal ends. -/
def Upto (R : α → σ → Prop) (Q : Outcome ε ρ β → σ → Prop) : Outcome ε ρ α → σ → Prop
  | done a, s => R a s
  | thrown e, s => Q (thrown e) s
  | jumped r, s => Q (jumped r) s
  | undefined, s => Q undefined s

variable {P P' : σ → Prop} {Q Q' : Outcome ε ρ α → σ → Prop}

theorem Triple.pre {p : Proc σ ε ρ α} (h : Triple P p Q) (hP : ∀ s, P' s → P s) :
    Triple P' p Q := fun s hs => h s (hP s hs)

theorem Triple.post {p : Proc σ ε ρ α} (h : Triple P p Q) (hQ : ∀ x s, Q x s → Q' x s) :
    Triple P p Q' := fun s hs => hQ _ _ (h s hs)

theorem triple_bind {R : α → σ → Prop} {Q : Outcome ε ρ β → σ → Prop} {p : Proc σ ε ρ α}
    {f : α → Proc σ ε ρ β} (hp : Triple P p (Upto R Q)) (hf : ∀ a, Triple (R a) (f a) Q) :
    Triple P (p >>= f) Q := by
  intro s hs
  have h := hp s hs
  rw [bind_apply]
  match hx : p s with
  | (done a, t) =>
    rw [hx] at h
    exact hf a t h
  | (thrown _, t) | (jumped _, t) | (undefined, t) =>
    rw [hx] at h
    exact h

theorem triple_inner {p : Proc σ ε ρ α} (h : Triple P p Q) :
    Triple (fun st : κ × σ => P st.2) (inner p) fun x st => Q x st.2 := fun st hst => h st.2 hst

/-- The destructor sees the fields as the body left them, unless the body jumped. -/
theorem triple_object {k : κ} {dtor : κ → Proc σ ε ρ Unit} {body : Proc (κ × σ) ε ρ α}
    {R : Outcome ε ρ α → κ × σ → Prop} (hbody : Triple (fun s => s.1 = k ∧ P s.2) body R)
    (hdtor : ∀ x k, (x.isDone ∨ ∃ e, x = thrown e) →
      Triple (fun s => R x (k, s)) (dtor k) (Upto (fun _ s => Q x s) Q))
    (hjump : ∀ r k s, R (jumped r) (k, s) → Q (jumped r) s)
    (hundef : ∀ k s, R undefined (k, s) → Q undefined s) : Triple P (object k dtor body) Q := by
  intro s hs
  have h := hbody (k, s) ⟨rfl, hs⟩
  unfold object
  match hx : body (k, s) with
  | (done a, k', t) =>
    rw [hx] at h
    have hd := hdtor (done a) k' (.inl rfl) t h
    dsimp only
    match hy : dtor k' t with
    | (done _, u) | (thrown _, u) | (jumped _, u) | (undefined, u) =>
      rw [hy] at hd
      exact hd
  | (thrown e, k', t) =>
    rw [hx] at h
    have hd := hdtor (thrown e) k' (.inr ⟨e, rfl⟩) t h
    dsimp only
    match hy : dtor k' t with
    | (done _, u) | (thrown _, u) | (jumped _, u) | (undefined, u) =>
      rw [hy] at hd
      exact hd
  | (jumped r, k', t) =>
    rw [hx] at h
    exact hjump r k' t h
  | (undefined, k', t) =>
    rw [hx] at h
    exact hundef k' t h

end Proc

end Unwind
