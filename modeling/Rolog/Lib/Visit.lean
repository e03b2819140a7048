/-
  Loops that visit the elements of a list in order and keep those whose visit gives a result, in
  any monad. A loop of stateful visits returns exactly when every visit does, each from the state
  that the one before leaves (`visit_isDone_iff`, `visit_done`), and ends as the first visit that
  throws (`visit_stops`). `recorded` is a visit with a ghost record of the elements that are
  visited; the record changes nothing else (`visit_recorded`).
-/
import Rolog.Lib.Proc

namespace Unwind

open Outcome Proc

variable {σ τ ε ρ α β : Type}

/-- Visit the elements in order, and keep those with a result. -/
def visit {m : Type → Type} [Monad m] (act : α → m (Option β)) : List α → m (List α)
  | [] => pure []
  | a :: as => do
    let b ← act a
    let r ← visit act as
    pure (if b.isSome then a :: r else r)

/-! ## The ends of the visits -/

section
variable {act : α → Proc τ ε ρ (Option β)} {t : τ} {a : α} {as : List α}

/-- The visit gives a result. -/
def hasResult : Outcome ε ρ (Option β) → Bool
  | done b => b.isSome
  | _ => false

/-- The elements with the ends of their visits, each from the state that the one before leaves. -/
def results (act : α → Proc τ ε ρ (Option β)) : τ → List α → List (α × Outcome ε ρ (Option β))
  | _, [] => []
  | t, a :: as => (a, (act a t).1) :: results act (act a t).2 as

/-- The elements that are visited: the loop is left at the first visit that does not return. -/
def visited (act : α → Proc τ ε ρ (Option β)) : τ → List α → List α
  | _, [] => []
  | t, a :: as => a :: (if (act a t).1.isDone then visited act (act a t).2 as else [])

theorem visited_eq_self (h : ∀ r ∈ results act t as, r.2.isDone = true) :
    visited act t as = as := by
  induction as generalizing t with
  | nil => rfl
  | cons a as ih =>
    obtain ⟨ha, has⟩ := List.forall_mem_cons.mp h
    unfold visited
    rw [if_pos ha, ih has]

theorem visit_cons_done {b : Option β} (h : (act a t).1 = done b) :
    (visit act (a :: as) t).1 =
      (visit act as (act a t).2).1 >>= fun l => done (if b.isSome then a :: l else l) := by
  have hat : act a t = (done b, (act a t).2) := Prod.ext h rfl
  show (andThen (fun b => visit act as >>= fun r => pure (if b.isSome then a :: r else r))
    (act a t)).1 = _
  rw [hat, andThen_done, bind_apply, andThen_map]

theorem visit_cons_of_not_done (h : (act a t).1.isDone = false) :
    (visit act (a :: as) t).1.isDone = false := by
  show (andThen (fun b => visit act as >>= fun r => pure (if b.isSome then a :: r else r))
    (act a t)).1.isDone = false
  match hat : act a t with
  | (done _, _) =>
    rw [hat] at h
    cases h
  | (thrown _, _) | (jumped _, _) | (undefined, _) => rfl

/-- If every visit returns, so does the loop, with the elements that have a result. -/
theorem visit_done (h : ∀ r ∈ results act t as, r.2.isDone = true) :
    (visit act as t).1 =
      done (((results act t as).filter fun r => hasResult r.2).map Prod.fst) := by
  induction as generalizing t with
  | nil => rfl
  | cons a as ih =>
    obtain ⟨ha, has⟩ := List.forall_mem_cons.mp h
    obtain ⟨b, hb⟩ := isDone_iff.mp ha
    have hb : (act a t).1 = done b := hb
    rw [visit_cons_done hb, ih has, done_bind, results, List.filter_cons, hb]
    cases b with
    | none => rfl
    | some _ => rfl

/-- The loop returns exactly when every visit does. -/
theorem visit_isDone_iff :
    (visit act as t).1.isDone = true ↔ ∀ r ∈ results act t as, r.2.isDone = true := by
  refine ⟨fun h => ?_, fun h => by rw [visit_done h]; rfl⟩
  induction as generalizing t with
  | nil => exact fun _ ha => absurd ha List.not_mem_nil
  | cons a as ih =>
    rw [results, List.forall_mem_cons]
    cases ha : (act a t).1.isDone with
    | true =>
      obtain ⟨b, hb⟩ := isDone_iff.mp ha
      rw [visit_cons_done hb, isDone_bind_done] at h
      exact ⟨rfl, ih h⟩
    | false =>
      rw [visit_cons_of_not_done ha] at h
      cases h

/-- The first visit that throws ends the loop. -/
theorem visit_stops {rs rs' : List (α × Outcome ε ρ (Option β))}
    {r : α × Outcome ε ρ (Option β)} {e : ε} (hsplit : results act t as = rs ++ r :: rs')
    (hrs : ∀ x ∈ rs, x.2.isDone = true) (hr : r.2 = thrown e) :
    visited act t as = rs.map Prod.fst ++ [r.1] ∧ (visit act as t).1 = thrown e := by
  induction as generalizing t rs with
  | nil => exact absurd hsplit.symm (List.append_ne_nil_of_right_ne_nil rs (List.cons_ne_nil _ _))
  | cons a as ih =>
    rw [results] at hsplit
    cases rs with
    | nil =>
      obtain ⟨rfl, -⟩ := List.cons.inj hsplit
      have hat : act a t = (thrown e, (act a t).2) := Prod.ext hr rfl
      unfold visited visit
      rw [bind_apply, hat]
      exact ⟨rfl, rfl⟩
    | cons x rs =>
      obtain ⟨rfl, htail⟩ := List.cons.inj hsplit
      obtain ⟨ha, has⟩ := List.forall_mem_cons.mp hrs
      obtain ⟨b, hb⟩ := isDone_iff.mp ha
      obtain ⟨hvisited, hend⟩ := ih htail has
      unfold visited
      rw [if_pos ha, hvisited, visit_cons_done hb, hend]
      exact ⟨rfl, rfl⟩

end

/-! ## The record of visits -/

/-- A visit that is recorded first. -/
def recorded (act : α → Proc σ ε ρ β) (a : α) : Proc (List α × σ) ε ρ β := do
  modify fun (l, s) => (l ++ [a], s)
  inner (act a)

theorem recorded_apply (act : α → Proc σ ε ρ β) (a : α) (l : List α) (s : σ) :
    recorded act a (l, s) = ((act a s).1, l ++ [a], (act a s).2) := rfl

/-- The record changes neither the end nor the state. -/
theorem visit_recorded (act : α → Proc σ ε ρ (Option β)) (as : List α) (l : List α) (s : σ) :
    ((visit (recorded act) as (l, s)).1, (visit (recorded act) as (l, s)).2.2) =
      visit act as s := by
  induction as generalizing l s with
  | nil => rfl
  | cons a as ih =>
    unfold visit
    rw [bind_apply, bind_apply, recorded_apply]
    cases act a s with
    | mk x t =>
      cases x with
      | done b =>
        rw [andThen_done, andThen_done, bind_apply, bind_apply, ← ih (l ++ [a]) t]
        cases visit (recorded act) as (l ++ [a], t) with
        | mk y u => cases y <;> rfl
      | thrown _ | jumped _ | undefined => rfl

/-- A loop whose visits do what `act'` does on states that `R` relates visits what it visits. -/
theorem visit_recorded_spec {act : α → Proc σ ε ρ (Option β)} {act' : α → Proc τ ε ρ (Option β)}
    {R : τ → σ → Prop} (h : ∀ a t s, R t s → (act a s).1 = (act' a t).1 ∧
      ((act a s).1.isDone = true → R (act' a t).2 (act a s).2))
    (as l : List α) {t : τ} {s : σ} (hs : R t s) :
    (visit (recorded act) as (l, s)).2.1 = l ++ visited act' t as := by
  induction as generalizing l t s with
  | nil => exact (List.append_nil l).symm
  | cons a as ih =>
    obtain ⟨hx, ht⟩ := h a t s hs
    unfold visit visited
    rw [bind_apply, recorded_apply, ← hx]
    cases hp : act a s with
    | mk x u =>
      rw [hp] at ht
      cases x with
      | done b =>
        have hrest := ih (l ++ [a]) (ht rfl)
        rw [andThen_done, bind_apply, andThen_map]
        rw [List.append_assoc] at hrest
        exact hrest
      | thrown _ | jumped _ | undefined => rfl

end Unwind
