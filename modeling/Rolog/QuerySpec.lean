/-
  What a query returns to R and what it does to the engine. `Solve.collect` and `Solve.first`
  give the effects of the two ways in which the package uses a `PlQuery` object: the outcome, and
  what is pending then. The specifications say that the code computes them (`whileSolution_spec`,
  `plCall_spec`), on a live engine, and that the open queries are then those from before unless a
  jump has left the scope of the object (`scope_spec`).
-/
import Rolog.Operations

namespace Rolog

open Unwind Unwind.Outcome Unwind.Proc

/-! ## Exceptions of earlier calls -/

/-- Handlers make no exception of an earlier call. -/
theorem over_earlier {c : Cleanup} {e : Bool × Term} {ball : Term}
    (h : c.over e = (false, ball)) : e = (false, ball) := by
  unfold Cleanup.over at h
  cases hc : c (some e.2) with
  | some b =>
    rw [hc] at h
    cases h
  | none =>
    rw [hc] at h
    exact h

theorem run_earlier {c : Cleanup} {p : Pending} {ball : Term}
    (h : c.run p = some (false, ball)) : p = some (false, ball) := by
  cases p with
  | some e => exact congrArg some (over_earlier (Option.some.inj h))
  | none =>
    obtain ⟨b, -, hb⟩ := Option.map_eq_some_iff.mp h
    cases hb

theorem raiseException_earlier {b ball : Term} {p : Pending}
    (h : raiseException b p = (false, ball)) : p = some (false, ball) := by
  cases p with
  | none => cases h
  | some e =>
    have h : (if outranks b e.2 = true then (true, b) else e) = (false, ball) := h
    split at h
    · cases h
    · exact congrArg some h

/-! ## Effects -/

/-- What a part of an operation comes to, with what it makes of the pending exception. -/
abbrev Effect := Proc Pending Thrown RError

/-- A pending exception is thrown. -/
def endWith {α : Type} (a : α) : Effect α := withState fun p =>
  match p with
  | some (own, ball) => lift (thrown (.pending own ball))
  | none => pure a

/-- A translation of an answer. If it throws, the query is cut. -/
def translated {α : Type} (cut : Cleanup) : Cpp α → Effect α
  | thrown e => do
    modify cut.run
    lift (thrown e)
  | x => lift x

namespace Solve

variable {α : Type}

/-- `b_throw` with `e` pending. -/
def unwind (z : α) (frames : Unwinding) (recover : Term → Effect α) (e : Bool × Term) :
    Effect α :=
  if frames.catches e.2 then do
    modify fun _ => none
    recover e.2
  else do
    modify fun _ => some (frames.cleanup.over e)
    endWith z

/-- The effect of a query that leaves its answers to `k`. -/
def effect (k : Term → Cleanup → Effect α → Effect α) (z : α) : Solve → Effect α
  | answer t cut rest => k t cut (effect k z rest)
  | look handlers frames recover rest => withState fun p => do
    modify handlers.run
    (handlers.run p).elim (effect k z rest) (unwind z frames fun b => effect k z (recover b))
  | throw ball frames recover => withState fun p => do
    modify fun p => some (raiseException ball p)
    unwind z frames (fun b => effect k z (recover b)) (raiseException ball p)
  | clear rest => do
    modify fun _ => none
    effect k z rest
  | fail => endWith z

theorem effect_look {k : Term → Cleanup → Effect α → Effect α} {z : α} (handlers : Cleanup)
    (frames : Unwinding) (recover : Term → Solve) (rest : Solve) (p : Pending) :
    (look handlers frames recover rest).effect k z p =
      (handlers.run p).elim (rest.effect k z)
        (unwind z frames fun b => (recover b).effect k z) (handlers.run p) := rfl

theorem effect_throw {k : Term → Cleanup → Effect α → Effect α} {z : α} (ball : Term)
    (frames : Unwinding) (recover : Term → Solve) (p : Pending) :
    (throw ball frames recover).effect k z p =
      unwind z frames (fun b => (recover b).effect k z) (raiseException ball p)
        (some (raiseException ball p)) := rfl

/-- The effect of the solution loop. -/
def collect (body : Term → Cpp α) : Solve → Effect (List α) :=
  effect (fun t cut more => do
    let x ← translated cut (body t)
    let r ← more
    pure (x :: r)) []

/-- The effect of a query whose answers make up an R list. -/
def answerList (body : Term → Cpp SEXP) (script : Solve) : Effect SEXP := do
  let r ← script.collect body
  pure (.vec r [])

/-- The effect of a single call of `next_solution` and the cut after it: the answer, or none. -/
def first : Solve → Effect (Option Term) :=
  effect (fun t cut _ => do
    modify cut.run
    pure (some t)) none

end Solve

/-! ## The open queries, replayed from the log -/

/-- The effect of a call on the stack of open queries. Only the innermost one can be closed. -/
def ApiCall.act : ApiCall → List Nat → Option (List Nat)
  | openQuery q, qs => some (q :: qs)
  | closeQuery q, q' :: qs | cutQuery q, q' :: qs => if q = q' then some qs else none
  | closeQuery _, [] | cutQuery _, [] => none
  | _, qs => some qs

/-- The stack after some calls, if they close queries in the order last opened, first closed. -/
def replay (qs : List Nat) (calls : List ApiCall) : Option (List Nat) :=
  calls.foldlM (fun qs a => a.act qs) qs

/-- Session `s` comes from `s₀` by calls on a live engine, all of them in the log. -/
structure Continues (s₀ s : Session) : Prop where
  live : s.live = true
  engine : s.rologEngine = s₀.rologEngine
  cleaned : s.cleaned = s₀.cleaned
  grows : s₀.log <+: s.log
  log : ∀ e ∈ s.log, e.1 = .initialise ∨ e.2 = true
  replay : replay s₀.queries (s.log.map Prod.fst) = some s.queries

/-- The session after a call that leaves the queries `qs`. -/
def Session.after (s : Session) (a : ApiCall) (qs : List Nat) : Session :=
  { s with log := s.log ++ [(a, true)], queries := qs }

@[simp] theorem after_queries (s : Session) (a : ApiCall) (qs : List Nat) :
    (s.after a qs).queries = qs := rfl

@[simp] theorem after_pending (s : Session) (a : ApiCall) (qs : List Nat) :
    (s.after a qs).pending = s.pending := rfl

theorem Continues.after {s₀ s : Session} (h : Continues s₀ s) {a : ApiCall} {qs : List Nat}
    (ha : a.act s.queries = some qs) : Continues s₀ (s.after a qs) where
  live := h.live
  engine := h.engine
  cleaned := h.cleaned
  grows := h.grows.trans (List.prefix_append _ _)
  log e he := by
    rcases List.mem_append.mp he with he | he
    · exact h.log e he
    · exact .inr (List.mem_singleton.mp he ▸ rfl)
  replay := by
    have hr := h.replay
    unfold Rolog.replay at hr ⊢
    simp [Session.after, hr, ha]

theorem Continues.setPending {s₀ s : Session} (h : Continues s₀ s) (p : Pending) :
    Continues s₀ { s with pending := p } :=
  ⟨h.live, h.engine, h.cleaned, h.grows, h.log, h.replay⟩

/-- A session can be its own start, if its log leads from its queries back to them. -/
theorem continues_self {s : Session} (hl : s.live = true)
    (hlog : ∀ e ∈ s.log, e.1 = .initialise ∨ e.2 = true)
    (hr : Rolog.replay s.queries (s.log.map Prod.fst) = some s.queries) : Continues s s :=
  ⟨hl, rfl, rfl, List.prefix_rfl, hlog, hr⟩

theorem continues_of_log_nil {s : Session} (hl : s.live = true) (hlog : s.log = []) :
    Continues s s := by
  refine continues_self hl ?_ ?_
  · rw [hlog]
    exact nofun
  · rw [hlog]
    rfl

/-! ## The foreign interface on a live engine -/

variable {s₀ s : Session} {q : Nat} {qs : List Nat} {p : Pending}

theorem api_live (h : s.live = true) (a : ApiCall) : api a s = (done (), s.after a s.queries) := by
  simp [api, h, Session.after]

theorem plOpenQuery_live (h : s.live = true) :
    plOpenQuery s = (done (s.nextQid, s.context),
      { s.after (.openQuery s.nextQid) (s.nextQid :: s.queries) with
        nextQid := s.nextQid + 1 }) := by
  simp only [plOpenQuery, withState_apply, bind_apply, api_live h, andThen_done, modify_apply]
  rfl

theorem restoreAfterQuery_top (h : s.queries = q :: qs) :
    restoreAfterQuery q s = (done (), { s with queries := qs }) := by
  simp [restoreAfterQuery, h]

theorem plCloseQuery_live (h : s.live = true) (hq : s.queries = q :: qs) :
    plCloseQuery q s = (done (), s.after (.closeQuery q) qs) := by
  have htop : (s.after (.closeQuery q) s.queries).queries = q :: qs := hq
  unfold plCloseQuery
  rw [bind_apply, api_live h, andThen_done, restoreAfterQuery_top htop]
  rfl

theorem plCutQuery_live {cut : Cleanup} (h : s.live = true) (hq : s.queries = q :: qs) :
    plCutQuery q cut s =
      (done (), { s.after (.cutQuery q) qs with pending := cut.run s.pending }) := by
  have htop : ({ s.after (.cutQuery q) s.queries with
      pending := cut.run s.pending } : Session).queries = q :: qs := hq
  unfold plCutQuery
  rw [bind_apply, api_live h, andThen_done, bind_apply, modify_apply, andThen_done]
  exact restoreAfterQuery_top htop

/-- A session that comes from `s₀`, with the open queries `qs` and the pending exception `p`. -/
def At (s₀ : Session) (qs : List Nat) (p : Pending) (s : Session) : Prop :=
  Continues s₀ s ∧ s.queries = qs ∧ s.pending = p

theorem At.context (h : At s₀ qs p s) : s.context = contextOf qs := congrArg contextOf h.2.1

theorem api_spec {a : ApiCall} (ha : ∀ qs, a.act qs = some qs) :
    Triple (At s₀ qs p) (api a) fun x s => x = done () ∧ At s₀ qs p s := by
  intro s h
  obtain ⟨hc, hq, hp⟩ := h
  rw [api_live hc.live]
  exact ⟨rfl, hc.after (ha _), hq, hp⟩

theorem converted_spec {α : Type} (x : Cpp α) :
    Triple (At s₀ qs p) (converted x) fun y s => y = x ∧ At s₀ qs p s := by
  intro s h
  obtain ⟨hc, hq, hp⟩ := h
  simp only [converted, bind_apply, api_live hc.live, andThen_done, lift_apply]
  exact ⟨trivial, hc.after rfl, hq, hp⟩

/-! ## The scope of a `PlQuery` object -/

/-- The object holds query `q`, which is open above `qs`. -/
def Holds (s₀ : Session) (q : Nat) (qs : List Nat) (cut : Cleanup) (p : Pending) :
    Option (Nat × Cleanup) × Session → Prop :=
  fun (k, s) => k = some (q, cut) ∧ At s₀ (q :: qs) p s

/-- The query is closed and the object holds none. -/
def Released (s₀ : Session) (qs : List Nat) (p : Pending) :
    Option (Nat × Cleanup) × Session → Prop :=
  fun (k, s) => k = none ∧ At s₀ qs p s

/-- What is pending once the scope of a query that is still open has been left. -/
def afterScope {α : Type} (cut : Cleanup) : Cpp α → Pending → Pending
  | done _, p | thrown _, p => cut.run p
  | jumped _, p | undefined, p => p

/-- How the body of a scope ends, if the scope as a whole has the effect `e`: with the query
still open, or with the query closed. -/
def ScopeEnd {α : Type} (s₀ : Session) (q : Nat) (qs : List Nat) (e : Cpp α × Pending) :
    Cpp α → Option (Nat × Cleanup) × Session → Prop :=
  fun x st => x = e.1 ∧
    ((∃ cut p, Holds s₀ q qs cut p st ∧ afterScope cut x p = e.2) ∨
      Released s₀ qs e.2 st ∧ ∀ j, x ≠ jumped j)

variable {cut : Cleanup}

theorem solution_spec {α : Type} {cut' : Cleanup} {f : Unit → PlQuery α}
    {Q : Outcome Thrown RError α → Option (Nat × Cleanup) × Session → Prop}
    (h : Triple (Holds s₀ q qs cut' p) (f ()) Q) :
    Triple (Holds s₀ q qs cut p) (PlQuery.solution q cut' >>= f) Q := by
  intro st hst
  obtain ⟨k, s⟩ := st
  obtain ⟨rfl, hc, hq, hp⟩ := hst
  rw [PlQuery.solution, bind_assoc, bind_apply, inner_apply, api_live hc.live, andThen_done,
    bind_apply, modify_apply, andThen_done]
  exact h (_, _) ⟨rfl, hc.after rfl, hq, hp⟩

theorem setPending_spec {α : Type} {p' : Pending} {f : Unit → PlQuery α}
    {Q : Outcome Thrown RError α → Option (Nat × Cleanup) × Session → Prop}
    (h : Triple (Holds s₀ q qs cut p') (f ()) Q) :
    Triple (Holds s₀ q qs cut p) (PlQuery.setPending p' >>= f) Q := by
  intro st hst
  obtain ⟨k, s⟩ := st
  obtain ⟨rfl, hc, hq, _⟩ := hst
  rw [bind_apply, PlQuery.setPending, inner_apply, modify_apply, andThen_done]
  exact h (_, _) ⟨rfl, hc.setPending _, hq, rfl⟩

theorem endWith_ne_jumped {α : Type} (p : Pending) (a : α) (j : RError) :
    (endWith a p).1 ≠ jumped j := by
  cases p <;> exact nofun

theorem noSolution_spec {α : Type} (a : α) :
    Triple (Holds s₀ q qs cut p) (PlQuery.noSolution q >>= fun _ => pure a)
      (ScopeEnd s₀ q qs (endWith a p)) := by
  intro st hst
  obtain ⟨k, s⟩ := st
  obtain ⟨rfl, hc, hq, rfl⟩ := hst
  have h₁ : Continues s₀ (s.after (.nextSolution q) (q :: qs)) := hc.after (hq ▸ rfl)
  have h₂ : Continues s₀ ((s.after (.nextSolution q) (q :: qs)).after (.closeQuery q) qs) :=
    h₁.after (by simp [ApiCall.act])
  have h₃ : Continues s₀ (((s.after (.nextSolution q) (q :: qs)).after (.closeQuery q) qs).after
      .exception qs) := h₂.after rfl
  simp only [PlQuery.noSolution, bind_apply, inner_apply, api_live hc.live, hq,
    plCloseQuery_live h₁.live rfl, andThen_done, modify_apply, api_live h₂.live, after_queries,
    withState_apply, after_pending]
  cases hp : s.pending with
  | none => exact ⟨rfl, .inr ⟨⟨rfl, h₃, rfl, hp⟩, nofun⟩⟩
  | some e => exact ⟨rfl, .inr ⟨⟨rfl, h₃, rfl, hp⟩, nofun⟩⟩

section
variable {α : Type} {z : α} {frames : Unwinding} {recover : Term → PlQuery α}
  {recover' : Term → Effect α}

theorem unwind_spec (h : ∀ b p, Triple (Holds s₀ q qs cut p) (recover b)
      (ScopeEnd s₀ q qs (recover' b p))) (e : Bool × Term) :
    Triple (Holds s₀ q qs cut p) (PlQuery.unwind q z frames recover e)
      (ScopeEnd s₀ q qs (Solve.unwind z frames recover' e p)) := by
  unfold PlQuery.unwind Solve.unwind
  cases frames.catches e.2 with
  | true => exact setPending_spec (h e.2 none)
  | false => exact setPending_spec (noSolution_spec z)

/-- The goal runs as its effect says if what is done with an answer does. -/
theorem run_spec {k : Term → Solve → PlQuery α → PlQuery α}
    {k' : Term → Cleanup → Effect α → Effect α}
    (hk : ∀ t cut rest more more', (∀ p, Triple (Holds s₀ q qs cut p) more
        (ScopeEnd s₀ q qs (more' p))) →
      ∀ p, Triple (Holds s₀ q qs cut p) (k t rest more) (ScopeEnd s₀ q qs (k' t cut more' p)))
    (script : Solve) : ∀ cut p, Triple (Holds s₀ q qs cut p) (PlQuery.run q k z script)
      (ScopeEnd s₀ q qs (script.effect k' z p)) := by
  induction script with
  | answer t cut' rest ih =>
    exact fun cut p => solution_spec (hk t cut' rest _ _ (ih cut') p)
  | look handlers frames recover rest ihc ih =>
    intro cut p st hst
    have hp : st.2.pending = p := hst.2.2.2
    unfold PlQuery.run
    rw [withState_apply, hp, Solve.effect_look]
    refine setPending_spec ?_ st hst
    cases handlers.run p with
    | none => exact ih cut none
    | some e => exact unwind_spec (fun b p => ihc b cut p) e
  | throw ball frames recover ihc =>
    intro cut p st hst
    have hp : st.2.pending = p := hst.2.2.2
    unfold PlQuery.run
    rw [withState_apply, hp]
    exact setPending_spec (unwind_spec (fun b p => ihc b cut p) _) st hst
  | clear rest ih => exact fun cut p => setPending_spec (ih cut none)
  | fail => exact fun cut p => noSolution_spec z

end

/-- A pure last step. -/
theorem scopeEnd_map {α β : Type} {P : Option (Nat × Cleanup) × Session → Prop} {b : PlQuery α}
    {e : Cpp α × Pending} (f : α → β) (h : Triple P b (ScopeEnd s₀ q qs e)) :
    Triple P (b >>= fun a => pure (f a))
      (ScopeEnd s₀ q qs (andThen (fun a => pure (f a)) e)) := by
  intro st hst
  obtain ⟨hx, hend⟩ := h st hst
  rw [bind_apply, andThen_map, andThen_map]
  refine ⟨congrArg (· >>= fun a => done (f a)) hx, ?_⟩
  rcases hend with ⟨cut, p, hopen, hp⟩ | ⟨hclosed, hj⟩
  · refine .inl ⟨cut, p, hopen, ?_⟩
    rw [← hp]
    cases (b st).1 <;> rfl
  · exact .inr ⟨hclosed, fun j hj' => hj j (bind_done_eq_jumped.mp hj')⟩

/-- A translation inside the loop. -/
theorem inner_converted_spec {α : Type} (x : Cpp α) :
    Triple (Holds s₀ q qs cut p) (inner (converted x))
      fun y st => y = x ∧ Holds s₀ q qs cut p st := by
  intro st hst
  obtain ⟨k, s⟩ := st
  obtain ⟨rfl, hat⟩ := hst
  obtain ⟨hx, hat'⟩ := converted_spec x s hat
  exact ⟨hx, rfl, hat'⟩

theorem whileSolution_spec {α : Type} (body : Term → Cpp α) (script : Solve) :
    Triple (Holds s₀ q qs cut p) (PlQuery.whileSolution q body script)
      (ScopeEnd s₀ q qs (script.collect body p)) := by
  refine run_spec (fun t cut rest more more' h p => ?_) script cut p
  refine triple_bind (R := fun a st => body t = done a ∧ Holds s₀ q qs cut p st) ?_ ?_
  · refine (inner_converted_spec (body t)).post ?_
    intro x st hst
    obtain ⟨rfl, hst⟩ := hst
    match body t with
    | done a => exact ⟨rfl, hst⟩
    | thrown _ | jumped _ | undefined => exact ⟨rfl, .inl ⟨cut, p, hst, rfl⟩⟩
  · intro a st hst
    obtain ⟨ha, hst⟩ := hst
    rw [ha]
    exact scopeEnd_map (fun r => a :: r) (h p) st hst

/-- A single call of `next_solution`, without what is left of the query. -/
theorem nextSolution_spec (script : Solve) :
    Triple (Holds s₀ q qs cut p)
      (PlQuery.nextSolution q script >>= fun r => pure (r.map Prod.fst))
      (ScopeEnd s₀ q qs (script.first p)) := by
  have hnext : (PlQuery.nextSolution q script >>= fun r => pure (r.map Prod.fst)) =
      PlQuery.run q (fun t _ _ => pure (some t)) none script := by
    rw [PlQuery.run_eq]
    refine congrArg (_ >>= ·) (funext fun r => ?_)
    cases r with
    | none => rfl
    | some e => rfl
  rw [hnext]
  exact run_spec (fun t cut _ _ _ _ p st hst => ⟨rfl, .inl ⟨cut, p, hst, rfl⟩⟩) script cut p

/-! ## From constructor to destructor -/

theorem plOpenQuery_spec {Q : Outcome Thrown RError (Nat × Context) → Session → Prop}
    (h : ∀ q s, At s₀ (q :: qs) p s → Q (done (q, contextOf qs)) s) :
    Triple (At s₀ qs p) plOpenQuery Q := by
  intro s hs
  have hctx := hs.context
  obtain ⟨hc, rfl, hp⟩ := hs
  rw [plOpenQuery_live hc.live, hctx]
  have hc' := hc.after (a := .openQuery s.nextQid) rfl
  exact h _ _ ⟨⟨hc'.live, hc'.engine, hc'.cleaned, hc'.grows, hc'.log, hc'.replay⟩, rfl, hp⟩

/-- The destructor cuts a query that is still open. -/
theorem destroy_open : Triple (fun s => Holds s₀ q qs cut p (some (q, cut), s))
    (PlQuery.destroy (some (q, cut)))
    fun x s => x = done () ∧ At s₀ qs (cut.run p) s := by
  intro s hs
  obtain ⟨_, hc, hq, hp⟩ := hs
  rw [PlQuery.destroy, plCutQuery_live hc.live hq, hp]
  exact ⟨rfl, (hc.after (by simp [hq, ApiCall.act])).setPending _, rfl, rfl⟩

/-- How a part of an operation ends: with the effect `e`, and with the open queries `qs`, below
one more if it leaks. -/
def Leaves {α : Type} (s₀ : Session) (qs : List Nat) (leak : Prop) (e : Cpp α × Pending) :
    Cpp α → Session → Prop :=
  fun x s => x = e.1 ∧ Continues s₀ s ∧ s.pending = e.2 ∧
    (x = undefined ∨ ¬ leak ∧ s.queries = qs ∨ leak ∧ ∃ q, s.queries = q :: qs)

section
variable {α : Type} {leak leak' : Prop} {e : Cpp α × Pending} {x : Cpp α}

theorem Leaves.congr (h : Leaves s₀ qs leak e x s) (hl : leak ↔ leak') :
    Leaves s₀ qs leak' e x s := by rwa [← propext hl]

theorem Leaves.at (h : Leaves s₀ qs False e x s) (hx : x ≠ undefined) : At s₀ qs e.2 s := by
  obtain ⟨_, hc, hp, hq⟩ := h
  refine ⟨hc, ?_, hp⟩
  rcases hq with hu | ⟨_, hq⟩ | ⟨hl, _⟩
  · exact absurd hu hx
  · exact hq
  · exact hl.elim

theorem At.leaves (h : At s₀ qs e.2 s) (hx : x = e.1) : Leaves s₀ qs False e x s :=
  ⟨hx, h.1, h.2.2, .inr (.inl ⟨not_false, h.2.1⟩)⟩

end

/-- The scope of a query. A body that jumps leaves the query open. -/
theorem scope_spec {α : Type} {w : World} {predicate : CString} {args : List Term}
    {body : Nat → Solve → PlQuery α} {e : Cpp α × Pending}
    (h : ∀ q, Triple (Holds s₀ q qs .quiet p) (body q (w.solve (contextOf qs) predicate args))
      (ScopeEnd s₀ q qs e)) :
    Triple (At s₀ qs p) (PlQuery.scope w predicate args body)
      (Leaves s₀ qs (∃ j, e.1 = jumped j) e) := by
  have closed {x : Cpp α} {s : Session} (hx : x = e.1) (hj : ∀ j, x ≠ jumped j)
      (hs : At s₀ qs e.2 s) : Leaves s₀ qs (∃ j, e.1 = jumped j) e x s :=
    (hs.leaves hx).congr (iff_of_false not_false fun hj' => hj'.elim fun j he => hj j (hx.trans he))
  refine triple_bind (R := fun r s => r.2 = contextOf qs ∧ At s₀ (r.1 :: qs) p s)
    (plOpenQuery_spec fun q s hs => ⟨rfl, hs⟩) ?_
  intro r s hs
  obtain ⟨q, context⟩ := r
  obtain ⟨rfl, hs⟩ := hs
  refine triple_object (h q) ?_ ?_ ?_ s hs
  · intro x k hx s hs
    obtain ⟨hxe, hs⟩ := hs
    have hj : ∀ j, x ≠ jumped j := by
      rintro j rfl
      simp [isDone] at hx
    rcases hs with ⟨cut, p, ⟨rfl, hat⟩, hp⟩ | ⟨⟨rfl, hat⟩, _⟩
    · obtain ⟨hd, hat'⟩ := destroy_open s ⟨rfl, hat⟩
      have hcut : cut.run p = e.2 := by
        rw [← hp]
        cases x with
        | done _ | thrown _ => rfl
        | jumped _ | undefined => simp [isDone] at hx
      rw [hd]
      exact closed hxe hj (hcut ▸ hat')
    · exact closed hxe hj hat
  · intro j k s hs
    obtain ⟨hxe, hs⟩ := hs
    obtain ⟨cut, p, ⟨_, hc, hq, hp⟩, hafter⟩ := hs.resolve_right fun hs => hs.2 j rfl
    exact ⟨hxe, hc, hp.trans hafter, .inr (.inr ⟨⟨j, hxe.symm⟩, q, hq⟩)⟩
  · intro k s hs
    obtain ⟨hxe, hs⟩ := hs
    rcases hs with ⟨cut, p, ⟨_, hc, _, hp⟩, hafter⟩ | ⟨⟨_, hc, _, hp⟩, _⟩
    · exact ⟨hxe, hc, hp.trans hafter, .inl rfl⟩
    · exact ⟨hxe, hc, hp, .inl rfl⟩

/-! ## Sequences -/

/-- A step that leaves engine and queries alone, and then the rest. -/
theorem at_bind {α β : Type} {b : Cxx α} {f : α → Cxx β} {x : Cpp α} {g : α → Effect β}
    (leak : α → Prop) (hb : Triple (At s₀ qs p) b fun y s => y = x ∧ At s₀ qs p s)
    (hf : ∀ a, Triple (At s₀ qs p) (f a) (Leaves s₀ qs (leak a) (g a p))) :
    Triple (At s₀ qs p) (b >>= f)
      (Leaves s₀ qs (∃ a, x = done a ∧ leak a) ((lift x >>= g) p)) := by
  refine triple_bind (R := fun a s => x = done a ∧ At s₀ qs p s) ?_ ?_
  · refine hb.post ?_
    intro y s h
    obtain ⟨rfl, hs⟩ := h
    match y with
    | done a => exact ⟨rfl, hs⟩
    | thrown _ | jumped _ =>
      exact ⟨rfl, hs.1, hs.2.2, .inr (.inl ⟨by simp, hs.2.1⟩)⟩
    | undefined => exact ⟨rfl, hs.1, hs.2.2, .inl rfl⟩
  · intro a s h
    obtain ⟨rfl, hs⟩ := h
    exact (hf a s hs).congr (by simp)

/-- The same, where the rest leaks nothing. -/
theorem at_bind_safe {α β : Type} {b : Cxx α} {f : α → Cxx β} {x : Cpp α} {g : α → Effect β}
    (hb : Triple (At s₀ qs p) b fun y s => y = x ∧ At s₀ qs p s)
    (hf : ∀ a, Triple (At s₀ qs p) (f a) (Leaves s₀ qs False (g a p))) :
    Triple (At s₀ qs p) (b >>= f) (Leaves s₀ qs False ((lift x >>= g) p)) :=
  (at_bind (fun _ => False) hb hf).post fun _ _ h => h.congr (by simp)

/-- A call of the interface that leaves the queries alone, and then the rest. -/
theorem api_bind {α : Type} {a : ApiCall} {f : Unit → Cxx α} {leak : Prop} {e : Cpp α × Pending}
    (ha : ∀ qs, a.act qs = some qs)
    (hf : Triple (At s₀ qs p) (f ()) (Leaves s₀ qs leak e)) :
    Triple (At s₀ qs p) (api a >>= f) (Leaves s₀ qs leak e) := by
  intro s hs
  have hlive : s.live = true := hs.1.live
  have hat : At s₀ qs p (s.after a s.queries) := ⟨hs.1.after (ha _), hs.2⟩
  rw [bind_apply, api_live hlive, andThen_done]
  exact hf _ hat

/-- A part that leaks nothing, and then the rest, with what is pending then. -/
theorem leaves_bind {α β : Type} {P : Session → Prop} {b : Cxx α} {f : α → Cxx β}
    {e : Cpp α × Pending} {g : α → Effect β} (hb : Triple P b (Leaves s₀ qs False e))
    (hf : ∀ a p, Triple (At s₀ qs p) (f a) (Leaves s₀ qs False (g a p))) :
    Triple P (b >>= f) (Leaves s₀ qs False (andThen g e)) := by
  obtain ⟨x, p⟩ := e
  refine triple_bind (R := fun a s => x = done a ∧ At s₀ qs p s) ?_ ?_
  · refine hb.post ?_
    intro y s h
    obtain ⟨rfl, hc, hp, hq⟩ := h
    match y, hq with
    | done a, hq => exact ⟨rfl, Leaves.at ⟨rfl, hc, hp, hq⟩ nofun⟩
    | thrown _, hq | jumped _, hq => exact ⟨rfl, hc, hp, hq.imp nofun id⟩
    | undefined, _ => exact ⟨rfl, hc, hp, .inl rfl⟩
  · intro a s h
    obtain ⟨rfl, hs⟩ := h
    exact hf a p s hs

theorem leaves_pure {α : Type} (a : α) :
    Triple (At s₀ qs p) (pure a : Cxx α) (Leaves s₀ qs False ((pure a : Effect α) p)) :=
  fun _ h => h.leaves rfl

theorem lift_bind_fst {α β : Type} (x : Cpp α) (f : α → Effect β) (p : Pending) :
    ((lift x >>= f) p).1 = x >>= fun a => (f a p).1 := by
  cases x <;> rfl

theorem bind_lift_fst {α β : Type} (e : Effect α) (g : α → Cpp β) (p : Pending) :
    ((e >>= fun a => lift (g a)) p).1 = (e p).1 >>= g := by
  rw [bind_apply]
  match e p with
  | (done _, _) | (thrown _, _) | (jumped _, _) | (undefined, _) => rfl

theorem lift_spec {α : Type} (x : Cpp α) :
    Triple (At s₀ qs p) (lift x) fun y s => y = x ∧ At s₀ qs p s := fun _ h => ⟨rfl, h⟩

theorem plCompoundOfText_spec (w : World) (text : CString) :
    Triple (At s₀ qs p) (plCompoundOfText w text) fun y s => y = w.parse text ∧ At s₀ qs p s := by
  have happ : Triple (At s₀ qs p) (api .charsToTerm)
      (Upto (fun _ => At s₀ qs p) fun y s => y = w.parse text ∧ At s₀ qs p s) :=
    (api_spec fun _ => rfl).post fun x s h => by
      obtain ⟨rfl, hs⟩ := h
      exact hs
  exact triple_bind happ fun _ => lift_spec _

/-! ## Calls and loops -/

namespace Solve

/-- The outcomes of a goal, if what is done with an answer has them. -/
theorem effect_outcome {α : Type} {k : Term → Cleanup → Effect α → Effect α} {z : α}
    {Q : Cpp α → Prop} (hz : Q (done z)) (hpending : ∀ own ball, Q (thrown (.pending own ball)))
    (hk : ∀ t cut more, (∀ p, Q (more p).1) → ∀ p, Q (k t cut more p).1) (script : Solve) :
    ∀ p, Q (script.effect k z p).1 := by
  have ended (p : Pending) : Q (endWith z p).1 := by
    cases p with
    | none => exact hz
    | some e => exact hpending e.1 e.2
  have unwound {frames : Unwinding} {recover : Term → Effect α}
      (h : ∀ b p, Q (recover b p).1) (e : Bool × Term) (p : Pending) :
      Q (unwind z frames recover e p).1 := by
    unfold unwind
    split
    · exact h e.2 none
    · exact ended (some (frames.cleanup.over e))
  induction script with
  | answer t cut rest ih => exact hk t cut _ ih
  | look handlers frames recover rest ihc ih =>
    intro p
    rw [effect_look]
    cases handlers.run p with
    | none => exact ih none
    | some e => exact unwound ihc e (some e)
  | throw ball frames recover ihc =>
    intro p
    rw [effect_throw]
    exact unwound ihc _ _
  | clear rest ih => exact fun _ => ih none
  | fail => exact ended

/-- A single call of `next_solution` returns or throws. -/
theorem first_cases (script : Solve) (p : Pending) :
    (∃ r, (script.first p).1 = done r) ∨ ∃ e, (script.first p).1 = thrown e :=
  effect_outcome (Q := fun x => (∃ r, x = done r) ∨ ∃ e, x = thrown e) (.inl ⟨none, rfl⟩)
    (fun _ _ => .inr ⟨_, rfl⟩) (fun t _ _ _ _ => .inl ⟨some t, rfl⟩) script p

theorem first_ne_jumped (script : Solve) (j : RError) : (script.first p).1 ≠ jumped j := by
  rcases script.first_cases p with ⟨r, hr⟩ | ⟨e, he⟩
  · rw [hr]
    exact nofun
  · rw [he]
    exact nofun

theorem collect_ne_jumped {α : Type} {body : Term → Cpp α} (h : ∀ t j, body t ≠ jumped j)
    (script : Solve) (j : RError) : (script.collect body p).1 ≠ jumped j := by
  refine effect_outcome (Q := (· ≠ jumped j)) nofun nofun (fun t cut more hmore p => ?_) script p
  cases hb : body t with
  | done a =>
    show (andThen _ (more p)).1 ≠ _
    rw [andThen_map]
    exact fun he => hmore p (bind_done_eq_jumped.mp he)
  | jumped i => exact absurd hb (h t i)
  | thrown _ | undefined => exact nofun

end Solve

theorem plCall_spec (w : World) (predicate : CString) (args : List Term) :
    Triple (At s₀ qs p) (plCall w predicate args)
      (Leaves s₀ qs False ((w.solve (contextOf qs) predicate args).first p)) :=
  (scope_spec fun _ => nextSolution_spec _).post fun _ _ h =>
    h.congr (by simp [Solve.first_ne_jumped])

/-- The effect of the query `predicate(a, X)`. -/
def queryOutcome (w : World) (context : Context) (predicate : CString) (body : Term → Cpp SEXP)
    (a : Term) : Effect SEXP := (w.solve context predicate [a, .var 0]).answerList body

theorem queryAnswers_spec (w : World) (predicate : CString) (a : Term) (body : Term → Cpp SEXP) :
    Triple (At s₀ qs p) (queryAnswers w predicate a body)
      (Leaves s₀ qs (∃ j, (queryOutcome w (contextOf qs) predicate body a p).1 = jumped j)
        (queryOutcome w (contextOf qs) predicate body a p)) :=
  scope_spec fun _ => scopeEnd_map (fun r => SEXP.vec r []) (whileSolution_spec body _)

end Rolog
