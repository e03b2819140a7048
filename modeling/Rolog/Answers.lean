/-
  Which answers arrive. A query whose predicate enumerates finitely many answers and then fails
  returns them all, one R value for each, exactly when none of them has a fault; otherwise the
  whole call ends by the first fault and nothing is returned (`answers_arrive_iff`).
-/
import Rolog.OperationSpec

namespace Rolog

open Unwind Unwind.Outcome Unwind.Proc

/-- The exception that `ball` becomes when nothing catches it. -/
def Unwinding.leaves (frames : Unwinding) (ball : Term) : Term :=
  (frames.cleanup.over (true, ball)).2

namespace Solve

/-- The answers of a goal that is called with nothing pending. -/
def answers : Solve → List Term
  | answer t _ rest => t :: rest.answers
  | look handlers frames recover rest => (handlers none).elim rest.answers fun ball =>
    if frames.catches ball then (recover ball).answers else []
  | throw ball frames recover => if frames.catches ball then (recover ball).answers else []
  | clear rest => rest.answers
  | fail => []

/-- The exception that such a goal ends by, if it does not fail. -/
def uncaught : Solve → Option Term
  | answer _ _ rest | clear rest => rest.uncaught
  | look handlers frames recover rest => (handlers none).elim rest.uncaught fun ball =>
    if frames.catches ball then (recover ball).uncaught else some (frames.leaves ball)
  | throw ball frames recover =>
    if frames.catches ball then (recover ball).uncaught else some (frames.leaves ball)
  | fail => none

/-- The goal ends by failure. -/
def fails (script : Solve) : Bool := script.uncaught.isNone

/-- The end of a goal with this uncaught exception. -/
def endBy {α : Type} (a : α) (e : Option Term) : Cpp α := (endWith a (e.map (Prod.mk true))).1

/-- The end of such a goal. -/
def finish {α : Type} (script : Solve) (a : α) : Cpp α := endBy a script.uncaught

/-- With nothing pending, what comes of a goal is made of its answers and its end. -/
theorem effect_none {α : Type} {k : Term → Cleanup → Effect α → Effect α} {z : α}
    {F : List Term → Option Term → Cpp α} (hend : ∀ e, endBy z e = F [] e)
    (hk : ∀ t cut more ts e, (more none).1 = F ts e → (k t cut more none).1 = F (t :: ts) e)
    (script : Solve) : (script.effect k z none).1 = F script.answers script.uncaught := by
  have unwound {frames : Unwinding} {recover : Term → Solve}
      (ih : ∀ b, ((recover b).effect k z none).1 = F (recover b).answers (recover b).uncaught)
      (ball : Term) : (unwind z frames (fun b => (recover b).effect k z) (true, ball)
        (some (true, ball))).1 = F (throw ball frames recover).answers
          (throw ball frames recover).uncaught := by
    unfold unwind answers uncaught
    by_cases h : frames.catches ball = true
    · rw [if_pos h, if_pos h, if_pos h]
      exact ih ball
    · rw [if_neg h, if_neg h, if_neg h, ← hend]
      have hown : frames.cleanup.over (true, ball) = (true, frames.leaves ball) := by
        unfold Unwinding.leaves Cleanup.over
        cases frames.cleanup (some ball) <;> rfl
      exact congrArg (fun e => (endWith z (some e)).1) hown
  induction script with
  | answer t cut rest ih => exact hk t cut _ _ _ ih
  | look handlers frames recover rest ihc ih =>
    rw [effect_look, answers, uncaught, Cleanup.run]
    cases handlers none with
    | none => exact ih
    | some ball => exact unwound ihc ball
  | throw ball frames recover ihc => exact unwound ihc ball
  | clear rest ih => exact ih
  | fail => exact hend none

/-- With nothing pending the loop translates the answers one after the other. -/
theorem collect_none {α : Type} {body : Term → Cpp α} (script : Solve) :
    (script.collect body none).1 = script.answers.mapM body >>= script.finish := by
  refine effect_none (F := fun ts e => ts.mapM body >>= fun r => endBy r e) (fun e => rfl)
    (fun t cut more ts e h => ?_) script
  rw [List.mapM_cons, bind_assoc]
  cases body t with
  | done x =>
    show (andThen (fun r => pure (x :: r)) (more none)).1 = _
    rw [andThen_map, h, done_bind, bind_assoc]
    cases ts.mapM body with
    | done r => cases e <;> rfl
    | thrown _ | jumped _ | undefined => rfl
  | thrown _ | jumped _ | undefined => rfl

/-- A single call of `next_solution` gives the first of them. -/
theorem first_none (script : Solve) :
    (script.first none).1 =
      match script.answers with
      | t :: _ => done (some t)
      | [] => script.finish none :=
  effect_none (F := fun ts e =>
    match ts with
    | t :: _ => done (some t)
    | [] => endBy none e) (fun _ => rfl) (fun _ _ _ _ _ _ => rfl) script

theorem finish_of_fails {α : Type} {script : Solve} (h : script.fails) (a : α) :
    script.finish a = done a := by
  unfold finish
  rw [Option.isNone_iff_eq_none.mp h]
  rfl

theorem collect_of_fails {α : Type} {body : Term → Cpp α} {script : Solve} (h : script.fails) :
    (script.collect body none).1 = script.answers.mapM body := by
  have hend : script.finish = (pure : List α → Cpp (List α)) := funext (finish_of_fails h)
  rw [collect_none, hend, bind_pure]

end Solve

/-- A list of answers ends by the first fault of the first faulty answer. -/
theorem mapM_end {α : Type} {body : Term → Cpp α} {fs : Term → List Fault}
    (h : ∀ t, EndsBy (body t) (fs t)) (ts : List Term) :
    EndsBy (ts.mapM body) (ts.flatMap fs) := by
  induction ts with
  | nil => rfl
  | cons t ts ih =>
    rw [List.mapM_cons, List.flatMap_cons]
    exact (h t).bind fun a _ => ih.map

/-- A list of answers that arrives holds one value for each, in order. -/
theorem forall₂_of_mapM {α : Type} {body : Term → Cpp α} :
    ∀ {ts : List Term} {vs : List α}, ts.mapM body = done vs →
      List.Forall₂ (fun t v => body t = done v) ts vs
  | [], vs, h => by
    cases h
    exact .nil
  | t :: ts, vs, h => by
    rw [List.mapM_cons] at h
    simp only [bind_eq_done, pure_eq, Unwind.Outcome.done.injEq] at h
    obtain ⟨v, hv, us, hus, rfl⟩ := h
    exact .cons hv (forall₂_of_mapM hus)

/-- The outcome is a list of the values of the answers `ts`, in order. -/
def Arrives (body : Term → Cpp SEXP) (ts : List Term) (x : Cpp SEXP) : Prop :=
  ∃ vs, x = done (.vec vs []) ∧ List.Forall₂ (fun t v => body t = done v) ts vs

variable {w : World} {context : Context} {predicate : CString} {a : Term}

/-- The outcome of a query on a goal that fails in the end. -/
theorem queryOutcome_of_fails {body : Term → Cpp SEXP}
    (hf : (w.solve context predicate [a, .var 0]).fails) :
    (queryOutcome w context predicate body a none).1 =
      (w.solve context predicate [a, .var 0]).answers.mapM body >>= fun r => done (.vec r []) := by
  rw [queryOutcome, Solve.answerList, bind_apply, andThen_map, Solve.collect_of_fails hf]

theorem queryOutcome_end {body : Term → Cpp SEXP} {fs : Term → List Fault}
    (h : ∀ t, EndsBy (body t) (fs t)) (hf : (w.solve context predicate [a, .var 0]).fails) :
    EndsBy (queryOutcome w context predicate body a none).1
      ((w.solve context predicate [a, .var 0]).answers.flatMap fs) := by
  rw [queryOutcome_of_fails hf]
  exact (mapM_end h _).map

theorem queryOutcome_arrives_iff {body : Term → Cpp SEXP} {fs : Term → List Fault}
    (h : ∀ t, EndsBy (body t) (fs t)) (hf : (w.solve context predicate [a, .var 0]).fails) :
    Arrives body (w.solve context predicate [a, .var 0]).answers
        (queryOutcome w context predicate body a none).1 ↔
      ∀ t ∈ (w.solve context predicate [a, .var 0]).answers, fs t = [] := by
  have hend := mapM_end h (w.solve context predicate [a, .var 0]).answers
  rw [← List.flatMap_eq_nil_iff, ← hend.isDone_iff, isDone_iff, queryOutcome_of_fails hf]
  constructor
  · intro h
    obtain ⟨vs, hvs, _⟩ := h
    obtain ⟨us, hus, _⟩ := bind_eq_done.mp hvs
    exact ⟨us, hus⟩
  · intro h
    obtain ⟨vs, hvs⟩ := h
    exact ⟨vs, by rw [hvs]; rfl, forall₂_of_mapM hvs⟩

theorem rologQuery_outcome {s : Session} {e : SEXP} (hs : s.live = true) (hp : s.pending = none)
    (ha : leaf e = done a) :
    ((Op.query predicate e).run w s).1 =
      (queryOutcome w s.context predicate pl2rLeaf a none).1 := by
  have hpend : s.start.pending = none := by simp [Session.start, hp]
  have h := (rologQuery_spec w predicate e s.start (at_start hs)).1
  rw [termQueryOutcome, ha, hpend] at h
  exact h

theorem rologQueryLL_outcome {s : Session} {arguments : List (Option CString)} {text : CString}
    (hs : s.live = true) (hp : s.pending = none) (htext : firstArgument arguments = done text)
    (ha : w.parse text = done a) :
    ((Op.queryLL predicate arguments).run w s).1 =
      (queryOutcome w s.context predicate rologGet a none).1 := by
  have hpend : s.start.pending = none := by simp [Session.start, hp]
  have h := (rologQueryLL_spec w predicate arguments s.start (at_start hs)).1
  rw [textQueryOutcome, htext, hpend] at h
  refine h.trans ?_
  show ((lift (w.parse text) >>= fun a => queryOutcome w s.context predicate rologGet a) none).1 = _
  rw [ha]
  rfl

/-- Let the predicate enumerate finitely many answers and then fail. A query gives R one value
for each answer, in order, exactly when no answer has a fault. Otherwise the call ends as the
first fault says. -/
theorem answers_arrive_iff {s : Session} (hs : s.live = true) (hp : s.pending = none)
    (hf : (w.solve s.context predicate [a, .var 0]).fails) :
    (∀ e, leaf e = done a →
      (Arrives pl2rLeaf (w.solve s.context predicate [a, .var 0]).answers
          ((Op.query predicate e).run w s).1 ↔
        ∀ t ∈ (w.solve s.context predicate [a, .var 0]).answers, faults t = []) ∧
      EndsBy ((Op.query predicate e).run w s).1
        ((w.solve s.context predicate [a, .var 0]).answers.flatMap faults)) ∧
    ∀ arguments text, firstArgument arguments = done text → w.parse text = done a →
      (Arrives rologGet (w.solve s.context predicate [a, .var 0]).answers
          ((Op.queryLL predicate arguments).run w s).1 ↔
        ∀ t ∈ (w.solve s.context predicate [a, .var 0]).answers, rologFaults t = []) ∧
      EndsBy ((Op.queryLL predicate arguments).run w s).1
        ((w.solve s.context predicate [a, .var 0]).answers.flatMap rologFaults) := by
  constructor
  · intro e ha
    rw [rologQuery_outcome hs hp ha]
    exact ⟨queryOutcome_arrives_iff pl2rLeaf_end hf, queryOutcome_end pl2rLeaf_end hf⟩
  · intro arguments text htext ha
    rw [rologQueryLL_outcome hs hp htext ha]
    exact ⟨queryOutcome_arrives_iff rologGet_end hf, queryOutcome_end rologGet_end hf⟩

/-- The answers `ok` and `f(1=x)`. -/
def awkward : Solve :=
  .answer (.atom ['o', 'k']) .quiet
    (.answer (.compound ['f'] [.compound eqSign [.int 1, .atom ['x']]]) .quiet .fail)

/-- The answer `ok` is lost with the other one, which `rolog_get` translates. -/
theorem awkward_lost :
    (¬ ∃ v, ((Op.query (cstr ['p']) (.sym (cstr ['x']))).run (worldOf awkward) readySession).1 =
        done v) ∧
      ∃ v, ((Op.queryLL (cstr ['p']) [some (cstr ['x'])]).run (worldOf awkward)
        readySession).1 = done v := by
  constructor
  · intro h
    obtain ⟨v, h⟩ := h
    cases h
  · exact ⟨_, rfl⟩

/-- The general statement at that call: the list does not arrive. -/
theorem awkward_faults :
    Arrives pl2rLeaf awkward.answers
        ((Op.query (cstr ['p']) (.sym (cstr ['x']))).run (worldOf awkward) readySession).1 ↔
      ∀ t ∈ awkward.answers, faults t = [] :=
  ((@answers_arrive_iff (worldOf awkward) (cstr ['p']) (.atom ['x']) readySession rfl rfl rfl).1
    (.sym (cstr ['x'])) rfl).1

end Rolog
