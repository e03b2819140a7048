/-
  The Prolog engine as the package sees it: the state that outlives a call, the foreign
  interface on it, and the class `PlQuery` (SWI-cpp.h).

  What a called predicate does is a `Solve` script: its answers, how it ends, and what it does
  with `exception_term` on the way. The virtual machine looks at `exception_term` at some of its
  instructions (a cut, a failed unification) and throws when it is set, whoever set it; a foreign
  predicate that succeeds clears it, and so does `catch/3`; a cleanup handler that raises can
  replace it. The script says where. An exception that nothing catches or clears stays in
  `exception_term` after the query is closed, since the queries are opened with
  `PL_Q_PASS_EXCEPTION` and nothing in the package calls `PL_clear_exception`.
-/
import Rolog.Decode
import Rolog.Lib.Proc

namespace Rolog

open Unwind Unwind.Outcome

/-! ## The world outside the package -/

/-- The module in which a transparent predicate such as `call/1` runs. -/
inductive Context where
  | user
  | system

/-- Cleanup handlers that are run together: the exception that they raise, given the one that is
pending, if it is more urgent (`callCleanupHandler`, `restoreWakeup`). -/
abbrev Cleanup := Option Term → Option Term

/-- No cleanup handler raises. -/
def Cleanup.quiet : Cleanup := fun _ => none

/-- What the frames of a goal do with an exception that is thrown through them. -/
structure Unwinding where
  /-- a `catch/3` catches it -/
  catches : Term → Bool
  /-- the handlers that are run if none does -/
  cleanup : Cleanup

/-- Frames without `catch/3` and handlers. -/
def Unwinding.bare : Unwinding := ⟨fun _ => false, .quiet⟩

/-- What a goal does from call to end. -/
inductive Solve where
  /-- a solution; `t` is what the second argument is bound to, and a cut of the query runs `cut` -/
  | answer (t : Term) (cut : Cleanup) (rest : Solve)
  /-- an instruction that runs `handlers` and throws the exception that is pending then, if there
  is one; once it is caught the goal does `recover` -/
  | look (handlers : Cleanup) (frames : Unwinding) (recover : Term → Solve) (rest : Solve)
  /-- `throw/1` -/
  | throw (ball : Term) (frames : Unwinding) (recover : Term → Solve)
  /-- a foreign predicate succeeds -/
  | clear (rest : Solve)
  | fail

/-- An exception that leaves the goal. -/
def Solve.raise (ball : Term) : Solve := .throw ball .bare fun _ => .fail

/-- How `PL_initialise` ends on a process that has not run Prolog before. A failure can come
before or after `GD->initialised` is set. -/
inductive Initialise where
  | ok
  | fails (initialised : Bool)

/-- The parts of Prolog that the package calls. -/
structure World where
  /-- `PL_chars_to_term`, with the syntax error of a text that is no term -/
  charsToTerm : CString → Except Term Term
  /-- the predicate of this name in module `user`, called with these arguments -/
  solve : Context → CString → List Term → Solve
  /-- `PL_get_text` with `CVT_ALL` and `CVT_WRITEQ` -/
  termText : Term → Text
  initialise : Initialise
  /-- `PL_cleanup` goes through; a halt hook can cancel it -/
  cleanup : Bool

/-! ## The state of the process -/

/-- Calls of the foreign interface. -/
inductive ApiCall where
  | initialise
  | cleanup
  /-- make or read term references -/
  | terms
  | charsToTerm
  | openFrame
  | closeFrame
  | openQuery (q : Nat)
  | nextSolution (q : Nat)
  | closeQuery (q : Nat)
  | cutQuery (q : Nat)
  | exception
  deriving DecidableEq

/-- `exception_term`, and whether the current call set it. -/
abbrev Pending := Option (Bool × Term)

structure Session where
  /-- `rolog_engine != NULL` -/
  rologEngine : Bool := false
  /-- `GD->initialised` -/
  live : Bool := false
  /-- `PL_cleanup` has gone through -/
  cleaned : Bool := false
  pending : Pending := none
  /-- the open queries, the innermost first -/
  queries : List Nat := []
  nextQid : Nat := 1
  /-- the foreign interface calls of the current call, each with `live` at that time -/
  log : List (ApiCall × Bool) := []

/-- A C++ function of the package. -/
abbrev Cxx := Proc Session Thrown RError

/-- A call of the foreign interface. Without an engine its behaviour is undefined. -/
def api (a : ApiCall) : Cxx Unit := fun s =>
  let s := { s with log := s.log ++ [(a, s.live)] }
  if s.live then (done (), s) else (undefined, s)

/-- A conversion between terms and R values. -/
def converted {α : Type} (x : Cpp α) : Cxx α := do
  api .terms
  Proc.lift x

/-! ## Exceptions -/

/-- `except_class` -/
inductive ExceptClass where
  | other
  | error
  | resource
  | timeout
  | abort

def ExceptClass.rank : ExceptClass → Nat
  | other => 1
  | error => 2
  | resource => 3
  | timeout => 4
  | abort => 5

/-- `classify_exception` -/
def classifyException : Term → ExceptClass
  | .atom a =>
    if a = ['$', 'a', 'b', 'o', 'r', 't', 'e', 'd'] then .abort
    else if a = "time_limit_exceeded".toList then .timeout
    else .other
  | .compound f [p, _] =>
    if f = ['e', 'r', 'r', 'o', 'r'] then
      match p with
      | .atom a => if a = "resource_error".toList then .resource else .error
      | _ => .error
    else .other
  | _ => .other

/-- The ball is at least as urgent as the pending exception. -/
def outranks (ball pending : Term) : Bool :=
  (classifyException pending).rank ≤ (classifyException ball).rank

/-- `PL_raise_exception`: a more urgent pending exception stays. -/
def raiseException (ball : Term) : Pending → Bool × Term
  | none => (true, ball)
  | some (own, old) => if outranks ball old then (true, ball) else (own, old)

/-- The exception that is pending after handlers have run with `e` pending. -/
def Cleanup.over (c : Cleanup) (e : Bool × Term) : Bool × Term :=
  match c (some e.2) with
  | some ball => (true, ball)
  | none => e

/-- What is pending after handlers have run. -/
def Cleanup.run (c : Cleanup) : Pending → Pending
  | some e => some (c.over e)
  | none => (c none).map (Prod.mk true)

/-! ## Queries -/

/-- The context module of a goal on top of these queries: that of `environment_frame`, which is
the frame of `system:$c_call_prolog/0` below an open query. -/
def contextOf : List Nat → Context
  | [] => .user
  | _ :: _ => .system

def Session.context (s : Session) : Context := contextOf s.queries

/-- `PL_open_query`: the query, and the context of its goal. -/
def plOpenQuery : Cxx (Nat × Context) := Proc.withState fun s => do
  let q := s.nextQid
  api (.openQuery q)
  Proc.modify fun s => { s with queries := q :: s.queries, nextQid := q + 1 }
  pure (q, s.context)

/-- `restore_after_query`: the parent of the query is the innermost one again. -/
def restoreAfterQuery (q : Nat) : Cxx Unit :=
  Proc.modify fun s => { s with queries := (s.queries.dropWhile (· ≠ q)).tail }

/-- `PL_close_query` on a query that has come to its end: nothing is left to discard. -/
def plCloseQuery (q : Nat) : Cxx Unit := do
  api (.closeQuery q)
  restoreAfterQuery q

/-- `PL_cut_query` discards the choice points of the query, with their cleanup handlers. -/
def plCutQuery (q : Nat) (cut : Cleanup) : Cxx Unit := do
  api (.cutQuery q)
  Proc.modify fun s => { s with pending := cut.run s.pending }
  restoreAfterQuery q

/-- The members of class `PlQuery`, on its field `qid` (`none` is 0) and the handlers that a cut of
the query would run. -/
abbrev PlQuery := Proc (Option (Nat × Cleanup) × Session) Thrown RError

namespace PlQuery

variable {α : Type}

/-- `PL_next_solution` has returned `TRUE`. -/
def solution (q : Nat) (cut : Cleanup) : PlQuery Unit := do
  Proc.inner (api (.nextSolution q))
  Proc.modify fun (_, s) => (some (q, cut), s)

/-- `PL_next_solution` has returned `FALSE`: the query is closed, and a pending exception is
thrown. -/
def noSolution (q : Nat) : PlQuery Unit := do
  Proc.inner (api (.nextSolution q))
  Proc.inner (plCloseQuery q)
  Proc.modify fun (_, s) => (none, s)
  Proc.inner (api .exception)
  Proc.withState fun (_, s) =>
    match s.pending with
    | some (own, ball) => Proc.lift (thrown (.pending own ball))
    | none => pure ()

/-- The goal sets `exception_term`. -/
def setPending (p : Pending) : PlQuery Unit :=
  Proc.inner (Proc.modify fun s => { s with pending := p })

/-- `b_throw` with `e` pending: a catcher clears it, and without one the query ends. -/
def unwind (q : Nat) (z : α) (frames : Unwinding) (recover : Term → PlQuery α)
    (e : Bool × Term) : PlQuery α :=
  if frames.catches e.2 then do
    setPending none
    recover e.2
  else do
    setPending (some (frames.cleanup.over e))
    noSolution q
    pure z

/-- The goal runs to its next answer, which is left to `k`, or to its end, with result `z`. -/
def run (q : Nat) (k : Term → Solve → PlQuery α → PlQuery α) (z : α) : Solve → PlQuery α
  | .answer t cut rest => do
    solution q cut
    k t rest (run q k z rest)
  | .look handlers frames recover rest => Proc.withState fun st => do
    setPending (handlers.run st.2.pending)
    (handlers.run st.2.pending).elim (run q k z rest)
      (unwind q z frames fun b => run q k z (recover b))
  | .throw ball frames recover => Proc.withState fun st => do
    setPending (some (raiseException ball st.2.pending))
    unwind q z frames (fun b => run q k z (recover b)) (raiseException ball st.2.pending)
  | .clear rest => do
    setPending none
    run q k z rest
  | .fail => do
    noSolution q
    pure z

/-- `next_solution`: the answer, and what is left to do for more of them. -/
def nextSolution (q : Nat) : Solve → PlQuery (Option (Term × Solve)) :=
  run q (fun t rest _ => pure (some (t, rest))) none

/-- `while(q.next_solution()) r.push_back(body(t))` -/
def whileSolution (q : Nat) (body : Term → Cpp α) : Solve → PlQuery (List α) :=
  run q (fun t _ more => do
    let x ← Proc.inner (converted (body t))
    let r ← more
    pure (x :: r)) []

theorem unwind_bind {β : Type} {f : α → PlQuery β} {z : α} {z' : β} (hf : f z = pure z') (q : Nat)
    (frames : Unwinding) (recover : Term → PlQuery α) (e : Bool × Term) :
    unwind q z frames recover e >>= f =
      unwind q z' frames (fun b => recover b >>= f) e := by
  unfold unwind
  split
  · exact bind_assoc _ _ _
  · simp only [bind_assoc, pure_bind, hf]

/-- What is left to do after a call of `next_solution`. -/
def resume (q : Nat) (k : Term → Solve → PlQuery α → PlQuery α) (z : α) :
    Option (Term × Solve) → PlQuery α
  | some (t, rest) => k t rest (run q k z rest)
  | none => pure z

/-- To run the goal is to call `next_solution` first. -/
theorem run_eq (q : Nat) (k : Term → Solve → PlQuery α → PlQuery α) (z : α) (script : Solve) :
    run q k z script = nextSolution q script >>= resume q k z := by
  unfold nextSolution
  have hend : resume q k z none = pure z := rfl
  induction script with
  | answer t cut rest _ => simp only [run, resume, bind_assoc, pure_bind]
  | look handlers frames recover rest ihc ih =>
    simp only [run, Proc.withState_bind, bind_assoc]
    refine congrArg Proc.withState (funext fun st => ?_)
    refine congrArg (_ >>= ·) (funext fun _ => ?_)
    cases handlers.run st.2.pending with
    | none => exact ih
    | some e =>
      rw [Option.elim_some, Option.elim_some, unwind_bind hend]
      exact congrArg (unwind q z frames · e) (funext ihc)
  | throw ball frames recover ihc =>
    simp only [run, Proc.withState_bind, bind_assoc]
    refine congrArg Proc.withState (funext fun st => ?_)
    refine congrArg (_ >>= ·) (funext fun _ => ?_)
    rw [unwind_bind hend]
    exact congrArg (unwind q z frames · _) (funext ihc)
  | clear rest ih => simp only [run, bind_assoc, ih]
  | fail => simp only [run, bind_assoc, pure_bind, resume]

/-- `whileSolution` is the loop over `nextSolution`. -/
theorem whileSolution_eq (q : Nat) (body : Term → Cpp α) (script : Solve) :
    whileSolution q body script = (do
      match ← nextSolution q script with
      | none => pure []
      | some (t, rest) =>
        let x ← Proc.inner (converted (body t))
        let r ← whileSolution q body rest
        pure (x :: r)) := by
  refine (run_eq q _ [] script).trans (congrArg (_ >>= ·) (funext fun next => ?_))
  cases next with
  | none => rfl
  | some e => rfl

/-- `~PlQuery` -/
def destroy : Option (Nat × Cleanup) → Cxx Unit
  | some (q, cut) => plCutQuery q cut
  | none => pure ()

/-- A `PlQuery` object from constructor to destructor. -/
def scope (w : World) (predicate : CString) (args : List Term)
    (body : Nat → Solve → PlQuery α) : Cxx α := do
  let (q, context) ← plOpenQuery
  Proc.object (some (q, .quiet)) destroy (body q (w.solve context predicate args))

end PlQuery

/-- `PlCall(predicate, args)`: the answer to the first call of `next_solution`. -/
def plCall (w : World) (predicate : CString) (args : List Term) : Cxx (Option Term) :=
  PlQuery.scope w predicate args fun q script => do
    let r ← PlQuery.nextSolution q script
    pure (r.map Prod.fst)

/-- The term of a text, or `PlException(t)` with the syntax error in `t`. -/
def World.parse (w : World) (text : CString) : Cpp Term :=
  match w.charsToTerm text with
  | .ok t => done t
  | .error ball => thrown (.syntaxError ball)

/-- `PlCompound(text)` -/
def plCompoundOfText (w : World) (text : CString) : Cxx Term := do
  api .charsToTerm
  Proc.lift (w.parse text)

/-- `PlCall(goal)` -/
def plCallText (w : World) (goal : CString) : Cxx (Option Term) := do
  let t ← plCompoundOfText w goal
  plCall w (cstr ['c', 'a', 'l', 'l']) [t]

end Rolog
