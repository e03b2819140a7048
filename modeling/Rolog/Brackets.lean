/-
  Every query that a call opens is closed when control is back in R, with one exception: a
  translation in the solution loop of `rolog_query` that jumps. The jump passes the destructor
  of `PlQuery`, so the query stays open (`run_balanced_iff`).
-/
import Rolog.OperationSpec

namespace Rolog

open Unwind Unwind.Outcome Unwind.Proc

/-- With `p` pending the goal comes to an answer whose first fault is an empty name, and to none
with another fault before it. -/
def Solve.jumps : Solve → Pending → Bool
  | answer t _ rest, p =>
    match faults t with
    | [] => rest.jumps p
    | .emptyName :: _ => true
    | .typeError _ _ :: _ => false
  | look handlers frames recover rest, p =>
    (handlers.run p).elim (rest.jumps none) fun e =>
      frames.catches e.2 && (recover e.2).jumps none
  | throw ball frames recover, p =>
    frames.catches (raiseException ball p).2 && (recover (raiseException ball p).2).jumps none
  | clear rest, _ => rest.jumps none
  | fail, _ => false

/-- The calls that leave a query open: a `rolog_query` whose call can be translated and whose
answers lead to an empty name. -/
def Op.Leaks (w : World) (s : Session) : Op → Prop
  | query predicate e =>
    ∃ a, leaf e = done a ∧ (w.solve s.context predicate [a, .var 0]).jumps s.start.pending = true
  | _ => False

/-- The stack of open queries is that from before the call, and each query opened in between was
closed or cut once, the last opened first. -/
def Balanced (s s' : Session) : Prop :=
  s'.queries = s.queries ∧ replay s.queries (s'.log.map Prod.fst) = some s.queries

variable {w : World} {s : Session}

/-- A jump out of what a catcher does. -/
theorem unwind_jumps_iff {α : Type} {z : α} {frames : Unwinding} {recover : Term → Effect α}
    {e : Bool × Term} {p : Pending} :
    (∃ j, (Solve.unwind z frames recover e p).1 = jumped j) ↔
      frames.catches e.2 = true ∧ ∃ j, (recover e.2 none).1 = jumped j := by
  unfold Solve.unwind
  cases frames.catches e.2 with
  | true => simp
  | false => simp [endWith_ne_jumped]

theorem collect_jumps_iff (script : Solve) : ∀ p,
    (∃ j, (script.collect pl2rLeaf p).1 = jumped j) ↔ script.jumps p = true := by
  induction script with
  | answer t cut rest ih =>
    intro p
    have hend := pl2rLeaf_end t
    show (∃ j, ((translated cut (pl2rLeaf t) >>= fun x =>
      rest.collect pl2rLeaf >>= fun r => pure (x :: r)) p).1 = jumped j) ↔ _
    rw [Solve.jumps]
    cases hf : faults t with
    | nil =>
      rw [hf] at hend
      obtain ⟨a, ha⟩ := hend.returns
      dsimp only
      rw [ha, ← ih p]
      show (∃ j, (andThen (fun r => pure (a :: r)) (rest.collect pl2rLeaf p)).1 = jumped j) ↔ _
      rw [andThen_map]
      simp
    | cons fault _ =>
      rw [hf] at hend
      cases fault with
      | emptyName =>
        rw [hend.jumps]
        exact ⟨fun _ => rfl, fun _ => ⟨_, rfl⟩⟩
      | typeError _ _ =>
        rw [hend.throws]
        exact iff_of_false (fun h => nomatch h.choose_spec) nofun
  | look handlers frames recover rest ihc ih =>
    intro p
    rw [Solve.jumps, Solve.collect, Solve.effect_look]
    cases handlers.run p with
    | none => exact ih none
    | some e =>
      rw [Option.elim_some, Option.elim_some, Bool.and_eq_true, ← ihc e.2 none]
      exact unwind_jumps_iff
  | throw ball frames recover ihc =>
    intro p
    rw [Solve.jumps, Bool.and_eq_true, ← ihc (raiseException ball p).2 none, Solve.collect,
      Solve.effect_throw]
    exact unwind_jumps_iff
  | clear rest ih => exact fun _ => ih none
  | fail => exact fun p => iff_of_false (fun h => endWith_ne_jumped p _ _ h.choose_spec) nofun

theorem jumpsOut_iff {context : Context} {p : Pending} (predicate : CString) (a : Term) :
    JumpsOut w predicate pl2rLeaf context p a ↔
      (w.solve context predicate [a, .var 0]).jumps p = true := by
  rw [← collect_jumps_iff, JumpsOut, queryOutcome, Solve.answerList, bind_apply, andThen_map]
  simp

theorem Continues.balanced_iff {s' : Session} (h : Continues s.start s') :
    Balanced s s' ↔ s'.queries = s.queries := by
  refine ⟨And.left, fun hq => ⟨hq, ?_⟩⟩
  have hr := h.replay
  rwa [hq] at hr

theorem Leaves.balanced {x : Cpp SEXP} {s' : Session} {e : Cpp SEXP × Pending}
    (h : Leaves s.start s.queries False e x s') (hx : x ≠ undefined) : Balanced s s' :=
  h.2.1.balanced_iff.mpr (h.at hx).2.1

theorem rologQuery_balanced_iff {predicate : CString} {e : SEXP} (hs : s.live = true)
    (hback : ((Op.query predicate e).run w s).1 ≠ undefined) :
    Balanced s ((Op.query predicate e).run w s).2 ↔ ¬ (Op.query predicate e).Leaks w s := by
  obtain ⟨_, hc, _, hl⟩ := rologQuery_spec w predicate e s.start (at_start hs)
  simp only [jumpsOut_iff] at hl
  show Balanced s (rologQuery w predicate e s.start).2 ↔ _
  rw [hc.balanced_iff]
  rcases hl.resolve_left hback with ⟨hn, hq⟩ | ⟨hy, q, hq⟩
  · exact iff_of_true hq hn
  · exact iff_of_false (by simp [hq]) fun hn => hn hy

/-- Without `rolog_engine` nothing is opened. -/
theorem idle_balanced {op : Op} {v : SEXP} (h : op.run w s = (done v, s.start)) :
    Balanced s (op.run w s).2 := by
  rw [h]
  exact ⟨rfl, rfl⟩

theorem rologCall_balanced {goal : CString} (hs : s.live = true)
    (hback : ((Op.call goal).run w s).1 ≠ undefined) : Balanced s ((Op.call goal).run w s).2 := by
  cases he : s.start.rologEngine with
  | true => exact (rologCall_spec w he goal s.start (at_start hs)).balanced hback
  | false => exact idle_balanced (rologCall_idle he)

theorem rologConsult_balanced {files : List (Option CString)} (hs : s.live = true)
    (hback : ((Op.consult files).run w s).1 ≠ undefined) :
    Balanced s ((Op.consult files).run w s).2 := by
  cases he : s.start.rologEngine with
  | true => exact (rologConsult_spec w he files s.start (at_start hs)).balanced hback
  | false => exact idle_balanced (rologConsult_idle he)

/-- A call that comes back to R leaves the stack of open queries as it was, unless it leaks. -/
theorem run_balanced_iff {op : Op} (hs : s.live = true) (hop : op.calls = true)
    (hback : (op.run w s).1 ≠ undefined) : Balanced s (op.run w s).2 ↔ ¬ op.Leaks w s := by
  have hat := at_start hs
  cases op with
  | init | exit => cases hop
  | query predicate e => exact rologQuery_balanced_iff hs hback
  | consult files => exact iff_of_true (rologConsult_balanced hs hback) (fun h => h)
  | call goal => exact iff_of_true (rologCall_balanced hs hback) (fun h => h)
  | queryLL predicate arguments =>
    have hspec := rologQueryLL_spec w predicate arguments s.start hat
    exact iff_of_true (hspec.balanced hback) (fun h => h)
  | queryComp predicate arguments =>
    have hspec := rologQueryComp_spec w predicate arguments s.start hat
    exact iff_of_true (hspec.balanced hback) (fun h => h)
  | queryString predicate arguments =>
    have hspec := rologQueryString_spec w predicate arguments s.start hat
    exact iff_of_true (hspec.balanced hback) (fun h => h)

/-- A query whose only answer is the atom with the empty name stays open. -/
theorem emptyName_leaks :
    ∃ r, (((Op.query (cstr ['p']) (.sym (cstr ['x']))).run
        (worldOf (.answer (.atom []) .quiet .fail)) readySession).1 = jumped r) ∧
      ¬ Balanced readySession ((Op.query (cstr ['p']) (.sym (cstr ['x']))).run
        (worldOf (.answer (.atom []) .quiet .fail)) readySession).2 := by
  refine ⟨.zeroLengthName, rfl, ?_⟩
  intro h
  obtain ⟨h, _⟩ := h
  cases h

/-- The answers `ok`, `[a|b]` and `''`, with a cleanup handler that raises. -/
def faultBeforeName : Solve :=
  .answer (.atom ['o', 'k']) .quiet
    (.answer (.cons (.atom ['a']) (.atom ['b'])) (fun _ => some (.atom ['e']))
      (.answer (.atom []) .quiet .fail))

/-- The improper list ends the query before the empty name is met. -/
theorem faultBeforeName_balanced :
    Balanced readySession ((Op.query (cstr ['p']) (.sym (cstr ['x']))).run
        (worldOf faultBeforeName) readySession).2 ↔
      ¬ (Op.query (cstr ['p']) (.sym (cstr ['x']))).Leaks (worldOf faultBeforeName)
        readySession :=
  run_balanced_iff rfl rfl (by
    intro h
    cases h)

end Rolog
