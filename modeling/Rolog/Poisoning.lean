/-
  What an exception of an earlier call does to later ones. It stays pending, and a later query
  meets it where it looks at `exception_term`: at a cut or a failed unification, at its end by
  failure, or on raising a less urgent exception. It is rid of it where a foreign predicate
  succeeds before that. A session of queries is as if each were the first one made if every query
  is spared in this way, and only if, as long as what a goal does depends on no earlier call
  (`session_unpoisoned_iff`).
-/
import Rolog.Answers

namespace Rolog

open Unwind Unwind.Outcome Unwind.Proc

/-- Outcome `x` under the pending exception `ball`, compared with `y` under none: the same if
the computation is spared, and otherwise the old exception, if the goal is steady. -/
structure Poisoned {α : Type} (ball : Term) (spared steady : Prop) (x y : Cpp α) : Prop where
  same : spared → x = y
  reported : steady → ¬ spared → x = thrown (.pending false ball)
  own : y ≠ thrown (.pending false ball)

namespace Poisoned

variable {α β : Type} {ball : Term} {spared steady : Prop} {x y : Cpp α}

theorem eq_iff (h : Poisoned ball spared steady x y) (hs : steady) : x = y ↔ spared := by
  refine ⟨fun he => ?_, h.same⟩
  by_contra hn
  exact h.own (he.symm.trans (h.reported hs hn))

/-- The end is the same. -/
theorem refl (hs : spared) (hy : y ≠ thrown (.pending false ball)) :
    Poisoned ball spared steady y y := ⟨fun _ => rfl, fun _ hn => absurd hs hn, hy⟩

/-- The old exception is reported, where a computation of its own would end otherwise. -/
theorem hit (hs : ¬ spared) (hy : y ≠ thrown (.pending false ball)) :
    Poisoned ball spared steady (thrown (.pending false ball)) y :=
  ⟨fun h => absurd h hs, fun _ _ => rfl, hy⟩

theorem congr {spared' steady' : Prop} (h : Poisoned ball spared steady x y)
    (hs : spared' ↔ spared) (ht : steady' → steady) : Poisoned ball spared' steady' x y :=
  ⟨fun s => h.same (hs.mp s), fun t s => h.reported (ht t) fun u => s (hs.mpr u), h.own⟩

/-- The same last part, which reports no earlier exception. -/
theorem before (h : Poisoned ball spared steady x y) {k : α → Cpp β}
    (hk : ∀ a, k a ≠ thrown (.pending false ball)) :
    Poisoned ball spared steady (x >>= k) (y >>= k) := by
  refine ⟨fun hs => by rw [h.same hs], fun ht hs => by rw [h.reported ht hs]; rfl, ?_⟩
  have hy := h.own
  match y with
  | done a => exact hk a
  | thrown e => exact fun he => hy (by cases he; rfl)
  | jumped _ | undefined => exact nofun

theorem map (h : Poisoned ball spared steady x y) (f : α → β) :
    Poisoned ball spared steady (x >>= fun a => done (f a)) (y >>= fun a => done (f a)) :=
  h.before fun _ => nofun

end Poisoned

/-! ## Scripts -/

theorem EndsBy.ne_pending {α : Type} {x : Cpp α} {fs : List Fault} (h : EndsBy x fs) (own : Bool)
    (ball : Term) : x ≠ thrown (.pending own ball) := by
  intro he
  subst he
  match fs with
  | [] | .typeError _ _ :: _ | .emptyName :: _ => nomatch h

namespace Solve

/-- The goals give the same answers and end alike. -/
structure Alike (script script' : Solve) : Prop where
  answers : script.answers = script'.answers
  uncaught : script.uncaught = script'.uncaught

/-- What a goal does once `e` has been thrown in it, unless `e` is an exception of an earlier call
and leaves the goal. -/
def resumed (frames : Unwinding) (recover : Term → Solve) (e : Bool × Term) : Option Solve :=
  if frames.catches e.2 then some (recover e.2)
  else
    match frames.cleanup.over e with
    | (true, ball) => some (.raise ball)
    | (false, _) => none

/-- The goal is thrown `e`, does not hand on an earlier exception, and goes on as `script` would
have. -/
def GoesOn (frames : Unwinding) (recover : Term → Solve) (e : Bool × Term) (script : Solve) :
    Prop := ∃ script', resumed frames recover e = some script' ∧ script'.Alike script

/-- With `ball` pending the query comes to an answer in `ends` or to a foreign predicate that
succeeds before anything is thrown; or the exception that is thrown, `ball` or a more urgent one
of its own, makes no difference to the goal. -/
def Spared (ends : Term → Bool) (ball : Term) : Solve → Prop
  | answer t _ rest => ends t = true ∨ rest.Spared ends ball
  | look handlers frames recover rest =>
    GoesOn frames recover (handlers.over (false, ball)) (look handlers frames recover rest)
  | throw b frames recover =>
    GoesOn frames recover (raiseException b (some (false, ball))) (throw b frames recover)
  | clear _ => True
  | fail => False

/-- If the goal that is thrown `e` does not hand on an earlier exception, it goes on as `script`
would have. -/
def Indifferent (frames : Unwinding) (recover : Term → Solve) (e : Bool × Term)
    (script : Solve) : Prop :=
  ∀ script', resumed frames recover e = some script' → script'.Alike script

/-- No matter which exception an earlier call has left, the goal hands it on, or goes on as it would
have. -/
def Steady : Solve → Prop
  | answer _ _ rest => rest.Steady
  | look handlers frames recover rest => ∀ ball,
    Indifferent frames recover (handlers.over (false, ball)) (look handlers frames recover rest)
  | throw b frames recover => ∀ ball,
    Indifferent frames recover (raiseException b (some (false, ball))) (throw b frames recover)
  | clear _ | fail => True

variable {α : Type} {ball : Term}

/-- A goal that only raises is steady. -/
theorem steady_raise (b : Term) : (Solve.raise b).Steady := by
  intro ball script' h
  have hraise : raiseException b (some (false, ball)) =
      if outranks b ball = true then (true, b) else (false, ball) := rfl
  rw [hraise] at h
  split at h
  · cases h
    exact ⟨rfl, rfl⟩
  · cases h

/-- What comes of a goal in which `e` is thrown. -/
theorem unwind_resumed {k : Term → Cleanup → Effect α → Effect α} {z : α} {frames : Unwinding}
    {recover : Term → Solve} {e : Bool × Term} (he : e.1 = false → e.2 = ball) (p : Pending) :
    (unwind z frames (fun b => (recover b).effect k z) e p).1 =
      match resumed frames recover e with
      | some script => (script.effect k z none).1
      | none => thrown (.pending false ball) := by
  unfold unwind resumed
  by_cases h : frames.catches e.2 = true
  · rw [if_pos h, if_pos h]
    rfl
  · rw [if_neg h, if_neg h]
    show (endWith z (some (frames.cleanup.over e))).1 = _
    obtain ⟨own, b⟩ := e
    unfold Cleanup.over
    cases frames.cleanup (some b) with
    | some b' => rfl
    | none =>
      cases own with
      | true => rfl
      | false =>
        obtain rfl : b = ball := he rfl
        rfl

/-- An exception is thrown where the goal `script` would go on. -/
theorem unwind_poisoned {k : Term → Cleanup → Effect α → Effect α} {z : α}
    (hcalm : ∀ s s' : Solve, s.Alike s' → (s.effect k z none).1 = (s'.effect k z none).1)
    (hown : ∀ s : Solve, (s.effect k z none).1 ≠ thrown (.pending false ball))
    {frames : Unwinding} {recover : Term → Solve} {e : Bool × Term} {script : Solve}
    (he : e.1 = false → e.2 = ball) (p : Pending) :
    Poisoned ball (GoesOn frames recover e script) (Indifferent frames recover e script)
      (unwind z frames (fun b => (recover b).effect k z) e p).1 (script.effect k z none).1 := by
  rw [unwind_resumed he]
  unfold GoesOn Indifferent
  cases resumed frames recover e with
  | some script' =>
    refine ⟨fun hs => ?_, fun ht hs => absurd ⟨script', rfl, ht script' rfl⟩ hs, hown script⟩
    obtain ⟨s, hs, halike⟩ := hs
    obtain rfl := Option.some.inj hs
    exact hcalm _ _ halike
  | none => exact .hit (by simp) (hown script)

/-- A goal under the pending exception `ball`, if what is done with its answers compares. -/
theorem effect_poisoned {ends : Term → Bool} {k : Term → Cleanup → Effect α → Effect α} {z : α}
    (hcalm : ∀ s s' : Solve, s.Alike s' → (s.effect k z none).1 = (s'.effect k z none).1)
    (hown : ∀ s : Solve, (s.effect k z none).1 ≠ thrown (.pending false ball))
    (hk : ∀ t cut more spared steady,
      Poisoned ball spared steady (more (some (false, ball))).1 (more none).1 →
      Poisoned ball (ends t = true ∨ spared) steady (k t cut more (some (false, ball))).1
        (k t cut more none).1) (script : Solve) :
    Poisoned ball (script.Spared ends ball) script.Steady
      (script.effect k z (some (false, ball))).1 (script.effect k z none).1 := by
  induction script with
  | answer t cut rest ih => exact hk t cut _ _ _ ih
  | look handlers frames recover rest _ _ =>
    have he (h : (handlers.over (false, ball)).1 = false) :
        (handlers.over (false, ball)).2 = ball :=
      (congrArg Prod.snd (over_earlier (Prod.ext h rfl))).symm
    exact (unwind_poisoned hcalm hown he _).congr Iff.rfl fun ht => ht ball
  | throw b frames recover _ =>
    have he (h : (raiseException b (some (false, ball))).1 = false) :
        (raiseException b (some (false, ball))).2 = ball :=
      (congrArg Prod.snd (Option.some.inj (raiseException_earlier (Prod.ext h rfl)))).symm
    exact (unwind_poisoned hcalm hown he _).congr Iff.rfl fun ht => ht ball
  | clear rest _ => exact .refl trivial (hown _)
  | fail => exact .hit (fun hs => hs) nofun

theorem finish_own (script : Solve) (a : α) :
    script.finish a ≠ thrown (.pending false ball) := by
  unfold finish
  cases script.uncaught with
  | none => exact nofun
  | some b => exact fun he => by cases he

theorem Alike.finish {script script' : Solve} (h : script.Alike script') (a : α) :
    script.finish a = script'.finish a := by
  unfold Solve.finish
  rw [h.uncaught]

theorem mapM_ne_pending {body : Term → Cpp α}
    (hbody : ∀ t, body t ≠ thrown (.pending false ball)) (ts : List Term) :
    ts.mapM body ≠ thrown (.pending false ball) := by
  induction ts with
  | nil => exact nofun
  | cons t ts ih =>
    rw [List.mapM_cons]
    cases hb : body t with
    | done a => exact fun he => ih (bind_done_eq_thrown.mp he)
    | thrown e =>
      intro he
      cases he
      exact hbody t hb
    | jumped _ | undefined => exact nofun

theorem collect_own {body : Term → Cpp α} (hbody : ∀ t, body t ≠ thrown (.pending false ball))
    (script : Solve) : (script.collect body none).1 ≠ thrown (.pending false ball) := by
  rw [collect_none]
  cases h : script.answers.mapM body with
  | done r => exact finish_own script r
  | thrown e => exact fun he => mapM_ne_pending hbody _ (h.trans he)
  | jumped _ | undefined => exact nofun

theorem collect_poisoned {body : Term → Cpp α} {ends : Term → Bool}
    (hends : ∀ t, ends t = !(body t).isDone)
    (hbody : ∀ t, body t ≠ thrown (.pending false ball)) (script : Solve) :
    Poisoned ball (script.Spared ends ball) script.Steady
      (script.collect body (some (false, ball))).1 (script.collect body none).1 := by
  refine effect_poisoned (fun s s' h => ?_) (collect_own hbody)
    (fun t cut more spared steady h => ?_) script
  · have hs := @collect_none _ body s
    rw [h.answers, funext h.finish, ← collect_none] at hs
    exact hs
  · rw [hends]
    cases hb : body t with
    | done a =>
      show Poisoned ball _ _ (andThen (fun r => pure (a :: r)) (more _)).1
        (andThen (fun r => pure (a :: r)) (more none)).1
      rw [andThen_map, andThen_map]
      exact (h.map _).congr (by simp [isDone]) id
    | thrown e =>
      have he : (thrown e : Cpp (List α)) ≠ thrown (.pending false ball) := by
        intro he
        cases he
        exact hbody t hb
      exact .refl (.inl rfl) he
    | jumped _ | undefined =>
      refine .refl (.inl rfl) fun he => ?_
      cases he

/-- A single answer ends the use of a query. -/
theorem first_poisoned (script : Solve) :
    Poisoned ball (script.Spared (fun _ => true) ball) script.Steady
      (script.first (some (false, ball))).1 (script.first none).1 := by
  refine effect_poisoned (fun s s' h => ?_) (fun s => ?_) (fun t cut more spared steady h => ?_)
    script
  · have hs := first_none s
    rw [h.answers, h.finish, ← first_none] at hs
    exact hs
  · show (s.first none).1 ≠ _
    rw [first_none]
    cases s.answers with
    | nil => exact finish_own s none
    | cons t ts => exact nofun
  · exact .refl (.inl rfl) nofun

end Solve

/-! ## Calls -/

/-- The queries and `rolog_call`. -/
def Op.asks : Op → Bool
  | init _ _ | exit | consult _ => false
  | _ => true

/-- The goal of a query whose argument is the text of a term. -/
def textGoal (w : World) (predicate : CString) (arguments : List (Option CString)) :
    Cpp (CString × List Term) := do
  let text ← firstArgument arguments
  let a ← w.parse text
  done (predicate, [a, .var 0])

/-- The goal of a call: the predicate and its arguments. -/
def Op.goal (w : World) : Op → Cpp (CString × List Term)
  | call goal => do
    let t ← w.parse goal
    done (cstr ['c', 'a', 'l', 'l'], [t])
  | query predicate e => do
    let a ← leaf e
    done (predicate, [a, .var 0])
  | queryLL predicate arguments | queryComp predicate arguments =>
    textGoal w predicate arguments
  | queryString predicate arguments => do
    let text ← firstArgument arguments
    done (predicate, [.str text.text, .var 0])
  | init _ _ | exit | consult _ => undefined

/-- The answers that end a call. -/
def Op.ends : Op → Term → Bool
  | query _ _, t => !(faults t).isEmpty
  | queryLL _ _, t => !(rologFaults t).isEmpty
  | queryComp _ _, _ => false
  | _, _ => true

/-- What a call makes of what its goal does. -/
def Op.answer (w : World) : Op → Solve → Effect SEXP
  | query _ _, script => script.answerList pl2rLeaf
  | queryLL _ _, script => script.answerList rologGet
  | queryComp _ _, script => script.answerList (wideString w)
  | queryString _ _, script => do
    let r ← script.first
    lift (stringAnswer w r)
  | _, script => do
    let _ ← script.first
    pure (.str [] [])

variable {w : World} {s t : Session} {op : Op} {ball : Term}

/-- An engine that `rolog_init` made. -/
def Session.Running (s : Session) : Prop := s.live = true ∧ s.rologEngine = true

theorem textQuery_answer {context : Context} {predicate : CString}
    {arguments : List (Option CString)} {body : Term → Cpp SEXP} {p : Pending} :
    (textQueryOutcome w context predicate arguments body p).1 = (do
      let goal ← textGoal w predicate arguments
      ((w.solve context goal.1 goal.2).answerList body p).1) := by
  rw [textQueryOutcome, lift_bind_fst, textGoal, bind_assoc]
  refine congrArg (_ >>= ·) (funext fun text => ?_)
  rw [lift_bind_fst, bind_assoc]
  rfl

/-- The outcome of a call is what it makes of its goal. -/
theorem run_answer (hop : op.asks = true) (hs : s.Running) :
    (op.run w s).1 = (do
      let goal ← op.goal w
      (op.answer w (w.solve s.context goal.1 goal.2) s.start.pending).1) := by
  have hat := at_start hs.1
  cases op with
  | init | exit | consult => cases hop
  | call goal =>
    have he : s.start.rologEngine = true := hs.2
    refine (rologCall_spec w he goal s.start hat).1.trans ?_
    rw [callOutcome, callTextOutcome, bind_assoc, lift_bind_fst, Op.goal, bind_assoc]
    rfl
  | query predicate e =>
    refine (rologQuery_spec w predicate e s.start hat).1.trans ?_
    rw [termQueryOutcome, lift_bind_fst, Op.goal, bind_assoc]
    rfl
  | queryLL predicate arguments =>
    exact (rologQueryLL_spec w predicate arguments s.start hat).1.trans textQuery_answer
  | queryComp predicate arguments =>
    exact (rologQueryComp_spec w predicate arguments s.start hat).1.trans textQuery_answer
  | queryString predicate arguments =>
    refine (rologQueryString_spec w predicate arguments s.start hat).1.trans ?_
    rw [stringOutcome, lift_bind_fst, Op.goal, bind_assoc]
    rfl

theorem stringAnswer_ne_pending (r : Option Term) :
    stringAnswer w r ≠ thrown (.pending false ball) := by
  intro he
  cases r with
  | none => cases he
  | some t =>
    have he : charString w t = thrown (.pending false ball) := bind_done_eq_thrown.mp he
    unfold charString at he
    split at he
    · cases he
    · cases he

theorem wideString_end (t : Term) : EndsBy (wideString w t) [] := rfl

theorem answerList_poisoned {body : Term → Cpp SEXP} {fs : Term → List Fault}
    (h : ∀ t, EndsBy (body t) (fs t)) (script : Solve) :
    Poisoned ball (script.Spared (fun t => !(fs t).isEmpty) ball) script.Steady
      (script.answerList body (some (false, ball))).1 (script.answerList body none).1 := by
  have hends (t : Term) : (!(fs t).isEmpty) = !(body t).isDone := by
    rw [Bool.not_inj_iff, Bool.eq_iff_iff, (h t).isDone_iff, List.isEmpty_iff]
  rw [Solve.answerList, bind_apply, bind_apply, andThen_map, andThen_map]
  exact (Solve.collect_poisoned hends (fun t => (h t).ne_pending _ _) script).map _

/-- A call under the pending exception `ball`, compared with the same call under none. -/
theorem answer_poisoned (op : Op) (script : Solve) :
    Poisoned ball (script.Spared op.ends ball) script.Steady
      (op.answer w script (some (false, ball))).1 (op.answer w script none).1 := by
  cases op with
  | query => exact answerList_poisoned pl2rLeaf_end script
  | queryLL => exact answerList_poisoned rologGet_end script
  | queryComp => exact answerList_poisoned wideString_end script
  | queryString =>
    rw [Op.answer, bind_lift_fst, bind_lift_fst]
    exact script.first_poisoned.before stringAnswer_ne_pending
  | init | exit | consult | call =>
    show Poisoned ball _ _ (andThen (fun _ => pure (SEXP.str [] [])) (script.first _)).1
      (andThen (fun _ => pure (SEXP.str [] [])) (script.first none)).1
    rw [andThen_map, andThen_map]
    exact script.first_poisoned.map _

/-! ## Sessions -/

/-- R sees what it would see if the call were the first one in the session `s`. -/
def Unpoisoned (s : Session) (step : Step) : Prop :=
  step.output = (step.input.2.run step.input.1 s).1

/-- If the call comes to a goal, then Prolog does for it what it would do in `s`, and nothing is
pending or the call is spared. -/
def Undisturbed (s : Session) (step : Step) : Prop :=
  ∀ predicate args, step.input.2.goal step.input.1 = done (predicate, args) →
    step.input.1.solve step.before.context predicate args =
      step.input.1.solve s.context predicate args ∧
    ∀ own ball, step.before.pending = some (own, ball) →
      (step.input.1.solve s.context predicate args).Spared step.input.2.ends ball

/-- What the goal of a call does depends on no earlier call: neither on the module in which it
runs nor on an exception that it catches. -/
def Independent (c : Call) : Prop :=
  ∀ predicate args, c.2.goal c.1 = done (predicate, args) →
    (∀ context context', c.1.solve context predicate args = c.1.solve context' predicate args) ∧
      ∀ context, (c.1.solve context predicate args).Steady

theorem asks_calls (hop : op.asks = true) : op.calls = true := by
  cases op with
  | init | exit | consult => cases hop
  | _ => rfl

theorem run_running (hop : op.asks = true) (hs : s.Running) : (op.run w s).2.Running := by
  have h := run_continues (w := w) hs.1 (asks_calls hop)
  exact ⟨h.live, h.engine.trans hs.2⟩

/-- The step that a call takes. -/
abbrev stepOf (c : Call) (t : Session) : Step := Machine.stepOf (fun c : Call => c.2.run c.1) c t

theorem start_pending_none (hp : s.pending = none) : s.start.pending = none := by
  rw [Session.start, hp]
  rfl

theorem unpoisoned_of_undisturbed (hs : s.Running) (hp : s.pending = none)
    (hop : op.asks = true) (ht : t.Running) (h : Undisturbed s (stepOf (w, op) t)) :
    Unpoisoned s (stepOf (w, op) t) := by
  show (op.run w t).1 = (op.run w s).1
  rw [run_answer hop hs, run_answer hop ht, start_pending_none hp]
  cases hg : op.goal w with
  | done goal =>
    obtain ⟨hscript, hspared⟩ := h goal.1 goal.2 hg
    have hscript : w.solve t.context goal.1 goal.2 = w.solve s.context goal.1 goal.2 := hscript
    rw [done_bind, done_bind, hscript, Session.start]
    cases hpend : t.pending with
    | none => rfl
    | some e => exact (answer_poisoned op _).same (hspared e.1 e.2 hpend)
  | thrown _ | jumped _ | undefined => rfl

theorem undisturbed_of_unpoisoned (hs : s.Running) (hp : s.pending = none)
    (hop : op.asks = true) (ht : t.Running) (hc : Independent (w, op))
    (h : Unpoisoned s (stepOf (w, op) t)) : Undisturbed s (stepOf (w, op) t) := by
  intro predicate args hg
  obtain ⟨hcontext, hsteady⟩ := hc predicate args hg
  refine ⟨hcontext _ _, fun own ball hpend => ?_⟩
  have hg : op.goal w = done (predicate, args) := hg
  have hpend : t.pending = some (own, ball) := hpend
  have hsame : (op.run w t).1 = (op.run w s).1 := h
  rw [run_answer hop hs, run_answer hop ht, start_pending_none hp, hg, Session.start, hpend,
    done_bind, done_bind, hcontext t.context s.context] at hsame
  exact ((answer_poisoned op _).eq_iff (hsteady _)).mp hsame

/-- In a session of queries on a running engine with nothing pending, every query has the
outcome that it has as the first one if it is undisturbed. The converse holds where the goals
depend on no earlier call. -/
theorem session_unpoisoned_iff {calls : List Call} (hs : s.Running) (hp : s.pending = none)
    (hcalls : ∀ c ∈ calls, c.2.asks = true) :
    ((∀ step ∈ trace s calls, Undisturbed s step) → ∀ step ∈ trace s calls, Unpoisoned s step) ∧
      ((∀ c ∈ calls, Independent c) →
        ((∀ step ∈ trace s calls, Unpoisoned s step) ↔
          ∀ step ∈ trace s calls, Undisturbed s step)) := by
  have hstep : ∀ step ∈ trace s calls, ∃ c t, c ∈ calls ∧ t.Running ∧ step = stepOf c t :=
    fun step hmem => Machine.mem_trace (f := fun c : Call => c.2.run c.1)
      (fun c t hop ht _ => run_running hop ht) hs hcalls hmem
  have hif : (∀ step ∈ trace s calls, Undisturbed s step) →
      ∀ step ∈ trace s calls, Unpoisoned s step := by
    intro h step hmem
    obtain ⟨c, t, hc, ht, rfl⟩ := hstep step hmem
    exact unpoisoned_of_undisturbed hs hp (hcalls c hc) ht (h _ hmem)
  refine ⟨hif, fun hind => ⟨fun h step hmem => ?_, hif⟩⟩
  obtain ⟨c, t, hc, ht, rfl⟩ := hstep step hmem
  exact undisturbed_of_unpoisoned hs hp (hcalls c hc) ht (hind c hc) (h _ hmem)

/-- A call that raises, and then a query that fails. -/
def raiseThenFail : List Call :=
  [(worldOf (.raise (.atom ['e'])), .call (cstr ['g'])),
    (worldOf .fail, .query (cstr ['p']) (.sym (cstr ['x'])))]

/-- The query reports the exception of the call before it. -/
theorem raiseThenFail_poisoned :
    ¬ ∀ step ∈ trace readySession raiseThenFail, Unpoisoned readySession step := by
  intro h
  have h₂ := h _ (List.mem_cons_of_mem _ List.mem_cons_self)
  cases h₂

/-- A call that raises, a query whose goal calls a foreign predicate before it answers, and a
query that fails. -/
def raiseThenClear : List Call :=
  [(worldOf (.raise (.atom ['e'])), .call (cstr ['g'])),
    (worldOf (.clear (.answer (.atom ['a']) .quiet .fail)),
      .query (cstr ['p']) (.sym (cstr ['x']))),
    (worldOf .fail, .query (cstr ['p']) (.sym (cstr ['x'])))]

/-- The foreign predicate has cleared the exception before any query meets it. -/
theorem raiseThenClear_unpoisoned :
    (∀ step ∈ trace readySession raiseThenClear, Unpoisoned readySession step) ∧
      ((∀ step ∈ trace readySession raiseThenClear, Unpoisoned readySession step) ↔
        ∀ step ∈ trace readySession raiseThenClear, Undisturbed readySession step) := by
  have h := @session_unpoisoned_iff readySession raiseThenClear ⟨rfl, rfl⟩ rfl
    (by simp [raiseThenClear, Op.asks])
  refine ⟨h.1 ?_, h.2 ?_⟩
  · intro step hmem predicate args _
    rcases hmem with _ | ⟨_, _ | ⟨_, _ | ⟨_, hmem⟩⟩⟩
    · exact ⟨rfl, nofun⟩
    · exact ⟨rfl, fun _ _ _ => trivial⟩
    · exact ⟨rfl, nofun⟩
    · cases hmem
  · intro c hc predicate args _
    simp only [raiseThenClear, List.mem_cons, List.not_mem_nil, or_false] at hc
    rcases hc with rfl | rfl | rfl
    · exact ⟨fun _ _ => rfl, fun _ => Solve.steady_raise _⟩
    · exact ⟨fun _ _ => rfl, fun _ => trivial⟩
    · exact ⟨fun _ _ => rfl, fun _ => trivial⟩

end Rolog
