/-
  Where an exception comes from that R is told of by a call that has not raised it. No part of an
  operation makes such an exception (`Inherits`): it was pending when the call started, whatever
  the goal, its catchers and its cleanup handlers do. So in every session it was raised in one call
  before, and every call in between has left it pending (`reported_was_raised`).
-/
import Rolog.Poisoning
import Rolog.Sessions

namespace Rolog

open Unwind Unwind.Outcome Unwind.Proc

variable {σ α β : Type} {P : σ → Pending} {ball : Term}

/-- An exception of an earlier call that is thrown or left pending was pending before. -/
def Inherits (P : σ → Pending) (e : Proc σ Thrown RError α) : Prop :=
  ∀ s ball, (e s).1 = thrown (.pending false ball) ∨ P (e s).2 = some (false, ball) →
    P s = some (false, ball)

/-! ## Sequences -/

theorem inherits_pure (a : α) : Inherits P (pure a) := by
  intro s ball h
  rcases h with h | h
  · cases h
  · exact h

theorem inherits_lift {x : Cpp α} (hx : ∀ ball, x ≠ thrown (.pending false ball)) :
    Inherits P (lift x) := by
  intro s ball h
  rcases h with h | h
  · exact absurd h (hx ball)
  · exact h

theorem inherits_modify {f : σ → σ}
    (hf : ∀ s ball, P (f s) = some (false, ball) → P s = some (false, ball)) :
    Inherits P (modify f) := by
  intro s ball h
  rcases h with h | h
  · cases h
  · exact hf s ball h

theorem inherits_bind {e : Proc σ Thrown RError α} {f : α → Proc σ Thrown RError β}
    (he : Inherits P e) (hf : ∀ a, Inherits P (f a)) : Inherits P (e >>= f) := by
  intro s ball h
  have hstart := he s ball
  rw [bind_apply] at h
  cases hes : e s with
  | mk x t =>
    rw [hes] at h hstart
    cases x with
    | done a => exact hstart (.inr (hf a t ball h))
    | thrown _ =>
      refine hstart (h.imp_left fun he => ?_)
      cases he
      rfl
    | jumped _ | undefined =>
      refine hstart (h.imp_left fun he => ?_)
      cases he

theorem inherits_withState {f : σ → Proc σ Thrown RError α} (hf : ∀ s, Inherits P (f s)) :
    Inherits P (withState f) := fun s => hf s s

/-! ## Goals -/

theorem endWith_inherits (a : α) : Inherits id (endWith a) := by
  intro p ball h
  cases p with
  | none => rcases h with h | h <;> cases h
  | some e =>
    obtain ⟨own, b⟩ := e
    rcases h with h | h
    · cases h
      rfl
    · exact h

namespace Solve

theorem unwind_inherits {frames : Unwinding} {recover : Term → Effect α} {z : α}
    (hr : ∀ b, Inherits id (recover b)) {e : Bool × Term} {p : Pending}
    (h : (unwind z frames recover e p).1 = thrown (.pending false ball) ∨
      (unwind z frames recover e p).2 = some (false, ball)) : e = (false, ball) := by
  unfold unwind at h
  split at h
  · cases hr e.2 none ball h
  · have hover := endWith_inherits z (some (frames.cleanup.over e)) ball h
    exact over_earlier (Option.some.inj hover)

/-- A goal only hands on an earlier exception, if what is done with its answers does. -/
theorem effect_inherits {k : Term → Cleanup → Effect α → Effect α} {z : α}
    (hk : ∀ t cut more, Inherits id more → Inherits id (k t cut more)) (script : Solve) :
    Inherits id (script.effect k z) := by
  induction script with
  | answer t cut rest ih => exact hk t cut _ ih
  | look handlers frames recover rest ihc ih =>
    intro p ball h
    rw [effect_look] at h
    have hleft : handlers.run p = some (false, ball) := by
      cases hp : handlers.run p with
      | none =>
        rw [hp] at h
        exact ih none ball h
      | some e =>
        rw [hp] at h
        exact congrArg some (unwind_inherits ihc h)
    exact run_earlier hleft
  | throw b frames recover ihc =>
    intro p ball h
    rw [effect_throw] at h
    exact raiseException_earlier (unwind_inherits ihc h)
  | clear rest ih =>
    intro p ball h
    cases ih none ball h
  | fail => exact endWith_inherits z

theorem collect_inherits {body : Term → Cpp α}
    (hbody : ∀ t ball, body t ≠ thrown (.pending false ball)) (script : Solve) :
    Inherits id (script.collect body) := by
  refine effect_inherits (fun t cut more hmore => ?_) script
  refine inherits_bind ?_ fun x => inherits_bind hmore fun r => inherits_pure _
  have hx := hbody t
  unfold translated
  generalize body t = x at hx ⊢
  cases x with
  | thrown e =>
    refine inherits_bind (inherits_modify fun p ball h => run_earlier h) fun _ => ?_
    refine inherits_lift fun ball he => hx ball ?_
    cases he
    rfl
  | done _ | jumped _ | undefined => exact inherits_lift hx

theorem first_inherits (script : Solve) : Inherits id script.first :=
  effect_inherits (fun _ _ _ _ =>
    inherits_bind (inherits_modify fun _ _ h => run_earlier h) fun _ => inherits_pure _) script

theorem answerList_inherits {body : Term → Cpp SEXP} {fs : Term → List Fault}
    (h : ∀ t, EndsBy (body t) (fs t)) (script : Solve) : Inherits id (script.answerList body) :=
  inherits_bind (collect_inherits (fun t => (h t).ne_pending false) script) fun _ =>
    inherits_pure _

end Solve

/-! ## Operations -/

theorem asSymbol_ne_pending (e : SEXP) : asSymbol e ≠ thrown (.pending false ball) := by
  intro h
  unfold asSymbol install at h
  split at h
  · cases h
  · split at h <;> cases h
  · cases h
  · cases h

mutual

theorem leaf_ne_pending : ∀ e, leaf e ≠ thrown (.pending false ball)
  | .lang car cdr => by
    intro h
    rw [leaf] at h
    cases hargs : leafArgs cdr with
    | done v =>
      rw [hargs, done_bind] at h
      exact asSymbol_ne_pending car (bind_done_eq_thrown.mp h)
    | thrown e =>
      rw [hargs] at h
      cases h
      exact leafArgs_ne_pending cdr hargs
    | jumped _ | undefined =>
      rw [hargs] at h
      cases h
  | .lgl [] | .int [] => nofun
  | .lgl (some true :: _) | .lgl (some false :: _) | .lgl (none :: _) => nofun
  | .int (_ :: _) | .sym _ | .real _ | .str _ _ | .vec _ _ | .other _ => nofun
termination_by structural e => e

theorem leafArgs_ne_pending : ∀ cdr, leafArgs cdr ≠ thrown (.pending false ball)
  | [] => nofun
  | (tag, e) :: cdr => by
    intro h
    rw [leafArgs_cons] at h
    have harg : leafArg (tag, e) ≠ thrown (.pending false ball) := by
      cases tag with
      | none => exact leaf_ne_pending e
      | some argname => exact fun he => leaf_ne_pending e (bind_done_eq_thrown.mp he)
    cases ht : leafArg (tag, e) with
    | done t =>
      rw [ht, done_bind] at h
      exact leafArgs_ne_pending cdr (bind_done_eq_thrown.mp h)
    | thrown e' =>
      rw [ht] at h
      cases h
      exact harg ht
    | jumped _ | undefined =>
      rw [ht] at h
      cases h
termination_by structural cdr => cdr

end

section
variable (w : World) (context : Context)

theorem parse_ne_pending (text : CString) : w.parse text ≠ thrown (.pending false ball) := by
  unfold World.parse
  cases w.charsToTerm text <;> exact nofun

theorem firstArgument_ne_pending (arguments : List (Option CString)) :
    firstArgument arguments ≠ thrown (.pending false ball) := by
  cases arguments <;> exact nofun

theorem textQueryOutcome_inherits (predicate : CString) (arguments : List (Option CString))
    {body : Term → Cpp SEXP} {fs : Term → List Fault} (h : ∀ t, EndsBy (body t) (fs t)) :
    Inherits id (textQueryOutcome w context predicate arguments body) :=
  inherits_bind (inherits_lift fun _ => firstArgument_ne_pending arguments) fun text =>
    inherits_bind (inherits_lift fun _ => parse_ne_pending w text) fun a =>
      (w.solve context predicate [a, .var 0]).answerList_inherits h

theorem stringOutcome_inherits (predicate : CString) (arguments : List (Option CString)) :
    Inherits id (stringOutcome w context predicate arguments) :=
  inherits_bind (inherits_lift fun _ => firstArgument_ne_pending arguments) fun _ =>
    inherits_bind (Solve.first_inherits _) fun r =>
      inherits_lift fun _ => stringAnswer_ne_pending r

theorem callTextOutcome_inherits (goal : CString) :
    Inherits id (callTextOutcome w context goal) :=
  inherits_bind (inherits_lift fun _ => parse_ne_pending w goal) fun _ => Solve.first_inherits _

theorem callOutcome_inherits (goal : CString) : Inherits id (callOutcome w context goal) :=
  inherits_bind (callTextOutcome_inherits w context goal) fun _ => inherits_pure _

theorem initOutcome_inherits (home : CString) : Inherits id (initOutcome w context home) := by
  have hcall : Inherits id (do
      let _ ← callTextOutcome w context (initGoal home)
      pure (.int [0]) : Effect SEXP) :=
    inherits_bind (callTextOutcome_inherits w context _) fun _ => inherits_pure _
  unfold initOutcome
  split
  · exact inherits_bind (inherits_lift nofun) fun _ => hcall
  · exact hcall

theorem consultOutcome_inherits (files : List (Option CString)) :
    Inherits id (consultOutcome w context files) := by
  refine inherits_bind ?_ fun r => inherits_pure _
  induction files with
  | nil => exact inherits_pure _
  | cons file files ih =>
    exact inherits_bind (Solve.first_inherits _) fun _ => inherits_bind ih fun _ =>
      inherits_pure _

end

/-! ## The visible machine -/

namespace Visible

variable (w : World)

theorem prolog_inherits {e : Context → Effect α} (h : ∀ context, Inherits id (e context)) :
    Inherits Visible.pending (prolog e) := fun v => h v.context v.pending

theorem ask_inherits {e : Context → Effect α} (h : ∀ context, Inherits id (e context)) :
    Inherits Visible.pending (ask e) := fun v => h v.context v.pending

theorem enter_inherits : Inherits Visible.pending enter := by
  refine inherits_withState fun v => ?_
  split
  · exact inherits_pure _
  · exact inherits_lift nofun

theorem guarded_inherits {e : Context → Effect SEXP} (h : ∀ context, Inherits id (e context)) :
    Inherits Visible.pending (guarded e) := by
  refine inherits_withState fun v => ?_
  split
  · exact prolog_inherits h
  · exact inherits_pure _

theorem boot_inherits : Inherits Visible.pending (boot w) := by
  refine inherits_withState fun v => ?_
  split
  · exact inherits_pure _
  · split
    · exact inherits_lift nofun
    · cases w.initialise with
      | ok => exact inherits_modify nofun
      | fails live => exact inherits_bind (inherits_modify nofun) fun _ => inherits_lift nofun

theorem init_inherits (home : CString) : Inherits Visible.pending (init w home) := by
  have hprolog := prolog_inherits fun context => initOutcome_inherits w context home
  refine inherits_withState fun v => ?_
  split
  · exact inherits_bind (boot_inherits w) fun _ =>
      inherits_bind (inherits_modify fun _ _ h => h) fun _ => hprolog
  · exact hprolog

theorem exit_inherits : Inherits Visible.pending (exit w) := by
  have hcleanup : Inherits Visible.pending (modify (cleanup w)) := by
    refine inherits_modify fun v ball h => ?_
    unfold cleanup at h
    split at h <;> cases h
  have hleave : Inherits Visible.pending (do
      modify fun v : Visible => { v with rologEngine := false }
      pure rNull : Seen SEXP) :=
    inherits_bind (inherits_modify fun _ _ h => h) fun _ => inherits_pure _
  refine inherits_withState fun v => ?_
  split
  · exact inherits_bind hcleanup fun _ => hleave
  · exact hleave

theorem exec_inherits (op : Op) : Inherits Visible.pending (exec w op) := by
  cases op with
  | init home prc => exact init_inherits w home
  | exit => exact exit_inherits w
  | consult files => exact guarded_inherits fun context => consultOutcome_inherits w context files
  | call goal => exact guarded_inherits fun context => callOutcome_inherits w context goal
  | query predicate e =>
    have hleaf : Inherits Visible.pending (lift (leaf e)) :=
      inherits_lift fun _ => leaf_ne_pending e
    refine inherits_bind enter_inherits fun _ => inherits_bind hleaf fun a => ?_
    exact ask_inherits fun context =>
      (w.solve context predicate [a, .var 0]).answerList_inherits pl2rLeaf_end
  | queryLL predicate arguments =>
    exact inherits_bind enter_inherits fun _ => prolog_inherits fun context =>
      textQueryOutcome_inherits w context predicate arguments rologGet_end
  | queryComp predicate arguments =>
    exact inherits_bind enter_inherits fun _ => prolog_inherits fun context =>
      textQueryOutcome_inherits w context predicate arguments wideString_end
  | queryString predicate arguments =>
    exact inherits_bind enter_inherits fun _ => prolog_inherits fun context =>
      stringOutcome_inherits w context predicate arguments

end Visible

/-! ## Sessions -/

variable {w : World} {s : Session}

/-- An earlier exception that a call throws or leaves was pending when it started. -/
theorem run_inherits (hc : s.Coherent) {op : Op} (hdef : (op.run w s).1 ≠ undefined)
    (h : (op.run w s).1 = thrown (.pending false ball) ∨
      (op.run w s).2.pending = some (false, ball)) : ∃ own, s.pending = some (own, ball) := by
  have hshow := exec_shows (w := w) (s := s.start) hc rfl op
  obtain ⟨hout, hnext⟩ := hshow
  have hafter : (Visible.exec w op s.start.visible).2.pending = (op.run w s).2.pending := by
    rw [hnext hdef]
    rfl
  have hstart : s.pending.map (fun e => (false, e.2)) = some (false, ball) := by
    refine Visible.exec_inherits w op s.start.visible ball ?_
    rw [hafter, hout]
    exact h
  obtain ⟨⟨own, b⟩, hp, hb⟩ := Option.map_eq_some_iff.mp hstart
  cases hb
  exact ⟨own, hp⟩

/-- An exception that R is told of by a call that has not raised it was raised by one call before
it, and every call in between has left it pending. -/
theorem reported_was_raised {calls : List Call} {earlier later : List Step} {step : Step}
    (h : trace {} calls = earlier ++ step :: later)
    (hreport : step.output = thrown (.pending false ball)) :
    ∃ before origin between, earlier = before ++ origin :: between ∧
      origin.after.pending = some (true, ball) ∧
        ∀ m ∈ between, m.after.pending = some (false, ball) := by
  have hgoes {c : Call} {s : Session} (hstop : isUndefined (c.2.run c.1 s).1 = false) :
      (c.2.run c.1 s).1 ≠ undefined := by
    intro hu
    rw [hu] at hstop
    cases hstop
  have hpending {s : Session} : (∃ own, s.pending = some (own, ball)) ↔
      s.pending = some (true, ball) ∨ s.pending = some (false, ball) := by
    rw [Bool.exists_bool]
    exact or_comm
  have hloaded : Session.Coherent {} := nofun
  have hmem : step ∈ trace {} calls := by
    rw [h]
    exact List.mem_append_right earlier List.mem_cons_self
  obtain ⟨c, s, -, hc, rfl⟩ := Machine.mem_trace (I := Session.Coherent) (Q := fun _ => True)
    (fun c s _ hc hstop => run_coherent hc (hgoes hstop)) hloaded (fun _ _ => trivial) hmem
  have hdef : (c.2.run c.1 s).1 ≠ undefined := by
    intro hu
    cases hu.symm.trans hreport
  rcases Machine.exists_origin (I := Session.Coherent)
      (A := fun s : Session => s.pending = some (true, ball))
      (B := fun s : Session => s.pending = some (false, ball))
      (fun c s hc hstop => ⟨run_coherent hc (hgoes hstop), fun hleft =>
        hpending.mp (run_inherits hc (hgoes hstop) (.inr hleft))⟩) hloaded h
      (hpending.mp (run_inherits hc hdef (.inl hreport))) with ⟨hnone | hnone, -⟩ | horigin
  · cases hnone
  · cases hnone
  · exact horigin

/-- A call that raises, a query that ends at its first answer, and a query that fails. -/
def raiseAnswerFail : List Call :=
  [(worldOf .fail, .init (cstr ['h']) (cstr ['b'])),
    (worldOf (.raise (.atom ['e'])), .call (cstr ['g'])),
    (worldOf (.answer (.atom ['a']) .quiet .fail), .queryString (cstr ['p']) [some (cstr ['x'])]),
    (worldOf .fail, .queryComp (cstr ['p']) [some (cstr ['x'])])]

/-- The failing query reports the exception of the call, past the query in between. -/
theorem reported_was_raised_before : ∃ before origin between,
    (trace {} raiseAnswerFail).take 3 = before ++ origin :: between ∧
      origin.after.pending = some (true, .atom ['e']) ∧
        ∀ m ∈ between, m.after.pending = some (false, .atom ['e']) := by
  have hsplit : ∃ step, trace {} raiseAnswerFail =
      (trace {} raiseAnswerFail).take 3 ++ step :: [] ∧
        step.output = thrown (.pending false (.atom ['e'])) := ⟨_, rfl, rfl⟩
  obtain ⟨step, h, hreport⟩ := hsplit
  exact reported_was_raised h hreport

end Rolog
