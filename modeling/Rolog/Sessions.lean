/-
  What R can see of a session. The numbers of the open queries and the log never show in an
  outcome: every call is a function of the pointer `rolog_engine`, of whether Prolog is
  initialised or shut down, of the pending exception, and of whether an earlier call has left a
  query open. `Visible` is the machine on these, without the foreign interface; a session from
  the loaded package shows its outcomes (`session_refines`).
-/
import Rolog.Guards

namespace Rolog

open Unwind Unwind.Outcome Unwind.Proc

/-! ## The visible machine -/

/-- What a call leaves for the next ones. -/
structure Visible where
  rologEngine : Bool := false
  live : Bool := false
  cleaned : Bool := false
  pending : Pending := none
  /-- a query has been left open -/
  leaked : Bool := false

abbrev Seen := Proc Visible Thrown RError

namespace Visible

variable {α : Type}

/-- The context module of a goal. -/
def context (v : Visible) : Context := if v.leaked then .system else .user

/-- A first call of the foreign interface. -/
def enter : Seen Unit := withState fun v => if v.live then pure () else lift undefined

/-- A part that runs in Prolog. -/
def prolog (e : Context → Effect α) : Seen α := fun v =>
  ((e v.context v.pending).1, { v with pending := (e v.context v.pending).2 })

/-- A jump leaves a query open. -/
def leavesOpen : Cpp α → Bool
  | jumped _ => true
  | _ => false

/-- A query whose answers can end it by a jump. -/
def ask (e : Context → Effect α) : Seen α := fun v =>
  ((prolog e v).1, { (prolog e v).2 with leaked := v.leaked || leavesOpen (prolog e v).1 })

variable (w : World)

def boot : Seen Unit := withState fun v =>
  if v.live then pure ()
  else if v.cleaned then lift undefined
  else
    match w.initialise with
    | .ok => modify fun v => { v with live := true, pending := none, leaked := false }
    | .fails live => do
      modify fun v => { v with live := live, pending := none, leaked := false }
      lift (thrown .plError)

def init (home : CString) : Seen SEXP := withState fun v => do
  if !v.rologEngine then
    boot w
    modify fun v => { v with rologEngine := true }
  prolog fun c => initOutcome w c home

def cleanup (v : Visible) : Visible :=
  if w.cleanup then { v with live := false, cleaned := true, pending := none, leaked := false }
  else { v with pending := none }

def exit : Seen SEXP := withState fun v => do
  if v.rologEngine then modify (cleanup w)
  modify fun v => { v with rologEngine := false }
  pure rNull

/-- An operation that looks at `rolog_engine` first. -/
def guarded (e : Context → Effect SEXP) : Seen SEXP := withState fun v =>
  if v.rologEngine then prolog e else pure notInitialized

/-- What R sees of an operation. -/
def exec : Op → Seen SEXP
  | .init home _ => init w home
  | .exit => exit w
  | .consult files => guarded fun c => consultOutcome w c files
  | .call goal => guarded fun c => callOutcome w c goal
  | .query predicate e => do
    enter
    let a ← lift (leaf e)
    ask fun c => queryOutcome w c predicate pl2rLeaf a
  | .queryLL predicate arguments => do
    enter
    prolog fun c => textQueryOutcome w c predicate arguments rologGet
  | .queryComp predicate arguments => do
    enter
    prolog fun c => textQueryOutcome w c predicate arguments (wideString w)
  | .queryString predicate arguments => do
    enter
    prolog fun c => stringOutcome w c predicate arguments

/-- No pending exception is the next call's own. -/
def start (v : Visible) : Visible :=
  { v with pending := v.pending.map fun (_, ball) => (false, ball) }

/-- One call from R. -/
def run (c : Call) (v : Visible) : Cpp SEXP × Visible := exec c.1 c.2 v.start

end Visible

/-- What a session shows. -/
def Session.visible (s : Session) : Visible :=
  ⟨s.rologEngine, s.live, s.cleaned, s.pending, !s.queries.isEmpty⟩

/-- The outcomes that R gets in a session. -/
def outputs : Session → List Call → List (Cpp SEXP) :=
  Machine.outputs (fun c => c.2.run c.1) isUndefined

/-- The same for the visible machine. -/
def Visible.outputs : Visible → List Call → List (Cpp SEXP) := Machine.outputs run isUndefined

/-! ## Parts that run in Prolog -/

variable {w : World} {α : Type} {s : Session}

/-- From `s`, `q` does on what is shown what `p` does, up to undefined behaviour. -/
def Shows (s : Session) (p : Cxx α) (q : Seen α) : Prop :=
  (q s.visible).1 = (p s).1 ∧ ((p s).1 ≠ undefined → (q s.visible).2 = (p s).2.visible)

theorem Shows.bind {β : Type} {p : Cxx α} {q : Seen α} {f : α → Cxx β} {g : α → Seen β}
    (h : Shows s p q) (hf : ∀ a t, p s = (done a, t) → Shows t (f a) (g a)) :
    Shows s (p >>= f) (q >>= g) := by
  unfold Shows at *
  rw [bind_apply, bind_apply]
  obtain ⟨hx, ht⟩ := h
  cases hq : q s.visible with
  | mk y v =>
    rw [hq] at hx ht
    cases hp : p s with
    | mk x t =>
      rw [hp] at hx ht
      obtain rfl : y = x := hx
      cases y with
      | done a =>
        obtain rfl : v = t.visible := ht nofun
        exact hf a t hp
      | thrown _ | jumped _ => exact ⟨rfl, fun _ => ht nofun⟩
      | undefined => exact ⟨rfl, fun hu => absurd rfl hu⟩

theorem visible_context (s : Session) : s.visible.context = s.context := by
  unfold Visible.context Session.visible Session.context
  cases s.queries with
  | nil => rfl
  | cons q qs => rfl

theorem leavesOpen_iff {x : Cpp α} : Visible.leavesOpen x = true ↔ ∃ j, x = jumped j := by
  cases x with
  | jumped j => exact iff_of_true rfl ⟨j, rfl⟩
  | done _ | thrown _ | undefined => exact iff_of_false nofun nofun

/-- A part that leaves no query open. -/
theorem prolog_shows {b : Cxx α} {e : Context → Effect α} (hs : Continues s s)
    (h : Triple (At s s.queries s.pending) b (Leaves s s.queries False (e s.context s.pending))) :
    Shows s b (Visible.prolog e) := by
  have hend := h s ⟨hs, rfl, rfl⟩
  unfold Shows Visible.prolog
  rw [visible_context]
  refine ⟨hend.1.symm, fun hu => ?_⟩
  obtain ⟨hc, hq, hp⟩ := hend.at hu
  unfold Session.visible
  rw [hc.engine, hc.live, hc.cleaned, hp, hq, hs.live]

/-- A query that is left open exactly if it jumps. -/
theorem ask_shows {b : Cxx α} {e : Context → Effect α} (hs : Continues s s)
    (h : Triple (At s s.queries s.pending) b
      (Leaves s s.queries (∃ j, (e s.context s.pending).1 = jumped j)
        (e s.context s.pending))) : Shows s b (Visible.ask e) := by
  obtain ⟨hx, hc, hp, hq⟩ := h s ⟨hs, rfl, rfl⟩
  unfold Shows Visible.ask Visible.prolog
  rw [visible_context]
  refine ⟨hx.symm, fun hu => ?_⟩
  have hleaked : (!(b s).2.queries.isEmpty) =
      (!s.queries.isEmpty || Visible.leavesOpen (e s.context s.pending).1) := by
    rcases hq with hdead | ⟨hclosed, hq⟩ | ⟨hopen, q, hq⟩
    · exact absurd hdead hu
    · rw [hq, Bool.eq_false_iff.mpr fun h => hclosed (leavesOpen_iff.mp h), Bool.or_false]
    · rw [hq, leavesOpen_iff.mpr hopen, Bool.or_true]
      rfl
  unfold Session.visible
  rw [hc.engine, hc.live, hc.cleaned, hp, hleaked, hs.live]

/-! ## The operations -/

theorem enter_live {v : Visible} (h : v.live = true) (q : Seen α) :
    (Visible.enter >>= fun _ => q) v = q v := by
  rw [bind_apply, Visible.enter, withState_apply, if_pos h]
  rfl

/-- Without an engine a first call of the foreign interface is undefined. -/
theorem api_dead (hl : s.live = false) (a : ApiCall) (k : Unit → Cxx α) :
    ((api a >>= k) s).1 = undefined := by simp [api, hl]

/-- An operation that enters Prolog without a look at `rolog_engine`. -/
theorem entered_shows {a : ApiCall} {k : Unit → Cxx α} {q : Seen α} (hlog : s.log = [])
    (h : Continues s s → Shows s (api a >>= k) q) :
    Shows s (api a >>= k) (Visible.enter >>= fun _ => q) := by
  cases hl : s.live with
  | true =>
    have hv : s.visible.live = true := hl
    have hshow := h (continues_of_log_nil hl hlog)
    unfold Shows at hshow ⊢
    rw [enter_live hv]
    exact hshow
  | false =>
    have hv : s.visible.live = false := hl
    have hdead := api_dead hl a k
    refine ⟨?_, fun hu => absurd hdead hu⟩
    rw [hdead]
    simp [Visible.enter, hv]

/-- `rolog_query` on a live engine: a call that has no translation is no query. -/
theorem query_live (hs : Continues s s) (predicate : CString) (e : SEXP) :
    Shows s (rologQuery w predicate e) (do
      let a ← lift (leaf e)
      Visible.ask fun c => queryOutcome w c predicate pl2rLeaf a) := by
  have hspec := @rologQuery_spec s s.queries s.pending w predicate e
  unfold termQueryOutcome at hspec
  generalize rologQuery w predicate e = b at hspec ⊢
  generalize leaf e = x at hspec ⊢
  cases x with
  | done a =>
    refine ask_shows (e := fun c => queryOutcome w c predicate pl2rLeaf a) hs ?_
    refine hspec.post fun _ _ h => h.congr ?_
    simp [JumpsOut, Session.context]
  | thrown _ | jumped _ | undefined =>
    exact prolog_shows (e := fun _ => lift _) hs (hspec.post fun _ _ h => h.congr (by simp))

/-- `rolog_call` and `rolog_consult`. -/
theorem guarded_shows {b : Cxx SEXP} {e : Context → Effect SEXP}
    (hidle : s.rologEngine = false → b s = (done notInitialized, s))
    (h : s.rologEngine = true → Shows s b (Visible.prolog e)) :
    Shows s b (Visible.guarded e) := by
  unfold Shows Visible.guarded at *
  rw [withState_apply]
  cases he : s.rologEngine with
  | true =>
    have hv : s.visible.rologEngine = true := he
    rw [if_pos hv]
    exact h he
  | false =>
    have hv : ¬ s.visible.rologEngine = true := ne_true_of_eq_false he
    rw [if_neg hv, hidle he]
    exact ⟨rfl, fun _ => rfl⟩

theorem boot_shows : Shows s (plEngine w) (Visible.boot w) := by
  unfold plEngine Visible.boot Shows
  have hv : s.visible.live = s.live ∧ s.visible.cleaned = s.cleaned := ⟨rfl, rfl⟩
  rw [bind_apply, plInitialise, withState_apply, hv.1, hv.2]
  cases hl : s.live with
  | true => simp [Session.visible, hl]
  | false =>
    cases hcl : s.cleaned with
    | true => simp
    | false =>
      cases w.initialise with
      | ok => simp [Session.visible, hcl]
      | fails live => simp [Session.visible, hcl]

/-- `rolog_init` makes an engine, unless there is one. -/
theorem init_shows (hc : s.Coherent) (hlog : s.log = []) (home prc : CString) :
    Shows s (rologInit w home prc) (Visible.init w home) := by
  have installed {t : Session} (ht : Continues t t) :=
    prolog_shows (e := fun c => initOutcome w c home) ht (initGoal_spec w home)
  unfold rologInit Visible.init Shows
  rw [withState_apply, withState_apply]
  have hv : s.visible.rologEngine = s.rologEngine := rfl
  rw [hv]
  cases he : s.rologEngine with
  | true => exact installed (continues_of_log_nil (hc he) hlog)
  | false =>
    refine boot_shows.bind fun _ t ht => ?_
    have hstarted := plEngine_spec (w := w) s ⟨he, hlog⟩
    rw [ht] at hstarted
    have hset : Continues { t with rologEngine := true } { t with rologEngine := true } :=
      continues_self hstarted.live hstarted.log hstarted.replay
    exact installed hset

theorem exit_shows (hc : s.Coherent) : Shows s (rologExit w) (Visible.exit w) := by
  unfold rologExit Visible.exit Shows
  rw [withState_apply, withState_apply]
  have hv : s.visible.rologEngine = s.rologEngine := rfl
  rw [hv]
  cases he : s.rologEngine with
  | true =>
    simp only [if_true, plCleanup, bind_apply, api_live (hc he), andThen_done, modify_apply,
      pure_apply]
    refine ⟨trivial, fun _ => ?_⟩
    unfold Visible.cleanup
    cases w.cleanup with
    | true => rfl
    | false => simp [Session.visible, Session.after]
  | false => exact ⟨rfl, fun _ => rfl⟩

/-- Every operation shows its outcome. -/
theorem exec_shows (hc : s.Coherent) (hlog : s.log = []) (op : Op) :
    Shows s (op.exec w) (Visible.exec w op) := by
  have hs (he : s.rologEngine = true) : Continues s s := continues_of_log_nil (hc he) hlog
  cases op with
  | init home prc => exact init_shows hc hlog home prc
  | exit => exact exit_shows hc
  | consult files =>
    exact guarded_shows rologConsult_idle fun he =>
      prolog_shows (e := fun c => consultOutcome w c files) (hs he) (rologConsult_spec w he files)
  | call goal =>
    exact guarded_shows rologCall_idle fun he =>
      prolog_shows (e := fun c => callOutcome w c goal) (hs he) (rologCall_spec w he goal)
  | query predicate e => exact entered_shows hlog fun hs => query_live hs predicate e
  | queryLL predicate arguments =>
    exact entered_shows hlog fun hs =>
      prolog_shows (e := fun c => textQueryOutcome w c predicate arguments rologGet) hs
        (rologQueryLL_spec w predicate arguments)
  | queryComp predicate arguments =>
    exact entered_shows hlog fun hs =>
      prolog_shows (e := fun c => textQueryOutcome w c predicate arguments (wideString w)) hs
        (rologQueryComp_spec w predicate arguments)
  | queryString predicate arguments =>
    exact entered_shows hlog fun hs =>
      prolog_shows (e := fun c => stringOutcome w c predicate arguments) hs
        (rologQueryString_spec w predicate arguments)

/-! ## Sessions -/

theorem dead_query_undefined (hl : s.live = false) {op : Op} (hu : op.unguarded = true) :
    (op.run w s).1 = undefined := by
  have hl : s.start.live = false := hl
  cases op with
  | init | exit | consult | call => cases hu
  | query | queryLL | queryComp | queryString => exact api_dead hl _ _

/-- A call with a defined outcome leaves a coherent session. -/
theorem run_coherent (hc : s.Coherent) {op : Op} (hdef : (op.run w s).1 ≠ undefined) :
    (op.run w s).2.Coherent := by
  cases hu : op.unguarded with
  | false => exact (run_kept hc (by simp [hu])).1
  | true =>
    cases hl : s.live with
    | false => exact absurd (dead_query_undefined hl hu) hdef
    | true =>
      have hcalls : op.calls = true := by
        cases op with
        | init | exit => cases hu
        | _ => rfl
      exact fun _ => (run_continues hl hcalls).live

/-- In a session from the loaded package R sees the outcomes of the visible machine. -/
theorem session_refines (calls : List Call) : outputs {} calls = Visible.outputs {} calls := by
  refine Machine.outputs_eq_of_shows (I := Session.Coherent) Session.visible
    (fun c s hc => ?_) nofun
  obtain ⟨hout, hnext⟩ := exec_shows (w := c.1) (s := s.start) hc rfl c.2
  refine ⟨hout, fun hgoes => ?_⟩
  have hdef : (c.2.run c.1 s).1 ≠ undefined := by
    intro hu
    rw [hu] at hgoes
    cases hgoes
  exact ⟨hnext hdef, run_coherent hc hdef⟩

end Rolog
