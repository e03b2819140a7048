/-
  Which operations enter Prolog without an engine. `rolog_engine != NULL` means that Prolog is
  initialised, in every session (`run_kept`), but only three of the operations look at it. A
  session from the loaded package is safe exactly when none of the four queries is called while
  `rolog_engine` is `NULL` (`session_guarded_iff`).
-/
import Rolog.OperationSpec

namespace Rolog

open Unwind Unwind.Outcome Unwind.Proc

/-- The pointer to the engine tells the truth. -/
def Session.Coherent (s : Session) : Prop := s.rologEngine = true → s.live = true

/-- Every call of the foreign interface was made on a live engine, or was to make one. -/
def Session.Logged (s : Session) : Prop := ∀ e ∈ s.log, e.1 = .initialise ∨ e.2 = true

/-- Without `rolog_engine` the call returns at once, and it uses Prolog on a live engine only. -/
def Guarded (step : Step) : Prop :=
  (step.before.rologEngine = false → step.input.2.isInit = false →
    (∃ v, step.output = done v) ∧ step.after.log = []) ∧ step.after.Logged

/-- The call is a query while `rolog_engine` is `NULL`. -/
def Unprotected (step : Step) : Prop :=
  step.input.2.unguarded = true ∧ step.before.rologEngine = false

variable {w : World} {s s₀ : Session} {op : Op}

/-! ## `rolog_init` and `rolog_exit` -/

/-- What every call leaves behind. -/
def Kept (s : Session) : Prop := s.Coherent ∧ s.Logged

theorem Continues.kept (h : Continues s₀ s) : Kept s := ⟨fun _ => h.live, h.log⟩

theorem plEngine_spec :
    Triple (fun s => s.rologEngine = false ∧ s.log = []) (plEngine w)
      (Upto (fun _ s => Continues s s) fun (_ : Cpp SEXP) s => Kept s) := by
  intro s h
  obtain ⟨he, hlog⟩ := h
  have logged (b : Bool) : ∀ e ∈ [(ApiCall.initialise, b)], e.1 = .initialise ∨ e.2 = true :=
    fun e h => .inl (List.mem_singleton.mp h ▸ rfl)
  unfold plEngine
  rw [bind_apply, plInitialise, hlog]
  cases hl : s.live with
  | true =>
    simp only [if_true, andThen_done, pure_apply]
    exact continues_self rfl (logged _) rfl
  | false =>
    cases hcl : s.cleaned with
    | true => exact ⟨fun h => absurd (he.symm.trans h) Bool.false_ne_true, logged _⟩
    | false =>
      cases w.initialise with
      | ok => exact continues_self rfl (logged _) rfl
      | fails live => exact ⟨fun h => absurd (he.symm.trans h) Bool.false_ne_true, logged _⟩

theorem rologInit_spec (home prc : CString) :
    Triple (fun s => s.Coherent ∧ s.log = []) (rologInit w home prc) fun _ s => Kept s := by
  intro s h
  obtain ⟨hc, hlog⟩ := h
  unfold rologInit
  rw [withState_apply]
  cases he : s.rologEngine with
  | true =>
    exact (initGoal_spec w home s ⟨continues_of_log_nil (hc he) hlog, rfl, rfl⟩).2.1.kept
  | false =>
    refine triple_bind plEngine_spec ?_ s ⟨he, hlog⟩
    intro _ t ht
    have hset : Continues { t with rologEngine := true } { t with rologEngine := true } :=
      continues_self ht.live ht.log ht.replay
    exact (initGoal_spec w home _ ⟨hset, rfl, rfl⟩).2.1.kept

theorem rologExit_spec :
    Triple (fun s => s.Coherent ∧ s.log = []) (rologExit w) fun _ s => Kept s := by
  intro s h
  obtain ⟨hc, hlog⟩ := h
  unfold rologExit
  rw [withState_apply]
  cases he : s.rologEngine with
  | true =>
    simp only [if_true, plCleanup, bind_apply, api_live (hc he), andThen_done, modify_apply,
      pure_apply]
    refine ⟨fun h => absurd h Bool.false_ne_true, ?_⟩
    cases w.cleanup with
    | true => simp [Session.Logged, Session.after, hlog]
    | false => simp [Session.Logged, Session.after, hlog]
  | false =>
    refine ⟨fun h => absurd h Bool.false_ne_true, fun e h => ?_⟩
    change e ∈ s.log at h
    rw [hlog] at h
    cases h

/-! ## One call -/

theorem rologExit_idle (he : s.rologEngine = false) : rologExit w s = (done rNull, s) := by
  have h : { s with rologEngine := false } = s := by rw [← he]
  unfold rologExit
  rw [withState_apply, he]
  exact congrArg (Prod.mk (done rNull)) h

/-- Without `rolog_engine` the guarded operations do nothing. -/
theorem run_idle (he : s.rologEngine = false) (hi : op.isInit = false)
    (hu : op.unguarded = false) : ∃ v, op.run w s = (done v, s.start) := by
  have he : s.start.rologEngine = false := he
  cases op with
  | init => cases hi
  | query | queryLL | queryComp | queryString => cases hu
  | exit => exact ⟨rNull, rologExit_idle he⟩
  | consult files => exact ⟨notInitialized, rologConsult_idle he⟩
  | call goal => exact ⟨notInitialized, rologCall_idle he⟩

/-- Of the operations that open queries, every one keeps the session if it has an engine. -/
theorem calls_kept (hc : s.Coherent) (hop : op.calls = true) (hi : op.isInit = false)
    (hu : op.unguarded = true → s.rologEngine = true) : Kept (op.run w s).2 := by
  cases he : s.rologEngine with
  | true => exact (run_continues (hc he) hop).kept
  | false =>
    have hu : op.unguarded = false := by simpa [he] using hu
    obtain ⟨v, hv⟩ := run_idle (w := w) he hi hu
    rw [hv]
    exact ⟨hc, nofun⟩

/-- A call that is no unprotected query keeps the pointer true and stays on live engines. -/
theorem run_kept (hc : s.Coherent) (hu : op.unguarded = true → s.rologEngine = true) :
    Kept (op.run w s).2 := by
  have hstart : s.start.Coherent ∧ s.start.log = [] := ⟨hc, rfl⟩
  cases op with
  | init home prc => exact rologInit_spec home prc s.start hstart
  | exit => exact rologExit_spec s.start hstart
  | consult | call | query | queryLL | queryComp | queryString => exact calls_kept hc rfl rfl hu

/-! ## The queries do not look -/

/-- A part that begins with a call of the interface leaves it in the log. -/
theorem api_bind_log {α : Type} {a : ApiCall} {f : Unit → Cxx α} (ha : ∀ qs, a.act qs = some qs)
    (hf : ∀ t, Triple (At t t.queries t.pending) (f ()) fun _ => Continues t) :
    ((api a >>= f) s.start).2.log ≠ [] := by
  cases hl : s.live with
  | false =>
    have hlog : ((api a >>= f) s.start).2.log = [(a, false)] := by
      simp [api, Session.start, hl]
    rw [hlog]
    exact List.cons_ne_nil _ _
  | true =>
    have hl : s.start.live = true := hl
    rw [bind_apply, api_live hl, andThen_done]
    have hstart : Continues s.start (s.start.after a s.start.queries) :=
      (continues_of_log_nil hl rfl).after (ha _)
    have ht : Continues (s.start.after a s.start.queries) (s.start.after a s.start.queries) :=
      continues_self hl hstart.log hstart.replay
    have hgrows := (hf _ _ ⟨ht, rfl, rfl⟩).grows
    intro hnil
    rw [hnil, List.prefix_nil] at hgrows
    simp [Session.after] at hgrows

theorem unguarded_log (hu : op.unguarded = true) : (op.run w s).2.log ≠ [] := by
  cases op with
  | init | exit | consult | call => cases hu
  | query predicate e =>
    exact api_bind_log (fun _ => rfl) fun t =>
      (termQuery_spec w predicate e).post fun _ _ h => h.2.1
  | queryLL predicate arguments =>
    exact api_bind_log (fun _ => rfl) fun t =>
      (textQuery_spec w rologGet_ne_jumped predicate arguments).post
        fun _ _ h => h.2.1
  | queryComp predicate arguments =>
    exact api_bind_log (fun _ => rfl) fun t =>
      (textQuery_spec w (wideString_ne_jumped w) predicate arguments).post
        fun _ _ h => h.2.1
  | queryString predicate arguments =>
    exact api_bind_log (fun _ => rfl) fun t =>
      (frame_spec (stringQuery_spec w predicate arguments)).post
        fun _ _ h => h.2.1

theorem unguarded_isInit (hu : op.unguarded = true) : op.isInit = false := by
  cases op with
  | init => cases hu
  | _ => rfl

/-! ## Sessions -/

theorem guarded_iff (hc : s.Coherent) :
    Guarded (Machine.stepOf (fun c : Call => c.2.run c.1) (w, op) s) ↔
      ¬ Unprotected (Machine.stepOf (fun c : Call => c.2.run c.1) (w, op) s) := by
  constructor
  · intro h hd
    obtain ⟨hidle, _⟩ := h
    obtain ⟨hu, he⟩ := hd
    exact unguarded_log hu (hidle he (unguarded_isInit hu)).2
  · intro hu
    have hu : op.unguarded = true → s.rologEngine = true := by
      simpa [Unprotected, Machine.stepOf] using hu
    refine ⟨fun he hi => ?_, (run_kept hc hu).2⟩
    have hu : op.unguarded = false := by
      have he : s.rologEngine = false := he
      simpa [he] using hu
    obtain ⟨v, hv⟩ := run_idle (w := w) he hi hu
    exact ⟨⟨v, congrArg Prod.fst hv⟩, congrArg (fun r => r.2.log) hv⟩

/-- In a session from the loaded package every call is guarded exactly when no query is made
while `rolog_engine` is `NULL`. -/
theorem session_guarded_iff (calls : List Call) :
    (∀ step ∈ trace {} calls, Guarded step) ↔ ∀ step ∈ trace {} calls, ¬ Unprotected step := by
  refine Machine.forall_trace_iff (I := Session.Coherent) (Q := fun _ => True)
    (fun c s _ hc => guarded_iff hc) (fun c s _ hc hu => ?_) (fun h => nomatch h)
    fun _ _ => trivial
  exact (run_kept hc (by simpa [Unprotected, Machine.stepOf] using hu)).1

/-- `rolog_query` on the loaded package. -/
theorem loaded_query_unguarded :
    ¬ ∀ step ∈ trace {} [(worldOf .fail, .query (cstr ['p']) (.sym (cstr ['x'])))],
      Guarded step := by
  intro h
  obtain ⟨⟨v, hv⟩, _⟩ := (h _ List.mem_cons_self).1 rfl rfl
  cases hv

end Rolog
