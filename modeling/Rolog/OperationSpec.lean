/-
  The specifications of the operations that call Prolog: what each returns to R and leaves
  pending, as a function of its arguments, of what Prolog does and of the exception that was
  pending before, and which of them can leave a query open. Only `rolog_query` can, by a jump out
  of a translation.
-/
import Rolog.Faults
import Rolog.Lib.Visit
import Rolog.QuerySpec

namespace Rolog

open Unwind Unwind.Outcome Unwind.Proc

variable {s₀ s : Session} {qs : List Nat} {p : Pending} (w : World)

/-! ## Outcomes -/

section
variable (context : Context)

/-- The effect of `rolog_query`. -/
def termQueryOutcome (predicate : CString) (call : SEXP) : Effect SEXP := do
  let a ← lift (leaf call)
  queryOutcome w context predicate pl2rLeaf a

/-- The effect of a query whose argument is the text of a term. -/
def textQueryOutcome (predicate : CString) (arguments : List (Option CString))
    (body : Term → Cpp SEXP) : Effect SEXP := do
  let text ← lift (firstArgument arguments)
  let a ← lift (w.parse text)
  queryOutcome w context predicate body a

/-- What `rolog_query_string` returns for the first answer. -/
def stringAnswer : Option Term → Cpp SEXP
  | some t => do
    let x ← charString w t
    done (.vec [x] [])
  | none => done (.vec [] [])

/-- The effect of `rolog_query_string`. -/
def stringOutcome (predicate : CString) (arguments : List (Option CString)) : Effect SEXP := do
  let text ← lift (firstArgument arguments)
  let r ← (w.solve context predicate [.str text.text, .var 0]).first
  lift (stringAnswer w r)

/-- The effect of `PlCall(goal)`. -/
def callTextOutcome (goal : CString) : Effect (Option Term) := do
  let t ← lift (w.parse goal)
  (w.solve context (cstr ['c', 'a', 'l', 'l']) [t]).first

/-- The effect of `rolog_init` once it has an engine. -/
def initOutcome (home : CString) : Effect SEXP := do
  if 512 ≤ (initGoal home).bytes.length then lift undefined
  let _ ← callTextOutcome w context (initGoal home)
  pure (.int [0])

/-- The effect of `rolog_call` on an initialised engine. -/
def callOutcome (goal : CString) : Effect SEXP := do
  let _ ← callTextOutcome w context goal
  pure (.str [] [])

/-- The effect of `consult/1` on a file. -/
def consultResult (file : Option CString) : Effect (Option Term) :=
  (w.solve context (cstr "consult".toList) [.str (getCstring file).text]).first

/-- The effect of `rolog_consult` on an initialised engine. -/
def consultOutcome (files : List (Option CString)) : Effect SEXP := do
  let r ← visit (consultResult w context) files
  pure (.str r [])

end

/-- A call starts with an empty log on the queries that are open. -/
theorem at_start (h : s.live = true) : At s.start s.queries s.start.pending s.start :=
  ⟨continues_of_log_nil h rfl, rfl, rfl⟩

/-! ## Queries -/

/-- A translation of an answer leaves the query open. -/
def JumpsOut (predicate : CString) (body : Term → Cpp SEXP) (context : Context) (p : Pending)
    (a : Term) : Prop := ∃ j, (queryOutcome w context predicate body a p).1 = jumped j

/-- `rolog_query` after its first call of the interface. -/
theorem termQuery_spec (predicate : CString) (call : SEXP) :
    Triple (At s₀ qs p) (converted (leaf call) >>= fun a => queryAnswers w predicate a pl2rLeaf)
      (Leaves s₀ qs (∃ a, leaf call = done a ∧ JumpsOut w predicate pl2rLeaf (contextOf qs) p a)
        (termQueryOutcome w (contextOf qs) predicate call p)) :=
  at_bind _ (converted_spec _) fun a => queryAnswers_spec w predicate a _

theorem rologQuery_spec (predicate : CString) (call : SEXP) :
    Triple (At s₀ qs p) (rologQuery w predicate call)
      (Leaves s₀ qs (∃ a, leaf call = done a ∧ JumpsOut w predicate pl2rLeaf (contextOf qs) p a)
        (termQueryOutcome w (contextOf qs) predicate call p)) :=
  api_bind (fun _ => rfl) (termQuery_spec w predicate call)

/-- A query leaks nothing if the translation of answers never jumps. -/
theorem queryAnswers_safe {body : Term → Cpp SEXP} (h : ∀ t j, body t ≠ jumped j)
    (predicate : CString) (a : Term) :
    Triple (At s₀ qs p) (queryAnswers w predicate a body)
      (Leaves s₀ qs False (queryOutcome w (contextOf qs) predicate body a p)) := by
  have hjump (j : RError) : (queryOutcome w (contextOf qs) predicate body a p).1 ≠ jumped j := by
    unfold queryOutcome Solve.answerList
    rw [bind_apply, andThen_map]
    exact fun he => Solve.collect_ne_jumped h _ j (bind_done_eq_jumped.mp he)
  exact (queryAnswers_spec w predicate a body).post fun _ _ hl => hl.congr (by simp [hjump])

/-- A query whose argument is the text of a term, after its first call of the interface. -/
theorem textQuery_spec {body : Term → Cpp SEXP} (h : ∀ t j, body t ≠ jumped j)
    (predicate : CString) (arguments : List (Option CString)) :
    Triple (At s₀ qs p)
      (do
        let text ← lift (firstArgument arguments)
        let a ← plCompoundOfText w text
        queryAnswers w predicate a body)
      (Leaves s₀ qs False (textQueryOutcome w (contextOf qs) predicate arguments body p)) := by
  refine at_bind_safe (lift_spec (firstArgument arguments)) fun text => ?_
  refine at_bind_safe (plCompoundOfText_spec w text) fun a => ?_
  exact queryAnswers_safe w h predicate a

theorem wideString_ne_jumped (t : Term) (j : RError) : wideString w t ≠ jumped j := nofun

theorem rologQueryLL_spec (predicate : CString) (arguments : List (Option CString)) :
    Triple (At s₀ qs p) (rologQueryLL w predicate arguments)
      (Leaves s₀ qs False (textQueryOutcome w (contextOf qs) predicate arguments rologGet p)) :=
  api_bind (fun _ => rfl) (textQuery_spec w rologGet_ne_jumped predicate arguments)

theorem rologQueryComp_spec (predicate : CString) (arguments : List (Option CString)) :
    Triple (At s₀ qs p) (rologQueryComp w predicate arguments)
      (Leaves s₀ qs False
        (textQueryOutcome w (contextOf qs) predicate arguments (wideString w) p)) :=
  api_bind (fun _ => rfl) (textQuery_spec w (wideString_ne_jumped w) predicate arguments)

/-- `rolog_query_string` inside its foreign frame. -/
theorem stringQuery_spec (predicate : CString) (arguments : List (Option CString)) :
    Triple (At s₀ qs p)
      (do
        api .terms
        let text ← lift (firstArgument arguments)
        let r ← plCall w predicate [.str text.text, .var 0]
        match r with
        | some t => do
          let x ← converted (charString w t)
          pure (.vec [x] [])
        | none => pure (.vec [] []))
      (Leaves s₀ qs False (stringOutcome w (contextOf qs) predicate arguments p)) := by
  refine api_bind (fun _ => rfl) ?_
  refine at_bind_safe (lift_spec (firstArgument arguments)) fun text => ?_
  refine leaves_bind (plCall_spec w predicate _) fun r p' => ?_
  cases r with
  | none => exact leaves_pure _
  | some t =>
    have h := at_bind_safe (converted_spec (charString w t)) fun x =>
      @leaves_pure s₀ qs p' _ (SEXP.vec [x] [])
    rwa [lift_map] at h

/-- A foreign frame around a part of an operation. -/
theorem frame_spec {α : Type} {b : Cxx α} {e : Cpp α × Pending}
    (h : Triple (At s₀ qs p) b (Leaves s₀ qs False e)) :
    Triple (At s₀ qs p) (Proc.object () (fun _ => api .closeFrame) (Proc.inner b))
      (Leaves s₀ qs False e) := by
  refine triple_object ((triple_inner h).pre fun _ h => h.2) ?_ ?_ ?_
  · intro x k hx s hs
    obtain ⟨hr, hc, hp, hq⟩ := hs
    rw [api_live hc.live]
    exact ⟨hr, hc.after rfl, hp, hq⟩
  · exact fun _ _ _ h => h
  · exact fun _ _ h => h

theorem rologQueryString_spec (predicate : CString) (arguments : List (Option CString)) :
    Triple (At s₀ qs p) (rologQueryString w predicate arguments)
      (Leaves s₀ qs False (stringOutcome w (contextOf qs) predicate arguments p)) :=
  api_bind (fun _ => rfl) (frame_spec (stringQuery_spec w predicate arguments))

/-! ## `rolog_init`, `rolog_call` and `rolog_consult` -/

theorem plCallText_spec (goal : CString) :
    Triple (At s₀ qs p) (plCallText w goal)
      (Leaves s₀ qs False (callTextOutcome w (contextOf qs) goal p)) :=
  at_bind_safe (plCompoundOfText_spec w goal) fun t => plCall_spec w _ [t]

/-- What `rolog_init` does once it has an engine. -/
theorem initGoal_spec (home : CString) :
    Triple (At s₀ qs p)
      (do
        if 512 ≤ (initGoal home).bytes.length then lift undefined
        let _ ← plCallText w (initGoal home)
        pure (SEXP.int [0]))
      (Leaves s₀ qs False (initOutcome w (contextOf qs) home p)) := by
  unfold initOutcome
  by_cases h : 512 ≤ (initGoal home).bytes.length
  · simp only [h, if_true]
    exact fun s hs => ⟨rfl, hs.1, hs.2.2, .inl rfl⟩
  · simp only [h, if_false]
    exact leaves_bind (plCallText_spec w (initGoal home)) fun _ _ => leaves_pure (SEXP.int [0])

theorem rologCall_spec (he : s₀.rologEngine = true) (goal : CString) :
    Triple (At s₀ qs p) (rologCall w goal)
      (Leaves s₀ qs False (callOutcome w (contextOf qs) goal p)) := by
  intro s hs
  have hse : s.rologEngine = true := hs.1.engine.trans he
  have h := leaves_bind (plCallText_spec w goal) (fun _ _ => leaves_pure (SEXP.str [] [])) s hs
  simp only [rologCall, withState_apply, hse, Bool.not_true, Bool.false_eq_true, if_false]
  exact h

/-- One round of the loop of `rolog_consult`. -/
def consultFile (file : Option CString) : Cxx (Option Term) := do
  api .terms
  plCall w (cstr "consult".toList) [.str (getCstring file).text]

theorem consultFiles_eq_visit (files : List (Option CString)) :
    consultFiles w files = visit (consultFile w) files := by
  induction files with
  | nil => rfl
  | cons file files ih =>
    unfold consultFiles visit
    rw [ih, consultFile, bind_assoc]

theorem consultFile_spec (file : Option CString) :
    Triple (At s₀ qs p) (consultFile w file)
      (Leaves s₀ qs False (consultResult w (contextOf qs) file p)) :=
  api_bind (fun _ => rfl) (plCall_spec w _ _)

theorem consultFiles_spec (files : List (Option CString)) : ∀ p,
    Triple (At s₀ qs p) (consultFiles w files)
      (Leaves s₀ qs False (visit (consultResult w (contextOf qs)) files p)) := by
  rw [consultFiles_eq_visit]
  induction files with
  | nil => exact fun _ => leaves_pure []
  | cons file files ih =>
    exact fun p => leaves_bind (consultFile_spec w file) fun a p =>
      leaves_bind (ih p) fun r _ => leaves_pure _

theorem rologConsult_spec (he : s₀.rologEngine = true) (files : List (Option CString)) :
    Triple (At s₀ qs p) (rologConsult w files)
      (Leaves s₀ qs False (consultOutcome w (contextOf qs) files p)) := by
  intro s hs
  have hse : s.rologEngine = true := hs.1.engine.trans he
  have h := leaves_bind (consultFiles_spec w files p) (fun r _ => leaves_pure (SEXP.str r [])) s hs
  simp only [rologConsult, withState_apply, hse, Bool.not_true, Bool.false_eq_true, if_false]
  exact h

/-! ## Calls from R -/

variable {w}

/-- Without an engine `rolog_call` only says so. -/
theorem rologCall_idle {goal : CString} (he : s.rologEngine = false) :
    rologCall w goal s = (done notInitialized, s) := by
  simp [rologCall, he]

theorem rologConsult_idle {files : List (Option CString)} (he : s.rologEngine = false) :
    rologConsult w files s = (done notInitialized, s) := by
  simp [rologConsult, he]

theorem run_continues {op : Op} (hs : s.live = true) (hop : op.calls = true) :
    Continues s.start (op.run w s).2 := by
  have hat := at_start hs
  cases op with
  | init | exit => cases hop
  | consult files =>
    cases he : s.start.rologEngine with
    | true => exact (rologConsult_spec w he files s.start hat).2.1
    | false =>
      have h : (Op.consult files).run w s = _ := rologConsult_idle he
      rw [h]
      exact hat.1
  | call goal =>
    cases he : s.start.rologEngine with
    | true => exact (rologCall_spec w he goal s.start hat).2.1
    | false =>
      have h : (Op.call goal).run w s = _ := rologCall_idle he
      rw [h]
      exact hat.1
  | query predicate e => exact (rologQuery_spec w predicate e s.start hat).2.1
  | queryLL predicate arguments => exact (rologQueryLL_spec w predicate arguments s.start hat).2.1
  | queryComp predicate arguments =>
    exact (rologQueryComp_spec w predicate arguments s.start hat).2.1
  | queryString predicate arguments =>
    exact (rologQueryString_spec w predicate arguments s.start hat).2.1

end Rolog
