/-
  Which R calls reach Prolog as the same query. `leaf` forgets three things: that a call has no
  arguments, that an argument is tagged rather than a call to `=`, and that a symbol `TRUE` or
  `FALSE` is a logical. `presented` forgets exactly these, on the R side.
-/
import Rolog.RoundTrip

namespace Rolog

open Unwind.Outcome

/-- R expressions of scalars, symbols and calls to a symbol, all text ASCII. -/
inductive IsExpr : SEXP → Prop where
  | real (x : UInt64) : IsExpr (.real [x])
  | int (i : Int32) : i ≠ naInt → IsExpr (.int [i])
  | lgl (b : Bool) : IsExpr (.lgl [some b])
  | str (s : CString) : s.IsAscii → IsExpr (.str [some s] [])
  | sym (s : CString) : s.IsAscii → IsExpr (.sym s)
  | lang (f : CString) (args : List (Option CString × SEXP)) :
    f.IsAscii → (∀ a ∈ args, ∀ tag, a.1 = some tag → tag.IsAscii) →
    (∀ a ∈ args, IsExpr a.2) → IsExpr (.lang (.sym f) args)

mutual

/-- A call as Prolog sees it: `f()` is the symbol `f`, a tagged argument is a call to `=`, and
the logicals are symbols. -/
def presented : SEXP → SEXP
  | .lang (.sym f) [] => .sym f
  | .lang car (a :: cdr) => .lang car (presentedArgs (a :: cdr))
  | .lgl [some true] => .sym cTrue
  | .lgl [some false] => .sym cFalse
  | e => e
termination_by structural e => e

def presentedArgs : List (Option CString × SEXP) → List (Option CString × SEXP)
  | [] => []
  | (none, e) :: cdr => (none, presented e) :: presentedArgs cdr
  | (some tag, e) :: cdr =>
    (none, .lang (.sym (cstr eqSign)) [(none, .sym tag), (none, presented e)]) ::
      presentedArgs cdr
termination_by structural cdr => cdr

end
/-- One argument of `presentedArgs`. -/
def presentedArg : Option CString × SEXP → Option CString × SEXP
  | (none, e) => (none, presented e)
  | (some tag, e) => (none, .lang (.sym (cstr eqSign)) [(none, .sym tag), (none, presented e)])

theorem presentedArgs_cons (a : Option CString × SEXP) (cdr : List (Option CString × SEXP)) :
    presentedArgs (a :: cdr) = presentedArg a :: presentedArgs cdr := by
  match a with
  | (none, _) | (some _, _) => rfl

/-! ## The query is that of the presented call -/

theorem leafArg_presentedArg {a : Option CString × SEXP} (h : leaf (presented a.2) = leaf a.2) :
    leafArg (presentedArg a) = leafArg a := by
  match a with
  | (none, e) => exact h
  | (some tag, e) =>
    have h : leaf (presented e) = leaf e := h
    simp only [presentedArg, leafArg, leaf, leafArgs, h, asSymbol, bind_assoc, done_bind]
    rfl

theorem leafArgs_presentedArgs {args : List (Option CString × SEXP)}
    (h : ∀ a ∈ args, leaf (presented a.2) = leaf a.2) :
    leafArgs (presentedArgs args) = leafArgs args := by
  induction args with
  | nil => rfl
  | cons a args ih =>
    have ha := leafArg_presentedArg (h a List.mem_cons_self)
    have hargs := ih fun b hb => h b (List.mem_cons_of_mem a hb)
    rw [presentedArgs_cons, leafArgs_cons, leafArgs_cons, ha, hargs]

theorem leaf_presented {e : SEXP} (h : IsExpr e) : leaf (presented e) = leaf e := by
  induction h with
  | real | int | str | sym => rfl
  | lgl b => cases b <;> rfl
  | lang f args _ _ _ ih =>
    cases args with
    | nil => rfl
    | cons a cdr => simp only [presented, leaf, leafArgs_presentedArgs ih]

/-! ## The presented call can be read off the query -/

mutual

/-- The presented call whose query is the given term. -/
def presentation : Term → SEXP
  | .int i => .int [.ofInt i]
  | .float b => .real [b]
  | .str s => .str [some (plAtomChars s)] []
  | .atom a => .sym (plAtomChars a)
  | .compound f args => .lang (.sym (plAtomChars f)) (presentations args)
  | .var _ | .nil | .blob _ => .real []
termination_by structural t => t

def presentations : List Term → List (Option CString × SEXP)
  | [] => []
  | t :: ts => (none, presentation t) :: presentations ts
termination_by structural ts => ts

end

theorem presentation_leafArg {a : Option CString × SEXP} {t : Term} (ht : leaf a.2 = done t)
    (h : presentation t = presented a.2) :
    ∃ u, leafArg a = done u ∧ (none, presentation u) = presentedArg a := by
  match a with
  | (none, e) => exact ⟨t, ht, by rw [h]; rfl⟩
  | (some tag, e) =>
    have ht : leaf e = done t := ht
    refine ⟨.compound eqSign [.atom tag.text, t], ?_, ?_⟩
    · rw [leafArg, ht]
      rfl
    · simp only [presentation, presentations, h, plAtomChars_text, presentedArg]
      rfl

theorem presentations_leafArgs {args : List (Option CString × SEXP)}
    (h : ∀ a ∈ args, ∃ t, leaf a.2 = done t ∧ presentation t = presented a.2) :
    ∃ v, leafArgs args = done v ∧ presentations v = presentedArgs args := by
  induction args with
  | nil => exact ⟨[], rfl, rfl⟩
  | cons a args ih =>
    obtain ⟨t, ht, hp⟩ := h a List.mem_cons_self
    obtain ⟨u, hu, hpu⟩ := presentation_leafArg ht hp
    obtain ⟨v, hv, hpv⟩ := ih fun b hb => h b (List.mem_cons_of_mem a hb)
    refine ⟨u :: v, ?_, ?_⟩
    · rw [leafArgs_cons, hu, hv]
      rfl
    · unfold presentations
      rw [presentedArgs_cons, hpu, hpv]

theorem presentation_leaf {e : SEXP} (h : IsExpr e) :
    ∃ t, leaf e = done t ∧ presentation t = presented e := by
  induction h with
  | real x => exact ⟨.float x, rfl, rfl⟩
  | int i _ => exact ⟨.int i.toInt, rfl, by simp [presentation, presented]⟩
  | lgl b =>
    cases b with
    | true => exact ⟨.atom cTrue.text, rfl, by simp [presentation, presented]⟩
    | false => exact ⟨.atom cFalse.text, rfl, by simp [presentation, presented]⟩
  | str s _ => exact ⟨.str s.text, rfl, by simp [presentation, presented]⟩
  | sym s _ => exact ⟨.atom s.text, rfl, by simp [presentation, presented]⟩
  | lang f args _ _ _ ih =>
    obtain ⟨v, hv, hp⟩ := presentations_leafArgs ih
    refine ⟨plCompound f.text v, by rw [leaf, hv]; rfl, ?_⟩
    cases args with
    | nil =>
      cases hv
      simp [plCompound, presentation, presented]
    | cons a cdr =>
      have hne : v ≠ [] := by
        intro he
        subst he
        simpa using leafArgs_length hv
      rw [plCompound_of_ne_nil hne, presentation, hp, plAtomChars_text, presented]

/-- Two R calls reach Prolog as the same query exactly when they are presented alike. -/
theorem leaf_eq_iff {e₁ e₂ : SEXP} (h₁ : IsExpr e₁) (h₂ : IsExpr e₂) :
    leaf e₁ = leaf e₂ ↔ presented e₁ = presented e₂ := by
  constructor
  · intro h
    obtain ⟨t₁, ht₁, hp₁⟩ := presentation_leaf h₁
    obtain ⟨t₂, ht₂, hp₂⟩ := presentation_leaf h₂
    have ht : t₁ = t₂ := by
      rw [ht₁, ht₂] at h
      exact Unwind.Outcome.done.inj h
    rw [← hp₁, ← hp₂, ht]
  · intro h
    rw [← leaf_presented h₁, ← leaf_presented h₂, h]

/-- `f(x = 1L)` -/
def taggedCall : SEXP := .lang (.sym (cstr ['f'])) [(some (cstr ['x']), .int [1])]

/-- ``f(`=`(x, 1L))`` -/
def callOfEq : SEXP :=
  .lang (.sym (cstr ['f']))
    [(none, .lang (.sym (cstr eqSign)) [(none, .sym (cstr ['x'])), (none, .int [1])])]

/-- The two calls differ, and are one query. -/
theorem leaf_tag_collision :
    IsExpr taggedCall ∧ IsExpr callOfEq ∧ taggedCall ≠ callOfEq ∧
      leaf taggedCall = leaf callOfEq := by
  have hx : IsExpr (.lang (.sym (cstr eqSign)) [(none, .sym (cstr ['x'])), (none, .int [1])]) :=
    .lang _ _ (by decide) (by simp) (by simpa using ⟨.sym _ (by decide), .int 1 (by decide)⟩)
  refine ⟨?_, ?_, by simp [taggedCall, callOfEq], rfl⟩
  · exact .lang _ _ (by decide) (by simp; decide) (by simpa using .int 1 (by decide))
  · exact .lang _ _ (by decide) (by simp) (by simpa using hx)

/-- The symbol `f` and the call `f()` are presented alike. -/
theorem leaf_eq_iff_no_arguments :
    leaf (.sym (cstr ['f'])) = leaf (.lang (.sym (cstr ['f'])) []) ↔
      presented (.sym (cstr ['f'])) = presented (.lang (.sym (cstr ['f'])) []) :=
  leaf_eq_iff (.sym _ (by decide)) (.lang _ _ (by decide) (by simp) (by simp))

end Rolog
