/-
  Vectors on the way to Prolog. A vector of length one is its element, any other a Prolog list.
  `r2pl_real` and `r2pl_string` loop over the vector; `leaf_int` and `leaf_logical` take the
  first element and no more (`leaf_vector_iff`).
-/
import Rolog.Positions
import Rolog.RoundTrip

namespace Rolog

open Unwind.Outcome

/-- The vectors without attributes and missing values of the four types that `leaf` handles, each
with the terms of its elements. -/
inductive Elements : SEXP → List Term → Prop where
  | real (v : List UInt64) : Elements (.real v) (v.map .float)
  | int (v : List Int32) : naInt ∉ v → Elements (.int v) (v.map fun i => .int i.toInt)
  | lgl (v : List Bool) :
    Elements (.lgl (v.map some)) (v.map fun b => .atom (if b then cTrue else cFalse).text)
  | str (v : List CString) : (∀ s ∈ v, s.IsAscii) →
    Elements (.str (v.map some) []) (v.map fun s => .str s.text)

/-- The term of a vector: its element, or the list of its elements. -/
def vectorTerm : List Term → Term
  | [t] => t
  | ts => plList ts

/-- The types whose converter has no loop. -/
def SEXP.takesFirst : SEXP → Bool
  | .int _ | .lgl _ => true
  | _ => false

/-! ## The four converters -/

theorem r2plReal_eq (v : List UInt64) : r2plReal v = vectorTerm (v.map .float) := by
  match v with
  | [] | [_] | _ :: _ :: _ => rfl

theorem r2plString_some (v : List CString) :
    r2plString (v.map some) = vectorTerm (v.map fun s => .str s.text) := by
  match v with
  | [] | [_] => rfl
  | _ :: _ :: _ => simp [r2plString, vectorTerm, Function.comp_def, getCstring]

theorem leafLogical_some (b : Bool) (v : List (Option Bool)) :
    leafLogical (some b :: v) = done (.atom (if b then cTrue else cFalse).text) := by
  cases b <;> rfl

/-- No element is a list, so a longer vector differs from its first element. -/
theorem vectorTerm_ne_head {a b : Term} {ts : List Term} (h : a.elements = []) :
    a ≠ vectorTerm (a :: b :: ts) := by
  intro he
  have hl : (vectorTerm (a :: b :: ts)).elements = a :: b :: ts := elements_plList _
  rw [← he, h] at hl
  cases hl

/-- Where the converter has a loop, every element arrives. -/
theorem leaf_vector_loop {x : SEXP} {ts : List Term} (hx : Elements x ts)
    (h : x.takesFirst = false) : leaf x = done (vectorTerm ts) := by
  cases hx with
  | real v =>
    unfold leaf
    rw [r2plReal_eq]
  | str v _ =>
    unfold leaf
    rw [r2plString_some]
  | int | lgl => cases h

/-- Where it has none, the vector must have length one. -/
theorem leaf_vector_first {x : SEXP} {ts : List Term} (hx : Elements x ts)
    (h : x.takesFirst = true) : leaf x = done (vectorTerm ts) ↔ ts.length = 1 := by
  cases hx with
  | real | str => cases h
  | int v _ =>
    cases v with
    | nil => simp [leaf, leafInt]
    | cons i v =>
      cases v with
      | nil => simp [leaf, leafInt, vectorTerm]
      | cons j v =>
        have hne : Term.int i.toInt ≠ vectorTerm (.int i.toInt :: .int j.toInt ::
          v.map fun i => .int i.toInt) := vectorTerm_ne_head rfl
        simpa [leaf, leafInt] using hne
  | lgl v =>
    cases v with
    | nil => simp [leaf, leafLogical]
    | cons b v =>
      unfold leaf
      rw [List.map_cons, leafLogical_some, Unwind.Outcome.done.injEq]
      cases v with
      | nil => simp [vectorTerm]
      | cons c v => simpa using vectorTerm_ne_head rfl

theorem leaf_vector {x : SEXP} {ts : List Term} (hx : Elements x ts) :
    leaf x = done (vectorTerm ts) ↔ (x.takesFirst → ts.length = 1) := by
  cases h : x.takesFirst with
  | false => simp [leaf_vector_loop hx h]
  | true => simp [leaf_vector_first hx h]

/-- A vector at any position of an expression reaches Prolog whole exactly when its converter
has a loop or its length is one. -/
theorem leaf_vector_iff {e x : SEXP} {ts : List Term} {p : List Nat} (hx : Elements x ts)
    (hp : e.argAt p = some x) :
    (leaf x = done (vectorTerm ts) ∧
      ∀ t, leaf e = done t → t.argAt (e.route p) = some (vectorTerm ts)) ↔
      (x.takesFirst → ts.length = 1) := by
  rw [← leaf_vector hx]
  constructor
  · intro h
    exact h.1
  · intro h
    refine ⟨h, fun t ht => ?_⟩
    obtain ⟨u, hu, hleaf⟩ := leaf_argAt hp ht
    rw [h] at hleaf
    cases hleaf
    exact hu

/-- `f(c(1L, 2L))` is sent as `f(1)`. -/
theorem leaf_vector_lost :
    ∃ e x ts p t, Elements x ts ∧ e.argAt p = some x ∧ leaf e = done t ∧
      t.argAt (e.route p) ≠ some (vectorTerm ts) :=
  ⟨.lang (.sym (cstr ['f'])) [(none, .int [1, 2])], .int [1, 2], [.int 1, .int 2], [0],
    .compound ['f'] [.int 1], .int [1, 2] (by decide), rfl, rfl,
    by simp [SEXP.route, Term.argAt, vectorTerm, plList, Term.cons]⟩

/-- `f(x = c("a", "b"))` is sent as `f(x = ["a", "b"])`. -/
theorem leaf_vector_strings :
    (leaf (.str [some (cstr ['a']), some (cstr ['b'])] []) =
        done (vectorTerm [.str ['a'], .str ['b']]) ∧
      ∀ t, leaf (.lang (.sym (cstr ['f'])) [(some (cstr ['x']),
          .str [some (cstr ['a']), some (cstr ['b'])] [])]) = done t →
        t.argAt (SEXP.route (.lang (.sym (cstr ['f'])) [(some (cstr ['x']),
          .str [some (cstr ['a']), some (cstr ['b'])] [])]) [0]) =
          some (vectorTerm [.str ['a'], .str ['b']])) ↔
      (SEXP.takesFirst (.str [some (cstr ['a']), some (cstr ['b'])] []) →
        [Term.str ['a'], Term.str ['b']].length = 1) :=
  leaf_vector_iff (.str [cstr ['a'], cstr ['b']] (by decide)) rfl

end Rolog
