/-
  Prolog terms as the foreign interface shows them, and the R values of the package.

  A list cell is the compound `[|]`/2, as in SWI-Prolog 7; `[]` is a reserved symbol and not a
  text atom. Integers are unbounded, floats are bit patterns. On the R side a call is a head
  with a tagged argument list; `names` is the names attribute, `[]` when there is none. The
  types of R that no converter has a case for are `other`.
-/
import Mathlib.Data.List.Basic
import Rolog.Lib.Unwind
import Rolog.Text

namespace Rolog

/-- A Prolog term. `nil` is `[]`, `blob` any other atom that is not text. Compounds with the
reserved functors `[]` and `dict` are left out: they share their texts with ordinary atoms. -/
inductive Term where
  | var (id : Nat)
  | int (i : Int)
  | float (bits : UInt64)
  | str (s : Text)
  | atom (name : Text)
  | nil
  | blob (id : Nat)
  | compound (name : Text) (args : List Term)

/-- An R value: symbols, calls, the four atomic vectors, lists, and the rest. A missing logical
or string is `none`, the missing integer is `-2^31`. -/
inductive SEXP where
  | sym (name : CString)
  | lang (car : SEXP) (cdr : List (Option CString × SEXP))
  | real (v : List UInt64)
  | lgl (v : List (Option Bool))
  | int (v : List Int32)
  | str (v : List (Option CString)) (names : List CString)
  | vec (v : List SEXP) (names : List CString)
  | other (typeof : Nat)

/-- What a C++ function under R throws. -/
inductive Thrown where
  /-- `PlTypeError(expected, actual)` -/
  | typeError (expected : String) (actual : Term)
  /-- `PlException(t)`, with the syntax error that the Prolog reader left in `t` -/
  | syntaxError (ball : Term)
  /-- `PlException(PL_exception(0))`: the pending exception; `own` if this very call raised it -/
  | pending (own : Bool) (ball : Term)
  /-- `Rcpp::not_compatible`, from `as<Symbol>` -/
  | notCompatible
  /-- `PlError("failed to initialise")` -/
  | plError

/-- The R errors (non-local jumps) that the package can cause. -/
inductive RError where
  /-- `Rf_install("")`: attempt to use zero-length variable name -/
  | zeroLengthName
  deriving DecidableEq, Repr

/-- What a function of the package does when R calls it. -/
abbrev Cpp := Unwind.Outcome Thrown RError

/-! ## Names with a meaning of their own -/

/-- The C string of an ASCII literal. -/
def cstr (s : Text) : CString := .ofBytes (toLatin1 s)

/-- The functor of list cells, `[|]`. -/
def dot : Text := ['[', '|', ']']

/-- The functor of tagged arguments, `=`. -/
def eqSign : Text := ['=']

/-- `"TRUE"` -/
def cTrue : CString := cstr ['T', 'R', 'U', 'E']

/-- `"FALSE"` -/
def cFalse : CString := cstr ['F', 'A', 'L', 'S', 'E']

/-- `""` -/
def cEmpty : CString := cstr []

/-- The list cell `[h|t]`. -/
def Term.cons (h t : Term) : Term := .compound dot [h, t]

/-- `f` with these arguments is a list cell. -/
def IsCell {α : Type} (f : Text) (args : List α) : Prop := f = dot ∧ args.length = 2

instance {α : Type} (f : Text) (args : List α) : Decidable (IsCell f args) :=
  inferInstanceAs (Decidable (_ ∧ _))

mutual

/-- The names and strings of a term. -/
def Term.texts : Term → List Text
  | .str s => [s]
  | .atom a => [a]
  | .compound f args => f :: Term.textsList args
  | .var _ | .int _ | .float _ | .nil | .blob _ => []
termination_by structural t => t

/-- The names and strings of a list of terms. -/
def Term.textsList : List Term → List Text
  | [] => []
  | t :: ts => t.texts ++ Term.textsList ts
termination_by structural ts => ts

end

theorem Term.mem_textsList {t : Term} {ts : List Term} (h : t ∈ ts) :
    ∀ s ∈ t.texts, s ∈ Term.textsList ts := by
  induction ts with
  | nil => nomatch h
  | cons u ts ih =>
    intro s hs
    unfold Term.textsList
    rw [List.mem_append]
    rcases List.mem_cons.mp h with rfl | h
    · exact .inl hs
    · exact .inr (ih h s hs)

/-! ## Induction

The type tests of the decoders set list cells apart from other compounds, and so does the
induction principle. -/

@[elab_as_elim]
theorem Term.inductCell {P : Term → Prop} (var : ∀ n, P (.var n)) (int : ∀ i, P (.int i))
    (float : ∀ b, P (.float b)) (str : ∀ s, P (.str s)) (atom : ∀ a, P (.atom a))
    (nil : P .nil) (blob : ∀ n, P (.blob n)) (cons : ∀ h t, P h → P t → P (.cons h t))
    (compound : ∀ f args, ¬ IsCell f args → (∀ a ∈ args, P a) → P (.compound f args))
    (t : Term) : P t := by
  refine @Term.rec P (fun ts => ∀ t ∈ ts, P t) var int float str atom nil blob ?_ nofun ?_ t
  · intro f args ih
    by_cases h : IsCell f args
    · obtain ⟨rfl, hl⟩ := h
      obtain ⟨a, b, rfl⟩ := List.length_eq_two.mp hl
      exact cons a b (ih a (by simp)) (ih b (by simp))
    · exact compound f args h ih
  · intro t ts ht hts a ha
    rcases List.mem_cons.mp ha with rfl | ha
    · exact ht
    · exact hts a ha

end Rolog
