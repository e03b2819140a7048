/-
  From R to Prolog: `leaf` and the converters under it (rolog_query.cpp). An overloaded C++
  name is split by the type it converts: `SEXP.leafSymbol` here, `Term.leafSymbol` on the way
  back.
-/
import Rolog.Term

namespace Rolog

open Unwind.Outcome

/-- `PlTermv` and `PL_cons_functor_v`: with no arguments this is the atom. -/
def plCompound (functor : Text) : List Term → Term
  | [] => .atom functor
  | t :: ts => .compound functor (t :: ts)

/-- A Prolog list, by `PlTail::append` and `PlTail::close`. -/
def plList : List Term → Term
  | [] => .nil
  | t :: ts => .cons t (plList ts)

/-- `leaf_na`: `PlTerm((long) -1)` -/
def SEXP.leafNa : Term := .int (-1)

/-- `r2pl_real` -/
def r2plReal : List UInt64 → Term
  | [x] => .float x
  | v => plList (v.map .float)

/-- `leaf_int`: the first element. An empty vector is read out of bounds. -/
def leafInt : List Int32 → Cpp Term
  | i :: _ => done (.int i.toInt)
  | [] => undefined

/-- `leaf_symbol` -/
def SEXP.leafSymbol (v : CString) : Term := .atom v.text

/-- `leaf_logical`: the first element. An empty vector is read out of bounds. -/
def leafLogical : List (Option Bool) → Cpp Term
  | some true :: _ => done (.atom cTrue.text)
  | some false :: _ => done (.atom cFalse.text)
  | none :: _ => done SEXP.leafNa
  | [] => undefined

/-- `String(l[i]).get_cstring()`: a missing string reads `NA`. -/
def getCstring : Option CString → CString
  | some s => s
  | none => cstr ['N', 'A']

/-- `r2pl_string` -/
def r2plString : List (Option CString) → Term
  | [s] => .str (getCstring s).text
  | v => plList (v.map fun s => .str (getCstring s).text)

/-- `Rf_install` -/
def install (s : CString) : Cpp CString :=
  if s = cEmpty then jumped .zeroLengthName else done s

/-- `as<Symbol>`: a symbol, or the first element of a character vector. -/
def asSymbol : SEXP → Cpp CString
  | .sym s => done s
  | .str (s :: _) _ => install (getCstring s)
  | .str [] _ => undefined
  | _ => thrown .notCompatible

mutual

/-- `leaf`, and `leaf_lang` on calls: the arguments first, then the name of the head. -/
def leaf : SEXP → Cpp Term
  | .lang car cdr => do
    let v ← leafArgs cdr
    let pred ← asSymbol car
    done (plCompound pred.text v)
  | .real v => done (r2plReal v)
  | .lgl v => leafLogical v
  | .int v => leafInt v
  | .sym s => done (SEXP.leafSymbol s)
  | .str v _ => done (r2plString v)
  | .vec _ _ | .other _ => done SEXP.leafNa
termination_by structural e => e

/-- The loop over the arguments in `leaf_lang`: a tag becomes `=(tag, argument)`. -/
def leafArgs : List (Option CString × SEXP) → Cpp (List Term)
  | [] => done []
  | (none, e) :: cdr => do
    let t ← leaf e
    let v ← leafArgs cdr
    done (t :: v)
  | (some argname, e) :: cdr => do
    let t ← leaf e
    let v ← leafArgs cdr
    done (plCompound eqSign [.atom argname.text, t] :: v)
termination_by structural cdr => cdr

end

/-! ## One round of the argument loop -/

/-- The term for one argument, with its tag. -/
def leafArg : Option CString × SEXP → Cpp Term
  | (none, e) => leaf e
  | (some argname, e) => do
    let t ← leaf e
    done (plCompound eqSign [.atom argname.text, t])

theorem leafArgs_cons (a : Option CString × SEXP) (cdr : List (Option CString × SEXP)) :
    leafArgs (a :: cdr) = (do
      let t ← leafArg a
      let v ← leafArgs cdr
      done (t :: v)) := by
  match a with
  | (none, _) => rfl
  | (some _, _) => simp [leafArgs, leafArg]

theorem leafArgs_cons_eq_done {a : Option CString × SEXP} {cdr : List (Option CString × SEXP)}
    {v : List Term} :
    leafArgs (a :: cdr) = done v ↔
      ∃ t w, leafArg a = done t ∧ leafArgs cdr = done w ∧ v = t :: w := by
  rw [leafArgs_cons]
  exact bind₂_eq_done

theorem leafArgs_length : ∀ {cdr : List (Option CString × SEXP)} {v : List Term},
    leafArgs cdr = done v → v.length = cdr.length
  | [], v, h => by
    cases h
    rfl
  | a :: cdr, v, h => by
    obtain ⟨t, w, _, hw, rfl⟩ := leafArgs_cons_eq_done.mp h
    simp [leafArgs_length hw]

theorem plCompound_of_ne_nil {f : Text} {v : List Term} (h : v ≠ []) :
    plCompound f v = .compound f v := by
  cases v with
  | nil => exact absurd rfl h
  | cons t ts => rfl

theorem install_of_ne {s : CString} (h : s ≠ cEmpty) : install s = done s := if_neg h

theorem install_eq_done {s s' : CString} : install s = done s' ↔ s ≠ cEmpty ∧ s' = s := by
  by_cases h : s = cEmpty
  · simp [install, h]
  · simp [install, h, eq_comm]

end Rolog
