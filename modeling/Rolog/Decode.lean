/-
  From Prolog to R, twice: `pl2r_leaf` with its converters (rolog_query.cpp) and `rolog_get`
  (rolog_query_LL.cpp). Both test the type of a term in the order integer, number, string, atom,
  list, compound. `[]` is no text atom, so it reaches the list branch.
-/
import Rolog.Encode

namespace Rolog

open Unwind.Outcome

/-- `leaf_na`: `numeric(1)` with -1. -/
def Term.leafNa : SEXP := .real [0xBFF0000000000000]

/-- `pl2r_int`: `PlTerm::operator int`, which takes 32 bits. -/
def pl2rInt (i : Int) : Cpp SEXP :=
  if -2147483648 ≤ i ∧ i < 2147483648 then done (.int [.ofInt i])
  else thrown (.typeError "integer" (.int i))

/-- `leaf_real` -/
def leafReal (bits : UInt64) : SEXP := .real [bits]

/-- `pl2r_string` -/
def pl2rString (s : Text) : SEXP := .str [some (wideToNative s)] []

/-- `PlTerm::operator char *` on an atom. -/
def atomChars (a : Text) : Cpp CString :=
  match plGetChars a with
  | some s => done s
  | none => thrown (.typeError "text" (.atom a))

/-- A symbol that R keeps, or the logical that `TRUE` and `FALSE` become. -/
def symbolOrLogical (s : CString) : SEXP :=
  if s = cTrue then .lgl [some true] else if s = cFalse then .lgl [some false] else .sym s

/-- `leaf_symbol`: the `Symbol` is installed before it is compared. -/
def Term.leafSymbol (a : Text) : Cpp SEXP := do
  let s ← atomChars a
  let s ← install s
  done (symbolOrLogical s)

/-- `PlTerm::name`: of a text atom or of a compound. -/
def Term.name : Term → Cpp CString
  | .atom a => done (plAtomChars a)
  | .compound f _ => done (plAtomChars f)
  | t => thrown (.typeError "compound" t)

/-- `pl2r_lang` around its loop: the functor becomes a symbol before the first argument. -/
def pl2rLang (f : Text) (args : Cpp (List (Option CString × SEXP))) : Cpp SEXP := do
  let pred ← install (plAtomChars f)
  let l ← args
  done (.lang (.sym pred) l)

/-- `Named(u.name()) = x`: `x` is there already, the tag is installed by `push_back`. -/
def named (u : Term) (x : SEXP) : Cpp (Option CString × SEXP) := do
  let argname ← u.name
  let argname ← install argname
  done (some argname, x)

mutual

/-- `pl2r_leaf` -/
def pl2rLeaf : Term → Cpp SEXP
  | .int i => pl2rInt i
  | .float b => done (leafReal b)
  | .str s => done (pl2rString s)
  | .atom a => Term.leafSymbol a
  | .nil => done (.vec [] [])
  | .compound f [h, t] =>
    if f = dot then do
      let e ← pl2rLeaf h
      let l ← pl2rTail t
      done (.vec (e :: l) [])
    else pl2rLang f (pl2rArgs [h, t])
  | .compound f args => pl2rLang f (pl2rArgs args)
  | .var _ | .blob _ => done Term.leafNa
termination_by structural t => t

/-- The loop of `pl2r_list`: `PlTail::next` refuses a tail that is no list. -/
def pl2rTail : Term → Cpp (List SEXP)
  | .nil => done []
  | .compound f [h, t] =>
    if f = dot then do
      let e ← pl2rLeaf h
      let l ← pl2rTail t
      done (e :: l)
    else thrown (.typeError "list" (.compound f [h, t]))
  | t => thrown (.typeError "list" t)
termination_by structural t => t

/-- The loop of `pl2r_lang`: an argument `=(u, r)` is a named argument. The right-hand side of
`Named(u[1].name()) = pl2r_leaf(u[2])` is evaluated first. -/
def pl2rArgs : List Term → Cpp (List (Option CString × SEXP))
  | [] => done []
  | .compound f [u, r] :: ts =>
    if plAtomChars f = cstr eqSign then do
      let x ← pl2rLeaf r
      let a ← named u x
      let l ← pl2rArgs ts
      done (a :: l)
    else do
      let x ← pl2rLeaf (.compound f [u, r])
      let l ← pl2rArgs ts
      done ((none, x) :: l)
  | t :: ts => do
    let x ← pl2rLeaf t
    let l ← pl2rArgs ts
    done ((none, x) :: l)
termination_by structural ts => ts

end

/-- `"Atom"` -/
def cAtom : CString := cstr ['A', 't', 'o', 'm']

/-- The character vector with names `Atom` that `rolog_get` makes of an atom. -/
def atomVector (s : CString) : SEXP := .str [some s] [cAtom]

/-- `"Function"` -/
def cFunction : CString := cstr ['F', 'u', 'n', 'c', 't', 'i', 'o', 'n']

/-- The list with names `Function` that `rolog_get` makes of a compound. -/
def functionList (f : CString) (l : List SEXP) : SEXP :=
  .vec (.str [some f] [] :: l) (cFunction :: l.map fun _ => cEmpty)

mutual

/-- `rolog_get` -/
def rologGet : Term → Cpp SEXP
  | .int i => pl2rInt i
  | .float b => done (leafReal b)
  | .str s => done (pl2rString s)
  | .atom a => done (atomVector (wideToNative a))
  | .nil => done (.vec [] [])
  | .compound f [h, t] =>
    if f = dot then do
      let e ← rologGet h
      let l ← rologGetTail t
      done (.vec (e :: l) [])
    else do
      let l ← rologGetArgs [h, t]
      done (functionList (plAtomChars f) l)
  | .compound f args => do
    let l ← rologGetArgs args
    done (functionList (plAtomChars f) l)
  | .var _ | .blob _ => done (.real [])
termination_by structural t => t

/-- The `PL_get_list` loop of `rolog_get`, which ends at any tail that is no list cell. -/
def rologGetTail : Term → Cpp (List SEXP)
  | .compound f [h, t] =>
    if f = dot then do
      let e ← rologGet h
      let l ← rologGetTail t
      done (e :: l)
    else done []
  | _ => done []
termination_by structural t => t

/-- The loop of `rolog_get` over the arguments of a compound. -/
def rologGetArgs : List Term → Cpp (List SEXP)
  | [] => done []
  | t :: ts => do
    let x ← rologGet t
    let l ← rologGetArgs ts
    done (x :: l)
termination_by structural ts => ts

end

/-! ## One equation for each kind of term

The equations of the definitions split on the number of arguments; these split on list cells and
on arguments `=(u, r)`, as the source does. -/

/-- The test `t[i].name() == "="` with two arguments, in `pl2r_lang`. -/
def Term.isNamed : Term → Bool
  | .compound f [_, _] => plAtomChars f = cstr eqSign
  | _ => false

/-- One round of `pl2r_lang`. -/
def pl2rArg : Term → Cpp (Option CString × SEXP)
  | .compound f [u, r] =>
    if plAtomChars f = cstr eqSign then do
      let x ← pl2rLeaf r
      named u x
    else do
      let x ← pl2rLeaf (.compound f [u, r])
      done (none, x)
  | t => do
    let x ← pl2rLeaf t
    done (none, x)

theorem pl2rLeaf_cons (h t : Term) :
    pl2rLeaf (.cons h t) = (do
      let e ← pl2rLeaf h
      let l ← pl2rTail t
      done (.vec (e :: l) [])) := by
  simp only [Term.cons, pl2rLeaf, if_true]

theorem pl2rLeaf_compound {f : Text} {args : List Term} (h : ¬ IsCell f args) :
    pl2rLeaf (.compound f args) = pl2rLang f (pl2rArgs args) := by
  match args with
  | [] | [_] | _ :: _ :: _ :: _ => rfl
  | [a, b] =>
    have hf : f ≠ dot := fun e => h ⟨e, rfl⟩
    simp only [pl2rLeaf, if_neg hf]

theorem pl2rTail_cons (h t : Term) :
    pl2rTail (.cons h t) = (do
      let e ← pl2rLeaf h
      let l ← pl2rTail t
      done (e :: l)) := by
  simp only [Term.cons, pl2rTail, if_true]

theorem pl2rTail_compound {f : Text} {args : List Term} (h : ¬ IsCell f args) :
    pl2rTail (.compound f args) = thrown (.typeError "list" (.compound f args)) := by
  match args with
  | [] | [_] | _ :: _ :: _ :: _ => rfl
  | [a, b] =>
    have hf : f ≠ dot := fun e => h ⟨e, rfl⟩
    simp only [pl2rTail, if_neg hf]

theorem pl2rArgs_cons (t : Term) (ts : List Term) :
    pl2rArgs (t :: ts) = (do
      let a ← pl2rArg t
      let l ← pl2rArgs ts
      done (a :: l)) := by
  match t with
  | .var _ | .int _ | .float _ | .str _ | .atom _ | .nil | .blob _ => simp [pl2rArgs, pl2rArg]
  | .compound _ [] | .compound _ [_] | .compound _ (_ :: _ :: _ :: _) =>
    simp [pl2rArgs, pl2rArg]
  | .compound f [u, r] =>
    by_cases hf : plAtomChars f = cstr eqSign <;> simp [pl2rArgs, pl2rArg, hf]

/-- An argument `=(u, r)` is named by `u`. -/
theorem pl2rArg_named {f : Text} (h : plAtomChars f = cstr eqSign) (u r : Term) :
    pl2rArg (.compound f [u, r]) = (do
      let x ← pl2rLeaf r
      named u x) := by
  simp only [pl2rArg, if_pos h]

/-- Any other argument is translated as it would be outside the call. -/
theorem pl2rArg_unnamed {t : Term} (h : t.isNamed = false) :
    pl2rArg t = (do
      let x ← pl2rLeaf t
      done (none, x)) := by
  match t with
  | .var _ | .int _ | .float _ | .str _ | .atom _ | .nil | .blob _ => rfl
  | .compound _ [] | .compound _ [_] | .compound _ (_ :: _ :: _ :: _) => rfl
  | .compound f [u, r] =>
    have hf : plAtomChars f ≠ cstr eqSign := by simpa [Term.isNamed] using h
    simp only [pl2rArg, if_neg hf]

theorem Term.isNamed_iff {t : Term} :
    t.isNamed = true ↔ ∃ f u r, t = .compound f [u, r] ∧ plAtomChars f = cstr eqSign := by
  match t with
  | .var _ | .int _ | .float _ | .str _ | .atom _ | .nil | .blob _ => simp [Term.isNamed]
  | .compound _ [] | .compound _ [_] | .compound _ (_ :: _ :: _ :: _) => simp [Term.isNamed]
  | .compound f [u, r] => simp [Term.isNamed]

theorem rologGet_cons (h t : Term) :
    rologGet (.cons h t) = (do
      let e ← rologGet h
      let l ← rologGetTail t
      done (.vec (e :: l) [])) := by
  simp only [Term.cons, rologGet, if_true]

theorem rologGet_compound {f : Text} {args : List Term} (h : ¬ IsCell f args) :
    rologGet (.compound f args) = (do
      let l ← rologGetArgs args
      done (functionList (plAtomChars f) l)) := by
  match args with
  | [] | [_] | _ :: _ :: _ :: _ => rfl
  | [a, b] =>
    have hf : f ≠ dot := fun e => h ⟨e, rfl⟩
    simp only [rologGet, if_neg hf]

theorem rologGetTail_cons (h t : Term) :
    rologGetTail (.cons h t) = (do
      let e ← rologGet h
      let l ← rologGetTail t
      done (e :: l)) := by
  simp only [Term.cons, rologGetTail, if_true]

theorem rologGetTail_compound {f : Text} {args : List Term} (h : ¬ IsCell f args) :
    rologGetTail (.compound f args) = done [] := by
  match args with
  | [] | [_] | _ :: _ :: _ :: _ => rfl
  | [a, b] =>
    have hf : f ≠ dot := fun e => h ⟨e, rfl⟩
    simp only [rologGetTail, if_neg hf]

/-! ## What a normal return says -/

theorem pl2rLeaf_cons_eq_done {h t : Term} {v : SEXP} :
    pl2rLeaf (.cons h t) = done v ↔
      ∃ e l, pl2rLeaf h = done e ∧ pl2rTail t = done l ∧ v = .vec (e :: l) [] := by
  rw [pl2rLeaf_cons]
  exact bind₂_eq_done

theorem pl2rTail_cons_eq_done {h t : Term} {v : List SEXP} :
    pl2rTail (.cons h t) = done v ↔
      ∃ e l, pl2rLeaf h = done e ∧ pl2rTail t = done l ∧ v = e :: l := by
  rw [pl2rTail_cons]
  exact bind₂_eq_done

theorem pl2rArgs_cons_eq_done {t : Term} {ts : List Term} {v : List (Option CString × SEXP)} :
    pl2rArgs (t :: ts) = done v ↔
      ∃ a l, pl2rArg t = done a ∧ pl2rArgs ts = done l ∧ v = a :: l := by
  rw [pl2rArgs_cons]
  exact bind₂_eq_done

theorem rologGet_cons_eq_done {h t : Term} {v : SEXP} :
    rologGet (.cons h t) = done v ↔
      ∃ e l, rologGet h = done e ∧ rologGetTail t = done l ∧ v = .vec (e :: l) [] := by
  rw [rologGet_cons]
  exact bind₂_eq_done

theorem rologGetTail_cons_eq_done {h t : Term} {v : List SEXP} :
    rologGetTail (.cons h t) = done v ↔
      ∃ e l, rologGet h = done e ∧ rologGetTail t = done l ∧ v = e :: l := by
  rw [rologGetTail_cons]
  exact bind₂_eq_done

theorem rologGetArgs_cons_eq_done {t : Term} {ts : List Term} {v : List SEXP} :
    rologGetArgs (t :: ts) = done v ↔
      ∃ x l, rologGet t = done x ∧ rologGetArgs ts = done l ∧ v = x :: l := bind₂_eq_done

theorem pl2rLang_eq_done {f : Text} {args : Cpp (List (Option CString × SEXP))} {v : SEXP} :
    pl2rLang f args = done v ↔
      plAtomChars f ≠ cEmpty ∧ ∃ l, args = done l ∧ v = .lang (.sym (plAtomChars f)) l := by
  simp only [pl2rLang, bind_eq_done, install_eq_done, Unwind.Outcome.done.injEq]
  grind

theorem named_eq_done {u : Term} {x : SEXP} {a : Option CString × SEXP} :
    named u x = done a ↔ ∃ s, u.name = done s ∧ s ≠ cEmpty ∧ a = (some s, x) := by
  simp only [named, bind_eq_done, install_eq_done, Unwind.Outcome.done.injEq]
  grind

theorem pl2rArg_unnamed_iff {t : Term} (h : t.isNamed = false) {a : Option CString × SEXP} :
    pl2rArg t = done a ↔ ∃ x, pl2rLeaf t = done x ∧ a = (none, x) := by
  rw [pl2rArg_unnamed h]
  exact bind_done_eq_done

theorem pl2rArg_named_iff {f : Text} (h : plAtomChars f = cstr eqSign) {u r : Term}
    {a : Option CString × SEXP} :
    pl2rArg (.compound f [u, r]) = done a ↔
      ∃ x s, pl2rLeaf r = done x ∧ u.name = done s ∧ s ≠ cEmpty ∧ a = (some s, x) := by
  rw [pl2rArg_named h, bind_eq_done]
  simp only [named_eq_done, exists_and_left]

theorem termLeafSymbol_eq_done {a : Text} {v : SEXP} :
    Term.leafSymbol a = done v ↔
      ∃ s, atomChars a = done s ∧ s ≠ cEmpty ∧ v = symbolOrLogical s := by
  simp only [Term.leafSymbol, bind_eq_done, install_eq_done, Unwind.Outcome.done.injEq]
  grind

theorem pl2rInt_eq_done {i : Int} {v : SEXP} :
    pl2rInt i = done v ↔ (-2147483648 ≤ i ∧ i < 2147483648) ∧ v = .int [.ofInt i] := by
  by_cases h : -2147483648 ≤ i ∧ i < 2147483648
  · unfold pl2rInt
    rw [if_pos h, and_iff_right h, Unwind.Outcome.done.injEq, eq_comm]
  · unfold pl2rInt
    rw [if_neg h]
    exact ⟨nofun, fun e => absurd e.1 h⟩

theorem pl2rArgs_length : ∀ {ts : List Term} {l : List (Option CString × SEXP)},
    pl2rArgs ts = done l → l.length = ts.length
  | [], l, h => by
    cases h
    rfl
  | t :: ts, l, h => by
    obtain ⟨a, m, _, hm, rfl⟩ := pl2rArgs_cons_eq_done.mp h
    simp [pl2rArgs_length hm]

end Rolog
