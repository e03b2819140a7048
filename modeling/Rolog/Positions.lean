/-
  Positions. A path of argument numbers leads to a value inside an R expression, and `route`
  leads to its term inside the term of the expression: `leaf` translates the value in the same
  way wherever it stands (`leaf_argAt`). On the way back a path runs through arguments and list
  elements, and the same path serves on both sides (`pl2rLeaf_partAt`).
-/
import Rolog.Decode

namespace Rolog

open Unwind.Outcome

/-! ## From R to Prolog -/

/-- The value at a path through the arguments of calls. The head of a call is a name and has no
position. -/
def SEXP.argAt : SEXP → List Nat → Option SEXP
  | e, [] => some e
  | .lang _ cdr, k :: p => cdr[k]?.bind fun a => a.2.argAt p
  | _, _ :: _ => none
termination_by structural _ p => p

/-- The subterm at a path through the arguments of compounds. -/
def Term.argAt : Term → List Nat → Option Term
  | t, [] => some t
  | .compound _ args, k :: p => args[k]?.bind fun t => t.argAt p
  | _, _ :: _ => none
termination_by structural _ p => p

/-- The path, in the term of an expression, to the term of the value at a path of the expression:
a tagged argument is the second argument of its `=`. -/
def SEXP.route : SEXP → List Nat → List Nat
  | .lang _ cdr, k :: p =>
    match cdr[k]? with
    | some (none, e) => k :: e.route p
    | some (some _, e) => k :: 1 :: e.route p
    | none => []
  | _, _ => []
termination_by structural _ p => p

/-- The k-th argument gives the k-th term. -/
theorem leafArgs_getElem? {cdr : List (Option CString × SEXP)} {v : List Term} {k : Nat}
    {a : Option CString × SEXP} (h : leafArgs cdr = done v) (hk : cdr[k]? = some a) :
    ∃ t, v[k]? = some t ∧ leafArg a = done t := by
  induction cdr generalizing v k with
  | nil => simp at hk
  | cons b cdr ih =>
    obtain ⟨t, w, ht, hw, rfl⟩ := leafArgs_cons_eq_done.mp h
    cases k with
    | zero =>
      rw [List.getElem?_cons_zero, Option.some.injEq] at hk
      subst hk
      exact ⟨t, rfl, ht⟩
    | succ k =>
      simp only [List.getElem?_cons_succ] at hk ⊢
      exact ih hw hk

/-- A call that is translated and has an argument becomes a compound. -/
theorem leaf_lang_eq_done {car : SEXP} {cdr : List (Option CString × SEXP)} {t : Term}
    (h : leaf (.lang car cdr) = done t) :
    ∃ v pred, leafArgs cdr = done v ∧ asSymbol car = done pred ∧ t = plCompound pred.text v := by
  unfold leaf at h
  exact bind₂_eq_done.mp h

/-- In a translated expression every value is translated, on its own, and its term stands where
the route says. -/
theorem leaf_argAt {e x : SEXP} {t : Term} {p : List Nat} (hx : e.argAt p = some x)
    (ht : leaf e = done t) : ∃ u, t.argAt (e.route p) = some u ∧ leaf x = done u := by
  induction p generalizing e t with
  | nil =>
    unfold SEXP.argAt at hx
    cases hx
    refine ⟨t, ?_, ht⟩
    cases x <;> rfl
  | cons k p ih =>
    cases e with
    | lang car cdr =>
      unfold SEXP.argAt at hx
      obtain ⟨a, ha, hx⟩ := Option.bind_eq_some_iff.mp hx
      obtain ⟨v, pred, hv, _, rfl⟩ := leaf_lang_eq_done ht
      obtain ⟨w, hw, hleaf⟩ := leafArgs_getElem? hv ha
      have hne : v ≠ [] := by
        intro he
        rw [he] at hw
        cases hw
      rw [plCompound_of_ne_nil hne]
      obtain ⟨tag, b⟩ := a
      cases tag with
      | none =>
        obtain ⟨u, hu, hleafx⟩ := ih hx hleaf
        refine ⟨u, ?_, hleafx⟩
        simp only [SEXP.route, ha, Term.argAt, hw, Option.bind_some]
        exact hu
      | some tag =>
        obtain ⟨s, hs, rfl⟩ := bind_done_eq_done.mp hleaf
        obtain ⟨u, hu, hleafx⟩ := ih hx hs
        refine ⟨u, ?_, hleafx⟩
        simp only [SEXP.route, ha, Term.argAt, hw, plCompound, Option.bind_some]
        exact hu
    | sym | real | lgl | int | str | vec | other => cases hx

/-! ## From Prolog to R -/

/-- The elements of a list, up to a tail that is no list cell. -/
def Term.elements : Term → List Term
  | .compound f [h, t] => if f = dot then h :: t.elements else []
  | _ => []
termination_by structural t => t

@[simp] theorem Term.elements_cons (h t : Term) : (Term.cons h t).elements = h :: t.elements := by
  simp only [Term.cons, Term.elements, if_true]

/-- A list made by `append` and `close` has the appended elements, in order. -/
@[simp] theorem elements_plList (ts : List Term) : (plList ts).elements = ts := by
  induction ts with
  | nil => rfl
  | cons t ts ih => rw [plList, Term.elements_cons, ih]

/-- An argument of a compound without the name that `pl2r_lang` makes of `=(u, r)`. -/
def Term.unnamed : Term → Term
  | .compound f [u, r] => if plAtomChars f = cstr eqSign then r else .compound f [u, r]
  | t => t

theorem Term.unnamed_of_not_named {t : Term} (h : t.isNamed = false) : t.unnamed = t := by
  match t with
  | .var _ | .int _ | .float _ | .str _ | .atom _ | .nil | .blob _ => rfl
  | .compound _ [] | .compound _ [_] | .compound _ (_ :: _ :: _ :: _) => rfl
  | .compound f [u, r] =>
    have hf : plAtomChars f ≠ cstr eqSign := by simpa [Term.isNamed] using h
    simp only [Term.unnamed, if_neg hf]

/-- The subterm at a path through the arguments of compounds and the elements of lists. Names
of arguments and tails of lists are no values in R and have no position. -/
def Term.partAt : Term → List Nat → Option Term
  | t, [] => some t
  | .compound f args, k :: p =>
    if IsCell f args then (Term.elements (.compound f args))[k]?.bind fun u => u.partAt p
    else args[k]?.bind fun u => u.unnamed.partAt p
  | _, _ :: _ => none
termination_by structural _ p => p

/-- The value at a path through the arguments of calls and the elements of lists. -/
def SEXP.partAt : SEXP → List Nat → Option SEXP
  | e, [] => some e
  | .lang _ cdr, k :: p => cdr[k]?.bind fun a => a.2.partAt p
  | .vec l _, k :: p => l[k]?.bind fun e => e.partAt p
  | _, _ :: _ => none
termination_by structural _ p => p

theorem pl2rTail_getElem? {t : Term} {l : List SEXP} {k : Nat} {u : Term}
    (h : pl2rTail t = done l) (hk : t.elements[k]? = some u) :
    ∃ x, l[k]? = some x ∧ pl2rLeaf u = done x := by
  induction t using Term.inductCell generalizing l k with
  | cons a t _ ih =>
    obtain ⟨e, m, he, hm, rfl⟩ := pl2rTail_cons_eq_done.mp h
    rw [Term.elements_cons] at hk
    cases k with
    | zero =>
      rw [List.getElem?_cons_zero, Option.some.injEq] at hk
      subst hk
      exact ⟨e, rfl, he⟩
    | succ k =>
      simp only [List.getElem?_cons_succ] at hk ⊢
      exact ih hm hk
  | nil => cases hk
  | compound f args hcell _ =>
    rw [pl2rTail_compound hcell] at h
    cases h
  | var | int | float | str | atom | blob => cases h

/-- A list and its elements. -/
theorem pl2rLeaf_getElem? {h t : Term} {v : SEXP} {k : Nat} {u : Term}
    (hv : pl2rLeaf (.cons h t) = done v) (hk : (Term.cons h t).elements[k]? = some u) :
    ∃ l x, v = .vec l [] ∧ l[k]? = some x ∧ pl2rLeaf u = done x := by
  obtain ⟨e, l, he, hl, rfl⟩ := pl2rLeaf_cons_eq_done.mp hv
  have htail : pl2rTail (.cons h t) = done (e :: l) := by
    rw [pl2rTail_cons, he, hl]
    rfl
  obtain ⟨x, hx, hu⟩ := pl2rTail_getElem? htail hk
  exact ⟨e :: l, x, rfl, hx, hu⟩

/-- The value of an argument is the value of what stands there besides its name. -/
theorem pl2rArg_unnamed_eq_done {t : Term} {a : Option CString × SEXP} (h : pl2rArg t = done a) :
    pl2rLeaf t.unnamed = done a.2 := by
  by_cases hn : t.isNamed
  · obtain ⟨f, u, r, rfl, hname⟩ := Term.isNamed_iff.mp hn
    obtain ⟨x, s, hx, _, _, rfl⟩ := (pl2rArg_named_iff hname).mp h
    simp only [Term.unnamed, if_pos hname]
    exact hx
  · have hn : t.isNamed = false := by simpa using hn
    obtain ⟨x, hx, rfl⟩ := (pl2rArg_unnamed_iff hn).mp h
    rw [Term.unnamed_of_not_named hn]
    exact hx

theorem pl2rArgs_getElem? {ts : List Term} {l : List (Option CString × SEXP)} {k : Nat} {u : Term}
    (h : pl2rArgs ts = done l) (hk : ts[k]? = some u) :
    ∃ a, l[k]? = some a ∧ pl2rLeaf u.unnamed = done a.2 := by
  induction ts generalizing l k with
  | nil => simp at hk
  | cons t ts ih =>
    obtain ⟨a, m, ha, hm, rfl⟩ := pl2rArgs_cons_eq_done.mp h
    cases k with
    | zero =>
      rw [List.getElem?_cons_zero, Option.some.injEq] at hk
      subst hk
      exact ⟨a, rfl, pl2rArg_unnamed_eq_done ha⟩
    | succ k =>
      simp only [List.getElem?_cons_succ] at hk ⊢
      exact ih hm hk

/-- In a decoded answer the part at a path is decoded, on its own, to the value at that path. -/
theorem pl2rLeaf_partAt {t u : Term} {v : SEXP} {p : List Nat} (hu : t.partAt p = some u)
    (hv : pl2rLeaf t = done v) : ∃ x, v.partAt p = some x ∧ pl2rLeaf u = done x := by
  induction p generalizing t v with
  | nil =>
    unfold Term.partAt at hu
    cases hu
    refine ⟨v, ?_, hv⟩
    cases v <;> rfl
  | cons k p ih =>
    cases t with
    | compound f args =>
      unfold Term.partAt at hu
      by_cases hcell : IsCell f args
      · rw [if_pos hcell] at hu
        obtain ⟨rfl, hlen⟩ := hcell
        obtain ⟨a, b, rfl⟩ := List.length_eq_two.mp hlen
        obtain ⟨w, hw, hu⟩ := Option.bind_eq_some_iff.mp hu
        obtain ⟨l, y, rfl, hy, hwy⟩ := pl2rLeaf_getElem? hv hw
        obtain ⟨x, hx, hux⟩ := ih hu hwy
        refine ⟨x, ?_, hux⟩
        unfold SEXP.partAt
        rw [hy, Option.bind_some]
        exact hx
      · rw [if_neg hcell] at hu
        obtain ⟨w, hw, hu⟩ := Option.bind_eq_some_iff.mp hu
        rw [pl2rLeaf_compound hcell] at hv
        obtain ⟨_, l, hl, rfl⟩ := pl2rLang_eq_done.mp hv
        obtain ⟨a, ha, hwa⟩ := pl2rArgs_getElem? hl hw
        obtain ⟨x, hx, hux⟩ := ih hu hwa
        refine ⟨x, ?_, hux⟩
        unfold SEXP.partAt
        rw [ha, Option.bind_some]
        exact hx
    | var | int | float | str | atom | nil | blob => cases hu

end Rolog
