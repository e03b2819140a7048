/-
  Names on the way to R, in a UTF-8 session. An atom crosses as Latin-1 bytes (`pl2r_leaf`) or as
  wide characters (`rolog_get`), a functor and a tag as the raw storage of the name. At every
  position of an answer R shows the names of the answer exactly when those that cross as bytes
  are ASCII, or when the decoder ends in an error (`names_iff`).
-/
import Rolog.Positions
import Rolog.Faults
import Rolog.Utf8

namespace Rolog

open Unwind.Outcome

/-! ## The names of a term and of a value -/

mutual

/-- The atoms and functors of a term. -/
def Term.names : Term → List Text
  | .atom a => [a]
  | .compound f args => f :: Term.namesList args
  | .var _ | .int _ | .float _ | .str _ | .nil | .blob _ => []
termination_by structural t => t

def Term.namesList : List Term → List Text
  | [] => []
  | t :: ts => t.names ++ Term.namesList ts
termination_by structural ts => ts

end

/-- The text that names an atom or a compound. -/
def Term.nameText : Term → Text
  | .atom a => a
  | .compound f _ => f
  | _ => []

/-- The tag that the argument `=(u, r)` asks for. -/
def Term.tag : Term → Option CString
  | .compound f [u, _] => if f = eqSign then some (wideToNative u.nameText) else none
  | _ => none

/-- The atom that a value stands for: a symbol, an `Atom` vector, `TRUE` or `FALSE`. -/
def nameOf : SEXP → Option CString
  | .sym s => some s
  | .lgl [some b] => some (if b then cTrue else cFalse)
  | .str [some s] (_ :: _) => some s
  | _ => none

/-- The head of a call or of a `Function` list. -/
def headOf : SEXP → Option CString
  | .lang (.sym f) _ => some f
  | .vec (.str [some f] _ :: _) (_ :: _) => some f
  | _ => none

def tagsOf : SEXP → List (Option CString)
  | .lang _ l => l.map Prod.fst
  | _ => []

/-! ## A decoder, position by position -/

/-- A decoder, the positions that correspond on its two sides, and when a value shows the names of
the subterm in its position. -/
structure View where
  decode : Term → Cpp SEXP
  termAt : Term → List Nat → Option Term
  valueAt : SEXP → List Nat → Option SEXP
  Shows : Term → SEXP → Prop

/-- The decoder returns, and `x` stands where `u` stands in `t`. -/
def View.At (d : View) (t : Term) (p : List Nat) (u : Term) (x : SEXP) : Prop :=
  ∃ v, d.decode t = done v ∧ d.termAt t p = some u ∧ d.valueAt v p = some x

/-- R shows the names of the answer, or there is an error. -/
def View.NamesKept (d : View) (t : Term) : Prop := ∀ p u x, d.At t p u x → d.Shows u x

/-- Functors of two answers that have one R head are the same. -/
def View.HeadsApart (d : View) (t₁ t₂ : Term) : Prop :=
  ∀ p₁ p₂ f₁ f₂ args₁ args₂ x₁ x₂ s,
    d.At t₁ p₁ (.compound f₁ args₁) x₁ → ¬ IsCell f₁ args₁ → headOf x₁ = some s →
    d.At t₂ p₂ (.compound f₂ args₂) x₂ → ¬ IsCell f₂ args₂ → headOf x₂ = some s → f₁ = f₂

/-- `pl2r_leaf`: atoms, functors and tags. A list has no functor in R. -/
def pl2rView : View where
  decode := pl2rLeaf
  termAt := Term.partAt
  valueAt := SEXP.partAt
  Shows
    | .atom a, x => nameOf x = some (wideToNative a)
    | .compound f args, x => IsCell f args ∨
      headOf x = some (wideToNative f) ∧ tagsOf x = args.map Term.tag
    | _, _ => True

/-- The elements of a list, or the arguments. -/
def Term.kids : Term → List Term
  | .compound f args => if IsCell f args then Term.elements (.compound f args) else args
  | _ => []

/-- The elements of a list of `rolog_get`, without the functor. -/
def SEXP.kids : SEXP → List SEXP
  | .vec l [] => l
  | .vec (_ :: l) (_ :: _) => l
  | _ => []

def Term.kidAt : Term → List Nat → Option Term
  | t, [] => some t
  | t, k :: p => t.kids[k]?.bind fun u => u.kidAt p

def SEXP.kidAt : SEXP → List Nat → Option SEXP
  | e, [] => some e
  | e, k :: p => e.kids[k]?.bind fun x => x.kidAt p

/-- `rolog_get`: atoms and functors. -/
def rologView : View where
  decode := rologGet
  termAt := Term.kidAt
  valueAt := SEXP.kidAt
  Shows
    | .atom a, x => nameOf x = some (wideToNative a)
    | .compound f args, x => IsCell f args ∨ headOf x = some (wideToNative f)
    | _, _ => True

/-! ## The names that cross as bytes -/

/-- The functor and the left side of an argument that becomes a tag. -/
def Term.tagNames : Term → List Text
  | .compound f [u, _] => if plAtomChars f = cstr eqSign then [f, u.nameText] else []
  | _ => []

/-- The names that `pl2r_leaf` converts from bytes at a position. -/
def Term.byteNames : Term → List Text
  | .atom a => [a]
  | .compound f args => if IsCell f args then [] else f :: args.flatMap Term.tagNames
  | _ => []

/-- The answer stops `pl2r_leaf` with an error, or its names are ASCII. -/
def IsPlain (t : Term) : Prop :=
  faults t ≠ [] ∨ ∀ p u, t.partAt p = some u → ∀ s ∈ u.byteNames, IsAscii s

/-- The functor that `rolog_get` converts from bytes at a position. -/
def Term.functors : Term → List Text
  | .compound f args => if IsCell f args then [] else [f]
  | _ => []

/-- The answer stops `rolog_get` with an error, or its functors are ASCII. -/
def IsRologPlain (t : Term) : Prop :=
  rologFaults t ≠ [] ∨ ∀ p u, t.kidAt p = some u → ∀ s ∈ u.functors, IsAscii s

/-! ## Every name at a position is a name of the answer -/

theorem Term.mem_namesList {t : Term} {ts : List Term} (h : t ∈ ts) :
    ∀ s ∈ t.names, s ∈ Term.namesList ts := by
  induction ts with
  | nil => simp at h
  | cons u ts ih =>
    intro s hs
    unfold Term.namesList
    rw [List.mem_append]
    rcases List.mem_cons.mp h with rfl | h
    · exact .inl hs
    · exact .inr (ih h s hs)

theorem names_of_mem {f : Text} {args : List Term} {t : Term} (h : t ∈ args) :
    ∀ s ∈ t.names, s ∈ (Term.compound f args).names := by
  intro s hs
  unfold Term.names
  exact List.mem_cons_of_mem f (Term.mem_namesList h s hs)

theorem elements_of_not_cell {f : Text} {args : List Term} (h : ¬ IsCell f args) :
    (Term.compound f args).elements = [] := by
  match args with
  | [] | [_] | _ :: _ :: _ :: _ => rfl
  | [a, b] =>
    have hf : f ≠ dot := fun e => h ⟨e, rfl⟩
    simp only [Term.elements, if_neg hf]

theorem names_of_elements {t u : Term} (h : u ∈ t.elements) : ∀ s ∈ u.names, s ∈ t.names := by
  induction t using Term.inductCell with
  | cons a t _ ih =>
    rw [Term.elements_cons] at h
    intro s hs
    rcases List.mem_cons.mp h with rfl | h
    · exact names_of_mem (by simp) s hs
    · exact names_of_mem (t := t) (by simp) s (ih h s hs)
  | compound f args hcell _ =>
    rw [elements_of_not_cell hcell] at h
    cases h
  | var | int | float | str | atom | nil | blob => cases h

theorem names_unnamed (t : Term) : ∀ s ∈ t.unnamed.names, s ∈ t.names := by
  by_cases hn : t.isNamed
  · obtain ⟨f, u, r, rfl, hname⟩ := Term.isNamed_iff.mp hn
    simp only [Term.unnamed, if_pos hname]
    exact names_of_mem (by simp)
  · rw [Term.unnamed_of_not_named (by simpa using hn)]
    exact fun s hs => hs

theorem names_partAt {t u : Term} {p : List Nat} (h : t.partAt p = some u) :
    ∀ s ∈ u.names, s ∈ t.names := by
  induction p generalizing t with
  | nil =>
    unfold Term.partAt at h
    cases h
    exact fun s hs => hs
  | cons k p ih =>
    cases t with
    | compound f args =>
      unfold Term.partAt at h
      intro s hs
      by_cases hcell : IsCell f args
      · rw [if_pos hcell] at h
        obtain ⟨w, hw, h⟩ := Option.bind_eq_some_iff.mp h
        exact names_of_elements (List.mem_of_getElem? hw) s (ih h s hs)
      · rw [if_neg hcell] at h
        obtain ⟨w, hw, h⟩ := Option.bind_eq_some_iff.mp h
        exact names_of_mem (List.mem_of_getElem? hw) s (names_unnamed w s (ih h s hs))
    | var | int | float | str | atom | nil | blob => cases h

theorem names_of_kids {t u : Term} (h : u ∈ t.kids) : ∀ s ∈ u.names, s ∈ t.names := by
  cases t with
  | compound f args =>
    by_cases hcell : IsCell f args
    · rw [Term.kids, if_pos hcell] at h
      exact names_of_elements h
    · rw [Term.kids, if_neg hcell] at h
      exact names_of_mem h
  | var | int | float | str | atom | nil | blob => cases h

theorem names_kidAt {t u : Term} {p : List Nat} (h : t.kidAt p = some u) :
    ∀ s ∈ u.names, s ∈ t.names := by
  induction p generalizing t with
  | nil =>
    unfold Term.kidAt at h
    cases h
    exact fun s hs => hs
  | cons k p ih =>
    unfold Term.kidAt at h
    obtain ⟨w, hw, h⟩ := Option.bind_eq_some_iff.mp h
    intro s hs
    exact names_of_kids (List.mem_of_getElem? hw) s (ih h s hs)

theorem nameText_mem_names {u : Term} (h : u.nameText ≠ []) : u.nameText ∈ u.names := by
  cases u with
  | atom a => simp [Term.nameText, Term.names]
  | compound f args => simp [Term.nameText, Term.names]
  | var | int | float | str | nil | blob => exact absurd rfl h

theorem noNul_nameText {u : Term} (h : ∀ s ∈ u.names, NoNul s) : NoNul u.nameText := by
  by_cases hu : u.nameText = []
  · rw [hu]
    decide
  · exact h _ (nameText_mem_names hu)

/-! ## One position: `pl2r_leaf` -/

theorem name_eq_done {u : Term} {s : CString} (h : u.name = done s) :
    s = plAtomChars u.nameText := by
  cases u with
  | atom a =>
    cases h
    rfl
  | compound f args =>
    cases h
    rfl
  | var | int | float | str | nil | blob => cases h

/-- A functor that reads `=` is `=` if it is ASCII. -/
theorem eq_eqSign_iff {f : Text} (hf : NoNul f) (h : plAtomChars f = cstr eqSign) :
    f = eqSign ↔ IsAscii f := by
  constructor
  · intro e
    rw [e]
    decide
  · intro ha
    have hcut : cutNul f = f :=
      List.takeWhile_eq_self_iff.mpr fun c hc => decide_eq_true (hf c hc)
    rw [← hcut, ← text_plAtomChars ha, h]
    decide

/-- No other argument has or gets a tag. -/
theorem tag_of_not_named {t : Term} (h : t.isNamed = false) : t.tag = none ∧ t.tagNames = [] := by
  match t with
  | .var _ | .int _ | .float _ | .str _ | .atom _ | .nil | .blob _ => exact ⟨rfl, rfl⟩
  | .compound _ [] | .compound _ [_] | .compound _ (_ :: _ :: _ :: _) => exact ⟨rfl, rfl⟩
  | .compound f [u, r] =>
    have hf : plAtomChars f ≠ cstr eqSign := by simpa [Term.isNamed] using h
    have he : f ≠ eqSign := fun e => hf (by rw [e]; decide)
    exact ⟨if_neg he, if_neg hf⟩

/-- The tag of an argument is right when the two names before it are ASCII. -/
theorem tag_iff {t : Term} {a : Option CString × SEXP} (hn : ∀ s ∈ t.names, NoNul s)
    (h : pl2rArg t = done a) : a.1 = t.tag ↔ ∀ s ∈ t.tagNames, IsAscii s := by
  by_cases hnamed : t.isNamed
  · obtain ⟨f, u, r, rfl, hname⟩ := Term.isNamed_iff.mp hnamed
    obtain ⟨x, s, _, hs, _, rfl⟩ := (pl2rArg_named_iff hname).mp h
    have hu : NoNul u.nameText :=
      noNul_nameText fun s hs => hn s (names_of_mem (by simp) s hs)
    have hf : NoNul f := hn f (by simp [Term.names])
    have hchars := plAtomChars_eq_wideToNative_iff hu
    have heq := eq_eqSign_iff hf hname
    have htags : (∀ s ∈ [f, u.nameText], IsAscii s) ↔ f = eqSign ∧ IsAscii u.nameText := by
      rw [heq]
      simp
    simp only [Term.tag, Term.tagNames, if_pos hname, htags, name_eq_done hs, ← hchars]
    by_cases he : f = eqSign <;> simp [he]
  · have hnamed : t.isNamed = false := by simpa using hnamed
    obtain ⟨x, _, rfl⟩ := (pl2rArg_unnamed_iff hnamed).mp h
    obtain ⟨htag, hnames⟩ := tag_of_not_named hnamed
    rw [htag, hnames]
    simp

theorem tags_iff {ts : List Term} {l : List (Option CString × SEXP)}
    (hn : ∀ t ∈ ts, ∀ s ∈ t.names, NoNul s) (h : pl2rArgs ts = done l) :
    l.map Prod.fst = ts.map Term.tag ↔ ∀ s ∈ ts.flatMap Term.tagNames, IsAscii s := by
  induction ts generalizing l with
  | nil =>
    cases h
    simp
  | cons t ts ih =>
    obtain ⟨a, m, ha, hm, rfl⟩ := pl2rArgs_cons_eq_done.mp h
    have hrest := ih (fun u hu => hn u (List.mem_cons_of_mem t hu)) hm
    rw [List.map_cons, List.map_cons, List.cons.injEq, hrest, tag_iff (hn t List.mem_cons_self) ha,
      List.flatMap_cons, List.forall_mem_append]

theorem nameOf_symbolOrLogical (s : CString) : nameOf (symbolOrLogical s) = some s := by
  by_cases ht : s = cTrue
  · rw [ht]
    rfl
  · by_cases hf : s = cFalse
    · rw [hf]
      rfl
    · unfold symbolOrLogical
      rw [if_neg ht, if_neg hf, nameOf]

theorem atomChars_eq_done {a : Text} {s : CString} (h : atomChars a = done s) :
    s = plAtomChars a := by
  unfold atomChars plGetChars at h
  by_cases hl : a.isLatin1
  · rw [if_pos hl] at h
    cases h
    exact (if_pos hl).symm
  · rw [if_neg hl] at h
    cases h

theorem pl2rShows_iff {u : Term} {x : SEXP} (hn : ∀ s ∈ u.names, NoNul s)
    (h : pl2rLeaf u = done x) : pl2rView.Shows u x ↔ ∀ s ∈ u.byteNames, IsAscii s := by
  cases u with
  | atom a =>
    obtain ⟨s, hs, _, rfl⟩ := termLeafSymbol_eq_done.mp h
    have ha : NoNul a := hn a (by simp [Term.names])
    show nameOf (symbolOrLogical s) = some (wideToNative a) ↔ ∀ s ∈ [a], IsAscii s
    rw [nameOf_symbolOrLogical, atomChars_eq_done hs, Option.some.injEq,
      plAtomChars_eq_wideToNative_iff ha]
    simp
  | compound f args =>
    by_cases hcell : IsCell f args
    · have hno : (Term.compound f args).byteNames = [] := if_pos hcell
      rw [hno]
      exact ⟨fun _ => by simp, fun _ => .inl hcell⟩
    · have hnames : (Term.compound f args).byteNames = f :: args.flatMap Term.tagNames :=
        if_neg hcell
      rw [pl2rLeaf_compound hcell] at h
      obtain ⟨_, l, hl, rfl⟩ := pl2rLang_eq_done.mp h
      have hf : NoNul f := hn f (by simp [Term.names])
      show IsCell f args ∨ some (plAtomChars f) = some (wideToNative f) ∧
        l.map Prod.fst = args.map Term.tag ↔ _
      rw [hnames, List.forall_mem_cons, tags_iff (fun t ht s hs => hn s (names_of_mem ht s hs)) hl,
        Option.some.injEq, plAtomChars_eq_wideToNative_iff hf]
      simp [hcell]
  | var | int | float | str | nil | blob =>
    exact ⟨fun _ => by simp [Term.byteNames], fun _ => trivial⟩

/-! ## One position: `rolog_get` -/

theorem rologShows_iff {u : Term} {x : SEXP} (hn : ∀ s ∈ u.names, NoNul s)
    (h : rologGet u = done x) : rologView.Shows u x ↔ ∀ s ∈ u.functors, IsAscii s := by
  cases u with
  | atom a =>
    cases h
    exact ⟨fun _ => by simp [Term.functors], fun _ => rfl⟩
  | compound f args =>
    by_cases hcell : IsCell f args
    · have hno : (Term.compound f args).functors = [] := if_pos hcell
      rw [hno]
      exact ⟨fun _ => by simp, fun _ => .inl hcell⟩
    · have hnames : (Term.compound f args).functors = [f] := if_neg hcell
      rw [rologGet_compound hcell] at h
      obtain ⟨l, _, h⟩ := bind_eq_done.mp h
      cases h
      have hf : NoNul f := hn f (by simp [Term.names])
      show IsCell f args ∨ some (plAtomChars f) = some (wideToNative f) ↔ _
      rw [hnames, Option.some.injEq, plAtomChars_eq_wideToNative_iff hf]
      simp [hcell]
  | var | int | float | str | nil | blob =>
    exact ⟨fun _ => by simp [Term.functors], fun _ => trivial⟩

theorem rologGetArgs_getElem? {ts : List Term} {l : List SEXP} {k : Nat} {u : Term}
    (h : rologGetArgs ts = done l) (hk : ts[k]? = some u) :
    ∃ x, l[k]? = some x ∧ rologGet u = done x := by
  induction ts generalizing l k with
  | nil => simp at hk
  | cons t ts ih =>
    obtain ⟨x, m, hx, hm, rfl⟩ := rologGetArgs_cons_eq_done.mp h
    cases k with
    | zero =>
      rw [List.getElem?_cons_zero, Option.some.injEq] at hk
      subst hk
      exact ⟨x, rfl, hx⟩
    | succ k =>
      simp only [List.getElem?_cons_succ] at hk ⊢
      exact ih hm hk

theorem rologGetTail_getElem? {t : Term} {l : List SEXP} {k : Nat} {u : Term}
    (h : rologGetTail t = done l) (hk : t.elements[k]? = some u) :
    ∃ x, l[k]? = some x ∧ rologGet u = done x := by
  induction t using Term.inductCell generalizing l k with
  | cons a t _ ih =>
    obtain ⟨e, m, he, hm, rfl⟩ := rologGetTail_cons_eq_done.mp h
    rw [Term.elements_cons] at hk
    cases k with
    | zero =>
      rw [List.getElem?_cons_zero, Option.some.injEq] at hk
      subst hk
      exact ⟨e, rfl, he⟩
    | succ k =>
      simp only [List.getElem?_cons_succ] at hk ⊢
      exact ih hm hk
  | compound f args hcell _ =>
    rw [elements_of_not_cell hcell] at hk
    cases hk
  | var | int | float | str | atom | nil | blob => cases hk

/-- An element or argument of the term is an element of the R list. -/
theorem rologGet_kids {t u : Term} {v : SEXP} {k : Nat} (hv : rologGet t = done v)
    (hk : t.kids[k]? = some u) : ∃ x, v.kids[k]? = some x ∧ rologGet u = done x := by
  cases t with
  | compound f args =>
    by_cases hcell : IsCell f args
    · rw [Term.kids, if_pos hcell] at hk
      obtain ⟨rfl, hlen⟩ := hcell
      obtain ⟨a, b, rfl⟩ := List.length_eq_two.mp hlen
      have hcons : rologGet (.cons a b) = done v := hv
      obtain ⟨e, l, he, hl, rfl⟩ := rologGet_cons_eq_done.mp hcons
      have htail : rologGetTail (.cons a b) = done (e :: l) := by
        rw [rologGetTail_cons, he, hl]
        rfl
      exact rologGetTail_getElem? htail hk
    · rw [Term.kids, if_neg hcell] at hk
      rw [rologGet_compound hcell] at hv
      obtain ⟨l, hl, hv⟩ := bind_eq_done.mp hv
      cases hv
      exact rologGetArgs_getElem? hl hk
  | var | int | float | str | atom | nil | blob => cases hk

theorem rologGet_kidAt {t u : Term} {v : SEXP} {p : List Nat} (hu : t.kidAt p = some u)
    (hv : rologGet t = done v) : ∃ x, v.kidAt p = some x ∧ rologGet u = done x := by
  induction p generalizing t v with
  | nil =>
    unfold Term.kidAt at hu
    cases hu
    exact ⟨v, rfl, hv⟩
  | cons k p ih =>
    unfold Term.kidAt at hu
    obtain ⟨w, hw, hu⟩ := Option.bind_eq_some_iff.mp hu
    obtain ⟨y, hy, hwy⟩ := rologGet_kids hv hw
    obtain ⟨x, hx, hux⟩ := ih hu hwy
    refine ⟨x, ?_, hux⟩
    unfold SEXP.kidAt
    rw [hy, Option.bind_some]
    exact hx

/-! ## Every position -/

/-- If the values at the positions are the values of the subterms, and a value shows the names of
its term when these are ASCII, then an answer keeps its names exactly when all of them are. -/
theorem View.namesKept_iff {d : View} {t : Term} {N : Term → List Text}
    (hpart : ∀ v p u, d.decode t = done v → d.termAt t p = some u →
      ∃ x, d.valueAt v p = some x ∧ d.decode u = done x)
    (hshows : ∀ p u x, d.termAt t p = some u → d.decode u = done x →
      (d.Shows u x ↔ ∀ s ∈ N u, IsAscii s)) :
    d.NamesKept t ↔
      (∀ v, d.decode t ≠ done v) ∨ ∀ p u, d.termAt t p = some u → ∀ s ∈ N u, IsAscii s := by
  constructor
  · intro h
    by_cases hd : ∃ v, d.decode t = done v
    · obtain ⟨v, hv⟩ := hd
      refine .inr fun p u hu => ?_
      obtain ⟨x, hx, hux⟩ := hpart v p u hv hu
      exact (hshows p u x hu hux).mp (h p u x ⟨v, hv, hu, hx⟩)
    · exact .inl fun v hv => hd ⟨v, hv⟩
  · intro h p u x hat
    obtain ⟨v, hv, hu, hx⟩ := hat
    rcases h with hno | hall
    · exact absurd hv (hno v)
    · obtain ⟨y, hy, huy⟩ := hpart v p u hv hu
      rw [hx, Option.some.injEq] at hy
      subst hy
      exact (hshows p u x hu huy).mpr (hall p u hu)

/-- Names that are kept keep their heads apart, since UTF-8 is injective. -/
theorem View.headsApart {d : View} {t₁ t₂ : Term}
    (hhead : ∀ f args x, ¬ IsCell f args → d.Shows (.compound f args) x →
      headOf x = some (wideToNative f))
    (hnames : ∀ t, t = t₁ ∨ t = t₂ → ∀ p f args, d.termAt t p = some (.compound f args) → NoNul f)
    (h₁ : d.NamesKept t₁) (h₂ : d.NamesKept t₂) : d.HeadsApart t₁ t₂ := by
  intro p₁ p₂ f₁ f₂ args₁ args₂ x₁ x₂ s hat₁ hc₁ hs₁ hat₂ hc₂ hs₂
  have e₁ := hhead f₁ args₁ x₁ hc₁ (h₁ p₁ _ x₁ hat₁)
  have e₂ := hhead f₂ args₂ x₂ hc₂ (h₂ p₂ _ x₂ hat₂)
  have e : wideToNative f₁ = wideToNative f₂ := by
    rw [← Option.some.injEq, ← e₁, ← e₂, hs₁, hs₂]
  obtain ⟨_, _, hu₁, _⟩ := hat₁
  obtain ⟨_, _, hu₂, _⟩ := hat₂
  exact wideToNative_injective (hnames t₁ (.inl rfl) p₁ f₁ args₁ hu₁)
    (hnames t₂ (.inr rfl) p₂ f₂ args₂ hu₂) e

theorem pl2rNames_iff {t : Term} (h : ∀ s ∈ t.names, NoNul s) :
    pl2rView.NamesKept t ↔ IsPlain t := by
  rw [View.namesKept_iff (N := Term.byteNames) (fun v p u hv hu => pl2rLeaf_partAt hu hv)
    (fun p u x hu hx => pl2rShows_iff (fun s hs => h s (names_partAt hu s hs)) hx)]
  have hend := (pl2rLeaf_end t).isDone_iff
  rw [Unwind.Outcome.isDone_iff] at hend
  have hstop : (∀ v, pl2rLeaf t ≠ done v) ↔ faults t ≠ [] := by
    rw [Ne, ← hend, not_exists]
  exact or_congr hstop Iff.rfl

theorem rologNames_iff {t : Term} (h : ∀ s ∈ t.names, NoNul s) :
    rologView.NamesKept t ↔ IsRologPlain t := by
  rw [View.namesKept_iff (N := Term.functors) (fun v p u hv hu => rologGet_kidAt hu hv)
    (fun p u x hu hx => rologShows_iff (fun s hs => h s (names_kidAt hu s hs)) hx)]
  have hend := (rologGet_end t).isDone_iff
  rw [Unwind.Outcome.isDone_iff] at hend
  have hstop : (∀ v, rologGet t ≠ done v) ↔ rologFaults t ≠ [] := by
    rw [Ne, ← hend, not_exists]
  exact or_congr hstop Iff.rfl

/-- Both decoders show the names of two answers, and keep their functors apart, exactly when each
answer stops the decoder or has ASCII names where names cross as bytes. -/
theorem names_iff {t₁ t₂ : Term} (h₁ : ∀ s ∈ t₁.names, NoNul s) (h₂ : ∀ s ∈ t₂.names, NoNul s) :
    (pl2rView.NamesKept t₁ ∧ pl2rView.NamesKept t₂ ∧ pl2rView.HeadsApart t₁ t₂ ↔
      IsPlain t₁ ∧ IsPlain t₂) ∧
    (rologView.NamesKept t₁ ∧ rologView.NamesKept t₂ ∧ rologView.HeadsApart t₁ t₂ ↔
      IsRologPlain t₁ ∧ IsRologPlain t₂) := by
  have hboth : ∀ t, t = t₁ ∨ t = t₂ → ∀ s ∈ t.names, NoNul s := by
    intro t ht
    rcases ht with rfl | rfl
    · exact h₁
    · exact h₂
  rw [← pl2rNames_iff h₁, ← pl2rNames_iff h₂, ← rologNames_iff h₁, ← rologNames_iff h₂]
  constructor
  · refine ⟨fun h => ⟨h.1, h.2.1⟩, fun h => ⟨h.1, h.2, ?_⟩⟩
    refine View.headsApart (fun f args x hc hs => ?_) (fun t ht p f args hu => ?_) h.1 h.2
    · exact ((or_iff_right hc).mp hs).1
    · exact hboth t ht f (names_partAt hu f (by simp [Term.names]))
  · refine ⟨fun h => ⟨h.1, h.2.1⟩, fun h => ⟨h.1, h.2, ?_⟩⟩
    refine View.headsApart (fun f args x hc hs => ?_) (fun t ht p f args hu => ?_) h.1 h.2
    · exact (or_iff_right hc).mp hs
    · exact hboth t ht f (names_kidAt hu f (by simp [Term.names]))

/-- The symbol for U+00E9 is one malformed byte; `aĀ(1)` and `aā(1)` have the head `a`. -/
theorem names_lost :
    ¬ pl2rView.NamesKept (.atom ['\u00e9']) ∧
    ¬ rologView.HeadsApart (.compound ['a', '\u0100'] [.int 1])
      (.compound ['a', '\u0101'] [.int 1]) := by
  constructor
  · intro h
    have hs := h [] (.atom ['\u00e9']) (.sym (.ofBytes [0xE9])) ⟨_, by rfl, rfl, rfl⟩
    revert hs
    show ¬ (some (CString.ofBytes [0xE9]) = some (wideToNative ['\u00e9']))
    decide
  · intro h
    have he := h [] [] ['a', '\u0100'] ['a', '\u0101'] [.int 1] [.int 1] _ _ (cstr ['a'])
      ⟨_, rfl, rfl, rfl⟩ (by decide) (by rfl) ⟨_, rfl, rfl, rfl⟩ (by decide) (by rfl)
    revert he
    decide

/-- `f(x)` and `x`. -/
theorem names_iff_ascii :
    (pl2rView.NamesKept (.compound ['f'] [.atom ['x']]) ∧
        pl2rView.NamesKept (.atom ['x']) ∧
        pl2rView.HeadsApart (.compound ['f'] [.atom ['x']]) (.atom ['x']) ↔
      IsPlain (.compound ['f'] [.atom ['x']]) ∧ IsPlain (.atom ['x'])) ∧
    (rologView.NamesKept (.compound ['f'] [.atom ['x']]) ∧
        rologView.NamesKept (.atom ['x']) ∧
        rologView.HeadsApart (.compound ['f'] [.atom ['x']]) (.atom ['x']) ↔
      IsRologPlain (.compound ['f'] [.atom ['x']]) ∧ IsRologPlain (.atom ['x'])) := by
  refine names_iff ?_ ?_
  · simp only [Term.names, Term.namesList]
    decide
  · simp only [Term.names]
    decide

end Rolog
