/-
  The two decoders agree: `rolog_get` keeps the structure of a term in named lists, `pl2r_leaf`
  makes calls and symbols, and `read` takes the first to the second.

  `rolog_get` keeps an argument `=(u, r)` as a call to `=`, and ends a list at any tail. So the
  statement carries, beside the value, the argument and the list tail.
-/
import Rolog.Decode

namespace Rolog

open Unwind.Outcome

/-- The name of a value of `rolog_get`: the text of an `Atom` vector, the head of a `Function`
list, or `[|]` for a list with elements. -/
def readName : SEXP → CString
  | .str [some s] [n] => if n = cAtom then s else cEmpty
  | .vec (.str [some f] _ :: _) (n :: _) => if n = cFunction then f else cEmpty
  | .vec (_ :: _) [] => cstr dot
  | _ => cEmpty

mutual

/-- A value of `rolog_get` read as a value of `pl2r_leaf`. -/
def read : SEXP → SEXP
  | .vec (.str [some f] a :: l) (n :: names) =>
    if n = cFunction then .lang (.sym f) (readArgs l)
    else .vec (.str [some f] a :: l) (n :: names)
  | .vec l [] => .vec (reads l) []
  | .str [some s] [n] => if n = cAtom then symbolOrLogical s else .str [some s] [n]
  | .real [] => Term.leafNa
  | e => e
termination_by structural e => e

def reads : List SEXP → List SEXP
  | [] => []
  | e :: l => read e :: reads l
termination_by structural l => l

/-- The elements after the head. A call to `=` with two arguments is a tagged argument. -/
def readArgs : List SEXP → List (Option CString × SEXP)
  | [] => []
  | .vec [.str [some f] s, a, b] (n :: names) :: l =>
    if n = cFunction ∧ f = cstr eqSign then (some (readName a), read b) :: readArgs l
    else (none, read (.vec [.str [some f] s, a, b] (n :: names))) :: readArgs l
  | e :: l => (none, read e) :: readArgs l
termination_by structural l => l

end

/-- One element of `readArgs`. -/
def readArg : SEXP → Option CString × SEXP
  | .vec [.str [some f] s, a, b] (n :: names) =>
    if n = cFunction ∧ f = cstr eqSign then (some (readName a), read b)
    else (none, read (.vec [.str [some f] s, a, b] (n :: names)))
  | e => (none, read e)

/-- Terms whose atom and functor names are ASCII. -/
inductive HasAsciiNames : Term → Prop where
  | var (n : Nat) : HasAsciiNames (.var n)
  | int (i : Int) : HasAsciiNames (.int i)
  | float (bits : UInt64) : HasAsciiNames (.float bits)
  | str (s : Text) : HasAsciiNames (.str s)
  | atom (a : Text) : IsAscii a → HasAsciiNames (.atom a)
  | nil : HasAsciiNames .nil
  | blob (n : Nat) : HasAsciiNames (.blob n)
  | cons (h t : Term) : HasAsciiNames h → HasAsciiNames t → HasAsciiNames (.cons h t)
  | compound (f : Text) (args : List Term) :
    IsAscii f → ¬ IsCell f args → (∀ t ∈ args, HasAsciiNames t) → HasAsciiNames (.compound f args)

/-! ## Reading lists, calls and arguments -/

theorem readArgs_cons (e : SEXP) (l : List SEXP) :
    readArgs (e :: l) = readArg e :: readArgs l := by
  unfold readArg
  split
  · rw [readArgs]
    split <;> rfl
  · next h =>
    rw [readArgs]
    exact h

@[simp] theorem read_vec (l : List SEXP) : read (.vec l []) = .vec (reads l) [] := by
  rw [read]

@[simp] theorem read_functionList (f : CString) (l : List SEXP) :
    read (functionList f l) = .lang (.sym f) (readArgs l) := by
  unfold functionList read
  rw [if_pos rfl]

@[simp] theorem read_atomVector (s : CString) : read (atomVector s) = symbolOrLogical s := by
  unfold atomVector read
  rw [if_pos rfl]

theorem readArg_eqCall (a b : SEXP) :
    readArg (functionList (cstr eqSign) [a, b]) = (some (readName a), read b) := by
  simp [functionList, readArg]

theorem readArg_vec (l : List SEXP) : readArg (.vec l []) = (none, read (.vec l [])) := by
  unfold readArg
  split
  · next h => cases h
  · rfl

theorem readArg_functionList {f : CString} {l : List SEXP}
    (h : ¬ (f = cstr eqSign ∧ l.length = 2)) :
    readArg (functionList f l) = (none, read (functionList f l)) := by
  match l with
  | [] | [_] | _ :: _ :: _ :: _ => rfl
  | [a, b] =>
    have hf : f ≠ cstr eqSign := fun e => h ⟨e, rfl⟩
    simp [functionList, readArg, hf]

/-! ## Inverting `rolog_get` -/

theorem rologGetArgs_length : ∀ {ts : List Term} {l : List SEXP},
    rologGetArgs ts = done l → l.length = ts.length
  | [], l, h => by
    cases h
    rfl
  | t :: ts, l, h => by
    obtain ⟨x, m, _, hm, rfl⟩ := rologGetArgs_cons_eq_done.mp h
    simp [rologGetArgs_length hm]

theorem rologGet_compound_eq_done {f : Text} {args : List Term} (h : ¬ IsCell f args) {v : SEXP} :
    rologGet (.compound f args) = done v ↔
      ∃ l, rologGetArgs args = done l ∧ v = functionList (plAtomChars f) l := by
  rw [rologGet_compound h]
  exact bind_done_eq_done

/-- The name that tags an argument is the name that `read` finds. -/
theorem readName_rologGet {u : Term} (h : HasAsciiNames u) {v : SEXP} {s : CString}
    (hv : rologGet u = done v) (hs : u.name = done s) : readName v = s := by
  cases h with
  | var | int | float | str | nil | blob => cases hs
  | atom a ha =>
    cases hv
    cases hs
    rw [atomVector, readName, if_pos rfl, wideToNative_ascii ha]
  | cons h t =>
    obtain ⟨e, l, _, _, rfl⟩ := rologGet_cons_eq_done.mp hv
    cases hs
    rw [readName]
    rfl
  | compound f args _ hcell _ =>
    obtain ⟨l, _, rfl⟩ := (rologGet_compound_eq_done hcell).mp hv
    cases hs
    rw [functionList, readName, if_pos rfl]

/-- An argument with no name of its own is read as a value. -/
theorem readArg_unnamed {t : Term} (h : HasAsciiNames t) (hn : t.isNamed = false) {v : SEXP}
    (hv : rologGet t = done v) : readArg v = (none, read v) := by
  cases h with
  | var | float | str | atom | nil | blob =>
    cases hv
    rfl
  | int i =>
    obtain ⟨_, rfl⟩ := pl2rInt_eq_done.mp hv
    rfl
  | cons h t =>
    obtain ⟨e, l, _, _, rfl⟩ := rologGet_cons_eq_done.mp hv
    exact readArg_vec (e :: l)
  | compound f args _ hcell _ =>
    obtain ⟨l, hl, rfl⟩ := (rologGet_compound_eq_done hcell).mp hv
    apply readArg_functionList
    intro h
    obtain ⟨hf, hlen⟩ := h
    rw [rologGetArgs_length hl] at hlen
    obtain ⟨u, r, rfl⟩ := List.length_eq_two.mp hlen
    simp [Term.isNamed, hf] at hn

/-! ## The two decoders -/

theorem readArgs_rologGetArgs {ts : List Term} {l : List SEXP}
    {m : List (Option CString × SEXP)}
    (h : ∀ t ∈ ts, ∀ v a, rologGet t = done v → pl2rArg t = done a → readArg v = a)
    (hl : rologGetArgs ts = done l) (hm : pl2rArgs ts = done m) : readArgs l = m := by
  induction ts generalizing l m with
  | nil =>
    cases hl
    cases hm
    rfl
  | cons t ts ih =>
    obtain ⟨v, l', hv, hl', rfl⟩ := rologGetArgs_cons_eq_done.mp hl
    obtain ⟨a, m', ha, hm', rfl⟩ := pl2rArgs_cons_eq_done.mp hm
    rw [readArgs_cons, h t List.mem_cons_self v a hv ha,
      ih (fun u hu => h u (List.mem_cons_of_mem t hu)) hl' hm']

/-- What agreement says of a term: as a value, as the tail of a list, as an argument. -/
def Agree (t : Term) : Prop :=
  (∀ v w, rologGet t = done v → pl2rLeaf t = done w → read v = w) ∧
  (∀ l m, rologGetTail t = done l → pl2rTail t = done m → reads l = m) ∧
  (∀ v a, rologGet t = done v → pl2rArg t = done a → readArg v = a)

/-- An unnamed argument agrees when the value does. -/
theorem readArg_agrees {t : Term} (h : HasAsciiNames t) (hn : t.isNamed = false)
    (hvw : ∀ v w, rologGet t = done v → pl2rLeaf t = done w → read v = w) :
    ∀ v a, rologGet t = done v → pl2rArg t = done a → readArg v = a := by
  intro v a hv ha
  obtain ⟨w, hw, rfl⟩ := (pl2rArg_unnamed_iff hn).mp ha
  rw [readArg_unnamed h hn hv, hvw v w hv hw]

/-- A term that ends no list and names no argument agrees when its value does. -/
theorem agree_of_value {t : Term} (h : HasAsciiNames t) (hn : t.isNamed = false)
    (ht : ∀ m, pl2rTail t ≠ done m)
    (hvw : ∀ v w, rologGet t = done v → pl2rLeaf t = done w → read v = w) : Agree t :=
  ⟨hvw, fun _ m _ hm => absurd hm (ht m), readArg_agrees h hn hvw⟩

theorem agree {t : Term} (h : HasAsciiNames t) : Agree t := by
  induction h with
  | var n =>
    refine agree_of_value (.var n) rfl nofun ?_
    intro _ _ he he₂
    cases he
    cases he₂
    rfl
  | blob n =>
    refine agree_of_value (.blob n) rfl nofun ?_
    intro _ _ he he₂
    cases he
    cases he₂
    rfl
  | int i =>
    refine agree_of_value (.int i) rfl nofun ?_
    intro v w hv hw
    obtain ⟨_, rfl⟩ := pl2rInt_eq_done.mp hv
    obtain ⟨_, rfl⟩ := pl2rInt_eq_done.mp hw
    rfl
  | float b =>
    refine agree_of_value (.float b) rfl nofun ?_
    intro _ _ he he₂
    cases he
    cases he₂
    rfl
  | str s =>
    refine agree_of_value (.str s) rfl nofun ?_
    intro _ _ he he₂
    cases he
    cases he₂
    rfl
  | atom a ha =>
    refine agree_of_value (.atom a ha) rfl nofun ?_
    intro _ w he hw
    cases he
    obtain ⟨s, hs, _, rfl⟩ := termLeafSymbol_eq_done.mp hw
    unfold atomChars at hs
    rw [plGetChars_ascii ha] at hs
    cases hs
    rw [read_atomVector, wideToNative_ascii ha]
  | nil =>
    have hvw : ∀ v w, rologGet .nil = done v → pl2rLeaf .nil = done w → read v = w := by
      intro _ _ he he₂
      cases he
      cases he₂
      exact read_vec []
    refine ⟨hvw, ?_, readArg_agrees .nil rfl hvw⟩
    intro _ _ he he₂
    cases he
    cases he₂
    rfl
  | cons h t hh ht ihh iht =>
    have hvw : ∀ v w, rologGet (.cons h t) = done v → pl2rLeaf (.cons h t) = done w →
        read v = w := by
      intro v w hv hw
      obtain ⟨e, l, he, hl, rfl⟩ := rologGet_cons_eq_done.mp hv
      obtain ⟨x, m, hx, hm, rfl⟩ := pl2rLeaf_cons_eq_done.mp hw
      rw [read_vec, reads, ihh.1 e x he hx, iht.2.1 l m hl hm]
    refine ⟨hvw, ?_, readArg_agrees (.cons h t hh ht) rfl hvw⟩
    intro l m hl hm
    obtain ⟨e, l', he, hl', rfl⟩ := rologGetTail_cons_eq_done.mp hl
    obtain ⟨x, m', hx, hm', rfl⟩ := pl2rTail_cons_eq_done.mp hm
    unfold reads
    rw [ihh.1 e x he hx, iht.2.1 l' m' hl' hm']
  | compound f args hf hcell hsub ih =>
    have hvw : ∀ v w, rologGet (.compound f args) = done v → pl2rLeaf (.compound f args) = done w →
        read v = w := by
      intro v w hv hw
      obtain ⟨l, hl, rfl⟩ := (rologGet_compound_eq_done hcell).mp hv
      rw [pl2rLeaf_compound hcell] at hw
      obtain ⟨_, m, hm, rfl⟩ := pl2rLang_eq_done.mp hw
      rw [read_functionList, readArgs_rologGetArgs (fun t ht => (ih t ht).2.2) hl hm]
    refine ⟨hvw, ?_, ?_⟩
    · intro l m _ hm
      rw [pl2rTail_compound hcell] at hm
      cases hm
    · by_cases hn : (Term.compound f args).isNamed
      · obtain ⟨g, u, r, hg, hname⟩ := Term.isNamed_iff.mp hn
        obtain ⟨rfl, rfl⟩ := Term.compound.inj hg
        intro v a hv ha
        obtain ⟨l, hl, rfl⟩ := (rologGet_compound_eq_done hcell).mp hv
        obtain ⟨vu, l', hvu, hl', rfl⟩ := rologGetArgs_cons_eq_done.mp hl
        obtain ⟨vr, _, hvr, hnil, rfl⟩ := rologGetArgs_cons_eq_done.mp hl'
        cases hnil
        obtain ⟨x, s, hx, hs, _, rfl⟩ := (pl2rArg_named_iff hname).mp ha
        rw [hname, readArg_eqCall, readName_rologGet (hsub u (by simp)) hvu hs,
          (ih r (by simp)).1 vr x hvr hx]
      · exact readArg_agrees (.compound f args hf hcell hsub) (by simpa using hn) hvw

/-- Where both decoders return, `read` takes the value of `rolog_get` to that of `pl2r_leaf`. -/
theorem read_rologGet {t : Term} (h : HasAsciiNames t) {v w : SEXP} (hv : rologGet t = done v)
    (hw : pl2rLeaf t = done w) : read v = w :=
  (agree h).1 v w hv hw

/-- `f(x = [1])` -/
theorem read_rologGet_tagged :
    read (functionList (cstr ['f']) [functionList (cstr eqSign)
        [atomVector (cstr ['x']), .vec [.int [1]] []]]) =
      .lang (.sym (cstr ['f'])) [(some (cstr ['x']), .vec [.int [1]] [])] := by
  have hx : HasAsciiNames (.compound eqSign [.atom ['x'], .cons (.int 1) .nil]) :=
    .compound _ _ (by decide) (by decide)
      (by simpa using ⟨.atom _ (by decide), .cons _ _ (.int 1) .nil⟩)
  have hf : HasAsciiNames
      (.compound ['f'] [.compound eqSign [.atom ['x'], .cons (.int 1) .nil]]) :=
    .compound _ _ (by decide) (by simp [IsCell]) (by simpa using hx)
  exact read_rologGet hf rfl rfl

end Rolog
