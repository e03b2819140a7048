/-
  The parser reads canonical notation back, which is operator notation without operators
  (`Expr.ofTerm`), and makes no string that is no token. So it is what the reader of canonical
  notation was trusted to be, whatever the operators are (`plGrammar_sound`), and the goal of
  `rolog_init` reads as the one that is meant exactly for short and plain paths
  (`plGrammar_installs_iff`).
-/
import Rolog.LibraryPath
import Rolog.ParseValues

namespace Rolog

open ReadTerm

variable {ops : Operators}

/-! ## Strings -/

/-- A string of the term is a value of what was read. -/
theorem toTerm_strings (number : Text → Option Term) (hnumber : ∀ n t, number n = some t →
    t.strings = []) (t : ReadTerm) : ∀ (vars vars' : List (Option Text)) (u : Term),
    t.toTerm number vars = some (u, vars') → ∀ s ∈ u.strings, .str (wideChars s) ∈ t.values := by
  refine @ReadTerm.rec (fun t => ∀ (vars vars' : List (Option Text)) (u : Term),
      t.toTerm number vars = some (u, vars') → ∀ s ∈ u.strings, .str (wideChars s) ∈ t.values)
    (fun ts => ∀ (vars vars' : List (Option Text)) (us : List Term),
      ReadTerm.toTerms number vars ts = some (us, vars') →
        ∀ s ∈ Term.stringsList us, .str (wideChars s) ∈ valuesList ts)
    ?_ ?_ ?_ ?_ ?_ ?_ ?_ ?_ ?_ ?_ t
  · intro v vars vars' u h s hs
    have hu : u = (ReadTerm.var v vars).1 := (congrArg Prod.fst (Option.some.inj h)).symm
    rw [hu] at hs
    unfold ReadTerm.var at hs
    split at hs <;> cases hs
  · intro vars vars' u h s hs
    cases h
    cases hs
  · intro n vars vars' u h s hs
    obtain ⟨u', hu, h⟩ := Option.map_eq_some_iff.mp h
    cases h
    rw [hnumber n u hu] at hs
    cases hs
  · intro cs vars vars' u h s hs
    obtain ⟨a, ha, h⟩ := Option.map_eq_some_iff.mp h
    cases h
    rw [List.mem_singleton.mp hs, Shift.wideChars_textOf ha]
    exact Multiset.mem_singleton_self _
  · intro cs vars vars' u h s hs
    cases h
    have hnone : ∀ cs : List Nat, (plList (cs.map fun n => Term.int n)).strings = [] := by
      intro cs
      induction cs with
      | nil => rfl
      | cons c cs ih => simpa [plList, Term.cons, Term.strings, Term.stringsList] using ih
    rw [hnone] at hs
    cases hs
  · intro vars vars' u h s hs
    cases h
    cases hs
  · intro a vars vars' u h s hs
    obtain ⟨b, -, h⟩ := Option.map_eq_some_iff.mp h
    cases h
    cases hs
  · intro f args ih vars vars' u h s hs
    obtain ⟨name, -, h⟩ := Option.bind_eq_some_iff.mp h
    obtain ⟨⟨us, vars₁⟩, hargs, h⟩ := Option.bind_eq_some_iff.mp h
    cases h
    exact ih _ _ _ hargs s hs
  · intro vars vars' us h s hs
    cases h
    cases hs
  · intro t ts iht ihts vars vars' us h s hs
    obtain ⟨⟨u, vars₁⟩, hu, h⟩ := Option.bind_eq_some_iff.mp h
    obtain ⟨⟨us', vars₂⟩, hus, h⟩ := Option.bind_eq_some_iff.mp h
    cases h
    unfold Term.stringsList at hs
    rw [valuesList_cons, Multiset.mem_add]
    rcases List.mem_append.mp hs with hs | hs
    · exact .inl (iht _ _ _ hu s hs)
    · exact .inr (ihts _ _ _ hus s hs)

theorem mem_values_sum {toks : List ReadToken} {token : ReadToken}
    (h : token ∈ (toks.map ReadToken.values).sum) : token ∈ toks := by
  induction toks with
  | nil => cases h
  | cons t toks ih =>
    rw [List.map_cons, List.sum_cons, Multiset.mem_add] at h
    refine List.mem_cons.mpr (h.imp (fun h => ?_) ih)
    cases t with
    | «variable» | void | number | str | codes => exact Multiset.mem_singleton.mp h
    | _ => cases h

/-- A value of the term is a token. -/
theorem mem_of_mem_values {toks : List ReadToken} {t : ReadTerm} (h : parse ops toks = .ok t)
    {token : ReadToken} (ht : token ∈ t.values) : token ∈ toks := by
  obtain ⟨s, hrun, h⟩ := bind_eq_ok.mp h
  have hle := ParseState.run_values_le hrun
  match s with
  | .finished _ =>
    cases h
    rw [values_start, zero_add] at hle
    refine mem_values_sum (Multiset.mem_of_le hle ?_)
    rwa [values_finished]
  | .loop _ _ | .openCompound _ _ _ | .firstArgument _ _ _ => cases h

/-! ## Canonical notation -/

mutual

/-- A term in canonical notation, as operator notation without operators. -/
def Expr.ofTerm : Term → Expr
  | .atom a => .leaf (.name (wideChars a))
  | .str s => .leaf (.str (wideChars s))
  | .compound f args => .compound (wideChars f) (Expr.ofTerms args)
  | .var _ | .int _ | .float _ | .nil | .blob _ => .leaf .void
termination_by structural t => t

def Expr.ofTerms : List Term → List Expr
  | [] => []
  | t :: ts => Expr.ofTerm t :: Expr.ofTerms ts
termination_by structural ts => ts

end

theorem mem_ofTerms {ts : List Term} {e : Expr} (h : e ∈ Expr.ofTerms ts) :
    ∃ t ∈ ts, e = Expr.ofTerm t := by
  induction ts with
  | nil => cases h
  | cons t ts ih =>
    rcases List.mem_cons.mp h with rfl | h
    · exact ⟨t, List.mem_cons_self, rfl⟩
    · obtain ⟨u, hu, he⟩ := ih h
      exact ⟨u, List.mem_cons_of_mem t hu, he⟩

theorem tokens_ofTerm {isOp : Text → Bool} {t : Term} (h : t.Canonical isOp) :
    (Expr.ofTerm t).tokens = t.canonTokens := by
  induction h with
  | str s => rfl
  | atom a _ => rfl
  | compound f t ts _ _ iht ihts =>
    have hrest : ∀ us, (∀ u ∈ us, u ∈ ts) →
        Expr.commas (Expr.ofTerms us) ++ [.punct ')'] = Term.canonRest us := by
      intro us hus
      induction us with
      | nil => rfl
      | cons u us ih =>
        obtain ⟨hu, hus⟩ := List.forall_mem_cons.mp hus
        rw [Term.canonRest, ← ih hus, ← ihts u hu, ← List.append_assoc]
        rfl
    show ReadToken.functor _ :: .punct '(' :: (((Expr.ofTerm t).tokens ++
      Expr.commas (Expr.ofTerms ts)) ++ [.punct ')']) = _
    rw [List.append_assoc, hrest ts fun _ h => h, iht]
    rfl

/-- A name that is no operator. -/
theorem plain_of_isOp {a : Text} (h : ops.isOp a = false) :
    AtomName.ofName (wideChars a) = .text (wideChars a) ∧
      Expr.Plain ops (.text (wideChars a)) := by
  unfold Operators.isOp at h
  simp only [decide_eq_false_iff_not, not_or, Bool.not_eq_true, Option.isSome_eq_false_iff,
    Option.isNone_iff_eq_none] at h
  obtain ⟨hnil, hpre, hin, hpost⟩ := h
  refine ⟨if_neg fun he => hnil (wideChars_injective he), fun kind => ?_⟩
  cases kind with
  | opPrefix => exact hpre
  | opInfix => exact hin
  | opPostfix => exact hpost

theorem reads_ofTerm {t : Term} (h : t.Canonical ops.isOp) (stop : ReadToken → Bool)
    (limit : Nat) : (Expr.ofTerm t).Reads ops stop limit := by
  induction h generalizing stop limit with
  | str s => exact .leaf trivial
  | atom a ha =>
    obtain ⟨hname, hplain⟩ := plain_of_isOp ha
    refine .leaf ?_
    show Expr.Plain ops (AtomName.ofName (wideChars a))
    rw [hname]
    exact hplain
  | compound f t ts _ _ iht ihts =>
    refine .compound fun e he _ => ?_
    obtain ⟨u, hu, rfl⟩ : ∃ u ∈ t :: ts, _ := mem_ofTerms he
    rcases List.mem_cons.mp hu with rfl | hu
    · exact iht _ _
    · exact ihts u hu _ _

theorem toTerm_ofTerm (number : Text → Option Term) {t : Term} (h : t.Canonical ops.isOp)
    (vars : List (Option Text)) : (Expr.ofTerm t).term.toTerm number vars = some (t, vars) := by
  induction h generalizing vars with
  | str s =>
    show (Shift.textOf (wideChars s)).map _ = _
    rw [Shift.textOf_wideChars]
    rfl
  | atom a ha =>
    show (AtomName.ofName (wideChars a)).term.toTerm number vars = _
    rw [(plain_of_isOp ha).1]
    show (Shift.textOf (wideChars a)).map _ = _
    rw [Shift.textOf_wideChars]
    rfl
  | compound f t ts _ _ iht ihts =>
    have hargs : ∀ us, (∀ u ∈ us, u ∈ ts) → ∀ vars,
        ReadTerm.toTerms number vars (Expr.terms (Expr.ofTerms us)) = some (us, vars) := by
      intro us hus
      induction us with
      | nil => exact fun vars => rfl
      | cons u us ih =>
        intro vars
        obtain ⟨hu, hus⟩ := List.forall_mem_cons.mp hus
        show ((Expr.ofTerm u).term.toTerm number vars >>= _) = _
        rw [ihts u hu]
        show (ReadTerm.toTerms number vars (Expr.terms (Expr.ofTerms us)) >>= _) = _
        rw [ih hus]
        rfl
    show (Shift.textOf (wideChars f) >>= fun name =>
      ReadTerm.toTerms number vars ((Expr.ofTerm t).term :: Expr.terms (Expr.ofTerms ts)) >>=
        _) = _
    rw [Shift.textOf_wideChars]
    show ((ReadTerm.toTerms number vars
      ((Expr.ofTerm t).term :: Expr.terms (Expr.ofTerms ts))) >>= _) = _
    have hall : ReadTerm.toTerms number vars
        ((Expr.ofTerm t).term :: Expr.terms (Expr.ofTerms ts)) = some (t :: ts, vars) := by
      show ((Expr.ofTerm t).term.toTerm number vars >>= _) = _
      rw [iht]
      show (ReadTerm.toTerms number vars (Expr.terms (Expr.ofTerms ts)) >>= _) = _
      rw [hargs ts fun _ h => h]
      rfl
    rw [hall]
    rfl

/-! ## The reader -/

/-- What `str_number` is trusted for: it takes a part of the text, and its value is a number. -/
structure ReadsNumbers (strNumber : Text → Option (Text × Text)) (number : Text → Option Term) :
    Prop where
  takes : ∀ s n rest, strNumber s = some (n, rest) → n ≠ [] ∧ s = n ++ rest
  value : ∀ n t, number n = some t → t.strings = []

theorem digits_takes {s n rest : Text} (h : digits s = some (n, rest)) :
    n ≠ [] ∧ s = n ++ rest := by
  unfold digits at h
  split_ifs at h with hne
  cases h
  exact ⟨hne, List.takeWhile_append_dropWhile.symm⟩

theorem readsNumbers_decimal : ReadsNumbers decimalNumber decimalValue where
  takes s n rest h := by
    match s with
    | c :: s =>
      simp only [decimalNumber] at h
      split_ifs at h
      · obtain ⟨⟨m, rest'⟩, hm, h⟩ := Option.map_eq_some_iff.mp h
        cases h
        obtain ⟨-, rfl⟩ := digits_takes hm
        exact ⟨List.cons_ne_nil _ _, rfl⟩
      · exact digits_takes h
  value n t h := by
    unfold decimalValue at h
    split at h <;>
    · cases h
      rfl

/-- The parser of the reader reads canonical notation back and makes no string that is no token,
whatever the operators are. -/
theorem plGrammar_sound {strNumber : Text → Option (Text × Text)} {number : Text → Option Term}
    (h : ReadsNumbers strNumber number) (ops : Operators) :
    (plGrammar number ops strNumber).Sound where
  numbers := h.takes
  canonical t ht := by
    have hreads := ParseState.readsBehind (reads_ofTerm ht Caller.readTerm.stops maxPri)
    have hparse := ParseState.parse_whole hreads.whole
    rw [tokens_ofTerm ht] at hparse
    show ((parse ops (t.canonTokens ++ [.fullstop])).toOption >>= _) = _
    rw [hparse]
    show ((Expr.ofTerm t).term.toTerm number [] >>= _) = _
    rw [toTerm_ofTerm number ht]
    rfl
  strings toks t s ht hs := by
    obtain ⟨u, hu, ht⟩ := Option.bind_eq_some_iff.mp ht
    obtain ⟨⟨t', vars⟩, hu', ht⟩ := Option.bind_eq_some_iff.mp ht
    cases ht
    have hparse : parse ops toks = .ok u := by
      match hp : parse ops toks with
      | .ok v =>
        rw [hp] at hu
        cases hu
        rfl
      | .error e =>
        rw [hp] at hu
        cases hu
    exact mem_of_mem_values hparse (toTerm_strings number h.value u _ _ _ hu' s hs)

/-- With the parser of Prolog, the path is installed exactly when it is short and plain. Only
`library` must be no operator. -/
theorem plGrammar_installs_iff {strNumber : Text → Option (Text × Text)}
    {number : Text → Option Term} (h : ReadsNumbers strNumber number)
    (hop : ops.isOp "library".toList = false) (home : CString) :
    Installs (plGrammar number ops strNumber) home ↔
      home.bytes.length ≤ 465 ∧ IsPlainPath home.text := by
  have hsound := plGrammar_sound h ops
  constructor
  · rintro ⟨hfits, hreads⟩
    rw [initGoal_length] at hfits
    rw [initGoal_text] at hreads
    exact ⟨by omega, plain_of_reads hsound hreads⟩
  · rintro ⟨hfits, hplain⟩
    refine ⟨?_, ?_⟩
    · rw [initGoal_length]
      omega
    · rw [initGoal_text]
      exact readTerm_plain hsound hop hplain

/-- The path of a user, with the operators of `system`. -/
theorem plGrammar_installs_home :
    Installs systemGrammar (cstr "/home/r".toList) ↔
      (cstr "/home/r".toList).bytes.length ≤ 465 ∧ IsPlainPath (cstr "/home/r".toList).text :=
  plGrammar_installs_iff readsNumbers_decimal (by decide) _

end Rolog
