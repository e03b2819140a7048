/-
  What in an answer stops a decoder. `faults` lists, in the order in which `pl2r_leaf` meets
  them, the parts of a term that it cannot translate; `rologFaults` those of `rolog_get`. A
  decoder returns a value exactly when its list is empty, and otherwise ends as the first fault
  says (`pl2rLeaf_end`, `rologGet_end`).
-/
import Rolog.Decode

namespace Rolog

open Unwind Unwind.Outcome

/-- A part of a term that a decoder refuses. -/
inductive Fault where
  /-- an exception: `PlTypeError` -/
  | typeError (expected : String) (actual : Term)
  /-- a jump: the name would be empty in R -/
  | emptyName

/-- The end that a list of faults leads to. -/
def firstFault : List Fault → Cpp Unit
  | [] => done ()
  | .typeError expected actual :: _ => thrown (.typeError expected actual)
  | .emptyName :: _ => jumped .zeroLengthName

/-! ## Faults of terms -/

def intFaults (i : Int) : List Fault :=
  if -2147483648 ≤ i ∧ i < 2147483648 then [] else [.typeError "integer" (.int i)]

def installFaults (s : CString) : List Fault := if s = cEmpty then [.emptyName] else []

def atomFaults (a : Text) : List Fault :=
  match plGetChars a with
  | some s => installFaults s
  | none => [.typeError "text" (.atom a)]

/-- The left side of an argument `=(u, r)` must have a name. -/
def nameFaults : Term → List Fault
  | .atom a => installFaults (plAtomChars a)
  | .compound f _ => installFaults (plAtomChars f)
  | t => [.typeError "compound" t]

mutual

/-- The faults of `pl2r_leaf`. -/
def faults : Term → List Fault
  | .int i => intFaults i
  | .atom a => atomFaults a
  | .compound f [h, t] =>
    if f = dot then faults h ++ tailFaults t
    else installFaults (plAtomChars f) ++ argFaults [h, t]
  | .compound f args => installFaults (plAtomChars f) ++ argFaults args
  | .var _ | .float _ | .str _ | .nil | .blob _ => []
termination_by structural t => t

/-- The faults of a list tail: a list must be proper. -/
def tailFaults : Term → List Fault
  | .nil => []
  | .compound f [h, t] =>
    if f = dot then faults h ++ tailFaults t else [.typeError "list" (.compound f [h, t])]
  | t => [.typeError "list" t]
termination_by structural t => t

def argFaults : List Term → List Fault
  | [] => []
  | .compound f [u, r] :: ts =>
    if plAtomChars f = cstr eqSign then faults r ++ nameFaults u ++ argFaults ts
    else faults (.compound f [u, r]) ++ argFaults ts
  | t :: ts => faults t ++ argFaults ts
termination_by structural ts => ts

end

mutual

/-- The faults of `rolog_get`: integers only. -/
def rologFaults : Term → List Fault
  | .int i => intFaults i
  | .compound f [h, t] =>
    if f = dot then rologFaults h ++ rologTailFaults t else rologArgFaults [h, t]
  | .compound _ args => rologArgFaults args
  | .var _ | .float _ | .str _ | .atom _ | .nil | .blob _ => []
termination_by structural t => t

/-- A list ends at any tail that is no list cell. -/
def rologTailFaults : Term → List Fault
  | .compound f [h, t] => if f = dot then rologFaults h ++ rologTailFaults t else []
  | _ => []
termination_by structural t => t

def rologArgFaults : List Term → List Fault
  | [] => []
  | t :: ts => rologFaults t ++ rologArgFaults ts
termination_by structural ts => ts

end

/-! ## One equation for each kind of term -/

/-- The faults of one argument. -/
def argFault : Term → List Fault
  | .compound f [u, r] =>
    if plAtomChars f = cstr eqSign then faults r ++ nameFaults u else faults (.compound f [u, r])
  | t => faults t

theorem faults_cons (h t : Term) : faults (.cons h t) = faults h ++ tailFaults t := by
  simp only [Term.cons, faults, if_true]

theorem faults_compound {f : Text} {args : List Term} (h : ¬ IsCell f args) :
    faults (.compound f args) = installFaults (plAtomChars f) ++ argFaults args := by
  match args with
  | [] | [_] | _ :: _ :: _ :: _ => rfl
  | [a, b] =>
    have hf : f ≠ dot := fun e => h ⟨e, rfl⟩
    simp only [faults, if_neg hf]

theorem tailFaults_cons (h t : Term) : tailFaults (.cons h t) = faults h ++ tailFaults t := by
  simp only [Term.cons, tailFaults, if_true]

theorem tailFaults_compound {f : Text} {args : List Term} (h : ¬ IsCell f args) :
    tailFaults (.compound f args) = [.typeError "list" (.compound f args)] := by
  match args with
  | [] | [_] | _ :: _ :: _ :: _ => rfl
  | [a, b] =>
    have hf : f ≠ dot := fun e => h ⟨e, rfl⟩
    simp only [tailFaults, if_neg hf]

theorem argFaults_cons (t : Term) (ts : List Term) :
    argFaults (t :: ts) = argFault t ++ argFaults ts := by
  match t with
  | .var _ | .int _ | .float _ | .str _ | .atom _ | .nil | .blob _ => rfl
  | .compound _ [] | .compound _ [_] | .compound _ (_ :: _ :: _ :: _) => rfl
  | .compound f [u, r] =>
    by_cases hf : plAtomChars f = cstr eqSign <;> simp [argFaults, argFault, hf]

theorem argFault_unnamed {t : Term} (h : t.isNamed = false) : argFault t = faults t := by
  match t with
  | .var _ | .int _ | .float _ | .str _ | .atom _ | .nil | .blob _ => rfl
  | .compound _ [] | .compound _ [_] | .compound _ (_ :: _ :: _ :: _) => rfl
  | .compound f [u, r] =>
    have hf : plAtomChars f ≠ cstr eqSign := by simpa [Term.isNamed] using h
    simp only [argFault, if_neg hf]

theorem rologFaults_cons (h t : Term) :
    rologFaults (.cons h t) = rologFaults h ++ rologTailFaults t := by
  simp only [Term.cons, rologFaults, if_true]

theorem rologFaults_compound {f : Text} {args : List Term} (h : ¬ IsCell f args) :
    rologFaults (.compound f args) = rologArgFaults args := by
  match args with
  | [] | [_] | _ :: _ :: _ :: _ => rfl
  | [a, b] =>
    have hf : f ≠ dot := fun e => h ⟨e, rfl⟩
    simp only [rologFaults, if_neg hf]

theorem rologTailFaults_cons (h t : Term) :
    rologTailFaults (.cons h t) = rologFaults h ++ rologTailFaults t := by
  simp only [Term.cons, rologTailFaults, if_true]

theorem rologTailFaults_compound {f : Text} {args : List Term} (h : ¬ IsCell f args) :
    rologTailFaults (.compound f args) = [] := by
  match args with
  | [] | [_] | _ :: _ :: _ :: _ => rfl
  | [a, b] =>
    have hf : f ≠ dot := fun e => h ⟨e, rfl⟩
    simp only [rologTailFaults, if_neg hf]

/-! ## The first fault decides -/

/-- The computation ends as the faults say. -/
def EndsBy {α : Type} (x : Cpp α) (fs : List Fault) : Prop :=
  (x >>= fun _ => done ()) = firstFault fs

theorem endsBy_done {α : Type} (a : α) : EndsBy (done a : Cpp α) [] := rfl

/-- A sequence meets the faults of its first part, then those of its second. -/
theorem EndsBy.bind {α β : Type} {x : Cpp α} {f : α → Cpp β} {fs gs : List Fault}
    (hx : EndsBy x fs) (hf : ∀ a, x = done a → EndsBy (f a) gs) : EndsBy (x >>= f) (fs ++ gs) := by
  match fs, x with
  | [], done a => exact hf a rfl
  | .typeError _ _ :: _, thrown _ => exact hx
  | .emptyName :: _, jumped _ => exact hx
  | [], thrown _ | [], jumped _ | [], undefined => nomatch hx
  | .typeError _ _ :: _, done _ | .typeError _ _ :: _, jumped _ | .typeError _ _ :: _, undefined =>
    nomatch hx
  | .emptyName :: _, done _ | .emptyName :: _, thrown _ | .emptyName :: _, undefined => nomatch hx

/-- A pure step after the last fault. -/
theorem EndsBy.map {α β : Type} {x : Cpp α} {f : α → β} {fs : List Fault} (hx : EndsBy x fs) :
    EndsBy (do
      let a ← x
      done (f a)) fs := by
  have h := hx.bind fun a _ => endsBy_done (f a)
  rwa [List.append_nil] at h

theorem EndsBy.returns {α : Type} {x : Cpp α} (h : EndsBy x []) : ∃ a, x = done a := by
  match x with
  | done a => exact ⟨a, rfl⟩
  | thrown _ | jumped _ | undefined => nomatch h

theorem EndsBy.throws {α : Type} {x : Cpp α} {expected : String} {actual : Term} {fs : List Fault}
    (h : EndsBy x (.typeError expected actual :: fs)) :
    x = thrown (.typeError expected actual) := by
  match x with
  | thrown _ =>
    unfold EndsBy at h
    cases h
    rfl
  | done _ | jumped _ | undefined => nomatch h

theorem EndsBy.jumps {α : Type} {x : Cpp α} {fs : List Fault} (h : EndsBy x (.emptyName :: fs)) :
    x = jumped .zeroLengthName := by
  match x with
  | jumped .zeroLengthName => rfl
  | done _ | thrown _ | undefined => nomatch h

theorem EndsBy.isDone_iff {α : Type} {x : Cpp α} {fs : List Fault} (h : EndsBy x fs) :
    x.isDone = true ↔ fs = [] := by
  match fs with
  | [] =>
    obtain ⟨a, rfl⟩ := h.returns
    exact ⟨fun _ => rfl, fun _ => rfl⟩
  | .typeError _ _ :: _ =>
    rw [h.throws]
    exact ⟨nofun, nofun⟩
  | .emptyName :: _ =>
    rw [h.jumps]
    exact ⟨nofun, nofun⟩

theorem pl2rInt_end (i : Int) : EndsBy (pl2rInt i) (intFaults i) := by
  by_cases h : -2147483648 ≤ i ∧ i < 2147483648
  · unfold pl2rInt intFaults
    rw [if_pos h, if_pos h]
    rfl
  · unfold pl2rInt intFaults
    rw [if_neg h, if_neg h]
    rfl

theorem install_end (s : CString) : EndsBy (install s) (installFaults s) := by
  by_cases h : s = cEmpty
  · unfold install installFaults
    rw [if_pos h, if_pos h]
    rfl
  · unfold install installFaults
    rw [if_neg h, if_neg h]
    rfl

theorem leafSymbol_end (a : Text) : EndsBy (Term.leafSymbol a) (atomFaults a) := by
  unfold Term.leafSymbol atomChars atomFaults
  cases plGetChars a with
  | none => rfl
  | some s => exact (install_end s).map

theorem named_end (u : Term) (x : SEXP) : EndsBy (named u x) (nameFaults u) := by
  cases u with
  | atom a => exact (install_end _).map
  | compound f args => exact (install_end _).map
  | var | int | float | str | nil | blob => rfl

theorem pl2rArg_end {t : Term} (hn : t.isNamed = false) (h : EndsBy (pl2rLeaf t) (faults t)) :
    EndsBy (pl2rArg t) (argFault t) := by
  rw [pl2rArg_unnamed hn, argFault_unnamed hn]
  exact h.map

theorem pl2rArgs_end {ts : List Term} (h : ∀ t ∈ ts, EndsBy (pl2rArg t) (argFault t)) :
    EndsBy (pl2rArgs ts) (argFaults ts) := by
  induction ts with
  | nil => rfl
  | cons t ts ih =>
    rw [pl2rArgs_cons, argFaults_cons]
    exact (h t List.mem_cons_self).bind fun a _ =>
      (ih fun u hu => h u (List.mem_cons_of_mem t hu)).map

/-- `pl2r_leaf` on a term as a value, as the tail of a list and as an argument. -/
theorem pl2r_end (t : Term) : EndsBy (pl2rLeaf t) (faults t) ∧
    EndsBy (pl2rTail t) (tailFaults t) ∧ EndsBy (pl2rArg t) (argFault t) := by
  induction t using Term.inductCell with
  | var | float | str | nil | blob => exact ⟨rfl, rfl, rfl⟩
  | int i => exact ⟨pl2rInt_end i, rfl, pl2rArg_end rfl (pl2rInt_end i)⟩
  | atom a => exact ⟨leafSymbol_end a, rfl, pl2rArg_end rfl (leafSymbol_end a)⟩
  | cons h t ihh iht =>
    have hv : EndsBy (pl2rLeaf (.cons h t)) (faults (.cons h t)) := by
      rw [pl2rLeaf_cons, faults_cons]
      exact ihh.1.bind fun e _ => iht.2.1.map
    refine ⟨hv, ?_, pl2rArg_end rfl hv⟩
    rw [pl2rTail_cons, tailFaults_cons]
    exact ihh.1.bind fun e _ => iht.2.1.map
  | compound f args hcell ih =>
    have hv : EndsBy (pl2rLeaf (.compound f args)) (faults (.compound f args)) := by
      rw [pl2rLeaf_compound hcell, pl2rLang, faults_compound hcell]
      exact (install_end _).bind fun s _ => (pl2rArgs_end fun t ht => (ih t ht).2.2).map
    refine ⟨hv, ?_, ?_⟩
    · rw [pl2rTail_compound hcell, tailFaults_compound hcell]
      rfl
    · by_cases hn : (Term.compound f args).isNamed
      · obtain ⟨g, u, r, hg, hname⟩ := Term.isNamed_iff.mp hn
        obtain ⟨rfl, rfl⟩ := Term.compound.inj hg
        rw [pl2rArg_named hname, argFault, if_pos hname]
        exact (ih r (by simp)).1.bind fun x _ => named_end u x
      · exact pl2rArg_end (by simpa using hn) hv

theorem pl2rLeaf_end (t : Term) : EndsBy (pl2rLeaf t) (faults t) := (pl2r_end t).1

theorem rologGetArgs_end {ts : List Term} (h : ∀ t ∈ ts, EndsBy (rologGet t) (rologFaults t)) :
    EndsBy (rologGetArgs ts) (rologArgFaults ts) := by
  induction ts with
  | nil => rfl
  | cons t ts ih =>
    exact (h t List.mem_cons_self).bind fun x _ =>
      (ih fun u hu => h u (List.mem_cons_of_mem t hu)).map

theorem rolog_end (t : Term) :
    EndsBy (rologGet t) (rologFaults t) ∧ EndsBy (rologGetTail t) (rologTailFaults t) := by
  induction t using Term.inductCell with
  | var | float | str | atom | nil | blob => exact ⟨rfl, rfl⟩
  | int i => exact ⟨pl2rInt_end i, rfl⟩
  | cons h t ihh iht =>
    rw [rologGet_cons, rologGetTail_cons, rologFaults_cons, rologTailFaults_cons]
    exact ⟨ihh.1.bind fun e _ => iht.2.map, ihh.1.bind fun e _ => iht.2.map⟩
  | compound f args hcell ih =>
    rw [rologGet_compound hcell, rologGetTail_compound hcell, rologFaults_compound hcell,
      rologTailFaults_compound hcell]
    exact ⟨(rologGetArgs_end fun t ht => (ih t ht).1).map, rfl⟩

theorem rologGet_end (t : Term) : EndsBy (rologGet t) (rologFaults t) := (rolog_end t).1

/-! ## `rolog_get` refuses integers only -/

theorem mem_rologArgFaults {ts : List Term} {fault : Fault} (h : fault ∈ rologArgFaults ts) :
    ∃ t ∈ ts, fault ∈ rologFaults t := by
  induction ts with
  | nil => nomatch h
  | cons t ts ih =>
    unfold rologArgFaults at h
    rw [List.mem_append] at h
    rcases h with h | h
    · exact ⟨t, List.mem_cons_self, h⟩
    · obtain ⟨u, hu, hf⟩ := ih h
      exact ⟨u, List.mem_cons_of_mem t hu, hf⟩

theorem mem_intFaults {i : Int} {fault : Fault} (h : fault ∈ intFaults i) :
    fault = .typeError "integer" (.int i) := by
  by_cases hi : -2147483648 ≤ i ∧ i < 2147483648
  · unfold intFaults at h
    rw [if_pos hi] at h
    nomatch h
  · unfold intFaults at h
    rw [if_neg hi] at h
    exact List.mem_singleton.mp h

theorem mem_rologFaults (t : Term) :
    (∀ fault ∈ rologFaults t, ∃ i, fault = .typeError "integer" (.int i)) ∧
    (∀ fault ∈ rologTailFaults t, ∃ i, fault = .typeError "integer" (.int i)) := by
  induction t using Term.inductCell with
  | var | float | str | atom | nil | blob => exact ⟨nofun, nofun⟩
  | int i => exact ⟨fun _ h => ⟨i, mem_intFaults h⟩, nofun⟩
  | cons h t ihh iht =>
    rw [rologFaults_cons, rologTailFaults_cons]
    have both : ∀ fault ∈ rologFaults h ++ rologTailFaults t,
        ∃ i, fault = .typeError "integer" (.int i) := fun fault hf =>
      (List.mem_append.mp hf).elim (ihh.1 fault) (iht.2 fault)
    exact ⟨both, both⟩
  | compound f args hcell ih =>
    rw [rologFaults_compound hcell, rologTailFaults_compound hcell]
    refine ⟨fun fault hf => ?_, nofun⟩
    obtain ⟨t, ht, hf⟩ := mem_rologArgFaults hf
    exact (ih t ht).1 fault hf

theorem rologGet_ne_jumped (t : Term) (r : RError) : rologGet t ≠ jumped r := by
  intro h
  have hend := rologGet_end t
  match hf : rologFaults t with
  | [] =>
    rw [hf] at hend
    obtain ⟨a, ha⟩ := hend.returns
    rw [ha] at h
    cases h
  | fault :: fs =>
    obtain ⟨i, hi⟩ := (mem_rologFaults t).1 fault (hf ▸ List.mem_cons_self)
    rw [hf, hi] at hend
    rw [hend.throws] at h
    cases h

end Rolog
