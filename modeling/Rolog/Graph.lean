/-
  The decoders on term graphs. An answer may share subterms and may be cyclic, so it is a graph
  of nodes; the decoders become recursive procedures on nodes that need not terminate. On the
  finite terms of `Rolog.Decode` they compute the same (`pl2rBody_denotes`,
  `rologBody_denotes`).

  A type error is reported by the expected type only: its culprit may be cyclic too.
-/
import Mathlib.Data.Finite.Sum
import Rolog.Decode
import Rolog.Lib.Recursion

namespace Rolog

open Unwind Unwind.Outcome Recursion Relation

/-! ## Term graphs -/

/-- A term whose arguments are other nodes. -/
inductive Node (ι : Type) where
  | var (id : Nat)
  | int (i : Int)
  | float (bits : UInt64)
  | str (s : Text)
  | atom (name : Text)
  | nil
  | blob (id : Nat)
  | compound (name : Text) (args : List ι)

abbrev Graph (ι : Type) := ι → Node ι

/-- The procedures: a node is translated as a value, or as the tail of a list. -/
inductive Point (ι : Type) where
  | value (i : ι)
  | tail (i : ι)

namespace Point

variable {ι : Type}

abbrev Result : Point ι → Type
  | value _ => SEXP
  | tail _ => List SEXP

def node : Point ι → ι
  | value i => i
  | tail i => i

instance [Finite ι] : Finite (Point ι) := by
  refine Finite.of_injective (β := ι ⊕ ι) (fun | value i => .inl i | tail i => .inr i) ?_
  rintro (i | i) (j | j) <;> simp

end Point

/-- A decoder on the nodes `ι`. -/
abbrev Decoder (ι : Type) (α : Type) := Prog String RError (Point.Result (ι := ι)) α

/-- The type that a `PlTypeError` expects. -/
def Thrown.expected : Thrown → String
  | .typeError expected _ => expected
  | _ => ""

variable {ι : Type}

/-- A conversion that calls nothing. -/
def convert {α : Type} (x : Cpp α) : Decoder ι α := .stop (x.mapThrown Thrown.expected)

def decode (i : ι) : Decoder ι SEXP := Prog.invoke (Point.value i)

def decodeTail (i : ι) : Decoder ι (List SEXP) := Prog.invoke (Point.tail i)

/-! ## `pl2r_leaf` -/

/-- `PlTerm::name` -/
def Node.name : Node ι → Decoder ι CString
  | .atom a => pure (plAtomChars a)
  | .compound f _ => pure (plAtomChars f)
  | _ => .stop (thrown "compound")

/-- `Named(u.name()) = x` -/
def Node.named (u : Node ι) (x : SEXP) : Decoder ι (Option CString × SEXP) := do
  let argname ← u.name
  let argname ← convert (install argname)
  pure (some argname, x)

section

variable (g : Graph ι)

/-- One round of `pl2r_lang`. -/
def pl2rArgNode (a : ι) : Decoder ι (Option CString × SEXP) :=
  match g a with
  | .compound f [u, r] =>
    if plAtomChars f = cstr eqSign then do
      let x ← decode r
      (g u).named x
    else do
      let x ← decode a
      pure (none, x)
  | _ => do
    let x ← decode a
    pure (none, x)

def pl2rArgsNode : List ι → Decoder ι (List (Option CString × SEXP))
  | [] => pure []
  | a :: as => do
    let x ← pl2rArgNode g a
    let l ← pl2rArgsNode as
    pure (x :: l)

/-- `pl2r_lang` -/
def pl2rLangNode (f : Text) (args : List ι) : Decoder ι SEXP := do
  let pred ← convert (install (plAtomChars f))
  let l ← pl2rArgsNode g args
  pure (.lang (.sym pred) l)

/-- `pl2r_leaf`, and the loop of `pl2r_list` on tails. -/
def pl2rBody : (p : Point ι) → Decoder ι p.Result
  | .value i =>
    match g i with
    | .int k => convert (pl2rInt k)
    | .float b => pure (leafReal b)
    | .str s => pure (pl2rString s)
    | .atom a => convert (Term.leafSymbol a)
    | .nil => pure (.vec [] [])
    | .compound f [h, t] =>
      if f = dot then do
        let e ← decode h
        let l ← decodeTail t
        pure (.vec (e :: l) [])
      else pl2rLangNode g f [h, t]
    | .compound f args => pl2rLangNode g f args
    | .var _ | .blob _ => pure Term.leafNa
  | .tail i =>
    match g i with
    | .nil => pure []
    | .compound f [h, t] =>
      if f = dot then do
        let e ← decode h
        let l ← decodeTail t
        pure (e :: l)
      else .stop (thrown "list")
    | _ => .stop (thrown "list")

/-! ## `rolog_get` -/

def rologArgsNode : List ι → Decoder ι (List SEXP)
  | [] => pure []
  | a :: as => do
    let x ← decode a
    let l ← rologArgsNode as
    pure (x :: l)

/-- The compound branch of `rolog_get`. -/
def rologFunctionNode (f : Text) (args : List ι) : Decoder ι SEXP := do
  let l ← rologArgsNode args
  pure (functionList (plAtomChars f) l)

/-- `rolog_get`, and its `PL_get_list` loop on tails. -/
def rologBody : (p : Point ι) → Decoder ι p.Result
  | .value i =>
    match g i with
    | .int k => convert (pl2rInt k)
    | .float b => pure (leafReal b)
    | .str s => pure (pl2rString s)
    | .atom a => pure (atomVector (wideToNative a))
    | .nil => pure (.vec [] [])
    | .compound f [h, t] =>
      if f = dot then do
        let e ← decode h
        let l ← decodeTail t
        pure (.vec (e :: l) [])
      else rologFunctionNode f [h, t]
    | .compound f args => rologFunctionNode f args
    | .var _ | .blob _ => pure (.real [])
  | .tail i =>
    match g i with
    | .compound f [h, t] =>
      if f = dot then do
        let e ← decode h
        let l ← decodeTail t
        pure (e :: l)
      else pure []
    | _ => pure []

end

/-! ## Finite terms -/

section

variable (g : Graph ι)

mutual

/-- The graph at a node unfolds to the finite term. -/
def Denotes : ι → Term → Prop
  | i, .compound f ts => ∃ js, g i = .compound f js ∧ DenotesAll js ts
  | i, .var n => g i = .var n
  | i, .int k => g i = .int k
  | i, .float b => g i = .float b
  | i, .str s => g i = .str s
  | i, .atom a => g i = .atom a
  | i, .nil => g i = .nil
  | i, .blob n => g i = .blob n
termination_by structural _ t => t

def DenotesAll : List ι → List Term → Prop
  | [], [] => True
  | j :: js, t :: ts => Denotes j t ∧ DenotesAll js ts
  | [], _ :: _ => False
  | _ :: _, [] => False
termination_by structural _ ts => ts

end

variable {g}

theorem denotesAll_nil {js : List ι} (h : DenotesAll g js []) : js = [] := by
  cases js with
  | nil => rfl
  | cons j js => nomatch h

theorem denotesAll_cons {js : List ι} {t : Term} {ts : List Term}
    (h : DenotesAll g js (t :: ts)) :
    ∃ j js', js = j :: js' ∧ Denotes g j t ∧ DenotesAll g js' ts := by
  cases js with
  | nil => nomatch h
  | cons j js => exact ⟨j, js, rfl, h.1, h.2⟩

theorem denotesAll_length {js : List ι} {ts : List Term} (h : DenotesAll g js ts) :
    js.length = ts.length := by
  induction ts generalizing js with
  | nil =>
    rw [denotesAll_nil h]
    rfl
  | cons t ts ih =>
    obtain ⟨j, js', rfl, _, hts⟩ := denotesAll_cons h
    rw [List.length_cons, List.length_cons, ih hts]

theorem denotes_cons {i : ι} {h t : Term} (hd : Denotes g i (.cons h t)) :
    ∃ a b, g i = .compound dot [a, b] ∧ Denotes g a h ∧ Denotes g b t := by
  obtain ⟨js, hi, hjs⟩ := hd
  obtain ⟨a, js, rfl, ha, hjs⟩ := denotesAll_cons hjs
  obtain ⟨b, js, rfl, hb, hjs⟩ := denotesAll_cons hjs
  obtain rfl := denotesAll_nil hjs
  exact ⟨a, b, hi, ha, hb⟩

theorem not_isCell_denotes {f : Text} {js : List ι} {ts : List Term} (h : DenotesAll g js ts)
    (hc : ¬ IsCell f ts) : ¬ IsCell f js :=
  fun e => hc ⟨e.1, (denotesAll_length h).symm.trans e.2⟩

/-! ## The cases of the procedures -/

variable {i : ι} {f : Text} {js : List ι}

theorem pl2rBody_cell {h t : ι} (hi : g i = .compound dot [h, t]) :
    pl2rBody g (.value i) = (do
      let e ← decode h
      let l ← decodeTail t
      pure (.vec (e :: l) [])) := by
  simp only [pl2rBody, hi, if_true]

theorem pl2rBody_compound (hi : g i = .compound f js) (hc : ¬ IsCell f js) :
    pl2rBody g (.value i) = pl2rLangNode g f js := by
  match js with
  | [] | [_] | _ :: _ :: _ :: _ => simp only [pl2rBody, hi]
  | [a, b] =>
    have hf : f ≠ dot := fun e => hc ⟨e, rfl⟩
    simp only [pl2rBody, hi, if_neg hf]

theorem pl2rBody_tail_cell {h t : ι} (hi : g i = .compound dot [h, t]) :
    pl2rBody g (.tail i) = (do
      let e ← decode h
      let l ← decodeTail t
      pure (e :: l)) := by
  simp only [pl2rBody, hi, if_true]

theorem pl2rBody_tail_compound (hi : g i = .compound f js) (hc : ¬ IsCell f js) :
    pl2rBody g (.tail i) = .stop (thrown "list") := by
  match js with
  | [] | [_] | _ :: _ :: _ :: _ => simp only [pl2rBody, hi]
  | [a, b] =>
    have hf : f ≠ dot := fun e => hc ⟨e, rfl⟩
    simp only [pl2rBody, hi, if_neg hf]

theorem rologBody_cell {h t : ι} (hi : g i = .compound dot [h, t]) :
    rologBody g (.value i) = (do
      let e ← decode h
      let l ← decodeTail t
      pure (.vec (e :: l) [])) := by
  simp only [rologBody, hi, if_true]

theorem rologBody_compound (hi : g i = .compound f js) (hc : ¬ IsCell f js) :
    rologBody g (.value i) = rologFunctionNode f js := by
  match js with
  | [] | [_] | _ :: _ :: _ :: _ => simp only [rologBody, hi]
  | [a, b] =>
    have hf : f ≠ dot := fun e => hc ⟨e, rfl⟩
    simp only [rologBody, hi, if_neg hf]

theorem rologBody_tail_cell {h t : ι} (hi : g i = .compound dot [h, t]) :
    rologBody g (.tail i) = (do
      let e ← decode h
      let l ← decodeTail t
      pure (e :: l)) := by
  simp only [rologBody, hi, if_true]

theorem rologBody_tail_compound (hi : g i = .compound f js) (hc : ¬ IsCell f js) :
    rologBody g (.tail i) = pure [] := by
  match js with
  | [] | [_] | _ :: _ :: _ :: _ => simp only [rologBody, hi]
  | [a, b] =>
    have hf : f ≠ dot := fun e => hc ⟨e, rfl⟩
    simp only [rologBody, hi, if_neg hf]

end

/-! ## On finite terms the procedures compute what the decoders compute -/

section

variable {g : Graph ι}

/-- The outcome on the graph: without the culprit of a type error. -/
def onGraph {α : Type} (x : Cpp α) : Outcome String RError α := x.mapThrown Thrown.expected

theorem onGraph_bind {α β : Type} (x : Cpp α) (k : α → Cpp β) :
    onGraph (x >>= k) = onGraph x >>= fun a => onGraph (k a) := mapThrown_bind _ x k

theorem ends_convert {α : Type} {body : (p : Point ι) → Decoder ι p.Result} (x : Cpp α) :
    Ends body (convert x) (onGraph x) := ends_stop body _

theorem ends_named {body : (p : Point ι) → Decoder ι p.Result} {i : ι} {u : Term}
    (h : Denotes g i u) (x : SEXP) : Ends body ((g i).named x) (onGraph (named u x)) := by
  have hname : Ends body (g i).name (onGraph u.name) := by
    cases u with
    | compound f ts =>
      obtain ⟨js, hi, _⟩ := h
      rw [hi]
      exact ends_stop body _
    | var | int | float | str | atom | nil | blob =>
      rw [show g i = _ from h]
      exact ends_stop body _
  unfold named
  rw [onGraph_bind]
  refine ends_bind body hname fun s _ => ?_
  rw [onGraph_bind]
  exact ends_bind body (ends_convert _) fun s _ => ends_stop body _

/-- The two steps of a list, head and tail, under any rest. -/
theorem ends_cell {α : Type} {body : (p : Point ι) → Decoder ι p.Result} {a b : ι} {x : Cpp SEXP}
    {y : Cpp (List SEXP)} (k : SEXP → List SEXP → α)
    (hx : Ends body (body (.value a)) (onGraph x)) (hy : Ends body (body (.tail b)) (onGraph y)) :
    Ends body
      (do
        let e ← decode a
        let l ← decodeTail b
        pure (k e l))
      (onGraph (do
        let e ← x
        let l ← y
        done (k e l))) := by
  rw [onGraph_bind]
  refine ends_bind body (ends_invoke body hx) fun e _ => ?_
  rw [onGraph_bind]
  exact ends_bind body (ends_invoke body hy) fun l _ => ends_stop body _

/-- An argument that names itself by nothing is decoded as a value. -/
theorem ends_pl2rArgNode_unnamed {i : ι} {t : Term} (hd : Denotes g i t) (hn : t.isNamed = false)
    (h : Ends (pl2rBody g) (pl2rBody g (.value i)) (onGraph (pl2rLeaf t))) :
    Ends (pl2rBody g) (pl2rArgNode g i) (onGraph (pl2rArg t)) := by
  have hbody : pl2rArgNode g i = (do
      let x ← decode i
      pure (none, x)) := by
    cases t with
    | compound f ts =>
      obtain ⟨js, hi, hjs⟩ := hd
      match js, ts, denotesAll_length hjs with
      | [], [], _ | [_], [_], _ | _ :: _ :: _ :: _, _ :: _ :: _ :: _, _ =>
        simp only [pl2rArgNode, hi]
      | [_, _], [_, _], _ =>
        have hf : plAtomChars f ≠ cstr eqSign := by simpa [Term.isNamed] using hn
        simp only [pl2rArgNode, hi, if_neg hf]
    | var | int | float | str | atom | nil | blob =>
      simp only [pl2rArgNode, show g i = _ from hd]
  rw [hbody, pl2rArg_unnamed hn, onGraph_bind]
  exact ends_bind _ (ends_invoke _ h) fun x _ => ends_stop _ _

theorem ends_pl2rArgsNode {js : List ι} {ts : List Term} (hd : DenotesAll g js ts)
    (h : ∀ t ∈ ts, ∀ j, Denotes g j t →
      Ends (pl2rBody g) (pl2rArgNode g j) (onGraph (pl2rArg t))) :
    Ends (pl2rBody g) (pl2rArgsNode g js) (onGraph (pl2rArgs ts)) := by
  induction ts generalizing js with
  | nil =>
    obtain rfl := denotesAll_nil hd
    exact ends_stop _ _
  | cons t ts ih =>
    obtain ⟨j, js, rfl, hj, hjs⟩ := denotesAll_cons hd
    rw [pl2rArgs_cons, onGraph_bind]
    refine ends_bind _ (h t List.mem_cons_self j hj) fun a _ => ?_
    rw [onGraph_bind]
    exact ends_bind _ (ih hjs fun u hu => h u (List.mem_cons_of_mem t hu)) fun l _ =>
      ends_stop _ _

/-- `pl2r_leaf` on a graph that unfolds to `t`: as a value, a tail and an argument. -/
theorem pl2rBody_denotes (t : Term) : ∀ {i : ι}, Denotes g i t →
    Ends (pl2rBody g) (pl2rBody g (.value i)) (onGraph (pl2rLeaf t)) ∧
    Ends (pl2rBody g) (pl2rBody g (.tail i)) (onGraph (pl2rTail t)) ∧
    Ends (pl2rBody g) (pl2rArgNode g i) (onGraph (pl2rArg t)) := by
  have atomic {i : ι} {t : Term} (hd : Denotes g i t) (hn : t.isNamed = false)
      (hv : Ends (pl2rBody g) (pl2rBody g (.value i)) (onGraph (pl2rLeaf t)))
      (ht : pl2rBody g (.tail i) = .stop (onGraph (pl2rTail t))) :
      Ends (pl2rBody g) (pl2rBody g (.value i)) (onGraph (pl2rLeaf t)) ∧
      Ends (pl2rBody g) (pl2rBody g (.tail i)) (onGraph (pl2rTail t)) ∧
      Ends (pl2rBody g) (pl2rArgNode g i) (onGraph (pl2rArg t)) :=
    ⟨hv, ht ▸ ends_stop _ _, ends_pl2rArgNode_unnamed hd hn hv⟩
  induction t using Term.inductCell with
  | var | int | float | str | atom | nil | blob =>
    intro i hd
    have hi : g i = _ := hd
    refine atomic hd rfl ?_ ?_
    · simp only [pl2rBody, hi]
      exact ends_stop _ _
    · simp only [pl2rBody, hi]
      rfl
  | cons h t ihh iht =>
    intro i hd
    obtain ⟨a, b, hi, ha, hb⟩ := denotes_cons hd
    have hv : Ends (pl2rBody g) (pl2rBody g (.value i)) (onGraph (pl2rLeaf (.cons h t))) := by
      rw [pl2rBody_cell hi, pl2rLeaf_cons]
      exact ends_cell _ (ihh ha).1 (iht hb).2.1
    refine ⟨hv, ?_, ends_pl2rArgNode_unnamed hd rfl hv⟩
    rw [pl2rBody_tail_cell hi, pl2rTail_cons]
    exact ends_cell _ (ihh ha).1 (iht hb).2.1
  | compound f args hcell ih =>
    intro i hd
    obtain ⟨js, hi, hjs⟩ := hd
    have hc := not_isCell_denotes hjs hcell
    have hv : Ends (pl2rBody g) (pl2rBody g (.value i))
        (onGraph (pl2rLeaf (.compound f args))) := by
      rw [pl2rBody_compound hi hc, pl2rLeaf_compound hcell, pl2rLang, onGraph_bind]
      refine ends_bind _ (ends_convert _) fun s _ => ?_
      rw [onGraph_bind]
      exact ends_bind _ (ends_pl2rArgsNode hjs fun t ht j hj => (ih t ht hj).2.2) fun l _ =>
        ends_stop _ _
    refine ⟨hv, ?_, ?_⟩
    · rw [pl2rBody_tail_compound hi hc, pl2rTail_compound hcell]
      exact ends_stop _ _
    · by_cases hn : (Term.compound f args).isNamed
      · obtain ⟨f', u, r, hf, hname⟩ := Term.isNamed_iff.mp hn
        obtain ⟨rfl, rfl⟩ := Term.compound.inj hf
        obtain ⟨a, js, rfl, ha, hjs⟩ := denotesAll_cons hjs
        obtain ⟨b, js, rfl, hb, hjs⟩ := denotesAll_cons hjs
        obtain rfl := denotesAll_nil hjs
        have hbody : pl2rArgNode g i = (do
            let x ← decode b
            (g a).named x) := by
          simp only [pl2rArgNode, hi, if_pos hname]
        rw [hbody, pl2rArg_named hname, onGraph_bind]
        exact ends_bind _ (ends_invoke _ (ih r (by simp) hb).1) fun x _ => ends_named ha x
      · exact ends_pl2rArgNode_unnamed ⟨js, hi, hjs⟩ (by simpa using hn) hv

theorem ends_rologArgsNode {js : List ι} {ts : List Term} (hd : DenotesAll g js ts)
    (h : ∀ t ∈ ts, ∀ j, Denotes g j t →
      Ends (rologBody g) (rologBody g (.value j)) (onGraph (rologGet t))) :
    Ends (rologBody g) (rologArgsNode js) (onGraph (rologGetArgs ts)) := by
  induction ts generalizing js with
  | nil =>
    obtain rfl := denotesAll_nil hd
    exact ends_stop _ _
  | cons t ts ih =>
    obtain ⟨j, js, rfl, hj, hjs⟩ := denotesAll_cons hd
    unfold rologGetArgs
    rw [onGraph_bind]
    refine ends_bind _ (ends_invoke _ (h t List.mem_cons_self j hj)) fun a _ => ?_
    rw [onGraph_bind]
    exact ends_bind _ (ih hjs fun u hu => h u (List.mem_cons_of_mem t hu)) fun l _ =>
      ends_stop _ _

/-- `rolog_get` on a graph that unfolds to `t`: as a value and as a tail. -/
theorem rologBody_denotes (t : Term) : ∀ {i : ι}, Denotes g i t →
    Ends (rologBody g) (rologBody g (.value i)) (onGraph (rologGet t)) ∧
    Ends (rologBody g) (rologBody g (.tail i)) (onGraph (rologGetTail t)) := by
  induction t using Term.inductCell with
  | var | int | float | str | atom | nil | blob =>
    intro i hd
    have hi : g i = _ := hd
    constructor <;> simp only [rologBody, hi] <;> exact ends_stop _ _
  | cons h t ihh iht =>
    intro i hd
    obtain ⟨a, b, hi, ha, hb⟩ := denotes_cons hd
    constructor
    · rw [rologBody_cell hi, rologGet_cons]
      exact ends_cell _ (ihh ha).1 (iht hb).2
    · rw [rologBody_tail_cell hi, rologGetTail_cons]
      exact ends_cell _ (ihh ha).1 (iht hb).2
  | compound f args hcell ih =>
    intro i hd
    obtain ⟨js, hi, hjs⟩ := hd
    have hc := not_isCell_denotes hjs hcell
    constructor
    · rw [rologBody_compound hi hc, rologGet_compound hcell, onGraph_bind]
      exact ends_bind _ (ends_rologArgsNode hjs fun t ht j hj => (ih t ht hj).1) fun l _ =>
        ends_stop _ _
    · rw [rologBody_tail_compound hi hc, rologGetTail_compound hcell]
      exact ends_stop _ _

end

end Rolog
