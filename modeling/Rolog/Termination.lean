/-
  When decoding ends. A decoder calls itself at some positions below a node, in order, and goes on
  to the next one if it comes back with a value (`pl2r_calls_iff`, `rolog_calls_iff`). Each of
  them is an argument of a compound, so on a graph without cycles both decoders end. Nothing in
  them detects a cycle: they end exactly when the positions that they visit lead round none
  (`decoding_terminates_iff`).
-/
import Rolog.Graph

namespace Rolog

open Unwind Unwind.Outcome Recursion Relation

variable {ι : Type} {g : Graph ι}

/-- Node `j` is an argument of node `i`. -/
def Edge (g : Graph ι) (j i : ι) : Prop := ∃ f js, g i = .compound f js ∧ j ∈ js

/-- No cycle of the graph can be reached from `i`. -/
def Acyclic (g : Graph ι) (i : ι) : Prop :=
  ¬ ∃ j, ReflTransGen (Edge g) j i ∧ TransGen (Edge g) j j

/-! ## Positions -/

/-- The call at `p` returns a value. -/
def Returns (body : (p : Point ι) → Decoder ι p.Result) (p : Point ι) : Prop :=
  ∃ x, Ends body (body p) (done x)

/-- A decoder that goes through these positions gets to `w`: it comes back from the ones before,
and goes on behind each of them. -/
def Reaches (body : (p : Point ι) → Decoder ι p.Result) (w : Point ι) :
    List (Point ι × Bool) → Prop
  | [] => False
  | (p, goesOn) :: ps => w = p ∨ goesOn = true ∧ Returns body p ∧ Reaches body w ps

/-- The left side of an argument `=(u, r)` names it. -/
def Node.isName : Node ι → Bool
  | .atom a | .compound a _ => plAtomChars a != cEmpty
  | _ => false

/-- The positions of a list cell. -/
def cellPositions : List ι → List (Point ι × Bool)
  | [h, t] => [(.value h, true), (.tail t, true)]
  | _ => []

section

variable (g : Graph ι)

/-- Where `pl2r_lang` decodes the argument `a`, and whether it then goes on. -/
def argPosition (a : ι) : Point ι × Bool :=
  match g a with
  | .compound f [u, r] =>
    if plAtomChars f = cstr eqSign then (.value r, (g u).isName) else (.value a, true)
  | _ => (.value a, true)

/-- The positions of a compound in `pl2r_lang`. -/
def langPositions (f : Text) (args : List ι) : List (Point ι × Bool) :=
  if plAtomChars f = cEmpty then [] else args.map (argPosition g)

/-- The positions at which `pl2r_leaf` and `pl2r_list` decode parts of a node, in order. -/
def pl2rPositions : Point ι → List (Point ι × Bool)
  | .value i =>
    match g i with
    | .compound f args => if IsCell f args then cellPositions args else langPositions g f args
    | _ => []
  | .tail i =>
    match g i with
    | .compound f args => if IsCell f args then cellPositions args else []
    | _ => []

/-- The positions at which `rolog_get` decodes parts of a node, in order. -/
def rologPositions : Point ι → List (Point ι × Bool)
  | .value i =>
    match g i with
    | .compound f args =>
      if IsCell f args then cellPositions args else args.map fun a => (.value a, true)
    | _ => []
  | .tail i =>
    match g i with
    | .compound f args => if IsCell f args then cellPositions args else []
    | _ => []

end

/-! ## The calls are those at the positions -/

section

variable {body : (p : Point ι) → Decoder ι p.Result} {w : Point ι}

@[simp] theorem called_pure {α : Type} (a : α) :
    ¬ Called body w (pure a : Decoder ι α) := nofun

@[simp] theorem called_stop {α : Type} (r : Outcome String RError α) :
    ¬ Called body w (.stop r : Decoder ι α) := nofun

@[simp] theorem called_convert {α : Type} (x : Cpp α) :
    ¬ Called body w (convert x : Decoder ι α) := nofun

@[simp] theorem called_decode {i : ι} : Called body w (decode i) ↔ w = .value i := by
  simp [decode, Prog.invoke, Called]

@[simp] theorem called_decodeTail {i : ι} : Called body w (decodeTail i) ↔ w = .tail i := by
  simp [decodeTail, Prog.invoke, Called]

@[simp] theorem called_named (u : Node ι) (x : SEXP) : ¬ Called body w (u.named x) := by
  cases u <;> simp [Node.named, Node.name, called_bind]

theorem returns_decode {i : ι} : (∃ x, Ends body (decode i) (done x)) ↔ Returns body (.value i) :=
  exists_congr fun _ => ends_invoke_done_iff body

theorem ends_stop_done {α : Type} {r : Outcome String RError α} {a : α} :
    Ends body (.stop r) (done a) ↔ r = done a :=
  ⟨fun h => (ends_stop body r).unique body h, fun h => h ▸ ends_stop body r⟩

/-- A pure last step. -/
theorem returns_map {α β : Type} {p : Decoder ι α} {f : α → β} :
    (∃ b, Ends body (p >>= fun a => pure (f a)) (done b)) ↔ ∃ a, Ends body p (done a) := by
  simp only [ends_bind_done_iff]
  constructor
  · intro h
    obtain ⟨_, a, ha, _⟩ := h
    exact ⟨a, ha⟩
  · intro h
    obtain ⟨a, ha⟩ := h
    exact ⟨f a, a, ha, ends_stop body _⟩

/-- A part at a position, and then the rest. -/
theorem called_cons_iff {α β γ : Type} {p : Decoder ι α} {q : Decoder ι β} {k : α → β → γ}
    {position : Point ι × Bool} {rest : List (Point ι × Bool)}
    (hcalled : Called body w p ↔ w = position.1)
    (hreturns : (∃ x, Ends body p (done x)) ↔ position.2 = true ∧ Returns body position.1)
    (hq : Called body w q ↔ Reaches body w rest) :
    Called body w (do
      let x ← p
      let l ← q
      pure (k x l)) ↔ Reaches body w (position :: rest) := by
  simp only [called_bind, called_pure, and_false, exists_false, or_false, exists_and_right,
    hcalled, hreturns, hq, Reaches, and_assoc]

theorem called_cell_iff {α : Type} {a b : ι} {k : SEXP → List SEXP → α} :
    Called body w (do
      let e ← decode a
      let l ← decodeTail b
      pure (k e l)) ↔ Reaches body w (cellPositions [a, b]) := by
  refine called_cons_iff called_decode ?_ ?_
  · simp [returns_decode]
  · simp [Reaches]

theorem returns_named {u : Node ι} {x : SEXP} :
    (∃ a, Ends body (u.named x) (done a)) ↔ u.isName = true := by
  have hinstall (s : CString) :
      (∃ y, Ends body (convert (install s)) (done y)) ↔ (s != cEmpty) = true := by
    unfold convert install
    by_cases h : s = cEmpty
    · simp [h, ends_stop_done, mapThrown]
    · simp [h, ends_stop_done]
  have hname (s : CString) : (∃ a, Ends body
      (convert (install s) >>= fun argname => (pure (some argname, x) : Decoder ι _)) (done a)) ↔
      (s != cEmpty) = true := returns_map.trans (hinstall s)
  cases u with
  | atom a => exact hname (plAtomChars a)
  | compound f args => exact hname (plAtomChars f)
  | var | int | float | str | nil | blob =>
    simp [Node.named, Node.name, Node.isName, ends_bind_done_iff, ends_stop_done]

end

section

variable {g : Graph ι} {w : Point ι}

/-- An argument is a named one, or is decoded where it stands. -/
theorem pl2rArgNode_cases (a : ι) :
    (∃ u r, pl2rArgNode g a = (do
        let x ← decode r
        (g u).named x) ∧ argPosition g a = (.value r, (g u).isName)) ∨
      pl2rArgNode g a = (do
        let x ← decode a
        pure (none, x)) ∧ argPosition g a = (.value a, true) := by
  unfold pl2rArgNode argPosition
  cases g a with
  | compound f args =>
    match args with
    | [] | [_] | _ :: _ :: _ :: _ => exact .inr ⟨rfl, rfl⟩
    | [u, r] =>
      by_cases h : plAtomChars f = cstr eqSign
      · exact .inl ⟨u, r, by simp only [h, if_true], by simp only [h, if_true]⟩
      · exact .inr ⟨by simp only [h, if_false], by simp only [h, if_false]⟩
  | var | int | float | str | atom | nil | blob => exact .inr ⟨rfl, rfl⟩

theorem called_pl2rArgNode_iff (a : ι) :
    Called (pl2rBody g) w (pl2rArgNode g a) ↔ w = (argPosition g a).1 := by
  rcases pl2rArgNode_cases (g := g) a with ⟨u, r, hnode, hpos⟩ | ⟨hnode, hpos⟩
  · simp [hnode, hpos, called_bind]
  · simp [hnode, hpos, called_bind]

theorem returns_pl2rArgNode_iff (a : ι) :
    (∃ x, Ends (pl2rBody g) (pl2rArgNode g a) (done x)) ↔
      (argPosition g a).2 = true ∧ Returns (pl2rBody g) (argPosition g a).1 := by
  rcases pl2rArgNode_cases (g := g) a with ⟨u, r, hnode, hpos⟩ | ⟨hnode, hpos⟩
  · rw [hnode, hpos, ← returns_decode]
    simp only [ends_bind_done_iff]
    rw [exists_comm]
    simp only [exists_and_left, returns_named, exists_and_right]
    exact and_comm
  · rw [hnode, hpos, returns_map, returns_decode]
    simp

theorem called_pl2rArgsNode_iff (as : List ι) :
    Called (pl2rBody g) w (pl2rArgsNode g as) ↔
      Reaches (pl2rBody g) w (as.map (argPosition g)) := by
  induction as with
  | nil => exact iff_of_false nofun nofun
  | cons a as ih =>
    exact called_cons_iff (called_pl2rArgNode_iff a) (returns_pl2rArgNode_iff a) ih

theorem called_rologArgsNode_iff (as : List ι) :
    Called (rologBody g) w (rologArgsNode as) ↔
      Reaches (rologBody g) w (as.map fun a => (.value a, true)) := by
  induction as with
  | nil => exact iff_of_false nofun nofun
  | cons a as ih => exact called_cons_iff called_decode (by simp [returns_decode]) ih

/-- A compound in `pl2r_lang`. -/
theorem called_pl2rLangNode_iff (f : Text) (as : List ι) :
    Called (pl2rBody g) w (pl2rLangNode g f as) ↔
      Reaches (pl2rBody g) w (langPositions g f as) := by
  unfold pl2rLangNode langPositions
  rw [called_bind]
  by_cases h : plAtomChars f = cEmpty
  · simp [h, install, convert, ends_stop_done, mapThrown, Reaches]
  · simp [h, install, convert, ends_stop_done, called_bind, called_pl2rArgsNode_iff]

/-- `pl2r_leaf` and `pl2r_list` call themselves at their positions. -/
theorem pl2r_calls_iff {p : Point ι} :
    Calls (pl2rBody g) w p ↔ Reaches (pl2rBody g) w (pl2rPositions g p) := by
  unfold Calls
  cases p with
  | value i =>
    cases hi : g i with
    | compound f js =>
      by_cases hc : IsCell f js
      · obtain ⟨rfl, hl⟩ := hc
        obtain ⟨a, b, rfl⟩ := List.length_eq_two.mp hl
        rw [pl2rBody_cell hi, called_cell_iff]
        simp [pl2rPositions, hi, IsCell]
      · rw [pl2rBody_compound hi hc, called_pl2rLangNode_iff]
        simp [pl2rPositions, hi, hc]
    | var | int | float | str | atom | nil | blob => simp [pl2rBody, pl2rPositions, hi, Reaches]
  | tail i =>
    cases hi : g i with
    | compound f js =>
      by_cases hc : IsCell f js
      · obtain ⟨rfl, hl⟩ := hc
        obtain ⟨a, b, rfl⟩ := List.length_eq_two.mp hl
        rw [pl2rBody_tail_cell hi, called_cell_iff]
        simp [pl2rPositions, hi, IsCell]
      · rw [pl2rBody_tail_compound hi hc]
        simp [pl2rPositions, hi, hc, Reaches]
    | var | int | float | str | atom | nil | blob => simp [pl2rBody, pl2rPositions, hi, Reaches]

/-- `rolog_get` calls itself at its positions. -/
theorem rolog_calls_iff {p : Point ι} :
    Calls (rologBody g) w p ↔ Reaches (rologBody g) w (rologPositions g p) := by
  unfold Calls
  cases p with
  | value i =>
    cases hi : g i with
    | compound f js =>
      by_cases hc : IsCell f js
      · obtain ⟨rfl, hl⟩ := hc
        obtain ⟨a, b, rfl⟩ := List.length_eq_two.mp hl
        rw [rologBody_cell hi, called_cell_iff]
        simp [rologPositions, hi, IsCell]
      · rw [rologBody_compound hi hc]
        simp [rologFunctionNode, rologPositions, hi, hc, called_bind, called_rologArgsNode_iff]
    | var | int | float | str | atom | nil | blob =>
      simp [rologBody, rologPositions, hi, Reaches]
  | tail i =>
    cases hi : g i with
    | compound f js =>
      by_cases hc : IsCell f js
      · obtain ⟨rfl, hl⟩ := hc
        obtain ⟨a, b, rfl⟩ := List.length_eq_two.mp hl
        rw [rologBody_tail_cell hi, called_cell_iff]
        simp [rologPositions, hi, IsCell]
      · rw [rologBody_tail_compound hi hc]
        simp [rologPositions, hi, hc, Reaches]
    | var | int | float | str | atom | nil | blob =>
      simp [rologBody, rologPositions, hi, Reaches]

end

/-! ## The positions descend -/

section

variable {g : Graph ι} {w : Point ι}

theorem reaches_mem {body : (p : Point ι) → Decoder ι p.Result} {ps : List (Point ι × Bool)}
    (h : Reaches body w ps) : w ∈ ps.map Prod.fst := by
  induction ps with
  | nil => nomatch h
  | cons p ps ih =>
    rcases h with rfl | ⟨_, _, h⟩
    · exact List.mem_cons_self
    · exact List.mem_cons_of_mem _ (ih h)

theorem cellPositions_below {js : List ι} (h : w ∈ (cellPositions js).map Prod.fst) :
    w.node ∈ js := by
  match js with
  | [] | [_] | _ :: _ :: _ :: _ => nomatch h
  | [a, b] =>
    simp only [cellPositions, List.map_cons, List.map_nil, List.mem_cons, List.not_mem_nil,
      or_false] at h
    rcases h with rfl | rfl
    · exact List.mem_cons_self
    · exact List.mem_cons_of_mem a List.mem_cons_self

theorem argPosition_below (a : ι) : ReflTransGen (Edge g) (argPosition g a).1.node a := by
  unfold argPosition
  split
  · next f u r ha =>
    split
    · exact .single ⟨f, [u, r], ha, List.mem_cons_of_mem u List.mem_cons_self⟩
    · exact .refl
  · exact .refl

theorem langPositions_below {f : Text} {js : List ι}
    (h : w ∈ (langPositions g f js).map Prod.fst) : ∃ j ∈ js, ReflTransGen (Edge g) w.node j := by
  unfold langPositions at h
  split at h
  · nomatch h
  · rw [List.map_map] at h
    obtain ⟨j, hj, rfl⟩ := List.mem_map.mp h
    exact ⟨j, hj, argPosition_below j⟩

/-- `pl2r_leaf` and `pl2r_list` call themselves on proper subterms. -/
theorem pl2r_descends {p : Point ι} (h : Calls (pl2rBody g) w p) :
    TransGen (Edge g) w.node p.node := by
  have h := reaches_mem (pl2r_calls_iff.mp h)
  cases p with
  | value i =>
    simp only [pl2rPositions] at h
    split at h
    · next f js hi =>
      split at h
      · exact .single ⟨f, js, hi, cellPositions_below h⟩
      · obtain ⟨j, hj, hw⟩ := langPositions_below h
        exact .tail' hw ⟨f, js, hi, hj⟩
    · nomatch h
  | tail i =>
    simp only [pl2rPositions] at h
    split at h
    · next f js hi =>
      split at h
      · exact .single ⟨f, js, hi, cellPositions_below h⟩
      · nomatch h
    · nomatch h

/-- `rolog_get` calls itself on arguments, heads and tails. -/
theorem rolog_descends {p : Point ι} (h : Calls (rologBody g) w p) :
    TransGen (Edge g) w.node p.node := by
  have h := reaches_mem (rolog_calls_iff.mp h)
  cases p with
  | value i =>
    simp only [rologPositions] at h
    split at h
    · next f js hi =>
      split at h
      · exact .single ⟨f, js, hi, cellPositions_below h⟩
      · rw [List.map_map] at h
        obtain ⟨j, hj, rfl⟩ := List.mem_map.mp h
        exact .single ⟨f, js, hi, hj⟩
    · nomatch h
  | tail i =>
    simp only [rologPositions] at h
    split at h
    · next f js hi =>
      split at h
      · exact .single ⟨f, js, hi, cellPositions_below h⟩
      · nomatch h
    · nomatch h

end

/-! ## Termination -/

/-- A decoder whose calls descend ends on a finite graph without cycles. -/
theorem terminates_of_acyclic [Finite ι] {body : (p : Point ι) → Decoder ι p.Result}
    (h : ∀ w p, Calls body w p → TransGen (Edge g) w.node p.node) {p : Point ι}
    (ha : Acyclic g p.node) : Terminates body p := by
  have hacc : Acc (TransGen (Edge g)) p.node := (acc_iff_no_cycle.mpr ha).transGen
  exact (terminates_iff_acc body).mpr
    (Subrelation.accessible (h _ _) (InvImage.accessible Point.node hacc))

/-- From `p` the decoder gets to `w`, one of the positions of `p`. -/
def Visits (body : (p : Point ι) → Decoder ι p.Result)
    (positions : Point ι → List (Point ι × Bool)) (w p : Point ι) : Prop :=
  Reaches body w (positions p)

/-- Decoding ends exactly when the positions that the decoder visits from the answer on lead round
no cycle, and it always ends where no cycle of the graph can be reached from the answer. -/
theorem decoding_terminates_iff [Finite ι] (g : Graph ι) (i : ι) :
    (Terminates (pl2rBody g) (.value i) ↔
      ¬ ∃ p, ReflTransGen (Visits (pl2rBody g) (pl2rPositions g)) p (.value i) ∧
        TransGen (Visits (pl2rBody g) (pl2rPositions g)) p p) ∧
    (Terminates (rologBody g) (.value i) ↔
      ¬ ∃ p, ReflTransGen (Visits (rologBody g) (rologPositions g)) p (.value i) ∧
        TransGen (Visits (rologBody g) (rologPositions g)) p p) ∧
    (Acyclic g i → Terminates (pl2rBody g) (.value i) ∧ Terminates (rologBody g) (.value i)) := by
  have hpl2r : Calls (pl2rBody g) = Visits (pl2rBody g) (pl2rPositions g) :=
    funext fun _ => funext fun _ => propext pl2r_calls_iff
  have hrolog : Calls (rologBody g) = Visits (rologBody g) (rologPositions g) :=
    funext fun _ => funext fun _ => propext rolog_calls_iff
  rw [← hpl2r, ← hrolog]
  exact ⟨terminates_iff_no_cycle _, terminates_iff_no_cycle _, fun h =>
    ⟨terminates_of_acyclic (p := .value i) (fun _ _ => pl2r_descends) h,
      terminates_of_acyclic (p := .value i) (fun _ _ => rolog_descends) h⟩⟩

/-- The answer that `X = f(X)` leaves in `X`. -/
def selfArgument : Graph Unit := fun _ => .compound ['f'] [()]

/-- Both decoders call themselves on it again, without end. -/
theorem selfArgument_diverges :
    ¬ Terminates (pl2rBody selfArgument) (.value ()) ∧
      ¬ Terminates (rologBody selfArgument) (.value ()) := by
  rw [terminates_iff_acc, terminates_iff_acc]
  refine ⟨fun h => not_cycle_of_acc h (pl2r_calls_iff.mpr (.inl ?_)),
    fun h => not_cycle_of_acc h (rolog_calls_iff.mpr (.inl ?_))⟩
  · rfl
  · rfl

/-- `f(a, a)`, with one node for `a`. -/
def sharedArgument : Graph Bool
  | true => .compound ['f'] [false, false]
  | false => .atom ['a']

theorem edge_sharedArgument {j i : Bool} (h : Edge sharedArgument j i) : j = false ∧ i = true := by
  obtain ⟨f, js, hi, hj⟩ := h
  cases i with
  | false => cases hi
  | true =>
    obtain ⟨rfl, rfl⟩ := Node.compound.inj hi
    simpa using hj

/-- Sharing is no cycle. -/
theorem sharedArgument_terminates :
    Terminates (pl2rBody sharedArgument) (.value true) ∧
      Terminates (rologBody sharedArgument) (.value true) := by
  refine (decoding_terminates_iff sharedArgument true).2.2 ?_
  intro h
  obtain ⟨j, _, hjj⟩ := h
  obtain ⟨_, _, hout⟩ := TransGen.tail'_iff.mp hjj
  obtain ⟨_, hout', _⟩ := TransGen.head'_iff.mp hjj
  have h₁ := (edge_sharedArgument hout).2
  have h₂ := (edge_sharedArgument hout').1
  rw [h₁] at h₂
  cases h₂

end Rolog
