/-
  Terms in canonical notation, and what the reader is trusted for: `Grammar.Sound` says that the
  parser reads canonical notation back and makes no string that is no token.
  `plainGrammar` is a grammar for canonical notation alone (`plainGrammar_sound`): it shifts names
  and strings, and reduces at a closing parenthesis.
-/
import Rolog.ReadSpec

namespace Rolog

/-! ## Canonical notation -/

mutual

/-- The strings of a term. -/
def Term.strings : Term → List Text
  | .str s => [s]
  | .compound _ args => Term.stringsList args
  | .var _ | .int _ | .float _ | .atom _ | .nil | .blob _ => []
termination_by structural t => t

/-- The strings of a list of terms. -/
def Term.stringsList : List Term → List Text
  | [] => []
  | t :: ts => t.strings ++ Term.stringsList ts
termination_by structural ts => ts

end

mutual

/-- A term of names, strings and compounds as `write_canonical` has it. -/
def Term.canonTokens : Term → List ReadToken
  | .atom a => [.name (wideChars a)]
  | .str s => [.str (wideChars s)]
  | .compound f args => .functor (wideChars f) :: .punct '(' :: Term.canonArgs args
  | .var _ | .int _ | .float _ | .nil | .blob _ => []
termination_by structural t => t

/-- The arguments from the first on. -/
def Term.canonArgs : List Term → List ReadToken
  | [] => []
  | t :: ts => t.canonTokens ++ Term.canonRest ts
termination_by structural ts => ts

/-- The arguments behind the first. -/
def Term.canonRest : List Term → List ReadToken
  | [] => [.punct ')']
  | t :: ts => .punct ',' :: (t.canonTokens ++ Term.canonRest ts)
termination_by structural ts => ts

end

/-- The terms that canonical notation writes, with atoms that are no operators. -/
inductive Term.Canonical (isOp : Text → Bool) : Term → Prop where
  | str (s : Text) : Canonical isOp (.str s)
  | atom (a : Text) : isOp a = false → Canonical isOp (.atom a)
  | compound (f : Text) (t : Term) (ts : List Term) : Canonical isOp t →
    (∀ u ∈ ts, Canonical isOp u) → Canonical isOp (.compound f (t :: ts))

/-- What the parser and `str_number` are trusted for. -/
structure Grammar.Sound (g : Grammar) : Prop where
  numbers : g.ReadsNumbers
  canonical : ∀ t, t.Canonical g.isOp → g.complexTerm (t.canonTokens ++ [.fullstop]) = some t
  /-- strings come from double-quoted tokens -/
  strings : ∀ toks t s, g.complexTerm toks = some t → s ∈ t.strings → .str (wideChars s) ∈ toks

/-! ## A grammar for canonical notation -/

/-- A term under construction: the open compounds with their arguments, the last one first, and
the last term read. -/
structure Shift where
  frames : List (Text × List Term)
  cur : Option Term

namespace Shift

/-- The text of a token, if it has one. -/
def textOf (codes : List Nat) : Option Text :=
  let s := codes.map Char.ofNat
  if wideChars s = codes then some s else none

/-- The next token. -/
def step (s : Shift) (t : ReadToken) : Option Shift :=
  match t, s.cur with
  | .functor f, none => (textOf f).map fun f => ⟨(f, []) :: s.frames, none⟩
  | .name a, none => (textOf a).map fun a => ⟨s.frames, some (.atom a)⟩
  | .str codes, none => (textOf codes).map fun a => ⟨s.frames, some (.str a)⟩
  | .punct c, none => if c = '(' then some s else none
  | .punct c, some u =>
    match s.frames with
    | [] => none
    | (f, args) :: frames =>
      if c = ',' then some ⟨(f, u :: args) :: frames, none⟩
      else if c = ')' then some ⟨frames, some (.compound f (u :: args).reverse)⟩
      else none
  | .fullstop, some _ => some s
  | _, _ => none

def start : Shift where
  frames := []
  cur := none

/-- The term, once every compound is closed. -/
def result (s : Shift) : Option Term := if s.frames.isEmpty then s.cur else none

end Shift

/-- Canonical notation without operators and numbers. -/
def plainGrammar : Grammar where
  strNumber s :=
    if s.takeWhile isDigit = [] then none else some (s.takeWhile isDigit, s.dropWhile isDigit)
  mustBeOp _ := false
  isOp _ := false
  complexTerm toks := (toks.foldlM Shift.step Shift.start).bind Shift.result

namespace Shift

theorem textOf_wideChars (s : Text) : textOf (wideChars s) = some s := by
  have hs : (wideChars s).map Char.ofNat = s := by
    rw [wideChars, List.map_map]
    exact (List.map_congr_left fun c _ => Char.ofNat_toNat c).trans (List.map_id s)
  unfold textOf
  rw [hs, if_pos rfl]

theorem wideChars_textOf (h : textOf codes = some s) : wideChars s = codes := by
  unfold textOf at h
  simp only at h
  split_ifs at h with he
  exact Option.some.inj h ▸ he

theorem step_functor (f : Text) (frames : List (Text × List Term)) :
    step ⟨frames, none⟩ (.functor (wideChars f)) = some ⟨(f, []) :: frames, none⟩ := by
  show (textOf (wideChars f)).map _ = _
  rw [textOf_wideChars]
  rfl

theorem step_name (a : Text) (frames : List (Text × List Term)) :
    step ⟨frames, none⟩ (.name (wideChars a)) = some ⟨frames, some (.atom a)⟩ := by
  show (textOf (wideChars a)).map _ = _
  rw [textOf_wideChars]
  rfl

theorem step_str (a : Text) (frames : List (Text × List Term)) :
    step ⟨frames, none⟩ (.str (wideChars a)) = some ⟨frames, some (.str a)⟩ := by
  show (textOf (wideChars a)).map _ = _
  rw [textOf_wideChars]
  rfl

/-- The tokens of a term push the term. -/
theorem foldlM_canonTokens {isOp : Text → Bool} {t : Term} (h : t.Canonical isOp)
    (frames : List (Text × List Term)) :
    t.canonTokens.foldlM step ⟨frames, none⟩ = some ⟨frames, some t⟩ := by
  induction h generalizing frames with
  | str s =>
    show [ReadToken.str _].foldlM step _ = _
    rw [List.foldlM_cons, step_str]
    rfl
  | atom a _ =>
    show [ReadToken.name _].foldlM step _ = _
    rw [List.foldlM_cons, step_name]
    rfl
  | compound f t ts _ _ iht ihts =>
    have hrest : ∀ us, (∀ u ∈ us, u ∈ ts) → ∀ u args,
        (Term.canonRest us).foldlM step ⟨(f, args) :: frames, some u⟩ =
          some ⟨frames, some (.compound f (args.reverse ++ u :: us))⟩ := by
      intro us hus
      induction us with
      | nil =>
        intro u args
        rw [← List.reverse_cons]
        rfl
      | cons v us ih =>
        intro u args
        rw [List.forall_mem_cons] at hus
        have hv := ihts v hus.1 ((f, u :: args) :: frames)
        have hus' := ih hus.2 v (u :: args)
        rw [List.reverse_cons, List.append_assoc] at hus'
        show (v.canonTokens ++ Term.canonRest us).foldlM step _ = _
        rw [List.foldlM_append, hv]
        exact hus'
    show (ReadToken.functor _ :: .punct '(' :: (t.canonTokens ++ Term.canonRest ts)).foldlM
      step _ = _
    rw [List.foldlM_cons, step_functor]
    show (t.canonTokens ++ Term.canonRest ts).foldlM step _ = _
    rw [List.foldlM_append, iht]
    exact hrest ts (fun _ h => h) t []

/-! ## No strings but those of tokens -/

theorem mem_stringsList {a : Text} {ts : List Term} :
    a ∈ Term.stringsList ts ↔ ∃ t ∈ ts, a ∈ t.strings := by
  induction ts with
  | nil => simp [Term.stringsList]
  | cons t ts ih =>
    unfold Term.stringsList
    rw [List.mem_append, ih, List.exists_mem_cons_iff]

/-- Every string so far is a token. -/
structure StringsIn (s : Shift) (toks : List ReadToken) : Prop where
  args : ∀ p ∈ s.frames, ∀ u ∈ p.2, ∀ a ∈ u.strings, .str (wideChars a) ∈ toks
  cur : ∀ u, s.cur = some u → ∀ a ∈ u.strings, .str (wideChars a) ∈ toks

theorem StringsIn.mono {s : Shift} (h : s.StringsIn toks) (hsub : toks ⊆ toks') :
    s.StringsIn toks' :=
  ⟨fun p hp u hu a ha => hsub (h.args p hp u hu a ha), fun u hu a ha => hsub (h.cur u hu a ha)⟩

theorem StringsIn.step_punct {frames : List (Text × List Term)} {u : Term} {c : Char} {s' : Shift}
    (h : StringsIn ⟨frames, some u⟩ toks) (hs : Shift.step ⟨frames, some u⟩ (.punct c) = some s') :
    s'.StringsIn toks := by
  cases frames with
  | nil => cases hs
  | cons p frames =>
    obtain ⟨f, args⟩ := p
    have hs' : (if c = ',' then some (⟨(f, u :: args) :: frames, none⟩ : Shift)
        else if c = ')' then some ⟨frames, some (.compound f (u :: args).reverse)⟩ else none) =
      some s' := hs
    have hargs := List.forall_mem_cons.mp h.args
    have hcons : ∀ v ∈ u :: args, ∀ a ∈ v.strings, ReadToken.str (wideChars a) ∈ toks :=
      List.forall_mem_cons.mpr ⟨h.cur u rfl, hargs.1⟩
    split_ifs at hs'
    · obtain rfl := Option.some.inj hs'
      exact ⟨List.forall_mem_cons.mpr ⟨hcons, hargs.2⟩, by simp⟩
    · obtain rfl := Option.some.inj hs'
      refine ⟨hargs.2, fun v hv a ha => ?_⟩
      obtain rfl := Option.some.inj hv
      obtain ⟨w, hw, ha⟩ := mem_stringsList.mp ha
      exact hcons w (List.mem_reverse.mp hw) a ha

theorem StringsIn.step {s s' : Shift} {t : ReadToken} (h : s.StringsIn toks)
    (hs : s.step t = some s') : s'.StringsIn (toks ++ [t]) := by
  have hmono : s.StringsIn (toks ++ [t]) := h.mono (List.subset_append_left _ _)
  have hkeep : ∀ u : Term, (∀ a ∈ u.strings, ReadToken.str (wideChars a) ∈ toks ++ [t]) →
      StringsIn ⟨s.frames, some u⟩ (toks ++ [t]) := by
    intro u hu
    refine ⟨hmono.args, fun v hv => ?_⟩
    obtain rfl := Option.some.inj hv
    exact hu
  obtain ⟨frames, cur⟩ := s
  cases cur with
  | none =>
    cases t with
    | functor f =>
      obtain ⟨f', _, rfl⟩ := Option.map_eq_some_iff.mp hs
      exact ⟨List.forall_mem_cons.mpr ⟨by simp, hmono.args⟩, by simp⟩
    | name a =>
      obtain ⟨a', _, rfl⟩ := Option.map_eq_some_iff.mp hs
      exact hkeep (.atom a') (by simp [Term.strings])
    | str codes =>
      obtain ⟨a, ha, rfl⟩ := Option.map_eq_some_iff.mp hs
      refine hkeep (.str a) fun b hb => ?_
      rw [List.mem_singleton.mp hb, wideChars_textOf ha]
      simp
    | punct c =>
      have hs' : (if c = '(' then some (⟨frames, none⟩ : Shift) else none) = some s' := hs
      split_ifs at hs'
      exact Option.some.inj hs' ▸ hmono
    | _ => cases hs
  | some u =>
    cases t with
    | punct c => exact hmono.step_punct hs
    | fullstop => exact Option.some.inj hs ▸ hmono
    | _ => cases hs

theorem StringsIn.foldlM {s s' : Shift} (h : s.StringsIn toks) (toks' : List ReadToken)
    (hs : toks'.foldlM Shift.step s = some s') : s'.StringsIn (toks ++ toks') := by
  induction toks' generalizing s toks with
  | nil =>
    obtain rfl := Option.some.inj hs
    rwa [List.append_nil]
  | cons t toks' ih =>
    rw [List.foldlM_cons] at hs
    obtain ⟨s₁, h₁, hs⟩ := Option.bind_eq_some_iff.mp hs
    rw [List.append_cons]
    exact ih (h.step h₁) hs

end Shift

theorem plainGrammar_sound : plainGrammar.Sound where
  numbers s n rest h := by
    have h' : (if s.takeWhile isDigit = [] then none
      else some (s.takeWhile isDigit, s.dropWhile isDigit)) = some (n, rest) := h
    split_ifs at h' with hn
    obtain ⟨rfl, rfl⟩ := Prod.mk.inj (Option.some.inj h')
    exact ⟨hn, List.takeWhile_append_dropWhile.symm⟩
  canonical t h := by
    show ((t.canonTokens ++ [ReadToken.fullstop]).foldlM Shift.step Shift.start).bind _ = _
    rw [List.foldlM_append, Shift.start, Shift.foldlM_canonTokens h]
    rfl
  strings toks t a h ha := by
    obtain ⟨s, hs, ht⟩ := Option.bind_eq_some_iff.mp h
    have hstart : Shift.start.StringsIn [] := ⟨by simp [Shift.start], by simp [Shift.start]⟩
    have hin := hstart.foldlM toks hs
    unfold Shift.result at ht
    split_ifs at ht
    exact hin.cur t ht a ha

end Rolog
