/-
  What `rolog_query_comp` shows of lists. A list of character codes or of one-character atoms,
  and `[]`, is shown as the text it spells (`plGetText_plList`). Every other list is written, with
  brackets and quotes. Answers are shown differently as far as their displays are apart
  (`comp_ne_iff`).
-/
import Rolog.Operations
import Rolog.Positions
import Rolog.WriteSpec

namespace Rolog

/-! ## Lists that spell a text -/

/-- A character code. -/
def isCode : Term → Bool
  | .int i => 0 ≤ i ∧ i ≤ 0x10ffff
  | _ => false

/-- An atom of one character. -/
def isChar : Term → Bool
  | .atom [_] => true
  | _ => false

/-- The character of a code or of an atom of one character. -/
def charOf : Term → Nat
  | .int i => i.toNat
  | .atom [c] => c.toNat
  | _ => 0

/-- The text that a list spells. -/
def spelled (ts : List Term) : Option (List Nat) :=
  if ts.all isCode ∨ ts.all isChar then some (ts.map charOf) else none

/-- The elements that one type of list accepts. -/
def ListType.accepts : ListType → Term → Bool
  | .codes => isCode
  | .chars => isChar

theorem toNat_lt (c : Char) : c.toNat < 0x110000 := by
  have h : c.toNat < 0xd800 ∨ 0xdfff < c.toNat ∧ c.toNat < 0x110000 := c.valid
  omega

theorem outOfRange_true (type : ListType) (t : Term) :
    outOfRange true (elementCode type t) = !type.accepts t := by
  cases type with
  | codes =>
    cases t with
    | int i =>
      simp only [outOfRange, elementCode, ListType.accepts, isCode]
      grind
    | var | float | str | atom | nil | blob | compound => rfl
  | chars =>
    cases t with
    | atom a =>
      cases a with
      | nil => rfl
      | cons c a =>
        cases a with
        | nil =>
          have hc := toNat_lt c
          simp only [outOfRange, elementCode, charCode, ListType.accepts, isChar]
          grind
        | cons d a => rfl
    | var | int | float | str | nil | blob | compound => rfl

theorem outOfRange_mono {c : Int} (h : outOfRange true c) : outOfRange false c := by
  simp only [outOfRange] at h ⊢
  grind

theorem toNat_elementCode {type : ListType} {t : Term} (h : type.accepts t) :
    (elementCode type t).toNat = charOf t := by
  cases type with
  | codes =>
    cases t with
    | int i => rfl
    | var | float | str | atom | nil | blob | compound => cases h
  | chars =>
    cases t with
    | atom a =>
      cases a with
      | nil => cases h
      | cons c a =>
        cases a with
        | nil => rfl
        | cons d a => cases h
    | var | int | float | str | nil | blob | compound => cases h

/-- The status of an element that is a character, but a wide one. -/
theorem elementResult_wide {type : ListType} {t : Term} (h : type.accepts t) (e : CvtResult) :
    elementResult t (elementCode type t) e = .cvtWide := by
  have hr := outOfRange_true type t
  rw [h] at hr
  have hc : ¬ (elementCode type t < 0 ∨ 0x10ffff < elementCode type t) := by
    simp only [outOfRange] at hr
    grind
  unfold elementResult
  cases t with
  | var n => cases type <;> cases h
  | int | float | str | atom | nil | blob | compound =>
    simp only
    rw [if_neg hc]

theorem codesLoop_cons (type : ListType) (wide : Bool) (h t : Term) :
    codesLoop type wide (.cons h t) =
      if outOfRange wide (elementCode type h) then
        .error (elementResult h (elementCode type h)
          (if type = .codes then .cvtNocode else .cvtNochar))
      else (do
        let b ← codesLoop type wide t
        .ok ((elementCode type h).toNat :: b)) := by
  simp only [Term.cons, codesLoop, if_true]

/-- The loop succeeds when every element is in range. -/
theorem codesLoop_ok {type : ListType} {wide : Bool} {ts : List Term}
    (h : ∀ t ∈ ts, type.accepts t ∧ outOfRange wide (elementCode type t) = false) :
    codesLoop type wide (plList ts) = .ok (ts.map charOf) := by
  induction ts with
  | nil => rfl
  | cons t ts ih =>
    have ht := h t List.mem_cons_self
    rw [plList, codesLoop_cons, ht.2, ih fun u hu => h u (List.mem_cons_of_mem t hu),
      toNat_elementCode ht.1]
    rfl

/-- The narrow loop stops at the first wide character. -/
theorem codesLoop_wide {type : ListType} {ts : List Term} (h : ∀ t ∈ ts, type.accepts t)
    (hw : ∃ t ∈ ts, outOfRange false (elementCode type t)) :
    codesLoop type false (plList ts) = .error .cvtWide := by
  induction ts with
  | nil => simp at hw
  | cons t ts ih =>
    rw [plList, codesLoop_cons]
    by_cases ht : outOfRange false (elementCode type t)
    · rw [if_pos ht, elementResult_wide (h t List.mem_cons_self)]
    · have htail : ∃ u ∈ ts, outOfRange false (elementCode type u) := by
        obtain ⟨u, hu, hout⟩ := hw
        rcases List.mem_cons.mp hu with rfl | hu
        · exact absurd hout ht
        · exact ⟨u, hu, hout⟩
      rw [if_neg ht, ih (fun u hu => h u (List.mem_cons_of_mem t hu)) htail]
      rfl

/-- The loop fails at an element that is no character. -/
theorem codesLoop_error {type : ListType} (wide : Bool) {ts : List Term}
    (h : ∃ t ∈ ts, type.accepts t = false) :
    ∃ e, codesLoop type wide (plList ts) = .error e := by
  induction ts with
  | nil => simp at h
  | cons t ts ih =>
    rw [plList, codesLoop_cons]
    by_cases ht : outOfRange wide (elementCode type t)
    · rw [if_pos ht]
      exact ⟨_, rfl⟩
    · have htail : ∃ u ∈ ts, type.accepts u = false := by
        obtain ⟨u, hu, hout⟩ := h
        rcases List.mem_cons.mp hu with rfl | hu
        · have hr := outOfRange_true type u
          rw [hout] at hr
          cases wide with
          | false => exact absurd (outOfRange_mono (by simpa using hr)) ht
          | true => exact absurd (by simpa using hr) ht
        · exact ⟨u, hu, hout⟩
      obtain ⟨e, he⟩ := ih htail
      rw [if_neg ht, he]
      exact ⟨e, rfl⟩

theorem codesOrCharsToBuffer_cons (wide : Bool) (h t : Term) :
    codesOrCharsToBuffer wide (.cons h t) =
      if outOfRange wide (elementCode (listType h) h) then
        .error (elementResult h (elementCode (listType h) h) .cvtNocode)
      else codesLoop (listType h) wide (.cons h t) := by
  simp only [Term.cons, codesOrCharsToBuffer, true_and]

section

variable {t : Term} {ts : List Term}

theorem buffer_ok {wide : Bool} (h : ∀ u ∈ t :: ts, (listType t).accepts u ∧
    outOfRange wide (elementCode (listType t) u) = false) :
    codesOrCharsToBuffer wide (plList (t :: ts)) = .ok ((t :: ts).map charOf) := by
  have ht := (h t List.mem_cons_self).2
  have hloop := codesLoop_ok h
  rw [plList] at hloop ⊢
  rw [codesOrCharsToBuffer_cons, ht, hloop]
  rfl

theorem buffer_wide (h : ∀ u ∈ t :: ts, (listType t).accepts u)
    (hw : ∃ u ∈ t :: ts, outOfRange false (elementCode (listType t) u)) :
    codesOrCharsToBuffer false (plList (t :: ts)) = .error .cvtWide := by
  have hloop := codesLoop_wide h hw
  rw [plList] at hloop ⊢
  rw [codesOrCharsToBuffer_cons, elementResult_wide (h t List.mem_cons_self), hloop]
  exact ite_self _

theorem buffer_error (wide : Bool) (h : ∃ u ∈ t :: ts, (listType t).accepts u = false) :
    ∃ e, codesOrCharsToBuffer wide (plList (t :: ts)) = .error e := by
  obtain ⟨e, hloop⟩ := codesLoop_error wide h
  rw [plList] at hloop ⊢
  rw [codesOrCharsToBuffer_cons, hloop]
  by_cases ht : outOfRange wide (elementCode (listType t) t)
  · rw [if_pos ht]
    exact ⟨_, rfl⟩
  · rw [if_neg ht]
    exact ⟨e, rfl⟩

/-- `PL_get_text` of a list that starts with `t`, by the elements that its type accepts. -/
theorem plGetText_cons (other : Text → Term → Text) :
    plGetText other (plList (t :: ts)) =
      if (t :: ts).all (listType t).accepts then (t :: ts).map charOf
      else wideChars (writeTerm other [] (plList (t :: ts))) := by
  have hget : plGetText other (plList (t :: ts)) = plGetListText other (plList (t :: ts)) := rfl
  rw [hget]
  unfold plGetListText
  by_cases h : (t :: ts).all (listType t).accepts
  · have hall : ∀ u ∈ t :: ts, (listType t).accepts u := List.all_eq_true.mp h
    rw [if_pos h]
    by_cases hw : ∃ u ∈ t :: ts, outOfRange false (elementCode (listType t) u)
    · have hok : ∀ u ∈ t :: ts, (listType t).accepts u ∧
          outOfRange true (elementCode (listType t) u) = false := by
        intro u hu
        rw [outOfRange_true, hall u hu]
        exact ⟨rfl, rfl⟩
      rw [buffer_wide hall hw, buffer_ok hok]
    · have hok : ∀ u ∈ t :: ts, (listType t).accepts u ∧
          outOfRange false (elementCode (listType t) u) = false := by
        intro u hu
        refine ⟨hall u hu, ?_⟩
        by_contra hout
        exact hw ⟨u, hu, by simpa using hout⟩
      rw [buffer_ok hok]
  · have hex : ∃ u ∈ t :: ts, (listType t).accepts u = false := by
      obtain ⟨u, hu, hno⟩ := List.all_eq_false.mp (Bool.eq_false_iff.mpr h)
      exact ⟨u, hu, by simpa using hno⟩
    obtain ⟨e, he⟩ := buffer_error false hex
    obtain ⟨e', he'⟩ := buffer_error true hex
    rw [if_neg h, he, he']
    cases e <;> rfl

end

/-- Only the type of the first element can accept every element. -/
theorem all_accepts_iff (t : Term) (ts : List Term) :
    (t :: ts).all (listType t).accepts ↔ (t :: ts).all isCode ∨ (t :: ts).all isChar := by
  cases t with
  | int i =>
    have hno : isChar (.int i) = false := rfl
    simp [listType, ListType.accepts, hno]
  | var | float | str | atom | nil | blob | compound =>
    simp [listType, ListType.accepts, isCode]

/-- A list is given as the text it spells; a list that spells none is written. -/
theorem plGetText_plList (other : Text → Term → Text) (ts : List Term) :
    plGetText other (plList ts) =
      (spelled ts).getD (wideChars (writeTerm other [] (plList ts))) := by
  cases ts with
  | nil => rfl
  | cons t ts =>
    rw [plGetText_cons]
    unfold spelled
    by_cases h : (t :: ts).all isCode ∨ (t :: ts).all isChar
    · rw [if_pos h, if_pos ((all_accepts_iff t ts).mpr h), Option.getD_some]
    · rw [if_neg h, if_neg fun e => h ((all_accepts_iff t ts).mp e), Option.getD_none]

/-! ## What R is shown -/

/-- The wide characters that the `wchar_t *` of an answer shows. -/
def compText (other : Text → Term → Text) (t : Term) : List Nat :=
  (plGetText other t).takeWhile (· ≠ 0)

/-- A bracket, a comma, a quote or a digit. -/
def isMark (c : Char) : Bool :=
  ['(', ')', '[', ']', '\x7b', '\x7d', ',', '\'', '"', '`'].contains c || c.isDigit

/-- The answers considered: proper lists of integers, ASCII atoms and ASCII strings, integers, and
ASCII atoms and strings without marks. -/
inductive IsAnswer : Term → Prop where
  | list (ts : List Term) : (∀ t ∈ ts, IsItem t) → IsAnswer (plList ts)
  | int (i : Int) : IsAnswer (.int i)
  | atom (a : Text) : IsAscii a → (∀ c ∈ a, isMark c = false) → IsAnswer (.atom a)
  | str (s : Text) : IsAscii s → (∀ c ∈ s, isMark c = false) → IsAnswer (.str s)

/-- How an answer is shown: an atom, string or integer by its text, a list as the text it spells,
any other list as it is written. -/
inductive Display where
  | text (s : List Nat)
  | spelled (s : List Nat)
  | written (ts : List Term)

def display : Term → Display
  | .int i => .text (wideChars (decimal i))
  | .atom a => .text (wideChars a)
  | .str s => .text (wideChars s)
  | t =>
    match spelled t.elements with
    | some s => .spelled s
    | none => .written t.elements

/-- Two answers are shown differently: texts that differ before the first NUL, lists that differ
through the first NUL when both are written, and a text that does not spell the writing. -/
def Display.Apart : Display → Display → Prop
  | .written ts, .written us => readable ts ≠ readable us
  | .written _, .text _ | .text _, .written _ => True
  | .written ts, .spelled s | .spelled s, .written ts =>
    s.takeWhile (· ≠ 0) ≠ wideChars (cutNul (listText ts))
  | .text s, .text s' | .text s, .spelled s' | .spelled s, .text s' | .spelled s, .spelled s' =>
    s.takeWhile (· ≠ 0) ≠ s'.takeWhile (· ≠ 0)

/-- The wide characters of a display. -/
def Display.chars : Display → List Nat
  | .text s | .spelled s => s.takeWhile (· ≠ 0)
  | .written ts => wideChars (cutNul (listText ts))

/-- Written lists have elements, and texts of their own do not start with a bracket. -/
def Display.Sound : Display → Prop
  | .text s => s.head? ≠ some 91
  | .spelled _ => True
  | .written ts => ts ≠ [] ∧ ∀ t ∈ ts, IsItem t

theorem takeWhile_wideChars (s : Text) :
    (wideChars s).takeWhile (· ≠ 0) = wideChars (cutNul s) := by
  unfold wideChars cutNul
  rw [List.takeWhile_map]
  rfl

theorem display_plList (ts : List Term) :
    display (plList ts) = (spelled ts).elim (.written ts) .spelled := by
  have h : display (plList ts) =
      match spelled (plList ts).elements with
      | some s => .spelled s
      | none => .written (plList ts).elements := by
    cases ts <;> rfl
  rw [h, elements_plList]
  cases spelled ts <;> rfl

theorem head?_wideChars {s : Text} (h : ∀ c ∈ s, c ≠ '[') : (wideChars s).head? ≠ some 91 := by
  cases s with
  | nil => simp [wideChars]
  | cons c s =>
    intro e
    have hc : c.toNat = 91 := by simpa [wideChars] using e
    exact h c List.mem_cons_self (Char.toNat_inj.mp hc)

theorem not_bracket_of_isMark {s : Text} (h : ∀ c ∈ s, isMark c = false) : ∀ c ∈ s, c ≠ '[' := by
  intro c hc e
  have hm := h c hc
  rw [e] at hm
  exact absurd hm (by decide)

theorem not_bracket_decimal (i : Int) : ∀ c ∈ decimal i, c ≠ '[' := by
  obtain ⟨ds, _, hds, h⟩ := decimal_cases i
  have hno : ∀ c ∈ ds, c ≠ '[' := by
    intro c hc e
    have hd := hds c hc
    rw [e] at hd
    exact absurd hd (by decide)
  rcases h with h | h
  · rw [h]
    exact hno
  · rw [h, List.forall_mem_cons]
    exact ⟨by decide, hno⟩

/-- The `wchar_t *` of an answer is its display. -/
theorem compText_eq (other : Text → Term → Text) {t : Term} (h : IsAnswer t) :
    compText other t = (display t).chars ∧ (display t).Sound := by
  cases h with
  | int i => exact ⟨rfl, head?_wideChars (not_bracket_decimal i)⟩
  | atom a _ ha => exact ⟨rfl, head?_wideChars (not_bracket_of_isMark ha)⟩
  | str s _ hs => exact ⟨rfl, head?_wideChars (not_bracket_of_isMark hs)⟩
  | list ts hts =>
    unfold compText
    rw [plGetText_plList, display_plList]
    cases hs : spelled ts with
    | some s => exact ⟨rfl, trivial⟩
    | none =>
      have hne : ts ≠ [] := by
        intro e
        rw [e] at hs
        cases hs
      obtain ⟨t, us, rfl⟩ := List.exists_cons_of_ne_nil hne
      refine ⟨?_, hne, hts⟩
      rw [Option.getD_none, writeTerm_plList other hts, takeWhile_wideChars]
      rfl

/-- A text of its own does not read like a written list. -/
theorem text_ne_written {s : List Nat} {ts : List Term} (hs : s.head? ≠ some 91) (hne : ts ≠ []) :
    s.takeWhile (· ≠ 0) ≠ wideChars (cutNul (listText ts)) := by
  intro e
  rw [cutNul_listText hne] at e
  cases s with
  | nil => cases e
  | cons c s =>
    by_cases hc : c = 0
    · simp [hc, wideChars] at e
    · rw [List.takeWhile_cons_of_pos (by simpa using hc)] at e
      exact hs (congrArg some (List.cons.inj e).1)

theorem chars_ne_iff {d d' : Display} (h : d.Sound) (h' : d'.Sound) :
    d.chars ≠ d'.chars ↔ d.Apart d' := by
  cases d with
  | text s =>
    cases d' with
    | text s' => exact Iff.rfl
    | spelled s' => exact Iff.rfl
    | written us => exact ⟨fun _ => trivial, fun _ => text_ne_written h h'.1⟩
  | spelled s =>
    cases d' with
    | text s' => exact Iff.rfl
    | spelled s' => exact Iff.rfl
    | written us => exact Iff.rfl
  | written ts =>
    cases d' with
    | text s' => exact ⟨fun _ => trivial, fun _ => (text_ne_written h' h.1).symm⟩
    | spelled s' => exact ne_comm
    | written us =>
      have heq : wideChars (cutNul (listText ts)) = wideChars (cutNul (listText us)) ↔
          cutNul (listText ts) = cutNul (listText us) :=
        ⟨wideChars_injective, congrArg wideChars⟩
      exact not_congr (heq.trans (listText_eq_iff h.2 h'.2 h.1 h'.1))

/-- The text of every term in this world is that of `PL_get_text`. -/
def World.GetsText (w : World) (other : Text → Term → Text) : Prop :=
  ∀ t s, plGetText other t = wideChars s → w.termText t = s

theorem wideString_ne_iff {w : World} {other : Text → Term → Text} (hw : w.GetsText other)
    {t₁ t₂ : Term} {s₁ s₂ : Text} (h₁ : plGetText other t₁ = wideChars s₁)
    (h₂ : plGetText other t₂ = wideChars s₂) :
    wideString w t₁ ≠ wideString w t₂ ↔ compText other t₁ ≠ compText other t₂ := by
  have hstr : wideString w t₁ = wideString w t₂ ↔ wideToNative s₁ = wideToNative s₂ := by
    unfold wideString
    rw [hw t₁ s₁ h₁, hw t₂ s₂ h₂]
    simp
  have hchars : compText other t₁ = compText other t₂ ↔ cutNul s₁ = cutNul s₂ := by
    unfold compText
    rw [h₁, h₂, takeWhile_wideChars, takeWhile_wideChars]
    exact ⟨wideChars_injective, congrArg wideChars⟩
  rw [Ne, Ne, hstr, hchars, wideToNative_eq_iff]

/-- Two answers give different wide texts, and different R strings where the wide texts are
Unicode, exactly when their displays are apart. -/
theorem comp_ne_iff {w : World} {other : Text → Term → Text} (hw : w.GetsText other)
    {t₁ t₂ : Term} (h₁ : IsAnswer t₁) (h₂ : IsAnswer t₂) :
    (compText other t₁ ≠ compText other t₂ ↔ (display t₁).Apart (display t₂)) ∧
    ∀ s₁ s₂, plGetText other t₁ = wideChars s₁ → plGetText other t₂ = wideChars s₂ →
      (wideString w t₁ ≠ wideString w t₂ ↔ (display t₁).Apart (display t₂)) := by
  obtain ⟨e₁, hs₁⟩ := compText_eq other h₁
  obtain ⟨e₂, hs₂⟩ := compText_eq other h₂
  have hwide : compText other t₁ ≠ compText other t₂ ↔ (display t₁).Apart (display t₂) := by
    rw [e₁, e₂]
    exact chars_ne_iff hs₁ hs₂
  exact ⟨hwide, fun s₁ s₂ hg₁ hg₂ => (wideString_ne_iff hw hg₁ hg₂).trans hwide⟩

/-- A world whose texts are those of `PL_get_text`. -/
def textWorld : World :=
  { worldOf .fail with termText := fun t => (plGetText (fun out _ => out) t).map Char.ofNat }

theorem getsText_textWorld : textWorld.GetsText fun out _ => out := by
  intro t s h
  show (plGetText (fun out _ => out) t).map Char.ofNat = s
  rw [h, wideChars, List.map_map]
  exact (List.map_congr_left fun c _ => Char.ofNat_toNat c).trans (List.map_id s)

/-- The list `[97]` and the atom `a` are both shown as `a`. -/
theorem comp_collision :
    IsAnswer (plList [.int 97]) ∧ IsAnswer (.atom ['a']) ∧ plList [.int 97] ≠ .atom ['a'] ∧
      wideString textWorld (plList [.int 97]) = wideString textWorld (.atom ['a']) := by
  have htext : textWorld.termText (plList [.int 97]) = textWorld.termText (.atom ['a']) := by
    show (plGetText (fun out _ => out) (plList [.int 97])).map Char.ofNat =
      (wideChars ['a']).map Char.ofNat
    rw [plGetText_plList]
    rfl
  refine ⟨.list _ ?_, .atom _ (by decide) ?_, by simp [plList, Term.cons], ?_⟩
  · intro t ht
    rw [List.mem_singleton.mp ht]
    exact .int 97
  · intro c hc
    rw [List.mem_singleton.mp hc]
    decide
  · unfold wideString
    rw [htext]

/-- `[1, -2]` and `[a, -2]` are shown as they are written. -/
theorem comp_ne_written :
    (compText (fun out _ => out) (plList [.int 1, .int (-2)]) ≠
        compText (fun out _ => out) (plList [.atom ['a'], .int (-2)]) ↔
      (display (plList [.int 1, .int (-2)])).Apart (display (plList [.atom ['a'], .int (-2)]))) ∧
    ∀ s₁ s₂, plGetText (fun out _ => out) (plList [.int 1, .int (-2)]) = wideChars s₁ →
      plGetText (fun out _ => out) (plList [.atom ['a'], .int (-2)]) = wideChars s₂ →
      (wideString textWorld (plList [.int 1, .int (-2)]) ≠
          wideString textWorld (plList [.atom ['a'], .int (-2)]) ↔
        (display (plList [.int 1, .int (-2)])).Apart
          (display (plList [.atom ['a'], .int (-2)]))) := by
  refine comp_ne_iff getsText_textWorld (.list _ ?_) (.list _ ?_)
  · simpa using ⟨.int 1, .int (-2)⟩
  · simpa using ⟨.atom ['a'] (by decide), .int (-2)⟩

end Rolog
