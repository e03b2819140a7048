/-
  What the two passes of the reader keep of a text. The first pass copies it character by
  character, or leaves a blank (`rawRead_marks`), so every double quote that the second pass sees
  is one of the text. A quoted text needs a character for each of its codes, and more if it has
  escapes or doubled quotes (`getString_bound`). Hence a string token is no longer than the text
  between its quotes (`tokens_str`).
-/
import Mathlib.Data.List.Forall2
import Rolog.Tokens

namespace Rolog

/-! ## The first pass -/

/-- What may stand in the read buffer for a character of the text. -/
def Stands (o i : Char) : Prop := o = i ∨ isBlank o

theorem Stands.refl (c : Char) : Stands c c := .inl rfl

theorem isBlank_space : isBlank ' ' := by decide

theorem isBlank_blankOf (c : Char) : isBlank (Raw.blankOf c) := by
  unfold Raw.blankOf
  by_cases h : c = '\n'
  · rw [if_pos h]
    decide
  · rw [if_neg h]
    decide

/-- The characters that are read and not in the buffer yet, the last one first. -/
def RawMode.pending : RawMode → Text
  | .slash => ['/']
  | .blockStart => ['*', '/']
  | .radix _ => ['\'']
  | _ => []

namespace Raw

/-- The buffer stands for the text read so far, the last character first. -/
def Kept (r : Raw) (seen : Text) : Prop :=
  r.somethingRead = true ∧ List.Forall₂ Stands r.out seen

/-- The invariant of `step`. What follows the end of the term is not in the buffer. -/
def Copies (r : Raw) (seen : Text) : Prop :=
  r.mode = .failed ∨ r.mode = .stop ∧ (∃ n, r.Kept (seen.drop n)) ∨
    r.mode ≠ .stop ∧ ({ r with out := r.mode.pending ++ r.out } : Raw).Kept seen

theorem Kept.add (h : Kept r seen) (hc : Stands o i) : (r.add o).Kept (i :: seen) :=
  ⟨h.1, .cons hc h.2⟩

theorem Kept.addBlank (h : Kept r seen) (ho : isBlank o) (i : Char) :
    (r.addBlank o).Kept (i :: seen) := by
  unfold Raw.addBlank
  rw [if_pos h.1]
  exact h.add (.inr ho)

theorem Kept.setStartLine (h : Kept r seen) : r.setStartLine.Kept seen := ⟨rfl, h.2⟩

/-- A buffer with the characters that the mode holds back. -/
theorem Kept.goto (h : Kept r seen) (m : RawMode) : (r.goto m).Copies (m.pending ++ seen) := by
  by_cases hs : m = .stop
  · subst hs
    exact .inr (.inl ⟨rfl, 0, h⟩)
  · refine .inr (.inr ⟨hs, h.1, List.rel_append ?_ h.2⟩)
    exact List.forall₂_same.mpr fun c _ => .refl c

/-- The mode stays, and holds nothing back. -/
theorem Kept.stay (h : Kept r seen) (hm : r.mode.pending = []) : r.Copies seen := by
  have := h.goto r.mode
  rw [hm] at this
  exact this

theorem Kept.openQuote (h : Kept r seen) (c : Char) : (r.openQuote c).Copies (c :: seen) :=
  (h.setStartLine.add (.refl c)).goto (.quoted c .text)

theorem Kept.singleQuote (h : Kept r seen) : r.singleQuote.Copies ('\'' :: seen) := by
  unfold Raw.singleQuote
  cases radixBase r.out with
  | none => exact h.openQuote '\''
  | some base =>
    cases base with
    | zero => exact (h.add (.refl '\'')).goto .charCode
    | succ n => exact h.goto (.radix (n + 1))

theorem Kept.handle (h : Kept r seen) (c : Char) : (r.handle c).Copies (c :: seen) := by
  have hadd : (r.add c).Kept (c :: seen) := h.add (.refl c)
  unfold Raw.handle
  by_cases h1 : c = '/'
  · subst h1
    exact h.goto .slash
  rw [if_neg h1]
  by_cases h2 : c = '%'
  · rw [if_pos h2]
    exact (h.addBlank isBlank_space c).goto .line
  rw [if_neg h2]
  by_cases h3 : c = '\''
  · subst h3
    exact h.singleQuote
  rw [if_neg h3]
  by_cases h4 : c = '"' ∨ c = '`'
  · rw [if_pos h4]
    exact h.openQuote c
  rw [if_neg h4]
  by_cases h5 : c = '.'
  · rw [if_pos h5]
    exact hadd.setStartLine.goto .dot
  rw [if_neg h5]
  by_cases h6 : isBlank c
  · rw [if_pos h6]
    exact (h.addBlank h6 c).goto .next
  rw [if_neg h6]
  by_cases h7 : isSymbol c
  · rw [if_pos h7]
    exact (h.setStartLine.add (.refl c)).goto .symbols
  rw [if_neg h7]
  by_cases h8 : c = '|' ∧ r.out.head? = some '|'
  · rw [if_pos h8]
    exact hadd.goto .quasi
  · rw [if_neg h8]
    exact hadd.setStartLine.goto .next

theorem Kept.symbols (h : Kept r seen) (c : Char) : (r.symbols c).Copies (c :: seen) := by
  unfold Raw.symbols
  by_cases hc : isSymbol c
  · rw [if_pos hc]
    exact (h.add (.refl c)).goto .symbols
  · rw [if_neg hc]
    exact h.handle c

theorem Kept.quotedText (h : Kept r seen) (quote c : Char) :
    (r.quotedText quote c).Copies (c :: seen) := by
  have hadd : (r.add c).Kept (c :: seen) := h.add (.refl c)
  unfold Raw.quotedText
  by_cases hc : c = quote
  · rw [if_pos hc]
    exact hadd.goto .next
  · rw [if_neg hc]
    exact hadd.goto (.quoted _ _)

theorem Kept.nextOrText (h : Kept r seen) (quote c : Char) :
    (r.goto (if c = quote then .next else .quoted quote .text)).Copies seen := by
  by_cases hc : c = quote
  · rw [if_pos hc]
    exact h.goto .next
  · rw [if_neg hc]
    exact h.goto (.quoted _ _)

theorem Kept.quoted (h : Kept r seen) (hr : r.mode = .quoted quote m) (c : Char) :
    (r.quoted quote m c).Copies (c :: seen) := by
  have hadd : (r.add c).Kept (c :: seen) := h.add (.refl c)
  have hstay : (r.add c).mode.pending = [] := by
    show r.mode.pending = []
    rw [hr]
    rfl
  unfold Raw.quoted
  cases m with
  | text => exact h.quotedText quote c
  | escape => exact hadd.goto (.quoted _ _)
  | hex =>
    by_cases hd : (digitValue 16 c).isSome
    · simp only [hd]
      exact hadd.goto (.quoted _ _)
    · simp only [hd]
      exact hadd.nextOrText quote c
  | digits base =>
    by_cases hd : (digitValue base c).isSome
    · simp only [hd]
      exact hadd.stay hstay
    · simp only [hd]
      exact hadd.nextOrText quote c
  | blanks =>
    by_cases hb : isBlank c
    · simp only [hb]
      exact hadd.stay hstay
    · simp only [hb]
      exact h.quotedText quote c
  | newline => exact hadd.nextOrText quote c

theorem Kept.block (h : Kept r seen) (last : Char) (level : Nat) (c : Char) :
    (r.block last level c).Copies (c :: seen) := by
  have hblank : (r.addBlank ' ').Kept (c :: seen) := h.addBlank isBlank_space c
  unfold Raw.block
  by_cases h1 : c = '*'
  · rw [if_pos h1]
    exact hblank.goto (.block _ _)
  rw [if_neg h1]
  by_cases h2 : c = '/' ∧ last = '*'
  · rw [if_pos h2]
    by_cases hl : level = 1
    · -- the comment ends as a blank
      rw [if_pos hl]
      exact hblank.goto .next
    · rw [if_neg hl]
      exact hblank.goto (.block _ _)
  · rw [if_neg h2]
    exact (h.addBlank (isBlank_blankOf c) c).goto (.block _ _)

/-- A character of the buffer can be left out, with the one it stands for. -/
theorem Kept.tail {m : RawMode} {out : Text} {read : Bool} (h : Kept ⟨m, o :: out, read⟩ seen) :
    ∃ i seen', seen = i :: seen' ∧ Kept ⟨m, out, read⟩ seen' := by
  obtain ⟨hread, hout⟩ := h
  obtain ⟨i, seen', _, hrest, hseen⟩ := List.forall₂_cons_left_iff.mp hout
  exact ⟨i, seen', hseen, hread, hrest⟩

/-- One character keeps the invariant. -/
theorem Copies.step (h : Copies r seen) (c : Char) : (r.step c).Copies (c :: seen) := by
  obtain hf | ⟨hs, n, h⟩ | ⟨hs, h⟩ := h
  · unfold Raw.step
    rw [hf]
    exact .inl hf
  · unfold Raw.step
    rw [hs]
    exact .inr (.inl ⟨hs, n + 1, h⟩)
  obtain ⟨mode, out, read⟩ := r
  have hadd := h.add (.refl c)
  cases mode with
  | next => exact h.handle c
  | symbols => exact h.symbols c
  | slash =>
    show Copies (if c = '*' then _ else _) _
    by_cases hc : c = '*'
    · rw [if_pos hc, hc]
      exact .inr (.inr ⟨nofun, h.add (.refl '*')⟩)
    · rw [if_neg hc]
      exact h.setStartLine.symbols c
  | blockStart =>
    obtain ⟨a, seen₁, hseen₁, h₁⟩ := h.tail
    obtain ⟨b, seen₂, hseen₂, h₂⟩ := h₁.tail
    subst hseen₁ hseen₂
    have hblank := (h₂.addBlank isBlank_space b).addBlank isBlank_space a
    exact (hblank.addBlank (isBlank_blankOf c) c).goto (.block c 1)
  | block last level => exact h.block last level c
  | line =>
    show Copies (if c = '\n' then _ else _) _
    by_cases hc : c = '\n'
    · rw [if_pos hc]
      exact h.handle c
    · rw [if_neg hc]
      exact (h.addBlank isBlank_space c).goto .line
  | dot =>
    show Copies (if isBlank c ∨ c = '%' then (if out.length = 1 then _ else _) else _) _
    by_cases hc : isBlank c ∨ c = '%'
    · rw [if_pos hc]
      by_cases hl : out.length = 1
      · rw [if_pos hl]
        exact .inl rfl
      · rw [if_neg hl]
        exact (h.add (.inr isBlank_space : Stands ' ' c)).goto .stop
    · rw [if_neg hc]
      exact h.symbols c
  | quoted quote m => exact h.quoted rfl c
  | charCode =>
    show Copies (Raw.goto _ (if c = '\\' then _ else if c = '\'' ∨ c = '|' then _ else _)) _
    split_ifs
    · exact hadd.goto .charEscape
    · exact hadd.goto (.charTwice c)
    · exact hadd.goto .next
  | charEscape => exact hadd.goto .next
  | charTwice d =>
    show Copies (if c = d then _ else _) _
    by_cases hc : c = d
    · rw [if_pos hc]
      exact hadd.goto .next
    · rw [if_neg hc]
      exact h.handle c
  | radix base =>
    show Copies (if (digitValue base c).isSome then _ else _) _
    by_cases hd : (digitValue base c).isSome
    · rw [if_pos hd]
      exact hadd.goto .next
    · rw [if_neg hd]
      exact h.setStartLine.quotedText '\'' c
  | quasi =>
    show Copies (Raw.goto _ (if c = '\x7d' ∧ out.head? = some '|' then _ else _)) _
    split_ifs
    · exact hadd.goto .next
    · exact hadd.goto .quasi
  | stop => exact absurd rfl hs
  | failed => exact .inl rfl

/-- A text keeps the invariant. -/
theorem Copies.foldl (h : Copies r seen) (text : Text) :
    (text.foldl Raw.step r).Copies (text.reverse ++ seen) := by
  induction text generalizing r seen with
  | nil => exact h
  | cons c text ih =>
    rw [List.foldl_cons, List.reverse_cons, List.append_assoc]
    exact ih (h.step c)

end Raw

/-- The double quotes of a buffer are quotes of the text, at the same places. -/
def Marks (raw text : Text) : Prop := ∀ i : Nat, raw[i]? = some '"' → text[i]? = some '"'

section
variable {r : Raw} {text raw : Text} {n : Nat}

/-- A buffer that stands for the start of a text, and what is put behind it. -/
theorem Raw.Kept.marks (h : r.Kept (text.reverse.drop n)) (tail : Text) (ht : '"' ∉ tail) :
    Marks (r.out.reverse ++ tail) text := by
  intro i hi
  have hout : List.Forall₂ Stands r.out.reverse (text.take (text.length - n)) := by
    have := List.forall₂_reverse_iff.mpr h.2
    rw [List.reverse_drop, List.reverse_reverse, List.length_reverse] at this
    exact this
  by_cases hlt : i < r.out.reverse.length
  · rw [List.getElem?_append_left hlt] at hi
    have hlt' : i < (text.take (text.length - n)).length := hout.length_eq ▸ hlt
    have hstands := hout.get hlt hlt'
    rw [List.getElem?_eq_some_iff] at hi
    obtain ⟨_, hi⟩ := hi
    rw [List.get_eq_getElem, List.get_eq_getElem, hi, List.getElem_take] at hstands
    obtain hs | hs := hstands
    · exact List.getElem?_eq_some_iff.mpr ⟨_, hs.symm⟩
    · exact absurd hs (by decide)
  · rw [List.getElem?_append_right (Nat.le_of_not_lt hlt)] at hi
    exact absurd (List.mem_of_getElem? hi) ht

theorem Raw.ensureSpace_cases (r : Raw) :
    r.ensureSpace ' ' = r ∨ r.ensureSpace ' ' = r.add ' ' := by
  unfold Raw.ensureSpace
  split_ifs
  · exact .inr rfl
  · exact .inl rfl

/-- The full stop that is put behind a text without one. -/
theorem Raw.endOfText_eq (h : r.somethingRead = true) :
    ∃ tail, '"' ∉ tail ∧ r.endOfText = r.out.reverse ++ tail := by
  unfold Raw.endOfText
  rw [if_pos h]
  have hblank : ∀ s : Raw, ∃ blank, '"' ∉ blank ∧ (s.ensureSpace ' ').out = blank ++ s.out := by
    intro s
    rcases s.ensureSpace_cases with hs | hs
    · exact ⟨[], by simp, by rw [hs]; rfl⟩
    · exact ⟨[' '], by simp, by rw [hs]; rfl⟩
  obtain ⟨b₁, h₁, e₁⟩ := hblank r
  obtain ⟨b₂, h₂, e₂⟩ := hblank ((r.ensureSpace ' ').add '.')
  refine ⟨(b₂ ++ '.' :: b₁).reverse, by simp [h₁, h₂], ?_⟩
  rw [e₂, ← List.reverse_append, List.append_assoc, List.cons_append, ← e₁]
  rfl

/-- The end of the text keeps the quotes. -/
theorem Raw.Copies.finish (h : r.Copies text.reverse) (hraw : r.finish = some raw) :
    Marks raw text := by
  have hend : ∀ s : Raw, s.Kept text.reverse → Marks s.endOfText text := by
    intro s hs
    obtain ⟨tail, ht, he⟩ := Raw.endOfText_eq hs.1
    rw [he]
    exact Raw.Kept.marks (n := 0) hs tail ht
  obtain hf | ⟨hs, n, h⟩ | ⟨hs, h⟩ := h
  · unfold Raw.finish at hraw
    rw [hf] at hraw
    cases hraw
  · unfold Raw.finish at hraw
    rw [hs] at hraw
    obtain rfl := Option.some.inj hraw
    have := h.marks [] (by simp)
    rwa [List.append_nil] at this
  obtain ⟨mode, out, read⟩ := r
  cases mode with
  | next | symbols | line | charEscape | charTwice _ =>
    obtain rfl := Option.some.inj hraw
    exact hend _ h
  | slash =>
    obtain rfl := Option.some.inj hraw
    exact hend _ h.setStartLine
  | dot =>
    have hraw' : (if out.length = 1 then none else some (' ' :: out).reverse) = some raw := hraw
    by_cases hl : out.length = 1
    · rw [if_pos hl] at hraw'
      cases hraw'
    · rw [if_neg hl] at hraw'
      obtain rfl := Option.some.inj hraw'
      rw [List.reverse_cons]
      exact Raw.Kept.marks (n := 0) h [' '] (by simp)
  | stop => exact absurd rfl hs
  | blockStart | block _ _ | quoted _ _ | charCode | radix _ | quasi | failed => cases hraw

end

/-- The first character of a name starts the term. -/
theorem Raw.step_start (h : charType c = .lc) : Raw.start.step c = ⟨.next, [c], true⟩ := by
  have hne : ∀ d, charType d ≠ .lc → c ≠ d := fun d hd e => hd (e ▸ h)
  have hblank : ¬ isBlank c := by simp [isBlank, h]
  have hsymbol : ¬ isSymbol c := by simp [isSymbol, h]
  show Raw.start.handle c = _
  unfold Raw.handle
  rw [if_neg (hne '/' (by decide)), if_neg (hne '%' (by decide)), if_neg (hne '\'' (by decide)),
    if_neg (not_or.mpr ⟨hne '"' (by decide), hne '`' (by decide)⟩), if_neg (hne '.' (by decide)),
    if_neg hblank, if_neg hsymbol, if_neg fun e => hne '|' (by decide) e.1]
  rfl

/-- The first pass puts no double quote where the text has none. -/
theorem rawRead_marks (hc : charType c = .lc) (h : rawRead (c :: text) = some raw) :
    Marks raw (c :: text) := by
  unfold rawRead at h
  rw [List.foldl_cons, Raw.step_start hc] at h
  have hstart : Raw.Copies ⟨.next, [c], true⟩ [c] :=
    .inr (.inr ⟨nofun, rfl, .cons (.refl c) .nil⟩)
  refine Raw.Copies.finish ?_ h
  rw [List.reverse_cons]
  exact hstart.foldl text

/-! ## Quoted texts -/

/-- The characters read since the last code was complete, two at most. -/
def StrMode.pending : StrMode → Nat
  | .text => 0
  | .afterQuote | .escape => 1
  | _ => 2

/-- What a step leaves of the text: no more codes than characters, and as many only for a plain
character or the closing quote. -/
structure StrStep.Bounded (quote : Char) (m : StrMode) (c : Char) (m' : StrMode)
    (codes : List Nat) : Prop where
  le : codes.length + m'.pending ≤ m.pending + 1
  closing : m' = .afterQuote → c = quote
  plain : codes.length + m'.pending = m.pending + 1 → m' = .text →
    m = .text ∧ codes = [c.toNat] ∧ c ≠ quote ∧ c ≠ '\\'
  closed : codes.length + m'.pending = m.pending + 1 → m' = .afterQuote → m = .text ∧ codes = []

theorem StrMode.pending_le (m : StrMode) : m.pending ≤ 2 := by
  unfold StrMode.pending
  split <;> omega

/-- Inside an escape. -/
theorem StrStep.Bounded.wait (hm : m.pending ≠ 0) (htext : m' ≠ .text) (hquote : m' ≠ .afterQuote) :
    StrStep.Bounded quote m c m' [] where
  le := by
    have hle := m'.pending_le
    show 0 + _ ≤ _
    omega
  closing e := absurd e hquote
  plain _ e := absurd e htext
  closed _ e := absurd e hquote

/-- The end of an escape. -/
theorem StrStep.Bounded.code (hl : codes.length ≤ m.pending) :
    StrStep.Bounded quote m c .text codes where
  le := Nat.le_succ_of_le hl
  closing e := by cases e
  plain e _ := by
    have he : codes.length = m.pending + 1 := e
    omega
  closed _ e := by cases e

/-- What a step can be: it goes on within the bounds, or ends the text, at the quote behind `\c` or
behind a quote. -/
def StrStep.Spec (quote : Char) (m : StrMode) (c : Char) : StrStep → Prop
  | .go m' codes => StrStep.Bounded quote m c m' codes
  | .eos => c = quote ∧ m.pending = 2
  | .ret => m = .afterQuote
  | .error => True

theorem textChar_spec (quote c : Char) : (textChar quote [] c).Spec quote .text c := by
  unfold textChar
  split_ifs with h1 h2
  · exact ⟨Nat.le_refl 1, fun _ => h1, by simp, fun _ _ => ⟨rfl, rfl⟩⟩
  · exact ⟨Nat.le_refl 1, by simp, by simp, by simp⟩
  · exact ⟨Nat.le_refl 1, by simp, fun _ _ => ⟨rfl, rfl, h1, h2⟩, by simp⟩

theorem skipCont_spec (hm : m.pending = 2) : (skipCont quote c).Spec quote m c := by
  have hm0 : m.pending ≠ 0 := by omega
  unfold skipCont
  split_ifs with h1 h2
  · exact .wait hm0 (by simp) (by simp)
  · exact ⟨h2, hm⟩
  · exact .code (hm ▸ Nat.le_succ 1)

theorem newlineChar_spec (hm : m.pending = 2) : (newlineChar quote c).Spec quote m c := by
  have hm0 : m.pending ≠ 0 := by omega
  unfold newlineChar
  split_ifs
  · exact .wait hm0 (by simp) (by simp)
  · exact skipCont_spec hm

theorem escapeChar_spec (quote c : Char) : (escapeChar quote c).Spec quote .escape c := by
  have hwait : ∀ m, m ≠ .text → m ≠ .afterQuote → StrStep.Bounded quote .escape c m [] :=
    fun m => .wait (by decide)
  have hcode : ∀ code, StrStep.Bounded quote .escape c .text [code] :=
    fun _ => .code (Nat.le_refl 1)
  unfold escapeChar
  cases symbolicChar c with
  | some code => exact hcode code
  | none =>
    dsimp only
    split_ifs
    · exact hwait .blanks (by simp) (by simp)
    · exact hwait .cr (by simp) (by simp)
    · exact hwait .newline (by simp) (by simp)
    · exact hwait (.unicode 4 0) (by simp) (by simp)
    · exact hwait (.unicode 8 0) (by simp) (by simp)
    · exact hwait .hex (by simp) (by simp)
    · cases digitValue 8 c with
      | some d => exact hwait (.digits 8 d) (by simp) (by simp)
      | none => exact hcode c.toNat
    · cases digitValue 8 c with
      | some d => exact hwait (.digits 8 d) (by simp) (by simp)
      | none => trivial

theorem hexChar_spec (quote c : Char) : (hexChar c).Spec quote .hex c := by
  unfold hexChar
  cases digitValue 16 c with
  | some d => exact .wait (by decide) (by simp) (by simp)
  | none => trivial

theorem digitChar_spec (quote : Char) (base chr : Nat) (c : Char) :
    (digitChar quote base chr c).Spec quote (.digits base chr) c := by
  unfold digitChar
  cases digitValue base c with
  | some d =>
    dsimp only
    split_ifs
    · trivial
    · exact .wait (Nat.succ_ne_zero 1) (by simp) (by simp)
  | none =>
    dsimp only
    unfold textChar
    split_ifs with h1 h2
    · exact .code (Nat.le_succ 1)
    · -- the quote behind the digits
      exact ⟨Nat.le_succ 2, fun _ => h2, by simp, fun e => absurd e (by decide : 2 ≠ 3)⟩
    · exact .code (Nat.le_refl 2)

theorem unicodeChar_spec (quote : Char) (n chr : Nat) (c : Char) :
    (unicodeChar n chr c).Spec quote (.unicode n chr) c := by
  unfold unicodeChar
  cases digitValue 16 c with
  | some d =>
    dsimp only
    split_ifs
    · trivial
    · exact .code (Nat.le_succ 1)
    · exact .wait (Nat.succ_ne_zero 1) (by simp) (by simp)
  | none => trivial

theorem strStep_spec (quote : Char) (m : StrMode) (c : Char) :
    (strStep quote m c).Spec quote m c := by
  unfold strStep
  cases m with
  | text => exact textChar_spec quote c
  | afterQuote =>
    dsimp only
    split_ifs
    · exact .code (Nat.le_refl 1)
    · rfl
  | escape => exact escapeChar_spec quote c
  | blanks =>
    dsimp only
    split_ifs
    · exact .wait (by decide) (by simp) (by simp)
    · exact skipCont_spec rfl
  | newline => exact newlineChar_spec rfl
  | cr =>
    dsimp only
    split_ifs
    · exact .wait (by decide) (by simp) (by simp)
    · exact newlineChar_spec rfl
  | hex => exact hexChar_spec quote c
  | digits base chr => exact digitChar_spec quote base chr c
  | unicode n chr => exact unicodeChar_spec quote n chr c

/-- What `getString` says of the characters `u` that it takes. -/
structure IsQuoted (quote : Char) (m : StrMode) (codes : List Nat) (u : Text) : Prop where
  ends : m = .afterQuote ∧ u = [] ∨ ∃ b, u = b ++ [quote]
  le : codes.length + 1 ≤ u.length + m.pending
  plain : codes.length + 1 = u.length + m.pending →
    m = .afterQuote ∧ codes = [] ∧ u = [] ∨
      m = .text ∧ ∃ b, u = b ++ [quote] ∧ codes = wideChars b ∧ ∀ c ∈ b, c ≠ quote ∧ c ≠ '\\'

/-- One more character in front. -/
theorem IsQuoted.cons (h : IsQuoted quote m' codes' u)
    (hs : StrStep.Bounded quote m c m' codes) :
    IsQuoted quote m (codes ++ codes') (c :: u) where
  ends := by
    obtain ⟨hm, rfl⟩ | ⟨b, rfl⟩ := h.ends
    · exact .inr ⟨[], by rw [hs.closing hm]; rfl⟩
    · exact .inr ⟨c :: b, rfl⟩
  le := by
    have h1 := h.le
    have h2 := hs.le
    rw [List.length_append, List.length_cons]
    omega
  plain e := by
    have h1 := h.le
    have h2 := hs.le
    rw [List.length_append, List.length_cons] at e
    have hstep : codes.length + m'.pending = m.pending + 1 := by omega
    obtain ⟨hm, rfl, rfl⟩ | ⟨hm, b, rfl, rfl, hb⟩ := h.plain (by omega)
    · obtain ⟨rfl, rfl⟩ := hs.closed hstep hm
      exact .inr ⟨rfl, [], by rw [hs.closing hm]; rfl, rfl, by simp⟩
    · obtain ⟨rfl, rfl, hc⟩ := hs.plain hstep hm
      refine .inr ⟨rfl, c :: b, rfl, rfl, ?_⟩
      rw [List.forall_mem_cons]
      exact ⟨hc, hb⟩

/-- A quoted text ends at a quote, and is longer than its codes unless it is plain. -/
theorem getString_bound (h : getString quote m s = some (codes, rest)) :
    ∃ u, s = u ++ rest ∧ IsQuoted quote m codes u := by
  induction s generalizing m codes with
  | nil =>
    unfold getString at h
    split_ifs at h with hm
    obtain ⟨rfl, rfl⟩ := Prod.mk.inj (Option.some.inj h)
    refine ⟨[], rfl, .inl ⟨hm, rfl⟩, ?_, fun _ => .inl ⟨hm, rfl, rfl⟩⟩
    rw [hm]
    decide
  | cons c s ih =>
    have hspec := strStep_spec quote m c
    unfold getString at h
    cases hs : strStep quote m c with
    | go m' codes₁ =>
      rw [hs] at h hspec
      obtain ⟨⟨text, rest'⟩, hrec, he⟩ := Option.map_eq_some_iff.mp h
      obtain ⟨rfl, rfl⟩ := Prod.mk.inj he
      obtain ⟨u, rfl, hu⟩ := ih hrec
      exact ⟨c :: u, rfl, hu.cons hspec⟩
    | eos =>
      rw [hs] at h hspec
      obtain ⟨rfl, rfl⟩ := Prod.mk.inj (Option.some.inj h)
      obtain ⟨rfl, hm⟩ := hspec
      refine ⟨[c], rfl, .inr ⟨[], rfl⟩, ?_, fun e => ?_⟩
      · rw [hm]
        exact Nat.le_add_left 1 2
      · have he : 1 = 1 + m.pending := e
        omega
    | ret =>
      rw [hs] at h hspec
      obtain ⟨rfl, rfl⟩ := Prod.mk.inj (Option.some.inj h)
      have hm : m = .afterQuote := hspec
      refine ⟨[], rfl, .inl ⟨hm, rfl⟩, ?_, fun _ => .inl ⟨hm, rfl, rfl⟩⟩
      rw [hm]
      decide
    | error =>
      rw [hs] at h
      cases h

/-! ## Tokens -/

/-- `str_number` reads a number from the start of a text. -/
def Grammar.ReadsNumbers (g : Grammar) : Prop :=
  ∀ s n rest, g.strNumber s = some (n, rest) → n ≠ [] ∧ s = n ++ rest

/-- What a token takes from the text `s`, and where its codes are if it is a string. -/
structure IsToken (s : Text) (t : ReadToken) (rest : Text) : Prop where
  takes : ∃ u, u ≠ [] ∧ s = u ++ rest
  string : ∀ codes, t = .str codes →
    ∃ front v, s = front ++ '"' :: v ∧ getString '"' .text v = some (codes, rest)

theorem IsToken.of_takes {u : Text} (ht : ∀ codes, t ≠ .str codes) (hu : u ≠ []) :
    IsToken (u ++ rest) t rest :=
  ⟨⟨u, hu, rfl⟩, fun codes h => absurd h (ht codes)⟩

/-- Blanks in front of a token. -/
theorem IsToken.append (h : IsToken s t rest) (blanks : Text) : IsToken (blanks ++ s) t rest where
  takes := by
    obtain ⟨u, hu, rfl⟩ := h.takes
    exact ⟨blanks ++ u, by simp [hu], by rw [List.append_assoc]⟩
  string codes ht := by
    obtain ⟨front, v, rfl, hv⟩ := h.string codes ht
    exact ⟨blanks ++ front, v, by rw [List.append_assoc], hv⟩

theorem nameToken_ne_str (hk : ∀ a codes, kind a ≠ ReadToken.str codes) (a : List Nat) (rest : Text)
    (codes : List Nat) : nameToken kind a rest ≠ .str codes := by
  unfold nameToken
  split_ifs
  · simp
  · simp
  · exact hk a codes

theorem varToken_ne_str (v rest : Text) (codes : List Nat) : varToken v rest ≠ .str codes := by
  unfold varToken
  split_ifs <;> simp

section
variable {g : Grammar} {s rest : Text} {t : ReadToken}

theorem Grammar.ReadsNumbers.numberToken (hg : g.ReadsNumbers)
    (h : g.numberToken s = some (t, rest)) : IsToken s t rest := by
  obtain ⟨⟨n, rest'⟩, hn, he⟩ := Option.map_eq_some_iff.mp h
  obtain ⟨rfl, rfl⟩ := Prod.mk.inj he
  obtain ⟨hne, rfl⟩ := hg _ _ _ hn
  exact .of_takes (by simp) hne

/-- A character and what follows it of its kind. -/
theorem takeWhile_takes (p : Char → Bool) (c : Char) (s : Text) :
    c :: s = (c :: s.takeWhile p) ++ s.dropWhile p := by
  rw [List.cons_append, List.takeWhile_append_dropWhile]

theorem Grammar.ReadsNumbers.symbolToken (hg : g.ReadsNumbers)
    (h : g.symbolToken b c s = some (t, rest)) : IsToken (c :: s) t rest := by
  unfold Grammar.symbolToken at h
  simp only at h
  split_ifs at h
  · exact hg.numberToken h
  · obtain ⟨rfl, rfl⟩ := Prod.mk.inj (Option.some.inj h)
    rw [takeWhile_takes isSymbol c s]
    exact .of_takes (by simp) (List.cons_ne_nil _ _)
  · obtain ⟨rfl, rfl⟩ := Prod.mk.inj (Option.some.inj h)
    rw [takeWhile_takes isSymbol c s]
    exact .of_takes (nameToken_ne_str (by simp) _ _) (List.cons_ne_nil _ _)

/-- The bracket, the blanks behind it, and the match if there is one. -/
theorem openToken_isToken {c : Char} (h : Grammar.openToken c s = some (t, rest))
    (blanks : Text) : IsToken (c :: (blanks ++ s)) t rest := by
  have htakes : ∀ u, (∀ codes, t ≠ .str codes) → s = u ++ rest →
      IsToken (c :: (blanks ++ s)) t rest := by
    intro u ht hs
    have hu : c :: (blanks ++ s) = (c :: (blanks ++ u)) ++ rest := by
      rw [hs, List.cons_append, List.append_assoc]
    rw [hu]
    exact .of_takes ht (List.cons_ne_nil _ _)
  cases s with
  | nil =>
    obtain ⟨rfl, rfl⟩ := Prod.mk.inj (Option.some.inj h)
    exact htakes [] (by simp) rfl
  | cons d s =>
    unfold Grammar.openToken at h
    simp only at h
    split_ifs at h
    · obtain ⟨rfl, rfl⟩ := Prod.mk.inj (Option.some.inj h)
      exact htakes [d] (by simp) rfl
    · obtain ⟨rfl, rfl⟩ := Prod.mk.inj (Option.some.inj h)
      exact htakes [d] (by simp) rfl
    · obtain ⟨rfl, rfl⟩ := Prod.mk.inj (Option.some.inj h)
      exact htakes [] (by simp) rfl

theorem punctToken_isToken {c : Char} (h : Grammar.punctToken c s = some (t, rest)) :
    IsToken (c :: s) t rest := by
  unfold Grammar.punctToken at h
  split_ifs at h
  · have htok := openToken_isToken h (s.takeWhile isBlank)
    rwa [List.takeWhile_append_dropWhile] at htok
  · obtain ⟨rfl, rfl⟩ := Prod.mk.inj (Option.some.inj h)
    exact .of_takes (u := [c]) (by simp) (by simp)

theorem eq_of_charType_dq {c : Char} (h : charType c = .dq) : c = '"' := by
  by_contra hc
  have hq : (c == '"') = false := beq_eq_false_iff_ne.mpr hc
  unfold charType at h
  rw [hq] at h
  iterate 4 (rcases ite_eq_iff.mp h with ⟨_, e⟩ | ⟨_, h⟩; cases e)
  rcases ite_eq_iff.mp h with ⟨e, _⟩ | ⟨_, h⟩
  · cases e
  iterate 4 (rcases ite_eq_iff.mp h with ⟨_, e⟩ | ⟨_, h⟩; cases e)
  rcases ite_eq_iff.mp h with ⟨_, e⟩ | ⟨_, e⟩ <;> cases e

/-- A quoted token. -/
theorem quoted_isToken {quote c : Char} {f : List Nat → Text → ReadToken}
    (hf : ∀ a r codes, f a r = .str codes → c = '"' ∧ quote = '"' ∧ a = codes)
    (h : (getString quote .text s).map (fun (a, rest) => (f a rest, rest)) = some (t, rest)) :
    IsToken (c :: s) t rest := by
  obtain ⟨⟨a, rest'⟩, ha, he⟩ := Option.map_eq_some_iff.mp h
  obtain ⟨rfl, rfl⟩ := Prod.mk.inj he
  obtain ⟨u, hu, -⟩ := getString_bound ha
  refine ⟨⟨c :: u, List.cons_ne_nil _ _, by rw [hu, List.cons_append]⟩, fun codes ht => ?_⟩
  obtain ⟨rfl, rfl, rfl⟩ := hf _ _ _ ht
  exact ⟨[], s, rfl, ha⟩

theorem Grammar.ReadsNumbers.getToken (hg : g.ReadsNumbers) {b : Bool}
    (h : g.getToken b s = some (t, rest)) : IsToken s t rest := by
  have hsplit : s.takeWhile isBlank ++ s.dropWhile isBlank = s :=
    List.takeWhile_append_dropWhile
  rw [← hsplit]
  refine IsToken.append ?_ _
  unfold Grammar.getToken at h
  cases hs : s.dropWhile isBlank with
  | nil =>
    rw [hs] at h
    cases h
  | cons c s =>
    rw [hs] at h
    simp only at h
    cases hc : charType c with
    | ct | sp =>
      rw [hc] at h
      cases h
    | so =>
      rw [hc] at h
      obtain ⟨rfl, rfl⟩ := Prod.mk.inj (Option.some.inj h)
      exact .of_takes (u := [c]) (by intro codes; split_ifs <;> simp) (by simp)
    | sy =>
      rw [hc] at h
      exact hg.symbolToken h
    | pu =>
      rw [hc] at h
      exact punctToken_isToken h
    | dq =>
      rw [hc] at h
      have hq := eq_of_charType_dq hc
      exact quoted_isToken (f := fun a _ => .str a)
        (fun _ _ _ e => ⟨hq, hq, ReadToken.str.inj e⟩) h
    | sq =>
      rw [hc] at h
      exact quoted_isToken (f := nameToken .qname)
        (fun a r codes e => absurd e (nameToken_ne_str (by simp) a r codes)) h
    | bq =>
      rw [hc] at h
      exact quoted_isToken (f := fun a _ => .codes a) (by simp) h
    | uc =>
      rw [hc] at h
      obtain ⟨rfl, rfl⟩ := Prod.mk.inj (Option.some.inj h)
      rw [takeWhile_takes isAlpha c s]
      exact .of_takes (varToken_ne_str _ _) (List.cons_ne_nil _ _)
    | lc =>
      rw [hc] at h
      obtain ⟨rfl, rfl⟩ := Prod.mk.inj (Option.some.inj h)
      rw [takeWhile_takes isAlpha c s]
      exact .of_takes (nameToken_ne_str (by simp) _ _) (List.cons_ne_nil _ _)
    | di =>
      rw [hc] at h
      exact hg.numberToken h

/-- One token, and the rest of them. -/
theorem Grammar.tokens_succ {n : Nat} {prior : List ReadToken} {b : Bool}
    (hb : g.mustBeOp prior = b) (ht : g.getToken b s = some (t, rest)) :
    g.tokens (n + 1) prior s =
      if t = .fullstop then some [t] else (g.tokens n (prior ++ [t]) rest).map (t :: ·) := by
  rw [Grammar.tokens, hb, ht]

theorem Grammar.tokens_of_none {n : Nat} {prior : List ReadToken}
    (ht : g.getToken (g.mustBeOp prior) s = none) : g.tokens n prior s = none := by
  cases n with
  | zero => rfl
  | succ n => rw [Grammar.tokens, ht]

theorem Grammar.tokens_cons {n : Nat} {prior toks : List ReadToken} (t : ReadToken) (rest : Text)
    (ht : g.getToken (g.mustBeOp prior) s = some (t, rest)) (hstop : t ≠ .fullstop)
    (h : g.tokens n (prior ++ [t]) rest = some toks) :
    g.tokens (n + 1) prior s = some (t :: toks) := by
  rw [Grammar.tokens_succ rfl ht, if_neg hstop, h]
  rfl

/-- The codes of a string token are those of a quoted text. -/
theorem Grammar.ReadsNumbers.tokens_str (hg : g.ReadsNumbers) {n : Nat}
    {prior toks : List ReadToken} {codes : List Nat} (h : g.tokens n prior s = some toks)
    (hm : .str codes ∈ toks) :
    ∃ front v rest, s = front ++ '"' :: v ∧ getString '"' .text v = some (codes, rest) := by
  induction n generalizing prior s toks with
  | zero => cases h
  | succ n ih =>
    cases ht : g.getToken (g.mustBeOp prior) s with
    | none =>
      rw [Grammar.tokens_of_none ht] at h
      cases h
    | some p =>
      obtain ⟨t, rest⟩ := p
      have htok := hg.getToken ht
      rw [Grammar.tokens_succ rfl ht] at h
      by_cases hstop : t = .fullstop
      · rw [if_pos hstop] at h
        obtain rfl := Option.some.inj h
        obtain ⟨front, v, hs, hv⟩ := htok.string codes (List.mem_singleton.mp hm).symm
        exact ⟨front, v, rest, hs, hv⟩
      · rw [if_neg hstop] at h
        obtain ⟨toks', hrec, rfl⟩ := Option.map_eq_some_iff.mp h
        rcases List.mem_cons.mp hm with rfl | hm
        · obtain ⟨front, v, hs, hv⟩ := htok.string codes rfl
          exact ⟨front, v, rest, hs, hv⟩
        · obtain ⟨u, -, rfl⟩ := htok.takes
          obtain ⟨front, v, rest', rfl, hv⟩ := ih hrec hm
          exact ⟨u ++ front, v, rest', by rw [List.append_assoc], hv⟩

/-- As many steps as characters are enough: more of them read no other tokens. -/
theorem Grammar.ReadsNumbers.tokens_of_le (hg : g.ReadsNumbers) {n : Nat} {prior : List ReadToken}
    (h : s.length ≤ n) (k : Nat) : g.tokens (n + k) prior s = g.tokens n prior s := by
  induction n generalizing prior s with
  | zero =>
    obtain rfl := List.length_eq_zero_iff.mp (Nat.le_zero.mp h)
    exact Grammar.tokens_of_none rfl
  | succ n ih =>
    cases ht : g.getToken (g.mustBeOp prior) s with
    | none => rw [Grammar.tokens_of_none ht, Grammar.tokens_of_none ht]
    | some p =>
      obtain ⟨t, rest⟩ := p
      obtain ⟨u, hu, rfl⟩ := (hg.getToken ht).takes
      have hpos : 0 < u.length := List.length_pos_iff.mpr hu
      rw [List.length_append] at h
      rw [Nat.succ_add, Grammar.tokens_succ rfl ht, Grammar.tokens_succ rfl ht,
        ih (by omega)]

end

end Rolog
