/-
  The writer keeps the elements of a list apart. Integers and some atoms are written without
  quotes and hold no comma, bracket, quote or NUL; other atoms and strings are quoted, where every
  quote and backslash stands twice. So the text of a list can be read back element by element, up
  to the first NUL (`listText_eq_iff`).
-/
import Rolog.Utf8
import Rolog.Write

namespace Rolog

/-! ## Written lists -/

/-- The elements of the lists considered: integers, ASCII atoms and ASCII strings. -/
inductive IsItem : Term → Prop where
  | int (i : Int) : IsItem (.int i)
  | atom (a : Text) : IsAscii a → IsItem (.atom a)
  | str (s : Text) : IsAscii s → IsItem (.str s)

/-- An atom that is written without quotes. -/
def isUnquoted (a : Text) : Bool :=
  match atomType a with
  | .lower | .symbol | .solo | .special => true
  | .quote | .fullstop => false

/-- An element as it is written. -/
def itemText : Term → Text
  | .int i => decimal i
  | .atom a => if isUnquoted a then a else writeQuoted '\'' a
  | .str s => writeQuoted '"' s
  | _ => []

/-- What follows the opening bracket, or an element. -/
def restText : List Term → Text
  | [] => [']']
  | t :: ts => ',' :: (itemText t ++ restText ts)

/-- A list as it is written. -/
def listText : List Term → Text
  | [] => ['[', ']']
  | t :: ts => '[' :: (itemText t ++ restText ts)

/-- No space is needed after an opening bracket or a comma. -/
theorem putOpenToken_eq {out : Text} (h : out.getLast? = some '[' ∨ out.getLast? = some ',')
    (c : Char) : putOpenToken out c = out := by
  have hn : needSpace c out.getLast? = false := by
    unfold needSpace
    rcases h with h | h
    · rw [h]
      simp only [isquote]
      grind [isAlpha, isSymbol, charType]
    · rw [h]
      simp only [isquote]
      grind [isAlpha, isSymbol, charType]
  unfold putOpenToken
  rw [hn]
  rfl

theorem writeTerm_item (other : Text → Term → Text) {out : Text} {t : Term}
    (h : out.getLast? = some '[' ∨ out.getLast? = some ',') (ht : IsItem t) :
    writeTerm other out t = out ++ itemText t := by
  have hput : ∀ s : Text, putToken out s = out ++ s := by
    intro s
    cases s with
    | nil => rw [putToken, List.append_nil]
    | cons c s => rw [putToken, putOpenToken_eq h]
  cases ht with
  | int i => exact hput (decimal i)
  | atom a _ =>
    show writeAtom out a = out ++ itemText (.atom a)
    cases htype : atomType a <;>
      simp [writeAtom, itemText, isUnquoted, htype, hput, putOpenToken_eq h]
  | str s _ => rfl

theorem writeRest_plList (other : Text → Term → Text) (out : Text) {ts : List Term}
    (h : ∀ t ∈ ts, IsItem t) : writeRest other out (plList ts) = out ++ restText ts := by
  induction ts generalizing out with
  | nil => rfl
  | cons t ts ih =>
    have hcons : writeRest other out (.cons t (plList ts)) =
        writeRest other (writeTerm other (out ++ [',']) t) (plList ts) := by
      simp only [Term.cons, writeRest, if_true]
    rw [plList, hcons, writeTerm_item other (.inr (by simp)) (h t List.mem_cons_self),
      ih _ fun u hu => h u (List.mem_cons_of_mem t hu)]
    simp [restText]

/-- The writer puts the elements between commas and brackets. -/
theorem writeTerm_plList (other : Text → Term → Text) {t : Term} {ts : List Term}
    (h : ∀ u ∈ t :: ts, IsItem u) :
    writeTerm other [] (plList (t :: ts)) = listText (t :: ts) := by
  have hcons : writeTerm other [] (.cons t (plList ts)) =
      writeRest other (writeTerm other ['['] t) (plList ts) := by
    simp only [Term.cons, writeTerm, if_true, List.nil_append]
  rw [plList, hcons, writeTerm_item other (.inl (by simp)) (h t List.mem_cons_self),
    writeRest_plList other _ fun u hu => h u (List.mem_cons_of_mem t hu)]
  rfl

/-! ## Reading an element back -/

/-- An element in the text of a list: without quotes, or between them. -/
inductive Token where
  | bare (s : Text)
  | quoted (quote : Char) (s : Text)
  deriving DecidableEq

/-- The token of an element. -/
def token : Term → Token
  | .int i => .bare (decimal i)
  | .atom a => if isUnquoted a then .bare a else .quoted '\'' a
  | .str s => .quoted '"' s
  | _ => .bare []

/-- The characters of a token without quotes. -/
def inBare (c : Char) : Bool := c ≠ ',' ∧ c ≠ ']'

/-- The first element of a text, and what follows it; `none` if its quotes are not closed. -/
def readItem : Text → Token × Option Text
  | [] => (.bare [], some [])
  | c :: s =>
    if isquote c then
      (.quoted c (Doubling.undouble (putTwice c) c s).1,
        (Doubling.undouble (putTwice c) c s).2)
    else (.bare ((c :: s).takeWhile inBare), some ((c :: s).dropWhile inBare))

/-- A character that can stand in a token without quotes: no comma, bracket, quote or NUL. -/
def isPlain (c : Char) : Bool := inBare c && !isquote c && c.toNat != 0

theorem isPlain_of_type {c : Char}
    (h : charType c = .lc ∨ charType c = .uc ∨ charType c = .di ∨ charType c = .sy ∨
      charType c = .so) : isPlain c := by
  unfold isPlain inBare isquote
  by_contra hno
  have hc : c = ',' ∨ c = ']' ∨ c = '\'' ∨ c = '"' ∨ c.toNat = 0 := by
    simp at hno
    grind
  rcases hc with rfl | rfl | rfl | rfl | hc
  · exact absurd h (by decide)
  · exact absurd h (by decide)
  · exact absurd h (by decide)
  · exact absurd h (by decide)
  · have h0 : c = '\x00' := Char.toNat_inj.mp hc
    rw [h0] at h
    exact absurd h (by decide)

theorem isPlain_of_isAlpha {c : Char} (h : isAlpha c) : isPlain c := by
  apply isPlain_of_type
  unfold isAlpha at h
  split at h
  · next e => exact .inr (.inl e)
  · next e => exact .inl e
  · next e => exact .inr (.inr (.inl e))
  · cases h

theorem isPlain_of_isSymbol {c : Char} (h : isSymbol c) : isPlain c :=
  isPlain_of_type (.inr (.inr (.inr (.inl (by simpa [isSymbol] using h)))))

/-- The four kinds of atoms that are written without quotes. -/
theorem isUnquoted_cases {c : Char} {s : Text} (h : isUnquoted (c :: s)) :
    charType c = .lc ∧ s.all isAlpha ∨ isSymbol c ∧ s.all isSymbol ∨
      charType c = .so ∧ s = [] ∨ c :: s = ['\x7b', '\x7d'] := by
  simp only [isUnquoted, atomType] at h
  by_cases h1 : charType c = .lc
  · rw [if_pos h1] at h
    by_cases hs : s.all isAlpha
    · exact .inl ⟨h1, hs⟩
    · rw [if_neg hs] at h
      cases h
  · rw [if_neg h1] at h
    by_cases h2 : isSymbol c
    · rw [if_pos h2] at h
      by_cases hs : s.all isSymbol
      · exact .inr (.inl ⟨h2, hs⟩)
      · rw [if_neg hs] at h
        split_ifs at h
    · rw [if_neg h2] at h
      by_cases h3 : s = [] ∧ c ≠ '%' ∧ charType c = .so
      · exact .inr (.inr (.inl ⟨h3.2.2, h3.1⟩))
      · rw [if_neg h3] at h
        by_cases h4 : c :: s = ['\x7b', '\x7d']
        · exact .inr (.inr (.inr h4))
        · rw [if_neg h4] at h
          cases h

/-- They have plain characters only. -/
theorem isPlain_of_isUnquoted {a : Text} (h : isUnquoted a) : ∀ c ∈ a, isPlain c := by
  cases a with
  | nil => simp
  | cons c s =>
    rw [List.forall_mem_cons]
    rcases isUnquoted_cases h with ⟨hc, hs⟩ | ⟨hc, hs⟩ | ⟨hc, rfl⟩ | he
    · exact ⟨isPlain_of_type (.inl hc), fun d hd =>
        isPlain_of_isAlpha (List.all_eq_true.mp hs d hd)⟩
    · exact ⟨isPlain_of_isSymbol hc, fun d hd =>
        isPlain_of_isSymbol (List.all_eq_true.mp hs d hd)⟩
    · exact ⟨isPlain_of_type (.inr (.inr (.inr (.inr hc)))), by simp⟩
    · obtain ⟨rfl, rfl⟩ := List.cons.inj he
      refine ⟨by decide, fun d hd => ?_⟩
      rw [List.mem_singleton.mp hd]
      decide

theorem charType_digit {c : Char} (h : c.isDigit) : charType c = .di := by
  have hd : (decide ('0'.val ≤ c.val) && decide (c.val ≤ '9'.val)) = true := h
  rw [Bool.and_eq_true, decide_eq_true_eq, decide_eq_true_eq] at hd
  have hhi : c.toNat ≤ 57 := UInt32.le_iff_toNat_le.mp hd.2
  have hlower : c.isLower = false := by
    show (decide ('a'.val ≤ c.val) && decide (c.val ≤ 'z'.val)) = false
    rw [Bool.and_eq_false_iff, decide_eq_false_iff_not]
    refine .inl fun hl => ?_
    have hlo : 97 ≤ c.toNat := UInt32.le_iff_toNat_le.mp hl
    omega
  have hupper : c.isUpper = false := by
    show decide ('A'.val ≤ c.val ∧ c.val ≤ 'Z'.val) = false
    rw [decide_eq_false_iff_not]
    intro hu
    have hlo : 65 ≤ c.toNat := UInt32.le_iff_toNat_le.mp hu.1
    omega
  have hunder : (c == '_') = false := by
    rw [beq_eq_false_iff_ne]
    rintro rfl
    exact absurd h (by decide)
  unfold charType
  rw [hlower, hupper, hunder, h]
  rfl

theorem charType_toDigits {n : Nat} : ∀ c ∈ Nat.toDigits 10 n, charType c = .di :=
  fun _ hc => charType_digit (Nat.isDigit_of_mem_toDigits (by decide) (by decide) hc)

/-- An integer is written with digits, and perhaps a sign. -/
theorem decimal_cases (i : Int) :
    ∃ ds, ds ≠ [] ∧ (∀ c ∈ ds, charType c = .di) ∧ (decimal i = ds ∨ decimal i = '-' :: ds) := by
  cases i with
  | ofNat n => exact ⟨_, Nat.toDigits_ne_nil, charType_toDigits, .inl rfl⟩
  | negSucc n => exact ⟨_, Nat.toDigits_ne_nil, charType_toDigits, .inr rfl⟩

theorem isPlain_decimal (i : Int) : ∀ c ∈ decimal i, isPlain c := by
  obtain ⟨ds, _, hds, h⟩ := decimal_cases i
  have hplain : ∀ c ∈ ds, isPlain c := fun c hc => isPlain_of_type (.inr (.inr (.inl (hds c hc))))
  rcases h with h | h
  · rw [h]
    exact hplain
  · rw [h, List.forall_mem_cons]
    exact ⟨by decide, hplain⟩

/-- Every integer has its own digits. -/
theorem decimal_injective {i j : Int} (h : decimal i = decimal j) : i = j := by
  have hread : ∀ {m n : Nat}, Nat.toDigits 10 m = Nat.toDigits 10 n → m = n := by
    intro m n e
    rw [← Nat.ofDigitChars_ten_toDigits (n := m), e, Nat.ofDigitChars_ten_toDigits]
  have hsign : ∀ {m n : Nat}, Nat.toDigits 10 m ≠ '-' :: Nat.toDigits 10 n := by
    intro m n e
    have hminus : charType '-' = .di := charType_toDigits '-' (n := m) (by rw [e]; simp)
    exact absurd hminus (by decide)
  cases i with
  | ofNat m =>
    cases j with
    | ofNat n => rw [hread h]
    | negSucc n => exact absurd h hsign
  | negSucc m =>
    cases j with
    | ofNat n => exact absurd h.symm hsign
    | negSucc n => rw [Nat.succ.inj (hread (List.cons.inj h).2)]

/-- No atom that is an integer's text is written without quotes. -/
theorem isUnquoted_decimal (i : Int) : isUnquoted (decimal i) = false := by
  by_contra hq
  have hq : isUnquoted (decimal i) := by simpa using hq
  obtain ⟨ds, hne, hds, h⟩ := decimal_cases i
  obtain ⟨d, ds, rfl⟩ := List.exists_cons_of_ne_nil hne
  have hd : charType d = .di := hds d List.mem_cons_self
  have hsym : isSymbol d = false := by simp [isSymbol, hd]
  rcases h with h | h
  · rw [h] at hq
    rcases isUnquoted_cases hq with ⟨hc, _⟩ | ⟨hc, _⟩ | ⟨hc, _⟩ | he
    · rw [hd] at hc
      cases hc
    · rw [hsym] at hc
      cases hc
    · rw [hd] at hc
      cases hc
    · rw [(List.cons.inj he).1] at hd
      exact absurd hd (by decide)
  · rw [h] at hq
    rcases isUnquoted_cases hq with ⟨hc, _⟩ | ⟨_, hs⟩ | ⟨hc, _⟩ | he
    · exact absurd hc (by decide)
    · rw [List.all_cons, hsym] at hs
      cases hs
    · exact absurd hc (by decide)
    · exact absurd (List.cons.inj he).1 (by decide)

/-- Different elements have different tokens. -/
theorem token_injective {t u : Term} (ht : IsItem t) (hu : IsItem u) (h : token t = token u) :
    t = u := by
  have hint : ∀ i a, token (.int i) ≠ token (.atom a) := by
    intro i a e
    simp only [token] at e
    by_cases ha : isUnquoted a
    · rw [if_pos ha] at e
      rw [← Token.bare.inj e, isUnquoted_decimal] at ha
      cases ha
    · rw [if_neg ha] at e
      cases e
  have hstr : ∀ s a, token (.str s) ≠ token (.atom a) := by
    intro s a e
    simp only [token] at e
    by_cases ha : isUnquoted a
    · rw [if_pos ha] at e
      cases e
    · rw [if_neg ha] at e
      exact absurd (Token.quoted.inj e).1 (by decide)
  cases ht with
  | int i =>
    cases hu with
    | int j => rw [decimal_injective (Token.bare.inj h)]
    | atom a _ => exact absurd h (hint i a)
    | str s _ => cases h
  | atom a _ =>
    cases hu with
    | int i => exact absurd h.symm (hint i a)
    | atom b _ =>
      simp only [token] at h
      by_cases ha : isUnquoted a
      · by_cases hb : isUnquoted b
        · rw [if_pos ha, if_pos hb] at h
          rw [Token.bare.inj h]
        · rw [if_pos ha, if_neg hb] at h
          cases h
      · by_cases hb : isUnquoted b
        · rw [if_neg ha, if_pos hb] at h
          cases h
        · rw [if_neg ha, if_neg hb] at h
          rw [(Token.quoted.inj h).2]
    | str s _ => exact absurd h.symm (hstr s a)
  | str s _ =>
    cases hu with
    | int i => cases h
    | atom a _ => exact absurd h (hstr s a)
    | str s' _ => rw [(Token.quoted.inj h).2]

/-! ## Texts cut at NUL -/

/-- A NUL in the text of an element. -/
def hasNul : Term → Bool
  | .atom a => a.any fun c => c.toNat = 0
  | .str s => s.any fun c => c.toNat = 0
  | _ => false

/-- The element without what follows the NUL in it. -/
def throughNul : Term → Term
  | .atom a => .atom (cutNul a ++ ['\x00'])
  | .str s => .str (cutNul s ++ ['\x00'])
  | t => t

/-- The elements through the first NUL. -/
def readable : List Term → List Term
  | [] => []
  | t :: ts => if hasNul t then [throughNul t] else t :: readable ts

/-- The quote and the text of a quoted element. -/
def quotedText : Term → Char × Text
  | .atom a => ('\'', a)
  | .str s => ('"', s)
  | _ => ('"', [])

theorem cutNul_append {s : Text} (h : ∀ c ∈ s, c.toNat ≠ 0) (r : Text) :
    cutNul (s ++ r) = s ++ cutNul r := by
  unfold cutNul
  rw [List.takeWhile_append_of_pos fun c hc => decide_eq_true (h c hc)]

/-- Up to the first NUL, quoting writes the text up to there. -/
theorem cutNul_double {quote : Char} (hq : quote.toNat ≠ 0) (s r : Text)
    (h : s.any fun c => c.toNat = 0) :
    cutNul (Doubling.double (putTwice quote) s ++ r) =
      Doubling.double (putTwice quote) (cutNul s) := by
  induction s with
  | nil => cases h
  | cons c s ih =>
    rw [Doubling.double_cons, cutNul_cons]
    by_cases hc : c.toNat = 0
    · have htwice : putTwice quote c = false := by
        have hne : c ≠ quote := fun e => hq (e ▸ hc)
        have hb : c ≠ '\\' := fun e => absurd (e ▸ hc) (by decide)
        simp [putTwice, hne, hb]
      have hstop : ¬ c.toNat ≠ 0 := fun hne => hne hc
      rw [htwice, if_neg hstop]
      show cutNul (c :: (Doubling.double (putTwice quote) s ++ r)) = []
      rw [cutNul_cons, if_neg hstop]
    · have hs : s.any fun c => c.toNat = 0 := by simpa [hc] using h
      rw [if_pos hc, Doubling.double_cons, List.append_assoc, cutNul_append, ih hs]
      intro d hd
      split at hd <;> simp at hd <;> rw [hd] <;> exact hc

theorem cutNul_of_not_any {s : Text} (h : ¬ s.any fun c => c.toNat = 0) :
    ∀ c ∈ s, c.toNat ≠ 0 := by
  simpa using h

theorem noNul_double {quote : Char} {s : Text} (h : ∀ c ∈ s, c.toNat ≠ 0) :
    ∀ c ∈ Doubling.double (putTwice quote) s, c.toNat ≠ 0 := by
  intro c hc
  obtain ⟨d, hd, hc⟩ := List.mem_flatMap.mp hc
  have he : c = d := by
    split at hc <;> simpa using hc
  rw [he]
  exact h d hd

theorem noNul_writeQuoted {quote : Char} (hq : quote.toNat ≠ 0) {s : Text}
    (h : ∀ c ∈ s, c.toNat ≠ 0) : ∀ c ∈ writeQuoted quote s, c.toNat ≠ 0 := by
  intro c hc
  simp only [writeQuoted, List.mem_cons, List.mem_append, List.not_mem_nil, or_false] at hc
  rcases hc with rfl | hc | rfl
  · exact hq
  · exact noNul_double h c hc
  · exact hq

theorem noNul_of_isPlain {s : Text} (h : ∀ c ∈ s, isPlain c) : ∀ c ∈ s, c.toNat ≠ 0 := by
  intro c hc
  have hp := h c hc
  simp only [isPlain, Bool.and_eq_true, bne_iff_ne] at hp
  exact hp.2

/-- An element without NUL is written without NUL. -/
theorem noNul_itemText {t : Term} (ht : IsItem t) (h : hasNul t = false) :
    ∀ c ∈ itemText t, c.toNat ≠ 0 := by
  cases ht with
  | int i => exact noNul_of_isPlain (isPlain_decimal i)
  | atom a _ =>
    rw [itemText]
    by_cases ha : isUnquoted a
    · rw [if_pos ha]
      exact noNul_of_isPlain (isPlain_of_isUnquoted ha)
    · rw [if_neg ha]
      exact noNul_writeQuoted (by decide) (cutNul_of_not_any (by simpa [hasNul] using h))
  | str s _ => exact noNul_writeQuoted (by decide) (cutNul_of_not_any (by simpa [hasNul] using h))

theorem readItem_quoted {quote : Char} (hq : isquote quote) (s : Text) :
    readItem (quote :: s) = (.quoted quote (Doubling.undouble (putTwice quote) quote s).1,
      (Doubling.undouble (putTwice quote) quote s).2) := by
  rw [readItem, if_pos hq]

theorem readItem_bare {s r : Text} (hne : s ≠ []) (hs : ∀ c ∈ s, isPlain c)
    (hr : r.head? = some ',' ∨ r.head? = some ']') : readItem (s ++ r) = (.bare s, some r) := by
  have hin : ∀ c ∈ s, inBare c := by
    intro c hc
    have hp := hs c hc
    simp only [isPlain, Bool.and_eq_true] at hp
    exact hp.1.1
  have hstop : r.takeWhile inBare = [] ∧ r.dropWhile inBare = r := by
    cases r with
    | nil => simp
    | cons d r =>
      have hd : inBare d = false := by
        rcases hr with hr | hr <;> cases hr <;> decide
      simp [hd]
  obtain ⟨c, s, rfl⟩ := List.exists_cons_of_ne_nil hne
  have hc : isquote c = false := by
    have hp := hs c List.mem_cons_self
    simp only [isPlain, Bool.and_eq_true, Bool.not_eq_true'] at hp
    exact hp.1.2
  rw [List.cons_append, readItem, hc]
  show (Token.bare ((c :: s ++ r).takeWhile inBare), some ((c :: s ++ r).dropWhile inBare)) = _
  rw [List.takeWhile_append_of_pos hin, List.dropWhile_append_of_pos hin, hstop.1, hstop.2,
    List.append_nil]

/-- A whole element is read back. -/
theorem readItem_whole {t : Term} (ht : IsItem t) {r : Text}
    (hr : r.head? = some ',' ∨ r.head? = some ']') :
    readItem (itemText t ++ r) = (token t, some r) := by
  have hquoted : ∀ quote s, isquote quote → r.head? ≠ some quote →
      readItem (writeQuoted quote s ++ r) = (.quoted quote s, some r) := by
    intro quote s hq hne
    have htext : writeQuoted quote s ++ r =
        quote :: (Doubling.double (putTwice quote) s ++ quote :: r) := by simp [writeQuoted]
    rw [htext, readItem_quoted hq, Doubling.undouble_double_close (by simp [putTwice]) s hne]
  cases ht with
  | int i =>
    refine readItem_bare ?_ (isPlain_decimal i) hr
    obtain ⟨ds, hne, _, h⟩ := decimal_cases i
    rw [itemText]
    rcases h with h | h
    · rw [h]
      exact hne
    · rw [h]
      simp
  | atom a _ =>
    rw [itemText, token]
    by_cases ha : isUnquoted a
    · rw [if_pos ha, if_pos ha]
      refine readItem_bare ?_ (isPlain_of_isUnquoted ha) hr
      intro he
      rw [he] at ha
      exact absurd ha (by decide)
    · rw [if_neg ha, if_neg ha]
      refine hquoted _ a (by decide) ?_
      rcases hr with hr | hr <;> rw [hr] <;> decide
  | str s _ =>
    refine hquoted _ s (by decide) ?_
    rcases hr with hr | hr <;> rw [hr] <;> decide

/-- An element with a NUL is written up to there as an open quoted text. -/
theorem cutNul_itemText {t : Term} (ht : IsItem t) (h : hasNul t) (r : Text) :
    cutNul (itemText t ++ r) = (quotedText t).1 ::
      Doubling.double (putTwice (quotedText t).1) (cutNul (quotedText t).2) := by
  have hquoted : ∀ (quote : Char) (s : Text), quote.toNat ≠ 0 → (s.any fun c => c.toNat = 0) →
      cutNul (writeQuoted quote s ++ r) =
        quote :: Doubling.double (putTwice quote) (cutNul s) := by
    intro quote s hq hs
    have htext : writeQuoted quote s ++ r =
        quote :: (Doubling.double (putTwice quote) s ++ quote :: r) := by simp [writeQuoted]
    rw [htext, cutNul_cons, if_pos hq, cutNul_double hq s _ hs]
  cases ht with
  | int i => cases h
  | atom a _ =>
    have ha : isUnquoted a = false := by
      by_contra ha
      have hplain := noNul_of_isPlain (isPlain_of_isUnquoted (by simpa using ha))
      obtain ⟨c, hc, hz⟩ := List.any_eq_true.mp h
      exact hplain c hc (by simpa using hz)
    rw [itemText, ha]
    exact hquoted _ a (by decide) h
  | str s _ => exact hquoted _ s (by decide) h

/-- An element that is cut is read back as far as it goes. -/
theorem readItem_cut {t : Term} (ht : IsItem t) (h : hasNul t) (r : Text) :
    readItem (cutNul (itemText t ++ r)) =
      (.quoted (quotedText t).1 (cutNul (quotedText t).2), none) := by
  have hq : isquote (quotedText t).1 := by
    cases ht with
    | int i => cases h
    | atom a _ => rfl
    | str s _ => rfl
  rw [cutNul_itemText ht h, readItem_quoted hq, Doubling.undouble_double (by simp [putTwice])]

/-! ## The writer keeps lists apart -/

theorem cutNul_restText_cons (t : Term) (ts : List Term) :
    cutNul (restText (t :: ts)) = ',' :: cutNul (itemText t ++ restText ts) := by
  rw [restText, cutNul_cons, if_pos (by decide)]

theorem restText_head (ts : List Term) :
    (cutNul (restText ts)).head? = some ',' ∨ (cutNul (restText ts)).head? = some ']' := by
  cases ts with
  | nil => exact .inr rfl
  | cons t ts =>
    rw [cutNul_restText_cons]
    exact .inl rfl

/-- The text of a list from an element on, up to the first NUL, starts with the element. -/
theorem readItem_restText {t : Term} (ht : IsItem t) (ts : List Term) :
    readItem (cutNul (itemText t ++ restText ts)) =
      if hasNul t then (.quoted (quotedText t).1 (cutNul (quotedText t).2), none)
      else (token t, some (cutNul (restText ts))) := by
  by_cases h : hasNul t
  · rw [if_pos h, readItem_cut ht h]
  · rw [if_neg h, cutNul_append (noNul_itemText ht (by simpa using h)),
      readItem_whole ht (restText_head ts)]

/-- The quote and the text up to NUL determine an element that is cut. -/
theorem throughNul_congr {t u : Term} (ht : IsItem t) (hu : IsItem u) (hnt : hasNul t)
    (hnu : hasNul u) (hq : (quotedText t).1 = (quotedText u).1)
    (hs : cutNul (quotedText t).2 = cutNul (quotedText u).2) : throughNul t = throughNul u := by
  cases ht with
  | int i => cases hnt
  | atom a _ =>
    cases hu with
    | int i => cases hnu
    | atom b _ => exact congrArg (fun s => Term.atom (s ++ ['\x00'])) hs
    | str s _ => exact absurd (show '\'' = '"' from hq) (by decide)
  | str s _ =>
    cases hu with
    | int i => cases hnu
    | atom b _ => exact absurd (show '"' = '\'' from hq) (by decide)
    | str s' _ => exact congrArg (fun s => Term.str (s ++ ['\x00'])) hs

theorem readable_of_restText {ts us : List Term} (hts : ∀ t ∈ ts, IsItem t)
    (hus : ∀ u ∈ us, IsItem u) (h : cutNul (restText ts) = cutNul (restText us)) :
    readable ts = readable us := by
  induction ts generalizing us with
  | nil =>
    cases us with
    | nil => rfl
    | cons u us =>
      rw [cutNul_restText_cons] at h
      exact absurd (List.cons.inj (show [']'] = _ from h)).1 (by decide)
  | cons t ts ih =>
    cases us with
    | nil =>
      rw [cutNul_restText_cons] at h
      exact absurd (List.cons.inj (show _ = [']'] from h)).1 (by decide)
    | cons u us =>
      have ht := hts t List.mem_cons_self
      have hu := hus u List.mem_cons_self
      rw [cutNul_restText_cons, cutNul_restText_cons, List.cons.injEq] at h
      have hread := congrArg readItem h.2
      rw [readItem_restText ht, readItem_restText hu] at hread
      unfold readable
      by_cases hnt : hasNul t
      · by_cases hnu : hasNul u
        · rw [if_pos hnt, if_pos hnu, Prod.mk.injEq, Token.quoted.injEq] at hread
          rw [if_pos hnt, if_pos hnu, throughNul_congr ht hu hnt hnu hread.1.1 hread.1.2]
        · rw [if_pos hnt, if_neg hnu, Prod.mk.injEq] at hread
          cases hread.2
      · by_cases hnu : hasNul u
        · rw [if_neg hnt, if_pos hnu, Prod.mk.injEq] at hread
          cases hread.2
        · rw [if_neg hnt, if_neg hnu, Prod.mk.injEq, Option.some.injEq] at hread
          rw [if_neg hnt, if_neg hnu, token_injective ht hu hread.1,
            ih (fun v hv => hts v (List.mem_cons_of_mem t hv))
              (fun v hv => hus v (List.mem_cons_of_mem u hv)) hread.2]

/-- Cutting an element after its NUL does not change it up to there. -/
theorem throughNul_spec {t : Term} (ht : IsItem t) (h : hasNul t) :
    IsItem (throughNul t) ∧ hasNul (throughNul t) ∧
      (quotedText (throughNul t)).1 = (quotedText t).1 ∧
      cutNul (quotedText (throughNul t)).2 = cutNul (quotedText t).2 := by
  have hascii : ∀ s : Text, IsAscii s → IsAscii (cutNul s ++ ['\x00']) := by
    intro s hs c hc
    rcases List.mem_append.mp hc with hc | hc
    · exact hs c (List.takeWhile_subset _ hc)
    · rw [List.mem_singleton.mp hc]
      decide
  have hcut : ∀ s : Text, cutNul (cutNul s ++ ['\x00']) = cutNul s := by
    intro s
    rw [cutNul_append (noNul_cutNul s)]
    exact List.append_nil _
  cases ht with
  | int i => cases h
  | atom a ha => exact ⟨.atom _ (hascii a ha), by simp [throughNul, hasNul], rfl, hcut a⟩
  | str s hs => exact ⟨.str _ (hascii s hs), by simp [throughNul, hasNul], rfl, hcut s⟩

theorem restText_readable {ts : List Term} (h : ∀ t ∈ ts, IsItem t) :
    cutNul (restText (readable ts)) = cutNul (restText ts) := by
  induction ts with
  | nil => rfl
  | cons t ts ih =>
    have ht := h t List.mem_cons_self
    unfold readable
    by_cases hn : hasNul t
    · obtain ⟨hi, hn', hq, hs⟩ := throughNul_spec ht hn
      rw [if_pos hn, cutNul_restText_cons, cutNul_restText_cons, cutNul_itemText ht hn,
        cutNul_itemText hi hn', hq, hs]
    · have hno := noNul_itemText ht (by simpa using hn)
      rw [if_neg hn, cutNul_restText_cons, cutNul_restText_cons, cutNul_append hno,
        cutNul_append hno, ih fun u hu => h u (List.mem_cons_of_mem t hu)]

theorem cutNul_listText {ts : List Term} (h : ts ≠ []) :
    cutNul (listText ts) = '[' :: (cutNul (restText ts)).tail := by
  obtain ⟨t, ts, rfl⟩ := List.exists_cons_of_ne_nil h
  rw [listText, cutNul_restText_cons, cutNul_cons, if_pos (by decide)]
  rfl

theorem cutNul_restText {ts : List Term} (h : ts ≠ []) :
    cutNul (restText ts) = ',' :: (cutNul (listText ts)).tail := by
  obtain ⟨t, ts, rfl⟩ := List.exists_cons_of_ne_nil h
  rw [listText, cutNul_restText_cons, cutNul_cons, if_pos (by decide)]
  rfl

/-- Two written lists read the same up to the first NUL exactly when they are the same through
the first NUL. -/
theorem listText_eq_iff {ts us : List Term} (hts : ∀ t ∈ ts, IsItem t) (hus : ∀ u ∈ us, IsItem u)
    (hnt : ts ≠ []) (hnu : us ≠ []) :
    cutNul (listText ts) = cutNul (listText us) ↔ readable ts = readable us := by
  constructor
  · intro h
    apply readable_of_restText hts hus
    rw [cutNul_restText hnt, cutNul_restText hnu, h]
  · intro h
    rw [cutNul_listText hnt, cutNul_listText hnu, ← restText_readable hts, h,
      restText_readable hus]

end Rolog
