/-
  The texts of atoms, integers and strings. Both passes of the reader take such a text from the
  input as one token, if the character behind it does not run on (`Breaks`): the first pass copies
  it (`passes_atom`, `passes_decimal`, `passes_string`), the second makes the token
  (`getToken_atom`, `getToken_decimal`, `getToken_string`).
-/
import Mathlib.Data.Bool.AllAny
import Rolog.OperatorWrite
import Rolog.Tokens
import Rolog.WriteSpec

namespace Rolog

/-! ## Characters -/

/-- No space is needed between the two, or the second is the parenthesis of an operand. -/
def Breaks (d c : Char) : Prop := needSpace c (some d) = false ∨ c = '('

theorem not_alpha_of_breaks {d c : Char} (h : Breaks d c) (hd : isAlpha d = true) :
    isAlpha c = false := by
  rcases h with h | rfl
  · simp only [needSpace, hd, Bool.true_and, Bool.or_eq_false_iff] at h
    exact h.1.1.1.1
  · decide

theorem not_symbol_of_breaks {d c : Char} (h : Breaks d c) (hd : isSymbol d = true) :
    isSymbol c = false := by
  rcases h with h | rfl
  · simp only [needSpace, hd, Bool.true_and, Bool.or_eq_false_iff] at h
    exact h.1.1.1.2
  · decide

theorem ne_quote_of_breaks {q c : Char} (h : Breaks q c) (hq : isquote q = true) : c ≠ q := by
  rintro rfl
  rcases h with h | rfl
  · simp only [needSpace, hq, Bool.or_eq_false_iff] at h
    simp at h
  · cases hq

theorem ne_singleQuote_of_breaks {d c : Char} (h : Breaks d c) (hd : isDigit d = true) :
    c ≠ '\'' := by
  rintro rfl
  have hdi : charType d = .di := of_decide_eq_true hd
  rcases h with h | h
  · simp [needSpace, hdi] at h
  · cases h

/-- The text `u` does not run on into `rest`. -/
def Apart (u rest : Text) : Prop := ∀ d ∈ u.getLast?, ∀ c ∈ rest.head?, Breaks d c

/-- A character that the first pass copies without a look at its neighbours. -/
def isOrdinary (c : Char) : Bool :=
  !(['/', '%', '\'', '"', '`', '.', '|'].contains c) && !isBlank c && !isSymbol c

theorem isOrdinary_of_charType {c : Char} (h : charType c = .lc ∨ charType c = .uc ∨
    charType c = .di) : isOrdinary c = true := by
  have hno : ∀ x ∈ ['/', '%', '\'', '"', '`', '.', '|'],
      ¬ (charType x = .lc ∨ charType x = .uc ∨ charType x = .di) :=
    List.all_iff_forall_prop.mp (by decide)
  have hmem : ['/', '%', '\'', '"', '`', '.', '|'].contains c = false := by
    rw [List.contains_eq_mem, decide_eq_false_iff_not]
    exact fun hc => hno c hc h
  have htypes : isBlank c = false ∧ isSymbol c = false := by
    unfold isBlank isSymbol
    rcases h with h | h | h <;> rw [h] <;> exact ⟨rfl, rfl⟩
  unfold isOrdinary
  rw [hmem, htypes.1, htypes.2]
  rfl

theorem isAlpha_iff {c : Char} :
    isAlpha c = true ↔ charType c = .lc ∨ charType c = .uc ∨ charType c = .di := by
  unfold isAlpha
  cases charType c <;> simp

/-! ## The first pass -/

namespace Raw

/-- The full stop behind a text, with the blanks around it. -/
theorem endOfText_read (m : RawMode) (out : Text) :
    endOfText ⟨m, out, true⟩ = out.reverse ++
      if (out.head?.map isBlank).getD false then ['.', ' '] else [' ', '.', ' '] := by
  have hspace : ∀ r : Raw, r.somethingRead = true → r.ensureSpace ' ' =
      if (r.out.head?.map isBlank).getD false then r else r.add ' ' := by
    intro r hr
    unfold ensureSpace
    cases (r.out.head?.map isBlank).getD false <;> simp [hr]
  have hstop : ∀ out, ensureSpace ⟨m, '.' :: out, true⟩ ' ' = ⟨m, ' ' :: '.' :: out, true⟩ :=
    fun out => hspace _ rfl
  unfold endOfText
  rw [hspace ⟨m, out, true⟩ rfl]
  by_cases h : (out.head?.map isBlank).getD false = true
  · rw [if_pos rfl, if_pos h, if_pos h]
    show (ensureSpace ⟨m, '.' :: out, true⟩ ' ').out.reverse = _
    rw [hstop]
    simp
  · rw [if_pos rfl, if_neg h, if_neg h]
    show (ensureSpace ⟨m, '.' :: ' ' :: out, true⟩ ' ').out.reverse = _
    rw [hstop]
    simp

/-- In front of `rest` the first pass copies the text `u`. -/
def Passes (out u rest : Text) : Prop :=
  ∀ b, (b = false → out = []) → ((u ++ rest).foldl step ⟨.next, out, b⟩).finish =
    (rest.foldl step ⟨.next, u.reverse ++ out, true⟩).finish

theorem Passes.nil {out : Text} (h : out ≠ []) (rest : Text) : Passes out [] rest := by
  intro b hb
  cases b with
  | false => exact absurd (hb rfl) h
  | true => rfl

theorem Passes.append {out u v rest : Text} (hu : Passes out u (v ++ rest))
    (hv : Passes (u.reverse ++ out) v rest) : Passes out (u ++ v) rest := by
  intro b hb
  rw [List.append_assoc, hu b hb, hv true fun h => Bool.noConfusion h, List.reverse_append,
    List.append_assoc]

theorem handle_ordinary {c : Char} (h : isOrdinary c = true) (m : RawMode) (out : Text)
    (b : Bool) : handle ⟨m, out, b⟩ c = ⟨.next, c :: out, true⟩ := by
  simp only [isOrdinary, List.contains_cons, List.contains_nil, Bool.or_false, Bool.and_eq_true,
    Bool.not_eq_true', Bool.or_eq_false_iff, beq_eq_false_iff_ne] at h
  obtain ⟨⟨⟨h1, h2, h3, h4, h5, h6, h7⟩, hb⟩, hs⟩ := h
  unfold handle
  simp [h1, h2, h3, h4, h5, h6, h7, hb, hs]
  rfl

theorem foldl_ordinary {u : Text} (h : ∀ x ∈ u, isOrdinary x = true) (out : Text) :
    u.foldl step ⟨.next, out, true⟩ = ⟨.next, u.reverse ++ out, true⟩ := by
  induction u generalizing out with
  | nil => rfl
  | cons x u ih =>
    obtain ⟨hx, hu⟩ := List.forall_mem_cons.mp h
    have hstep : step ⟨.next, out, true⟩ x = ⟨.next, x :: out, true⟩ := handle_ordinary hx _ _ _
    rw [List.foldl_cons, hstep, ih hu, List.reverse_cons, List.append_assoc]
    rfl

theorem passes_ordinary {x : Char} {u : Text} (h : ∀ y ∈ x :: u, isOrdinary y = true)
    (out rest : Text) : Passes out (x :: u) rest := by
  intro b _
  obtain ⟨hx, hu⟩ := List.forall_mem_cons.mp h
  have hstep : step ⟨.next, out, b⟩ x = ⟨.next, x :: out, true⟩ := handle_ordinary hx _ _ _
  rw [List.cons_append, List.foldl_cons, hstep, List.foldl_append, foldl_ordinary hu,
    List.reverse_cons, List.append_assoc]
  rfl

theorem symbol_ne {x : Char} (h : isSymbol x = true) :
    x ≠ '%' ∧ x ≠ '\'' ∧ x ≠ '"' ∧ x ≠ '`' ∧ isBlank x = false := by
  have hno : ∀ y ∈ ['%', '\'', '"', '`'], isSymbol y = false :=
    List.all_iff_forall_prop.mp (by decide)
  have hne : ∀ y ∈ ['%', '\'', '"', '`'], x ≠ y := by
    rintro y hy rfl
    rw [hno x hy] at h
    cases h
  have hsy : charType x = .sy := of_decide_eq_true h
  refine ⟨hne _ (by simp), hne _ (by simp), hne _ (by simp), hne _ (by simp), ?_⟩
  unfold isBlank
  rw [hsy]
  rfl

theorem foldl_symbols {u : Text} (h : ∀ x ∈ u, isSymbol x = true) (out : Text) :
    u.foldl step ⟨.symbols, out, true⟩ = ⟨.symbols, u.reverse ++ out, true⟩ := by
  induction u generalizing out with
  | nil => rfl
  | cons x u ih =>
    obtain ⟨hx, hu⟩ := List.forall_mem_cons.mp h
    have hstep : step ⟨.symbols, out, true⟩ x = ⟨.symbols, x :: out, true⟩ := if_pos hx
    rw [List.foldl_cons, hstep, ih hu, List.reverse_cons, List.append_assoc]
    rfl

/-- Where the symbol characters end, the loop over them has no part in what follows. -/
theorem finish_symbols (out : Text) {rest : Text} (h : ∀ c ∈ rest.head?, isSymbol c = false) :
    (rest.foldl step ⟨.symbols, out, true⟩).finish =
      (rest.foldl step ⟨.next, out, true⟩).finish := by
  cases rest with
  | nil =>
    show some (endOfText ⟨.symbols, out, true⟩) = some (endOfText ⟨.next, out, true⟩)
    rw [endOfText_read, endOfText_read]
  | cons c rest =>
    have hc : isSymbol c = false := h c rfl
    have hstep : step ⟨.symbols, out, true⟩ c = step ⟨.next, out, true⟩ c := by
      show symbols _ c = _
      unfold symbols
      rw [if_neg (by simp [hc])]
      rfl
    rw [List.foldl_cons, hstep, List.foldl_cons]

/-- The same after a slash. -/
theorem finish_slash (out : Text) {rest : Text} (h : ∀ c ∈ rest.head?, isSymbol c = false)
    (b : Bool) : (rest.foldl step ⟨.slash, out, b⟩).finish =
      (rest.foldl step ⟨.next, '/' :: out, true⟩).finish := by
  rw [← finish_symbols _ h]
  cases rest with
  | nil =>
    show some (endOfText ⟨.slash, '/' :: out, true⟩) = some (endOfText ⟨.symbols, '/' :: out, true⟩)
    rw [endOfText_read, endOfText_read]
  | cons c rest =>
    have hc : isSymbol c = false := h c rfl
    have hstar : c ≠ '*' := by
      rintro rfl
      cases hc
    have hstep : step ⟨.slash, out, b⟩ c = step ⟨.symbols, '/' :: out, true⟩ c := by
      show (if c = '*' then _ else _) = _
      rw [if_neg hstar]
      rfl
    rw [List.foldl_cons, hstep, List.foldl_cons]

/-- A name of symbol characters, which starts no comment and is no full stop. -/
theorem passes_symbols {x : Char} {u : Text} (hx : isSymbol x = true)
    (hu : ∀ y ∈ u, isSymbol y = true) (hcomment : ¬ (x = '/' ∧ u.head? = some '*'))
    (hdot : ¬ (x = '.' ∧ u = [])) (out : Text) {rest : Text}
    (h : ∀ c ∈ rest.head?, isSymbol c = false) : Passes out (x :: u) rest := by
  intro b _
  -- after the second character the loop over symbol characters runs
  have hsecond : ∀ s y u', u = y :: u' → step s y = ⟨.symbols, y :: x :: out, true⟩ →
      ((u ++ rest).foldl step s).finish =
        (rest.foldl step ⟨.next, (x :: u).reverse ++ out, true⟩).finish := by
    rintro s y u' rfl hstep
    rw [List.cons_append, List.foldl_cons, hstep, List.foldl_append,
      foldl_symbols (List.forall_mem_cons.mp hu).2, finish_symbols _ h]
    simp
  obtain ⟨h1, h2, h3, h4, hblank⟩ := symbol_ne hx
  rw [List.cons_append, List.foldl_cons]
  by_cases hslash : x = '/'
  · subst hslash
    have hfirst : step ⟨.next, out, b⟩ '/' = ⟨.slash, out, b⟩ := rfl
    rw [hfirst]
    cases u with
    | nil => exact finish_slash out h b
    | cons y u =>
      refine hsecond _ y u rfl ?_
      have hy : y ≠ '*' := fun e => hcomment ⟨rfl, by rw [e]; rfl⟩
      show (if y = '*' then _ else _) = _
      rw [if_neg hy]
      exact if_pos (hu y List.mem_cons_self)
  · by_cases hd : x = '.'
    · subst hd
      have hfirst : step ⟨.next, out, b⟩ '.' = ⟨.dot, '.' :: out, true⟩ := rfl
      rw [hfirst]
      cases u with
      | nil => exact absurd ⟨rfl, rfl⟩ hdot
      | cons y u =>
        refine hsecond _ y u rfl ?_
        have hy := hu y List.mem_cons_self
        obtain ⟨hpercent, -, -, -, hb⟩ := symbol_ne hy
        show (if isBlank y = true ∨ y = '%' then _ else _) = _
        rw [if_neg (by simp [hb, hpercent])]
        exact if_pos hy
    · have hfirst : step ⟨.next, out, b⟩ x = ⟨.symbols, x :: out, true⟩ := by
        show handle _ x = _
        unfold handle
        simp [hslash, h1, h2, h3, h4, hd, hblank, hx]
        rfl
      rw [hfirst, List.foldl_append, foldl_symbols hu, finish_symbols _ h, List.reverse_cons,
        List.append_assoc]
      rfl

/-- No digit in front: a single quote after digits is no quoted text. -/
def NoDigit (out : Text) : Prop := ∀ d ∈ out.head?, isDigit d = false

theorem handle_quote {q : Char} (hq : isquote q = true) {out : Text}
    (h : q = '\'' → NoDigit out) (m : RawMode) (b : Bool) :
    handle ⟨m, out, b⟩ q = ⟨.quoted q .text, q :: out, true⟩ := by
  have hcases : q = '\'' ∨ q = '"' := of_decide_eq_true hq
  rcases hcases with rfl | rfl
  · have hbase : radixBase out = none := by
      cases out with
      | nil => rfl
      | cons d out =>
        have hd : isDigit d = false := h rfl d rfl
        simp [radixBase, hd]
    show singleQuote ⟨m, out, b⟩ = _
    unfold singleQuote
    rw [hbase]
    rfl
  · rfl

theorem noDigit_quote {q : Char} (hq : isquote q = true) (out : Text) : NoDigit (q :: out) := by
  intro d hd
  cases hd
  have hcases : q = '\'' ∨ q = '"' := of_decide_eq_true hq
  rcases hcases with rfl | rfl <;> decide

/-- Inside quotes the first pass copies what `putQuoted` writes. -/
theorem foldl_double {q : Char} (hq : isquote q = true) (u out : Text) :
    (Doubling.double (putTwice q) u).foldl step ⟨.quoted q .text, out, true⟩ =
      ⟨.quoted q .text, (Doubling.double (putTwice q) u).reverse ++ out, true⟩ := by
  induction u generalizing out with
  | nil => rfl
  | cons x u ih =>
    have hx : (if putTwice q x then [x, x] else [x]).foldl step ⟨.quoted q .text, out, true⟩ =
        ⟨.quoted q .text, (if putTwice q x then [x, x] else [x]).reverse ++ out, true⟩ := by
      by_cases hxq : x = q
      · subst hxq
        have htwice : putTwice x x = true := by simp [putTwice]
        have hopen : step ⟨.quoted x .text, out, true⟩ x = ⟨.next, x :: out, true⟩ := if_pos rfl
        rw [if_pos htwice, List.foldl_cons, hopen]
        exact handle_quote hq (fun _ => noDigit_quote hq out) _ _
      · by_cases hb : x = '\\'
        · subst hb
          have htwice : putTwice q '\\' = true := by simp [putTwice]
          have hopen : step ⟨.quoted q .text, out, true⟩ '\\' =
              ⟨.quoted q .escape, '\\' :: out, true⟩ := if_neg hxq
          rw [if_pos htwice, List.foldl_cons, hopen]
          rfl
        · have honce : putTwice q x = false := by simp [putTwice, hxq, hb]
          rw [if_neg (by simp [honce])]
          show quotedText _ q x = _
          unfold quotedText
          rw [if_neg hxq, if_neg hb]
          rfl
    rw [Doubling.double_cons, List.foldl_append, hx, ih, List.reverse_append, List.append_assoc]

/-- A quoted text, whatever stands behind it. -/
theorem passes_quoted {q : Char} (hq : isquote q = true) (u : Text) {out : Text}
    (h : q = '\'' → NoDigit out) (rest : Text) : Passes out (writeQuoted q u) rest := by
  intro b _
  have hopen : step ⟨.next, out, b⟩ q = ⟨.quoted q .text, q :: out, true⟩ :=
    handle_quote hq h _ _
  have hclose : ∀ r, step ⟨.quoted q .text, r, true⟩ q = ⟨.next, q :: r, true⟩ :=
    fun _ => if_pos rfl
  unfold writeQuoted
  rw [List.cons_append, List.foldl_cons, hopen, List.append_assoc, List.foldl_append,
    foldl_double hq, List.singleton_append, List.foldl_cons, hclose]
  simp

/-- A blank in front of a token. -/
theorem Passes.blank {out u rest : Text} (h : out ≠ []) (hu : Passes (' ' :: out) u rest) :
    Passes out (' ' :: u) rest := by
  intro b hb
  cases b with
  | false => exact absurd (hb rfl) h
  | true =>
    have hstep : step ⟨.next, out, true⟩ ' ' = ⟨.next, ' ' :: out, true⟩ := rfl
    rw [List.cons_append, List.foldl_cons, hstep, hu true fun h => Bool.noConfusion h,
      List.reverse_cons, List.append_assoc]
    rfl

end Raw

/-! ## The second pass -/

theorem getString_go {q c : Char} {m m' : StrMode} {codes : List Nat}
    (h : strStep q m c = .go m' codes) (s : Text) :
    getString q m (c :: s) =
      (getString q m' s).map fun (text, rest) => (codes ++ text, rest) := by
  rw [getString, h]

/-- A quoted text is read back. -/
theorem getString_double {q : Char} (hq : isquote q = true) (u : Text) {c : Char} (hc : c ≠ q)
    (r : Text) : getString q .text (Doubling.double (putTwice q) u ++ q :: c :: r) =
      some (wideChars u, c :: r) := by
  induction u with
  | nil =>
    have hclose : strStep q .text q = .go .afterQuote [] := if_pos rfl
    have hend : getString q .afterQuote (c :: r) = some ([], c :: r) := by
      have hret : strStep q .afterQuote c = .ret := if_neg hc
      rw [getString, hret]
    rw [Doubling.double_nil, List.nil_append, getString_go hclose, hend]
    rfl
  | cons x u ih =>
    have hgo : ∀ s, getString q .text ((if putTwice q x then [x, x] else [x]) ++ s) =
        (getString q .text s).map fun (text, rest) => (x.toNat :: text, rest) := by
      intro s
      by_cases hxq : x = q
      · subst hxq
        have htwice : putTwice x x = true := by simp [putTwice]
        have hopen : strStep x .text x = .go .afterQuote [] := if_pos rfl
        have hmore : strStep x .afterQuote x = .go .text [x.toNat] := if_pos rfl
        rw [if_pos htwice]
        show getString x .text (x :: x :: s) = _
        rw [getString_go hopen, getString_go hmore]
        cases getString x .text s <;> rfl
      · by_cases hb : x = '\\'
        · subst hb
          have htwice : putTwice q '\\' = true := by simp [putTwice]
          have hopen : strStep q .text '\\' = .go .escape [] := by
            show textChar q [] '\\' = _
            unfold textChar
            rw [if_neg hxq, if_pos rfl]
          have hmore : strStep q .escape '\\' = .go .text [92] := rfl
          rw [if_pos htwice]
          show getString q .text ('\\' :: '\\' :: s) = _
          rw [getString_go hopen, getString_go hmore]
          cases getString q .text s <;> rfl
        · have honce : putTwice q x = false := by simp [putTwice, hxq, hb]
          have hplain : strStep q .text x = .go .text [x.toNat] := by
            show textChar q [] x = _
            unfold textChar
            rw [if_neg hxq, if_neg hb]
            rfl
          rw [if_neg (by simp [honce])]
          show getString q .text (x :: s) = _
          rw [getString_go hplain]
          rfl
    rw [Doubling.double_cons, List.append_assoc, hgo, ih]
    rfl

/-! ## Atoms -/

/-- The forms of an atom, and how `atomType` tells them apart. -/
inductive AtomForm : Text → Prop where
  | lower {x : Char} {u : Text} : atomType (x :: u) = .lower → charType x = .lc →
    (∀ y ∈ u, isAlpha y = true) → AtomForm (x :: u)
  | symbol {x : Char} {u : Text} : atomType (x :: u) = .symbol → isSymbol x = true →
    (∀ y ∈ u, isSymbol y = true) → ¬ (x = '/' ∧ u.head? = some '*') → ¬ (x = '.' ∧ u = []) →
    AtomForm (x :: u)
  | solo {x : Char} : atomType [x] = .solo → charType x = .so → x ≠ '%' → AtomForm [x]
  | special : AtomForm ['\x7b', '\x7d']
  | quoted {a : Text} : atomType a = .quote ∨ atomType a = .fullstop → AtomForm a

theorem atomForm (a : Text) : AtomForm a := by
  cases a with
  | nil => exact .quoted (.inl rfl)
  | cons x u =>
    cases ht : atomType (x :: u) with
    | quote => exact .quoted (.inl ht)
    | fullstop => exact .quoted (.inr ht)
    | lower =>
      have h := ht
      simp only [atomType] at h
      split_ifs at h with hx hu
      exact .lower ht hx (List.all_eq_true.mp hu)
    | symbol =>
      have h := ht
      simp only [atomType] at h
      split_ifs at h with _ _ hx hdot hcomment hu
      exact .symbol ht hx (List.all_eq_true.mp hu) hcomment hdot
    | solo =>
      have h := ht
      simp only [atomType] at h
      split_ifs at h with _ _ _ _ _ _ hx
      obtain ⟨rfl, hpercent, hso⟩ := hx
      exact .solo ht hso hpercent
    | special =>
      have h := ht
      simp only [atomType] at h
      split_ifs at h with _ _ _ _ _ _ _ hx
      rw [hx]
      exact .special

/-- The token that the text of an atom makes in front of `rest`. -/
def tokenOf (a rest : Text) : ReadToken :=
  match atomType a with
  | .lower | .symbol => nameToken .name (wideChars a) rest
  | .solo | .special =>
    if rest.head? = some '(' then .functor (wideChars a) else .name (wideChars a)
  | .quote | .fullstop => nameToken .qname (wideChars a) rest

theorem atomText_of_quoted {a : Text} (h : atomType a = .quote ∨ atomType a = .fullstop) :
    atomText a = writeQuoted '\'' a := by
  unfold atomText
  rcases h with h | h <;> rw [h]

theorem getLast?_mem {p : Char → Prop} {x : Char} {u : Text} (hx : p x) (hu : ∀ y ∈ u, p y) :
    ∃ d, (x :: u).getLast? = some d ∧ p d :=
  ⟨_, List.getLast?_eq_some_getLast (List.cons_ne_nil x u),
    List.forall_mem_cons.mpr ⟨hx, hu⟩ _ (List.getLast_mem _)⟩

theorem getLast?_quoted (q : Char) (u : Text) : (writeQuoted q u).getLast? = some q := by
  unfold writeQuoted
  rw [← List.cons_append, List.getLast?_append]
  rfl

theorem atomText_ne_nil (a : Text) : atomText a ≠ [] := by
  cases atomForm a with
  | quoted ht =>
    rw [atomText_of_quoted ht]
    exact List.cons_ne_nil _ _
  | lower ht | symbol ht | solo ht =>
    rw [atomText, ht]
    exact List.cons_ne_nil _ _
  | special => exact List.cons_ne_nil _ _

/-- How an atom other than the curly brackets begins. -/
def BeginsAtom (c : Char) : Prop :=
  charType c = .lc ∨ charType c = .sy ∨ charType c = .so ∨ c = '\''

theorem atomText_head {a : Text} (ha : a ≠ ['\x7b', '\x7d']) :
    ∃ c v, atomText a = c :: v ∧ BeginsAtom c ∧ (c = '.' → ∃ d ∈ v.head?, isDigit d = false) := by
  cases atomForm a with
  | @lower x u ht hx hu =>
    refine ⟨x, u, by rw [atomText, ht], .inl hx, ?_⟩
    rintro rfl
    exact absurd hx (by decide)
  | @symbol x u ht hx hu hcomment hdot =>
    refine ⟨x, u, by rw [atomText, ht], .inr (.inl (of_decide_eq_true hx)), fun hd => ?_⟩
    obtain ⟨y, u, rfl⟩ := List.exists_cons_of_ne_nil fun hu => hdot ⟨hd, hu⟩
    have hsy : charType y = .sy := of_decide_eq_true (hu y List.mem_cons_self)
    exact ⟨y, rfl, by simp [isDigit, hsy]⟩
  | @solo x ht hx hpercent =>
    refine ⟨x, [], by rw [atomText, ht], .inr (.inr (.inl hx)), ?_⟩
    rintro rfl
    exact absurd hx (by decide)
  | special => exact absurd rfl ha
  | quoted ht =>
    rw [atomText_of_quoted ht]
    exact ⟨'\'', _, rfl, .inr (.inr (.inr rfl)), fun h => absurd h (by decide)⟩

/-- How the text of an atom ends. -/
theorem atomText_last (a : Text) : ∃ d, (atomText a).getLast? = some d ∧
    isBlank d = false ∧ d ≠ '|' ∧ d ≠ '"' := by
  have htype : ∀ d, charType d = .lc ∨ charType d = .uc ∨ charType d = .di ∨ charType d = .sy ∨
      charType d = .so → isBlank d = false ∧ d ≠ '|' ∧ d ≠ '"' := by
    intro d hd
    refine ⟨?_, ?_, ?_⟩
    · unfold isBlank
      rcases hd with hd | hd | hd | hd | hd <;> rw [hd] <;> rfl
    · rintro rfl
      exact absurd hd (by decide)
    · rintro rfl
      exact absurd hd (by decide)
  cases atomForm a with
  | @lower x u ht hx hu =>
    obtain ⟨d, hlast, hd⟩ :=
      getLast?_mem (p := fun y => isAlpha y = true) (isAlpha_iff.mpr (.inl hx)) hu
    refine ⟨d, by rw [atomText, ht]; exact hlast, htype d ?_⟩
    rcases isAlpha_iff.mp hd with h | h | h
    · exact .inl h
    · exact .inr (.inl h)
    · exact .inr (.inr (.inl h))
  | @symbol x u ht hx hu _ _ =>
    obtain ⟨d, hlast, hd⟩ := getLast?_mem (p := fun y => isSymbol y = true) hx hu
    exact ⟨d, by rw [atomText, ht]; exact hlast, htype d (.inr (.inr (.inr (.inl
      (of_decide_eq_true hd)))))⟩
  | @solo x ht hx _ =>
    exact ⟨x, by rw [atomText, ht]; rfl, htype x (.inr (.inr (.inr (.inr hx))))⟩
  | special => exact ⟨'\x7d', rfl, by decide⟩
  | quoted ht =>
    rw [atomText_of_quoted ht]
    exact ⟨'\'', getLast?_quoted _ _, by decide⟩

/-- The first pass copies the text of an atom. -/
theorem passes_atom (a : Text) {out : Text} (hq : (atomText a).head? = some '\'' → Raw.NoDigit out)
    {rest : Text} (hb : Apart (atomText a) rest) : Raw.Passes out (atomText a) rest := by
  cases atomForm a with
  | @lower x u ht hx hu =>
    have htext : atomText (x :: u) = x :: u := by rw [atomText, ht]
    rw [htext]
    exact Raw.passes_ordinary (List.forall_mem_cons.mpr ⟨isOrdinary_of_charType (.inl hx),
      fun y hy => isOrdinary_of_charType (isAlpha_iff.mp (hu y hy))⟩) out rest
  | @symbol x u ht hx hu hcomment hdot =>
    have htext : atomText (x :: u) = x :: u := by rw [atomText, ht]
    obtain ⟨d, hlast, hsy⟩ := getLast?_mem (p := fun y => isSymbol y = true) hx hu
    rw [htext] at hb ⊢
    exact Raw.passes_symbols hx hu hcomment hdot out
      fun c hc => not_symbol_of_breaks (hb d hlast c hc) hsy
  | @solo x ht hx hpercent =>
    have htext : atomText [x] = [x] := by rw [atomText, ht]
    rw [htext]
    refine Raw.passes_ordinary (fun y hy => ?_) out rest
    rw [List.mem_singleton.mp hy]
    have hno : ∀ z ∈ ['/', '%', '\'', '"', '`', '.', '|'], z ≠ '%' → charType z ≠ .so :=
      List.all_iff_forall_prop.mp (by decide)
    have hmem : ['/', '%', '\'', '"', '`', '.', '|'].contains x = false := by
      rw [List.contains_eq_mem, decide_eq_false_iff_not]
      exact fun hm => hno x hm hpercent hx
    have htypes : isBlank x = false ∧ isSymbol x = false := by
      unfold isBlank isSymbol
      rw [hx]
      exact ⟨rfl, rfl⟩
    unfold isOrdinary
    rw [hmem, htypes.1, htypes.2]
    rfl
  | special =>
    have hbraces : ∀ x ∈ ['\x7b', '\x7d'], isOrdinary x = true :=
      List.all_iff_forall_prop.mp (by decide)
    exact Raw.passes_ordinary hbraces out rest
  | quoted ht =>
    rw [atomText_of_quoted ht] at hq ⊢
    exact Raw.passes_quoted rfl a (fun _ => hq rfl) rest

theorem dropWhile_run {p : Char → Bool} {u : Text} (hu : ∀ y ∈ u, p y = true) {c : Char}
    (hc : p c = false) (r : Text) :
    (u ++ c :: r).takeWhile p = u ∧ (u ++ c :: r).dropWhile p = c :: r := by
  have htake : (c :: r).takeWhile p = [] := List.takeWhile_cons_of_neg (by simp [hc])
  have hdrop : (c :: r).dropWhile p = c :: r := List.dropWhile_cons_of_neg (by simp [hc])
  rw [List.takeWhile_append_of_pos hu, List.dropWhile_append_of_pos hu, htake, hdrop]
  exact ⟨List.append_nil u, rfl⟩

/-- The second pass reads the text of an atom as its token. In front of a digit, a sign is part of
the number where an operand must stand. -/
theorem getToken_atom (g : Grammar) (b : Bool) (a : Text) {c : Char} (r : Text)
    (hb : ∀ d ∈ (atomText a).getLast?, Breaks d c)
    (hsign : b = false → a = ['+'] ∨ a = ['-'] → isDigit c = false) :
    g.getToken b (atomText a ++ c :: r) = some (tokenOf a (c :: r), c :: r) := by
  cases atomForm a with
  | @lower x u ht hx hu =>
    have htext : atomText (x :: u) = x :: u := by rw [atomText, ht]
    have hp : isAlpha x = true := isAlpha_iff.mpr (.inl hx)
    obtain ⟨d, hlast, hal⟩ := getLast?_mem (p := fun y => isAlpha y = true) hp hu
    rw [htext] at hb ⊢
    have hc := not_alpha_of_breaks (hb d hlast) hal
    have hblank : isBlank x = false := by
      unfold isBlank
      rw [hx]
      rfl
    obtain ⟨htake, hdrop⟩ := dropWhile_run hu hc r
    unfold Grammar.getToken tokenOf
    rw [List.cons_append, List.dropWhile_cons_of_neg (by simp [hblank])]
    simp only [hx, ht, htake, hdrop]
  | @symbol x u ht hx hu hcomment hdot =>
    have htext : atomText (x :: u) = x :: u := by rw [atomText, ht]
    obtain ⟨d, hlast, hsy⟩ := getLast?_mem (p := fun y => isSymbol y = true) hx hu
    rw [htext] at hb ⊢
    have hc := not_symbol_of_breaks (hb d hlast) hsy
    obtain ⟨htake, hdrop⟩ := dropWhile_run hu hc r
    have hblank := (Raw.symbol_ne hx).2.2.2.2
    have hty : charType x = .sy := of_decide_eq_true hx
    unfold Grammar.getToken tokenOf
    rw [List.cons_append, List.dropWhile_cons_of_neg (by simp [hblank])]
    simp only [hty, ht]
    unfold Grammar.symbolToken
    simp only [htake, hdrop]
    rw [if_neg, if_neg]
    · rintro ⟨rfl, rfl, -⟩
      exact hdot ⟨rfl, rfl⟩
    · rintro ⟨rfl, hxs, hbf, hdig⟩
      have hno := hsign hbf (hxs.imp (fun e => by rw [e]) fun e => by rw [e])
      simp [hno] at hdig
  | @solo x ht hx hpercent =>
    have htext : atomText [x] = [x] := by rw [atomText, ht]
    have hblank : isBlank x = false := by
      unfold isBlank
      rw [hx]
      rfl
    rw [htext]
    unfold Grammar.getToken tokenOf
    rw [List.singleton_append, List.dropWhile_cons_of_neg (by simp [hblank])]
    simp only [hx, ht]
    rfl
  | special => rfl
  | quoted ht =>
    rw [atomText_of_quoted ht] at hb ⊢
    have hc : c ≠ '\'' := ne_quote_of_breaks (hb '\'' (getLast?_quoted _ _)) rfl
    have hstr := getString_double (q := '\'') rfl a hc r
    have htok : tokenOf a (c :: r) = nameToken .qname (wideChars a) (c :: r) := by
      unfold tokenOf
      rcases ht with ht | ht <;> rw [ht]
    show (getString '\'' .text ((Doubling.double (putTwice '\'') a ++ ['\'']) ++ c :: r)).map _ = _
    rw [List.append_assoc, List.singleton_append, hstr, htok]
    rfl

/-! ## Integers and strings -/

theorem passes_decimal (i : Int) (out rest : Text) : Raw.Passes out (decimal i) rest := by
  obtain ⟨ds, hne, hds, h⟩ := decimal_cases i
  obtain ⟨d, ds, rfl⟩ := List.exists_cons_of_ne_nil hne
  have hord : ∀ y ∈ d :: ds, isOrdinary y = true :=
    fun y hy => isOrdinary_of_charType (.inr (.inr (hds y hy)))
  rcases h with h | h
  · rw [h]
    exact Raw.passes_ordinary hord out rest
  · rw [h]
    intro b _
    have hsign : Raw.step ⟨.next, out, b⟩ '-' = ⟨.symbols, '-' :: out, true⟩ := rfl
    have hdigit : ∀ c ∈ (d :: ds ++ rest).head?, isSymbol c = false := by
      intro c hc
      cases hc
      simp [isSymbol, hds d List.mem_cons_self]
    have hdigits := Raw.passes_ordinary hord ('-' :: out) rest true fun h => Bool.noConfusion h
    rw [List.cons_append, List.foldl_cons, hsign, Raw.finish_symbols _ hdigit, hdigits,
      List.reverse_cons (a := '-'), List.append_assoc]
    rfl

theorem passes_string (u out rest : Text) : Raw.Passes out (writeQuoted '"' u) rest :=
  Raw.passes_quoted (q := '"') rfl u (fun h => absurd h (by decide)) rest

/-- A negative integer is one token where an operand must stand. -/
theorem getToken_decimal {g : Grammar} {b : Bool} {i : Int} {c : Char} {r : Text}
    (hn : g.strNumber (decimal i ++ c :: r) = some (decimal i, c :: r)) (hb : b = false) :
    g.getToken b (decimal i ++ c :: r) = some (.number (decimal i), c :: r) := by
  have hnumber : g.numberToken (decimal i ++ c :: r) = some (.number (decimal i), c :: r) := by
    unfold Grammar.numberToken
    rw [hn]
    rfl
  obtain ⟨ds, hne, hds, h⟩ := decimal_cases i
  obtain ⟨d, ds, rfl⟩ := List.exists_cons_of_ne_nil hne
  have hd : charType d = .di := hds d List.mem_cons_self
  have hblank : isBlank d = false := by
    unfold isBlank
    rw [hd]
    rfl
  have hsymbol : isSymbol d = false := by
    unfold isSymbol
    rw [hd]
    rfl
  rcases h with h | h
  · rw [h] at hnumber ⊢
    unfold Grammar.getToken
    rw [List.cons_append, List.dropWhile_cons_of_neg (by simp [hblank])]
    simp only [hd]
    exact hnumber
  · rw [h] at hnumber ⊢
    have htake : (d :: (ds ++ c :: r)).takeWhile isSymbol = [] :=
      List.takeWhile_cons_of_neg (by simp [hsymbol])
    have hdrop : (d :: (ds ++ c :: r)).dropWhile isSymbol = d :: (ds ++ c :: r) :=
      List.dropWhile_cons_of_neg (by simp [hsymbol])
    show g.symbolToken b '-' (d :: (ds ++ c :: r)) = _
    unfold Grammar.symbolToken
    simp only [htake, hdrop]
    rw [if_pos]
    · exact hnumber
    · simp [isDigit, hd, hb]

theorem getToken_string (g : Grammar) (b : Bool) (u : Text) {c : Char} (hc : c ≠ '"') (r : Text) :
    g.getToken b (writeQuoted '"' u ++ c :: r) = some (.str (wideChars u), c :: r) := by
  have hstr := getString_double (q := '"') rfl u hc r
  show (getString '"' .text ((Doubling.double (putTwice '"') u ++ ['"']) ++ c :: r)).map _ = _
  rw [List.append_assoc, List.singleton_append, hstr]
  rfl

/-! ## Punctuation and blanks -/

theorem getToken_blank (g : Grammar) (b : Bool) (s : Text) :
    g.getToken b (' ' :: s) = g.getToken b s := rfl

theorem getToken_punct (g : Grammar) (b : Bool) {x : Char}
    (hx : x = '(' ∨ x = ')' ∨ x = ',' ∨ x = ']' ∨ x = '\x7d') (s : Text) :
    g.getToken b (x :: s) = some (.punct x, s) := by
  rcases hx with rfl | rfl | rfl | rfl | rfl <;> rfl

theorem getToken_bar (g : Grammar) (b : Bool) {y : Char} (hy : y ≠ '|') (s : Text) :
    g.getToken b ('|' :: y :: s) = some (.punct '|', y :: s) := by
  show Grammar.punctToken '|' (y :: s) = _
  unfold Grammar.punctToken
  rw [if_neg (by simp [hy])]
  rfl

/-- The characters that a term begins with: none is blank, or closes a bracket, or is a bar. -/
def Begins (c : Char) : Prop :=
  isBlank c = false ∧ c ≠ ')' ∧ c ≠ ']' ∧ c ≠ '\x7d' ∧ c ≠ '|' ∧ c ≠ ','

theorem begins_of_charType {c : Char} (hpu : charType c ≠ .pu) (hsp : charType c ≠ .sp) :
    Begins c := by
  have hno : ∀ x ∈ [')', ']', '\x7d', '|', ','], charType x = .pu :=
    List.all_iff_forall_prop.mp (by decide)
  have hne : ∀ x ∈ [')', ']', '\x7d', '|', ','], c ≠ x := by
    rintro x hx rfl
    exact hpu (hno c hx)
  exact ⟨decide_eq_false hsp, hne _ (by simp), hne _ (by simp), hne _ (by simp),
    hne _ (by simp), hne _ (by simp)⟩

theorem begins_of_beginsAtom {c : Char} (h : BeginsAtom c) : Begins c := by
  rcases h with h | h | h | rfl
  · exact begins_of_charType (by simp [h]) (by simp [h])
  · exact begins_of_charType (by simp [h]) (by simp [h])
  · exact begins_of_charType (by simp [h]) (by simp [h])
  · exact begins_of_charType (by decide) (by decide)

theorem getToken_open (g : Grammar) (b : Bool) {x y : Char} (hx : x = '[' ∨ x = '\x7b')
    (hy : Begins y) (s : Text) : g.getToken b (x :: y :: s) = some (.punct x, y :: s) := by
  obtain ⟨hblank, -, hsquare, hcurl, hbar, -⟩ := hy
  have hdrop : (y :: s).dropWhile isBlank = y :: s :=
    List.dropWhile_cons_of_neg (by simp [hblank])
  rcases hx with rfl | rfl
  · show Grammar.punctToken '[' (y :: s) = _
    unfold Grammar.punctToken
    rw [if_neg (by simp), if_pos (by simp), hdrop]
    simp [Grammar.openToken, Grammar.matchingBracket, hsquare, hbar]
  · show Grammar.punctToken '\x7b' (y :: s) = _
    unfold Grammar.punctToken
    rw [if_neg (by simp [hbar]), if_pos (by simp), hdrop]
    simp [Grammar.openToken, Grammar.matchingBracket, hcurl, hbar]

end Rolog
