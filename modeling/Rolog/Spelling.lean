/-
  Texts that both passes of the reader take as some tokens (`Takes`): the first copies the text,
  the second reads the tokens, each with the flag of its mark. Texts are put together with or
  without a space in between (`Gap`). A whole text with the tokens of an expression reads as its
  term (`readTerm_of_takes`).
-/
import Rolog.Marks
import Rolog.ParseValues
import Rolog.TokenText

namespace Rolog

variable {g : Grammar}

/-! ## Both passes -/

/-- What the first pass puts behind a text. -/
def stopText : Text := [' ', '.', ' ']

/-- The second pass reads the text `s` up to `rest` as these tokens. -/
inductive Scans (g : Grammar) : List Mark → Text → Text → Prop where
  | nil {s : Text} : Scans g [] s s
  | cons {b : Option Bool} {t : ReadToken} {toks : List Mark} {s s' rest : Text} :
    (∀ b', (∀ x ∈ b, b' = x) → g.getToken b' s = some (t, s')) → t ≠ .fullstop →
    s'.length < s.length → Scans g toks s' rest → Scans g ((b, t) :: toks) s rest

theorem Scans.append {toks toks' : List Mark} {s s' rest : Text} (h : Scans g toks s s')
    (h' : Scans g toks' s' rest) : Scans g (toks ++ toks') s rest := by
  induction h with
  | nil => exact h'
  | cons ht hstop hlen _ ih => exact .cons ht hstop hlen (ih h')

theorem Scans.blank {toks : List Mark} {s rest : Text} (h : Scans g toks s rest)
    (hne : toks ≠ []) : Scans g toks (' ' :: s) rest := by
  cases h with
  | nil => exact absurd rfl hne
  | cons ht hstop hlen h =>
    refine .cons (fun b' hb => ?_) hstop (Nat.lt_succ_of_lt hlen) h
    rw [getToken_blank]
    exact ht b' hb

/-- Behind `out` and in front of `rest`, the text `u` is taken as these tokens. -/
structure Takes (g : Grammar) (out u rest : Text) (toks : List Mark) : Prop where
  passes : Raw.Passes out u rest
  scans : Scans g toks (u ++ (rest ++ stopText)) (rest ++ stopText)

namespace Takes

variable {out u v rest : Text} {toks toks' : List Mark}

theorem nil (h : out ≠ []) (rest : Text) : Takes g out [] rest [] := ⟨.nil h rest, .nil⟩

theorem append (hu : Takes g out u (v ++ rest) toks)
    (hv : Takes g (u.reverse ++ out) v rest toks') : Takes g out (u ++ v) rest (toks ++ toks') := by
  refine ⟨hu.passes.append hv.passes, ?_⟩
  have hscans := hu.scans
  rw [List.append_assoc] at hscans
  rw [List.append_assoc]
  exact hscans.append hv.scans

theorem blank (h : out ≠ []) (hu : Takes g (' ' :: out) u rest toks) (hne : toks ≠ []) :
    Takes g out (' ' :: u) rest toks :=
  ⟨.blank h hu.passes, hu.scans.blank hne⟩

theorem token {b : Option Bool} {t : ReadToken} (hp : Raw.Passes out u rest) (hu : u ≠ [])
    (hstop : t ≠ .fullstop) (ht : ∀ b', (∀ x ∈ b, b' = x) →
      g.getToken b' (u ++ (rest ++ stopText)) = some (t, rest ++ stopText)) :
    Takes g out u rest [(b, t)] := by
  refine ⟨hp, .cons ht hstop ?_ .nil⟩
  have hlen : 0 < u.length := List.length_pos_iff.mpr hu
  simp only [List.length_append]
  omega

end Takes

/-! ## Spaces -/

/-- No digit is in front of a single quote. -/
def Quotable (out u : Text) : Prop := u.head? = some '\'' → Raw.NoDigit out

/-- Between the characters is a space, or none is needed. -/
def Gap (d : Char) (gap : Text) (c : Char) : Prop := gap = [' '] ∨ gap = [] ∧ Breaks d c

theorem breaks_space (d : Char) : Breaks d ' ' := by
  have hpure : isAlpha ' ' = false ∧ isSymbol ' ' = false ∧ isquote ' ' = false := by decide
  refine .inl ?_
  unfold needSpace
  simp [hpure]

theorem quotable_of_breaks {d c : Char} (h : Breaks d c) (out u : Text) :
    Quotable (d :: out) (c :: u) := by
  intro hc d' hd'
  cases hd'
  cases hd : isDigit d with
  | false => rfl
  | true =>
    cases hc
    exact absurd rfl (ne_singleQuote_of_breaks h hd)

theorem quotable_space (out u : Text) : Quotable (' ' :: out) u := by
  intro _ d hd
  cases hd
  decide

/-- A text behind a gap. -/
theorem Takes.gap {d c : Char} {gap out u rest : Text} {toks : List Mark}
    (hd : out.head? = some d) (hgap : Gap d gap c) (hne : toks ≠ [])
    (h : ∀ out', out' ≠ [] → Quotable out' (c :: u) → Takes g out' (c :: u) rest toks) :
    Takes g out (gap ++ c :: u) rest toks := by
  cases out with
  | nil => cases hd
  | cons d' out =>
    cases hd
    rcases hgap with rfl | ⟨rfl, hb⟩
    · exact .blank (List.cons_ne_nil _ _)
        (h _ (List.cons_ne_nil _ _) (quotable_space _ _)) hne
    · exact h _ (List.cons_ne_nil _ _) (quotable_of_breaks hb out u)

theorem apart_gap {d c : Char} {gap u v : Text} (hd : u.getLast? = some d) (h : Gap d gap c) :
    Apart u (gap ++ c :: v) := by
  intro d' hd' c' hc'
  rw [hd] at hd'
  cases hd'
  rcases h with rfl | ⟨rfl, hb⟩
  · cases hc'
    exact breaks_space _
  · cases hc'
    exact hb

theorem apart_stop {u rest : Text} (h : Apart u rest) : Apart u (rest ++ stopText) := by
  intro d hd c hc
  cases rest with
  | nil =>
    cases hc
    exact breaks_space d
  | cons c' r =>
    cases hc
    exact h d hd c rfl

theorem stopText_cons (rest : Text) : ∃ c r, rest ++ stopText = c :: r := by
  cases rest with
  | nil => exact ⟨_, _, rfl⟩
  | cons c r => exact ⟨_, _, rfl⟩

/-! ## Tokens -/

section

variable {out rest : Text}

theorem tokenOf_ne_fullstop (a rest : Text) : tokenOf a rest ≠ .fullstop := by
  have hname : ∀ kind : List Nat → ReadToken, (∀ a, kind a ≠ .fullstop) →
      nameToken kind (wideChars a) rest ≠ .fullstop := by
    intro kind hkind
    unfold nameToken
    split_ifs <;> simp [hkind]
  unfold tokenOf
  cases atomType a with
  | lower | symbol => exact hname _ (by simp)
  | solo | special => dsimp only; split_ifs <;> simp
  | fullstop | quote => exact hname _ (by simp)

/-- An atom. Where a sign may be part of a number, no digit is behind it. -/
theorem takes_atom (b : Option Bool) {a : Text} (hq : Quotable out (atomText a))
    (h : Apart (atomText a) rest)
    (hsign : b = some true ∨ (a = ['+'] ∨ a = ['-'] → ∀ c ∈ rest.head?, isDigit c = false)) :
    Takes g out (atomText a) rest [(b, tokenOf a (rest ++ stopText))] := by
  refine .token (passes_atom a hq h) ?_ (tokenOf_ne_fullstop a _) fun b' hb' => ?_
  · exact atomText_ne_nil a
  · obtain ⟨c, r, hc⟩ := stopText_cons rest
    have happart := apart_stop h
    rw [hc] at happart ⊢
    refine getToken_atom g b' a r (fun d hd => happart d hd c rfl) fun hfalse ha => ?_
    rcases hsign with rfl | hsign
    · exact absurd (hb' true rfl) (by simp [hfalse])
    · cases rest with
      | nil =>
        cases hc
        decide
      | cons c' r' =>
        cases hc
        exact hsign ha c rfl

theorem takes_string (u : Text) (h : Apart (writeQuoted '"' u) rest) :
    Takes g out (writeQuoted '"' u) rest [(some false, .str (wideChars u))] := by
  refine .token (passes_string u out rest) (List.cons_ne_nil _ _) (by simp) fun b' _ => ?_
  obtain ⟨c, r, hc⟩ := stopText_cons rest
  have happart := apart_stop h
  rw [hc] at happart ⊢
  exact getToken_string g b' u (ne_quote_of_breaks (happart '"' (getLast?_quoted _ _) c rfl) rfl) r

/-- A bracket or comma, but no opening one. -/
theorem takes_punct (b : Option Bool) {x : Char}
    (hx : x = '(' ∨ x = ')' ∨ x = ',' ∨ x = ']' ∨ x = '\x7d') :
    Takes g out [x] rest [(b, .punct x)] := by
  refine .token (Raw.passes_ordinary ?_ out rest) (List.cons_ne_nil _ _) (by simp)
    fun b' _ => getToken_punct g b' hx _
  intro y hy
  rw [List.mem_singleton.mp hy]
  rcases hx with rfl | rfl | rfl | rfl | rfl <;> decide

theorem takes_bar (b : Option Bool) (hout : out.head? ≠ some '|') (hrest : rest.head? ≠ some '|') :
    Takes g out ['|'] rest [(b, .punct '|')] := by
  refine .token (fun b' hb' => ?_) (List.cons_ne_nil _ _) (by simp) fun b' _ => ?_
  · have hstep : Raw.step ⟨.next, out, b'⟩ '|' = ⟨.next, '|' :: out, true⟩ := by
      show (if '|' = '|' ∧ out.head? = some '|' then _ else _) = _
      rw [if_neg (by simp [hout])]
      rfl
    rw [List.singleton_append, List.foldl_cons, hstep]
    rfl
  · obtain ⟨c, r, hc⟩ := stopText_cons rest
    rw [hc, List.singleton_append]
    refine getToken_bar g b' (fun hbar => ?_) r
    subst hbar
    cases rest with
    | nil => cases hc
    | cons c' r' =>
      cases hc
      exact hrest rfl

/-- An opening bracket or brace in front of a term. -/
theorem takes_open {x y : Char} (hx : x = '[' ∨ x = '\x7b') (hy : Begins y) {r : Text} :
    Takes g out [x] (y :: r) [(none, .punct x)] := by
  refine .token (Raw.passes_ordinary ?_ out _) (List.cons_ne_nil _ _) (by simp)
    fun b' _ => getToken_open g b' hx hy _
  intro z hz
  rw [List.mem_singleton.mp hz]
  rcases hx with rfl | rfl <;> decide

theorem takes_nil (b : Option Bool) (h : rest.head? ≠ some '(') :
    Takes g out ['[', ']'] rest [(b, .name (wideChars ['[', ']']))] := by
  have hbrackets : ∀ x ∈ ['[', ']'], isOrdinary x = true :=
    List.all_iff_forall_prop.mp (by decide)
  refine .token (Raw.passes_ordinary hbrackets out rest) (List.cons_ne_nil _ _) (by simp)
    fun b' _ => ?_
  have hhead : (rest ++ stopText).head? ≠ some '(' := by
    cases rest with
    | nil => decide
    | cons c r => exact h
  show some ((if (rest ++ stopText).head? = some '(' then ReadToken.functor (wideChars ['[', ']'])
    else .name (wideChars ['[', ']'])), rest ++ stopText) = _
  rw [if_neg hhead]

/-! ## Integers -/

/-- What may stand behind a term with the text `u`: nothing that runs on, and no parenthesis. -/
structure Follows (u rest : Text) : Prop where
  apart : ∀ d ∈ u.getLast?, ∀ c ∈ rest.head?, needSpace c (some d) = false
  head : ∀ c ∈ rest.head?, c ≠ '(' ∧ c ≠ '\x7b' ∧ isDigit c = false
  digit : ∀ c r, rest = c :: r → c = ' ' ∨ c = '.' → ∀ d ∈ r.head?, isDigit d = false

theorem follows_nil (u : Text) : Follows u [] := by
  refine ⟨fun d _ c hc => ?_, fun c hc => ?_, fun c r hr => ?_⟩
  · cases hc
  · cases hc
  · cases hr

theorem Follows.breaks {u rest : Text} (h : Follows u rest) : Apart u rest :=
  fun d hd c hc => .inl (h.apart d hd c hc)

/-- What `str_number` is trusted for: it reads a decimal integer back, where nothing behind belongs
to the number. -/
structure ReadsDecimals (strNumber : Text → Option (Text × Text)) (number : Text → Option Term) :
    Prop where
  reads : ∀ i c r, isAlpha c = false → c ≠ '\'' →
    (c = ' ' ∨ c = '.' → ∀ d ∈ r.head?, isDigit d = false) →
    strNumber (decimal i ++ c :: r) = some (decimal i, c :: r)
  value : ∀ i, number (decimal i) = some (.int i)

/-- Digits in front of anything else. -/
theorem digits_append {ds : Text} (hne : ds ≠ []) (hds : ∀ c ∈ ds, charType c = .di) {c : Char}
    (hc : isAlpha c = false) (r : Text) : digits (ds ++ c :: r) = some (ds, c :: r) := by
  have hdigits : ∀ d ∈ ds, isDigit d = true := fun d hd => decide_eq_true (hds d hd)
  have hno : isDigit c = false := by
    cases h : isDigit c with
    | false => rfl
    | true =>
      have halpha : isAlpha c = true := isAlpha_iff.mpr (.inr (.inr (of_decide_eq_true h)))
      rw [hc] at halpha
      cases halpha
  obtain ⟨htake, hdrop⟩ := dropWhile_run hdigits hno r
  unfold digits
  rw [htake, hdrop, if_neg hne]

theorem readsDecimals_decimal : ReadsDecimals decimalNumber decimalValue where
  reads i c r hc _ _ := by
    have hplain : ∀ n, decimalNumber (Nat.toDigits 10 n ++ c :: r) =
        digits (Nat.toDigits 10 n ++ c :: r) := by
      intro n
      obtain ⟨d, ds, hd⟩ := List.exists_cons_of_ne_nil (Nat.toDigits_ne_nil (n := n) (b := 10))
      have hdigit : charType d = .di := charType_toDigits d (by rw [hd]; simp)
      rw [hd]
      refine if_neg ?_
      rintro (rfl | rfl)
      · cases hdigit
      · cases hdigit
    cases i with
    | ofNat n =>
      show decimalNumber (Nat.toDigits 10 n ++ c :: r) = _
      rw [hplain, digits_append Nat.toDigits_ne_nil charType_toDigits hc]
      rfl
    | negSucc n =>
      show (digits (Nat.toDigits 10 (n + 1) ++ c :: r)).map _ = _
      rw [digits_append Nat.toDigits_ne_nil charType_toDigits hc]
      rfl
  value i := by
    cases i with
    | ofNat n =>
      obtain ⟨d, ds, hd⟩ := List.exists_cons_of_ne_nil (Nat.toDigits_ne_nil (n := n) (b := 10))
      have hdigit : charType d = .di := charType_toDigits d (by rw [hd]; simp)
      have hvalue : decimalValue (Nat.toDigits 10 n) =
          some (.int (Nat.ofDigitChars 10 (Nat.toDigits 10 n) 0)) := by
        rw [hd]
        unfold decimalValue
        have hsign : ∀ x, charType x ≠ .di → d ≠ x := by
          rintro x hx rfl
          exact hx hdigit
        split
        · next he => exact absurd (List.cons.inj he).1 (hsign '-' (by decide))
        · next he => exact absurd (List.cons.inj he).1 (hsign '+' (by decide))
        · rfl
      show decimalValue (Nat.toDigits 10 n) = _
      rw [hvalue, Nat.ofDigitChars_ten_toDigits]
      rfl
    | negSucc n =>
      show some (Term.int (-Nat.ofDigitChars 10 (Nat.toDigits 10 (n + 1)) 0)) = _
      rw [Nat.ofDigitChars_ten_toDigits]
      rfl

theorem decimal_last (i : Int) : ∃ d, (decimal i).getLast? = some d ∧ charType d = .di := by
  obtain ⟨ds, hne, hds, h⟩ := decimal_cases i
  have hlast := List.getLast?_eq_some_getLast hne
  refine ⟨ds.getLast hne, ?_, hds _ (List.getLast_mem hne)⟩
  rcases h with h | h
  · rw [h, hlast]
  · rw [h, ← List.singleton_append, List.getLast?_append, hlast]
    rfl

theorem takes_decimal {number : Text → Option Term} (hg : ReadsDecimals g.strNumber number)
    {i : Int} (h : Follows (decimal i) rest) :
    Takes g out (decimal i) rest [(some false, .number (decimal i))] := by
  obtain ⟨d, hlast, hdigit⟩ := decimal_last i
  have hne : decimal i ≠ [] := by
    intro hnil
    rw [hnil] at hlast
    cases hlast
  refine .token (passes_decimal i out rest) hne (by simp) fun b' hb' => ?_
  have hb : b' = false := hb' false rfl
  obtain ⟨c, r, hc⟩ := stopText_cons rest
  have hbreaks := apart_stop h.breaks
  rw [hc] at hbreaks ⊢
  have hcd : Breaks d c := hbreaks d hlast c rfl
  refine getToken_decimal (hg.reads i c r (not_alpha_of_breaks hcd (isAlpha_iff.mpr
    (.inr (.inr hdigit)))) (ne_singleQuote_of_breaks hcd (decide_eq_true hdigit)) ?_) hb
  cases rest with
  | nil =>
    cases hc
    exact fun _ d hd => by cases hd; decide
  | cons c' r' =>
    cases hc
    intro hspace d hd
    cases r' with
    | nil =>
      cases hd
      decide
    | cons d' r' =>
      cases hd
      exact h.digit c _ rfl hspace d rfl

end

/-! ## The reader -/

section

variable {ops : Operators} {strNumber : Text → Option (Text × Text)}
  {number : Text → Option Term}

/-- The reader finds the tokens, since the parser says what their marks say. -/
theorem tokens_of_scans {toks : List Mark} {s rest : Text}
    (h : Scans (plGrammar number ops strNumber) toks s rest) {n : Nat} (hn : s.length ≤ n)
    {prior : List ReadToken} {S S' : ParseState} (hS : ParseState.start.run ops prior = .ok S)
    (hasks : S.Asks ops toks) (hrun : S.run ops (toks.map Prod.snd) = .ok S') :
    ∃ m, rest.length ≤ m ∧ (plGrammar number ops strNumber).tokens n prior s =
      ((plGrammar number ops strNumber).tokens m (prior ++ toks.map Prod.snd) rest).map
        (toks.map Prod.snd ++ ·) := by
  induction h generalizing n prior S with
  | nil => exact ⟨n, hn, by simp⟩
  | @cons b t toks s s' rest ht hstop hlen h ih =>
    obtain ⟨hb, hrest⟩ := hasks
    rw [List.map_cons, ParseState.run_cons] at hrun
    obtain ⟨S₁, hstep, hrun⟩ := bind_eq_ok.mp hrun
    have hprior : ParseState.start.run ops (prior ++ [t]) = .ok S₁ := by
      rw [ParseState.run_append, hS]
      exact (ParseState.run_cons_of_step hstep []).trans rfl
    obtain ⟨k, rfl⟩ : ∃ k, n = k + 1 := ⟨n - 1, by omega⟩
    have hk : s'.length ≤ k := by omega
    obtain ⟨m, hm, htoks⟩ := ih hk hprior (hrest S₁ hstep) hrun
    have hflag : (plGrammar number ops strNumber).mustBeOp prior = S.mustBeOp := by
      unfold plGrammar
      simp only [hS]
    refine ⟨m, hm, ?_⟩
    rw [Grammar.tokens_succ hflag (ht _ hb), if_neg hstop, htoks, Option.map_map,
      List.append_assoc]
    rfl

theorem tokens_stop (g : Grammar) {n : Nat} (hn : 0 < n) (prior : List ReadToken) :
    g.tokens n prior stopText = some [.fullstop] := by
  obtain ⟨k, rfl⟩ : ∃ k, n = k + 1 := ⟨n - 1, by omega⟩
  have hstop : g.getToken (g.mustBeOp prior) stopText = some (.fullstop, [' ']) := rfl
  rw [Grammar.tokens_succ rfl hstop, if_pos rfl]

theorem rawRead_of_passes {u : Text} (h : Raw.Passes [] u [])
    (hlast : ∀ d ∈ u.getLast?, isBlank d = false) : rawRead u = some (u ++ stopText) := by
  have hread := h false fun _ => rfl
  rw [List.append_nil, List.append_nil] at hread
  have hblank : (u.reverse.head?.map isBlank).getD false = false := by
    rw [List.head?_reverse]
    cases hu : u.getLast? with
    | none => rfl
    | some d => exact hlast d hu
  refine hread.trans ?_
  show some (Raw.endOfText ⟨.next, u.reverse, true⟩) = _
  rw [Raw.endOfText_read, hblank, List.reverse_reverse]
  rfl

theorem readTerm_of_parts {g : Grammar} {s raw : Text} {toks : List ReadToken} {t : Term}
    (hraw : rawRead s = some raw) (htoks : g.tokens raw.length [] raw = some toks)
    (ht : g.complexTerm toks = some t) : g.readTerm s = some t := by
  unfold Grammar.readTerm
  rw [hraw]
  show (g.tokens raw.length [] raw >>= g.complexTerm) = some t
  rw [htoks]
  exact ht

theorem complexTerm_of_parse {number : Text → Option Term} {strNumber : Text → Option (Text × Text)}
    {toks : List ReadToken} {r : ReadTerm} {t : Term} {vars : List (Option Text)}
    (hparse : parse ops toks = .ok r) (ht : r.toTerm number [] = some (t, vars)) :
    (plGrammar number ops strNumber).complexTerm toks = some t := by
  show ((parse ops toks).toOption >>= _) = some t
  rw [hparse]
  show (r.toTerm number [] >>= _) = some t
  rw [ht]
  rfl

open ParseState in
/-- A text with the tokens of an expression reads as its term. -/
theorem readTerm_of_takes {u : Text} {e : Expr} {t : Term}
    (htakes : Takes (plGrammar number ops strNumber) [] u [] e.marked)
    (hlast : ∀ d ∈ u.getLast?, isBlank d = false)
    (hreads : e.isLone = false → e.Reads ops Caller.readTerm.stops maxPri)
    (ht : e.term.toTerm number [] = some (t, [])) :
    (plGrammar number ops strNumber).readTerm u = some t := by
  have hwhole := readsWhole_argument fun hl => readsBehind (hreads hl)
  have hasks := asksWhole_argument fun hl => asksBehind (hreads hl)
  obtain ⟨s', hrun, -⟩ := hwhole .readTerm [] rfl
  rw [← Expr.marked_tokens] at hrun
  have hscans := htakes.scans
  rw [List.nil_append] at hscans
  have hstart : start.run ops [] = .ok start := rfl
  obtain ⟨m, hm, htoks⟩ :=
    tokens_of_scans hscans (Nat.le_refl _) hstart (hasks .readTerm [] rfl) hrun
  rw [tokens_stop _ (Nat.lt_of_lt_of_le (by decide) hm), Expr.marked_tokens] at htoks
  refine readTerm_of_parts (rawRead_of_passes htakes.passes hlast) htoks ?_
  exact complexTerm_of_parse (parse_whole hwhole) ht

end

end Rolog
