/-
  Ways to write a term. `Laid` says of one that its text is that of an expression, which both
  passes and the parser take for the term; there is one lemma for each way.
-/
import Rolog.RegularOperators

namespace Rolog

/-! ## Spaces -/

namespace WriteState

/-- The space in front of `c`, behind `d` with this mark. -/
def gap (mark : OpMark) (d c : Char) : Text :=
  if ({ out := [d], mark } : WriteState).needSpace c then [' '] else []

theorem putString_putString (s : WriteState) (u v : Text) :
    (s.putString u).putString v = s.putString (u ++ v) := by
  show ({ out := (s.out ++ u) ++ v } : WriteState) = { out := s.out ++ (u ++ v) }
  rw [List.append_assoc]

theorem needSpace_last {s : WriteState} {d : Char} (hd : s.out.getLast? = some d) (c : Char) :
    s.needSpace c = ({ out := [d], mark := s.mark } : WriteState).needSpace c := by
  unfold needSpace
  rw [hd]
  rfl

theorem putToken_behind {s : WriteState} {d : Char} (hd : s.out.getLast? = some d) (c : Char)
    (v : Text) : s.putToken (c :: v) = s.putString (gap s.mark d c ++ c :: v) := by
  show (s.putOpenToken c).putString (c :: v) = _
  unfold putOpenToken gap
  rw [needSpace_last hd]
  by_cases h : ({ out := [d], mark := s.mark } : WriteState).needSpace c = true
  · rw [if_pos h, if_pos h]
    simp [putString, putc]
  · rw [if_neg h, if_neg h]
    rfl

theorem putToken_putString (s : WriteState) {u : Text} (hu : u ≠ []) (v : Text) :
    (s.putToken u).putString v = s.putToken (u ++ v) := by
  obtain ⟨c, u, rfl⟩ := List.exists_cons_of_ne_nil hu
  show ((s.putOpenToken c).putString (c :: u)).putString v =
    (s.putOpenToken c).putString (c :: (u ++ v))
  simp [putString]

theorem putToken_last (s : WriteState) {u : Text} {d : Char} (hd : u.getLast? = some d) :
    (s.putToken u).out.getLast? = some d := by
  cases u with
  | nil => cases hd
  | cons c u =>
    show ((s.putOpenToken c).out ++ c :: u).getLast? = some d
    rw [List.getLast?_append, hd]
    rfl

theorem putToken_mark (s : WriteState) {u : Text} (hu : u ≠ []) : (s.putToken u).mark = .no := by
  obtain ⟨c, u, rfl⟩ := List.exists_cons_of_ne_nil hu
  rfl

/-- A token behind another. -/
theorem putToken_putToken (s : WriteState) {u : Text} {d : Char} (hd : u.getLast? = some d)
    (m : OpMark) (c : Char) (v : Text) :
    ((s.putToken u).setMark m).putToken (c :: v) = s.putToken (u ++ (gap m d c ++ c :: v)) := by
  have hu : u ≠ [] := by
    rintro rfl
    cases hd
  have hlast : ((s.putToken u).setMark m).out.getLast? = some d := s.putToken_last hd
  rw [putToken_behind hlast, ← s.putToken_putString hu]
  rfl

/-- Behind a bracket, a comma or a bar is no space. -/
theorem gap_punct {x : Char} (hx : charType x = .pu) {m : OpMark} (hm : m = .no ∨ m = .infixOp)
    (c : Char) : gap m x c = [] := by
  have hno : Rolog.needSpace c (some x) = false := by
    have hquote : (isquote c && x == c) = false := by
      rw [Bool.and_eq_false_iff]
      by_cases h : x = c
      · subst h
        refine .inl (decide_eq_false ?_)
        rintro (rfl | rfl)
        · cases hx
        · cases hx
      · exact .inr (beq_eq_false_iff_ne.mpr h)
    have htypes : isAlpha x = false ∧ isSymbol x = false := by
      unfold isAlpha isSymbol
      rw [hx]
      exact ⟨rfl, rfl⟩
    unfold Rolog.needSpace
    simp [htypes, hx, hquote]
  unfold gap needSpace
  rcases hm with rfl | rfl <;> simp [hno]

theorem gap_space (c : Char) : gap .infixOp ' ' c = [] := by
  have hno : (c != '(' && Rolog.needSpace c (some ' ')) = false := by
    have htypes : isAlpha ' ' = false ∧ isSymbol ' ' = false ∧ charType ' ' = .sp := by decide
    have hquote : (isquote c && ' ' == c) = false := by
      rw [Bool.and_eq_false_iff]
      by_cases h : c = ' '
      · subst h
        exact .inl (by decide)
      · exact .inr (beq_eq_false_iff_ne.mpr (Ne.symm h))
    unfold Rolog.needSpace
    by_cases h : c = '('
    · simp [h]
    · simp [htypes, hquote, h]
  unfold gap needSpace
  simp only [List.getLast?_singleton, hno]
  rfl

end WriteState

open WriteState (gap gap_punct gap_space)

theorem gap_gap {m : OpMark} (hm : m = .no ∨ m = .infixOp) (d c : Char) : Gap d (gap m d c) c := by
  unfold gap
  by_cases h : ({ out := [d], mark := m } : WriteState).needSpace c = true
  · exact .inl (if_pos h)
  · refine .inr ⟨if_neg h, ?_⟩
    rw [Bool.not_eq_true] at h
    rcases hm with rfl | rfl
    · exact .inl h
    · by_cases hc : c = '('
      · exact .inr hc
      · refine .inl ?_
        have hand : (c != '(' && needSpace c (some d)) = false := h
        simpa [hc] using hand

/-- Behind a prefix operator. -/
theorem gap_prefixMark (f : Text) (d c : Char) : gap (prefixMark f) d c = [' '] ∨
    gap (prefixMark f) d c = [] ∧ Breaks d c ∧ c ≠ '(' ∧ c ≠ '\x7b' ∧
      (f = ['+'] ∨ f = ['-'] → isDigit c = false) := by
  unfold gap
  by_cases h : ({ out := [d], mark := prefixMark f } : WriteState).needSpace c = true
  · exact .inl (if_pos h)
  · refine .inr ⟨if_neg h, ?_⟩
    rw [Bool.not_eq_true] at h
    unfold prefixMark at h
    by_cases hf : f = ['-'] ∨ f = ['+']
    · rw [if_pos hf] at h
      simp only [WriteState.needSpace, Bool.or_eq_false_iff, beq_eq_false_iff_ne] at h
      exact ⟨.inl h.2, h.1.1.2, h.1.2, fun _ => h.1.1.1.1⟩
    · rw [if_neg hf] at h
      simp only [WriteState.needSpace, Bool.or_eq_false_iff, beq_eq_false_iff_ne] at h
      exact ⟨.inl h.2, h.1.1, h.1.2, fun hs => absurd hs.symm hf⟩

/-- What is written behind a term: a name, with or without a space. -/
theorem follows_gap {u : Text} {d c : Char} {v : Text} (hd : u.getLast? = some d)
    (hc : BeginsAtom c) (hdot : c = '.' → ∀ x ∈ v.head?, isDigit x = false) :
    Follows u (gap .no d c ++ c :: v) := by
  have hno : c ≠ '(' ∧ c ≠ '\x7b' ∧ isDigit c = false ∧ c ≠ ' ' := by
    refine ⟨?_, ?_, ?_, ?_⟩
    · rintro rfl
      exact absurd hc (by unfold BeginsAtom; decide)
    · rintro rfl
      exact absurd hc (by unfold BeginsAtom; decide)
    · unfold isDigit
      rcases hc with h | h | h | rfl
      · simp [h]
      · simp [h]
      · simp [h]
      · decide
    · rintro rfl
      exact absurd hc (by unfold BeginsAtom; decide)
  unfold gap
  by_cases h : ({ out := [d], mark := .no } : WriteState).needSpace c = true
  · rw [if_pos h]
    refine ⟨fun d' _ c' hc' => ?_, fun c' hc' => ?_, fun c' r hr _ x hx => ?_⟩
    · cases hc'
      exact (breaks_space d').resolve_right (by decide)
    · cases hc'
      decide
    · cases hr
      cases hx
      exact hno.2.2.1
  · rw [if_neg h]
    rw [Bool.not_eq_true] at h
    refine ⟨fun d' hd' c' hc' => ?_, fun c' hc' => ?_, fun c' r hr hs => ?_⟩
    · rw [hd] at hd'
      cases hd'
      cases hc'
      exact h
    · cases hc'
      exact ⟨hno.1, hno.2.1, hno.2.2.1⟩
    · cases hr
      exact hdot (hs.resolve_left hno.2.2.2)

/-- A closing bracket, a comma or a bar may stand behind every term. -/
theorem follows_close (u r : Text) {x : Char}
    (hx : x = ')' ∨ x = ',' ∨ x = ']' ∨ x = '\x7d' ∨ x = '|') : Follows u (x :: r) := by
  have hpu : isAlpha x = false ∧ isSymbol x = false ∧ isquote x = false ∧ x ≠ '(' ∧ x ≠ '\'' ∧
      x ≠ '\x7b' ∧ isDigit x = false ∧ x ≠ ' ' ∧ x ≠ '.' := by
    rcases hx with rfl | rfl | rfl | rfl | rfl <;> decide
  obtain ⟨h1, h2, h3, h4, h5, h6, h7, h8, h9⟩ := hpu
  refine ⟨fun d _ c hc => ?_, fun c hc => ?_, fun c r' hr hs => ?_⟩
  · cases hc
    unfold needSpace
    simp [h1, h2, h3, h4, h5]
  · cases hc
    exact ⟨h4, h6, h7⟩
  · cases hr
    exact absurd hs (by simp [h8, h9])

/-! ## Terms with their texts -/

/-- Whether the term may be the name of an operator. -/
def Place.whole : Place → Bool
  | term prec => 1200 ≤ prec
  | arg | tail => true

/-- This way to write puts the term `t` at the place `p` as the text `u`, and this reads as the
expression `e`, whose term is `t`. -/
structure Laid (g : Grammar) (number : Text → Option Term) (ops : Operators)
    (W : WriteState → WriteState) (p : Place) (t : Term) (u : Text) (e : Expr) : Prop where
  write : ∀ s : WriteState, s.out.getLast? ≠ some '"' → W s = s.putToken u
  head : ∃ c v, u = c :: v ∧ Begins c
  last : ∃ d, u.getLast? = some d ∧ isBlank d = false ∧ d ≠ '|'
  ascii : IsAsciiString u
  term : ∀ vars, e.term.toTerm number vars = some (t, vars)
  pri : e.pri ops ≤ p.prec
  lone : e.isLone = true → p.whole = true
  reads : e.isLone = false → ∀ stop limit, Stops stop p.prec → Sits ops limit p.prec →
    e.Reads ops stop limit
  takes : ∀ out rest, Quotable out u → Follows u rest → Takes g out u rest e.marked

section

variable {g : Grammar} {number : Text → Option Term} {ops : Operators}
  {W : WriteState → WriteState} {p : Place} {t : Term} {u : Text} {e : Expr}

theorem Follows.of_append {u v rest : Text} (h : Follows (u ++ v) rest) (hv : v ≠ []) :
    Follows v rest := by
  have hlast : (u ++ v).getLast? = v.getLast? := by
    rw [List.getLast?_append, List.getLast?_eq_some_getLast hv]
    rfl
  exact ⟨fun d hd => h.apart d (by rw [hlast]; exact hd), h.head, h.digit⟩

theorem quotable_append {out u v : Text} (h : Quotable out (u ++ v)) (hu : u ≠ []) :
    Quotable out u := by
  obtain ⟨c, u, rfl⟩ := List.exists_cons_of_ne_nil hu
  exact h

theorem quotable_punct {x : Char} (hx : charType x = .pu) (out u : Text) :
    Quotable (x :: out) u := by
  intro _ d hd
  cases hd
  unfold isDigit
  rw [hx]
  rfl

/-- A term may stand where a term of a higher priority may. -/
theorem Laid.at {pri : Nat} (h : Laid g number ops W (.term pri) t u e) (hle : pri ≤ p.prec)
    (hlone : e.isLone = true → p.whole = true) : Laid g number ops W p t u e where
  write := h.write
  head := h.head
  last := h.last
  ascii := h.ascii
  term := h.term
  pri := Nat.le_trans h.pri hle
  lone := hlone
  reads hl stop limit hstop hsits := h.reads hl stop limit (hstop.mono hle) (hsits.mono hle)
  takes := h.takes

/-- A text between two brackets. -/
theorem takes_enclosed {out rest : Text} {x y : Char} {toks : List Mark}
    (hopen : Takes g out [x] (u ++ (y :: rest)) [(none, .punct x)])
    (h : Takes g (x :: out) u (y :: rest) toks)
    (hy : y = '(' ∨ y = ')' ∨ y = ',' ∨ y = ']' ∨ y = '\x7d') :
    Takes g out (x :: (u ++ [y])) rest ((none, .punct x) :: (toks ++ [(none, .punct y)])) := by
  have hclose : Takes g (u.reverse ++ (x :: out)) [y] rest [(none, .punct y)] := takes_punct none hy
  have hinner : Takes g (x :: out) (u ++ [y]) rest (toks ++ [(none, .punct y)]) := h.append hclose
  have hfirst : Takes g out [x] ((u ++ [y]) ++ rest) [(none, .punct x)] := by
    rw [List.append_assoc]
    exact hopen
  exact hfirst.append hinner

theorem isAsciiString_append {u v : Text} (hu : IsAsciiString u) (hv : IsAsciiString v) :
    IsAsciiString (u ++ v) :=
  fun c hc => (List.mem_append.mp hc).elim (hu c) (hv c)

theorem isAsciiString_cons {c : Char} (hc : c.toNat ≠ 0 ∧ c.toNat < 128) {u : Text}
    (hu : IsAsciiString u) : IsAsciiString (c :: u) :=
  List.forall_mem_cons.mpr ⟨hc, hu⟩

theorem stops_of_reads {stop : ReadToken → Bool} (h : ∀ token, stop token = true →
    token = .punct ')' ∨ token = .punct ']' ∨ token = .punct '\x7d' ∨ token = .fullstop)
    (prec : Nat) : Stops stop prec := by
  intro token ht
  rcases h token ht with rfl | rfl | rfl | rfl
  · exact ⟨.inr ⟨_, rfl⟩, fun _ => by simp⟩
  · exact ⟨.inr ⟨_, rfl⟩, fun _ => by simp⟩
  · exact ⟨.inr ⟨_, rfl⟩, fun _ => by simp⟩
  · exact ⟨.inl rfl, fun _ => by simp⟩

theorem stops_parentheses (prec : Nat) : Stops Caller.parentheses.stops prec := by
  refine stops_of_reads (fun token ht => ?_) prec
  cases token with
  | punct c => exact .inl (congrArg _ (of_decide_eq_true ht))
  | _ => cases ht

/-- A term behind an opening bracket, and the closing one. -/
theorem Laid.write_enclosed (h : Laid g number ops W p t u e) {x : Char} (hx : charType x = .pu)
    (y : Char) (s : WriteState) :
    (W (s.putToken [x])).putString [y] = s.putToken (x :: (u ++ [y])) := by
  obtain ⟨c, v, rfl, -⟩ := h.head
  have hlast : [x].getLast? = some x := rfl
  have hopen : W (s.putToken [x]) = s.putToken (x :: c :: v) := by
    rw [h.write]
    · have htoken := s.putToken_putToken hlast .no c v
      rw [gap_punct hx (.inl rfl)] at htoken
      exact htoken
    · rw [s.putToken_last hlast]
      rintro he
      cases he
      cases hx
  rw [hopen, s.putToken_putString (List.cons_ne_nil _ _)]
  rfl

theorem stops_brace (prec : Nat) : Stops Caller.brace.stops prec := by
  refine stops_of_reads (fun token ht => ?_) prec
  cases token with
  | punct c => exact .inr (.inr (.inl (congrArg _ (of_decide_eq_true ht))))
  | _ => cases ht

theorem Laid.parentheses {pri : Nat} (h : Laid g number ops W (.term pri) t u e) (p : Place) :
    Laid g number ops (fun s => (W (s.openBrace true)).closeBrace true) p t
      ('(' :: (u ++ [')'])) (.parentheses e) where
  write s _ := h.write_enclosed (by decide) ')' s
  head := ⟨'(', _, rfl, by unfold Begins; decide⟩
  last := ⟨')', by rw [← List.cons_append, List.getLast?_concat], by decide⟩
  ascii := isAsciiString_cons (by decide) (isAsciiString_append h.ascii (by decide))
  term := h.term
  pri := Nat.zero_le _
  lone hl := Bool.noConfusion hl
  reads _ stop limit _ _ :=
    .parentheses fun hl => h.reads hl _ _ (stops_parentheses pri) (sits_maxPri pri)
  takes out rest _ _ :=
    takes_enclosed (takes_punct none (.inl rfl))
      (h.takes _ _ (quotable_punct (by decide) _ _) (follows_close _ _ (.inl rfl)))
      (.inr (.inl rfl))

/-- A term is embraced where its priority is too high. -/
theorem Laid.embrace {pri : Nat} (h : Laid g number ops W (.term pri) t u e)
    (hl : e.isLone = false) (p : Place) : ∃ u' e', e'.isLone = false ∧
      Laid g number ops (fun s => (W (s.openBrace (p.prec < pri))).closeBrace (p.prec < pri)) p t
        u' e' := by
  by_cases hlt : p.prec < pri
  · rw [decide_eq_true hlt]
    exact ⟨_, _, rfl, h.parentheses p⟩
  · rw [decide_eq_false hlt]
    refine ⟨u, e, hl, h.at (Nat.le_of_not_lt hlt) fun he => ?_⟩
    rw [hl] at he
    cases he

/-! ## Atoms, numbers and strings -/

theorem isAsciiString_double {q : Char} {u : Text} (h : IsAsciiString u) :
    IsAsciiString (Doubling.double (putTwice q) u) := by
  induction u with
  | nil => exact fun c hc => by cases hc
  | cons x u ih =>
    obtain ⟨hx, hu⟩ := List.forall_mem_cons.mp h
    rw [Doubling.double_cons]
    refine isAsciiString_append (fun c hc => ?_) (ih hu)
    have hcx : c = x := by
      split_ifs at hc <;> simpa using hc
    rw [hcx]
    exact hx

theorem isAsciiString_writeQuoted {q : Char} (hq : isquote q = true) {u : Text}
    (h : IsAsciiString u) : IsAsciiString (writeQuoted q u) := by
  have hcases : q = '\'' ∨ q = '"' := of_decide_eq_true hq
  have hqa : q.toNat ≠ 0 ∧ q.toNat < 128 := by
    rcases hcases with rfl | rfl <;> decide
  refine isAsciiString_cons hqa (isAsciiString_append (isAsciiString_double h) fun c hc => ?_)
  rw [List.mem_singleton.mp hc]
  exact hqa

theorem isAsciiString_atomText {a : Text} (h : IsAsciiString a) : IsAsciiString (atomText a) := by
  unfold atomText
  cases atomType a with
  | quote | fullstop => exact isAsciiString_writeQuoted rfl h
  | _ => exact h

theorem isAsciiString_decimal (i : Int) : IsAsciiString (decimal i) := by
  have hdigits : ∀ n, IsAsciiString (Nat.toDigits 10 n) := by
    intro n c hc
    have hd : (decide ('0'.val ≤ c.val) && decide (c.val ≤ '9'.val)) = true :=
      Nat.isDigit_of_mem_toDigits (by decide) (by decide) hc
    rw [Bool.and_eq_true, decide_eq_true_eq, decide_eq_true_eq] at hd
    have hlo : 48 ≤ c.toNat := UInt32.le_iff_toNat_le.mp hd.1
    have hhi : c.toNat ≤ 57 := UInt32.le_iff_toNat_le.mp hd.2
    omega
  cases i with
  | ofNat n => exact hdigits n
  | negSucc n => exact isAsciiString_cons (by decide) (hdigits (n + 1))

theorem laid_int (hg : ReadsDecimals g.strNumber number) (i : Int) (p : Place) :
    Laid g number ops (fun s => s.putToken (decimal i)) p (.int i) (decimal i)
      (.leaf (.number (decimal i))) where
  write _ _ := rfl
  head := by
    obtain ⟨ds, hne, hds, h⟩ := decimal_cases i
    obtain ⟨d, ds, rfl⟩ := List.exists_cons_of_ne_nil hne
    rcases h with h | h
    · have hd := hds d List.mem_cons_self
      exact ⟨d, ds, h, begins_of_charType (by simp [hd]) (by simp [hd])⟩
    · exact ⟨'-', _, h, by unfold Begins; decide⟩
  last := by
    obtain ⟨d, hlast, hd⟩ := decimal_last i
    refine ⟨d, hlast, ?_, ?_⟩
    · unfold isBlank
      rw [hd]
      rfl
    · rintro rfl
      cases hd
  ascii := isAsciiString_decimal i
  term vars := by
    show (number (decimal i)).map _ = _
    rw [hg.value]
    rfl
  pri := Nat.zero_le _
  lone hl := Bool.noConfusion hl
  reads _ _ _ _ _ := .leaf trivial
  takes _ _ _ h := takes_decimal hg h

theorem laid_str {a : Text} (ha : IsAsciiString a) (p : Place) :
    Laid g number ops (fun s => s.putString (writeQuoted '"' a)) p (.str a) (writeQuoted '"' a)
      (.leaf (.str (wideChars a))) where
  write s hs := by
    have hno : s.needSpace '"' = false := by
      have hpure : isAlpha '"' = false ∧ isSymbol '"' = false ∧ isDigit '"' = false := by decide
      have happart : needSpace '"' s.out.getLast? = false := by
        cases hlast : s.out.getLast? with
        | none => rfl
        | some d =>
          have hd : d ≠ '"' := fun he => hs (by rw [hlast, he])
          unfold needSpace
          simp [hpure, hd]
      unfold WriteState.needSpace
      cases s.mark <;> simp [happart, hpure]
    show _ = (s.putOpenToken '"').putString (writeQuoted '"' a)
    unfold WriteState.putOpenToken
    rw [hno]
    rfl
  head := ⟨'"', _, rfl, by unfold Begins; decide⟩
  last := ⟨'"', getLast?_quoted _ _, by decide⟩
  ascii := isAsciiString_writeQuoted rfl ha
  term vars := by
    show (Shift.textOf (wideChars a)).map _ = _
    rw [Shift.textOf_wideChars]
    rfl
  pri := Nat.zero_le _
  lone hl := Bool.noConfusion hl
  reads _ _ _ _ _ := .leaf trivial
  takes _ _ _ h := takes_string a h.breaks

/-- The name of a term with nothing behind that belongs to it. -/
theorem tokenOf_follows {a rest : Text} (h : Follows u rest) :
    tokenOf a (rest ++ stopText) = ReadToken.ofName (isQuoted a) (wideChars a) := by
  refine tokenOf_name fun c hc => ?_
  cases rest with
  | nil =>
    cases hc
    decide
  | cons c' r =>
    cases hc
    exact ⟨(h.head c rfl).1, (h.head c rfl).2.1⟩

theorem takes_name (b : Option Bool) {a out rest : Text} (hq : Quotable out (atomText a))
    (h : Follows (atomText a) rest) :
    Takes g out (atomText a) rest [(b, ReadToken.ofName (isQuoted a) (wideChars a))] := by
  rw [← tokenOf_follows h]
  exact takes_atom b hq h.breaks (.inr fun _ c hc => (h.head c hc).2.2)

theorem atomText_begins (a : Text) : ∃ c v, atomText a = c :: v ∧ Begins c := by
  by_cases ha : a = ['\x7b', '\x7d']
  · rw [ha]
    exact ⟨'\x7b', ['\x7d'], rfl, by unfold Begins; decide⟩
  · obtain ⟨c, v, hc, hbegins, -⟩ := atomText_head ha
    exact ⟨c, v, hc, begins_of_beginsAtom hbegins⟩

theorem toTerm_name (a : Text) (vars : List (Option Text)) :
    (nameToken' (ReadToken.ofName (isQuoted a) (wideChars a))).atom.term.toTerm number vars =
      some (.atom a, vars) := by
  rw [nameToken'_ofName]
  show (Shift.textOf (wideChars a)).map _ = _
  rw [Shift.textOf_wideChars]
  rfl

/-- The name of an operator, as the whole of a term. -/
theorem laid_lone {a : Text} (ha : IsAsciiString a) (hp : p.whole = true) :
    Laid g number ops (fun s => s.putToken (atomText a)) p (.atom a) (atomText a)
      (.lone (isQuoted a) (wideChars a)) where
  write _ _ := rfl
  head := atomText_begins a
  last := by
    obtain ⟨d, hd, hblank, hbar, -⟩ := atomText_last a
    exact ⟨d, hd, hblank, hbar⟩
  ascii := isAsciiString_atomText ha
  term := toTerm_name a
  pri := Nat.zero_le _
  lone _ := hp
  reads hl := Bool.noConfusion hl
  takes _ _ hq h := takes_name none hq h

/-- A name that is no operator. -/
theorem laid_name {a : Text} (ha : IsAsciiString a)
    (hplain : Expr.Plain ops (.text (wideChars a))) :
    Laid g number ops (fun s => s.putToken (atomText a)) p (.atom a) (atomText a)
      (.leaf (ReadToken.ofName (isQuoted a) (wideChars a))) where
  write _ _ := rfl
  head := atomText_begins a
  last := by
    obtain ⟨d, hd, hblank, hbar, -⟩ := atomText_last a
    exact ⟨d, hd, hblank, hbar⟩
  ascii := isAsciiString_atomText ha
  term vars := by
    rw [← toTerm_name a vars]
    cases isQuoted a <;> rfl
  pri := Nat.zero_le _
  lone hl := Bool.noConfusion hl
  reads _ _ _ _ _ := by
    have hatom := nameToken'_ofName a
    refine .leaf ?_
    cases hq : isQuoted a with
    | true => exact .inr hplain
    | false =>
      rw [hq] at hatom
      have hname : AtomName.ofName (wideChars a) = .text (wideChars a) :=
        congrArg OpEntry.atom hatom
      show Expr.Plain ops (AtomName.ofName (wideChars a))
      rw [hname]
      exact hplain
  takes _ _ hq h := takes_name (some false) hq h

theorem plain_of_isAny {a : AtomName} (h : ops.isAny a = false) : Expr.Plain ops a := by
  simp only [Operators.isAny, Bool.or_eq_false_iff, Option.isSome_eq_false_iff,
    Option.isNone_iff_eq_none] at h
  intro kind
  cases kind with
  | opPrefix => exact h.1.1
  | opInfix => exact h.1.2
  | opPostfix => exact h.2

theorem laid_atom {a : Text} (ha : IsAsciiString a) (p : Place) : ∃ u e,
    Laid g number ops (fun s => ((s.openBrace (p.embraces ops (.text (wideChars a)))).putToken
      (atomText a)).closeBrace (p.embraces ops (.text (wideChars a)))) p (.atom a) u e := by
  cases hany : ops.isAny (.text (wideChars a)) with
  | false =>
    have hno : p.embraces ops (.text (wideChars a)) = false := by
      cases p with
      | term prec => simp [Place.embraces, hany]
      | arg | tail => rfl
    rw [hno]
    exact ⟨_, _, laid_name ha (plain_of_isAny hany)⟩
  | true =>
    cases he : p.embraces ops (.text (wideChars a)) with
    | true => exact ⟨_, _, (laid_lone (p := .term 1200) ha rfl).parentheses p⟩
    | false =>
      refine ⟨_, _, laid_lone ha ?_⟩
      cases p with
      | term prec =>
        simp only [Place.embraces, hany, Bool.and_true, decide_eq_false_iff_not] at he
        exact decide_eq_true (Nat.le_of_not_lt he)
      | arg | tail => rfl

/-- The empty list. -/
theorem laid_nil (hops : ops.Regular) (p : Place) :
    Laid g number ops (fun s => ((s.openBrace (p.embraces ops .nil)).putToken
      ['[', ']']).closeBrace (p.embraces ops .nil)) p .nil ['[', ']']
      (.leaf (.name (wideChars ['[', ']']))) where
  write s _ := by
    have hany : ops.isAny .nil = false := by
      unfold Operators.isAny
      rw [hops.nil, hops.nil, hops.nil]
      rfl
    have hno : p.embraces ops .nil = false := by
      cases p with
      | term prec => simp [Place.embraces, hany]
      | arg | tail => rfl
    rw [hno]
    rfl
  head := ⟨'[', _, rfl, by unfold Begins; decide⟩
  last := ⟨']', rfl, by decide⟩
  ascii := by decide
  term _ := rfl
  pri := Nat.zero_le _
  lone hl := Bool.noConfusion hl
  reads _ _ _ _ _ := .leaf hops.nil
  takes _ _ _ h := takes_nil (some false) fun hopen => (h.head '(' hopen).1 rfl

/-! ## Operators -/

theorem toTerm_compound {f : Text} {ts : List ReadTerm} {us : List Term}
    {vars : List (Option Text)} (h : ReadTerm.toTerms number vars ts = some (us, vars)) :
    (ReadTerm.compound (wideChars f) ts).toTerm number vars = some (.compound f us, vars) := by
  show (Shift.textOf (wideChars f) >>= fun name => ReadTerm.toTerms number vars ts >>= _) = _
  rw [Shift.textOf_wideChars]
  show (ReadTerm.toTerms number vars ts >>= _) = _
  rw [h]
  rfl

theorem toTerms_cons {t : ReadTerm} {ts : List ReadTerm} {u : Term} {us : List Term}
    {vars : List (Option Text)} (h : t.toTerm number vars = some (u, vars))
    (hs : ReadTerm.toTerms number vars ts = some (us, vars)) :
    ReadTerm.toTerms number vars (t :: ts) = some (u :: us, vars) := by
  show (t.toTerm number vars >>= _) = _
  rw [h]
  show (ReadTerm.toTerms number vars ts >>= _) = _
  rw [hs]
  rfl

/-- An operand is no operator. -/
theorem Laid.not_lone {pri : Nat} (h : Laid g number ops W (.term pri) t u e) (hp : pri < 1200) :
    e.isLone = false := by
  cases hl : e.isLone with
  | false => rfl
  | true =>
    have hle : 1200 ≤ pri := of_decide_eq_true (h.lone hl)
    omega

theorem Stops.name {stop : ReadToken → Bool} {prec : Nat} (h : Stops stop prec)
    {token : ReadToken} (hstop : token ≠ .fullstop) (hpunct : ∀ c, token ≠ .punct c) :
    stop token = false := by
  cases hs : stop token with
  | false => rfl
  | true =>
    rcases (h token hs).1 with ht | ⟨c, ht⟩
    · exact absurd ht hstop
    · exact absurd ht (hpunct c)

theorem stops_ofName {stop : ReadToken → Bool} {prec : Nat} (h : Stops stop prec) (q : Bool)
    (a : List Nat) : stop (ReadToken.ofName q a) = false := by
  cases q with
  | false => exact h.name (by simp [ReadToken.ofName]) (by simp [ReadToken.ofName])
  | true => exact h.name (by simp [ReadToken.ofName]) (by simp [ReadToken.ofName])

theorem stops_tokenOf {stop : ReadToken → Bool} {prec : Nat} (h : Stops stop prec)
    (a rest : Text) : stop (tokenOf a rest) = false := by
  rcases tokenOf_cases a rest with ht | ⟨-, ht⟩ | ⟨-, ht⟩
  · rw [ht]
    exact stops_ofName h _ _
  · rw [ht]
    exact h.name (by simp) (by simp)
  · rw [ht]
    exact h.name (by simp) (by simp)

theorem isAsciiString_gap (m : OpMark) (d c : Char) : IsAsciiString (gap m d c) := by
  unfold gap
  split_ifs <;> decide

theorem not_dot_of_current (hops : ops.Regular) {f : Text} {kind : OpKind} {type : OpType}
    {pri : Nat} (hc : ops.current kind (.text (wideChars f)) = some (type, pri))
    (hkind : kind ≠ .opInfix) : f ≠ ['.'] := by
  rintro rfl
  exact hkind (hops.dot kind type pri hc)

/-- Behind a prefix operator stands its operand, perhaps behind a space. -/
theorem takes_prefix {f : Text} {d c : Char} (hd : (atomText f).getLast? = some d) {v : Text}
    {out rest : Text} (hq : Quotable out (atomText f)) (e : Expr)
    (h : ∀ out', Quotable out' (c :: v) → Takes g out' (c :: v) rest e.marked) :
    Takes g out (atomText f ++ (gap (prefixMark f) d c ++ c :: v)) rest
      (Expr.opPrefix (ReadToken.ofName (isQuoted f) (wideChars f)) e).marked := by
  have hgap : Gap d (gap (prefixMark f) d c) c :=
    (gap_prefixMark f d c).imp id fun h => ⟨h.1, h.2.1⟩
  have hhead : ∀ x ∈ (gap (prefixMark f) d c ++ c :: v ++ rest).head?, x ≠ '(' ∧ x ≠ '\x7b' ∧
      (f = ['+'] ∨ f = ['-'] → isDigit x = false) := by
    intro x hx
    rcases gap_prefixMark f d c with hspace | ⟨hno, -, hc⟩
    · rw [hspace] at hx
      cases hx
      exact ⟨by decide, by decide, fun _ => by decide⟩
    · rw [hno] at hx
      cases hx
      exact hc
  have hname : Takes g out (atomText f) (gap (prefixMark f) d c ++ c :: v ++ rest)
      [(none, ReadToken.ofName (isQuoted f) (wideChars f))] := by
    have htoken : tokenOf f (gap (prefixMark f) d c ++ c :: v ++ rest ++ stopText) =
        ReadToken.ofName (isQuoted f) (wideChars f) := by
      refine tokenOf_name fun x hx => ?_
      have hx' : x ∈ (gap (prefixMark f) d c ++ c :: v ++ rest).head? := by
        simpa [List.head?_append] using hx
      exact ⟨(hhead x hx').1, (hhead x hx').2.1⟩
    rw [← htoken]
    refine takes_atom none hq ?_ (.inr fun hsign x hx => (hhead x hx).2.2 hsign)
    rw [List.append_assoc]
    exact apart_gap hd hgap
  have hbehind : ((atomText f).reverse ++ out).head? = some d := by
    rw [List.head?_append, List.head?_reverse, hd]
    rfl
  exact hname.append (.gap hbehind hgap e.marked_ne_nil fun out' _ => h out')

theorem laid_prefix (hops : ops.Regular) {f : Text} (hf : IsAsciiString f) {type : OpType}
    {pri : Nat} (hc : ops.current .opPrefix (.text (wideChars f)) = some (type, pri))
    (h : Laid g number ops W (.term (type.rightPri pri)) t u e) : ∃ u' e', e'.isLone = false ∧
      Laid g number ops (fun s => W ((s.putToken (atomText f)).setMark (prefixMark f))) (.term pri)
        (.compound f [t]) u' e' := by
  obtain ⟨c, v, rfl, -⟩ := h.head
  obtain ⟨d, hd, -, -, hquote⟩ := atomText_last f
  have hne := atomText_ne_nil f
  have hop : Expr.IsOperator ops false .opPrefix (ReadToken.ofName (isQuoted f) (wideChars f))
      (opEntry f .opPrefix type pri) :=
    isOperator_ofName hops hf (not_dot_of_current hops hc (by simp)) hc false
  have hpri : Expr.pri ops (.opPrefix (ReadToken.ofName (isQuoted f) (wideChars f)) e) = pri :=
    ParseState.pri_of_entry hop.entry
  refine ⟨atomText f ++ (gap (prefixMark f) d c ++ c :: v),
    .opPrefix (ReadToken.ofName (isQuoted f) (wideChars f)) e, rfl, ?_⟩
  refine ⟨fun s hs => ?_, ?_, ?_, ?_, fun vars => ?_, Nat.le_of_eq hpri,
    fun hl => Bool.noConfusion hl, fun _ stop limit hstop _ => ?_, fun out rest hq hfol => ?_⟩
  · rw [h.write _ (by rw [WriteState.setMark, s.putToken_last hd]; simpa using hquote)]
    exact s.putToken_putToken hd _ c v
  · obtain ⟨c', v', hc', hbegin⟩ := atomText_begins f
    exact ⟨c', _, by rw [hc']; rfl, hbegin⟩
  · obtain ⟨d', hd', hends⟩ := h.last
    refine ⟨d', ?_, hends⟩
    rw [List.getLast?_append_of_ne_nil _ (by simp), List.getLast?_append_of_ne_nil _ (by simp)]
    exact hd'
  · exact isAsciiString_append (isAsciiString_atomText hf)
      (isAsciiString_append (isAsciiString_gap _ _ _) h.ascii)
  · show (ReadTerm.compound (nameToken' _).atom.functor [e.term]).toTerm number vars = _
    rw [nameToken'_ofName]
    exact toTerm_compound (toTerms_cons (h.term vars) rfl)
  · have hoperand := h.not_lone (hops.operand _ _ _ _ hc).2
    exact .opPrefix hop (stops_ofName hstop _ _) (h.reads hoperand stop _
      (hstop.mono (type.rightPri_le pri)) (hops.sits hc)) h.pri
  · exact takes_prefix hd (quotable_append hq hne) e fun out' hq' =>
      h.takes out' rest hq' ((hfol.of_append (by simp)).of_append (by simp))

/-! ## Infix operators -/

section

variable {f : Text} {type : OpType} {pri : Nat} {Wl Wr : WriteState → WriteState} {l r : Term}
  {ul ur mid : Text} {el er : Expr} {token : ReadToken}

/-- Two operands with the text `mid` between them, which is read as the operator. -/
theorem laid_infix_of (hops : ops.Regular)
    (hc : ops.current .opInfix (.text (wideChars f)) = some (type, pri))
    (hl : Laid g number ops Wl (.term (type.leftPri pri)) l ul el)
    (hr : Laid g number ops Wr (.term (type.rightPri pri)) r ur er)
    (hwrite : ∀ s : WriteState, s.out.getLast? ≠ some '"' →
      W s = s.putToken (ul ++ (mid ++ ur)))
    (hop : Expr.IsOperator ops true .opInfix token (opEntry f .opInfix type pri))
    (hatom : nameToken' token = { atom := .text (wideChars f) })
    (hstop : ∀ stop, Stops stop pri → stop token = false) (hmid : IsAsciiString mid)
    (hfollows : ∀ rest, Follows ul (mid ++ ur ++ rest))
    (htakes : ∀ out rest, out.head? = ul.getLast? → Follows ur rest →
      Takes g out (mid ++ ur) rest ((some true, token) :: er.marked)) :
    Laid g number ops W (.term pri) (.compound f [l, r]) (ul ++ (mid ++ ur))
      (.opInfix el token er) := by
  obtain ⟨c, v, rfl, hbegin⟩ := hl.head
  obtain ⟨c', v', rfl, -⟩ := hr.head
  have hpri : Expr.pri ops (.opInfix el token er) = pri := ParseState.pri_of_entry hop.entry
  refine ⟨hwrite, ⟨c, _, rfl, hbegin⟩, ?_, ?_, fun vars => ?_, Nat.le_of_eq hpri,
    fun hl => Bool.noConfusion hl, fun _ stop limit hs hsits => ?_, fun out rest hq hfol => ?_⟩
  · obtain ⟨d', hd', hends⟩ := hr.last
    refine ⟨d', ?_, hends⟩
    rw [List.getLast?_append_of_ne_nil _ (by simp), List.getLast?_append_of_ne_nil _ (by simp)]
    exact hd'
  · exact isAsciiString_append hl.ascii (isAsciiString_append hmid hr.ascii)
  · show (ReadTerm.compound (nameToken' token).atom.functor [el.term, er.term]).toTerm number
      vars = _
    rw [hatom]
    exact toTerm_compound (toTerms_cons (hl.term vars) (toTerms_cons (hr.term vars) rfl))
  · obtain ⟨hleft, hright⟩ := hops.operand _ _ _ _ hc
    exact .opInfix hop (hstop stop hs) (hsits _ _ _ _ hc (Nat.le_refl _))
      (hl.reads (hl.not_lone hleft) stop limit (hs.mono (type.leftPri_le pri))
        (hsits.left hc (Nat.le_refl _))) hl.pri
      (hr.reads (hr.not_lone hright) stop _ (hs.mono (type.rightPri_le pri)) (hops.sits hc)) hr.pri
  · have hleft := hl.takes out (mid ++ c' :: v' ++ rest) (quotable_append hq (by simp))
      (hfollows rest)
    refine hleft.append (htakes _ rest ?_ ((hfol.of_append (by simp)).of_append (by simp)))
    rw [List.head?_append, List.head?_reverse]
    obtain ⟨d, hd, -⟩ := hl.last
    rw [hd]
    rfl

/-- The comma and the bar. -/
theorem laid_comma (hops : ops.Regular) {x : Char} (hx : x = ',' ∨ x = '|')
    (hc : ops.current .opInfix (.text (wideChars [x])) = some (type, pri))
    (hl : Laid g number ops Wl (.term (type.leftPri pri)) l ul el)
    (hr : Laid g number ops Wr (.term (type.rightPri pri)) r ur er) : ∃ u' e', e'.isLone = false ∧
      Laid g number ops (fun s => Wr (writeInfix (Wl s) [x])) (.term pri) (.compound [x] [l, r])
        u' e' := by
  have hlow : 999 < pri := by
    refine hops.comma [x] type pri ?_ hc
    rcases hx with rfl | rfl
    · exact .inl rfl
    · exact .inr rfl
  have hpu : charType x = .pu := by
    rcases hx with rfl | rfl <;> decide
  have hcomma : ∀ s, writeInfix s [x] = (s.putString [x]).setMark .infixOp := by
    intro s
    rcases hx with rfl | rfl <;> rfl
  obtain ⟨c, v, rfl, hbegin⟩ := hr.head
  refine ⟨ul ++ ([x] ++ c :: v), .opInfix el (.punct x) er, rfl,
    laid_infix_of hops hc hl hr (fun s hs => ?_) (isOperator_punct hx hc) ?_ (fun stop hs => ?_) ?_
    (fun rest => ?_) fun out rest hout hfol => ?_⟩
  · show Wr (writeInfix (Wl s) [x]) = _
    obtain ⟨d, hd, -⟩ := hl.last
    have hne : ul ≠ [] := by
      rintro rfl
      cases hd
    have hlast : (ul ++ [x]).getLast? = some x := List.getLast?_concat
    rw [hl.write s hs, hcomma, s.putToken_putString hne, hr.write]
    · rw [s.putToken_putToken hlast, gap_punct hpu (.inr rfl), List.append_assoc]
      rfl
    · rw [WriteState.setMark, s.putToken_last hlast]
      rcases hx with rfl | rfl <;> decide
  · rcases hx with rfl | rfl <;> rfl
  · have hno := fun token ht => (hs token ht).2 hlow
    rcases hx with rfl | rfl
    · exact eq_false_of_ne_true fun ht => (hno _ ht).1 rfl
    · exact eq_false_of_ne_true fun ht => (hno _ ht).2 rfl
  · rcases hx with rfl | rfl <;> decide
  · rcases hx with rfl | rfl
    · exact follows_close _ _ (.inr (.inl rfl))
    · exact follows_close _ _ (.inr (.inr (.inr (.inr rfl))))
  · have hright := hr.takes (x :: out) rest (quotable_punct hpu _ _) hfol
    have hmid : Takes g out [x] (c :: v ++ rest) [(some true, .punct x)] := by
      rcases hx with rfl | rfl
      · exact takes_punct _ (.inr (.inr (.inl rfl)))
      · refine takes_bar _ ?_ ?_
        · obtain ⟨d, hd, -, hbar⟩ := hl.last
          rw [hout, hd]
          simpa using hbar
        · obtain ⟨-, -, -, -, hbar, -⟩ := hbegin
          simpa using hbar
    exact hmid.append hright

/-- The name of an operator between two gaps. -/
theorem takes_between {out rest gap₁ gap₂ v : Text} {d d' c : Char} {toks : List Mark}
    (hf : f ≠ ['\x7b', '\x7d']) (hd : out.head? = some d)
    (hgap₁ : ∀ c' v', atomText f = c' :: v' → Gap d gap₁ c')
    (hd' : (atomText f).getLast? = some d') (hgap₂ : Gap d' gap₂ c) (hne : toks ≠ [])
    (h : ∀ out', Quotable out' (c :: v) → Takes g out' (c :: v) rest toks) :
    Takes g out (gap₁ ++ (atomText f ++ (gap₂ ++ c :: v))) rest
      ((some true, tokenOf f (gap₂ ++ c :: v)) :: toks) := by
  obtain ⟨c', v', htext, -⟩ := atomText_head hf
  have hbehind : ∀ out', Quotable out' (atomText f) →
      Takes g out' (atomText f ++ (gap₂ ++ c :: v)) rest
        ((some true, tokenOf f (gap₂ ++ c :: v)) :: toks) := by
    intro out' hq
    have htoken : tokenOf f (gap₂ ++ c :: v) = tokenOf f (gap₂ ++ c :: v ++ rest ++ stopText) :=
      tokenOf_congr f (by simp [List.head?_append])
    have hname : Takes g out' (atomText f) (gap₂ ++ c :: v ++ rest)
        [(some true, tokenOf f (gap₂ ++ c :: v))] := by
      rw [htoken]
      refine takes_atom (some true) hq ?_ (.inl rfl)
      rw [List.append_assoc]
      exact apart_gap hd' hgap₂
    have hlast : ((atomText f).reverse ++ out').head? = some d' := by
      rw [List.head?_append, List.head?_reverse, hd']
      rfl
    exact hname.append (.gap hlast hgap₂ hne fun out'' _ => h out'')
  rw [htext] at hbehind ⊢
  exact .gap hd (hgap₁ c' v' htext) (List.cons_ne_nil _ _) fun out' _ => hbehind out'

/-- An operator with a name, perhaps with spaces around it. -/
theorem laid_named (hops : ops.Regular) (hf : IsAsciiString f) (hdot : f ≠ ['.'])
    (hcomma : f ≠ [','] ∧ f ≠ ['|'])
    (hc : ops.current .opInfix (.text (wideChars f)) = some (type, pri))
    (hl : Laid g number ops Wl (.term (type.leftPri pri)) l ul el)
    (hr : Laid g number ops Wr (.term (type.rightPri pri)) r ur er) : ∃ u' e', e'.isLone = false ∧
      Laid g number ops (fun s => Wr (writeInfix (Wl s) f)) (.term pri) (.compound f [l, r])
        u' e' := by
  have hcurl : f ≠ ['\x7b', '\x7d'] := by
    rintro rfl
    rw [show (wideChars ['\x7b', '\x7d']) = curl from rfl, hops.curl] at hc
    cases hc
  obtain ⟨c, v, rfl, hbegin⟩ := hr.head
  obtain ⟨d, hd, -⟩ := hl.last
  obtain ⟨d', hd', -, -, hquote⟩ := atomText_last f
  obtain ⟨c', v', htext, hc', hdigit⟩ := atomText_head hcurl
  have hne : ul ≠ [] := by
    rintro rfl
    cases hd
  have hlast : (ul ++ (gap .no d c' ++ atomText f)).getLast? = some d' := by
    rw [← List.append_assoc, List.getLast?_append_of_ne_nil _ (atomText_ne_nil f), hd']
  have hname (s : WriteState) (hs : s.out.getLast? ≠ some '"') :
      (Wl s).putToken (atomText f) = s.putToken (ul ++ (gap .no d c' ++ atomText f)) := by
    have hmark : (s.putToken ul).setMark .no = s.putToken ul := by
      show { s.putToken ul with mark := OpMark.no } = _
      rw [← s.putToken_mark hne]
    rw [hl.write s hs, htext, ← hmark]
    exact s.putToken_putToken hd .no c' v'
  have hspace (s : WriteState) (hs : s.out.getLast? ≠ some '"') :
      (atomText f).head?.any (Wl s).needSpace = ({ out := [d] } : WriteState).needSpace c' := by
    rw [htext, hl.write s hs]
    show (s.putToken ul).needSpace c' = _
    rw [WriteState.needSpace_last (s.putToken_last hd), s.putToken_mark hne]
  -- the space behind the name: there is one if there is one in front, or else if it is needed
  obtain ⟨gap₂, hgap₂, hascii₂, hwrite⟩ : ∃ gap₂, Gap d' gap₂ c ∧ IsAsciiString gap₂ ∧
      ∀ s : WriteState, s.out.getLast? ≠ some '"' → Wr (writeInfix (Wl s) f) =
        s.putToken (ul ++ ((gap .no d c' ++ (atomText f ++ gap₂)) ++ c :: v)) := by
    cases hb : ({ out := [d] } : WriteState).needSpace c' with
    | true =>
      refine ⟨[' '], .inl rfl, by decide, fun s hs => ?_⟩
      have hend : (ul ++ (gap .no d c' ++ atomText f) ++ [' ']).getLast? = some ' ' :=
        List.getLast?_concat
      unfold writeInfix
      rw [if_neg (by simp [hcomma]), if_neg hdot, hspace s hs, hb, if_pos rfl, hname s hs]
      show Wr (((s.putToken _).putString [' ']).setMark .infixOp) = _
      rw [s.putToken_putString (by simp [hne]), hr.write]
      · rw [s.putToken_putToken hend, gap_space]
        simp
      · rw [WriteState.setMark, s.putToken_last hend]
        decide
    | false =>
      refine ⟨gap .infixOp d' c, gap_gap (.inr rfl) d' c, isAsciiString_gap _ _ _,
        fun s hs => ?_⟩
      unfold writeInfix
      rw [if_neg (by simp [hcomma]), if_neg hdot, hspace s hs, hb, if_neg (by simp), hname s hs,
        hr.write]
      · rw [s.putToken_putToken hlast]
        simp
      · rw [WriteState.setMark, s.putToken_last hlast]
        simpa using hquote
  refine ⟨ul ++ ((gap .no d c' ++ (atomText f ++ gap₂)) ++ c :: v),
    .opInfix el (tokenOf f (gap₂ ++ c :: v)) er, rfl,
    laid_infix_of hops hc hl hr hwrite (isOperator_tokenOf hops hf hdot hc _)
      (nameToken'_tokenOf f _) (fun stop hs => stops_tokenOf hs f _) ?_ (fun rest => ?_)
      fun out rest hout hfol => ?_⟩
  · exact isAsciiString_append (isAsciiString_gap _ _ _)
      (isAsciiString_append (isAsciiString_atomText hf) hascii₂)
  · rw [htext]
    simp only [List.append_assoc, List.cons_append]
    refine follows_gap hd hc' fun hdot' x hx => ?_
    obtain ⟨y, hy, hydigit⟩ := hdigit hdot'
    rw [List.head?_append, hy] at hx
    cases hx
    exact hydigit
  · rw [hd] at hout
    simp only [List.append_assoc]
    refine takes_between hcurl hout (fun c'' v'' htext' => ?_) hd' hgap₂ er.marked_ne_nil
      fun out' hq => hr.takes out' rest hq hfol
    rw [htext] at htext'
    cases htext'
    exact gap_gap (.inl rfl) d c'

theorem laid_infix (hops : ops.Regular) (hf : IsAsciiString f) (hdot : f ≠ ['.'])
    (hc : ops.current .opInfix (.text (wideChars f)) = some (type, pri))
    (hl : Laid g number ops Wl (.term (type.leftPri pri)) l ul el)
    (hr : Laid g number ops Wr (.term (type.rightPri pri)) r ur er) : ∃ u' e', e'.isLone = false ∧
      Laid g number ops (fun s => Wr (writeInfix (Wl s) f)) (.term pri) (.compound f [l, r])
        u' e' := by
  by_cases hcomma : f = [',']
  · subst hcomma
    exact laid_comma hops (.inl rfl) hc hl hr
  · by_cases hbar : f = ['|']
    · subst hbar
      exact laid_comma hops (.inr rfl) hc hl hr
    · exact laid_named hops hf hdot ⟨hcomma, hbar⟩ hc hl hr

theorem laid_postfix (hops : ops.Regular) (hf : IsAsciiString f)
    (hc : ops.current .opPostfix (.text (wideChars f)) = some (type, pri))
    (hl : Laid g number ops Wl (.term (type.leftPri pri)) l ul el) : ∃ u' e', e'.isLone = false ∧
      Laid g number ops (fun s => (Wl s).putToken (atomText f)) (.term pri) (.compound f [l])
        u' e' := by
  have hcurl : f ≠ ['\x7b', '\x7d'] := by
    rintro rfl
    rw [show (wideChars ['\x7b', '\x7d']) = curl from rfl, hops.curl] at hc
    cases hc
  obtain ⟨c, v, rfl, hbegin⟩ := hl.head
  obtain ⟨d, hd, -⟩ := hl.last
  obtain ⟨c', v', htext, hc', hdigit⟩ := atomText_head hcurl
  have hop := isOperator_ofName hops hf (not_dot_of_current hops hc (by simp)) hc true
  have hpri : Expr.pri ops (.opPostfix el (ReadToken.ofName (isQuoted f) (wideChars f))) = pri :=
    ParseState.pri_of_entry hop.entry
  have hnone : Expr.entry ops (ReadToken.ofName (isQuoted f) (wideChars f)) .opInfix = none := by
    unfold Expr.entry isOp
    rw [nameToken'_ofName, hops.kinds _ _ _ hc]
    rfl
  refine ⟨c :: v ++ (gap .no d c' ++ atomText f),
    .opPostfix el (ReadToken.ofName (isQuoted f) (wideChars f)), rfl, fun s hs => ?_,
    ⟨c, _, rfl, hbegin⟩, ?_, ?_, fun vars => ?_, Nat.le_of_eq hpri, fun hl => Bool.noConfusion hl,
    fun _ stop limit hs hsits => ?_, fun out rest hq hfol => ?_⟩
  · have hmark : (s.putToken (c :: v)).setMark .no = s.putToken (c :: v) := rfl
    rw [hl.write s hs, htext, ← hmark]
    exact s.putToken_putToken hd .no c' v'
  · obtain ⟨d', hd', hblank, hbar, -⟩ := atomText_last f
    refine ⟨d', ?_, hblank, hbar⟩
    rw [List.getLast?_append_of_ne_nil _ (by simp [atomText_ne_nil]),
      List.getLast?_append_of_ne_nil _ (atomText_ne_nil f), hd']
  · exact isAsciiString_append hl.ascii
      (isAsciiString_append (isAsciiString_gap _ _ _) (isAsciiString_atomText hf))
  · show (ReadTerm.compound (nameToken' _).atom.functor [el.term]).toTerm number vars = _
    rw [nameToken'_ofName]
    exact toTerm_compound (toTerms_cons (hl.term vars) rfl)
  · exact .opPostfix hop hnone (stops_ofName hs _ _) (hsits _ _ _ _ hc (Nat.le_refl _))
      (hl.reads (hl.not_lone (hops.operand _ _ _ _ hc).1) stop limit
        (hs.mono (type.leftPri_le pri)) (hsits.left hc (Nat.le_refl _))) hl.pri
  · have hfollows : Follows (c :: v) (gap .no d c' ++ atomText f ++ rest) := by
      rw [htext, List.append_assoc, List.cons_append]
      refine follows_gap hd hc' fun hdot' x hx => ?_
      obtain ⟨y, hy, hydigit⟩ := hdigit hdot'
      rw [List.head?_append, hy] at hx
      cases hx
      exact hydigit
    have hlast : ((c :: v).reverse ++ out).head? = some d := by
      rw [List.head?_append, List.head?_reverse, hd]
      rfl
    have hname : ∀ out', Quotable out' (atomText f) → Takes g out' (atomText f) rest
        [(some true, ReadToken.ofName (isQuoted f) (wideChars f))] := fun out' hq' =>
      takes_name (some true) hq' ((hfol.of_append (by simp [atomText_ne_nil])).of_append
        (atomText_ne_nil f))
    refine (hl.takes out _ (quotable_append hq (by simp)) hfollows).append ?_
    rw [htext] at hname ⊢
    exact .gap hlast (gap_gap (.inl rfl) d c') (List.cons_ne_nil _ _) fun out' _ => hname out'

end

/-! ## Brackets -/

/-- The argument of the curly brackets. -/
theorem laid_brace (hops : ops.Regular) (h : Laid g number ops W (.term 1200) t u e) (p : Place) :
    Laid g number ops (fun s => (W (s.putToken ['\x7b'])).putc '\x7d') p
      (.compound ['\x7b', '\x7d'] [t]) ('\x7b' :: (u ++ ['\x7d'])) (.brace e) where
  write s _ := h.write_enclosed (by decide) '\x7d' s
  head := ⟨'\x7b', _, rfl, by unfold Begins; decide⟩
  last := ⟨'\x7d', by rw [← List.cons_append, List.getLast?_concat], by decide⟩
  ascii := isAsciiString_cons (by decide) (isAsciiString_append h.ascii (by decide))
  term vars := toTerm_compound (toTerms_cons (h.term vars) rfl)
  pri := Nat.zero_le _
  lone hl := Bool.noConfusion hl
  reads _ stop limit _ _ :=
    .brace hops.curl fun hl => h.reads hl _ _ (stops_brace 1200) (sits_maxPri 1200)
  takes out rest _ _ := by
    obtain ⟨c, v, rfl, hbegin⟩ := h.head
    exact takes_enclosed (takes_open (.inr rfl) hbegin)
      (h.takes _ _ (quotable_punct (by decide) _ _)
        (follows_close _ _ (.inr (.inr (.inr (.inl rfl))))))
      (.inr (.inr (.inr (.inr rfl))))

end

end Rolog
