/-
  What is written reads back: the text of a writable term reads as this term, with every table of
  regular operators (`readTerm_writeTerm`). An answer that R gets as a text is the same term again
  when its text is the argument of a query (`text_returns`).
-/
import Rolog.CompText
import Rolog.Layout
import Rolog.OperationSpec
import Rolog.ParseSound

namespace Rolog

open WriteState (gap gap_punct)

variable {g : Grammar} {number : Text → Option Term} {ops : Operators}

/-! ## Arguments -/

/-- What is written behind an argument: more arguments, each behind a comma. -/
structure LaidRest (g : Grammar) (number : Text → Option Term) (ops : Operators)
    (V : WriteState → WriteState) (ts : List Term) (u : Text) (es : List Expr) : Prop where
  write : ∀ s : WriteState, s.mark = .no → V s = s.putString u
  head : ∀ c ∈ u.head?, c = ','
  ascii : IsAsciiString u
  terms : ∀ vars, ReadTerm.toTerms number vars (Expr.terms es) = some (ts, vars)
  reads : ∀ e ∈ es, e.isLone = false → e.Reads ops (Caller.compound [] []).stops maxPri
  takes : ∀ out rest, out ≠ [] → Takes g out u (')' :: rest) (Expr.commasMarked es)

theorem stops_elements {stop : ReadToken → Bool} (h : ∀ token, stop token = true →
    ∃ c, token = .punct c) : Stops stop 999 := by
  intro token ht
  exact ⟨.inr (h token ht), fun hlt => absurd hlt (by decide)⟩

theorem stops_compound : Stops (Caller.compound [] []).stops 999 := by
  refine stops_elements fun token ht => ?_
  cases token with
  | punct c => exact ⟨c, rfl⟩
  | _ => cases ht

theorem laidRest_nil : LaidRest g number ops id [] [] [] where
  write s hs := by
    obtain ⟨out, mark⟩ := s
    cases hs
    show _ = ({ out := out ++ [] } : WriteState)
    rw [List.append_nil]
    rfl
  head c hc := by cases hc
  ascii c hc := by cases hc
  terms _ := rfl
  reads e he := by cases he
  takes _ _ hout := .nil hout _

/-- A term behind a comma or a bar. -/
theorem Laid.write_behind {W : WriteState → WriteState} {p : Place} {t : Term} {u : Text}
    {e : Expr} (h : Laid g number ops W p t u e) {x : Char} (hx : charType x = .pu)
    (s : WriteState) : W (s.putc x) = s.putString (x :: u) := by
  obtain ⟨c, v, rfl, -⟩ := h.head
  have hlast : (s.putc x).out.getLast? = some x := List.getLast?_concat
  rw [h.write]
  · rw [WriteState.putToken_behind hlast]
    show (s.putc x).putString (gap .no x c ++ c :: v) = _
    rw [gap_punct hx (.inl rfl)]
    show ({ out := (s.out ++ [x]) ++ c :: v } : WriteState) = { out := s.out ++ x :: c :: v }
    rw [List.append_assoc]
    rfl
  · rw [hlast]
    rintro he
    cases he
    cases hx

/-- What stands behind an argument. -/
theorem follows_rest {u v rest : Text} (hv : ∀ c ∈ v.head?, c = ',' ∨ c = '|') {x : Char}
    (hx : x = ')' ∨ x = ']') : Follows u (v ++ x :: rest) := by
  cases v with
  | nil =>
    refine follows_close _ _ ?_
    rcases hx with rfl | rfl
    · exact .inl rfl
    · exact .inr (.inr (.inl rfl))
  | cons c v =>
    refine follows_close _ _ ?_
    rcases hv c rfl with rfl | rfl
    · exact .inr (.inl rfl)
    · exact .inr (.inr (.inr (.inr rfl)))

theorem laidRest_cons {W V : WriteState → WriteState} {t : Term} {ts : List Term} {u v : Text}
    {e : Expr} {es : List Expr} (h : Laid g number ops W .arg t u e)
    (hs : LaidRest g number ops V ts v es) :
    LaidRest g number ops (fun s => V (W (s.putc ','))) (t :: ts) (',' :: (u ++ v)) (e :: es) where
  write s _ := by
    rw [h.write_behind (by decide), hs.write _ rfl, s.putString_putString]
    rfl
  head c hc := by
    cases hc
    rfl
  ascii := isAsciiString_cons (by decide) (isAsciiString_append h.ascii hs.ascii)
  terms vars := toTerms_cons (h.term vars) (hs.terms vars)
  reads e' he hl := by
    rcases List.mem_cons.mp he with rfl | he
    · exact h.reads hl _ _ stops_compound (sits_maxPri 999)
    · exact hs.reads e' he hl
  takes out rest hout := by
    have hcomma : Takes g out [','] (u ++ v ++ ')' :: rest) [(none, .punct ',')] :=
      takes_punct none (.inr (.inr (.inl rfl)))
    have hfirst : Takes g (',' :: out) u (v ++ ')' :: rest) e.marked :=
      h.takes _ _ (quotable_punct (by decide) _ _)
        (follows_rest (fun c hc => .inl (hs.head c hc)) (.inl rfl))
    have hrest := hs.takes (u.reverse ++ (',' :: out)) rest (by simp)
    exact hcomma.append (hfirst.append hrest)

theorem breaks_open (d : Char) : Breaks d '(' := .inr rfl

/-- The name of a compound. -/
theorem takes_functor {f out rest : Text} (hq : Quotable out (atomText f)) :
    Takes g out (atomText f ++ ['(']) rest
      [(none, .functor (wideChars f)), (none, .punct '(')] := by
  have hname : Takes g out (atomText f) (['('] ++ rest) [(none, .functor (wideChars f))] := by
    rw [← tokenOf_functor f (rest ++ stopText)]
    refine takes_atom none hq (fun d _ c hc => ?_) (.inr fun _ c hc => ?_)
    · cases hc
      exact breaks_open d
    · cases hc
      decide
  exact hname.append (takes_punct none (.inl rfl))

/-- A compound without arguments. -/
theorem laid_thunk {f : Text} (hf : IsAsciiString f) (p : Place) :
    Laid g number ops (fun s => ((s.putToken (atomText f)).putc '(').putc ')') p
      (.compound f []) (atomText f ++ ['('] ++ [')']) (.compound (wideChars f) []) where
  write s _ := by
    show ((s.putToken (atomText f)).putString ['(']).putString [')'] = _
    rw [s.putToken_putString (atomText_ne_nil f), s.putToken_putString (by simp)]
  head := by
    obtain ⟨c, v, hc, hbegin⟩ := atomText_begins f
    exact ⟨c, _, by rw [hc]; rfl, hbegin⟩
  last := ⟨')', List.getLast?_concat, by decide⟩
  ascii := isAsciiString_append (isAsciiString_append (isAsciiString_atomText hf) (by decide))
    (by decide)
  term _ := toTerm_compound rfl
  pri := Nat.zero_le _
  lone hl := Bool.noConfusion hl
  reads _ _ _ _ _ := .compound fun e he => by cases he
  takes out rest hq _ := by
    have hq' := quotable_append (quotable_append hq (by simp)) (atomText_ne_nil f)
    exact (takes_functor hq').append (takes_punct none (.inr (.inl rfl)))

/-- A compound in canonical notation. -/
theorem laid_compound {f : Text} (hf : IsAsciiString f) {W V : WriteState → WriteState} {t : Term}
    {ts : List Term} {u v : Text} {e : Expr} {es : List Expr}
    (h : Laid g number ops W .arg t u e) (hs : LaidRest g number ops V ts v es) (p : Place) :
    Laid g number ops (fun s => (V (W ((s.putToken (atomText f)).putc '('))).putc ')') p
      (.compound f (t :: ts)) (atomText f ++ ['('] ++ (u ++ (v ++ [')'])))
      (.compound (wideChars f) (e :: es)) where
  write s _ := by
    rw [h.write_behind (by decide), hs.write _ rfl]
    show (((s.putToken (atomText f)).putString ('(' :: u)).putString v).putString [')'] = _
    rw [s.putToken_putString (atomText_ne_nil f), s.putToken_putString (by simp),
      s.putToken_putString (by simp)]
    simp
  head := by
    obtain ⟨c, v, hc, hbegin⟩ := atomText_begins f
    exact ⟨c, _, by rw [hc]; rfl, hbegin⟩
  last := ⟨')', by rw [← List.append_assoc, ← List.append_assoc, List.getLast?_concat], by decide⟩
  ascii := isAsciiString_append (isAsciiString_append (isAsciiString_atomText hf) (by decide))
    (isAsciiString_append h.ascii (isAsciiString_append hs.ascii (by decide)))
  term vars := toTerm_compound (toTerms_cons (h.term vars) (hs.terms vars))
  pri := Nat.zero_le _
  lone hl := Bool.noConfusion hl
  reads _ stop limit _ _ := by
    refine .compound fun e' he hl => ?_
    rcases List.mem_cons.mp he with rfl | he
    · exact h.reads hl _ _ stops_compound (sits_maxPri 999)
    · exact hs.reads e' he hl
  takes out rest hq _ := by
    have hq' := quotable_append (quotable_append hq (by simp)) (atomText_ne_nil f)
    have hopen : (atomText f ++ ['(']).reverse ++ out = '(' :: ((atomText f).reverse ++ out) := by
      simp
    have hfirst : Takes g ('(' :: ((atomText f).reverse ++ out)) u (v ++ ')' :: rest) e.marked :=
      h.takes _ _ (quotable_punct (by decide) _ _)
        (follows_rest (fun c hc => .inl (hs.head c hc)) (.inl rfl))
    have hrest := hs.takes (u.reverse ++ '(' :: ((atomText f).reverse ++ out)) rest (by simp)
    have hclose : Takes g (v.reverse ++ (u.reverse ++ '(' :: ((atomText f).reverse ++ out))) [')']
        rest [(none, .punct ')')] := takes_punct none (.inr (.inl rfl))
    have hargs := Takes.append (by simpa using hfirst) (hrest.append hclose)
    rw [← hopen] at hargs
    have hall := (takes_functor (g := g) hq').append hargs
    simpa [Expr.marked, Expr.separatedMarked] using hall

/-! ## Lists -/

/-- The tail of a list as an expression: its elements, and what is behind the bar. -/
def tailMarked (es : List Expr) (tail : Option Expr) : List Mark :=
  Expr.commasMarked es ++
    match tail with
    | none => []
    | some e => (none, .punct '|') :: e.marked

def tailTerm (es : List Expr) (tail : Option Expr) : ReadTerm :=
  readList ((tail.map Expr.term).getD .nil) (Expr.terms es)

/-- What is written behind an element of a list. -/
structure LaidTail (g : Grammar) (number : Text → Option Term) (ops : Operators)
    (V : WriteState → WriteState) (t : Term) (u : Text) (es : List Expr) (tail : Option Expr) :
    Prop where
  write : ∀ s : WriteState, s.mark = .no → V s = s.putString u
  head : ∀ c ∈ u.head?, c = ',' ∨ c = '|'
  ascii : IsAsciiString u
  term : ∀ vars, (tailTerm es tail).toTerm number vars = some (t, vars)
  reads : ∀ e ∈ es, e.isLone = false → e.Reads ops (Caller.list []).stops maxPri
  reads_tail : ∀ e ∈ tail, e.isLone = false → e.Reads ops (Caller.listTail []).stops maxPri
  takes : ∀ out rest, (∃ d, out.head? = some d ∧ d ≠ '|') →
    Takes g out u (']' :: rest) (tailMarked es tail)

theorem stops_list : Stops (Caller.list []).stops 999 := by
  refine stops_elements fun token ht => ?_
  cases token with
  | punct c => exact ⟨c, rfl⟩
  | _ => cases ht

theorem stops_listTail : Stops (Caller.listTail []).stops 999 := by
  refine stops_elements fun token ht => ?_
  cases token with
  | punct c => exact ⟨c, rfl⟩
  | _ => cases ht

theorem laidTail_nil : LaidTail g number ops id .nil [] [] none where
  write := (@laidRest_nil g number ops).write
  head c hc := by cases hc
  ascii c hc := by cases hc
  term _ := rfl
  reads e he := by cases he
  reads_tail e he := by cases he
  takes out rest hout := by
    obtain ⟨d, hd, -⟩ := hout
    refine .nil ?_ _
    rintro rfl
    cases hd

/-- A tail behind a bar. -/
theorem laidTail_bar {W : WriteState → WriteState} {t : Term} {u : Text} {e : Expr}
    (h : Laid g number ops W .arg t u e) :
    LaidTail g number ops (fun s => W (s.putc '|')) t ('|' :: u) [] (some e) where
  write s _ := h.write_behind (by decide) s
  head c hc := by
    cases hc
    exact .inr rfl
  ascii := isAsciiString_cons (by decide) h.ascii
  term := h.term
  reads e he := by cases he
  reads_tail e' he hl := by
    cases he
    exact h.reads hl _ _ stops_listTail (sits_maxPri 999)
  takes out rest hout := by
    obtain ⟨d, hd, hbar⟩ := hout
    have hinner : Takes g ('|' :: out) u (']' :: rest) e.marked :=
      h.takes _ _ (quotable_punct (by decide) _ _) (follows_close _ _ (.inr (.inr (.inl rfl))))
    have hopen : Takes g out ['|'] (u ++ ']' :: rest) [(none, .punct '|')] := by
      refine takes_bar none ?_ ?_
      · rw [hd]
        simpa using hbar
      · obtain ⟨c, v, rfl, -, -, -, -, hc, -⟩ := h.head
        simpa using hc
    exact hopen.append hinner

theorem toTerm_cell {h t : ReadTerm} {a b : Term} {vars : List (Option Text)}
    (hh : h.toTerm number vars = some (a, vars)) (ht : t.toTerm number vars = some (b, vars)) :
    (ReadTerm.compound (wideChars dot) [h, t]).toTerm number vars = some (.cons a b, vars) :=
  toTerm_compound (toTerms_cons hh (toTerms_cons ht rfl))

/-- One more element. -/
theorem laidTail_cons {W V : WriteState → WriteState} {t t' : Term} {u v : Text} {e : Expr}
    {es : List Expr} {tail : Option Expr} (h : Laid g number ops W .arg t u e)
    (hs : LaidTail g number ops V t' v es tail) :
    LaidTail g number ops (fun s => V (W (s.putc ','))) (.cons t t') (',' :: (u ++ v)) (e :: es)
      tail where
  write s _ := by
    rw [h.write_behind (by decide), hs.write _ rfl, s.putString_putString]
    rfl
  head c hc := by
    cases hc
    exact .inl rfl
  ascii := isAsciiString_cons (by decide) (isAsciiString_append h.ascii hs.ascii)
  term vars := toTerm_cell (h.term vars) (hs.term vars)
  reads e' he hl := by
    rcases List.mem_cons.mp he with rfl | he
    · exact h.reads hl _ _ stops_list (sits_maxPri 999)
    · exact hs.reads e' he hl
  reads_tail := hs.reads_tail
  takes out rest _ := by
    have hcomma : Takes g out [','] (u ++ v ++ ']' :: rest) [(none, .punct ',')] :=
      takes_punct none (.inr (.inr (.inl rfl)))
    have hfirst : Takes g (',' :: out) u (v ++ ']' :: rest) e.marked :=
      h.takes _ _ (quotable_punct (by decide) _ _) (follows_rest hs.head (.inr rfl))
    have hlast : ∃ d, (u.reverse ++ ',' :: out).head? = some d ∧ d ≠ '|' := by
      obtain ⟨d, hd, -, hbar⟩ := h.last
      refine ⟨d, ?_, hbar⟩
      rw [List.head?_append, List.head?_reverse, hd]
      rfl
    have hall := hcomma.append (hfirst.append (hs.takes _ rest hlast))
    simpa [tailMarked, Expr.commasMarked] using hall

/-- The list of these elements, with what is behind the bar. -/
def listExpr (es : List Expr) : Option Expr → Expr
  | none => .list es
  | some e => .listTail es e

theorem putToken_openList (s : WriteState) (u : Text) :
    s.putToken ('[' :: u) = s.putString ('[' :: u) := by
  have hpure : isAlpha '[' = false ∧ isSymbol '[' = false ∧ isDigit '[' = false ∧
      isquote '[' = false := by decide
  have happart : needSpace '[' s.out.getLast? = false := by
    cases s.out.getLast? with
    | none => rfl
    | some d =>
      unfold needSpace
      simp [hpure]
  have hno : s.needSpace '[' = false := by
    unfold WriteState.needSpace
    cases s.mark <;> simp [happart, hpure]
  show (s.putOpenToken '[').putString ('[' :: u) = _
  unfold WriteState.putOpenToken
  rw [hno]
  rfl

/-- A list, from its first element on. -/
theorem laid_list (hops : ops.Regular) {W V : WriteState → WriteState} {t t' : Term} {u v : Text}
    {e : Expr} {es : List Expr} {tail : Option Expr} (h : Laid g number ops W .arg t u e)
    (hs : LaidTail g number ops V t' v es tail) (p : Place) :
    Laid g number ops (fun s => (V (W (s.putc '['))).putc ']') p (.cons t t')
      (['['] ++ (u ++ (v ++ [']']))) (listExpr (e :: es) tail) where
  write s _ := by
    rw [h.write_behind (by decide), hs.write _ rfl]
    show ((s.putString ('[' :: u)).putString v).putString [']'] = _
    rw [s.putString_putString, s.putString_putString]
    simp [putToken_openList]
  head := ⟨'[', _, rfl, by unfold Begins; decide⟩
  last := ⟨']', by rw [← List.append_assoc, ← List.append_assoc, List.getLast?_concat], by decide⟩
  ascii := isAsciiString_append (by decide)
    (isAsciiString_append h.ascii (isAsciiString_append hs.ascii (by decide)))
  term vars := by
    have hterm : (listExpr (e :: es) tail).term = .compound (wideChars dot)
        [e.term, tailTerm es tail] := by
      cases tail <;> rfl
    rw [hterm]
    exact toTerm_cell (h.term vars) (hs.term vars)
  pri := by
    cases tail <;> exact Nat.zero_le _
  lone hl := by
    cases tail <;> cases hl
  reads _ stop limit _ _ := by
    have helems : ∀ e' ∈ e :: es, e'.isLone = false →
        e'.Reads ops (Caller.list []).stops maxPri := by
      intro e' he hl
      rcases List.mem_cons.mp he with rfl | he
      · exact h.reads hl _ _ stops_list (sits_maxPri 999)
      · exact hs.reads e' he hl
    cases tail with
    | none => exact .list hops.nil (List.cons_ne_nil _ _) helems
    | some e' => exact .listTail hops.nil (List.cons_ne_nil _ _) helems (hs.reads_tail e' rfl)
  takes out rest _ _ := by
    obtain ⟨c, w, rfl, hbegin⟩ := h.head
    have hopen : Takes g out ['['] ((c :: w) ++ (v ++ [']']) ++ rest) [(none, .punct '[')] :=
      takes_open (.inl rfl) hbegin
    have hfirst : Takes g ('[' :: out) (c :: w) (v ++ [']'] ++ rest) e.marked := by
      refine h.takes _ _ (quotable_punct (by decide) _ _) ?_
      rw [List.append_assoc]
      exact follows_rest hs.head (.inr rfl)
    have hlast : ∃ d, ((c :: w).reverse ++ '[' :: out).head? = some d ∧ d ≠ '|' := by
      obtain ⟨d, hd, -, hbar⟩ := h.last
      refine ⟨d, ?_, hbar⟩
      rw [List.head?_append, List.head?_reverse, hd]
      rfl
    have hclose : Takes g (v.reverse ++ ((c :: w).reverse ++ '[' :: out)) [']'] rest
        [(none, .punct ']')] := takes_punct none (.inr (.inr (.inr (.inl rfl))))
    have hall := hopen.append (hfirst.append ((hs.takes _ rest hlast).append hclose))
    have hmarked : (listExpr (e :: es) tail).marked = [(none, .punct '[')] ++ (e.marked ++
        (tailMarked es tail ++ [(none, .punct ']')])) := by
      cases tail <;> simp [listExpr, tailMarked, Expr.marked, Expr.separatedMarked]
    rw [hmarked]
    exact hall

/-! ## Terms -/

/-- The terms that read back: ASCII texts without NUL, no variables, floats or blobs, no `$VAR`/1
and no compound `.`/2, which is written between its arguments. -/
inductive IsWritable : Term → Prop where
  | int (i : Int) : IsWritable (.int i)
  | atom (a : Text) : IsAsciiString a → IsWritable (.atom a)
  | str (a : Text) : IsAsciiString a → IsWritable (.str a)
  | nil : IsWritable .nil
  | compound (f : Text) (args : List Term) : IsAsciiString f → ¬ (f = isoVar ∧ args.length = 1) →
    ¬ (f = ['.'] ∧ args.length = 2) → (∀ t ∈ args, IsWritable t) → IsWritable (.compound f args)

section

variable {other : Text → Term → Text}

theorem Laid.congr {W W' : WriteState → WriteState} {p : Place} {t : Term} {u : Text} {e : Expr}
    (h : Laid g number ops W p t u e) (hW : ∀ s, W' s = W s) : Laid g number ops W' p t u e :=
  { h with write := fun s hs => (hW s).trans (h.write s hs) }

theorem enter_of_ne {p : Place} (h : p ≠ .tail) (s : WriteState) : p.enter s = s := by
  cases p with
  | term | arg => rfl
  | tail => exact absurd rfl h

/-- Behind the bar a term is written as an argument. -/
theorem write_tail (s : WriteState) {t : Term} (hnil : t ≠ .nil)
    (hcell : ∀ a b, t ≠ .cons a b) :
    write ops other .tail s t = write ops other .arg (s.putc '|') t := by
  cases t with
  | nil => exact absurd rfl hnil
  | compound f args =>
    rcases args with _ | ⟨a, _ | ⟨b, _ | ⟨c, ts⟩⟩⟩
    · rfl
    · rfl
    · have hf : f ≠ dot := by
        rintro rfl
        exact hcell a b rfl
      unfold write
      rw [if_neg hf, if_neg hf]
      rfl
    · rfl
  | _ => rfl

/-- The term is laid at every place of its own. -/
def IsLaid (g : Grammar) (number : Text → Option Term) (ops : Operators)
    (other : Text → Term → Text) (t : Term) : Prop :=
  ∀ p, p ≠ .tail → ∃ u e, Laid g number ops (fun s => write ops other p s t) p t u e

/-- The term is laid as the tail of a list. -/
def IsLaidTail (g : Grammar) (number : Text → Option Term) (ops : Operators)
    (other : Text → Term → Text) (t : Term) : Prop :=
  ∃ u es tail, LaidTail g number ops (fun s => write ops other .tail s t) t u es tail

theorem isLaidTail_bar {t : Term} (h : IsLaid g number ops other t) (hnil : t ≠ .nil)
    (hcell : ∀ a b, t ≠ .cons a b) : IsLaidTail g number ops other t := by
  obtain ⟨u, e, hlaid⟩ := h .arg (by simp)
  have htail := laidTail_bar hlaid
  refine ⟨_, _, _, { htail with write := fun s hs => ?_ }⟩
  rw [write_tail s hnil hcell]
  exact htail.write s hs

theorem laidRest_writeArgs {ts : List Term} (h : ∀ t ∈ ts, IsLaid g number ops other t) :
    ∃ v es, LaidRest g number ops (fun s => writeArgs ops other s ts) ts v es := by
  induction ts with
  | nil => exact ⟨_, _, laidRest_nil⟩
  | cons t ts ih =>
    obtain ⟨ht, hts⟩ := List.forall_mem_cons.mp h
    obtain ⟨v, es, hrest⟩ := ih hts
    obtain ⟨u, e, hlaid⟩ := ht .arg (by simp)
    exact ⟨_, _, laidRest_cons hlaid hrest⟩

/-- Arguments in parentheses. -/
theorem isLaid_canonical {f : Text} (hf : IsAsciiString f) {t : Term} {ts : List Term}
    (h : ∀ u ∈ t :: ts, IsLaid g number ops other u) (p : Place) : ∃ u e, Laid g number ops
      (fun s => (writeArgs ops other (write ops other .arg ((s.putToken (atomText f)).putc '(') t)
        ts).putc ')') p (.compound f (t :: ts)) u e := by
  obtain ⟨ht, hts⟩ := List.forall_mem_cons.mp h
  obtain ⟨u, e, hlaid⟩ := ht .arg (by simp)
  obtain ⟨v, es, hrest⟩ := laidRest_writeArgs hts
  exact ⟨_, _, laid_compound hf hlaid hrest p⟩

/-- One argument. -/
theorem isLaid_one (hops : ops.Regular) {f : Text} (hf : IsAsciiString f) (hvar : f ≠ isoVar)
    {t : Term} (h : IsLaid g number ops other t) : IsLaid g number ops other (.compound f [t]) := by
  intro p hp
  by_cases hcurl : f = ['\x7b', '\x7d']
  · subst hcurl
    obtain ⟨u, e, hlaid⟩ := h (.term 1200) (by simp)
    refine ⟨_, _, (laid_brace hops hlaid p).congr fun s => ?_⟩
    show write ops other p s _ = _
    conv_lhs => unfold write
    rw [if_neg hvar, if_pos rfl, enter_of_ne hp]
  · cases hpre : ops.current .opPrefix (.text (wideChars f)) with
    | some o =>
      obtain ⟨type, pri⟩ := o
      obtain ⟨u, e, hlaid⟩ := h (.term (type.rightPri pri)) (by simp)
      obtain ⟨u', e', hl, hop⟩ := laid_prefix hops hf hpre hlaid
      obtain ⟨u'', e'', -, hall⟩ := hop.embrace hl p
      refine ⟨_, _, hall.congr fun s => ?_⟩
      show write ops other p s _ = _
      conv_lhs => unfold write
      rw [if_neg hvar, if_neg hcurl, enter_of_ne hp, hpre]
    | none =>
      cases hpost : ops.current .opPostfix (.text (wideChars f)) with
      | some o =>
        obtain ⟨type, pri⟩ := o
        obtain ⟨u, e, hlaid⟩ := h (.term (type.leftPri pri)) (by simp)
        obtain ⟨u', e', hl, hop⟩ := laid_postfix hops hf hpost hlaid
        obtain ⟨u'', e'', -, hall⟩ := hop.embrace hl p
        refine ⟨_, _, hall.congr fun s => ?_⟩
        show write ops other p s _ = _
        conv_lhs => unfold write
        rw [if_neg hvar, if_neg hcurl, enter_of_ne hp, hpre, hpost]
      | none =>
        have hargs : ∀ u ∈ [t], IsLaid g number ops other u := by simpa using h
        obtain ⟨u, e, hlaid⟩ := isLaid_canonical hf hargs p
        refine ⟨u, e, hlaid.congr fun s => ?_⟩
        show write ops other p s _ = _
        conv_lhs => unfold write
        rw [if_neg hvar, if_neg hcurl, enter_of_ne hp, hpre, hpost]
        rfl

/-- Two arguments. -/
theorem isLaid_two (hops : ops.Regular) {f : Text} (hf : IsAsciiString f) (hdot : f ≠ ['.'])
    (hcell : f ≠ dot) {l r : Term} (hl : IsLaid g number ops other l)
    (hr : IsLaid g number ops other r) : IsLaid g number ops other (.compound f [l, r]) := by
  intro p hp
  cases hin : ops.current .opInfix (.text (wideChars f)) with
  | some o =>
    obtain ⟨type, pri⟩ := o
    obtain ⟨ul, el, hlaidl⟩ := hl (.term (type.leftPri pri)) (by simp)
    obtain ⟨ur, er, hlaidr⟩ := hr (.term (type.rightPri pri)) (by simp)
    obtain ⟨u', e', hlone, hop⟩ := laid_infix hops hf hdot hin hlaidl hlaidr
    obtain ⟨u'', e'', -, hall⟩ := hop.embrace hlone p
    refine ⟨_, _, hall.congr fun s => ?_⟩
    show write ops other p s _ = _
    conv_lhs => unfold write
    rw [if_neg hcell, enter_of_ne hp, hin]
  | none =>
    have hargs : ∀ u ∈ [l, r], IsLaid g number ops other u := by simpa using ⟨hl, hr⟩
    obtain ⟨u, e, hlaid⟩ := isLaid_canonical hf hargs p
    refine ⟨u, e, hlaid.congr fun s => ?_⟩
    show write ops other p s _ = _
    conv_lhs => unfold write
    rw [if_neg hcell, enter_of_ne hp, hin]
    rfl

/-- Every term is laid. -/
theorem isLaid (other : Text → Term → Text) (hops : ops.Regular)
    (hg : ReadsDecimals g.strNumber number) {t : Term} (h : IsWritable t) :
    IsLaid g number ops other t ∧ IsLaidTail g number ops other t := by
  have hbar : ∀ {t}, IsLaid g number ops other t → t ≠ .nil → (∀ a b, t ≠ .cons a b) →
      IsLaid g number ops other t ∧ IsLaidTail g number ops other t :=
    fun h hnil hcell => ⟨h, isLaidTail_bar h hnil hcell⟩
  induction h with
  | int i =>
    refine hbar (fun p hp => ⟨_, _, (laid_int hg i p).congr fun s => ?_⟩) (by simp)
      fun a b => by simp [Term.cons]
    show (p.enter s).putToken (decimal i) = _
    rw [enter_of_ne hp]
  | atom a ha =>
    refine hbar (fun p hp => ?_) (by simp) fun a b => by simp [Term.cons]
    obtain ⟨u, e, hlaid⟩ := @laid_atom g number ops a ha p
    refine ⟨u, e, hlaid.congr fun s => ?_⟩
    show (((p.enter s).openBrace _).putToken (atomText a)).closeBrace _ = _
    rw [enter_of_ne hp]
  | str a ha =>
    refine hbar (fun p hp => ⟨_, _, (laid_str ha p).congr fun s => ?_⟩) (by simp)
      fun a b => by simp [Term.cons]
    show (p.enter s).putString (writeQuoted '"' a) = _
    rw [enter_of_ne hp]
  | nil =>
    refine ⟨fun p hp => ⟨_, _, (laid_nil hops p).congr fun s => ?_⟩, ⟨_, _, _, laidTail_nil⟩⟩
    cases p with
    | term | arg => rfl
    | tail => exact absurd rfl hp
  | compound f args hf hvar hdot hargs ih =>
    rcases args with _ | ⟨t, _ | ⟨r, _ | ⟨c, ts⟩⟩⟩
    · refine hbar (fun p hp => ⟨_, _, (laid_thunk hf p).congr fun s => ?_⟩) (by simp)
        fun a b => by simp [Term.cons]
      show (((p.enter s).putToken (atomText f)).putc '(').putc ')' = _
      rw [enter_of_ne hp]
    · have hone := isLaid_one hops hf (fun he => hvar ⟨he, rfl⟩) (ih t (by simp)).1
      exact hbar hone (by simp) fun a b => by simp [Term.cons]
    · by_cases hcell : f = dot
      · subst hcell
        obtain ⟨u, e, hlaid⟩ := (ih t (by simp)).1 .arg (by simp)
        obtain ⟨v, es, tail, htail⟩ := (ih r (by simp)).2
        refine ⟨fun p hp => ⟨_, _, (laid_list hops hlaid htail p).congr fun s => ?_⟩,
          ⟨_, _, _, laidTail_cons hlaid htail⟩⟩
        show write ops other p s _ = _
        conv_lhs => unfold write
        rw [if_pos rfl, if_neg hp]
      · have htwo := isLaid_two hops hf (fun he => hdot ⟨he, rfl⟩) hcell (ih t (by simp)).1
          (ih r (by simp)).1
        exact hbar htwo (by simp) fun a b => by simp [Term.cons, hcell]
    · have hmany : IsLaid g number ops other (.compound f (t :: r :: c :: ts)) := by
        intro p hp
        obtain ⟨u, e, hlaid⟩ := isLaid_canonical hf (fun t' ht => (ih t' ht).1) p
        refine ⟨u, e, hlaid.congr fun s => ?_⟩
        show (writeArgs ops other (write ops other .arg (((p.enter s).putToken (atomText f)).putc
          '(') t) (r :: c :: ts)).putc ')' = _
        rw [enter_of_ne hp]
      exact hbar hmany (by simp) fun a b => by simp [Term.cons]

/-! ## Texts -/

/-- A term that is written as the whole of a text. -/
theorem isLaid_start (other : Text → Term → Text) (hops : ops.Regular)
    (hg : ReadsDecimals g.strNumber number) {t : Term} (h : IsWritable t) :
    ∃ u e, Laid g number ops (fun s => write ops other (.term 1200) s t) (.term 1200) t u e ∧
      (write ops other (.term 1200) { out := [] } t).out = u := by
  obtain ⟨u, e, hlaid⟩ := (isLaid other hops hg h).1 (.term 1200) (by simp)
  refine ⟨u, e, hlaid, ?_⟩
  obtain ⟨c, v, rfl, -⟩ := hlaid.head
  rw [hlaid.write _ (by simp)]
  rfl

theorem stops_readTerm (prec : Nat) : Stops Caller.readTerm.stops prec := by
  refine stops_of_reads (fun token ht => ?_) prec
  cases token with
  | fullstop => exact .inr (.inr (.inr rfl))
  | _ => cases ht

theorem readTerm_write (hops : ops.Regular) {strNumber : Text → Option (Text × Text)}
    (hnumber : ReadsDecimals strNumber number) {t : Term} (h : IsWritable t) :
    (plGrammar number ops strNumber).readTerm (write ops other (.term 1200) { out := [] } t).out =
      some t := by
  have hg : ReadsDecimals (plGrammar number ops strNumber).strNumber number := hnumber
  obtain ⟨u, e, hlaid, hu⟩ := isLaid_start other hops hg h
  rw [hu]
  refine readTerm_of_takes (hlaid.takes [] [] (fun _ d hd => ?_) (follows_nil u)) (fun d hd => ?_)
    (fun hl => hlaid.reads hl _ _ (stops_readTerm 1200) (sits_maxPri 1200)) (hlaid.term [])
  · cases hd
  · obtain ⟨d', hd', hblank, -⟩ := hlaid.last
    rw [hd'] at hd
    cases hd
    exact hblank

end

/-! ## The writer of lists -/

section

variable {other : Text → Term → Text}

theorem writeOperators_of_ne {out : Text} (h : out ≠ []) (t : Term) :
    writeOperators ops other out t = (write ops other .arg { out } t).out := by
  cases out with
  | nil => exact absurd rfl h
  | cons c out => rfl

/-- A compound that is no list cell. -/
theorem writeTerm_compound (W : Text → Term → Text) {f : Text} {args : List Term}
    (h : ¬ IsCell f args) (out : Text) :
    writeTerm W out (.compound f args) = W out (.compound f args) ∧
      writeRest W out (.compound f args) = W (out ++ ['|']) (.compound f args) ++ [']'] := by
  rcases args with _ | ⟨a, _ | ⟨b, _ | ⟨c, ts⟩⟩⟩
  · exact ⟨rfl, rfl⟩
  · exact ⟨rfl, rfl⟩
  · have hf : f ≠ dot := fun he => h ⟨he, rfl⟩
    refine ⟨?_, ?_⟩
    · rw [writeTerm, if_neg hf]
    · rw [writeRest, if_neg hf]
  · exact ⟨rfl, rfl⟩

theorem putToken_state (out u : Text) :
    (({ out } : WriteState).putToken u).out = putToken out u := by
  cases u with
  | nil => rfl
  | cons c u =>
    show ((({ out } : WriteState).putOpenToken c).putString (c :: u)).out =
      putOpenToken out c ++ c :: u
    unfold WriteState.putOpenToken putOpenToken
    have hspace : ({ out } : WriteState).needSpace c = needSpace c out.getLast? := rfl
    rw [hspace]
    by_cases h : needSpace c out.getLast? = true
    · rw [if_pos h, if_pos h]
      rfl
    · rw [if_neg h, if_neg h]
      rfl

theorem writeAtom_state (out a : Text) :
    (({ out } : WriteState).putToken (atomText a)).out = writeAtom out a := by
  rw [putToken_state]
  unfold atomText writeAtom
  cases atomType a <;> rfl

/-- An argument in front of more of a list. -/
theorem write_arg_state (other : Text → Term → Text) (hops : ops.Regular)
    (hg : ReadsDecimals g.strNumber number) {t : Term} (h : IsWritable t)
    {out : Text} (hout : out.getLast? ≠ some '"') :
    ∃ out', out' ≠ [] ∧ write ops other .arg { out } t = { out := out' } := by
  obtain ⟨u, e, hlaid⟩ := (isLaid other hops hg h).1 .arg (by simp)
  obtain ⟨c, v, rfl, -⟩ := hlaid.head
  refine ⟨_, ?_, hlaid.write { out } hout⟩
  simp

/-- The writer of lists leaves the rest to the writer of compounds, and agrees with it. -/
theorem writeTerm_eq_write_arg (other : Text → Term → Text) (hops : ops.Regular)
    (hg : ReadsDecimals g.strNumber number) {t : Term} (h : IsWritable t) : ∀ out, out ≠ [] →
      writeTerm (writeOperators ops other) out t = (write ops other .arg { out } t).out ∧
      writeRest (writeOperators ops other) out t =
        ((write ops other .tail { out } t).putc ']').out := by
  have hsimple : ∀ {t}, t ≠ .nil → (∀ a b, t ≠ .cons a b) →
      (∀ out, out ≠ [] → writeTerm (writeOperators ops other) out t =
        (write ops other .arg { out } t).out) →
      (∀ out, writeRest (writeOperators ops other) out t =
        writeTerm (writeOperators ops other) (out ++ ['|']) t ++ [']']) →
      ∀ out, out ≠ [] →
        writeTerm (writeOperators ops other) out t = (write ops other .arg { out } t).out ∧
        writeRest (writeOperators ops other) out t =
          ((write ops other .tail { out } t).putc ']').out := by
    intro t hnil hcell harg hrest out hout
    refine ⟨harg out hout, ?_⟩
    rw [hrest, harg _ (by simp), write_tail _ hnil hcell]
    rfl
  -- an element, and the rest of its list
  have hcons : ∀ {a b : Term}, IsWritable a →
      (∀ out, out ≠ [] → writeTerm (writeOperators ops other) out a =
        (write ops other .arg { out } a).out) →
      (∀ out, out ≠ [] → writeRest (writeOperators ops other) out b =
        ((write ops other .tail { out } b).putc ']').out) →
      ∀ out x, x ≠ '"' → writeRest (writeOperators ops other)
          (writeTerm (writeOperators ops other) (out ++ [x]) a) b =
        ((write ops other .tail (write ops other .arg { out := out ++ [x] } a) b).putc
          ']').out := by
    intro a b ha harg hrest out x hx
    obtain ⟨out', hne, hstate⟩ := write_arg_state other hops hg ha
      (show (out ++ [x]).getLast? ≠ some '"' by simpa using hx)
    rw [harg _ (by simp), hstate, hrest _ hne]
  induction h with
  | int i =>
    exact hsimple (by simp) (by simp [Term.cons])
      (fun out _ => (putToken_state out (decimal i)).symm) fun _ => rfl
  | atom a _ =>
    exact hsimple (by simp) (by simp [Term.cons]) (fun out _ => (writeAtom_state out a).symm)
      fun _ => rfl
  | str a _ => exact hsimple (by simp) (by simp [Term.cons]) (fun _ _ => rfl) fun _ => rfl
  | nil => exact fun out _ => ⟨(putToken_state out ['[', ']']).symm, rfl⟩
  | compound f args hf _ _ hargs ih =>
    by_cases hcell : IsCell f args
    · obtain ⟨rfl, hlen⟩ := hcell
      obtain ⟨a, b, rfl⟩ := List.length_eq_two.mp hlen
      intro out hout
      have hwriter := hcons (hargs a (by simp)) (fun out h => (ih a (by simp) out h).1)
        (fun out h => (ih b (by simp) out h).2) out
      exact ⟨hwriter '[' (by decide), hwriter ',' (by decide)⟩
    · have hother := writeTerm_compound (writeOperators ops other) hcell
      refine hsimple (by simp) (fun a b he => ?_) (fun out hout => ?_) fun out => ?_
      · cases he
        exact hcell ⟨rfl, rfl⟩
      · rw [(hother out).1, writeOperators_of_ne hout]
      · rw [(hother out).2, (hother _).1]

/-- The writer of lists on a whole text. -/
theorem writeTerm_eq_write (hops : ops.Regular) (hg : ReadsDecimals g.strNumber number)
    {t : Term} (h : IsWritable t) : writeTerm (writeOperators ops other) [] t =
      (write ops other (.term 1200) { out := [] } t).out := by
  cases h with
  | int i => exact (putToken_state [] (decimal i)).symm
  | atom a ha => exact (writeAtom_state [] a).symm
  | str a ha => rfl
  | nil => exact (putToken_state [] ['[', ']']).symm
  | compound f args hf hvar hdot hargs =>
    by_cases hcell : IsCell f args
    · obtain ⟨rfl, hlen⟩ := hcell
      obtain ⟨a, b, rfl⟩ := List.length_eq_two.mp hlen
      obtain ⟨out', hne, hstate⟩ := write_arg_state other hops hg (hargs a (by simp))
        (show ['['].getLast? ≠ some '"' by decide)
      have ha := (writeTerm_eq_write_arg other hops hg (hargs a (by simp)) ['[']
        (by simp)).1
      have hb := (writeTerm_eq_write_arg other hops hg (hargs b (by simp)) out' hne).2
      show writeRest _ (writeTerm _ ['['] a) b =
        ((write ops other .tail (write ops other .arg { out := ['['] } a) b).putc ']').out
      rw [ha, hstate, hb]
    · exact (writeTerm_compound (writeOperators ops other) hcell []).1

end

/-- What is written reads back: with every table of regular operators, the text of a writable term
reads as this term. -/
theorem readTerm_writeTerm (hops : ops.Regular) {strNumber : Text → Option (Text × Text)}
    (hnumber : ReadsDecimals strNumber number) (other : Text → Term → Text) {t : Term}
    (h : IsWritable t) :
    (plGrammar number ops strNumber).readTerm (writeTerm (writeOperators ops other) [] t) =
      some t := by
  have hg : ReadsDecimals (plGrammar number ops strNumber).strNumber number := hnumber
  rw [writeTerm_eq_write hops hg h]
  exact readTerm_write hops hnumber h

/-- A term with operators, lists and quotes. -/
def shownTerm : Term :=
  .compound ['f'] [.compound ['-'] [.int 1],
    .cons (.int (-1)) (.cons (.atom ['B', ' ', 'c']) (.atom ['x'])),
    .compound ['\\', '+'] [.compound [':', '-'] [.atom ['p'], .atom ['-']]]]

theorem isWritable_shownTerm : IsWritable shownTerm := by
  have hone : IsWritable (.compound ['-'] [.int 1]) := by
    refine .compound _ _ (by decide) (by decide) (by decide) fun t ht => ?_
    rw [List.mem_singleton.mp ht]
    exact .int 1
  have hpair : ∀ f, IsAsciiString f → f ≠ ['.'] → ∀ a b, IsWritable a → IsWritable b →
      IsWritable (.compound f [a, b]) := by
    intro f hf hdot a b ha hb
    refine .compound f _ hf (by simp) (fun h => hdot h.1) fun t ht => ?_
    rcases List.mem_pair.mp ht with rfl | rfl
    · exact ha
    · exact hb
  have hrule : IsWritable (.compound ['\\', '+']
      [.compound [':', '-'] [.atom ['p'], .atom ['-']]]) := by
    refine .compound _ _ (by decide) (by decide) (by decide) fun t ht => ?_
    rw [List.mem_singleton.mp ht]
    exact hpair _ (by decide) (by decide) _ _ (.atom _ (by decide)) (.atom _ (by decide))
  have hlist : IsWritable (.cons (.int (-1)) (.cons (.atom ['B', ' ', 'c']) (.atom ['x']))) :=
    hpair dot (by decide) (by decide) _ _ (.int (-1))
      (hpair dot (by decide) (by decide) _ _ (.atom _ (by decide)) (.atom _ (by decide)))
  refine .compound _ _ (by decide) (by decide) (by decide) fun t ht => ?_
  simp only [List.mem_cons, List.not_mem_nil, or_false] at ht
  rcases ht with rfl | rfl | rfl
  · exact hone
  · exact hlist
  · exact hrule

theorem write_shownTerm :
    writeTerm (writeOperators systemOperators fun out _ => out) [] shownTerm =
      "f(- 1,[-1,'B c'|x],\\+ (p:-(-)))".toList := by decide +kernel

/-- `- 1` is a compound and `-1` a number, and the last `-` is an atom. -/
theorem readTerm_shownTerm :
    systemGrammar.readTerm "f(- 1,[-1,'B c'|x],\\+ (p:-(-)))".toList = some shownTerm := by
  rw [← write_shownTerm]
  exact readTerm_writeTerm regular_systemOperators readsDecimals_decimal _ isWritable_shownTerm

/-! ## Answers as arguments -/

/-- The text of the term is what the writer makes of it. -/
def IsWritten : Term → Prop
  | .int _ => True
  | .compound f args => ∀ wide b, codesOrCharsToBuffer wide (.compound f args) ≠ .ok b
  | _ => False

theorem putToken_nil (u : Text) : putToken [] u = u := by
  cases u with
  | nil => rfl
  | cons c u => rfl

theorem plGetText_written (W : Text → Term → Text) {t : Term} (h : IsWritten t) :
    plGetText W t = wideChars (writeTerm W [] t) := by
  cases t with
  | int i =>
    show wideChars (decimal i) = wideChars (putToken [] (decimal i))
    rw [putToken_nil]
  | compound f args =>
    show plGetListText W (.compound f args) = _
    unfold plGetListText
    cases hbytes : codesOrCharsToBuffer false (.compound f args) with
    | ok b => exact absurd hbytes (h false b)
    | error e =>
      cases hwide : codesOrCharsToBuffer true (.compound f args) with
      | ok b => exact absurd hwide (h true b)
      | error e' => cases e <;> rfl
  | _ => cases h

/-- The writer makes ASCII texts of terms with ASCII texts. -/
theorem isAsciiString_write (hops : ops.Regular) (hg : ReadsDecimals g.strNumber number)
    (other : Text → Term → Text) {t : Term} (h : IsWritable t) :
    IsAsciiString (write ops other (.term 1200) { out := [] } t).out := by
  obtain ⟨u, e, hlaid, hu⟩ := isLaid_start other hops hg h
  rw [hu]
  exact hlaid.ascii

/-- R gets the text of an ASCII text without NUL as it is. -/
theorem text_wideToNative {s : Text} (h : IsAsciiString s) : (wideToNative s).text = s := by
  have hascii : IsAscii s := fun c hc => (h c hc).2
  rw [wideToNative_ascii hascii]
  exact (faithful_iff hascii).mpr fun c hc => (h c hc).1

variable {w : World} {other : Text → Term → Text} {strNumber : Text → Option (Text × Text)}

/-- A query on a text that reads as `t`. -/
theorem textQuery_parsed {x : CString} {t : Term} (hparse : w.parse x = .done t) {s : Session}
    (hs : s.live = true) (predicate : CString) (more : List (Option CString)) :
    ((Op.queryComp predicate (some x :: more)).run w s).1 =
        (queryOutcome w s.context predicate (wideString w) t s.start.pending).1 ∧
      ((Op.queryLL predicate (some x :: more)).run w s).1 =
        (queryOutcome w s.context predicate rologGet t s.start.pending).1 := by
  have houtcome (body : Term → Cpp SEXP) :
      textQueryOutcome w s.context predicate (some x :: more) body =
        queryOutcome w s.context predicate body t := by
    show (Unwind.Proc.lift (w.parse x) >>= _) = _
    rw [hparse]
    rfl
  have hcomp := (rologQueryComp_spec w predicate (some x :: more) s.start (at_start hs)).1
  have hll := (rologQueryLL_spec w predicate (some x :: more) s.start (at_start hs)).1
  refine ⟨hcomp.trans ?_, hll.trans ?_⟩
  · exact congrArg (fun e => (e s.start.pending).1) (houtcome (wideString w))
  · exact congrArg (fun e => (e s.start.pending).1) (houtcome rologGet)

/-- A term that R gets as a text is the argument of every query on this text. -/
theorem text_returns (hops : ops.Regular) (hnumber : ReadsDecimals strNumber number)
    (hget : w.GetsText (writeOperators ops other))
    (hread : w.ReadsWith (plGrammar number ops strNumber)) {t : Term} (h : IsWritable t)
    (hwritten : IsWritten t) : ∃ x, wideString w t = .done (.str [some x] []) ∧
      ∀ s : Session, s.live = true → ∀ (predicate : CString) (more : List (Option CString)),
        ((Op.queryComp predicate (some x :: more)).run w s).1 =
            (queryOutcome w s.context predicate (wideString w) t s.start.pending).1 ∧
          ((Op.queryLL predicate (some x :: more)).run w s).1 =
            (queryOutcome w s.context predicate rologGet t s.start.pending).1 := by
  have hg : ReadsDecimals (plGrammar number ops strNumber).strNumber number := hnumber
  have hascii := isAsciiString_write hops hg other h
  have hshown := hget t _ (plGetText_written (writeOperators ops other) hwritten)
  rw [writeTerm_eq_write hops hg h] at hshown
  refine ⟨wideToNative (write ops other (.term 1200) { out := [] } t).out, ?_,
    fun s hs predicate more => textQuery_parsed ?_ hs predicate more⟩
  · unfold wideString
    rw [hshown]
  · unfold World.parse
    rw [hread _ t]
    rw [text_wideToNative hascii]
    exact readTerm_write hops hnumber h

/-- Only lists can spell a text. -/
theorem isWritten_compound {f : Text} {args : List Term} (h : ¬ IsCell f args) :
    IsWritten (.compound f args) := by
  have hloop : ∀ type wide, codesLoop type wide (.compound f args) = .error .cvtNolist := by
    intro type wide
    rcases args with _ | ⟨a, _ | ⟨b, _ | ⟨c, ts⟩⟩⟩
    · rfl
    · rfl
    · have hf : f ≠ dot := fun he => h ⟨he, rfl⟩
      rw [codesLoop, if_neg hf]
    · rfl
  intro wide b hb
  rcases args with _ | ⟨x, _ | ⟨y, _ | ⟨z, ts⟩⟩⟩
  · cases hb
  · cases hb
  · have hf : f ≠ dot := fun he => h ⟨he, rfl⟩
    rw [codesOrCharsToBuffer, if_neg (by simp [hf]), hloop] at hb
    cases hb
  · cases hb

/-- A world with the writer and the reader of Prolog. -/
def proseWorld : World where
  charsToTerm text :=
    match systemGrammar.readTerm text.text with
    | some t => .ok t
    | none => .error .nil
  solve _ _ _ := .fail
  termText t :=
    (plGetText (writeOperators systemOperators fun out _ => out) t).map Char.ofNat
  initialise := .ok
  cleanup := true

/-- The text of `shownTerm` is a call with this very term. -/
theorem text_returns_shown : ∃ x, wideString proseWorld shownTerm = .done (.str [some x] []) ∧
    ∀ s : Session, s.live = true → ∀ (predicate : CString) (more : List (Option CString)),
      ((Op.queryComp predicate (some x :: more)).run proseWorld s).1 =
          (queryOutcome proseWorld s.context predicate (wideString proseWorld) shownTerm
            s.start.pending).1 ∧
        ((Op.queryLL predicate (some x :: more)).run proseWorld s).1 =
          (queryOutcome proseWorld s.context predicate rologGet shownTerm s.start.pending).1 := by
  have hget : proseWorld.GetsText (writeOperators systemOperators fun out _ => out) := by
    intro t s h
    show (plGetText _ t).map Char.ofNat = s
    rw [h, map_ofNat_wideChars]
  have hread : proseWorld.ReadsWith systemGrammar := by
    intro text t h
    unfold World.charsToTerm proseWorld
    simp only [h]
  exact text_returns regular_systemOperators readsDecimals_decimal hget hread
    isWritable_shownTerm (isWritten_compound (by decide))

end Rolog
