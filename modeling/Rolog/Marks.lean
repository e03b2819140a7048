/-
  What the parser says in front of a token. A sign in front of a digit is part of a number where
  an operand must stand, and a name where an operator must follow. In operator notation the
  parser asks for an operand in front of a leaf, and for an operator behind an operand
  (`asks_marked`).
-/
import Rolog.Operators

namespace Rolog

/-- A token, and what the parser says in front of it, where this matters. -/
abbrev Mark := Option Bool × ReadToken

namespace Expr

mutual

/-- The tokens with their marks. -/
def marked : Expr → List Mark
  | leaf token => [(some false, token)]
  | lone quoted a => [(none, ReadToken.ofName quoted a)]
  | parentheses e => (none, .punct '(') :: (e.marked ++ [(none, .punct ')')])
  | brace e => (none, .punct '\x7b') :: (e.marked ++ [(none, .punct '\x7d')])
  | list es => (none, .punct '[') :: (separatedMarked es ++ [(none, .punct ']')])
  | listTail es tail => (none, .punct '[') ::
      (separatedMarked es ++ (none, .punct '|') :: (tail.marked ++ [(none, .punct ']')]))
  | compound f args => (none, .functor f) :: (none, .punct '(') ::
      (separatedMarked args ++ [(none, .punct ')')])
  | opInfix l op r => l.marked ++ (some true, op) :: r.marked
  | opPrefix op r => (none, op) :: r.marked
  | opPostfix l op => l.marked ++ [(some true, op)]
termination_by structural e => e

def separatedMarked : List Expr → List Mark
  | [] => []
  | e :: es => e.marked ++ commasMarked es
termination_by structural es => es

def commasMarked : List Expr → List Mark
  | [] => []
  | e :: es => (none, .punct ',') :: (e.marked ++ commasMarked es)
termination_by structural es => es

end

theorem marked_tokens (e : Expr) : e.marked.map Prod.snd = e.tokens := by
  refine @Expr.rec (fun e => e.marked.map Prod.snd = e.tokens)
    (fun es => (separatedMarked es).map Prod.snd = separated es ∧
      (commasMarked es).map Prod.snd = commas es)
    ?_ ?_ ?_ ?_ ?_ ?_ ?_ ?_ ?_ ?_ ?_ ?_ e
  · exact fun token => rfl
  · exact fun quoted a => rfl
  · intro e ih
    simp [marked, tokens, ih]
  · intro e ih
    simp [marked, tokens, ih]
  · intro es ih
    simp [marked, tokens, ih.1]
  · intro es tail ih ihtail
    simp [marked, tokens, ih.1, ihtail]
  · intro f args ih
    simp [marked, tokens, ih.1]
  · intro l op r ihl ihr
    simp [marked, tokens, ihl, ihr]
  · intro op r ih
    simp [marked, tokens, ih]
  · intro l op ih
    simp [marked, tokens, ih]
  · exact ⟨rfl, rfl⟩
  · intro e es ih ihs
    exact ⟨by simp [separatedMarked, separated, ih, ihs.2],
      by simp [commasMarked, commas, ih, ihs.2]⟩

theorem commasMarked_tokens (es : List Expr) : (commasMarked es).map Prod.snd = commas es := by
  induction es with
  | nil => rfl
  | cons e es ih => simp [commasMarked, commas, marked_tokens, ih]

theorem separatedMarked_tokens (es : List Expr) :
    (separatedMarked es).map Prod.snd = separated es := by
  cases es with
  | nil => rfl
  | cons e es => simp [separatedMarked, separated, marked_tokens, commasMarked_tokens]

theorem marked_ne_nil (e : Expr) : e.marked ≠ [] := by
  cases e <;> simp [marked]

end Expr

namespace ParseState

variable {ops : Operators}

/-- In front of every token the parser says what its mark says. -/
def Asks (ops : Operators) : ParseState → List Mark → Prop
  | _, [] => True
  | s, (b, t) :: toks =>
    (∀ x ∈ b, s.mustBeOp = x) ∧ ∀ s', step ops s t = .ok s' → Asks ops s' toks

theorem asks_cons {s s' : ParseState} {b : Option Bool} {t : ReadToken} {toks : List Mark}
    (hb : ∀ x ∈ b, s.mustBeOp = x) (hstep : step ops s t = .ok s') (h : Asks ops s' toks) :
    Asks ops s ((b, t) :: toks) := by
  refine ⟨hb, fun s'' hs => ?_⟩
  rw [hstep] at hs
  cases hs
  exact h

/-- A mark that says nothing. -/
theorem asks_unmarked {s : ParseState} {t : ReadToken} {toks : List Mark}
    (h : ∀ s', step ops s t = .ok s' → Asks ops s' toks) : Asks ops s ((none, t) :: toks) := by
  refine ⟨fun x hx => ?_, h⟩
  cases hx

theorem asks_step {s s' : ParseState} {t : ReadToken} {toks : List Mark}
    (hstep : step ops s t = .ok s') (h : Asks ops s' toks) : Asks ops s ((none, t) :: toks) := by
  refine asks_cons (fun x hx => ?_) hstep h
  cases hx

theorem asks_append {s s' : ParseState} {toks toks' : List Mark} (h : Asks ops s toks)
    (hrun : s.run ops (toks.map Prod.snd) = .ok s') (h' : Asks ops s' toks') :
    Asks ops s (toks ++ toks') := by
  induction toks generalizing s with
  | nil =>
    cases hrun
    exact h'
  | cons m toks ih =>
    obtain ⟨b, t⟩ := m
    obtain ⟨hb, hrest⟩ := h
    refine ⟨hb, fun s'' hstep => ?_⟩
    rw [List.map_cons, run_cons_of_step hstep] at hrun
    exact ih (hrest s'' hstep) hrun

/-- The parser asks for the tokens of an expression behind the queues `s`. -/
def AsksBehind (ops : Operators) (stop : ReadToken → Bool) (limit : Nat) (e : Expr) : Prop :=
  ∀ (caller : Caller) (s : OpQueues) (below : List Frame), caller.stops = stop → s.rmo = false →
    Behind limit s.side → Asks ops (loop { caller, queues := s } below) e.marked

/-- The parser asks for the tokens of an argument. -/
def AsksWhole (ops : Operators) (stop : ReadToken → Bool) (e : Expr) : Prop :=
  ∀ (caller : Caller) (below : List Frame), caller.stops = stop →
    Asks ops (loop { caller } below) e.marked

theorem asksWhole_argument {stop : ReadToken → Bool} {e : Expr}
    (h : e.isLone = false → AsksBehind ops stop maxPri e) : AsksWhole ops stop e := by
  intro caller below hc
  cases e with
  | lone quoted a => exact asks_unmarked fun _ _ => trivial
  | _ =>
    refine h rfl caller {} below hc rfl fun op hop => ?_
    cases hop

/-! ## Arguments -/

theorem asks_close {s : ParseState} (token : ReadToken) : Asks ops s [(none, token)] :=
  asks_unmarked fun _ _ => trivial

/-- An argument with a token behind it. -/
theorem asks_bracket {stop : ReadToken → Bool} {e : Expr} (h : AsksWhole ops stop e)
    (hr : ReadsWhole ops stop e) {caller : Caller} (hc : caller.stops = stop)
    (below : List Frame) (token : ReadToken) :
    Asks ops (loop { caller } below) (e.marked ++ [(none, token)]) := by
  obtain ⟨s', hrun, -⟩ := hr caller below hc
  rw [← Expr.marked_tokens] at hrun
  exact asks_append (h caller below hc) hrun (asks_close token)

/-- The arguments from the first on. -/
theorem asks_separated {stop : ReadToken → Bool} {k : List ReadTerm → Caller}
    (hk : Collects stop k) (e : Expr) (es : List Expr)
    (h : ∀ e' ∈ e :: es, AsksWhole ops stop e') (hr : ∀ e' ∈ e :: es, ReadsWhole ops stop e')
    (ts : List ReadTerm) (below : List Frame) :
    Asks ops (loop { caller := k ts } below) (Expr.separatedMarked (e :: es)) := by
  induction es generalizing e ts with
  | nil =>
    show Asks ops _ (e.marked ++ [])
    rw [List.append_nil]
    exact h e List.mem_cons_self (k ts) below (hk.stops ts)
  | cons e' es ih =>
    obtain ⟨hfirst, hrest⟩ := List.forall_mem_cons.mp h
    obtain ⟨hrfirst, hrrest⟩ := List.forall_mem_cons.mp hr
    obtain ⟨s, hrun, hs⟩ := hrfirst (k ts) below (hk.stops ts)
    rw [← Expr.marked_tokens] at hrun
    have hcomma : step ops (loop { caller := k ts, queues := s } below) (.punct ',') =
        .ok (loop { caller := k (e.term :: ts) } below) := by
      rw [step_stop hs (by rw [hk.stops]; exact hk.comma), hk.resume]
      rfl
    show Asks ops _ (e.marked ++ (none, .punct ',') :: Expr.separatedMarked (e' :: es))
    exact asks_append (hfirst (k ts) below (hk.stops ts)) hrun
      (asks_step hcomma (ih e' hrest hrrest (e.term :: ts)))

/-- The first argument of a compound begins with no closing parenthesis. -/
theorem asks_firstArgument {f : List Nat} {frame : Frame} {below : List Frame} {e : Expr}
    {t : ReadToken} {ts : List ReadToken} (ht : t ≠ .punct ')') (he : e.tokens = t :: ts)
    {toks : List Mark}
    (h : Asks ops (loop { caller := .compound f [] } (frame :: below)) (e.marked ++ toks)) :
    Asks ops (.firstArgument f frame below) (e.marked ++ toks) := by
  rw [← Expr.marked_tokens] at he
  cases hm : e.marked with
  | nil =>
    rw [hm] at he
    cases he
  | cons m ms =>
    obtain ⟨b, t'⟩ := m
    rw [hm, List.map_cons, List.cons.injEq] at he
    obtain ⟨rfl, -⟩ := he
    rw [hm] at h
    obtain ⟨hb, hrest⟩ := h
    refine ⟨hb, fun s' hs => hrest s' ?_⟩
    have hstep : step ops (.firstArgument f frame below) t' =
        step ops (loop { caller := .compound f [] } (frame :: below)) t' := if_neg ht
    rw [← hstep]
    exact hs

/-! ## Expressions -/

/-- In front of every token of an expression the parser says what its mark says. -/
theorem asksBehind {stop : ReadToken → Bool} {limit : Nat} {e : Expr}
    (h : e.Reads ops stop limit) : AsksBehind ops stop limit e := by
  induction h with
  | leaf hleaf =>
    intro caller s below _ hr _
    exact ⟨fun x hx => by cases hx; exact hr, fun _ _ => trivial⟩
  | parentheses hreads ih =>
    intro caller s below _ hr _
    exact asks_step (step_openParentheses hr) (asks_bracket (asksWhole_argument ih)
      (readsWhole_argument fun hl => readsBehind (hreads hl)) rfl _ _)
  | brace hplain hreads ih =>
    intro caller s below _ hr _
    exact asks_step (step_openBrace hr hplain) (asks_bracket (asksWhole_argument ih)
      (readsWhole_argument fun hl => readsBehind (hreads hl)) rfl _ _)
  | @list stop limit es hplain hne hreads ih =>
    intro caller s below _ hr _
    obtain ⟨e, es, rfl⟩ := List.exists_cons_of_ne_nil hne
    have hwhole : ∀ e' ∈ e :: es, ReadsWhole ops (Caller.list []).stops e' :=
      fun e' he => readsWhole_argument fun hl => readsBehind (hreads e' he hl)
    obtain ⟨ts, t, s', hrun, -⟩ := run_separated collects_list e es hwhole []
      (operandFrame caller s :: below)
    rw [← Expr.separatedMarked_tokens] at hrun
    refine asks_step (step_openList hr hplain) (asks_append ?_ hrun (asks_close _))
    exact asks_separated collects_list e es (fun e' he => asksWhole_argument (ih e' he)) hwhole _ _
  | @listTail stop limit es tail hplain hne hreads htail ih ihtail =>
    intro caller s below _ hr _
    obtain ⟨e, es, rfl⟩ := List.exists_cons_of_ne_nil hne
    have hwhole : ∀ e' ∈ e :: es, ReadsWhole ops (Caller.list []).stops e' :=
      fun e' he => readsWhole_argument fun hl => readsBehind (hreads e' he hl)
    obtain ⟨ts, t, s', hrun, hs, -⟩ := run_separated collects_list e es hwhole []
      (operandFrame caller s :: below)
    rw [← Expr.separatedMarked_tokens] at hrun
    refine asks_step (step_openList hr hplain) (asks_append ?_ hrun (asks_step (step_bar hs) ?_))
    · exact asks_separated collects_list e es (fun e' he => asksWhole_argument (ih e' he)) hwhole
        _ _
    · exact asks_bracket (asksWhole_argument ihtail)
        (readsWhole_argument fun hl => readsBehind (htail hl)) (stops_listTail _) _ _
  | @compound stop limit f args hreads ih =>
    intro caller s below _ hr _
    have hopen : step ops (loop (operandFrame caller s) below) (.functor f) =
        .ok (.openCompound f (operandFrame caller s) below) := step_functor hr
    refine asks_step hopen (asks_step rfl ?_)
    cases args with
    | nil => exact asks_close _
    | cons e es =>
      have hwhole : ∀ e' ∈ e :: es, ReadsWhole ops (Caller.compound [] []).stops e' :=
        fun e' he => readsWhole_argument fun hl => readsBehind (hreads e' he hl)
      obtain ⟨ts, t, s', hrun, -⟩ := run_separated (collects_compound f) e es hwhole []
        (operandFrame caller s :: below)
      rw [← Expr.separatedMarked_tokens] at hrun
      have hasks := asks_append (asks_separated (collects_compound f) e es
        (fun e' he => asksWhole_argument (ih e' he)) hwhole [] (operandFrame caller s :: below))
        hrun (asks_close (.punct ')'))
      obtain ⟨t', toks, htoks, ht'⟩ := argument_head (hreads e List.mem_cons_self)
      rw [Expr.separatedMarked, List.append_assoc] at hasks ⊢
      exact asks_firstArgument ht' htoks hasks
  | opInfix hop hstop hlimit hl hlp hr' hrp ihl ihr =>
    intro caller s below hc hr hs
    obtain ⟨s₁, hrun, hpush⟩ := readsBehind hl caller s below hc hr hs
    rw [← Expr.marked_tokens] at hrun
    refine asks_append (ihl caller s below hc hr hs) hrun
      (asks_cons (fun x hx => by cases hx; exact hpush.rmo)
        (step_behind below hpush hs (hc ▸ hstop) hop (.inl rfl) hlimit hlp) ?_)
    refine ihr caller _ below hc rfl fun op' ho => ?_
    cases ho
    exact Nat.le_refl _
  | opPrefix hop hstop hr' hrp ihr =>
    intro caller s below hc hr hs
    refine asks_step (step_prefixOp below hr (hc ▸ hstop) hop) (ihr caller _ below hc hr ?_)
    intro op' ho
    cases ho
    exact Nat.le_refl _
  | opPostfix hop hnone hstop hlimit hl hlp ihl =>
    intro caller s below hc hr hs
    obtain ⟨s₁, hrun, hpush⟩ := readsBehind hl caller s below hc hr hs
    rw [← Expr.marked_tokens] at hrun
    exact asks_append (ihl caller s below hc hr hs) hrun
      ⟨fun x hx => by cases hx; exact hpush.rmo, fun _ _ => trivial⟩

end ParseState

end Rolog
