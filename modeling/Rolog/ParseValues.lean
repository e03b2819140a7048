/-
  The parser neither loses nor makes a value: whatever an ASCII text without dicts and quasi
  quotations reads as, every variable, number and string token is in the term exactly as often as
  in the text (`read_values`). One step adds the values of its token to those of the terms made so
  far (`step_values`).
-/
import Mathlib.Algebra.Order.Group.Multiset
import Mathlib.Data.List.Chain
import Mathlib.Tactic.Abel
import Rolog.Operators

namespace Rolog

/-! ## Values -/

mutual

/-- The variables, numbers and strings of a term, as tokens. -/
def ReadTerm.values : ReadTerm → Multiset ReadToken
  | .variable v => {.variable v}
  | .void => {.void}
  | .number n => {.number n}
  | .str cs => {.str cs}
  | .codes cs => {.codes cs}
  | .nil | .atom _ => 0
  | .compound _ args => ReadTerm.valuesList args
termination_by structural t => t

def ReadTerm.valuesList : List ReadTerm → Multiset ReadToken
  | [] => 0
  | t :: ts => t.values + ReadTerm.valuesList ts
termination_by structural ts => ts

end

open ReadTerm

/-- The token, if it is a value. -/
def ReadToken.values (t : ReadToken) : Multiset ReadToken :=
  match t with
  | .variable _ | .void | .number _ | .str _ | .codes _ => {t}
  | _ => 0

@[simp] theorem valuesList_nil : valuesList [] = 0 := rfl

@[simp] theorem valuesList_cons (t : ReadTerm) (ts : List ReadTerm) :
    valuesList (t :: ts) = t.values + valuesList ts := rfl

@[simp] theorem valuesList_append (ts us : List ReadTerm) :
    valuesList (ts ++ us) = valuesList ts + valuesList us := by
  induction ts with
  | nil => simp
  | cons t ts ih => simp [ih, add_assoc]

@[simp] theorem valuesList_reverse (ts : List ReadTerm) :
    valuesList ts.reverse = valuesList ts := by
  induction ts with
  | nil => rfl
  | cons t ts ih => simp [ih, add_comm]

@[simp] theorem values_compound (f : List Nat) (args : List ReadTerm) :
    (ReadTerm.compound f args).values = valuesList args := rfl

@[simp] theorem values_readList (tail : ReadTerm) (ts : List ReadTerm) :
    (readList tail ts).values = valuesList ts + tail.values := by
  induction ts with
  | nil => simp [readList]
  | cons t ts ih => simp [readList, ih, add_assoc]

@[simp] theorem values_atomTerm (a : AtomName) : a.term.values = 0 := by
  cases a <;> rfl

/-! ## The terms of a state -/

/-- The terms in the two queues. -/
def OpQueues.terms (s : OpQueues) : List ReadTerm :=
  s.out.map Prod.snd ++ s.side.flatMap fun op => op.block.toList

def Caller.terms : Caller → List ReadTerm
  | .list elems | .listTail elems => elems
  | .compound _ args => args
  | .readTerm | .brace | .parentheses => []

def Frame.terms (f : Frame) : List ReadTerm := f.caller.terms ++ f.queues.terms

def Caller.Next.terms : Caller.Next → List ReadTerm
  | .finished t | .simple t => [t]
  | .again caller => caller.terms

/-- The terms that the parser has made so far. -/
def ParseState.terms : ParseState → List ReadTerm
  | .loop f below | .openCompound _ f below | .firstArgument _ f below =>
    f.terms ++ below.flatMap Frame.terms
  | .finished t => [t]

variable {ops : Operators}

theorem bind_eq_ok {ε α β : Type} {x : Except ε α} {f : α → Except ε β} {b : β} :
    (x >>= f) = .ok b ↔ ∃ a, x = .ok a ∧ f a = .ok b := by
  cases x with
  | error e => exact ⟨nofun, fun ⟨_, h, _⟩ => nomatch h⟩
  | ok a => exact ⟨fun h => ⟨a, rfl, h⟩, fun ⟨_, h, hb⟩ => by cases h; exact hb⟩

/-! ## What each part keeps -/

theorem buildOpTerm_values {op : OpEntry} {out : List OutEntry} (h : (op.allows out).isSome) :
    valuesList ((buildOpTerm op out).map Prod.snd) =
      valuesList (out.map Prod.snd) + valuesList op.block.toList := by
  unfold OpEntry.allows at h
  unfold buildOpTerm
  match hk : op.kind, out with
  | .opInfix, (_, b) :: (_, a) :: out =>
    simp [OpEntry.build]
    abel
  | .opPrefix, (_, a) :: out | .opPostfix, (_, a) :: out =>
    simp [OpEntry.build]
    abel
  | .opInfix, [] | .opInfix, [_] | .opPrefix, [] | .opPostfix, [] => simp [hk] at h

theorem reduce_values {cpri : Nat} {side side' : List OpEntry} {out out' : List OutEntry}
    (h : reduce cpri side out = .ok (side', out')) :
    valuesList (out'.map Prod.snd) + valuesList (side'.flatMap fun op => op.block.toList) =
      valuesList (out.map Prod.snd) + valuesList (side.flatMap fun op => op.block.toList) := by
  induction side generalizing out with
  | nil =>
    cases h
    rfl
  | cons op side ih =>
    unfold reduce at h
    split_ifs at h with hc
    · obtain ⟨b, hcan, h⟩ := bind_eq_ok.mp h
      cases b with
      | false =>
        cases h
        rfl
      | true =>
        have hallows : (op.allows out).isSome := by
          unfold canReduce at hcan
          cases ha : op.allows out with
          | some _ => rfl
          | none =>
            rw [ha] at hcan
            cases hcan
        rw [ih h, buildOpTerm_values hallows]
        simp
        abel
    · cases h
      rfl

theorem modify_values (cpri : Nat) (s : OpQueues) :
    valuesList (modify ops cpri s).terms = valuesList s.terms := by
  unfold modify
  match hs : s.side with
  | [] => rfl
  | op :: side =>
    dsimp only
    split_ifs with hc hp hi
    · have hno : op.block.toList = [] := by
        have hb := hp.2
        unfold OpEntry.isblock at hb
        match ho : op.block with
        | .no | .unread => rfl
        | .term _ =>
          rw [ho] at hb
          cases hb
      simp [OpQueues.terms, hs, hno]
    · cases ho : isOp ops op .opPostfix with
      | none => rfl
      | some op' =>
        obtain ⟨-, hblock, hkind, -⟩ := isOp_found ho
        have hallows : (op'.allows s.out).isSome := by
          unfold OpEntry.allows
          rw [hkind]
          match hout : s.out with
          | _ :: _ => rfl
          | [] => exact absurd hout hi.2
        simp [OpQueues.terms, hs, buildOpTerm_values hallows, hblock, add_assoc]
    · rfl
    · rfl

theorem finish_values {s : OpQueues} {t : ReadTerm} (h : finish ops s = .ok t) :
    t.values = valuesList s.terms := by
  obtain ⟨⟨side, out⟩, hreduce, h⟩ := bind_eq_ok.mp h
  have hvalues := reduce_values hreduce
  rw [← modify_values maxPri s]
  unfold OpQueues.terms
  rw [valuesList_append, ← hvalues]
  match side, out with
  | [], [(_, u)] =>
    cases h
    simp
  | [op], [] =>
    dsimp only at h
    match ho : op.block with
    | .no | .unread =>
      rw [ho] at h
      cases h
      simp [ho, OpBlock.toList]
    | .term u =>
      rw [ho] at h
      cases h
      simp [ho, OpBlock.toList]
  | [], [] | [], _ :: _ :: _ | [_], _ :: _ | _ :: _ :: _, _ => cases h

theorem resume_values {caller : Caller} {token : ReadToken} {t : ReadTerm} {next : Caller.Next}
    (h : caller.resume token t = .ok next) :
    valuesList next.terms = valuesList caller.terms + t.values := by
  cases caller with
  | readTerm | parentheses | brace =>
    cases h
    simp [Caller.Next.terms, Caller.terms]
  | list elems =>
    simp only [Caller.resume] at h
    split_ifs at h <;> cases h <;> simp [Caller.Next.terms, Caller.terms, ReadTerm.values, add_comm]
  | listTail elems =>
    simp only [Caller.resume] at h
    split_ifs at h
    cases h
    simp [Caller.Next.terms, Caller.terms]
  | compound f args =>
    simp only [Caller.resume] at h
    split_ifs at h <;> cases h <;> simp [Caller.Next.terms, Caller.terms, add_comm]

theorem receive_values (f : Frame) (t : ReadTerm) :
    valuesList (f.receive t).terms = valuesList f.terms + t.values := by
  unfold Frame.receive
  cases f.block with
  | none =>
    simp [Frame.terms, OpQueues.terms]
    abel
  | some op =>
    simp [Frame.terms, OpQueues.terms, OpBlock.toList]
    abel

namespace ParseState

/-- A frame that has got a term. -/
theorem loop_receive_values (f : Frame) (below : List Frame) (t : ReadTerm) :
    valuesList (loop (f.receive t) below).terms =
      valuesList (loop f below).terms + t.values := by
  simp only [terms, valuesList_append, receive_values]
  abel

theorem loop_call_values (f : Frame) (below : List Frame) {caller : Caller}
    (h : caller.terms = []) :
    valuesList (loop { caller } (f :: below)).terms = valuesList (loop f below).terms := by
  simp [terms, Frame.terms, OpQueues.terms, h]

theorem simpleTerm_values {f : Frame} {below : List Frame} {token : ReadToken} {s : ParseState}
    (h : simpleTerm f below token = .ok s) :
    valuesList s.terms = valuesList (loop f below).terms + token.values := by
  cases token with
  | fullstop | dict | vclassDict | voidDict => cases h
  | functor g =>
    cases h
    simp [terms, ReadToken.values]
  | punct c =>
    simp only [simpleTerm] at h
    split_ifs at h
    · cases h
      rw [loop_call_values f below rfl]
      simp [ReadToken.values]
    · cases h
      rw [loop_call_values f below rfl]
      simp [ReadToken.values]
    · cases h
      rw [loop_call_values f below rfl]
      simp [ReadToken.values]
    · cases h
      rw [loop_receive_values]
      rfl
  | name a =>
    cases h
    rw [loop_receive_values, values_atomTerm]
    rfl
  | _ =>
    cases h
    rw [loop_receive_values]
    rfl

theorem behindOperand_values {s s' : OpQueues} {e op : OpEntry} {kind : OpKind}
    (h : behindOperand ops s e kind = .ok (some (op, s'))) :
    op.block = e.block ∧ valuesList s'.terms = valuesList s.terms := by
  unfold behindOperand at h
  cases hop : isOp ops e kind with
  | none =>
    rw [hop] at h
    cases h
  | some op' =>
    rw [hop] at h
    dsimp only at h
    split_ifs at h
    · obtain ⟨⟨side, out⟩, hreduce, h⟩ := bind_eq_ok.mp h
      cases h
      refine ⟨(isOp_found hop).block, ?_⟩
      have hvalues := reduce_values hreduce
      rw [← modify_values op.leftPri s]
      unfold OpQueues.terms
      rw [valuesList_append, valuesList_append, hvalues]
    · cases h

theorem asOperator_values {s s' : OpQueues} {e op : OpEntry}
    (h : asOperator ops s e = .ok (some (op, s'))) :
    op.block = e.block ∧ valuesList s'.terms = valuesList s.terms := by
  unfold asOperator at h
  cases hop : (if s.rmo then none else isOp ops e .opPrefix) with
  | some op' =>
    rw [hop] at h
    cases h
    split_ifs at hop
    exact ⟨(isOp_found hop).block, rfl⟩
  | none =>
    rw [hop] at h
    obtain ⟨r, hr, h⟩ := bind_eq_ok.mp h
    cases r with
    | none => exact behindOperand_values h
    | some r =>
      cases h
      exact behindOperand_values hr

/-- The terms of a state with other queues. -/
theorem loop_queues_values (f : Frame) (below : List Frame) (s : OpQueues) (b : Option OpEntry) :
    valuesList (loop { f with queues := s, block := b } below).terms + valuesList f.queues.terms =
      valuesList (loop f below).terms + valuesList s.terms := by
  simp only [terms, Frame.terms, valuesList_append]
  abel

theorem pushOp_values {f : Frame} {below : List Frame} {token : ReadToken} {op : OpEntry}
    {s : OpQueues} {s' : ParseState} (hb : op.block = (nameToken' token).block)
    (hname : isNameToken ops f.queues.rmo token = .ok true)
    (hs : valuesList s.terms = valuesList f.queues.terms)
    (h : pushOp f below token op s = .ok s') :
    valuesList s'.terms = valuesList (loop f below).terms + token.values := by
  have hsame (b : Option OpEntry) :
      valuesList (loop { f with queues := s, block := b } below).terms =
        valuesList (loop f below).terms := by
    have hq := loop_queues_values f below s b
    rw [hs] at hq
    exact add_right_cancel hq
  unfold pushOp at h
  split_ifs at h with hblock
  · rw [simpleTerm_values h, hsame]
  · cases h
    have hno : op.block.toList = [] := by
      unfold OpEntry.isblock at hblock
      match ho : op.block with
      | .no | .unread => rfl
      | .term t =>
        rw [ho] at hblock
        exact absurd rfl hblock
    have hvalue : token.values = 0 := by
      cases token with
      | «variable» | void | number | str | codes => cases hname
      | _ => rfl
    rw [hvalue, ← hsame f.block]
    simp [terms, Frame.terms, OpQueues.terms, hno]

theorem complexTerm_values {f : Frame} {below : List Frame} {token : ReadToken} {s : ParseState}
    (h : complexTerm ops f below token = .ok s) :
    valuesList s.terms = valuesList (loop f below).terms + token.values := by
  obtain ⟨r, hr, h⟩ := bind_eq_ok.mp h
  cases r with
  | none =>
    dsimp only at h
    split_ifs at h
    exact simpleTerm_values h
  | some r =>
    obtain ⟨b, hb, hr⟩ := bind_eq_ok.mp hr
    cases b with
    | false => cases hr
    | true =>
      obtain ⟨hblock, hvalues⟩ := asOperator_values hr
      exact pushOp_values hblock hb hvalues h

/-- A token that ends a term is no value. -/
theorem values_of_stops {caller : Caller} {token : ReadToken} (h : caller.stops token = true) :
    token.values = 0 := by
  cases token with
  | «variable» | void | number | str | codes => cases caller <;> cases h
  | _ => rfl

theorem loopStep_values {f : Frame} {below : List Frame} {token : ReadToken} {s : ParseState}
    (h : loopStep ops f below token = .ok s) :
    valuesList s.terms = valuesList (loop f below).terms + token.values := by
  unfold loopStep at h
  split_ifs at h with hc
  · obtain ⟨t, ht, h⟩ := bind_eq_ok.mp h
    obtain ⟨next, hnext, h⟩ := bind_eq_ok.mp h
    have hvalues := resume_values hnext
    rw [finish_values ht] at hvalues
    rw [values_of_stops hc.2]
    have hloop : valuesList (loop f below).terms =
        valuesList next.terms + valuesList (below.flatMap Frame.terms) := by
      rw [hvalues]
      simp [terms, Frame.terms, add_assoc]
    rw [hloop]
    match next, below with
    | .finished t, [] =>
      cases h
      simp [terms, Caller.Next.terms]
    | .again caller, below =>
      cases h
      simp [terms, Frame.terms, OpQueues.terms, Caller.Next.terms]
    | .simple t, g :: below =>
      cases h
      rw [loop_receive_values]
      simp [terms, Caller.Next.terms]
      abel
    | .finished _, _ :: _ | .simple _, [] => cases h
  · exact complexTerm_values h

/-- In front of a parenthesis the token is not looked at. -/
def unread (s : ParseState) (token : ReadToken) : Multiset ReadToken :=
  match s with
  | openCompound _ _ _ => token.values
  | _ => 0

theorem step_values {s s' : ParseState} {token : ReadToken} (h : step ops s token = .ok s') :
    valuesList s'.terms + s.unread token = valuesList s.terms + token.values := by
  cases s with
  | loop f below =>
    rw [loopStep_values h]
    exact add_zero _
  | openCompound g f below =>
    cases h
    rfl
  | firstArgument g f below =>
    show valuesList s'.terms + 0 = valuesList (loop f below).terms + token.values
    rw [add_zero]
    simp only [step] at h
    split_ifs at h with ht
    · cases h
      rw [loop_receive_values, ht]
      rfl
    · rw [loopStep_values h, loop_call_values f below rfl]
  | finished t => cases h

/-- No value is made. -/
theorem run_values_le {s s' : ParseState} {toks : List ReadToken} (h : s.run ops toks = .ok s') :
    valuesList s'.terms ≤ valuesList s.terms + (toks.map ReadToken.values).sum := by
  induction toks generalizing s with
  | nil =>
    cases h
    simp
  | cons token toks ih =>
    rw [run_cons] at h
    obtain ⟨s₁, h₁, h⟩ := bind_eq_ok.mp h
    calc valuesList s'.terms ≤ valuesList s₁.terms + (toks.map ReadToken.values).sum := ih h
      _ ≤ valuesList s₁.terms + s.unread token + (toks.map ReadToken.values).sum :=
        add_le_add_left (le_add_of_nonneg_right (Multiset.zero_le _)) _
      _ = valuesList s.terms + ((token :: toks).map ReadToken.values).sum := by
        rw [step_values h₁, List.map_cons, List.sum_cons, add_assoc]

/-- `read_compound` is about to read the parenthesis. -/
def isOpening : ParseState → Bool
  | openCompound _ _ _ => true
  | _ => false

theorem simpleTerm_isOpening {f : Frame} {below : List Frame} {token : ReadToken} {s : ParseState}
    (h : simpleTerm f below token = .ok s) (ho : s.isOpening = true) :
    ∃ g, token = .functor g := by
  cases token with
  | functor g => exact ⟨g, rfl⟩
  | punct c =>
    simp only [simpleTerm] at h
    split_ifs at h <;> cases h <;> cases ho
  | fullstop | dict | vclassDict | voidDict => cases h
  | _ =>
    cases h
    cases ho

theorem loopStep_isOpening {f : Frame} {below : List Frame} {token : ReadToken} {s : ParseState}
    (h : loopStep ops f below token = .ok s) (ho : s.isOpening = true) :
    ∃ g, token = .functor g := by
  unfold loopStep at h
  split_ifs at h
  · obtain ⟨t, ht, h⟩ := bind_eq_ok.mp h
    obtain ⟨next, hnext, h⟩ := bind_eq_ok.mp h
    match next, below with
    | .finished _, [] | .again _, _ | .simple _, _ :: _ =>
      cases h
      cases ho
    | .finished _, _ :: _ | .simple _, [] => cases h
  · obtain ⟨r, -, h⟩ := bind_eq_ok.mp h
    match r with
    | none =>
      dsimp only at h
      split_ifs at h
      exact simpleTerm_isOpening h ho
    | some (op, s') =>
      unfold pushOp at h
      dsimp only at h
      split_ifs at h
      · exact simpleTerm_isOpening h ho
      · cases h
        cases ho

theorem step_isOpening {s s' : ParseState} {token : ReadToken} (h : step ops s token = .ok s')
    (ho : s'.isOpening = true) : ∃ g, token = .functor g := by
  cases s with
  | loop f below => exact loopStep_isOpening h ho
  | openCompound g f below =>
    cases h
    cases ho
  | firstArgument g f below =>
    simp only [step] at h
    split_ifs at h
    · cases h
      cases ho
    · exact loopStep_isOpening h ho
  | finished t => cases h

/-- As `get_token` makes them, a functor stands in front of a parenthesis. -/
def Opens (toks : List ReadToken) : Prop :=
  toks.IsChain fun t t' => ∀ g, t = .functor g → t' = .punct '('

/-- What every step keeps of the state and the tokens read holds behind a run. -/
theorem run_keeps {P : ParseState → List ReadToken → Prop}
    (hstep : ∀ s s' token toks, P s toks → (s.isOpening = true → token = .punct '(') →
      step ops s token = .ok s' → P s' (toks ++ [token]))
    {s s' : ParseState} {prior toks : List ReadToken} (hopens : Opens toks)
    (hs : s.isOpening = true → ∀ t ∈ toks.head?, t = .punct '(') (hP : P s prior)
    (h : s.run ops toks = .ok s') : P s' (prior ++ toks) := by
  induction toks generalizing s prior with
  | nil =>
    cases h
    rwa [List.append_nil]
  | cons token toks ih =>
    rw [run_cons] at h
    obtain ⟨s₁, h₁, h⟩ := bind_eq_ok.mp h
    have hhead : s₁.isOpening = true → ∀ t ∈ toks.head?, t = .punct '(' := by
      intro ho t ht
      obtain ⟨g, rfl⟩ := step_isOpening h₁ ho
      obtain ⟨toks', rfl⟩ : ∃ toks', toks = t :: toks' := by
        cases toks with
        | nil => cases ht
        | cons u toks' =>
          cases ht
          exact ⟨toks', rfl⟩
      exact (List.isChain_cons_cons.mp hopens).1 g rfl
    have hkeep := hstep s s₁ token prior hP (fun ho => hs ho token rfl) h₁
    have hrest := ih hopens.of_cons hhead hkeep h
    rwa [List.append_assoc] at hrest

theorem run_values {s s' : ParseState} {toks : List ReadToken} (hopens : Opens toks)
    (hs : s.isOpening = true → ∀ t ∈ toks.head?, t = .punct '(') (h : s.run ops toks = .ok s') :
    valuesList s'.terms = valuesList s.terms + (toks.map ReadToken.values).sum := by
  have hstart : valuesList s.terms =
      valuesList s.terms + (([] : List ReadToken).map ReadToken.values).sum := (add_zero _).symm
  refine run_keeps (P := fun s' prior =>
      valuesList s'.terms = valuesList s.terms + (prior.map ReadToken.values).sum)
    (fun s₁ s₂ token prior hP hopen hstep => ?_) hopens hs hstart h
  have hread : s₁.unread token = 0 := by
    cases s₁ with
    | openCompound g f below =>
      obtain rfl := hopen rfl
      rfl
    | _ => rfl
  have hvalues := step_values hstep
  rw [hread, add_zero] at hvalues
  rw [hvalues, hP]
  simp [add_assoc]

end ParseState

theorem values_start : valuesList ParseState.start.terms = 0 := rfl

theorem values_finished (t : ReadTerm) : valuesList (ParseState.finished t).terms = t.values :=
  add_zero _

theorem parse_values {toks : List ReadToken} {t : ReadTerm} (hopens : ParseState.Opens toks)
    (h : parse ops toks = .ok t) : t.values = (toks.map ReadToken.values).sum := by
  obtain ⟨s, hrun, h⟩ := bind_eq_ok.mp h
  have hvalues := ParseState.run_values hopens (fun ho => by cases ho) hrun
  match s with
  | .finished _ =>
    cases h
    rwa [values_start, zero_add, values_finished] at hvalues
  | .loop _ _ | .openCompound _ _ _ | .firstArgument _ _ _ => cases h

/-! ## The tokens of a text -/

namespace Grammar

variable {g : Grammar} {s rest : Text} {f : List Nat}

theorem nameToken_functor (kind : List Nat → ReadToken) (hkind : ∀ a, kind a ≠ .functor f)
    {a : List Nat} (h : nameToken kind a rest = .functor f) : rest.head? = some '(' := by
  unfold nameToken at h
  split_ifs at h with hopen
  · exact hopen
  · exact absurd h (hkind a)

theorem numberToken_functor (h : g.numberToken s = some (.functor f, rest)) : False := by
  obtain ⟨⟨n, r⟩, -, h⟩ := Option.map_eq_some_iff.mp h
  cases h

theorem symbolToken_functor {b : Bool} {c : Char}
    (h : g.symbolToken b c s = some (.functor f, rest)) : rest.head? = some '(' := by
  unfold symbolToken at h
  dsimp only at h
  split_ifs at h
  · exact (numberToken_functor h).elim
  · cases h
  · obtain ⟨hname, rfl⟩ := Prod.mk.inj (Option.some.inj h)
    exact nameToken_functor .name (fun _ => nofun) hname

theorem punctToken_functor {c : Char} (h : punctToken c s = some (.functor f, rest)) :
    rest.head? = some '(' := by
  unfold punctToken at h
  split_ifs at h
  · unfold openToken at h
    cases hd : s.dropWhile isBlank with
    | nil =>
      rw [hd] at h
      cases h
    | cons d r =>
      rw [hd] at h
      dsimp only at h
      split_ifs at h with hmatch hopen
      · obtain ⟨-, rfl⟩ := Prod.mk.inj (Option.some.inj h)
        exact hopen
      all_goals cases h
  · cases h

theorem quoted_functor {c : Char} (kind : List Nat → Text → ReadToken)
    (hkind : ∀ a r, kind a r = .functor f → r.head? = some '(')
    (h : (getString c .text s).map (fun (a, r) => (kind a r, r)) = some (.functor f, rest)) :
    rest.head? = some '(' := by
  obtain ⟨⟨a, r⟩, -, h⟩ := Option.map_eq_some_iff.mp h
  obtain ⟨ha, rfl⟩ := Prod.mk.inj h
  exact hkind a r ha

/-- Behind a functor there is a parenthesis. -/
theorem getToken_functor {b : Bool} (h : g.getToken b s = some (.functor f, rest)) :
    rest.head? = some '(' := by
  unfold getToken at h
  match hs : s.dropWhile isBlank with
  | [] =>
    rw [hs] at h
    cases h
  | c :: u =>
    rw [hs] at h
    dsimp only at h
    cases hc : charType c with
    | ct | sp =>
      rw [hc] at h
      cases h
    | di =>
      rw [hc] at h
      exact (numberToken_functor h).elim
    | sy =>
      rw [hc] at h
      exact symbolToken_functor h
    | pu =>
      rw [hc] at h
      exact punctToken_functor h
    | so =>
      rw [hc] at h
      dsimp only at h
      split_ifs at h with hopen
      · obtain ⟨-, rfl⟩ := Prod.mk.inj (Option.some.inj h)
        exact hopen
      · cases h
    | lc =>
      rw [hc] at h
      obtain ⟨hname, rfl⟩ := Prod.mk.inj (Option.some.inj h)
      exact nameToken_functor .name (fun _ => nofun) hname
    | uc =>
      rw [hc] at h
      obtain ⟨hvar, rfl⟩ := Prod.mk.inj (Option.some.inj h)
      unfold varToken at hvar
      split_ifs at hvar
    | sq =>
      rw [hc] at h
      exact quoted_functor (nameToken .qname)
        (fun a r hname => nameToken_functor .qname (fun _ => nofun) hname) h
    | dq =>
      rw [hc] at h
      exact quoted_functor (fun a _ => .str a) (fun _ _ => nofun) h
    | bq =>
      rw [hc] at h
      exact quoted_functor (fun a _ => .codes a) (fun _ _ => nofun) h

/-- The first token of a text that begins with a parenthesis. -/
theorem tokens_open {n : Nat} {prior toks : List ReadToken} (hs : s.head? = some '(')
    (h : g.tokens n prior s = some toks) : ∀ t ∈ toks.head?, t = .punct '(' := by
  obtain ⟨s, rfl⟩ : ∃ u, s = '(' :: u := by
    cases s with
    | nil => cases hs
    | cons c u =>
      cases hs
      exact ⟨u, rfl⟩
  cases n with
  | zero => cases h
  | succ n =>
    have hopen : g.getToken (g.mustBeOp prior) ('(' :: s) = some (.punct '(', s) := rfl
    rw [tokens_succ rfl hopen, if_neg (by simp)] at h
    obtain ⟨toks', -, rfl⟩ := Option.map_eq_some_iff.mp h
    intro t ht
    cases ht
    rfl

/-- A functor stands in front of a parenthesis. -/
theorem tokens_opens {n : Nat} {prior toks : List ReadToken} (h : g.tokens n prior s = some toks) :
    ParseState.Opens toks := by
  induction n generalizing prior s toks with
  | zero => cases h
  | succ n ih =>
    match ht : g.getToken (g.mustBeOp prior) s with
    | none =>
      rw [tokens_of_none ht] at h
      cases h
    | some (t, rest) =>
      rw [tokens_succ rfl ht] at h
      split_ifs at h with hstop
      · cases h
        exact .singleton t
      · obtain ⟨toks', hrest, rfl⟩ := Option.map_eq_some_iff.mp h
        refine List.isChain_cons.mpr ⟨fun t' ht' f hf => ?_, ih hrest⟩
        rw [hf] at ht
        exact tokens_open (getToken_functor ht) hrest t' ht'

end Grammar

/-- Whatever an ASCII text without dicts and quasi quotations reads as, its variables, numbers and
strings are those of the tokens, each exactly as often. -/
theorem read_values {g : Grammar} {raw : Text} {toks : List ReadToken} {t : ReadTerm}
    (htoks : g.tokens raw.length [] raw = some toks) (h : parse ops toks = .ok t) :
    t.values = (toks.map ReadToken.values).sum :=
  parse_values (Grammar.tokens_opens htoks) h

/-- `f("a", 1 + X)` -/
def sumTokens : List ReadToken :=
  [.functor (wideChars ['f']), .punct '(', .str (wideChars ['a']), .punct ',', .number ['1'],
    .name (wideChars ['+']), .variable ['X'], .punct ')', .fullstop]

def sumTerm : ReadTerm :=
  .compound (wideChars ['f']) [.str (wideChars ['a']),
    .compound (wideChars ['+']) [.number ['1'], .variable ['X']]]

theorem read_values_sum : sumTerm.values = (sumTokens.map ReadToken.values).sum := by
  have htoks : systemGrammar.tokens "f(\"a\", 1 + X) . ".toList.length []
      "f(\"a\", 1 + X) . ".toList = some sumTokens := rfl
  have hparse : parse systemOperators sumTokens = .ok sumTerm := rfl
  exact read_values htoks hparse

end Rolog
