/-
  What the parser accepts of ASCII texts without dicts and quasi quotations is well formed.
  `Derives` is the grammar of terms with operators: brackets and commas stand where they belong,
  every operator is one of the table, every operand has a priority that its operator takes, and
  the tokens stand in the order of the term. Without postfix operators the parser accepts only what
  this grammar derives (`read_derives`).

  The queues hold what is derived so far, in the order of the tokens (`Spells`), and one step
  extends it by its token (`derived_step`).
-/
import Rolog.RegularOperators

namespace Rolog

/-! ## The grammar -/

/-- The term of a token that stands for itself. -/
def ReadToken.simple : ReadToken → Option ReadTerm
  | .variable v => some (.variable v)
  | .void => some .void
  | .number n => some (.number n)
  | .str cs => some (.str cs)
  | .codes cs => some (.codes cs)
  | .name a => some (AtomName.ofName a).term
  | .qname a => some (.atom a)
  | .punct c =>
    if ['(', ')', '[', ']', '\x7b', '\x7d', '|'].contains c then none else some (.atom [c.toNat])
  | _ => none

section

variable (ops : Operators)

mutual

/-- The tokens are a term of some priority, and no infix operator in it is a token of `stop`. -/
inductive Derives : (ReadToken → Bool) → List ReadToken → Nat → ReadTerm → Prop where
  | simple {stop token t} : token.simple = some t → Derives stop [token] 0 t
  | parentheses {stop toks p t} : Derives Caller.parentheses.stops toks p t →
    Derives stop (.punct '(' :: (toks ++ [.punct ')'])) 0 t
  | brace {stop toks p t} : Derives Caller.brace.stops toks p t →
    Derives stop (.punct '\x7b' :: (toks ++ [.punct '\x7d'])) 0 (.compound curl [t])
  | list {stop toks ts} : Separated (Caller.list []).stops toks ts →
    Derives stop (.punct '[' :: (toks ++ [.punct ']'])) 0 (readList .nil ts)
  | listTail {stop toks ts toks' p t} : Separated (Caller.list []).stops toks ts →
    Derives (Caller.listTail []).stops toks' p t →
    Derives stop (.punct '[' :: (toks ++ .punct '|' :: (toks' ++ [.punct ']']))) 0 (readList t ts)
  | thunk {stop f} : Derives stop [.functor f, .punct '(', .punct ')'] 0 (.compound f [])
  | compound {stop f toks ts} : Separated (Caller.compound [] []).stops toks ts →
    Derives stop (.functor f :: .punct '(' :: (toks ++ [.punct ')'])) 0 (.compound f ts)
  | opPrefix {stop toks toks' op p t} : Operator stop .opPrefix toks op →
    Derives stop toks' p t → p ≤ op.rightPri → Derives stop (toks ++ toks') op.opPri (op.build [t])
  | opInfix {stop toks toks' toks'' op p q l r} : Derives stop toks p l → p ≤ op.leftPri →
    Operator stop .opInfix toks' op → Derives stop toks'' q r → q ≤ op.rightPri →
    Derives stop (toks ++ toks' ++ toks'') op.opPri (op.build [l, r])

/-- The tokens are terms with commas in between. -/
inductive Separated : (ReadToken → Bool) → List ReadToken → List ReadTerm → Prop where
  | one {stop toks p t} : Derives stop toks p t → Separated stop toks [t]
  | more {stop toks ts toks' p t} : Separated stop toks ts → Derives stop toks' p t →
    Separated stop (toks ++ .punct ',' :: toks') (ts ++ [t])

/-- The tokens are an operator: a name, or a block with its term. -/
inductive Operator : (ReadToken → Bool) → OpKind → List ReadToken → OpEntry → Prop where
  | token {stop kind token op} : isNameToken ops (kind ≠ .opPrefix) token = .ok true →
    isOp ops (nameToken' token) kind = some op → op.block = .no →
    (kind = .opInfix → stop token = false) → Operator stop kind [token] op
  | block {stop kind c toks op t} : c = '[' ∨ c = '\x7b' →
    isOp ops (nameToken' (.punct c)) kind = some op → Derives stop (.punct c :: toks) 0 t →
    Operator stop kind (.punct c :: toks) { op with block := .term t }

end

/-! ## The queues -/

/-- The queues hold these tokens: operands and operators in turn, prefix operators aside. -/
inductive Spells (stop : ReadToken → Bool) : List ReadToken → OpQueues → Prop where
  | nil : Spells stop [] {}
  | operand {toks out side toks' p t} : Spells stop toks ⟨out, side, false⟩ →
    Derives ops stop toks' p t → Spells stop (toks ++ toks') ⟨(p, t) :: out, side, true⟩
  | opPrefix {toks out side toks' op} : Spells stop toks ⟨out, side, false⟩ →
    Operator ops stop .opPrefix toks' op → Spells stop (toks ++ toks') ⟨out, op :: side, false⟩
  | opInfix {toks out side toks' op} : Spells stop toks ⟨out, side, true⟩ →
    Operator ops stop .opInfix toks' op → Spells stop (toks ++ toks') ⟨out, op :: side, false⟩

/-- The queues hold these tokens and wait for an operator of this kind. -/
def Awaits (stop : ReadToken → Bool) (toks : List ReadToken) (s : OpQueues) : OpKind → Prop
  | .opPrefix => s.rmo = false ∧ Spells ops stop toks s
  | .opInfix => s.rmo = false ∧ Spells ops stop toks { s with rmo := true }
  | .opPostfix => False

end

variable {ops : Operators} {stop : ReadToken → Bool}

theorem Operator.kind_eq {kind : OpKind} {toks : List ReadToken} {op : OpEntry}
    (h : Operator ops stop kind toks op) : op.kind = kind := by
  cases h with
  | token _ hop _ _ => exact (isOp_found hop).kind
  | block _ hop _ => exact (isOp_found hop).kind

theorem isNameToken_true {b : Bool} {token : ReadToken} (h : isNameToken ops b token = .ok true) :
    isNameToken ops true token = .ok true := by
  cases b with
  | true => exact h
  | false =>
    cases token with
    | functor | dict => rfl
    | punct c =>
      simp only [isNameToken] at h ⊢
      split_ifs at h ⊢ <;> simp_all
    | _ => exact h

/-- A character that begins and ends nothing is an atom. -/
theorem simple_punct {b : Bool} {c : Char} (h : isNameToken ops false (.punct c) = .ok b)
    (hparen : c ≠ '(') (hbracket : c ≠ '[') (hbrace : c ≠ '\x7b') :
    (ReadToken.punct c).simple = some (.atom [c.toNat]) := by
  simp only [isNameToken, if_neg hparen, if_neg (not_or.mpr ⟨hbracket, hbrace⟩)] at h
  split_ifs at h with hclose hbar
  obtain ⟨h₁, h₂, h₃⟩ : c ≠ ')' ∧ c ≠ '\x7d' ∧ c ≠ ']' := by simpa using hclose
  have hbar' : c ≠ '|' := fun he => hbar ⟨he, trivial⟩
  have hno : ['(', ')', '[', ']', '\x7b', '\x7d', '|'].contains c = false := by
    simp [hparen, h₁, hbracket, h₃, hbrace, h₂, hbar']
  unfold ReadToken.simple
  simp only [hno]
  rfl

theorem nameToken_punct {c : Char} (hbracket : c ≠ '[') (hbrace : c ≠ '\x7b') :
    nameToken' (.punct c) = { atom := .text [c.toNat] } := by
  simp only [nameToken', if_neg hbracket, if_neg hbrace]

theorem nameToken_block (token : ReadToken) : (nameToken' token).block = .no ∨
    (nameToken' token).block = .unread ∧ ∃ c, (c = '[' ∨ c = '\x7b') ∧ token = .punct c := by
  cases token with
  | punct c =>
    by_cases hc : c = '[' ∨ c = '\x7b'
    · exact .inr ⟨by rcases hc with rfl | rfl <;> rfl, c, hc, rfl⟩
    · rw [not_or] at hc
      rw [nameToken_punct hc.1 hc.2]
      exact .inl rfl
  | _ => exact .inl rfl

/-- A name that is a prefix operator is also an atom. -/
theorem Operator.simple {toks : List ReadToken} {op : OpEntry}
    (h : Operator ops stop .opPrefix toks op) (hb : op.isblock = false) :
    ∃ token, toks = [token] ∧ token.simple = some op.atom.term := by
  cases h with
  | block _ _ _ => cases hb
  | @token _ _ token _ hname hop hblock _ =>
    refine ⟨token, rfl, ?_⟩
    have hfound := isOp_found hop
    rw [hfound.atom]
    rw [hfound.block] at hblock
    cases token with
    | punct c =>
      have hparen : c ≠ '(' := by
        rintro rfl
        cases hname
      have hbracket : c ≠ '[' := by
        rintro rfl
        cases hblock
      have hbrace : c ≠ '\x7b' := by
        rintro rfl
        cases hblock
      rw [simple_punct hname hparen hbracket hbrace, nameToken_punct hbracket hbrace]
      rfl
    | name a => rfl
    | qname a => rfl
    | _ => cases hname

theorem allows_of_canReduce {op : OpEntry} {cpri : Nat} {out : List OutEntry}
    (h : canReduce op cpri out = .ok true) : op.allows out = some true := by
  unfold canReduce at h
  cases ha : op.allows out with
  | none =>
    rw [ha] at h
    cases h
  | some b =>
    cases b with
    | true => rfl
    | false =>
      simp only [ha] at h
      split_ifs at h
      cases h

/-- The infix operators. -/
def infixes (side : List OpEntry) : Nat := side.countP fun op => op.kind = .opInfix

theorem length_buildOpTerm {op : OpEntry} {out : List OutEntry} (h : op.allows out = some true) :
    (buildOpTerm op out).length + infixes [op] = out.length ∧ buildOpTerm op out ≠ [] := by
  unfold OpEntry.allows at h
  unfold buildOpTerm infixes
  match hk : op.kind, out with
  | .opInfix, (_, b) :: (_, a) :: out => simp [hk]
  | .opPrefix, (_, a) :: out | .opPostfix, (_, a) :: out => simp [hk]
  | .opInfix, [] | .opInfix, [_] | .opPrefix, [] | .opPostfix, [] => simp [hk] at h

/-- An infix operator takes one operand away, and some operand stays. -/
theorem length_reduce {cpri : Nat} {side side' : List OpEntry} {out out' : List OutEntry}
    (h : reduce cpri side out = .ok (side', out')) :
    out'.length + infixes side = out.length + infixes side' ∧
      (out' = [] → out = [] ∧ side' = side) := by
  induction side generalizing out with
  | nil =>
    cases h
    exact ⟨rfl, fun h => ⟨h, rfl⟩⟩
  | cons op side ih =>
    unfold reduce at h
    split_ifs at h with hc
    · obtain ⟨b, hcan, h⟩ := bind_eq_ok.mp h
      cases b with
      | false =>
        cases h
        exact ⟨rfl, fun h => ⟨h, rfl⟩⟩
      | true =>
        obtain ⟨hlen, hne⟩ := length_buildOpTerm (allows_of_canReduce hcan)
        obtain ⟨ihlen, ihne⟩ := ih h
        have hcons : infixes ([op] ++ side) = infixes [op] + infixes side := List.countP_append
        rw [List.singleton_append] at hcons
        exact ⟨by omega, fun h => absurd (ihne h).1 hne⟩
    · cases h
      exact ⟨rfl, fun h => ⟨h, rfl⟩⟩

namespace Spells

variable {toks : List ReadToken}

theorem out_ne_nil {out : List OutEntry} {side : List OpEntry}
    (h : Spells ops stop toks ⟨out, side, true⟩) : out ≠ [] := by
  cases h with
  | operand _ _ => exact List.cons_ne_nil _ _

/-- The last operator gets its operands. -/
theorem build {out : List OutEntry} {op : OpEntry} {side : List OpEntry}
    (h : Spells ops stop toks ⟨out, op :: side, true⟩) (ha : op.allows out = some true) :
    Spells ops stop toks ⟨buildOpTerm op out, side, true⟩ := by
  cases h with
  | @operand toks₀ out₀ _ toks' p t h hd =>
    cases h with
    | @opPrefix toks₁ _ _ toks₂ _ h hop =>
      have hk := hop.kind_eq
      unfold OpEntry.allows at ha
      unfold buildOpTerm
      simp only [hk] at ha ⊢
      have hp : p ≤ op.rightPri := of_decide_eq_true (Option.some.inj ha)
      rw [List.append_assoc]
      exact h.operand (.opPrefix hop hd hp)
    | @opInfix toks₁ _ _ toks₂ _ h hop =>
      have hk := hop.kind_eq
      cases h with
      | @operand toks₃ out₁ _ toks₄ q l h hl =>
        unfold OpEntry.allows at ha
        unfold buildOpTerm
        simp only [hk] at ha ⊢
        obtain ⟨hq, hp⟩ : q ≤ op.leftPri ∧ p ≤ op.rightPri := by simpa using ha
        have hall := h.operand (.opInfix hl hq hop hd hp)
        rwa [← List.append_assoc, ← List.append_assoc] at hall

theorem reduce {cpri : Nat} {side side' : List OpEntry} {out out' : List OutEntry}
    (h : Spells ops stop toks ⟨out, side, true⟩)
    (hr : Rolog.reduce cpri side out = .ok (side', out')) :
    Spells ops stop toks ⟨out', side', true⟩ := by
  induction side generalizing out with
  | nil =>
    cases hr
    exact h
  | cons op side ih =>
    unfold Rolog.reduce at hr
    split_ifs at hr with hc
    · obtain ⟨b, hcan, hr⟩ := bind_eq_ok.mp hr
      cases b with
      | false =>
        cases hr
        exact h
      | true => exact ih (h.build (allows_of_canReduce hcan)) hr
    · cases hr
      exact h

/-- Without postfix operators only a prefix operator can become an operand. -/
theorem modify (hpost : ∀ a, ops.current .opPostfix a = none) {s : OpQueues}
    (h : Spells ops stop toks s) (cpri : Nat) :
    Spells ops stop toks (Rolog.modify ops cpri s) := by
  obtain ⟨out, side, rmo⟩ := s
  cases side with
  | nil => exact h
  | cons op side =>
    unfold Rolog.modify
    dsimp only
    split_ifs with hc hp hi
    · obtain rfl : rmo = false := hc.1
      cases h with
      | @opPrefix toks₀ _ _ toks' _ h hop =>
        obtain ⟨token, rfl, ht⟩ := hop.simple hp.2
        exact h.operand (.simple ht)
      | opInfix _ hop => rw [hop.kind_eq] at hp; cases hp.1
    · rw [isOp_none (hpost op.atom)]
      exact h
    · exact h
    · exact h

theorem length {s : OpQueues} (h : Spells ops stop toks s) :
    s.out.length = infixes s.side + s.rmo.toNat := by
  induction h with
  | nil => rfl
  | operand _ _ ih => simpa using ih
  | opPrefix _ hop ih => simpa [infixes, hop.kind_eq] using ih
  | opInfix _ hop ih => simpa [infixes, hop.kind_eq] using ih

/-- The whole of a term. -/
theorem finish (hpost : ∀ a, ops.current .opPostfix a = none) {s : OpQueues} {t : ReadTerm}
    (h : Spells ops stop toks s) (hf : Rolog.finish ops s = .ok t) :
    ∃ p, Derives ops stop toks p t := by
  obtain ⟨⟨side', out'⟩, hr, hf⟩ := bind_eq_ok.mp hf
  replace h := h.modify hpost maxPri
  generalize Rolog.modify ops maxPri s = s at h hr
  obtain ⟨out, side, rmo⟩ := s
  cases rmo with
  | true =>
    replace h := h.reduce hr
    match side', out' with
    | [], [(p, u)] =>
      cases hf
      cases h with
      | operand h hd =>
        cases h
        exact ⟨p, hd⟩
    | [op], [] => exact absurd rfl h.out_ne_nil
    | [], [] | [], _ :: _ :: _ | [_], _ :: _ | _ :: _ :: _, _ => cases hf
  | false =>
    obtain ⟨hlen, hne⟩ := length_reduce hr
    have hcount : out.length = infixes side := h.length
    match side', out' with
    | [], [(p, u)] =>
      -- the last infix operator has no right operand
      have hone : 1 + infixes side = out.length + 0 := hlen
      omega
    | [op], [] =>
      obtain ⟨rfl, rfl⟩ := hne rfl
      cases h with
      | opPrefix h hop =>
        cases h
        cases hop with
        | @token _ _ token _ hname hop hblock hstop =>
          have hno : op.isblock = false := by
            unfold OpEntry.isblock
            rw [hblock]
          obtain ⟨token', htoks, ht⟩ := (Operator.token hname hop hblock hstop).simple hno
          cases htoks
          simp only [hblock] at hf
          cases hf
          exact ⟨0, .simple ht⟩
        | block _ _ hd =>
          cases hf
          exact ⟨0, hd⟩
      | opInfix h _ => exact absurd rfl h.out_ne_nil
    | [], [] | [], _ :: _ :: _ | [_], _ :: _ | _ :: _ :: _, _ => cases hf

/-- The queues in front of an infix operator. -/
theorem behindOperand (hpost : ∀ a, ops.current .opPostfix a = none) {s s' : OpQueues}
    {e op : OpEntry} (h : Spells ops stop toks s)
    (hb : ParseState.behindOperand ops s e .opInfix = .ok (some (op, s'))) :
    isOp ops e .opInfix = some op ∧ Awaits ops stop toks s' .opInfix ∧
      (s.out ≠ [] ∨ s.side ≠ []) := by
  unfold ParseState.behindOperand at hb
  cases hop : isOp ops e .opInfix with
  | none =>
    rw [hop] at hb
    cases hb
  | some op' =>
    rw [hop] at hb
    dsimp only at hb
    split_ifs at hb with hrmo
    · obtain ⟨⟨side', out'⟩, hr, hb⟩ := bind_eq_ok.mp hb
      cases hb
      have hm := h.modify hpost op.leftPri
      refine ⟨rfl, ⟨rfl, ?_⟩, ?_⟩
      · refine Spells.reduce ?_ hr
        rw [← hrmo]
        exact hm
      · obtain ⟨out, side, rmo⟩ := s
        cases side with
        | cons op side => exact .inr (List.cons_ne_nil _ _)
        | nil =>
          obtain rfl : rmo = true := hrmo
          exact .inl h.out_ne_nil
    · cases hb

theorem behindOperand_none (hpost : ∀ a, ops.current .opPostfix a = none) (s : OpQueues)
    (e : OpEntry) : ParseState.behindOperand ops s e .opPostfix = .ok none := by
  unfold ParseState.behindOperand
  rw [isOp_none (hpost e.atom)]

/-- The queues in front of an operator. -/
theorem asOperator (hpost : ∀ a, ops.current .opPostfix a = none) {s s' : OpQueues}
    {e op : OpEntry} (h : Spells ops stop toks s)
    (ha : ParseState.asOperator ops s e = .ok (some (op, s'))) :
    ∃ kind, isOp ops e kind = some op ∧ Awaits ops stop toks s' kind ∧
      (kind = .opPrefix → s.rmo = false) ∧ (kind = .opInfix → s.out ≠ [] ∨ s.side ≠ []) := by
  unfold ParseState.asOperator at ha
  cases hop : (if s.rmo then none else isOp ops e .opPrefix) with
  | some op' =>
    rw [hop] at ha
    cases ha
    split_ifs at hop with hrmo
    have hrmo' : s.rmo = false := by simpa using hrmo
    exact ⟨.opPrefix, hop, ⟨hrmo', h⟩, fun _ => hrmo', nofun⟩
  | none =>
    rw [hop] at ha
    obtain ⟨r, hr, ha⟩ := bind_eq_ok.mp ha
    cases r with
    | none =>
      rw [behindOperand_none hpost] at ha
      cases ha
    | some r =>
      cases ha
      obtain ⟨hop, hwait, hne⟩ := h.behindOperand hpost hr
      exact ⟨.opInfix, hop, hwait, nofun, fun _ => hne⟩

end Spells

/-- The operator is read. -/
theorem Awaits.push {kind : OpKind} {toks toks' : List ReadToken} {s : OpQueues} {op : OpEntry}
    (h : Awaits ops stop toks s kind) (hop : Operator ops stop kind toks' op) :
    Spells ops stop (toks ++ toks') { s with side := op :: s.side } := by
  obtain ⟨out, side, rmo⟩ := s
  cases kind with
  | opPrefix =>
    obtain ⟨rfl, h⟩ := h
    exact h.opPrefix hop
  | opInfix =>
    obtain ⟨rfl, h⟩ := h
    exact h.opInfix hop
  | opPostfix => exact h.elim

/-! ## The calls -/

section

variable (ops)

/-- What the caller has read in front of the term. -/
inductive Opened : Caller → List ReadToken → Prop where
  | readTerm : Opened .readTerm []
  | parentheses : Opened .parentheses [.punct '(']
  | brace : Opened .brace [.punct '\x7b']
  | list : Opened (.list []) [.punct '[']
  | element {toks elems} : Separated ops (Caller.list []).stops toks elems.reverse →
    Opened (.list elems) (.punct '[' :: (toks ++ [.punct ',']))
  | listTail {toks elems} : Separated ops (Caller.list []).stops toks elems.reverse →
    Opened (.listTail elems) (.punct '[' :: (toks ++ [.punct '|']))
  | compound {f} : Opened (.compound f []) [.functor f, .punct '(']
  | argument {f toks args} : Separated ops (Caller.compound [] []).stops toks args.reverse →
    Opened (.compound f args) (.functor f :: .punct '(' :: (toks ++ [.punct ',']))

/-- The token that the caller has begun with. -/
def Caller.first : Caller → Option ReadToken
  | .readTerm => none
  | .list _ | .listTail _ => some (.punct '[')
  | .brace => some (.punct '\x7b')
  | .parentheses => some (.punct '(')
  | .compound f _ => some (.functor f)

/-- What the caller makes of these tokens. -/
inductive Resumes (caller : Caller) : List ReadToken → Caller.Next → Prop where
  | finished {toks p t} : caller = .readTerm → Derives ops Caller.readTerm.stops toks p t →
    Resumes caller (toks ++ [.fullstop]) (.finished t)
  | simple {first toks t} : caller.first = some first →
    (∀ stop, Derives ops stop (first :: toks) 0 t) → Resumes caller (first :: toks) (.simple t)
  | again {caller' toks} : caller'.first = caller.first → Opened ops caller' toks →
    Resumes caller toks (.again caller')

end

/-- The characters that end an element, but for the closing bracket and the bar. -/
theorem comma_of_list {elems : List ReadTerm} {token : ReadToken}
    (h : (Caller.list elems).stops token = true) (hclose : token ≠ .punct ']')
    (hbar : token ≠ .punct '|') : token = .punct ',' := by
  cases token with
  | punct c =>
    obtain rfl | rfl | rfl : c = ',' ∨ c = '|' ∨ c = ']' := of_decide_eq_true h
    · rfl
    · exact absurd rfl hbar
    · exact absurd rfl hclose
  | _ => cases h

theorem comma_of_compound {f : List Nat} {args : List ReadTerm} {token : ReadToken}
    (h : (Caller.compound f args).stops token = true) (hclose : token ≠ .punct ')') :
    token = .punct ',' := by
  cases token with
  | punct c =>
    obtain rfl | rfl : c = ',' ∨ c = ')' := of_decide_eq_true h
    · rfl
    · exact absurd rfl hclose
  | _ => cases h

theorem opened_list {elems : List ReadTerm} {before toks : List ReadToken} {p : Nat} {t : ReadTerm}
    (h : Opened ops (.list elems) before) (hd : Derives ops (Caller.list elems).stops toks p t) :
    ∃ toks', before ++ toks = .punct '[' :: toks' ∧
      Separated ops (Caller.list []).stops toks' (t :: elems).reverse := by
  rw [ParseState.collects_list.stops] at hd
  rw [List.reverse_cons]
  cases h with
  | list => exact ⟨toks, rfl, .one hd⟩
  | element h => exact ⟨_, by simp, h.more hd⟩

theorem opened_compound {f : List Nat} {args : List ReadTerm} {before toks : List ReadToken}
    {p : Nat} {t : ReadTerm} (h : Opened ops (.compound f args) before)
    (hd : Derives ops (Caller.compound f args).stops toks p t) :
    ∃ toks', before ++ toks = .functor f :: .punct '(' :: toks' ∧
      Separated ops (Caller.compound [] []).stops toks' (t :: args).reverse := by
  rw [(ParseState.collects_compound f).stops] at hd
  rw [List.reverse_cons]
  cases h with
  | compound => exact ⟨toks, rfl, .one hd⟩
  | argument h => exact ⟨_, by simp, h.more hd⟩

theorem Opened.resume {caller : Caller} {before toks : List ReadToken} {p : Nat} {t : ReadTerm}
    {token : ReadToken} {next : Caller.Next} (h : Opened ops caller before)
    (hd : Derives ops caller.stops toks p t) (hstop : caller.stops token = true)
    (hr : caller.resume token t = .ok next) :
    Resumes ops caller (before ++ toks ++ [token]) next := by
  cases caller with
  | readTerm =>
    cases h
    cases hr
    cases token with
    | fullstop => exact .finished rfl hd
    | _ => cases hstop
  | parentheses =>
    cases h
    cases hr
    cases token with
    | punct c =>
      obtain rfl : c = ')' := of_decide_eq_true hstop
      exact .simple rfl fun _ => .parentheses hd
    | _ => cases hstop
  | brace =>
    cases h
    cases hr
    cases token with
    | punct c =>
      obtain rfl : c = '\x7d' := of_decide_eq_true hstop
      exact .simple rfl fun _ => .brace hd
    | _ => cases hstop
  | list elems =>
    obtain ⟨toks', htoks, hsep⟩ := opened_list h hd
    rw [htoks]
    simp only [Caller.resume] at hr
    split_ifs at hr with hclose hbar
    · cases hr
      rw [hclose]
      exact .simple rfl fun _ => .list hsep
    · cases hr
      rw [hbar]
      exact .again rfl (.listTail hsep)
    · cases hr
      obtain rfl := comma_of_list hstop hclose hbar
      exact .again rfl (.element hsep)
  | listTail elems =>
    simp only [Caller.resume] at hr
    split_ifs at hr with hmore
    cases hr
    obtain rfl : token = .punct ']' := by
      cases token with
      | punct c =>
        obtain rfl | rfl | rfl : c = ',' ∨ c = '|' ∨ c = ']' := of_decide_eq_true hstop
        · exact absurd (.inl rfl) hmore
        · exact absurd (.inr rfl) hmore
        · rfl
      | _ => cases hstop
    rw [ParseState.stops_listTail] at hd
    cases h with
    | @listTail toks' _ hsep =>
      have hshape : .punct '[' :: (toks' ++ [.punct '|']) ++ toks ++ [.punct ']'] =
          ReadToken.punct '[' :: (toks' ++ .punct '|' :: (toks ++ [.punct ']'])) := by simp
      rw [hshape]
      exact .simple rfl fun _ => .listTail hsep hd
  | compound f args =>
    obtain ⟨toks', htoks, hsep⟩ := opened_compound h hd
    rw [htoks]
    simp only [Caller.resume] at hr
    split_ifs at hr with hclose
    · cases hr
      rw [hclose]
      exact .simple rfl fun _ => .compound hsep
    · cases hr
      obtain rfl := comma_of_compound hstop hclose
      exact .again rfl (.argument hsep)

/-! ## The states -/

section

variable (ops)

/-- The frame holds these tokens. -/
inductive Frame.Derived (f : Frame) : List ReadToken → Prop where
  | intro {before toks} : Opened ops f.caller before → f.block = none →
    Spells ops f.caller.stops toks f.queues → Frame.Derived f (before ++ toks)

/-- The frame holds these tokens and waits for a term that begins with `first`. -/
inductive Frame.Waits (f : Frame) : ReadToken → List ReadToken → Prop where
  | operand {first before toks} : Opened ops f.caller before → f.block = none →
    f.queues.rmo = false → Spells ops f.caller.stops toks f.queues →
    Frame.Waits f first (before ++ toks)
  | block {c before toks kind op} : c = '[' ∨ c = '\x7b' → Opened ops f.caller before →
    f.block = some op → isOp ops (nameToken' (.punct c)) kind = some op →
    Awaits ops f.caller.stops toks f.queues kind → Frame.Waits f (.punct c) (before ++ toks)

/-- The frames below a call that begins with `first`. -/
inductive Below : Option ReadToken → List Frame → List ReadToken → Prop where
  | nil : Below none [] []
  | cons {first f below toks toks'} : f.Waits ops first toks' → Below f.caller.first below toks →
    Below (some first) (f :: below) (toks ++ toks')

/-- The parser has read these tokens. -/
inductive ParseState.Derived : ParseState → List ReadToken → Prop where
  | loop {f below toks toks'} : Below ops f.caller.first below toks → f.Derived ops toks' →
    Derived (.loop f below) (toks ++ toks')
  | openCompound {g f below toks} : Below ops (some (.functor g)) (f :: below) toks →
    Derived (.openCompound g f below) (toks ++ [.functor g])
  | firstArgument {g f below toks} : Below ops (some (.functor g)) (f :: below) toks →
    Derived (.firstArgument g f below) (toks ++ [.functor g, .punct '('])
  | finished {toks p t} : Derives ops Caller.readTerm.stops toks p t →
    Derived (.finished t) (toks ++ [.fullstop])

end

theorem Frame.receive_caller (f : Frame) (t : ReadTerm) : (f.receive t).caller = f.caller := by
  unfold Frame.receive
  cases f.block <;> rfl

/-- The frame gets the term that it waits for. -/
theorem Frame.Waits.receive {f : Frame} {first : ReadToken} {toks toks' : List ReadToken}
    {t : ReadTerm} (h : f.Waits ops first toks)
    (hd : ∀ stop, Derives ops stop (first :: toks') 0 t) :
    (f.receive t).Derived ops (toks ++ first :: toks') := by
  cases h with
  | @operand _ before toks hopen hblock hrmo hq =>
    rw [List.append_assoc]
    refine .intro ?_ ?_ ?_
    · rwa [f.receive_caller]
    · unfold Frame.receive
      rw [hblock]
    · rw [f.receive_caller]
      unfold Frame.receive
      rw [hblock]
      generalize f.queues = s at hrmo hq
      obtain ⟨out, side, rmo⟩ := s
      obtain rfl : rmo = false := hrmo
      exact hq.operand (hd _)
  | @block c before toks kind op hc hopen hblock hop hwait =>
    rw [List.append_assoc]
    refine .intro ?_ ?_ ?_
    · rwa [f.receive_caller]
    · unfold Frame.receive
      rw [hblock]
    · rw [f.receive_caller]
      unfold Frame.receive
      rw [hblock]
      exact hwait.push (.block hc hop (hd _))

namespace ParseState

/-- The frame below gets the term that it waits for. -/
theorem derived_receive {first : ReadToken} {f : Frame} {below : List Frame}
    {toks toks' : List ReadToken} {t : ReadTerm} (h : Below ops (some first) (f :: below) toks)
    (hd : ∀ stop, Derives ops stop (first :: toks') 0 t) :
    Derived ops (loop (f.receive t) below) (toks ++ first :: toks') := by
  cases h with
  | cons hw hb =>
    rw [List.append_assoc]
    refine .loop ?_ (hw.receive hd)
    rwa [f.receive_caller]

/-- A call has begun. -/
theorem derived_call {below : List Frame} {toks before : List ReadToken} {caller : Caller}
    (h : Below ops caller.first below toks) (ho : Opened ops caller before) :
    Derived ops (loop { caller } below) (toks ++ before) := by
  refine .loop (f := { caller }) h ?_
  rw [← List.append_nil before]
  exact .intro ho rfl .nil

theorem derived_simpleTerm {f : Frame} {below : List Frame} {token : ReadToken} {s : ParseState}
    {toks : List ReadToken} (h : Below ops (some token) (f :: below) toks) {b : Bool}
    (hname : isNameToken ops false token = .ok b) (hs : simpleTerm f below token = .ok s) :
    Derived ops s (toks ++ [token]) := by
  cases token with
  | fullstop | dict | vclassDict | voidDict => cases hs
  | functor g =>
    cases hs
    exact .openCompound h
  | punct c =>
    simp only [simpleTerm] at hs
    split_ifs at hs with hparen hbrace hbracket
    · cases hs
      subst hparen
      exact derived_call h .parentheses
    · cases hs
      subst hbrace
      exact derived_call h .brace
    · cases hs
      subst hbracket
      exact derived_call h .list
    · cases hs
      exact derived_receive h fun _ => .simple (simple_punct hname hparen hbracket hbrace)
  | _ =>
    cases hs
    exact derived_receive h fun _ => .simple rfl

/-- A name that is an operator here. -/
theorem derived_pushOp {f : Frame} {below : List Frame} {token : ReadToken} {op : OpEntry}
    {q : OpQueues} {s : ParseState} {kind : OpKind} {before toks toks' : List ReadToken}
    (hbelow : Below ops f.caller.first below toks) (hopen : Opened ops f.caller before)
    (hblock : f.block = none) (hname : isNameToken ops (kind ≠ .opPrefix) token = .ok true)
    (hop : isOp ops (nameToken' token) kind = some op)
    (hstop : kind = .opInfix → f.caller.stops token = false)
    (hwait : Awaits ops f.caller.stops toks' q kind)
    (h : pushOp f below token op q = .ok s) :
    Derived ops s (toks ++ (before ++ toks') ++ [token]) := by
  have hentry : op.block = (nameToken' token).block := (isOp_found hop).block
  unfold pushOp OpEntry.isblock at h
  rw [hentry] at h
  rcases nameToken_block token with hno | ⟨hunread, c, hc, rfl⟩
  · rw [hno] at h
    cases h
    rw [List.append_assoc, List.append_assoc]
    exact .loop hbelow (.intro hopen hblock
      (hwait.push (.token hname hop (hentry.trans hno) hstop)))
  · rw [hunread] at h
    have hread : isNameToken ops false (.punct c) = .ok true := by
      rcases hc with rfl | rfl <;> rfl
    have hwaits : Frame.Waits ops { f with queues := q, block := some op } (.punct c)
        (before ++ toks') := .block hc hopen rfl hop hwait
    exact derived_simpleTerm (.cons hwaits hbelow) hread h

theorem derived_complexTerm (hpost : ∀ a, ops.current .opPostfix a = none) {f : Frame}
    {below : List Frame} {token : ReadToken} {s : ParseState} {toks toks' : List ReadToken}
    (hbelow : Below ops f.caller.first below toks) (hf : f.Derived ops toks')
    (hstop : ¬ ((f.queues.out ≠ [] ∨ f.queues.side ≠ []) ∧ f.caller.stops token))
    (h : complexTerm ops f below token = .ok s) : Derived ops s (toks ++ toks' ++ [token]) := by
  obtain ⟨r, hr, h⟩ := bind_eq_ok.mp h
  obtain ⟨b, hname, hr⟩ := bind_eq_ok.mp hr
  cases hf with
  | @intro before toks' hopen hblock hq =>
  cases r with
  | some r =>
    obtain ⟨op, q⟩ := r
    cases b with
    | false => cases hr
    | true =>
      obtain ⟨kind, hop, hwait, hpre, hin⟩ := hq.asOperator hpost hr
      refine derived_pushOp hbelow hopen hblock ?_ hop (fun hk => ?_) hwait h
      · cases kind with
        | opPrefix => rwa [hpre rfl] at hname
        | opInfix | opPostfix => exact isNameToken_true hname
      · by_contra hs
        exact hstop ⟨hin hk, by simpa using hs⟩
  | none =>
    dsimp only at h
    split_ifs at h with hrmo
    have hrmo' : f.queues.rmo = false := by simpa using hrmo
    rw [hrmo'] at hname
    exact derived_simpleTerm (.cons (.operand hopen hblock hrmo' hq) hbelow) hname h

/-- The loop of `complex_term` reads one more token. -/
theorem derived_loopStep (hpost : ∀ a, ops.current .opPostfix a = none) {f : Frame}
    {below : List Frame} {token : ReadToken} {s : ParseState} {toks toks' : List ReadToken}
    (hbelow : Below ops f.caller.first below toks) (hf : f.Derived ops toks')
    (h : loopStep ops f below token = .ok s) : Derived ops s (toks ++ toks' ++ [token]) := by
  unfold loopStep at h
  split_ifs at h with hstop
  · obtain ⟨t, ht, h⟩ := bind_eq_ok.mp h
    obtain ⟨next, hnext, h⟩ := bind_eq_ok.mp h
    cases hf with
    | @intro before toks' hopen hblock hq =>
      obtain ⟨p, hd⟩ := hq.finish hpost ht
      have hresume := hopen.resume hd hstop.2 hnext
      rw [List.append_assoc]
      generalize before ++ toks' ++ [token] = toks'' at hresume ⊢
      cases hresume with
      | finished hcaller hd =>
        rw [hcaller] at hbelow
        cases hbelow
        cases h
        exact .finished hd
      | simple hfirst hd =>
        rw [hfirst] at hbelow
        cases below with
        | nil => cases h
        | cons g below =>
          cases h
          exact derived_receive hbelow hd
      | again hfirst hopen =>
        cases h
        exact derived_call (hfirst ▸ hbelow) hopen
  · exact derived_complexTerm hpost hbelow hf hstop h

theorem derived_step (hpost : ∀ a, ops.current .opPostfix a = none) {s s' : ParseState}
    {token : ReadToken} {toks : List ReadToken} (hs : Derived ops s toks)
    (hopen : s.isOpening = true → token = .punct '(') (h : step ops s token = .ok s') :
    Derived ops s' (toks ++ [token]) := by
  cases hs with
  | loop hbelow hf => exact derived_loopStep hpost hbelow hf h
  | openCompound hbelow =>
    cases h
    obtain rfl := hopen rfl
    rw [List.append_assoc]
    exact .firstArgument hbelow
  | @firstArgument g f below toks hbelow =>
    simp only [step] at h
    split_ifs at h with hclose
    · cases h
      rw [hclose, List.append_assoc]
      exact derived_receive hbelow fun _ => .thunk
    · have hframe : Frame.Derived ops { caller := .compound g [] }
          ([.functor g, .punct '('] ++ []) := .intro .compound rfl .nil
      exact derived_loopStep hpost (f := { caller := .compound g [] }) hbelow hframe h
  | finished _ => cases h

end ParseState

/-- Without postfix operators, the parser accepts only terms, and makes the term of the tokens. -/
theorem parse_derives (hpost : ∀ a, ops.current .opPostfix a = none) {toks : List ReadToken}
    {t : ReadTerm} (hopens : ParseState.Opens toks) (hparse : parse ops toks = .ok t) :
    ∃ toks' p, toks = toks' ++ [.fullstop] ∧ Derives ops Caller.readTerm.stops toks' p t := by
  obtain ⟨s, hrun, h⟩ := bind_eq_ok.mp hparse
  have hstart : ParseState.Derived ops ParseState.start ([] ++ ([] ++ [])) :=
    .loop .nil (.intro .readTerm rfl .nil)
  have hderived := ParseState.run_keeps (P := ParseState.Derived ops)
    (fun _ _ _ _ hs ho hstep => ParseState.derived_step hpost hs ho hstep) hopens (by nofun) hstart
    hrun
  cases hderived with
  | finished hd =>
    cases h
    exact ⟨_, _, rfl, hd⟩
  | _ => cases h

/-- Without postfix operators, whatever an ASCII text without dicts and quasi quotations reads as is
derived from its tokens. -/
theorem read_derives {number : Text → Option Term} {strNumber : Text → Option (Text × Text)}
    (hpost : ∀ a, ops.current .opPostfix a = none) {s : Text} {t : Term}
    (h : (plGrammar number ops strNumber).readTerm s = some t) :
    ∃ raw toks p r vars, rawRead s = some raw ∧
      (plGrammar number ops strNumber).tokens raw.length [] raw = some (toks ++ [.fullstop]) ∧
      Derives ops Caller.readTerm.stops toks p r ∧ r.toTerm number [] = some (t, vars) := by
  obtain ⟨raw, hraw, h⟩ := Option.bind_eq_some_iff.mp h
  obtain ⟨toks, htoks, h⟩ := Option.bind_eq_some_iff.mp h
  obtain ⟨r, hr, h⟩ := Option.bind_eq_some_iff.mp h
  obtain ⟨⟨t', vars⟩, ht, h⟩ := Option.bind_eq_some_iff.mp h
  cases h
  have hparse : parse ops toks = .ok r := by
    cases hp : parse ops toks with
    | error e =>
      rw [hp] at hr
      cases hr
    | ok r' =>
      rw [hp] at hr
      cases hr
      rfl
  obtain ⟨toks, p, rfl, hd⟩ := parse_derives hpost (Grammar.tokens_opens htoks) hparse
  exact ⟨raw, toks, p, r, vars, hraw, htoks, hd, ht⟩

/-- `- = - X - Y` -/
def minusTokens : List ReadToken :=
  [.name (wideChars ['-']), .name (wideChars ['=']), .name (wideChars ['-']), .variable ['X'],
    .name (wideChars ['-']), .variable ['Y']]

def minusRead : ReadTerm :=
  .compound (wideChars ['=']) [.atom (wideChars ['-']), .compound (wideChars ['-'])
    [.compound (wideChars ['-']) [.variable ['X']], .variable ['Y']]]

def minusTerm : Term :=
  .compound ['='] [.atom ['-'], .compound ['-'] [.compound ['-'] [.var 0], .var 1]]

theorem readTerm_minus : systemGrammar.readTerm "- = - X - Y".toList = some minusTerm := by
  have hraw : rawRead "- = - X - Y".toList = some "- = - X - Y . ".toList := by decide +kernel
  have htoks : systemGrammar.tokens "- = - X - Y . ".toList.length [] "- = - X - Y . ".toList =
      some (minusTokens ++ [.fullstop]) := by decide +kernel
  have hparse : parse systemOperators (minusTokens ++ [.fullstop]) = .ok minusRead := rfl
  have hterm : minusRead.toTerm decimalValue [] =
      some (minusTerm, [some ['X'], some ['Y']]) := rfl
  exact readTerm_of_parts hraw htoks (complexTerm_of_parse hparse hterm)

/-- The first `-` is an atom, the second an operator with one operand and the third with two. -/
theorem read_derives_minus : ∃ raw toks p r vars, rawRead "- = - X - Y".toList = some raw ∧
    systemGrammar.tokens raw.length [] raw = some (toks ++ [.fullstop]) ∧
    Derives systemOperators Caller.readTerm.stops toks p r ∧
    r.toTerm decimalValue [] = some (minusTerm, vars) :=
  read_derives current_postfix_system readTerm_minus

/-- A postfix operator of a high priority. -/
def postfixOperators : Operators :=
  .ofTables [[opDef "!" .xf 650], systemTable] systemOperators.unquotedAtom

-- `a ! * b` is no term, but the operator `*` takes its left operand from in front of `!`
example : parse postfixOperators [.name (wideChars ['a']), .name (wideChars ['!']),
    .name (wideChars ['*']), .name (wideChars ['b']), .fullstop] =
      .ok (.compound (wideChars ['!']) [.compound (wideChars ['*'])
        [.atom (wideChars ['a']), .atom (wideChars ['b'])]]) := rfl

end Rolog
