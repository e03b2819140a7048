/-
  Operator notation reads back. `Expr` is a term as it is written: with operators, brackets and
  commas. If every operand has a priority that its operator takes, and no operator on the left of
  an operand draws it away from the operator in front, the parser gets the term from the tokens,
  for every operator table (`parse_tokens`). The queues hold what is read of an expression along
  its right side (`Pushed`).
-/
import Rolog.Parse

namespace Rolog

/-! ## Expressions -/

/-- A name with or without quotes. -/
def ReadToken.ofName (quoted : Bool) (a : List Nat) : ReadToken :=
  if quoted then .qname a else .name a

/-- A term in operator notation. `lone` is a name that is the whole of an argument. -/
inductive Expr where
  | leaf (token : ReadToken)
  | lone (quoted : Bool) (a : List Nat)
  | parentheses (e : Expr)
  | brace (e : Expr)
  | list (es : List Expr)
  | listTail (es : List Expr) (tail : Expr)
  | compound (functor : List Nat) (args : List Expr)
  | opInfix (l : Expr) (op : ReadToken) (r : Expr)
  | opPrefix (op : ReadToken) (r : Expr)
  | opPostfix (l : Expr) (op : ReadToken)

namespace Expr

mutual

def tokens : Expr → List ReadToken
  | leaf token => [token]
  | lone quoted a => [ReadToken.ofName quoted a]
  | parentheses e => .punct '(' :: (e.tokens ++ [.punct ')'])
  | brace e => .punct '\x7b' :: (e.tokens ++ [.punct '\x7d'])
  | list es => .punct '[' :: (separated es ++ [.punct ']'])
  | listTail es tail => .punct '[' :: (separated es ++ .punct '|' :: (tail.tokens ++ [.punct ']']))
  | compound f args => .functor f :: .punct '(' :: (separated args ++ [.punct ')'])
  | opInfix l op r => l.tokens ++ op :: r.tokens
  | opPrefix op r => op :: r.tokens
  | opPostfix l op => l.tokens ++ [op]
termination_by structural e => e

/-- Arguments with commas in between. -/
def separated : List Expr → List ReadToken
  | [] => []
  | e :: es => e.tokens ++ commas es
termination_by structural es => es

/-- A comma in front of every argument. -/
def commas : List Expr → List ReadToken
  | [] => []
  | e :: es => .punct ',' :: (e.tokens ++ commas es)
termination_by structural es => es

end

/-- The term of a single token. -/
def leafTerm : ReadToken → ReadTerm
  | .variable v => .variable v
  | .number n => .number n
  | .str cs => .str cs
  | .codes cs => .codes cs
  | .name a => (AtomName.ofName a).term
  | .qname a => .atom a
  | _ => .void

mutual

/-- The term that is written. -/
def term : Expr → ReadTerm
  | leaf token => leafTerm token
  | lone quoted a => (nameToken' (ReadToken.ofName quoted a)).atom.term
  | parentheses e => e.term
  | brace e => .compound curl [e.term]
  | list es => readList .nil (terms es)
  | listTail es tail => readList tail.term (terms es)
  | compound f args => .compound f (terms args)
  | opInfix l op r => .compound (nameToken' op).atom.functor [l.term, r.term]
  | opPrefix op r => .compound (nameToken' op).atom.functor [r.term]
  | opPostfix l op => .compound (nameToken' op).atom.functor [l.term]
termination_by structural e => e

def terms : List Expr → List ReadTerm
  | [] => []
  | e :: es => e.term :: terms es
termination_by structural es => es

end

section

variable (ops : Operators)

/-- The entry of a token as an operator. -/
def entry (op : ReadToken) (kind : OpKind) : Option OpEntry := isOp ops (nameToken' op) kind

/-- The priority of an expression: that of its outermost operator. -/
def pri : Expr → Nat
  | opInfix _ op _ => ((entry ops op .opInfix).map OpEntry.opPri).getD 0
  | opPrefix op _ => ((entry ops op .opPrefix).map OpEntry.opPri).getD 0
  | opPostfix _ op => ((entry ops op .opPostfix).map OpEntry.opPri).getD 0
  | _ => 0

/-- The atom is no operator. -/
def Plain (a : AtomName) : Prop := ∀ kind, ops.current kind a = none

/-- The token is a term of its own, and no operator. -/
def IsLeaf : ReadToken → Prop
  | .variable _ | .void | .number _ | .str _ | .codes _ => True
  | .name a => Plain ops (.ofName a)
  | .qname a => ops.unquotedAtom a = true ∨ Plain ops (.text a)
  | _ => False

/-- The token is read as this operator, where a name must be an operator or not. -/
structure IsOperator (mustBeOp : Bool) (kind : OpKind) (token : ReadToken) (op : OpEntry) :
    Prop where
  name : isNameToken ops mustBeOp token = .ok true
  entry : Expr.entry ops token kind = some op
  block : op.block = .no

def isLone : Expr → Bool
  | lone _ _ => true
  | _ => false

/-- The expression is read as its term, up to a token in `stop` and behind operators of priority
`limit` or more: every operand has a priority that its operator takes, and no operator binds an
operand on its left that the operator in front of it would get. -/
inductive Reads : (ReadToken → Bool) → Nat → Expr → Prop where
  | leaf {stop limit token} : IsLeaf ops token → Reads stop limit (leaf token)
  | parentheses {stop limit e} :
    (e.isLone = false → Reads Caller.parentheses.stops maxPri e) →
    Reads stop limit (parentheses e)
  | brace {stop limit e} : Plain ops (.text curl) →
    (e.isLone = false → Reads Caller.brace.stops maxPri e) → Reads stop limit (brace e)
  | list {stop limit es} : Plain ops .nil → es ≠ [] →
    (∀ e ∈ es, e.isLone = false → Reads (Caller.list []).stops maxPri e) →
    Reads stop limit (list es)
  | listTail {stop limit es tail} : Plain ops .nil → es ≠ [] →
    (∀ e ∈ es, e.isLone = false → Reads (Caller.list []).stops maxPri e) →
    (tail.isLone = false → Reads (Caller.listTail []).stops maxPri tail) →
    Reads stop limit (listTail es tail)
  | compound {stop limit f args} :
    (∀ e ∈ args, e.isLone = false → Reads (Caller.compound [] []).stops maxPri e) →
    Reads stop limit (compound f args)
  | opInfix {stop limit l token r op} : IsOperator ops true .opInfix token op →
    stop token = false → op.leftPri < limit → Reads stop limit l → l.pri ops ≤ op.leftPri →
    Reads stop op.opPri r → r.pri ops ≤ op.rightPri → Reads stop limit (opInfix l token r)
  | opPrefix {stop limit token r op} : IsOperator ops false .opPrefix token op →
    stop token = false → Reads stop op.opPri r → r.pri ops ≤ op.rightPri →
    Reads stop limit (opPrefix token r)
  | opPostfix {stop limit l token op} : IsOperator ops true .opPostfix token op →
    entry ops token .opInfix = none → stop token = false → op.leftPri < limit →
    Reads stop limit l → l.pri ops ≤ op.leftPri → Reads stop limit (opPostfix l token)

end

end Expr

/-! ## Priorities -/

variable {ops : Operators}

theorem OpType.rightPri_le (type : OpType) (pri : Nat) : type.rightPri pri ≤ pri := by
  cases type with
  | fx | xfx | yfx => exact Nat.sub_le pri 1
  | fy | xfy => exact Nat.le_refl pri
  | xf | yf => exact Nat.zero_le pri

/-- What `isOp` finds. -/
structure Found (e op : OpEntry) (kind : OpKind) : Prop where
  atom : op.atom = e.atom
  block : op.block = e.block
  kind : op.kind = kind
  rightPri_le : op.rightPri ≤ op.opPri
  opPri_lt : op.opPri < maxPri

theorem isOp_found {e op : OpEntry} {kind : OpKind} (h : isOp ops e kind = some op) :
    Found e op kind := by
  obtain ⟨⟨type, pri⟩, hc, rfl⟩ := Option.map_eq_some_iff.mp h
  have hrange := (ops.range kind e.atom type pri hc).2
  exact ⟨rfl, rfl, rfl, type.rightPri_le pri, Nat.lt_succ_of_le hrange⟩

theorem isOp_none {e : OpEntry} {kind : OpKind} (h : ops.current kind e.atom = none) :
    isOp ops e kind = none := by
  unfold isOp
  rw [h]
  rfl

theorem isOp_plain {e : OpEntry} (h : Expr.Plain ops e.atom) (kind : OpKind) :
    isOp ops e kind = none := isOp_none (h kind)

namespace ParseState

theorem asOperator_plain {s : OpQueues} {e : OpEntry} (h : Expr.Plain ops e.atom) :
    asOperator ops s e = .ok none := by
  have hfront : (if s.rmo then none else isOp ops e .opPrefix) = none := by
    rw [isOp_plain h]
    exact ite_self none
  unfold asOperator behindOperand
  rw [hfront, isOp_plain h, isOp_plain h]
  rfl

/-! ## Runs -/

theorem run_cons (s : ParseState) (t : ReadToken) (toks : List ReadToken) :
    s.run ops (t :: toks) = step ops s t >>= fun s => s.run ops toks := List.foldlM_cons

theorem run_append (s : ParseState) (toks toks' : List ReadToken) :
    s.run ops (toks ++ toks') = s.run ops toks >>= fun s => s.run ops toks' := List.foldlM_append

theorem run_cons_of_step {s s' : ParseState} {t : ReadToken} (h : step ops s t = .ok s')
    (toks : List ReadToken) : s.run ops (t :: toks) = s'.run ops toks := by
  rw [run_cons, h]
  rfl

theorem run_append_of_run {s s' : ParseState} {toks : List ReadToken} (h : s.run ops toks = .ok s')
    (toks' : List ReadToken) : s.run ops (toks ++ toks') = s'.run ops toks' := by
  rw [run_append, h]
  rfl

theorem loopStep_of_not_stop {frame : Frame} {below : List Frame} {token : ReadToken}
    (h : frame.caller.stops token = false) :
    loopStep ops frame below token = complexTerm ops frame below token := by
  unfold loopStep
  rw [if_neg]
  simp [h]

/-- A token that is no operator here. -/
theorem complexTerm_simple {frame : Frame} {below : List Frame} {token : ReadToken}
    (hr : frame.queues.rmo = false)
    (h : isNameToken ops false token = .ok false ∨
      isNameToken ops false token = .ok true ∧ Expr.Plain ops (nameToken' token).atom) :
    complexTerm ops frame below token = simpleTerm frame below token := by
  unfold complexTerm nameOperator
  rw [hr]
  rcases h with h | ⟨h, hplain⟩
  · rw [h]
    rfl
  · rw [h]
    show (asOperator ops frame.queues (nameToken' token) >>= _) = _
    rw [asOperator_plain hplain]
    rfl

theorem complexTerm_operator (frame : Frame) (below : List Frame) {token : ReadToken}
    {op : OpEntry} {s : OpQueues} (hn : isNameToken ops frame.queues.rmo token = .ok true)
    (has : asOperator ops frame.queues (nameToken' token) = .ok (some (op, s)))
    (hb : op.block = .no) :
    complexTerm ops frame below token =
      .ok (loop { frame with queues := { s with side := op :: s.side } } below) := by
  unfold complexTerm nameOperator
  rw [hn]
  show (asOperator ops frame.queues (nameToken' token) >>= _) = _
  rw [has]
  show pushOp frame below token op s = _
  unfold pushOp OpEntry.isblock
  rw [hb]
  rfl

/-! ## The queues -/

/-- The operator in front binds less than `limit`, if there is one. -/
def Behind (limit : Nat) (side : List OpEntry) : Prop := ∀ op ∈ side.head?, limit ≤ op.opPri

theorem reduce_of_behind {limit cpri : Nat} {side : List OpEntry} (h : Behind limit side)
    (hc : cpri < limit) (out : List OutEntry) : reduce cpri side out = .ok (side, out) := by
  cases side with
  | nil => rfl
  | cons op side =>
    have hop : limit ≤ op.opPri := h op rfl
    unfold reduce
    rw [if_neg]
    omega

/-- One operator is reduced. -/
theorem reduce_cons {cpri : Nat} {op : OpEntry} {side : List OpEntry} {out : List OutEntry}
    (hp : op.opPri ≤ cpri) (ha : op.allows out = some true) (hout : out ≠ []) :
    reduce cpri (op :: side) out = reduce cpri side (buildOpTerm op out) := by
  have hcan : canReduce op cpri out = .ok true := by
    unfold canReduce
    rw [ha]
  rw [reduce, if_pos ⟨hout, hp⟩, hcan]
  rfl

/-- The queues `s'` are `s` with the expression `e` behind, reduced or not. -/
structure Pushed (ops : Operators) (s : OpQueues) (e : Expr) (s' : OpQueues) : Prop where
  rmo : s'.rmo = true
  out : s'.out ≠ []
  reduces : ∀ cpri, e.pri ops ≤ cpri →
    reduce cpri s'.side s'.out = reduce cpri s.side ((e.pri ops, e.term) :: s.out)

theorem pushed_operand {s : OpQueues} {e : Expr} {t : ReadTerm} (hp : e.pri ops = 0)
    (ht : e.term = t) :
    Pushed ops s e { out := (0, t) :: s.out, side := s.side, rmo := true } := by
  refine ⟨rfl, List.cons_ne_nil _ _, fun cpri _ => ?_⟩
  rw [hp, ht]

theorem modify_of_rmo {s : OpQueues} (h : s.rmo = true) (cpri : Nat) :
    modify ops cpri s = s := by
  unfold modify
  cases s.side with
  | nil => rfl
  | cons op side => simp [h]

/-- The queues of an operand alone give its term. -/
theorem Pushed.finish {e : Expr} {s : OpQueues} (h : Pushed ops {} e s)
    (hp : e.pri ops ≤ maxPri) : finish ops s = .ok e.term := by
  unfold Rolog.finish
  simp only [modify_of_rmo h.rmo, h.reduces maxPri hp]
  rfl

/-- An operator behind an operand reduces it, and is the next one in the queue. -/
theorem behindOperand_pushed {s s' : OpQueues} {e : Expr} {limit : Nat} {entry op : OpEntry}
    {kind : OpKind} (h : Pushed ops s e s') (hs : Behind limit s.side)
    (hop : isOp ops entry kind = some op) (hlimit : op.leftPri < limit)
    (hpri : e.pri ops ≤ op.leftPri) :
    behindOperand ops s' entry kind = .ok (some (op,
      { out := (e.pri ops, e.term) :: s.out, side := s.side, rmo := kind = .opPostfix })) := by
  unfold behindOperand
  rw [hop]
  simp only [modify_of_rmo h.rmo, h.rmo, if_true, h.reduces _ hpri, reduce_of_behind hs hlimit]
  rfl

/-! ## Operands -/

/-- The parser reads the expression behind the queues `s`. -/
def ReadsBehind (ops : Operators) (stop : ReadToken → Bool) (limit : Nat) (e : Expr) : Prop :=
  ∀ (caller : Caller) (s : OpQueues) (below : List Frame), caller.stops = stop → s.rmo = false →
    Behind limit s.side → ∃ s', run ops (loop { caller, queues := s } below) e.tokens =
      .ok (loop { caller, queues := s' } below) ∧ Pushed ops s e s'

/-- The queues hold something, and this gives the term `t`. -/
structure Holds (ops : Operators) (s : OpQueues) (t : ReadTerm) : Prop where
  some : s.out ≠ [] ∨ s.side ≠ []
  finish : Rolog.finish ops s = .ok t

/-- The parser reads the expression as the whole of an argument. -/
def ReadsWhole (ops : Operators) (stop : ReadToken → Bool) (e : Expr) : Prop :=
  ∀ (caller : Caller) (below : List Frame), caller.stops = stop → ∃ s',
    run ops (loop { caller } below) e.tokens = .ok (loop { caller, queues := s' } below) ∧
      Holds ops s' e.term

theorem pri_le_maxPri (e : Expr) : e.pri ops ≤ maxPri := by
  have hentry : ∀ token kind,
      ((Expr.entry ops token kind).map OpEntry.opPri).getD 0 ≤ maxPri := by
    intro token kind
    cases h : Expr.entry ops token kind with
    | none => exact Nat.zero_le _
    | some op => exact Nat.le_of_lt (isOp_found h).opPri_lt
  cases e with
  | opInfix l op r => exact hentry op _
  | opPrefix op r => exact hentry op _
  | opPostfix l op => exact hentry op _
  | _ => exact Nat.zero_le _

theorem ReadsBehind.whole {stop : ReadToken → Bool} {e : Expr}
    (h : ReadsBehind ops stop maxPri e) : ReadsWhole ops stop e := by
  intro caller below hc
  obtain ⟨s', hrun, hpush⟩ := h caller {} below hc rfl nofun
  exact ⟨s', hrun, .inl hpush.out, hpush.finish (pri_le_maxPri e)⟩

theorem ofName_block (quoted : Bool) (a : List Nat) :
    (nameToken' (ReadToken.ofName quoted a)).block = .no := by
  cases quoted <;> rfl

theorem simpleTerm_ofName (f : Frame) (below : List Frame) (quoted : Bool) (a : List Nat) :
    simpleTerm f below (ReadToken.ofName quoted a) =
      .ok (loop (f.receive (nameToken' (ReadToken.ofName quoted a)).atom.term) below) := by
  cases quoted <;> rfl

/-- A prefix operator alone is an atom. -/
theorem finish_prefix {op : OpEntry} (hkind : op.kind = .opPrefix) (hblock : op.block = .no)
    (hright : op.rightPri < maxPri) : Rolog.finish ops { side := [op] } = .ok op.atom.term := by
  have hno : op.isblock = false := by
    unfold OpEntry.isblock
    rw [hblock]
  have hmod : modify ops maxPri { side := [op] } =
      { out := [(0, op.atom.term)], side := [], rmo := true } := by
    unfold modify
    simp [hright, hkind, hno]
  unfold Rolog.finish
  simp only [hmod]
  rfl

/-- A name that is an operator is an atom if nothing is behind it. -/
theorem lone_whole (stop : ReadToken → Bool) (quoted : Bool) (a : List Nat) :
    ReadsWhole ops stop (.lone quoted a) := by
  intro caller below _
  have hstep : step ops (loop { caller } below) (ReadToken.ofName quoted a) =
      complexTerm ops { caller } below (ReadToken.ofName quoted a) := by
    show loopStep ops { caller } below (ReadToken.ofName quoted a) = _
    unfold loopStep
    rw [if_neg]
    simp
  have hbehind (kind : OpKind) :
      behindOperand ops {} (nameToken' (ReadToken.ofName quoted a)) kind = .ok none := by
    unfold behindOperand
    cases isOp ops (nameToken' (ReadToken.ofName quoted a)) kind with
    | none => rfl
    | some op => rfl
  have has : asOperator ops {} (nameToken' (ReadToken.ofName quoted a)) =
      .ok ((isOp ops (nameToken' (ReadToken.ofName quoted a)) .opPrefix).map
        fun op => (op, {})) := by
    unfold asOperator
    cases isOp ops (nameToken' (ReadToken.ofName quoted a)) .opPrefix with
    | none => simp only [ite_self, hbehind]; rfl
    | some op => rfl
  have hname : ∃ b, isNameToken ops false (ReadToken.ofName quoted a) = .ok b := by
    cases quoted with
    | true => exact ⟨_, rfl⟩
    | false => exact ⟨_, rfl⟩
  have hsimple (h : nameOperator ops {} (ReadToken.ofName quoted a) = .ok none) :
      ∃ s', run ops (loop { caller } below) [ReadToken.ofName quoted a] =
        .ok (loop { caller, queues := s' } below) ∧
          Holds ops s' (nameToken' (ReadToken.ofName quoted a)).atom.term := by
    have hterm : complexTerm ops { caller } below (ReadToken.ofName quoted a) =
        simpleTerm { caller } below (ReadToken.ofName quoted a) := by
      unfold complexTerm
      rw [h]
      rfl
    rw [hterm, simpleTerm_ofName] at hstep
    exact ⟨_, run_cons_of_step hstep [], .inl (List.cons_ne_nil _ _), rfl⟩
  obtain ⟨b, hb⟩ := hname
  cases b with
  | false =>
    refine hsimple ?_
    unfold nameOperator
    rw [hb]
    rfl
  | true =>
    have hoperator : nameOperator ops {} (ReadToken.ofName quoted a) =
        asOperator ops {} (nameToken' (ReadToken.ofName quoted a)) := by
      unfold nameOperator
      rw [hb]
      rfl
    cases hop : isOp ops (nameToken' (ReadToken.ofName quoted a)) .opPrefix with
    | none => exact hsimple (by rw [hoperator, has, hop]; rfl)
    | some op =>
      obtain ⟨hatom, hblock, hkind, hright, hlt⟩ := isOp_found hop
      rw [ofName_block] at hblock
      rw [hop] at has
      have hpush : complexTerm ops { caller } below (ReadToken.ofName quoted a) =
          .ok (loop { caller, queues := { side := [op] } } below) :=
        complexTerm_operator { caller } below hb has hblock
      refine ⟨_, run_cons_of_step (hstep.trans hpush) [], .inr (List.cons_ne_nil _ _), ?_⟩
      show Rolog.finish ops { side := [op] } =
        .ok (nameToken' (ReadToken.ofName quoted a)).atom.term
      rw [← hatom]
      exact finish_prefix hkind hblock (by omega)

theorem readsWhole_argument {stop : ReadToken → Bool} {e : Expr}
    (h : e.isLone = false → ReadsBehind ops stop maxPri e) : ReadsWhole ops stop e := by
  cases e with
  | lone quoted a => exact lone_whole stop quoted a
  | _ => exact (h rfl).whole

/-! ## Arguments -/

/-- At a token that ends the term the caller goes on. -/
theorem step_stop {caller : Caller} {s : OpQueues} {below : List Frame} {token : ReadToken}
    {t : ReadTerm} (hs : Holds ops s t) (hstop : caller.stops token = true) :
    step ops (loop { caller, queues := s } below) token = (do
      match ← caller.resume token t, below with
      | .finished t, [] => .ok (.finished t)
      | .again caller, below => .ok (loop { caller } below)
      | .simple t, f :: below => .ok (loop (f.receive t) below)
      | .finished _, _ :: _ | .simple _, [] => .error .operatorBalance) := by
  show loopStep ops { caller, queues := s } below token = _
  unfold loopStep
  rw [if_pos ⟨hs.some, hstop⟩]
  show (Rolog.finish ops s >>= _) = _
  rw [hs.finish]
  rfl

/-- A caller that collects arguments, with those so far. -/
structure Collects (stop : ReadToken → Bool) (k : List ReadTerm → Caller) : Prop where
  stops : ∀ ts, (k ts).stops = stop
  comma : stop (.punct ',') = true
  resume : ∀ t ts, (k ts).resume (.punct ',') t = .ok (.again (k (t :: ts)))

theorem collects_list : Collects (Caller.list []).stops Caller.list := by
  refine ⟨fun ts => funext fun token => ?_, rfl, fun _ _ => rfl⟩
  cases token with
  | _ => rfl

theorem collects_compound (f : List Nat) :
    Collects (Caller.compound [] []).stops (Caller.compound f) := by
  refine ⟨fun ts => funext fun token => ?_, rfl, fun _ _ => rfl⟩
  cases token with
  | _ => rfl

theorem stops_listTail (ts : List ReadTerm) :
    (Caller.listTail ts).stops = (Caller.listTail []).stops := by
  funext token
  cases token with
  | _ => rfl

/-- The arguments from the first on. The last one is not finished yet. -/
theorem run_separated {stop : ReadToken → Bool} {k : List ReadTerm → Caller}
    (hk : Collects stop k) (e : Expr) (es : List Expr)
    (h : ∀ e' ∈ e :: es, ReadsWhole ops stop e') (ts : List ReadTerm) (below : List Frame) :
    ∃ ts' t s', run ops (loop { caller := k ts } below) (Expr.separated (e :: es)) =
      .ok (loop { caller := k ts', queues := s' } below) ∧ Holds ops s' t ∧
        (t :: ts').reverse = ts.reverse ++ Expr.terms (e :: es) := by
  induction es generalizing e ts with
  | nil =>
    obtain ⟨s', hrun, hs⟩ := h e List.mem_cons_self (k ts) below (hk.stops ts)
    refine ⟨ts, e.term, s', ?_, hs, by simp [Expr.terms]⟩
    show run ops _ (e.tokens ++ []) = _
    rw [List.append_nil]
    exact hrun
  | cons e' es ih =>
    obtain ⟨hfirst, hrest⟩ := List.forall_mem_cons.mp h
    obtain ⟨s, hrun, hs⟩ := hfirst (k ts) below (hk.stops ts)
    obtain ⟨ts', t, s', hrun', hs', ht⟩ := ih e' hrest (e.term :: ts)
    refine ⟨ts', t, s', ?_, hs', ?_⟩
    · have hcomma : step ops (loop { caller := k ts, queues := s } below) (.punct ',') =
          .ok (loop { caller := k (e.term :: ts) } below) := by
        rw [step_stop hs (by rw [hk.stops]; exact hk.comma), hk.resume]
        rfl
      show run ops _ (e.tokens ++ .punct ',' :: Expr.separated (e' :: es)) = _
      rw [run_append_of_run hrun, run_cons_of_step hcomma, hrun']
    · rw [ht]
      simp [Expr.terms]

/-- The caller below gets the term. -/
theorem run_close {caller : Caller} {s : OpQueues} {token : ReadToken} {t t' : ReadTerm}
    {f : Frame} {below : List Frame} (hs : Holds ops s t) (hstop : caller.stops token = true)
    (hresume : caller.resume token t = .ok (.simple t')) :
    run ops (loop { caller, queues := s } (f :: below)) [token] =
      .ok (loop (f.receive t') below) := by
  refine run_cons_of_step ?_ []
  rw [step_stop hs hstop, hresume]
  rfl

/-! ## Brackets -/

/-- The frame waits for an operand. -/
def operandFrame (caller : Caller) (s : OpQueues) : Frame := { caller, queues := s }

/-- A token that is an operand, or begins one. -/
theorem step_simple {caller : Caller} {s : OpQueues} {below : List Frame} {token : ReadToken}
    (hr : s.rmo = false) (hstop : caller.stops token = false)
    (h : isNameToken ops false token = .ok false ∨
      isNameToken ops false token = .ok true ∧ Expr.Plain ops (nameToken' token).atom) :
    step ops (loop (operandFrame caller s) below) token =
      simpleTerm (operandFrame caller s) below token := by
  show loopStep ops (operandFrame caller s) below token = _
  rw [loopStep_of_not_stop hstop]
  exact complexTerm_simple hr h

theorem step_openParentheses {caller : Caller} {s : OpQueues} {below : List Frame}
    (hr : s.rmo = false) :
    step ops (loop (operandFrame caller s) below) (.punct '(') =
      .ok (loop { caller := .parentheses } (operandFrame caller s :: below)) := by
  rw [step_simple hr (by cases caller <;> rfl) (.inl rfl)]
  rfl

theorem parentheses_reads {stop : ReadToken → Bool} {limit : Nat} {e : Expr}
    (h : ReadsWhole ops Caller.parentheses.stops e) :
    ReadsBehind ops stop limit (.parentheses e) := by
  intro caller s below _ hr _
  obtain ⟨s', hrun, hs⟩ := h .parentheses (operandFrame caller s :: below) rfl
  refine ⟨_, ?_, pushed_operand rfl rfl⟩
  show run ops (loop (operandFrame caller s) below) (.punct '(' :: (e.tokens ++ [.punct ')'])) = _
  rw [run_cons_of_step (step_openParentheses hr), run_append_of_run hrun]
  exact run_close hs rfl rfl

theorem step_openBrace {caller : Caller} {s : OpQueues} {below : List Frame}
    (hr : s.rmo = false) (hplain : Expr.Plain ops (.text curl)) :
    step ops (loop (operandFrame caller s) below) (.punct '\x7b') =
      .ok (loop { caller := .brace } (operandFrame caller s :: below)) := by
  rw [step_simple hr (by cases caller <;> rfl) (.inr ⟨rfl, hplain⟩)]
  rfl

theorem brace_reads {stop : ReadToken → Bool} {limit : Nat} {e : Expr}
    (hplain : Expr.Plain ops (.text curl)) (h : ReadsWhole ops Caller.brace.stops e) :
    ReadsBehind ops stop limit (.brace e) := by
  intro caller s below _ hr _
  obtain ⟨s', hrun, hs⟩ := h .brace (operandFrame caller s :: below) rfl
  refine ⟨_, ?_, pushed_operand rfl rfl⟩
  show run ops (loop (operandFrame caller s) below)
    (.punct '\x7b' :: (e.tokens ++ [.punct '\x7d'])) = _
  rw [run_cons_of_step (step_openBrace hr hplain), run_append_of_run hrun]
  exact run_close hs rfl rfl

theorem step_openList {caller : Caller} {s : OpQueues} {below : List Frame}
    (hr : s.rmo = false) (hplain : Expr.Plain ops .nil) :
    step ops (loop (operandFrame caller s) below) (.punct '[') =
      .ok (loop { caller := .list [] } (operandFrame caller s :: below)) := by
  rw [step_simple hr (by cases caller <;> rfl) (.inr ⟨rfl, hplain⟩)]
  rfl

theorem list_reads {stop : ReadToken → Bool} {limit : Nat} {es : List Expr}
    (hplain : Expr.Plain ops .nil) (hne : es ≠ [])
    (h : ∀ e ∈ es, ReadsWhole ops (Caller.list []).stops e) :
    ReadsBehind ops stop limit (.list es) := by
  intro caller s below _ hr _
  obtain ⟨e, es, rfl⟩ := List.exists_cons_of_ne_nil hne
  obtain ⟨ts, t, s', hrun, hs, ht⟩ :=
    run_separated collects_list e es h [] (operandFrame caller s :: below)
  refine ⟨_, ?_, pushed_operand rfl rfl⟩
  show run ops (loop (operandFrame caller s) below)
    (.punct '[' :: (Expr.separated (e :: es) ++ [.punct ']'])) = _
  rw [run_cons_of_step (step_openList hr hplain), run_append_of_run hrun]
  have hresume : (Caller.list ts).resume (.punct ']') t =
      .ok (.simple (readList .nil (Expr.terms (e :: es)))) := by
    rw [← List.nil_append (Expr.terms (e :: es)), ← List.reverse_nil, ← ht]
    rfl
  exact run_close hs rfl hresume

/-- The bar ends the elements. -/
theorem step_bar {ts : List ReadTerm} {t : ReadTerm} {s : OpQueues} {below : List Frame}
    (hs : Holds ops s t) :
    step ops (loop { caller := .list ts, queues := s } below) (.punct '|') =
      .ok (loop { caller := .listTail (t :: ts) } below) := by
  rw [step_stop hs rfl]
  rfl

theorem listTail_reads {stop : ReadToken → Bool} {limit : Nat} {es : List Expr} {tail : Expr}
    (hplain : Expr.Plain ops .nil) (hne : es ≠ [])
    (h : ∀ e ∈ es, ReadsWhole ops (Caller.list []).stops e)
    (htail : ReadsWhole ops (Caller.listTail []).stops tail) :
    ReadsBehind ops stop limit (.listTail es tail) := by
  intro caller s below _ hr _
  obtain ⟨e, es, rfl⟩ := List.exists_cons_of_ne_nil hne
  obtain ⟨ts, t, s', hrun, hs, ht⟩ :=
    run_separated collects_list e es h [] (operandFrame caller s :: below)
  obtain ⟨s'', hrun', hs'⟩ :=
    htail (.listTail (t :: ts)) (operandFrame caller s :: below) (stops_listTail _)
  refine ⟨_, ?_, pushed_operand rfl rfl⟩
  show run ops (loop (operandFrame caller s) below)
    (.punct '[' :: (Expr.separated (e :: es) ++ .punct '|' :: (tail.tokens ++ [.punct ']']))) = _
  rw [run_cons_of_step (step_openList hr hplain), run_append_of_run hrun,
    run_cons_of_step (step_bar hs), run_append_of_run hrun']
  have hresume : (Caller.listTail (t :: ts)).resume (.punct ']') tail.term =
      .ok (.simple (readList tail.term (Expr.terms (e :: es)))) := by
    rw [← List.nil_append (Expr.terms (e :: es)), ← List.reverse_nil, ← ht]
    rfl
  exact run_close hs' rfl hresume

/-- An expression does not begin with a closing parenthesis. -/
theorem tokens_head {stop : ReadToken → Bool} {limit : Nat} {e : Expr}
    (h : e.Reads ops stop limit) : ∃ t ts, e.tokens = t :: ts ∧ t ≠ .punct ')' := by
  induction h with
  | leaf hleaf =>
    refine ⟨_, [], rfl, fun he => ?_⟩
    subst he
    exact hleaf
  | parentheses => exact ⟨_, _, rfl, by decide⟩
  | brace => exact ⟨_, _, rfl, by decide⟩
  | list => exact ⟨_, _, rfl, by decide⟩
  | listTail => exact ⟨_, _, rfl, by decide⟩
  | compound => exact ⟨_, _, rfl, nofun⟩
  | opInfix _ _ _ _ _ _ _ ihl _ =>
    obtain ⟨t, ts, hts, ht⟩ := ihl
    exact ⟨t, _, by rw [Expr.tokens, hts]; rfl, ht⟩
  | opPrefix hop =>
    refine ⟨_, _, rfl, fun he => ?_⟩
    subst he
    cases hop.name
  | opPostfix _ _ _ _ _ _ ihl =>
    obtain ⟨t, ts, hts, ht⟩ := ihl
    exact ⟨t, _, by rw [Expr.tokens, hts]; rfl, ht⟩

theorem argument_head {stop : ReadToken → Bool} {limit : Nat} {e : Expr}
    (h : e.isLone = false → e.Reads ops stop limit) :
    ∃ t ts, e.tokens = t :: ts ∧ t ≠ .punct ')' := by
  cases e with
  | lone quoted a => exact ⟨_, [], rfl, by cases quoted <;> exact nofun⟩
  | _ => exact tokens_head (h rfl)

theorem step_functor {caller : Caller} {s : OpQueues} {below : List Frame} {f : List Nat}
    (hr : s.rmo = false) :
    step ops (loop (operandFrame caller s) below) (.functor f) =
      .ok (.openCompound f (operandFrame caller s) below) := by
  rw [step_simple hr (by cases caller <;> rfl) (.inl rfl)]
  rfl

theorem run_openCompound {caller : Caller} {s : OpQueues} {below : List Frame} {f : List Nat}
    (hr : s.rmo = false) (toks : List ReadToken) :
    run ops (loop (operandFrame caller s) below) (.functor f :: .punct '(' :: toks) =
      run ops (.firstArgument f (operandFrame caller s) below) toks := by
  rw [run_cons_of_step (step_functor hr)]
  exact run_cons_of_step rfl toks

theorem compound_reads {stop : ReadToken → Bool} {limit : Nat} {f : List Nat} {args : List Expr}
    (hargs : ∀ e ∈ args, e.isLone = false → e.Reads ops (Caller.compound [] []).stops maxPri)
    (h : ∀ e ∈ args, ReadsWhole ops (Caller.compound [] []).stops e) :
    ReadsBehind ops stop limit (.compound f args) := by
  intro caller s below _ hr _
  refine ⟨_, ?_, pushed_operand rfl rfl⟩
  show run ops (loop (operandFrame caller s) below)
    (.functor f :: .punct '(' :: (Expr.separated args ++ [.punct ')'])) = _
  rw [run_openCompound hr]
  cases args with
  | nil => exact run_cons_of_step rfl []
  | cons e es =>
    obtain ⟨ts, t, s', hrun, hs, ht⟩ := run_separated (collects_compound f) e es h []
      (operandFrame caller s :: below)
    obtain ⟨tok, toks, htoks, hne⟩ := argument_head (hargs e List.mem_cons_self)
    have hfirst : run ops (.firstArgument f (operandFrame caller s) below)
        (Expr.separated (e :: es)) = run ops (loop { caller := .compound f [] }
          (operandFrame caller s :: below)) (Expr.separated (e :: es)) := by
      have hstep : step ops (.firstArgument f (operandFrame caller s) below) tok =
          step ops (loop { caller := .compound f [] } (operandFrame caller s :: below)) tok :=
        if_neg hne
      rw [Expr.separated, htoks, List.cons_append, run_cons, run_cons, hstep]
    have hresume : (Caller.compound f ts).resume (.punct ')') t =
        .ok (.simple (.compound f (Expr.terms (e :: es)))) := by
      rw [← List.nil_append (Expr.terms (e :: es)), ← List.reverse_nil, ← ht]
      rfl
    rw [run_append, hfirst, hrun]
    exact run_close hs rfl hresume

/-! ## Operators -/

theorem leaf_reads {stop : ReadToken → Bool} {limit : Nat} {token : ReadToken}
    (h : Expr.IsLeaf ops token) : ReadsBehind ops stop limit (.leaf token) := by
  intro caller s below _ hr _
  have hstop : caller.stops token = false := by
    cases token with
    | punct | fullstop => cases h
    | _ => cases caller <;> rfl
  suffices hstep : step ops (loop (operandFrame caller s) below) token =
      .ok (loop ((operandFrame caller s).receive (Expr.leafTerm token)) below) from
    ⟨_, run_cons_of_step hstep [], pushed_operand rfl rfl⟩
  rw [step_simple hr hstop]
  · cases token with
    | functor | dict | vclassDict | voidDict | punct | fullstop => cases h
    | _ => rfl
  · cases token with
    | functor | dict | vclassDict | voidDict | punct | fullstop => cases h
    | name a => exact .inr ⟨rfl, h⟩
    | qname a =>
      cases hu : ops.unquotedAtom a with
      | true => exact .inl (by rw [isNameToken, hu]; rfl)
      | false =>
        refine .inr ⟨by rw [isNameToken, hu]; rfl, h.resolve_left fun h => ?_⟩
        rw [hu] at h
        cases h
    | _ => exact .inl rfl

/-- The entry of an operator without a block. -/
theorem build_of_entry {token : ReadToken} {kind : OpKind} {mustBeOp : Bool} {op : OpEntry}
    (h : Expr.IsOperator ops mustBeOp kind token op) (args : List ReadTerm) :
    op.build args = .compound (nameToken' token).atom.functor args := by
  obtain ⟨hatom, -⟩ := isOp_found h.entry
  unfold OpEntry.build
  rw [hatom, h.block]
  rfl

/-- A prefix operator waits for its operand. -/
theorem step_prefixOp {caller : Caller} {s : OpQueues} (below : List Frame) {token : ReadToken}
    {op : OpEntry} (hr : s.rmo = false) (hstop : caller.stops token = false)
    (h : Expr.IsOperator ops false .opPrefix token op) :
    step ops (loop (operandFrame caller s) below) token =
      .ok (loop (operandFrame caller { s with side := op :: s.side }) below) := by
  have hentry : isOp ops (nameToken' token) .opPrefix = some op := h.entry
  have has : asOperator ops s (nameToken' token) = .ok (some (op, s)) := by
    unfold asOperator
    simp [hr, hentry]
  show loopStep ops (operandFrame caller s) below token = _
  rw [loopStep_of_not_stop hstop]
  exact complexTerm_operator _ below (hr ▸ h.name) has h.block

/-- The queues `s` with an operand and the operator behind it. -/
def withOperator (ops : Operators) (s : OpQueues) (e : Expr) (op : OpEntry) (kind : OpKind) :
    OpQueues where
  out := (e.pri ops, e.term) :: s.out
  side := op :: s.side
  rmo := kind = .opPostfix

/-- An operator behind an operand takes it. -/
theorem step_behind {caller : Caller} {s s' : OpQueues} (below : List Frame) {e : Expr}
    {token : ReadToken} {op : OpEntry} {kind : OpKind} {limit : Nat} (hpush : Pushed ops s e s')
    (hs : Behind limit s.side) (hstop : caller.stops token = false)
    (h : Expr.IsOperator ops true kind token op)
    (hkind : kind = .opInfix ∨ kind = .opPostfix ∧ Expr.entry ops token .opInfix = none)
    (hlimit : op.leftPri < limit) (hpri : e.pri ops ≤ op.leftPri) :
    step ops (loop (operandFrame caller s') below) token =
      .ok (loop (operandFrame caller (withOperator ops s e op kind)) below) := by
  have hbehind := behindOperand_pushed hpush hs h.entry hlimit hpri
  have has : asOperator ops (operandFrame caller s').queues (nameToken' token) = .ok (some (op,
      { out := (e.pri ops, e.term) :: s.out, side := s.side, rmo := kind = .opPostfix })) := by
    show asOperator ops s' (nameToken' token) = _
    unfold asOperator
    simp only [hpush.rmo, if_true]
    rcases hkind with rfl | ⟨rfl, hnone⟩
    · rw [hbehind]
      rfl
    · have hbetween : behindOperand ops s' (nameToken' token) .opInfix = .ok none := by
        unfold behindOperand
        rw [show isOp ops (nameToken' token) .opInfix = none from hnone]
      rw [hbetween]
      exact hbehind
  show loopStep ops (operandFrame caller s') below token = _
  rw [loopStep_of_not_stop hstop]
  have hname : isNameToken ops (operandFrame caller s').queues.rmo token = .ok true := by
    show isNameToken ops s'.rmo token = .ok true
    rw [hpush.rmo]
    exact h.name
  exact complexTerm_operator _ below hname has h.block

theorem pri_of_entry {token : ReadToken} {kind : OpKind} {op : OpEntry}
    (h : Expr.entry ops token kind = some op) :
    ((Expr.entry ops token kind).map OpEntry.opPri).getD 0 = op.opPri := by
  rw [h]
  rfl

theorem infix_reads {stop : ReadToken → Bool} {limit : Nat} {l r : Expr} {token : ReadToken}
    {op : OpEntry} (h : Expr.IsOperator ops true .opInfix token op) (hstop : stop token = false)
    (hlimit : op.leftPri < limit) (hl : ReadsBehind ops stop limit l)
    (hlp : l.pri ops ≤ op.leftPri) (hr : ReadsBehind ops stop op.opPri r)
    (hrp : r.pri ops ≤ op.rightPri) : ReadsBehind ops stop limit (.opInfix l token r) := by
  intro caller s below hc hrmo hs
  obtain ⟨s₁, hrun₁, hpush₁⟩ := hl caller s below hc hrmo hs
  have hstep := step_behind below hpush₁ hs (hc ▸ hstop) h (.inl rfl) hlimit hlp
  have hbehind : Behind op.opPri (withOperator ops s l op .opInfix).side := fun op' ho => by
    cases ho
    exact Nat.le_refl _
  obtain ⟨s₂, hrun₂, hpush₂⟩ :=
    hr caller (withOperator ops s l op .opInfix) below hc rfl hbehind
  refine ⟨s₂, ?_, hpush₂.rmo, hpush₂.out, fun cpri hcpri => ?_⟩
  · show run ops _ (l.tokens ++ token :: r.tokens) = _
    rw [run_append_of_run hrun₁]
    exact (run_cons_of_step hstep _).trans hrun₂
  · obtain ⟨-, -, hkind, hright, -⟩ := isOp_found h.entry
    have hpri : Expr.pri ops (.opInfix l token r) = op.opPri := pri_of_entry h.entry
    rw [hpri] at hcpri ⊢
    have hallows : op.allows ((r.pri ops, r.term) :: (l.pri ops, l.term) :: s.out) = some true := by
      unfold OpEntry.allows
      rw [hkind]
      simp [hlp, hrp]
    have hbuild : buildOpTerm op ((r.pri ops, r.term) :: (l.pri ops, l.term) :: s.out) =
        (op.opPri, Expr.term (.opInfix l token r)) :: s.out := by
      unfold buildOpTerm
      rw [hkind]
      simp only [build_of_entry h]
      rfl
    rw [hpush₂.reduces cpri (by omega)]
    show reduce cpri (op :: s.side) ((r.pri ops, r.term) :: (l.pri ops, l.term) :: s.out) = _
    rw [reduce_cons hcpri hallows (List.cons_ne_nil _ _), hbuild]

theorem prefix_reads {stop : ReadToken → Bool} {limit : Nat} {r : Expr} {token : ReadToken}
    {op : OpEntry} (h : Expr.IsOperator ops false .opPrefix token op) (hstop : stop token = false)
    (hr : ReadsBehind ops stop op.opPri r) (hrp : r.pri ops ≤ op.rightPri) :
    ReadsBehind ops stop limit (.opPrefix token r) := by
  intro caller s below hc hrmo _
  have hstep := step_prefixOp below hrmo (hc ▸ hstop : caller.stops token = false) h
  have hbehind : Behind op.opPri (op :: s.side) := fun op' ho => by
    cases ho
    exact Nat.le_refl _
  obtain ⟨s', hrun, hpush⟩ := hr caller { s with side := op :: s.side } below hc hrmo hbehind
  refine ⟨s', ?_, hpush.rmo, hpush.out, fun cpri hcpri => ?_⟩
  · exact (run_cons_of_step hstep r.tokens).trans hrun
  · obtain ⟨-, -, hkind, hright, -⟩ := isOp_found h.entry
    have hpri : Expr.pri ops (.opPrefix token r) = op.opPri := pri_of_entry h.entry
    rw [hpri] at hcpri ⊢
    have hallows : op.allows ((r.pri ops, r.term) :: s.out) = some true := by
      unfold OpEntry.allows
      rw [hkind]
      simp [hrp]
    have hbuild : buildOpTerm op ((r.pri ops, r.term) :: s.out) =
        (op.opPri, Expr.term (.opPrefix token r)) :: s.out := by
      unfold buildOpTerm
      rw [hkind]
      simp only [build_of_entry h]
      rfl
    rw [hpush.reduces cpri (by omega), reduce_cons hcpri hallows (List.cons_ne_nil _ _), hbuild]

theorem postfix_reads {stop : ReadToken → Bool} {limit : Nat} {l : Expr} {token : ReadToken}
    {op : OpEntry} (h : Expr.IsOperator ops true .opPostfix token op)
    (hnone : Expr.entry ops token .opInfix = none) (hstop : stop token = false)
    (hlimit : op.leftPri < limit) (hl : ReadsBehind ops stop limit l)
    (hlp : l.pri ops ≤ op.leftPri) : ReadsBehind ops stop limit (.opPostfix l token) := by
  intro caller s below hc hrmo hs
  obtain ⟨s₁, hrun₁, hpush₁⟩ := hl caller s below hc hrmo hs
  have hstep := step_behind below hpush₁ hs (hc ▸ hstop) h (.inr ⟨rfl, hnone⟩) hlimit
    hlp
  refine ⟨withOperator ops s l op .opPostfix, ?_, rfl, List.cons_ne_nil _ _, fun cpri hcpri => ?_⟩
  · show run ops _ (l.tokens ++ [token]) = _
    rw [run_append_of_run hrun₁]
    exact run_cons_of_step hstep []
  · obtain ⟨-, -, hkind, -, -⟩ := isOp_found h.entry
    have hpri : Expr.pri ops (.opPostfix l token) = op.opPri := pri_of_entry h.entry
    rw [hpri] at hcpri ⊢
    have hallows : op.allows ((l.pri ops, l.term) :: s.out) = some true := by
      unfold OpEntry.allows
      rw [hkind]
      simp [hlp]
    have hbuild : buildOpTerm op ((l.pri ops, l.term) :: s.out) =
        (op.opPri, Expr.term (.opPostfix l token)) :: s.out := by
      unfold buildOpTerm
      rw [hkind]
      simp only [build_of_entry h]
      rfl
    show reduce cpri (op :: s.side) ((l.pri ops, l.term) :: s.out) = _
    rw [reduce_cons hcpri hallows (List.cons_ne_nil _ _), hbuild]

/-- Every expression is read as its term. -/
theorem readsBehind {stop : ReadToken → Bool} {limit : Nat} {e : Expr}
    (h : e.Reads ops stop limit) : ReadsBehind ops stop limit e := by
  induction h with
  | leaf hleaf => exact leaf_reads hleaf
  | parentheses _ ih => exact parentheses_reads (readsWhole_argument ih)
  | brace hplain _ ih => exact brace_reads hplain (readsWhole_argument ih)
  | list hplain hne _ ih =>
    exact list_reads hplain hne fun e he => readsWhole_argument (ih e he)
  | listTail hplain hne _ _ ih ihtail =>
    exact listTail_reads hplain hne (fun e he => readsWhole_argument (ih e he))
      (readsWhole_argument ihtail)
  | compound hargs ih => exact compound_reads hargs fun e he => readsWhole_argument (ih e he)
  | opInfix h hstop hlimit _ hlp _ hrp ihl ihr =>
    exact infix_reads h hstop hlimit ihl hlp ihr hrp
  | opPrefix h hstop _ hrp ihr => exact prefix_reads h hstop ihr hrp
  | opPostfix h hnone hstop hlimit _ hlp ihl =>
    exact postfix_reads h hnone hstop hlimit ihl hlp

/-- The tokens of an argument up to the full stop. -/
theorem parse_whole {e : Expr} (h : ReadsWhole ops Caller.readTerm.stops e) :
    parse ops (e.tokens ++ [.fullstop]) = .ok e.term := by
  obtain ⟨s', hrun, hs⟩ := h .readTerm [] rfl
  have hstop : step ops (loop { caller := .readTerm, queues := s' } []) .fullstop =
      .ok (.finished e.term) := by
    rw [step_stop hs rfl]
    rfl
  unfold parse start
  rw [run_append_of_run hrun, run_cons_of_step hstop]
  rfl

end ParseState

open ParseState in
/-- Operator notation reads back, for every operator table. -/
theorem parse_tokens {e : Expr} (h : e.Reads ops Caller.readTerm.stops maxPri) :
    parse ops (e.tokens ++ [.fullstop]) = .ok e.term :=
  parse_whole (readsBehind h).whole

/-- `X = - 1 * f(+)` -/
def oneEquation : Expr :=
  .opInfix (.leaf (.variable ['X'])) (.name (wideChars ['=']))
    (.opInfix (.opPrefix (.name (wideChars ['-'])) (.leaf (.number ['1'])))
      (.name (wideChars ['*'])) (.compound (wideChars ['f']) [.lone false (wideChars ['+'])]))

theorem reads_oneEquation :
    oneEquation.Reads systemOperators Caller.readTerm.stops maxPri := by
  refine .opInfix ⟨rfl, rfl, rfl⟩ rfl (by decide) (.leaf trivial) (Nat.zero_le _) ?_ (by decide)
  refine .opInfix ⟨rfl, rfl, rfl⟩ rfl (by decide) ?_ (by decide) (.compound ?_) (Nat.zero_le _)
  · exact .opPrefix ⟨rfl, rfl, rfl⟩ rfl (.leaf trivial) (Nat.zero_le _)
  · intro e he hl
    rw [List.mem_singleton.mp he] at hl
    cases hl

/-- `-` binds `1` alone, and `+` is an atom in front of a parenthesis. -/
theorem parse_tokens_equation :
    parse systemOperators (oneEquation.tokens ++ [.fullstop]) =
      .ok (.compound (wideChars ['=']) [.variable ['X'],
        .compound (wideChars ['*']) [.compound (wideChars ['-']) [.number ['1']],
          .compound (wideChars ['f']) [.atom (wideChars ['+'])]]]) :=
  parse_tokens reads_oneEquation

end Rolog
