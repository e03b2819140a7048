/-
  The parser of the reader: `complex_term` with its operator queues, and `simple_term` with
  `read_list`, `read_compound`, `read_brace_term` and `read_parentheses_term` (pl-read.c), with the
  default flags: `strictness` is 0, so every term is read up to priority 1201.

  The C stack is explicit. A frame is a call of `complex_term` that is not over: its local
  variables, and the function that waits for its term. One step takes one token; `unget_token`
  hands it on to the caller within the step. Dicts are refused.
-/
import Rolog.Canonical
import Rolog.OperatorTable

namespace Rolog

/-! ## Terms -/

/-- A term on the term stack. Every `_` is a variable of its own. -/
inductive ReadTerm where
  | variable (v : Text)
  | void
  | number (n : Text)
  | str (codes : List Nat)
  /-- the list of codes that back quotes make -/
  | codes (codes : List Nat)
  | nil
  | atom (a : List Nat)
  | compound (functor : List Nat) (args : List ReadTerm)

/-- `PL_put_atom` -/
def AtomName.term : AtomName → ReadTerm
  | nil => .nil
  | text a => .atom a

/-- `ATOM_curl` -/
def curl : List Nat := wideChars ['\x7b', '\x7d']

/-- The list with these elements and this tail. -/
def readList (tail : ReadTerm) : List ReadTerm → ReadTerm
  | [] => tail
  | t :: ts => .compound (wideChars dot) [t, readList tail ts]

/-! ## Operators -/

/-- Whether an operator is a block such as `[i]`, and its term once it is read. -/
inductive OpBlock where
  | no
  | unread
  | term (t : ReadTerm)

def OpBlock.toList : OpBlock → List ReadTerm
  | no | unread => []
  | term t => [t]

/-- `op_entry`. The atom of a block is `[]` or the curly brackets, and this is also the name of its
term. -/
structure OpEntry where
  atom : AtomName
  block : OpBlock := .no
  kind : OpKind := .opPrefix
  leftPri : Nat := 0
  rightPri : Nat := 0
  opPri : Nat := 0

def OpEntry.isblock (op : OpEntry) : Bool :=
  match op.block with
  | .no => false
  | .unread | .term _ => true

/-- `OP_MAXPRIORITY + 1` -/
def maxPri : Nat := 1201

/-- An `out_entry` and its term. -/
abbrev OutEntry := Nat × ReadTerm

inductive SyntaxError where
  | operatorClash
  | operatorExpected
  | operatorBalance
  | endOfClause
  | endOfClauseExpected
  | cannotStartTerm
  | quotedPunctuation
  | listRest
  /-- a dict, which may be well formed -/
  | dict
  deriving DecidableEq

/-- The local variables of `complex_term`: its parts of the two queues, the last entry first, and
whether `rmo` is 1. Nothing counts `rmo` up but at 0, or down but at 1. -/
structure OpQueues where
  out : List OutEntry := []
  side : List OpEntry := []
  rmo : Bool := false

/-- `isOp` -/
def isOp (ops : Operators) (e : OpEntry) (kind : OpKind) : Option OpEntry :=
  (ops.current kind e.atom).map fun (type, pri) =>
    { e with kind, opPri := pri, leftPri := type.leftPri pri, rightPri := type.rightPri pri }

/-- The term of an operator: the term of a block is its first argument. -/
def OpEntry.build (op : OpEntry) (args : List ReadTerm) : ReadTerm :=
  .compound op.atom.functor (op.block.toList ++ args)

/-- `build_op_term`, where the out queue has the operands. -/
def buildOpTerm (op : OpEntry) (out : List OutEntry) : List OutEntry :=
  match op.kind, out with
  | .opInfix, (_, b) :: (_, a) :: out => (op.opPri, op.build [a, b]) :: out
  | .opPrefix, (_, a) :: out | .opPostfix, (_, a) :: out => (op.opPri, op.build [a]) :: out
  | _, out => out

/-- The priorities of the operands allow the operator; `none` if there are too few. -/
def OpEntry.allows (op : OpEntry) (out : List OutEntry) : Option Bool :=
  match op.kind, out with
  | .opInfix, (q, _) :: (p, _) :: _ => some (p ≤ op.leftPri && q ≤ op.rightPri)
  | .opPrefix, (p, _) :: _ => some (p ≤ op.rightPri)
  | .opPostfix, (p, _) :: _ => some (p ≤ op.leftPri)
  | _, _ => none

/-- `can_reduce` -/
def canReduce (op : OpEntry) (cpri : Nat) (out : List OutEntry) : Except SyntaxError Bool :=
  match op.allows out with
  | none => .ok false
  | some true => .ok true
  | some false => if cpri = maxPri then .error .operatorClash else .ok false

/-- `Reduce(cpri)`, on the two queues -/
def reduce (cpri : Nat) : List OpEntry → List OutEntry →
    Except SyntaxError (List OpEntry × List OutEntry)
  | [], out => .ok ([], out)
  | op :: side, out =>
    if out ≠ [] ∧ op.opPri ≤ cpri then do
      if ← canReduce op cpri out then reduce cpri side (buildOpTerm op out)
      else .ok (op :: side, out)
    else .ok (op :: side, out)

/-- `Modify(cpri)`: an operator without its right operand becomes an atom, or a postfix operator. -/
def modify (ops : Operators) (cpri : Nat) (s : OpQueues) : OpQueues :=
  match s.side with
  | [] => s
  | op :: side =>
    if s.rmo = false ∧ op.rightPri < cpri then
      if op.kind = .opPrefix ∧ op.isblock = false then
        { out := (0, op.atom.term) :: s.out, side, rmo := true }
      else if op.kind = .opInfix ∧ s.out ≠ [] then
        match isOp ops op .opPostfix with
        | some op => { out := buildOpTerm op s.out, side, rmo := true }
        | none => s
      else s
    else s

/-- `complex_term` after its loop. -/
def finish (ops : Operators) (s : OpQueues) : Except SyntaxError ReadTerm := do
  let s := modify ops maxPri s
  match ← reduce maxPri s.side s.out with
  | ([], [(_, t)]) => .ok t
  | ([op], []) =>
    match op.block with
    | .no | .unread => .ok op.atom.term
    | .term t => .ok t
  | _ => .error .operatorBalance

/-! ## Tokens -/

/-- `is_name_token` -/
def isNameToken (ops : Operators) (mustBeOp : Bool) : ReadToken → Except SyntaxError Bool
  | .name _ => .ok true
  | .qname a => .ok !ops.unquotedAtom a
  | .functor _ | .dict _ => .ok mustBeOp
  | .punct c =>
    if c = '[' ∨ c = '\x7b' then .ok true
    else if c = '(' then .ok false
    else if c = ')' ∨ c = '\x7d' ∨ c = ']' then .error .cannotStartTerm
    else if c = '|' ∧ mustBeOp = false then .error .quotedPunctuation
    else .ok true
  | _ => .ok false

/-- `name_token`, as an operator that is not looked up yet -/
def nameToken' : ReadToken → OpEntry
  | .name a => { atom := .ofName a }
  | .qname a | .functor a | .dict a => { atom := .text a }
  | .punct c =>
    if c = '[' then { atom := .nil, block := .unread }
    else if c = '\x7b' then { atom := .text curl, block := .unread }
    else { atom := .text [c.toNat] }
  | _ => { atom := .text ['.'.toNat] }

/-! ## Calls -/

/-- The function that called `complex_term`, with what it has read so far, the last term first. -/
inductive Caller where
  | readTerm
  | list (elems : List ReadTerm)
  /-- `read_list` after the bar -/
  | listTail (elems : List ReadTerm)
  | brace
  | parentheses
  | compound (functor : List Nat) (args : List ReadTerm)

namespace Caller

/-- The token ends the term: the full stop for `read_term`, else a character of `stop`. -/
def stops : Caller → ReadToken → Bool
  | readTerm, .fullstop => true
  | list _, .punct c | listTail _, .punct c => c = ',' ∨ c = '|' ∨ c = ']'
  | brace, .punct c => c = '\x7d'
  | parentheses, .punct c => c = ')'
  | compound _ _, .punct c => c = ',' ∨ c = ')'
  | _, _ => false

/-- What a caller does with a term. -/
inductive Next where
  /-- `read_term` is done -/
  | finished (t : ReadTerm)
  /-- `simple_term` is done -/
  | simple (t : ReadTerm)
  /-- `complex_term` is called again -/
  | again (caller : Caller)

/-- The caller gets the term `t`, and the token behind it. -/
def resume (token : ReadToken) (t : ReadTerm) : Caller → Except SyntaxError Next
  | readTerm => .ok (.finished t)
  | list elems =>
    if token = .punct ']' then .ok (.simple (readList .nil (t :: elems).reverse))
    else if token = .punct '|' then .ok (.again (.listTail (t :: elems)))
    else .ok (.again (.list (t :: elems)))
  | listTail elems =>
    if token = .punct ',' ∨ token = .punct '|' then .error .listRest
    else .ok (.simple (readList t elems.reverse))
  | brace => .ok (.simple (.compound curl [t]))
  | parentheses => .ok (.simple t)
  | compound functor args =>
    if token = .punct ')' then .ok (.simple (.compound functor (t :: args).reverse))
    else .ok (.again (.compound functor (t :: args)))

end Caller

/-- A call of `complex_term` that is not over. -/
structure Frame where
  caller : Caller
  queues : OpQueues := {}
  /-- the operator whose block `simple_term` is reading -/
  block : Option OpEntry := none

/-- `simple_term` has left the term `t` on the stack. -/
def Frame.receive (f : Frame) (t : ReadTerm) : Frame :=
  match f.block with
  | some op =>
    { f with block := none
             queues := { f.queues with side := { op with block := .term t } :: f.queues.side } }
  | none => { f with queues := { f.queues with out := (0, t) :: f.queues.out, rmo := true } }

/-- Where the parser asks for its next token. -/
inductive ParseState where
  /-- in the loop of `complex_term` -/
  | loop (frame : Frame) (below : List Frame)
  /-- in `read_compound`, before the parenthesis -/
  | openCompound (functor : List Nat) (frame : Frame) (below : List Frame)
  /-- in `read_compound`, at the first token behind it -/
  | firstArgument (functor : List Nat) (frame : Frame) (below : List Frame)
  | finished (t : ReadTerm)

namespace ParseState

/-- `read_term` has called `complex_term`. -/
def start : ParseState := .loop { caller := .readTerm } []

/-- The argument of `get_token`. -/
def mustBeOp : ParseState → Bool
  | loop frame _ => frame.queues.rmo
  | _ => false

/-- `simple_term`, called from the frame -/
def simpleTerm (frame : Frame) (below : List Frame) :
    ReadToken → Except SyntaxError ParseState
  | .fullstop => .error .endOfClause
  | .void => .ok (.loop (frame.receive .void) below)
  | .variable v => .ok (.loop (frame.receive (.variable v)) below)
  | .name a => .ok (.loop (frame.receive (AtomName.ofName a).term) below)
  | .qname a => .ok (.loop (frame.receive (.atom a)) below)
  | .number n => .ok (.loop (frame.receive (.number n)) below)
  | .str codes => .ok (.loop (frame.receive (.str codes)) below)
  | .codes codes => .ok (.loop (frame.receive (.codes codes)) below)
  | .functor f => .ok (.openCompound f frame below)
  | .dict _ | .vclassDict _ | .voidDict => .error .dict
  | .punct c =>
    if c = '(' then .ok (.loop { caller := .parentheses } (frame :: below))
    else if c = '\x7b' then .ok (.loop { caller := .brace } (frame :: below))
    else if c = '[' then .ok (.loop { caller := .list [] } (frame :: below))
    else .ok (.loop (frame.receive (.atom [c.toNat])) below)

/-- An operator of this kind behind an operand: the operators in front that bind tighter are
reduced. -/
def behindOperand (ops : Operators) (s : OpQueues) (e : OpEntry) (kind : OpKind) :
    Except SyntaxError (Option (OpEntry × OpQueues)) :=
  match isOp ops e kind with
  | none => .ok none
  | some op => do
    let s := modify ops op.leftPri s
    if s.rmo then
      let (side, out) ← reduce op.leftPri s.side s.out
      .ok (some (op, { out, side, rmo := kind = .opPostfix }))
    else .ok none

/-- The name as an operator, if it is one here, and the queues in front of it. -/
def asOperator (ops : Operators) (s : OpQueues) (e : OpEntry) :
    Except SyntaxError (Option (OpEntry × OpQueues)) :=
  match if s.rmo then none else isOp ops e .opPrefix with
  | some op => .ok (some (op, s))
  | none => do
    match ← behindOperand ops s e .opInfix with
    | some r => .ok (some r)
    | none => behindOperand ops s e .opPostfix

/-- `PushOp`. The term of a block is read first. -/
def pushOp (frame : Frame) (below : List Frame) (token : ReadToken) (op : OpEntry)
    (s : OpQueues) : Except SyntaxError ParseState :=
  if op.isblock then simpleTerm { frame with queues := s, block := some op } below token
  else .ok (.loop { frame with queues := { s with side := op :: s.side } } below)

/-- The token as an operator, if it is a name. -/
def nameOperator (ops : Operators) (s : OpQueues) (token : ReadToken) :
    Except SyntaxError (Option (OpEntry × OpQueues)) := do
  if ← isNameToken ops s.rmo token then asOperator ops s (nameToken' token) else .ok none

/-- The loop of `complex_term` on a token that does not end the term. -/
def complexTerm (ops : Operators) (frame : Frame) (below : List Frame) (token : ReadToken) :
    Except SyntaxError ParseState := do
  match ← nameOperator ops frame.queues token with
  | some (op, s) => pushOp frame below token op s
  | none =>
    if frame.queues.rmo then .error .operatorExpected else simpleTerm frame below token

/-- The loop of `complex_term`, and its caller where the term ends. -/
def loopStep (ops : Operators) (frame : Frame) (below : List Frame) (token : ReadToken) :
    Except SyntaxError ParseState :=
  if (frame.queues.out ≠ [] ∨ frame.queues.side ≠ []) ∧ frame.caller.stops token then do
    let t ← finish ops frame.queues
    match ← frame.caller.resume token t, below with
    | .finished t, [] => .ok (.finished t)
    | .again caller, below => .ok (.loop { caller } below)
    | .simple t, f :: below => .ok (.loop (f.receive t) below)
    -- `read_term` is the outermost caller, and no other is
    | .finished _, _ :: _ | .simple _, [] => .error .operatorBalance
  else complexTerm ops frame below token

/-- The parser gets a token. -/
def step (ops : Operators) : ParseState → ReadToken → Except SyntaxError ParseState
  | loop frame below, token => loopStep ops frame below token
  | openCompound f frame below, _ => .ok (.firstArgument f frame below)
  | firstArgument f frame below, token =>
    if token = .punct ')' then .ok (.loop (frame.receive (.compound f [])) below)
    else loopStep ops { caller := .compound f [] } (frame :: below) token
  | finished _, _ => .error .endOfClauseExpected

/-- The parser on some tokens. -/
def run (ops : Operators) (s : ParseState) (toks : List ReadToken) :
    Except SyntaxError ParseState := toks.foldlM (step ops) s

end ParseState

/-- `complex_term(NULL, ...)`, as `read_term` calls it -/
def parse (ops : Operators) (toks : List ReadToken) : Except SyntaxError ReadTerm := do
  match ← ParseState.start.run ops toks with
  | .finished t => .ok t
  | _ => .error .endOfClause

/-! ## Prolog terms -/

section

variable (number : Text → Option Term)

/-- The place of a variable in the order of the first occurrences. -/
def ReadTerm.var (v : Text) (vars : List (Option Text)) : Term × List (Option Text) :=
  match vars.idxOf? (some v) with
  | some i => (.var i, vars)
  | none => (.var vars.length, vars ++ [some v])

mutual

/-- The Prolog term, with the variables so far; `none` is a `_`. There is none for a text with
surrogates. `number` is the value of a number. -/
def ReadTerm.toTerm (vars : List (Option Text)) : ReadTerm → Option (Term × List (Option Text))
  | .variable v => some (ReadTerm.var v vars)
  | .void => some (.var vars.length, vars ++ [none])
  | .number n => (number n).map fun t => (t, vars)
  | .str cs => (Shift.textOf cs).map fun s => (.str s, vars)
  | .codes cs => some (plList (cs.map fun n => .int n), vars)
  | .nil => some (.nil, vars)
  | .atom a => (Shift.textOf a).map fun s => (.atom s, vars)
  | .compound f args => do
    let name ← Shift.textOf f
    let (args, vars) ← ReadTerm.toTerms vars args
    some (.compound name args, vars)
termination_by structural t => t

def ReadTerm.toTerms (vars : List (Option Text)) :
    List ReadTerm → Option (List Term × List (Option Text))
  | [] => some ([], vars)
  | t :: ts => do
    let (t, vars) ← t.toTerm vars
    let (ts, vars) ← ReadTerm.toTerms vars ts
    some (t :: ts, vars)
termination_by structural ts => ts

end

/-- A name without quotes that is an operator, or no text. -/
def Operators.isOp (ops : Operators) (a : Text) : Bool :=
  a = ['[', ']'] ∨ (ops.current .opPrefix (.text (wideChars a))).isSome ∨
    (ops.current .opInfix (.text (wideChars a))).isSome ∨
    (ops.current .opPostfix (.text (wideChars a))).isSome

/-- The reader with these operators, and with `str_number` as two parts: the text of a number, and
its value. -/
def plGrammar (ops : Operators) (strNumber : Text → Option (Text × Text)) : Grammar where
  strNumber
  mustBeOp prior :=
    match ParseState.start.run ops prior with
    | .ok s => s.mustBeOp
    | .error _ => false
  isOp := ops.isOp
  complexTerm toks := do
    let t ← (parse ops toks).toOption
    let (t, _) ← t.toTerm number []
    some t

end

/-! ## Integers -/

def digits (s : Text) : Option (Text × Text) :=
  if s.takeWhile isDigit = [] then none else some (s.takeWhile isDigit, s.dropWhile isDigit)

/-- `str_number`, of a decimal integer -/
def decimalNumber : Text → Option (Text × Text)
  | [] => none
  | c :: s =>
    if c = '+' ∨ c = '-' then (digits s).map fun (n, rest) => (c :: n, rest)
    else digits (c :: s)

def decimalValue : Text → Option Term
  | '-' :: ds => some (.int (-Nat.ofDigitChars 10 ds 0))
  | '+' :: ds => some (.int (Nat.ofDigitChars 10 ds 0))
  | ds => some (.int (Nat.ofDigitChars 10 ds 0))

/-- The reader with the operators of `system`, for texts whose numbers are decimal integers. -/
def systemGrammar : Grammar := plGrammar decimalValue systemOperators decimalNumber

end Rolog
