/-
  The writer on compounds: `writeTerm2` with operators, brackets and the spaces of `PutOpenToken`
  (pl-write.c), under the flags of `PL_get_text`, and without block operators. `writeOperators` is
  what the writer of lists (`writeTerm`) leaves open (`writeTerm_eq_write`).
-/
import Rolog.OperatorTable
import Rolog.RawRead

namespace Rolog

/-! ## The stream -/

/-- The flags on `lastc`: `C_PREFIX_OP`, without and with `C_PREFIX_SIGN`, and `C_INFIX_OP`. -/
inductive OpMark where
  | no
  | prefixOp
  | prefixSign
  | infixOp
  deriving DecidableEq

/-- The text so far, and the flags on its last character. -/
structure WriteState where
  out : Text
  mark : OpMark := .no

namespace WriteState

/-- `needSpace` -/
def needSpace (s : WriteState) (c : Char) : Bool :=
  let apart := Rolog.needSpace c s.out.getLast?
  match s.mark with
  | .no => apart
  | .prefixOp => c == '(' || c == '\x7b' || apart
  | .prefixSign => isDigit c || isSymbol c || c == '(' || c == '\x7b' || apart
  | .infixOp => c != '(' && apart

/-- `PutString`, of a text that is not empty -/
def putString (s : WriteState) (u : Text) : WriteState := { out := s.out ++ u }

/-- `Putc` -/
def putc (s : WriteState) (c : Char) : WriteState := s.putString [c]

/-- `PutOpenToken` -/
def putOpenToken (s : WriteState) (c : Char) : WriteState :=
  if s.needSpace c then s.putc ' ' else s

/-- `PutToken` -/
def putToken (s : WriteState) : Text → WriteState
  | [] => s
  | c :: u => (s.putOpenToken c).putString (c :: u)

def setMark (s : WriteState) (mark : OpMark) : WriteState := { s with mark := mark }

/-- `PutOpenBrace`, if the term must be embraced -/
def openBrace (s : WriteState) (embrace : Bool) : WriteState :=
  if embrace then s.putToken ['('] else s

/-- `PutCloseBrace`, if the term must be embraced -/
def closeBrace (s : WriteState) (embrace : Bool) : WriteState :=
  if embrace then s.putc ')' else s

end WriteState

/-! ## Names -/

/-- An atom as `writeAtom` has it. -/
def atomText (a : Text) : Text :=
  match atomType a with
  | .lower | .symbol | .solo | .special => a
  | .quote | .fullstop => writeQuoted '\'' a

/-- The flags behind a prefix operator. -/
def prefixMark (f : Text) : OpMark := if f = ['-'] ∨ f = ['+'] then .prefixSign else .prefixOp

/-- An infix operator. If there is a space in front of its name, there is one behind it too. -/
def writeInfix (s : WriteState) (f : Text) : WriteState :=
  if f = [','] ∨ f = ['|'] then (s.putString f).setMark .infixOp
  else if f = ['.'] then (s.putToken f).setMark .infixOp
  else if (atomText f).head?.any s.needSpace then
    ((s.putToken (atomText f)).putc ' ').setMark .infixOp
  else (s.putToken (atomText f)).setMark .infixOp

/-! ## Terms -/

/-- Where a term stands: as a term of some priority, as an argument or element, or as the tail of
a list. -/
inductive Place where
  | term (prec : Nat)
  | arg
  | tail
  deriving DecidableEq

namespace Place

def prec : Place → Nat
  | term prec => prec
  | arg | tail => 999

/-- The bar in front of a tail. -/
def enter (s : WriteState) : Place → WriteState
  | term _ | arg => s
  | tail => s.putc '|'

end Place

/-- The functor of variable names, `$VAR`. -/
def isoVar : Text := "$VAR".toList

section

variable (ops : Operators)

/-- `priorityOperator` is above 0. -/
def Operators.isAny (a : AtomName) : Bool :=
  (ops.current .opPrefix a).isSome || (ops.current .opInfix a).isSome ||
    (ops.current .opPostfix a).isSome

/-- An atom that is an operator is embraced where an operator takes it. -/
def Place.embraces (a : AtomName) : Place → Bool
  | term prec => prec < 1200 && ops.isAny a
  | arg | tail => false

variable (other : Text → Term → Text)

mutual

/-- `writeTerm2`, and the loop of `writeList` on the tail of a list. -/
def write (p : Place) (s : WriteState) : Term → WriteState
  | .atom a =>
    let embrace := p.embraces ops (.text (wideChars a))
    (((p.enter s).openBrace embrace).putToken (atomText a)).closeBrace embrace
  | .nil =>
    match p with
    | .tail => s
    | .term _ | .arg =>
      let embrace := p.embraces ops .nil
      ((s.openBrace embrace).putToken ['[', ']']).closeBrace embrace
  | .int i => (p.enter s).putToken (decimal i)
  | .str u => (p.enter s).putString (writeQuoted '"' u)
  | .compound f [t] =>
    let s := p.enter s
    if f = isoVar then { out := other s.out (.compound f [t]) }
    else if f = ['\x7b', '\x7d'] then (write (.term 1200) (s.putToken ['\x7b']) t).putc '\x7d'
    else
      match ops.current .opPrefix (.text (wideChars f)) with
      | some (type, pri) =>
        let s := (s.openBrace (p.prec < pri)).putToken (atomText f)
        (write (.term (type.rightPri pri)) (s.setMark (prefixMark f)) t).closeBrace (p.prec < pri)
      | none =>
        match ops.current .opPostfix (.text (wideChars f)) with
        | some (type, pri) =>
          let s := write (.term (type.leftPri pri)) (s.openBrace (p.prec < pri)) t
          (s.putToken (atomText f)).closeBrace (p.prec < pri)
        | none => (write .arg ((s.putToken (atomText f)).putc '(') t).putc ')'
  | .compound f [l, r] =>
    if f = dot then
      if p = .tail then write .tail (write .arg (s.putc ',') l) r
      else (write .tail (write .arg (s.putc '[') l) r).putc ']'
    else
      let s := p.enter s
      match ops.current .opInfix (.text (wideChars f)) with
      | some (type, pri) =>
        let s := write (.term (type.leftPri pri)) (s.openBrace (p.prec < pri)) l
        (write (.term (type.rightPri pri)) (writeInfix s f) r).closeBrace (p.prec < pri)
      | none =>
        let s := write .arg ((s.putToken (atomText f)).putc '(') l
        (write .arg (s.putc ',') r).putc ')'
  | .compound f [] => (((p.enter s).putToken (atomText f)).putc '(').putc ')'
  | .compound f (t :: ts) =>
    let s := write .arg (((p.enter s).putToken (atomText f)).putc '(') t
    (writeArgs s ts).putc ')'
  | t => { out := other (p.enter s).out t }
termination_by structural t => t

/-- The arguments behind the first. -/
def writeArgs (s : WriteState) : List Term → WriteState
  | [] => s
  | t :: ts => writeArgs (write .arg (s.putc ',') t) ts
termination_by structural ts => ts

end

/-- What the writer of lists leaves open: a text of its own, or a part of a list. -/
def writeOperators (out : Text) (t : Term) : Text :=
  match out with
  | [] => (write ops other (.term 1200) { out := [] } t).out
  | _ :: _ => (write ops other .arg { out } t).out

end

end Rolog
