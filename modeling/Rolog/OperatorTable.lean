/-
  Operators (pl-op.c). A module has a table of its own and sees those of the modules it inherits
  from; `currentOperator` is the first entry for a name and a kind. `systemTable` is the table that
  `initOperators` makes, and `systemOperators` what `user` sees after the boot.
-/
import Rolog.Write

namespace Rolog

/-! ## Names -/

/-- The atom of a token. `[]` is no text. -/
inductive AtomName where
  | nil
  | text (a : List Nat)
  deriving DecidableEq

namespace AtomName

/-- The name of a compound. -/
def functor : AtomName → List Nat
  | nil => wideChars ['[', ']']
  | text a => a

/-- A name without quotes. -/
def ofName (a : List Nat) : AtomName := if a = wideChars ['[', ']'] then nil else text a

end AtomName

/-! ## Types -/

inductive OpKind where
  | opPrefix
  | opInfix
  | opPostfix
  deriving DecidableEq

inductive OpType where
  | fx
  | fy
  | xf
  | yf
  | xfx
  | xfy
  | yfx
  deriving DecidableEq

namespace OpType

/-- `OP_MASK` -/
def kind : OpType → OpKind
  | fx | fy => .opPrefix
  | xf | yf => .opPostfix
  | xfx | xfy | yfx => .opInfix

/-- `left_pri`, from the priority of the operator -/
def leftPri (pri : Nat) : OpType → Nat
  | fx | fy => 0
  | xf | xfx | xfy => pri - 1
  | yf | yfx => pri

/-- `right_pri` -/
def rightPri (pri : Nat) : OpType → Nat
  | fx | xfx | yfx => pri - 1
  | fy | xfy => pri
  | xf | yf => 0

end OpType

/-! ## Tables -/

/-- `opdef`: an operator, or with priority 0 none, whatever the modules behind have. -/
structure OpDef where
  name : AtomName
  type : OpType
  priority : Nat
  priority_le : priority ≤ 1200 := by decide

/-- `visibleOperator`: the table of a module, and then those it inherits from, in the order of the
search. -/
def visibleOperator (tables : List (List OpDef)) (kind : OpKind) (name : AtomName) :
    Option OpDef :=
  tables.flatten.find? fun op => op.name = name ∧ op.type.kind = kind

/-- `currentOperator` -/
def currentOperator (tables : List (List OpDef)) (kind : OpKind) (name : AtomName) :
    Option (OpType × Nat) := do
  let op ← visibleOperator tables kind name
  if 0 < op.priority then some (op.type, op.priority) else none

theorem currentOperator_spec {tables : List (List OpDef)} {kind : OpKind} {name : AtomName}
    {type : OpType} {pri : Nat} (h : currentOperator tables kind name = some (type, pri)) :
    type.kind = kind ∧ 0 < pri ∧ pri ≤ 1200 := by
  obtain ⟨op, hop, h⟩ := Option.bind_eq_some_iff.mp h
  by_cases hpos : 0 < op.priority
  · rw [if_pos hpos] at h
    cases h
    have hfound := List.find?_some hop
    exact ⟨(of_decide_eq_true hfound).2, hpos, op.priority_le⟩
  · rw [if_neg hpos] at h
    cases h

/-- The operators that a module sees, and `unquoted_atom`. -/
structure Operators where
  /-- `currentOperator` -/
  current : OpKind → AtomName → Option (OpType × Nat)
  unquotedAtom : List Nat → Bool
  kind_eq : ∀ kind a type pri, current kind a = some (type, pri) → type.kind = kind
  range : ∀ kind a type pri, current kind a = some (type, pri) → 0 < pri ∧ pri ≤ 1200

/-- The operators of some tables. -/
def Operators.ofTables (tables : List (List OpDef)) (unquotedAtom : List Nat → Bool) :
    Operators where
  current := currentOperator tables
  unquotedAtom
  kind_eq _ _ _ _ h := (currentOperator_spec h).1
  range _ _ _ _ h := (currentOperator_spec h).2

/-! ## The tables of `system` and `user` -/

/-- `OP`, of a name that is a text -/
def opDef (name : String) (type : OpType) (priority : Nat)
    (h : priority ≤ 1200 := by decide) : OpDef :=
  ⟨.text (wideChars name.toList), type, priority, h⟩

/-- `operators`, and what `initOperators` adds unless Prolog is traditional -/
def systemTable : List OpDef := [
  opDef "*" .yfx 400,
  opDef "+" .fy 200,
  opDef "+" .yfx 500,
  opDef "," .xfy 1000,
  opDef "-" .fy 200,
  opDef "-" .yfx 500,
  opDef "-->" .xfx 1200,
  opDef "->" .xfy 1050,
  opDef "*->" .xfy 1050,
  opDef "/" .yfx 400,
  opDef "//" .yfx 400,
  opDef "div" .yfx 400,
  opDef "rdiv" .yfx 400,
  opDef "/\\" .yfx 500,
  opDef ":" .xfy 600,
  opDef ":-" .fx 1200,
  opDef ":-" .xfx 1200,
  opDef ";" .xfy 1100,
  opDef "|" .xfy 1105,
  opDef "<" .xfx 700,
  opDef "<<" .yfx 400,
  opDef "=" .xfx 700,
  opDef "=.." .xfx 700,
  opDef "=:=" .xfx 700,
  opDef "=<" .xfx 700,
  opDef ">=" .xfx 700,
  opDef "==" .xfx 700,
  opDef "=\\=" .xfx 700,
  opDef ">:<" .xfx 700,
  opDef ":<" .xfx 700,
  opDef ">" .xfx 700,
  opDef ">>" .yfx 400,
  opDef "?-" .fx 1200,
  opDef "@<" .xfx 700,
  opDef "@=<" .xfx 700,
  opDef "@>" .xfx 700,
  opDef "@>=" .xfx 700,
  opDef "\\" .fy 200,
  opDef "\\+" .fy 900,
  opDef "\\/" .yfx 500,
  opDef "\\=" .xfx 700,
  opDef "\\==" .xfx 700,
  opDef "=@=" .xfx 700,
  opDef "\\=@=" .xfx 700,
  opDef "^" .xfy 200,
  opDef "**" .xfx 200,
  opDef "discontiguous" .fx 1150,
  opDef "dynamic" .fx 1150,
  opDef "volatile" .fx 1150,
  opDef "thread_local" .fx 1150,
  opDef "initialization" .fx 1150,
  opDef "thread_initialization" .fx 1150,
  opDef "is" .xfx 700,
  opDef "as" .xfx 700,
  opDef "mod" .yfx 400,
  opDef "rem" .yfx 400,
  opDef "module_transparent" .fx 1150,
  opDef "multifile" .fx 1150,
  opDef "meta_predicate" .fx 1150,
  opDef "public" .fx 1150,
  opDef "xor" .yfx 400,
  opDef "." .yfx 100,
  opDef ":=" .xfx 800]

/-- The one operator of `user` (boot/topvars.pl). -/
def userTable : List OpDef := [opDef "$" .fx 1]

/-- The operators that `user` sees. `unquotedAtom` is that of ASCII atoms. -/
def systemOperators : Operators :=
  .ofTables [userTable, systemTable] fun a => atomType (a.map Char.ofNat) ≠ .quote

end Rolog
