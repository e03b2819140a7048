/-
  `rolog_get` and `pl2r_leaf` on term references (rolog_query_LL.cpp, rolog_query.cpp, SWI-cpp.h).
  Both walk along a list by writing the same two references again and again, while they call
  themselves on the head. The recursion follows the cells, so it is limited by a number of
  nested calls, `fuel`; a call beyond it is left undefined.
-/
import Rolog.Decode
import Rolog.References
import Rolog.Lib.TermReads

namespace Rolog

open Unwind Unwind.Outcome TermRefs

/-- The name of a text atom. -/
def Const.name : Const → Option Text
  | atom a => some a
  | _ => none

namespace Refs

/-! ## Type tests -/

/-- `PL_is_integer` -/
def isInteger : TermRef → Refs Bool := test fun
  | .const (.int _) => true
  | _ => false

/-- `PL_is_number` -/
def isNumber : TermRef → Refs Bool := test fun
  | .const (.int _) => true
  | .const (.float _) => true
  | _ => false

/-- `PL_is_string` -/
def isString : TermRef → Refs Bool := test fun
  | .const (.str _) => true
  | _ => false

/-- `PL_is_atom`, of text atoms only -/
def isAtom : TermRef → Refs Bool := test fun
  | .const (.atom _) => true
  | _ => false

/-- `PL_is_compound` -/
def isCompound : TermRef → Refs Bool := test fun
  | .struct _ _ _ => true
  | _ => false

/-- `PL_get_nil` -/
def getNil : TermRef → Refs Bool := test fun
  | .const .nil => true
  | _ => false

/-! ## The classes of SWI-cpp.h -/

/-- The first argument of the term `error(_, _)` that `PlTypeError` makes. -/
def formal (expected : String) (actual : TermRef) : Refs TermRef := do
  if ← isVariable actual then plConst (.atom "instantiation_error".toList)
  else
    let m0 ← plConst (.atom expected.toList)
    let args ← plTermvOf m0 actual
    plCompound "type_error".toList args

/-- `throw PlTypeError(expected, actual)`. The term `error(_, _)` is made first, then the base class
makes a reference that is lost; the exception is known by the arguments of its constructor. -/
def plTypeError {α : Type} (expected : String) (actual : TermRef) : Refs α := do
  let m0 ← formal expected actual
  let m1 ← plTerm
  let args ← plTermvOf m0 m1
  let _ ← plCompound "error".toList args
  let _ref ← plTerm
  Proc.lift (thrown (.typeError expected actual))

/-- `PL_get_integer`, into 32 bits -/
def getInteger (t : TermRef) : Refs (Option Int32) := do
  match ← valHandle t with
  | .const (.int i) =>
    if -2147483648 ≤ i ∧ i < 2147483648 then pure (some (.ofInt i)) else pure none
  | _ => pure none

/-- `PL_get_float`. The conversion of an integer is left undefined. -/
def getFloat (t : TermRef) : Refs (Option UInt64) := do
  match ← valHandle t with
  | .const (.float x) => pure (some x)
  | .const (.int _) => Proc.lift undefined
  | _ => pure none

/-- `PL_get_wchars` of a text. What it writes for other terms is left undefined. -/
def getWchars (t : TermRef) : Refs (Option Text) := do
  match ← valHandle t with
  | .const (.str s) => pure (some s)
  | .const (.atom a) => pure (some a)
  | _ => Proc.lift undefined

/-- `PL_get_chars` of a text. What it writes for other terms is left undefined. -/
def getChars (t : TermRef) : Refs (Option CString) := do
  match ← valHandle t with
  | .const (.str s) => pure (plGetChars s)
  | .const (.atom a) => pure (plGetChars a)
  | _ => Proc.lift undefined

/-- A conversion of `PlTerm`, by a function of the foreign interface that may fail. -/
def convertBy {α : Type} (expected : String) (get : TermRef → Refs (Option α)) (t : TermRef) :
    Refs α := do
  match ← get t with
  | some v => pure v
  | none => plTypeError expected t

/-- `PlTerm::operator int` -/
def operatorInt : TermRef → Refs Int32 := convertBy "integer" getInteger

/-- `PlTerm::operator double` -/
def operatorDouble : TermRef → Refs UInt64 := convertBy "float" getFloat

/-- `PlTerm::operator wchar_t *` -/
def operatorWchars : TermRef → Refs Text := convertBy "text" getWchars

/-- `PlTerm::operator char *` -/
def operatorChars : TermRef → Refs CString := convertBy "text" getChars

/-- `PlTerm::name` -/
def name (t : TermRef) : Refs CString := do
  let (name, _) ← convertBy "compound" (getNameArity Const.name) t
  pure (plAtomChars name)

/-- `PlTerm::arity` -/
def arity (t : TermRef) : Refs Nat := do
  let (_, arity) ← convertBy "compound" (getNameArity Const.name) t
  pure arity

/-- `t[index]`, a new reference each time. The domain error of an index beyond the arity is left
undefined. -/
def index (ref : TermRef) (index : Nat) : Refs TermRef := do
  let t ← plTerm
  if ← getArg index ref t then pure t
  else if ← isCompound ref then Proc.lift undefined
  else plTypeError "compound" ref

/-- `PlTail::next` -/
def next (ref t : TermRef) : Refs Bool := do
  if ← getList dot ref t ref then pure true
  else if ← getNil ref then pure false
  else plTypeError "list" ref

/-! ## rolog_query_LL.cpp -/

mutual

/-- `rolog_get` -/
def rologGet : Nat → TermRef → Refs SEXP
  | 0, _ => Proc.lift undefined
  | fuel + 1, t => do
    if ← isInteger t then
      let i ← operatorInt t
      pure (.int [i])
    else if ← isNumber t then
      let x ← operatorDouble t
      pure (Rolog.leafReal x)
    else if ← isString t then
      let s ← operatorWchars t
      pure (Rolog.pl2rString s)
    else if ← isAtom t then
      let s ← operatorWchars t
      pure (atomVector (wideToNative s))
    else if ← isList dot .nil t then
      let head ← newTermRef
      let list ← copyTermRef t
      let l ← rologGetTail fuel list head
      pure (.vec l [])
    else if ← isCompound t then
      let f ← name t
      let l ← rologGetArgs fuel t 1
      pure (functionList f l)
    else pure (.real [])
termination_by structural fuel => fuel

/-- `while(PL_get_list(list, head, list)) l.push_back(rolog_get(head))` -/
def rologGetTail : Nat → TermRef → TermRef → Refs (List SEXP)
  | 0, _, _ => Proc.lift undefined
  | fuel + 1, list, head => do
    if ← getList dot list head list then
      let e ← rologGet fuel head
      let l ← rologGetTail fuel list head
      pure (e :: l)
    else pure []
termination_by structural fuel => fuel

/-- `for(i ; i<=t.arity() ; i++) l.push_back(rolog_get(t[i]))` -/
def rologGetArgs : Nat → TermRef → Nat → Refs (List SEXP)
  | 0, _, _ => Proc.lift undefined
  | fuel + 1, t, i => do
    let n ← arity t
    if i ≤ n then
      let ti ← index t i
      let x ← rologGet fuel ti
      let l ← rologGetArgs fuel t (i + 1)
      pure (x :: l)
    else pure []
termination_by structural fuel => fuel

end

/-! ## rolog_query.cpp -/

def pl2rInt (l : TermRef) : Refs SEXP := do
  let i ← operatorInt l
  pure (.int [i])

def leafReal (l : TermRef) : Refs SEXP := do
  let x ← operatorDouble l
  pure (Rolog.leafReal x)

def pl2rString (l : TermRef) : Refs SEXP := do
  let s ← operatorWchars l
  pure (Rolog.pl2rString s)

def leafSymbol (l : TermRef) : Refs SEXP := do
  let s ← operatorChars l
  let s ← ofCpp (install s)
  pure (symbolOrLogical s)

/-- `pl2r_list` around its loop -/
def pl2rList (loop : TermRef → TermRef → Refs (List SEXP)) (t : TermRef) : Refs SEXP := do
  let tail ← plTail t
  let e ← plTerm
  let l ← loop tail e
  pure (.vec l [])

/-- `pl2r_lang` around its loop -/
def pl2rLang (loop : TermRef → Nat → Refs (List (Option CString × SEXP))) (t : TermRef) :
    Refs SEXP := do
  let pred ← name t
  let pred ← ofCpp (install pred)
  let l ← loop t 1
  pure (.lang (.sym pred) l)

/-- `PL_is_compound(t[i]) && t[i].name() == std::string("=") && t[i].arity() == 2` -/
def isNamed (t : TermRef) (i : Nat) : Refs Bool := do
  let ti ← index t i
  if ← isCompound ti then
    let ti ← index t i
    let f ← name ti
    if f = cstr eqSign then
      let ti ← index t i
      let n ← arity ti
      pure (n = 2)
    else pure false
  else pure false

/-- One round of `pl2r_lang`, in the order of `Rolog.named`. -/
def pl2rArg (pl2rLeaf : TermRef → Refs SEXP) (t : TermRef) (i : Nat) :
    Refs (Option CString × SEXP) := do
  if ← isNamed t i then
    let u ← index t i
    let u2 ← index u 2
    let x ← pl2rLeaf u2
    let u1 ← index u 1
    let argname ← name u1
    let argname ← ofCpp (install argname)
    pure (some argname, x)
  else
    let ti ← index t i
    let x ← pl2rLeaf ti
    pure (none, x)

mutual

/-- `pl2r_leaf` -/
def pl2rLeaf : Nat → TermRef → Refs SEXP
  | 0, _ => Proc.lift undefined
  | fuel + 1, t => do
    if ← isInteger t then pl2rInt t
    else if ← isNumber t then leafReal t
    else if ← isString t then pl2rString t
    else if ← isAtom t then leafSymbol t
    else if ← isList dot .nil t then pl2rList (pl2rTail fuel) t
    else if ← isCompound t then pl2rLang (pl2rArgs fuel) t
    else pure Term.leafNa
termination_by structural fuel => fuel

/-- `while(tail.next(e)) l.push_back(pl2r_leaf(e))` -/
def pl2rTail : Nat → TermRef → TermRef → Refs (List SEXP)
  | 0, _, _ => Proc.lift undefined
  | fuel + 1, tail, e => do
    if ← next tail e then
      let x ← pl2rLeaf fuel e
      let l ← pl2rTail fuel tail e
      pure (x :: l)
    else pure []
termination_by structural fuel => fuel

/-- The loop of `pl2r_lang` from argument `i` on. -/
def pl2rArgs : Nat → TermRef → Nat → Refs (List (Option CString × SEXP))
  | 0, _, _ => Proc.lift undefined
  | fuel + 1, t, i => do
    let n ← arity t
    if i ≤ n then
      let a ← pl2rArg (pl2rLeaf fuel) t i
      let l ← pl2rArgs fuel t (i + 1)
      pure (a :: l)
    else pure []
termination_by structural fuel => fuel

end

end Refs

end Rolog
