/-
  `leaf` on term references (rolog_query.cpp, SWI-cpp.h). A `PlTerm` is a reference, and the
  converters work by side effects on the cells: `leaf_lang` reserves the arguments of a call
  before it translates them, and `PlTail` builds lists through a reference that moves along.
-/
import Rolog.Encode
import Rolog.Lib.TermRefs

namespace Rolog

open Unwind Unwind.Outcome TermRefs

/-- The words that are neither compounds nor references. -/
inductive Const where
  | int (i : Int)
  | float (bits : UInt64)
  | str (s : Text)
  | atom (name : Text)
  | nil
  | blob (id : Nat)
  deriving DecidableEq

def Const.term : Const → Term
  | int i => .int i
  | float x => .float x
  | str s => .str s
  | atom a => .atom a
  | nil => .nil
  | blob n => .blob n

/-- The terms that the words stand for. -/
def reading : Reading Const Text Term := ⟨Const.term, Term.compound⟩

/-- What the C++ interface throws, with its references. -/
inductive RefThrown where
  /-- `PlTypeError(expected, actual)` -/
  | typeError (expected : String) (actual : TermRef)
  /-- `PlTermvDomainError(size, n)` -/
  | termvDomainError (size n : Nat)
  /-- an exception without references -/
  | cpp (e : Thrown)

/-- A C++ function on term references. -/
abbrev Refs := Proc (Store Const Text) RefThrown RError

namespace Refs

/-- A function that does not touch the references. -/
def ofCpp {α : Type} : Cpp α → Refs α
  | done a => pure a
  | thrown e => Proc.lift (thrown (.cpp e))
  | jumped r => Proc.lift (jumped r)
  | undefined => Proc.lift undefined

/-! ## The classes of SWI-cpp.h -/

/-- `PlTerm()` -/
def plTerm : Refs TermRef := newTermRef

/-- `PlTerm(val)` for a number or an atom, and `PlString(text)` -/
def plConst (val : Const) : Refs TermRef := do
  let ref ← newTermRef
  setHandle ref (.const val)
  pure ref

structure PlTermv where
  a0 : TermRef
  size : Nat

/-- `PlTermv(n)` -/
def plTermv (n : Nat) : Refs PlTermv := do
  let a0 ← newTermRefs n
  pure ⟨a0, n⟩

/-- `PlTermv(m0, m1)` -/
def plTermvOf (m0 m1 : TermRef) : Refs PlTermv := do
  let a0 ← newTermRefs 2
  putTerm (a0.add 0) m0
  putTerm (a0.add 1) m1
  pure ⟨a0, 2⟩

/-- `v[n]` -/
def PlTermv.index (v : PlTermv) (n : Nat) : Refs TermRef :=
  if n < v.size then pure (v.a0.add n) else Proc.lift (thrown (.termvDomainError v.size n))

/-- `PlCompound(functor, args)` -/
def plCompound (functor : Text) (args : PlTermv) : Refs TermRef := do
  let ref ← newTermRef
  consFunctorV (.atom functor) functor args.size ref args.a0
  pure ref

/-- `PlTail(l)`. The base class makes a reference first, which is lost. -/
def plTail (l : TermRef) : Refs TermRef := do
  let _ref ← plTerm
  if ← isVariable l then copyTermRef l
  else if ← isList dot .nil l then copyTermRef l
  else Proc.lift (thrown (.typeError "list" l))

/-- `PlTail::append` -/
def append (ref e : TermRef) : Refs Bool := do
  let tmp ← newTermRef
  if ← unifyList dot ref tmp ref then
    if ← unify tmp e then
      resetTermRefs tmp
      pure true
    else pure false
  else pure false

/-- `PlTail::close` -/
def close (ref : TermRef) : Refs Bool := unifyConst ref .nil

/-! ## rolog_query.cpp -/

/-- `for(i) t.append(PlTerm(v[i]))` -/
def appendEach (t : TermRef) : List Const → Refs Unit
  | [] => pure ()
  | val :: vals => do
    let e ← plConst val
    let _ ← append t e
    appendEach t vals

/-- The list of `r2pl_real` and `r2pl_string`. -/
def plListOf (vals : List Const) : Refs TermRef := do
  let list ← plTerm
  let t ← plTail list
  appendEach t vals
  let _ ← close t
  pure list

def r2plReal : List UInt64 → Refs TermRef
  | [x] => plConst (.float x)
  | v => plListOf (v.map .float)

def r2plString : List (Option CString) → Refs TermRef
  | [s] => plConst (.str (getCstring s).text)
  | v => plListOf (v.map fun s => .str (getCstring s).text)

def leafNa : Refs TermRef := plConst (.int (-1))

def leafInt : List Int32 → Refs TermRef
  | i :: _ => plConst (.int i.toInt)
  | [] => Proc.lift undefined

def leafLogical : List (Option Bool) → Refs TermRef
  | some true :: _ => plConst (.atom cTrue.text)
  | some false :: _ => plConst (.atom cFalse.text)
  | none :: _ => leafNa
  | [] => Proc.lift undefined

/-- `PlCompound("=", PlTermv(PlAtom(argname), arg))`. C++ leaves open which of the two terms is
made first. -/
def named (atomFirst : Bool) (argname : Text) (arg : Refs TermRef) : Refs TermRef :=
  if atomFirst then do
    let m0 ← plConst (.atom argname)
    let m1 ← arg
    let args ← plTermvOf m0 m1
    plCompound eqSign args
  else do
    let m1 ← arg
    let m0 ← plConst (.atom argname)
    let args ← plTermvOf m0 m1
    plCompound eqSign args

mutual

/-- `leaf`, and `leaf_lang` on calls -/
def leaf (atomFirst : Bool) : SEXP → Refs TermRef
  | .lang car cdr => do
    let v ← plTermv cdr.length
    let i ← leafArgs atomFirst v 0 cdr
    let pred ← ofCpp (asSymbol car)
    let _c ← plCompound pred.text v
    if 0 < i then plCompound pred.text v
    else do
      let none ← plTermv 0
      plCompound pred.text none
  | .real v => r2plReal v
  | .lgl v => leafLogical v
  | .int v => leafInt v
  | .sym s => plConst (.atom s.text)
  | .str v _ => r2plString v
  | .vec _ _ | .other _ => leafNa
termination_by structural e => e

/-- The loop of `leaf_lang` from argument `i` on. -/
def leafArgs (atomFirst : Bool) (v : PlTermv) (i : Nat) : List (Option CString × SEXP) → Refs Nat
  | [] => pure i
  | (none, e) :: cdr => do
    let t ← leaf atomFirst e
    let vi ← v.index i
    let _ ← unify vi t
    leafArgs atomFirst v (i + 1) cdr
  | (some argname, e) :: cdr => do
    let t ← named atomFirst argname.text (leaf atomFirst e)
    let vi ← v.index i
    let _ ← unify vi t
    leafArgs atomFirst v (i + 1) cdr
termination_by structural cdr => cdr

end

end Refs

end Rolog
