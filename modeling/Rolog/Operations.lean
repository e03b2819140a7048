/-
  The eight operations that R can call (rolog_init.cpp, rolog_call.cpp, rolog_consult.cpp,
  rolog_query*.cpp). `rolog_exit`, `rolog_consult` and `rolog_call` look at the pointer
  `rolog_engine` first; the four queries do not.
-/
import Rolog.Engine
import Rolog.Lib.Trace

namespace Rolog

open Unwind Unwind.Outcome

/-- `NULL` in R -/
def rNull : SEXP := .other 0

/-- The character vector `"Rolog not initialized"`. -/
def notInitialized : SEXP := .str [some (cstr "Rolog not initialized".toList)] []

/-! ## The engine -/

/-- `PL_initialise`: true at once if Prolog is initialised already. After a `PL_cleanup` that went
through it crashes in `getBlob`: the static blob types are still marked as registered, and the
table of them is gone. -/
def plInitialise (w : World) : Cxx Bool := fun s =>
  let s := { s with log := s.log ++ [(.initialise, s.live)] }
  if s.live then (done true, s)
  else if s.cleaned then (undefined, s)
  else
    match w.initialise with
    | .ok => (done true, { s with live := true, pending := none, queries := [] })
    | .fails live => (done false, { s with live := live, pending := none, queries := [] })

/-- `new PlEngine(argc, argv)` -/
def plEngine (w : World) : Cxx Unit := do
  if ← plInitialise w then pure () else Proc.lift (thrown .plError)

/-- `PL_cleanup(0)`: the halt hooks run in `query_loop`, which begins with
`PL_clear_exception`. -/
def plCleanup (w : World) : Cxx Unit := do
  api .cleanup
  Proc.modify fun s =>
    if w.cleanup then { s with live := false, cleaned := true, pending := none, queries := [] }
    else { s with pending := none }

/-- `rolog_exit` -/
def rologExit (w : World) : Cxx SEXP := Proc.withState fun s => do
  if s.rologEngine then plCleanup w
  Proc.modify fun s => { s with rologEngine := false }
  pure rNull

/-- The goal that `rolog_init` formats. -/
def initGoal (home : CString) : CString :=
  .ofBytes (toLatin1 "asserta(file_search_path(library, \"".toList ++ home.bytes ++
    toLatin1 "/library\"))".toList)

/-- `rolog_init`: `sprintf` has 512 bytes for the goal and its NUL. -/
def rologInit (w : World) (home _prc : CString) : Cxx SEXP := Proc.withState fun s => do
  if !s.rologEngine then
    plEngine w
    Proc.modify fun s => { s with rologEngine := true }
  if 512 ≤ (initGoal home).bytes.length then Proc.lift undefined
  let _ ← plCallText w (initGoal home)
  pure (.int [0])

/-! ## Guarded operations -/

/-- `rolog_call` -/
def rologCall (w : World) (goal : CString) : Cxx SEXP := Proc.withState fun s => do
  if !s.rologEngine then return notInitialized
  let _ ← plCallText w goal
  pure (.str [] [])

/-- The loop of `rolog_consult`. -/
def consultFiles (w : World) : List (Option CString) → Cxx (List (Option CString))
  | [] => pure []
  | file :: files => do
    api .terms
    let a ← plCall w (cstr "consult".toList) [.str (getCstring file).text]
    let r ← consultFiles w files
    pure (if a.isSome then file :: r else r)

/-- `rolog_consult` -/
def rologConsult (w : World) (files : List (Option CString)) : Cxx SEXP :=
  Proc.withState fun s => do
    if !s.rologEngine then return notInitialized
    let r ← consultFiles w files
    pure (.str r [])

/-! ## Queries -/

/-- `String(arguments[0])`: the first element. An empty vector is read out of bounds. -/
def firstArgument : List (Option CString) → Cpp CString
  | a :: _ => done (getCstring a)
  | [] => undefined

/-- A query on `predicate(a, X)` that collects the answers `X` through `body`. -/
def queryAnswers (w : World) (predicate : CString) (a : Term) (body : Term → Cpp SEXP) :
    Cxx SEXP :=
  PlQuery.scope w predicate [a, .var 0] fun q script => do
    let r ← PlQuery.whileSolution q body script
    pure (.vec r [])

/-- `rolog_query` -/
def rologQuery (w : World) (predicate : CString) (call : SEXP) : Cxx SEXP := do
  api .terms
  let a ← converted (leaf call)
  queryAnswers w predicate a pl2rLeaf

/-- `rolog_query_LL` -/
def rologQueryLL (w : World) (predicate : CString) (arguments : List (Option CString)) :
    Cxx SEXP := do
  api .terms
  let text ← Proc.lift (firstArgument arguments)
  let a ← plCompoundOfText w text
  queryAnswers w predicate a rologGet

/-- `String((wchar_t*) t)` as an element of a list. -/
def wideString (w : World) (t : Term) : Cpp SEXP :=
  done (.str [some (wideToNative (w.termText t))] [])

/-- `rolog_query_comp` -/
def rologQueryComp (w : World) (predicate : CString) (arguments : List (Option CString)) :
    Cxx SEXP := do
  api .terms
  let text ← Proc.lift (firstArgument arguments)
  let a ← plCompoundOfText w text
  queryAnswers w predicate a (wideString w)

/-- `String((char*) t)` as an element of a list. -/
def charString (w : World) (t : Term) : Cpp SEXP :=
  match plGetChars (w.termText t) with
  | some s => done (.str [some s] [])
  | none => thrown (.typeError "text" t)

/-- `rolog_query_string`: one answer at most, and a foreign frame around it all. -/
def rologQueryString (w : World) (predicate : CString) (arguments : List (Option CString)) :
    Cxx SEXP := do
  api .openFrame
  Proc.object () (fun _ => api .closeFrame) (Proc.inner do
    api .terms
    let text ← Proc.lift (firstArgument arguments)
    let r ← plCall w predicate [.str text.text, .var 0]
    match r with
    | some t => do
      let x ← converted (charString w t)
      pure (.vec [x] [])
    | none => pure (.vec [] []))

/-! ## Calls from R -/

/-- A call from R of an exported operation. -/
inductive Op where
  | init (home prc : CString)
  | exit
  | consult (files : List (Option CString))
  | call (goal : CString)
  | query (predicate : CString) (call : SEXP)
  | queryLL (predicate : CString) (arguments : List (Option CString))
  | queryComp (predicate : CString) (arguments : List (Option CString))
  | queryString (predicate : CString) (arguments : List (Option CString))

/-- The operations that enter Prolog without a look at `rolog_engine`. -/
def Op.unguarded : Op → Bool
  | query _ _ | queryLL _ _ | queryComp _ _ | queryString _ _ => true
  | _ => false

/-- The operations that open queries for R. -/
def Op.calls : Op → Bool
  | init _ _ | exit => false
  | _ => true

def Op.isInit : Op → Bool
  | init _ _ => true
  | _ => false

/-- What the operation does. -/
def Op.exec (w : World) : Op → Cxx SEXP
  | init home prc => rologInit w home prc
  | exit => rologExit w
  | consult files => rologConsult w files
  | call goal => rologCall w goal
  | query predicate e => rologQuery w predicate e
  | queryLL predicate arguments => rologQueryLL w predicate arguments
  | queryComp predicate arguments => rologQueryComp w predicate arguments
  | queryString predicate arguments => rologQueryString w predicate arguments

/-- The session when the next call starts: an empty log, and nothing pending is its own. -/
def Session.start (s : Session) : Session :=
  { s with log := [], pending := s.pending.map fun (_, ball) => (false, ball) }

/-- One call from R. -/
def Op.run (w : World) (op : Op) (s : Session) : Outcome Thrown RError SEXP × Session :=
  op.exec w s.start

/-- Nothing is known of the process after undefined behaviour. -/
def isUndefined {α : Type} : Cpp α → Bool
  | undefined => true
  | _ => false

/-- A call with the world that it meets. -/
abbrev Call := World × Op

/-- A call, its outcome for R, and the session around it. -/
abbrev Step := Machine.Step Session Call (Cpp SEXP)

/-- The calls of a session, one after the other. -/
def trace : Session → List Call → List Step := Machine.trace (fun c => c.2.run c.1) isUndefined

/-! ## A world to try them in -/

/-- A world with one behaviour for every goal. Texts read as `[]`. -/
def worldOf (script : Solve) : World where
  charsToTerm _ := .ok .nil
  solve _ _ _ := script
  termText _ := []
  initialise := .ok
  cleanup := true

/-- A process with an initialised engine, as `rolog_init` leaves it. -/
def readySession : Session := { rologEngine := true, live := true }

end Rolog
