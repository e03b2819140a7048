/-
  The first pass of the reader (`raw_read2`, `raw_read_quoted` in pl-read.c): it copies the text
  of one term up to its full stop, and puts blanks for comments. ASCII texts, with the default
  flags: character escapes on, back quotes read as codes, quasi quotations on, not ISO.

  The loops of the source are one automaton here: a mode says which `getchr` comes next. What
  reads on once a term has ended stays in mode `stop`.
-/
import Rolog.Write

namespace Rolog

/-! ## Characters -/

/-- `PlBlankW` -/
def isBlank (c : Char) : Bool := charType c = .sp

/-- `isDigit` -/
def isDigit (c : Char) : Bool := charType c = .di

/-- `digitValue(base, c)`, `none` for -1; the base is not 0. -/
def digitValue (base : Nat) (c : Char) : Option Nat :=
  let lower := if c.isUpper then c.toNat + 32 else c.toNat
  if base = 1 then none
  else if isDigit c then if c.toNat - 48 < base then some (c.toNat - 48) else none
  else if 97 ≤ lower ∧ lower - 87 < base then some (lower - 87)
  else none

/-! ## States -/

/-- The places in `raw_read_quoted` that read a character. -/
inductive QuotedMode where
  | text
  /-- after `\` -/
  | escape
  /-- after `\x` -/
  | hex
  | digits (base : Nat)
  /-- after `\c` -/
  | blanks
  /-- after `\` and a newline -/
  | newline
  deriving DecidableEq

/-- The places in `raw_read2` that read a character. -/
inductive RawMode where
  /-- the start of the loop; the loops over blanks and over identifiers do the same -/
  | next
  | symbols
  /-- after `/` -/
  | slash
  /-- after `/*` -/
  | blockStart
  | block (last : Char) (level : Nat)
  | line
  /-- `Speekcode` after `.` -/
  | dot
  | quoted (quote : Char) (m : QuotedMode)
  /-- after `0'` -/
  | charCode
  /-- after `0'\` -/
  | charEscape
  /-- after `0'` and one of `'`, `|`, which is read twice -/
  | charTwice (c : Char)
  /-- `Speekcode` after `base'` -/
  | radix (base : Nat)
  | quasi
  /-- the term has ended -/
  | stop
  /-- a syntax error -/
  | failed
  deriving DecidableEq

/-- The read buffer, its last character first. -/
structure Raw where
  mode : RawMode
  out : Text
  somethingRead : Bool

namespace Raw

/-- `clearBuffer` -/
def start : Raw where
  mode := .next
  out := []
  somethingRead := false

/-- `addToBuffer` -/
def add (r : Raw) (c : Char) : Raw := { r with out := c :: r.out }

/-- A comment leaves blanks, once something is read. -/
def addBlank (r : Raw) (c : Char) : Raw := if r.somethingRead then r.add c else r

/-- `set_start_line` -/
def setStartLine (r : Raw) : Raw := { r with somethingRead := true }

def goto (r : Raw) (mode : RawMode) : Raw := { r with mode := mode }

/-- What a comment has for its character `c`. -/
def blankOf (c : Char) : Char := if c = '\n' then '\n' else ' '

/-! ## Reading a character -/

/-- The base in front of a single quote: one or two digits that are not the end of a name. -/
def radixBase : Text → Option Nat
  | [] => none
  | d :: before =>
    if isDigit d then
      if (before.head?.map isDigit).getD false then
        let base := ((before.head?.bind (digitValue 10)).getD 0) * 10 + (digitValue 10 d).getD 0
        if (before.tail.head?.map isAlpha).getD false ∨ 36 < base then none else some base
      else if (before.head?.map isAlpha).getD false then none else digitValue 10 d
    else none

/-- `raw_read_quoted` starts. -/
def openQuote (r : Raw) (quote : Char) : Raw :=
  (r.setStartLine.add quote).goto (.quoted quote .text)

/-- `case '\''` -/
def singleQuote (r : Raw) : Raw :=
  match radixBase r.out with
  | some 0 => (r.add '\'').goto .charCode
  | some base => r.goto (.radix base)
  | none => r.openQuote '\''

/-- `handle_c` -/
def handle (r : Raw) (c : Char) : Raw :=
  if c = '/' then r.goto .slash
  else if c = '%' then (r.addBlank ' ').goto .line
  else if c = '\'' then r.singleQuote
  else if c = '"' ∨ c = '`' then r.openQuote c
  else if c = '.' then (r.add c).setStartLine.goto .dot
  else if isBlank c then (r.addBlank c).goto .next
  else if isSymbol c then (r.setStartLine.add c).goto .symbols
  else if c = '|' ∧ r.out.head? = some '|' then (r.add c).goto .quasi
  else (r.add c).setStartLine.goto .next

/-- The loop over symbol characters. -/
def symbols (r : Raw) (c : Char) : Raw :=
  if isSymbol c then (r.add c).goto .symbols else r.handle c

/-- The next character of a quoted text, outside escapes. -/
def quotedText (r : Raw) (quote c : Char) : Raw :=
  if c = quote then (r.add c).goto .next
  else (r.add c).goto (.quoted quote (if c = '\\' then .escape else .text))

/-- The next character of a quoted text. -/
def quoted (r : Raw) (quote : Char) : QuotedMode → Char → Raw
  | .text, c => r.quotedText quote c
  | .escape, c =>
    (r.add c).goto (.quoted quote
      (if c = 'x' then .hex
      else if c = 'c' then .blanks
      else if (digitValue 8 c).isSome then .digits 8
      else if c = '\n' then .newline
      else .text))
  | .hex, c =>
    if (digitValue 16 c).isSome then (r.add c).goto (.quoted quote (.digits 16))
    else (r.add c).goto (if c = quote then .next else .quoted quote .text)
  | .digits base, c =>
    if (digitValue base c).isSome then r.add c
    else (r.add c).goto (if c = quote then .next else .quoted quote .text)
  | .blanks, c => if isBlank c then r.add c else r.quotedText quote c
  | .newline, c => (r.add c).goto (if c = quote then .next else .quoted quote .text)

/-- The next character of a block comment. -/
def block (r : Raw) (last : Char) (level : Nat) (c : Char) : Raw :=
  if c = '*' then
    (r.addBlank ' ').goto (.block c (if last = '/' then level + 1 else level))
  else if c = '/' ∧ last = '*' then
    if level = 1 then r.handle ' ' else (r.addBlank ' ').goto (.block c (level - 1))
  else (r.addBlank (blankOf c)).goto (.block c level)

/-- The reader gets the character `c`. -/
def step (r : Raw) (c : Char) : Raw :=
  match r.mode with
  | .next => r.handle c
  | .symbols => r.symbols c
  | .slash => if c = '*' then r.goto .blockStart else (r.setStartLine.add '/').symbols c
  | .blockStart =>
    (((r.addBlank ' ').addBlank ' ').addBlank (blankOf c)).goto (.block c 1)
  | .block last level => r.block last level c
  | .line => if c = '\n' then r.handle c else (r.addBlank ' ').goto .line
  | .dot =>
    if isBlank c ∨ c = '%' then
      if r.out.length = 1 then r.goto .failed else (r.add ' ').goto .stop
    else r.symbols c
  | .quoted quote m => r.quoted quote m c
  | .charCode =>
    (r.add c).goto
      (if c = '\\' then .charEscape else if c = '\'' ∨ c = '|' then .charTwice c else .next)
  | .charEscape => (r.add c).goto .next
  | .charTwice d => if c = d then (r.add c).goto .next else r.handle c
  | .radix base =>
    if (digitValue base c).isSome then ((r.add '\'').add c).goto .next
    else (r.openQuote '\'').quotedText '\'' c
  | .quasi => (r.add c).goto (if c = '\x7d' ∧ r.out.head? = some '|' then .next else .quasi)
  | .stop | .failed => r

/-! ## The end of the text -/

/-- `ensure_space` -/
def ensureSpace (r : Raw) (c : Char) : Raw :=
  if r.somethingRead ∧ (c = '\n' ∨ (r.out.head?.map isBlank).getD false = false) then r.add c
  else r

/-- `EOF` of a string stream: the full stop may be missing. -/
def endOfText (r : Raw) : Text :=
  if r.somethingRead then (((r.ensureSpace ' ').add '.').ensureSpace ' ').out.reverse
  else "end_of_file. ".toList

/-- The text of the term, or a syntax error. -/
def finish (r : Raw) : Option Text :=
  match r.mode with
  | .next | .symbols | .line | .charEscape | .charTwice _ => some r.endOfText
  | .slash => some (r.setStartLine.add '/').endOfText
  | .dot => if r.out.length = 1 then none else some (r.add ' ').out.reverse
  | .stop => some r.out.reverse
  | .blockStart | .block _ _ | .quoted _ _ | .charCode | .radix _ | .quasi | .failed => none

end Raw

/-- `raw_read` -/
def rawRead (text : Text) : Option Text := (text.foldl Raw.step Raw.start).finish

end Rolog
