/-
  The second pass of the reader: quoted texts (`get_string`, `escape_char`) and tokens
  (`get_token` in pl-read.c), on the text that `rawRead` leaves, with the default flags. The text
  of a quoted token is a list of wide characters, since an escape can name any of them.

  Two parts are parameters: `str_number`, and the parser `complex_term` over the tokens. The
  parser asks for one token at a time, and says then whether an operator must follow.
-/
import Rolog.RawRead

namespace Rolog

/-! ## Quoted texts -/

/-- The places in `get_string` and `escape_char` that read a character. -/
inductive StrMode where
  | text
  /-- after a quote: the text ends, unless the quote is doubled -/
  | afterQuote
  /-- after `\` -/
  | escape
  /-- after `\c` -/
  | blanks
  /-- after `\` and a newline -/
  | newline
  /-- after `\` and a carriage return -/
  | cr
  /-- after `\x` -/
  | hex
  /-- a character code so far -/
  | digits (base chr : Nat)
  /-- after `\u` or `\U`, `n` digits to go -/
  | unicode (n chr : Nat)
  deriving DecidableEq

/-- What a character does: more of the text, the end of the text with or without the character,
or `ESC_ERROR`. -/
inductive StrStep where
  | go (m : StrMode) (codes : List Nat)
  | eos
  | ret
  | error
  deriving DecidableEq

/-- `PLMAXWCHAR` -/
def plMaxWchar : Nat := 0x10ffff

/-- `c = *in++` in `get_string`, with the codes that are not in the buffer yet. -/
def textChar (quote : Char) (codes : List Nat) (c : Char) : StrStep :=
  if c = quote then .go .afterQuote codes
  else if c = '\\' then .go .escape codes
  else .go .text (codes ++ [c.toNat])

/-- `skip_cont` in `escape_char` -/
def skipCont (quote c : Char) : StrStep :=
  if c = '\\' then .go .escape []
  else if c = quote then .eos
  else .go .text [c.toNat]

/-- The escapes for one character. -/
def symbolicChar : Char → Option Nat
  | 'a' => some 7
  | 'b' => some 8
  | 'e' => some 27
  | 'f' => some 12
  | 'n' => some 10
  | 'r' => some 13
  | 't' => some 9
  | 's' => some 32
  | 'v' => some 11
  | '\\' => some 92
  | '\'' => some 39
  | '"' => some 34
  | '`' => some 96
  | _ => none

/-- The character after `\`. -/
def escapeChar (quote c : Char) : StrStep :=
  match symbolicChar c with
  | some code => .go .text [code]
  | none =>
    if c = 'c' then .go .blanks []
    else if c = '\r' then .go .cr []
    else if c = '\n' then .go .newline []
    else if c = 'u' then .go (.unicode 4 0) []
    else if c = 'U' then .go (.unicode 8 0) []
    else if c = 'x' then .go .hex []
    else
      match digitValue 8 c with
      | some d => .go (.digits 8 d) []
      | none => if c = quote then .go .text [c.toNat] else .error

/-- The blanks after `\` and a newline. -/
def newlineChar (quote c : Char) : StrStep :=
  if isBlank c ∧ c ≠ '\n' then .go .newline [] else skipCont quote c

/-- The first digit after `\x`. -/
def hexChar (c : Char) : StrStep :=
  match digitValue 16 c with
  | some d => .go (.digits 16 d) []
  | none => .error

/-- A digit of a character code, or its end. -/
def digitChar (quote : Char) (base chr : Nat) (c : Char) : StrStep :=
  match digitValue base c with
  | some d =>
    if plMaxWchar < chr * base + d then .error else .go (.digits base (chr * base + d)) []
  | none => if c = '\\' then .go .text [chr] else textChar quote [chr] c

/-- A digit after `\u` or `\U`. A code that does not fit an `int` overflows, which is undefined. -/
def unicodeChar (n chr : Nat) (c : Char) : StrStep :=
  match digitValue 16 c with
  | some d =>
    if n ≤ 1 then if plMaxWchar < chr * 16 + d then .error else .go .text [chr * 16 + d]
    else .go (.unicode (n - 1) (chr * 16 + d)) []
  | none => .error

def strStep (quote : Char) : StrMode → Char → StrStep
  | .text, c => textChar quote [] c
  | .afterQuote, c => if c = quote then .go .text [c.toNat] else .ret
  | .escape, c => escapeChar quote c
  | .blanks, c => if isBlank c then .go .blanks [] else skipCont quote c
  | .newline, c => newlineChar quote c
  | .cr, c => if c = '\n' then .go .newline [] else newlineChar quote c
  | .hex, c => hexChar c
  | .digits base chr, c => digitChar quote base chr c
  | .unicode n chr, c => unicodeChar n chr c

/-- `get_string` behind the opening quote: the codes of the text, and what follows it. Behind the
read buffer there is nothing to rely on. -/
def getString (quote : Char) : StrMode → Text → Option (List Nat × Text)
  | m, [] => if m = .afterQuote then some ([], []) else none
  | m, c :: s =>
    match strStep quote m c with
    | .go m' codes => (getString quote m' s).map fun (text, rest) => (codes ++ text, rest)
    | .eos => some ([], s)
    | .ret => some ([], c :: s)
    | .error => none

/-! ## Tokens -/

/-- `Token`; a text in a token is a list of wide characters. -/
inductive ReadToken where
  | name (a : List Nat)
  | qname (a : List Nat)
  | functor (a : List Nat)
  | dict (a : List Nat)
  | variable (v : Text)
  | vclassDict (v : Text)
  | void
  | voidDict
  | number (n : Text)
  | punct (c : Char)
  /-- `"..."` -/
  | str (codes : List Nat)
  /-- back quotes -/
  | codes (codes : List Nat)
  | fullstop
  deriving DecidableEq

/-- A name before `(` or `{` is no atom. -/
def nameToken (kind : List Nat → ReadToken) (a : List Nat) (rest : Text) : ReadToken :=
  if rest.head? = some '(' then .functor a
  else if rest.head? = some '\x7b' then .dict a
  else kind a

/-- `case UC` -/
def varToken (v rest : Text) : ReadToken :=
  if v = ['_'] then if rest.head? = some '\x7b' then .voidDict else .void
  else if rest.head? = some '\x7b' then .vclassDict v
  else .variable v

/-- The rest of the reader. -/
structure Grammar where
  /-- `str_number`: the text of the number, and what follows it -/
  strNumber : Text → Option (Text × Text)
  /-- `rmo == 1` in `complex_term`, after these tokens -/
  mustBeOp : List ReadToken → Bool
  /-- the operator table -/
  isOp : Text → Bool
  /-- `complex_term`, on the tokens up to the full stop; no quasi quotation syntax is defined -/
  complexTerm : List ReadToken → Option Term

namespace Grammar

/-- `case_digit` -/
def numberToken (g : Grammar) (s : Text) : Option (ReadToken × Text) :=
  (g.strNumber s).map fun (n, rest) => (.number n, rest)

/-- `case SY` -/
def symbolToken (g : Grammar) (mustBeOp : Bool) (c : Char) (s : Text) : Option (ReadToken × Text) :=
  let more := s.takeWhile isSymbol
  let rest := s.dropWhile isSymbol
  if more = [] ∧ (c = '+' ∨ c = '-') ∧ mustBeOp = false ∧ (rest.head?.map isDigit).getD false then
    g.numberToken (c :: s)
  else if more = [] ∧ c = '.' ∧ (rest.head?.map isBlank).getD false then some (.fullstop, rest)
  else some (nameToken .name (wideChars (c :: more)) rest, rest)

/-- The bracket that closes `[` or a brace. -/
def matchingBracket (c : Char) : Char := if c = '[' then ']' else '\x7d'

/-- An opening bracket or brace: with its match it is a name. -/
def openToken (c : Char) : Text → Option (ReadToken × Text)
  | [] => some (.punct c, [])
  | d :: rest =>
    if d = matchingBracket c then
      let a := wideChars [c, d]
      some (if rest.head? = some '(' then .functor a else .name a, rest)
    else if d = '|' then none
    else some (.punct c, d :: rest)

/-- `case PU`. A quasi quotation is an error, since there is no syntax for it. -/
def punctToken (c : Char) (s : Text) : Option (ReadToken × Text) :=
  if (c = '\x7b' ∨ c = '|') ∧ s.head? = some '|' then none
  else if c = '\x7b' ∨ c = '[' then openToken c (s.dropWhile isBlank)
  else some (.punct c, s)

/-- `get_token` -/
def getToken (g : Grammar) (mustBeOp : Bool) (s : Text) : Option (ReadToken × Text) :=
  match s.dropWhile isBlank with
  | [] => none
  | c :: s =>
    match charType c with
    | .lc =>
      let rest := s.dropWhile isAlpha
      some (nameToken .name (wideChars (c :: s.takeWhile isAlpha)) rest, rest)
    | .uc =>
      let rest := s.dropWhile isAlpha
      some (varToken (c :: s.takeWhile isAlpha) rest, rest)
    | .di => g.numberToken (c :: s)
    | .so => some (if s.head? = some '(' then .functor [c.toNat] else .name [c.toNat], s)
    | .sy => g.symbolToken mustBeOp c s
    | .pu => punctToken c s
    | .sq => (getString c .text s).map fun (a, rest) => (nameToken .qname a rest, rest)
    | .dq => (getString c .text s).map fun (a, rest) => (.str a, rest)
    | .bq => (getString c .text s).map fun (a, rest) => (.codes a, rest)
    | .ct | .sp => none

/-- The tokens of a term up to its full stop; `prior` are those in front. Every token takes a
character, so as many steps as characters are enough. -/
def tokens (g : Grammar) : Nat → List ReadToken → Text → Option (List ReadToken)
  | 0, _, _ => none
  | n + 1, prior, s =>
    match g.getToken (g.mustBeOp prior) s with
    | none => none
    | some (t, rest) =>
      if t = .fullstop then some [t] else (tokens g n (prior ++ [t]) rest).map (t :: ·)

/-- `read_term` -/
def readTerm (g : Grammar) (text : Text) : Option Term := do
  let raw ← rawRead text
  let toks ← g.tokens raw.length [] raw
  g.complexTerm toks

end Grammar

end Rolog
