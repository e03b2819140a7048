/-
  The text of a term: `PL_get_text` with `CVT_ALL` and `CVT_WRITEQ` (pl-text.c, pl-codelist.c),
  and the writer behind it (pl-write.c) as far as lists of integers, ASCII atoms and strings
  need it. A text is a list of wide characters, since a list of codes can spell any.

  `other out t` is the stream `out` after a term that is not written here: a float, a variable, a
  blob, or a compound that is no list.
-/
import Rolog.Encode
import Rolog.Lib.Doubling

namespace Rolog

/-! ## Character types -/

/-- The types of `_PL_char_types`: control, space, solo, symbol, punctuation, the three quotes,
uppercase, lowercase, digit. -/
inductive CharType where
  | ct
  | sp
  | so
  | sy
  | pu
  | dq
  | sq
  | bq
  | uc
  | lc
  | di
  deriving DecidableEq, Repr

/-- The table for ASCII. -/
def charType (c : Char) : CharType :=
  if c.isLower then .lc
  else if c.isUpper || c == '_' then .uc
  else if c.isDigit then .di
  else if c == ' ' || 9 ≤ c.toNat && c.toNat ≤ 13 then .sp
  else if c == '"' then .dq
  else if c == '\'' then .sq
  else if c == '`' then .bq
  else if ['!', '%', ';'].contains c then .so
  else if ['(', ')', ',', '[', ']', '\x7b', '|', '\x7d'].contains c then .pu
  else if ['#', '$', '&', '*', '+', '-', '.', '/', ':', '<', '=', '>', '?', '@', '\\', '^',
    '~'].contains c then .sy
  else .ct

/-- A character of a name or number. -/
def isAlpha (c : Char) : Bool :=
  match charType c with
  | .uc | .lc | .di => true
  | _ => false

def isSymbol (c : Char) : Bool := charType c = .sy

/-! ## Atoms, numbers and strings -/

inductive AtomType where
  | lower
  | symbol
  | solo
  | special
  | fullstop
  | quote
  deriving DecidableEq

/-- `atomType`, of an ASCII atom -/
def atomType : Text → AtomType
  | [] => .quote
  | c :: s =>
    if charType c = .lc then if s.all isAlpha then .lower else .quote
    else if isSymbol c then
      if c = '.' ∧ s = [] then .fullstop
      else if c = '/' ∧ s.head? = some '*' then .quote
      else if s.all isSymbol then .symbol
      else .quote
    else if s = [] ∧ c ≠ '%' ∧ charType c = .so then .solo
    else if c :: s = ['\x7b', '\x7d'] then .special
    else .quote

/-- `isquote` -/
def isquote (c : Char) : Bool := c = '\'' ∨ c = '"'

/-- `needSpace`, on the last character written: two tokens would read as one. -/
def needSpace (c : Char) : Option Char → Bool
  | none => false
  | some lastc =>
    isAlpha lastc && isAlpha c || isSymbol lastc && isSymbol c ||
      c == '(' && charType lastc != .pu || c == '\'' && charType lastc == .di ||
      isquote c && lastc == c

/-- `PutOpenToken` -/
def putOpenToken (out : Text) (c : Char) : Text :=
  if needSpace c out.getLast? then out ++ [' '] else out

/-- `PutToken` -/
def putToken (out : Text) : Text → Text
  | [] => out
  | c :: s => putOpenToken out c ++ c :: s

/-- The characters that `putQuoted` writes twice, without `PL_WRT_CHARESCAPES`. -/
def putTwice (quote c : Char) : Bool := c = quote ∨ c = '\\'

/-- `writeQuoted` -/
def writeQuoted (quote : Char) (s : Text) : Text :=
  quote :: (Doubling.double (putTwice quote) s ++ [quote])

/-- `writeAtom` -/
def writeAtom (out a : Text) : Text :=
  match atomType a with
  | .lower | .symbol | .solo | .special => putToken out a
  | .quote | .fullstop => putOpenToken out '\'' ++ writeQuoted '\'' a

/-- The decimal digits of an integer. -/
def decimal : Int → Text
  | .ofNat n => Nat.toDigits 10 n
  | .negSucc n => '-' :: Nat.toDigits 10 (n + 1)

/-! ## Terms -/

section

variable (other : Text → Term → Text)

/-- `writeTerm2` on a term that is no list cell. -/
def writeSimple (out : Text) : Term → Text
  | .atom a => writeAtom out a
  | .nil => putToken out ['[', ']']
  | .int i => putToken out (decimal i)
  | .str s => out ++ writeQuoted '"' s
  | t => other out t

mutual

/-- `writeTerm` -/
def writeTerm (out : Text) : Term → Text
  | .compound f [h, t] =>
    if f = dot then writeRest (writeTerm (out ++ ['[']) h) t else other out (.compound f [h, t])
  | t => writeSimple other out t
termination_by structural t => t

/-- The loop of `writeList`, after an element. -/
def writeRest (out : Text) : Term → Text
  | .nil => out ++ [']']
  | .compound f [h, t] =>
    if f = dot then writeRest (writeTerm (out ++ [',']) h) t
    else other (out ++ ['|']) (.compound f [h, t]) ++ [']']
  | t => writeSimple other (out ++ ['|']) t ++ [']']
termination_by structural t => t

end

/-! ## Lists that spell a text -/

inductive ListType where
  | chars
  | codes
  deriving DecidableEq

/-- The status of a list that is no text. -/
inductive CvtResult where
  | cvtPartial
  | cvtNolist
  | cvtNocode
  | cvtNochar
  | cvtWide
  deriving DecidableEq

/-- `charCode` -/
def charCode : Term → Int
  | .atom [c] => c.toNat
  | _ => -1

/-- The character of an element. An integer too large to be tagged is out of range as well. -/
def elementCode : ListType → Term → Int
  | .codes, .int i => i
  | .codes, _ => -1
  | .chars, t => charCode t

/-- `c < 0 || c > 0x10ffff || (!wide && c > 0xff)` -/
def outOfRange (wide : Bool) (c : Int) : Bool :=
  c < 0 || 0x10ffff < c || !wide && 0xff < c

/-- The status for the element that ends the conversion. -/
def elementResult (t : Term) (c : Int) (nocode : CvtResult) : CvtResult :=
  match t with
  | .var _ => .cvtPartial
  | _ => if c < 0 ∨ 0x10ffff < c then nocode else .cvtWide

/-- The loop of `codes_or_chars_to_buffer`. -/
def codesLoop (type : ListType) (wide : Bool) : Term → Except CvtResult (List Nat)
  | .compound f [h, t] =>
    if f = dot then
      if outOfRange wide (elementCode type h) then
        .error (elementResult h (elementCode type h)
          (if type = .codes then .cvtNocode else .cvtNochar))
      else do
        let b ← codesLoop type wide t
        .ok ((elementCode type h).toNat :: b)
    else .error .cvtNolist
  | .nil => .ok []
  | .var _ => .error .cvtPartial
  | _ => .error .cvtNolist
termination_by structural t => t

/-- The first element decides whether this is a list of codes. -/
def listType : Term → ListType
  | .int _ => .codes
  | _ => .chars

/-- `codes_or_chars_to_buffer`: the first element is tested before the loop as well. -/
def codesOrCharsToBuffer (wide : Bool) : Term → Except CvtResult (List Nat)
  | .compound f [h, t] =>
    if f = dot ∧ outOfRange wide (elementCode (listType h) h) then
      .error (elementResult h (elementCode (listType h) h) .cvtNocode)
    else codesLoop (listType h) wide (.compound f [h, t])
  | t => codesLoop .codes wide t

/-- A text as wide characters. -/
def wideChars (s : Text) : List Nat := s.map Char.toNat

theorem wideChars_injective {s t : Text} (h : wideChars s = wideChars t) : s = t :=
  List.map_injective_iff.mpr (fun _ _ => Char.toNat_inj.mp) h

/-- The end of `PL_get_text`: bytes first, then wide characters, and else the list is written. -/
def plGetListText (t : Term) : List Nat :=
  match codesOrCharsToBuffer false t with
  | .ok b => b
  | .error .cvtWide =>
    match codesOrCharsToBuffer true t with
    | .ok b => b
    | .error _ => wideChars (writeTerm other [] t)
  | .error _ => wideChars (writeTerm other [] t)

/-- `PL_get_text`: a list that spells no text is written, as is what has no text of its own. -/
def plGetText : Term → List Nat
  | .atom a => wideChars a
  | .str s => wideChars s
  | .int i => wideChars (decimal i)
  | .float b => wideChars (other [] (.float b))
  | .blob n => wideChars (other [] (.blob n))
  | t => plGetListText other t

end

end Rolog
