/-
# `LineCalc.Token.Piece` — a text cut into pieces

A source text is cut from the left into pieces: a token, a blank, or a stray `&` or
`|`.  Each piece keeps its own text, so the pieces of a text, in order, spell it out
again; places play no part here.  A cut stops early at a fault: a string without its
closing quote, a word that is not reserved, or a character that begins nothing.

Every word of the language is reserved, and letter case does not matter.  The two words
of truth keep the spelling they are written with, and a keyword is emitted in capitals.

`first` reads one piece and says how many characters it takes beyond the one it begins
with; every piece is as long as it can be.  `cut` repeats it.
-/
import LineCalc.Token

namespace LineCalc.Token

inductive Item where
  | token (kind : Kind) (lexeme : String)
  | stray (c : Char)
  | blank
deriving DecidableEq, Repr, Inhabited

/-- A stretch of a source text together with what it is. -/
structure Piece where
  text : List Char
  item : Item
deriving DecidableEq, Repr, Inhabited

/-- Why no piece begins at some place of a text. -/
inductive Fault where
  /-- A string runs to the end of the source without its closing quote. -/
  | unterminatedString (text : String)
  /-- A character that begins no piece. -/
  | unknownCharacter (c : Char)
  /-- A word that is not reserved. -/
  | unknownWord (word : String)
deriving DecidableEq, Repr, Inhabited

/-! ## Classes of characters -/

/-- The characters that separate tokens and mean nothing else. -/
def isBlank (c : Char) : Bool := c == ' ' || c == '\t' || c == '\r' || c == '\n'

/-- The characters that are dropped when they stand alone. -/
def isStray (c : Char) : Bool := c == '&' || c == '|'

/-- The characters a number may go on with. -/
def isNumeral (c : Char) : Bool := c.isDigit || c == '.'

def isWordStart (c : Char) : Bool := c.isAlpha || c == '_'

def isWordChar (c : Char) : Bool := c.isAlphanum || c == '_'

def single? : Char → Option Kind
  | '(' => some .leftParen
  | ')' => some .rightParen
  | '{' => some .leftBrace
  | '}' => some .rightBrace
  | '+' => some .plus
  | '-' => some .minus
  | '*' => some .star
  | '/' => some .slash
  | '%' => some .percent
  | ';' => some .endOfStatement
  | '!' => some .bang
  | '=' => some .equal
  | '<' => some .less
  | '>' => some .greater
  | _ => none

def double? : Char → Char → Option Kind
  | '!', '=' => some .bangEqual
  | '=', '=' => some .equalEqual
  | '<', '=' => some .lessEqual
  | '>', '=' => some .greaterEqual
  | '&', '&' => some .andAnd
  | '|', '|' => some .orOr
  | _, _ => none

/-- The kind of a number: a float exactly when a point occurs in it. -/
def numberKind (lexeme : List Char) : Kind := if '.' ∈ lexeme then .float else .integer

/-! ## Reserved words -/

namespace Reserved

def keywords : List String :=
  ["if", "else", "var", "let", "be", "for", "range", "while", "break", "continue",
   "case", "switch", "string", "integer", "float", "func", "return", "exit", "class", "super"]

/-- A word in small letters; only the letters A to Z change. -/
def lower (word : List Char) : List Char := word.map Char.toLower

/-- A word in capitals; only the letters a to z change. -/
def upper (word : List Char) : List Char := word.map Char.toUpper

/-- The kind and lexeme of a reserved word, `none` if the word is not reserved. -/
def lookup? (word : List Char) : Option (Kind × String) :=
  let small := String.ofList (lower word)
  if small = "true" then some (.bool true, String.ofList word)
  else if small = "false" then some (.bool false, String.ofList word)
  else if small ∈ keywords then some (.identifier, String.ofList (upper word))
  else none

end Reserved

/-! ## Cutting -/

/-- The piece that begins with a word's first character `c`. -/
def firstWord (c : Char) (cs : List Char) : Except Fault (Item × Nat) :=
  let tail := cs.takeWhile isWordChar
  match Reserved.lookup? (c :: tail) with
  | some (kind, lexeme) => .ok (.token kind lexeme, tail.length)
  | none => .error (.unknownWord (String.ofList (c :: tail)))

/-- The piece that begins with a quote: everything up to the next quote, line feeds included. -/
def firstString (cs : List Char) : Except Fault (Item × Nat) :=
  let body := cs.takeWhile (· != '"')
  if body.length < cs.length then .ok (.token .string (String.ofList body), body.length + 1)
  else .error (.unterminatedString (String.ofList ('"' :: cs)))

/-- The piece that begins with the digit `c`: a run of digits and points. -/
def firstNumber (c : Char) (cs : List Char) : Item × Nat :=
  let tail := cs.takeWhile isNumeral
  (.token (numberKind (c :: tail)) (String.ofList (c :: tail)), tail.length)

/-- The piece that begins with a character that is neither blank nor part of an operator of two
characters. -/
def firstOther (c : Char) (cs : List Char) : Except Fault (Item × Nat) :=
  match single? c with
  | some kind => .ok (.token kind (String.singleton c), 0)
  | none =>
    if isStray c then .ok (.stray c, 0)
    else if c = '"' then firstString cs
    else if c.isDigit then .ok (firstNumber c cs)
    else if isWordStart c then firstWord c cs
    else .error (.unknownCharacter c)

/-- What the first piece of `c :: cs` is, and how many characters of `cs` belong to it.  An
operator of two characters wins over one of a single character. -/
def first (c : Char) (cs : List Char) : Except Fault (Item × Nat) :=
  if isBlank c then .ok (.blank, 0)
  else
    match cs.head?.bind (double? c) with
    | some kind => .ok (.token kind (String.ofList (c :: cs.take 1)), 1)
    | none => firstOther c cs

/-- The pieces of a text from the left, and the fault that ended the cut before the text did. -/
structure Cut where
  pieces : List Piece
  fault : Option Fault
deriving DecidableEq, Repr, Inhabited

def cut : List Char → Cut
  | [] => ⟨[], none⟩
  | c :: cs =>
    match first c cs with
    | .error fault => ⟨[], some fault⟩
    | .ok (item, n) =>
      let rest := cut (cs.drop n)
      ⟨⟨c :: cs.take n, item⟩ :: rest.pieces, rest.fault⟩
termination_by cs => cs.length
decreasing_by
  simp only [List.length_drop, List.length_cons]
  omega

end LineCalc.Token
