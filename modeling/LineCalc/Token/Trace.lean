/-
# `LineCalc.Token.Trace` — what a scan meets, and where

A scan gives the pieces of a text their places.  Its trace lists, in source order,
the tokens and the dropped characters it met, and then either the place where the
text ended or the error that stopped it.  The tokens of a text (`scan`) and the
records of a scan are two readings of the one trace.
-/
import LineCalc.Token.Piece

namespace LineCalc

/-- Why a text has no tokens. -/
inductive ScanError where
  /-- A string without its closing quote: the text from the opening quote on, and the line of
  that quote. -/
  | unterminatedString (text : String) (line : UInt32)
  /-- A character that begins no token. -/
  | unknownCharacter (c : Char) (place : Position)
  /-- A word that is not reserved. -/
  | unknownIdentifier (word : String) (line : UInt32)
deriving DecidableEq, Repr, Inhabited

namespace ScanError

def message : ScanError → String
  | unterminatedString text line =>
      "Unterminated string literal " ++ text ++ " starting at line "
        ++ Decimal.ofNat line.toNat ++ "."
  | unknownCharacter c place =>
      "Unknown character \"" ++ String.singleton c ++ "\" at line "
        ++ Decimal.ofNat place.line.toNat ++ ", column " ++ Decimal.ofNat place.column.toNat ++ "."
  | unknownIdentifier word line =>
      "Unknown identifier \"" ++ word ++ "\" at line " ++ Decimal.ofNat line.toNat ++ "."

end ScanError

namespace Token

/-- The error a fault at place `p` is reported as. -/
def Fault.locate (p : Position) : Fault → ScanError
  | .unterminatedString text => .unterminatedString text p.line
  | .unknownCharacter c => .unknownCharacter c p
  | .unknownWord word => .unknownIdentifier word p.line

/-- Something a scan met: a token, or a stray character that it dropped. -/
inductive Event where
  | token (t : Token)
  | stray (c : Char) (place : Position)
deriving DecidableEq, Repr, Inhabited

def Event.token? : Event → Option Token
  | .token t => some t
  | .stray _ _ => none

/-- The events of the pieces of a text that begins at place `p`; blanks leave none. -/
def events (p : Position) : List Piece → List Event
  | [] => []
  | ⟨text, .blank⟩ :: rest => events (p.after text) rest
  | ⟨text, .token kind lexeme⟩ :: rest => .token ⟨kind, lexeme, p⟩ :: events (p.after text) rest
  | ⟨text, .stray c⟩ :: rest => .stray c p :: events (p.after text) rest

/-- The place just after the pieces of a text that begins at place `p`. -/
def placeAfter (p : Position) (pieces : List Piece) : Position :=
  pieces.foldl (fun q piece => q.after piece.text) p

/-- What a scan met, in source order, and how it ended: at a place, or in an error. -/
structure Trace where
  events : List Event
  outcome : Except ScanError Position

namespace Trace

/-- The trace of a cut of a text that begins at place `p`. -/
def ofCut (p : Position) (c : Cut) : Trace where
  events := Token.events p c.pieces
  outcome :=
    match c.fault with
    | none => .ok (placeAfter p c.pieces)
    | some fault => .error (fault.locate (placeAfter p c.pieces))

def ofSource (source : String) : Trace := ofCut .start (cut source.toList)

/-- The tokens met, without the marker that ends a text. -/
def met (t : Trace) : List Token := t.events.filterMap Event.token?

/-- The tokens of a text that scanned to its end, the end marker last. -/
def tokens (t : Trace) : Except ScanError (List Token) :=
  t.outcome.map fun place => t.met ++ [endAt place]

end Trace

/-- The tokens of a source text, ending in the end marker, or the first error. -/
def scan (source : String) : Except ScanError (List Token) := (Trace.ofSource source).tokens

end Token

end LineCalc
