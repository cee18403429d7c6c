/-
# `LineCalc.Text.Lines` — the lines of a text

A line ends with a line feed, or where the text ends.  A text is first split after each
line feed, which works alike on characters and on bytes, since no other character has
the byte of a line feed in its encoding.  A line then loses its line feed and one
carriage return before that; a last line without a line feed stays as it is.  It is
blank if it holds nothing but white space.
-/

namespace LineCalc.Text

/-! ## Lines -/

/-- Puts `x` in front of a list that was split after each `stop`. -/
def consSplit {α : Type} [DecidableEq α] (stop x : α) : List (List α) → List (List α)
  | [] => [[x]]
  | piece :: pieces => if x = stop then [x] :: piece :: pieces else (x :: piece) :: pieces

/-- The pieces of a list that each end with `stop`; the last one need not. -/
def splitAfter {α : Type} [DecidableEq α] (stop : α) (xs : List α) : List (List α) :=
  xs.foldr (consSplit stop) []

/-- A line without the line feed at its end and one carriage return before it. -/
def chomp (line : List Char) : List Char :=
  match line.reverse with
  | '\n' :: '\r' :: rest => rest.reverse
  | '\n' :: rest => rest.reverse
  | _ => line

def lines (text : String) : List String :=
  (splitAfter '\n' text.toList).map fun line => String.ofList (chomp line)

/-- A line given as bytes, if they encode a text. -/
def decodeLine? (bytes : List UInt8) : Option String :=
  (String.fromUTF8? (ByteArray.mk bytes.toArray)).map fun line => String.ofList (chomp line.toList)

/-- The lines of an input given as bytes, each decoded by itself. -/
def byteLines (input : ByteArray) : List (Option String) :=
  (splitAfter 10 input.data.toList).map decodeLine?

/-- Texts as lines, each ended by a line feed. -/
def unlines (lines : List String) : String := String.join (lines.map fun line => line ++ "\n")

/-! ## White space -/

/-- The 25 code points with the Unicode property White_Space, as inclusive ranges in order. -/
def whiteSpaceRanges : List (Nat × Nat) :=
  [(0x09, 0x0d), (0x20, 0x20), (0x85, 0x85), (0xa0, 0xa0), (0x1680, 0x1680), (0x2000, 0x200a),
   (0x2028, 0x2029), (0x202f, 0x202f), (0x205f, 0x205f), (0x3000, 0x3000)]

def isWhiteSpace (c : Char) : Bool :=
  whiteSpaceRanges.any fun (first, last) => first ≤ c.toNat && c.toNat ≤ last

def isBlankText (cs : List Char) : Bool := cs.all isWhiteSpace

end LineCalc.Text
