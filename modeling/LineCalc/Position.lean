/-
# `LineCalc.Position` — places in a source text

A place is a line and a column, both counted from one.  The place after a stretch
of text depends on the text alone: `Position.after` folds the step over its
characters, so places can be worked out apart from what the characters mean.
-/

namespace LineCalc

/-- A place in a source text; lines and columns are 32-bit counters that start at one. -/
structure Position where
  line : UInt32
  column : UInt32
deriving DecidableEq, Repr, Inhabited

namespace Position

def start : Position := ⟨1, 1⟩

/-- The greatest column a place can name: columns further right are all written as this one. -/
def lastColumn : UInt32 := 4294967295

/-- The place just after the character `c` at place `p`: a line feed begins a new line, and
every other character moves one column to the right. -/
def next (p : Position) (c : Char) : Position :=
  if c = '\n' then ⟨p.line + 1, 1⟩
  else ⟨p.line, if p.column = lastColumn then lastColumn else p.column + 1⟩

/-- The place just after the text `cs` that begins at place `p`. -/
def after (p : Position) (cs : List Char) : Position := cs.foldl next p

@[simp] theorem after_nil (p : Position) : p.after [] = p := rfl

@[simp] theorem after_cons (p : Position) (c : Char) (cs : List Char) :
    p.after (c :: cs) = (p.next c).after cs := rfl

theorem after_append (p : Position) (cs ds : List Char) :
    p.after (cs ++ ds) = (p.after cs).after ds := List.foldl_append

end Position

end LineCalc
