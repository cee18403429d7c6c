/-
# `LineCalc.Proofs.Session.Notices` — reading notices back

What a session writes of its notices is a text, in which errors and records stand line by
line.  A reader can still tell them apart: the line of an error begins with a number
(`report?`), and that of a record begins with its level.  So what one wants to do with the
numbers of the errors can be done on the text, one line at a time (`mapLines`), and is the
same as doing it on the notices before they were written (`mapLines_notices`).
-/
import LineCalc.Proofs.Session.Report
import LineCalc.Session

namespace LineCalc.Session

open Text

/-! ## Texts as lines -/

/-- The text whose lines, each with its line feed, are changed by `f`. -/
def mapLines (f : List Char → List Char) (text : String) : String :=
  String.ofList ((splitAfter '\n' text.toList).flatMap f)

/-! ## Errors among the notices -/

/-- The number and the text of a line that reports an error. -/
def report? : List Char → Option (Nat × List Char)
  | 'l' :: 'i' :: 'n' :: 'e' :: ' ' :: rest =>
      match rest.dropWhile Char.isDigit with
      | ':' :: ' ' :: text => some (Decimal.value (rest.takeWhile Char.isDigit), text)
      | _ => none
  | _ => none

def isReport (line : List Char) : Bool := (report? line).isSome

/-- A line of notices without the number of an error. -/
def withoutNumber (line : List Char) : List Char :=
  match report? line with
  | some (_, text) => text
  | none => line

/-- A line of notices, the number of an error raised. -/
def raiseNumber (k : Nat) (line : List Char) : List Char :=
  match report? line with
  | some (number, text) => ("line " ++ Decimal.ofNat (number + k) ++ ": ").toList ++ text
  | none => line

theorem isDigit_of_mem_digits {n : Nat} : ∀ c ∈ Decimal.digits n, c.isDigit = true := by
  intro c hc
  exact Nat.isDigit_of_mem_toDigits (by decide) (by decide) hc

theorem report?_failure (number : Nat) (e : LineError) :
    report? ((Notice.failure number e).numberedLine.toList ++ ['\n'])
      = some (number, (Notice.failure number e).line.toList ++ ['\n']) := by
  have hline : (Notice.failure number e).numberedLine.toList ++ ['\n']
      = 'l' :: 'i' :: 'n' :: 'e' :: ' ' :: (Decimal.digits number
          ++ ':' :: ' ' :: (e.message.toList ++ ['\n'])) := by
    simp [Notice.numberedLine, Decimal.ofNat]
  rw [hline, report?, List.dropWhile_append_of_pos isDigit_of_mem_digits,
    List.takeWhile_append_of_pos isDigit_of_mem_digits]
  simp [Decimal.value_digits, Notice.line]

theorem report?_record (r : Log.Record) : report? ((Notice.record r).numberedLine.toList ++ ['\n'])
    = none := by
  have hline : ∃ rest, (Notice.record r).numberedLine.toList ++ ['\n'] = '[' :: rest := by
    simp [Notice.numberedLine, Log.Record.line]
  obtain ⟨rest, hrest⟩ := hline
  rw [hrest]
  rfl

theorem isReport_numberedLine (n : Notice) :
    isReport (n.numberedLine.toList ++ ['\n']) = n.isFailure := by
  cases n with
  | record r =>
      rw [isReport, report?_record]
      rfl
  | failure number e =>
      rw [isReport, report?_failure]
      rfl

theorem withoutNumber_numberedLine (n : Notice) :
    withoutNumber (n.numberedLine.toList ++ ['\n']) = n.line.toList ++ ['\n'] := by
  cases n with
  | record r =>
      rw [withoutNumber, report?_record]
      rfl
  | failure number e => rw [withoutNumber, report?_failure]

theorem raiseNumber_numberedLine (k : Nat) (n : Notice) :
    raiseNumber k (n.numberedLine.toList ++ ['\n'])
      = (n.raise k).numberedLine.toList ++ ['\n'] := by
  cases n with
  | record r =>
      rw [raiseNumber, report?_record]
      rfl
  | failure number e =>
      rw [raiseNumber, report?_failure]
      simp only [Notice.raise, Notice.numberedLine, String.toList_append, List.append_assoc,
        Notice.line]

/-! ## Written notices -/

section
variable {ns : List Notice}

/-- Written notices are the lines of their text. -/
theorem splitAfter_notices (h : ∀ n ∈ ns, OneLine n.line) :
    splitAfter '\n' (unlines (ns.map Notice.numberedLine)).toList
      = ns.map fun n => n.numberedLine.toList ++ ['\n'] := by
  have hone : ∀ line ∈ ns.map Notice.numberedLine, OneLine line := by
    intro line hline
    obtain ⟨n, hn, rfl⟩ := List.mem_map.mp hline
    exact Notice.oneLine_numberedLine (h n hn)
  rw [splitAfter_unlines hone, List.map_map]
  rfl

/-- Changing the line of each notice in the text is writing the notices in another way. -/
theorem mapLines_notices (h : ∀ n ∈ ns, OneLine n.line) {f : List Char → List Char}
    {write : Notice → String}
    (hf : ∀ n : Notice, f (n.numberedLine.toList ++ ['\n']) = (write n).toList ++ ['\n']) :
    mapLines f (unlines (ns.map Notice.numberedLine)) = unlines (ns.map write) := by
  refine String.toList_inj.mp ?_
  rw [mapLines, splitAfter_notices h, String.toList_ofList, toList_unlines, List.flatMap_map,
    List.flatMap_map]
  refine congrArg (List.flatMap · ns) (funext fun n => ?_)
  exact hf n

theorem exists_isReport_iff (h : ∀ n ∈ ns, OneLine n.line) :
    (∃ line ∈ splitAfter '\n' (unlines (ns.map Notice.numberedLine)).toList,
        isReport line = true) ↔ ns.any Notice.isFailure = true := by
  rw [splitAfter_notices h, List.any_eq_true]
  constructor
  · rintro ⟨line, hline, hreport⟩
    obtain ⟨n, hn, rfl⟩ := List.mem_map.mp hline
    rw [isReport_numberedLine] at hreport
    exact ⟨n, hn, hreport⟩
  · rintro ⟨n, hn, hfailure⟩
    refine ⟨_, List.mem_map_of_mem hn, ?_⟩
    rw [isReport_numberedLine]
    exact hfailure

end

end LineCalc.Session
