/-
# `LineCalc.Proofs.Session.Transcript` — what a session leaves

A text leaves the same whether it is run as a file or as an input, but for the greeting and
the farewell, the numbers of the errors and the exit code (`runInput_eq_runFile`): the two
cut it into the same lines, though one cuts characters and the other bytes.

A file with nothing asked for is run line by line (`runFile_quiet`): each line shows what
it is by itself, whatever became of the lines before it.  And a text that ends with a line
feed leaves what it leaves by itself when another text follows, which then goes on counting
where the first one ended (`runText_append`).
-/
import LineCalc.Proofs.Session.Notices

namespace LineCalc.Session

open Text

/-! ## Sessions on a text -/

theorem runFile_text (o : Options) (clock : Nat → Durations) (name text : String) :
    runFile o clock name (.ok text.toUTF8) = runText o clock text := by
  have hdecode : decode text.toUTF8 = .ok text := by
    rw [decode, String.toUTF8_eq_toByteArray, fromUTF8?_toByteArray]
  simp only [runFile, Except.bind, hdecode]

theorem runInput_text (o : Options) (text : String) :
    runInput o text.toUTF8
      = inputTranscript "EOF" (.ofLines o.untimed noClock (numbered (lines text))) := by
  have hreason : endReason ((lines text).map some) = "EOF" := by
    simp [endReason]
  have hreadable : readable ((lines text).map some) = lines text := by
    simp [readable, List.takeWhile_map, Function.comp_def]
  rw [runInput, byteLines_toUTF8, hreason, hreadable]

theorem fileTranscript_exitCode (r : Report) :
    (fileTranscript r).exitCode = 1 ↔ r.hasFailure = true := by
  show (if r.hasFailure then (1 : UInt32) else 0) = 1 ↔ r.hasFailure = true
  cases r.hasFailure <;> decide

/-! ## A file and an input -/

theorem inputTranscript_of_fileTranscript {r : Report} (h : ∀ n ∈ r.notices, OneLine n.line)
    (reason : String) :
    (inputTranscript reason r).output
        = greeting ++ "\n" ++ (fileTranscript r).output ++ (farewell reason ++ "\n")
      ∧ (inputTranscript reason r).notices = mapLines withoutNumber (fileTranscript r).notices
      ∧ ((fileTranscript r).exitCode = 1
        ↔ ∃ line ∈ splitAfter '\n' (fileTranscript r).notices.toList, isReport line = true) := by
  refine ⟨?_, ?_, ?_⟩
  · simp only [inputTranscript, fileTranscript, unlines_append]
    rfl
  · exact (mapLines_notices h withoutNumber_numberedLine).symm
  · rw [fileTranscript_exitCode]
    exact (exists_isReport_iff h).symm

/-- An input shows what a file shows, between a greeting and a farewell; its errors have no
numbers, and it exits with zero, whereas the file exits with one if an error is reported. -/
theorem runInput_eq_runFile (o : Options) (clock : Nat → Durations) (name text : String) :
    let file := runFile o.untimed clock name (.ok text.toUTF8)
    let input := runInput o text.toUTF8
    input.output = "Jacaranta lang\n" ++ file.output ++ "Bye! (EOF)\n"
      ∧ input.notices = mapLines withoutNumber file.notices
      ∧ input.exitCode = 0
      ∧ (file.exitCode = 1
          ↔ ∃ line ∈ splitAfter '\n' file.notices.toList, isReport line = true) := by
  intro file input
  have hreport := Report.ofLines_of_untimed (o := o.untimed) rfl clock noClock
    (numbered (lines text))
  have hfile : file = fileTranscript (.ofLines o.untimed noClock (numbered (lines text))) := by
    show runFile o.untimed clock name (.ok text.toUTF8) = _
    rw [runFile_text, runText, hreport]
  have hinput : input = inputTranscript "EOF"
      (.ofLines o.untimed noClock (numbered (lines text))) := runInput_text o text
  obtain ⟨houtput, hnotices, hexit⟩ := inputTranscript_of_fileTranscript
    (Report.oneLine_notices o.untimed noClock text) "EOF"
  rw [hfile, hinput]
  exact ⟨houtput, hnotices, rfl, hexit⟩

/-! ## Line by line -/

/-- Nothing is shown besides values and errors. -/
def Options.quiet : Options := ⟨false, false, false, 0⟩

/-- What a line adds to the output: its value, if it has one, as a line. -/
def shownValue (line : String) : String :=
  if isBlankText line.toList then "" else
    match run line with
    | .ok v => v.render ++ "\n"
    | .error _ => ""

/-- What the line with a number adds to the notices: its error, if it has one, as a line. -/
def shownError (number : Nat) (line : String) : String :=
  if isBlankText line.toList then "" else
    match run line with
    | .ok _ => ""
    | .error e => "line " ++ Decimal.ofNat number ++ ": " ++ e.message ++ "\n"

def Fails (line : String) : Prop := isBlankText line.toList = false ∧ ∃ e, run line = .error e

theorem Report.ofLine_quiet (d : Durations) (number : Nat) (line : String) :
    ofLine .quiet d number line =
      match run line with
      | .ok v => ⟨[.value v], []⟩
      | .error e => ⟨[], [.failure number e]⟩ := by
  have hnotices : Options.quiet.notices number (.ofSource line) =
      match run line with
      | .ok _ => []
      | .error e => [.failure number e] := by
    show (Log.shown 0 (records line)).map Notice.record ++ _ = _
    rw [Log.shown_zero]
    rfl
  rw [ofLine, hnotices, run]
  cases (Account.ofSource line).progress <;> rfl

theorem unlines_numbered {α : Type} (write : α → String) (f : Nat × String → List α)
    (ls : List String) :
    unlines (((numbered ls).flatMap f).map write)
      = String.join ((ls.zipIdx 1).map fun (line, number) =>
          if isBlankText line.toList then "" else unlines ((f (number, line)).map write)) := by
  rw [flatMap_numbered, List.map_flatMap, unlines_flatMap]
  refine congrArg String.join (List.map_congr_left fun (line, number) _ => ?_)
  cases hblank : isBlankText line.toList <;> simp only [hblank] <;> rfl

section
variable (clock : Nat → Durations) (text : String)

theorem output_quiet : (runText .quiet clock text).output
    = String.join ((lines text).map shownValue) := by
  have hvalue : ∀ p : String × Nat,
      (if isBlankText p.1.toList then "" else
        unlines ((Report.ofLine .quiet (clock p.2) p.2 p.1).entries.map Entry.line))
          = shownValue p.1 := by
    intro p
    rw [Report.ofLine_quiet, shownValue]
    cases run p.1 <;> simp [unlines, Entry.line]
  have hlines : (lines text).map shownValue
      = ((lines text).zipIdx 1).map fun p => shownValue p.1 := by
    conv_lhs => rw [← List.zipIdx_map_fst 1 (lines text), List.map_map]
    rfl
  rw [runText, fileTranscript, Report.entries_ofLines, unlines_numbered, hlines]
  exact congrArg String.join (List.map_congr_left fun p _ => hvalue p)

theorem notices_quiet : (runText .quiet clock text).notices
    = String.join (((lines text).zipIdx 1).map fun (line, number) => shownError number line) := by
  have herror : ∀ p : String × Nat,
      (if isBlankText p.1.toList then "" else
        unlines ((Report.ofLine .quiet (clock p.2) p.2 p.1).notices.map Notice.numberedLine))
          = shownError p.2 p.1 := by
    intro p
    rw [Report.ofLine_quiet, shownError]
    cases run p.1 <;> simp [unlines, Notice.numberedLine]
  rw [runText, fileTranscript, Report.notices_ofLines, unlines_numbered]
  exact congrArg String.join (List.map_congr_left fun p _ => herror p)

end

theorem exitCode_runText_iff {o : Options} {clock : Nat → Durations} {text : String} :
    (runText o clock text).exitCode = 1 ↔ ∃ line ∈ lines text, Fails line := by
  rw [runText, fileTranscript_exitCode, Report.hasFailure_ofLines_iff]
  constructor
  · rintro ⟨number, line, hline, hrun⟩
    obtain ⟨hmem, hblank⟩ := exists_mem_numbered_iff.mp ⟨number, hline⟩
    exact ⟨line, hmem, hblank, hrun⟩
  · rintro ⟨line, hmem, hblank, hrun⟩
    obtain ⟨number, hline⟩ := exists_mem_numbered_iff.mpr ⟨hmem, hblank⟩
    exact ⟨number, line, hline, hrun⟩

/-! ## One text after another -/

theorem fileTranscript_append {r r' : Report} (h : ∀ n ∈ r'.notices, OneLine n.line) (k : Nat) :
    let whole := fileTranscript (r.append (r'.raise k))
    let first := fileTranscript r
    let second := fileTranscript r'
    whole.output = first.output ++ second.output
      ∧ whole.notices = first.notices ++ mapLines (raiseNumber k) second.notices
      ∧ (whole.exitCode = 1 ↔ first.exitCode = 1 ∨ second.exitCode = 1) := by
  intro whole first second
  refine ⟨?_, ?_, ?_⟩
  · show unlines ((r.entries ++ r'.entries).map Entry.line) = _
    rw [List.map_append, unlines_append]
    rfl
  · show unlines ((r.notices ++ r'.notices.map (Notice.raise k)).map Notice.numberedLine) = _
    rw [List.map_append, unlines_append, List.map_map]
    exact congrArg (_ ++ ·) (mapLines_notices h (raiseNumber_numberedLine k)).symm
  · rw [fileTranscript_exitCode, fileTranscript_exitCode, fileTranscript_exitCode,
      Report.hasFailure_append, Report.hasFailure_raise, Bool.or_eq_true]

/-- A text that is closed leaves what it leaves by itself, and the text after it does so too,
but for its numbers. -/
theorem runText_append {o : Options} (ho : o.timings = false) {front : String}
    (hfront : Closed '\n' front.toList) (clock clock' clock'' : Nat → Durations)
    (text : String) :
    let whole := runText o clock (front ++ text)
    let first := runText o clock' front
    let second := runText o clock'' text
    whole.output = first.output ++ second.output
      ∧ whole.notices
        = first.notices ++ mapLines (raiseNumber (front.toList.count '\n')) second.notices
      ∧ (whole.exitCode = 1 ↔ first.exitCode = 1 ∨ second.exitCode = 1) := by
  have hreport : Report.ofLines o clock (numbered (lines (front ++ text)))
      = (Report.ofLines o clock' (numbered (lines front))).append
          ((Report.ofLines o clock'' (numbered (lines text))).raise (front.toList.count '\n')) := by
    rw [lines_append hfront, Report.ofLines_append, length_lines hfront,
      Report.ofLines_of_untimed ho clock clock' (numbered (lines front)),
      Report.ofLines_of_untimed ho _ clock'' (numbered (lines text))]
  simp only [runText, hreport]
  exact fileTranscript_append (Report.oneLine_notices o clock'' text) _

/-! ## A whole file -/

/-- A file with nothing asked for is run line by line, and where it is cut after a line feed its
parts are run by themselves. -/
theorem runFile_quiet (clock : String → Nat → Durations) (name : String) :
    let file (text : String) := runFile .quiet (clock text) name (.ok text.toUTF8)
    (∀ text,
      (file text).output = String.join ((lines text).map shownValue)
        ∧ (file text).notices = String.join
            (((lines text).zipIdx 1).map fun (line, number) => shownError number line)
        ∧ ((file text).exitCode = 1 ↔ ∃ line ∈ lines text, Fails line))
    ∧ ∀ front text, Closed '\n' front.toList →
      (file (front ++ text)).output = (file front).output ++ (file text).output
        ∧ (file (front ++ text)).notices = (file front).notices
            ++ mapLines (raiseNumber (front.toList.count '\n')) (file text).notices
        ∧ ((file (front ++ text)).exitCode = 1
            ↔ (file front).exitCode = 1 ∨ (file text).exitCode = 1) := by
  intro file
  have hfile : ∀ text, file text = runText .quiet (clock text) text := by
    intro text
    exact runFile_text _ _ _ _
  refine ⟨fun text => ?_, fun front text hfront => ?_⟩
  · rw [hfile]
    exact ⟨output_quiet _ _, notices_quiet _ _, exitCode_runText_iff⟩
  · rw [hfile, hfile, hfile]
    exact runText_append rfl hfront _ _ _ _

/-- After a value and a blank line, an opened grouping fails the whole text. -/
theorem runFile_quiet_of_open_grouping :
    let file (text : String) := runFile .quiet noClock "" (.ok text.toUTF8)
    let front := "true\n \n"
    let text := "(1 2"
    Closed '\n' front.toList
      ∧ (file (front ++ text)).output = (file front).output ++ (file text).output
      ∧ (file (front ++ text)).notices
          = (file front).notices ++ mapLines (raiseNumber 2) (file text).notices
      ∧ (file (front ++ text)).exitCode = 1 := by
  intro file front text
  have hfront : Closed '\n' front.toList := by
    have hlast : front.toList.getLast? = some '\n' := by decide
    intro c hc
    rw [hlast] at hc
    exact (Option.some.inj hc).symm
  have hcount : front.toList.count '\n' = 2 := by decide
  have hrun : run text = .error (.parse (.mismatchedBracket ⟨.integer, "2", ⟨1, 4⟩⟩)) := by cbv
  obtain ⟨hlines, happend⟩ := runFile_quiet (fun _ => noClock) ""
  obtain ⟨houtput, hnotices, hexit⟩ := happend front text hfront
  rw [hcount] at hnotices
  have hfails : (file text).exitCode = 1 :=
    (hlines text).2.2.mpr ⟨text, by decide, by decide, _, hrun⟩
  exact ⟨hfront, houtput, hnotices, hexit.mpr (Or.inr hfails)⟩

end LineCalc.Session
