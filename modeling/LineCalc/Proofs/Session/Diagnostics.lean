/-
# `LineCalc.Proofs.Session.Diagnostics` — diagnostics change no result

What a session shows besides values and errors can be asked for or not.  Of the output only
whole lines come and go with it: leaving the diagnostic entries out of a report gives the
entries of the report in which nothing is asked for (`Report.entries_plain`).  Of the notices
only log records come and go, with the verbosity alone (`Report.notices_silent`).  As every
entry and every notice is a line, this can be seen on the texts that are written.

What is asked for is shown stage by stage, each stage of a line if it succeeds and after the
stages before it (`Options.block`).
-/
import LineCalc.Proofs.Session.Transcript

namespace LineCalc.Session

open Text

/-! ## Deleting lines -/

/-- `Deletes p whole part`: the list `part` is the list `whole`, some entries with the property `p`
left out. -/
inductive Deletes {α : Type} (p : α → Prop) : List α → List α → Prop
  | nil : Deletes p [] []
  | keep {x : α} {whole part : List α} :
      Deletes p whole part → Deletes p (x :: whole) (x :: part)
  | delete {x : α} {whole part : List α} :
      p x → Deletes p whole part → Deletes p (x :: whole) part

theorem Deletes.map_filter {α β : Type} {p : β → Prop} {q : α → Bool} {f : α → β}
    (h : ∀ x, q x = false → p (f x)) (xs : List α) :
    Deletes p (xs.map f) ((xs.filter q).map f) := by
  induction xs with
  | nil => exact .nil
  | cons x xs ih =>
      cases hx : q x with
      | true =>
          rw [List.filter_cons_of_pos hx]
          exact .keep ih
      | false =>
          rw [List.filter_cons_of_neg (by rw [hx]; exact Bool.false_ne_true)]
          exact .delete (h x hx) ih

/-! ## Entries -/

/-- Whether an entry of the output is there only if it was asked for. -/
def Entry.isDiagnostic : Entry → Bool
  | timing _ _ | token _ | tree _ => true
  | value _ => false

/-- Whether a line of the output, with its line feed, shows a diagnostic entry. -/
def IsDiagnostic (line : List Char) : Prop :=
  ∃ e : Entry, e.isDiagnostic = true ∧ line = e.line.toList ++ ['\n']

/-- Nothing is asked for but values, errors and records. -/
structure Options.Plain (o : Options) : Prop where
  tokens : o.tokens = false
  tree : o.tree = false
  timings : o.timings = false

namespace Options

variable {o o' : Options} {d d' : Durations}

/-- What is left of the output once diagnostic entries are left out. -/
def kept (entries : List Entry) : List Entry := entries.filter fun e => !e.isDiagnostic

theorem kept_append (entries entries' : List Entry) :
    kept (entries ++ entries') = kept entries ++ kept entries' := List.filter_append ..

theorem kept_timing (stage : Stage) : kept (o.timing d stage) = [] := by
  unfold timing
  split <;> rfl

theorem kept_scanned (tokens : List Token) : kept (o.scanned d tokens) = [] := by
  have htokens : kept (tokens.map Entry.token) = [] := by
    refine List.filter_eq_nil_iff.mpr fun e he => ?_
    obtain ⟨t, -, rfl⟩ := List.mem_map.mp he
    exact Bool.false_ne_true
  rw [scanned, kept_append, kept_timing]
  split
  · exact htokens
  · rfl

theorem kept_parsed (tree : Expr) : kept (o.parsed d tree) = [] := by
  rw [parsed, kept_append, kept_timing]
  split <;> rfl

theorem kept_evaluated (v : Value) : kept (o.evaluated d v) = [.value v] := by
  rw [evaluated, kept_append, kept_timing]
  rfl

/-- The entry of the value that a line has, if it has one. -/
def ofValue (p : Progress) : List Entry :=
  match p.result with
  | .ok v => [.value v]
  | .error _ => []

theorem kept_entries (p : Progress) : kept (o.entries d p) = ofValue p := by
  cases p with
  | unscanned e => rfl
  | unparsed tokens e => exact kept_scanned tokens
  | unevaluated tokens tree e =>
      rw [entries, kept_append, kept_scanned, kept_parsed]
      rfl
  | evaluated tokens tree v =>
      rw [entries, kept_append, kept_append, kept_scanned, kept_parsed, kept_evaluated]
      rfl

theorem Plain.entries_eq (h : o.Plain) (p : Progress) : o.entries d p = ofValue p := by
  have htiming : ∀ stage, o.timing d stage = [] := by
    intro stage
    rw [timing, h.timings]
    rfl
  have hscanned : ∀ tokens, o.scanned d tokens = [] := by
    intro tokens
    rw [scanned, htiming, h.tokens]
    rfl
  have hparsed : ∀ tree, o.parsed d tree = [] := by
    intro tree
    rw [parsed, htiming, h.tree]
    rfl
  cases p with
  | unscanned e => rfl
  | unparsed tokens e => exact hscanned tokens
  | unevaluated tokens tree e =>
      rw [entries, hscanned, hparsed]
      rfl
  | evaluated tokens tree v =>
      rw [entries, hscanned, hparsed, evaluated, htiming]
      rfl

theorem entries_congr (htokens : o'.tokens = o.tokens) (htree : o'.tree = o.tree)
    (htimings : o'.timings = o.timings) : o'.entries d = o.entries d := by
  obtain ⟨tokens, tree, timings, verbosity⟩ := o
  obtain ⟨_, _, _, verbosity'⟩ := o'
  subst htokens htree htimings
  rfl

theorem notices_congr (h : o'.verbosity = o.verbosity) : o'.notices = o.notices := by
  funext number a
  rw [notices, h]
  rfl

theorem notices_silent (h : o'.verbosity = 0) (number : Nat) (a : Account) :
    o'.notices number a = (o.notices number a).filter Notice.isFailure := by
  have hrecords : ∀ records : List Log.Record,
      (records.map Notice.record).filter Notice.isFailure = [] := by
    intro records
    refine List.filter_eq_nil_iff.mpr fun n hn => ?_
    obtain ⟨r, -, rfl⟩ := List.mem_map.mp hn
    exact Bool.false_ne_true
  rw [notices, notices, h, Log.shown_zero, List.filter_append, hrecords]
  cases a.progress.result <;> rfl

end Options

/-! ## Reports -/

namespace Report

variable {o o' : Options} {clock clock' : Nat → Durations}

/-- Leaving diagnostic entries out of a report gives the one in which nothing is asked for. -/
theorem entries_plain (h : o'.Plain) (lines : List (Nat × String)) :
    (ofLines o' clock' lines).entries = Options.kept (ofLines o clock lines).entries := by
  rw [entries_ofLines, entries_ofLines, Options.kept, List.filter_flatMap]
  refine congrArg (List.flatMap · lines) (funext fun (number, source) => ?_)
  exact (h.entries_eq _).trans (Options.kept_entries _).symm

theorem entries_congr (htokens : o'.tokens = o.tokens) (htree : o'.tree = o.tree)
    (htimings : o'.timings = o.timings) (lines : List (Nat × String)) :
    (ofLines o' clock lines).entries = (ofLines o clock lines).entries := by
  rw [entries_ofLines, entries_ofLines]
  refine congrArg (List.flatMap · lines) (funext fun (number, source) => ?_)
  exact congrFun (Options.entries_congr htokens htree htimings) _

theorem notices_congr (h : o'.verbosity = o.verbosity) (lines : List (Nat × String)) :
    (ofLines o' clock' lines).notices = (ofLines o clock lines).notices := by
  rw [notices_ofLines, notices_ofLines]
  refine congrArg (List.flatMap · lines) (funext fun (number, source) => ?_)
  exact congrFun (congrFun (Options.notices_congr h) number) _

theorem notices_silent (h : o'.verbosity = 0) (lines : List (Nat × String)) :
    (ofLines o' clock' lines).notices
      = (ofLines o clock lines).notices.filter Notice.isFailure := by
  rw [notices_ofLines, notices_ofLines, List.filter_flatMap]
  refine congrArg (List.flatMap · lines) (funext fun (number, source) => ?_)
  exact Options.notices_silent h number _

theorem hasFailure_congr (o o' : Options) (clock clock' : Nat → Durations)
    (lines : List (Nat × String)) :
    (ofLines o' clock' lines).hasFailure = (ofLines o clock lines).hasFailure := by
  rw [Bool.eq_iff_iff, hasFailure_ofLines_iff, hasFailure_ofLines_iff]

end Report

/-! ## Entries as lines -/

section
variable {o : Options} {d : Durations} {source : String}

/-- `Shows source d e`: the entry `e` shows what a stage gives for the source, or how long it
took. -/
inductive Shows (source : String) (d : Durations) : Entry → Prop
  | timing (stage : Stage) : Shows source d (.timing stage (d stage))
  | token {ts : List Token} {t : Token} :
      Token.scan source = .ok ts → t ∈ ts → Shows source d (.token t)
  | tree {ts : List Token} {tree : Expr} :
      Token.scan source = .ok ts → parse ts = .ok tree → Shows source d (.tree tree)
  | value {ts : List Token} {tree : Expr} {v : Value} :
      Token.scan source = .ok ts → parse ts = .ok tree → tree.eval = .ok v →
      Shows source d (.value v)

theorem Shows.of_timing {stage : Stage} {e : Entry} (h : e ∈ o.timing d stage) :
    Shows source d e := by
  unfold Options.timing at h
  split at h
  next =>
    obtain rfl := List.mem_singleton.mp h
    exact .timing stage
  next => exact nomatch h

theorem Shows.of_scanned {ts : List Token} (hscan : Token.scan source = .ok ts) {e : Entry}
    (h : e ∈ o.scanned d ts) : Shows source d e := by
  rcases List.mem_append.mp h with htiming | h
  · exact .of_timing htiming
  · split at h
    next =>
      obtain ⟨t, ht, rfl⟩ := List.mem_map.mp h
      exact .token hscan ht
    next => exact nomatch h

theorem Shows.of_parsed {ts : List Token} {tree : Expr} (hscan : Token.scan source = .ok ts)
    (hparse : parse ts = .ok tree) {e : Entry} (h : e ∈ o.parsed d tree) :
    Shows source d e := by
  rcases List.mem_append.mp h with htiming | h
  · exact .of_timing htiming
  · split at h
    next =>
      obtain rfl := List.mem_singleton.mp h
      exact .tree hscan hparse
    next => exact nomatch h

/-- Whatever is shown of a line comes from one of its stages. -/
theorem Shows.of_mem {e : Entry} (h : e ∈ o.entries d (Account.ofSource source).progress) :
    Shows source d e := by
  have hprogress := Account.progress_of source
  generalize (Account.ofSource source).progress = p at hprogress h
  cases hprogress with
  | unscanned hscan => exact nomatch h
  | unparsed hscan hparse => exact .of_scanned hscan h
  | unevaluated hscan hparse heval =>
      rcases List.mem_append.mp h with h | h
      · exact .of_scanned hscan h
      · exact .of_parsed hscan hparse h
  | evaluated hscan hparse heval =>
      rcases List.mem_append.mp h with h | h
      · rcases List.mem_append.mp h with h | h
        · exact .of_scanned hscan h
        · exact .of_parsed hscan hparse h
      · rcases List.mem_append.mp h with htiming | h
        · exact .of_timing htiming
        · obtain rfl := List.mem_singleton.mp h
          exact .value hscan hparse heval

theorem Shows.oneLine {e : Entry} (h : Shows source d e) (hsource : OneLine source)
    (hd : ∀ stage, OneLine (d stage)) : OneLine e.line := by
  cases h with
  | timing stage =>
      have hname : OneLine stage.name := by cases stage <;> decide
      dsimp only [Entry.line]
      simp only [oneLine_append, hname, hd stage, and_true]
      decide
  | @token ts t hscan ht =>
      dsimp only [Entry.line]
      simp only [oneLine_append, t.kind.oneLine_name,
        Token.oneLine_display (oneLine_lexeme hsource hscan ht), and_true]
      decide
  | tree hscan hparse => exact Expr.oneLine_render (oneLine_literal hsource hscan hparse)
  | value hscan hparse heval =>
      exact Value.oneLine_render (Expr.value_isFrom heval) (oneLine_literal hsource hscan hparse)

end

theorem Report.oneLine_entries {o : Options} {clock : Nat → Durations}
    (hclock : ∀ number stage, OneLine (clock number stage)) (text : String) :
    ∀ line ∈ (ofLines o clock (numbered (lines text))).entries.map Entry.line, OneLine line := by
  intro line hline
  obtain ⟨e, he, rfl⟩ := List.mem_map.mp hline
  rw [entries_ofLines] at he
  obtain ⟨⟨number, source⟩, hsource, he⟩ := List.mem_flatMap.mp he
  have hmem := (exists_mem_numbered_iff.mp ⟨number, hsource⟩).1
  exact (Shows.of_mem he).oneLine (oneLine_of_mem_lines hmem) (hclock number)

/-! ## Notices as lines -/

/-- Whether a line of notices shows a log record: it begins with the level of one. -/
def isRecord (line : List Char) : Bool :=
  [Log.Level.warn, .debug, .trace].any fun level =>
    ("[" ++ level.name ++ "] ").toList.isPrefixOf line

def withoutRecord (line : List Char) : List Char := if isRecord line then [] else line

theorem isRecord_record (r : Log.Record) :
    isRecord ((Notice.record r).numberedLine.toList ++ ['\n']) = true := by
  refine List.any_eq_true.mpr ⟨r.level, ?_, ?_⟩
  · cases r.level <;> simp
  · refine List.isPrefixOf_iff_prefix.mpr ⟨r.text.toList ++ ['\n'], ?_⟩
    rw [← List.append_assoc, ← String.toList_append]
    rfl

theorem isRecord_failure (number : Nat) (e : LineError) :
    isRecord ((Notice.failure number e).numberedLine.toList ++ ['\n']) = false := by
  have hline : ∃ rest, (Notice.failure number e).numberedLine.toList ++ ['\n'] = 'l' :: rest := by
    simp [Notice.numberedLine]
  obtain ⟨rest, hrest⟩ := hline
  rw [hrest]
  rfl

/-- Leaving out the lines of log records is leaving out the records. -/
theorem mapLines_withoutRecord {ns : List Notice} (h : ∀ n ∈ ns, OneLine n.line) :
    mapLines withoutRecord (unlines (ns.map Notice.numberedLine))
      = unlines ((ns.filter Notice.isFailure).map Notice.numberedLine) := by
  refine String.toList_inj.mp ?_
  rw [mapLines, splitAfter_notices h, String.toList_ofList, toList_unlines, List.flatMap_map,
    List.flatMap_map]
  clear h
  induction ns with
  | nil => rfl
  | cons n ns ih =>
      cases n with
      | record r =>
          rw [List.flatMap_cons, ih, withoutRecord, isRecord_record]
          rfl
      | failure number e =>
          rw [List.flatMap_cons, ih, withoutRecord, isRecord_failure]
          rfl

/-! ## What the stages of a line show -/

/-- The lines of output that one line of a file adds: what is asked for of a stage is shown if the
stage succeeds, below what the stages before it show. -/
def Options.block (o : Options) (d : Durations) (line : String) : List String :=
  match Token.scan line with
  | .error _ => []
  | .ok tokens =>
    (if o.timings then ["[Scanning took: " ++ d .scan ++ "]"] else [])
      ++ (if o.tokens then tokens.map fun t => t.kind.name ++ " " ++ t.display else [])
      ++ match parse tokens with
        | .error _ => []
        | .ok tree =>
          (if o.timings then ["[Parsing took: " ++ d .parse ++ "]"] else [])
            ++ (if o.tree then [tree.render] else [])
            ++ match tree.eval with
              | .error _ => []
              | .ok v =>
                (if o.timings then ["[Evaluating took: " ++ d .eval ++ "]"] else [])
                  ++ [v.render]

section
variable {o : Options} {d : Durations}

theorem map_line_timing (stage : Stage) : (o.timing d stage).map Entry.line
    = if o.timings then ["[" ++ stage.name ++ " took: " ++ d stage ++ "]"] else [] := by
  unfold Options.timing
  split <;> rfl

theorem map_line_scanned (tokens : List Token) : (o.scanned d tokens).map Entry.line
    = (if o.timings then ["[Scanning took: " ++ d .scan ++ "]"] else [])
      ++ if o.tokens then tokens.map fun t => t.kind.name ++ " " ++ t.display else [] := by
  rw [Options.scanned, List.map_append, map_line_timing]
  congr 1
  split
  · rw [List.map_map]
    rfl
  · rfl

theorem map_line_parsed (tree : Expr) : (o.parsed d tree).map Entry.line
    = (if o.timings then ["[Parsing took: " ++ d .parse ++ "]"] else [])
      ++ if o.tree then [tree.render] else [] := by
  rw [Options.parsed, List.map_append, map_line_timing]
  congr 1
  split <;> rfl

theorem map_line_evaluated (v : Value) : (o.evaluated d v).map Entry.line
    = (if o.timings then ["[Evaluating took: " ++ d .eval ++ "]"] else []) ++ [v.render] := by
  rw [Options.evaluated, List.map_append, map_line_timing]
  rfl

theorem map_line_entries (line : String) :
    (o.entries d (Account.ofSource line).progress).map Entry.line = o.block d line := by
  have hprogress := Account.progress_of line
  generalize (Account.ofSource line).progress = p at hprogress
  cases hprogress with
  | unscanned hscan =>
      rw [Options.block, hscan]
      rfl
  | unparsed hscan hparse =>
      simp only [Options.block, hscan, hparse, List.append_nil]
      exact map_line_scanned _
  | unevaluated hscan hparse heval =>
      simp only [Options.block, hscan, hparse, heval, List.append_nil]
      rw [Options.entries, List.map_append, map_line_scanned, map_line_parsed]
  | evaluated hscan hparse heval =>
      simp only [Options.block, hscan, hparse, heval]
      rw [Options.entries, List.map_append, List.map_append, map_line_scanned, map_line_parsed,
        map_line_evaluated, List.append_assoc]

/-- The output of a text is that of its lines, block by block. -/
theorem output_runText (clock : Nat → Durations) (text : String) :
    (runText o clock text).output
      = String.join (((lines text).zipIdx 1).map fun (line, number) =>
          if isBlankText line.toList then "" else unlines (o.block (clock number) line)) := by
  rw [runText, fileTranscript, Report.entries_ofLines, unlines_numbered]
  refine congrArg String.join (List.map_congr_left fun x _ => ?_)
  exact congrArg (fun block => if isBlankText x.1.toList then "" else unlines block)
    (map_line_entries x.1)

end

/-! ## Two runs of a text -/

section
variable {o o' : Options} {clock clock' : Nat → Durations}

theorem exitCode_congr (o o' : Options) (clock clock' : Nat → Durations) (text : String) :
    (runText o' clock' text).exitCode = (runText o clock text).exitCode := by
  rw [runText, runText, fileTranscript, fileTranscript,
    Report.hasFailure_congr o o' clock clock']

theorem notices_congr (h : o'.verbosity = o.verbosity) (text : String) :
    (runText o' clock' text).notices = (runText o clock text).notices := by
  rw [runText, runText, fileTranscript, fileTranscript, Report.notices_congr h]

theorem notices_silent (h : o'.verbosity = 0) (text : String) :
    (runText o' clock' text).notices
      = mapLines withoutRecord (runText o clock text).notices := by
  rw [runText, runText, fileTranscript, fileTranscript,
    mapLines_withoutRecord (Report.oneLine_notices o clock text), Report.notices_silent h]

theorem output_congr (htokens : o'.tokens = o.tokens) (htree : o'.tree = o.tree)
    (htimings : o'.timings = o.timings) (text : String) :
    (runText o' clock text).output = (runText o clock text).output := by
  rw [runText, runText, fileTranscript, fileTranscript,
    Report.entries_congr htokens htree htimings]

theorem output_plain (h : o'.Plain) (hclock : ∀ number stage, OneLine (clock number stage))
    (text : String) :
    Deletes IsDiagnostic (splitAfter '\n' (runText o clock text).output.toList)
      (splitAfter '\n' (runText o' clock' text).output.toList) := by
  have hlines := Report.oneLine_entries (o := o) hclock text
  have hkept : ∀ line ∈ (Options.kept (Report.ofLines o clock (numbered (lines text))).entries).map
      Entry.line, OneLine line := by
    intro line hline
    obtain ⟨e, he, rfl⟩ := List.mem_map.mp hline
    exact hlines _ (List.mem_map_of_mem (List.mem_filter.mp he).1)
  rw [runText, runText, fileTranscript, fileTranscript, Report.entries_plain h,
    splitAfter_unlines hlines, splitAfter_unlines hkept, List.map_map, List.map_map]
  refine Deletes.map_filter (fun e he => ⟨e, ?_, rfl⟩) _
  simpa using he

end

/-! ## Two runs of a file -/

/-- Two runs of a file with whatever is asked for differ in whole diagnostic lines of their output
and in the log records among their notices, and in nothing else. -/
theorem runFile_diagnostics (name text : String) (o : Options) (clock : Nat → Durations) :
    let file (o : Options) (clock : Nat → Durations) := runFile o clock name (.ok text.toUTF8)
    (∀ o' clock', (file o' clock').exitCode = (file o clock).exitCode) ∧
    (∀ o' clock', o'.verbosity = o.verbosity →
      (file o' clock').notices = (file o clock).notices) ∧
    (∀ o' clock', o'.verbosity = 0 →
      (file o' clock').notices = mapLines withoutRecord (file o clock).notices) ∧
    (∀ o', o'.tokens = o.tokens → o'.tree = o.tree → o'.timings = o.timings →
      (file o' clock).output = (file o clock).output) ∧
    (∀ o' clock', o'.Plain → (∀ number stage, OneLine (clock number stage)) →
      Deletes IsDiagnostic (splitAfter '\n' (file o clock).output.toList)
        (splitAfter '\n' (file o' clock').output.toList)) ∧
    (file o clock).output
      = String.join (((lines text).zipIdx 1).map fun (line, number) =>
          if isBlankText line.toList then "" else unlines (o.block (clock number) line)) := by
  intro file
  have hfile : ∀ o clock, file o clock = runText o clock text := by
    intro o clock
    exact runFile_text o clock name text
  simp only [hfile]
  exact ⟨fun o' clock' => exitCode_congr o o' clock clock' text,
    fun _ _ h => notices_congr h text,
    fun _ _ h => notices_silent h text,
    fun _ htokens htree htimings => output_congr htokens htree htimings text,
    fun _ _ hplain hclock => output_plain hplain hclock text,
    output_runText clock text⟩

/-- With all that can be asked for, a text is shown stage by stage up to its open grouping. -/
theorem runFile_diagnostics_of_open_grouping :
    let loud : Options := ⟨true, true, true, 3⟩
    let clock : Nat → Durations := fun _ _ => "1ns"
    let file (o : Options) := runFile o clock "" (.ok "\"a\"\n(".toUTF8)
    Options.quiet.Plain
      ∧ (∀ number stage, OneLine (clock number stage))
      ∧ (file .quiet).exitCode = (file loud).exitCode
      ∧ (file .quiet).notices = mapLines withoutRecord (file loud).notices
      ∧ Deletes IsDiagnostic (splitAfter '\n' (file loud).output.toList)
          (splitAfter '\n' (file .quiet).output.toList)
      ∧ (file loud).output = unlines
          ["[Scanning took: 1ns]", "String \"a\" @ line 1, column 1",
            "EndOfInput \"EOF\" @ line 1, column 4", "[Parsing took: 1ns]", "\"a\"",
            "[Evaluating took: 1ns]", "\"a\"", "[Scanning took: 1ns]",
            "LeftParen \"(\" @ line 1, column 1", "EndOfInput \"EOF\" @ line 1, column 2"] := by
  intro loud clock file
  obtain ⟨hexit, -, hnotices, -, houtput, hblocks⟩ :=
    runFile_diagnostics "" "\"a\"\n(" loud clock
  have hplain : Options.quiet.Plain := ⟨rfl, rfl, rfl⟩
  have hclock : ∀ number stage, OneLine (clock number stage) := by
    intro number stage
    have hduration : OneLine "1ns" := by decide
    exact hduration
  refine ⟨hplain, hclock, hexit .quiet clock, hnotices .quiet clock rfl,
    houtput .quiet clock hplain hclock, hblocks.trans ?_⟩
  decide +kernel

end LineCalc.Session
