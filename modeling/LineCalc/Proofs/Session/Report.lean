/-
# `LineCalc.Proofs.Session.Report` — reports put together

The report of many lines is the reports of its lines, one after another, and no line knows
of the others: all it depends on is its text and its number.  So the report of lines that
follow others is the report they have by themselves, with the numbers of its errors raised
(`Report.ofLines_append`).  Durations matter only where timings are asked for.  And since no
line of a text holds a line feed, no notice does (`Report.oneLine_notices`).
-/
import LineCalc.Proofs.Session.OneLine

namespace LineCalc.Session

/-! ## Numbers of lines -/

section
variable {β : Type}

/-- Going through the numbered lines is going through all of them, but for blank ones. -/
theorem flatMap_numbered (lines : List String) (f : Nat × String → List β) :
    (numbered lines).flatMap f = (lines.zipIdx 1).flatMap fun (line, number) =>
      if Text.isBlankText line.toList then [] else f (number, line) := by
  rw [numbered, List.flatMap_map]
  induction lines.zipIdx 1 with
  | nil => rfl
  | cons p ps ih =>
      obtain ⟨line, number⟩ := p
      rw [List.filter_cons, List.flatMap_cons, ← ih]
      cases hblank : Text.isBlankText line.toList <;> simp [hblank]

end

theorem exists_mem_numbered_iff {lines : List String} {line : String} :
    (∃ number, (number, line) ∈ numbered lines)
      ↔ line ∈ lines ∧ Text.isBlankText line.toList = false := by
  constructor
  · rintro ⟨number, h⟩
    obtain ⟨⟨line', number'⟩, hmem, heq⟩ := List.mem_map.mp h
    obtain ⟨hline, hblank⟩ := List.mem_filter.mp hmem
    cases heq
    exact ⟨List.fst_mem_of_mem_zipIdx hline, by simpa using hblank⟩
  · rintro ⟨hline, hblank⟩
    rw [← List.zipIdx_map_fst 1 lines] at hline
    obtain ⟨⟨line', number⟩, hmem, rfl⟩ := List.mem_map.mp hline
    refine ⟨number, List.mem_map.mpr ⟨(line', number), List.mem_filter.mpr ⟨hmem, ?_⟩, rfl⟩⟩
    simpa using hblank

theorem numbered_append (lines lines' : List String) :
    numbered (lines ++ lines') = numbered lines
      ++ (numbered lines').map fun (number, line) => (number + lines.length, line) := by
  have hshift : lines'.zipIdx (1 + lines.length)
      = (lines'.zipIdx 1).map (Prod.map id (· + lines.length)) := by
    rw [Nat.add_comm, List.map_snd_add_zipIdx_eq_zipIdx]
  rw [numbered, List.zipIdx_append, hshift, List.filter_append, List.map_append, List.filter_map,
    List.map_map, numbered, numbered, List.map_map]
  rfl

/-! ## Joining -/

/-- The same notice, the number of an error raised. -/
def Notice.raise (k : Nat) : Notice → Notice
  | record r => record r
  | failure number e => failure (number + k) e

namespace Report

def raise (k : Nat) (r : Report) : Report := ⟨r.entries, r.notices.map (Notice.raise k)⟩

def append (r r' : Report) : Report := ⟨r.entries ++ r'.entries, r.notices ++ r'.notices⟩

theorem hasFailure_append (r r' : Report) :
    (r.append r').hasFailure = (r.hasFailure || r'.hasFailure) := List.any_append

theorem hasFailure_raise (k : Nat) (r : Report) : (r.raise k).hasFailure = r.hasFailure := by
  have hraise : ∀ n : Notice, (n.raise k).isFailure = n.isFailure := by
    intro n
    cases n <;> rfl
  simp only [hasFailure, raise, List.any_map, Function.comp_def, hraise]

theorem join_append (rs rs' : List Report) : join (rs ++ rs') = (join rs).append (join rs') := by
  simp only [join, append, List.flatMap_append]

theorem join_raise (k : Nat) (rs : List Report) : join (rs.map (raise k)) = (join rs).raise k := by
  simp only [join, raise, List.flatMap_map, List.map_flatMap]

theorem entries_ofLines (o : Options) (clock : Nat → Durations) (lines : List (Nat × String)) :
    (ofLines o clock lines).entries
      = lines.flatMap fun (number, source) => (ofLine o (clock number) number source).entries :=
  List.flatMap_map _ _ _

theorem notices_ofLines (o : Options) (clock : Nat → Durations) (lines : List (Nat × String)) :
    (ofLines o clock lines).notices
      = lines.flatMap fun (number, source) => (ofLine o (clock number) number source).notices :=
  List.flatMap_map _ _ _

theorem hasFailure_ofLine_iff {o : Options} {d : Durations} {number : Nat} {source : String} :
    (ofLine o d number source).hasFailure = true ↔ ∃ e, run source = .error e := by
  have hrecords : ∀ rs : List Log.Record, (rs.map Notice.record).any Notice.isFailure = false := by
    intro rs
    rw [List.any_map, List.any_eq_false]
    intro r _
    exact Bool.false_ne_true
  show List.any (List.map _ _ ++ _) _ = true ↔ _
  rw [List.any_append, hrecords, Bool.false_or, run]
  cases (Account.ofSource source).progress.result with
  | ok v =>
      refine iff_of_false Bool.false_ne_true ?_
      rintro ⟨e, he⟩
      cases he
  | error e => exact iff_of_true rfl ⟨e, rfl⟩

theorem hasFailure_ofLines_iff {o : Options} {clock : Nat → Durations}
    {lines : List (Nat × String)} : (ofLines o clock lines).hasFailure = true
      ↔ ∃ number source, (number, source) ∈ lines ∧ ∃ e, run source = .error e := by
  rw [hasFailure, notices_ofLines, List.any_flatMap, List.any_eq_true]
  constructor
  · rintro ⟨⟨number, source⟩, hline, hfailure⟩
    exact ⟨number, source, hline, hasFailure_ofLine_iff.mp hfailure⟩
  · rintro ⟨number, source, hline, hrun⟩
    exact ⟨_, hline, hasFailure_ofLine_iff.mpr hrun⟩

theorem ofLine_add (o : Options) (d : Durations) (number k : Nat) (source : String) :
    ofLine o d (number + k) source = (ofLine o d number source).raise k := by
  have hnotices : o.notices (number + k) (.ofSource source)
      = (o.notices number (.ofSource source)).map (Notice.raise k) := by
    simp only [Options.notices, List.map_append, List.map_map]
    congr 1
    split <;> rfl
  rw [ofLine, hnotices]
  rfl

/-- Lines that follow others are reported as by themselves, but for their numbers. -/
theorem ofLines_append (o : Options) (clock : Nat → Durations) (lines lines' : List String) :
    ofLines o clock (numbered (lines ++ lines'))
      = (ofLines o clock (numbered lines)).append
          ((ofLines o (fun number => clock (number + lines.length)) (numbered lines')).raise
            lines.length) := by
  rw [numbered_append, ofLines, List.map_append, join_append, List.map_map]
  refine congrArg _ ?_
  rw [ofLines, ← join_raise, List.map_map]
  refine congrArg join (List.map_congr_left fun (number, source) _ => ?_)
  exact ofLine_add o _ number lines.length source

theorem ofLines_of_untimed {o : Options} (h : o.timings = false) (clock clock' : Nat → Durations)
    (lines : List (Nat × String)) : ofLines o clock lines = ofLines o clock' lines := by
  have htiming : ∀ d stage, o.timing d stage = [] := by
    intro d stage
    rw [Options.timing, h]
    rfl
  have hentries : ∀ d d' p, o.entries d p = o.entries d' p := by
    intro d d' p
    cases p <;> simp only [Options.entries, Options.scanned, Options.parsed, Options.evaluated,
      htiming]
  refine congrArg join (List.map_congr_left fun (number, source) _ => ?_)
  show (⟨_, _⟩ : Report) = ⟨_, _⟩
  rw [hentries (clock number) (clock' number)]

theorem oneLine_notices (o : Options) (clock : Nat → Durations) (text : String) :
    ∀ n ∈ (ofLines o clock (numbered (Text.lines text))).notices, Text.OneLine n.line := by
  intro n hn
  obtain ⟨r, hr, hn⟩ := List.mem_flatMap.mp hn
  obtain ⟨⟨number, line⟩, hline, rfl⟩ := List.mem_map.mp hr
  have hmem := (exists_mem_numbered_iff.mp ⟨number, hline⟩).1
  exact o.oneLine_notices (Text.oneLine_of_mem_lines hmem) number hn

end Report

end LineCalc.Session
