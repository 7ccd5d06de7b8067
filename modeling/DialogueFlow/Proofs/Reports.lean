import DialogueFlow.Proofs.Coupling
import DialogueFlow.Proofs.LineCount
import DialogueFlow.Proofs.Outcome

namespace DialogueFlow

namespace LineReport

structure Joins (first second whole : LineReport) : Prop where
  runs : whole.runs = first.runs ++ second.runs
  characters : ∀ c, c ∈ whole.characters ↔ c ∈ first.characters ∨ c ∈ second.characters
  hasUnnamed : whole.hasUnnamed = (first.hasUnnamed || second.hasUnnamed)

namespace Joins

variable {first second whole : LineReport}

theorem empty (first : LineReport) : first.Joins .empty first where
  runs := by simp [LineReport.empty]
  characters := by simp [LineReport.empty]
  hasUnnamed := by simp [LineReport.empty]

theorem credit (h : first.Joins second whole) (unnamed : Unnamed) (character : String) :
    first.Joins (second.credit unnamed character) (whole.credit unnamed character) where
  runs := by rw [runs_credit, runs_credit, h.runs]
  characters c := by rw [mem_characters_credit, mem_characters_credit, h.characters, or_assoc]
  hasUnnamed := by rw [hasUnnamed_credit, hasUnnamed_credit, h.hasUnnamed, Bool.or_assoc]

theorem close (h : first.Joins second whole) (run : List LineRecord) :
    first.Joins (second.close run) (whole.close run) where
  runs := by rw [runs_close, runs_close, h.runs, List.append_assoc]
  characters c := by rw [characters_close, characters_close, h.characters]
  hasUnnamed := by rw [hasUnnamed_close, hasUnnamed_close, h.hasUnnamed]

end Joins

def speakers (r : LineReport) : List String := r.runs.flatten.map LineRecord.character

theorem speakers_close (run : List LineRecord) (r : LineReport) :
    (r.close run).speakers = r.speakers ++ run.map LineRecord.character := by
  cases run <;> simp [speakers, runs_close]

theorem speakers_credit (unnamed : Unnamed) (character : String) (r : LineReport) :
    (r.credit unnamed character).speakers = r.speakers := by
  rw [speakers, runs_credit, speakers]

/-- The characters are those of the lines, each listed once. Lines that stay without a speaker are
noted instead. -/
structure AccountsFor (r : LineReport) (unnamed : Unnamed) (speakers : List String) : Prop where
  characters : ∀ c, c ∈ r.characters ↔ c ∈ speakers ∧ ¬ (c = "" ∧ unnamed = .keep)
  hasUnnamed : r.hasUnnamed = true ↔ "" ∈ speakers ∧ unnamed = .keep
  nodup : r.characters.Nodup

namespace AccountsFor

variable {r : LineReport} {unnamed : Unnamed} {speakers : List String}

theorem credit (h : r.AccountsFor unnamed speakers) (character : String) :
    (r.credit unnamed character).AccountsFor unnamed (speakers ++ [character]) where
  characters c := by
    rw [mem_characters_credit, h.characters, List.mem_append, List.mem_singleton]
    apply Iff.intro
    · rintro (⟨hc, hnot⟩ | ⟨rfl, hnot⟩)
      · exact ⟨.inl hc, hnot⟩
      · exact ⟨.inr rfl, hnot⟩
    · rintro ⟨hc | rfl, hnot⟩
      · exact .inl ⟨hc, hnot⟩
      · exact .inr ⟨rfl, hnot⟩
  hasUnnamed := by
    rw [hasUnnamed_credit, Bool.or_eq_true, h.hasUnnamed, decide_eq_true_iff, List.mem_append,
      List.mem_singleton, or_and_right, @eq_comm _ "" character]
  nodup := by
    rw [LineReport.credit]
    split
    · exact h.nodup
    · split
      · exact h.nodup
      · next hmem => simpa using h.nodup.concat hmem

theorem close (h : r.AccountsFor unnamed speakers) (run : List LineRecord) :
    (r.close run).AccountsFor unnamed speakers where
  characters := by rw [characters_close]; exact h.characters
  hasUnnamed := by rw [hasUnnamed_close]; exact h.hasUnnamed
  nodup := by rw [characters_close]; exact h.nodup

end AccountsFor

end LineReport

namespace LineRuns

variable {table table' : StringTable} {unnamed unnamed' : Unnamed}

theorem id_of_lineRecord {s : Setting} {id : String} {r : LineRecord}
    (h : s.lineRecord id = .ok r) : r.id = id := by
  obtain ⟨text, -, hr⟩ := bind_eq_ok_iff.mp h
  rw [Setting.recordOf] at hr
  split at hr <;> cases hr <;> rfl

theorem exists_lineRecord {s : Setting} {id : String} (ht : ∃ text, s.table.text id = .ok text)
    (hu : s.unnamed ≠ .refuse) : ∃ r, s.lineRecord id = .ok r := by
  obtain ⟨text, ht⟩ := ht
  have hrecord : s.lineRecord id = s.recordOf id text := by
    rw [Setting.lineRecord, ht]
    rfl
  rw [hrecord, Setting.recordOf]
  split
  · exact ⟨_, rfl⟩
  · exact ⟨_, rfl⟩
  · exact ⟨_, rfl⟩
  · next hrefuse => exact absurd hrefuse hu

/-- Both sides have the same lines in the same groups. -/
structure SameIds (run run' : List LineRecord) (report report' : LineReport) : Prop where
  run : run'.map LineRecord.id = run.map LineRecord.id
  report : report'.lineIds = report.lineIds

theorem lineIds_close (run : List LineRecord) (r : LineReport) :
    (r.close run).lineIds = r.lineIds ++ asRun (run.map LineRecord.id) := by
  cases run <;> simp [LineReport.lineIds, LineReport.runs_close, asRun]

theorem coupling_sameIds (ht : table.HoldsTexts) (ht' : table'.HoldsTexts)
    (hu : unnamed ≠ .refuse) (hu' : unnamed' ≠ .refuse) (blocks : List Block) :
    Coupling ⟨blocks, table, unnamed⟩ ⟨blocks, table', unnamed'⟩ SameIds where
  blocks := rfl
  line id := by
    obtain ⟨r, hr⟩ := exists_lineRecord (s := ⟨blocks, table, unnamed⟩) (ht.exists_text id) hu
    obtain ⟨r', hr'⟩ := exists_lineRecord (s := ⟨blocks, table', unnamed'⟩) (ht'.exists_text id) hu'
    refine .inr ⟨r, r', hr, hr', fun run run' report report' h => ⟨?_, ?_⟩⟩
    · simp [h.run, id_of_lineRecord hr, id_of_lineRecord hr']
    · simpa [LineReport.lineIds, LineReport.runs_credit] using h.report
  close run run' report report' h := by
    refine ⟨rfl, ?_⟩
    rw [lineIds_close, lineIds_close, h.report, h.run]

/-- How lines are grouped, and whether they can be, does not depend on the texts and on who speaks
the lines without a speaker. -/
theorem extract_lineIds_eq (ht : table.HoldsTexts) (ht' : table'.HoldsTexts)
    (default default' : Option String) (nodes : List (String × List Block)) :
    (extract table default nodes).map LineReport.lineIds =
      (extract table' default' nodes).map LineReport.lineIds := by
  have hcoupled := coupled_walkNodes (coupling_sameIds ht ht'
    (Unnamed.ofDefault_ne_refuse default) (Unnamed.ofDefault_ne_refuse default')) nodes
  rw [extract, extract]
  obtain ⟨_, st, _, st', hrun, hrun', hsame⟩ | ⟨fault, st, st', hrun, hrun'⟩ :=
    hcoupled ⟨.empty, [], []⟩ ⟨.empty, [], []⟩ ⟨rfl, rfl⟩
  · obtain ⟨n, hn⟩ := ht.exists_size
    obtain ⟨n', hn'⟩ := ht'.exists_size
    rw [collect_of_walkNodes hrun hn, collect_of_walkNodes hrun' hn']
    exact congrArg Except.ok hsame.report.symm
  · rw [collect_of_error (run_bind_of_eq_error hrun), collect_of_error (run_bind_of_eq_error hrun')]

def marketTextsAbroad : StringTable :=
  ⟨.object [("line:wares", .string "Ben: Waren"), ("line:fish", .string "Ida: Fisch"),
    ("line:hello", .string "Hallo")]⟩

theorem marketTextsAbroad_holdsTexts : marketTextsAbroad.HoldsTexts := ⟨_, rfl, by simp⟩

def crier : Block := ⟨"Market", 11, none, [⟨.runLine, [.bool true]⟩]⟩

theorem extract_lineIds_eq_market :
    marketTexts.HoldsTexts ∧ marketTextsAbroad.HoldsTexts ∧
      (extract marketTextsAbroad (some "Ann") [("Market", market)]).map LineReport.lineIds =
        .ok [["line:hello"], ["line:leave"], ["line:buy", "line:wares"]] ∧
      ∃ fault, extract marketTexts none [("Market", market ++ [crier])] = .error fault ∧
        extract marketTextsAbroad (some "Ann") [("Market", market ++ [crier])] = .error fault := by
  refine ⟨marketTexts_holdsTexts, marketTextsAbroad_holdsTexts, ?_, ?_⟩
  · have hids : (extract marketTexts none [("Market", market)]).toOption.map LineReport.lineIds =
        some [["line:hello"], ["line:leave"], ["line:buy", "line:wares"]] := by decide +kernel
    rw [extract_lineIds_eq marketTextsAbroad_holdsTexts marketTexts_holdsTexts (some "Ann") none]
    exact map_eq_ok_iff.mpr (exists_ok_of_map hids)
  · have hbroken : (fault? (extract marketTexts none [("Market", market ++ [crier])])).map
        LineFault.text = some "[YA-1002] expected a string operand, got True" := by
      decide +kernel
    obtain ⟨fault, hfault, -⟩ := exists_error_of_map hbroken
    have hsame := extract_lineIds_eq marketTexts_holdsTexts marketTextsAbroad_holdsTexts none
      (some "Ann") [("Market", market ++ [crier])]
    rw [hfault] at hsame
    exact ⟨fault, hfault, map_eq_error_iff.mp hsame.symm⟩

/-- A walk that starts with a report adds to it what it would report on its own. -/
theorem coupling_joins (first : LineReport) (table : StringTable) (unnamed : Unnamed)
    (blocks : List Block) :
    Coupling ⟨blocks, table, unnamed⟩ ⟨blocks, table, unnamed⟩ (fun run run' whole second =>
      run' = run ∧ first.Joins second whole) := by
  apply coupling_self ⟨blocks, table, unnamed⟩ (Q := fun _ whole second => first.Joins second whole)
  · exact fun _ _ _ r h => h.credit unnamed r.character
  · exact fun run _ _ h => h.close run

/-- The report on nodes after each other is made of the reports on either part, whatever the nodes
are called. -/
theorem extract_append {default : Option String} {nodes nodes' : List (String × List Block)}
    {first second : LineReport} (h : extract table default nodes = .ok first)
    (h' : extract table default nodes' = .ok second) :
    ∃ whole, extract table default (nodes ++ nodes') = .ok whole ∧ first.Joins second whole := by
  obtain ⟨⟨st, hrun, rfl⟩, hsize⟩ := collect_eq_ok_iff.mp h
  obtain ⟨⟨st', hrun', rfl⟩, -⟩ := collect_eq_ok_iff.mp h'
  have hcoupled := coupled_walkNodes (coupling_joins st.report table (.ofDefault default)) nodes'
  obtain ⟨_, t, _, t', hwalk, hwalk', -, hjoins⟩ | ⟨fault, t, t', -, hfault⟩ :=
    hcoupled st ⟨.empty, [], []⟩ ⟨rfl, .empty st.report⟩
  · cases hwalk'.symm.trans hrun'
    have hboth := (run_forM_append hrun).trans hwalk
    exact ⟨t.report, collect_eq_ok_iff.mpr ⟨⟨t, hboth, rfl⟩, hsize⟩, hjoins⟩
  · cases hfault.symm.trans hrun'

def quay : Block := ⟨"Quay", 0, none, [
  ⟨.runLine, [.string "line:fish"]⟩,
  ⟨.runLine, [.string "line:wares"]⟩]⟩

def marketRuns : List (List LineRecord) := [
  [⟨"line:hello", "Hallo", ""⟩], [⟨"line:leave", "", ""⟩],
  [⟨"line:buy", "", ""⟩, ⟨"line:wares", "Waren", "Ben"⟩]]

def quayRuns : List (List LineRecord) := [
  [⟨"line:fish", "Fisch", "Ida"⟩, ⟨"line:wares", "Waren", "Ben"⟩]]

theorem extract_append_quay :
    ∃ first second whole,
      extract marketTextsAbroad none [("Market", market)] = .ok first ∧
      extract marketTextsAbroad none [("Quay", [quay])] = .ok second ∧
      (first.runs, first.characters, first.hasUnnamed) = (marketRuns, ["Ben"], true) ∧
      (second.runs, second.characters, second.hasUnnamed) = (quayRuns, ["Ida", "Ben"], false) ∧
      extract marketTextsAbroad none [("Market", market), ("Quay", [quay])] = .ok whole ∧
      whole.runs = marketRuns ++ quayRuns ∧ first.Joins second whole := by
  have hmarket : (extract marketTextsAbroad none [("Market", market)]).toOption.map
      (fun r => (r.runs, r.characters, r.hasUnnamed)) = some (marketRuns, ["Ben"], true) := by
    decide +kernel
  have hquay : (extract marketTextsAbroad none [("Quay", [quay])]).toOption.map
      (fun r => (r.runs, r.characters, r.hasUnnamed)) = some (quayRuns, ["Ida", "Ben"], false) := by
    decide +kernel
  obtain ⟨first, hfirst, hparts⟩ := exists_ok_of_map hmarket
  obtain ⟨second, hsecond, hparts'⟩ := exists_ok_of_map hquay
  obtain ⟨whole, hwhole, hjoins⟩ := extract_append hfirst hsecond
  have hruns : whole.runs = marketRuns ++ quayRuns := by
    rw [hjoins.runs, (Prod.mk.inj hparts).1, (Prod.mk.inj hparts').1]
  exact ⟨first, second, whole, hfirst, hsecond, hparts, hparts', hwhole, hruns, hjoins⟩

theorem coupling_accountsFor (table : StringTable) (unnamed : Unnamed) (blocks : List Block) :
    Coupling ⟨blocks, table, unnamed⟩ ⟨blocks, table, unnamed⟩ (fun run run' report _ =>
      run' = run ∧
        report.AccountsFor unnamed (report.speakers ++ run.map LineRecord.character)) := by
  apply coupling_self ⟨blocks, table, unnamed⟩ (Q := fun run report _ =>
    report.AccountsFor unnamed (report.speakers ++ run.map LineRecord.character))
  · intro run report _ r h
    rw [LineReport.speakers_credit, List.map_append, ← List.append_assoc]
    exact h.credit r.character
  · intro run report _ h
    rw [LineReport.speakers_close, List.map_nil, List.append_nil]
    exact h.close run

/-- The characters of a report are those that speak its lines. Without a default character a line
may have no speaker; the report tells whether there is such a line, and leaves out its empty name.
With a default character, even an empty one, every line has a speaker. -/
theorem extract_characters_iff {default : Option String} {nodes : List (String × List Block)}
    {report : LineReport} (h : extract table default nodes = .ok report) :
    report.characters.Nodup ∧
    (default = none →
      (∀ c, c ∈ report.characters ↔ c ∈ report.speakers ∧ c ≠ "") ∧
        (report.hasUnnamed = true ↔ "" ∈ report.speakers)) ∧
    (default ≠ none →
      (∀ c, c ∈ report.characters ↔ c ∈ report.speakers) ∧ report.hasUnnamed = false) := by
  obtain ⟨⟨st, hrun, rfl⟩, -⟩ := collect_eq_ok_iff.mp h
  have hcoupled := coupled_walkNodes (coupling_accountsFor table (.ofDefault default)) nodes
  have hempty : LineReport.empty.AccountsFor (.ofDefault default) [] :=
    ⟨by simp [LineReport.empty], by simp [LineReport.empty], by simp [LineReport.empty]⟩
  obtain ⟨_, t, _, t', hwalk, -, -, haccounts⟩ | ⟨fault, t, t', hfault, -⟩ :=
    hcoupled ⟨.empty, [], []⟩ ⟨.empty, [], []⟩ ⟨rfl, hempty⟩
  · cases hwalk.symm.trans hrun
    rw [List.map_nil, List.append_nil] at haccounts
    refine ⟨haccounts.nodup, ?_, ?_⟩
    · rintro rfl
      refine ⟨fun c => ?_, ?_⟩
      · rw [haccounts.characters]
        simp [Unnamed.ofDefault]
      · rw [haccounts.hasUnnamed]
        simp [Unnamed.ofDefault]
    · intro hdefault
      obtain ⟨character, rfl⟩ := Option.ne_none_iff_exists'.mp hdefault
      refine ⟨fun c => ?_, ?_⟩
      · rw [haccounts.characters]
        simp [Unnamed.ofDefault]
      · rw [← Bool.not_eq_true, haccounts.hasUnnamed]
        simp [Unnamed.ofDefault]
  · cases hfault.symm.trans hrun

theorem extract_characters_iff_market :
    (∃ report, extract marketTextsAbroad none [("Market", market)] = .ok report ∧
      report.characters = ["Ben"] ∧ (∀ c, c ∈ report.characters ↔ c ∈ report.speakers ∧ c ≠ "") ∧
      (report.hasUnnamed = true ↔ "" ∈ report.speakers)) ∧
    ∃ report, extract marketTextsAbroad (some "") [("Market", market)] = .ok report ∧
      report.characters = ["", "Ben"] ∧ (∀ c, c ∈ report.characters ↔ c ∈ report.speakers) ∧
      report.hasUnnamed = false := by
  have hkeep : (extract marketTextsAbroad none [("Market", market)]).toOption.map
      LineReport.characters = some ["Ben"] := by decide +kernel
  have hassign : (extract marketTextsAbroad (some "") [("Market", market)]).toOption.map
      LineReport.characters = some ["", "Ben"] := by decide +kernel
  obtain ⟨report, hr, hcharacters⟩ := exists_ok_of_map hkeep
  obtain ⟨report', hr', hcharacters'⟩ := exists_ok_of_map hassign
  obtain ⟨-, hnone, -⟩ := extract_characters_iff hr
  obtain ⟨-, -, hsome⟩ := extract_characters_iff hr'
  exact ⟨⟨report, hr, hcharacters, hnone rfl⟩, report', hr', hcharacters', hsome (by simp)⟩

end LineRuns

end DialogueFlow
