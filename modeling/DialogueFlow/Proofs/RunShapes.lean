import DialogueFlow.Proofs.OptionTargets

namespace DialogueFlow

def Element.isOptions : Element → Bool
  | .options _ => true
  | _ => false

namespace LineRuns

/-- The elements `between` are all those from one set of options, or the start, to the next set, or
the end. -/
structure Stretch (elements before between after : List Element) : Prop where
  whole : elements = before ++ between ++ after
  plain : ∀ e ∈ between, e.isOptions = false
  starts : ∀ e ∈ before.getLast?, e.isOptions = true
  stops : ∀ e ∈ after.head?, e.isOptions = true

/-- A run is an option, the lines of a stretch, or an option with the lines of the first stretch of
a block that has its destination as a label. -/
inductive Shape (blocks : List Block) : List String → Prop where
  | option {b : Block} {item : OptionItem} : b ∈ blocks → item ∈ b.shown →
    Shape blocks [item.line]
  | stretch {b : Block} {before between after : List Element} : b ∈ blocks →
    Stretch b.content.elements before between after → between.flatMap Element.lines ≠ [] →
    Shape blocks (between.flatMap Element.lines)
  | headed {b d : Block} {item : OptionItem} {between after : List Element} : b ∈ blocks →
    item ∈ b.shown → d ∈ blocks → d.label = some item.destination →
    Stretch d.content.elements [] between after →
    Shape blocks (item.line :: between.flatMap Element.lines)

theorem exists_stretch_opener (es : List Element) :
    ∃ between after, Stretch es [] between after ∧ opener es = between.flatMap Element.lines := by
  induction es with
  | nil => exact ⟨[], [], ⟨rfl, by simp, by simp, by simp⟩, rfl⟩
  | cons e es ih =>
    obtain ⟨between, after, hstretch, hopener⟩ := ih
    have hlonger : e.isOptions = false → Stretch (e :: es) [] (e :: between) after := by
      intro he
      refine ⟨?_, List.forall_mem_cons.mpr ⟨he, hstretch.plain⟩, by simp, hstretch.stops⟩
      rw [hstretch.whole]
      rfl
    cases e with
    | line id => exact ⟨_, after, hlonger rfl, by simp [opener, Element.lines, hopener]⟩
    | command text => exact ⟨_, after, hlonger rfl, by simp [opener, Element.lines, hopener]⟩
    | options items =>
      exact ⟨[], .options items :: es, ⟨rfl, by simp, by simp, by simp [Element.isOptions]⟩, rfl⟩

theorem Stretch.after_options {es between after : List Element} (h : Stretch es [] between after)
    (before : List Element) (items : List OptionItem) :
    Stretch (before ++ .options items :: es) (before ++ [.options items]) between after where
  whole := by simp [h.whole]
  plain := h.plain
  starts := by simp [Element.isOptions]
  stops := h.stops

theorem Stretch.infix_lines {es before between after : List Element}
    (h : Stretch es before between after) :
    between.flatMap Element.lines <:+: es.flatMap Element.lines := by
  rw [h.whole, List.flatMap_append, List.flatMap_append]
  exact List.infix_append _ _ _

variable {blocks : List Block} {run : List String}

theorem asRun_cases {head : List String} (h : run ∈ asRun head) : run = head ∧ run ≠ [] := by
  rw [asRun] at h
  split at h
  · cases h
  · next hne =>
    obtain rfl := List.mem_singleton.mp h
    exact ⟨rfl, by simpa using hne⟩

theorem runsFrom_cases {head : List String} {es : List Element}
    (h : run ∈ runsFrom blocks head es) :
    (run = head ++ opener es ∧ run ≠ []) ∨
      (∃ item ∈ es.flatMap Element.items, run = [item.line]) ∨
      ∃ before items rest, es = before ++ .options items :: rest ∧ run = opener rest ∧
        run ≠ [] := by
  induction es generalizing head with
  | nil =>
    obtain ⟨rfl, hne⟩ := asRun_cases h
    exact .inl ⟨by simp [opener], hne⟩
  | cons e es ih =>
    cases e with
    | line id =>
      obtain ⟨hrun, hne⟩ | hitem | ⟨before, items, rest, rfl, hrun, hne⟩ := ih h
      · exact .inl ⟨by simpa [opener] using hrun, hne⟩
      · exact .inr (.inl (by simpa [Element.items] using hitem))
      · exact .inr (.inr ⟨.line id :: before, items, rest, rfl, hrun, hne⟩)
    | command text =>
      obtain ⟨hrun, hne⟩ | hitem | ⟨before, items, rest, rfl, hrun, hne⟩ := ih h
      · exact .inl ⟨hrun, hne⟩
      · exact .inr (.inl (by simpa [Element.items] using hitem))
      · exact .inr (.inr ⟨.command text :: before, items, rest, rfl, hrun, hne⟩)
    | options items =>
      rw [runsFrom, List.mem_append, List.mem_append] at h
      obtain (hhead | hsingle) | hrest := h
      · obtain ⟨rfl, hne⟩ := asRun_cases hhead
        exact .inl ⟨by simp [opener], hne⟩
      · obtain ⟨line, hline, rfl⟩ := List.mem_map.mp hsingle
        obtain ⟨item, hitem, rfl⟩ := List.mem_map.mp hline
        have hshown := (List.mem_filter.mp hitem).1
        exact .inr (.inl ⟨item, by simp [Element.items, hshown], rfl⟩)
      · obtain ⟨hrun, hne⟩ | ⟨item, hitem, hrun⟩ | ⟨before, items', rest, rfl, hrun, hne⟩ :=
          ih hrest
        · exact .inr (.inr ⟨[], items, es, rfl, hrun, hne⟩)
        · exact .inr (.inl ⟨item, List.mem_append_right _ hitem, hrun⟩)
        · exact .inr (.inr ⟨.options items :: before, items', rest, rfl, hrun, hne⟩)

theorem label_of_lead? {item : OptionItem} {b : Block} (h : lead? blocks item = some b) :
    b.label = some item.destination := by
  obtain ⟨hfind, -⟩ := Option.filter_eq_some_iff.mp h
  simpa using List.find?_some hfind

theorem exists_option_of_head? {visits : List Call}
    (h : Tour blocks [] (blocks.map Call.ofBlock) visits) {v : Call} (hv : v ∈ visits) {x : String}
    (hx : v.head? = some x) :
    ∃ b ∈ blocks, ∃ item ∈ b.shown, x = item.line ∧ v.block.label = some item.destination := by
  have hopening : v.opening = some x := (Option.filter_eq_some_iff.mp hx).1
  obtain hcalled | ⟨u, hu, hcalled⟩ := h.mem_visits hv
  · obtain ⟨b, -, rfl⟩ := List.mem_map.mp hcalled
    cases hopening
  · obtain ⟨item, hitem, hlead, hline⟩ := mem_calls_iff.mp hcalled
    cases hopening.symm.trans hline
    exact ⟨u.block, h.mem_blocks mem_ofBlock hu, item, hitem, rfl, label_of_lead? hlead⟩

theorem Collects.shape {runs : List (List String)} (h : Collects blocks runs) (hr : run ∈ runs) :
    Shape blocks run := by
  obtain ⟨visits, htour, rfl⟩ := h
  obtain ⟨v, hv, hrun⟩ := List.mem_flatMap.mp hr
  have hb : v.block ∈ blocks := htour.mem_blocks mem_ofBlock hv
  obtain ⟨rfl, hne⟩ | ⟨item, hitem, rfl⟩ | ⟨before, items, rest, hes, rfl, hne⟩ :=
    runsFrom_cases hrun
  · obtain ⟨between, after, hstretch, hopener⟩ := exists_stretch_opener v.block.content.elements
    rw [hopener] at hne ⊢
    cases hx : v.head? with
    | none =>
      rw [hx] at hne
      exact .stretch hb hstretch hne
    | some x =>
      obtain ⟨b, hbm, item, hitem, rfl, hlabel⟩ := exists_option_of_head? htour hv hx
      exact .headed hbm hitem hb hlabel hstretch
  · exact .option hb hitem
  · obtain ⟨between, after, hstretch, hopener⟩ := exists_stretch_opener rest
    rw [hopener] at hne ⊢
    have hafter := hstretch.after_options before items
    rw [← hes] at hafter
    exact .stretch hb hafter hne

theorem Shape.ne_nil (h : Shape blocks run) : run ≠ [] := by
  cases h with
  | option _ _ => simp
  | stretch _ _ hne => exact hne
  | headed _ _ _ _ _ => simp

theorem Shape.one_block (h : Shape blocks run) :
    ∃ b ∈ blocks, ∃ heading lines, run = heading ++ lines ∧ heading.length ≤ 1 ∧
      lines <:+: b.spoken := by
  cases h with
  | @option b item hb _ => exact ⟨b, hb, [item.line], [], rfl, by simp, List.nil_infix⟩
  | @stretch b _ _ _ hb hstretch _ => exact ⟨b, hb, [], _, rfl, by simp, hstretch.infix_lines⟩
  | @headed b d item _ _ _ _ hd _ hstretch =>
    exact ⟨d, hd, [item.line], _, rfl, by simp, hstretch.infix_lines⟩

variable {table : StringTable} {nodes : List (String × List Block)}

/-- Every run in a report has one of the three shapes in one of the nodes. It is not empty, and it
does not mix the lines of two blocks. -/
theorem extract_run_shapes (ht : table.HoldsTexts) (default : Option String)
    (hb : ∀ e ∈ nodes, ∀ b ∈ e.2, b.Iterates) :
    ∃ report, extract table default nodes = .ok report ∧ ∀ run ∈ report.runs, run ≠ [] ∧
      ∃ e ∈ nodes, Shape e.2 (run.map LineRecord.id) ∧
        ∃ b ∈ e.2, ∃ heading lines, run.map LineRecord.id = heading ++ lines ∧
          heading.length ≤ 1 ∧ lines <:+: b.spoken := by
  obtain ⟨report, runs, hr, hruns, hp⟩ := extract_eq_ok ht default hb
  refine ⟨report, hr, fun run hrun => ?_⟩
  have hids : run.map LineRecord.id ∈ report.lineIds := List.mem_map_of_mem hrun
  obtain ⟨own, hown, hmem⟩ := List.mem_flatten.mp (hp.mem_iff.mp hids)
  obtain ⟨e, he, hcollects⟩ := exists_mem_of_forall₂ hruns.flip hown
  have hshape : Shape e.2 (run.map LineRecord.id) := Collects.shape hcollects hmem
  exact ⟨by simpa using hshape.ne_nil, e, he, hshape, hshape.one_block⟩

theorem extract_run_shapes_market :
    let nodes := [("Market", market)]
    marketTexts.HoldsTexts ∧ (∀ e ∈ nodes, ∀ b ∈ e.2, b.Iterates) ∧
      ∃ report, extract marketTexts none nodes = .ok report ∧
        report.lineIds = [["line:hello"], ["line:leave"], ["line:buy", "line:wares"]] ∧
        ∀ run ∈ report.runs, Shape market (run.map LineRecord.id) := by
  have hb : ∀ e ∈ [("Market", market)], ∀ b ∈ e.2, b.Iterates := by decide +kernel
  have hextract : (extract marketTexts none [("Market", market)]).toOption.map
      LineReport.lineIds = some [["line:hello"], ["line:leave"], ["line:buy", "line:wares"]] := by
    decide +kernel
  obtain ⟨report, hr, hshapes⟩ := extract_run_shapes marketTexts_holdsTexts none hb
  obtain ⟨report', hr', hids⟩ := exists_ok_of_map hextract
  cases hr.symm.trans hr'
  refine ⟨marketTexts_holdsTexts, hb, report, hr, hids, fun run hrun => ?_⟩
  obtain ⟨-, e, he, hshape, -⟩ := hshapes run hrun
  rwa [List.mem_singleton.mp he] at hshape

end LineRuns

end DialogueFlow
