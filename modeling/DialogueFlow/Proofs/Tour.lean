import DialogueFlow.LineRuns
import Mathlib.Data.List.Nodup
import Mathlib.Data.List.Perm.Subperm

namespace DialogueFlow

def Element.items : Element → List OptionItem
  | .options items => items
  | _ => []

def Element.lines : Element → List String
  | .line id => [id]
  | _ => []

def Block.shown (b : Block) : List OptionItem := b.content.elements.flatMap Element.items

def Block.spoken (b : Block) : List String := b.content.elements.flatMap Element.lines

namespace LineRuns

/-- A block that is to be walked, with the line that is to head its first run. -/
structure Call where
  opening : Option String
  block : Block

namespace Call

def ofBlock (b : Block) : Call := ⟨none, b⟩

def ofOption (e : String × Block) : Call := ⟨some e.1, e.2⟩

def name (c : Call) : String := c.block.name

def head? (c : Call) : Option String := c.opening.filter (· ≠ "")

end Call

def lead? (blocks : List Block) (item : OptionItem) : Option Block :=
  (blocks.find? (fun b => b.label == some item.destination)).filter
    (fun b => !b.content.elements.isEmpty)

def singles (blocks : List Block) (items : List OptionItem) : List String :=
  (items.filter (fun item => (lead? blocks item).isNone)).map OptionItem.line

def follows (blocks : List Block) (items : List OptionItem) : List (String × Block) :=
  items.filterMap (fun item => (lead? blocks item).map (fun b => (item.line, b)))

/-- The calls that a walk over the block `b` makes. -/
def calls (blocks : List Block) (b : Block) : List Call :=
  (follows blocks b.shown).map Call.ofOption

variable {blocks : List Block}

theorem mem_of_lead? {item : OptionItem} {b : Block} (h : lead? blocks item = some b) :
    b ∈ blocks ∧ b.content.elements ≠ [] := by
  obtain ⟨hl, hc⟩ := Option.filter_eq_some_iff.mp h
  exact ⟨List.mem_of_find?_eq_some hl, by simpa using hc⟩

theorem mem_calls_iff {b : Block} {c : Call} :
    c ∈ calls blocks b ↔
      ∃ item ∈ b.shown, lead? blocks item = some c.block ∧ c.opening = some item.line := by
  obtain ⟨opening, d⟩ := c
  simp only [calls, follows, Call.ofOption, List.mem_map, List.mem_filterMap,
    Option.map_eq_some_iff, Prod.exists, Prod.mk.injEq, Call.mk.injEq]
  apply Iff.intro
  · rintro ⟨line, _, ⟨item, hi, _, hl, rfl, rfl⟩, rfl, rfl⟩
    exact ⟨item, hi, hl, rfl⟩
  · rintro ⟨item, hi, hl, rfl⟩
    exact ⟨item.line, d, ⟨item, hi, d, hl, rfl, rfl⟩, rfl, rfl⟩

theorem singles_append (blocks : List Block) (xs ys : List OptionItem) :
    singles blocks (xs ++ ys) = singles blocks xs ++ singles blocks ys := by
  simp [singles]

theorem follows_append (blocks : List Block) (xs ys : List OptionItem) :
    follows blocks (xs ++ ys) = follows blocks xs ++ follows blocks ys :=
  List.filterMap_append

/-- Each option either leads to a block or is a run of its own. -/
theorem follows_singles_perm (blocks : List Block) (items : List OptionItem) :
    ((follows blocks items).map Prod.fst ++ singles blocks items).Perm
      (items.map OptionItem.line) := by
  induction items with
  | nil => simp [follows, singles]
  | cons item items ih =>
    cases h : lead? blocks item with
    | none =>
      have hf : follows blocks (item :: items) = follows blocks items := by simp [follows, h]
      have hs : singles blocks (item :: items) = item.line :: singles blocks items := by
        simp [singles, h]
      rw [hf, hs]
      exact List.perm_middle.trans (ih.cons _)
    | some b =>
      have hf : follows blocks (item :: items) = (item.line, b) :: follows blocks items := by
        simp [follows, h]
      have hs : singles blocks (item :: items) = singles blocks items := by simp [singles, h]
      rw [hf, hs]
      exact ih.cons _

def after (visited : List String) (visits : List Call) : List String :=
  (visits.map Call.name).reverse ++ visited

theorem mem_after {visited : List String} {visits : List Call} {name : String} :
    name ∈ after visited visits ↔ (∃ v ∈ visits, v.name = name) ∨ name ∈ visited := by
  simp [after]

theorem after_append (visited : List String) (us vs : List Call) :
    after visited (us ++ vs) = after (after visited us) vs := by
  simp [after]

theorem after_cons (visited : List String) (c : Call) (vs : List Call) :
    after visited (c :: vs) = after (c.name :: visited) vs := by
  simp [after]

/-- The visits that come of calls, made one after the other. A call enters its block unless that has
no content or one of its name has been visited; the calls of the block come before those that are
left. -/
inductive Tour (blocks : List Block) : List String → List Call → List Call → Prop where
  | nil {visited : List String} : Tour blocks visited [] []
  | skip {visited : List String} {c : Call} {rest visits : List Call} :
    c.block.content.elements = [] ∨ c.name ∈ visited → Tour blocks visited rest visits →
    Tour blocks visited (c :: rest) visits
  | enter {visited : List String} {c : Call} {rest inner visits : List Call} :
    c.block.content.elements ≠ [] → c.name ∉ visited →
    Tour blocks (c.name :: visited) (calls blocks c.block) inner →
    Tour blocks (after visited (c :: inner)) rest visits →
    Tour blocks visited (c :: rest) (c :: inner ++ visits)

namespace Tour

variable {visited : List String} {agenda later visits visits' : List Call}

theorem append (h : Tour blocks visited agenda visits)
    (h' : Tour blocks (after visited visits) later visits') :
    Tour blocks visited (agenda ++ later) (visits ++ visits') := by
  induction h with
  | nil => exact h'
  | skip hc _ ih => exact .skip hc (ih h')
  | enter hc hv hi _ _ ih =>
    rw [List.append_assoc]
    refine .enter hc hv hi (ih ?_)
    rwa [← after_append]

theorem exists_of_append (h : Tour blocks visited (agenda ++ later) visits) :
    ∃ us vs, visits = us ++ vs ∧ Tour blocks visited agenda us ∧
      Tour blocks (after visited us) later vs := by
  induction agenda generalizing visited visits with
  | nil => exact ⟨[], visits, rfl, .nil, h⟩
  | cons c agenda ih =>
    rw [List.cons_append] at h
    cases h with
    | skip hc ht =>
      obtain ⟨us, vs, rfl, hu, hv⟩ := ih ht
      exact ⟨us, vs, rfl, .skip hc hu, hv⟩
    | @enter _ _ _ inner _ hc hn hi ht =>
      obtain ⟨us, vs, rfl, hu, hv⟩ := ih ht
      refine ⟨c :: inner ++ us, vs, by simp, .enter hc hn hi hu, ?_⟩
      rwa [after_append]

/-- Every visit answers a call of its own: one from outside, or one that a visited block makes. -/
theorem subperm (h : Tour blocks visited agenda visits) :
    visits.Subperm (agenda ++ visits.flatMap (fun v => calls blocks v.block)) := by
  induction h with
  | nil => exact List.Subperm.refl _
  | skip _ _ ih => exact ih.cons_right _
  | @enter visited c rest inner visits _ _ _ _ ihi ih =>
    have hp : (c :: ((calls blocks c.block ++ inner.flatMap (fun v => calls blocks v.block)) ++
        (rest ++ visits.flatMap (fun v => calls blocks v.block)))).Perm
        (c :: rest ++ (c :: inner ++ visits).flatMap (fun v => calls blocks v.block)) := by
      simp only [List.cons_append, List.flatMap_cons, List.flatMap_append, List.append_assoc]
      refine List.Perm.cons c ?_
      simpa only [List.append_assoc] using List.perm_append_comm_assoc
        (calls blocks c.block ++ inner.flatMap (fun v => calls blocks v.block)) rest _
    exact ((List.subperm_cons c).mpr (ihi.append ih)).trans hp.subperm

theorem mem_visits (h : Tour blocks visited agenda visits) {v : Call} (hv : v ∈ visits) :
    v ∈ agenda ∨ ∃ u ∈ visits, v ∈ calls blocks u.block := by
  simpa using h.subperm.subset hv

theorem mem_blocks (h : Tour blocks visited agenda visits) (ha : ∀ c ∈ agenda, c.block ∈ blocks)
    {v : Call} (hv : v ∈ visits) : v.block ∈ blocks := by
  obtain hv | ⟨u, -, hv⟩ := h.mem_visits hv
  · exact ha v hv
  · obtain ⟨item, -, hl, -⟩ := mem_calls_iff.mp hv
    exact (mem_of_lead? hl).1

theorem exists_visit (h : Tour blocks [] agenda visits) (hn : (blocks.map Block.name).Nodup)
    (ha : ∀ c ∈ agenda, c.block ∈ blocks) {b : Block} (hb : b ∈ blocks)
    (hv : b.name ∈ after [] visits) : ∃ v ∈ visits, v.block = b := by
  obtain ⟨v, hv, hname⟩ := (mem_after.mp hv).resolve_right List.not_mem_nil
  exact ⟨v, hv, List.inj_on_of_nodup_map hn (h.mem_blocks ha hv) hb hname⟩

theorem content (h : Tour blocks visited agenda visits) :
    ∀ v ∈ visits, v.block.content.elements ≠ [] := by
  induction h with
  | nil => simp
  | skip _ _ ih => exact ih
  | enter hc _ _ _ ihi ih =>
    intro v hv
    obtain hv | hv := List.mem_append.mp hv
    · obtain rfl | hv := List.mem_cons.mp hv
      · exact hc
      · exact ihi v hv
    · exact ih v hv

theorem nodup (h : Tour blocks visited agenda visits) (hn : visited.Nodup) :
    (after visited visits).Nodup := by
  induction h with
  | nil => exact hn
  | skip _ _ ih => exact ih hn
  | enter _ hv _ _ ihi ih =>
    rw [after_append]
    apply ih
    rw [after_cons]
    exact ihi (List.nodup_cons.mpr ⟨hv, hn⟩)

/-- All blocks with content that are called are visited, from outside and from inside. -/
theorem closed (h : Tour blocks visited agenda visits) :
    (∀ c ∈ agenda, c.block.content.elements ≠ [] → c.name ∈ after visited visits) ∧
      ∀ v ∈ visits, ∀ c ∈ calls blocks v.block, c.name ∈ after visited visits := by
  induction h with
  | nil => simp
  | @skip visited c rest visits hc _ ih =>
    refine ⟨fun d hd hcont => ?_, ih.2⟩
    obtain rfl | hd := List.mem_cons.mp hd
    · exact mem_after.mpr (.inr (hc.resolve_left hcont))
    · exact ih.1 d hd hcont
  | @enter visited c rest inner visits _ _ _ _ ihi ih =>
    have hin : ∀ name, name ∈ after (c.name :: visited) inner →
        name ∈ after (after visited (c :: inner)) visits := by
      intro name hm
      rw [after_cons]
      exact mem_after.mpr (.inr hm)
    rw [after_append]
    refine ⟨fun d hd hcont => ?_, fun v hv d hd => ?_⟩
    · obtain rfl | hd := List.mem_cons.mp hd
      · exact hin _ (mem_after.mpr (.inr (by simp)))
      · exact ih.1 d hd hcont
    · obtain hv | hv := List.mem_append.mp hv
      · obtain rfl | hv := List.mem_cons.mp hv
        · obtain ⟨item, -, hl, -⟩ := mem_calls_iff.mp hd
          exact hin _ (ihi.1 d hd (mem_of_lead? hl).2)
        · exact hin _ (ihi.2 v hv d hd)
      · exact ih.2 v hv d hd

end Tour

end LineRuns

end DialogueFlow
