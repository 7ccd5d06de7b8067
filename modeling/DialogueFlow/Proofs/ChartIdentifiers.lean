import DialogueFlow.Export.Mermaid
import DialogueFlow.Proofs.DotReading
import DialogueFlow.Proofs.Names

namespace DialogueFlow

namespace Export.Mermaid

def chartLines (options : Options) (vertices : List Vertex) : List String :=
  ["flowchart " ++ direction options] ++
    vertices.map (fun v => vertexLine options v.block) ++
    (arrows options vertices).map arrowLine ++
    (externalNodes (arrows options vertices)).map externalLine

def isIdentifierChar (c : Char) : Bool := c.isAlphanum || c = '_'

/-- The identifier that a line declares. It is indented, and a bracket comes after it. -/
def declared? (line : String) : Option String := do
  let rest ← line.toList.dropPrefix? "    ".toList
  let opening ← (rest.dropWhile isIdentifierChar).head?
  if opening ∈ ['[', '('] then some (String.ofList (rest.takeWhile isIdentifierChar)) else none

theorem isIdentifierChar_identifierChar (c : Char) :
    isIdentifierChar (identifierChar c) = true := by
  rw [identifierChar]
  split
  · next h => exact h
  · decide

theorem isIdentifierChar_of_mem {name : String} {c : Char} (h : c ∈ (identifier name).toList) :
    isIdentifierChar c = true := by
  rw [identifier, String.toList_ofList] at h
  obtain ⟨d, -, rfl⟩ := List.mem_map.mp h
  exact isIdentifierChar_identifierChar d

theorem declared?_indented (name : String) (opening : Char) (rest : List Char)
    (h : isIdentifierChar opening = false) :
    declared? ("    " ++ identifier name ++ String.ofList (opening :: rest)) =
      if opening ∈ ['[', '('] then some (identifier name) else none := by
  have hline : ("    " ++ identifier name ++ String.ofList (opening :: rest)).toList =
      "    ".toList ++ ((identifier name).toList ++ opening :: rest) := by
    simp
  have hdrop := List.dropPrefix?_eq_some_iff.mpr ⟨"    ".toList, hline, beq_self_eq_true _⟩
  have hword : ∀ c ∈ (identifier name).toList, isIdentifierChar c = true :=
    fun c hc => isIdentifierChar_of_mem hc
  have htake : ((identifier name).toList ++ opening :: rest).takeWhile isIdentifierChar =
      (identifier name).toList := by
    rw [List.takeWhile_append_of_pos hword, List.takeWhile_cons_of_neg (by simp [h])]
    simp
  have hrest : ((identifier name).toList ++ opening :: rest).dropWhile isIdentifierChar =
      opening :: rest := by
    rw [List.dropWhile_append_of_pos hword, List.dropWhile_cons_of_neg (by simp [h])]
  simp only [declared?, hdrop, Option.bind_eq_bind, Option.bind_some, htake, hrest,
    List.head?_cons, String.ofList_toList]

theorem declared?_vertexLine (options : Options) (b : Block) :
    declared? (vertexLine options b) = some (identifier b.name) := by
  have hline : vertexLine options b = "    " ++ identifier b.name ++
      String.ofList ('[' :: ("\"" ++ escape (label options b) ++ "\"]").toList) := by
    apply String.toList_injective
    simp [vertexLine]
  rw [hline, declared?_indented _ _ _ (by decide)]
  rfl

theorem declared?_externalLine (name : String) :
    declared? (externalLine name) = some (identifier name) := by
  have hline : externalLine name = "    " ++ identifier name ++
      String.ofList ('(' :: ("[\"" ++ escape name ++ "\"])").toList) := by
    apply String.toList_injective
    simp [externalLine]
  rw [hline, declared?_indented _ _ _ (by decide)]
  rfl

theorem declared?_arrowLine (a : Arrow) : declared? (arrowLine a) = none := by
  have hline : ∃ rest, arrowLine a =
      "    " ++ identifier a.source ++ String.ofList (' ' :: rest) := by
    refine ⟨(arrow a.destination.condition ++ "|" ++ a.destination.condition.name ++ "| " ++
      identifier a.destination.target.name).toList, ?_⟩
    apply String.toList_injective
    simp [arrowLine, toString]
  obtain ⟨rest, hline⟩ := hline
  rw [hline, declared?_indented _ _ _ (by decide)]
  rfl

/-- The names of the vertices of a flowchart: the blocks, and the nodes that edges lead to. -/
def vertexNames (options : Options) (vertices : List Vertex) : List String :=
  vertices.map (fun v => v.block.name) ++ Dot.nodesReached options.includeNodeEdges vertices

theorem filterMap_chartLines (options : Options) (vertices : List Vertex) :
    (chartLines options vertices).filterMap declared? =
      (vertexNames options vertices).map identifier := by
  have hheading : declared? ("flowchart " ++ direction options) = none := by
    simp [declared?, List.dropPrefix?]
  simp only [chartLines, List.filterMap_append, List.filterMap_cons, hheading, List.filterMap_nil,
    List.nil_append, List.filterMap_map, Function.comp_def, declared?_vertexLine,
    declared?_arrowLine, declared?_externalLine, List.filterMap_eq_map', vertexNames,
    List.map_append, List.map_map, Dot.externalNodes_arrows]
  simp

def Alike (c d : Char) : Prop := c = d ∨ c.isAlphanum = false ∧ d.isAlphanum = false

theorem identifierChar_of_isAlphanum {c : Char} (h : c.isAlphanum = true) :
    identifierChar c = c := by
  simp [identifierChar, h]

theorem identifierChar_of_not_isAlphanum {c : Char} (h : c.isAlphanum = false) :
    identifierChar c = '_' := by
  rw [identifierChar, h]
  by_cases hc : c = '_' <;> simp [hc]

theorem isAlphanum_identifierChar (c : Char) : (identifierChar c).isAlphanum = c.isAlphanum := by
  cases h : c.isAlphanum with
  | true => rw [identifierChar_of_isAlphanum h, h]
  | false =>
    rw [identifierChar_of_not_isAlphanum h]
    decide

theorem identifierChar_eq_iff (c d : Char) : identifierChar c = identifierChar d ↔ Alike c d := by
  apply Iff.intro
  · intro h
    have hsame : c.isAlphanum = d.isAlphanum := by
      rw [← isAlphanum_identifierChar c, h, isAlphanum_identifierChar]
    cases hd : d.isAlphanum with
    | true =>
      have hc := hsame.trans hd
      rw [identifierChar_of_isAlphanum hc, identifierChar_of_isAlphanum hd] at h
      exact .inl h
    | false => exact .inr ⟨hsame.trans hd, hd⟩
  · rintro (rfl | ⟨hc, hd⟩)
    · rfl
    · rw [identifierChar_of_not_isAlphanum hc, identifierChar_of_not_isAlphanum hd]

/-- Two names are equally long and differ only in characters that are not kept. -/
def LookAlike (s t : String) : Prop := List.Forall₂ Alike s.toList t.toList

theorem identifier_eq_iff (s t : String) : identifier s = identifier t ↔ LookAlike s t := by
  rw [identifier, identifier, String.ofList_inj, ← List.forall₂_eq_eq_eq,
    List.forall₂_map_left_iff, List.forall₂_map_right_iff, LookAlike]
  simp only [identifierChar_eq_iff]

theorem nodup_map_identifier_iff (names : List String) :
    (names.map identifier).Nodup ↔ names.Pairwise (fun s t => ¬ LookAlike s t) := by
  rw [List.Nodup, List.pairwise_map]
  simp only [ne_eq, identifier_eq_iff]

end Export.Mermaid

def IsPlain (s : String) : Prop := ∀ c ∈ s.toList, c.isAlphanum = true ∨ c = '.'

instance (s : String) : Decidable (IsPlain s) :=
  List.decidableBAll (fun c : Char => c.isAlphanum = true ∨ c = '.') s.toList

theorem IsPlain.append {s t : String} (hs : IsPlain s) (ht : IsPlain t) : IsPlain (s ++ t) := by
  intro c hc
  rw [String.toList_append, List.mem_append] at hc
  exact hc.elim (hs c) (ht c)

theorem isPlain_toString (n : Nat) : IsPlain (toString (n : Int)) := by
  intro c hc
  have hdigits : (toString (n : Int)).toList = Nat.toDigits 10 n := Nat.toList_repr
  rw [hdigits] at hc
  have hdigit := Nat.isDigit_of_mem_toDigits (by decide) (by decide) hc
  exact .inl (by simp [Char.isAlphanum, hdigit])

theorem eq_of_forall₂_alike {s t : List Char} (h : List.Forall₂ Export.Mermaid.Alike s t)
    (hs : ∀ c ∈ s, c.isAlphanum = true ∨ c = '.') (ht : ∀ c ∈ t, c.isAlphanum = true ∨ c = '.') :
    s = t := by
  have hdot : ∀ {c : Char}, c.isAlphanum = true ∨ c = '.' → c.isAlphanum = false → c = '.' :=
    fun hc hn => hc.resolve_left (by simp [hn])
  induction h with
  | nil => rfl
  | cons hcd _ ih =>
    rw [List.forall_mem_cons] at hs ht
    rw [ih hs.2 ht.2]
    obtain rfl | ⟨hc, hd⟩ := hcd
    · rfl
    · rw [hdot hs.1 hc, hdot ht.1 hd]

theorem IsPlain.eq_of_lookAlike {s t : String} (hs : IsPlain s) (ht : IsPlain t)
    (h : Export.Mermaid.LookAlike s t) : s = t :=
  String.toList_injective (eq_of_forall₂_alike h hs ht)

/-- The names of nodes, the labels and the targets of jumps to nodes are plain. -/
structure Program.PlainNames (p : Program) : Prop where
  nodes : ∀ node ∈ p.nodes.values, IsPlain node.name
  labels : ∀ node ∈ p.nodes.values, ∀ label ∈ node.labels.keys, IsPlain label
  targets : ∀ v ∈ p.analyse.vertices, ∀ target ∈ v.nodeDestinations, IsPlain target

namespace Program

variable {p : Program}

theorem PlainNames.isPlain_name (h : p.PlainNames) (hk : p.Keyed) {b : Block}
    (hb : b ∈ p.analyse.blocks) : IsPlain b.name := by
  obtain ⟨node, hn, hcut⟩ := hk.exists_node hb
  have hsuffix : IsPlain b.suffix := by
    rw [Block.suffix]
    cases hl : b.label with
    | none =>
      obtain ⟨k, hk⟩ := hk.exists_first hb
      rw [hk]
      exact isPlain_toString k
    | some label =>
      rw [Node.label_of_mem_cut hcut, Node.labelAt?_eq_some_iff] at hl
      obtain ⟨earlier, later, he, -⟩ := hl
      exact h.labels node hn label (by simp [Table.keys, he])
  rw [b.name_eq, Node.node_of_mem_cut hcut]
  exact ((h.nodes node hn).append (by simp [IsPlain])).append hsuffix

end Program

namespace Export.Mermaid

variable {p : Program} {options : Options}

theorem mem_nodesReached {nodeEdges : Bool} {vertices : List Vertex} {target : String}
    (h : target ∈ Dot.nodesReached nodeEdges vertices) :
    ∃ v ∈ vertices, target ∈ v.nodeDestinations := by
  rw [Dot.nodesReached] at h
  split at h
  · exact List.mem_flatMap.mp (List.mem_eraseDups.mp h)
  · exact absurd h List.not_mem_nil

theorem nodup_vertexNames {a : Analysis} (hn : (a.blocks.map Block.name).Nodup)
    (ht : ∀ b ∈ a.blocks, ∀ v ∈ a.vertices, b.name ∉ v.nodeDestinations) :
    (vertexNames options a.vertices).Nodup := by
  have hnames : a.vertices.map (fun v => v.block.name) = a.blocks.map Block.name := by
    simp [Analysis.blocks]
  have hnodes : (Dot.nodesReached options.includeNodeEdges a.vertices).Nodup := by
    rw [Dot.nodesReached]
    split
    · exact nodup_eraseDups _
    · exact List.nodup_nil
  rw [vertexNames, hnames]
  refine hn.append hnodes (fun name hname htarget => ?_)
  obtain ⟨b, hb, rfl⟩ := List.mem_map.mp hname
  obtain ⟨v, hv, hd⟩ := mem_nodesReached htarget
  exact ht b hb v hv hd

theorem isPlain_of_mem_vertexNames (hp : p.PlainNames) (hk : p.Keyed) {name : String}
    (h : name ∈ vertexNames options p.analyse.vertices) : IsPlain name := by
  obtain h | h := List.mem_append.mp h
  · obtain ⟨v, hv, rfl⟩ := List.mem_map.mp h
    exact hp.isPlain_name hk (List.mem_map_of_mem hv)
  · obtain ⟨v, hv, ht⟩ := mem_nodesReached h
    exact hp.targets v hv name ht

/-- Two vertices of a flowchart have the same identifier exactly if their names look alike. With
plain names the identifiers tell apart what the names tell apart. -/
theorem identifiers_apart_iff {data : Json} (h : Program.ofJson data = .ok p) (options : Options)
    (hn : (p.analyse.blocks.map Block.name).Nodup)
    (ht : ∀ b ∈ p.analyse.blocks, ∀ v ∈ p.analyse.vertices, b.name ∉ v.nodeDestinations) :
    let names := vertexNames options p.analyse.vertices
    let lines := chartLines options p.analyse.vertices
    blocks options p.analyse.vertices = "\n".intercalate lines ∧
      lines.filterMap declared? = names.map identifier ∧
      ((lines.filterMap declared?).Nodup ↔ names.Pairwise (fun s t => ¬ LookAlike s t)) ∧
      (p.PlainNames → (lines.filterMap declared?).Nodup) := by
  intro names lines
  have hlines : lines.filterMap declared? = names.map identifier := filterMap_chartLines options _
  rw [hlines]
  refine ⟨rfl, rfl, nodup_map_identifier_iff names, fun hp => ?_⟩
  refine (nodup_vertexNames hn ht).map_on (fun s hs t ht he => ?_)
  have hk := Program.keyed_ofJson h
  exact (isPlain_of_mem_vertexNames hp hk hs).eq_of_lookAlike
    (isPlain_of_mem_vertexNames hp hk ht) ((identifier_eq_iff s t).mp he)

def jumpTo (target : String) : List Json := [
  .object [("opcode", .string "PushString"), ("operands", .array [.string target])],
  .object [("opcode", .string "RunNode")]]

def causeway : Json := .object [("nodes", .object [
  ("Quay.2", .object [
    ("instructions", .array (jumpTo "Isle" ++ [Program.pause])),
    ("labels", .object [("End.1", .int 2)])]),
  ("Quay", .object [("instructions", .array [Program.pause])])])]

def causewayNodes : List Node := [
  ⟨"Quay.2", [⟨.pushString, [.string "Isle"]⟩, ⟨.runNode, []⟩, ⟨.stop, []⟩],
    .ofList [("End.1", 2)], ∅⟩,
  ⟨"Quay", [⟨.stop, []⟩], ∅, ∅⟩]

def causewayVertices : List Vertex := [
  ⟨⟨"Quay.2", 0, none, [⟨.pushString, [.string "Isle"]⟩, ⟨.runNode, []⟩]⟩,
    [⟨.directJump, .node "Isle"⟩], []⟩,
  ⟨⟨"Quay.2", 2, some "End.1", [⟨.stop, []⟩]⟩, [], []⟩,
  ⟨⟨"Quay", 0, none, [⟨.stop, []⟩]⟩, [], []⟩]

theorem identifiers_apart_iff_causeway :
    ∃ p, Program.ofJson causeway = .ok p ∧ p.PlainNames ∧
      (chartLines Options.default p.analyse.vertices).filterMap declared? =
        ["Quay_2_0", "Quay_2_End_1", "Quay_0", "Isle"] ∧
      ((chartLines Options.default p.analyse.vertices).filterMap declared?).Nodup := by
  have hread : (Program.ofJson causeway).toOption.map
      (fun p => (p.nodes.values, p.analyse.vertices)) =
        some (causewayNodes, causewayVertices) := by
    decide +kernel
  obtain ⟨p, hp, hparts⟩ := exists_ok_of_map hread
  obtain ⟨hnodes, hvertices⟩ := Prod.mk.inj hparts
  have hplain : p.PlainNames := by
    constructor
    · rw [hnodes]
      decide +kernel
    · rw [hnodes]
      decide +kernel
    · rw [hvertices]
      decide +kernel
  obtain ⟨-, hnames, -, hapart⟩ := identifiers_apart_iff hp Options.default
    (by rw [Analysis.blocks, hvertices]; decide +kernel)
    (by rw [Analysis.blocks, hvertices]; decide +kernel)
  refine ⟨p, hp, hplain, ?_, hapart hplain⟩
  rw [hnames, hvertices]
  decide +kernel

def inlet : Json := .object [("nodes", .object [
  ("Quay", .object [("instructions", .array (jumpTo "Quay_0"))]),
  ("Quay_0", .object [("instructions", .array [Program.pause])])])]

def inletVertices : List Vertex := [
  ⟨⟨"Quay", 0, none, [⟨.pushString, [.string "Quay_0"]⟩, ⟨.runNode, []⟩]⟩,
    [⟨.directJump, .node "Quay_0"⟩], []⟩,
  ⟨⟨"Quay_0", 0, none, [⟨.stop, []⟩]⟩, [], []⟩]

/-- The names of all vertices differ, but the jump is drawn as a loop at one vertex. -/
theorem vertices_merged_in_inlet :
    ∃ p, Program.ofJson inlet = .ok p ∧ (p.analyse.blocks.map Block.name).Nodup ∧
      (∀ b ∈ p.analyse.blocks, ∀ v ∈ p.analyse.vertices, b.name ∉ v.nodeDestinations) ∧
      vertexNames Options.default p.analyse.vertices = ["Quay.0", "Quay_0.0", "Quay_0"] ∧
      (chartLines Options.default p.analyse.vertices).filterMap declared? =
        ["Quay_0", "Quay_0_0", "Quay_0"] ∧
      blocks Options.default p.analyse.vertices =
        "flowchart TD\n    Quay_0[\"Quay.0\"]\n    Quay_0_0[\"Quay_0.0\"]\n" ++
          "    Quay_0 -->|direct-jump| Quay_0\n    Quay_0([\"Quay_0\"])" := by
  have hread : (Program.ofJson inlet).toOption.map (fun p => p.analyse.vertices) =
      some inletVertices := by decide +kernel
  obtain ⟨p, hp, hvertices⟩ := exists_ok_of_map hread
  refine ⟨p, hp, ?_⟩
  rw [Analysis.blocks, hvertices]
  decide +kernel

end Export.Mermaid

end DialogueFlow
