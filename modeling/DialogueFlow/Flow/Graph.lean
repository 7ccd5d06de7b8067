import DialogueFlow.Block.Content

namespace DialogueFlow

variable {n : Nat}

inductive Target (n : Nat) where
  | block (place : Fin n)
  | node (name : String)
deriving DecidableEq

def Target.block? : Target n → Option (Fin n)
  | .block place => some place
  | .node _ => none

structure Edge (n : Nat) where
  condition : Condition
  target : Target n
deriving DecidableEq

/-- Edges refer to blocks by their place in a pool. Two places may hold blocks with the same key;
then the destinations and ancestors of a block keep the one that came first. -/
structure Graph (n : Nat) where
  blocks : Vector Block n
  out : Vector (List (Edge n)) n
  ancestors : Vector (List (Fin n)) n

namespace Graph

def ofBlocks (blocks : List Block) : Graph blocks.length where
  blocks := ⟨blocks.toArray, by simp⟩
  out := Vector.replicate _ []
  ancestors := Vector.replicate _ []

def block (g : Graph n) (i : Fin n) : Block := g.blocks[i]

def edges (g : Graph n) (i : Fin n) : List (Edge n) := g.out[i]

def sources (g : Graph n) (i : Fin n) : List (Fin n) := g.ancestors[i]

def same (g : Graph n) (i j : Fin n) : Bool := (g.block i).key == (g.block j).key

def sameTarget (g : Graph n) : Target n → Target n → Bool
  | .block i, .block j => g.same i j
  | .node a, .node b => a == b
  | _, _ => false

def sameEdge (g : Graph n) (e f : Edge n) : Bool :=
  e.condition == f.condition && g.sameTarget e.target f.target

def addOut (g : Graph n) (i : Fin n) (e : Edge n) : Graph n :=
  if (g.edges i).any (g.sameEdge e) then g else { g with out := g.out.set i (g.edges i ++ [e]) }

def addAncestor (g : Graph n) (i j : Fin n) : Graph n :=
  if (g.sources j).any (g.same i) then g
  else { g with ancestors := g.ancestors.set j (g.sources j ++ [i]) }

/-- Add an edge that leaves the block at `i`. If it enters a block, the block at `i` becomes one of
the ancestors there. -/
def add (g : Graph n) (i : Fin n) (e : Edge n) : Graph n :=
  match e.target with
  | .block j => (g.addOut i e).addAncestor i j
  | .node _ => g.addOut i e

def addAll (g : Graph n) (i : Fin n) (edges : List (Edge n)) : Graph n :=
  edges.foldl (fun g e => g.add i e) g

def addEdge (g : Graph n) (i : Fin n) (e : Edge n) : Except Broken (Graph n) :=
  if e.target = .node "" then .error (.emptyTarget (g.block i).node) else .ok (g.add i e)

/-- Add edges up to the first that is refused. -/
def addEdges (g : Graph n) (i : Fin n) : List (Edge n) → Graph n × Option Broken
  | [] => (g, none)
  | e :: rest =>
    match g.addEdge i e with
    | .ok g => g.addEdges i rest
    | .error cause => (g, some cause)

def addBlock (g : Graph n) (i : Fin n) (condition : Condition) (target : Option (Fin n)) :
    Except Broken (Edge n × Graph n) :=
  match target with
  | none => .error (.noTarget (g.block i).node)
  | some j => let e : Edge n := ⟨condition, .block j⟩; (g.addEdge i e).map (fun g => (e, g))

def addNode (g : Graph n) (i : Fin n) (condition : Condition) (target : String) :
    Except Broken (Edge n × Graph n) :=
  let e : Edge n := ⟨condition, .node target⟩
  (g.addEdge i e).map (fun g => (e, g))

def place (g : Graph n) : Target n → Place
  | .block i => .block (g.block i)
  | .node name => .node name

def destination (g : Graph n) (e : Edge n) : Destination := ⟨e.condition, g.place e.target⟩

def vertex (g : Graph n) (i : Fin n) : Vertex where
  block := g.block i
  destinations := (g.edges i).map g.destination
  ancestors := (g.sources i).map g.block

def vertices (g : Graph n) : List Vertex := (List.finRange n).map g.vertex

def next (g : Graph n) (i : Fin n) : List (Fin n) :=
  (g.edges i).filterMap (fun e => e.target.block?)

def unseen (g : Graph n) (seen : List (Fin n)) : Nat :=
  (List.finRange n).countP (fun i => !seen.any (g.same i))

theorem countP_lt_countP {α : Type} {p q : α → Bool} (h : ∀ x, p x = true → q x = true) {a : α}
    (hp : p a = false) (hq : q a = true) : ∀ {l : List α}, a ∈ l → l.countP p < l.countP q
  | b :: l, ha => by
    have hle : l.countP p ≤ l.countP q := List.countP_mono_left (fun x _ => h x)
    rcases List.mem_cons.mp ha with rfl | ha
    · simp only [List.countP_cons, hp, hq]
      simpa using Nat.lt_succ_of_le hle
    · have ih := countP_lt_countP h hp hq ha
      rw [List.countP_cons, List.countP_cons]
      cases hb : p b with
      | false =>
        rw [if_neg (by decide)]
        omega
      | true =>
        rw [h b hb]
        omega

theorem unseen_cons_lt (g : Graph n) (seen : List (Fin n)) (i : Fin n)
    (hi : ¬ seen.any (g.same i) = true) : g.unseen (i :: seen) < g.unseen seen := by
  refine countP_lt_countP ?_ ?_ ?_ (List.mem_finRange i)
  · intro j hj
    simp_all
  · simp [same]
  · simpa using hi

/-- Breadth-first walk from the places in `queue` to all that have not been seen. -/
def walk (g : Graph n) (seen queue : List (Fin n)) : List (Fin n) :=
  match queue with
  | [] => []
  | i :: queue =>
    if seen.any (g.same i) then g.walk seen queue
    else i :: g.walk (i :: seen) (queue ++ g.next i)
termination_by (g.unseen seen, queue.length)
decreasing_by
  · exact Prod.Lex.right _ (by simp)
  · exact Prod.Lex.left _ _ (g.unseen_cons_lt seen i (by assumption))

def descendants (g : Graph n) (i : Fin n) : List (Fin n) := g.walk [i] (g.next i)

def descendantsWithContent (g : Graph n) (i : Fin n) : Except Fault (List (Fin n)) :=
  (g.descendants i).filterM (fun j => (g.block j).hasContent)

end Graph

end DialogueFlow
