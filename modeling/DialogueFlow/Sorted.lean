
namespace DialogueFlow

variable {α : Type}

def insertSorted (le : α → α → Bool) (x : α) : List α → List α
  | [] => [x]
  | y :: rest => if le x y then x :: y :: rest else y :: insertSorted le x rest

/-- Equal elements keep their order. -/
def sorted (le : α → α → Bool) (xs : List α) : List α := xs.foldr (insertSorted le) []

def sortedTexts (xs : List String) : List String := sorted (fun a b => decide (a ≤ b)) xs

def sortedSet (xs : List Int) : List Int := sorted (fun a b => decide (a ≤ b)) xs.eraseDups

end DialogueFlow
