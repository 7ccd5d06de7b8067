
namespace DialogueFlow.Text

/-- First and last code point of each run of white space, in order. -/
def blankRuns : List (Nat × Nat) := [
  (0x9, 0xd), (0x1c, 0x20), (0x85, 0x85), (0xa0, 0xa0), (0x1680, 0x1680), (0x2000, 0x200a),
  (0x2028, 0x2029), (0x202f, 0x202f), (0x205f, 0x205f), (0x3000, 0x3000)]

def isBlank (c : Char) : Bool :=
  blankRuns.any (fun run => run.1 ≤ c.toNat && c.toNat ≤ run.2)

def trimLeft (s : List Char) : List Char := s.dropWhile isBlank

end DialogueFlow.Text
