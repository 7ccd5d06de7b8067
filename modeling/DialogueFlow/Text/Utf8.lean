
namespace DialogueFlow.Text

inductive Utf8Reason where
  | invalidStart
  | invalidContinuation
  | endOfData
deriving DecidableEq

structure Utf8Fault where
  offset : Nat
  bytes : List UInt8
  reason : Utf8Reason
deriving DecidableEq

/-- What a leading byte announces: the bounds of the byte after it, the number of continuation
bytes, and the bits that it contributes itself. -/
structure Utf8Lead where
  low : Nat
  high : Nat
  count : Nat
  bits : Nat

def utf8Lead? (b : Nat) : Option Utf8Lead :=
  if 0xc2 ≤ b ∧ b ≤ 0xdf then some ⟨0x80, 0xbf, 1, b - 0xc0⟩
  else if b = 0xe0 then some ⟨0xa0, 0xbf, 2, 0⟩
  else if b = 0xed then some ⟨0x80, 0x9f, 2, 0xd⟩
  else if 0xe1 ≤ b ∧ b ≤ 0xef then some ⟨0x80, 0xbf, 2, b - 0xe0⟩
  else if b = 0xf0 then some ⟨0x90, 0xbf, 3, 0⟩
  else if b = 0xf4 then some ⟨0x80, 0x8f, 3, 4⟩
  else if 0xf1 ≤ b ∧ b ≤ 0xf3 then some ⟨0x80, 0xbf, 3, b - 0xf0⟩
  else none

/-- Decoder state between two bytes: nothing pending, or a character of which `seen` has been read
and `count` bytes are missing, the next of them between `low` and `high`. -/
inductive Utf8State where
  | ready
  | within (start : Nat) (seen : List UInt8) (low high count bits : Nat)

def decodeUtf8From (offset : Nat) (done : List Char) :
    Utf8State → List UInt8 → Except Utf8Fault (List Char)
  | .ready, [] => .ok done.reverse
  | .within start seen _ _ _ _, [] => .error ⟨start, seen, .endOfData⟩
  | .ready, b :: rest =>
    if b.toNat < 0x80 then decodeUtf8From (offset + 1) (Char.ofNat b.toNat :: done) .ready rest
    else match utf8Lead? b.toNat with
      | none => .error ⟨offset, [b], .invalidStart⟩
      | some lead =>
        decodeUtf8From (offset + 1) done
          (.within offset [b] lead.low lead.high lead.count lead.bits) rest
  | .within start seen low high count bits, b :: rest =>
    if low ≤ b.toNat ∧ b.toNat ≤ high then
      let bits' := bits * 0x40 + b.toNat % 0x40
      if count ≤ 1 then decodeUtf8From (offset + 1) (Char.ofNat bits' :: done) .ready rest
      else decodeUtf8From (offset + 1) done
        (.within start (seen ++ [b]) 0x80 0xbf (count - 1) bits') rest
    else .error ⟨start, seen, .invalidContinuation⟩

def decodeUtf8 (bytes : List UInt8) : Except Utf8Fault (List Char) :=
  decodeUtf8From 0 [] .ready bytes

def unifyLines : List Char → List Char
  | [] => []
  | '\r' :: '\n' :: rest => '\n' :: unifyLines rest
  | '\r' :: rest => '\n' :: unifyLines rest
  | c :: rest => c :: unifyLines rest

end DialogueFlow.Text
