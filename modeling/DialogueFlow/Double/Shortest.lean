import DialogueFlow.Double

namespace DialogueFlow.Double

def order (rank : Nat) : Int :=
  (Nat.toDigits 10 (units rank * Nat.pow 5 1074)).length - 1074

/-- One of two decimals next to each other that reads back, by which of them do: the nearer one if
both do, and the one with an even last digit if they are equally near. -/
def choose (lowReads highReads : Bool) (side : Ordering) (low high : Decimal) : Option Decimal :=
  match lowReads, highReads with
  | true, true =>
    match side with
    | .lt => some low
    | .gt => some high
    | .eq => some (if low.digits % 2 = 0 then low else high)
  | true, false => some low
  | false, true => some high
  | false, false => none

def candidate (rank : Nat) (exponent : Int) : Option Decimal :=
  let num := units rank * Nat.pow 10 (-exponent).toNat
  let den := Nat.pow 2 1074 * Nat.pow 10 exponent.toNat
  let low : Decimal := ⟨num / den, exponent⟩
  let high : Decimal := ⟨num / den + 1, exponent⟩
  choose (decide (low.nearestRank = rank)) (decide (high.nearestRank = rank))
    (compare (2 * (num % den)) den) low high

def exact (rank : Nat) : Decimal := ⟨units rank * Nat.pow 5 1074, -1074⟩

/-- A decimal with as few digits as possible that reads back as `rank`. Seventeen digits always
suffice. -/
def shortest (rank : Nat) : Decimal :=
  let point := order rank
  ((List.range 17).findSome? (fun (n : Nat) => candidate rank (point - (n + 1)))).getD (exact rank)

end DialogueFlow.Double

namespace DialogueFlow.Decimal

def significant (d : Decimal) : List Char :=
  ((Nat.toDigits 10 d.digits).reverse.dropWhile (· == '0')).reverse

def positional (digits : List Char) (point : Int) : List Char :=
  if point ≤ 0 then
    '0' :: '.' :: (List.replicate (-point).toNat '0' ++ digits)
  else if digits.length ≤ point.toNat then
    digits ++ List.replicate (point.toNat - digits.length) '0' ++ ['.', '0']
  else
    digits.take point.toNat ++ '.' :: digits.drop point.toNat

def scientific (digits : List Char) (exponent : Int) : List Char :=
  let mantissa := match digits with
    | [] => ['0']
    | [d] => [d]
    | d :: rest => d :: '.' :: rest
  let size := Nat.toDigits 10 exponent.natAbs
  mantissa ++ 'e' :: (if exponent < 0 then '-' else '+') ::
    (List.replicate (2 - size.length) '0' ++ size)

/-- Numbers from `10 ^ (-4)` up to `10 ^ 16` are written out, all others with an exponent. -/
def chars (d : Decimal) : List Char :=
  if -4 < d.order ∧ d.order ≤ 16 then positional d.significant d.order
  else scientific d.significant (d.order - 1)

end DialogueFlow.Decimal

namespace DialogueFlow.Double

def magnitudeChars (rank : Nat) : List Char :=
  if rank = 0 then ['0', '.', '0'] else (shortest rank).chars

def signChars (negative : Bool) : List Char := if negative then ['-'] else []

def chars : Double → List Char
  | .nan => ['n', 'a', 'n']
  | .infinite negative => signChars negative ++ ['i', 'n', 'f']
  | .finite negative rank => signChars negative ++ magnitudeChars rank

def text (x : Double) : String := String.ofList x.chars

end DialogueFlow.Double
