
namespace DialogueFlow

/-- Number of finite magnitudes. The magnitude with this rank would be `2 ^ 1024`. -/
abbrev Double.ranks : Nat := 2047 * Nat.pow 2 52

/-- A finite number has a sign and the rank of its magnitude: 0 for zero, 1 for the least positive
magnitude `2 ^ (-1074)`, and so on. -/
inductive Double where
  | nan
  | infinite (negative : Bool)
  | finite (negative : Bool) (rank : Fin Double.ranks)
deriving DecidableEq

namespace Double

def units (rank : Nat) : Nat :=
  if rank < Nat.pow 2 53 then rank
  else (Nat.pow 2 52 + rank % Nat.pow 2 52) * Nat.pow 2 (rank / Nat.pow 2 52 - 1)

def rankBelow (u : Nat) : Nat :=
  (u.log2 - 52) * Nat.pow 2 52 + u / Nat.pow 2 (u.log2 - 52)

/-- The rank to which a magnitude between those of `below` and of the next rank is rounded, by how
it compares with the middle of the two. A tie goes to the even rank, which is the one with the even
significand. -/
def roundFrom (below : Nat) : Ordering → Nat
  | .lt => below
  | .gt => below + 1
  | .eq => if below % 2 = 0 then below else below + 1

/-- The rank of the magnitude nearest to `num / den` units. -/
def nearestUnits (num den : Nat) : Nat :=
  let below := rankBelow (num / den)
  roundFrom below (compare (2 * num) (den * (units below + units (below + 1))))

def nearest (num den : Nat) : Nat := nearestUnits (num * Nat.pow 2 1074) den

def ofRank (negative : Bool) (rank : Nat) : Double :=
  if h : rank < ranks then .finite negative ⟨rank, h⟩ else .infinite negative

def inRange? : Double → Option Double
  | .infinite _ => none
  | x => some x

def ofInt? (n : Int) : Option Double := inRange? (ofRank (decide (n < 0)) (nearest n.natAbs 1))

def zero : Double := ofRank false 0

def one : Double := ofRank false (1023 * Nat.pow 2 52)

def isZero : Double → Bool
  | .finite _ rank => rank.val == 0
  | _ => false

def sameValue (x y : Double) : Bool :=
  x == y || (x.isZero && y.isZero)

end Double

structure Decimal where
  digits : Nat
  exponent : Int
deriving DecidableEq

namespace Decimal

def numerator (d : Decimal) : Nat := d.digits * Nat.pow 10 d.exponent.toNat

def denominator (d : Decimal) : Nat := Nat.pow 10 (-d.exponent).toNat

def order (d : Decimal) : Int := (Nat.toDigits 10 d.digits).length + d.exponent

def nearestRank (d : Decimal) : Nat := Double.nearest d.numerator d.denominator

/-- The nearest double. Numbers from `10 ^ 310` up are out of range and numbers below `10 ^ (-330)`
round to zero, so their powers of ten need not be computed. -/
def toDouble (negative : Bool) (d : Decimal) : Double :=
  if d.digits = 0 ∨ d.order < -330 then Double.ofRank negative 0
  else if 310 < d.order then .infinite negative
  else Double.ofRank negative d.nearestRank

end Decimal

end DialogueFlow
