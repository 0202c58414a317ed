import StackMachine.Decimal.Basic

/-! # The shortest decimal that reads back

Among the decimals that round to a given double, the ones on the coarsest grid of powers of ten have
the fewest digits. On each grid only the two neighbours of the exact value matter: the decimals that
round to one double form an interval around it, so when any point of the grid reads back, one of the
neighbours does.

* **`Decimal.pick?`** is the neighbour on one grid that reads back, the nearer one if both do.
* **`Decimal.coarsest`** climbs to the coarsest grid that has one.
* **`Decimal.shortest`** is the decimal found there. -/

namespace StackMachine

namespace Decimal

/-- The choice between the two neighbours `below * 10 ^ exponent` and `(below + 1) * 10 ^ exponent`
of the exact value of an ordinal: the nearer one if it rounds to the ordinal, else the farther one
if that does. The flag tells whether the value lies at or past the halfway point, so a value halfway
between them goes up. -/
def pickNeighbour? (ordinal below : Nat) (exponent : Int) (upperHalf : Bool) : Option Decimal :=
  let nearer : Decimal := ⟨if upperHalf then below + 1 else below, exponent⟩
  let farther : Decimal := ⟨if upperHalf then below else below + 1, exponent⟩
  if nearer.ordinal = ordinal then some nearer
  else if farther.ordinal = ordinal then some farther
  else none

/-- The decimal on the grid of multiples of `10 ^ exponent` that stands for an ordinal, if one
rounds to it. The exact value is `Binary64.units ordinal / Binary64.unitsPerOne`. -/
def pick? (ordinal : Nat) (exponent : Int) : Option Decimal :=
  let num := Binary64.units ordinal * Nat.pow 10 (-exponent).toNat
  let den := Binary64.unitsPerOne * Nat.pow 10 exponent.toNat
  pickNeighbour? ordinal (num / den) exponent (decide (den ≤ 2 * (num % den)))

/-- The choice on the grid of a **level**, the multiples of `10 ^ (level - 1074)`. -/
def pickAt? (ordinal level : Nat) : Option Decimal := pick? ordinal ((level : Int) - 1074)

/-- The exact value of a finite ordinal. It lies on the grid of level zero, because `2 ^ 1074`
divides `10 ^ 1074`. -/
def exact (ordinal : Nat) : Decimal := ⟨Binary64.units ordinal * Nat.pow 5 1074, -1074⟩

/-- Goes up by a stride from a level with its choice, if there is a choice at the higher level. -/
def climb (ordinal : Nat) (reached : Nat × Decimal) (stride : Nat) : Nat × Decimal :=
  match pickAt? ordinal (reached.1 + stride) with
  | some d => (reached.1 + stride, d)
  | none => reached

/-- The choice on the coarsest grid with one, from a `level` whose choice is `best`. A multiple of a
power of ten is one of the next smaller power, so the levels with a choice come first; halving
strides reach the last of them when it is fewer levels up than twice the first stride. -/
def coarsest (ordinal level : Nat) (best : Decimal) (strides : List Nat) : Decimal :=
  (strides.foldl (climb ordinal) (level, best)).2

/-- A level too coarse for an ordinal: `10 ^ (topLevel ordinal - 1074)` is more than twice its
value, because `2 ^ 4096 ≤ 10 ^ 1234` and `10 ^ 323 ≤ 2 ^ 1074`. -/
def topLevel (ordinal : Nat) : Nat :=
  ((Binary64.units ordinal).log2 + 2) * 1234 / 4096 + 1 + 751

/-- The **shortest decimal** that rounds to a finite nonzero ordinal: fewest digits, then nearest to
the exact value, then the larger one. The search starts thirty-two levels below the top, where a
choice is at hand, or else from the exact value. -/
def shortest (ordinal : Nat) : Decimal :=
  let base := topLevel ordinal - 32
  match pickAt? ordinal base with
  | some d => coarsest ordinal base d [16, 8, 4, 2, 1]
  | none => coarsest ordinal 0 (exact ordinal) [1024, 512, 256, 128, 64, 32, 16, 8, 4, 2, 1]

end Decimal

end StackMachine
