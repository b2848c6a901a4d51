import HeyVL.Json.Basic

/-!
How large the number is that a literal denotes. A literal is read as a number of 64 bits and a
power of ten, and both are rounded to doubles before they are multiplied. Whether the product is
still a double is decided here with natural numbers alone.
-/

namespace HeyVL

namespace Json

/-- The absolute value of a number: a significand times a power of ten. -/
structure Decimal where
  significand : Nat
  exponent : Int
deriving DecidableEq, Repr

namespace Decimal

/-- The number with the digits written behind it, as many as 64 bits have room for, and how many
digits are left. -/
def extend (n : Nat) : List Char → Nat × Nat
  | [] => (n, 0)
  | c :: rest =>
    if n * 10 + digit c < 2 ^ 64 then extend (n * 10 + digit c) rest else (n, rest.length + 1)

/-- The power of ten that an exponent denotes. -/
def power : List Char → Int
  | [] => 0
  | _ :: '-' :: cs => -(natural cs : Int)
  | _ :: '+' :: cs => natural cs
  | _ :: cs => natural cs

/-- The absolute value of a number literal. Digits of the whole part for which there is no room
count as powers of ten, and those of the fraction do not count. -/
def ofLiteral (literal : String) : Decimal :=
  let cs := match literal.toList with
    | '-' :: cs => cs
    | cs => cs
  let (whole, more) := extend 0 (cs.takeWhile Char.isDigit)
  match cs.dropWhile Char.isDigit with
  | '.' :: cs =>
    let fraction := cs.takeWhile Char.isDigit
    let (n, left) := extend whole fraction
    ⟨n, more - (fraction.length - left : Nat) + power (cs.dropWhile Char.isDigit)⟩
  | cs => ⟨whole, more + power cs⟩

/-- The number with 53 significant binary digits that is nearest, of two the one whose last
significant digit is even. -/
def nearestDouble (n : Nat) : Nat :=
  let unit := 1 <<< (n.log2 + 1 - 53)
  let q := n / unit
  let twice := 2 * (n % unit)
  if unit < twice ∨ unit = twice ∧ q % 2 = 1 then (q + 1) * unit else q * unit

/-- Half way from the largest double to `2 ^ 1024`. From here on, a number is rounded to an
infinity. -/
def overflow : Nat := (1 <<< 1024) - (1 <<< 970)

/-- Whether the number is a double and no infinity. -/
def isFinite (d : Decimal) : Bool :=
  d.significand == 0 || d.exponent < 0 ||
    (d.exponent ≤ 308 &&
      nearestDouble d.significand * nearestDouble (Nat.pow 10 d.exponent.toNat) < overflow)

end Decimal

end Json

end HeyVL
