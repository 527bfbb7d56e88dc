import QuoteBoard.Binary64

/-!
# The shortest decimal of a double

Of the decimals that read back as a given double, `shortest` takes one with the fewest digits,
among those the nearest, and at a tie the even one. On each grid of decimals only the two
neighbours of the double need to be tried: if a point of the grid lies in the interval of reals
that round to the double, so does one of the neighbours.
-/

namespace QuoteBoard.Binary64

structure Digits where
  digits : Nat
  exponent : Int
  deriving DecidableEq, Repr

def digitCount (n : Nat) : Nat := (Nat.toDigits 10 n).length

/-- The `k` with `10 ^ (k - 1) ≤ u < 10 ^ k` for a magnitude of `u` units. -/
def decimalPoint (u : Nat) : Int := (digitCount (u * Nat.pow 10 400 / one) : Int) - 400

/-- The grid of decimals `d * 10 ^ exponent`, as the ratio `num / den` of its step to one. -/
structure Grid where
  exponent : Int
  num : Nat
  den : Nat

def Grid.ofExponent (e : Int) : Grid :=
  if 0 ≤ e then ⟨e, Nat.pow 10 e.toNat, 1⟩ else ⟨e, 1, Nat.pow 10 (-e).toNat⟩

namespace Grid

/-- Whether the point `d` rounds to code `c`; the ends of the interval do when `c` is even. -/
def reads (g : Grid) (c d : Nat) : Bool :=
  let low := (units (c - 1) + units c) * g.den
  let high := (units c + units (c + 1)) * g.den
  let point := 2 * d * g.num * one
  if c % 2 = 0 then low ≤ point && point ≤ high else low < point && point < high

def below (g : Grid) (c : Nat) : Nat := units c * g.den / (one * g.num)

/-- The point of the grid that reads back as `c`, the nearer one when both neighbours do. -/
def hit? (g : Grid) (c : Nat) : Option Nat :=
  let d := g.below c
  match g.reads c d, g.reads c (d + 1) with
  | true, true =>
    let v := 2 * units c * g.den
    let middle := (2 * d + 1) * g.num * one
    if v < middle then some d
    else if middle < v then some (d + 1)
    else some (if d % 2 = 0 then d else d + 1)
  | true, false => some d
  | false, true => some (d + 1)
  | false, false => none

end Grid

def trimmed : Nat → Digits → Digits
  | 0, x => x
  | fuel + 1, x => if x.digits % 10 = 0 then trimmed fuel ⟨x.digits / 10, x.exponent + 1⟩ else x

def search (c : Nat) (point : Int) : Nat → Nat → Digits
  | 0, _ => ⟨0, 0⟩
  | fuel + 1, n =>
    let g := Grid.ofExponent (point - n)
    match g.hit? c with
    | some d => trimmed 20 ⟨d, g.exponent⟩
    | none => search c point fuel (n + 1)

/-- The shortest decimal of a finite magnitude above zero; 17 digits always suffice. -/
def shortest (c : Nat) : Digits := search c (decimalPoint (units c)) 17 1

end QuoteBoard.Binary64
