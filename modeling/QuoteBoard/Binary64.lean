/-!
# Doubles as exact numbers

The magnitude of a finite double is a natural number of the smallest subnormal, `2 ^ -1074`. So
products and quotients are computed exactly and rounded once, to the nearest double and at a tie
to the even one. A magnitude's `code` is its bits without the sign; codes are ordered as the
magnitudes are.
-/

namespace QuoteBoard.Binary64

/-- The code of the first magnitude that is no longer finite. -/
def infinity : Nat := 0x7FF0000000000000

def negative (bits : UInt64) : Bool := 0x8000000000000000 ≤ bits.toNat

def code (bits : UInt64) : Nat := bits.toNat % 0x8000000000000000

def finite (bits : UInt64) : Bool := code bits < infinity

def ofCode (sign : Bool) (c : Nat) : UInt64 :=
  UInt64.ofNat (if sign then c + 0x8000000000000000 else c)

/-- The magnitude of a code, in units of `2 ^ -1074`. -/
def units (c : Nat) : Nat :=
  let e := c / 0x10000000000000
  let f := c % 0x10000000000000
  if e = 0 then f else (0x10000000000000 + f) * Nat.pow 2 (e - 1)

def one : Nat := Nat.pow 2 1074

/-- The quotient rounded to the nearest number, a tie to the even one. -/
def roundDiv (n d : Nat) : Nat :=
  let q := n / d
  let r := n % d
  if 2 * r < d then q
  else if d < 2 * r then q + 1
  else if q % 2 = 0 then q else q + 1

/-- The code nearest to `n / d` units. A significand that rounds up to `2 ^ 53` carries into the
exponent, as the layout of the bits has it. -/
def nearestUnits (n d : Nat) : Nat :=
  let shift := (Nat.log2 (n / d) + 1) - 53
  shift * 0x10000000000000 + roundDiv n (d * Nat.pow 2 shift)

/-- The code nearest to `n / d`; at least `infinity` when that is out of range. -/
def nearest (n d : Nat) : Nat := nearestUnits (n * one) d

def mul (a b : Nat) : Nat := nearestUnits (units a * units b) one

def div (a b : Nat) : Nat := nearestUnits (units a * one) (units b)

/-- The smallest whole number that is at least a magnitude. -/
def ceil (c : Nat) : Nat := (units c + (one - 1)) / one

def powerOfTen (k : Nat) : Nat := nearest (Nat.pow 10 k) 1

/-- Scales a magnitude by a power of ten, in steps of at most 308; none on overflow. Each step
rounds. -/
def scale? (c : Nat) (e : Int) : Option Nat :=
  if c = 0 then some 0
  else if 308 < e then none
  else if 0 ≤ e then
    let p := mul c (powerOfTen e.toNat)
    if p < infinity then some p else none
  else if -308 ≤ e then some (div c (powerOfTen (-e).toNat))
  else scale? (div c (powerOfTen 308)) (e + 308)
termination_by e.natAbs

end QuoteBoard.Binary64
