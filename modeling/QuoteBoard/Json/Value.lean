import QuoteBoard.Binary64.Shortest

/-!
# JSON values

A value is kept as it was written as far as that matters later: numbers by their digits, object
members in order and with repetitions, and a text with an unpaired surrogate escape as `none`.
What a number means, and whether a text or a nesting is acceptable, is decided where the value is
read into a type.
-/

namespace QuoteBoard.Json

/-- A number token: `-`, the whole part, the digits after the point, the exponent. -/
structure Number where
  negative : Bool
  whole : Nat
  fraction : List (Fin 10)
  exponent : Option Int
  deriving DecidableEq, Repr

inductive Value where
  | null
  | bool (b : Bool)
  | num (n : Number)
  | str (s : Option String)
  | arr (elements : List Value)
  | obj (members : List (Option String × Value))
  deriving Repr

namespace Number

/-! ## Integers -/

def ofInt (i : Int) : Number := ⟨i < 0, i.natAbs, [], none⟩

/-- The value of an integer literal. A minus sign in front of zero makes it no integer. -/
def toInt? (n : Number) : Option Int :=
  if n.fraction = [] ∧ n.exponent = none then
    if n.negative then (if n.whole = 0 then none else some (-n.whole)) else some n.whole
  else none

/-! ## Doubles -/

/-- The leading digits that stay below `2 ^ 64`, and how many digits were left out. -/
def leading (m : Nat) : Nat × Nat :=
  if m < UInt64.size then (m, 0)
  else
    let p := leading (m / 10)
    (p.1, p.2 + 1)
decreasing_by
  simp only [UInt64.size] at *
  omega

def extend : Nat → Nat → List (Fin 10) → Nat × Nat
  | m, k, [] => (m, k)
  | m, k, d :: ds =>
    if m * 10 + d.val < UInt64.size then extend (m * 10 + d.val) (k + 1) ds else (m, k)

/-- The significand below `2 ^ 64` and its power of ten; digits that no longer fit are left out. -/
def significand (n : Number) : Nat × Int :=
  let w := leading n.whole
  let f := extend w.1 0 n.fraction
  (f.1, (w.2 : Int) - f.2 + n.exponent.getD 0)

/-- The double of a number: its significand rounded, then scaled by its power of ten. -/
def toDouble? (n : Number) : Option UInt64 :=
  let s := n.significand
  (Binary64.scale? (Binary64.nearest s.1 1) s.2).map (Binary64.ofCode n.negative)

def digitOf (c : Char) : Fin 10 := Fin.ofNat 10 (c.toNat - '0'.toNat)

def digitList (m : Nat) : List (Fin 10) := (Nat.toDigits 10 m).map digitOf

/-- How a shortest decimal is laid out: positional with a point when the point falls from four
zeros behind it to sixteen digits before it, scientific elsewhere. -/
def ofDigits (negative : Bool) (x : Binary64.Digits) : Number :=
  let digits := digitList x.digits
  let point := digits.length + x.exponent
  if 0 < point ∧ point ≤ 16 then
    if 0 ≤ x.exponent then ⟨negative, x.digits * Nat.pow 10 x.exponent.toNat, [0], none⟩
    else
      let k := (-x.exponent).toNat
      ⟨negative, x.digits / Nat.pow 10 k, digits.drop (digits.length - k), none⟩
  else if -5 < point ∧ point ≤ 0 then
    ⟨negative, 0, List.replicate (-point).toNat 0 ++ digits, none⟩
  else
    ⟨negative, x.digits / Nat.pow 10 (digits.length - 1), digits.drop 1, some (point - 1)⟩

def ofDouble (bits : UInt64) : Number :=
  let c := Binary64.code bits
  if c = 0 then ⟨Binary64.negative bits, 0, [0], none⟩
  else ofDigits (Binary64.negative bits) (Binary64.shortest c)

end Number

namespace Value

def ofDouble (bits : UInt64) : Value :=
  if Binary64.finite bits then .num (.ofDouble bits) else .null

def ofInt (i : Int) : Value := .num (.ofInt i)

def ofString (s : String) : Value := .str (some s)

def ofFields (l : List (String × Value)) : Value := .obj (l.map fun p => (some p.1, p.2))

mutual

def depth : Value → Nat
  | .arr l => depthOfElements l + 1
  | .obj l => depthOfMembers l + 1
  | _ => 0

def depthOfElements : List Value → Nat
  | [] => 0
  | v :: l => max (depth v) (depthOfElements l)

def depthOfMembers : List (Option String × Value) → Nat
  | [] => 0
  | (_, v) :: l => max (depth v) (depthOfMembers l)

end

mutual

def sound : Value → Bool
  | .num n => n.toInt?.isSome && n.whole < UInt64.size || n.toDouble?.isSome
  | .str s => s.isSome
  | .arr l => soundElements l
  | .obj l => soundMembers l
  | _ => true

def soundElements : List Value → Bool
  | [] => true
  | v :: l => sound v && soundElements l

def soundMembers : List (Option String × Value) → Bool
  | [] => true
  | (k, v) :: l => k.isSome && sound v && soundMembers l

end

end Value

end QuoteBoard.Json
