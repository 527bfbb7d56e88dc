import QuoteBoard.Json.Value

/-!
# Reading records

A record is an object with its fields by name, or an array with its fields in order. Fields that
are not asked for are skipped unseen; one that is asked for may be written once. A tagged record
carries the name of its variant in one more field. It is taken in whole before the tag is known, so
everything inside it has to be sound and within the nesting bound.
-/

namespace QuoteBoard.Json

def maxDepth : Nat := 127

namespace Value

def named (n : String) (ms : List (Option String × Value)) : List Value :=
  (ms.filter fun m => m.1 = some n).map (·.2)

/-- The only value of a name: none when repeated, `some none` when absent. -/
def single? (ms : List (Option String × Value)) (n : String) : Option (Option Value) :=
  match named n ms with
  | [] => some none
  | [v] => some (some v)
  | _ => none

def members? (names : List String) (ms : List (Option String × Value)) :
    Option (List (Option Value)) :=
  if ms.all (fun m => m.1.isSome) then names.mapM (single? ms) else none

/-- The fields of a record; an array holds every field. -/
def fields? (names : List String) : Value → Option (List (Option Value))
  | .obj ms => members? names ms
  | .arr l => if l.length = names.length then some (l.map some) else none
  | _ => none

/-- The fields of a record in which all may be left out; an array may stop early. -/
def partialFields? (names : List String) : Value → Option (List (Option Value))
  | .obj ms => members? names ms
  | .arr l =>
    if l.length ≤ names.length then
      some (l.map some ++ List.replicate (names.length - l.length) none)
    else none
  | _ => none

/-- Splits a tagged record into its tag and the record of its other fields. -/
def untag? (tag : String) : Value → Option (Value × Value)
  | .obj ms =>
    match named tag ms with
    | [t] => some (t, .obj (ms.filter fun m => m.1 ≠ some tag))
    | _ => none
  | .arr (t :: l) => some (t, .arr l)
  | _ => none

def fits (enclosing : Nat) (v : Value) : Bool := v.sound && v.depth + enclosing ≤ maxDepth

/-! ## Single values -/

def toString? : Value → Option String
  | .str s => s
  | _ => none

def toBool? : Value → Option Bool
  | .bool b => some b
  | _ => none

def toInt? : Value → Option Int
  | .num n => n.toInt?
  | _ => none

def toNatBelow? (bound : Nat) (v : Value) : Option Nat := do
  let i ← v.toInt?
  if 0 ≤ i ∧ i < bound then some i.toNat else none

def toUInt32? (v : Value) : Option UInt32 := (v.toNatBelow? UInt32.size).map UInt32.ofNat

def toUInt64? (v : Value) : Option UInt64 := (v.toNatBelow? UInt64.size).map UInt64.ofNat

def toInt64? (v : Value) : Option Int64 := do
  let i ← v.toInt?
  if Int64.minValue.toInt ≤ i ∧ i ≤ Int64.maxValue.toInt then some (Int64.ofInt i) else none

def toDouble? : Value → Option UInt64
  | .num n => n.toDouble?
  | _ => none

def toList? {α : Type} (f : Value → Option α) : Value → Option (List α)
  | .arr l => l.mapM f
  | _ => none

def toOption? {α : Type} (f : Value → Option α) : Option Value → Option (Option α)
  | none => some none
  | some .null => some none
  | some v => (f v).map some

def orDefault? {α : Type} (f : Value → Option α) (d : α) : Option Value → Option α
  | none => some d
  | some v => f v

/-- The name of a fieldless variant: a text, or an object of that name over null; inside a tagged
record also over an empty object. -/
def variant? (tagged : Bool) : Value → Option String
  | .str s => s
  | .obj [(k, .null)] => k
  | .obj [(k, .obj [])] => if tagged then k else none
  | _ => none

end Value

end QuoteBoard.Json
