/-!
# Prices and sizes

A price counts ticks. The number of decimals belongs to the instrument, so it is given when a price
is shown as a decimal. A size is a double as the venue sent it; nothing here computes with it, so
it is kept as its bits.
-/

namespace QuoteBoard

structure Price where
  ticks : Int64
  deriving DecidableEq, Repr, Inhabited

namespace Price

instance : Ord Price where
  compare a b := compare a.ticks b.ticks

def label (p : Price) : String := toString p.ticks.toInt

end Price

/-- A quantity, as the bits of a double. -/
structure Size where
  bits : UInt64
  deriving DecidableEq, Repr, Inhabited

end QuoteBoard
