import QuoteBoard.Identity
import QuoteBoard.Price

/-!
# Incremental updates

One update carries the changes of both sides in one cycle. Added levels are parallel columns;
removed items are not told apart by side.
-/

namespace QuoteBoard

structure Update where
  batch : BatchId
  product : String
  bidItems : List ItemId
  bidPrices : List Price
  bidSizes : List Size
  askItems : List ItemId
  askPrices : List Price
  askSizes : List Size
  removed : List ItemId
  rebuilt : Bool
  deriving DecidableEq, Repr, Inhabited

namespace Update

def bidCount (u : Update) : Nat := u.bidItems.length

def askCount (u : Update) : Nat := u.askItems.length

def changeCount (u : Update) : Nat := u.bidCount + u.askCount + u.removed.length

/-- The columns of each side have one length. -/
def wellFormed (u : Update) : Bool :=
  u.bidItems.length == u.bidPrices.length && u.bidItems.length == u.bidSizes.length &&
    u.askItems.length == u.askPrices.length && u.askItems.length == u.askSizes.length

end Update

end QuoteBoard
