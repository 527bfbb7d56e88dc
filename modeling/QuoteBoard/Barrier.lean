import QuoteBoard.Side
import QuoteBoard.Update

/-!
# The barrier between the two sides

Both sides of a product add their changes of one cycle. The cycle ends when each side has committed
since the last end; if anything changed, the commit that ends it gives the update. The rebuild flag
outlives cycles without changes, until an update carries it.
-/

namespace QuoteBoard

structure Addition where
  item : ItemId
  price : Price
  size : Size
  deriving DecidableEq, Repr, Inhabited

structure Barrier where
  bids : List Addition := []
  asks : List Addition := []
  removed : List ItemId := []
  rebuilt : Bool := false
  bidDone : Bool := false
  offerDone : Bool := false
  deriving DecidableEq, Repr, Inhabited

namespace Barrier

def add (b : Barrier) : Side → Addition → Barrier
  | .bid, a => { b with bids := b.bids ++ [a] }
  | .offer, a => { b with asks := b.asks ++ [a] }

def remove (b : Barrier) (i : ItemId) : Barrier := { b with removed := b.removed ++ [i] }

def setRebuilt (b : Barrier) (on : Bool) : Barrier := { b with rebuilt := on }

def isCommitted (b : Barrier) : Side → Bool
  | .bid => b.bidDone
  | .offer => b.offerDone

def hasChanges (b : Barrier) : Bool := b.bids ≠ [] || b.asks ≠ [] || b.removed ≠ []

def update (b : Barrier) (product : String) (batch : BatchId) : Update where
  batch := batch
  product := product
  bidItems := b.bids.map (·.item)
  bidPrices := b.bids.map (·.price)
  bidSizes := b.bids.map (·.size)
  askItems := b.asks.map (·.item)
  askPrices := b.asks.map (·.price)
  askSizes := b.asks.map (·.size)
  removed := b.removed
  rebuilt := b.rebuilt

def markDone (b : Barrier) : Side → Barrier
  | .bid => { b with bidDone := true }
  | .offer => { b with offerDone := true }

/-- A side is done with the cycle; the second one ends it. -/
def commit (b : Barrier) (product : String) (batch : BatchId) (s : Side) :
    Barrier × Option Update :=
  let b := b.markDone s
  if b.bidDone && b.offerDone then
    if b.hasChanges then ({}, some (b.update product batch))
    else ({ rebuilt := b.rebuilt }, none)
  else (b, none)

end Barrier

end QuoteBoard
