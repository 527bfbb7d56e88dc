import QuoteBoard.Price

/-!
# The two sides of a book

Bids rank from the highest price down, offers from the lowest up. `Side.rank` is that order and
`.lt` means better.
-/

namespace QuoteBoard

inductive Side where
  | bid
  | offer
  deriving DecidableEq, Repr, Inhabited

namespace Side

def opposite : Side → Side
  | bid => offer
  | offer => bid

/-- The order of two prices on a side, the better one first. -/
def rank : Side → Price → Price → Ordering
  | bid, a, b => compare b a
  | offer, a, b => compare a b

def better (s : Side) (a b : Price) : Bool := s.rank a b == .lt

def index : Side → Nat
  | bid => 0
  | offer => 1

def label : Side → String
  | bid => "BID"
  | offer => "OFFER"

theorem opposite_opposite (s : Side) : s.opposite.opposite = s := by cases s <;> rfl

end Side

end QuoteBoard
