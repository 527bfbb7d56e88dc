import QuoteBoard.Book.Ladder

/-!
# Books

A book keeps what its policy keeps: every level, the latest best level, or none. The best-only
policy trusts the venue to send nothing but the best level.
-/

namespace QuoteBoard

inductive Policy where
  | fullDepth
  | topOfBook
  | tradeOnly
  deriving DecidableEq, Repr, Inhabited

inductive Effect where
  | applied
  | ignored
  | unknown
  deriving DecidableEq, Repr, Inhabited

inductive Book where
  | ladder (l : Ladder)
  | top (best : Option Level)
  | bare

namespace Book

def empty : Policy → Side → Book
  | .fullDepth, s => ladder (.empty s)
  | .topOfBook, _ => top none
  | .tradeOnly, _ => bare

def policy : Book → Policy
  | ladder _ => .fullDepth
  | top _ => .topOfBook
  | bare => .tradeOnly

def quote : Book → Quote → Book × Effect
  | ladder l, q => (ladder (l.quote q), .applied)
  | top _, q => (top (some q.level), .applied)
  | bare, _ => (bare, .ignored)

def remove : Book → ItemId → Book × Effect
  | ladder l, i =>
    match l.remove? i with
    | some l => (ladder l, .applied)
    | none => (ladder l, .unknown)
  | top (some best), i =>
    if best.item = i then (top none, .applied) else (top (some best), .ignored)
  | top none, _ => (top none, .ignored)
  | bare, _ => (bare, .ignored)

def clear : Book → Book
  | ladder l => ladder l.clear
  | top _ => top none
  | bare => bare

def level : Book → Nat → Option Level
  | ladder l, r => l.level r
  | top best, r => if r = 0 then best else none
  | bare, _ => none

def levels : Book → List Level
  | ladder l => l.toList
  | top best => best.toList
  | bare => []

def depth : Book → Nat
  | ladder l => l.depth
  | top best => if best.isSome then 1 else 0
  | bare => 0

end Book

end QuoteBoard
