import QuoteBoard.Message

/-!
# Reading a book

A `Reading` is everything one can ask of one side of a book: its levels by rank, all of them, the
last trade. A `View` is such a book copied at one moment, levels best first and ranked from zero.
-/

namespace QuoteBoard

structure Level where
  item : ItemId
  price : Price
  size : Size
  side : Side
  batch : BatchId
  time : Timestamp
  deriving DecidableEq, Repr, Inhabited

def Quote.level (q : Quote) : Level := ⟨q.item, q.price, q.size, q.side, q.batch, q.time⟩

structure Ranked where
  rank : Nat
  level : Level
  deriving DecidableEq, Repr, Inhabited

structure LastTrade where
  price : Price
  size : Size
  side : Side
  batch : BatchId
  time : Timestamp
  deriving DecidableEq, Repr, Inhabited

def Trade.last (t : Trade) : LastTrade := ⟨t.price, t.size, t.side, t.batch, t.time⟩

def rankFrom (n : Nat) : List Level → List Ranked
  | [] => []
  | l :: ls => ⟨n, l⟩ :: rankFrom (n + 1) ls

theorem length_rankFrom (n : Nat) (ls : List Level) : (rankFrom n ls).length = ls.length := by
  induction ls generalizing n with
  | nil => rfl
  | cons l ls ih => simp [rankFrom, ih]

theorem map_level_rankFrom (n : Nat) (ls : List Level) : (rankFrom n ls).map (·.level) = ls := by
  induction ls generalizing n with
  | nil => rfl
  | cons l ls ih => simp [rankFrom, ih]

/-- Everything that can be asked of one side of a book. -/
structure Reading where
  feed : Feed
  side : Side
  level : Nat → Option Level
  levels : List Ranked
  depth : Nat
  trade : Option LastTrade
  time : Timestamp

namespace Reading

def top (r : Reading) : Option Level := r.level 0

def second (r : Reading) : Option Level := r.level 1

def third (r : Reading) : Option Level := r.level 2

def bestPrice (r : Reading) : Option Price := r.top.map (·.price)

end Reading

/-- A book copied at one moment. -/
structure View where
  feed : Feed
  side : Side
  levels : List Ranked
  trade : Option LastTrade
  time : Timestamp
  deriving DecidableEq, Repr, Inhabited

namespace View

def ofLevels (feed : Feed) (side : Side) (levels : List Level) (trade : Option LastTrade)
    (time : Timestamp) : View :=
  ⟨feed, side, rankFrom 0 levels, trade, time⟩

/-- A view is read by position; the stored ranks only say what was written. -/
def reading (v : View) : Reading where
  feed := v.feed
  side := v.side
  level r := v.levels[r]?.map (·.level)
  levels := v.levels
  depth := v.levels.length
  trade := v.trade
  time := v.time

theorem level_reading_ofLevels (f : Feed) (s : Side) (ls : List Level) (t : Option LastTrade)
    (time : Timestamp) (r : Nat) : (ofLevels f s ls t time).reading.level r = ls[r]? := by
  simp only [reading, ofLevels]
  rw [← List.getElem?_map, map_level_rankFrom]

end View

end QuoteBoard
