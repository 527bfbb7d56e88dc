import QuoteBoard.Book
import QuoteBoard.Log
import QuoteBoard.Snapshot

/-!
# The state of a cache

A sheet is one side of one feed's book with its last trade and two flags: changed since the last
commit, and rebuilt since the last snapshot. `settle` is what a commit does to it.
-/

namespace QuoteBoard

structure Sheet where
  feed : Feed
  side : Side
  book : Book
  trade : Option LastTrade
  modified : Bool
  rebuilt : Bool
  time : Timestamp

namespace Sheet

def empty (p : Policy) (f : Feed) (s : Side) : Sheet := ⟨f, s, .empty p s, none, false, false, 0⟩

def policy (s : Sheet) : Policy := s.book.policy

def reading (s : Sheet) : Reading where
  feed := s.feed
  side := s.side
  level r := s.book.level r
  levels := rankFrom 0 s.book.levels
  depth := s.book.depth
  trade := s.trade
  time := s.time

/-- Why a message does not belong here; the feed is looked at before the side. -/
def refusal? (s : Sheet) (f : Feed) (side : Option Side) : Option Inconsistency :=
  if f ≠ s.feed then some (.foreignFeed s.feed f)
  else
    match side with
    | some x => if x ≠ s.side then some (.sideMismatch s.feed s.side x) else none
    | none => none

def touch (s : Sheet) (b : Book) (t : Timestamp) : Sheet :=
  { s with book := b, time := t, modified := true }

def quote (s : Sheet) (q : Quote) : Sheet × List LogEntry :=
  match s.refusal? q.feed (some q.side) with
  | some why => (s, [.dropped why])
  | none =>
    match s.book.quote q with
    | (b, .applied) => (s.touch b q.time, [])
    | _ => (s, [])

def tradeDone (s : Sheet) (t : Trade) : Sheet × List LogEntry :=
  match s.refusal? t.feed none with
  | some why => (s, [.dropped why])
  | none => ({ s.touch s.book t.time with trade := some t.last }, [])

def withdraw (s : Sheet) (w : Withdrawal) : Sheet × List LogEntry :=
  match s.refusal? w.feed (some w.side) with
  | some why => (s, [.dropped why])
  | none =>
    match s.book.remove w.item with
    | (b, .applied) => (s.touch b w.time, [])
    | (_, .ignored) => (s, [])
    | (_, .unknown) => (s, [.withdrawalIgnored (.unknownItem s.feed w.item)])

def clear (s : Sheet) : Sheet := { s with book := s.book.clear, trade := none, modified := true }

def markRebuilt (s : Sheet) : Sheet := { s with rebuilt := true }

def view (s : Sheet) : View := .ofLevels s.feed s.side s.book.levels s.trade s.time

/-- Ends a batch: a changed sheet gives a snapshot and is unchanged from then on. -/
def settle (s : Sheet) (b : BatchId) (t : Timestamp) : Sheet × Option Snapshot :=
  if s.modified then
    ({ s with modified := false, rebuilt := false }, some ⟨b, s.rebuilt, t, s.view⟩)
  else (s, none)

end Sheet

end QuoteBoard
