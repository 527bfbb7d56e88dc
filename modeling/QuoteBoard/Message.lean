import QuoteBoard.Identity
import QuoteBoard.Side

/-!
# Messages of a feed

Every message names its feed and its batch. A batch on a feed is a rebuild mark or none, then any
number of quotes, withdrawals and trades, then one batch end.
-/

namespace QuoteBoard

structure Quote where
  feed : Feed
  item : ItemId
  price : Price
  size : Size
  side : Side
  batch : BatchId
  time : Timestamp
  deriving DecidableEq, Repr, Inhabited

structure Withdrawal where
  feed : Feed
  item : ItemId
  side : Side
  batch : BatchId
  time : Timestamp
  deriving DecidableEq, Repr, Inhabited

/-- A trade; its side is the aggressor's. -/
structure Trade where
  feed : Feed
  price : Price
  size : Size
  side : Side
  batch : BatchId
  time : Timestamp
  deriving DecidableEq, Repr, Inhabited

/-- No more messages of this batch on this feed; `count` is how many there were. -/
structure BatchEnd where
  feed : Feed
  batch : BatchId
  count : UInt32
  time : Timestamp
  deriving DecidableEq, Repr, Inhabited

/-- The batch replaces the whole book. -/
structure Rebuild where
  feed : Feed
  batch : BatchId
  deriving DecidableEq, Repr, Inhabited

inductive Message where
  | quote (q : Quote)
  | withdrawal (w : Withdrawal)
  | trade (t : Trade)
  | batchEnd (e : BatchEnd)
  | rebuild (r : Rebuild)
  deriving DecidableEq, Repr, Inhabited

def BatchEnd.closes (e : BatchEnd) (f : Feed) : Bool := e.feed = f

namespace Message

def feed : Message → Feed
  | quote q => q.feed
  | withdrawal w => w.feed
  | trade t => t.feed
  | batchEnd e => e.feed
  | rebuild r => r.feed

def batch : Message → BatchId
  | quote q => q.batch
  | withdrawal w => w.batch
  | trade t => t.batch
  | batchEnd e => e.batch
  | rebuild r => r.batch

def time? : Message → Option Timestamp
  | quote q => some q.time
  | withdrawal w => some w.time
  | trade t => some t.time
  | batchEnd e => some e.time
  | rebuild _ => none

def side? : Message → Option Side
  | quote q => some q.side
  | withdrawal w => some w.side
  | trade t => some t.side
  | batchEnd _ => none
  | rebuild _ => none

def isItem : Message → Bool
  | quote _ => true
  | withdrawal _ => true
  | trade _ => true
  | batchEnd _ => false
  | rebuild _ => false

def kind : Message → String
  | quote _ => "PriceLevel"
  | withdrawal _ => "Delete"
  | trade _ => "Trade"
  | batchEnd _ => "EndUpdate"
  | rebuild _ => "NewSnapshot"

end Message

end QuoteBoard
