/-!
# Counters

What happened is told as a `Tally`; `Counters.record` counts it. Counters wrap modulo `2 ^ 64`.
-/

namespace QuoteBoard

inductive Tally where
  | commit (published : Bool)
  | untouched
  | listenerFailure
  | published
  | publishFailure
  | dispatch (outOfOrder : Bool)
  | trackRun (messages : UInt64)
  deriving DecidableEq, Repr

structure Counters where
  snapshotsPublished : UInt64 := 0
  endUpdates : UInt64 := 0
  noUpdates : UInt64 := 0
  listenerFailures : UInt64 := 0
  incrementalPublished : UInt64 := 0
  publishFailures : UInt64 := 0
  messagesDispatched : UInt64 := 0
  outOfOrderMessages : UInt64 := 0
  replayedMessages : UInt64 := 0
  trackRunsCompleted : UInt64 := 0
  deriving DecidableEq, Repr, Inhabited

namespace Counters

def unit (b : Bool) : UInt64 := if b then 1 else 0

def record (c : Counters) : Tally → Counters
  | .commit published =>
    { c with snapshotsPublished := c.snapshotsPublished + unit published
             endUpdates := c.endUpdates + 1 }
  | .untouched => { c with noUpdates := c.noUpdates + 1 }
  | .listenerFailure => { c with listenerFailures := c.listenerFailures + 1 }
  | .published => { c with incrementalPublished := c.incrementalPublished + 1 }
  | .publishFailure => { c with publishFailures := c.publishFailures + 1 }
  | .dispatch outOfOrder =>
    { c with messagesDispatched := c.messagesDispatched + 1
             outOfOrderMessages := c.outOfOrderMessages + unit outOfOrder }
  | .trackRun messages =>
    { c with replayedMessages := c.replayedMessages + messages
             trackRunsCompleted := c.trackRunsCompleted + 1 }

def recordAll (c : Counters) (ts : List Tally) : Counters := ts.foldl record c

theorem recordAll_append (c : Counters) (ts us : List Tally) :
    c.recordAll (ts ++ us) = (c.recordAll ts).recordAll us := by
  simp [recordAll]

/-- Two counts of different things, seen as one. -/
def add (c d : Counters) : Counters where
  snapshotsPublished := c.snapshotsPublished + d.snapshotsPublished
  endUpdates := c.endUpdates + d.endUpdates
  noUpdates := c.noUpdates + d.noUpdates
  listenerFailures := c.listenerFailures + d.listenerFailures
  incrementalPublished := c.incrementalPublished + d.incrementalPublished
  publishFailures := c.publishFailures + d.publishFailures
  messagesDispatched := c.messagesDispatched + d.messagesDispatched
  outOfOrderMessages := c.outOfOrderMessages + d.outOfOrderMessages
  replayedMessages := c.replayedMessages + d.replayedMessages
  trackRunsCompleted := c.trackRunsCompleted + d.trackRunsCompleted

def table (c : Counters) : List (String × UInt64) :=
  [("end_updates", c.endUpdates), ("incremental_published", c.incrementalPublished),
    ("listener_failures", c.listenerFailures), ("messages_dispatched", c.messagesDispatched),
    ("no_updates", c.noUpdates), ("out_of_order_messages", c.outOfOrderMessages),
    ("publish_failures", c.publishFailures), ("replayed_messages", c.replayedMessages),
    ("snapshots_published", c.snapshotsPublished), ("track_runs_completed", c.trackRunsCompleted)]

end Counters

end QuoteBoard
