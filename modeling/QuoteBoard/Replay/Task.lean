import QuoteBoard.Replay.Session

/-!
# Tasks of a replay

A track selects a part of a captured session. A task is a track with the time of its start, the
track it waits for, whether it starts over, and whether its messages are paced.
-/

namespace QuoteBoard

structure Track where
  number : TrackNumber
  context : String
  feeds : List Feed := []
  range : Option TimeRange := none
  deriving DecidableEq, Repr, Inhabited

def Track.load (t : Track) (s : Store) : Except StoreError (List Captured) :=
  s.load t.context t.feeds t.range

inductive StartRule where
  | after (delay : Duration)
  | on (instant : Instant)
  deriving DecidableEq, Repr, Inhabited

/-- The time left at `now`; none when the start is due. -/
def StartRule.delay (now : Instant) : StartRule → Duration
  | after d => d
  | on i => i.since now

inductive Repeat where
  | once
  | loop
  deriving DecidableEq, Repr, Inhabited

structure Task where
  track : Track
  mode : Repeat := .once
  start : StartRule := .after .zero
  waitFor : Option TrackNumber := none
  paced : Bool := false
  deriving DecidableEq, Repr, Inhabited

def Task.number (t : Task) : TrackNumber := t.track.number

end QuoteBoard
