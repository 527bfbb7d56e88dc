import QuoteBoard.Board

/-!
# What can be seen of a replay

A pass of a track gives its audience cues: it connects, plays its events, and disconnects. A seat
may be taken by a board; what a board does with a message is seen too.
-/

namespace QuoteBoard

/-- An event of a track. Every pass starts and stops; its messages are in between. -/
inductive PlayEvent where
  | started (track : TrackNumber)
  | message (track : TrackNumber) (m : Message)
  | stopped (track : TrackNumber)
  deriving DecidableEq, Repr, Inhabited

namespace PlayEvent

def track : PlayEvent → TrackNumber
  | started t => t
  | message t _ => t
  | stopped t => t

def message? : PlayEvent → Option Message
  | message _ m => some m
  | _ => none

def kind : PlayEvent → String
  | started _ => "StartNotify"
  | message _ _ => "Message"
  | stopped _ => "StopPlaying"

end PlayEvent

inductive Cue where
  | connected
  | latency
  | played (e : PlayEvent)
  | disconnected
  deriving DecidableEq, Repr

/-- What can be seen of a player and its audience. A phase that a command asked for has no old
one. -/
inductive ReplayEvent where
  | phase (old : Option Phase) (new : Phase)
  | heard (seat : Nat) (c : Cue)
  | onBoard (seat : Nat) (e : BoardEvent)
  | logged (e : LogEntry)
  | tallied (t : Tally)

end QuoteBoard
