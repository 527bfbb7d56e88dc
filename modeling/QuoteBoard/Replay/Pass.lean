import QuoteBoard.Replay.Event
import QuoteBoard.Replay.Framer
import QuoteBoard.Replay.Task

/-!
# Passes

A pass plays the session of its task once, framed. It works in turns: the first opens the session,
each gives one captured message and pauses or gives all that are left, and the last closes the open
batch. A pass that is cancelled ends before its next captured message; one that has none left ends as
usual.
-/

namespace QuoteBoard

inductive Signal where
  | cue (c : Cue)
  | logged (e : LogEntry)
  deriving DecidableEq, Repr

structure Pass where
  id : Nat
  task : Task
  /-- The run of the player to which the pass belongs. -/
  generation : Nat
  /-- The moment of the next turn. -/
  ready : Nat
  /-- The latency has not been reported yet. -/
  latencyDue : Bool
  cancelled : Bool := false
  /-- What is left of the session, once it is opened. -/
  rest : Option (List Captured) := none
  framer : Framer := {}
  sent : UInt64 := 0
  deriving DecidableEq, Repr

inductive TurnEnd where
  | paused (p : Pass)
  | ended (sent : UInt64) (cancelled : Bool)
  deriving DecidableEq, Repr

namespace Pass

def number (p : Pass) : TrackNumber := p.task.number

/-- The session of a track; without one the track is empty. -/
def session (store : Option Store) (t : Track) : List Captured × List Signal :=
  match store with
  | none => ([], [.logged (.emptyTrack t.number)])
  | some s =>
    match t.load s with
    | .ok cs => (cs, [])
    | .error e => ([], [.logged (.loadFailed t.number t.context e)])

def playing (p : Pass) (ms : List Message) : List Signal :=
  ms.map fun m => .cue (.played (.message p.number m))

/-- Gives a captured message; the first one with a time also gives the latency when it is due. -/
def give (p : Pass) (c : Captured) : Pass × List Signal :=
  let timed := p.latencyDue && c.message.time?.isSome
  let r := p.framer.push c
  ({ p with framer := r.1, sent := p.sent + UInt64.ofNat r.2.length
            latencyDue := p.latencyDue && !timed },
    (if timed then [.cue .latency] else []) ++ p.playing r.2)

def finish (p : Pass) (cancelled : Bool) : List Signal × TurnEnd :=
  let ms := p.framer.close
  (p.playing ms ++ [.cue (.played (.stopped p.number)), .cue .disconnected],
    .ended (p.sent + UInt64.ofNat ms.length) cancelled)

/-- Plays captured messages, up to the next pause when there are pauses. -/
def play (pauses : Bool) : List Captured → Pass → List Signal × TurnEnd
  | [], p => p.finish false
  | c :: cs, p =>
    if p.cancelled then p.finish true
    else
      let r := p.give c
      if pauses then (r.2, .paused { r.1 with rest := some cs })
      else
        let rest := play pauses cs r.1
        (r.2 ++ rest.1, rest.2)

def turn (store : Option Store) (pauses : Bool) (p : Pass) : List Signal × TurnEnd :=
  match p.rest with
  | some cs => play pauses cs p
  | none =>
    let opened := session store p.task.track
    let r := play pauses opened.1 p
    (opened.2 ++ .cue .connected :: .cue (.played (.started p.number)) :: r.1, r.2)

end Pass

end QuoteBoard
