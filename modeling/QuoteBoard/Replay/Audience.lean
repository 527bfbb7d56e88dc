import QuoteBoard.Replay.Event

/-!
# The audience of a replay

Every seat gets every cue, in the order of the seats. An event that a seat does not take is lost to
that seat: this is counted and logged, and the other seats still get it. A board in a seat takes the
messages and passes over the rest.
-/

namespace QuoteBoard

/-- A spectator answers each event, given the earlier ones, latest first. -/
structure Spectator where
  answer : List PlayEvent → PlayEvent → Option PublishError
  heard : List PlayEvent := []

namespace Spectator

def hear (s : Spectator) (e : PlayEvent) : Spectator := { s with heard := e :: s.heard }

def reply (s : Spectator) (e : PlayEvent) : Option PublishError := s.answer s.heard e

end Spectator

/-- Dispatches the message of an event; the first error of the dispatch rejects it. -/
def Board.onPlay (b : Board) (e : PlayEvent) : Board × List BoardEvent × Option PublishError :=
  match e.message? with
  | none => (b, [], none)
  | some m =>
    let r := b.dispatch m
    (r.1, r.2.1, r.2.2.errors.head?.map fun f => .rejected m.batch f.message)

inductive Seat where
  | spectator (s : Spectator)
  | board (b : Board)

namespace Seat

def onPlay (i : Nat) (e : PlayEvent) : Seat → Seat × List ReplayEvent × Option PublishError
  | spectator s => (spectator (s.hear e), [.heard i (.played e)], s.reply e)
  | board b =>
    let r := b.onPlay e
    (board r.1, r.2.1.map (.onBoard i), r.2.2)

def take (i : Nat) : Cue → Seat → Seat × List ReplayEvent
  | .played e, s =>
    let r := s.onPlay i e
    (r.1, r.2.1 ++ match r.2.2 with
      | none => []
      | some why => [.tallied .publishFailure, .logged (.eventLost e.track why)])
  | c, spectator s => (spectator s, [.heard i c])
  | _, board b => (board b, [])

end Seat

namespace Audience

def tell (c : Cue) : Nat → List Seat → List Seat × List ReplayEvent
  | _, [] => ([], [])
  | i, s :: ss =>
    let r := s.take i c
    let rest := tell c (i + 1) ss
    (r.1 :: rest.1, r.2 ++ rest.2)

end Audience

end QuoteBoard
