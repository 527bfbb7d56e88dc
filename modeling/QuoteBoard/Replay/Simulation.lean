import QuoteBoard.Replay.Player

/-!
# Playing on a virtual clock

A simulation runs a player's timers and passes in the order of their moments. Nothing takes time but
waiting. What is ready at one moment is done in rounds: due timers fire, then each ready pass takes
one turn; a pass that is not paced is ready again in the next round. Between rounds one can look at
the player. A command that waits until a moment covers what comes before it.
-/

namespace QuoteBoard

structure Simulation where
  player : Player
  wall : Instant
  now : Nat := 0
  /-- What was seen, each with its moment, latest first. -/
  trace : List (Nat × ReplayEvent) := []

namespace Simulation

def moment (s : Simulation) : Moment := ⟨s.wall, s.now⟩

def act (s : Simulation) (a : Action) : Simulation × Option PlayerError :=
  let r := s.player.act a
  ({ s with player := r.1, trace := r.2.1.foldl (fun t e => (s.now, e) :: t) s.trace }, r.2.2)

/-- On a virtual clock a wait of no time is over at once: a paced pass without an interval goes on in
its turn. -/
def pauses (s : Simulation) (q : Pass) : Bool :=
  !(q.task.paced && s.player.config.pacingDuration.wait == 0)

/-- The largest number of turns in a round, and of rounds in a command. -/
def patience : Nat := 10000000

/-- Finishes a round in which the passes `seen` have had their turn. -/
def round : Nat → List Nat → Simulation → Simulation
  | 0, _, s => s
  | fuel + 1, seen, s =>
    match s.player.timers.dueBefore (s.now + 1) with
    | t :: _ => round fuel seen (s.act (.fire s.moment t.id)).1
    | [] =>
      match s.player.passes.find? fun p => p.ready ≤ s.now && !seen.contains p.id with
      | some p => round fuel (p.id :: seen) (s.act (.work s.moment p.id (s.pauses p))).1
      | none => s

def next? (s : Simulation) : Option Nat :=
  (s.player.timers.nextDue?.toList ++ s.player.passes.map (·.ready)).min?.map (max s.now)

/-- Plays rounds before `limit` until the player is as wanted; whether it is. -/
def advance (limit : Nat) (wanted : Player → Bool) : Nat → Simulation → Simulation × Bool
  | 0, s => (s, wanted s.player)
  | fuel + 1, s =>
    if wanted s.player then (s, true)
    else
      match s.next?.filter (· < limit) with
      | none => ({ s with now := limit }, false)
      | some t => advance limit wanted fuel (round patience [] { s with now := t })

/-! ## Commands -/

def sleep (s : Simulation) (d : Duration) : Simulation :=
  (s.advance (s.now + d.wait) (fun _ => false) patience).1

/-- Waits for a phase, at most a minute. -/
def wait (s : Simulation) (p : Phase) : Simulation × Bool :=
  s.advance (s.now + 60000) (fun q => q.phase = p) patience

def play (s : Simulation) : Simulation × Option PlayerError := s.act (.play (some s.moment))

def join (s : Simulation) (j : TrackNumber × Nat) : Simulation :=
  let limit := s.now + s.player.config.joinDuration.wait
  let s := (s.advance limit (fun p => p.isOver j.2) patience).1
  (s.act (.join j.1 j.2)).1

def endStop (s : Simulation) : Simulation :=
  ((s.player.joining.foldl join s).act .endStop).1

def stop (s : Simulation) : Simulation × Option PlayerError :=
  match s.act .beginStop with
  | (s, some e) => (s, some e)
  | (s, none) => (s.endStop, none)

/-- What became of a stop and of the commands given while it waited. -/
structure Contention where
  during : Phase
  /-- The answers of a play and of another stop, when the stop had to wait. -/
  others : Option (Option PlayerError × Option PlayerError)
  stop : Option PlayerError

def stopContended (s : Simulation) : Simulation × Contention :=
  match s.act .beginStop with
  | (s, some e) => (s, ⟨s.player.phase, none, some e⟩)
  | (s, none) =>
    if s.player.joining = [] ∨ s.player.config.joinTimeout = 0 then
      let s := s.endStop
      (s, ⟨s.player.phase, none, none⟩)
    else
      let during := s.player.phase
      let played := s.play
      let again := played.1.act .beginStop
      (again.1.endStop, ⟨during, some (played.2, again.2), none⟩)

end Simulation

end QuoteBoard
