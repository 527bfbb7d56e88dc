import QuoteBoard.Config
import QuoteBoard.Replay.Audience
import QuoteBoard.Replay.Pass
import QuoteBoard.Replay.Plan
import QuoteBoard.Replay.Registry
import QuoteBoard.Replay.Timers

/-!
# The player

A player plays its tasks. A planned task either waits for a track or has a timer; the timer starts a
pass; the end of a pass arms the timers of those who waited for it, and its own when it loops. Each
run has a generation: what an earlier run left behind can no longer change the player.

The player itself has no clock. Timers fire, passes take their turns and slow passes are abandoned
as actions from outside; the moment of an action only says when what it arms will be due. How far a
turn comes is open too: whatever the pacing, a pass can pause after every captured message, so that
any other action can come between two of them.
-/

namespace QuoteBoard

/-- A reading of the clocks: the time of day and the ticks, in milliseconds. -/
structure Moment where
  wall : Instant
  tick : Nat
  deriving DecidableEq, Repr, Inhabited

structure Start where
  task : Task
  generation : Nat
  deriving DecidableEq, Repr, Inhabited

structure Player where
  config : ReplayConfig := {}
  store : Option Store := none
  tasks : List Task := []
  audience : List Seat := []
  phase : Phase := .stopped
  generation : Nat := 0
  /-- The number of tasks of the run. -/
  planned : Nat := 0
  timers : Timers Start := {}
  registry : Registry := {}
  finished : List TrackNumber := []
  /-- The passes that are not over. -/
  passes : List Pass := []
  /-- The tracks that play in this run, each with its pass. -/
  active : List (TrackNumber × Nat) := []
  /-- The passes that a stop waits for. -/
  joining : List (TrackNumber × Nat) := []
  /-- The number of passes so far. -/
  spawned : Nat := 0
  metrics : Counters := {}

namespace Player

def addTask (p : Player) (t : Task) : Player := { p with tasks := p.tasks ++ [t] }

def addSeat (p : Player) (s : Seat) : Player := { p with audience := p.audience ++ [s] }

def activeTracks (p : Player) : List TrackNumber :=
  (p.active.map (·.1)).mergeSort fun a b => a.value ≤ b.value

def findPass? (p : Player) (id : Nat) : Option Pass := p.passes.find? fun q => q.id = id

/-! ## Phases, timers and cues -/

/-- Goes from one phase to another; in any other phase nothing happens. -/
def advance (p : Player) (old new : Phase) : Player × List ReplayEvent :=
  if p.phase = old then ({ p with phase := new }, [.phase (some old) new]) else (p, [])

def arm (p : Player) (now : Moment) (t : Task) : Player :=
  { p with timers :=
      p.timers.arm (now.tick + (t.start.delay now.wall).wait) ⟨t, p.generation⟩ }

def armAll (p : Player) (now : Moment) (ts : List Task) : Player :=
  ts.foldl (fun p t => p.arm now t) p

def countAll (p : Player) : List ReplayEvent → Player
  | [] => p
  | .tallied t :: es => { p with metrics := p.metrics.record t }.countAll es
  | _ :: es => p.countAll es

def emit (p : Player) : Signal → Player × List ReplayEvent
  | .logged e => (p, [.logged e])
  | .cue c =>
    let r := Audience.tell c 0 p.audience
    ({ p with audience := r.1 }.countAll r.2, r.2)

def emitAll (p : Player) : List Signal → Player × List ReplayEvent
  | [] => (p, [])
  | s :: ss =>
    let r := p.emit s
    let rest := r.1.emitAll ss
    (rest.1, r.2 ++ rest.2)

/-! ## Passes -/

def begin (p : Player) (now : Moment) (s : Start) : Player × List ReplayEvent :=
  if s.generation = p.generation then
    let pass : Pass :=
      { id := p.spawned
        task := s.task
        generation := s.generation
        ready := now.tick
        latencyDue := p.config.reportsLatency }
    let p : Player := { p with
      spawned := p.spawned + 1
      passes := p.passes ++ [pass]
      active := p.active.filter (fun a => a.1 ≠ pass.number) ++ [(pass.number, pass.id)] }
    p.advance .initialized .playing
  else (p, [])

def remove (p : Player) (id : Nat) : Player :=
  { p with passes := p.passes.filter fun q => q.id ≠ id }

/-- A track has played to its end: those who waited for it get their timers, a looping track gets
its own again, and the run is over when every task is. -/
def release (p : Player) (now : Moment) (t : Task) : Player × List ReplayEvent :=
  let taken := p.registry.take t.number
  let p : Player := { p with
    registry := taken.1
    finished := if t.mode = .once ∧ t.number ∉ p.finished then p.finished ++ [t.number]
      else p.finished }
  let p := p.armAll now (taken.2 ++ if t.mode = .loop then [t] else [])
  if p.finished.length = p.planned then p.advance .playing .finished else (p, [])

/-- A pass is over. Only one of the present run that was not cancelled has consequences. -/
def complete (p : Player) (now : Moment) (pass : Pass) (sent : UInt64) (cancelled : Bool) :
    Player × List ReplayEvent :=
  let tally := Tally.trackRun sent
  let p := { p.remove pass.id with metrics := p.metrics.record tally }
  if pass.generation = p.generation then
    let p : Player := { p with active := p.active.filter fun a => a.1 ≠ pass.number }
    if cancelled then (p, [.tallied tally])
    else
      let r := p.release now pass.task
      (r.1, .tallied tally :: r.2)
  else (p, [.tallied tally])

def replace (p : Player) (pass : Pass) : Player :=
  { p with passes := p.passes.map fun q => if q.id = pass.id then pass else q }

/-! ## Timers and turns -/

def fire (p : Player) (now : Moment) (id : UInt64) : Player × List ReplayEvent :=
  match p.timers.fire id with
  | (_, none) => (p, [])
  | (ts, some s) => { p with timers := ts }.begin now s

/-- A pass takes a turn, in which it pauses after the next captured message or plays all that are
left. A paced pass that pauses is ready again after the pacing interval. -/
def work (p : Player) (now : Moment) (id : Nat) (pauses : Bool) : Player × List ReplayEvent :=
  match p.findPass? id with
  | none => (p, [])
  | some pass =>
    let pacing := p.config.pacingDuration.wait
    let r := pass.turn p.store pauses
    let told := p.emitAll r.1
    match r.2 with
    | .paused next =>
      (told.1.replace
        { next with ready := if pass.task.paced then now.tick + pacing else now.tick }, told.2)
    | .ended sent cancelled =>
      let done := told.1.complete now pass sent cancelled
      (done.1, told.2 ++ done.2)

/-! ## Commands -/

def run (p : Player) (now : Moment) (plan : List Planned) : Player × List ReplayEvent :=
  let p : Player := { p with
    phase := .initialized
    generation := p.generation + 1
    planned := plan.length
    active := []
    finished := []
    registry := plan.foldl (fun r x => match x.after with
      | some n => r.subscribe n x.task
      | none => r) {} }
  if plan.isEmpty then p.advance .initialized .finished
  else (p.armAll now ((plan.filter fun x => x.after.isNone).map (·.task)), [])

/-- Plays the tasks. Without a clock nothing can be played; a plan is refused before the phase is
looked at. -/
def play (p : Player) (now : Option Moment) :
    Player × List ReplayEvent × Option PlayerError :=
  match now with
  | none => (p, [], some .noRuntime)
  | some now =>
    let plan := Plan.make p.config.chained p.tasks
    let warnings := plan.1.map ReplayEvent.logged
    match plan.2 with
    | .error e => (p, warnings, some e)
    | .ok planned =>
      if p.phase = .stopped ∨ p.phase = .finished then
        let r := p.run now planned
        (r.1, warnings ++ .phase none .initializing ::
          (if p.store.isNone then [.logged .noStore] else []) ++
          .phase (some .initializing) .initialized :: r.2, none)
      else (p, warnings, some (.invalidState .play p.phase))

/-- Begins to stop: timers are dropped and every pass of the run is cancelled and waited for. -/
def beginStop (p : Player) : Player × List ReplayEvent × Option PlayerError :=
  if p.phase = .stopped ∨ p.phase = .stopping then (p, [], some (.invalidState .stop p.phase))
  else
    let ids := p.active.map (·.2)
    ({ p with
        phase := .stopping
        timers := p.timers.cancelAll.1
        generation := p.generation + 1
        registry := {}
        finished := []
        active := []
        joining := p.active
        passes := p.passes.map fun q => { q with cancelled := q.cancelled || ids.contains q.id } },
      [.phase none .stopping], none)

def isOver (p : Player) (id : Nat) : Bool := (p.findPass? id).isNone

/-- A pass that a stop waits for is over, or is given up. -/
def join (p : Player) (track : TrackNumber) (id : Nat) : Player × List ReplayEvent :=
  let joined := { p with joining := p.joining.filter fun j => j.2 ≠ id }
  if p.isOver id then (joined, [])
  else (joined.remove id, [.logged (.joinTimedOut track p.config.joinTimeout)])

def endStop (p : Player) : Player × List ReplayEvent :=
  if p.joining = [] then p.advance .stopping .stopped else (p, [])

/-- The player is given up: its passes are cancelled, and nothing starts any more. -/
def abandon (p : Player) : Player :=
  let ids := p.active.map (·.2)
  { p with
    timers := p.timers.cancelAll.1
    generation := p.generation + 1
    passes := p.passes.map fun q => { q with cancelled := q.cancelled || ids.contains q.id } }

end Player

/-! ## Actions -/

inductive Action where
  | addTask (t : Task)
  | play (now : Option Moment)
  | fire (now : Moment) (id : UInt64)
  | work (now : Moment) (id : Nat) (pauses : Bool)
  | beginStop
  | join (track : TrackNumber) (id : Nat)
  | endStop
  | abandon
  deriving DecidableEq, Repr

namespace Player

def act (p : Player) : Action → Player × List ReplayEvent × Option PlayerError
  | .addTask t => (p.addTask t, [], none)
  | .play now => p.play now
  | .fire now id =>
    let r := p.fire now id
    (r.1, r.2, none)
  | .work now id pauses =>
    let r := p.work now id pauses
    (r.1, r.2, none)
  | .beginStop => p.beginStop
  | .join track id =>
    let r := p.join track id
    (r.1, r.2, none)
  | .endStop =>
    let r := p.endStop
    (r.1, r.2, none)
  | .abandon => (p.abandon, [], none)

end Player

end QuoteBoard
