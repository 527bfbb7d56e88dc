import QuoteBoard.Log
import QuoteBoard.Replay.Task

/-!
# Planning a replay

Tasks play in the order of their track numbers. A task waits for the track that it names or, when
tasks are chained, for the one before it; a track that has no task is not waited for. A plan with a
track twice, or with tracks that wait for each other in a circle, is refused; the smallest such
track is named.
-/

namespace QuoteBoard

structure Planned where
  task : Task
  after : Option TrackNumber
  deriving DecidableEq, Repr, Inhabited

def Planned.number (p : Planned) : TrackNumber := p.task.number

namespace Plan

def sorted (ts : List Task) : List Task :=
  ts.mergeSort fun a b => a.number.value ≤ b.number.value

def firstRepeated? : List Task → Option TrackNumber
  | a :: b :: ts => if a.number = b.number then some a.number else firstRepeated? (b :: ts)
  | _ => none

/-- The track a task asks for, `previous` being the one before it. -/
def wanted (chained : Bool) (previous : Option TrackNumber) (t : Task) : Option TrackNumber :=
  t.waitFor.or (if chained then previous else none)

def assign (chained : Bool) (known : List TrackNumber) :
    Option TrackNumber → List Task → List Planned
  | _, [] => []
  | previous, t :: ts =>
    ⟨t, (wanted chained previous t).filter known.contains⟩ ::
      assign chained known (some t.number) ts

def warnings (chained : Bool) (known : List TrackNumber) :
    Option TrackNumber → List Task → List LogEntry
  | _, [] => []
  | previous, t :: ts =>
    (((wanted chained previous t).filter fun w => !known.contains w).toList.map
      fun w => LogEntry.unknownPredecessor t.number w) ++
      warnings chained known (some t.number) ts

def predecessor? (ps : List Planned) (n : TrackNumber) : Option TrackNumber :=
  (ps.find? fun p => p.number = n).bind (·.after)

/-- Whether following the predecessors from `current` comes to `goal` within `steps` steps. -/
def reaches (ps : List Planned) (goal : TrackNumber) : Nat → TrackNumber → Bool
  | 0, _ => false
  | steps + 1, current =>
    match predecessor? ps current with
    | none => false
    | some next => next = goal || reaches ps goal steps next

def firstCyclic? (ps : List Planned) : Option TrackNumber :=
  (ps.map (·.number)).find? fun n => reaches ps n ps.length n

def make (chained : Bool) (tasks : List Task) :
    List LogEntry × Except PlayerError (List Planned) :=
  let ts := sorted tasks
  match firstRepeated? ts with
  | some n => ([], .error (.duplicateTrack n))
  | none =>
    let known := ts.map (·.number)
    let ps := assign chained known none ts
    (warnings chained known none ts,
      match firstCyclic? ps with
      | some n => .error (.dependencyCycle n)
      | none => .ok ps)

end Plan

end QuoteBoard
