import QuoteBoard.Replay.Task

/-!
# Tasks waiting for a track

Tasks wait in the order in which they came. Taking those of a track ends their waiting.
-/

namespace QuoteBoard

structure Registry where
  waiting : List (TrackNumber × Task) := []
  deriving DecidableEq, Repr, Inhabited

namespace Registry

def subscribe (r : Registry) (on : TrackNumber) (t : Task) : Registry :=
  ⟨r.waiting ++ [(on, t)]⟩

def awaiting (r : Registry) (on : TrackNumber) : List Task :=
  (r.waiting.filter fun w => w.1 = on).map (·.2)

def take (r : Registry) (on : TrackNumber) : Registry × List Task :=
  (⟨r.waiting.filter fun w => w.1 ≠ on⟩, r.awaiting on)

def isWaiting (r : Registry) (on : TrackNumber) : Bool := r.waiting.any fun w => w.1 = on

def size (r : Registry) : Nat := r.waiting.length

def isEmpty (r : Registry) : Bool := r.waiting.isEmpty

end Registry

end QuoteBoard
