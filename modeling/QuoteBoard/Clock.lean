import QuoteBoard.Identity

/-!
# Instants and durations

An instant is a whole second since the Unix epoch and the nanoseconds after it; instants are ordered
by seconds, then by nanoseconds. A timestamp lies in the second at or before it, also before the
epoch. Nanoseconds from `10 ^ 9` up lie in a leap second that follows the second. A wait takes whole
milliseconds and at most thirty years.
-/

namespace QuoteBoard

structure Duration where
  nanoseconds : Nat
  deriving DecidableEq, Repr, Inhabited

namespace Duration

def zero : Duration := ⟨0⟩

def ofMilliseconds (n : Nat) : Duration := ⟨n * 1000000⟩

def seconds (d : Duration) : Nat := d.nanoseconds / 1000000000

def subsecond (d : Duration) : Nat := d.nanoseconds % 1000000000

/-- The longest wait in milliseconds: thirty years of 365 days. -/
def longestWait : Nat := 30 * 365 * 86400000

/-- The milliseconds that waiting for a duration takes: one that has begun counts, and a wait beyond
the longest ends there. -/
def wait (d : Duration) : Nat := min ((d.nanoseconds + 999999) / 1000000) longestWait

end Duration

structure Instant where
  seconds : Int
  nanoseconds : Nat
  deriving DecidableEq, Repr, Inhabited

namespace Instant

instance : LE Instant where
  le a b := a.seconds < b.seconds ∨ a.seconds = b.seconds ∧ a.nanoseconds ≤ b.nanoseconds

instance (a b : Instant) : Decidable (a ≤ b) :=
  inferInstanceAs (Decidable (_ ∨ _ ∧ _))

def ofTimestamp (t : Timestamp) : Instant :=
  ⟨t.toInt / 1000000000, (t.toInt % 1000000000).toNat⟩

def timeOfDay (i : Instant) : Int := i.seconds % 86400

def isLeap (i : Instant) : Bool := 1000000000 ≤ i.nanoseconds

/-- The leap seconds from `b` to `a`. One counts when the instant that lies in it has the earlier
time of day. -/
def leapSince (a b : Instant) : Int :=
  if b.timeOfDay < a.timeOfDay ∧ b.isLeap then 1
  else if a.timeOfDay < b.timeOfDay ∧ a.isLeap then -1
  else 0

def since (a b : Instant) : Duration :=
  ⟨((a.seconds - b.seconds + a.leapSince b) * 1000000000 +
    (a.nanoseconds - b.nanoseconds)).toNat⟩

end Instant

/-- A window of source time, both ends included. -/
structure TimeRange where
  first : Instant
  last : Instant
  deriving DecidableEq, Repr, Inhabited

namespace TimeRange

def contains (r : TimeRange) (t : Timestamp) : Bool :=
  r.first ≤ .ofTimestamp t ∧ .ofTimestamp t ≤ r.last

end TimeRange

end QuoteBoard
