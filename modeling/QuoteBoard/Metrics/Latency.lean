import QuoteBoard.Binary64
import QuoteBoard.Metrics

/-!
# Commit latencies

The last thousand commit latencies and their nearest-rank quantiles: a quantile is the sample whose
rank is the share of the number of samples, rounded up. Shares are doubles.
-/

namespace QuoteBoard

/-- The most recent samples, oldest first. -/
structure LatencyWindow where
  samples : List UInt64 := []
  deriving DecidableEq, Repr, Inhabited

namespace LatencyWindow

def capacity : Nat := 1000

def record (w : LatencyWindow) (latency : UInt64) : LatencyWindow :=
  if w.samples.length = capacity then ⟨w.samples.drop 1 ++ [latency]⟩
  else ⟨w.samples ++ [latency]⟩

/-- The rank of a quantile among `n` samples, counted from one; `q` is the code of its share. -/
def rank (q n : Nat) : Nat := max 1 (min n (Binary64.ceil (Binary64.mul q (Binary64.nearest n 1))))

def quantile? (w : LatencyWindow) (q : Nat) : Option UInt64 :=
  if w.samples.isEmpty then none
  else (w.samples.mergeSort fun a b => a ≤ b)[rank q w.samples.length - 1]?

def p99? (w : LatencyWindow) : Option UInt64 := w.quantile? (Binary64.nearest 99 100)

end LatencyWindow

structure Metrics where
  counters : Counters := {}
  latencies : LatencyWindow := {}
  deriving DecidableEq, Repr, Inhabited

namespace Metrics

def record (m : Metrics) (t : Tally) : Metrics := { m with counters := m.counters.record t }

def recordCommit (m : Metrics) (published : Bool) (latency : UInt64) : Metrics :=
  ⟨m.counters.record (.commit published), m.latencies.record latency⟩

def commitLatencyP99? (m : Metrics) : Option UInt64 := m.latencies.p99?

end Metrics

end QuoteBoard
