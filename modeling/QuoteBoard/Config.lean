import QuoteBoard.Clock
import QuoteBoard.Failure

/-!
# Configuration

Every setting has a default. A replay cannot be stopped without waiting, so its join timeout is
positive.
-/

namespace QuoteBoard

structure ReplayConfig where
  /-- Milliseconds between the messages of a paced track. -/
  pacing : UInt64 := 4
  /-- Milliseconds for which stopping waits for one pass. -/
  joinTimeout : UInt64 := 5000
  /-- Each track waits for the one before it. -/
  chained : Bool := true
  /-- A starting track reports how far its clock is behind. -/
  reportsLatency : Bool := true
  deriving DecidableEq, Repr, Inhabited

namespace ReplayConfig

def pacingDuration (c : ReplayConfig) : Duration := .ofMilliseconds c.pacing.toNat

def joinDuration (c : ReplayConfig) : Duration := .ofMilliseconds c.joinTimeout.toNat

end ReplayConfig

structure BoardConfig where
  checkOrder : Bool := true
  deriving DecidableEq, Repr, Inhabited

structure Config where
  replay : ReplayConfig := {}
  board : BoardConfig := {}
  deriving DecidableEq, Repr, Inhabited

namespace Config

def fault? (c : Config) : Option ConfigError :=
  if c.replay.joinTimeout = 0 then
    some (.invalid "replay.join_timeout_ms" "must be greater than zero")
  else none

end Config

end QuoteBoard
