import QuoteBoard.Failure
import QuoteBoard.Inconsistency

/-!
# Log lines

Warnings and errors are values; `LogEntry.line` writes one as its severity, its text and its fields.
-/

namespace QuoteBoard

inductive LogEntry where
  | dropped (why : Inconsistency)
  | withdrawalIgnored (why : Inconsistency)
  | listenerFailed (feed : Feed) (side : Side) (batch : BatchId) (error : ListenerError)
  | outOfOrder (why : Inconsistency)
  | consumerFailed (feed : Feed) (batch : BatchId) (kind : String) (error : Failure)
  | updateLost (product : String) (batch : BatchId) (error : PublishError)
  | unknownPredecessor (track waitFor : TrackNumber)
  | noStore
  | emptyTrack (track : TrackNumber)
  | loadFailed (track : TrackNumber) (context : String) (error : StoreError)
  | eventLost (track : TrackNumber) (error : PublishError)
  | joinTimedOut (track : TrackNumber) (milliseconds : UInt64)
  deriving DecidableEq, Repr

namespace LogEntry

def severity : LogEntry → String
  | consumerFailed .. => "ERROR"
  | updateLost .. => "ERROR"
  | loadFailed .. => "ERROR"
  | eventLost .. => "ERROR"
  | _ => "WARN"

def text : LogEntry → String
  | dropped _ => "Dropping event"
  | withdrawalIgnored _ => "Ignoring delete"
  | listenerFailed .. => "Listener failed, commit notifications aborted"
  | outOfOrder _ => "Delivering out-of-order message"
  | consumerFailed .. => "Consumer failed"
  | updateLost .. => "Incremental update lost"
  | unknownPredecessor .. => "Unknown predecessor, starting on timer"
  | noStore => "No track store configured, every track will play empty"
  | emptyTrack _ => "No track store configured, track is empty"
  | loadFailed .. => "Failed to load track"
  | eventLost .. => "Replayed event lost"
  | joinTimedOut .. => "Worker did not stop in time, aborting"

def fields : LogEntry → List (String × String)
  | dropped why => [("error", why.message)]
  | withdrawalIgnored why => [("error", why.message)]
  | listenerFailed f s b e =>
    [("feed", f.label), ("side", s.label), ("id", b.label), ("error", e.message)]
  | outOfOrder why => [("error", why.message)]
  | consumerFailed f b k e =>
    [("feed", f.label), ("id", b.label), ("kind", k), ("error", e.message)]
  | updateLost p b e => [("product", p), ("id", b.label), ("error", e.message)]
  | unknownPredecessor t w => [("track", t.label), ("wait_for", w.label)]
  | noStore => []
  | emptyTrack t => [("track", t.label)]
  | loadFailed t c e => [("track", t.label), ("context", c), ("error", e.message)]
  | eventLost t e => [("track", t.label), ("error", e.message)]
  | joinTimedOut t ms => [("track", t.label), ("timeout_ms", toString ms.toNat)]

def line (e : LogEntry) : String :=
  e.fields.foldl (fun s f => s ++ " | " ++ f.1 ++ "=" ++ f.2) (e.severity ++ " " ++ e.text)

end LogEntry

end QuoteBoard
