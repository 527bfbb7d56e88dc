import QuoteBoard.Identity
import QuoteBoard.Replay.Phase

/-!
# Failures

One type per part that can fail, each with one function for its wording, and `Failure` over all of
them.
-/

namespace QuoteBoard

structure ListenerError where
  listener : String
  reason : String
  deriving DecidableEq, Repr, Inhabited

def ListenerError.message (e : ListenerError) : String :=
  "listener " ++ e.listener ++ " failed: " ++ e.reason

/-- A listener failed while a commit was announced. What was applied stays applied. -/
structure CommitError where
  batch : BatchId
  cause : ListenerError
  deriving DecidableEq, Repr, Inhabited

def CommitError.message (e : CommitError) : String :=
  "snapshot " ++ e.batch.label ++ " publication aborted: " ++ e.cause.message

inductive PublishError where
  | channelClosed
  | rejected (batch : BatchId) (reason : String)
  deriving DecidableEq, Repr, Inhabited

def PublishError.message : PublishError → String
  | channelClosed => "publisher channel closed"
  | rejected b reason => "publisher rejected message " ++ b.label ++ ": " ++ reason

structure HandlerError where
  batch : BatchId
  cause : PublishError
  deriving DecidableEq, Repr, Inhabited

def HandlerError.message (e : HandlerError) : String :=
  "failed to publish incremental update " ++ e.batch.label ++ ": " ++ e.cause.message

structure StoreError where
  context : String
  deriving DecidableEq, Repr, Inhabited

def StoreError.message (e : StoreError) : String :=
  "no stored session for context " ++ e.context

inductive PlayerError where
  | invalidState (command : Command) (phase : Phase)
  | noRuntime
  | duplicateTrack (track : TrackNumber)
  | dependencyCycle (track : TrackNumber)
  deriving DecidableEq, Repr, Inhabited

def PlayerError.message : PlayerError → String
  | invalidState c p => "cannot " ++ c.label ++ " while player is " ++ p.label
  | noRuntime => "replay requires a running tokio runtime"
  | duplicateTrack t => "track " ++ t.label ++ " is scheduled by more than one task"
  | dependencyCycle t =>
    "track " ++ t.label ++ " waits on a chain of tracks that leads back to it"

inductive ConfigError where
  | malformed
  | invalid (field reason : String)
  deriving DecidableEq, Repr, Inhabited

def ConfigError.message : ConfigError → String
  | malformed => "invalid configuration document"
  | invalid field reason => "invalid value for " ++ field ++ ": " ++ reason

inductive Failure where
  | commit (e : CommitError)
  | handler (e : HandlerError)
  | publish (e : PublishError)
  | player (e : PlayerError)
  | store (e : StoreError)
  | config (e : ConfigError)
  deriving DecidableEq, Repr, Inhabited

def Failure.message : Failure → String
  | commit e => "commit error: " ++ e.message
  | handler e => "handler error: " ++ e.message
  | publish e => "publish error: " ++ e.message
  | player e => "scheduler error: " ++ e.message
  | store e => "store error: " ++ e.message
  | config e => "configuration error: " ++ e.message

end QuoteBoard
