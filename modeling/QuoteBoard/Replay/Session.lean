import QuoteBoard.Clock
import QuoteBoard.Failure
import QuoteBoard.Message
import Std.Data.TreeMap.Basic

/-!
# Captured sessions

A session is the messages captured under one context, in order; each says whether its batch rebuilt
the book or changed it. A store keeps the latest session of each context. What has been loaded stays
as it was when the store changes later.
-/

namespace QuoteBoard

inductive Capture where
  | snapshot
  | incremental
  deriving DecidableEq, Repr, Inhabited

def Capture.label : Capture → String
  | .snapshot => "SNAPSHOT"
  | .incremental => "INCREMENTAL"

structure Captured where
  message : Message
  capture : Capture
  deriving DecidableEq, Repr, Inhabited

/-- Whether a message is of one of `feeds`, or `feeds` is empty, and lies in `range`; a message
without a time lies in every range. -/
def Message.isSelected (feeds : List Feed) (range : Option TimeRange) (m : Message) : Bool :=
  (feeds.isEmpty || feeds.contains m.feed) &&
    match range, m.time? with
    | some r, some t => r.contains t
    | _, _ => true

structure Store where
  sessions : Std.TreeMap String (List Captured)

namespace Store

def empty : Store := ⟨∅⟩

/-- Stores a session; an earlier one of the context is replaced. -/
def insert (s : Store) (context : String) (session : List Captured) : Store :=
  ⟨s.sessions.insert context session⟩

def contexts (s : Store) : List String := s.sessions.keys

def load (s : Store) (context : String) (feeds : List Feed) (range : Option TimeRange) :
    Except StoreError (List Captured) :=
  match s.sessions[context]? with
  | none => .error ⟨context⟩
  | some session => .ok (session.filter fun c => c.message.isSelected feeds range)

end Store

end QuoteBoard
