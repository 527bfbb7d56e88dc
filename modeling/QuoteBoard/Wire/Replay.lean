import QuoteBoard.Book
import QuoteBoard.Replay.Event
import QuoteBoard.Replay.Session
import QuoteBoard.Wire.Message

/-!
# Wire form of captured messages, play events and names

A play event is tagged by `event` and taken in whole; its message has been taken in with it.
-/

namespace QuoteBoard

open Json (Value)

namespace TrackNumber

def toJson (n : TrackNumber) : Value := .ofInt n.value.toNat

def ofJson? (v : Value) : Option TrackNumber := v.toUInt32?.map (⟨·⟩)

end TrackNumber

namespace Phase

def toJson (p : Phase) : Value := .ofString p.label

def ofJson? (v : Value) : Option Phase := do
  ofLabel? (← v.variant? false)

end Phase

namespace Policy

def label : Policy → String
  | fullDepth => "full_depth"
  | topOfBook => "top_of_book"
  | tradeOnly => "trade_only"

def ofLabel? (s : String) : Option Policy :=
  [fullDepth, topOfBook, tradeOnly].find? fun p => p.label = s

def toJson (p : Policy) : Value := .ofString p.label

def ofJson? (v : Value) : Option Policy := do
  ofLabel? (← v.variant? false)

end Policy

namespace Capture

def ofLabel? (s : String) : Option Capture := [snapshot, incremental].find? fun c => c.label = s

def toJson (c : Capture) : Value := .ofString c.label

def ofJson? (v : Value) : Option Capture := do
  ofLabel? (← v.variant? false)

end Capture

namespace Captured

def toJson (c : Captured) : Value :=
  .ofFields [("message", c.message.toJson), ("update_type", c.capture.toJson)]

def ofJson? (v : Value) : Option Captured := do
  let [some message, some capture] ← v.fields? ["message", "update_type"] | none
  return ⟨← Message.ofJson? 1 message, ← Capture.ofJson? capture⟩

end Captured

namespace PlayEvent

def fields : PlayEvent → List (String × Value)
  | started t => [("track", t.toJson)]
  | message t m => [("track", t.toJson), ("message", m.toJson)]
  | stopped t => [("track", t.toJson)]

def toJson (e : PlayEvent) : Value := .ofFields (("event", .ofString e.kind) :: e.fields)

def ofJson? (v : Value) : Option PlayEvent := do
  if !v.fits 0 then none
  let (tag, body) ← v.untag? "event"
  match ← tag.toString? with
  | "StartNotify" =>
    let [some t] ← body.fields? ["track"] | none
    return started (← TrackNumber.ofJson? t)
  | "Message" =>
    let [some t, some m] ← body.fields? ["track", "message"] | none
    return message (← TrackNumber.ofJson? t) (← Message.ofTagged? true m)
  | "StopPlaying" =>
    let [some t] ← body.fields? ["track"] | none
    return stopped (← TrackNumber.ofJson? t)
  | _ => none

end PlayEvent

end QuoteBoard
