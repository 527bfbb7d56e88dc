import QuoteBoard.Identity
import QuoteBoard.Json.Fields
import QuoteBoard.Side

/-!
# Wire forms of identities, prices and sides

Identities and prices are written as their content; a feed is an object of its name and number.
-/

namespace QuoteBoard

open Json (Value)

namespace Feed

def toJson (f : Feed) : Value :=
  .ofFields [("name", .ofString f.name), ("id", .ofInt f.number.toNat)]

def ofJson? (v : Value) : Option Feed := do
  let [some name, some number] ← v.fields? ["name", "id"] | none
  return ⟨← name.toString?, ← number.toUInt32?⟩

end Feed

namespace BatchId

def toJson (b : BatchId) : Value := .ofInt b.value.toNat

def ofJson? (v : Value) : Option BatchId := v.toUInt64?.map (⟨·⟩)

end BatchId

namespace ItemId

def toJson (i : ItemId) : Value := .ofString i.name

def ofJson? (v : Value) : Option ItemId := v.toString?.map (⟨·⟩)

end ItemId

namespace Price

def toJson (p : Price) : Value := .ofInt p.ticks.toInt

def ofJson? (v : Value) : Option Price := v.toInt64?.map (⟨·⟩)

end Price

namespace Size

def toJson (s : Size) : Value := .ofDouble s.bits

def ofJson? (v : Value) : Option Size := v.toDouble?.map (⟨·⟩)

end Size

namespace Side

def toJson (s : Side) : Value := .ofString s.label

def ofLabel? (s : String) : Option Side :=
  if s = "BID" then some bid else if s = "OFFER" then some offer else none

def ofJson? (tagged : Bool) (v : Value) : Option Side := do
  ofLabel? (← v.variant? tagged)

end Side

namespace Timestamp

def toJson (t : Timestamp) : Value := .ofInt t.toInt

end Timestamp

end QuoteBoard
