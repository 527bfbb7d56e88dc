import QuoteBoard.Message
import QuoteBoard.Wire.Basic

/-!
# Wire form of messages

A message is an object whose first field, `type`, names its kind. `Message.ofTagged?` reads one that
has already been taken in whole; there the tag may also be the position of the kind.
-/

namespace QuoteBoard

open Json (Value)

/-! ## Writing -/

namespace Message

def fields : Message → List (String × Value)
  | quote q =>
    [("feed_id", q.feed.toJson), ("item_id", q.item.toJson), ("price", q.price.toJson),
      ("size", q.size.toJson), ("side", q.side.toJson), ("message_id", q.batch.toJson),
      ("source_timestamp", Timestamp.toJson q.time)]
  | withdrawal w =>
    [("feed_id", w.feed.toJson), ("item_id", w.item.toJson), ("side", w.side.toJson),
      ("message_id", w.batch.toJson), ("source_timestamp", Timestamp.toJson w.time)]
  | trade t =>
    [("feed_id", t.feed.toJson), ("price", t.price.toJson), ("size", t.size.toJson),
      ("side", t.side.toJson), ("message_id", t.batch.toJson),
      ("source_timestamp", Timestamp.toJson t.time)]
  | batchEnd e =>
    [("feed_id", e.feed.toJson), ("message_id", e.batch.toJson),
      ("item_count", .ofInt e.count.toNat), ("source_timestamp", Timestamp.toJson e.time)]
  | rebuild r => [("feed_id", r.feed.toJson), ("message_id", r.batch.toJson)]

def toJson (m : Message) : Value := .ofFields (("type", .ofString m.kind) :: m.fields)

end Message

/-! ## Reading -/

namespace Quote

def ofJson? (v : Value) : Option Quote := do
  let [some feed, some item, some price, some size, some side, some batch, some time] ←
    v.fields? ["feed_id", "item_id", "price", "size", "side", "message_id", "source_timestamp"]
    | none
  return ⟨← Feed.ofJson? feed, ← ItemId.ofJson? item, ← Price.ofJson? price, ← Size.ofJson? size,
    ← Side.ofJson? true side, ← BatchId.ofJson? batch, ← time.toInt64?⟩

end Quote

namespace Withdrawal

def ofJson? (v : Value) : Option Withdrawal := do
  let [some feed, some item, some side, some batch, some time] ←
    v.fields? ["feed_id", "item_id", "side", "message_id", "source_timestamp"] | none
  return ⟨← Feed.ofJson? feed, ← ItemId.ofJson? item, ← Side.ofJson? true side,
    ← BatchId.ofJson? batch, ← time.toInt64?⟩

end Withdrawal

namespace Trade

def ofJson? (v : Value) : Option Trade := do
  let [some feed, some price, some size, some side, some batch, some time] ←
    v.fields? ["feed_id", "price", "size", "side", "message_id", "source_timestamp"] | none
  return ⟨← Feed.ofJson? feed, ← Price.ofJson? price, ← Size.ofJson? size,
    ← Side.ofJson? true side, ← BatchId.ofJson? batch, ← time.toInt64?⟩

end Trade

namespace BatchEnd

def ofJson? (v : Value) : Option BatchEnd := do
  let [some feed, some batch, some count, some time] ←
    v.fields? ["feed_id", "message_id", "item_count", "source_timestamp"] | none
  return ⟨← Feed.ofJson? feed, ← BatchId.ofJson? batch, ← count.toUInt32?, ← time.toInt64?⟩

end BatchEnd

namespace Rebuild

def ofJson? (v : Value) : Option Rebuild := do
  let [some feed, some batch] ← v.fields? ["feed_id", "message_id"] | none
  return ⟨← Feed.ofJson? feed, ← BatchId.ofJson? batch⟩

end Rebuild

namespace Message

/-- The kinds, in the order of their positions. -/
def kinds : List String := ["PriceLevel", "Delete", "Trade", "EndUpdate", "NewSnapshot"]

/-- The kind that a tag names, or points at where positions count. -/
def kind? (positions : Bool) : Value → Option String
  | .str s => s
  | .num n =>
    if positions then do
      let i ← (Value.num n).toNatBelow? kinds.length
      kinds[i]?
    else none
  | _ => none

def ofTagged? (positions : Bool) (v : Value) : Option Message := do
  let (tag, body) ← v.untag? "type"
  match ← kind? positions tag with
  | "PriceLevel" => (Quote.ofJson? body).map quote
  | "Delete" => (Withdrawal.ofJson? body).map withdrawal
  | "Trade" => (Trade.ofJson? body).map trade
  | "EndUpdate" => (BatchEnd.ofJson? body).map batchEnd
  | "NewSnapshot" => (Rebuild.ofJson? body).map rebuild
  | _ => none

def ofJson? (enclosing : Nat) (v : Value) : Option Message :=
  if v.fits enclosing then ofTagged? false v else none

end Message

end QuoteBoard
