import QuoteBoard.Snapshot
import QuoteBoard.Wire.Basic

/-!
# Wire form of views and snapshots

The last trade of a view may be null, and in an object it may be missing.
-/

namespace QuoteBoard

open Json (Value)

namespace Level

def toJson (l : Level) : Value :=
  .ofFields [("item_id", l.item.toJson), ("price", l.price.toJson), ("size", l.size.toJson),
    ("side", l.side.toJson), ("message_id", l.batch.toJson),
    ("source_timestamp", Timestamp.toJson l.time)]

def ofJson? (v : Value) : Option Level := do
  let [some item, some price, some size, some side, some batch, some time] ←
    v.fields? ["item_id", "price", "size", "side", "message_id", "source_timestamp"] | none
  return ⟨← ItemId.ofJson? item, ← Price.ofJson? price, ← Size.ofJson? size,
    ← Side.ofJson? false side, ← BatchId.ofJson? batch, ← time.toInt64?⟩

end Level

namespace Ranked

def toJson (r : Ranked) : Value := .ofFields [("rank", .ofInt r.rank), ("level", r.level.toJson)]

def ofJson? (v : Value) : Option Ranked := do
  let [some rank, some level] ← v.fields? ["rank", "level"] | none
  return ⟨← rank.toNatBelow? UInt64.size, ← Level.ofJson? level⟩

end Ranked

namespace LastTrade

def toJson (t : LastTrade) : Value :=
  .ofFields [("price", t.price.toJson), ("size", t.size.toJson), ("side", t.side.toJson),
    ("message_id", t.batch.toJson), ("source_timestamp", Timestamp.toJson t.time)]

def ofJson? (v : Value) : Option LastTrade := do
  let [some price, some size, some side, some batch, some time] ←
    v.fields? ["price", "size", "side", "message_id", "source_timestamp"] | none
  return ⟨← Price.ofJson? price, ← Size.ofJson? size, ← Side.ofJson? false side,
    ← BatchId.ofJson? batch, ← time.toInt64?⟩

end LastTrade

namespace View

def toJson (v : View) : Value :=
  .ofFields [("feed", v.feed.toJson), ("side", v.side.toJson),
    ("levels", .arr (v.levels.map Ranked.toJson)),
    ("trade", (v.trade.map LastTrade.toJson).getD .null),
    ("source_timestamp", Timestamp.toJson v.time)]

def ofJson? (v : Value) : Option View := do
  let [some feed, some side, some levels, trade, some time] ←
    v.fields? ["feed", "side", "levels", "trade", "source_timestamp"] | none
  return ⟨← Feed.ofJson? feed, ← Side.ofJson? false side, ← levels.toList? Ranked.ofJson?,
    ← Value.toOption? LastTrade.ofJson? trade, ← time.toInt64?⟩

end View

namespace Snapshot

def toJson (s : Snapshot) : Value :=
  .ofFields [("id", s.batch.toJson), ("is_full_snapshot", .bool s.full),
    ("committed_at", Timestamp.toJson s.committedAt), ("view", s.view.toJson)]

def ofJson? (v : Value) : Option Snapshot := do
  let [some batch, some full, some committedAt, some view] ←
    v.fields? ["id", "is_full_snapshot", "committed_at", "view"] | none
  return ⟨← BatchId.ofJson? batch, ← full.toBool?, ← committedAt.toInt64?, ← View.ofJson? view⟩

end Snapshot

end QuoteBoard
