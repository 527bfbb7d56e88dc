import QuoteBoard.Update
import QuoteBoard.Wire.Basic

/-!
# Wire form of incremental updates
-/

namespace QuoteBoard.Update

open Json (Value)

def toJson (u : Update) : Value :=
  .ofFields [("message_id", u.batch.toJson), ("product_code", .ofString u.product),
    ("added_bid_ids", .arr (u.bidItems.map ItemId.toJson)),
    ("added_bid_prices", .arr (u.bidPrices.map Price.toJson)),
    ("added_bid_sizes", .arr (u.bidSizes.map Size.toJson)),
    ("added_ask_ids", .arr (u.askItems.map ItemId.toJson)),
    ("added_ask_prices", .arr (u.askPrices.map Price.toJson)),
    ("added_ask_sizes", .arr (u.askSizes.map Size.toJson)),
    ("deleted_ids", .arr (u.removed.map ItemId.toJson)), ("is_new_snapshot", .bool u.rebuilt)]

def ofJson? (v : Value) : Option Update := do
  let [some batch, some product, some bidItems, some bidPrices, some bidSizes, some askItems,
      some askPrices, some askSizes, some removed, some rebuilt] ←
    v.fields? ["message_id", "product_code", "added_bid_ids", "added_bid_prices",
      "added_bid_sizes", "added_ask_ids", "added_ask_prices", "added_ask_sizes", "deleted_ids",
      "is_new_snapshot"] | none
  return ⟨← BatchId.ofJson? batch, ← product.toString?, ← bidItems.toList? ItemId.ofJson?,
    ← bidPrices.toList? Price.ofJson?, ← bidSizes.toList? Size.ofJson?,
    ← askItems.toList? ItemId.ofJson?, ← askPrices.toList? Price.ofJson?,
    ← askSizes.toList? Size.ofJson?, ← removed.toList? ItemId.ofJson?, ← rebuilt.toBool?⟩

end QuoteBoard.Update
