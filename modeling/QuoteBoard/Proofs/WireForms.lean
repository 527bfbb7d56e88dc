import QuoteBoard.Proofs.Records
import QuoteBoard.Wire.Replay
import QuoteBoard.Wire.Snapshot
import QuoteBoard.Wire.Update

/-!
# Wire forms read back

Each record has one lemma, `ofJson?_fields`, that reads it by reading its fields, whatever they are.
So the record survives because its fields do; only the sizes in it may get lost.
-/

namespace QuoteBoard

open Json Json.Value

/-! ## Identities, prices and sides -/

theorem natAbs_toInt_lt (x : Int64) : x.toInt.natAbs < UInt64.size := by
  have hlow := x.le_toInt
  have hhigh := x.toInt_lt
  have hsize : UInt64.size = 2 ^ 64 := rfl
  omega

namespace Feed

theorem ofJson?_fields (name number : Value) :
    ofJson? (.ofFields [("name", name), ("id", number)]) =
      (do return ⟨← name.toString?, ← number.toUInt32?⟩) := by
  simp [ofJson?, fields?_ofFields]

@[simp]
theorem legible_toJson (f : Feed) : f.toJson.Legible := by simp [toJson]

@[simp]
theorem sound_toJson (f : Feed) : f.toJson.sound = true := by
  have hnumber : ((f.number.toNat : Int)).natAbs < UInt64.size :=
    Nat.lt_trans f.number.toNat_lt_size (by decide)
  simp [toJson, sound_ofInt hnumber]

@[simp]
theorem depth_toJson (f : Feed) : f.toJson.depth = 1 := by simp [toJson]

@[simp]
theorem ofJson?_toJson (f : Feed) : ofJson? f.toJson = some f := by
  have hname : (ofString f.name).toString? = some f.name := rfl
  simp [toJson, ofJson?_fields, hname]

end Feed

namespace BatchId

@[simp]
theorem legible_toJson (b : BatchId) : b.toJson.Legible := legible_ofInt _

@[simp]
theorem sound_toJson (b : BatchId) : b.toJson.sound = true := sound_ofInt b.value.toNat_lt_size

@[simp]
theorem ofJson?_toJson (b : BatchId) : ofJson? b.toJson = some b := by simp [ofJson?, toJson]

end BatchId

namespace ItemId

@[simp]
theorem legible_toJson (i : ItemId) : i.toJson.Legible := legible_ofString _

@[simp]
theorem sound_toJson (i : ItemId) : i.toJson.sound = true := sound_ofString _

@[simp]
theorem ofJson?_toJson (i : ItemId) : ofJson? i.toJson = some i := rfl

end ItemId

namespace Price

@[simp]
theorem legible_toJson (p : Price) : p.toJson.Legible := legible_ofInt _

@[simp]
theorem sound_toJson (p : Price) : p.toJson.sound = true := sound_ofInt (natAbs_toInt_lt p.ticks)

@[simp]
theorem ofJson?_toJson (p : Price) : ofJson? p.toJson = some p := by simp [ofJson?, toJson]

end Price

namespace Side

@[simp]
theorem legible_toJson (s : Side) : s.toJson.Legible := legible_ofString _

@[simp]
theorem sound_toJson (s : Side) : s.toJson.sound = true := sound_ofString _

@[simp]
theorem ofJson?_toJson (tagged : Bool) (s : Side) : ofJson? tagged s.toJson = some s := by
  cases s <;> rfl

end Side

namespace Timestamp

@[simp]
theorem legible_toJson (t : Timestamp) : (toJson t).Legible := legible_ofInt _

@[simp]
theorem sound_toJson (t : Timestamp) : (toJson t).sound = true := sound_ofInt (natAbs_toInt_lt t)

@[simp]
theorem toInt64?_toJson (t : Timestamp) : (toJson t).toInt64? = some t := toInt64?_ofInt t

end Timestamp

namespace TrackNumber

@[simp]
theorem legible_toJson (n : TrackNumber) : n.toJson.Legible := legible_ofInt _

@[simp]
theorem sound_toJson (n : TrackNumber) : n.toJson.sound = true :=
  sound_ofInt (Nat.lt_trans n.value.toNat_lt_size (by decide))

@[simp]
theorem depth_toJson (n : TrackNumber) : n.toJson.depth = 0 := depth_ofInt _

@[simp]
theorem ofJson?_toJson (n : TrackNumber) : ofJson? n.toJson = some n := by simp [ofJson?, toJson]

end TrackNumber

namespace Capture

@[simp]
theorem legible_toJson (c : Capture) : c.toJson.Legible := legible_ofString _

@[simp]
theorem ofJson?_toJson (c : Capture) : ofJson? c.toJson = some c := by
  cases c <;> rfl

end Capture

/-! ## Messages -/

theorem Quote.ofJson?_fields (feed item price size side batch time : Value) :
    ofJson? (.ofFields [("feed_id", feed), ("item_id", item), ("price", price), ("size", size),
      ("side", side), ("message_id", batch), ("source_timestamp", time)]) =
      (do return ⟨← Feed.ofJson? feed, ← ItemId.ofJson? item, ← Price.ofJson? price,
        ← Size.ofJson? size, ← Side.ofJson? true side, ← BatchId.ofJson? batch,
        ← time.toInt64?⟩) := by
  simp [ofJson?, fields?_ofFields]

theorem Withdrawal.ofJson?_fields (feed item side batch time : Value) :
    ofJson? (.ofFields [("feed_id", feed), ("item_id", item), ("side", side),
      ("message_id", batch), ("source_timestamp", time)]) =
      (do return ⟨← Feed.ofJson? feed, ← ItemId.ofJson? item, ← Side.ofJson? true side,
        ← BatchId.ofJson? batch, ← time.toInt64?⟩) := by
  simp [ofJson?, fields?_ofFields]

theorem Trade.ofJson?_fields (feed price size side batch time : Value) :
    ofJson? (.ofFields [("feed_id", feed), ("price", price), ("size", size), ("side", side),
      ("message_id", batch), ("source_timestamp", time)]) =
      (do return ⟨← Feed.ofJson? feed, ← Price.ofJson? price, ← Size.ofJson? size,
        ← Side.ofJson? true side, ← BatchId.ofJson? batch, ← time.toInt64?⟩) := by
  simp [ofJson?, fields?_ofFields]

theorem BatchEnd.ofJson?_fields (feed batch count time : Value) :
    ofJson? (.ofFields [("feed_id", feed), ("message_id", batch), ("item_count", count),
      ("source_timestamp", time)]) =
      (do return ⟨← Feed.ofJson? feed, ← BatchId.ofJson? batch, ← count.toUInt32?,
        ← time.toInt64?⟩) := by
  simp [ofJson?, fields?_ofFields]

theorem Rebuild.ofJson?_fields (feed batch : Value) :
    ofJson? (.ofFields [("feed_id", feed), ("message_id", batch)]) =
      (do return ⟨← Feed.ofJson? feed, ← BatchId.ofJson? batch⟩) := by
  simp [ofJson?, fields?_ofFields]

namespace Message

def sizes : Message → Sizes
  | quote q => .within (.field "size") (.one q.size)
  | trade t => .within (.field "size") (.one t.size)
  | _ => []

variable {m : Message}

theorem sound_toJson (h : m.sizes.Faithful) : m.toJson.sound = true := by
  cases m with
  | quote q =>
    have hsize : q.size.Faithful := by simpa [sizes] using h
    simp [toJson, fields, hsize.sound_toJson]
  | withdrawal w => simp [toJson, fields]
  | trade t =>
    have hsize : t.size.Faithful := by simpa [sizes] using h
    simp [toJson, fields, hsize.sound_toJson]
  | batchEnd e =>
    have hcount : ((e.count.toNat : Int)).natAbs < UInt64.size :=
      Nat.lt_trans e.count.toNat_lt_size (by decide)
    simp [toJson, fields, sound_ofInt hcount]
  | rebuild r => simp [toJson, fields]

theorem depth_toJson (m : Message) : m.toJson.depth = 2 := by
  cases m <;> simp [toJson, fields, ItemId.toJson, Price.toJson, Size.toJson, Side.toJson,
    BatchId.toJson, Timestamp.toJson]

/-- What a tag makes of the fields beside it. -/
def body? (kind : String) (body : Value) : Option Message :=
  match kind with
  | "PriceLevel" => (Quote.ofJson? body).map quote
  | "Delete" => (Withdrawal.ofJson? body).map withdrawal
  | "Trade" => (Trade.ofJson? body).map trade
  | "EndUpdate" => (BatchEnd.ofJson? body).map batchEnd
  | "NewSnapshot" => (Rebuild.ofJson? body).map rebuild
  | _ => none

theorem ofTagged?_toJson (positions : Bool) (m : Message) :
    ofTagged? positions m.toJson = body? m.kind (.ofFields m.fields) := by
  have htag : "type" ∉ m.fields.map (·.1) := by cases m <;> simp [fields]
  have hkind : kind? positions (.ofString m.kind) = some m.kind := rfl
  rw [ofTagged?, toJson, untag?_ofFields htag]
  simp only [Option.bind_eq_bind, Option.bind_some, hkind]
  rfl

theorem survives_tagged (positions : Bool) (m : Message) :
    Survives m.toJson (ofTagged? positions) m.sizes m := by
  have hread := ofTagged?_toJson positions m
  cases m with
  | quote q =>
    have hsize := Survives.size q.size
    refine hsize.field ?_ ?_ ?_ (fun h => hread.trans ?_) (fun h => hread.trans ?_)
    · simp [fields]
    · simp [fields]
    · simp [fields, hsize.legible]
    · simp [body?, kind, fields, Quote.ofJson?_fields, h]
    · simp [body?, kind, fields, Quote.ofJson?_fields, h]
  | withdrawal w =>
    refine .plain ?_ (hread.trans ?_)
    · simp [toJson, fields]
    · simp [body?, kind, fields, Withdrawal.ofJson?_fields]
  | trade t =>
    have hsize := Survives.size t.size
    refine hsize.field ?_ ?_ ?_ (fun h => hread.trans ?_) (fun h => hread.trans ?_)
    · simp [fields]
    · simp [fields]
    · simp [fields, hsize.legible]
    · simp [body?, kind, fields, Trade.ofJson?_fields, h]
    · simp [body?, kind, fields, Trade.ofJson?_fields, h]
  | batchEnd e =>
    refine .plain ?_ (hread.trans ?_)
    · simp [toJson, fields]
    · simp [body?, kind, fields, BatchEnd.ofJson?_fields]
  | rebuild r =>
    refine .plain ?_ (hread.trans ?_)
    · simp [toJson, fields]
    · simp [body?, kind, fields, Rebuild.ofJson?_fields]

theorem survives {enclosing : Nat} (hdepth : enclosing + 2 ≤ maxDepth) (m : Message) :
    Survives m.toJson (ofJson? enclosing) m.sizes m := by
  refine (m.survives_tagged false).guarded fun h => ?_
  simp only [fits, sound_toJson h, depth_toJson, Bool.true_and, decide_eq_true_eq]
  omega

end Message

/-! ## Captured messages and play events -/

namespace Captured

def sizes (c : Captured) : Sizes := .within (.field "message") c.message.sizes

theorem ofJson?_fields (message capture : Value) :
    ofJson? (.ofFields [("message", message), ("update_type", capture)]) =
      (do return ⟨← Message.ofJson? 1 message, ← Capture.ofJson? capture⟩) := by
  simp [ofJson?, fields?_ofFields]

theorem survives (c : Captured) : Survives c.toJson ofJson? c.sizes c := by
  have hmessage : Survives c.message.toJson (Message.ofJson? 1) c.message.sizes c.message :=
    c.message.survives (by decide)
  refine hmessage.field ?_ ?_ ?_ (fun h => ?_) (fun h => ?_)
  · simp
  · simp
  · simp [hmessage.legible]
  · simp [ofJson?_fields, h]
  · simp [ofJson?_fields, h]

end Captured

namespace PlayEvent

def sizes : PlayEvent → Sizes
  | message _ m => .within (.field "message") m.sizes
  | _ => []

variable {e : PlayEvent}

theorem fits_toJson (h : e.sizes.Faithful) : e.toJson.fits 0 = true := by
  cases e with
  | started t => simp [fits, toJson, fields, maxDepth]
  | message t m =>
    have hm : m.sizes.Faithful := by simpa [sizes] using h
    simp [fits, toJson, fields, Message.sound_toJson hm, Message.depth_toJson, maxDepth]
  | stopped t => simp [fits, toJson, fields, maxDepth]

def body? (kind : String) (body : Value) : Option PlayEvent :=
  match kind with
  | "StartNotify" => do
    let [some t] ← body.fields? ["track"] | none
    return started (← TrackNumber.ofJson? t)
  | "Message" => do
    let [some t, some m] ← body.fields? ["track", "message"] | none
    return message (← TrackNumber.ofJson? t) (← Message.ofTagged? true m)
  | "StopPlaying" => do
    let [some t] ← body.fields? ["track"] | none
    return stopped (← TrackNumber.ofJson? t)
  | _ => none

def ofTagged? (v : Value) : Option PlayEvent := do
  let (tag, body) ← v.untag? "event"
  body? (← tag.toString?) body

theorem ofJson?_eq (v : Value) : ofJson? v = if v.fits 0 then ofTagged? v else none := by
  unfold ofJson?
  cases v.fits 0 <;> rfl

theorem ofTagged?_toJson (e : PlayEvent) :
    ofTagged? e.toJson = body? e.kind (.ofFields e.fields) := by
  have htag : "event" ∉ e.fields.map (·.1) := by cases e <;> simp [fields]
  rw [ofTagged?, toJson, untag?_ofFields htag]
  rfl

theorem body?_started (t : Value) :
    body? "StartNotify" (.ofFields [("track", t)]) =
      (do return started (← TrackNumber.ofJson? t)) := by
  simp [body?, fields?_ofFields]

theorem body?_message (t m : Value) :
    body? "Message" (.ofFields [("track", t), ("message", m)]) =
      (do return message (← TrackNumber.ofJson? t) (← Message.ofTagged? true m)) := by
  simp [body?, fields?_ofFields]

theorem body?_stopped (t : Value) :
    body? "StopPlaying" (.ofFields [("track", t)]) =
      (do return stopped (← TrackNumber.ofJson? t)) := by
  simp [body?, fields?_ofFields]

theorem survives_tagged (e : PlayEvent) : Survives e.toJson ofTagged? e.sizes e := by
  have hread := ofTagged?_toJson e
  cases e with
  | started t =>
    refine .plain ?_ (hread.trans ?_)
    · simp [toJson, fields]
    · simp [kind, fields, body?_started]
  | message t m =>
    have hm := m.survives_tagged true
    refine hm.field ?_ ?_ ?_ (fun h => hread.trans ?_) (fun h => hread.trans ?_)
    · simp [fields]
    · simp [fields]
    · simp [fields, hm.legible]
    · simp [kind, fields, body?_message, h]
    · simp [kind, fields, body?_message, h]
  | stopped t =>
    refine .plain ?_ (hread.trans ?_)
    · simp [toJson, fields]
    · simp [kind, fields, body?_stopped]

theorem survives (e : PlayEvent) : Survives e.toJson ofJson? e.sizes e := by
  rw [funext ofJson?_eq]
  exact e.survives_tagged.guarded fits_toJson

end PlayEvent

/-! ## Snapshots -/

namespace Level

def sizes (l : Level) : Sizes := .within (.field "size") (.one l.size)

theorem ofJson?_fields (item price size side batch time : Value) :
    ofJson? (.ofFields [("item_id", item), ("price", price), ("size", size), ("side", side),
      ("message_id", batch), ("source_timestamp", time)]) =
      (do return ⟨← ItemId.ofJson? item, ← Price.ofJson? price, ← Size.ofJson? size,
        ← Side.ofJson? false side, ← BatchId.ofJson? batch, ← time.toInt64?⟩) := by
  simp [ofJson?, fields?_ofFields]

theorem survives (l : Level) : Survives l.toJson ofJson? l.sizes l := by
  have hsize := Survives.size l.size
  refine hsize.field ?_ ?_ ?_ (fun h => ?_) (fun h => ?_)
  · simp
  · simp
  · simp [hsize.legible]
  · simp [ofJson?_fields, h]
  · simp [ofJson?_fields, h]

end Level

namespace Ranked

def sizes (r : Ranked) : Sizes := .within (.field "level") r.level.sizes

theorem ofJson?_fields (rank level : Value) :
    ofJson? (.ofFields [("rank", rank), ("level", level)]) =
      (do return ⟨← rank.toNatBelow? UInt64.size, ← Level.ofJson? level⟩) := by
  simp [ofJson?, fields?_ofFields]

theorem survives {r : Ranked} (hr : r.rank < UInt64.size) :
    Survives r.toJson ofJson? r.sizes r := by
  have hlevel := r.level.survives
  have hrank := toNatBelow?_ofInt hr
  refine hlevel.field ?_ ?_ ?_ (fun h => ?_) (fun h => ?_)
  · simp
  · simp
  · simp [hlevel.legible]
  · simp [ofJson?_fields, h, hrank]
  · simp [ofJson?_fields, h, hrank]

end Ranked

namespace LastTrade

def sizes (t : LastTrade) : Sizes := .within (.field "size") (.one t.size)

theorem ofJson?_fields (price size side batch time : Value) :
    ofJson? (.ofFields [("price", price), ("size", size), ("side", side), ("message_id", batch),
      ("source_timestamp", time)]) =
      (do return ⟨← Price.ofJson? price, ← Size.ofJson? size, ← Side.ofJson? false side,
        ← BatchId.ofJson? batch, ← time.toInt64?⟩) := by
  simp [ofJson?, fields?_ofFields]

theorem survives (t : LastTrade) : Survives t.toJson ofJson? t.sizes t := by
  have hsize := Survives.size t.size
  refine hsize.field ?_ ?_ ?_ (fun h => ?_) (fun h => ?_)
  · simp
  · simp
  · simp [hsize.legible]
  · simp [ofJson?_fields, h]
  · simp [ofJson?_fields, h]

end LastTrade

namespace View

def sizes (v : View) : Sizes :=
  .within (.field "levels") (.column Ranked.sizes v.levels) ++
    .within (.field "trade") ((v.trade.map LastTrade.sizes).getD [])

theorem ofJson?_fields (feed side levels trade time : Value) :
    ofJson? (.ofFields [("feed", feed), ("side", side), ("levels", levels), ("trade", trade),
      ("source_timestamp", time)]) =
      (do return ⟨← Feed.ofJson? feed, ← Side.ofJson? false side,
        ← levels.toList? Ranked.ofJson?, ← toOption? LastTrade.ofJson? (some trade),
        ← time.toInt64?⟩) := by
  simp [ofJson?, fields?_ofFields]

theorem survives {v : View} (hv : ∀ r ∈ v.levels, r.rank < UInt64.size) :
    Survives v.toJson ofJson? v.sizes v := by
  have hlevels := Survives.list fun r hr => Ranked.survives (hv r hr)
  have htrade := Survives.option (t := v.trade) (fun t _ => t.survives) fun t h => by cases h
  refine hlevels.twoFields htrade ?_ ?_ ?_ ?_ (fun h h' => ?_) (fun h => ?_)
  · simp
  · simp
  · simp
  · simp [hlevels.legible, htrade.legible]
  · simp [ofJson?_fields, h, h']
  · rcases h with h | h <;> simp [ofJson?_fields, h]

end View

namespace Snapshot

def sizes (s : Snapshot) : Sizes := .within (.field "view") s.view.sizes

theorem ofJson?_fields (batch full committedAt view : Value) :
    ofJson? (.ofFields [("id", batch), ("is_full_snapshot", full), ("committed_at", committedAt),
      ("view", view)]) =
      (do return ⟨← BatchId.ofJson? batch, ← full.toBool?, ← committedAt.toInt64?,
        ← View.ofJson? view⟩) := by
  simp [ofJson?, fields?_ofFields]

theorem survives {s : Snapshot} (hs : ∀ r ∈ s.view.levels, r.rank < UInt64.size) :
    Survives s.toJson ofJson? s.sizes s := by
  have hview := View.survives hs
  refine hview.field ?_ ?_ ?_ (fun h => ?_) (fun h => ?_)
  · simp
  · simp
  · simp [hview.legible]
  · simp [ofJson?_fields, toBool?, h]
  · simp [ofJson?_fields, toBool?, h]

end Snapshot

/-! ## Updates -/

namespace Update

def sizes (u : Update) : Sizes :=
  .within (.field "added_bid_sizes") (.column .one u.bidSizes) ++
    .within (.field "added_ask_sizes") (.column .one u.askSizes)

theorem ofJson?_fields (batch product bidItems bidPrices bidSizes askItems askPrices askSizes
    removed rebuilt : Value) :
    ofJson? (.ofFields [("message_id", batch), ("product_code", product),
      ("added_bid_ids", bidItems), ("added_bid_prices", bidPrices), ("added_bid_sizes", bidSizes),
      ("added_ask_ids", askItems), ("added_ask_prices", askPrices), ("added_ask_sizes", askSizes),
      ("deleted_ids", removed), ("is_new_snapshot", rebuilt)]) =
      (do return ⟨← BatchId.ofJson? batch, ← product.toString?, ← bidItems.toList? ItemId.ofJson?,
        ← bidPrices.toList? Price.ofJson?, ← bidSizes.toList? Size.ofJson?,
        ← askItems.toList? ItemId.ofJson?, ← askPrices.toList? Price.ofJson?,
        ← askSizes.toList? Size.ofJson?, ← removed.toList? ItemId.ofJson?,
        ← rebuilt.toBool?⟩) := by
  simp [ofJson?, fields?_ofFields]

theorem survives (u : Update) : Survives u.toJson ofJson? u.sizes u := by
  have hitems (l : List ItemId) : (arr (l.map ItemId.toJson)).toList? ItemId.ofJson? = some l :=
    toList?_map fun i _ => i.ofJson?_toJson
  have hprices (l : List Price) : (arr (l.map Price.toJson)).toList? Price.ofJson? = some l :=
    toList?_map fun p _ => p.ofJson?_toJson
  have hsizes (l : List Size) :
      Survives (.arr (l.map Size.toJson)) (toList? Size.ofJson?) (.column .one l) l :=
    Survives.list fun s _ => Survives.size s
  have hbids := hsizes u.bidSizes
  have hasks := hsizes u.askSizes
  have hproduct : (ofString u.product).toString? = some u.product := rfl
  refine hbids.twoFields hasks ?_ ?_ ?_ ?_ (fun h h' => ?_) (fun h => ?_)
  · simp
  · simp
  · simp
  · simp [hbids.legible, hasks.legible]
  · simp [ofJson?_fields, toBool?, hproduct, hitems, hprices, h, h']
  · rcases h with h | h <;> simp [ofJson?_fields, toBool?, hproduct, hitems, hprices, h]

end Update

end QuoteBoard
