import Mathlib.Data.List.Chain
import QuoteBoard.Proofs.Turns

/-!
# A replay gives back the stream that was captured

A capture keeps the items of a stream and nothing else of it: the marks, the ends, their counts and
their times are gone. As long as two batches in a row have different ids a framer puts all of them
back (`Framer.frame_captured`), so a pass that is not cancelled plays the stream itself
(`messages_of_playback`).
-/

namespace QuoteBoard

/-- A batch of a feed: items that share its id, with what its end says of them. -/
structure Batch (f : Feed) where
  id : BatchId
  rebuilt : Bool
  items : List Message
  count : UInt32
  time : Timestamp
  some_item : items ≠ []
  mine : ∀ m ∈ items, m.isItem ∧ m.feed = f ∧ m.batch = id
  counted : count.toNat = items.length
  timed : (items.getLast some_item).time? = some time

namespace Batch

variable {f : Feed} (b : Batch f)

def marks : List Message := if b.rebuilt then [.rebuild ⟨f, b.id⟩] else []

def last : Message := .batchEnd ⟨f, b.id, b.count, b.time⟩

def live : List Message := b.marks ++ b.items ++ [b.last]

def captured : List Captured :=
  b.items.map fun m => ⟨m, if b.rebuilt then .snapshot else .incremental⟩

/-- The batch as a framer has it open after the items `ms`. -/
def opened (ms : List Message) : OpenBatch where
  batch := b.id
  rebuilt := b.rebuilt
  feeds := [(f, UInt32.ofNat ms.length)]
  time := (ms.getLast?.bind Message.time?).getD 0

end Batch

/-! ## Framing a captured batch -/

theorem Message.time?_isSome {m : Message} (h : m.isItem) : m.time?.isSome := by
  cases m <;> first | rfl | cases h

namespace Framer

variable {f : Feed} {b : Batch f}

theorem push_first {fr : Framer} (hfr : ∀ o, fr.opened = some o → o.batch ≠ b.id) {m : Message}
    (hm : m ∈ b.items) {c : Capture} (hc : c = if b.rebuilt then .snapshot else .incremental) :
    fr.push ⟨m, c⟩ = (⟨some (b.opened [m])⟩, fr.close ++ b.marks ++ [m]) := by
  obtain ⟨hitem, hfeed, hbatch⟩ := b.mine m hm
  have hbatchOf : fr.batchOf ⟨m, c⟩ = ⟨b.id, b.rebuilt, [], 0⟩ := by
    unfold batchOf
    have hkind : decide (c = .snapshot) = b.rebuilt := by
      rw [hc]
      cases b.rebuilt <;> rfl
    cases ho : fr.opened with
    | none => simp [hbatch, hkind]
    | some o => simp [hbatch, hfr o ho, hkind]
  have hends : fr.endsBefore ⟨m, c⟩ = fr.close := by
    unfold endsBefore close
    cases ho : fr.opened with
    | none => rfl
    | some o => simp [hbatch, hfr o ho]
  simp only [push, hitem, if_true, hbatchOf, hends]
  simp [OpenBatch.add, OpenBatch.countItem, OpenBatch.marks, OpenBatch.hasFeed, Batch.opened,
    Batch.marks, hfeed]

theorem push_more {ms : List Message} {m : Message} (hm : m ∈ b.items) (c : Capture) :
    push ⟨some (b.opened ms)⟩ ⟨m, c⟩ = (⟨some (b.opened (ms ++ [m]))⟩, [m]) := by
  obtain ⟨hitem, hfeed, hbatch⟩ := b.mine m hm
  obtain ⟨t, ht⟩ := Option.isSome_iff_exists.mp (Message.time?_isSome hitem)
  simp only [push, hitem, if_true]
  simp [batchOf, endsBefore, OpenBatch.add, OpenBatch.countItem, OpenBatch.marks, OpenBatch.hasFeed,
    Batch.opened, hfeed, hbatch, ht]

theorem pushAll_captured (b : Batch f) {fr : Framer}
    (hfr : ∀ o, fr.opened = some o → o.batch ≠ b.id) :
    fr.pushAll b.captured = (⟨some (b.opened b.items)⟩, fr.close ++ b.marks ++ b.items) := by
  have hmore : ∀ ms ns, (∀ m ∈ ns, m ∈ b.items) →
      pushAll ⟨some (b.opened ms)⟩
          (ns.map fun m => ⟨m, if b.rebuilt then .snapshot else .incremental⟩) =
        (⟨some (b.opened (ms ++ ns))⟩, ns) := by
    intro ms ns hns
    induction ns generalizing ms with
    | nil => simp [pushAll]
    | cons m ns ih =>
      have hrest := ih (ms ++ [m]) fun x hx => hns x (List.mem_cons_of_mem _ hx)
      simp only [List.map_cons, pushAll, push_more (hns m (List.mem_cons_self ..)), hrest]
      simp
  obtain ⟨m, ms, hitems⟩ := List.exists_cons_of_ne_nil b.some_item
  have hall : ∀ x ∈ m :: ms, x ∈ b.items := fun x hx => hitems ▸ hx
  have hfirst := push_first hfr (hall m (List.mem_cons_self ..)) rfl
  have hrest := hmore [m] ms fun x hx => hall x (List.mem_cons_of_mem _ hx)
  rw [Batch.captured, hitems, List.map_cons]
  simp only [pushAll, hfirst, hrest]
  simp

theorem close_opened (b : Batch f) : close ⟨some (b.opened b.items)⟩ = [b.last] := by
  have htime : (b.items.getLast?.bind Message.time?).getD 0 = b.time := by
    rw [List.getLast?_eq_some_getLast b.some_item, Option.bind_some, b.timed]
    rfl
  have hcount : UInt32.ofNat b.items.length = b.count := by
    rw [← b.counted, UInt32.ofNat_toNat]
  simp [close, OpenBatch.ends, Batch.opened, htime, hcount, Batch.last]

/-- Framing is the inverse of capturing, when no two batches in a row have the same id. -/
theorem frame_captured {bs : List (Batch f)} (hbs : bs.IsChain fun a b => a.id ≠ b.id) :
    frame (bs.flatMap (·.captured)) = bs.flatMap (·.live) := by
  -- with any batch open that is not the first one
  suffices h : ∀ fr : Framer, (∀ o b, fr.opened = some o → bs.head? = some b → o.batch ≠ b.id) →
      (fr.pushAll (bs.flatMap (·.captured))).2 ++
        (fr.pushAll (bs.flatMap (·.captured))).1.close = fr.close ++ bs.flatMap (·.live) from
    h {} fun o b ho => by cases ho
  induction bs with
  | nil => exact fun fr _ => by simp [pushAll]
  | cons b bs ih =>
    intro fr hfr
    have hb := pushAll_captured b fun o ho => hfr o b ho rfl
    obtain ⟨hhead, htail⟩ := List.isChain_cons.mp hbs
    have hrest := ih htail ⟨some (b.opened b.items)⟩ (by
      intro o b' ho hb'
      cases ho
      exact hhead b' hb')
    rw [List.flatMap_cons, List.flatMap_cons, pushAll_append, hb]
    simp only [List.append_assoc]
    rw [hrest, close_opened]
    simp [Batch.live]

end Framer

/-! ## Playing a captured stream -/

namespace Pass

def messages (es : List PlayEvent) : List Message := es.filterMap PlayEvent.message?

theorem session_of_captured {f : Feed} {bs : List (Batch f)} {s : Store} {t : Track}
    (hstored : s.sessions[t.context]? = some (bs.flatMap (·.captured)))
    (hfeeds : t.feeds = [] ∨ f ∈ t.feeds) (hrange : t.range = none) :
    (session (some s) t).1 = bs.flatMap (·.captured) := by
  have hselected : ∀ c ∈ bs.flatMap (·.captured), c.message.isSelected t.feeds t.range = true := by
    intro c hc
    obtain ⟨b, _, hc⟩ := List.mem_flatMap.mp hc
    obtain ⟨m, hm, rfl⟩ := List.mem_map.mp hc
    obtain ⟨_, hfeed, _⟩ := b.mine m hm
    simp only [Message.isSelected, hrange, hfeed]
    rcases hfeeds with hnone | hmem
    · simp [hnone]
    · simp [hmem]
  simp only [session, Track.load, Store.load, hstored]
  exact List.filter_eq_self.mpr hselected

theorem messages_map (n : TrackNumber) (ms : List Message) :
    messages (ms.map (.message n)) = ms := by
  rw [messages, List.filterMap_map]
  exact List.filterMap_some

/-- The stream of a feed is captured, stored under the context of a track that selects the feed, and
played by a pass, a turn at a time. The pass takes at most one turn more than it has captured
messages. When it is not cancelled it does not end short, and when it does not end short, the
messages that it has played at its end are the stream. -/
theorem messages_of_playback {f : Feed} {bs : List (Batch f)}
    (hbs : bs.IsChain fun a b => a.id ≠ b.id) {s : Store} {q : Pass} (hnew : q.rest = none)
    (hframer : q.framer = {})
    (hstored : s.sessions[q.task.track.context]? = some (bs.flatMap (·.captured)))
    (hfeeds : q.task.track.feeds = [] ∨ f ∈ q.task.track.feeds) (hrange : q.task.track.range = none)
    {turns : Nat} {cancelled : Bool} {es : List PlayEvent} {e : TurnEnd}
    (h : q.Playback (some s) turns cancelled es e) :
    (∀ r, e = .paused r → turns ≤ (bs.flatMap (·.items)).length) ∧
      ∀ sent short, e = .ended sent short →
        (cancelled = false → short = false) ∧ (short = false → messages es = bs.flatMap (·.live)) := by
  have hsession := session_of_captured hstored hfeeds hrange
  have hreach := h.reaches hnew hframer
  rw [hsession] at hreach
  constructor
  · rintro r rfl
    obtain ⟨_, done, rest, hcs, hturns, _⟩ := hreach
    have hlen : (bs.flatMap (·.items)).length = (bs.flatMap (·.captured)).length := by
      simp [List.length_flatMap, Batch.captured]
    rw [hlen, hcs, List.length_append]
    omega
  · rintro sent short rfl
    obtain ⟨hcancelled, done, rest, hcs, hall, hes⟩ := hreach
    refine ⟨fun hlive => by simpa [hlive] using hcancelled, fun hfull => ?_⟩
    rw [hall hfull, List.append_nil] at hcs
    rw [hes, ← hcs, Framer.frame_captured hbs]
    simp only [messages, List.filterMap_append, List.filterMap_cons, PlayEvent.message?]
    exact (List.append_nil _).trans (messages_map q.number _)

def sampleFeed : Feed := ⟨"XYZ", 1⟩

def sampleStream : List (Batch sampleFeed) :=
  [{ id := ⟨1⟩
     rebuilt := true
     items := [.quote ⟨sampleFeed, ⟨"a"⟩, ⟨100⟩, ⟨1⟩, .bid, ⟨1⟩, 1⟩,
       .quote ⟨sampleFeed, ⟨"b"⟩, ⟨101⟩, ⟨1⟩, .offer, ⟨1⟩, 2⟩]
     count := 2
     time := 2
     some_item := by simp
     mine := by decide
     counted := rfl
     timed := rfl },
   { id := ⟨2⟩
     rebuilt := false
     items := [.trade ⟨sampleFeed, ⟨101⟩, ⟨1⟩, .bid, ⟨2⟩, 3⟩]
     count := 1
     time := 3
     some_item := by simp
     mine := by decide
     counted := rfl
     timed := rfl }]

def samplePass : Pass :=
  { id := 0, task := { track := { number := ⟨1⟩, context := "day" } }, generation := 1, ready := 0
    latencyDue := false }

def sampleStore : Store := Store.empty.insert "day" (sampleStream.flatMap (·.captured))

theorem messages_of_playback_sample :
    ∃ es, samplePass.Playback (some sampleStore) 1 false es (.ended 6 false) ∧
      messages es = sampleStream.flatMap (·.live) := by
  have hstored : sampleStore.sessions["day"]? = some (sampleStream.flatMap (·.captured)) :=
    Std.TreeMap.getElem?_insert_self
  have hended : (samplePass.turn (some sampleStore) false).2 = .ended 6 false := by
    simp only [turn, samplePass, session, Track.load, Store.load, hstored]
    decide
  have hplay : samplePass.Playback (some sampleStore) 1 false _ _ := Playback.first false
  rw [hended] at hplay
  have hids : sampleStream.IsChain fun a b => a.id ≠ b.id := by simp [sampleStream]
  obtain ⟨_, hend⟩ := messages_of_playback hids rfl rfl hstored (Or.inl rfl) rfl hplay
  obtain ⟨hlive, hplayed⟩ := hend 6 false rfl
  exact ⟨_, hplay, hplayed (hlive rfl)⟩

end Pass

end QuoteBoard
