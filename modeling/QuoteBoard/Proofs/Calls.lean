import QuoteBoard.Proofs.Outcomes

/-!
# Calls of a board

A board is called to register consumers and to dispatch messages, in any order. A dispatch is a row
of deliveries: one consumer after the other takes the message, each on the board that the one before
it left (`deliveriesTo`). What the calls let be seen, their reports and their deliveries are lists in
the order of the calls.
-/

namespace QuoteBoard

inductive Call where
  | register (c : Consumer)
  | dispatch (m : Message)
  deriving DecidableEq

namespace Call

def message? : Call → Option Message
  | register _ => none
  | dispatch m => some m

end Call

/-- A consumer takes a message, on the board as it finds it. -/
structure Delivery where
  board : Board
  message : Message
  consumer : Consumer

namespace Delivery

def events (d : Delivery) : List BoardEvent := (d.board.consume d.message d.consumer).2.1

def answer (d : Delivery) : Option Failure := (d.board.consume d.message d.consumer).2.2

end Delivery

/-- The update that an engine has to offer when a message comes to a side. -/
def Engine.update? (e : Engine) (s : Side) (m : Message) : Option Update :=
  if m.feed = e.feed s then (e.absorb s m).2 else none

def BoardEvent.tally? : BoardEvent → Option Tally
  | tallied t => some t
  | _ => none

theorem Sheet.feed_heed (x : Sheet) (m : Message) : (x.heed m).feed = x.feed := by
  cases m with
  | quote q =>
    simp only [heed]
    split
    · by_cases hq : q.feed = x.feed ∧ q.side = x.side
      · rw [quote_eq hq]
        split <;> rfl
      · rw [quote_of_refused hq]
    · rfl
  | withdrawal w =>
    simp only [heed]
    split
    · by_cases hw : w.feed = x.feed ∧ w.side = x.side
      · rw [withdraw_eq hw]
        split <;> rfl
      · rw [withdraw_of_refused hw]
    · rfl
  | trade t =>
    by_cases ht : t.feed = x.feed
    · rw [heed, tradeDone_of_accepted ht]
      rfl
    · rw [heed, tradeDone_of_refused ht]
  | rebuild r => rfl
  | batchEnd e =>
    obtain ⟨m, r, hsettle⟩ := x.settle_eq e.batch e.time
    simp only [heed, hsettle]
    split <;> rfl

theorem Cache.feed_consume (c : Cache) (m : Message) : (c.consume m).1.sheet.feed = c.sheet.feed := by
  rw [sheet_consume, Sheet.feed_heed]

theorem Engine.feed_handle (e : Engine) (s t : Side) (m : Message) :
    (e.handle s m).1.feed t = e.feed t := by
  by_cases hm : m.feed = e.feed s
  · rw [(handle_eq hm).1]
    rfl
  · rw [handle, if_neg hm]

namespace Board

/-- What is wrong with the batch id of a message, on a board that checks the ids. -/
def verdict (b : Board) (m : Message) : Option Inconsistency :=
  if b.checkOrder then (b.checkBatch m).2 else none

def call (b : Board) : Call → Board
  | .register c => b.register c
  | .dispatch m => (b.dispatch m).1

def callAll (b : Board) (cs : List Call) : Board := cs.foldl call b

def deliveriesTo (m : Message) : List Consumer → Board → List Delivery
  | [], _ => []
  | c :: cs, b => ⟨b, m, c⟩ :: deliveriesTo m cs (b.consume m c).1

def deliveriesOf (b : Board) : Call → List Delivery
  | .register _ => []
  | .dispatch m => deliveriesTo m (b.consumers m.feed) (b.note m)

/-- What a list over calls is made of, each call on the board that the earlier ones left. -/
def overCalls {α : Type} (f : Board → Call → List α) : Board → List Call → List α
  | _, [] => []
  | b, c :: cs => f b c ++ overCalls f (b.call c) cs

def deliveries (b : Board) (cs : List Call) : List Delivery := overCalls deliveriesOf b cs

def seenOf (b : Board) : Call → List BoardEvent
  | .register _ => []
  | .dispatch m => (b.dispatch m).2.1

def seen (b : Board) (cs : List Call) : List BoardEvent := overCalls seenOf b cs

def reportOf (b : Board) : Call → List Report
  | .register _ => []
  | .dispatch m => [(b.dispatch m).2.2]

def reports (b : Board) (cs : List Call) : List Report := overCalls reportOf b cs

theorem overCalls_cons {α : Type} (f : Board → Call → List α) (b : Board) (c : Call) (cs : List Call) :
    overCalls f b (c :: cs) = f b c ++ overCalls f (b.call c) cs := rfl

theorem overCalls_append {α : Type} (f : Board → Call → List α) (b : Board) (cs ds : List Call) :
    overCalls f b (cs ++ ds) = overCalls f b cs ++ overCalls f (b.callAll cs) ds := by
  induction cs generalizing b with
  | nil => rfl
  | cons c cs ih =>
    rw [List.cons_append, overCalls_cons, overCalls_cons, ih, List.append_assoc]
    rfl

theorem apply_overCalls {α β : Type} {g : List α → List β} (hnil : g [] = [])
    (happend : ∀ as bs, g (as ++ bs) = g as ++ g bs) (f : Board → Call → List α) (b : Board)
    (cs : List Call) : g (overCalls f b cs) = overCalls (fun b c => g (f b c)) b cs := by
  induction cs generalizing b with
  | nil => exact hnil
  | cons c cs ih => rw [overCalls_cons, overCalls_cons, happend, ih]

/-! ## Counts -/

def tallies (es : List BoardEvent) : List Tally := es.filterMap BoardEvent.tally?

theorem tallies_append (es fs : List BoardEvent) : tallies (es ++ fs) = tallies es ++ tallies fs :=
  List.filterMap_append

theorem countAll_eq_recordAll (b : Board) (es : List BoardEvent) :
    b.countAll es = { b with activity := b.activity.map fun c => c.recordAll (tallies es) } := by
  induction es generalizing b with
  | nil => cases b with | mk _ _ _ _ _ _ a => cases a <;> rfl
  | cons e es ih =>
    cases e with
    | tallied t =>
      rw [countAll, ih]
      simp only [count, Option.map_map]
      rfl
    | _ => exact ih b

/-! ## Feeds of the consumers -/

/-- Every consumer stands under the feed that it takes. -/
def Routed (b : Board) : Prop := ∀ r ∈ b.routes, b.feedOf? r.2 = some r.1

theorem feedOf?_consume (b : Board) (m : Message) (c d : Consumer) :
    (b.consume m c).1.feedOf? d = b.feedOf? d := by
  cases c with
  | cache i =>
    cases d with
    | cache j =>
      simp only [feedOf?]
      rw [caches_consume_cache]
      split
      · cases b.caches[j]? <;> simp [Cache.feed_consume]
      · rfl
    | handler j s => simp only [feedOf?, engines_consume_cache]
  | handler i s =>
    cases d with
    | cache j => simp only [feedOf?, caches_consume_handler]
    | handler j t =>
      simp only [feedOf?]
      rw [engines_consume_handler]
      split
      · cases b.engines[j]? <;> simp [Engine.feed_handle]
      · rfl

theorem feedOf?_deliver (m : Message) (cs : List Consumer) (b : Board) (d : Consumer) :
    (deliver m cs b).1.feedOf? d = b.feedOf? d := by
  induction cs generalizing b with
  | nil => rfl
  | cons c cs ih => rw [(deliver_cons m c cs b 0).1, ih, feedOf?_consume]

theorem feedOf?_note (b : Board) (m : Message) (d : Consumer) : (b.note m).feedOf? d = b.feedOf? d := by
  cases d <;> simp [feedOf?]

theorem feedOf?_call (b : Board) (c : Call) (d : Consumer) : (b.call c).feedOf? d = b.feedOf? d := by
  cases c with
  | register c =>
    simp only [call, register]
    cases b.feedOf? c <;> rfl
  | dispatch m => rw [call, dispatch_fst, feedOf?_deliver, feedOf?_note]

theorem Routed.call {b : Board} (h : b.Routed) (c : Call) : (b.call c).Routed := by
  intro r hr
  rw [feedOf?_call]
  cases c with
  | register c =>
    simp only [Board.call, register] at hr
    cases hf : b.feedOf? c with
    | none =>
      rw [hf] at hr
      exact h r hr
    | some f =>
      rw [hf] at hr
      rcases List.mem_append.mp hr with hr | hr
      · exact h r hr
      · rw [List.mem_singleton.mp hr]
        exact hf
  | dispatch m =>
    rw [Board.call, dispatch_fst, routes_deliver, routes_note] at hr
    exact h r hr

theorem Routed.feedOf? {b : Board} (h : b.Routed) {f : Feed} {c : Consumer} (hc : c ∈ b.consumers f) :
    b.feedOf? c = some f := by
  obtain ⟨r, hr, rfl⟩ := List.mem_map.mp hc
  obtain ⟨hr, hf⟩ := List.mem_filter.mp hr
  rw [h r hr, of_decide_eq_true hf]

/-! ## A dispatch -/

theorem counts_note (b : Board) (m : Message) :
    (b.note m).traffic = b.traffic.record (.dispatch (b.verdict m).isSome) ∧
      (b.note m).activity = b.activity := by
  unfold note verdict
  by_cases hc : b.checkOrder = true
  · obtain ⟨l, h⟩ := b.checkBatch_eq m
    simp only [hc, if_true, h, and_self]
  · rw [if_neg hc, if_neg hc]
    exact ⟨rfl, rfl⟩

theorem seen_dispatch (b : Board) (m : Message) :
    (b.dispatch m).2.1 = .tallied (.dispatch (b.verdict m).isSome) ::
      (b.verdict m).toList.map (fun why => .logged (.outOfOrder why)) ++
        (deliver m (b.consumers m.feed) (b.note m)).2.1 := by
  have hverdict : b.verdict m = (if b.checkOrder then b.checkBatch m else (b, none)).2 := by
    unfold verdict
    split <;> rfl
  rw [hverdict, ← consumers_note b m]
  rfl

theorem answersOf_eq (m : Message) (cs : List Consumer) (b : Board) :
    answersOf m cs b = (deliveriesTo m cs b).map Delivery.answer := by
  induction cs generalizing b with
  | nil => rfl
  | cons c cs ih =>
    rw [answersOf, ih]
    rfl

theorem report_dispatch (b : Board) (m : Message) :
    (b.dispatch m).2.2 = ⟨(b.answers m).countP Option.isNone, (b.answers m).reduceOption⟩ := by
  rw [← (servesAll b m).delivered, ← (servesAll b m).errors]

theorem errors_dispatch (b : Board) (m : Message) :
    (b.dispatch m).2.2.errors = (b.deliveriesOf (.dispatch m)).filterMap Delivery.answer := by
  rw [(servesAll b m).errors, answers, answersOf_eq, List.reduceOption, List.filterMap_map]
  rfl

end Board

end QuoteBoard
