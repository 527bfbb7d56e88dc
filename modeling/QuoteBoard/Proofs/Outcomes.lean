import Mathlib.Data.List.ReduceOption
import QuoteBoard.Proofs.BatchNotices
import QuoteBoard.Proofs.Delivery
import QuoteBoard.Proofs.TwoFeeds

/-!
# Failures change nothing

A muted board has no listeners, and its publishers take every update. Whatever listeners and
publishers answer, a board does with a message what it does muted (`muted_dispatch`), so two runs of
a board under different answers (`Outcomes`) end alike. A failure does not cut a dispatch short
either: every consumer of the feed takes the message and is in the report (`servesAll`). The main
statement is `state_of_outcomes`.
-/

namespace QuoteBoard

/-! ## Muting -/

def Cache.muted (c : Cache) : Cache := ⟨c.sheet, []⟩

def Engine.muted (e : Engine) : Engine :=
  { e with publisher := { Publisher.openChannel with offered := e.publisher.offered } }

theorem Cache.consume_muted (c : Cache) (m : Message) : (c.muted.consume m).1 = (c.consume m).1.muted := by
  have hsheet : (c.muted.consume m).1.sheet = (c.consume m).1.sheet := by
    rw [sheet_consume, sheet_consume]
    rfl
  have hnobody : (c.muted.consume m).1.listeners = [] := by
    have hanswers := c.muted.answers_consume m
    exact List.map_eq_nil_iff.mp (hanswers.trans rfl)
  generalize (c.muted.consume m).1 = d at hsheet hnobody
  cases d
  cases hsheet
  cases hnobody
  rfl

theorem Engine.handle_muted (e : Engine) (s : Side) (m : Message) :
    (e.muted.handle s m).1 = (e.handle s m).1.muted := by
  by_cases hm : m.feed = e.feed s
  · have hmuted : m.feed = e.muted.feed s := hm
    have habsorb : e.muted.absorb s m = e.absorb s m := by cases m <;> rfl
    rw [(handle_eq hm).1, (handle_eq hmuted).1, habsorb]
    rfl
  · have hmuted : ¬ m.feed = e.muted.feed s := hm
    unfold handle
    rw [if_neg hm, if_neg hmuted]

namespace Board

def muted (b : Board) : Board :=
  { b with caches := b.caches.map Cache.muted, engines := b.engines.map Engine.muted, activity := none }

section
variable (b : Board)

theorem countAll_muted (es : List BoardEvent) : b.muted.countAll es = b.muted := by
  induction es with
  | nil => rfl
  | cons e es ih => cases e <;> exact ih

theorem muted_countAll (es : List BoardEvent) : (b.countAll es).muted = b.muted := by
  obtain ⟨a, h⟩ := b.countAll_eq es
  rw [h]
  rfl

theorem muted_consume (m : Message) (c : Consumer) :
    (b.consume m c).1.muted = (b.muted.consume m c).1 := by
  cases c with
  | cache i =>
    have hcache : b.muted.caches[i]? = b.caches[i]?.map Cache.muted := by simp [muted]
    simp only [consume, consumeBy, hcache]
    cases b.caches[i]? with
    | none => rfl
    | some c =>
      have hset : { b.muted with caches := b.muted.caches.set i (c.muted.consume m).1 } =
          ({ b with caches := b.caches.set i (c.consume m).1 } : Board).muted := by
        simp [muted, List.map_set, Cache.consume_muted]
      simp only [Option.map_some, muted_countAll, hset, countAll_muted]
  | handler i s =>
    have hengine : b.muted.engines[i]? = b.engines[i]?.map Engine.muted := by simp [muted]
    simp only [consume, handle, hengine]
    cases b.engines[i]? with
    | none => rfl
    | some e =>
      have hset : { b.muted with engines := b.muted.engines.set i (e.muted.handle s m).1 } =
          ({ b with engines := b.engines.set i (e.handle s m).1 } : Board).muted := by
        simp [muted, List.map_set, Engine.handle_muted]
      simp only [Option.map_some, muted_countAll, hset, countAll_muted]

theorem muted_deliver (m : Message) (cs : List Consumer) :
    (deliver m cs b).1.muted = (deliver m cs b.muted).1 := by
  induction cs generalizing b with
  | nil => rfl
  | cons c cs ih => rw [(deliver_cons m c cs b 0).1, (deliver_cons m c cs b.muted 0).1, ih, muted_consume]

theorem muted_note (m : Message) : (b.note m).muted = b.muted.note m := by
  have hcheck : b.muted.checkBatch m = ((b.checkBatch m).1.muted, (b.checkBatch m).2) := by
    have hlast : b.muted.last[m.feed]? = b.last[m.feed]? := rfl
    unfold checkBatch
    rw [hlast]
    cases b.last[m.feed]? with
    | none => rfl
    | some last => by_cases h : m.batch < last <;> simp [h, muted]
  unfold note
  rw [hcheck]
  by_cases hc : b.checkOrder = true
  · have hmuted : b.muted.checkOrder = true := hc
    rw [if_pos hc, if_pos hmuted]
    rfl
  · have hmuted : ¬ b.muted.checkOrder = true := hc
    rw [if_neg hc, if_neg hmuted]
    rfl

theorem muted_dispatch (m : Message) : (b.dispatch m).1.muted = (b.muted.dispatch m).1 := by
  rw [dispatch_fst, dispatch_fst, muted_deliver, muted_note]
  rfl

theorem muted_run (ms : List Message) : (b.run ms).1.muted = (b.muted.run ms).1 := by
  induction ms using List.reverseRecOn with
  | nil => rfl
  | append_singleton ms m ih => rw [run_snoc, run_snoc, muted_dispatch, ih]

end

/-! ## Every consumer is served -/

/-- What consumers that take a message in turn answer. -/
def answersOf (m : Message) : List Consumer → Board → List (Option Failure)
  | [], _ => []
  | c :: cs, b => (b.consume m c).2.2 :: answersOf m cs (b.consume m c).1

def answers (b : Board) (m : Message) : List (Option Failure) :=
  answersOf m (b.consumers m.feed) (b.note m)

/-- In a dispatch every consumer of the feed takes the message, one after the other, and the report
has them all: those who took it well, and the failures of the others. -/
structure ServesAll (b : Board) (m : Message) : Prop where
  board : (b.dispatch m).1 =
    (b.consumers m.feed).foldl (fun b c => (b.consume m c).1) (b.note m)
  delivered : (b.dispatch m).2.2.delivered = (b.answers m).countP Option.isNone
  errors : (b.dispatch m).2.2.errors = (b.answers m).reduceOption
  total : (b.dispatch m).2.2.delivered + (b.dispatch m).2.2.errors.length = b.consumerCount m.feed

theorem length_answersOf (m : Message) (cs : List Consumer) (b : Board) :
    (answersOf m cs b).length = cs.length := by
  induction cs generalizing b with
  | nil => rfl
  | cons c cs ih => simp [answersOf, ih]

theorem deliver_fst (m : Message) (cs : List Consumer) (b : Board) :
    (deliver m cs b).1 = cs.foldl (fun b c => (b.consume m c).1) b := by
  induction cs generalizing b with
  | nil => rfl
  | cons c cs ih => rw [(deliver_cons m c cs b 0).1, ih, List.foldl_cons]

theorem report_deliver (m : Message) (cs : List Consumer) (b : Board) :
    (deliver m cs b).2.2 = ⟨(answersOf m cs b).countP Option.isNone, (answersOf m cs b).reduceOption⟩ := by
  induction cs generalizing b with
  | nil => rfl
  | cons c cs ih =>
    simp only [deliver, answersOf]
    cases (b.consume m c).2.2 with
    | none => simp [ih]
    | some e => simp [ih]

theorem servesAll (b : Board) (m : Message) : b.ServesAll m := by
  have hreport : (b.dispatch m).2.2 =
      ⟨(b.answers m).countP Option.isNone, (b.answers m).reduceOption⟩ := by
    have h := report_deliver m (b.consumers m.feed) (b.note m)
    rw [← consumers_note b m] at h
    unfold answers
    rw [← consumers_note b m]
    exact h
  refine ⟨?_, by rw [hreport], by rw [hreport], ?_⟩
  · rw [dispatch_fst, deliver_fst]
  · rw [hreport, List.countP_eq_length_filter, Nat.add_comm,
      ← List.length_eq_reduceOption_length_add_filter_none]
    exact length_answersOf m _ _

/-! ## Runs under different answers -/

/-- How the listeners of caches and the publishers of engines answer, by position, given what they
got before. -/
structure Outcomes where
  listener : (cache position : Nat) → List Notice → Notice → Option ListenerError
  publisher : (engine : Nat) → List Update → Update → Option PublishError

def under (b : Board) (o : Outcomes) : Board :=
  { b with
    caches := b.caches.mapIdx fun i c =>
      { c with listeners := c.listeners.mapIdx fun j l => { l with answer := o.listener i j } }
    engines := b.engines.mapIdx fun i e =>
      { e with publisher := { e.publisher with answer := o.publisher i } } }

theorem muted_under (b : Board) (o : Outcomes) : (b.under o).muted = b.muted := by
  have hcaches : (b.under o).caches.map Cache.muted = b.caches.map Cache.muted := by
    apply List.ext_getElem?
    intro i
    simp only [under, List.getElem?_map, List.getElem?_mapIdx]
    cases b.caches[i]? <;> rfl
  have hengines : (b.under o).engines.map Engine.muted = b.engines.map Engine.muted := by
    apply List.ext_getElem?
    intro i
    simp only [under, List.getElem?_map, List.getElem?_mapIdx]
    cases b.engines[i]? <;> rfl
  unfold muted
  rw [hcaches, hengines]
  rfl

/-- A board takes the same messages under two assignments of answers to its listeners and publishers.
In the end all sheets, all barriers and the batch ids of the feeds are the same, and every publisher
was offered the same updates; and whatever failed on the way, every dispatch served every consumer
of the feed. -/
theorem state_of_outcomes (b : Board) (o o' : Outcomes) (ms : List Message) :
    let c := ((b.under o).run ms).1
    let d := ((b.under o').run ms).1
    c.caches.map (·.sheet) = d.caches.map (·.sheet) ∧
      c.engines.map (·.barrier) = d.engines.map (·.barrier) ∧
      c.engines.map (·.publisher.offered) = d.engines.map (·.publisher.offered) ∧
      c.last = d.last ∧
      ∀ pre m, pre ++ [m] <+: ms → ((b.under o).run pre).1.ServesAll m := by
  intro c d
  have hsame : c.muted = d.muted := by
    rw [muted_run, muted_run, muted_under, muted_under]
  have hcaches : c.caches.map Cache.muted = d.caches.map Cache.muted := congrArg caches hsame
  have hengines : c.engines.map Engine.muted = d.engines.map Engine.muted := congrArg engines hsame
  have hlast : c.muted.last = d.muted.last := congrArg Board.last hsame
  refine ⟨?_, ?_, ?_, hlast, fun pre m _ => servesAll _ m⟩
  · have h := congrArg (List.map Cache.sheet) hcaches
    rw [List.map_map, List.map_map] at h
    exact h
  · have h := congrArg (List.map Engine.barrier) hengines
    rw [List.map_map, List.map_map] at h
    exact h
  · have h := congrArg (List.map fun e : Engine => e.publisher.offered) hengines
    rw [List.map_map, List.map_map] at h
    exact h

/-- A cache with a listener and an engine with both sides on one feed. -/
def sampleOverheard : Board :=
  let f : Feed := ⟨"XYZ", 1⟩
  let b : Board :=
    { caches := [⟨.empty .fullDepth f .bid, [⟨fun _ _ => none, []⟩]⟩]
      engines := [⟨"XYZ", f, f, {}, .openChannel⟩] }
  [.cache 0, .handler 0 .bid, .handler 0 .offer].foldl register b

def refusing : Outcomes := ⟨fun _ _ _ _ => some ⟨"log", "full"⟩, fun _ _ _ => some .channelClosed⟩

def accepting : Outcomes := ⟨fun _ _ _ _ => none, fun _ _ _ => none⟩

theorem state_of_outcomes_sample :
    let q : Message := .quote ⟨⟨"XYZ", 1⟩, ⟨"a"⟩, ⟨100⟩, ⟨1⟩, .bid, ⟨1⟩, 1⟩
    let e : Message := .batchEnd ⟨⟨"XYZ", 1⟩, ⟨1⟩, 1, 1⟩
    let b := sampleOverheard
    ((((b.under refusing).run [q]).1.dispatch e).2.2.errors.map Failure.message =
      ["commit error: snapshot 1 publication aborted: listener log failed: full",
        "handler error: failed to publish incremental update 1: publisher channel closed"]) ∧
      (((b.under accepting).run [q]).1.dispatch e).2.2.delivered = 3 ∧
      ((b.under refusing).run [q, e]).1.caches.map (·.sheet) =
        ((b.under accepting).run [q, e]).1.caches.map (·.sheet) ∧
      ((b.under refusing).run [q, e]).1.engines.map (·.publisher.offered) =
        ((b.under accepting).run [q, e]).1.engines.map (·.publisher.offered) := by
  intro q e b
  obtain ⟨hsheets, _, hoffered, _⟩ := state_of_outcomes b refusing accepting [q, e]
  exact ⟨by decide +kernel, by decide +kernel, hsheets, hoffered⟩

end Board

end QuoteBoard
