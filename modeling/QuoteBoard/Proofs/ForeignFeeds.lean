import QuoteBoard.Proofs.CacheHistory
import QuoteBoard.Proofs.Calls

/-!
# Messages of other feeds at a cache

A message of another feed is refused wherever a cache looks at the feed: quotes, withdrawals and
trades by the sheet, ends by the cache. Nothing looks at the feed of a rebuild mark, so a foreign one
empties the book like an own one (`inert_unless_rebuild`). A stream without foreign marks is taken as
if it held the messages of the own feed alone (`consumeAll_own`).
-/

namespace QuoteBoard

open Message

theorem Sheet.heed_of_foreign {x : Sheet} {m : Message} (hm : m.feed ≠ x.feed)
    (hplain : m.isRebuild = false) : x.heed m = x := by
  cases m with
  | quote q =>
    have hq : (x.quote q).1 = x := quote_of_refused fun h => hm h.1
    simp [heed, hq]
  | withdrawal w =>
    have hw : (x.withdraw w).1 = x := withdraw_of_refused fun h => hm h.1
    simp [heed, hw]
  | trade t => exact tradeDone_of_refused hm
  | batchEnd e =>
    have he : e.closes x.feed = false := decide_eq_false hm
    simp [heed, he]
  | rebuild r => cases hplain

namespace Cache

variable {c : Cache} {m : Message}

theorem feed_consumeAll (c : Cache) (ms : List Message) :
    (c.consumeAll ms).sheet.feed = c.sheet.feed := by
  induction ms using List.reverseRecOn with
  | nil => rfl
  | append_singleton ms m ih => rw [consumeAll_snoc, feed_consume, ih]

theorem quiet_of_foreign (hm : m.feed ≠ c.sheet.feed) :
    (c.consume m).1.listeners = c.listeners ∧ (c.consume m).2.2 = none ∧
      notices (c.consume m).2.1 = [] := by
  cases m with
  | quote q =>
    refine ⟨?_, ?_, notices_consume_of_not_isEnd c rfl⟩ <;> simp only [consume] <;> split <;> rfl
  | withdrawal w =>
    refine ⟨?_, ?_, notices_consume_of_not_isEnd c rfl⟩ <;> simp only [consume] <;> split <;> rfl
  | trade t => exact ⟨rfl, rfl, notices_consume_of_not_isEnd c rfl⟩
  | rebuild r => exact ⟨rfl, rfl, rfl⟩
  | batchEnd e =>
    have he : e.closes c.sheet.feed = false := decide_eq_false hm
    simp [consume, he, notices]

theorem consume_of_foreign (hm : m.feed ≠ c.sheet.feed) (hplain : m.isRebuild = false) :
    (c.consume m).1 = c := by
  have hsheet : (c.consume m).1.sheet = c.sheet :=
    (sheet_consume c m).trans (Sheet.heed_of_foreign hm hplain)
  show Cache.mk (c.consume m).1.sheet (c.consume m).1.listeners = c
  rw [hsheet, (quiet_of_foreign hm).1]

/-- Without foreign marks, what other feeds send can be left out of a stream. -/
theorem consumeAll_own {ms : List Message}
    (hms : ∀ m ∈ ms, m.feed ≠ c.sheet.feed → m.isRebuild = false) :
    c.consumeAll ms = c.consumeAll (ms.filter fun m => m.feed = c.sheet.feed) := by
  induction ms using List.reverseRecOn with
  | nil => rfl
  | append_singleton ms m ih =>
    have ih := ih fun x hx => hms x (List.mem_append_left _ hx)
    rw [consumeAll_snoc, List.filter_append, ih]
    by_cases hm : m.feed = c.sheet.feed
    · rw [List.filter_cons_of_pos (by simpa using hm), List.filter_nil, consumeAll_snoc]
    · have hplain := hms m (List.mem_append_right _ (List.mem_singleton_self m)) hm
      rw [List.filter_cons_of_neg (by simpa using hm), List.filter_nil, List.append_nil]
      rw [← feed_consumeAll c (ms.filter fun m => m.feed = c.sheet.feed)] at hm
      exact consume_of_foreign hm hplain

/-- A message of another feed is answered well and told to nobody, and unless it marks a rebuild it
leaves the whole cache as it is. A foreign mark empties the book and flags it. -/
theorem inert_unless_rebuild (hm : m.feed ≠ c.sheet.feed) :
    let r := c.consume m
    r.2.2 = none ∧ notices r.2.1 = [] ∧
      r.1 = if m.isRebuild then c.clear.markRebuilt else c := by
  intro r
  obtain ⟨_, hok, htold⟩ := quiet_of_foreign hm
  refine ⟨hok, htold, ?_⟩
  cases hmark : m.isRebuild with
  | true =>
    cases m with
    | rebuild _ => rfl
    | _ => cases hmark
  | false => exact consume_of_foreign hm hmark

def sampleCalls : List CacheCall :=
  [.quote ⟨⟨"XYZ", 1⟩, ⟨"a"⟩, ⟨100⟩, ⟨1⟩, .bid, ⟨1⟩, 1000⟩, .commit ⟨1⟩ 1000]

def sampleMark : Message := .rebuild ⟨⟨"XYZ", 2⟩, ⟨7⟩⟩

theorem inert_unless_rebuild_sample :
    let c := (empty .fullDepth ⟨"XYZ", 1⟩ .bid).run sampleCalls
    sampleMark.feed ≠ c.sheet.feed ∧ (c.consume sampleMark).2.2 = none ∧
      notices (c.consume sampleMark).2.1 = [] ∧
      (c.consume sampleMark).1 = c.clear.markRebuilt := by
  intro c
  have hm : sampleMark.feed ≠ c.sheet.feed := by decide
  obtain ⟨hok, htold, hcache⟩ := inert_unless_rebuild hm
  exact ⟨hm, hok, htold, hcache⟩

/-- A foreign mark drops the level that a cache holds. -/
theorem not_inert_of_foreign :
    ¬ ∀ (p : Policy) (f : Feed) (s : Side) (cs : List CacheCall) (m : Message), m.feed ≠ f →
      let c := (empty p f s).run cs
      let r := c.consume m
      r.2.2 = none ∧ notices r.2.1 = [] ∧ r.1.sheet.reading.levels = c.sheet.reading.levels ∧
        r.1.sheet.trade = c.sheet.trade ∧ r.1.sheet.modified = c.sheet.modified ∧
        r.1.sheet.rebuilt = c.sheet.rebuilt ∧ r.1.sheet.time = c.sheet.time := by
  intro h
  obtain ⟨_, _, hlevels, _⟩ := h .fullDepth ⟨"XYZ", 1⟩ .bid sampleCalls sampleMark (by decide)
  exact absurd hlevels (by decide)

end Cache

end QuoteBoard
