import QuoteBoard.Proofs.BatchNotices
import QuoteBoard.Proofs.CacheHistory

/-!
# The latest quote under two policies

A cache that keeps the best level only and one that keeps every level take the same messages of
their feed. The first one shows nothing but the latest quote of its side, and what it shows stands
somewhere in the ladder of the second: a quote that drives the level out of the ladder replaces it
in the first cache as well, and a withdrawal or a mark takes it from both. `Alongside` is what every
message keeps, and `best_stands_in_ladder` reads it off the two caches.
-/

namespace QuoteBoard

theorem Sheet.withdraw_changes {x : Sheet} {w : Withdrawal} (h : w.feed = x.feed ∧ w.side = x.side) :
    ∃ t, (x.withdraw w).1 = { x with
      book := (x.book.remove w.item).1
      time := t
      modified := x.modified || (x.book.remove w.item).2 = .applied } := by
  rw [withdraw_eq h]
  by_cases happlied : (x.book.remove w.item).2 = .applied
  · simp only [happlied, if_true, decide_true, Bool.or_true]
    exact ⟨w.time, rfl⟩
  · simp only [happlied, if_false, decide_false, Bool.or_false, Book.remove_of_not_applied happlied]
    exact ⟨x.time, rfl⟩

namespace Message

def quoteOf? (s : Side) : Message → Option Quote
  | quote q => if q.side = s then some q else none
  | _ => none

/-- The last quote of a side after the last rebuild mark. -/
def lastQuote (s : Side) (ms : List Message) : Option Quote :=
  ((ms.rtakeWhile fun m => !m.isRebuild).filterMap (quoteOf? s)).getLast?

theorem lastQuote_snoc (s : Side) (ms : List Message) (m : Message) :
    lastQuote s (ms ++ [m]) =
      if m.isRebuild then none else (quoteOf? s m).or (lastQuote s ms) :=
  getLast?_since_snoc isRebuild (quoteOf? s) ms m

end Message

open Message

/-- After the messages `ms` one sheet keeps the best level only and the other one every level. -/
structure Alongside (f : Feed) (s : Side) (ms : List Message) (x y : Sheet) (best : Option Level)
    (b : Ladder) : Prop where
  top_feed : x.feed = f
  top_side : x.side = s
  top_book : x.book = .top best
  deep_feed : y.feed = f
  deep_side : y.side = s
  deep_book : y.book = .ladder b
  matched : b.Matched
  latest : ∀ l ∈ best, ∃ q ∈ lastQuote s ms, q.level = l
  held : ∀ l ∈ best, b.Holds l
  trade : x.trade = y.trade
  modified : x.modified = true → y.modified = true

section
variable {f : Feed} {s : Side} {ms : List Message} {x y : Sheet} {best : Option Level} {b : Ladder}

theorem alongside_empty (f : Feed) (s : Side) :
    Alongside f s [] (.empty .topOfBook f s) (.empty .fullDepth f s) none (.empty s) where
  top_feed := rfl
  top_side := rfl
  top_book := rfl
  deep_feed := rfl
  deep_side := rfl
  deep_book := rfl
  matched := Ladder.matched_empty s
  latest l hl := by cases hl
  held l hl := by cases hl
  trade := rfl
  modified h := h

theorem Alongside.latest_snoc (h : Alongside f s ms x y best b) {m : Message}
    (hm : m.isRebuild = false) (hq : quoteOf? s m = none) :
    ∀ l ∈ best, ∃ q ∈ lastQuote s (ms ++ [m]), q.level = l := by
  rw [lastQuote_snoc, hm, hq]
  exact h.latest

theorem Alongside.pass (h : Alongside f s ms x y best b) {m : Message}
    (hm : m.isRebuild = false) (hq : quoteOf? s m = none) :
    Alongside f s (ms ++ [m]) x y best b :=
  { h with latest := h.latest_snoc hm hq }

/-! ## Quotes and withdrawals of the side -/

theorem Alongside.quote (h : Alongside f s ms x y best b) {q : Quote} (hf : q.feed = f)
    (hs : q.side = s) :
    Alongside f s (ms ++ [.quote q]) (x.quote q).1 (y.quote q).1 (some q.level) (b.quote q) := by
  have hx : (x.quote q).1 = x.touch (.top (some q.level)) q.time := by
    rw [Sheet.quote_eq ⟨hf.trans h.top_feed.symm, hs.trans h.top_side.symm⟩, h.top_book]
    rfl
  have hy : (y.quote q).1 = y.touch (.ladder (b.quote q)) q.time :=
    Sheet.quote_of_accepted h.deep_book ⟨hf.trans h.deep_feed.symm, hs.trans h.deep_side.symm⟩
  rw [hx, hy]
  refine ⟨h.top_feed, h.top_side, rfl, h.deep_feed, h.deep_side, rfl,
    Ladder.matched_quote h.matched q, fun l hl => ⟨q, ?_, Option.some.inj hl⟩, fun l hl => ?_, h.trade,
    fun _ => rfl⟩
  · have hlast : quoteOf? s (.quote q) = some q := if_pos hs
    rw [lastQuote_snoc, hlast]
    rfl
  · exact (Ladder.holds_quote h.matched).mpr (Or.inl (Option.some.inj hl).symm)

theorem Alongside.held_discard (h : Alongside f s ms x y best b) (i : ItemId) :
    ∀ l ∈ best.filter fun l => l.item ≠ i, (b.discard i).Holds l := by
  intro l hl
  obtain ⟨hl, hne⟩ := Option.mem_filter_iff.mp hl
  exact Ladder.holds_discard.mpr ⟨h.held l hl, of_decide_eq_true hne⟩

theorem Alongside.removed (h : Alongside f s ms x y best b) {i : ItemId}
    (hi : best.any fun l => l.item = i) : (b.remove? i).isSome := by
  cases hbest : best with
  | none => simp [hbest] at hi
  | some l =>
    rw [← Ladder.exists_item_iff h.matched]
    exact ⟨l, (Ladder.mem_toList h.matched).mpr (h.held l hbest), by simpa [hbest] using hi⟩

theorem Alongside.withdraw (h : Alongside f s ms x y best b) {w : Withdrawal} (hf : w.feed = f)
    (hs : w.side = s) :
    Alongside f s (ms ++ [.withdrawal w]) (x.withdraw w).1 (y.withdraw w).1
      (best.filter fun l => l.item ≠ w.item) (b.discard w.item) := by
  obtain ⟨t, hx⟩ := Sheet.withdraw_changes ⟨hf.trans h.top_feed.symm, hs.trans h.top_side.symm⟩
  obtain ⟨u, hy⟩ := Sheet.withdraw_changes ⟨hf.trans h.deep_feed.symm, hs.trans h.deep_side.symm⟩
  rw [h.top_book, Book.remove_top] at hx
  rw [h.deep_book, Book.remove_ladder] at hy
  rw [hx, hy]
  refine ⟨h.top_feed, h.top_side, rfl, h.deep_feed, h.deep_side, rfl,
    Ladder.matched_discard h.matched w.item, fun l hl => ?_, h.held_discard w.item, h.trade,
    fun hm => ?_⟩
  · exact h.latest_snoc rfl rfl l (Option.mem_filter_iff.mp hl).1
  · by_cases hi : best.any fun l => l.item = w.item
    · simp [h.removed hi]
    · simp only [hi, Bool.false_eq_true, if_false, reduceCtorEq, decide_false, Bool.or_false] at hm
      simp [h.modified hm]

/-! ## The other messages -/

theorem Alongside.tradeDone (h : Alongside f s ms x y best b) {t : Trade} (hf : t.feed = f) :
    Alongside f s (ms ++ [.trade t]) (x.tradeDone t).1 (y.tradeDone t).1 best b := by
  rw [Sheet.tradeDone_of_accepted (hf.trans h.top_feed.symm),
    Sheet.tradeDone_of_accepted (hf.trans h.deep_feed.symm)]
  exact ⟨h.top_feed, h.top_side, h.top_book, h.deep_feed, h.deep_side, h.deep_book, h.matched,
    h.latest_snoc rfl rfl, h.held, rfl, fun _ => rfl⟩

theorem Alongside.rebuild (h : Alongside f s ms x y best b) (r : Rebuild) :
    Alongside f s (ms ++ [.rebuild r]) x.clear.markRebuilt y.clear.markRebuilt none b.clear where
  top_feed := h.top_feed
  top_side := h.top_side
  top_book := congrArg Book.clear h.top_book
  deep_feed := h.deep_feed
  deep_side := h.deep_side
  deep_book := congrArg Book.clear h.deep_book
  matched := b.matched_clear
  latest l hl := by cases hl
  held l hl := by cases hl
  trade := rfl
  modified h := h

theorem modified_settle (x : Sheet) (n : BatchId) (t : Timestamp) :
    (x.settle n t).1.modified = false := by
  cases hm : x.modified with
  | true => rw [Sheet.settle_of_modified hm]
  | false => rw [Sheet.settle_of_unmodified hm, hm]

theorem Alongside.settle (h : Alongside f s ms x y best b) (e : BatchEnd) :
    Alongside f s (ms ++ [.batchEnd e]) (x.settle e.batch e.time).1 (y.settle e.batch e.time).1
      best b := by
  have hdone := modified_settle x e.batch e.time
  obtain ⟨m, r, hx⟩ := x.settle_eq e.batch e.time
  obtain ⟨m', r', hy⟩ := y.settle_eq e.batch e.time
  rw [hx] at hdone ⊢
  rw [hy]
  exact ⟨h.top_feed, h.top_side, h.top_book, h.deep_feed, h.deep_side, h.deep_book, h.matched,
    h.latest_snoc rfl rfl, h.held, h.trade, fun hm => absurd (hm.symm.trans hdone) (by decide)⟩

theorem Alongside.heed (h : Alongside f s ms x y best b) {m : Message} (hm : m.feed = f) :
    ∃ best' b', Alongside f s (ms ++ [m]) (x.heed m) (y.heed m) best' b' := by
  cases m with
  | quote q =>
    simp only [Sheet.heed, h.top_side, h.deep_side]
    by_cases hs : q.side = s
    · simp only [hs, if_true]
      exact ⟨_, _, h.quote hm hs⟩
    · simp only [hs, if_false]
      exact ⟨_, _, h.pass rfl (if_neg hs)⟩
  | withdrawal w =>
    simp only [Sheet.heed, h.top_side, h.deep_side]
    by_cases hs : w.side = s
    · simp only [hs, if_true]
      exact ⟨_, _, h.withdraw hm hs⟩
    · simp only [hs, if_false]
      exact ⟨_, _, h.pass rfl rfl⟩
  | trade t => exact ⟨_, _, h.tradeDone hm⟩
  | rebuild r => exact ⟨_, _, h.rebuild r⟩
  | batchEnd e =>
    have hcloses : e.closes f = true := decide_eq_true hm
    simp only [Sheet.heed, h.top_feed, h.deep_feed, hcloses, if_true]
    exact ⟨_, _, h.settle e⟩

end

theorem alongside_consumeAll {f : Feed} (s : Side) (ls ls' : List Listener) {ms : List Message}
    (hms : ∀ m ∈ ms, m.feed = f) :
    ∃ best b, Alongside f s ms ((⟨.empty .topOfBook f s, ls⟩ : Cache).consumeAll ms).sheet
      ((⟨.empty .fullDepth f s, ls'⟩ : Cache).consumeAll ms).sheet best b := by
  induction ms using List.reverseRecOn with
  | nil => exact ⟨_, _, alongside_empty f s⟩
  | append_singleton ms m ih =>
    obtain ⟨best, b, h⟩ := ih fun y hy => hms y (List.mem_append_left _ hy)
    rw [Cache.consumeAll_snoc, Cache.consumeAll_snoc, Cache.sheet_consume, Cache.sheet_consume]
    exact h.heed (hms m (List.mem_append_right _ (List.mem_singleton_self m)))

/-! ## Reading the two caches -/

section
variable {f : Feed} {s : Side} {ms : List Message} {x y : Sheet} {best : Option Level} {b : Ladder}

theorem Alongside.level_top (h : Alongside f s ms x y best b) (n : Nat) :
    x.reading.level n = if n = 0 then best else none := by
  show x.book.level n = _
  rw [h.top_book]
  rfl

theorem Alongside.level_deep (h : Alongside f s ms x y best b) {l : Level} :
    (∃ n, y.reading.level n = some l) ↔ b.Holds l := by
  have hlevel : ∀ n, y.reading.level n = b.toList[n]? := by
    intro n
    show y.book.level n = _
    rw [h.deep_book]
    exact Ladder.level_eq h.matched n
  rw [← Ladder.mem_toList h.matched, List.mem_iff_getElem?]
  exact exists_congr fun n => by rw [hlevel]

theorem Alongside.depth_top (h : Alongside f s ms x y best b) (hdeep : y.reading.depth = 0) :
    x.reading.depth = 0 := by
  have hdepth : b.depth = 0 := by
    change y.book.depth = 0 at hdeep
    rwa [h.deep_book] at hdeep
  show x.book.depth = 0
  rw [h.top_book]
  cases hbest : best with
  | none => rfl
  | some l =>
    have hmem : l ∈ b.toList := (Ladder.mem_toList h.matched).mpr (h.held l hbest)
    rw [← Ladder.length_toList h.matched, List.length_eq_zero_iff] at hdepth
    rw [hdepth] at hmem
    cases hmem

end

/-- Two caches of a side, one for the best level and one for every level, have taken the same
messages of their feed. A level that the first one shows is that of the last quote of the side since
the last mark, and the second one shows it at some rank. When the second one is empty the first one
is, both have the same trade, and the first one is modified only if the second one is. -/
theorem best_stands_in_ladder {f : Feed} {s : Side} {ls ls' : List Listener} {ms : List Message}
    (hms : ∀ m ∈ ms, m.feed = f) :
    let top := ((⟨.empty .topOfBook f s, ls⟩ : Cache).consumeAll ms).sheet
    let deep := ((⟨.empty .fullDepth f s, ls'⟩ : Cache).consumeAll ms).sheet
    (∀ n l, top.reading.level n = some l →
      (∃ q ∈ lastQuote s ms, q.level = l) ∧ ∃ k, deep.reading.level k = some l) ∧
      (deep.reading.depth = 0 → top.reading.depth = 0) ∧
      top.reading.trade = deep.reading.trade ∧
      (top.modified = true → deep.modified = true) := by
  intro top deep
  obtain ⟨best, b, h⟩ := alongside_consumeAll s ls ls' hms
  refine ⟨fun n l hl => ?_, h.depth_top, h.trade, h.modified⟩
  have hbest : best = some l := by
    rw [h.level_top] at hl
    split at hl
    · exact hl
    · cases hl
  exact ⟨h.latest l hbest, h.level_deep.mpr (h.held l hbest)⟩

/-- The second quote is worse than the first, which is withdrawn after that. -/
def sampleSuperseded : List Message :=
  let f : Feed := ⟨"XYZ", 1⟩
  [.quote ⟨f, ⟨"a"⟩, ⟨100⟩, ⟨1⟩, .bid, ⟨1⟩, 1⟩, .quote ⟨f, ⟨"b"⟩, ⟨90⟩, ⟨2⟩, .bid, ⟨1⟩, 2⟩,
    .batchEnd ⟨f, ⟨1⟩, 2, 2⟩, .withdrawal ⟨f, ⟨"a"⟩, .bid, ⟨2⟩, 3⟩]

theorem best_stands_in_ladder_sample :
    let top := ((⟨.empty .topOfBook ⟨"XYZ", 1⟩ .bid, []⟩ : Cache).consumeAll sampleSuperseded).sheet
    let deep := ((⟨.empty .fullDepth ⟨"XYZ", 1⟩ .bid, []⟩ : Cache).consumeAll sampleSuperseded).sheet
    let l : Level := ⟨⟨"b"⟩, ⟨90⟩, ⟨2⟩, .bid, ⟨1⟩, 2⟩
    (∀ m ∈ sampleSuperseded, m.feed = ⟨"XYZ", 1⟩) ∧ top.reading.level 0 = some l ∧
      (∃ q ∈ lastQuote .bid sampleSuperseded, q.level = l) ∧ ∃ k, deep.reading.level k = some l := by
  intro top deep l
  have hms : ∀ m ∈ sampleSuperseded, m.feed = ⟨"XYZ", 1⟩ := by decide
  have htop : top.reading.level 0 = some l := by decide
  obtain ⟨hlevel, _⟩ := best_stands_in_ladder (s := .bid) hms
  obtain ⟨hlast, hdeep⟩ := hlevel 0 l htop
  exact ⟨hms, htop, hlast, hdeep⟩

end QuoteBoard
