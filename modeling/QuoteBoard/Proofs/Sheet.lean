import QuoteBoard.Cache.Sheet
import QuoteBoard.Proofs.Ladder

/-!
# What an event does to a sheet

An event of another feed or side leaves a sheet as it is. On a sheet that keeps a ladder the others
take effect: a quote and a withdrawal on the ladder, a trade beside it.
-/

namespace QuoteBoard.Sheet

variable {x : Sheet} {b : Ladder}

theorem refusal?_eq_none {f : Feed} {s : Side} :
    x.refusal? f (some s) = none ↔ f = x.feed ∧ s = x.side := by
  unfold refusal?
  by_cases hf : f = x.feed <;> by_cases hs : s = x.side <;> simp [hf, hs]

theorem quote_of_refused {q : Quote} (h : ¬ (q.feed = x.feed ∧ q.side = x.side)) :
    (x.quote q).1 = x := by
  obtain ⟨why, hw⟩ := Option.ne_none_iff_exists'.mp (mt refusal?_eq_none.mp h)
  simp only [quote, hw]

theorem withdraw_of_refused {w : Withdrawal} (h : ¬ (w.feed = x.feed ∧ w.side = x.side)) :
    (x.withdraw w).1 = x := by
  obtain ⟨why, hw⟩ := Option.ne_none_iff_exists'.mp (mt refusal?_eq_none.mp h)
  simp only [withdraw, hw]

theorem tradeDone_of_refused {t : Trade} (h : t.feed ≠ x.feed) : (x.tradeDone t).1 = x := by
  simp [tradeDone, refusal?, h]

theorem tradeDone_of_accepted {t : Trade} (h : t.feed = x.feed) :
    (x.tradeDone t).1 = { x.touch x.book t.time with trade := some t.last } := by
  simp [tradeDone, refusal?, h]

theorem quote_of_accepted (hb : x.book = .ladder b) {q : Quote}
    (h : q.feed = x.feed ∧ q.side = x.side) :
    (x.quote q).1 = x.touch (.ladder (b.quote q)) q.time := by
  simp only [quote, refusal?_eq_none.mpr h, hb, Book.quote]

theorem withdraw_of_accepted (hb : x.book = .ladder b) {w : Withdrawal}
    (h : w.feed = x.feed ∧ w.side = x.side) :
    ∃ m, (x.withdraw w).1 = { x with
      book := .ladder (b.discard w.item)
      modified := m
      time := if (b.remove? w.item).isSome then w.time else x.time } := by
  simp only [withdraw, refusal?_eq_none.mpr h, hb, Book.remove]
  cases hr : b.remove? w.item with
  | none =>
    refine ⟨x.modified, ?_⟩
    simp only [Ladder.discard, hr, Option.getD_none, Option.isSome_none, Bool.false_eq_true, if_false]
    rw [← hb]
  | some c =>
    refine ⟨true, ?_⟩
    simp only [Ladder.discard, hr, Option.getD_some, Option.isSome_some, if_true, touch]

theorem settle_eq (x : Sheet) (n : BatchId) (t : Timestamp) :
    ∃ m r, (x.settle n t).1 = { x with modified := m, rebuilt := r } := by
  unfold settle
  by_cases hm : x.modified = true
  · rw [if_pos hm]
    exact ⟨false, false, rfl⟩
  · rw [if_neg hm]
    exact ⟨x.modified, x.rebuilt, rfl⟩

end QuoteBoard.Sheet
