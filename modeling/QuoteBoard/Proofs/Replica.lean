import QuoteBoard.Proofs.Cycles
import QuoteBoard.Proofs.Ladder

/-!
# Rebuilding the books from updates

A replica keeps two ladders of its own and learns of the books by updates only. The updates of a
barrier have lost the order between removals and additions, and a rebuild mark of a batch without
changes comes with a later update. Still, as long as each batch keeps its order (`InOrder`), the
replica shows what the books show whenever an update came out. What every message keeps is `InStep`:
if the open cycle were published now, the replica would show the books (`InStep.step`).
-/

namespace QuoteBoard

/-! ## What a ladder shows of its levels -/

def Level.addition (l : Level) : Addition := ⟨l.item, l.price, l.size⟩

def Quote.addition (q : Quote) : Addition := ⟨q.item, q.price, q.size⟩

namespace Ladder

def entries (b : Ladder) : List Addition := b.toList.map Level.addition

def Shows (b : Ladder) (x : Addition) : Prop := ∃ l, b.Holds l ∧ l.addition = x

theorem mem_entries {b : Ladder} (hb : b.Matched) {x : Addition} : x ∈ b.entries ↔ b.Shows x := by
  simp only [entries, List.mem_map, mem_toList hb, Shows]

theorem pairwise_entries {b : Ladder} (hb : b.Matched) :
    b.entries.Pairwise fun x y => b.side.Ahead x.price y.price := by
  rw [entries, List.pairwise_map]
  exact pairwise_toList hb

theorem nodup_entries {b : Ladder} (hb : b.Matched) : b.entries.Nodup :=
  (pairwise_entries hb).imp fun h heq => h.ne (congrArg Addition.price heq)

theorem entries_eq {a b : Ladder} (ha : a.Matched) (hb : b.Matched) (hs : a.side = b.side)
    (h : ∀ x, a.Shows x ↔ b.Shows x) : a.entries = b.entries := by
  refine List.Perm.eq_of_pairwise ?_ (pairwise_entries ha) (hs ▸ pairwise_entries hb) ?_
  · intro x y _ _ hxy hyx
    exact absurd hyx hxy.asymm
  · apply (List.perm_ext_iff_of_nodup (nodup_entries ha) (nodup_entries hb)).mpr
    intro x
    rw [mem_entries ha, mem_entries hb, h]

theorem shows_quote {b : Ladder} (hb : b.Matched) {q : Quote} {x : Addition} :
    (b.quote q).Shows x ↔ x = q.addition ∨ b.Shows x ∧ x.item ≠ q.item ∧ x.price ≠ q.price := by
  unfold Shows
  constructor
  · rintro ⟨l, hl, rfl⟩
    rcases (holds_quote hb).mp hl with rfl | ⟨hl, hi, hp⟩
    · exact Or.inl rfl
    · exact Or.inr ⟨⟨l, hl, rfl⟩, hi, hp⟩
  · rintro (rfl | ⟨⟨l, hl, rfl⟩, hi, hp⟩)
    · exact ⟨q.level, (holds_quote hb).mpr (Or.inl rfl), rfl⟩
    · exact ⟨l, (holds_quote hb).mpr (Or.inr ⟨hl, hi, hp⟩), rfl⟩

theorem shows_discard {b : Ladder} {i : ItemId} {x : Addition} :
    (b.discard i).Shows x ↔ b.Shows x ∧ x.item ≠ i := by
  unfold Shows
  constructor
  · rintro ⟨l, hl, rfl⟩
    obtain ⟨hl, hi⟩ := holds_discard.mp hl
    exact ⟨⟨l, hl, rfl⟩, hi⟩
  · rintro ⟨⟨l, hl, rfl⟩, hi⟩
    exact ⟨l, holds_discard.mpr ⟨hl, hi⟩, rfl⟩

theorem not_shows_clear (b : Ladder) (x : Addition) : ¬ b.clear.Shows x := by
  rintro ⟨l, hl, _⟩
  exact b.not_holds_clear l hl

/-! ## Removals before additions -/

theorem matched_foldl_discard {b : Ladder} (hb : b.Matched) (is : List ItemId) :
    (is.foldl discard b).Matched := by
  induction is generalizing b with
  | nil => exact hb
  | cons i is ih => exact ih (matched_discard hb i)

theorem matched_foldl_quote {b : Ladder} (hb : b.Matched) (qs : List Quote) :
    (qs.foldl quote b).Matched := by
  induction qs generalizing b with
  | nil => exact hb
  | cons q qs ih => exact ih (matched_quote hb q)

theorem side_foldl_discard (b : Ladder) (is : List ItemId) : (is.foldl discard b).side = b.side := by
  induction is generalizing b with
  | nil => rfl
  | cons i is ih => rw [List.foldl_cons, ih, side_discard]

theorem side_foldl_quote (b : Ladder) (qs : List Quote) : (qs.foldl quote b).side = b.side := by
  induction qs generalizing b with
  | nil => rfl
  | cons q qs ih => rw [List.foldl_cons, ih, side_quote]

theorem shows_foldl_quote_congr {a b : Ladder} (ha : a.Matched) (hb : b.Matched)
    (h : ∀ x, a.Shows x ↔ b.Shows x) (qs : List Quote) (x : Addition) :
    (qs.foldl quote a).Shows x ↔ (qs.foldl quote b).Shows x := by
  induction qs generalizing a b with
  | nil => exact h x
  | cons q qs ih =>
    apply ih (matched_quote ha q) (matched_quote hb q)
    intro y
    rw [shows_quote ha, shows_quote hb, h]

/-- A removal commutes with quotes of other items, evictions or not. -/
theorem shows_discard_foldl_quote {b : Ladder} (hb : b.Matched) {i : ItemId} {qs : List Quote}
    (hi : ∀ q ∈ qs, q.item ≠ i) (x : Addition) :
    ((qs.foldl quote b).discard i).Shows x ↔ (qs.foldl quote (b.discard i)).Shows x := by
  induction qs generalizing b with
  | nil => exact Iff.rfl
  | cons q qs ih =>
    have hq : q.item ≠ i := hi q (List.mem_cons_self ..)
    have hd := matched_discard hb i
    rw [List.foldl_cons, List.foldl_cons,
      ih (matched_quote hb q) fun r hr => hi r (List.mem_cons_of_mem _ hr)]
    refine shows_foldl_quote_congr (matched_discard (matched_quote hb q) i) (matched_quote hd q) ?_ qs x
    intro y
    rw [shows_discard, shows_quote hb, shows_quote hd, shows_discard]
    constructor
    · rintro ⟨rfl | ⟨hy, hyi, hyp⟩, hyd⟩
      · exact Or.inl rfl
      · exact Or.inr ⟨⟨hy, hyd⟩, hyi, hyp⟩
    · rintro (rfl | ⟨⟨hy, hyd⟩, hyi, hyp⟩)
      · exact ⟨Or.inl rfl, hq⟩
      · exact ⟨Or.inr ⟨hy, hyi, hyp⟩, hyd⟩

end Ladder

/-! ## Replicas -/

def Update.quotes (f : Feed) (s : Side) (u : Update) : List Quote :=
  (u.added s).map fun a => ⟨f, a.item, a.price, a.size, s, u.batch, 0⟩

/-- A book that learns of an update: it empties on a rebuild, then drops every removed item, then
takes the additions of its side in their order. -/
def Ladder.follow (f : Feed) (s : Side) (b : Ladder) (u : Update) : Ladder :=
  (u.quotes f s).foldl Ladder.quote
    (u.removed.foldl Ladder.discard (if u.rebuilt then b.clear else b))

structure Replica where
  bids : Ladder := .empty .bid
  asks : Ladder := .empty .offer

namespace Replica

def book (r : Replica) : Side → Ladder
  | .bid => r.bids
  | .offer => r.asks

def take (f : Feed) (r : Replica) (u : Update) : Replica :=
  ⟨r.bids.follow f .bid u, r.asks.follow f .offer u⟩

theorem book_take (f : Feed) (r : Replica) (u : Update) (s : Side) :
    (r.take f u).book s = (r.book s).follow f s u := by
  cases s <;> rfl

def after (f : Feed) (us : List Update) : Replica := us.foldl (take f) {}

end Replica

theorem Ladder.matched_follow {b : Ladder} (hb : b.Matched) (f : Feed) (s : Side) (u : Update) :
    (b.follow f s u).Matched := by
  refine Ladder.matched_foldl_quote (Ladder.matched_foldl_discard ?_ _) _
  split
  · exact b.matched_clear
  · exact hb

theorem Ladder.side_follow (b : Ladder) (f : Feed) (s : Side) (u : Update) :
    (b.follow f s u).side = b.side := by
  unfold follow
  rw [side_foldl_quote, side_foldl_discard]
  split <;> rfl

/-! ## Streams in order -/

namespace Message

def isEnd : Message → Bool
  | batchEnd _ => true
  | _ => false

def isRebuild : Message → Bool
  | rebuild _ => true
  | _ => false

def isChange : Message → Bool
  | quote _ => true
  | withdrawal _ => true
  | _ => false

def addedItem? : Message → Option ItemId
  | quote q => some q.item
  | _ => none

def itemOn? (s : Side) : Message → Option ItemId
  | quote q => if q.side = s then some q.item else none
  | withdrawal w => if w.side = s then some w.item else none
  | _ => none

def openBatch (ms : List Message) : List Message := ms.rtakeWhile fun m => !m.isEnd

/-- A message may come in a batch: a rebuild mark before every change, a removal before every
addition of its item. -/
def Fits (batch : List Message) : Message → Prop
  | rebuild _ => ∀ m ∈ batch, m.isChange = false
  | withdrawal w => ∀ m ∈ batch, m.addedItem? ≠ some w.item
  | _ => True

instance (batch : List Message) (m : Message) : Decidable (m.Fits batch) := by
  cases m <;> unfold Fits <;> infer_instance

theorem openBatch_snoc (ms : List Message) (m : Message) :
    openBatch (ms ++ [m]) = if m.isEnd then [] else openBatch ms ++ [m] := by
  unfold openBatch
  cases h : m.isEnd with
  | true => rw [List.rtakeWhile_concat_neg _ _ _ (by simp [h])]; rfl
  | false => rw [List.rtakeWhile_concat_pos _ _ _ (by simp [h])]; rfl

end Message

open Message

/-- Messages of one feed, each fitting its batch, with no item on both sides. -/
structure InOrder (f : Feed) (ms : List Message) : Prop where
  feed : ∀ m ∈ ms, m.feed = f
  fits : ∀ n (h : n < ms.length), ms[n].Fits (openBatch (ms.take n))
  apart : ∀ x ∈ ms, ∀ y ∈ ms, x.itemOn? .bid = none ∨ x.itemOn? .bid ≠ y.itemOn? .offer

theorem InOrder.of_append {f : Feed} {ms ns : List Message} (h : InOrder f (ms ++ ns)) :
    InOrder f ms where
  feed m hm := h.feed m (List.mem_append_left _ hm)
  fits n hn := by
    have hlt : n < (ms ++ ns).length := by rw [List.length_append]; omega
    have := h.fits n hlt
    rw [List.getElem_append_left hn, List.take_append_of_le_length (Nat.le_of_lt hn)] at this
    exact this
  apart x hx y hy := h.apart x (List.mem_append_left _ hx) y (List.mem_append_left _ hy)

theorem InOrder.last_fits {f : Feed} {ms : List Message} {m : Message} (h : InOrder f (ms ++ [m])) :
    m.Fits (openBatch ms) := by
  have := h.fits ms.length (by simp)
  simpa using this

theorem InOrder.side_eq {f : Feed} {ms : List Message} (h : InOrder f ms) {x y : Message}
    (hx : x ∈ ms) (hy : y ∈ ms) {s t : Side} {i : ItemId} (hs : x.itemOn? s = some i)
    (ht : y.itemOn? t = some i) : s = t := by
  cases s <;> cases t
  · rfl
  · rcases h.apart x hx y hy with hn | hn
    · rw [hs] at hn; cases hn
    · exact absurd (hs.trans ht.symm) hn
  · rcases h.apart y hy x hx with hn | hn
    · rw [ht] at hn; cases hn
    · exact absurd (ht.trans hs.symm) hn
  · rfl

/-! ## What one message does -/

def Ladder.heed (s : Side) (b : Ladder) : Message → Ladder
  | .quote q => if q.side = s then b.quote q else b
  | .withdrawal w => if w.side = s then b.discard w.item else b
  | .rebuild _ => b.clear
  | _ => b

/-- A barrier after both sides took a message, and the update that they made of it. -/
def Barrier.turn (b : Barrier) (product : String) : Message → Barrier × Option Update
  | .quote q => (b.add q.side q.addition, none)
  | .withdrawal w => (b.remove w.item, none)
  | .trade _ => (b, none)
  | .rebuild _ => (b.setRebuilt true, none)
  | .batchEnd e =>
    if b.hasChanges then ({}, some (b.update product e.batch)) else ({ rebuilt := b.rebuilt }, none)

theorem Ladder.matched_heed {b : Ladder} (hb : b.Matched) (s : Side) (m : Message) :
    (b.heed s m).Matched := by
  cases m with
  | quote q =>
    simp only [heed]
    split
    · exact matched_quote hb q
    · exact hb
  | withdrawal w =>
    simp only [heed]
    split
    · exact matched_discard hb w.item
    · exact hb
  | rebuild _ => exact b.matched_clear
  | _ => exact hb

theorem Ladder.side_heed (b : Ladder) (s : Side) (m : Message) : (b.heed s m).side = b.side := by
  cases m with
  | quote q => simp only [heed]; split <;> simp
  | withdrawal w => simp only [heed]; split <;> simp
  | _ => rfl

theorem Ladder.shows_of_heed {b : Ladder} (hb : b.Matched) {s : Side} {m : Message} {x : Addition}
    (h : (b.heed s m).Shows x) : b.Shows x ∨ m.itemOn? s = some x.item := by
  cases m with
  | quote q =>
    simp only [heed] at h
    split at h
    · rename_i hs
      rcases (shows_quote hb).mp h with rfl | h
      · exact Or.inr (by simp [itemOn?, hs, Quote.addition])
      · exact Or.inl h.1
    · exact Or.inl h
  | withdrawal w =>
    simp only [heed] at h
    split at h
    · exact Or.inl (shows_discard.mp h).1
    · exact Or.inl h
  | rebuild r => exact absurd h (b.not_shows_clear x)
  | _ => exact Or.inl h

theorem Barrier.isCommitted_turn {b : Barrier} (h : ∀ s, b.isCommitted s = false) (p : String)
    (m : Message) (s : Side) : (b.turn p m).1.isCommitted s = false := by
  cases m with
  | quote q => rw [← h s]; cases hq : q.side <;> cases s <;> simp [turn, hq, add, isCommitted]
  | batchEnd e => simp only [turn]; split <;> cases s <;> rfl
  | _ => rw [← h s]; cases s <;> rfl

theorem Barrier.mem_pending_turn {b : Barrier} {p : String} {m : Message} {s : Side} {a : Addition}
    (h : a ∈ (b.turn p m).1.pending s) :
    m.isEnd = false ∧ (a ∈ b.pending s ∨ m.addedItem? = some a.item) := by
  cases m with
  | quote q =>
    refine ⟨rfl, ?_⟩
    have hp : (b.turn p (.quote q)).1.pending s =
        b.pending s ++ if q.side = s then [q.addition] else [] := by
      cases hq : q.side <;> cases s <;> simp [turn, hq, add, pending]
    rw [hp] at h
    rcases List.mem_append.mp h with h | h
    · exact Or.inl h
    · split at h
      · rw [List.mem_singleton.mp h]
        exact Or.inr rfl
      · cases h
  | batchEnd e =>
    simp only [turn] at h
    split at h <;> cases s <;> cases h
  | _ => exact ⟨rfl, Or.inl (by cases s <;> exact h)⟩

theorem Barrier.mem_removed_turn {b : Barrier} {p : String} {m : Message} {i : ItemId}
    (h : i ∈ (b.turn p m).1.removed) : m.isEnd = false ∧ (i ∈ b.removed ∨ m.isChange = true) := by
  cases m with
  | quote q => exact ⟨rfl, Or.inr rfl⟩
  | withdrawal w => exact ⟨rfl, Or.inr rfl⟩
  | batchEnd e =>
    simp only [turn] at h
    split at h <;> cases h
  | _ => exact ⟨rfl, Or.inl h⟩

/-! ## What every message keeps -/

def Barrier.quotes (f : Feed) (s : Side) (n : BatchId) (b : Barrier) : List Quote :=
  (b.pending s).map fun a => ⟨f, a.item, a.price, a.size, s, n, 0⟩

theorem Ladder.follow_update (f : Feed) (s : Side) (l : Ladder) (b : Barrier) (p : String)
    (n : BatchId) :
    l.follow f s (b.update p n) =
      (b.quotes f s n).foldl quote
        (b.removed.foldl discard (if b.rebuilt then l.clear else l)) := by
  unfold follow Update.quotes
  rw [b.added_update p n s]
  rfl

structure InStep (f : Feed) (ms : List Message) (c : Side → Ladder) (b : Barrier) (r : Replica) :
    Prop where
  matched : ∀ s, (c s).Matched
  side : ∀ s, (c s).side = s
  book_matched : ∀ s, (r.book s).Matched
  book_side : ∀ s, (r.book s).side = s
  committed : ∀ s, b.isCommitted s = false
  used : ∀ s x, (c s).Shows x → ∃ m ∈ ms, m.itemOn? s = some x.item
  pending : ∀ s, ∀ a ∈ b.pending s, ∃ m ∈ openBatch ms, m.addedItem? = some a.item
  removed : ∀ i ∈ b.removed, ∃ m ∈ openBatch ms, m.isChange = true
  same : ∀ s p n x, (c s).Shows x ↔ ((r.book s).follow f s (b.update p n)).Shows x

theorem inStep_nil (f : Feed) : InStep f [] Ladder.empty {} {} where
  matched s := Ladder.matched_empty s
  side s := rfl
  book_matched s := by cases s <;> exact Ladder.matched_empty _
  book_side s := by cases s <;> rfl
  committed s := by cases s <;> rfl
  used s x := by
    rintro ⟨l, hl, _⟩
    exact absurd hl (Ladder.not_holds_empty s l)
  pending s a h := by cases s <;> cases h
  removed i h := by cases h
  same s p n x := by cases s <;> exact Iff.rfl

section
variable {f : Feed} {ms : List Message} {c : Side → Ladder} {b : Barrier} {r : Replica}

theorem InStep.unchanged (h : InStep f ms c b r) (hb : ∀ m ∈ openBatch ms, m.isChange = false) :
    (∀ s, b.pending s = []) ∧ b.removed = [] := by
  constructor
  · intro s
    apply List.eq_nil_iff_forall_not_mem.mpr
    intro a ha
    obtain ⟨m, hm, hadd⟩ := h.pending s a ha
    have := hb m hm
    cases m <;> simp [addedItem?, isChange] at hadd this
  · apply List.eq_nil_iff_forall_not_mem.mpr
    intro i hi
    obtain ⟨m, hm, hc⟩ := h.removed i hi
    rw [hb m hm] at hc
    cases hc

theorem InStep.same_quote (h : InStep f ms c b r) (q : Quote) (s : Side) (p : String) (n : BatchId)
    (x : Addition) :
    ((c s).heed s (.quote q)).Shows x ↔
      ((r.book s).follow f s ((b.add q.side q.addition).update p n)).Shows x := by
  have hsame := h.same s p n
  have hremoved : (b.add q.side q.addition).removed = b.removed := by cases q.side <;> rfl
  have hrebuilt : (b.add q.side q.addition).rebuilt = b.rebuilt := by cases q.side <;> rfl
  rw [Ladder.follow_update] at hsame ⊢
  rw [hremoved, hrebuilt]
  by_cases hs : q.side = s
  · let brought : Quote := ⟨f, q.item, q.price, q.size, s, n, 0⟩
    have hadd : (b.add q.side q.addition).quotes f s n = b.quotes f s n ++ [brought] := by
      subst hs
      cases hq : q.side <;>
        simp [Barrier.quotes, Barrier.add, Barrier.pending, Quote.addition, brought, hq]
    have hmatched := Ladder.matched_follow (h.book_matched s) f s (b.update p n)
    rw [Ladder.follow_update] at hmatched
    rw [hadd, List.foldl_append, Ladder.heed, if_pos hs, Ladder.shows_quote (h.matched s), hsame]
    exact (Ladder.shows_quote (q := brought) hmatched).symm
  · have hadd : (b.add q.side q.addition).quotes f s n = b.quotes f s n := by
      cases hq : q.side <;> cases s <;> simp_all [Barrier.quotes, Barrier.add, Barrier.pending]
    rw [hadd, Ladder.heed, if_neg hs, hsame]

/-- The removal comes first in the replica and last in the cache. -/
theorem InStep.same_withdrawal (h : InStep f ms c b r) {w : Withdrawal}
    (hm : InOrder f (ms ++ [.withdrawal w])) (s : Side) (p : String) (n : BatchId) (x : Addition) :
    ((c s).heed s (.withdrawal w)).Shows x ↔
      ((r.book s).follow f s ((b.remove w.item).update p n)).Shows x := by
  have hsame := h.same s p n x
  have hother : ∀ q ∈ b.quotes f s n, q.item ≠ w.item := by
    intro q hq heq
    obtain ⟨a, ha, rfl⟩ := List.mem_map.mp hq
    obtain ⟨m, hmem, hadd⟩ := h.pending s a ha
    exact hm.last_fits m hmem (hadd.trans (congrArg some heq))
  have hbase : (b.removed.foldl Ladder.discard
      (if b.rebuilt then (r.book s).clear else r.book s)).Matched := by
    refine Ladder.matched_foldl_discard ?_ _
    split
    · exact (r.book s).matched_clear
    · exact h.book_matched s
  rw [Ladder.follow_update] at hsame ⊢
  have hcommute := Ladder.shows_discard_foldl_quote hbase hother x
  have hright : ((b.remove w.item).quotes f s n).foldl Ladder.quote
      ((b.remove w.item).removed.foldl Ladder.discard
        (if (b.remove w.item).rebuilt then (r.book s).clear else r.book s)) =
      (b.quotes f s n).foldl Ladder.quote ((b.removed.foldl Ladder.discard
        (if b.rebuilt then (r.book s).clear else r.book s)).discard w.item) := by
    have hq : (b.remove w.item).quotes f s n = b.quotes f s n := by cases s <;> rfl
    have hr : (b.remove w.item).removed = b.removed ++ [w.item] := rfl
    rw [hq, hr, List.foldl_append]
    rfl
  rw [hright, ← hcommute, Ladder.shows_discard, ← hsame, Ladder.heed]
  by_cases hs : w.side = s
  · rw [if_pos hs, Ladder.shows_discard]
  · rw [if_neg hs]
    refine ⟨fun hx => ⟨hx, fun heq => hs ?_⟩, And.left⟩
    obtain ⟨m, hmem, hon⟩ := h.used s x hx
    refine hm.side_eq (i := w.item) (List.mem_append_right _ (List.mem_singleton_self _))
      (List.mem_append_left _ hmem) (by simp [itemOn?]) ?_
    rw [hon, heq]

theorem InStep.same_turn (h : InStep f ms c b r) {m : Message} (hm : InOrder f (ms ++ [m]))
    (product : String) (s : Side) (p : String) (n : BatchId) (x : Addition) :
    ((c s).heed s m).Shows x ↔
      ((((b.turn product m).2.toList.foldl (Replica.take f) r).book s).follow f s
        ((b.turn product m).1.update p n)).Shows x := by
  cases m with
  | quote q => exact h.same_quote q s p n x
  | withdrawal w => exact h.same_withdrawal hm s p n x
  | trade t => exact h.same s p n x
  | rebuild e =>
    obtain ⟨hpending, hremoved⟩ := h.unchanged hm.last_fits
    have hq : (b.setRebuilt true).quotes f s n = [] := by
      have : (b.setRebuilt true).pending s = b.pending s := by cases s <;> rfl
      rw [Barrier.quotes, this, hpending s]
      rfl
    have hr : (b.setRebuilt true).removed = [] := hremoved
    have ht : (b.setRebuilt true).rebuilt = true := rfl
    have hfollow : (r.book s).follow f s ((b.setRebuilt true).update p n) = (r.book s).clear := by
      rw [Ladder.follow_update, hq, hr, ht]
      rfl
    show (c s).clear.Shows x ↔ ((r.book s).follow f s ((b.setRebuilt true).update p n)).Shows x
    rw [hfollow]
    exact iff_of_false ((c s).not_shows_clear x) ((r.book s).not_shows_clear x)
  | batchEnd e =>
    cases hc : b.hasChanges with
    | true =>
      have hturn : b.turn product (.batchEnd e) = ({}, some (b.update product e.batch)) := by
        simp [Barrier.turn, hc]
      rw [hturn]
      show (c s).Shows x ↔ (((r.take f (b.update product e.batch)).book s).follow f s
        (({} : Barrier).update p n)).Shows x
      rw [Replica.book_take, h.same s product e.batch]
      cases s <;> exact Iff.rfl
    | false =>
      have hturn : b.turn product (.batchEnd e) = ({ rebuilt := b.rebuilt }, none) := by
        simp [Barrier.turn, hc]
      obtain ⟨hpending, hremoved⟩ := b.pending_of_unchanged hc
      have hb : b.quotes f s n = [] := by
        rw [Barrier.quotes, hpending s]
        rfl
      have hsame := h.same s p n x
      rw [Ladder.follow_update, hb, hremoved] at hsame
      rw [hturn]
      show (c s).Shows x ↔ ((r.book s).follow f s (({ rebuilt := b.rebuilt } : Barrier).update p n)).Shows x
      rw [Ladder.follow_update, hsame]
      cases s <;> exact Iff.rfl

theorem InStep.step (h : InStep f ms c b r) {m : Message} (hm : InOrder f (ms ++ [m]))
    (product : String) :
    InStep f (ms ++ [m]) (fun s => (c s).heed s m) (b.turn product m).1
      ((b.turn product m).2.toList.foldl (Replica.take f) r) where
  matched s := Ladder.matched_heed (h.matched s) s m
  side s := (Ladder.side_heed (c s) s m).trans (h.side s)
  book_matched s := by
    cases (b.turn product m).2 with
    | none => exact h.book_matched s
    | some u =>
      rw [Option.toList_some, List.foldl_cons, List.foldl_nil, Replica.book_take]
      exact Ladder.matched_follow (h.book_matched s) f s u
  book_side s := by
    cases (b.turn product m).2 with
    | none => exact h.book_side s
    | some u =>
      rw [Option.toList_some, List.foldl_cons, List.foldl_nil, Replica.book_take, Ladder.side_follow]
      exact h.book_side s
  committed := Barrier.isCommitted_turn h.committed product m
  used s x hx := by
    rcases Ladder.shows_of_heed (h.matched s) hx with hx | hx
    · obtain ⟨y, hy, hon⟩ := h.used s x hx
      exact ⟨y, List.mem_append_left _ hy, hon⟩
    · exact ⟨m, List.mem_append_right _ (List.mem_singleton_self m), hx⟩
  pending s a ha := by
    obtain ⟨hend, ha⟩ := Barrier.mem_pending_turn ha
    rw [openBatch_snoc, hend]
    rcases ha with ha | ha
    · obtain ⟨y, hy, hadd⟩ := h.pending s a ha
      exact ⟨y, List.mem_append_left _ hy, hadd⟩
    · exact ⟨m, List.mem_append_right _ (List.mem_singleton_self m), ha⟩
  removed i hi := by
    obtain ⟨hend, hi⟩ := Barrier.mem_removed_turn hi
    rw [openBatch_snoc, hend]
    rcases hi with hi | hi
    · obtain ⟨y, hy, hc⟩ := h.removed i hi
      exact ⟨y, List.mem_append_left _ hy, hc⟩
    · exact ⟨m, List.mem_append_right _ (List.mem_singleton_self m), hi⟩
  same := h.same_turn hm product

theorem InStep.entries_eq (h : InStep f ms c b r) (hb : b = { rebuilt := false }) (s : Side) :
    (c s).entries = (r.book s).entries := by
  refine Ladder.entries_eq (h.matched s) (h.book_matched s) ((h.side s).trans (h.book_side s).symm) ?_
  intro x
  have hsame := h.same s "" ⟨0⟩ x
  subst hb
  rw [hsame]
  cases s <;> exact Iff.rfl

end

end QuoteBoard
