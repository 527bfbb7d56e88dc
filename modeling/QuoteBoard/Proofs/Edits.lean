import QuoteBoard.Proofs.Book

/-!
# Edits of a book

A book is edited by quotes, removals and clearings. Whatever the edits, it keeps its policy and its
indexes match (`Book.Coherent.editAll`), so a ladder shows the same levels by rank, as a list and in
number. A removal takes its item off or changes nothing; by how much a quote changes the number of
levels hangs on whether its item and its price were held (`Ladder.depth_quote`). The main statement
is `indexes_of_edits`.
-/

namespace QuoteBoard

namespace Ladder

/-! ## The number of levels -/

theorem size_erase_add (t : Std.TreeMap ItemId Level) (i : ItemId) :
    (t.erase i).size + (if t[i]?.isSome then 1 else 0) = t.size := by
  rw [Std.TreeMap.size_erase, Std.TreeMap.contains_eq_isSome_getElem?]
  by_cases h : t[i]?.isSome
  · have hmem : i ∈ t.keys := by rwa [Std.TreeMap.mem_keys, Std.TreeMap.mem_iff_isSome_getElem?]
    have hpos := List.length_pos_of_mem hmem
    rw [Std.TreeMap.length_keys] at hpos
    simp only [h, if_true]
    omega
  · simp only [h, Bool.false_eq_true, if_false, Nat.add_zero]

section
variable {b : Ladder}

theorem depth_discard (b : Ladder) (i : ItemId) :
    (b.discard i).depth + (if (b.remove? i).isSome then 1 else 0) = b.depth := by
  have hsize := size_erase_add b.levels i
  unfold discard remove? depth
  cases h : b.levels[i]? with
  | none => rfl
  | some l => rwa [h] at hsize

theorem depth_place (hb : b.Matched) {q : Quote} (hq : b.levels[q.item]? = none) :
    (b.place q).depth + (if b.owners[q.price]?.isSome then 1 else 0) = b.depth + 1 := by
  have hinsert : ∀ t : Std.TreeMap ItemId Level, t[q.item]? = none →
      (t.insert q.item q.level).size = t.size + 1 := by
    intro t ht
    rw [Std.TreeMap.size_insert, Std.TreeMap.contains_eq_isSome_getElem?, ht]
    rfl
  unfold place depth
  cases h : b.owners[q.price]? with
  | none => exact hinsert b.levels hq
  | some j =>
    obtain ⟨l, hl, _⟩ := hb.owner_iff.mp h
    have hsize := size_erase_add b.levels j
    rw [hl] at hsize
    have hgone : (b.levels.erase j)[q.item]? = none := by
      rw [Std.TreeMap.getElem?_erase, hq, ite_self]
    show ((b.levels.erase j).insert q.item q.level).size + 1 = b.levels.size + 1
    rw [hinsert _ hgone, ← hsize]
    rfl

theorem exists_price_iff (hb : b.Matched) (p : Price) :
    (∃ l ∈ b.toList, l.price = p) ↔ b.owners[p]?.isSome := by
  rw [Option.isSome_iff_exists]
  constructor
  · rintro ⟨l, hl, rfl⟩
    exact ⟨l.item, hb.owner ((mem_toList hb).mp hl)⟩
  · rintro ⟨i, hi⟩
    obtain ⟨l, hl, hlp⟩ := hb.owner_iff.mp hi
    exact ⟨l, (mem_toList hb).mpr (hb.holds hl), hlp⟩

theorem eq_of_price (hb : b.Matched) {l m : Level} (hl : l ∈ b.toList) (hm : m ∈ b.toList)
    (h : l.price = m.price) : l = m := by
  have hl := (mem_toList hb).mp hl
  have hm := (mem_toList hb).mp hm
  have howner := hb.owner hl
  rw [h, hb.owner hm] at howner
  exact hl.eq_of_item hm (Option.some.inj howner).symm

/-- By how much a quote changes the number of levels. -/
def gain (b : Ladder) (q : Quote) : Int :=
  if ∀ l ∈ b.toList, l.item ≠ q.item ∧ l.price ≠ q.price then 1
  else if (∃ l ∈ b.toList, l.item = q.item ∧ l.price ≠ q.price) ∧
    ∃ l ∈ b.toList, l.item ≠ q.item ∧ l.price = q.price then -1
  else 0

theorem depth_quote (hb : b.Matched) (q : Quote) : ((b.quote q).depth : Int) = b.depth + b.gain q := by
  have hd := matched_discard hb q.item
  have htaken : (∃ l ∈ b.toList, l.item ≠ q.item ∧ l.price = q.price) ↔
      (b.discard q.item).owners[q.price]?.isSome := by
    rw [← exists_price_iff hd]
    simp only [mem_toList hb, mem_toList hd, holds_discard, and_assoc]
  have hdiscard := b.depth_discard q.item
  have hplace := depth_place hd (q := q) (by rw [levels_discard, if_pos rfl])
  rw [← quote_eq] at hplace
  simp only [← htaken] at hplace
  simp only [← exists_item_iff hb] at hdiscard
  unfold gain
  by_cases hi : ∃ l ∈ b.toList, l.item = q.item
  · obtain ⟨l, hl, hli⟩ := hi
    have hheld : ¬ ∀ l ∈ b.toList, l.item ≠ q.item ∧ l.price ≠ q.price := fun h => (h l hl).1 hli
    rw [if_neg hheld]
    rw [if_pos ⟨l, hl, hli⟩] at hdiscard
    by_cases hp : ∃ l ∈ b.toList, l.item ≠ q.item ∧ l.price = q.price
    · obtain ⟨m, hm, hmi, hmp⟩ := hp
      -- the item cannot stand at the new price, another one does
      have hmoves : l.price ≠ q.price := fun h =>
        hmi (eq_of_price hb hm hl (hmp.trans h.symm) ▸ hli)
      rw [if_pos ⟨⟨l, hl, hli, hmoves⟩, m, hm, hmi, hmp⟩]
      rw [if_pos ⟨m, hm, hmi, hmp⟩] at hplace
      omega
    · rw [if_neg fun h => hp h.2]
      rw [if_neg hp] at hplace
      omega
  · rw [if_neg hi] at hdiscard
    by_cases hp : ∃ l ∈ b.toList, l.item ≠ q.item ∧ l.price = q.price
    · rw [if_neg, if_neg]
      · rw [if_pos hp] at hplace
        omega
      · rintro ⟨⟨l, hl, hli, _⟩, _⟩
        exact hi ⟨l, hl, hli⟩
      · obtain ⟨l, hl, _, hlp⟩ := hp
        exact fun h => (h l hl).2 hlp
    · have hfree : ∀ l ∈ b.toList, l.item ≠ q.item ∧ l.price ≠ q.price := by
        intro l hl
        have hli : l.item ≠ q.item := fun h => hi ⟨l, hl, h⟩
        exact ⟨hli, fun h => hp ⟨l, hl, hli, h⟩⟩
      rw [if_pos hfree]
      rw [if_neg hp] at hplace
      omega

end

end Ladder

/-! ## Edits -/

inductive Edit where
  | quote (q : Quote)
  | remove (i : ItemId)
  | clear
  deriving DecidableEq

namespace Book

def edit (b : Book) : Edit → Book
  | .quote q => (b.quote q).1
  | .remove i => (b.remove i).1
  | .clear => b.clear

def editAll (b : Book) (es : List Edit) : Book := es.foldl edit b

section
variable {b : Book}

theorem Coherent.edit (h : b.Coherent) (e : Edit) : (b.edit e).Coherent := by
  cases e with
  | quote q => exact h.quote q
  | remove i => exact h.remove i
  | clear => exact coherent_clear h

theorem Coherent.editAll (h : b.Coherent) (es : List Edit) : (b.editAll es).Coherent := by
  induction es generalizing b with
  | nil => exact h
  | cons e es ih => exact ih (h.edit e)

end

theorem edit_ladder (l : Ladder) (e : Edit) :
    ∃ m : Ladder, (ladder l).edit e = ladder m ∧ m.side = l.side := by
  cases e with
  | quote q => exact ⟨l.quote q, rfl, l.side_quote q⟩
  | remove i => exact ⟨l.discard i, by rw [edit, remove_ladder], l.side_discard i⟩
  | clear => exact ⟨l.clear, rfl, rfl⟩

theorem editAll_ladder (l : Ladder) (es : List Edit) :
    ∃ m : Ladder, (ladder l).editAll es = ladder m ∧ m.side = l.side := by
  induction es generalizing l with
  | nil => exact ⟨l, rfl, rfl⟩
  | cons e es ih =>
    obtain ⟨m, hm, hside⟩ := edit_ladder l e
    obtain ⟨n, hn, hsides⟩ := ih m
    refine ⟨n, ?_, hsides.trans hside⟩
    show ((ladder l).edit e).editAll es = ladder n
    rw [hm, hn]

/-- What holds of a full-depth book after any edits. The item that owns a price is the one whose
level has it, and each level stands under its own item; so no item of the ranking lacks a level, and
the levels by rank, as a list and in number are the same. A removal is applied when its item is held
and otherwise changes nothing, and a quote adds a level, merges two or keeps their number. -/
theorem indexes_of_edits (s : Side) (es : List Edit) :
    ∃ l : Ladder, (empty .fullDepth s).editAll es = ladder l ∧ l.side = s ∧
      (∀ (i : ItemId) (x : Level), l.levels[i]? = some x → x.item = i) ∧
      (∀ (p : Price) (i : ItemId),
        l.owners[p]? = some i ↔ ∃ x, l.levels[i]? = some x ∧ x.price = p) ∧
      (∀ i ∈ l.items, l.levels[i]?.isSome) ∧
      l.depth = l.toList.length ∧
      (∀ r, l.level r = l.toList[r]?) ∧ (∀ r, l.depth ≤ r → l.level r = none) ∧
      (∀ i, ((ladder l).remove i).2 = .applied ↔ ∃ x ∈ l.toList, x.item = i) ∧
      (∀ i, (¬ ∃ x ∈ l.toList, x.item = i) → (ladder l).remove i = (ladder l, .unknown)) ∧
      ∀ q, (((ladder l).quote q).1.depth : Int) = l.depth + l.gain q := by
  obtain ⟨l, hl, hside⟩ := editAll_ladder (.empty s) es
  have hcoherent := (coherent_empty .fullDepth s).editAll es
  have hl : (empty .fullDepth s).editAll es = ladder l := hl
  rw [hl] at hcoherent
  have hmatched : l.Matched := hcoherent
  have hlength := Ladder.length_toList hmatched
  refine ⟨l, hl, hside, fun _ _ => hmatched.keyed, fun _ _ => hmatched.owner_iff,
    fun _ => Ladder.isSome_of_mem_items hmatched, hlength.symm, Ladder.level_eq hmatched,
    fun r hr => ?_, remove_applied_iff hcoherent, fun i hi => ?_, Ladder.depth_quote hmatched⟩
  · rw [Ladder.level_eq hmatched]
    exact List.getElem?_eq_none (hlength ▸ hr)
  · rw [Ladder.exists_item_iff hmatched, Option.not_isSome_iff_eq_none] at hi
    rw [remove_ladder, Ladder.discard, hi]
    rfl

example :
    let q (i : String) (p : Int64) : Edit := .quote ⟨⟨"XYZ", 1⟩, ⟨i⟩, ⟨p⟩, ⟨1⟩, .bid, ⟨2⟩, 1⟩
    ((empty .fullDepth .bid).editAll [q "a" 100, q "b" 101, q "a" 101]).depth = 1 := by
  decide +kernel

end Book

end QuoteBoard
