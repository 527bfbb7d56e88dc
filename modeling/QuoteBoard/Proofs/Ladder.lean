import Mathlib.Data.List.Nodup
import QuoteBoard.Book.Ladder
import Std.Data.TreeMap.Lemmas

/-!
# The two indexes of a ladder

A ladder keeps its levels by item and, beside them, the owner of each price. `Ladder.Matched` says
that the two describe the same levels; every operation keeps it. `Ladder.Holds` is what the ladder
shows, and for each operation one equivalence says what it does to the levels held: a quote drives
out its item and its price, a removal its item. Read in rank order the held levels are listed once
each, strictly best first (`mem_toList`, `pairwise_toList`, `length_toList`).
-/

namespace QuoteBoard

/-! ## Orders -/

instance : Std.TransOrd Price := inferInstanceAs (Std.TransCmp (compareOn Price.ticks))

instance : Std.LawfulEqOrd Price where
  eq_of_compare {a b} h := by
    have h : compare a.ticks b.ticks = .eq := h
    rw [Std.LawfulEqCmp.compare_eq_iff_eq] at h
    cases a; cases b
    cases h
    rfl

instance : Std.TransOrd ItemId := inferInstanceAs (Std.TransCmp (compareOn ItemId.name))

instance : Std.LawfulEqOrd ItemId where
  eq_of_compare {a b} h := by
    have h : compare a.name b.name = .eq := h
    rw [Std.LawfulEqCmp.compare_eq_iff_eq] at h
    cases a; cases b
    cases h
    rfl

/-- A price stands strictly before another: the higher bid, the lower offer. -/
def Side.Ahead : Side → Price → Price → Prop
  | .bid, a, b => b.ticks < a.ticks
  | .offer, a, b => a.ticks < b.ticks

theorem Side.rank_eq_lt (s : Side) (a b : Price) : s.rank a b = .lt ↔ s.Ahead a b := by
  cases s with
  | bid => exact Std.compare_eq_lt (a := b.ticks) (b := a.ticks)
  | offer => exact Std.compare_eq_lt (a := a.ticks) (b := b.ticks)

theorem Side.Ahead.ne {s : Side} {a b : Price} (h : s.Ahead a b) : a ≠ b := by
  rintro rfl
  cases s with
  | bid => exact Int64.lt_irrefl h
  | offer => exact Int64.lt_irrefl h

theorem Side.Ahead.asymm {s : Side} {a b : Price} (h : s.Ahead a b) : ¬ s.Ahead b a := by
  cases s with
  | bid => exact Int64.lt_asymm h
  | offer => exact Int64.lt_asymm h

theorem values_eq_map_toList {α β : Type} {cmp : α → α → Ordering} (t : Std.TreeMap α β cmp) :
    t.values = t.toList.map (·.2) := by
  show t.inner.inner.values = (Std.DTreeMap.Internal.Impl.Const.toList t.inner.inner).map (·.2)
  rw [Std.DTreeMap.Internal.Impl.values_eq_map_snd,
    Std.DTreeMap.Internal.Impl.Const.toList_eq_toListModel_map]
  simp

namespace Ladder

/-! ## Matching indexes -/

def Holds (b : Ladder) (l : Level) : Prop := b.levels[l.item]? = some l

/-- Each level stands under its own item, and a price is owned by the item whose level has it. -/
structure Matched (b : Ladder) : Prop where
  keyed : ∀ {i : ItemId} {l : Level}, b.levels[i]? = some l → l.item = i
  owner_iff : ∀ {p : Price} {i : ItemId},
    b.owners[p]? = some i ↔ ∃ l, b.levels[i]? = some l ∧ l.price = p

theorem matched_empty (s : Side) : (empty s).Matched where
  keyed h := by simp [empty] at h
  owner_iff := by simp [empty]

theorem not_holds_empty (s : Side) (l : Level) : ¬ (empty s).Holds l := by
  simp [Holds, empty]

theorem Matched.holds {b : Ladder} (hb : b.Matched) {i : ItemId} {l : Level}
    (h : b.levels[i]? = some l) : b.Holds l := by
  unfold Holds
  rw [hb.keyed h]
  exact h

theorem Matched.owner {b : Ladder} (hb : b.Matched) {l : Level} (h : b.Holds l) :
    b.owners[l.price]? = some l.item :=
  hb.owner_iff.mpr ⟨l, h, rfl⟩

theorem Holds.eq_of_item {b : Ladder} {l m : Level} (hl : b.Holds l) (hm : b.Holds m)
    (h : l.item = m.item) : l = m := by
  unfold Holds at hl hm
  rw [h, hm] at hl
  exact (Option.some.inj hl).symm

/-! ## Taking an item off -/

def discard (b : Ladder) (i : ItemId) : Ladder := (b.remove? i).getD b

theorem remove?_eq_none {b : Ladder} {i : ItemId} : b.remove? i = none ↔ b.levels[i]? = none := by
  unfold remove?
  cases b.levels[i]? <;> simp

@[simp] theorem side_discard (b : Ladder) (i : ItemId) : (b.discard i).side = b.side := by
  unfold discard remove?
  cases b.levels[i]? <;> rfl

theorem levels_discard (b : Ladder) (i j : ItemId) :
    (b.discard i).levels[j]? = if i = j then none else b.levels[j]? := by
  unfold discard remove?
  cases h : b.levels[i]? with
  | none =>
    by_cases hij : i = j
    · simp [← hij, h]
    · simp [hij]
  | some l => simp [Std.TreeMap.getElem?_erase, Std.LawfulEqCmp.compare_eq_iff_eq]

theorem owners_discard {b : Ladder} (hb : b.Matched) (i : ItemId) (p : Price) :
    (b.discard i).owners[p]? = if b.owners[p]? = some i then none else b.owners[p]? := by
  unfold discard remove?
  cases h : b.levels[i]? with
  | none =>
    have hp : b.owners[p]? ≠ some i := fun hp => by
      obtain ⟨l, hl, _⟩ := hb.owner_iff.mp hp
      rw [h] at hl; cases hl
    simp [hp]
  | some l =>
    have hl : b.owners[l.price]? = some i := hb.owner_iff.mpr ⟨l, h, rfl⟩
    have hp : b.owners[p]? = some i ↔ l.price = p := by
      rw [hb.owner_iff, h]
      simp
    simp [hl, hp, Std.TreeMap.getElem?_erase, Std.LawfulEqCmp.compare_eq_iff_eq]

theorem matched_discard {b : Ladder} (hb : b.Matched) (i : ItemId) : (b.discard i).Matched where
  keyed {j l} h := by
    rw [levels_discard] at h
    split at h
    · cases h
    · exact hb.keyed h
  owner_iff {p j} := by
    rw [owners_discard hb, levels_discard]
    by_cases hij : i = j
    · subst hij
      by_cases hp : b.owners[p]? = some i <;> simp [hp]
    · by_cases hp : b.owners[p]? = some i
      · -- the price was owned by `i`, so no other item stands at it
        simp only [hp, hij, if_true, if_false]
        rw [← hb.owner_iff, hp]
        simp [hij]
      · simp only [hp, hij, if_false]
        exact hb.owner_iff

theorem holds_discard {b : Ladder} {i : ItemId} {l : Level} :
    (b.discard i).Holds l ↔ b.Holds l ∧ l.item ≠ i := by
  unfold Holds
  rw [levels_discard]
  by_cases h : i = l.item
  · simp [h]
  · simp [h, Ne.symm h]

/-! ## Quoting -/

@[simp] theorem side_place (b : Ladder) (q : Quote) : (b.place q).side = b.side := rfl

theorem owners_place (b : Ladder) (q : Quote) (p : Price) :
    (b.place q).owners[p]? = if q.price = p then some q.item else b.owners[p]? := by
  simp [place, Std.TreeMap.getElem?_insert, Std.LawfulEqCmp.compare_eq_iff_eq]

theorem levels_place (b : Ladder) (q : Quote) (j : ItemId) :
    (b.place q).levels[j]? =
      if q.item = j then some q.level
      else if b.owners[q.price]? = some j then none else b.levels[j]? := by
  unfold place
  cases h : b.owners[q.price]? <;>
    simp [Std.TreeMap.getElem?_insert, Std.TreeMap.getElem?_erase, Std.LawfulEqCmp.compare_eq_iff_eq]

theorem matched_place {b : Ladder} (hb : b.Matched) {q : Quote} (hq : b.levels[q.item]? = none) :
    (b.place q).Matched where
  keyed {j l} h := by
    rw [levels_place] at h
    split at h
    · rename_i hj
      rw [← Option.some.inj h, ← hj]
      rfl
    · split at h
      · cases h
      · exact hb.keyed h
  owner_iff {p j} := by
    rw [owners_place, levels_place]
    have hfree : b.owners[p]? ≠ some q.item := fun hp => by
      obtain ⟨l, hl, _⟩ := hb.owner_iff.mp hp
      rw [hq] at hl; cases hl
    by_cases hp : q.price = p
    · subst hp
      by_cases hj : q.item = j
      · simp [hj, Quote.level]
      · simp only [hj, if_true, if_false, Option.some.injEq, false_iff]
        rintro ⟨l, hl, hlp⟩
        split at hl
        · cases hl
        · rename_i hown
          exact hown (hb.owner_iff.mpr ⟨l, hl, hlp⟩)
    · by_cases hj : q.item = j
      · subst hj
        simp [hp, hfree, Quote.level]
      · simp only [hp, hj, if_false]
        rw [hb.owner_iff]
        by_cases hown : b.owners[q.price]? = some j
        · -- the evicted item stands at the price of the quote only
          obtain ⟨l, hl, hlp⟩ := hb.owner_iff.mp hown
          simp [hown, hl, hlp, hp]
        · simp [hown]

theorem quote_eq (b : Ladder) (q : Quote) : b.quote q = (b.discard q.item).place q := rfl

@[simp] theorem side_quote (b : Ladder) (q : Quote) : (b.quote q).side = b.side := by
  simp [quote_eq]

theorem matched_quote {b : Ladder} (hb : b.Matched) (q : Quote) : (b.quote q).Matched := by
  rw [quote_eq]
  refine matched_place (matched_discard hb q.item) ?_
  simp [levels_discard]

/-- A quote drives out its own item and whoever stands at its price. -/
theorem holds_quote {b : Ladder} (hb : b.Matched) {q : Quote} {l : Level} :
    (b.quote q).Holds l ↔ l = q.level ∨ b.Holds l ∧ l.item ≠ q.item ∧ l.price ≠ q.price := by
  have hd := matched_discard hb q.item
  unfold Holds
  rw [quote_eq, levels_place, owners_discard hb, levels_discard]
  by_cases hi : q.item = l.item
  · simp only [hi, if_true, Option.some.injEq, ne_eq, not_true, false_and, and_false, or_false]
    exact eq_comm
  · have hne : l ≠ q.level := fun h => hi (by rw [h]; rfl)
    simp only [hi, hne, if_false, false_or, Ne.symm hi, not_false_iff, true_and, ne_eq]
    by_cases hown : b.owners[q.price]? = some l.item
    · have hp : b.Holds l → l.price = q.price := fun hl => by
        obtain ⟨m, hm, hmp⟩ := hb.owner_iff.mp hown
        rw [← hmp, ← Option.some.inj (hm.symm.trans hl)]
      simp only [hown, Option.some.injEq, Ne.symm hi, if_false, if_true, reduceCtorEq, false_iff]
      intro h
      exact h.2 (hp h.1)
    · have hp : b.Holds l → l.price ≠ q.price := fun hl h => hown (h ▸ hb.owner hl)
      have hkept : (if b.owners[q.price]? = some q.item then none else b.owners[q.price]?) ≠
          some l.item := by
        split
        · simp
        · exact hown
      simp only [hkept, if_false]
      constructor
      · intro h
        exact ⟨h, hp h⟩
      · intro h
        exact h.1

/-! ## Clearing -/

theorem matched_clear (b : Ladder) : b.clear.Matched := matched_empty b.side

theorem not_holds_clear (b : Ladder) (l : Level) : ¬ b.clear.Holds l := not_holds_empty b.side l

/-! ## Reading in rank order -/

def ranking (b : Ladder) : List (Price × ItemId) :=
  match b.side with
  | .bid => b.owners.toList.reverse
  | .offer => b.owners.toList

theorem items_eq (b : Ladder) : b.items = b.ranking.map (·.2) := by
  unfold items ranking
  cases b.side <;> simp [values_eq_map_toList]

theorem mem_ranking {b : Ladder} {p : Price} {i : ItemId} :
    (p, i) ∈ b.ranking ↔ b.owners[p]? = some i := by
  unfold ranking
  cases b.side <;> simp [Std.TreeMap.mem_toList_iff_getElem?_eq_some]

theorem pairwise_ranking (b : Ladder) :
    b.ranking.Pairwise fun x y => b.side.Ahead x.1 y.1 := by
  have h := b.owners.ordered_keys_toList
  unfold ranking
  cases b.side with
  | bid =>
    rw [List.pairwise_reverse]
    apply h.imp
    intro x y hxy
    exact (Side.rank_eq_lt .offer _ _).mp hxy
  | offer =>
    apply h.imp
    intro x y hxy
    exact (Side.rank_eq_lt .offer _ _).mp hxy

theorem toList_eq (b : Ladder) : b.toList = b.ranking.filterMap fun x => b.levels[x.2]? := by
  unfold toList
  rw [items_eq, List.filterMap_map]
  rfl

theorem mem_toList {b : Ladder} (hb : b.Matched) {l : Level} : l ∈ b.toList ↔ b.Holds l := by
  rw [toList_eq, List.mem_filterMap]
  constructor
  · rintro ⟨x, _, hx⟩
    exact hb.holds hx
  · intro hl
    exact ⟨(l.price, l.item), mem_ranking.mpr (hb.owner hl), hl⟩

theorem pairwise_toList {b : Ladder} (hb : b.Matched) :
    b.toList.Pairwise fun l m => b.side.Ahead l.price m.price := by
  have hprice : ∀ x ∈ b.ranking, ∀ l, b.levels[x.2]? = some l → l.price = x.1 := by
    intro x hx l hl
    obtain ⟨m, hm, hmp⟩ := hb.owner_iff.mp (mem_ranking.mp hx)
    rw [← hmp, ← Option.some.inj (hm.symm.trans hl)]
  rw [toList_eq, List.pairwise_filterMap]
  refine b.pairwise_ranking.imp_of_mem ?_
  intro x y hx hy hxy l hl m hm
  rw [hprice x hx l hl, hprice y hy m hm]
  exact hxy

theorem nodup_toList {b : Ladder} (hb : b.Matched) : b.toList.Nodup :=
  (pairwise_toList hb).imp fun h heq => h.ne (congrArg Level.price heq)

theorem length_toList {b : Ladder} (hb : b.Matched) : b.toList.length = b.depth := by
  have hperm : (b.toList.map (·.item)).Perm b.levels.keys := by
    refine (List.perm_ext_iff_of_nodup ?_ Std.TreeMap.nodup_keys).mpr fun i => ?_
    · refine List.Nodup.map_on ?_ (nodup_toList hb)
      intro l hl m hm h
      exact ((mem_toList hb).mp hl).eq_of_item ((mem_toList hb).mp hm) h
    · rw [Std.TreeMap.mem_keys, List.mem_map, Std.TreeMap.mem_iff_isSome_getElem?,
        Option.isSome_iff_exists]
      constructor
      · rintro ⟨l, hl, rfl⟩
        exact ⟨l, (mem_toList hb).mp hl⟩
      · rintro ⟨l, hl⟩
        exact ⟨l, (mem_toList hb).mpr (hb.holds hl), hb.keyed hl⟩
  rw [← List.length_map (fun l : Level => l.item), hperm.length_eq, Std.TreeMap.length_keys]
  rfl

end Ladder

end QuoteBoard
