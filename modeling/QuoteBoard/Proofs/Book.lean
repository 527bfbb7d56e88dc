import QuoteBoard.Book
import QuoteBoard.Proofs.Ladder

/-!
# What a book shows

A book shows the same levels by rank, as a list and in number, whatever its policy (`Book.level_eq`,
`Book.depth_eq`). Only a ladder could fail to: its two indexes have to match (`Book.Coherent`), and
every operation keeps that. A withdrawal takes effect exactly when its item is shown
(`remove_applied_iff`).
-/

namespace QuoteBoard

namespace Ladder

theorem getElem?_filterMap_of_isSome {α β : Type} {f : α → Option β} {as : List α}
    (h : ∀ a ∈ as, (f a).isSome) (n : Nat) : (as.filterMap f)[n]? = as[n]?.bind f := by
  induction as generalizing n with
  | nil => rfl
  | cons a as ih =>
    obtain ⟨b, hb⟩ := Option.isSome_iff_exists.mp (h a (List.mem_cons_self ..))
    have ih := ih fun x hx => h x (List.mem_cons_of_mem _ hx)
    cases n with
    | zero => simp [hb]
    | succ n => simp [hb, ih]

theorem isSome_of_mem_items {b : Ladder} (hb : b.Matched) {i : ItemId} (hi : i ∈ b.items) :
    b.levels[i]?.isSome := by
  rw [items_eq] at hi
  obtain ⟨⟨p, j⟩, hj, rfl⟩ := List.mem_map.mp hi
  obtain ⟨l, hl, _⟩ := hb.owner_iff.mp (mem_ranking.mp hj)
  rw [hl]
  rfl

theorem level_eq {b : Ladder} (hb : b.Matched) (n : Nat) : b.level n = b.toList[n]? :=
  (getElem?_filterMap_of_isSome (fun _ hi => isSome_of_mem_items hb hi) n).symm

theorem exists_item_iff {b : Ladder} (hb : b.Matched) (i : ItemId) :
    (∃ l ∈ b.toList, l.item = i) ↔ (b.remove? i).isSome := by
  rw [← not_iff_not, Option.not_isSome_iff_eq_none, remove?_eq_none]
  constructor
  · intro hno
    cases hl : b.levels[i]? with
    | none => rfl
    | some l => exact absurd ⟨l, (mem_toList hb).mpr (hb.holds hl), hb.keyed hl⟩ hno
  · rintro hnone ⟨l, hl, rfl⟩
    have hheld : b.levels[l.item]? = some l := (mem_toList hb).mp hl
    rw [hnone] at hheld
    cases hheld

end Ladder

namespace Book

theorem remove_ladder (l : Ladder) (i : ItemId) :
    (ladder l).remove i =
      (ladder (l.discard i), if (l.remove? i).isSome then .applied else .unknown) := by
  unfold Ladder.discard
  simp only [remove]
  cases l.remove? i <;> rfl

theorem remove_top (best : Option Level) (i : ItemId) :
    (top best).remove i =
      (top (best.filter fun l => l.item ≠ i),
        if best.any fun l => l.item = i then .applied else .ignored) := by
  cases best with
  | none => rfl
  | some l => by_cases h : l.item = i <;> simp [remove, Option.filter, h]

def Coherent : Book → Prop
  | ladder l => l.Matched
  | _ => True

variable {b : Book}

theorem coherent_empty (p : Policy) (s : Side) : (empty p s).Coherent := by
  cases p with
  | fullDepth => exact Ladder.matched_empty s
  | topOfBook => trivial
  | tradeOnly => trivial

theorem Coherent.quote (h : b.Coherent) (q : Quote) : (b.quote q).1.Coherent := by
  cases b with
  | ladder l => exact Ladder.matched_quote h q
  | top _ => trivial
  | bare => trivial

theorem Coherent.remove (h : b.Coherent) (i : ItemId) : (b.remove i).1.Coherent := by
  cases b with
  | ladder l =>
    rw [remove_ladder]
    exact Ladder.matched_discard h i
  | top best =>
    rw [remove_top]
    trivial
  | bare => trivial

theorem coherent_clear (h : b.Coherent) : b.clear.Coherent := by
  cases b with
  | ladder l => exact l.matched_clear
  | top _ => trivial
  | bare => trivial

/-! ## Policies -/

theorem policy_empty (p : Policy) (s : Side) : (empty p s).policy = p := by cases p <;> rfl

theorem policy_quote (b : Book) (q : Quote) : (b.quote q).1.policy = b.policy := by
  cases b <;> rfl

theorem policy_remove (b : Book) (i : ItemId) : (b.remove i).1.policy = b.policy := by
  cases b with
  | ladder l => rw [remove_ladder]; rfl
  | top best => rw [remove_top]; rfl
  | bare => rfl

theorem policy_clear (b : Book) : b.clear.policy = b.policy := by cases b <;> rfl

/-! ## Reading -/

theorem level_eq (h : b.Coherent) (n : Nat) : b.level n = b.levels[n]? := by
  cases b with
  | ladder l => exact Ladder.level_eq h n
  | top best => cases best <;> cases n <;> rfl
  | bare => rfl

theorem depth_eq (h : b.Coherent) : b.depth = b.levels.length := by
  cases b with
  | ladder l => exact (Ladder.length_toList h).symm
  | top best => cases best <;> rfl
  | bare => rfl

/-! ## Effects -/

theorem quote_applied_iff (b : Book) (q : Quote) :
    (b.quote q).2 = .applied ↔ b.policy ≠ .tradeOnly := by
  cases b <;> simp [Book.quote, policy]

theorem remove_applied_iff (h : b.Coherent) (i : ItemId) :
    (b.remove i).2 = .applied ↔ ∃ l ∈ b.levels, l.item = i := by
  cases b with
  | ladder l =>
    rw [remove_ladder, levels, Ladder.exists_item_iff h]
    cases (l.remove? i).isSome <;> simp
  | top best =>
    rw [remove_top]
    cases best with
    | none => simp [levels]
    | some l => by_cases hl : l.item = i <;> simp [levels, hl]
  | bare => simp [remove, levels]

theorem remove_of_not_applied {i : ItemId} (h : (b.remove i).2 ≠ .applied) :
    (b.remove i).1 = b := by
  cases b with
  | ladder l =>
    rw [remove_ladder] at h ⊢
    cases hr : l.remove? i <;> simp_all [Ladder.discard]
  | top best =>
    rw [remove_top] at h ⊢
    cases best with
    | none => rfl
    | some l => by_cases hl : l.item = i <;> simp_all
  | bare => rfl

end Book

end QuoteBoard
