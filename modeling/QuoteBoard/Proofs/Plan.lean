import Mathlib.Combinatorics.Pigeonhole
import Mathlib.Data.List.Nodup
import QuoteBoard.Replay.Plan

/-!
# What a plan promises

A plan that was not refused has each track once, waits only for planned tracks, and never comes back
to a track by following what it waits for (`Plan.Sound`, `sound_of_make`). So from every track the
way along the predecessors ends at a track that waits for none (`Sound.ends`): a track met twice
within as many steps as there are tracks would have been found by `firstCyclic?`.
-/

namespace QuoteBoard

namespace Plan

structure Sound (ps : List Planned) : Prop where
  distinct : (ps.map (·.number)).Nodup
  known : ∀ x ∈ ps, ∀ a, x.after = some a → a ∈ ps.map (·.number)
  acyclic : firstCyclic? ps = none

/-! ## Making a plan -/

theorem map_task_assign (chained : Bool) (known : List TrackNumber) (previous : Option TrackNumber)
    (ts : List Task) : (assign chained known previous ts).map (·.task) = ts := by
  induction ts generalizing previous with
  | nil => rfl
  | cons t ts ih => simp [assign, ih]

theorem numbers_assign (chained : Bool) (known : List TrackNumber) (previous : Option TrackNumber)
    (ts : List Task) : (assign chained known previous ts).map (·.number) = ts.map (·.number) := by
  have h := congrArg (List.map Task.number) (map_task_assign chained known previous ts)
  rw [List.map_map] at h
  exact h

theorem after_mem_known {chained : Bool} {known : List TrackNumber} {previous : Option TrackNumber}
    {ts : List Task} {x : Planned} (hx : x ∈ assign chained known previous ts) {a : TrackNumber}
    (ha : x.after = some a) : a ∈ known := by
  induction ts generalizing previous with
  | nil => cases hx
  | cons t ts ih =>
    rcases List.mem_cons.mp hx with rfl | hx
    · exact List.contains_iff_mem.mp (Option.filter_eq_some_iff.mp ha).2
    · exact ih hx

theorem eq_of_value_eq {m n : TrackNumber} (h : m.value = n.value) : m = n := by
  cases m
  cases n
  exact congrArg TrackNumber.mk h

theorem not_mem_of_ne_next {a b : Task} {ts : List Task}
    (hsorted : (a :: b :: ts).Pairwise fun a b => a.number.value ≤ b.number.value)
    (hab : a.number ≠ b.number) : a.number ∉ (b :: ts).map (·.number) := by
  obtain ⟨ha, hrest⟩ := List.pairwise_cons.mp hsorted
  intro hmem
  -- the neighbour lies between `a` and the repetition
  obtain ⟨c, hc, hca⟩ := List.mem_map.mp hmem
  have hca : c.number = a.number := hca
  have hbc : b.number.value ≤ c.number.value := by
    rcases List.mem_cons.mp hc with rfl | hc
    · exact UInt32.le_refl _
    · exact (List.pairwise_cons.mp hrest).1 c hc
  have hval : a.number.value = b.number.value :=
    UInt32.le_antisymm (ha b (List.mem_cons_self ..)) (hca ▸ hbc)
  exact hab (eq_of_value_eq hval)

theorem nodup_of_firstRepeated? {ts : List Task} (h : firstRepeated? ts = none)
    (hsorted : ts.Pairwise fun a b => a.number.value ≤ b.number.value) :
    (ts.map (·.number)).Nodup := by
  induction ts with
  | nil => exact List.nodup_nil
  | cons a ts ih =>
    cases ts with
    | nil => exact List.nodup_singleton _
    | cons b ts =>
      simp only [firstRepeated?] at h
      split at h
      · cases h
      · rename_i hab
        refine List.nodup_cons.mpr ⟨not_mem_of_ne_next hsorted hab, ih h ?_⟩
        exact (List.pairwise_cons.mp hsorted).2

theorem pairwise_sorted (ts : List Task) :
    (sorted ts).Pairwise fun a b => a.number.value ≤ b.number.value := by
  have htrans : ∀ a b c : Task, decide (a.number.value ≤ b.number.value) = true →
      decide (b.number.value ≤ c.number.value) = true →
        decide (a.number.value ≤ c.number.value) = true := by
    intro a b c hab hbc
    exact decide_eq_true (UInt32.le_trans (of_decide_eq_true hab) (of_decide_eq_true hbc))
  have htotal : ∀ a b : Task, (decide (a.number.value ≤ b.number.value) ||
      decide (b.number.value ≤ a.number.value)) = true := by
    intro a b
    simp only [Bool.or_eq_true, decide_eq_true_eq]
    exact UInt32.le_total _ _
  apply (List.pairwise_mergeSort htrans htotal ts).imp
  intro a b hab
  exact of_decide_eq_true hab

/-- The tasks with what they wait for, before it is looked at for circles. -/
def draft (chained : Bool) (ts : List Task) : List Planned :=
  assign chained ((sorted ts).map (·.number)) none (sorted ts)

theorem make_eq (chained : Bool) (ts : List Task) :
    (make chained ts).2 =
      match firstRepeated? (sorted ts) with
      | some n => .error (.duplicateTrack n)
      | none =>
        match firstCyclic? (draft chained ts) with
        | some n => .error (.dependencyCycle n)
        | none => .ok (draft chained ts) := by
  simp only [make, draft]
  cases firstRepeated? (sorted ts) <;> rfl

theorem perm_draft (chained : Bool) (ts : List Task) : ((draft chained ts).map (·.task)).Perm ts := by
  rw [draft, map_task_assign]
  exact List.mergeSort_perm ts _

theorem numbers_draft (chained : Bool) (ts : List Task) :
    ((draft chained ts).map (·.number)).Perm (ts.map (·.number)) := by
  rw [draft, numbers_assign]
  exact (List.mergeSort_perm ts _).map _

theorem draft_of_make {chained : Bool} {ts : List Task} {ps : List Planned}
    (h : (make chained ts).2 = .ok ps) :
    firstRepeated? (sorted ts) = none ∧ firstCyclic? (draft chained ts) = none ∧
      ps = draft chained ts := by
  rw [make_eq] at h
  cases hrep : firstRepeated? (sorted ts) with
  | some n => simp [hrep] at h
  | none =>
    cases hcyc : firstCyclic? (draft chained ts) with
    | some n => simp [hrep, hcyc] at h
    | none =>
      simp only [hrep, hcyc, Except.ok.injEq] at h
      exact ⟨rfl, rfl, h.symm⟩

theorem sound_of_make {chained : Bool} {ts : List Task} {ps : List Planned}
    (h : (make chained ts).2 = .ok ps) : Sound ps ∧ (ps.map (·.task)).Perm ts := by
  obtain ⟨hrep, hcyc, rfl⟩ := draft_of_make h
  refine ⟨⟨?_, ?_, hcyc⟩, perm_draft chained ts⟩
  · rw [draft, numbers_assign]
    exact nodup_of_firstRepeated? hrep (pairwise_sorted ts)
  · intro x hx a ha
    rw [draft, numbers_assign]
    exact after_mem_known hx ha

/-! ## Following the predecessors -/

def ancestor? (ps : List Planned) : Nat → TrackNumber → Option TrackNumber
  | 0, n => some n
  | k + 1, n => (predecessor? ps n).bind (ancestor? ps k)

theorem ancestor?_add (ps : List Planned) (i k : Nat) (n : TrackNumber) :
    ancestor? ps (i + k) n = (ancestor? ps i n).bind (ancestor? ps k) := by
  induction i generalizing n with
  | zero => simp [ancestor?]
  | succ i ih =>
    rw [Nat.succ_add, ancestor?, ancestor?, Option.bind_assoc]
    congr 1
    funext m
    exact ih m

theorem reaches_iff {ps : List Planned} {goal n : TrackNumber} {steps : Nat} :
    reaches ps goal steps n = true ↔ ∃ k, k < steps ∧ ancestor? ps (k + 1) n = some goal := by
  induction steps generalizing n with
  | zero => simp [reaches]
  | succ steps ih =>
    rw [reaches]
    cases h : predecessor? ps n with
    | none => simp [ancestor?, h]
    | some m =>
      simp only [Bool.or_eq_true, decide_eq_true_eq, ih]
      constructor
      · rintro (rfl | ⟨k, hk, hm⟩)
        · exact ⟨0, Nat.succ_pos _, by simp [ancestor?, h]⟩
        · exact ⟨k + 1, Nat.succ_lt_succ hk, by rw [ancestor?, h]; exact hm⟩
      · rintro ⟨k, hk, hm⟩
        rw [ancestor?, h, Option.bind_some] at hm
        cases k with
        | zero => exact Or.inl (Option.some.inj hm)
        | succ k => exact Or.inr ⟨k, Nat.lt_of_succ_lt_succ hk, hm⟩

theorem predecessor?_eq_some {ps : List Planned} {n a : TrackNumber}
    (h : predecessor? ps n = some a) : ∃ x ∈ ps, x.number = n ∧ x.after = some a := by
  obtain ⟨x, hx, ha⟩ := Option.bind_eq_some_iff.mp h
  have hn := List.find?_some hx
  exact ⟨x, List.mem_of_find?_eq_some hx, of_decide_eq_true hn, ha⟩

theorem predecessor?_number {ps : List Planned} (h : (ps.map (·.number)).Nodup) {x : Planned}
    (hx : x ∈ ps) : predecessor? ps x.number = x.after := by
  cases hf : ps.find? fun p => p.number = x.number with
  | none =>
    have := List.find?_eq_none.mp hf x hx
    simp at this
  | some y =>
    have hy := List.find?_some hf
    have heq := List.inj_on_of_nodup_map h (List.mem_of_find?_eq_some hf) hx (of_decide_eq_true hy)
    rw [predecessor?, hf, heq]
    rfl

theorem Sound.eq_of_number {ps : List Planned} (h : Sound ps) {x y : Planned} (hx : x ∈ ps)
    (hy : y ∈ ps) (hxy : x.number = y.number) : x = y :=
  List.inj_on_of_nodup_map h.distinct hx hy hxy

theorem Sound.predecessor?_number {ps : List Planned} (h : Sound ps) {x : Planned} (hx : x ∈ ps) :
    predecessor? ps x.number = x.after :=
  Plan.predecessor?_number h.distinct hx

theorem Sound.not_reaches {ps : List Planned} (h : Sound ps) {n : TrackNumber}
    (hn : n ∈ ps.map (·.number)) {k : Nat} (hk : k < ps.length) :
    ancestor? ps (k + 1) n ≠ some n := by
  intro hback
  have hfound := List.find?_eq_none.mp h.acyclic n hn
  exact hfound (reaches_iff.mpr ⟨k, hk, hback⟩)

theorem Sound.after_ne {ps : List Planned} (h : Sound ps) {x : Planned} (hx : x ∈ ps)
    {n : TrackNumber} (hn : x.after = some n) : n ≠ x.number := by
  rintro rfl
  have hback := h.not_reaches (List.mem_map_of_mem hx) (List.length_pos_of_mem hx)
  rw [ancestor?, h.predecessor?_number hx, hn] at hback
  exact hback rfl

/-- One more step than there are tracks meets some track twice. -/
theorem exists_repeat {l : List TrackNumber} {f : Nat → TrackNumber}
    (hf : ∀ k ≤ l.length, f k ∈ l) : ∃ i j, i < j ∧ j ≤ l.length ∧ f i = f j := by
  have hcard : l.toFinset.card < (Finset.range (l.length + 1)).card := by
    rw [Finset.card_range]
    have := List.toFinset_card_le l
    omega
  have hmaps : ∀ k ∈ Finset.range (l.length + 1), f k ∈ l.toFinset := by
    intro k hk
    exact List.mem_toFinset.mpr (hf k (Nat.lt_succ_iff.mp (Finset.mem_range.mp hk)))
  obtain ⟨i, hi, j, hj, hij, hsame⟩ := Finset.exists_ne_map_eq_of_card_lt_of_maps_to hcard hmaps
  rw [Finset.mem_range] at hi hj
  rcases Nat.lt_or_gt_of_ne hij with hlt | hlt
  · exact ⟨i, j, hlt, Nat.lt_succ_iff.mp hj, hsame⟩
  · exact ⟨j, i, hlt, Nat.lt_succ_iff.mp hi, hsame.symm⟩

theorem Sound.ends_within {ps : List Planned} (h : Sound ps) {n : TrackNumber}
    (hn : n ∈ ps.map (·.number)) :
    ∃ k < ps.length, ∃ m, ancestor? ps k n = some m ∧ predecessor? ps m = none := by
  by_contra hno
  have hmore : ∀ k ≤ ps.length, ∃ m ∈ ps.map (·.number), ancestor? ps k n = some m := by
    intro k hk
    induction k with
    | zero => exact ⟨n, hn, rfl⟩
    | succ k ih =>
      obtain ⟨m, _, hkm⟩ := ih (Nat.le_of_succ_le hk)
      cases hpre : predecessor? ps m with
      | none => exact absurd ⟨k, hk, m, hkm, hpre⟩ hno
      | some a =>
        obtain ⟨x, hx, _, hxa⟩ := predecessor?_eq_some hpre
        refine ⟨a, h.known x hx a hxa, ?_⟩
        rw [ancestor?_add, hkm, Option.bind_some, ancestor?, hpre]
        rfl
  obtain ⟨i, j, hij, hj, hsame⟩ := exists_repeat (l := ps.map (·.number))
    (f := fun k => (ancestor? ps k n).getD n) fun k hk => by
      obtain ⟨m, hm, hkm⟩ := hmore k (by simpa using hk)
      rw [hkm]
      exact hm
  rw [List.length_map] at hj
  obtain ⟨a, ha, hia⟩ := hmore i (by omega)
  obtain ⟨b, _, hjb⟩ := hmore j hj
  simp only [hia, hjb, Option.getD_some] at hsame
  have hk : j = i + (j - i - 1 + 1) := by omega
  rw [hk, ancestor?_add, hia, Option.bind_some, ← hsame] at hjb
  exact h.not_reaches ha (by omega) hjb

theorem Sound.ends {ps : List Planned} (h : Sound ps) {n : TrackNumber}
    (hn : n ∈ ps.map (·.number)) :
    ∃ k m, ancestor? ps k n = some m ∧ predecessor? ps m = none := by
  obtain ⟨k, _, m, hm⟩ := h.ends_within hn
  exact ⟨k, m, hm⟩

/-! ## Who waits for whom -/

/-- A scheduled task waits for the track that it names when that one is scheduled; when tasks are
chained and it names none, for the next lower one. -/
def Awaits (chained : Bool) (ts : List Task) (t : Task) (n : TrackNumber) : Prop :=
  n ∈ ts.map (·.number) ∧
    (t.waitFor = some n ∨
      t.waitFor = none ∧ chained = true ∧ n.value < t.number.value ∧
        ∀ m ∈ ts.map (·.number), m.value < t.number.value → m.value ≤ n.value)

theorem after_of_mem_assign {chained : Bool} {known : List TrackNumber}
    {previous : Option TrackNumber} {ts : List Task} {x : Planned}
    (hx : x ∈ assign chained known previous ts) :
    ∃ l r, ts = l ++ x.task :: r ∧
      x.after = (wanted chained ((l.getLast?.map (·.number)).or previous) x.task).filter
        known.contains := by
  induction ts generalizing previous with
  | nil => cases hx
  | cons t ts ih =>
    rcases List.mem_cons.mp hx with rfl | hx
    · exact ⟨[], ts, rfl, rfl⟩
    · obtain ⟨l, r, rfl, hafter⟩ := ih hx
      refine ⟨t :: l, r, rfl, hafter.trans ?_⟩
      have hlast : ((t :: l).getLast?.map (·.number)).or previous =
          (l.getLast?.map (·.number)).or (some t.number) := by
        rw [List.getLast?_cons]
        cases l.getLast? <;> rfl
      rw [hlast]

theorem getLast?_eq_some_iff_next_lower {l r : List Task} {t : Task}
    (h : (l ++ t :: r).Pairwise fun a b => a.number.value < b.number.value) (n : TrackNumber) :
    l.getLast?.map (·.number) = some n ↔
      n ∈ (l ++ t :: r).map (·.number) ∧ n.value < t.number.value ∧
        ∀ m ∈ (l ++ t :: r).map (·.number), m.value < t.number.value → m.value ≤ n.value := by
  obtain ⟨hl, hr, hlr⟩ := List.pairwise_append.mp h
  have hlower : ∀ m ∈ (l ++ t :: r).map (·.number), m.value < t.number.value →
      ∃ u ∈ l, u.number = m := by
    intro m hm hlt
    obtain ⟨u, hu, rfl⟩ := List.mem_map.mp hm
    rcases List.mem_append.mp hu with hu | hu
    · exact ⟨u, hu, rfl⟩
    · rcases List.mem_cons.mp hu with rfl | hu
      · exact absurd hlt (UInt32.lt_irrefl _)
      · exact absurd hlt (UInt32.lt_asymm ((List.pairwise_cons.mp hr).1 u hu))
  rcases List.eq_nil_or_concat l with rfl | ⟨l, v, rfl⟩
  · constructor
    · intro hn
      cases hn
    · rintro ⟨hmem, hlt, _⟩
      obtain ⟨u, hu, _⟩ := hlower n hmem hlt
      cases hu
  · rw [List.concat_eq_append] at *
    have hbelow : ∀ u ∈ l ++ [v], u.number.value ≤ v.number.value := by
      intro u hu
      rcases List.mem_append.mp hu with hu | hu
      · exact UInt32.le_of_lt ((List.pairwise_append.mp hl).2.2 u hu v (List.mem_singleton_self v))
      · rw [List.mem_singleton.mp hu]
        exact UInt32.le_refl _
    have hv : v ∈ l ++ [v] := List.mem_append_right _ (List.mem_singleton_self v)
    have hvt : v.number.value < t.number.value := hlr v hv t (List.mem_cons_self ..)
    rw [List.getLast?_concat, Option.map_some, Option.some.injEq]
    constructor
    · rintro rfl
      refine ⟨List.mem_map_of_mem (List.mem_append_left _ hv), hvt, fun m hm hlt => ?_⟩
      obtain ⟨u, hu, rfl⟩ := hlower m hm hlt
      exact hbelow u hu
    · rintro ⟨hmem, hlt, hgreatest⟩
      obtain ⟨u, hu, rfl⟩ := hlower n hmem hlt
      have hge := hgreatest v.number (List.mem_map_of_mem (List.mem_append_left _ hv)) hvt
      exact eq_of_value_eq (UInt32.le_antisymm hge (hbelow u hu))

theorem ascending_sorted {ts : List Task} (h : (ts.map (·.number)).Nodup) :
    (sorted ts).Pairwise fun a b => a.number.value < b.number.value := by
  have hperm : ((sorted ts).map (·.number)).Perm (ts.map (·.number)) :=
    (List.mergeSort_perm ts _).map _
  have hdistinct := hperm.nodup_iff.mpr h
  rw [List.Nodup, List.pairwise_map] at hdistinct
  refine ((pairwise_sorted ts).and hdistinct).imp ?_
  rintro a b ⟨hle, hne⟩
  exact UInt32.lt_of_le_of_ne hle fun hvalue => hne (eq_of_value_eq hvalue)

theorem awaits_iff_after {chained : Bool} {ts : List Task} (h : (ts.map (·.number)).Nodup)
    {x : Planned} (hx : x ∈ draft chained ts) (n : TrackNumber) :
    Awaits chained ts x.task n ↔ x.after = some n := by
  obtain ⟨l, r, hsplit, hafter⟩ := after_of_mem_assign hx
  have hmem : ∀ m, m ∈ ts.map (·.number) ↔ m ∈ (sorted ts).map (·.number) := fun m =>
    ((List.mergeSort_perm ts _).map _).mem_iff.symm
  have hnext := getLast?_eq_some_iff_next_lower (hsplit ▸ ascending_sorted h) n
  rw [← hsplit] at hnext
  rw [hafter, Option.filter_eq_some_iff, List.contains_iff_mem, Option.or_none]
  unfold Awaits wanted
  simp only [hmem]
  cases hwait : x.task.waitFor with
  | some w =>
    simp only [Option.some_or, reduceCtorEq, false_and, or_false]
    exact and_comm
  | none =>
    cases chained with
    | false => simp
    | true =>
      simp only [reduceCtorEq, false_or, true_and, Option.none_or, if_true, hnext]
      tauto

theorem awaits_iff {chained : Bool} {ts : List Task} {ps : List Planned}
    (h : (make chained ts).2 = .ok ps) {x : Planned} (hx : x ∈ ps) (n : TrackNumber) :
    Awaits chained ts x.task n ↔ x.after = some n := by
  have hdistinct := (sound_of_make h).1.distinct
  obtain ⟨_, _, rfl⟩ := draft_of_make h
  exact awaits_iff_after ((numbers_draft chained ts).nodup_iff.mp hdistinct) hx n

end Plan

end QuoteBoard
