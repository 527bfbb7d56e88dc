import QuoteBoard.Proofs.Plan

/-!
# When a plan is refused

A plan is refused for a track that occurs twice, else for a track that comes back to itself along
what it waits for (`Plan.Loops`), and in both cases the smallest such track is named. The walk that
looks for a circle is bounded; no circle escapes it, since all the tracks on a circle wait and there
are only so many that do (`loop_bounded`). The main statement is `make_exact`.
-/

namespace QuoteBoard

namespace Plan

/-! ## Tracks that occur twice -/

theorem count_of_firstRepeated? {ts : List Task} {n : TrackNumber} (h : firstRepeated? ts = some n) :
    2 ≤ (ts.map (·.number)).count n := by
  induction ts with
  | nil => cases h
  | cons a ts ih =>
    cases ts with
    | nil => cases h
    | cons b ts =>
      simp only [firstRepeated?] at h
      split at h
      · rename_i hab
        obtain rfl := Option.some.inj h
        simp [hab]
      · rw [List.map_cons, List.count_cons]
        exact Nat.le_add_right_of_le (ih h)

theorem firstRepeated?_le {ts : List Task} {n : TrackNumber} (h : firstRepeated? ts = some n)
    (hsorted : ts.Pairwise fun a b => a.number.value ≤ b.number.value) {m : TrackNumber}
    (hm : 2 ≤ (ts.map (·.number)).count m) : n.value ≤ m.value := by
  induction ts with
  | nil => cases h
  | cons a ts ih =>
    cases ts with
    | nil => cases h
    | cons b ts =>
      simp only [firstRepeated?] at h
      split at h
      · obtain rfl := Option.some.inj h
        obtain ⟨c, hc, rfl⟩ := List.mem_map.mp (List.count_pos_iff.mp (Nat.zero_lt_of_lt hm))
        rcases List.mem_cons.mp hc with rfl | hc
        · exact UInt32.le_refl _
        · exact (List.pairwise_cons.mp hsorted).1 c hc
      · rename_i hab
        refine ih h (List.pairwise_cons.mp hsorted).2 ?_
        -- the first track occurs once, so the repetition lies behind it
        have hfirst := List.count_eq_zero.mpr (not_mem_of_ne_next hsorted hab)
        rw [List.map_cons, List.count_cons] at hm
        by_cases ham : a.number = m
        · rw [← ham, hfirst] at hm
          simp at hm
        · simpa [ham] using hm

theorem firstRepeated?_eq_some_iff {ts : List Task} (n : TrackNumber) :
    firstRepeated? (sorted ts) = some n ↔
      2 ≤ (ts.map (·.number)).count n ∧
        ∀ m, 2 ≤ (ts.map (·.number)).count m → n.value ≤ m.value := by
  have hcount : ∀ m, (ts.map (·.number)).count m = ((sorted ts).map (·.number)).count m := fun m =>
    ((List.mergeSort_perm ts _).symm.map _).count_eq m
  simp only [hcount]
  constructor
  · intro h
    exact ⟨count_of_firstRepeated? h, fun m => firstRepeated?_le h (pairwise_sorted ts)⟩
  · rintro ⟨htwice, hleast⟩
    cases h : firstRepeated? (sorted ts) with
    | none =>
      have := List.nodup_iff_count_le_one.mp (nodup_of_firstRepeated? h (pairwise_sorted ts)) n
      omega
    | some m =>
      have hmn := firstRepeated?_le h (pairwise_sorted ts) htwice
      have hnm := hleast m (count_of_firstRepeated? h)
      rw [eq_of_value_eq (UInt32.le_antisymm hmn hnm)]

theorem firstRepeated?_eq_none_iff {ts : List Task} :
    firstRepeated? (sorted ts) = none ↔ (ts.map (·.number)).Nodup := by
  have hperm : ((sorted ts).map (·.number)).Perm (ts.map (·.number)) :=
    (List.mergeSort_perm ts _).map _
  rw [← hperm.nodup_iff]
  constructor
  · intro h
    exact nodup_of_firstRepeated? h (pairwise_sorted ts)
  · intro h
    cases hrep : firstRepeated? (sorted ts) with
    | none => rfl
    | some n =>
      have := List.nodup_iff_count_le_one.mp h n
      have := count_of_firstRepeated? hrep
      omega

/-! ## Circles -/

def Waits (chained : Bool) (ts : List Task) (m n : TrackNumber) : Prop :=
  ∃ t ∈ ts, t.number = m ∧ Awaits chained ts t n

/-- A track comes back to itself along what it waits for. -/
def Loops (chained : Bool) (ts : List Task) (n : TrackNumber) : Prop :=
  Relation.TransGen (Waits chained ts) n n

def waiting (ps : List Planned) : List TrackNumber :=
  (ps.filter fun p => p.after.isSome).map (·.number)

section
variable {ps : List Planned} {m n : TrackNumber}

theorem mem_waiting (h : predecessor? ps m ≠ none) : m ∈ waiting ps := by
  obtain ⟨a, ha⟩ := Option.ne_none_iff_exists'.mp h
  obtain ⟨x, hx, rfl, hafter⟩ := predecessor?_eq_some ha
  exact List.mem_map_of_mem (List.mem_filter.mpr ⟨hx, by simp [hafter]⟩)

theorem length_waiting_le (ps : List Planned) : (waiting ps).length ≤ ps.length := by
  rw [waiting, List.length_map]
  exact List.length_filter_le _ _

theorem ancestor?_waiting {i k : Nat} (h : ancestor? ps (k + 1) n = some m) (hi : i ≤ k) :
    ∃ a ∈ waiting ps, ancestor? ps i n = some a := by
  have hk : k + 1 = i + (k - i + 1) := by omega
  rw [hk, ancestor?_add] at h
  obtain ⟨a, ha, hrest⟩ := Option.bind_eq_some_iff.mp h
  refine ⟨a, mem_waiting fun hnone => ?_, ha⟩
  rw [ancestor?, hnone] at hrest
  cases hrest

theorem loop_bounded (h : ∃ k, ancestor? ps (k + 1) n = some n) :
    ∃ k < (waiting ps).length, ancestor? ps (k + 1) n = some n := by
  classical
  refine ⟨Nat.find h, ?_, Nat.find_spec h⟩
  by_contra hlong
  have hback := Nat.find_spec h
  obtain ⟨i, j, hij, hj, hsame⟩ := exists_repeat (l := waiting ps)
    (f := fun k => (ancestor? ps k n).getD n) fun k hk => by
      obtain ⟨a, ha, hka⟩ := ancestor?_waiting hback (show k ≤ Nat.find h by omega)
      rw [hka]
      exact ha
  obtain ⟨a, _, hia⟩ := ancestor?_waiting hback (show i ≤ Nat.find h by omega)
  obtain ⟨b, _, hjb⟩ := ancestor?_waiting hback (show j ≤ Nat.find h by omega)
  simp only [hia, hjb, Option.getD_some] at hsame
  -- leaving out the steps between the two visits gives a shorter way back
  have hshort : ancestor? ps (i + (Nat.find h - j) + 1) n = some n := by
    have hlast : Nat.find h + 1 = j + (Nat.find h - j + 1) := by omega
    rw [hlast, ancestor?_add, hjb, Option.bind_some] at hback
    rw [Nat.add_assoc, ancestor?_add, hia, Option.bind_some, hsame]
    exact hback
  have := Nat.find_min' h hshort
  omega

theorem reaches_waiting_iff :
    reaches ps n (waiting ps).length n = true ↔ ∃ k, ancestor? ps (k + 1) n = some n := by
  rw [reaches_iff]
  constructor
  · rintro ⟨k, _, hk⟩
    exact ⟨k, hk⟩
  · intro h
    exact loop_bounded h

theorem reaches_length_iff :
    reaches ps n ps.length n = true ↔ ∃ k, ancestor? ps (k + 1) n = some n := by
  rw [reaches_iff]
  constructor
  · rintro ⟨k, _, hk⟩
    exact ⟨k, hk⟩
  · intro h
    obtain ⟨k, hk, hback⟩ := loop_bounded h
    exact ⟨k, Nat.lt_of_lt_of_le hk (length_waiting_le ps), hback⟩

/-- It is enough to walk as many steps as there are tracks that wait. -/
theorem firstCyclic?_eq (ps : List Planned) :
    firstCyclic? ps =
      (ps.map (·.number)).find? fun n => reaches ps n (waiting ps).length n := by
  unfold firstCyclic?
  congr 1
  funext n
  rw [Bool.eq_iff_iff, reaches_length_iff, reaches_waiting_iff]

theorem find?_eq_some_iff_least {l : List TrackNumber} {p : TrackNumber → Bool}
    (hl : l.Pairwise fun a b => a.value < b.value) :
    l.find? p = some n ↔ (n ∈ l ∧ p n = true) ∧ ∀ m ∈ l, p m = true → n.value ≤ m.value := by
  induction l with
  | nil => simp
  | cons a l ih =>
    obtain ⟨ha, hl⟩ := List.pairwise_cons.mp hl
    rw [List.find?_cons]
    cases hp : p a with
    | true =>
      simp only [Option.some.injEq]
      constructor
      · rintro rfl
        refine ⟨⟨List.mem_cons_self .., hp⟩, fun m hm _ => ?_⟩
        rcases List.mem_cons.mp hm with rfl | hm
        · exact UInt32.le_refl _
        · exact UInt32.le_of_lt (ha m hm)
      · rintro ⟨⟨hn, _⟩, hleast⟩
        rcases List.mem_cons.mp hn with rfl | hn
        · rfl
        · exact absurd (ha n hn) (UInt32.not_lt.mpr (hleast a (List.mem_cons_self ..) hp))
    | false =>
      have hne : ∀ m, p m = true → m ≠ a := by
        rintro m hm rfl
        rw [hp] at hm
        cases hm
      simp only [ih hl, List.mem_cons]
      constructor
      · rintro ⟨⟨hn, hpn⟩, hleast⟩
        exact ⟨⟨Or.inr hn, hpn⟩, fun m hm hpm => hleast m (hm.resolve_left (hne m hpm)) hpm⟩
      · rintro ⟨⟨hn, hpn⟩, hleast⟩
        exact ⟨⟨hn.resolve_left (hne n hpn), hpn⟩, fun m hm hpm => hleast m (Or.inr hm) hpm⟩

theorem mem_numbers_of_loop (h : ∃ k, ancestor? ps (k + 1) n = some n) : n ∈ ps.map (·.number) := by
  obtain ⟨k, hk⟩ := h
  obtain ⟨a, ha, hn⟩ := ancestor?_waiting hk (Nat.zero_le k)
  obtain rfl : n = a := Option.some.inj hn
  obtain ⟨x, hx, rfl⟩ := List.mem_map.mp ha
  exact List.mem_map_of_mem (List.mem_of_mem_filter hx)

theorem firstCyclic?_eq_some_iff (hps : (ps.map (·.number)).Pairwise fun a b => a.value < b.value) :
    firstCyclic? ps = some n ↔
      (∃ k, ancestor? ps (k + 1) n = some n) ∧
        ∀ m, (∃ k, ancestor? ps (k + 1) m = some m) → n.value ≤ m.value := by
  unfold firstCyclic?
  rw [find?_eq_some_iff_least hps]
  simp only [reaches_length_iff]
  constructor
  · rintro ⟨⟨_, hloop⟩, hleast⟩
    exact ⟨hloop, fun m hm => hleast m (mem_numbers_of_loop hm) hm⟩
  · rintro ⟨hloop, hleast⟩
    exact ⟨⟨mem_numbers_of_loop hloop, hloop⟩, fun m _ hm => hleast m hm⟩

end

section
variable {chained : Bool} {ts : List Task} (hts : (ts.map (·.number)).Nodup) {m n : TrackNumber}
include hts

theorem ascending_draft :
    ((draft chained ts).map (·.number)).Pairwise fun a b => a.value < b.value := by
  rw [draft, numbers_assign, List.pairwise_map]
  exact ascending_sorted hts

theorem predecessor?_draft :
    predecessor? (draft chained ts) m = some n ↔ Waits chained ts m n := by
  have hdistinct : ((draft chained ts).map (·.number)).Nodup :=
    (numbers_draft chained ts).nodup_iff.mpr hts
  constructor
  · intro h
    obtain ⟨x, hx, rfl, hafter⟩ := predecessor?_eq_some h
    have htask : x.task ∈ ts := (perm_draft chained ts).mem_iff.mp (List.mem_map_of_mem hx)
    exact ⟨x.task, htask, rfl, (awaits_iff_after hts hx n).mpr hafter⟩
  · rintro ⟨t, ht, rfl, hawaits⟩
    obtain ⟨x, hx, rfl⟩ := List.mem_map.mp ((perm_draft chained ts).mem_iff.mpr ht)
    exact (predecessor?_number hdistinct hx).trans ((awaits_iff_after hts hx n).mp hawaits)

theorem transGen_waits_iff :
    Relation.TransGen (Waits chained ts) m n ↔
      ∃ k, ancestor? (draft chained ts) (k + 1) m = some n := by
  constructor
  · intro h
    induction h using Relation.TransGen.head_induction_on with
    | single h => exact ⟨0, by rw [ancestor?, (predecessor?_draft hts).mpr h]; rfl⟩
    | head h _ ih =>
      obtain ⟨k, hk⟩ := ih
      exact ⟨k + 1, by rw [ancestor?, (predecessor?_draft hts).mpr h]; exact hk⟩
  · rintro ⟨k, hk⟩
    induction k generalizing m with
    | zero =>
      obtain ⟨a, ha, hn⟩ := Option.bind_eq_some_iff.mp hk
      obtain rfl : a = n := Option.some.inj hn
      exact .single ((predecessor?_draft hts).mp ha)
    | succ k ih =>
      obtain ⟨a, ha, hn⟩ := Option.bind_eq_some_iff.mp hk
      exact .head ((predecessor?_draft hts).mp ha) (ih hn)

theorem firstCyclic?_draft_eq_some_iff :
    firstCyclic? (draft chained ts) = some n ↔
      Loops chained ts n ∧ ∀ m, Loops chained ts m → n.value ≤ m.value := by
  simp only [Loops, transGen_waits_iff hts]
  exact firstCyclic?_eq_some_iff (ascending_draft hts)

theorem firstCyclic?_draft_eq_none_iff :
    firstCyclic? (draft chained ts) = none ↔ ∀ n, ¬ Loops chained ts n := by
  simp only [Loops, transGen_waits_iff hts]
  unfold firstCyclic?
  rw [List.find?_eq_none]
  simp only [reaches_length_iff]
  constructor
  · intro h n hloop
    exact h n (mem_numbers_of_loop hloop) hloop
  · intro h n _
    exact h n

end

/-! ## Plans -/

theorem make_duplicate_iff (chained : Bool) (ts : List Task) (n : TrackNumber) :
    (make chained ts).2 = .error (.duplicateTrack n) ↔ firstRepeated? (sorted ts) = some n := by
  rw [make_eq]
  cases firstRepeated? (sorted ts) with
  | some m => simp
  | none => cases firstCyclic? (draft chained ts) <;> simp

theorem make_cycle_iff (chained : Bool) (ts : List Task) (n : TrackNumber) :
    (make chained ts).2 = .error (.dependencyCycle n) ↔
      firstRepeated? (sorted ts) = none ∧ firstCyclic? (draft chained ts) = some n := by
  rw [make_eq]
  cases firstRepeated? (sorted ts) with
  | some m => simp
  | none => cases firstCyclic? (draft chained ts) <;> simp

theorem make_ok_iff (chained : Bool) (ts : List Task) :
    (∃ ps, (make chained ts).2 = .ok ps) ↔
      firstRepeated? (sorted ts) = none ∧ firstCyclic? (draft chained ts) = none := by
  rw [make_eq]
  cases firstRepeated? (sorted ts) with
  | some m => simp
  | none => cases firstCyclic? (draft chained ts) <;> simp

/-- What becomes of a list of tasks. A track that occurs twice refuses it, else a track that waits
for itself in the end, in both cases the smallest one; nothing else does. A plan that is made has
the tasks in the order of their tracks, each with the track it waits for, and from each the way
along these ends within fewer steps than there are tasks. -/
theorem make_exact (chained : Bool) (ts : List Task) :
    let numbers := ts.map (·.number)
    (∀ n, (make chained ts).2 = .error (.duplicateTrack n) ↔
        2 ≤ numbers.count n ∧ ∀ m, 2 ≤ numbers.count m → n.value ≤ m.value) ∧
      (∀ n, (make chained ts).2 = .error (.dependencyCycle n) ↔
        numbers.Nodup ∧ Loops chained ts n ∧ ∀ m, Loops chained ts m → n.value ≤ m.value) ∧
      ((∃ ps, (make chained ts).2 = .ok ps) ↔ numbers.Nodup ∧ ∀ n, ¬ Loops chained ts n) ∧
      ∀ ps, (make chained ts).2 = .ok ps →
        (ps.map (·.task)).Perm ts ∧
          (ps.map (·.number)).Pairwise (fun a b => a.value < b.value) ∧
          (∀ x ∈ ps, ∀ n, x.after = some n ↔ Awaits chained ts x.task n) ∧
          ∀ x ∈ ps, ∃ k < ts.length, ∃ m,
            ancestor? ps k x.number = some m ∧ predecessor? ps m = none := by
  intro numbers
  refine ⟨fun n => ?_, fun n => ?_, ?_, fun ps hmake => ?_⟩
  · rw [make_duplicate_iff, firstRepeated?_eq_some_iff]
  · rw [make_cycle_iff, firstRepeated?_eq_none_iff]
    exact and_congr_right fun hts => firstCyclic?_draft_eq_some_iff hts
  · rw [make_ok_iff, firstRepeated?_eq_none_iff]
    exact and_congr_right fun hts => firstCyclic?_draft_eq_none_iff hts
  · obtain ⟨hsound, htasks⟩ := sound_of_make hmake
    obtain ⟨hrep, _, rfl⟩ := draft_of_make hmake
    have hdistinct := firstRepeated?_eq_none_iff.mp hrep
    refine ⟨htasks, ascending_draft hdistinct, fun x hx n => (awaits_iff hmake hx n).symm,
      fun x hx => ?_⟩
    have hlength : (draft chained ts).length = ts.length := by
      have := htasks.length_eq
      rwa [List.length_map] at this
    rw [← hlength]
    exact hsound.ends_within (List.mem_map_of_mem hx)

end Plan

end QuoteBoard
