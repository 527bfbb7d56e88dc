import Mathlib.Data.List.DropRight
import QuoteBoard.Metrics.Latency
import QuoteBoard.Proofs.Rounding

/-!
# The percentile of the latencies

The window holds the last thousand latencies recorded (`LatencyWindow.samples_recordAll`). The
product of 0.99 and a number of samples is rounded twice, yet never past a whole number, so the rank
is 99 percent of the samples rounded up (`LatencyWindow.rank_p99_le_iff`), and the sample of that rank
is the least one that 99 percent of the samples do not exceed. The main statement is
`Metrics.p99_of_commits`.
-/

namespace QuoteBoard

/-- The least sample that at least `p` percent of the samples do not exceed. -/
def IsPercentile (p : Nat) (ws : List UInt64) (v : UInt64) : Prop :=
  v ∈ ws ∧ p * ws.length ≤ 100 * ws.countP (· ≤ v) ∧
    ∀ w ∈ ws, w < v → 100 * ws.countP (· ≤ w) < p * ws.length

section
variable {p : Nat} {v w : UInt64} {ws vs : List UInt64}

theorem IsPercentile.perm (h : IsPercentile p ws v) (hp : ws.Perm vs) : IsPercentile p vs v := by
  obtain ⟨hmem, hle, hleast⟩ := h
  unfold IsPercentile
  rw [← hp.length_eq]
  simp only [← hp.countP_eq, ← hp.mem_iff]
  exact ⟨hmem, hle, hleast⟩

theorem IsPercentile.eq (hv : IsPercentile p ws v) (hw : IsPercentile p ws w) : v = w := by
  apply UInt64.le_antisymm
  · by_contra hlt
    have := hv.2.2 w hw.1 (UInt64.not_le.mp hlt)
    exact absurd hw.2.1 (by omega)
  · by_contra hlt
    have := hw.2.2 v hv.1 (UInt64.not_le.mp hlt)
    exact absurd hv.2.1 (by omega)

/-! ## Ranks in a sorted list -/

theorem lt_countP_iff (hs : ws.Pairwise (· ≤ ·)) {k : Nat} (hk : k < ws.length) :
    k < ws.countP (· ≤ w) ↔ ws[k] ≤ w := by
  have hle := List.pairwise_iff_getElem.mp hs
  constructor
  · intro hlt
    by_contra hw
    have hnone : (ws.drop k).countP (· ≤ w) = 0 := by
      refine List.countP_eq_zero.mpr fun x hx => ?_
      obtain ⟨i, hi, rfl⟩ := List.mem_drop_iff_getElem.mp hx
      rw [decide_eq_true_iff]
      intro hxw
      rcases Nat.eq_zero_or_pos i with rfl | hpos
      · exact hw hxw
      · exact hw (UInt64.le_trans (hle k (k + i) hk (by omega) (by omega)) hxw)
    rw [← List.take_append_drop k ws, List.countP_append, hnone] at hlt
    have htake := List.countP_le_length (p := (· ≤ w)) (l := ws.take k)
    rw [List.length_take] at htake
    omega
  · intro hw
    have hall : (ws.take (k + 1)).countP (· ≤ w) = (ws.take (k + 1)).length := by
      refine List.countP_eq_length.mpr fun x hx => ?_
      obtain ⟨i, hi, rfl⟩ := List.mem_take_iff_getElem.mp hx
      rw [decide_eq_true_iff]
      rcases Nat.lt_or_eq_of_le (show i ≤ k by omega) with hlt | rfl
      · exact UInt64.le_trans (hle i k (by omega) hk hlt) hw
      · exact hw
    have htake := (List.take_sublist (k + 1) ws).countP_le (p := (· ≤ w))
    rw [hall, List.length_take] at htake
    omega

theorem isPercentile_getElem (hs : ws.Pairwise (· ≤ ·)) {k : Nat} (hk : k < ws.length)
    (hrank : ∀ j, k < j ↔ p * ws.length ≤ 100 * j) : IsPercentile p ws ws[k] := by
  refine ⟨List.getElem_mem hk, ?_, fun w _ hw => ?_⟩
  · exact (hrank _).mp ((lt_countP_iff hs hk).mpr (UInt64.le_refl _))
  · refine Nat.lt_of_not_le fun h => UInt64.not_le.mpr hw ?_
    exact (lt_countP_iff hs hk).mp ((hrank _).mpr h)

end

namespace LatencyWindow

/-! ## The rank -/

open Binary64

theorem units_p99 :
    ∃ a, one = 2 ^ (a + 53) ∧ units (nearest 99 100) = 8917127262193582 * 2 ^ a :=
  ⟨1021, by decide +kernel, by decide +kernel⟩

/-- The double of 0.99 falls short of it, by too little for the product to reach a lower whole
number. -/
theorem ceil_p99_le_iff {n k : Nat} (hn : n ≤ capacity) :
    ceil (mul (nearest 99 100) (nearest n 1)) ≤ k ↔ 99 * n ≤ 100 * k := by
  have hn : n ≤ 1000 := hn
  obtain ⟨a, hone, hunits⟩ := units_p99
  have hwhole : units (nearest n 1) = n * one := units_nearest_one (by omega)
  constructor
  · intro hle
    by_contra hlt
    have := lt_ceil_mul (k := k) hone hunits hwhole (by omega) (by omega)
    omega
  · intro hle
    exact ceil_mul_le hone hunits hwhole (by omega) (by omega)

theorem rank_p99_le_iff {n k : Nat} (hpos : 0 < n) (hn : n ≤ capacity) :
    rank (nearest 99 100) n ≤ k ↔ 99 * n ≤ 100 * k := by
  have hceil := ceil_p99_le_iff (k := k) hn
  unfold rank
  generalize ceil (mul (nearest 99 100) (nearest n 1)) = c at hceil ⊢
  omega

theorem rank_le {q n : Nat} (hpos : 0 < n) : rank q n ≤ n := by
  unfold rank
  omega

theorem rank_pos (q n : Nat) : 0 < rank q n := Nat.le_max_left _ _

/-! ## The samples -/

theorem samples_record {w : LatencyWindow} (h : w.samples.length ≤ capacity) (x : UInt64) :
    (w.record x).samples = (w.samples ++ [x]).rtake capacity := by
  unfold record List.rtake
  rw [List.length_append, List.length_singleton]
  split
  · rename_i hfull
    rw [hfull, Nat.add_sub_cancel_left, List.drop_append_of_le_length (by rw [hfull]; decide)]
  · rename_i hfree
    rw [show w.samples.length + 1 - capacity = 0 by omega]
    rfl

theorem length_rtake {α : Type} (n : Nat) (xs : List α) : (xs.rtake n).length = min xs.length n := by
  unfold List.rtake
  rw [List.length_drop]
  omega

theorem rtake_rtake_append {α : Type} (n : Nat) (xs ys : List α) :
    (xs.rtake n ++ ys).rtake n = (xs ++ ys).rtake n := by
  have hlen := length_rtake n xs
  unfold List.rtake at hlen ⊢
  rw [← List.drop_append_of_le_length (Nat.sub_le _ _), List.drop_drop, List.length_drop]
  congr 1
  rw [List.length_append]
  omega

theorem samples_recordAll (xs : List UInt64) :
    (xs.foldl record {}).samples = xs.rtake capacity := by
  induction xs using List.reverseRecOn with
  | nil => rfl
  | append_singleton xs x ih =>
    have hlen : (xs.foldl record {}).samples.length ≤ capacity := by
      rw [ih, length_rtake]
      exact Nat.min_le_right _ _
    rw [List.foldl_append]
    show ((xs.foldl record {}).record x).samples = _
    rw [samples_record hlen, ih, rtake_rtake_append]

/-! ## The percentile -/

variable {w : LatencyWindow}

theorem p99?_eq_none (h : w.samples = []) : w.p99? = none := by
  unfold p99? quantile?
  rw [h]
  rfl

theorem p99?_isPercentile (hne : w.samples ≠ []) (h : w.samples.length ≤ capacity) :
    ∃ v, w.p99? = some v ∧ IsPercentile 99 w.samples v := by
  have hpos := List.length_pos_iff.mpr hne
  have hperm := w.samples.mergeSort_perm fun a b => a ≤ b
  have hsorted : (w.samples.mergeSort fun a b => a ≤ b).Pairwise (· ≤ ·) := by
    refine (List.pairwise_mergeSort ?_ ?_ w.samples).imp of_decide_eq_true
    · intro a b c hab hbc
      exact decide_eq_true (UInt64.le_trans (of_decide_eq_true hab) (of_decide_eq_true hbc))
    · intro a b
      rw [Bool.or_eq_true, decide_eq_true_iff, decide_eq_true_iff]
      exact UInt64.le_total a b
  have hrank := rank_le (q := nearest 99 100) hpos
  have hrankpos := rank_pos (nearest 99 100) w.samples.length
  have hlt : rank (nearest 99 100) w.samples.length - 1 <
      (w.samples.mergeSort fun a b => a ≤ b).length := by
    rw [hperm.length_eq]
    omega
  refine ⟨_, ?_, (isPercentile_getElem hsorted hlt fun j => ?_).perm hperm⟩
  · unfold p99? quantile?
    rw [if_neg (by rwa [List.isEmpty_iff]), List.getElem?_eq_getElem hlt]
  · rw [hperm.length_eq, ← rank_p99_le_iff hpos h]
    omega

theorem p99?_eq_some_iff (h : w.samples.length ≤ capacity) (v : UInt64) :
    w.p99? = some v ↔ IsPercentile 99 w.samples v := by
  constructor
  · intro hv
    have hne : w.samples ≠ [] := by
      intro hnil
      rw [p99?_eq_none hnil] at hv
      cases hv
    obtain ⟨u, hu, hpercentile⟩ := p99?_isPercentile hne h
    rw [hu] at hv
    exact Option.some.inj hv ▸ hpercentile
  · intro hpercentile
    obtain ⟨u, hu, hother⟩ := p99?_isPercentile (List.ne_nil_of_mem hpercentile.1) h
    rw [hu, hother.eq hpercentile]

end LatencyWindow

namespace Metrics

def recordCommits (m : Metrics) (cs : List (Bool × UInt64)) : Metrics :=
  cs.foldl (fun m c => m.recordCommit c.1 c.2) m

theorem latencies_recordCommits (m : Metrics) (cs : List (Bool × UInt64)) :
    (m.recordCommits cs).latencies = (cs.map (·.2)).foldl LatencyWindow.record m.latencies := by
  rw [List.foldl_map]
  exact (List.foldl_hom latencies fun _ _ => rfl).symm

/-- After any commits the percentile is that of the last thousand latencies, and there is none only
when nothing was committed. -/
theorem p99_of_commits (cs : List (Bool × UInt64)) :
    ((recordCommits {} cs).commitLatencyP99? = none ↔ cs = []) ∧
      ((cs.map (·.2)).rtake 1000).length = min cs.length 1000 ∧
      ∀ v, (recordCommits {} cs).commitLatencyP99? = some v ↔
        IsPercentile 99 ((cs.map (·.2)).rtake 1000) v := by
  have hsamples : (recordCommits {} cs).latencies.samples = (cs.map (·.2)).rtake 1000 := by
    rw [latencies_recordCommits]
    exact LatencyWindow.samples_recordAll _
  have hlength : ((cs.map (·.2)).rtake 1000).length = min cs.length 1000 := by
    rw [LatencyWindow.length_rtake, List.length_map]
  have hwindow : (recordCommits {} cs).latencies.samples.length ≤ LatencyWindow.capacity := by
    rw [hsamples, hlength]
    exact Nat.min_le_right _ _
  refine ⟨⟨fun hnone => ?_, fun hnil => hnil ▸ rfl⟩, hlength, fun v => ?_⟩
  · by_contra hne
    have hsome : (recordCommits {} cs).latencies.samples ≠ [] := by
      rw [hsamples, ← List.length_pos_iff, hlength]
      have := List.length_pos_iff.mpr hne
      omega
    obtain ⟨v, hv, _⟩ := LatencyWindow.p99?_isPercentile hsome hwindow
    exact absurd (hnone.symm.trans hv) (by simp)
  · rw [← hsamples]
    exact LatencyWindow.p99?_eq_some_iff hwindow v

end Metrics

end QuoteBoard
