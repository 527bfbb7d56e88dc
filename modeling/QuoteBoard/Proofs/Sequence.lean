import QuoteBoard.Proofs.Scenes

/-!
# The order in which tracks play

A task that waits for a track gets its timer by the first pass of that track that completes, and by
nothing else, so its own track starts only after that one has stopped, in the same generation.
`Chapter` says how the plan of a generation stands in what has been seen, also when the player is in
a later one; every step of a scene keeps it (`Keeps.step`). The main statement is
`Player.sequence_of_traced`.
-/

namespace QuoteBoard

namespace Mark

def generation : Mark → Nat
  | began g _ _ => g
  | played g _ _ => g
  | completed g _ _ => g
  | armed g _ _ => g

/-- The passes of a track that completed in a generation, in their order. -/
def completions (g : Nat) (n : TrackNumber) (tr : List Mark) : List Nat :=
  tr.filterMap fun
    | completed h i m => if h = g ∧ m = n then some i else none
    | _ => none

/-- What armed a task in a generation, apart from passes of its own track. -/
def releases (g : Nat) (t : Task) (tr : List Mark) : List (Option (TrackNumber × Nat)) :=
  tr.filterMap fun
    | armed h cause u =>
      if h = g ∧ u = t ∧ cause.map (·.1) ≠ some t.number then some cause else none
    | _ => none

/-- How often a track started in a generation. -/
def startings (g : Nat) (n : TrackNumber) (tr : List Mark) : Nat :=
  tr.countP fun
    | played h _ (.started m) => h = g ∧ m = n
    | _ => false

theorem completions_append (g : Nat) (n : TrackNumber) (tr ms : List Mark) :
    completions g n (tr ++ ms) = completions g n tr ++ completions g n ms := List.filterMap_append

theorem releases_append (g : Nat) (t : Task) (tr ms : List Mark) :
    releases g t (tr ++ ms) = releases g t tr ++ releases g t ms := List.filterMap_append

theorem startings_append (g : Nat) (n : TrackNumber) (tr ms : List Mark) :
    startings g n (tr ++ ms) = startings g n tr + startings g n ms := List.countP_append

variable {g : Nat} {n : TrackNumber} {t : Task} {ms : List Mark}

/-! ## Marks of other generations, and of kinds -/

theorem completions_of_ne (h : ∀ m ∈ ms, m.generation ≠ g) : completions g n ms = [] := by
  refine List.filterMap_eq_nil_iff.mpr fun m hm => ?_
  have hne := h m hm
  cases m with
  | completed h i k => exact if_neg fun hh => hne hh.1
  | _ => rfl

theorem releases_of_ne (h : ∀ m ∈ ms, m.generation ≠ g) : releases g t ms = [] := by
  refine List.filterMap_eq_nil_iff.mpr fun m hm => ?_
  have hne := h m hm
  cases m with
  | armed h cause u => exact if_neg fun hh => hne hh.1
  | _ => rfl

theorem startings_of_not_played (h : ∀ i e, .played g i e ∉ ms) : startings g n ms = 0 := by
  refine List.countP_eq_zero.mpr fun m hm => ?_
  cases m with
  | played k i e =>
    have hk : ¬ k = g := fun heq => h i e (heq ▸ hm)
    cases e <;> simp [hk]
  | _ => simp

theorem startings_of_ne (h : ∀ m ∈ ms, m.generation ≠ g) : startings g n ms = 0 :=
  startings_of_not_played fun _ _ hm => h _ hm rfl

theorem completions_plays (x : Actor) (ns : List Message) (stops : Bool) :
    completions g n (x.plays ns stops) = [] := by
  refine List.filterMap_eq_nil_iff.mpr fun m hm => ?_
  obtain ⟨e, _, rfl⟩ := List.mem_map.mp hm
  rfl

theorem releases_plays (x : Actor) (ns : List Message) (stops : Bool) :
    releases g t (x.plays ns stops) = [] := by
  refine List.filterMap_eq_nil_iff.mpr fun m hm => ?_
  obtain ⟨e, _, rfl⟩ := List.mem_map.mp hm
  rfl

theorem startings_plays (x : Actor) (ns : List Message) (stops : Bool) :
    startings g n (x.plays ns stops) =
      if x.generation = g ∧ x.task.number = n ∧ x.opened = false then 1 else 0 := by
  have hmessages : ∀ ns : List Message,
      startings g n ((ns.map (PlayEvent.message x.task.number)).map (.played x.generation x.id)) = 0 := by
    intro ns
    refine List.countP_eq_zero.mpr fun m hm => ?_
    rw [List.map_map] at hm
    obtain ⟨k, _, rfl⟩ := List.mem_map.mp hm
    simp
  have hstop : startings g n
      ((if stops then [PlayEvent.stopped x.task.number] else []).map (.played x.generation x.id)) = 0 := by
    cases stops <;> rfl
  simp only [Actor.plays, List.map_append, startings_append, hmessages, hstop]
  cases x.opened with
  | true => simp [startings]
  | false => simp [startings, List.countP_cons]

theorem completions_armed (h : Nat) (cause : Option (TrackNumber × Nat)) (ts : List Task) :
    completions g n (ts.map (.armed h cause)) = [] := by
  refine List.filterMap_eq_nil_iff.mpr fun m hm => ?_
  obtain ⟨u, _, rfl⟩ := List.mem_map.mp hm
  rfl

theorem startings_armed (h : Nat) (cause : Option (TrackNumber × Nat)) (ts : List Task) :
    startings g n (ts.map (.armed h cause)) = 0 := by
  refine List.countP_eq_zero.mpr fun m hm => ?_
  obtain ⟨u, _, rfl⟩ := List.mem_map.mp hm
  simp

theorem releases_armed (g : Nat) (t : Task) (cause : Option (TrackNumber × Nat)) (ts : List Task) :
    releases g t (ts.map (.armed g cause)) =
      if cause.map (·.1) = some t.number then [] else List.replicate (ts.count t) cause := by
  induction ts with
  | nil => simp [releases]
  | cons u ts ih =>
    have hcons : releases g t ((u :: ts).map (.armed g cause)) =
        releases g t [.armed g cause u] ++ releases g t (ts.map (.armed g cause)) :=
      releases_append g t [_] _
    rw [hcons, ih]
    by_cases hown : cause.map (·.1) = some t.number
    · simp [releases, hown]
    · by_cases hu : u = t
      · simp [releases, hown, hu, List.replicate_succ]
      · simp [releases, hown, hu]

end Mark

open Mark

/-! ## A generation in what has been seen -/

/-- A planned task whose track, if it waits for one, has seen that one stop. -/
def Freed (plan : List Planned) (g : Nat) (t : Task) (tr : List Mark) : Prop :=
  ∃ x ∈ plan, x.task = t ∧ ∀ n, x.after = some n → ∃ i, .played g i (.stopped n) ∈ tr

/-- How many starts of a track may still come of a scene without another completion of the track. -/
def Scene.toCome (s : Scene) (g : Nat) (n : TrackNumber) : Nat :=
  s.starts.countP (fun x => x.generation = g ∧ x.task.number = n) +
    s.actors.countP (fun x => x.generation = g ∧ x.task.number = n ∧ x.opened = false) +
      if g = s.generation then s.waiting.countP fun w => w.2.number = n else 0

structure Chapter (plan : List Planned) (g : Nat) (s : Scene) (tr : List Mark) : Prop where
  starts : ∀ x ∈ s.starts, x.generation = g → Freed plan g x.task tr
  actors : ∀ x ∈ s.actors, x.generation = g → Freed plan g x.task tr
  started : ∀ l i n r, tr = l ++ .played g i (.started n) :: r →
    ∃ t, t.number = n ∧ Freed plan g t l
  waiting : g = s.generation →
    s.waiting = (Plan.awaited plan).filter fun w => completions g w.1 tr = []
  released : ∀ x ∈ plan, ∀ n, x.after = some n →
    releases g x.task tr = ((completions g n tr).take 1).map fun i => some (n, i)
  once : ∀ x ∈ plan, x.task.mode = .once → startings g x.number tr + s.toCome g x.number ≤ 1

section
variable {plan : List Planned} {g : Nat} {s : Scene} {tr : List Mark}

theorem Freed.mono {t : Task} (h : Freed plan g t tr) {tr' : List Mark} (hsub : tr ⊆ tr') :
    Freed plan g t tr' := by
  obtain ⟨x, hx, htask, hstop⟩ := h
  refine ⟨x, hx, htask, fun n hn => ?_⟩
  obtain ⟨i, hi⟩ := hstop n hn
  exact ⟨i, hsub hi⟩

theorem started_append (h : Chapter plan g s tr) {ms : List Mark}
    (hms : ∀ i n, .played g i (.started n) ∈ ms → ∃ t, t.number = n ∧ Freed plan g t tr) :
    ∀ l i n r, tr ++ ms = l ++ .played g i (.started n) :: r →
      ∃ t, t.number = n ∧ Freed plan g t l := by
  intro l i n r heq
  rcases List.append_eq_append_iff.mp heq with ⟨l', rfl, hms'⟩ | ⟨r', htr, hms'⟩
  · have hmem : .played g i (.started n) ∈ ms := by
      rw [hms']
      exact List.mem_append_right _ (List.mem_cons_self ..)
    obtain ⟨t, ht, hfreed⟩ := hms i n hmem
    exact ⟨t, ht, hfreed.mono (List.subset_append_left _ _)⟩
  · cases r' with
    -- the start is the first of the new marks
    | nil =>
      rw [List.append_nil] at htr
      have hmem : .played g i (.started n) ∈ ms := by
        rw [show ms = _ from hms'.symm]
        exact List.mem_cons_self ..
      obtain ⟨t, ht, hfreed⟩ := hms i n hmem
      exact ⟨t, ht, htr ▸ hfreed⟩
    | cons m r' =>
      rw [List.cons_append, List.cons.injEq] at hms'
      rw [← hms'.1] at htr
      exact h.started l i n r' htr

/-! ## Steps of a generation -/

theorem Chapter.lose (h : Chapter plan g s tr) (hg : g ≤ s.generation) {s' : Scene}
    (hgeneration : s.generation ≤ s'.generation)
    (hwaiting : s'.generation = s.generation → s'.waiting = s.waiting)
    (hstarts : s'.starts.Sublist s.starts) (hactors : s'.actors.Sublist s.actors) :
    Chapter plan g s' tr where
  starts x hx := h.starts x (hstarts.subset hx)
  actors x hx := h.actors x (hactors.subset hx)
  started := h.started
  waiting heq := by
    have hsame : s'.generation = s.generation := by omega
    rw [hwaiting hsame]
    exact h.waiting (by omega)
  released := h.released
  once x hx hmode := by
    have hbound := h.once x hx hmode
    have hfewer := hstarts.countP_le (p := fun y => decide (y.generation = g ∧ y.task.number = x.number))
    have hless := hactors.countP_le
      (p := fun y => decide (y.generation = g ∧ y.task.number = x.number ∧ y.opened = false))
    have hwait : (if g = s'.generation then s'.waiting.countP fun w => decide (w.2.number = x.number)
        else 0) ≤ if g = s.generation then s.waiting.countP fun w => decide (w.2.number = x.number)
        else 0 := by
      by_cases heq : g = s'.generation
      · have hsame : s'.generation = s.generation := by omega
        rw [if_pos heq, if_pos (by omega), hwaiting hsame]
      · rw [if_neg heq]
        exact Nat.zero_le _
    unfold Scene.toCome at *
    omega

theorem Chapter.start (h : Chapter plan g s tr) {l r : List Start} {x : Start}
    (hstarts : s.starts = l ++ x :: r) (hx : x.generation = s.generation) (id : Nat) :
    Chapter plan g { s with
      starts := l ++ r
      actors := s.actors ++ [⟨id, x.task, s.generation, false⟩] } tr where
  starts y hy := by
    refine h.starts y ?_
    rw [hstarts]
    exact ((List.sublist_cons_self x r).append_left l).subset hy
  actors y hy hyg := by
    rcases List.mem_append.mp hy with hy | hy
    · exact h.actors y hy hyg
    · rw [List.mem_singleton.mp hy] at hyg ⊢
      refine h.starts x ?_ (hx.trans hyg)
      rw [hstarts]
      exact List.mem_append_right _ (List.mem_cons_self ..)
  started := h.started
  waiting := h.waiting
  released := h.released
  once y hy hmode := by
    have hbound := h.once y hy hmode
    unfold Scene.toCome at *
    rw [hstarts] at hbound
    simp only [List.countP_append, List.countP_cons, List.countP_nil, hx, decide_eq_true_eq,
      and_true] at *
    omega

theorem Chapter.turn (h : Chapter plan g s tr) {l r rest : List Actor} {x : Actor}
    (hactors : s.actors = l ++ x :: r) (hrest : ∀ y ∈ rest, y = { x with opened := true })
    (ms : List Message) (stops : Bool) :
    Chapter plan g { s with actors := l ++ rest ++ r } (tr ++ x.plays ms stops) where
  starts y hy hyg := (h.starts y hy hyg).mono (List.subset_append_left _ _)
  actors y hy hyg := by
    have hfreed : Freed plan g y.task tr := by
      rcases List.mem_append.mp hy with hy | hy
      · rcases List.mem_append.mp hy with hy | hy
        · exact h.actors y (hactors ▸ List.mem_append_left _ hy) hyg
        · rw [hrest y hy] at hyg ⊢
          exact h.actors x (hactors ▸ List.mem_append_right _ (List.mem_cons_self ..)) hyg
      · exact h.actors y (hactors ▸ List.mem_append_right _ (List.mem_cons_of_mem _ hy)) hyg
    exact hfreed.mono (List.subset_append_left _ _)
  started := by
    refine started_append h fun i n hmem => ?_
    obtain ⟨hg, hn⟩ : x.generation = g ∧ x.task.number = n := by
      obtain ⟨e, he, heq⟩ := List.mem_map.mp hmem
      injection heq with hg _ he'
      subst he'
      refine ⟨hg, ?_⟩
      cases hopened : x.opened <;> cases stops <;> simp [hopened] at he <;> exact he.symm
    exact ⟨x.task, hn, h.actors x (hactors ▸ List.mem_append_right _ (List.mem_cons_self ..)) hg⟩
  waiting hg := by
    simp only [completions_append, completions_plays, List.append_nil]
    exact h.waiting hg
  released y hy n hn := by
    rw [releases_append, completions_append, releases_plays, completions_plays, List.append_nil,
      List.append_nil]
    exact h.released y hy n hn
  once y hy hmode := by
    have hbound := h.once y hy hmode
    -- a first turn makes of a start to come one that is seen
    have hnone : rest.countP (fun z => z.generation = g ∧ z.task.number = y.number ∧ z.opened = false) =
        0 := by
      refine List.countP_eq_zero.mpr fun z hz => ?_
      rw [hrest z hz]
      simp
    unfold Scene.toCome at *
    rw [hactors] at hbound
    rw [startings_append, startings_plays]
    simp only [List.countP_append, List.countP_cons, hnone, decide_eq_true_eq] at *
    omega

theorem Chapter.elsewhere (h : Chapter plan g s tr) {s' : Scene} {ms : List Mark} {new : List Start}
    (hne : g ≠ s'.generation) (hms : ∀ m ∈ ms, m.generation ≠ g)
    (hstarts : s'.starts = s.starts ++ new) (hnew : ∀ x ∈ new, x.generation ≠ g)
    (hactors : s'.actors = s.actors) : Chapter plan g s' (tr ++ ms) where
  starts x hx hxg := by
    rw [hstarts] at hx
    rcases List.mem_append.mp hx with hx | hx
    · exact (h.starts x hx hxg).mono (List.subset_append_left _ _)
    · exact absurd hxg (hnew x hx)
  actors x hx hxg := (h.actors x (hactors ▸ hx) hxg).mono (List.subset_append_left _ _)
  started := started_append h fun i n hmem => absurd rfl (hms _ hmem)
  waiting hg := absurd hg hne
  released x hx n hn := by
    rw [releases_append, completions_append, releases_of_ne hms, completions_of_ne hms,
      List.append_nil, List.append_nil]
    exact h.released x hx n hn
  once x hx hmode := by
    have hbound := h.once x hx hmode
    have hnone : new.countP (fun y => y.generation = g ∧ y.task.number = x.number) = 0 :=
      List.countP_eq_zero.mpr fun y hy => by simp [hnew y hy]
    unfold Scene.toCome at *
    rw [startings_append, startings_of_ne hms, hstarts, hactors, List.countP_append, hnone, if_neg hne]
    omega

/-! ## A pass completes -/

theorem mem_awaited {n : TrackNumber} {t : Task} :
    (n, t) ∈ Plan.awaited plan ↔ ∃ x ∈ plan, x.task = t ∧ x.after = some n := by
  unfold Plan.awaited
  constructor
  · intro hmem
    obtain ⟨x, hx, hx'⟩ := List.mem_filterMap.mp hmem
    obtain ⟨m, hm, heq⟩ := Option.map_eq_some_iff.mp hx'
    cases heq
    exact ⟨x, hx, rfl, hm⟩
  · rintro ⟨x, hx, rfl, hn⟩
    exact List.mem_filterMap.mpr ⟨x, hx, by rw [hn]; rfl⟩

theorem count_awaited (hplan : Plan.Sound plan) {x : Planned} (hx : x ∈ plan) {n : TrackNumber}
    (hn : x.after = some n) (q : TrackNumber × Task → Bool) :
    (((Plan.awaited plan).filter q).map (·.2)).count x.task = if q (n, x.task) then 1 else 0 := by
  have hnumbers : ((Plan.awaited plan).map (·.2.number)).Nodup := by
    rw [Plan.awaited, Course.numbers_of_waiting]
    exact ((List.filter_sublist).map _).nodup hplan.distinct
  have hnodup : (((Plan.awaited plan).filter q).map (·.2)).Nodup := by
    apply List.Nodup.of_map Task.number
    rw [List.map_map]
    exact ((List.filter_sublist).map _).nodup hnumbers
  cases hq : q (n, x.task) with
  | true =>
    have hmem : (n, x.task) ∈ (Plan.awaited plan).filter q :=
      List.mem_filter.mpr ⟨mem_awaited.mpr ⟨x, hx, rfl, hn⟩, hq⟩
    exact List.count_eq_one_of_mem hnodup (List.mem_map.mpr ⟨_, hmem, rfl⟩)
  | false =>
    rw [if_neg (by simp), List.count_eq_zero]
    intro hmem
    obtain ⟨⟨m, t⟩, hw, rfl⟩ := List.mem_map.mp hmem
    obtain ⟨hw, hqw⟩ := List.mem_filter.mp hw
    obtain ⟨y, hy, htask, hm⟩ := mem_awaited.mp hw
    have heq : y = x := hplan.eq_of_number hy hx (congrArg Task.number htask)
    rw [heq, hn] at hm
    cases hm
    rw [hq] at hqw
    cases hqw

theorem count_releasedBy (hplan : Plan.Sound plan) (h : Chapter plan g s tr) (hg : g = s.generation)
    {x : Planned} (hx : x ∈ plan) {n : TrackNumber} (hn : x.after = some n) {t : Task}
    (hother : t.number ≠ x.number) :
    (s.releasedBy t).count x.task = if n = t.number ∧ completions g n tr = [] then 1 else 0 := by
  have hne : t ≠ x.task := fun heq => hother (congrArg Task.number heq)
  have hagain : (if t.mode = .loop then [t] else []).count x.task = 0 := by
    refine List.count_eq_zero.mpr fun hmem => ?_
    split at hmem
    · exact hne (List.mem_singleton.mp hmem).symm
    · cases hmem
  rw [Scene.releasedBy, List.count_append, hagain, h.waiting hg, List.filter_filter,
    count_awaited hplan hx hn]
  simp

theorem generation_of_mem_completion {t : Task} {id : Nat} {m : Mark} (hm : m ∈ s.completion t id) :
    m.generation = s.generation := by
  rcases List.mem_cons.mp hm with rfl | hm
  · rfl
  · obtain ⟨u, _, rfl⟩ := List.mem_map.mp hm
    rfl

theorem completions_completion (n : TrackNumber) (t : Task) (id : Nat) :
    completions s.generation n (s.completion t id) = if t.number = n then [id] else [] := by
  have happend := completions_append s.generation n [.completed s.generation id t.number]
    ((s.releasedBy t).map (.armed s.generation (some (t.number, id))))
  rw [completions_armed, List.append_nil] at happend
  refine happend.trans ?_
  by_cases hn : t.number = n <;> simp [completions, hn]

theorem releases_completion (u t : Task) (id : Nat) :
    releases s.generation u (s.completion t id) =
      if t.number = u.number then []
      else List.replicate ((s.releasedBy t).count u) (some (t.number, id)) := by
  have happend := releases_append s.generation u [.completed s.generation id t.number]
    ((s.releasedBy t).map (.armed s.generation (some (t.number, id))))
  rw [releases_armed] at happend
  exact happend.trans (by simp [releases])

theorem startings_completion (n : TrackNumber) (t : Task) (id : Nat) :
    startings g n (s.completion t id) = 0 := by
  have happend := startings_append g n [.completed s.generation id t.number]
    ((s.releasedBy t).map (.armed s.generation (some (t.number, id))))
  rw [startings_armed] at happend
  exact happend.trans (by simp [startings])

theorem mem_releasedBy {u t : Task} (hu : u ∈ s.releasedBy t) :
    (t.number, u) ∈ s.waiting ∨ t.mode = .loop ∧ u = t := by
  rcases List.mem_append.mp hu with hu | hu
  · obtain ⟨⟨m, v⟩, hw, rfl⟩ := List.mem_map.mp hu
    obtain ⟨hw, hm⟩ := List.mem_filter.mp hw
    have hm : m = t.number := of_decide_eq_true hm
    exact Or.inl (hm ▸ hw)
  · split at hu
    · rename_i hloop
      exact Or.inr ⟨hloop, List.mem_singleton.mp hu⟩
    · cases hu

theorem Chapter.freed_released (h : Chapter plan g s tr) (hg : g = s.generation) {t : Task}
    (hfreed : Freed plan g t tr) {i : Nat} (hstopped : .played g i (.stopped t.number) ∈ tr)
    {u : Task} (hu : u ∈ s.releasedBy t) : Freed plan g u tr := by
  rcases mem_releasedBy hu with hw | ⟨_, rfl⟩
  · rw [h.waiting hg] at hw
    obtain ⟨x, hx, htask, hafter⟩ := mem_awaited.mp (List.mem_filter.mp hw).1
    refine ⟨x, hx, htask, fun n hn => ?_⟩
    rw [hafter] at hn
    cases hn
    exact ⟨i, hstopped⟩
  · exact hfreed

theorem toCome_release (hg : g = s.generation) (hplan : Plan.Sound plan) {t : Task}
    (hfreed : Freed plan g t tr) {x : Planned} (hx : x ∈ plan)
    (hmode : x.task.mode = .once) : (s.release t).toCome g x.number = s.toCome g x.number := by
  -- only a task that starts over is new among the starts; the others waited before
  have hagain : (if t.mode = .loop then [t] else []).countP (fun u => u.number = x.number) = 0 := by
    refine List.countP_eq_zero.mpr fun u hu => ?_
    split at hu
    · rename_i hloop
      obtain ⟨y, hy, hytask, _⟩ := hfreed
      rw [List.mem_singleton.mp hu]
      intro hnumber
      have hynumber : y.number = x.number := (congrArg Task.number hytask).trans (of_decide_eq_true hnumber)
      rw [← hplan.eq_of_number hy hx hynumber, hytask, hloop] at hmode
      cases hmode
    · cases hu
  have hreleased : ((s.releasedBy t).map (⟨·, s.generation⟩)).countP
      (fun y : Start => y.generation = g ∧ y.task.number = x.number) =
        (s.waiting.filter fun w => w.1 = t.number).countP fun w => w.2.number = x.number := by
    rw [List.countP_map, Scene.releasedBy, ← hg]
    simp only [Function.comp_def, true_and]
    rw [List.countP_append, hagain, List.countP_map]
    rfl
  have hsplit := List.countP_eq_countP_filter_add s.waiting
    (fun w => decide (w.2.number = x.number)) (fun w => decide (w.1 = t.number))
  unfold Scene.toCome Scene.release
  simp only [List.countP_append, hreleased, if_pos hg]
  rw [hsplit]
  simp only [ne_eq, decide_not]
  omega

theorem Chapter.release (h : Chapter plan g s tr) (hg : g = s.generation) (hplan : Plan.Sound plan)
    {t : Task} (id : Nat) (hfreed : Freed plan g t tr) {i : Nat}
    (hstopped : .played g i (.stopped t.number) ∈ tr) :
    Chapter plan g (s.release t) (tr ++ s.completion t id) where
  starts x hx hxg := by
    rcases List.mem_append.mp hx with hx | hx
    · exact (h.starts x hx hxg).mono (List.subset_append_left _ _)
    · obtain ⟨u, hu, rfl⟩ := List.mem_map.mp hx
      exact (h.freed_released hg hfreed hstopped hu).mono (List.subset_append_left _ _)
  actors x hx hxg := (h.actors x hx hxg).mono (List.subset_append_left _ _)
  started := by
    refine started_append h fun i n hmem => ?_
    rcases List.mem_cons.mp hmem with heq | hmem
    · cases heq
    · obtain ⟨u, _, heq⟩ := List.mem_map.mp hmem
      cases heq
  waiting _ := by
    show s.waiting.filter _ = _
    rw [h.waiting hg, List.filter_filter]
    apply List.filter_congr
    intro w _
    rw [completions_append, hg, completions_completion]
    by_cases hw : t.number = w.1
    · simp [hw]
    · simp [hw, Ne.symm hw]
  released x hx n hn := by
    have hself := hplan.after_ne hx hn
    -- only the first completion of the track that is waited for still finds its dependents
    rw [releases_append, completions_append, h.released x hx n hn, hg, releases_completion,
      completions_completion, ← hg]
    by_cases hown : t.number = x.task.number
    · rw [if_pos hown, if_neg fun heq => hself (heq.symm.trans hown), List.append_nil, List.append_nil]
    · rw [if_neg hown, count_releasedBy hplan h hg hx hn hown]
      by_cases hnt : t.number = n
      · rw [← hnt]
        cases completions g t.number tr <;> simp
      · simp [hnt, Ne.symm hnt]
  once x hx hmode := by
    rw [startings_append, startings_completion, Nat.add_zero, toCome_release hg hplan hfreed hx hmode]
    exact h.once x hx hmode

/-! ## A run begins -/

theorem count_planned (hplan : Plan.Sound plan) (n : TrackNumber) :
    (Plan.free plan).countP (fun t => t.number = n) +
      (Plan.awaited plan).countP (fun w => w.2.number = n) ≤ 1 := by
  have hcount := List.nodup_iff_count_le_one.mp hplan.distinct n
  have hsplit := List.countP_eq_countP_filter_add plan (fun x => decide (x.number = n))
    fun x => x.after.isNone
  have hawaited : (Plan.awaited plan).countP (fun w => w.2.number = n) =
      (plan.filter fun x => !x.after.isNone).countP fun x => x.number = n := by
    have hnumbers := congrArg (List.countP fun m => decide (m = n)) (Course.numbers_of_waiting plan)
    rw [List.countP_map, List.countP_map] at hnumbers
    exact hnumbers
  have hall : (plan.map (·.number)).count n = plan.countP fun x => x.number = n := by
    rw [List.count, List.countP_map]
    rfl
  have hfree : (Plan.free plan).countP (fun t => t.number = n) =
      (plan.filter fun x => x.after.isNone).countP fun x => x.number = n := by
    rw [Plan.free, List.countP_map]
    rfl
  omega

theorem generation_of_mem_beginning {chained : Bool} {ts : List Task} {m : Mark}
    (hm : m ∈ s.beginning chained ts plan) : m.generation = s.generation + 1 := by
  rcases List.mem_cons.mp hm with rfl | hm
  · rfl
  · obtain ⟨u, _, rfl⟩ := List.mem_map.mp hm
    rfl

theorem marks_begin (plan : List Planned) (hmarks : ∀ m ∈ tr, m.generation ≤ s.generation)
    (chained : Bool) (ts : List Task) :
    (∀ n, completions (s.generation + 1) n (tr ++ s.beginning chained ts plan) = []) ∧
      (∀ t, t ∉ Plan.free plan →
        releases (s.generation + 1) t (tr ++ s.beginning chained ts plan) = []) ∧
      (∀ i e, .played (s.generation + 1) i e ∉ tr ++ s.beginning chained ts plan) := by
  have hold : ∀ m ∈ tr, m.generation ≠ s.generation + 1 := fun m hm =>
    Nat.ne_of_lt (Nat.lt_succ_of_le (hmarks m hm))
  refine ⟨fun n => ?_, fun t ht => ?_, fun i e hmem => ?_⟩
  · rw [completions_append, completions_of_ne hold, List.nil_append]
    exact completions_armed (s.generation + 1) none (Plan.free plan)
  · rw [releases_append, releases_of_ne hold, List.nil_append]
    refine (releases_armed (s.generation + 1) t none (Plan.free plan)).trans ?_
    rw [if_neg (by simp), List.count_eq_zero.mpr ht]
    rfl
  · rcases List.mem_append.mp hmem with hmem | hmem
    · exact hold _ hmem rfl
    · rcases List.mem_cons.mp hmem with heq | hmem
      · cases heq
      · obtain ⟨u, _, heq⟩ := List.mem_map.mp hmem
        cases heq

theorem chapter_begin (hplan : Plan.Sound plan) (hstarts : ∀ x ∈ s.starts, x.generation ≤ s.generation)
    (hactors : ∀ x ∈ s.actors, x.generation ≤ s.generation)
    (hmarks : ∀ m ∈ tr, m.generation ≤ s.generation) (chained : Bool) (ts : List Task) :
    Chapter plan (s.generation + 1) (s.begin plan) (tr ++ s.beginning chained ts plan) := by
  obtain ⟨hcompletions, hreleases, hplayed⟩ := marks_begin plan hmarks chained ts
  have hfree : ∀ t ∈ Plan.free plan, ∃ x ∈ plan, x.task = t ∧ x.after = none := by
    intro t ht
    obtain ⟨x, hx, rfl⟩ := List.mem_map.mp ht
    obtain ⟨hx, hnone⟩ := List.mem_filter.mp hx
    exact ⟨x, hx, rfl, Option.isNone_iff_eq_none.mp hnone⟩
  have holdStarts : ∀ x ∈ s.starts, x.generation ≠ s.generation + 1 := fun x hx =>
    Nat.ne_of_lt (Nat.lt_succ_of_le (hstarts x hx))
  have holdActors : ∀ x ∈ s.actors, x.generation ≠ s.generation + 1 := fun x hx =>
    Nat.ne_of_lt (Nat.lt_succ_of_le (hactors x hx))
  exact {
    starts := by
      intro x hx hxg
      rcases List.mem_append.mp hx with hx | hx
      · exact absurd hxg (holdStarts x hx)
      · obtain ⟨t, ht, rfl⟩ := List.mem_map.mp hx
        obtain ⟨y, hy, rfl, hnone⟩ := hfree t ht
        exact ⟨y, hy, rfl, fun n hn => by rw [hnone] at hn; cases hn⟩
    actors := fun x hx hxg => absurd hxg (holdActors x hx)
    started := by
      intro l i n r heq
      refine absurd ?_ (hplayed i (.started n))
      rw [heq]
      exact List.mem_append_right _ (List.mem_cons_self ..)
    waiting := by
      intro _
      simp only [hcompletions]
      exact (List.filter_eq_self.mpr fun _ _ => rfl).symm
    released := by
      intro x hx n hn
      have hwaits : x.task ∉ Plan.free plan := by
        intro hmem
        obtain ⟨y, hy, htask, hnone⟩ := hfree _ hmem
        rw [hplan.eq_of_number hy hx (congrArg Task.number htask), hn] at hnone
        cases hnone
      rw [hreleases _ hwaits, hcompletions]
      rfl
    once := by
      intro x hx _
      have hlate : s.starts.countP (fun y => y.generation = s.generation + 1 ∧
          y.task.number = x.number) = 0 :=
        List.countP_eq_zero.mpr fun y hy => by simp [holdStarts y hy]
      have hidle : s.actors.countP (fun y => y.generation = s.generation + 1 ∧
          y.task.number = x.number ∧ y.opened = false) = 0 :=
        List.countP_eq_zero.mpr fun y hy => by simp [holdActors y hy]
      have hplanned := count_planned hplan x.number
      unfold Scene.toCome Scene.begin
      simp only [List.countP_append, List.countP_map, Function.comp_def, hlate, hidle, if_true,
        true_and]
      rw [startings_of_not_played hplayed]
      omega }

/-! ## All generations -/

structure Keeps (s : Scene) (tr : List Mark) : Prop where
  starts : ∀ x ∈ s.starts, x.generation ≤ s.generation
  actors : ∀ x ∈ s.actors, x.generation ≤ s.generation
  marks : ∀ m ∈ tr, m.generation ≤ s.generation
  chapters : ∀ g chained ts, .began g chained ts ∈ tr →
    ∃ plan, (Plan.make chained ts).2 = .ok plan ∧ Chapter plan g s tr

theorem Keeps.go_on (h : Keeps s tr) {ms : List Mark} {s' : Scene}
    (hgeneration : s.generation ≤ s'.generation)
    (hstarts : ∀ x ∈ s'.starts, x ∈ s.starts ∨ x.generation = s'.generation)
    (hactors : ∀ x ∈ s'.actors, x.generation ≤ s'.generation)
    (hmarks : ∀ m ∈ ms, m.generation ≤ s'.generation ∧ ∀ k chained ts, m ≠ .began k chained ts)
    (hchapter : ∀ g plan, g ≤ s.generation → Plan.Sound plan → Chapter plan g s tr →
      Chapter plan g s' (tr ++ ms)) : Keeps s' (tr ++ ms) where
  starts x hx := by
    rcases hstarts x hx with hx | hx
    · exact Nat.le_trans (h.starts x hx) hgeneration
    · exact Nat.le_of_eq hx
  actors := hactors
  marks m hm := by
    rcases List.mem_append.mp hm with hm | hm
    · exact Nat.le_trans (h.marks m hm) hgeneration
    · exact (hmarks m hm).1
  chapters g chained ts hbegan := by
    rcases List.mem_append.mp hbegan with hbegan | hbegan
    · obtain ⟨plan, hmake, hplan⟩ := h.chapters g chained ts hbegan
      exact ⟨plan, hmake, hchapter g plan (h.marks _ hbegan) (Plan.sound_of_make hmake).1 hplan⟩
    · exact absurd rfl ((hmarks _ hbegan).2 g chained ts)

theorem mem_plays {x : Actor} {ns : List Message} {stops : Bool} {m : Mark}
    (hm : m ∈ x.plays ns stops) : ∃ e, m = .played x.generation x.id e := by
  obtain ⟨e, _, rfl⟩ := List.mem_map.mp hm
  exact ⟨e, rfl⟩

theorem stopped_mem_plays (x : Actor) (ns : List Message) :
    .played x.generation x.id (.stopped x.task.number) ∈ x.plays ns true :=
  List.mem_map_of_mem (List.mem_append_right _ (List.mem_singleton_self _))

theorem Keeps.turn (h : Keeps s tr) {l r rest : List Actor} {x : Actor}
    (hactors : s.actors = l ++ x :: r) (hrest : ∀ y ∈ rest, y = { x with opened := true })
    (ms : List Message) (stops : Bool) :
    Keeps { s with actors := l ++ rest ++ r } (tr ++ x.plays ms stops) := by
  have hx : x ∈ s.actors := hactors ▸ List.mem_append_right _ (List.mem_cons_self ..)
  refine h.go_on (Nat.le_refl _) (fun y hy => Or.inl hy) (fun y hy => ?_) (fun m hm => ?_)
    fun g plan _ _ hchapter => hchapter.turn hactors hrest ms stops
  · rcases List.mem_append.mp hy with hy | hy
    · rcases List.mem_append.mp hy with hy | hy
      · exact h.actors y (hactors ▸ List.mem_append_left _ hy)
      · rw [hrest y hy]
        exact h.actors x hx
    · exact h.actors y (hactors ▸ List.mem_append_right _ (List.mem_cons_of_mem _ hy))
  · obtain ⟨e, rfl⟩ := mem_plays hm
    exact ⟨h.actors x hx, fun k chained ts heq => by cases heq⟩

theorem Chapter.completion (h : Chapter plan g s tr) (hplan : Plan.Sound plan) {t : Task} (id : Nat)
    (hfreed : g = s.generation → Freed plan g t tr) {i : Nat}
    (hstopped : .played s.generation i (.stopped t.number) ∈ tr) :
    Chapter plan g (s.release t) (tr ++ s.completion t id) := by
  by_cases hg : g = s.generation
  · exact h.release hg hplan id (hfreed hg) (hg ▸ hstopped)
  · refine h.elsewhere hg (fun m hm heq => hg ?_) rfl (fun y hy heq => hg ?_) rfl
    · rw [← heq, generation_of_mem_completion hm]
    · obtain ⟨u, _, rfl⟩ := List.mem_map.mp hy
      exact heq.symm

theorem Keeps.completion (h : Keeps s tr) {x : Actor} (hx : x ∈ s.actors)
    (hg : x.generation = s.generation)
    (hstopped : .played s.generation x.id (.stopped x.task.number) ∈ tr) :
    Keeps (s.release x.task) (tr ++ s.completion x.task x.id) := by
  refine h.go_on (Nat.le_refl _) (fun y hy => ?_) h.actors (fun m hm => ?_)
    fun g plan _ hplan hchapter =>
      hchapter.completion hplan x.id (fun heq => hchapter.actors x hx (hg.trans heq.symm)) hstopped
  · rcases List.mem_append.mp hy with hy | hy
    · exact Or.inl hy
    · obtain ⟨u, _, rfl⟩ := List.mem_map.mp hy
      exact Or.inr rfl
  · have hgeneration : m.generation = s.generation := generation_of_mem_completion hm
    refine ⟨Nat.le_of_eq hgeneration, fun k chained ts heq => ?_⟩
    rw [heq] at hm
    rcases List.mem_cons.mp hm with hm | hm
    · cases hm
    · obtain ⟨u, _, hm⟩ := List.mem_map.mp hm
      cases hm

theorem Keeps.lose (h : Keeps s tr) {s' : Scene} (hg : s.generation ≤ s'.generation)
    (hwaiting : s'.generation = s.generation → s'.waiting = s.waiting)
    (hstarts : s'.starts.Sublist s.starts) (hactors : s'.actors.Sublist s.actors) : Keeps s' tr := by
  have hstep : Keeps s' (tr ++ []) := by
    refine h.go_on hg (fun x hx => Or.inl (hstarts.subset hx))
      (fun x hx => Nat.le_trans (h.actors x (hactors.subset hx)) hg) (fun m hm => by cases hm) ?_
    intro g plan hle _ hchapter
    rw [List.append_nil]
    exact hchapter.lose hle hg hwaiting hstarts hactors
  rwa [List.append_nil] at hstep

theorem Keeps.begin (h : Keeps s tr) {chained : Bool} {ts : List Task}
    (hmake : (Plan.make chained ts).2 = .ok plan) :
    Keeps (s.begin plan) (tr ++ s.beginning chained ts plan) where
  starts x hx := by
    rcases List.mem_append.mp hx with hx | hx
    · exact Nat.le_succ_of_le (h.starts x hx)
    · obtain ⟨t, _, rfl⟩ := List.mem_map.mp hx
      exact Nat.le_refl _
  actors x hx := Nat.le_succ_of_le (h.actors x hx)
  marks m hm := by
    rcases List.mem_append.mp hm with hm | hm
    · exact Nat.le_succ_of_le (h.marks m hm)
    · exact Nat.le_of_eq (generation_of_mem_beginning hm)
  chapters g chained' ts' hbegan := by
    rcases List.mem_append.mp hbegan with hbegan | hbegan
    · obtain ⟨plan', hmake', hchapter⟩ := h.chapters g chained' ts' hbegan
      have hne : g ≠ s.generation + 1 := Nat.ne_of_lt (Nat.lt_succ_of_le (h.marks _ hbegan))
      refine ⟨plan', hmake', hchapter.elsewhere hne (fun m hm heq => hne ?_) rfl (fun x hx heq => hne ?_)
        rfl⟩
      · rw [← heq, generation_of_mem_beginning hm]
      · obtain ⟨t, _, rfl⟩ := List.mem_map.mp hx
        exact heq.symm
    · rcases List.mem_cons.mp hbegan with heq | hmem
      · cases heq
        exact ⟨plan, hmake, chapter_begin (Plan.sound_of_make hmake).1 h.starts h.actors h.marks _ _⟩
      · obtain ⟨t, _, heq⟩ := List.mem_map.mp hmem
        cases heq

theorem Keeps.step (h : Keeps s tr) {ms : List Mark} {s' : Scene} (hstep : s.Step ms s') :
    Keeps s' (tr ++ ms) := by
  cases hstep with
  | lose hg hwaiting hstarts hactors =>
    rw [List.append_nil]
    exact h.lose hg hwaiting hstarts hactors
  | @start l r x hstarts hx id =>
    refine h.go_on (Nat.le_refl _) (fun y hy => Or.inl ?_) (fun y hy => ?_) (fun m hm => by cases hm) ?_
    · rw [hstarts]
      exact ((List.sublist_cons_self x r).append_left l).subset hy
    · rcases List.mem_append.mp hy with hy | hy
      · exact h.actors y hy
      · rw [List.mem_singleton.mp hy]
    · intro g plan _ _ hchapter
      rw [List.append_nil]
      exact hchapter.start hstarts hx id
  | @pause l r x hactors ms =>
    have hturn := h.turn hactors (List.forall_mem_singleton.mpr rfl) ms false
    rwa [List.append_assoc, List.singleton_append] at hturn
  | leave hactors ms =>
    have hturn := h.turn hactors (List.forall_mem_nil _) ms true
    rwa [List.append_nil] at hturn
  | @complete l r x hactors hx ms =>
    -- the actor stays until those who waited for it are released
    let y : Actor := { x with opened := true }
    have hturn := h.turn hactors (List.forall_mem_singleton.mpr rfl) ms true
    have hy : y ∈ l ++ [y] ++ r :=
      List.mem_append_left _ (List.mem_append_right _ (List.mem_singleton_self y))
    have hstopped : .played s.generation y.id (.stopped y.task.number) ∈ tr ++ x.plays ms true :=
      List.mem_append_right _ (hx ▸ stopped_mem_plays x ms)
    have hdone := hturn.completion hy hx hstopped
    rw [← List.append_assoc]
    have hgone : (l ++ r).Sublist (l ++ [y] ++ r) := by
      rw [List.append_assoc]
      exact (List.sublist_cons_self y r).append_left l
    exact hdone.lose (Nat.le_refl _) (fun _ => rfl) (List.Sublist.refl _) hgone
  | begin hmake => exact h.begin hmake

end

namespace Player

theorem Traced.keeps {p : Player} {tr : List Mark} (h : p.Traced tr) : Keeps p.scene tr := by
  induction h with
  | fresh config store audience =>
    refine ⟨?_, ?_, ?_, ?_⟩
    · intro x hx
      cases hx
    · intro x hx
      cases hx
    · intro m hm
      cases hm
    · intro g chained ts hbegan
      cases hbegan
  | act h a ih => exact ih.step (scene_act h.reached.orderly a)
  | addSeat _ s ih => exact ih

/-- Whatever is done to a player, and whatever fires and takes a turn in whatever order, of each task
of each run that was begun: when it waits for a track, its own track starts only after that one has
stopped in the same generation, and but for its own passes only the first pass of that track that
completes gives it a timer. A task that does not start over starts at most once. -/
theorem sequence_of_traced {p : Player} {tr : List Mark} (h : p.Traced tr) {g : Nat} {chained : Bool}
    {ts : List Task} (hbegan : .began g chained ts ∈ tr) {t : Task} (ht : t ∈ ts) :
    (∀ n, Plan.Awaits chained ts t n →
      (∀ l i r, tr = l ++ .played g i (.started t.number) :: r →
        ∃ j, .played g j (.stopped n) ∈ l) ∧
      releases g t tr = ((completions g n tr).take 1).map fun j => some (n, j)) ∧
      (t.mode = .once → startings g t.number tr ≤ 1) := by
  obtain ⟨plan, hmake, hchapter⟩ := h.keeps.chapters g chained ts hbegan
  obtain ⟨hplan, htasks⟩ := Plan.sound_of_make hmake
  obtain ⟨x, hx, rfl⟩ := List.mem_map.mp (htasks.mem_iff.mpr ht)
  refine ⟨fun n hawaits => ?_, fun hmode => ?_⟩
  · have hn := (Plan.awaits_iff hmake hx n).mp hawaits
    refine ⟨fun l i r heq => ?_, hchapter.released x hx n hn⟩
    obtain ⟨u, hu, y, hy, rfl, hfreed⟩ := hchapter.started l i x.number r heq
    rw [hplan.eq_of_number hy hx hu] at hfreed
    exact hfreed n hn
  · have hbound := hchapter.once x hx hmode
    exact Nat.le_trans (Nat.le_add_right _ _) hbound

def sampleActions : List Action :=
  [.fire ⟨default, 0⟩ 0, .work ⟨default, 0⟩ 0 true, .fire ⟨default, 0⟩ 1, .work ⟨default, 0⟩ 1 true]

def sampleOpening : List Mark :=
  .began 1 true sampleTasks :: (Plan.free samplePlan).map (.armed 1 none)

/-- The second track gets its timer by the first one, and then starts over. -/
def sampleSequel : List Mark :=
  let arms (cause : TrackNumber × Nat) : List Mark :=
    (Plan.awaited samplePlan).map fun w => .armed 1 (some cause) w.2
  [.played 1 0 (.started ⟨1⟩), .played 1 0 (.stopped ⟨1⟩), .completed 1 0 ⟨1⟩] ++ arms (⟨1⟩, 0) ++
    [.played 1 1 (.started ⟨2⟩), .played 1 1 (.stopped ⟨2⟩), .completed 1 1 ⟨2⟩] ++ arms (⟨2⟩, 1)

theorem marks_samplePlayer : samplePlayer.marks (.play (some ⟨default, 0⟩)) = sampleOpening := by
  obtain ⟨hrun, hplay⟩ := play_of_make make_sampleTasks (Or.inl rfl) ⟨default, 0⟩
  have hstarts : (samplePlayer.act (.play (some ⟨default, 0⟩))).1.starts =
      samplePlayer.starts ++ [⟨sampleTasks[0], 1⟩] := by
    show (samplePlayer.play (some ⟨default, 0⟩)).1.starts = _
    rw [hrun]
    decide +kernel
  rw [marks_of_armed hstarts, actionMarks, hplay, hrun]
  decide +kernel

theorem traced_sample :
    ((samplePlayer.play (some ⟨default, 0⟩)).1.actAll sampleActions).1.Traced
      (sampleOpening ++ sampleSequel) := by
  obtain ⟨hrun, _⟩ := play_of_make make_sampleTasks (Or.inl rfl) ⟨default, 0⟩
  have hnew : samplePlayer.Traced [] :=
    ((Traced.fresh {} none []).act (.addTask sampleTasks[0])).act (.addTask sampleTasks[1])
  have hplayed := hnew.act (.play (some ⟨default, 0⟩))
  rw [marks_samplePlayer] at hplayed
  have hsequel : ((samplePlayer.play (some ⟨default, 0⟩)).1.actAll sampleActions).2 =
      sampleSequel := by
    rw [hrun]
    decide +kernel
  rw [← hsequel]
  exact hplayed.actAll sampleActions

theorem sequence_of_traced_sample :
    let p := ((samplePlayer.play (some ⟨default, 0⟩)).1.actAll sampleActions).1
    let tr := sampleOpening ++ sampleSequel
    p.Traced tr ∧ Plan.Awaits true sampleTasks sampleTasks[1] ⟨1⟩ ∧
      (∃ j, .played 1 j (.stopped ⟨1⟩) ∈ sampleOpening ++ sampleSequel.take 4) ∧
      releases 1 sampleTasks[1] tr = [some (⟨1⟩, 0)] ∧ startings 1 ⟨1⟩ tr ≤ 1 := by
  intro p tr
  have hbegan : .began 1 true sampleTasks ∈ tr := List.mem_cons_self ..
  have hawaits : Plan.Awaits true sampleTasks sampleTasks[1] ⟨1⟩ := ⟨by decide, Or.inl rfl⟩
  obtain ⟨hwaits, _⟩ := sequence_of_traced traced_sample hbegan (t := sampleTasks[1]) (by decide)
  obtain ⟨hafter, hreleased⟩ := hwaits ⟨1⟩ hawaits
  obtain ⟨_, honce⟩ := sequence_of_traced traced_sample hbegan (t := sampleTasks[0]) (by decide)
  exact ⟨traced_sample, hawaits, hafter (sampleOpening ++ sampleSequel.take 4) 1 _ rfl, hreleased,
    honce rfl⟩

end Player

end QuoteBoard
