import QuoteBoard.Proofs.Course
import QuoteBoard.Proofs.Plan

/-!
# No track is lost or played twice

From an obeyed play until it is stopped or played anew, a player keeps account of its plan: each
task waits for its predecessor, has a timer, plays, or has finished (`Accounts`). Every step of the
course keeps this. A run that has come to a halt would have only tasks that wait and tasks that
finished, and the predecessor of a waiting task would wait as well; the plan has no circle, so there
is none. The main statement is `tracks_of_runs`.
-/

namespace QuoteBoard

namespace Course

def placed (c : Course) : List TrackNumber :=
  c.waiting.map (·.2.number) ++ c.armed.map (·.number) ++ c.running.map (·.task.number) ++ c.finished

/-- How the tasks of a plan stand, when the tracks `done` have played to their end. -/
structure Accounts (c : Course) (plan : List Planned) (done : List TrackNumber) : Prop where
  planned : c.planned = plan.length
  placed : c.placed.Perm (plan.map (·.number))
  waiting : ∀ w ∈ c.waiting, w.1 ∉ done ∧ ∃ x ∈ plan, x.task = w.2 ∧ x.after = some w.1
  armed : ∀ t ∈ c.armed, ∃ x ∈ plan, x.task = t
  running : ∀ r ∈ c.running, r.cancelled = false ∧ ∃ x ∈ plan, x.task = r.task
  finished : ∀ n ∈ c.finished, n ∈ done ∧ ∃ x ∈ plan, x.number = n ∧ x.task.mode = .once
  active : c.active = c.running.map fun r => (r.task.number, r.id)
  phase : c.phase = .initialized ∧ c.running = [] ∧ c.finished = [] ∨
    c.phase = .playing ∧ c.finished.length ≠ plan.length ∨
    c.phase = .finished ∧ c.finished.length = plan.length

/-! ## What a step moves -/

theorem placed_begin {c : Course} {l r : List Task} {t : Task} (harmed : c.armed = l ++ t :: r)
    (id : Nat) : (c.begin id t (l ++ r)).placed.Perm c.placed := by
  rw [List.perm_iff_count]
  intro n
  simp only [Course.placed, Course.begin, harmed, List.map_append, List.map_cons, List.map_nil,
    List.count_append, List.count_cons, List.count_nil]
  omega

theorem count_map_filter_add {α : Type} (l : List α) (f : α → TrackNumber) (q : α → Bool)
    (n : TrackNumber) :
    ((l.filter q).map f).count n + ((l.filter fun a => !q a).map f).count n = (l.map f).count n := by
  have hperm := (List.filter_append_perm q l).map f
  rw [← List.perm_iff_count.mp hperm n, List.map_append, List.count_append]

theorem finishedWith_eq {c : Course} {t : Task} (ht : t.number ∉ c.finished) :
    c.finishedWith t = c.finished ++ if t.mode = .once then [t.number] else [] := by
  cases hmode : t.mode <;> simp [finishedWith, hmode, ht]

theorem placed_stop {c : Course} {l r : List Runner} {x : Runner} (hrunning : c.running = l ++ x :: r)
    (hfresh : x.task.number ∉ c.finished) : (c.stop x.task (l ++ r)).placed.Perm c.placed := by
  rw [List.perm_iff_count]
  intro n
  have hwaiting := count_map_filter_add c.waiting (·.2.number) (fun w => w.1 = x.task.number) n
  have hnot : (c.waiting.filter fun w => w.1 ≠ x.task.number) =
      c.waiting.filter fun w => !decide (w.1 = x.task.number) := by simp
  simp only [Course.placed, Course.stop, finishedWith_eq hfresh, hrunning, hnot]
  cases hmode : x.task.mode with
  | once =>
    simp only [List.map_append, List.map_cons, List.map_nil, List.map_map, List.count_append,
      List.count_cons, List.count_nil, if_true, reduceCtorEq, if_false, Function.comp_def]
    omega
  | loop =>
    simp only [List.map_append, List.map_cons, List.map_nil, List.map_map, List.count_append,
      List.count_cons, List.count_nil, if_true, reduceCtorEq, if_false, Function.comp_def]
    omega

theorem filter_active {rs : List Runner} {n : TrackNumber} (h : ∀ u ∈ rs, u.task.number ≠ n) :
    ((rs.map fun u => (u.task.number, u.id)).filter fun a => a.1 ≠ n) =
      rs.map fun u => (u.task.number, u.id) := by
  apply List.filter_eq_self.mpr
  intro a ha
  obtain ⟨u, hu, rfl⟩ := List.mem_map.mp ha
  exact decide_eq_true (h u hu)

section
variable {plan : List Planned} {done : List TrackNumber} {c : Course}

theorem Accounts.length_placed (h : c.Accounts plan done) :
    c.waiting.length + c.armed.length + c.running.length + c.finished.length = plan.length := by
  have hlen := h.placed.length_eq
  simp only [Course.placed, List.length_append, List.length_map] at hlen
  exact hlen

theorem Accounts.nodup_running (h : c.Accounts plan done) (hplan : Plan.Sound plan) :
    (c.running.map (·.task.number)).Nodup := by
  have hnodup := h.placed.nodup_iff.mpr hplan.distinct
  exact (List.nodup_append.mp (List.nodup_append.mp hnodup).1).2.1

theorem Accounts.armed_ne_running (h : c.Accounts plan done) (hplan : Plan.Sound plan) {t : Task}
    (ht : t ∈ c.armed) {u : Runner} (hu : u ∈ c.running) : u.task.number ≠ t.number := by
  have hnodup := h.placed.nodup_iff.mpr hplan.distinct
  have hapart := (List.nodup_append.mp (List.nodup_append.mp hnodup).1).2.2
  intro heq
  exact hapart t.number (List.mem_append_right _ (List.mem_map_of_mem ht)) u.task.number
    (List.mem_map_of_mem hu) heq.symm

theorem Accounts.running_not_finished (h : c.Accounts plan done) (hplan : Plan.Sound plan)
    {u : Runner} (hu : u ∈ c.running) : u.task.number ∉ c.finished := by
  have hnodup := h.placed.nodup_iff.mpr hplan.distinct
  intro hfin
  exact (List.nodup_append.mp hnodup).2.2 _ (List.mem_append_right _ (List.mem_map_of_mem hu)) _ hfin
    rfl

/-! ## A timer starts its task -/

theorem Accounts.begin (h : c.Accounts plan done) (hplan : Plan.Sound plan) {l r : List Task}
    {t : Task} (harmed : c.armed = l ++ t :: r) (id : Nat) :
    (c.begin id t (l ++ r)).Accounts plan done := by
  have ht : t ∈ c.armed := by
    rw [harmed]
    exact List.mem_append_right _ (List.mem_cons_self ..)
  refine ⟨h.planned, (placed_begin harmed id).trans h.placed, h.waiting, ?_, ?_, h.finished, ?_, ?_⟩
  · intro u hu
    refine h.armed u ?_
    rw [harmed]
    exact ((List.sublist_cons_self t r).append_left l).subset hu
  · intro u hu
    rcases List.mem_append.mp hu with hu | hu
    · exact h.running u hu
    · rw [List.mem_singleton.mp hu]
      exact ⟨rfl, h.armed t ht⟩
  · show c.active.filter _ ++ _ = (c.running ++ _).map _
    rw [h.active, filter_active fun u hu => h.armed_ne_running hplan ht hu, List.map_append]
    rfl
  · have hlen := h.length_placed
    rw [harmed, List.length_append, List.length_cons] at hlen
    have hopen : c.finished.length ≠ plan.length := by omega
    refine Or.inr (Or.inl ⟨?_, hopen⟩)
    rcases h.phase with ⟨hp, _, _⟩ | ⟨hp, _⟩ | ⟨_, hfull⟩
    · simp [Course.begin, hp]
    · simp [Course.begin, hp]
    · exact absurd hfull hopen

/-! ## A task has played to its end -/

theorem Accounts.finished_stop (h : c.Accounts plan done) {x : Runner} (hx : x ∈ c.running)
    (hfresh : x.task.number ∉ c.finished) {n : TrackNumber} (hn : n ∈ c.finishedWith x.task) :
    n ∈ done ++ [x.task.number] ∧ ∃ y ∈ plan, y.number = n ∧ y.task.mode = .once := by
  rw [finishedWith_eq hfresh] at hn
  rcases List.mem_append.mp hn with hn | hn
  · obtain ⟨hend, honce⟩ := h.finished n hn
    exact ⟨List.mem_append_left _ hend, honce⟩
  · split at hn
    · rename_i hmode
      have hn := List.mem_singleton.mp hn
      obtain ⟨y, hy, hytask⟩ := (h.running x hx).2
      refine ⟨List.mem_append_right _ (List.mem_singleton.mpr hn), y, hy, ?_, hytask ▸ hmode⟩
      rw [hn, ← hytask]
      rfl
    · cases hn

theorem Accounts.armed_stop (h : c.Accounts plan done) {x : Runner} (hx : x ∈ c.running)
    (running : List Runner) {t : Task} (ht : t ∈ (c.stop x.task running).armed) :
    ∃ y ∈ plan, y.task = t := by
  rcases List.mem_append.mp ht with ht | ht
  · exact h.armed t ht
  rcases List.mem_append.mp ht with ht | ht
  · obtain ⟨w, hw, rfl⟩ := List.mem_map.mp ht
    obtain ⟨y, hy, hytask, _⟩ := (h.waiting w (List.mem_filter.mp hw).1).2
    exact ⟨y, hy, hytask⟩
  · split at ht
    · rw [List.mem_singleton.mp ht]
      exact (h.running x hx).2
    · cases ht

theorem Accounts.stop (h : c.Accounts plan done) (hplan : Plan.Sound plan) {l r : List Runner}
    {x : Runner} (hrunning : c.running = l ++ x :: r) :
    (c.stop x.task (l ++ r)).Accounts plan (done ++ [x.task.number]) := by
  have hx : x ∈ c.running := by
    rw [hrunning]
    exact List.mem_append_right _ (List.mem_cons_self ..)
  have hfresh := h.running_not_finished hplan hx
  refine ⟨h.planned, (placed_stop hrunning hfresh).trans h.placed, ?_, ?_, ?_, ?_, ?_, ?_⟩
  · intro w hw
    obtain ⟨hw, hne⟩ := List.mem_filter.mp hw
    obtain ⟨hdone, hplanned⟩ := h.waiting w hw
    refine ⟨fun hend => ?_, hplanned⟩
    rcases List.mem_append.mp hend with hend | hend
    · exact hdone hend
    · exact of_decide_eq_true hne (List.mem_singleton.mp hend)
  · intro t ht
    exact h.armed_stop hx (l ++ r) ht
  · intro u hu
    refine h.running u ?_
    rw [hrunning]
    exact ((List.sublist_cons_self x r).append_left l).subset hu
  · intro n hn
    exact h.finished_stop hx hfresh hn
  · have hother : ∀ u ∈ l ++ r, u.task.number ≠ x.task.number := by
      have hnodup := h.nodup_running hplan
      rw [hrunning, (List.perm_middle.map _).nodup_iff] at hnodup
      intro u hu heq
      exact (List.nodup_cons.mp hnodup).1 (List.mem_map.mpr ⟨u, hu, heq⟩)
    show c.active.filter _ = (l ++ r).map _
    rw [← filter_active hother, h.active, hrunning]
    simp
  · have hlen := h.length_placed
    rw [hrunning, List.length_append, List.length_cons] at hlen
    refine Or.inr ?_
    rcases h.phase with ⟨_, hnone, _⟩ | ⟨hp, _⟩ | ⟨_, hfull⟩
    · rw [hnone] at hx
      cases hx
    · simp only [Course.stop, h.planned, hp]
      by_cases hfull : (c.finishedWith x.task).length = plan.length
      · exact Or.inr ⟨by simp [hfull], hfull⟩
      · exact Or.inl ⟨by simp [hfull], hfull⟩
    · omega

theorem Accounts.step (h : c.Accounts plan done) (hplan : Plan.Sound plan) {n : Option TrackNumber}
    {c' : Course} (hstep : c.Step n c') : c'.Accounts plan (done ++ n.toList) := by
  cases hstep with
  | idle => simpa using h
  | start id harmed => simpa using h.begin hplan harmed id
  | stop hrunning => exact h.stop hplan hrunning

end

/-! ## The beginning of a run -/

theorem waiting_registered (plan : List Planned) :
    (Player.registered plan).waiting =
      plan.filterMap fun x => x.after.map fun n => (n, x.task) := by
  suffices h : ∀ r : Registry, (plan.foldl Player.enroll r).waiting =
      r.waiting ++ plan.filterMap fun x => x.after.map fun n => (n, x.task) from h {}
  induction plan with
  | nil => exact fun r => (List.append_nil _).symm
  | cons x plan ih =>
    intro r
    rw [List.foldl_cons, ih]
    cases hx : x.after <;> simp [Player.enroll, hx, Registry.subscribe]

theorem numbers_of_waiting (plan : List Planned) :
    (plan.filterMap fun x => x.after.map fun n => (n, x.task)).map (·.2.number) =
      (plan.filter fun x => !x.after.isNone).map (·.number) := by
  induction plan with
  | nil => rfl
  | cons x plan ih => cases hx : x.after <;> simp [hx, ih, Planned.number]

theorem accounts_run {plan : List Planned} (hne : plan ≠ []) {p : Player} (h : p.Orderly)
    (now : Moment) : (p.run now plan).1.course.Accounts plan [] := by
  obtain ⟨ts, hstarts, heq⟩ := p.run_eq now plan
  rw [heq, if_neg hne]
  have harmed : Player.tasksOf (p.generation + 1) (ts.live.map (·.payload)) =
      (plan.filter fun x => x.after.isNone).map (·.task) := by
    have hold : Player.tasksOf (p.generation + 1) p.starts = [] :=
      Player.tasksOf_eq_nil fun s hs => Nat.ne_of_lt (Nat.lt_succ_of_le (h.starts s hs))
    rw [hstarts, Player.tasksOf_append, hold, Player.tasksOf_present, List.nil_append]
  have hrunning : Player.runnersOf (p.generation + 1) p.passes = [] :=
    Player.runnersOf_eq_nil fun q hq => Nat.ne_of_lt (Nat.lt_succ_of_le (h.passes q hq))
  unfold Player.course Player.armed Player.starts Player.running
  simp only
  rw [waiting_registered, harmed, hrunning]
  refine ⟨rfl, ?_, ?_, ?_, ?_, ?_, rfl, Or.inl ⟨rfl, rfl, rfl⟩⟩
  · have hsplit := (List.filter_append_perm (fun x : Planned => x.after.isNone) plan).map (·.number)
    rw [List.map_append] at hsplit
    simp only [Course.placed, numbers_of_waiting, List.map_map, List.map_nil, List.append_nil]
    exact List.perm_append_comm.trans hsplit
  · intro w hw
    obtain ⟨x, hx, hw⟩ := List.mem_filterMap.mp hw
    obtain ⟨n, hn, rfl⟩ := Option.map_eq_some_iff.mp hw
    exact ⟨List.not_mem_nil, x, hx, rfl, hn⟩
  · intro t ht
    obtain ⟨x, hx, rfl⟩ := List.mem_map.mp ht
    exact ⟨x, (List.mem_filter.mp hx).1, rfl⟩
  · intro r hr
    cases hr
  · intro n hn
    cases hn

/-! ## The halt that there is not -/

section
variable {plan : List Planned} {done : List TrackNumber} {c : Course}

/-- With neither timers nor passes a waiting task waits for a waiting one. -/
theorem Accounts.waiting_closed (h : c.Accounts plan done) (hplan : Plan.Sound plan)
    (harmed : c.armed = []) (hrunning : c.running = []) {n a : TrackNumber}
    (hn : n ∈ c.waiting.map (·.2.number)) (ha : Plan.predecessor? plan n = some a) :
    a ∈ c.waiting.map (·.2.number) := by
  obtain ⟨w, hw, rfl⟩ := List.mem_map.mp hn
  obtain ⟨hdone, x, hx, hxtask, hafter⟩ := h.waiting w hw
  have hnumber : w.2.number = x.number := by
    rw [← hxtask]
    rfl
  rw [hnumber, hplan.predecessor?_number hx, hafter] at ha
  cases ha
  have hplaced := h.placed.mem_iff.mpr (hplan.known x hx w.1 hafter)
  unfold Course.placed at hplaced
  rw [harmed, hrunning, List.map_nil, List.map_nil, List.append_nil, List.append_nil] at hplaced
  rcases List.mem_append.mp hplaced with hplaced | hplaced
  · exact hplaced
  · exact absurd (h.finished w.1 hplaced).1 hdone

theorem Accounts.goes_on (h : c.Accounts plan done) (hplan : Plan.Sound plan)
    (hopen : c.finished.length ≠ plan.length) : c.armed ≠ [] ∨ c.running ≠ [] := by
  by_contra hhalt
  rw [not_or, not_not, not_not] at hhalt
  obtain ⟨harmed, hrunning⟩ := hhalt
  have hlen := h.length_placed
  rw [harmed, hrunning, List.length_nil, List.length_nil] at hlen
  obtain ⟨w, hw⟩ : ∃ w, w ∈ c.waiting := by
    refine List.exists_mem_of_length_pos ?_
    omega
  have hchain : ∀ k m, Plan.ancestor? plan k w.2.number = some m → m ∈ c.waiting.map (·.2.number) := by
    intro k
    induction k with
    | zero =>
      intro m hm
      cases hm
      exact List.mem_map_of_mem hw
    | succ k ih =>
      intro m hm
      rw [Plan.ancestor?_add] at hm
      obtain ⟨n, hn, hm⟩ := Option.bind_eq_some_iff.mp hm
      obtain ⟨a, ha, hm⟩ := Option.bind_eq_some_iff.mp hm
      cases hm
      exact h.waiting_closed hplan harmed hrunning (ih n hn) ha
  obtain ⟨_, x, hx, hxtask, _⟩ := h.waiting w hw
  have hmem : w.2.number ∈ plan.map (·.number) := by
    rw [← hxtask]
    exact List.mem_map_of_mem hx
  obtain ⟨k, m, hk, hm⟩ := hplan.ends hmem
  obtain ⟨v, hv, rfl⟩ := List.mem_map.mp (hchain k m hk)
  obtain ⟨_, y, hy, hytask, hafter⟩ := h.waiting v hv
  have hpre := hplan.predecessor?_number hy
  have hnumber : y.number = v.2.number := congrArg Task.number hytask
  rw [hnumber, hm, hafter] at hpre
  cases hpre

theorem Accounts.finished_iff (h : c.Accounts plan done) (hplan : Plan.Sound plan) (hne : plan ≠ []) :
    c.phase = .finished ↔ ∀ x ∈ plan, x.task.mode = .once ∧ x.number ∈ c.finished := by
  have hlen := h.length_placed
  constructor
  · intro hphase x hx
    have hfull : c.finished.length = plan.length := by
      rcases h.phase with ⟨hp, _⟩ | ⟨hp, _⟩ | ⟨_, hfull⟩
      · rw [hphase] at hp
        cases hp
      · rw [hphase] at hp
        cases hp
      · exact hfull
    have hplaced := h.placed.mem_iff.mpr (List.mem_map_of_mem (f := (·.number)) hx)
    have hwaiting : c.waiting = [] := List.eq_nil_of_length_eq_zero (by omega)
    have harmed : c.armed = [] := List.eq_nil_of_length_eq_zero (by omega)
    have hrunning : c.running = [] := List.eq_nil_of_length_eq_zero (by omega)
    rw [Course.placed, hwaiting, harmed, hrunning] at hplaced
    have hmem : x.number ∈ c.finished := hplaced
    obtain ⟨_, y, hy, hnumber, honce⟩ := h.finished _ hmem
    rw [hplan.eq_of_number hy hx hnumber] at honce
    exact ⟨honce, hmem⟩
  · intro hall
    have hsub : plan.map (·.number) ⊆ c.finished := by
      intro n hn
      obtain ⟨x, hx, rfl⟩ := List.mem_map.mp hn
      exact (hall x hx).2
    have hle := (List.subperm_of_subset hplan.distinct hsub).length_le
    rw [List.length_map] at hle
    have hpos := List.length_pos_iff.mpr hne
    rcases h.phase with ⟨_, _, hnone⟩ | ⟨_, hopen⟩ | ⟨hp, _⟩
    · rw [hnone, List.length_nil] at hle
      omega
    · omega
    · exact hp

end

end Course

/-! ## Places of a task -/

inductive Place where
  | waiting
  | armed
  | playing
  | finished
  deriving DecidableEq

namespace Player

/-- How often a planned task is in a place: in the registry under its predecessor, with a timer or a
pass of the present run, among the finished tracks. A pass counts when the player lists it and
nobody cancelled it. -/
def occurrences (p : Player) (x : Planned) : Place → Nat
  | .waiting => p.registry.waiting.countP fun w => x.after = some w.1 ∧ w.2 = x.task
  | .armed => p.timers.live.countP fun t => t.payload = ⟨x.task, p.generation⟩
  | .playing => p.passes.countP fun q =>
      q.generation = p.generation ∧ q.task = x.task ∧ q.cancelled = false ∧
        (q.number, q.id) ∈ p.active
  | .finished => p.finished.count x.number

/-- How a run stands when the tracks `done` have played to their end in it. -/
structure Stands (plan : List Planned) (done : List TrackNumber) (p : Player) : Prop where
  one_place : ∀ x ∈ plan, ∃ s, ∀ s', p.occurrences x s' = if s' = s then 1 else 0
  no_other : p.registry.size + p.armed.length + p.running.length + p.finished.length = plan.length
  once : ∀ x ∈ plan, x.number ∈ p.finished → x.task.mode = .once
  waiting : ∀ w ∈ p.registry.waiting, w.1 ∉ done
  goes_on : p.phase = .initialized ∨ p.phase = .playing → p.armed ≠ [] ∨ p.running ≠ []
  finished_iff : p.phase = .finished ↔ ∀ x ∈ plan, x.task.mode = .once ∧ x.number ∈ p.finished

section
variable {plan : List Planned} {done : List TrackNumber} {p : Player}

theorem task_eq_iff (hplan : Plan.Sound plan) {x : Planned} (hx : x ∈ plan) {t : Task}
    (ht : ∃ y ∈ plan, y.task = t) : t = x.task ↔ t.number = x.number := by
  obtain ⟨y, hy, rfl⟩ := ht
  constructor
  · intro h
    rw [h]
    rfl
  · intro h
    rw [hplan.eq_of_number hy hx h]

theorem occurrences_waiting (h : p.course.Accounts plan done) (hplan : Plan.Sound plan) {x : Planned}
    (hx : x ∈ plan) :
    p.occurrences x .waiting = (p.registry.waiting.map (·.2.number)).count x.number := by
  rw [List.count, List.countP_map]
  apply List.countP_congr
  intro w hw
  obtain ⟨_, y, hy, hytask, hafter⟩ := h.waiting w hw
  simp only [decide_eq_true_eq, Function.comp_apply, beq_iff_eq]
  rw [← task_eq_iff hplan hx ⟨y, hy, hytask⟩]
  constructor
  · intro hw
    exact hw.2
  · intro hw
    have heq : y = x := hplan.eq_of_number hy hx (congrArg Task.number (hytask.trans hw))
    exact ⟨heq ▸ hafter, hw⟩

theorem occurrences_armed (h : p.course.Accounts plan done) (hplan : Plan.Sound plan) {x : Planned}
    (hx : x ∈ plan) : p.occurrences x .armed = (p.armed.map (·.number)).count x.number := by
  have hstarts : p.occurrences x .armed = p.starts.countP fun s => s = ⟨x.task, p.generation⟩ := by
    rw [starts, List.countP_map]
    rfl
  have htasks : p.occurrences x .armed = p.armed.countP fun t => t = x.task := by
    rw [hstarts, armed, tasksOf, List.countP_map, List.countP_filter]
    apply List.countP_congr
    intro s _
    cases s
    simp only [decide_eq_true_eq, Function.comp_apply, Bool.and_eq_true, Start.mk.injEq]
  rw [htasks, List.count, List.countP_map]
  apply List.countP_congr
  intro t ht
  simp only [decide_eq_true_eq, Function.comp_apply, beq_iff_eq]
  exact task_eq_iff hplan hx (h.armed t ht)

theorem occurrences_playing (h : p.course.Accounts plan done) (hplan : Plan.Sound plan) {x : Planned}
    (hx : x ∈ plan) :
    p.occurrences x .playing = (p.running.map (·.task.number)).count x.number := by
  rw [List.count, List.countP_map, running, runnersOf, List.countP_map, List.countP_filter]
  apply List.countP_congr
  intro q hq
  simp only [decide_eq_true_eq, Function.comp_apply, Bool.and_eq_true, beq_iff_eq]
  constructor
  · rintro ⟨hg, htask, _, _⟩
    exact ⟨congrArg Task.number htask, hg⟩
  · rintro ⟨hnumber, hg⟩
    have hmem := runner_mem hq hg
    obtain ⟨hlive, hy⟩ := h.running q.runner hmem
    have hactive : p.active = p.running.map fun r => (r.task.number, r.id) := h.active
    refine ⟨hg, (task_eq_iff hplan hx hy).mpr hnumber, hlive, ?_⟩
    rw [hactive]
    exact List.mem_map_of_mem (f := fun r : Runner => (r.task.number, r.id)) hmem

theorem stands_of_accounts (h : p.course.Accounts plan done) (hplan : Plan.Sound plan)
    (hne : plan ≠ []) : p.Stands plan done where
  one_place x hx := by
    have hone := h.placed.count_eq x.number
    rw [List.count_eq_one_of_mem hplan.distinct (List.mem_map_of_mem hx)] at hone
    simp only [Course.placed, List.count_append] at hone
    have hsum : p.occurrences x .waiting + p.occurrences x .armed + p.occurrences x .playing +
        p.occurrences x .finished = 1 := by
      rw [occurrences_waiting h hplan hx, occurrences_armed h hplan hx,
        occurrences_playing h hplan hx]
      exact hone
    have hplace : p.occurrences x .waiting = 1 ∨ p.occurrences x .armed = 1 ∨
        p.occurrences x .playing = 1 ∨ p.occurrences x .finished = 1 := by omega
    rcases hplace with hs | hs | hs | hs
    · refine ⟨.waiting, fun s' => ?_⟩
      cases s' <;> simp <;> omega
    · refine ⟨.armed, fun s' => ?_⟩
      cases s' <;> simp <;> omega
    · refine ⟨.playing, fun s' => ?_⟩
      cases s' <;> simp <;> omega
    · refine ⟨.finished, fun s' => ?_⟩
      cases s' <;> simp <;> omega
  no_other := h.length_placed
  once x hx hfin := by
    obtain ⟨_, y, hy, hnumber, honce⟩ := h.finished _ hfin
    rw [hplan.eq_of_number hy hx hnumber] at honce
    exact honce
  waiting w hw := (h.waiting w hw).1
  goes_on hphase := by
    refine h.goes_on hplan ?_
    rcases h.phase with ⟨_, _, hnone⟩ | ⟨_, hopen⟩ | ⟨hp, _⟩
    · rw [hnone]
      exact (List.length_pos_iff.mpr hne).ne
    · exact hopen
    · have hp : p.phase = .finished := hp
      rcases hphase with hphase | hphase
      · rw [hp] at hphase
        cases hphase
      · rw [hp] at hphase
        cases hphase
  finished_iff := h.finished_iff hplan hne

theorem Runs.accounts {start : Player} (hplan : Plan.Sound plan) (horderly : start.Orderly)
    (hstart : start.course.Accounts plan []) (hrun : start.Runs p done) :
    p.Orderly ∧ p.course.Accounts plan done := by
  induction hrun with
  | refl => exact ⟨horderly, hstart⟩
  | act _ ha ih =>
    obtain ⟨hp, hacc⟩ := ih
    exact ⟨hp.act _, hacc.step hplan (course_act hp (fun r hr => (hacc.running r hr).1) ha)⟩
  | addSeat _ s ih => exact ⟨⟨ih.1.starts, ih.1.passes, ih.1.spawned, ih.1.ids⟩, ih.2⟩

end

/-- After an obeyed play of a plan that is not empty, whatever fires and whoever takes a turn: each
planned task is in one place and none of them twice, no task waits for a track that has played, the
run does not halt before it is finished, and it is finished when every task is. -/
theorem tracks_of_runs {p₀ p : Player} {now : Moment} {plan : List Planned} {done : List TrackNumber}
    (h₀ : p₀.Reached) (hmake : (Plan.make p₀.config.chained p₀.tasks).2 = .ok plan)
    (hne : plan ≠ []) (hplay : (p₀.play (some now)).2.2 = none)
    (hrun : (p₀.play (some now)).1.Runs p done) : p.Stands plan done := by
  have hplan := (Plan.sound_of_make hmake).1
  rcases p₀.play_cases (some now) with ⟨_, hrefused⟩ | ⟨t, plan', ht, hmake', heq, _⟩
  · exact absurd hplay hrefused
  rw [hmake] at hmake'
  cases hmake'
  rw [heq] at hrun
  have hstart := Course.accounts_run hne h₀.orderly t
  exact stands_of_accounts (hrun.accounts hplan (h₀.orderly.run t plan) hstart).2 hplan hne

/-- Two tracks, of which the second waits for the first and starts over. -/
def sampleTasks : List Task :=
  [{ track := { number := ⟨1⟩, context := "open" } },
    { track := { number := ⟨2⟩, context := "close" }, mode := .loop, waitFor := some ⟨1⟩ }]

def samplePlan : List Planned := [⟨sampleTasks[0], none⟩, ⟨sampleTasks[1], some ⟨1⟩⟩]

def samplePlayer : Player := sampleTasks.foldl (fun p t => (p.act (.addTask t)).1) {}

theorem reached_samplePlayer : samplePlayer.Reached :=
  ((Reached.fresh {} none []).act (.addTask sampleTasks[0])).act (.addTask sampleTasks[1])

theorem make_sampleTasks :
    (Plan.make samplePlayer.config.chained samplePlayer.tasks).2 = .ok samplePlan := by
  have hsorted : Plan.sorted samplePlayer.tasks = sampleTasks :=
    List.mergeSort_of_pairwise (by decide)
  unfold Plan.make
  rw [hsorted]
  rfl

def sampleStart : Player := (samplePlayer.run ⟨default, 0⟩ samplePlan).1

def sampleMiddle : Player :=
  ((sampleStart.act (.fire ⟨default, 0⟩ 0)).1.act (.work ⟨default, 0⟩ 0 true)).1

theorem runs_sampleMiddle : sampleStart.Runs sampleMiddle [⟨1⟩] := by
  have hfired : sampleStart.Runs (sampleStart.act (.fire ⟨default, 0⟩ 0)).1 _ := Runs.refl.act trivial
  have hworked := hfired.act (a := .work ⟨default, 0⟩ 0 true) trivial
  have hdone : ([] ++ (sampleStart.ended? (.fire ⟨default, 0⟩ 0)).toList) ++
      ((sampleStart.act (.fire ⟨default, 0⟩ 0)).1.ended? (.work ⟨default, 0⟩ 0 true)).toList = [⟨1⟩] := by
    decide +kernel
  rw [hdone] at hworked
  exact hworked

theorem tracks_of_runs_sample :
    (samplePlayer.play (some ⟨default, 0⟩)).2.2 = none ∧
      (samplePlayer.play (some ⟨default, 0⟩)).1.Runs sampleMiddle [⟨1⟩] ∧
      sampleMiddle.phase = .playing ∧ sampleMiddle.Stands samplePlan [⟨1⟩] := by
  obtain ⟨hrun, hplay⟩ := play_of_make make_sampleTasks (Or.inl rfl) ⟨default, 0⟩
  have hruns := runs_sampleMiddle
  unfold sampleStart at hruns
  rw [← hrun] at hruns
  refine ⟨hplay, hruns, by decide +kernel, ?_⟩
  exact tracks_of_runs reached_samplePlayer make_sampleTasks (by decide) hplay hruns

end Player

end QuoteBoard
