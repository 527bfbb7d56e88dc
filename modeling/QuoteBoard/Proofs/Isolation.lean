import QuoteBoard.Proofs.Renaming
import QuoteBoard.Proofs.Tracks

/-!
# Runs do not reach into each other

A player in operation is at rest, in a run, or stopping (`Player.Standing`), and every action leaves
it in one of the three. At rest it has neither timers nor passes; in a run all of them are of the
run; a stop waits for each pass that is left, and these are of an earlier generation.

So whatever a run leaves behind cannot touch a later one (`isolated_of_operated`): what is of an
earlier generation changes no more than itself, a stop that has returned leaves nothing behind, and
a play on a stopped player is the play of one that has done nothing yet, under other names.
-/

namespace QuoteBoard

/-- What a player in operation is asked: a stop gives up only passes that it waits for, and the
player itself is not given up. -/
def Action.Admissible (p : Player) : Action → Prop
  | .join track id => (track, id) ∈ p.joining
  | .abandon => False
  | _ => True

/-- Not a play that is obeyed. -/
def Action.Waits (p : Player) : Action → Prop
  | .play now => (p.play now).2.2 ≠ none
  | _ => True

/-- Something comes to a seat of the audience. -/
def ReplayEvent.reaches : ReplayEvent → Bool
  | heard _ _ => true
  | onBoard _ _ => true
  | _ => false

namespace Player

/-- What a player in operation can come to, from one that has done nothing yet. -/
inductive Operated : Player → Prop where
  | fresh (config : ReplayConfig) (store : Option Store) (audience : List Seat) :
    Operated { config := config, store := store, audience := audience }
  | act {p : Player} (h : Operated p) {a : Action} (ha : a.Admissible p) : Operated (p.act a).1
  | addSeat {p : Player} (h : Operated p) (s : Seat) : Operated (p.addSeat s)

theorem Operated.reached {p : Player} (h : p.Operated) : p.Reached := by
  induction h with
  | fresh config store audience => exact .fresh config store audience
  | act _ _ ih => exact ih.act _
  | addSeat _ s ih => exact ih.addSeat s

/-! ## How a player stands -/

structure AtRest (p : Player) : Prop where
  phase : p.phase = .stopped
  handles : p.timers.handles = []
  registry : p.registry = {}
  finished : p.finished = []
  passes : p.passes = []
  active : p.active = []
  joining : p.joining = []

structure Current (p : Player) : Prop where
  starts : ∀ s ∈ p.starts, s.generation = p.generation
  passes : ∀ q ∈ p.passes, q.generation = p.generation
  joining : p.joining = []

structure UnderWay (p : Player) : Prop where
  current : p.Current
  accounts : ∃ plan done, Plan.Sound plan ∧ p.course.Accounts plan done

/-- The passes that are left are of an earlier generation, and a stop waits for them. -/
structure Stopping (p : Player) : Prop where
  phase : p.phase = .stopping
  handles : p.timers.handles = []
  registry : p.registry = {}
  finished : p.finished = []
  active : p.active = []
  passes : ∀ q ∈ p.passes, q.generation ≠ p.generation ∧ (q.number, q.id) ∈ p.joining

inductive Standing (p : Player) : Prop where
  | atRest (h : p.AtRest)
  | underWay (h : p.UnderWay)
  | stopping (h : p.Stopping)

/-! ## Actions without effect -/

section
variable {p : Player}

theorem fire_of_no_handles (h : p.timers.handles = []) (now : Moment) (id : UInt64) :
    p.fire now id = (p, []) := by
  simp [fire, Timers.fire, Timers.find?, Timers.live, h]

theorem work_of_no_passes (h : p.passes = []) (now : Moment) (id : Nat) (pauses : Bool) :
    p.work now id pauses = (p, []) := by
  simp [work, findPass?, h]

theorem endStop_of_ne (h : p.phase ≠ .stopping) : p.endStop = (p, []) := by
  unfold endStop
  split
  · simp [advance, h]
  · rfl

theorem starts_of_no_handles (h : p.timers.handles = []) : p.starts = [] := by
  simp [starts, Timers.live, h]

theorem beginStop_refused (h : p.phase = .stopped ∨ p.phase = .stopping) :
    p.beginStop = (p, [], some (.invalidState .stop p.phase)) := by
  simp [beginStop, h]

theorem phase_of_obeyed {now : Option Moment} (h : (p.play now).2.2 = none) :
    p.phase = .stopped ∨ p.phase = .finished := by
  by_contra hphase
  unfold play at h
  cases now with
  | none => cases h
  | some now =>
    cases hmake : (Plan.make p.config.chained p.tasks).2 with
    | error e => simp [hmake] at h
    | ok plan => simp [hmake, hphase] at h

/-! ## A run stays current -/

theorem Current.begin (h : p.Current) (now : Moment) (s : Start) : (p.begin now s).1.Current := by
  by_cases hs : s.generation = p.generation
  · obtain ⟨new, ⟨_, _, hgen, _⟩, heq⟩ := p.begin_eq now s hs
    rw [heq]
    refine ⟨h.starts, fun q hq => ?_, h.joining⟩
    rcases List.mem_append.mp hq with hq | hq
    · exact h.passes q hq
    · rw [List.mem_singleton.mp hq]
      exact hgen
  · rw [begin_of_ne hs]
    exact h

theorem Current.fire (h : p.Current) (now : Moment) (id : UInt64) : (p.fire now id).1.Current := by
  rcases p.fire_cases now id with heq | ⟨l, s, r, ts, hstarts, hrest, heq⟩
  · rw [heq]
    exact h
  · rw [heq]
    refine Current.begin (p := { p with timers := ts }) ⟨fun u hu => h.starts u ?_, h.passes,
      h.joining⟩ now s
    have hu : u ∈ l ++ r := hrest ▸ hu
    rw [hstarts]
    exact ((List.sublist_cons_self s r).append_left l).subset hu

theorem Current.release (h : p.Current) (now : Moment) (t : Task) : (p.release now t).1.Current := by
  obtain ⟨ts, hstarts, heq⟩ := p.release_eq now t
  rw [heq]
  refine ⟨fun s hs => ?_, h.passes, h.joining⟩
  have hs : s ∈ p.starts ++ (p.releasedBy t).map (fun u => ⟨u, p.generation⟩) := hstarts ▸ hs
  rcases List.mem_append.mp hs with hs | hs
  · exact h.starts s hs
  · obtain ⟨u, _, rfl⟩ := List.mem_map.mp hs
    rfl

theorem Current.complete (h : p.Current) (now : Moment) (q : Pass) (sent : UInt64)
    (cancelled : Bool) : (p.complete now q sent cancelled).1.Current := by
  have hgone : ∀ r ∈ (p.remove q.id).passes, r.generation = p.generation :=
    fun r hr => h.passes r (List.mem_filter.mp hr).1
  obtain ⟨c, ⟨_, heq⟩ | ⟨_, _, heq⟩ | ⟨_, _, heq⟩⟩ := p.complete_cases now q sent cancelled
  · rw [heq]
    exact ⟨h.starts, hgone, h.joining⟩
  · rw [heq]
    exact ⟨h.starts, hgone, h.joining⟩
  · rw [heq]
    have hidle : ({ p.remove q.id with
        metrics := c, active := p.active.filter fun a => a.1 ≠ q.number } : Player).Current :=
      ⟨h.starts, hgone, h.joining⟩
    exact hidle.release now q.task

theorem Current.work (h : p.Current) (now : Moment) (id : Nat) (pauses : Bool) :
    (p.work now id pauses).1.Current := by
  rcases p.work_cases now id pauses with
    ⟨_, heq⟩ | ⟨q, a, c, hfind, ⟨next, hnext, heq⟩ | ⟨sent, cancelled, _, heq⟩⟩
  · rw [heq]
    exact h
  · rw [heq]
    refine ⟨h.starts, fun r' hr' => ?_, h.joining⟩
    obtain ⟨r, hr, rfl⟩ := List.mem_map.mp hr'
    by_cases hid : r.id = next.id
    · rw [if_pos hid, hnext.generation]
      exact h.passes q (mem_of_findPass? hfind).1
    · rw [if_neg hid]
      exact h.passes r hr
  · rw [heq]
    have h' : ({ p with audience := a, metrics := c } : Player).Current :=
      ⟨h.starts, h.passes, h.joining⟩
    exact h'.complete now q sent cancelled

/-! ## The beginning of a run -/

theorem course_run_nil (h : p.Orderly) (now : Moment) : (p.run now []).1.course.Accounts [] [] := by
  have harmed : tasksOf (p.generation + 1) p.starts = [] :=
    tasksOf_eq_nil fun s hs => Nat.ne_of_lt (Nat.lt_succ_of_le (h.starts s hs))
  have hrunning : runnersOf (p.generation + 1) p.passes = [] :=
    runnersOf_eq_nil fun q hq => Nat.ne_of_lt (Nat.lt_succ_of_le (h.passes q hq))
  obtain ⟨ts, hstarts, heq⟩ := p.run_eq now []
  rw [heq]
  unfold course armed starts running
  simp only [hstarts, List.filter_nil, List.map_nil, List.append_nil, harmed, hrunning]
  refine ⟨rfl, List.Perm.refl _, ?_, ?_, ?_, ?_, rfl, Or.inr (Or.inr ⟨rfl, rfl⟩)⟩
  · intro w hw
    cases hw
  · intro t ht
    cases ht
  · intro r hr
    cases hr
  · intro n hn
    cases hn

theorem course_run (h : p.Orderly) (now : Moment) (plan : List Planned) :
    (p.run now plan).1.course.Accounts plan [] := by
  by_cases hplan : plan = []
  · rw [hplan]
    exact course_run_nil h now
  · exact Course.accounts_run hplan h now

theorem underWay_run (h : p.Orderly) (hstarts : p.starts = []) (hpasses : p.passes = [])
    (hjoining : p.joining = []) (now : Moment) {plan : List Planned} (hplan : Plan.Sound plan) :
    (p.run now plan).1.UnderWay := by
  refine ⟨?_, plan, [], hplan, course_run h now plan⟩
  obtain ⟨ts, harmed, heq⟩ := p.run_eq now plan
  rw [heq]
  refine ⟨fun s hs => ?_, ?_, hjoining⟩
  · have hs : s ∈ ts.live.map (·.payload) := hs
    rw [harmed, hstarts, List.nil_append] at hs
    obtain ⟨t, _, rfl⟩ := List.mem_map.mp hs
    rfl
  · intro q hq
    have hq : q ∈ p.passes := hq
    rw [hpasses] at hq
    cases hq

/-! ## What each action keeps -/

theorem play_refused (now : Option Moment) (h : (p.play now).2.2 ≠ none) :
    (p.play now).1 = p ∧ ∀ e ∈ (p.play now).2.1, e.reaches = false := by
  refine ⟨(p.play_cases now).elim (·.1) fun ⟨_, _, _, _, _, hok⟩ => absurd hok h, ?_⟩
  unfold play at h ⊢
  cases now with
  | none => simp
  | some now =>
    have hwarnings : ∀ e ∈ (Plan.make p.config.chained p.tasks).1.map ReplayEvent.logged,
        e.reaches = false := by
      intro e he
      obtain ⟨l, _, rfl⟩ := List.mem_map.mp he
      rfl
    cases hmake : (Plan.make p.config.chained p.tasks).2 with
    | error e => simpa only [hmake] using hwarnings
    | ok plan =>
      by_cases hphase : p.phase = .stopped ∨ p.phase = .finished
      · simp [hmake, hphase] at h
      · simpa only [hmake, hphase, if_false] using hwarnings

/-- At rest only an obeyed play does anything. -/
theorem AtRest.idle (h : p.AtRest) {a : Action} (ha : a.Admissible p) (hno : a.Waits p) :
    (p.act a).1.AtRest ∧ ∀ e ∈ (p.act a).2.1, e.reaches = false := by
  have hsame : ∀ {r : Player × List ReplayEvent}, r = (p, []) →
      r.1.AtRest ∧ ∀ e ∈ r.2, e.reaches = false := by
    rintro r rfl
    exact ⟨h, by simp⟩
  cases a with
  | addTask t =>
    exact ⟨⟨h.phase, h.handles, h.registry, h.finished, h.passes, h.active, h.joining⟩, by simp [act]⟩
  | play now =>
    obtain ⟨heq, hsilent⟩ := play_refused now hno
    exact ⟨by rw [act, heq]; exact h, hsilent⟩
  | fire now id => exact hsame (fire_of_no_handles h.handles now id)
  | work now id pauses => exact hsame (work_of_no_passes h.passes now id pauses)
  | beginStop =>
    rw [act, beginStop_refused (Or.inl h.phase)]
    exact hsame rfl
  | join track id =>
    have hmem : (track, id) ∈ p.joining := ha
    rw [h.joining] at hmem
    cases hmem
  | endStop => exact hsame (endStop_of_ne (by rw [h.phase]; decide))
  | abandon => exact absurd ha not_false

theorem AtRest.act (h : p.AtRest) (horderly : p.Orderly) {a : Action} (ha : a.Admissible p) :
    (p.act a).1.Standing := by
  by_cases hno : a.Waits p
  · exact .atRest (h.idle ha hno).1
  · cases a with
    | play now =>
      show (p.play now).1.Standing
      rcases p.play_cases now with ⟨_, hrefused⟩ | ⟨t, plan, _, hmake, heq, _⟩
      · exact absurd hrefused hno
      · rw [heq]
        exact .underWay (underWay_run horderly (starts_of_no_handles h.handles) h.passes h.joining t
          (Plan.sound_of_make hmake).1)
    | _ => exact absurd trivial hno

theorem UnderWay.phase (h : p.UnderWay) : p.phase ≠ .stopped ∧ p.phase ≠ .stopping := by
  obtain ⟨plan, done, _, hacc⟩ := h.accounts
  have hphase : p.phase = .initialized ∨ p.phase = .playing ∨ p.phase = .finished := by
    rcases hacc.phase with ⟨hp, _⟩ | ⟨hp, _⟩ | ⟨hp, _⟩
    · exact Or.inl hp
    · exact Or.inr (Or.inl hp)
    · exact Or.inr (Or.inr hp)
  rcases hphase with hp | hp | hp <;> rw [hp] <;> decide

/-- In a finished run nothing is left that could go on. -/
theorem UnderWay.finished (h : p.UnderWay) (hphase : p.phase = .finished) :
    p.starts = [] ∧ p.passes = [] := by
  obtain ⟨plan, done, _, hacc⟩ := h.accounts
  have hfull : p.finished.length = plan.length := by
    rcases hacc.phase with ⟨hp, _⟩ | ⟨hp, _⟩ | ⟨_, hfull⟩
    · exact absurd (hphase.symm.trans hp) (by decide)
    · exact absurd (hphase.symm.trans hp) (by decide)
    · exact hfull
  have hlen := hacc.length_placed
  have hcourse : p.course.finished.length = plan.length := hfull
  have harmed : p.armed = [] := List.eq_nil_of_length_eq_zero (by show p.course.armed.length = 0; omega)
  have hrunning : p.running = [] :=
    List.eq_nil_of_length_eq_zero (by show p.course.running.length = 0; omega)
  constructor
  · rw [armed, tasksOf, List.map_eq_nil_iff, List.filter_eq_nil_iff] at harmed
    exact List.eq_nil_iff_forall_not_mem.mpr fun s hs => harmed s hs (by simpa using h.current.starts s hs)
  · rw [running, runnersOf, List.map_eq_nil_iff, List.filter_eq_nil_iff] at hrunning
    exact List.eq_nil_iff_forall_not_mem.mpr fun q hq => hrunning q hq (by simpa using h.current.passes q hq)

theorem UnderWay.go_on (h : p.UnderWay) (horderly : p.Orderly) {a : Action}
    (ha : a.Continues p) (hcurrent : (p.act a).1.Current) : (p.act a).1.UnderWay := by
  obtain ⟨plan, done, hplan, hacc⟩ := h.accounts
  exact ⟨hcurrent, plan, _, hplan,
    hacc.step hplan (course_act horderly (fun r hr => (hacc.running r hr).1) ha)⟩

theorem UnderWay.beginStop (h : p.UnderWay) : p.beginStop.1.Stopping := by
  have hphase : ¬ (p.phase = .stopped ∨ p.phase = .stopping) := not_or.mpr h.phase
  unfold Player.beginStop
  rw [if_neg hphase]
  refine ⟨rfl, rfl, rfl, rfl, rfl, fun q' hq' => ?_⟩
  obtain ⟨q, hq, rfl⟩ := List.mem_map.mp hq'
  have hg := h.current.passes q hq
  obtain ⟨plan, done, _, hacc⟩ := h.accounts
  have hactive : p.active = p.running.map fun r => (r.task.number, r.id) := hacc.active
  refine ⟨Nat.ne_of_lt (Nat.lt_succ_of_le (Nat.le_of_eq hg)), ?_⟩
  show (q.number, q.id) ∈ p.active
  rw [hactive]
  exact List.mem_map_of_mem (f := fun r : Runner => (r.task.number, r.id)) (runner_mem hq hg)

theorem UnderWay.act (h : p.UnderWay) (horderly : p.Orderly) {a : Action} (ha : a.Admissible p) :
    (p.act a).1.Standing := by
  have hcurrent := h.current
  cases a with
  | addTask t =>
    exact .underWay (h.go_on horderly (a := .addTask t) trivial
      ⟨hcurrent.starts, hcurrent.passes, hcurrent.joining⟩)
  | play now =>
    show (p.play now).1.Standing
    rcases p.play_cases now with ⟨heq, _⟩ | ⟨t, plan, _, hmake, heq, hobeyed⟩
    · rw [heq]
      exact .underWay h
    · have hphase : p.phase = .finished := (phase_of_obeyed hobeyed).resolve_left h.phase.1
      obtain ⟨hstarts, hpasses⟩ := h.finished hphase
      rw [heq]
      exact .underWay (underWay_run horderly hstarts hpasses hcurrent.joining t
        (Plan.sound_of_make hmake).1)
  | fire now id => exact .underWay (h.go_on horderly (a := .fire now id) trivial (hcurrent.fire now id))
  | work now id pauses =>
    have hworked := hcurrent.work now id pauses
    exact .underWay (h.go_on horderly (a := .work now id pauses) trivial hworked)
  | beginStop => exact .stopping h.beginStop
  | join track id =>
    have hmem : (track, id) ∈ p.joining := ha
    rw [hcurrent.joining] at hmem
    cases hmem
  | endStop =>
    show p.endStop.1.Standing
    rw [endStop_of_ne h.phase.2]
    exact .underWay h
  | abandon => exact absurd ha not_false

theorem mem_replace {next r : Pass} (hr : r ∈ p.passes) (hne : r.id ≠ next.id) :
    r ∈ (p.replace next).passes :=
  List.mem_map.mpr ⟨r, hr, if_neg hne⟩

/-- A pass of an earlier generation goes on or leaves, and nothing else. -/
theorem work_stale (now : Moment) (pauses : Bool) {id : Nat} {q : Pass}
    (hfind : p.findPass? id = some q) (hq : q.generation ≠ p.generation) :
    ∃ a c qs, (p.work now id pauses).1 = { p with audience := a, metrics := c, passes := qs } ∧
      ((∃ next, q.Resumes next ∧ qs = (p.replace next).passes) ∨ qs = (p.remove q.id).passes) := by
  rcases p.work_cases now id pauses with ⟨hnone, _⟩ | ⟨r, a, c, hr, hturn⟩
  · rw [hnone] at hfind
    cases hfind
  · rw [hfind] at hr
    cases hr
    rcases hturn with ⟨next, hnext, heq⟩ | ⟨sent, cancelled, _, heq⟩
    · exact ⟨a, c, _, heq, Or.inl ⟨next, hnext, rfl⟩⟩
    · obtain ⟨c', ⟨_, hend⟩ | ⟨hg, _, _⟩ | ⟨hg, _, _⟩⟩ :=
        ({ p with audience := a, metrics := c } : Player).complete_cases now q sent cancelled
      · exact ⟨a, c', _, heq.trans hend, Or.inr rfl⟩
      · exact absurd hg hq
      · exact absurd hg hq

theorem Stopping.work (h : p.Stopping) (now : Moment) (id : Nat) (pauses : Bool) :
    (p.work now id pauses).1.Stopping := by
  cases hfind : p.findPass? id with
  | none =>
    have hnone : p.work now id pauses = (p, []) := by simp only [Player.work, hfind]
    rw [hnone]
    exact h
  | some q =>
    obtain ⟨hmem, _⟩ := mem_of_findPass? hfind
    obtain ⟨a, c, qs, heq, hqs⟩ := work_stale now pauses hfind (h.passes q hmem).1
    rw [heq]
    refine ⟨h.phase, h.handles, h.registry, h.finished, h.active, fun r' hr' => ?_⟩
    rcases hqs with ⟨next, hnext, rfl⟩ | rfl
    · obtain ⟨r, hr, rfl⟩ := List.mem_map.mp hr'
      by_cases hid : r.id = next.id
      · rw [if_pos hid]
        have hnumber : next.number = q.number := congrArg Task.number hnext.task
        rw [hnext.generation, hnumber, hnext.id]
        exact h.passes q hmem
      · rw [if_neg hid]
        exact h.passes r hr
    · exact h.passes r' (List.mem_filter.mp hr').1

theorem Stopping.join (h : p.Stopping) (track : TrackNumber) (id : Nat) :
    (p.join track id).1.Stopping := by
  have hkept : ∀ q ∈ p.passes, q.id ≠ id →
      q.generation ≠ p.generation ∧ (q.number, q.id) ∈ p.joining.filter fun j => j.2 ≠ id :=
    fun q hq hne => ⟨(h.passes q hq).1, List.mem_filter.mpr ⟨(h.passes q hq).2, by simpa using hne⟩⟩
  unfold Player.join
  split
  · rename_i hover
    refine ⟨h.phase, h.handles, h.registry, h.finished, h.active, fun q hq => hkept q hq ?_⟩
    unfold isOver findPass? at hover
    rw [Option.isNone_iff_eq_none, List.find?_eq_none] at hover
    simpa using hover q hq
  · refine ⟨h.phase, h.handles, h.registry, h.finished, h.active, fun q hq => ?_⟩
    obtain ⟨hmem, hne⟩ := List.mem_filter.mp hq
    exact hkept q hmem (by simpa using hne)

theorem Stopping.passes_eq_nil (h : p.Stopping) (hjoining : p.joining = []) : p.passes = [] := by
  rw [List.eq_nil_iff_forall_not_mem]
  intro q hq
  have hmem := (h.passes q hq).2
  rw [hjoining] at hmem
  cases hmem

theorem Stopping.endStop (h : p.Stopping) (hjoining : p.joining = []) : p.endStop.1.AtRest := by
  unfold Player.endStop
  rw [if_pos hjoining, advance_eq]
  exact ⟨by simp [h.phase], h.handles, h.registry, h.finished, h.passes_eq_nil hjoining, h.active,
    hjoining⟩

theorem Stopping.passes_of_endStop (h : p.Stopping) (hstopped : p.endStop.1.phase = .stopped) :
    p.passes = [] := by
  by_cases hjoining : p.joining = []
  · exact h.passes_eq_nil hjoining
  · rw [Player.endStop, if_neg hjoining, h.phase] at hstopped
    cases hstopped

theorem Stopping.act (h : p.Stopping) {a : Action} (ha : a.Admissible p) : (p.act a).1.Standing := by
  have hsame : p.Standing := .stopping h
  cases a with
  | addTask t => exact .stopping ⟨h.phase, h.handles, h.registry, h.finished, h.active, h.passes⟩
  | play now =>
    show (p.play now).1.Standing
    rcases p.play_cases now with ⟨heq, _⟩ | ⟨_, _, _, _, _, hobeyed⟩
    · rw [heq]
      exact hsame
    · rcases phase_of_obeyed hobeyed with hphase | hphase
      · exact absurd (h.phase.symm.trans hphase) (by decide)
      · exact absurd (h.phase.symm.trans hphase) (by decide)
  | fire now id =>
    show (p.fire now id).1.Standing
    rw [fire_of_no_handles h.handles]
    exact hsame
  | work now id pauses => exact .stopping (h.work now id pauses)
  | beginStop =>
    show p.beginStop.1.Standing
    rw [beginStop_refused (Or.inr h.phase)]
    exact hsame
  | join track id => exact .stopping (h.join track id)
  | endStop =>
    by_cases hjoining : p.joining = []
    · exact .atRest (h.endStop hjoining)
    · show p.endStop.1.Standing
      rw [Player.endStop, if_neg hjoining]
      exact hsame
  | abandon => exact absurd ha not_false

theorem Operated.standing (h : p.Operated) : p.Standing := by
  induction h with
  | fresh config store audience => exact .atRest ⟨rfl, rfl, rfl, rfl, rfl, rfl, rfl⟩
  | act hp ha ih =>
    cases ih with
    | atRest h => exact h.act hp.reached.orderly ha
    | underWay h => exact h.act hp.reached.orderly ha
    | stopping h => exact h.act ha
  | addSeat _ s ih =>
    cases ih with
    | atRest h =>
      exact .atRest ⟨h.phase, h.handles, h.registry, h.finished, h.passes, h.active, h.joining⟩
    | underWay h =>
      exact .underWay ⟨⟨h.current.starts, h.current.passes, h.current.joining⟩, h.accounts⟩
    | stopping h => exact .stopping ⟨h.phase, h.handles, h.registry, h.finished, h.active, h.passes⟩

/-! ## From one run to the next -/

/-- What can come of a player until a play is obeyed, and what is seen meanwhile. -/
inductive Pauses (start : Player) : Player → List ReplayEvent → Prop where
  | refl : Pauses start start []
  | act {p : Player} {es : List ReplayEvent} (h : Pauses start p es) {a : Action}
    (ha : a.Admissible p) (hno : a.Waits p) : Pauses start (p.act a).1 (es ++ (p.act a).2.1)
  | addSeat {p : Player} {es : List ReplayEvent} (h : Pauses start p es) (s : Seat) :
    Pauses start (p.addSeat s) es

theorem AtRest.pauses (h : p.AtRest) {p' : Player} {es : List ReplayEvent} (hp : p.Pauses p' es) :
    p'.AtRest ∧ ∀ e ∈ es, e.reaches = false := by
  induction hp with
  | refl => exact ⟨h, by simp⟩
  | act _ ha hno ih =>
    obtain ⟨hrest, hsilent⟩ := ih
    obtain ⟨hnext, hnew⟩ := hrest.idle ha hno
    exact ⟨hnext, fun e he => (List.mem_append.mp he).elim (hsilent e) (hnew e)⟩
  | addSeat _ s ih =>
    obtain ⟨h, hsilent⟩ := ih
    exact ⟨⟨h.phase, h.handles, h.registry, h.finished, h.passes, h.active, h.joining⟩, hsilent⟩

theorem Stopping.returns (h : p.Stopping) {js : List (TrackNumber × Nat)} (hjs : p.joining ⊆ js) :
    (p.perform (js.map (fun j => .join j.1 j.2) ++ [.endStop])).1.AtRest := by
  induction js generalizing p with
  | nil => exact h.endStop (List.subset_nil.mp hjs)
  | cons j js ih =>
    refine ih (h.join j.1 j.2) ?_
    have hjoining : (p.join j.1 j.2).1.joining = p.joining.filter fun k => k.2 ≠ j.2 := by
      unfold Player.join
      split <;> rfl
    show (p.join j.1 j.2).1.joining ⊆ js
    rw [hjoining]
    intro k hk
    obtain ⟨hmem, hne⟩ := List.mem_filter.mp hk
    rcases List.mem_cons.mp (hjs hmem) with rfl | htail
    · exact absurd rfl (of_decide_eq_true hne)
    · exact htail

/-- A player that has done nothing yet, with the same store, tasks and audience. -/
def anew (p : Player) : Player :=
  { config := p.config, store := p.store, tasks := p.tasks, audience := p.audience }

def offsets (p : Player) : Offsets := ⟨p.generation, p.timers.next, p.spawned⟩

theorem AtRest.eq_anew (h : p.AtRest) :
    p = { p.anew.renamed p.offsets p.metrics with planned := p.planned } := by
  obtain ⟨hphase, hhandles, hregistry, hfinished, hpasses, hactive, hjoining⟩ := h
  cases p with
  | mk config store tasks audience phase generation planned timers registry finished passes active
      joining spawned metrics =>
    cases timers
    simp_all [anew, offsets, renamed, Timers.renamed, Offsets.runs]

/-- A run has a number of tasks of its own. -/
theorem play_planned (p : Player) (n : Nat) (now : Option Moment) :
    ({ p with planned := n } : Player).play now =
      (if (p.play now).2.2 = none then (p.play now).1 else { p with planned := n }, (p.play now).2) := by
  cases now with
  | none => rfl
  | some now =>
    unfold play
    simp only
    cases (Plan.make p.config.chained p.tasks).2 with
    | error e => rfl
    | ok plan =>
      by_cases hphase : p.phase = .stopped ∨ p.phase = .finished
      · simp only [hphase, if_true]
        rfl
      · simp only [hphase, if_false]
        rfl

theorem AtRest.play_anew (h : p.AtRest) (now : Option Moment) :
    (p.play now).2 = (p.anew.play now).2 ∧
      ((p.play now).2.2 = none →
        (p.play now).1 = (p.anew.play now).1.renamed p.offsets p.metrics) := by
  have hplay := (congrArg (·.play now) h.eq_anew).trans
    (play_planned (p.anew.renamed p.offsets p.metrics) p.planned now)
  simp only [play_renamed] at hplay
  have hreply : (p.play now).2 = (p.anew.play now).2 := by rw [hplay]
  refine ⟨hreply, fun hobeyed => ?_⟩
  rw [hreply] at hobeyed
  rw [hplay, if_pos hobeyed]

/-- Runs do not reach into each other. -/
structure Isolated (p : Player) : Prop where
  /-- An obeyed play and an accepted stop begin a generation of their own. -/
  begins : (∀ now, (p.play now).2.2 = none → (p.play now).1.generation = p.generation + 1) ∧
    (p.beginStop.2.2 = none → p.beginStop.1.generation = p.generation + 1)
  /-- No timer of an earlier generation is left, and one that fired would do nothing. -/
  timers : (∀ s ∈ p.starts, s.generation = p.generation) ∧
    ∀ now s, s.generation ≠ p.generation → p.begin now s = (p, [])
  /-- A turn of a pass of an earlier generation changes the audience, what was counted and that pass
  only, and begins none. -/
  passes : ∀ now id pauses q, p.findPass? id = some q → q.generation ≠ p.generation →
    ∃ a c qs, (p.work now id pauses).1 = { p with audience := a, metrics := c, passes := qs } ∧
      List.Sublist (qs.map (·.id)) (p.passes.map (·.id)) ∧ ∀ r ∈ p.passes, r.id ≠ id → r ∈ qs
  /-- A stop returns when it has had its turn with every pass that it waits for, and not before no
  pass is left. -/
  stop : p.phase = .stopping →
    (p.perform (p.joining.map (fun j => .join j.1 j.2) ++ [.endStop])).1.phase = .stopped ∧
      (p.endStop.1.phase = .stopped → p.passes = [])
  /-- A stopped player has no tracks, passes or timers, and until it obeys a play it stays so and
  its audience gets nothing. -/
  stopped : p.phase = .stopped → ∀ p' es, p.Pauses p' es →
    p'.phase = .stopped ∧ p'.activeTracks = [] ∧ p'.passes = [] ∧ p'.timers.live = [] ∧
      ∀ e ∈ es, e.reaches = false
  /-- A stopped player answers a play like one that has done nothing yet. When it obeys, its run is
  from then on the run of that one, up to the numbers of generations, timers and passes. -/
  anew : p.phase = .stopped → ∀ now, (p.play now).2 = (p.anew.play now).2 ∧
    ((p.play now).2.2 = none → ∀ as, ∃ c,
      (p.play now).1.perform (as.map (·.renamed p.offsets)) =
        (((p.anew.play now).1.perform as).1.renamed p.offsets c, ((p.anew.play now).1.perform as).2))

theorem Operated.atRest (h : p.Operated) (hphase : p.phase = .stopped) : p.AtRest := by
  cases h.standing with
  | atRest h => exact h
  | underWay h => exact absurd hphase h.phase.1
  | stopping h => exact absurd (hphase.symm.trans h.phase) (by decide)

theorem Operated.stopping (h : p.Operated) (hphase : p.phase = .stopping) : p.Stopping := by
  cases h.standing with
  | atRest h => exact absurd (hphase.symm.trans h.phase) (by decide)
  | underWay h => exact absurd hphase h.phase.2
  | stopping h => exact h

theorem Operated.starts (h : p.Operated) : ∀ s ∈ p.starts, s.generation = p.generation := by
  have hnone : p.timers.handles = [] → ∀ s ∈ p.starts, s.generation = p.generation := by
    intro hhandles s hs
    rw [starts_of_no_handles hhandles] at hs
    cases hs
  cases h.standing with
  | atRest h => exact hnone h.handles
  | underWay h => exact h.current.starts
  | stopping h => exact hnone h.handles

theorem generation_of_obeyed {now : Option Moment} (hobeyed : (p.play now).2.2 = none) :
    (p.play now).1.generation = p.generation + 1 := by
  rcases p.play_cases now with ⟨_, hrefused⟩ | ⟨t, plan, _, _, heq, _⟩
  · exact absurd hobeyed hrefused
  · obtain ⟨ts, _, hrun⟩ := p.run_eq t plan
    rw [heq, hrun]

theorem generation_of_accepted (haccepted : p.beginStop.2.2 = none) :
    p.beginStop.1.generation = p.generation + 1 := by
  unfold beginStop at haccepted ⊢
  split at haccepted
  · cases haccepted
  · rename_i hstop
    rw [if_neg hstop]

theorem others_of_stale (now : Moment) (pauses : Bool) {id : Nat} {q : Pass}
    (hfind : p.findPass? id = some q) (hq : q.generation ≠ p.generation) :
    ∃ a c qs, (p.work now id pauses).1 = { p with audience := a, metrics := c, passes := qs } ∧
      List.Sublist (qs.map (·.id)) (p.passes.map (·.id)) ∧ ∀ r ∈ p.passes, r.id ≠ id → r ∈ qs := by
  have hid := (mem_of_findPass? hfind).2
  obtain ⟨a, c, qs, heq, hqs⟩ := work_stale now pauses hfind hq
  refine ⟨a, c, qs, heq, ?_⟩
  rcases hqs with ⟨next, hnext, rfl⟩ | rfl
  · have hnextid : next.id = id := hnext.id.trans hid
    exact ⟨by rw [ids_replace], fun r hr hne => mem_replace hr (hnextid ▸ hne)⟩
  · refine ⟨List.filter_sublist.map _, fun r hr hne => List.mem_filter.mpr ⟨hr, ?_⟩⟩
    exact decide_eq_true (hid ▸ hne)

end

/-- However plays, stops, timers, turns and ends of passes come in between: what is left of an
earlier generation changes nothing of a later one, a stop leaves no pass behind, nothing is played
after it until a play is obeyed, and that play begins as on a player that has done nothing yet. -/
theorem isolated_of_operated {p : Player} (h : p.Operated) : p.Isolated where
  begins := ⟨fun _ => generation_of_obeyed, generation_of_accepted⟩
  timers := ⟨h.starts, fun _ _ hs => if_neg hs⟩
  passes now _ pauses _ := others_of_stale now pauses
  stop hphase :=
    have hstopping := h.stopping hphase
    ⟨(hstopping.returns (List.Subset.refl _)).phase, hstopping.passes_of_endStop⟩
  stopped hphase p' es hp := by
    obtain ⟨hrest, hsilent⟩ := (h.atRest hphase).pauses hp
    refine ⟨hrest.phase, ?_, hrest.passes, ?_, hsilent⟩
    · simp [activeTracks, hrest.active]
    · simp [Timers.live, hrest.handles]
  anew hphase now := by
    obtain ⟨hreply, hnext⟩ := (h.atRest hphase).play_anew now
    refine ⟨hreply, fun hobeyed as => ?_⟩
    rw [hnext hobeyed]
    apply perform_renamed

/-- Stopped in the middle of the first track. -/
def sampleStopped : Player :=
  (sampleStart.perform [.fire ⟨default, 0⟩ 0, .beginStop, .join ⟨1⟩ 0, .endStop]).1

theorem operated_sampleStopped : sampleStopped.Operated := by
  have hfresh : samplePlayer.Operated :=
    ((Operated.fresh {} none []).act (a := .addTask sampleTasks[0]) trivial).act
      (a := .addTask sampleTasks[1]) trivial
  have hstart : sampleStart.Operated := by
    have hplayed := hfresh.act (a := .play (some ⟨default, 0⟩)) trivial
    rwa [act, (play_of_make make_sampleTasks (Or.inl rfl) ⟨default, 0⟩).1] at hplayed
  have hstopping : (sampleStart.perform [.fire ⟨default, 0⟩ 0, .beginStop]).1.Operated :=
    (hstart.act (a := .fire ⟨default, 0⟩ 0) trivial).act (a := .beginStop) trivial
  refine (hstopping.act (a := .join ⟨1⟩ 0) ?_).act (a := .endStop) trivial
  show _ ∈ _
  decide +kernel

theorem isolated_of_operated_sample :
    sampleStopped.Operated ∧ sampleStopped.phase = .stopped ∧ sampleStopped.generation = 2 ∧
      sampleStopped.Isolated := by
  refine ⟨operated_sampleStopped, by decide +kernel, by decide +kernel, ?_⟩
  exact isolated_of_operated operated_sampleStopped

end Player

end QuoteBoard
