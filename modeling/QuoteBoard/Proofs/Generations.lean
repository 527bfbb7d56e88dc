import Mathlib.Data.List.Nodup
import QuoteBoard.Proofs.Timers
import QuoteBoard.Replay.Player

/-!
# Generations of a player

What a player does to its audience and its counts is of no consequence for its run (`emitAll_eq`,
`countAll_eq`), so a turn of a pass either puts the same pass back or completes it (`work_cases`).
Whatever happens to a player, its timers and passes are of the present generation or an earlier one,
and no two passes share an id (`Reached.orderly`).
-/

namespace QuoteBoard

/-! ## Turns of a pass -/

namespace Pass

/-- A pass that only went on. -/
structure Resumes (q r : Pass) : Prop where
  id : r.id = q.id
  task : r.task = q.task
  generation : r.generation = q.generation
  cancelled : r.cancelled = q.cancelled

theorem play_paused {pauses : Bool} {cs : List Captured} {q next : Pass}
    (h : (play pauses cs q).2 = .paused next) : q.Resumes next := by
  induction cs generalizing q with
  | nil => cases h
  | cons c cs ih =>
    simp only [play] at h
    split at h
    · cases h
    · split at h
      · cases h
        exact ⟨rfl, rfl, rfl, rfl⟩
      · have := ih h
        exact ⟨this.id, this.task, this.generation, this.cancelled⟩

theorem turn_paused {store : Option Store} {pauses : Bool} {q next : Pass}
    (h : (q.turn store pauses).2 = .paused next) : q.Resumes next := by
  unfold turn at h
  cases hr : q.rest with
  | none =>
    rw [hr] at h
    exact play_paused h
  | some cs =>
    rw [hr] at h
    exact play_paused h

theorem play_ended {pauses : Bool} {cs : List Captured} {q : Pass} (hq : q.cancelled = false)
    {sent : UInt64} {cancelled : Bool} (h : (play pauses cs q).2 = .ended sent cancelled) :
    cancelled = false := by
  induction cs generalizing q with
  | nil =>
    cases h
    rfl
  | cons c cs ih =>
    simp only [play, hq, Bool.false_eq_true, if_false] at h
    split at h
    · cases h
    · exact ih (q := (q.give c).1) hq h

theorem turn_ended {store : Option Store} {pauses : Bool} {q : Pass} (hq : q.cancelled = false)
    {sent : UInt64} {cancelled : Bool} (h : (q.turn store pauses).2 = .ended sent cancelled) :
    cancelled = false := by
  unfold turn at h
  cases hr : q.rest with
  | none =>
    rw [hr] at h
    exact play_ended hq h
  | some cs =>
    rw [hr] at h
    exact play_ended hq h

end Pass

namespace Player

/-! ## What concerns the run -/

theorem countAll_eq (p : Player) (es : List ReplayEvent) :
    ∃ c, p.countAll es = { p with metrics := c } := by
  induction es generalizing p with
  | nil => exact ⟨p.metrics, rfl⟩
  | cons e es ih =>
    cases e with
    | tallied t => exact ih { p with metrics := p.metrics.record t }
    | _ => exact ih p

theorem emitAll_eq (p : Player) (ss : List Signal) :
    ∃ a c, (p.emitAll ss).1 = { p with audience := a, metrics := c } := by
  induction ss generalizing p with
  | nil => exact ⟨p.audience, p.metrics, rfl⟩
  | cons s ss ih =>
    have hemit : ∃ a c, (p.emit s).1 = { p with audience := a, metrics := c } := by
      cases s with
      | logged e => exact ⟨p.audience, p.metrics, rfl⟩
      | cue cue =>
        obtain ⟨c, hc⟩ := countAll_eq { p with audience := (Audience.tell cue 0 p.audience).1 }
          (Audience.tell cue 0 p.audience).2
        exact ⟨_, c, hc⟩
    obtain ⟨a, c, hemit⟩ := hemit
    obtain ⟨a', c', hrest⟩ := ih (p.emit s).1
    refine ⟨a', c', ?_⟩
    show ((p.emit s).1.emitAll ss).1 = _
    rw [hrest, hemit]

def starts (p : Player) : List Start := p.timers.live.map (·.payload)

theorem armAll_eq (p : Player) (now : Moment) (ts : List Task) :
    ∃ timers, p.armAll now ts = { p with timers := timers } := by
  induction ts generalizing p with
  | nil => exact ⟨p.timers, rfl⟩
  | cons t ts ih => exact ih (p.arm now t)

theorem starts_armAll (p : Player) (now : Moment) (ts : List Task) :
    (p.armAll now ts).starts = p.starts ++ ts.map fun t => ⟨t, p.generation⟩ := by
  induction ts generalizing p with
  | nil => exact (List.append_nil _).symm
  | cons t ts ih =>
    show ((p.arm now t).armAll now ts).starts = _
    rw [ih]
    simp [starts, arm, Timers.live_arm]

theorem advance_eq (p : Player) (old new : Phase) :
    (p.advance old new).1 = { p with phase := if p.phase = old then new else p.phase } := by
  unfold advance
  split <;> rfl

/-! ## What each action does -/

theorem begin_eq (p : Player) (now : Moment) (s : Start) (hs : s.generation = p.generation) :
    ∃ q : Pass, (q.id = p.spawned ∧ q.task = s.task ∧ q.generation = p.generation ∧
        q.cancelled = false) ∧
      (p.begin now s).1 = { p with
        phase := if p.phase = .initialized then .playing else p.phase
        spawned := p.spawned + 1
        passes := p.passes ++ [q]
        active := p.active.filter (fun a => a.1 ≠ q.number) ++ [(q.number, q.id)] } := by
  refine ⟨{ id := p.spawned, task := s.task, generation := s.generation, ready := now.tick
            latencyDue := p.config.reportsLatency }, ⟨rfl, rfl, hs, rfl⟩, ?_⟩
  unfold begin
  rw [if_pos hs, advance_eq]

theorem begin_of_ne {p : Player} {s : Start} (hs : s.generation ≠ p.generation) (now : Moment) :
    (p.begin now s).1 = p := by
  unfold begin
  rw [if_neg hs]

def finishedWith (p : Player) (t : Task) : List TrackNumber :=
  if t.mode = .once ∧ t.number ∉ p.finished then p.finished ++ [t.number] else p.finished

def releasedBy (p : Player) (t : Task) : List Task :=
  p.registry.awaiting t.number ++ if t.mode = .loop then [t] else []

theorem release_eq (p : Player) (now : Moment) (t : Task) :
    ∃ ts : Timers Start,
      ts.live.map (·.payload) = p.starts ++ (p.releasedBy t).map (fun u => ⟨u, p.generation⟩) ∧
      (p.release now t).1 = { p with
        phase := if (p.finishedWith t).length = p.planned ∧ p.phase = .playing then .finished
          else p.phase
        timers := ts
        registry := (p.registry.take t.number).1
        finished := p.finishedWith t } := by
  let mid : Player := { p with
    registry := (p.registry.take t.number).1
    finished := p.finishedWith t }
  obtain ⟨ts, harm⟩ := mid.armAll_eq now (p.releasedBy t)
  refine ⟨ts, ?_, ?_⟩
  · have hstarts := mid.starts_armAll now (p.releasedBy t)
    rw [harm] at hstarts
    exact hstarts
  · show (if (mid.armAll now (p.releasedBy t)).finished.length =
        (mid.armAll now (p.releasedBy t)).planned
      then (mid.armAll now (p.releasedBy t)).advance .playing .finished
      else (mid.armAll now (p.releasedBy t), [])).1 = _
    rw [harm]
    by_cases hlen : (p.finishedWith t).length = p.planned
    · rw [if_pos hlen, advance_eq]
      simp [hlen, mid]
    · rw [if_neg hlen]
      simp [hlen, mid]

/-- Of the passes that end, only one of the present run that was not cancelled releases others. -/
theorem complete_cases (p : Player) (now : Moment) (q : Pass) (sent : UInt64) (cancelled : Bool) :
    ∃ c,
      (q.generation ≠ p.generation ∧
        (p.complete now q sent cancelled).1 = { p.remove q.id with metrics := c }) ∨
      (q.generation = p.generation ∧ cancelled = true ∧
        (p.complete now q sent cancelled).1 =
          { p.remove q.id with metrics := c, active := p.active.filter fun a => a.1 ≠ q.number }) ∨
      (q.generation = p.generation ∧ cancelled = false ∧
        (p.complete now q sent cancelled).1 =
          (Player.release { p.remove q.id with
            metrics := c, active := p.active.filter fun a => a.1 ≠ q.number } now q.task).1) := by
  refine ⟨p.metrics.record (.trackRun sent), ?_⟩
  unfold complete
  by_cases hq : q.generation = p.generation
  · refine Or.inr ?_
    cases cancelled with
    | true => exact Or.inl ⟨hq, rfl, by simp [hq, remove]⟩
    | false => exact Or.inr ⟨hq, rfl, by simp [hq, remove]⟩
  · exact Or.inl ⟨hq, by simp [hq, remove]⟩

def enroll (r : Registry) (x : Planned) : Registry :=
  match x.after with
  | some n => r.subscribe n x.task
  | none => r

def registered (plan : List Planned) : Registry := plan.foldl enroll {}

theorem run_eq (p : Player) (now : Moment) (plan : List Planned) :
    ∃ ts : Timers Start,
      ts.live.map (·.payload) = p.starts ++
        ((plan.filter fun x => x.after.isNone).map (·.task)).map
          (fun t => ⟨t, p.generation + 1⟩) ∧
      (p.run now plan).1 = { p with
        phase := if plan = [] then .finished else .initialized
        generation := p.generation + 1
        planned := plan.length
        timers := ts
        registry := registered plan
        finished := []
        active := [] } := by
  cases plan with
  | nil => exact ⟨p.timers, (List.append_nil _).symm, rfl⟩
  | cons x xs =>
    let mid : Player := { p with
      phase := .initialized
      generation := p.generation + 1
      planned := (x :: xs).length
      active := []
      finished := []
      registry := registered (x :: xs) }
    let free := ((x :: xs).filter fun x => x.after.isNone).map (·.task)
    obtain ⟨ts, harm⟩ := mid.armAll_eq now free
    refine ⟨ts, ?_, ?_⟩
    · have hstarts := mid.starts_armAll now free
      rw [harm] at hstarts
      exact hstarts
    · show mid.armAll now free = _
      rw [harm]
      rfl

theorem fire_cases (p : Player) (now : Moment) (id : UInt64) :
    (p.fire now id).1 = p ∨
      ∃ l s r ts, p.starts = l ++ s :: r ∧ ts.live.map (·.payload) = l ++ r ∧
        (p.fire now id).1 = ({ p with timers := ts }.begin now s).1 := by
  rcases p.timers.fire_cases id with hf | ⟨l, t, r, hlive, hrest, hpayload⟩
  · refine Or.inl ?_
    simp only [fire, hf]
  · refine Or.inr ⟨l.map (·.payload), t.payload, r.map (·.payload), (p.timers.fire id).1, ?_, ?_, ?_⟩
    · simp [starts, hlive]
    · simp [hrest]
    · unfold fire
      cases hf : p.timers.fire id with
      | mk ts payload =>
        rw [hf] at hpayload
        cases hpayload
        rfl

theorem mem_of_findPass? {p : Player} {id : Nat} {q : Pass} (h : p.findPass? id = some q) :
    q ∈ p.passes ∧ q.id = id :=
  have hid := List.find?_some h
  ⟨List.mem_of_find?_eq_some h, of_decide_eq_true hid⟩

theorem work_cases (p : Player) (now : Moment) (id : Nat) (pauses : Bool) :
    p.findPass? id = none ∧ (p.work now id pauses).1 = p ∨
      ∃ q a c, p.findPass? id = some q ∧
        ((∃ next, q.Resumes next ∧
            (p.work now id pauses).1 = { p with audience := a, metrics := c }.replace next) ∨
          ∃ sent cancelled, (q.cancelled = false → cancelled = false) ∧
            (p.work now id pauses).1 =
              ({ p with audience := a, metrics := c }.complete now q sent cancelled).1) := by
  unfold work
  cases hf : p.findPass? id with
  | none => exact Or.inl ⟨rfl, rfl⟩
  | some q =>
    obtain ⟨a, c, htold⟩ := p.emitAll_eq (q.turn p.store pauses).1
    refine Or.inr ⟨q, a, c, rfl, ?_⟩
    simp only [htold]
    cases hturn : (q.turn p.store pauses).2 with
    | paused next =>
      have hnext := Pass.turn_paused hturn
      refine Or.inl ⟨{ next with
        ready := if q.task.paced then now.tick + p.config.pacingDuration.wait else now.tick }, ?_, rfl⟩
      exact ⟨hnext.id, hnext.task, hnext.generation, hnext.cancelled⟩
    | ended sent cancelled =>
      exact Or.inr ⟨sent, cancelled, fun hq => Pass.turn_ended hq hturn, rfl⟩

/-! ## Timers and passes of a generation -/

/-- Timers and passes are of this generation or an earlier one, and each pass has an id of its
own. -/
structure Orderly (p : Player) : Prop where
  starts : ∀ s ∈ p.starts, s.generation ≤ p.generation
  passes : ∀ q ∈ p.passes, q.generation ≤ p.generation
  spawned : ∀ q ∈ p.passes, q.id < p.spawned
  ids : (p.passes.map (·.id)).Nodup

section
variable {p : Player}

theorem Orderly.shrink (h : p.Orderly) {p' : Player} (hg : p.generation ≤ p'.generation)
    (hspawned : p.spawned ≤ p'.spawned) (hstarts : p'.starts ⊆ p.starts)
    (hpasses : ∀ q' ∈ p'.passes, ∃ q ∈ p.passes, q'.id = q.id ∧ q'.generation = q.generation)
    (hids : List.Sublist (p'.passes.map (·.id)) (p.passes.map (·.id))) : p'.Orderly where
  starts s hs := Nat.le_trans (h.starts s (hstarts hs)) hg
  passes q' hq' := by
    obtain ⟨q, hq, _, hgen⟩ := hpasses q' hq'
    rw [hgen]
    exact Nat.le_trans (h.passes q hq) hg
  spawned q' hq' := by
    obtain ⟨q, hq, hid, _⟩ := hpasses q' hq'
    rw [hid]
    exact Nat.lt_of_lt_of_le (h.spawned q hq) hspawned
  ids := hids.nodup h.ids

theorem Orderly.grow (h : p.Orderly) {p' : Player} (ts : List Task)
    (hg : p'.generation = p.generation) (hpasses : p'.passes = p.passes)
    (hspawned : p'.spawned = p.spawned)
    (hstarts : p'.starts = p.starts ++ ts.map fun t => ⟨t, p.generation⟩) : p'.Orderly := by
  refine ⟨fun s hs => ?_, ?_, ?_, ?_⟩
  · rw [hstarts] at hs
    rw [hg]
    rcases List.mem_append.mp hs with hs | hs
    · exact h.starts s hs
    · obtain ⟨t, _, rfl⟩ := List.mem_map.mp hs
      exact Nat.le_refl _
  · rw [hpasses, hg]
    exact h.passes
  · rw [hpasses, hspawned]
    exact h.spawned
  · rw [hpasses]
    exact h.ids

theorem Orderly.remove (h : p.Orderly) (id : Nat) : (p.remove id).Orderly := by
  refine h.shrink (Nat.le_refl _) (Nat.le_refl _) (List.Subset.refl _) ?_ ?_
  · intro q hq
    exact ⟨q, (List.mem_filter.mp hq).1, rfl, rfl⟩
  · exact (List.filter_sublist).map _

theorem ids_replace (p : Player) (next : Pass) :
    (p.replace next).passes.map (·.id) = p.passes.map (·.id) := by
  show (p.passes.map _).map _ = _
  rw [List.map_map]
  apply List.map_congr_left
  intro r _
  by_cases hr : r.id = next.id <;> simp [hr]

theorem Orderly.replace (h : p.Orderly) {q next : Pass} (hq : q ∈ p.passes) (hnext : q.Resumes next) :
    (p.replace next).Orderly := by
  refine h.shrink (Nat.le_refl _) (Nat.le_refl _) (List.Subset.refl _) ?_ (by rw [ids_replace])
  intro r' hr'
  obtain ⟨r, hr, rfl⟩ := List.mem_map.mp hr'
  by_cases hid : r.id = next.id
  · rw [if_pos hid]
    exact ⟨q, hq, hnext.id, hnext.generation⟩
  · rw [if_neg hid]
    exact ⟨r, hr, rfl, rfl⟩

theorem Orderly.release (h : p.Orderly) (now : Moment) (t : Task) : (p.release now t).1.Orderly := by
  obtain ⟨ts, hstarts, heq⟩ := p.release_eq now t
  rw [heq]
  exact h.grow (p.releasedBy t) rfl rfl rfl hstarts

theorem Orderly.complete (h : p.Orderly) (now : Moment) (q : Pass) (sent : UInt64)
    (cancelled : Bool) : (p.complete now q sent cancelled).1.Orderly := by
  have hgone := h.remove q.id
  obtain ⟨c, ⟨_, heq⟩ | ⟨_, _, heq⟩ | ⟨_, _, heq⟩⟩ := p.complete_cases now q sent cancelled
  · rw [heq]
    exact ⟨hgone.starts, hgone.passes, hgone.spawned, hgone.ids⟩
  · rw [heq]
    exact ⟨hgone.starts, hgone.passes, hgone.spawned, hgone.ids⟩
  · rw [heq]
    have hidle : ({ p.remove q.id with
        metrics := c, active := p.active.filter fun a => a.1 ≠ q.number } : Player).Orderly :=
      ⟨hgone.starts, hgone.passes, hgone.spawned, hgone.ids⟩
    exact hidle.release now q.task

theorem Orderly.begin (h : p.Orderly) (now : Moment) (s : Start) : (p.begin now s).1.Orderly := by
  by_cases hs : s.generation = p.generation
  · obtain ⟨new, ⟨hid, _, hgen, _⟩, heq⟩ := p.begin_eq now s hs
    rw [heq]
    refine ⟨h.starts, ?_, ?_, ?_⟩
    · intro q hq
      rcases List.mem_append.mp hq with hq | hq
      · exact h.passes q hq
      · rw [List.mem_singleton.mp hq]
        exact Nat.le_of_eq hgen
    · intro q hq
      rcases List.mem_append.mp hq with hq | hq
      · exact Nat.lt_succ_of_lt (h.spawned q hq)
      · rw [List.mem_singleton.mp hq, hid]
        exact Nat.lt_succ_self _
    · show ((p.passes ++ [new]).map _).Nodup
      rw [List.map_append]
      apply List.Nodup.append h.ids (List.nodup_singleton _)
      intro id hold hnew
      obtain ⟨q, hq, rfl⟩ := List.mem_map.mp hold
      have hsame : q.id = new.id := List.mem_singleton.mp hnew
      exact absurd (hsame.trans hid) (Nat.ne_of_lt (h.spawned q hq))
  · rw [begin_of_ne hs]
    exact h

theorem Orderly.fire (h : p.Orderly) (now : Moment) (id : UInt64) : (p.fire now id).1.Orderly := by
  rcases p.fire_cases now id with heq | ⟨l, s, r, ts, hstarts, hrest, heq⟩
  · rw [heq]
    exact h
  · rw [heq]
    refine Orderly.begin (p := { p with timers := ts }) ⟨fun u hu => h.starts u ?_, h.passes,
      h.spawned, h.ids⟩ now s
    have hu : u ∈ l ++ r := hrest ▸ hu
    rw [hstarts]
    exact ((List.sublist_cons_self s r).append_left l).subset hu

theorem Orderly.work (h : p.Orderly) (now : Moment) (id : Nat) (pauses : Bool) :
    (p.work now id pauses).1.Orderly := by
  rcases p.work_cases now id pauses with
    ⟨_, heq⟩ | ⟨q, a, c, hfind, ⟨next, hnext, heq⟩ | ⟨sent, cancelled, _, heq⟩⟩
  · rw [heq]
    exact h
  · rw [heq]
    have h' : ({ p with audience := a, metrics := c } : Player).Orderly :=
      ⟨h.starts, h.passes, h.spawned, h.ids⟩
    exact h'.replace (mem_of_findPass? hfind).1 hnext
  · rw [heq]
    have h' : ({ p with audience := a, metrics := c } : Player).Orderly :=
      ⟨h.starts, h.passes, h.spawned, h.ids⟩
    exact h'.complete now q sent cancelled

theorem Orderly.run (h : p.Orderly) (now : Moment) (plan : List Planned) :
    (p.run now plan).1.Orderly := by
  obtain ⟨ts, hstarts, heq⟩ := p.run_eq now plan
  have hnext : ({ p with generation := p.generation + 1 } : Player).Orderly :=
    h.shrink (Nat.le_succ _) (Nat.le_refl _) (List.Subset.refl _) (fun q hq => ⟨q, hq, rfl, rfl⟩)
      (List.Sublist.refl _)
  rw [heq]
  exact hnext.grow _ rfl rfl rfl hstarts

theorem play_of_make {plan : List Planned}
    (hmake : (Plan.make p.config.chained p.tasks).2 = .ok plan)
    (hphase : p.phase = .stopped ∨ p.phase = .finished) (now : Moment) :
    (p.play (some now)).1 = (p.run now plan).1 ∧ (p.play (some now)).2.2 = none := by
  simp [play, hmake, hphase]

/-- A play is refused without consequences or begins the run of a plan. -/
theorem play_cases (p : Player) (now : Option Moment) :
    (p.play now).1 = p ∧ (p.play now).2.2 ≠ none ∨
      ∃ t plan, now = some t ∧ (Plan.make p.config.chained p.tasks).2 = .ok plan ∧
        (p.play now).1 = (p.run t plan).1 ∧ (p.play now).2.2 = none := by
  cases now with
  | none => exact Or.inl ⟨rfl, by simp [play]⟩
  | some t =>
    cases hmake : (Plan.make p.config.chained p.tasks).2 with
    | error e => exact Or.inl (by simp [play, hmake])
    | ok plan =>
      by_cases hphase : p.phase = .stopped ∨ p.phase = .finished
      · exact Or.inr ⟨t, plan, rfl, rfl, play_of_make hmake hphase t⟩
      · exact Or.inl (by simp [play, hmake, hphase])

theorem Orderly.cancel (h : p.Orderly) (ids : List Nat) {p' : Player}
    (hg : p.generation ≤ p'.generation) (hspawned : p'.spawned = p.spawned)
    (hstarts : p'.starts = [])
    (hpasses : p'.passes =
      p.passes.map fun q => { q with cancelled := q.cancelled || ids.contains q.id }) :
    p'.Orderly := by
  refine h.shrink hg (Nat.le_of_eq hspawned.symm) (by rw [hstarts]; exact List.nil_subset _) ?_ ?_
  · intro q' hq'
    rw [hpasses] at hq'
    obtain ⟨q, hq, rfl⟩ := List.mem_map.mp hq'
    exact ⟨q, hq, rfl, rfl⟩
  · rw [hpasses, List.map_map]
    exact List.Sublist.refl _

theorem Orderly.act (h : p.Orderly) (a : Action) : (p.act a).1.Orderly := by
  cases a with
  | addTask t => exact ⟨h.starts, h.passes, h.spawned, h.ids⟩
  | play now =>
    show (p.play now).1.Orderly
    rcases p.play_cases now with ⟨heq, _⟩ | ⟨t, plan, _, _, heq, _⟩
    · rw [heq]
      exact h
    · rw [heq]
      exact h.run t plan
  | fire now id => exact h.fire now id
  | work now id pauses => exact h.work now id pauses
  | beginStop =>
    show (p.beginStop).1.Orderly
    unfold beginStop
    split
    · exact h
    · exact h.cancel _ (Nat.le_succ _) rfl rfl rfl
  | join track id =>
    show (p.join track id).1.Orderly
    unfold join
    simp only
    split
    · exact ⟨h.starts, h.passes, h.spawned, h.ids⟩
    · have hjoined : ({ p with joining := p.joining.filter fun j => j.2 ≠ id } : Player).Orderly :=
        ⟨h.starts, h.passes, h.spawned, h.ids⟩
      exact hjoined.remove id
  | endStop =>
    show (p.endStop).1.Orderly
    unfold endStop
    split
    · rw [advance_eq]
      exact ⟨h.starts, h.passes, h.spawned, h.ids⟩
    · exact h
  | abandon => exact h.cancel _ (Nat.le_succ _) rfl rfl rfl

/-- What a player can come to, from one that has done nothing yet. -/
inductive Reached : Player → Prop where
  | fresh (config : ReplayConfig) (store : Option Store) (audience : List Seat) :
    Reached { config := config, store := store, audience := audience }
  | act {p : Player} (h : Reached p) (a : Action) : Reached (p.act a).1
  | addSeat {p : Player} (h : Reached p) (s : Seat) : Reached (p.addSeat s)

theorem Reached.orderly (h : p.Reached) : p.Orderly := by
  induction h with
  | fresh config store audience =>
    refine ⟨?_, ?_, ?_, List.nodup_nil⟩
    · intro s hs
      cases hs
    · intro q hq
      cases hq
    · intro q hq
      cases hq
  | act _ a ih => exact ih.act a
  | addSeat _ s ih => exact ⟨ih.starts, ih.passes, ih.spawned, ih.ids⟩

end

end Player

end QuoteBoard
