import QuoteBoard.Proofs.Generations

/-!
# Players under other names

Of generations and of the ids of timers and passes only matters which of them are the same. Moved by
any offsets (`Player.renamed`), a player does with an action on the moved ids what it did before: the
same is seen of it, it gives the same answer, and it comes to the same player, moved (`act_renamed`).
What has been counted has no part in this either.
-/

namespace QuoteBoard

structure Offsets where
  generation : Nat
  timer : UInt64
  pass : Nat

def Start.renamed (o : Offsets) (s : Start) : Start := { s with generation := s.generation + o.generation }

def Timer.renamed (o : Offsets) (t : Timer Start) : Timer Start :=
  { t with id := t.id + o.timer, payload := t.payload.renamed o }

def Timers.renamed (o : Offsets) (ts : Timers Start) : Timers Start :=
  ⟨ts.next + o.timer, ts.handles.map (·.renamed o)⟩

def Pass.renamed (o : Offsets) (q : Pass) : Pass :=
  { q with id := q.id + o.pass, generation := q.generation + o.generation }

def TurnEnd.renamed (o : Offsets) : TurnEnd → TurnEnd
  | paused q => paused (q.renamed o)
  | ended sent cancelled => ended sent cancelled

def Action.renamed (o : Offsets) : Action → Action
  | fire now id => fire now (id + o.timer)
  | work now id pauses => work now (id + o.pass) pauses
  | join track id => join track (id + o.pass)
  | a => a

def Offsets.runs (o : Offsets) (as : List (TrackNumber × Nat)) : List (TrackNumber × Nat) :=
  as.map fun a => (a.1, a.2 + o.pass)

def Player.renamed (o : Offsets) (c : Counters) (p : Player) : Player :=
  { p with
    generation := p.generation + o.generation
    timers := p.timers.renamed o
    passes := p.passes.map (·.renamed o)
    active := o.runs p.active
    joining := o.runs p.joining
    spawned := p.spawned + o.pass
    metrics := c }

/-! ## Timers -/

@[simp] theorem Timer.fired_renamed (o : Offsets) (t : Timer Start) : (t.renamed o).fired = t.fired := rfl

@[simp] theorem Timer.id_renamed (o : Offsets) (t : Timer Start) :
    (t.renamed o).id = t.id + o.timer := rfl

@[simp] theorem Timer.payload_renamed (o : Offsets) (t : Timer Start) :
    (t.renamed o).payload = t.payload.renamed o := rfl

namespace Timers

variable (o : Offsets) (ts : Timers Start)

theorem live_renamed : (ts.renamed o).live = ts.live.map (·.renamed o) := by
  show (ts.handles.map _).filter _ = _
  rw [List.filter_map]
  rfl

theorem arm_renamed (due : Nat) (s : Start) :
    (ts.renamed o).arm due (s.renamed o) = (ts.arm due s).renamed o := by
  have hnext : ts.next + o.timer + 1 = ts.next + 1 + o.timer := by ac_rfl
  unfold arm
  rw [live_renamed]
  simp [renamed, Timer.renamed, hnext]

theorem fire_renamed (id : UInt64) :
    (ts.renamed o).fire (id + o.timer) =
      ((ts.fire id).1.renamed o, (ts.fire id).2.map (·.renamed o)) := by
  have hfind : (ts.renamed o).find? (id + o.timer) = (ts.find? id).map (·.renamed o) := by
    unfold find?
    rw [live_renamed, List.find?_map]
    congr 2
    funext t
    simp
  have hmark : ∀ l : List (Timer Start),
      mark (id + o.timer) (l.map (·.renamed o)) = (mark id l).map (·.renamed o) := by
    intro l
    induction l with
    | nil => rfl
    | cons t l ih =>
      by_cases ht : t.fired = false ∧ t.id = id
      · simp [mark, ht, Timer.renamed]
      · simp [mark, ht, ih]
  unfold fire
  rw [hfind]
  cases ts.find? id with
  | none => rfl
  | some t => simp [renamed, hmark]

end Timers

/-! ## Passes -/

namespace Pass

variable (o : Offsets)

theorem play_renamed (pauses : Bool) (cs : List Captured) (q : Pass) :
    play pauses cs (q.renamed o) = ((play pauses cs q).1, (play pauses cs q).2.renamed o) := by
  induction cs generalizing q with
  | nil => rfl
  | cons c cs ih =>
    have hgive : (q.renamed o).give c = ((q.give c).1.renamed o, (q.give c).2) := rfl
    have hcancelled : (q.renamed o).cancelled = q.cancelled := rfl
    simp only [play, hgive, hcancelled, ih]
    cases q.cancelled <;> cases pauses <;> rfl

theorem turn_renamed (store : Option Store) (pauses : Bool) (q : Pass) :
    (q.renamed o).turn store pauses =
      ((q.turn store pauses).1, (q.turn store pauses).2.renamed o) := by
  have hrest : (q.renamed o).rest = q.rest := rfl
  have htask : (q.renamed o).task = q.task := rfl
  have hnumber : (q.renamed o).number = q.number := rfl
  unfold turn
  rw [hrest, htask, hnumber]
  cases q.rest <;> simp only [play_renamed]

end Pass

namespace Player

section
variable (o : Offsets) (c : Counters) (p : Player)

theorem advance_renamed (old new : Phase) :
    (p.renamed o c).advance old new = ((p.advance old new).1.renamed o c, (p.advance old new).2) := by
  have hphase : (p.renamed o c).phase = p.phase := rfl
  unfold advance
  rw [hphase]
  split <;> rfl

theorem armAll_renamed (now : Moment) (ts : List Task) :
    (p.renamed o c).armAll now ts = (p.armAll now ts).renamed o c := by
  induction ts generalizing p with
  | nil => rfl
  | cons t ts ih =>
    have harm : (p.renamed o c).arm now t = (p.arm now t).renamed o c := by
      have htimers := p.timers.arm_renamed o (now.tick + (t.start.delay now.wall).wait) ⟨t, p.generation⟩
      exact congrArg (fun timers => ({ p.renamed o c with timers := timers } : Player)) htimers
    show ((p.renamed o c).arm now t).armAll now ts = _
    rw [harm, ih]
    rfl

theorem countAll_renamed (es : List ReplayEvent) :
    ∃ c', (p.renamed o c).countAll es = (p.countAll es).renamed o c' := by
  obtain ⟨d, hp⟩ := p.countAll_eq es
  obtain ⟨d', hr⟩ := (p.renamed o c).countAll_eq es
  rw [hp, hr]
  exact ⟨d', rfl⟩

theorem emitAll_renamed (ss : List Signal) :
    ∃ c', (p.renamed o c).emitAll ss = ((p.emitAll ss).1.renamed o c', (p.emitAll ss).2) := by
  induction ss generalizing p c with
  | nil => exact ⟨c, rfl⟩
  | cons s ss ih =>
    have hemit : ∃ c', (p.renamed o c).emit s = ((p.emit s).1.renamed o c', (p.emit s).2) := by
      cases s with
      | logged e => exact ⟨c, rfl⟩
      | cue x =>
        obtain ⟨c', h⟩ := countAll_renamed o c { p with audience := (Audience.tell x 0 p.audience).1 }
          (Audience.tell x 0 p.audience).2
        refine ⟨c', ?_⟩
        show (_, _) = (_, _)
        exact congrArg (fun q => (q, (Audience.tell x 0 p.audience).2)) h
    obtain ⟨c', hemit⟩ := hemit
    obtain ⟨c'', hrest⟩ := ih c' (p.emit s).1
    refine ⟨c'', ?_⟩
    simp only [emitAll, hemit, hrest]

theorem findPass?_renamed (id : Nat) :
    (p.renamed o c).findPass? (id + o.pass) = (p.findPass? id).map (·.renamed o) := by
  unfold findPass?
  show (p.passes.map _).find? _ = _
  rw [List.find?_map]
  congr 2
  funext q
  simp [Pass.renamed]

theorem remove_renamed (id : Nat) :
    (p.renamed o c).remove (id + o.pass) = (p.remove id).renamed o c := by
  have hpasses : (p.passes.map (·.renamed o)).filter (fun q => q.id ≠ id + o.pass) =
      (p.passes.filter fun q => q.id ≠ id).map (·.renamed o) := by
    rw [List.filter_map]
    congr 2
    funext q
    simp [Pass.renamed]
  exact congrArg (fun qs => ({ p.renamed o c with passes := qs } : Player)) hpasses

theorem replace_renamed (q : Pass) :
    (p.renamed o c).replace (q.renamed o) = (p.replace q).renamed o c := by
  have hpasses : (p.passes.map (·.renamed o)).map
        (fun r => if r.id = (q.renamed o).id then q.renamed o else r) =
      (p.passes.map fun r => if r.id = q.id then q else r).map (·.renamed o) := by
    rw [List.map_map, List.map_map]
    apply List.map_congr_left
    intro r _
    by_cases hr : r.id = q.id <;> simp [Pass.renamed, hr]
  exact congrArg (fun qs => ({ p.renamed o c with passes := qs } : Player)) hpasses

theorem filter_runs (as : List (TrackNumber × Nat)) (n : TrackNumber) :
    (o.runs as).filter (fun a => a.1 ≠ n) = o.runs (as.filter fun a => a.1 ≠ n) := by
  unfold Offsets.runs
  rw [List.filter_map]
  rfl

theorem runs_append (as bs : List (TrackNumber × Nat)) : o.runs (as ++ bs) = o.runs as ++ o.runs bs :=
  List.map_append

/-! ## Actions -/

/-- A start of the present run has its pass. -/
def enter (p : Player) (now : Moment) (s : Start) : Player :=
  let q : Pass :=
    { id := p.spawned, task := s.task, generation := s.generation, ready := now.tick
      latencyDue := p.config.reportsLatency }
  { p with
    spawned := p.spawned + 1
    passes := p.passes ++ [q]
    active := p.active.filter (fun a => a.1 ≠ q.number) ++ [(q.number, q.id)] }

theorem begin_eq_enter (now : Moment) (s : Start) :
    p.begin now s =
      if s.generation = p.generation then (p.enter now s).advance .initialized .playing else (p, []) :=
  rfl

theorem enter_renamed (now : Moment) (s : Start) :
    (p.renamed o c).enter now (s.renamed o) = (p.enter now s).renamed o c := by
  have hspawned : p.spawned + o.pass + 1 = p.spawned + 1 + o.pass := Nat.add_right_comm ..
  have hactive := filter_runs o p.active s.task.number
  simp only [enter, renamed, hspawned, List.map_append, runs_append]
  congr 1
  exact congrArg (· ++ _) hactive

theorem begin_renamed (now : Moment) (s : Start) :
    (p.renamed o c).begin now (s.renamed o) = ((p.begin now s).1.renamed o c, (p.begin now s).2) := by
  have hgen : (s.renamed o).generation = (p.renamed o c).generation ↔ s.generation = p.generation :=
    Nat.add_right_cancel_iff
  rw [begin_eq_enter, begin_eq_enter, enter_renamed, advance_renamed]
  by_cases hs : s.generation = p.generation
  · rw [if_pos (hgen.mpr hs), if_pos hs]
  · rw [if_neg (mt hgen.mp hs), if_neg hs]

theorem fire_renamed (now : Moment) (id : UInt64) :
    (p.renamed o c).fire now (id + o.timer) = ((p.fire now id).1.renamed o c, (p.fire now id).2) := by
  have htimers : (p.renamed o c).timers.fire (id + o.timer) = _ := p.timers.fire_renamed o id
  unfold fire
  rw [htimers]
  cases p.timers.fire id with
  | mk ts s =>
    cases s with
    | none => rfl
    | some s => exact begin_renamed o c { p with timers := ts } now s

/-- A run is over when every task of it is. -/
def conclude (p : Player) : Player × List ReplayEvent :=
  if p.finished.length = p.planned then p.advance .playing .finished else (p, [])

theorem conclude_renamed :
    (p.renamed o c).conclude = (p.conclude.1.renamed o c, p.conclude.2) := by
  unfold conclude
  rw [advance_renamed]
  show (if p.finished.length = p.planned then _ else _) = _
  split <;> rfl

theorem release_renamed (now : Moment) (t : Task) :
    (p.renamed o c).release now t = ((p.release now t).1.renamed o c, (p.release now t).2) := by
  let mid : Player := { p with
    registry := (p.registry.take t.number).1
    finished := p.finishedWith t }
  show ((mid.renamed o c).armAll now (p.releasedBy t)).conclude =
    ((mid.armAll now (p.releasedBy t)).conclude.1.renamed o c,
      (mid.armAll now (p.releasedBy t)).conclude.2)
  rw [armAll_renamed, conclude_renamed]

/-- A pass that is over has been counted and is gone. -/
def discharge (p : Player) (q : Pass) (sent : UInt64) : Player :=
  { p.remove q.id with metrics := p.metrics.record (.trackRun sent) }

def retire (p : Player) (n : TrackNumber) : Player :=
  { p with active := p.active.filter fun a => a.1 ≠ n }

theorem discharge_renamed (q : Pass) (sent : UInt64) :
    (p.renamed o c).discharge (q.renamed o) sent =
      (p.discharge q sent).renamed o (c.record (.trackRun sent)) :=
  congrArg (fun r : Player => { r with metrics := c.record (.trackRun sent) })
    (p.remove_renamed o c q.id)

theorem retire_renamed (n : TrackNumber) : (p.renamed o c).retire n = (p.retire n).renamed o c :=
  congrArg (fun as => ({ p.renamed o c with active := as } : Player)) (filter_runs o p.active n)

theorem complete_eq_discharge (now : Moment) (q : Pass) (sent : UInt64) (cancelled : Bool) :
    p.complete now q sent cancelled =
      if q.generation = p.generation then
        if cancelled then ((p.discharge q sent).retire q.number, [.tallied (.trackRun sent)])
        else
          let done := ((p.discharge q sent).retire q.number).release now q.task
          (done.1, .tallied (.trackRun sent) :: done.2)
      else (p.discharge q sent, [.tallied (.trackRun sent)]) := rfl

theorem complete_renamed (now : Moment) (q : Pass) (sent : UInt64) (cancelled : Bool) :
    ∃ c', (p.renamed o c).complete now (q.renamed o) sent cancelled =
      ((p.complete now q sent cancelled).1.renamed o c', (p.complete now q sent cancelled).2) := by
  have hgen : (q.renamed o).generation = (p.renamed o c).generation ↔ q.generation = p.generation :=
    Nat.add_right_cancel_iff
  have hnumber : (q.renamed o).number = q.number := rfl
  have htask : (q.renamed o).task = q.task := rfl
  refine ⟨c.record (.trackRun sent), ?_⟩
  rw [complete_eq_discharge, complete_eq_discharge]
  simp only [discharge_renamed, hnumber, htask, retire_renamed, release_renamed]
  by_cases hq : q.generation = p.generation
  · rw [if_pos (hgen.mpr hq), if_pos hq]
    cases cancelled <;> rfl
  · rw [if_neg (mt hgen.mp hq), if_neg hq]

theorem work_renamed (now : Moment) (id : Nat) (pauses : Bool) :
    ∃ c', (p.renamed o c).work now (id + o.pass) pauses =
      ((p.work now id pauses).1.renamed o c', (p.work now id pauses).2) := by
  unfold work
  rw [findPass?_renamed]
  cases p.findPass? id with
  | none => exact ⟨c, rfl⟩
  | some q =>
    have hconfig : (p.renamed o c).config = p.config := rfl
    have hstore : (p.renamed o c).store = p.store := rfl
    have htask : (q.renamed o).task = q.task := rfl
    simp only [Option.map_some, hconfig, hstore, htask, Pass.turn_renamed]
    generalize q.turn p.store pauses = r
    obtain ⟨c', hemit⟩ := p.emitAll_renamed o c r.1
    rw [hemit]
    cases r.2 with
    | paused next =>
      let again : Pass := { next with
        ready := if q.task.paced then now.tick + p.config.pacingDuration.wait else now.tick }
      have hreplace := (p.emitAll r.1).1.replace_renamed o c' again
      exact ⟨c', congrArg (fun x => (x, (p.emitAll r.1).2)) hreplace⟩
    | ended sent cancelled =>
      obtain ⟨c'', hcomplete⟩ := (p.emitAll r.1).1.complete_renamed o c' now q sent cancelled
      exact ⟨c'', by simp only [TurnEnd.renamed, hcomplete]⟩

theorem run_renamed (now : Moment) (plan : List Planned) :
    (p.renamed o c).run now plan = ((p.run now plan).1.renamed o c, (p.run now plan).2) := by
  let mid : Player := { p with
    phase := .initialized
    generation := p.generation + 1
    planned := plan.length
    active := []
    finished := []
    registry := registered plan }
  have hmid : ({ mid.renamed o c with generation := p.generation + o.generation + 1 } : Player) =
      mid.renamed o c := by
    have hgen : p.generation + o.generation + 1 = p.generation + 1 + o.generation :=
      Nat.add_right_comm ..
    rw [hgen]
    rfl
  have hrun : (p.renamed o c).run now plan =
      if plan.isEmpty then (mid.renamed o c).advance .initialized .finished
      else ((mid.renamed o c).armAll now ((plan.filter fun x => x.after.isNone).map (·.task)), []) := by
    rw [← hmid]
    rfl
  rw [hrun, advance_renamed, armAll_renamed]
  show _ = ((if plan.isEmpty then mid.advance .initialized .finished else
    (mid.armAll now ((plan.filter fun x => x.after.isNone).map (·.task)), [])).1.renamed o c,
      (if plan.isEmpty then mid.advance .initialized .finished else
        (mid.armAll now ((plan.filter fun x => x.after.isNone).map (·.task)), [])).2)
  split <;> rfl

theorem play_renamed (now : Option Moment) :
    (p.renamed o c).play now = ((p.play now).1.renamed o c, (p.play now).2) := by
  cases now with
  | none => rfl
  | some now =>
    have hconfig : (p.renamed o c).config = p.config := rfl
    have htasks : (p.renamed o c).tasks = p.tasks := rfl
    have hphase : (p.renamed o c).phase = p.phase := rfl
    have hstore : (p.renamed o c).store = p.store := rfl
    unfold play
    simp only [hconfig, htasks, hphase, hstore]
    cases (Plan.make p.config.chained p.tasks).2 with
    | error e => rfl
    | ok plan =>
      by_cases hstart : p.phase = .stopped ∨ p.phase = .finished
      · simp only [hstart, if_true, run_renamed]
      · simp only [hstart, if_false]

theorem cancel_renamed (qs : List Pass) (as : List (TrackNumber × Nat)) :
    ((qs.map (·.renamed o)).map fun q =>
        { q with cancelled := q.cancelled || ((o.runs as).map Prod.snd).contains q.id }) =
      (qs.map fun q => { q with cancelled := q.cancelled || (as.map Prod.snd).contains q.id }).map
        (·.renamed o) := by
  rw [List.map_map, List.map_map]
  apply List.map_congr_left
  intro q _
  have hids : ((o.runs as).map Prod.snd).contains (q.id + o.pass) = (as.map Prod.snd).contains q.id := by
    rw [Bool.eq_iff_iff, List.contains_iff_mem, List.contains_iff_mem]
    simp [Offsets.runs]
  show { q.renamed o with cancelled := q.cancelled || ((o.runs as).map Prod.snd).contains (q.id + o.pass) } = _
  rw [hids]
  rfl

theorem beginStop_renamed :
    (p.renamed o c).beginStop = (p.beginStop.1.renamed o c, p.beginStop.2) := by
  have hphase : (p.renamed o c).phase = p.phase := rfl
  have hgen : p.generation + o.generation + 1 = p.generation + 1 + o.generation := Nat.add_right_comm ..
  have hpasses := cancel_renamed o p.passes p.active
  unfold beginStop
  rw [hphase]
  by_cases hstop : p.phase = .stopped ∨ p.phase = .stopping
  · simp only [hstop, if_true]
  · simp only [hstop, if_false]
    refine congrArg (fun r : Player => (r, _, _)) ?_
    show ({ p.renamed o c with
      phase := .stopping
      timers := p.timers.cancelAll.1.renamed o
      generation := p.generation + o.generation + 1
      registry := {}
      finished := []
      active := []
      joining := o.runs p.active
      passes := _ } : Player) = _
    rw [hgen]
    exact congrArg (fun qs => ({ p.renamed o c with
      phase := .stopping
      timers := p.timers.cancelAll.1.renamed o
      generation := p.generation + 1 + o.generation
      registry := {}
      finished := []
      active := []
      joining := o.runs p.active
      passes := qs } : Player)) hpasses

def joined (p : Player) (id : Nat) : Player :=
  { p with joining := p.joining.filter fun j => j.2 ≠ id }

theorem joined_renamed (id : Nat) :
    (p.renamed o c).joined (id + o.pass) = (p.joined id).renamed o c := by
  have hfilter : (o.runs p.joining).filter (fun j => j.2 ≠ id + o.pass) =
      o.runs (p.joining.filter fun j => j.2 ≠ id) := by
    unfold Offsets.runs
    rw [List.filter_map]
    congr 2
    funext j
    simp
  exact congrArg (fun js => ({ p.renamed o c with joining := js } : Player)) hfilter

theorem join_renamed (track : TrackNumber) (id : Nat) :
    (p.renamed o c).join track (id + o.pass) = ((p.join track id).1.renamed o c, (p.join track id).2) := by
  have hover : (p.renamed o c).isOver (id + o.pass) = p.isOver id := by
    unfold isOver
    rw [findPass?_renamed, Option.isNone_map]
  have hjoin : ∀ (r : Player) (i : Nat), r.join track i =
      if r.isOver i then (r.joined i, [])
      else ((r.joined i).remove i, [.logged (.joinTimedOut track r.config.joinTimeout)]) :=
    fun _ _ => rfl
  rw [hjoin, hjoin, hover, joined_renamed, remove_renamed]
  split <;> rfl

theorem endStop_renamed : (p.renamed o c).endStop = (p.endStop.1.renamed o c, p.endStop.2) := by
  have hjoining : (p.renamed o c).joining = [] ↔ p.joining = [] := List.map_eq_nil_iff
  unfold endStop
  by_cases h : p.joining = []
  · rw [if_pos (hjoining.mpr h), if_pos h, advance_renamed]
  · rw [if_neg (mt hjoining.mp h), if_neg h]

theorem abandon_renamed : (p.renamed o c).abandon = p.abandon.renamed o c := by
  have hgen : p.generation + o.generation + 1 = p.generation + 1 + o.generation := Nat.add_right_comm ..
  have hpasses := cancel_renamed o p.passes p.active
  show ({ p.renamed o c with
    timers := p.timers.cancelAll.1.renamed o
    generation := p.generation + o.generation + 1
    passes := _ } : Player) = _
  rw [hgen]
  exact congrArg (fun qs => ({ p.renamed o c with
    timers := p.timers.cancelAll.1.renamed o
    generation := p.generation + 1 + o.generation
    passes := qs } : Player)) hpasses

theorem act_renamed (a : Action) :
    ∃ c', (p.renamed o c).act (a.renamed o) = ((p.act a).1.renamed o c', (p.act a).2) := by
  cases a with
  | addTask t => exact ⟨c, rfl⟩
  | play now => exact ⟨c, p.play_renamed o c now⟩
  | fire now id =>
    have h := p.fire_renamed o c now id
    exact ⟨c, by simp only [Action.renamed, act, h]⟩
  | work now id pauses =>
    obtain ⟨c', h⟩ := p.work_renamed o c now id pauses
    exact ⟨c', by simp only [Action.renamed, act, h]⟩
  | beginStop => exact ⟨c, p.beginStop_renamed o c⟩
  | join track id =>
    have h := p.join_renamed o c track id
    exact ⟨c, by simp only [Action.renamed, act, h]⟩
  | endStop =>
    have h := p.endStop_renamed o c
    exact ⟨c, by simp only [Action.renamed, act, h]⟩
  | abandon =>
    have h := p.abandon_renamed o c
    exact ⟨c, by simp only [Action.renamed, act, h]⟩

end

/-- What a player does with actions in turn, what is seen and what it answers. -/
def perform (p : Player) : List Action → Player × List ReplayEvent × List (Option PlayerError)
  | [] => (p, [], [])
  | a :: as =>
    let r := p.act a
    let rest := r.1.perform as
    (rest.1, r.2.1 ++ rest.2.1, r.2.2 :: rest.2.2)

theorem perform_renamed (o : Offsets) (c : Counters) (p : Player) (as : List Action) :
    ∃ c', (p.renamed o c).perform (as.map (·.renamed o)) =
      ((p.perform as).1.renamed o c', (p.perform as).2) := by
  induction as generalizing p c with
  | nil => exact ⟨c, rfl⟩
  | cons a as ih =>
    obtain ⟨c', hact⟩ := p.act_renamed o c a
    obtain ⟨c'', hrest⟩ := ih c' (p.act a).1
    exact ⟨c'', by simp only [List.map_cons, perform, hact, hrest]⟩

end Player

end QuoteBoard
