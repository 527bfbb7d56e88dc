import QuoteBoard.Proofs.Isolation
import QuoteBoard.Proofs.Showings
import QuoteBoard.Proofs.Seats

/-!
# The books of a player

On each track a player plays showing after showing, and a showing begins when the one before it has
stopped: a timer never starts a track that a pass still plays (`Standing.starts_apart`). So the
showings that are closed and what the passes have shown since make up what was played on each track
(`Player.Books`). A turn continues a showing or closes it (`Books.work`), a timer opens one
(`Books.fire`), and a stop leaves no pass that is not cancelled (`Books.cancel`). All else that a
player is asked leaves its books as they are.
-/

namespace QuoteBoard

namespace Player

section
variable {p : Player}

/-! ## Tasks -/

/-- Who waits, has a timer or plays is a task of the player. -/
structure Cast (p : Player) : Prop where
  waiting : ∀ w ∈ p.registry.waiting, w.2 ∈ p.tasks
  starts : ∀ x ∈ p.starts, x.task ∈ p.tasks
  passes : ∀ q ∈ p.passes, q.task ∈ p.tasks

theorem Cast.shrink (h : p.Cast) {p' : Player} (htasks : p.tasks ⊆ p'.tasks)
    (hwaiting : p'.registry.waiting ⊆ p.registry.waiting) (hstarts : p'.starts ⊆ p.starts)
    (hpasses : ∀ q' ∈ p'.passes, ∃ q ∈ p.passes, q'.task = q.task) : p'.Cast where
  waiting w hw := htasks (h.waiting w (hwaiting hw))
  starts x hx := htasks (h.starts x (hstarts hx))
  passes q' hq' := by
    obtain ⟨q, hq, htask⟩ := hpasses q' hq'
    rw [htask]
    exact htasks (h.passes q hq)

theorem Cast.begin (h : p.Cast) (now : Moment) {x : Start} (hx : x.task ∈ p.tasks) :
    (p.begin now x).1.Cast := by
  by_cases hg : x.generation = p.generation
  · obtain ⟨q, ⟨_, htask, _, _⟩, heq⟩ := p.begin_eq now x hg
    rw [heq]
    refine ⟨h.waiting, h.starts, fun r hr => ?_⟩
    rcases List.mem_append.mp hr with hr | hr
    · exact h.passes r hr
    · rw [List.mem_singleton.mp hr, htask]
      exact hx
  · rw [begin_of_ne hg]
    exact h

theorem Cast.fire (h : p.Cast) (now : Moment) (id : UInt64) : (p.fire now id).1.Cast := by
  rcases p.fire_cases now id with heq | ⟨l, x, r, ts, hstarts, hrest, heq⟩
  · rw [heq]
    exact h
  · rw [heq]
    have hfewer : ts.live.map (·.payload) ⊆ p.starts := by
      rw [hrest, hstarts]
      exact ((List.sublist_cons_self x r).append_left l).subset
    have hleft : ({ p with timers := ts } : Player).Cast :=
      h.shrink (List.Subset.refl _) (List.Subset.refl _) hfewer fun q hq => ⟨q, hq, rfl⟩
    refine hleft.begin now (h.starts x ?_)
    rw [hstarts]
    exact List.mem_append_right _ (List.mem_cons_self ..)

theorem Cast.release (h : p.Cast) (now : Moment) {t : Task} (ht : t ∈ p.tasks) :
    (p.release now t).1.Cast := by
  obtain ⟨ts, hstarts, heq⟩ := p.release_eq now t
  rw [heq]
  refine ⟨fun w hw => h.waiting w (List.mem_filter.mp hw).1, fun x hx => ?_, h.passes⟩
  have hx : x ∈ p.starts ++ (p.releasedBy t).map (fun u => ⟨u, p.generation⟩) := hstarts ▸ hx
  rcases List.mem_append.mp hx with hx | hx
  · exact h.starts x hx
  · obtain ⟨u, hu, rfl⟩ := List.mem_map.mp hx
    rcases List.mem_append.mp hu with hu | hu
    · obtain ⟨w, hw, rfl⟩ := List.mem_map.mp hu
      exact h.waiting w (List.mem_filter.mp hw).1
    · split at hu
      · rw [List.mem_singleton.mp hu]
        exact ht
      · cases hu

theorem Cast.complete (h : p.Cast) {q : Pass} (hq : q ∈ p.passes) (now : Moment) (sent : UInt64)
    (cancelled : Bool) : (p.complete now q sent cancelled).1.Cast := by
  have hgone : ∀ r ∈ (p.remove q.id).passes, r.task ∈ p.tasks :=
    fun r hr => h.passes r (List.mem_filter.mp hr).1
  obtain ⟨c, ⟨_, heq⟩ | ⟨_, _, heq⟩ | ⟨_, _, heq⟩⟩ := p.complete_cases now q sent cancelled
  · rw [heq]
    exact ⟨h.waiting, h.starts, hgone⟩
  · rw [heq]
    exact ⟨h.waiting, h.starts, hgone⟩
  · rw [heq]
    have hidle : ({ p.remove q.id with
        metrics := c, active := p.active.filter fun a => a.1 ≠ q.number } : Player).Cast :=
      ⟨h.waiting, h.starts, hgone⟩
    exact hidle.release now (h.passes q hq)

theorem Cast.work (h : p.Cast) (now : Moment) (id : Nat) (pauses : Bool) :
    (p.work now id pauses).1.Cast := by
  rcases p.work_cases now id pauses with ⟨_, heq⟩ | ⟨q, a, c, hfind, hturn⟩
  · rw [heq]
    exact h
  have hq := (mem_of_findPass? hfind).1
  rcases hturn with ⟨next, hnext, heq⟩ | ⟨sent, cancelled, _, heq⟩
  · rw [heq]
    refine h.shrink (List.Subset.refl _) (List.Subset.refl _) (List.Subset.refl _) fun r' hr' => ?_
    obtain ⟨r, hr, rfl⟩ := List.mem_map.mp hr'
    by_cases hid : r.id = next.id
    · rw [if_pos hid]
      exact ⟨q, hq, hnext.task⟩
    · rw [if_neg hid]
      exact ⟨r, hr, rfl⟩
  · rw [heq]
    have h' : ({ p with audience := a, metrics := c } : Player).Cast :=
      ⟨h.waiting, h.starts, h.passes⟩
    exact h'.complete hq now sent cancelled

theorem Cast.run (h : p.Cast) (now : Moment) {plan : List Planned}
    (hplan : ∀ x ∈ plan, x.task ∈ p.tasks) : (p.run now plan).1.Cast := by
  obtain ⟨ts, hstarts, heq⟩ := p.run_eq now plan
  rw [heq]
  refine ⟨fun w hw => ?_, fun x hx => ?_, h.passes⟩
  · have hw : w ∈ (registered plan).waiting := hw
    rw [Course.waiting_registered] at hw
    obtain ⟨x, hx, hw⟩ := List.mem_filterMap.mp hw
    obtain ⟨n, _, rfl⟩ := Option.map_eq_some_iff.mp hw
    exact hplan x hx
  · have hx : x ∈ ts.live.map (·.payload) := hx
    rw [hstarts] at hx
    rcases List.mem_append.mp hx with hx | hx
    · exact h.starts x hx
    · obtain ⟨t, ht, rfl⟩ := List.mem_map.mp hx
      obtain ⟨y, hy, rfl⟩ := List.mem_map.mp ht
      exact hplan y (List.mem_filter.mp hy).1

theorem Cast.act (h : p.Cast) (a : Action) : (p.act a).1.Cast := by
  have hcancelled : ∀ ids : List Nat, ∀ q' ∈ p.passes.map fun q =>
      { q with cancelled := q.cancelled || ids.contains q.id }, ∃ q ∈ p.passes, q'.task = q.task := by
    intro ids q' hq'
    obtain ⟨q, hq, rfl⟩ := List.mem_map.mp hq'
    exact ⟨q, hq, rfl⟩
  cases a with
  | addTask t =>
    exact h.shrink (List.subset_append_left ..) (List.Subset.refl _) (List.Subset.refl _)
      fun q hq => ⟨q, hq, rfl⟩
  | play now =>
    show (p.play now).1.Cast
    rcases p.play_cases now with ⟨heq, _⟩ | ⟨t, plan, _, hmake, heq, _⟩
    · rw [heq]
      exact h
    · rw [heq]
      exact h.run t fun x hx => (Plan.sound_of_make hmake).2.mem_iff.mp (List.mem_map_of_mem hx)
  | fire now id => exact h.fire now id
  | work now id pauses => exact h.work now id pauses
  | beginStop =>
    show p.beginStop.1.Cast
    unfold beginStop
    split
    · exact h
    · exact h.shrink (List.Subset.refl _) (List.nil_subset _) (List.nil_subset _) (hcancelled _)
  | join track id =>
    show (p.join track id).1.Cast
    unfold join
    simp only
    split
    · exact ⟨h.waiting, h.starts, h.passes⟩
    · exact ⟨h.waiting, h.starts, fun q hq => h.passes q (List.mem_filter.mp hq).1⟩
  | endStop =>
    show p.endStop.1.Cast
    unfold endStop
    split
    · rw [advance_eq]
      exact ⟨h.waiting, h.starts, h.passes⟩
    · exact h
  | abandon =>
    exact h.shrink (List.Subset.refl _) (List.Subset.refl _) (List.nil_subset _) (hcancelled _)

/-! ## Tracks that are played -/

theorem Standing.starts_apart (h : p.Standing) {x : Start} (hx : x ∈ p.starts) {q : Pass}
    (hq : q ∈ p.passes) : q.number ≠ x.task.number := by
  have hnone : p.timers.handles = [] → q.number ≠ x.task.number := by
    intro hhandles
    rw [starts_of_no_handles hhandles] at hx
    cases hx
  cases h with
  | atRest h => exact hnone h.handles
  | stopping h => exact hnone h.handles
  | underWay h =>
    obtain ⟨plan, done, hplan, hacc⟩ := h.accounts
    have harmed : x.task ∈ p.course.armed :=
      List.mem_map_of_mem (List.mem_filter.mpr ⟨hx, decide_eq_true (h.current.starts x hx)⟩)
    exact hacc.armed_ne_running hplan harmed (runner_mem hq (h.current.passes q hq))

theorem Standing.passes_of_obeyed (h : p.Standing) {now : Option Moment}
    (hobeyed : (p.play now).2.2 = none) : p.passes = [] := by
  have hphase := phase_of_obeyed hobeyed
  cases h with
  | atRest h => exact h.passes
  | stopping h =>
    rw [h.phase] at hphase
    rcases hphase with hphase | hphase <;> cases hphase
  | underWay h => exact (h.finished (hphase.resolve_left h.phase.1)).2

/-- When the passes of the present run are cancelled, all of them are. -/
theorem Standing.cancels (h : p.Standing) (hstale : ∀ q ∈ p.passes, q.generation ≠ p.generation →
    q.cancelled = true) {q : Pass} (hq : q ∈ p.passes) :
    (q.cancelled || (p.active.map (·.2)).contains q.id) = true := by
  rw [Bool.or_eq_true]
  cases h with
  | atRest h =>
    rw [h.passes] at hq
    cases hq
  | stopping h => exact Or.inl (hstale q hq (h.passes q hq).1)
  | underWay h =>
    obtain ⟨plan, done, _, hacc⟩ := h.accounts
    have hactive : p.active = p.running.map fun r => (r.task.number, r.id) := hacc.active
    have hrunning := runner_mem hq (h.current.passes q hq)
    refine Or.inr (List.contains_iff_mem.mpr ?_)
    rw [hactive, List.map_map]
    exact List.mem_map_of_mem (f := fun r : Runner => r.id) hrunning

/-! ## What the passes have shown -/

def shownOn (store : Option Store) (n : TrackNumber) (qs : List Pass) : List PlayEvent :=
  (qs.filter fun q => q.number = n).flatMap (·.shown store)

section
variable {store : Option Store} {l r : List Pass} {q : Pass}

theorem shownOn_of_not_mem {qs : List Pass} {n : TrackNumber} (h : ∀ q ∈ qs, q.number ≠ n) :
    shownOn store n qs = [] := by
  have hnone : qs.filter (fun q => q.number = n) = [] :=
    List.filter_eq_nil_iff.mpr fun q hq => by simpa using h q hq
  rw [shownOn, hnone]
  rfl

theorem not_mem_of_nodup (h : ((l ++ q :: r).map Pass.number).Nodup) :
    ∀ x ∈ l ++ r, x.number ≠ q.number := by
  rw [(List.perm_middle.map _).nodup_iff] at h
  intro x hx heq
  exact (List.nodup_cons.mp h).1 (List.mem_map.mpr ⟨x, hx, heq⟩)

/-- As long as no two passes play one track, each has a track for itself. -/
theorem shownOn_split (h : ((l ++ q :: r).map Pass.number).Nodup) (n : TrackNumber) :
    shownOn store n (l ++ q :: r) =
      if q.number = n then q.shown store else shownOn store n (l ++ r) := by
  have happend : ∀ qs rs,
      shownOn store n (qs ++ rs) = shownOn store n qs ++ shownOn store n rs := by
    intro qs rs
    rw [shownOn, List.filter_append, List.flatMap_append]
    rfl
  by_cases hn : q.number = n
  · subst hn
    have hapart := not_mem_of_nodup h
    have hl : shownOn store q.number l = [] :=
      shownOn_of_not_mem fun x hx => hapart x (List.mem_append_left r hx)
    have hr : shownOn store q.number r = [] :=
      shownOn_of_not_mem fun x hx => hapart x (List.mem_append_right l hx)
    have hq : shownOn store q.number (q :: r) = q.shown store ++ shownOn store q.number r := by
      simp [shownOn]
    rw [if_pos rfl, happend, hl, hq, hr]
    exact List.append_nil _
  · have hq : shownOn store n (q :: r) = shownOn store n r := by simp [shownOn, hn]
    rw [if_neg hn, happend, hq, happend]

theorem shownOn_cancel (n : TrackNumber) (qs : List Pass) (f : Pass → Bool) :
    shownOn store n (qs.map fun q => { q with cancelled := f q }) = shownOn store n qs := by
  rw [shownOn, List.filter_map, List.flatMap_map]
  rfl

theorem filter_track {es : List PlayEvent} {m : TrackNumber} (h : ∀ e ∈ es, e.track = m)
    (n : TrackNumber) : es.filter (fun e => e.track = n) = if m = n then es else [] := by
  by_cases hn : m = n
  · rw [if_pos hn, List.filter_eq_self]
    exact fun e he => decide_eq_true ((h e he).trans hn)
  · rw [if_neg hn, List.filter_eq_nil_iff]
    exact fun e he => by simpa [h e he] using hn

end

end

/-! ## The books -/

def closedOn (n : TrackNumber) (xs : List Showing) : List PlayEvent :=
  (xs.filter fun x => x.number = n).flatMap Showing.events

theorem closedOn_append (n : TrackNumber) (xs ys : List Showing) :
    closedOn n (xs ++ ys) = closedOn n xs ++ closedOn n ys := by
  rw [closedOn, List.filter_append, List.flatMap_append]
  rfl

theorem closedOn_singleton (n : TrackNumber) (x : Showing) :
    closedOn n [x] = if x.number = n then x.events else [] := by
  by_cases hn : x.number = n <;> simp [closedOn, hn]

/-- The closed showings and the passes that are left make up what was played. -/
structure Books (p : Player) (store : Option Store) (es : List PlayEvent) (xs : List Showing) :
    Prop where
  stored : p.store = store
  sound : ∀ q ∈ p.passes, q.Sound p.store
  apart : (p.passes.map Pass.number).Nodup
  cancelled : ∀ q ∈ p.passes, q.cancelled = true ↔ q.generation ≠ p.generation
  closed : ∀ x ∈ xs, x.task ∈ p.tasks ∧ x.Faithful p.store p.generation
  tracks : ∀ n, es.filter (fun e => e.track = n) = closedOn n xs ++ shownOn p.store n p.passes

section
variable {p p' : Player} {store : Option Store} {es played : List PlayEvent} {xs : List Showing}
  {l r : List Pass} {q : Pass}

/-- An action that plays nothing, and cancels passes at most. -/
theorem Books.keep (h : p.Books store es xs) (hstore : p'.store = p.store) (htasks : p.tasks ⊆ p'.tasks)
    (hg : p.generation ≤ p'.generation) {f : Pass → Bool}
    (hpasses : p'.passes = p.passes.map fun q => { q with cancelled := f q })
    (hf : ∀ q ∈ p.passes, f q = true ↔ q.generation ≠ p'.generation) : p'.Books store es xs where
  stored := hstore.trans h.stored
  sound q' hq' := by
    rw [hpasses] at hq'
    obtain ⟨q, hq, rfl⟩ := List.mem_map.mp hq'
    rw [hstore]
    exact ⟨(h.sound q hq).stream, (h.sound q hq).framer, (h.sound q hq).sent⟩
  apart := by
    rw [hpasses, List.map_map]
    exact h.apart
  cancelled q' hq' := by
    rw [hpasses] at hq'
    obtain ⟨q, hq, rfl⟩ := List.mem_map.mp hq'
    exact hf q hq
  closed x hx := by
    rw [hstore]
    exact ⟨htasks (h.closed x hx).1, (h.closed x hx).2.mono hg⟩
  tracks n := by
    rw [hstore, hpasses, shownOn_cancel]
    exact h.tracks n

theorem Books.same (h : p.Books store es xs) (hstore : p'.store = p.store) (htasks : p.tasks ⊆ p'.tasks)
    (hg : p'.generation = p.generation) (hpasses : p'.passes = p.passes) : p'.Books store es xs := by
  refine h.keep hstore htasks (Nat.le_of_eq hg.symm) (f := (·.cancelled)) ?_ ?_
  · rw [hpasses]
    exact (List.map_id p.passes).symm
  · rw [hg]
    exact h.cancelled

/-- The passes that are new to the books, and the showings that are, have to be right. -/
theorem Books.revise (h : p.Books store es xs) (hstore : p'.store = p.store)
    (htasks : p'.tasks = p.tasks) (hg : p'.generation = p.generation)
    (hpasses : ∀ y ∈ p'.passes, y ∈ p.passes ∨
      y.Sound p.store ∧ (y.cancelled = true ↔ y.generation ≠ p.generation))
    (hapart : (p'.passes.map Pass.number).Nodup) {es' : List PlayEvent} {xs' : List Showing}
    (hclosed : ∀ x ∈ xs', x ∈ xs ∨ x.task ∈ p.tasks ∧ x.Faithful p.store p.generation)
    (htracks : ∀ n, es'.filter (fun e => e.track = n) =
      closedOn n xs' ++ shownOn p.store n p'.passes) : p'.Books store es' xs' where
  stored := hstore.trans h.stored
  sound y hy := by
    rw [hstore]
    exact (hpasses y hy).elim (h.sound y) (·.1)
  apart := hapart
  cancelled y hy := by
    rw [hg]
    exact (hpasses y hy).elim (h.cancelled y) (·.2)
  closed x hx := by
    rw [hstore, htasks, hg]
    exact (hclosed x hx).elim (h.closed x) id
  tracks n := by
    rw [hstore]
    exact htracks n

theorem Books.pause (h : p.Books store es xs) (hpasses : p.passes = l ++ q :: r) {next : Pass}
    (hnext : q.Resumes next) (hsound : next.Sound p.store)
    (hplayed : ∀ e ∈ played, e.track = q.number)
    (hshown : next.shown p.store = q.shown p.store ++ played) (hstore : p'.store = p.store)
    (htasks : p'.tasks = p.tasks) (hg : p'.generation = p.generation)
    (hpasses' : p'.passes = l ++ next :: r) : p'.Books store (es ++ played) xs := by
  have hnumber : next.number = q.number := congrArg Task.number hnext.task
  have hapart := h.apart
  rw [hpasses] at hapart
  have hapart' : ((l ++ next :: r).map Pass.number).Nodup := by
    rw [List.map_append, List.map_cons, hnumber]
    rw [List.map_append, List.map_cons] at hapart
    exact hapart
  refine h.revise hstore htasks hg (fun y hy => ?_) (hpasses' ▸ hapart') (fun _ => Or.inl)
    fun n => ?_
  · rw [hpasses'] at hy
    rcases List.mem_append.mp hy with hy | hy
    · refine Or.inl ?_
      rw [hpasses]
      exact List.mem_append_left _ hy
    · rcases List.mem_cons.mp hy with rfl | hy
      · refine Or.inr ⟨hsound, ?_⟩
        rw [hnext.cancelled, hnext.generation]
        refine h.cancelled q ?_
        rw [hpasses]
        exact List.mem_append_right _ (List.mem_cons_self ..)
      · refine Or.inl ?_
        rw [hpasses]
        exact List.mem_append_right _ (List.mem_cons_of_mem _ hy)
  · rw [List.filter_append, h.tracks n, filter_track hplayed, hpasses, hpasses',
      shownOn_split hapart, shownOn_split hapart', hnumber]
    by_cases hn : q.number = n
    · rw [if_pos hn, if_pos hn, if_pos hn, hshown, List.append_assoc]
    · rw [if_neg hn, if_neg hn, if_neg hn, List.append_nil]

theorem Books.close (h : p.Books store es xs) (hpasses : p.passes = l ++ q :: r) {x : Showing}
    (hx : x.task = q.task) (hplayed : ∀ e ∈ played, e.track = q.number)
    (hevents : x.events = q.shown p.store ++ played)
    (hclosed : x.task ∈ p.tasks ∧ x.Faithful p.store p.generation) (hstore : p'.store = p.store)
    (htasks : p'.tasks = p.tasks) (hg : p'.generation = p.generation)
    (hpasses' : p'.passes = l ++ r) : p'.Books store (es ++ played) (xs ++ [x]) := by
  have hnumber : x.number = q.number := congrArg Task.number hx
  have hapart := h.apart
  rw [hpasses] at hapart
  have hfewer : p'.passes.Sublist p.passes := by
    rw [hpasses, hpasses']
    exact (List.sublist_cons_self q r).append_left l
  refine h.revise hstore htasks hg (fun y hy => Or.inl (hfewer.subset hy))
    ((hfewer.map _).nodup h.apart) (fun y hy => ?_) fun n => ?_
  · rcases List.mem_append.mp hy with hy | hy
    · exact Or.inl hy
    · rw [List.mem_singleton.mp hy]
      exact Or.inr hclosed
  · rw [List.filter_append, h.tracks n, filter_track hplayed, hpasses, hpasses',
      shownOn_split hapart, closedOn_append, closedOn_singleton, hnumber]
    by_cases hn : q.number = n
    · have hnone : shownOn p.store n (l ++ r) = [] :=
        shownOn_of_not_mem fun y hy => hn ▸ not_mem_of_nodup hapart y hy
      rw [if_pos hn, if_pos hn, if_pos hn, hevents, hnone, List.append_nil, List.append_assoc]
    · rw [if_neg hn, if_neg hn, if_neg hn, List.append_nil, List.append_nil]

theorem Books.enter (h : p.Books store es xs) (hnew : ∀ y ∈ p.passes, y.number ≠ q.number)
    (hrest : q.rest = none) (hsound : q.Sound p.store)
    (hcancelled : q.cancelled = true ↔ q.generation ≠ p.generation) (hstore : p'.store = p.store)
    (htasks : p'.tasks = p.tasks) (hg : p'.generation = p.generation)
    (hpasses' : p'.passes = p.passes ++ [q]) : p'.Books store es xs := by
  have hapart : ((p.passes ++ [q]).map Pass.number).Nodup := by
    rw [List.map_append]
    refine List.Nodup.append h.apart (List.nodup_singleton _) fun n hold hmine => ?_
    obtain ⟨y, hy, rfl⟩ := List.mem_map.mp hold
    exact hnew y hy (List.mem_singleton.mp hmine)
  refine h.revise hstore htasks hg (fun y hy => ?_) (hpasses' ▸ hapart) (fun _ => Or.inl)
    fun n => ?_
  · rw [hpasses'] at hy
    rcases List.mem_append.mp hy with hy | hy
    · exact Or.inl hy
    · rw [List.mem_singleton.mp hy]
      exact Or.inr ⟨hsound, hcancelled⟩
  · rw [h.tracks n, hpasses', shownOn_split hapart, List.append_nil]
    by_cases hn : q.number = n
    · have hnone : shownOn p.store n p.passes = [] :=
        shownOn_of_not_mem fun y hy => hn ▸ hnew y hy
      rw [if_pos hn, hnone, Pass.shown_of_new hrest]
    · rw [if_neg hn]

theorem complete_apart (p : Player) (now : Moment) (q : Pass) (sent : UInt64) (cancelled : Bool) :
    (p.complete now q sent cancelled).1.store = p.store ∧
      (p.complete now q sent cancelled).1.tasks = p.tasks ∧
      (p.complete now q sent cancelled).1.generation = p.generation ∧
      (p.complete now q sent cancelled).1.passes = (p.remove q.id).passes := by
  obtain ⟨c, ⟨_, heq⟩ | ⟨_, _, heq⟩ | ⟨_, _, heq⟩⟩ := p.complete_cases now q sent cancelled
  · rw [heq]
    exact ⟨rfl, rfl, rfl, rfl⟩
  · rw [heq]
    exact ⟨rfl, rfl, rfl, rfl⟩
  · obtain ⟨ts, _, hrelease⟩ := release_eq { p.remove q.id with
      metrics := c, active := p.active.filter fun a => a.1 ≠ q.number } now q.task
    rw [heq, hrelease]
    exact ⟨rfl, rfl, rfl, rfl⟩

theorem Books.work (h : p.Books store es xs) (horderly : p.Orderly) (hcast : p.Cast) (now : Moment)
    (id : Nat) (pauses : Bool) : ∃ new,
      (p.work now id pauses).1.Books store (es ++ p.emitted (.work now id pauses)) (xs ++ new) ∧
        p.closings (.work now id pauses) = new.map Showing.tally := by
  cases hfind : p.findPass? id with
  | none =>
    have hsame : (p.work now id pauses).1 = p := by simp only [Player.work, hfind]
    have hsilent : p.emitted (.work now id pauses) = [] ∧
        p.closings (.work now id pauses) = [] := by
      simp [emitted, closings, hfind]
    refine ⟨[], ?_, hsilent.2⟩
    rw [hsame, hsilent.1, List.append_nil, List.append_nil]
    exact h
  | some q =>
    have hq := (mem_of_findPass? hfind).1
    obtain ⟨l, r, hpasses⟩ := List.append_of_mem hq
    have htrack := q.track_of_turn p.store pauses
    have htold : (p.told (Pass.events (q.turn p.store pauses).1)).Orderly :=
      ⟨horderly.starts, horderly.passes, horderly.spawned, horderly.ids⟩
    rw [emitted_work now hfind, closings_work now hfind]
    rcases (h.sound q hq).turn pauses with ⟨next, hturn, hnext, hsound, hshown⟩ |
      ⟨x, htask, hg, hturn, hevents, hbegins, hwhole, hcut⟩
    · refine ⟨[], ?_, by rw [hturn]; rfl⟩
      let again : Pass := { next with
        ready := if q.task.paced then now.tick + p.config.pacingDuration.wait else now.tick }
      have hagain : q.Resumes again :=
        ⟨hnext.id, hnext.task, hnext.generation, hnext.cancelled⟩
      rw [List.append_nil, work_paused now hfind hturn]
      exact h.pause hpasses hagain ⟨hsound.stream, hsound.framer, hsound.sent⟩ htrack hshown rfl rfl
        rfl (passes_replace htold hpasses hagain.id)
    · refine ⟨[x], ?_, by rw [hturn]; rfl⟩
      obtain ⟨hstore, htasks, hgeneration, hleft⟩ := complete_apart
        (p.told (Pass.events (q.turn p.store pauses).1)) now q (.ofNat x.messages.length) x.cut
      rw [work_ended now hfind hturn]
      refine h.close hpasses htask htrack hevents ⟨htask ▸ hcast.passes q hq, hbegins, hwhole, ?_⟩
        hstore htasks hgeneration (hleft.trans (passes_remove htold hpasses))
      intro hshort
      obtain ⟨hpart, hcancelled⟩ := hcut hshort
      have hstale := (h.cancelled q hq).mp hcancelled
      exact ⟨hpart, hg ▸ Nat.lt_of_le_of_ne (horderly.passes q hq) hstale⟩

theorem Books.fire (h : p.Books store es xs)
    (hapart : ∀ x ∈ p.starts, ∀ q ∈ p.passes, q.number ≠ x.task.number) (now : Moment)
    (id : UInt64) : (p.fire now id).1.Books store es xs := by
  rcases p.fire_cases now id with heq | ⟨l, x, r, ts, hstarts, _, heq⟩
  · rw [heq]
    exact h
  · rw [heq]
    have hleft : ({ p with timers := ts } : Player).Books store es xs :=
      h.same rfl (List.Subset.refl _) rfl rfl
    by_cases hx : x.generation = p.generation
    · have hmem : x ∈ p.starts := by
        rw [hstarts]
        exact List.mem_append_right _ (List.mem_cons_self ..)
      let new : Pass := { id := p.spawned, task := x.task, generation := x.generation
                          ready := now.tick, latencyDue := p.config.reportsLatency }
      have hgeneration : x.generation = ({ p with timers := ts } : Player).generation := hx
      rw [begin_eq_enter, if_pos hgeneration, advance_eq]
      refine hleft.enter (q := new) (hapart x hmem) rfl (Pass.sound_of_new rfl rfl rfl) ?_ rfl rfl
        rfl rfl
      exact ⟨fun hc => absurd hc Bool.false_ne_true, fun hne => absurd hx hne⟩
    · rw [begin_of_ne (p := { p with timers := ts }) hx]
      exact hleft

theorem Books.cancel (h : p.Books store es xs) (hstanding : p.Standing) (horderly : p.Orderly)
    (hstore : p'.store = p.store) (htasks : p'.tasks = p.tasks)
    (hg : p'.generation = p.generation + 1) (hpasses : p'.passes = p.passes.map fun q =>
      { q with cancelled := q.cancelled || (p.active.map (·.2)).contains q.id }) :
    p'.Books store es xs := by
  refine h.keep hstore (htasks ▸ List.Subset.refl _) (by omega) hpasses fun q hq => ?_
  have hall := hstanding.cancels (fun x hx => (h.cancelled x hx).mpr) hq
  have hle := horderly.passes q hq
  exact ⟨fun _ => by omega, fun _ => hall⟩

theorem Books.play (h : p.Books store es xs) (hstanding : p.Standing) (now : Option Moment) :
    (p.play now).1.Books store es xs := by
  rcases p.play_cases now with ⟨heq, _⟩ | ⟨t, plan, _, _, heq, hobeyed⟩
  · rw [heq]
    exact h
  · obtain ⟨ts, _, hrun⟩ := p.run_eq t plan
    have hnone := hstanding.passes_of_obeyed hobeyed
    rw [heq, hrun]
    -- the next generation begins with no pass left
    refine h.keep rfl (List.Subset.refl _) (Nat.le_succ _) (f := (·.cancelled))
      (List.map_id p.passes).symm fun q hq => ?_
    rw [hnone] at hq
    cases hq

theorem Books.beginStop (h : p.Books store es xs) (hstanding : p.Standing) (horderly : p.Orderly) :
    p.beginStop.1.Books store es xs := by
  unfold Player.beginStop
  split
  · exact h
  · exact h.cancel hstanding horderly rfl rfl rfl rfl

/-- A pass that is waited for until it is over is not taken away. -/
theorem Books.join (h : p.Books store es xs) (track : TrackNumber) {id : Nat}
    (hover : p.isOver id = true) : (p.join track id).1.Books store es xs := by
  unfold Player.join
  simp only [hover, if_true]
  exact h.same rfl (List.Subset.refl _) rfl rfl

theorem Books.endStop (h : p.Books store es xs) : p.endStop.1.Books store es xs := by
  unfold Player.endStop
  split
  · rw [advance_eq]
    exact h.same rfl (List.Subset.refl _) rfl rfl
  · exact h

end

end Player

end QuoteBoard
