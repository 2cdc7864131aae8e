import Workflow.Proofs.Run.Conduct
import Workflow.Proofs.Run.Decisions
import Workflow.Proofs.Run.Failures

/-!
# How runs end

A run ends as failed exactly if something has failed in it (`Executor.History.marked_iff`); what
remains is to tell stopped runs from completed ones. A walk stops when a unit on it leaves the stop
signal, so the question is whether the walk of a run can come upon a stop signal that was left
elsewhere. It cannot: a stop signal in the scope is that of a unit at work, which takes it along when
it ends, unless it fails (`Process.Moves.keepsStops`). `Executor.History.outcome` puts both together.
-/

namespace Workflow

/-! ## Units at work -/

def Activity.Works (u : String) : Activity → Prop
  | .working job _ | .asleep job _ _ | .calling job _ _ _ => job.unitId = u
  | .poised _ | .queued .. | .inPlace .. | .forking .. => False

/-- A unit is at work in a process, or in a branch of it. -/
inductive Process.Works (u : String) : Process → Prop where
  | own {serial : Nat} {walk : Walk} {activity : Activity} (h : activity.Works u) :
    Works u (.mk serial walk activity)
  | branch {serial : Nat} {walk : Walk} {activity : Activity} {q : Process}
      (hbranch : activity.Branches q) (h : Works u q) : Works u (.mk serial walk activity)

/-- The stop signal of a unit is in the scope. -/
def Scope.IsStop (s : Scope) (u : String) : Prop :=
  (s.slots u).route = some (.text stopValue)

namespace Process

variable {u : String} {serial : Nat} {walk : Walk}

theorem works_iff {activity : Activity} : (Process.mk serial walk activity).Works u ↔
    activity.Works u ∨ ∃ q, activity.Branches q ∧ q.Works u := by
  constructor
  · intro h
    cases h with
    | own h => exact .inl h
    | branch hbranch h => exact .inr ⟨_, hbranch, h⟩
  · rintro (h | ⟨q, hbranch, h⟩)
    · exact .own h
    · exact .branch hbranch h

theorem not_works_poised {next : Intent} : ¬ (Process.mk serial walk (.poised next)).Works u := by
  simp [works_iff, Activity.Works, Activity.Branches]

theorem not_works_queued {v : String} {unit : FlowUnit} {resume : Resume} :
    ¬ (Process.mk serial walk (.queued v unit resume)).Works u := by
  simp [works_iff, Activity.Works, Activity.Branches]

theorem works_working {job : Job} {rest : Behavior} :
    (Process.mk serial walk (.working job rest)).Works u ↔ job.unitId = u := by
  simp [works_iff, Activity.Works, Activity.Branches]

theorem works_asleep {job : Job} {wakeAt : Nat} {rest : Behavior} :
    (Process.mk serial walk (.asleep job wakeAt rest)).Works u ↔ job.unitId = u := by
  simp [works_iff, Activity.Works, Activity.Branches]

theorem works_calling {job : Job} {run : RunState} {root : Process} {next : RunSummary → Behavior} :
    (Process.mk serial walk (.calling job run root next)).Works u ↔ job.unitId = u := by
  simp [works_iff, Activity.Works, Activity.Branches]

theorem works_inPlace {anchor entry : String} {resume : Resume} {branch : Process} :
    (Process.mk serial walk (.inPlace anchor entry resume branch)).Works u ↔ branch.Works u := by
  simp [works_iff, Activity.Works, Activity.Branches]

theorem works_forking {anchor : String} {resume : Resume} {toStart : List (Branch Plan)}
    {children : List Child} {completed : List String} :
    (Process.mk serial walk (.forking anchor resume toStart children completed)).Works u ↔
      ∃ q, (∃ entry, Child.running entry q ∈ children) ∧ q.Works u := by
  simp [works_iff, Activity.Works, Activity.Branches]

theorem not_works_of_isFinished {p : Process} (h : p.isFinished = true) : ¬ p.Works u := by
  obtain ⟨serial, walk, rfl⟩ := exists_of_isFinished h
  exact not_works_poised

/-- Where all branches are over, nobody is at work. -/
theorem not_works_of_over {anchor : String} {resume : Resume} {children : List Child}
    {completed : List String} (hover : children.all Child.isOver = true) :
    ¬ (Process.mk serial walk (.forking anchor resume [] children completed)).Works u := by
  rw [works_forking]
  rintro ⟨q, ⟨entry, hmem⟩, -⟩
  exact absurd (List.all_eq_true.mp hover _ hmem) (by simp [Child.isOver])

end Process

/-! ## Stop signals -/

namespace Scope

theorem takeRoute_fst_eq_stop {s : Scope} {u : String} :
    (s.takeRoute u).1 = some stopValue ↔ s.IsStop u := by
  rw [takeRoute_fst, Slots.target, IsStop]
  split
  · next heq => simp [heq]
  · next hnot =>
    refine iff_of_false (by simp) fun hstop => ?_
    exact hnot _ hstop

theorem not_isStop_takeRoute (s : Scope) (u : String) : ¬ (s.takeRoute u).2.IsStop u := by
  intro hstop
  have htarget := (slots_takeRoute s u).1
  rw [Slots.target, hstop] at htarget
  cases htarget

/-- Walks do not pass stop signals on. -/
theorem Relays.isStop {s s' : Scope} {u : String} (h : s.Relays s') (hstop : s'.IsStop u) :
    s.IsStop u := by
  rcases h.route u _ hstop with hstop | ⟨label, heq⟩
  · exact hstop
  · exact absurd (Value.text.inj heq).symm (Label.text_ne_stopValue label)

end Scope

namespace Walk

variable {w : Walk} {scope : Scope} {hasRun : String → Bool} {tolerant : Bool} {u : String}
  {resume : Resume}

theorem stopped_detour (w : Walk) (scope : Scope) (hasRun : String → Bool) (target : String) :
    (w.detour scope hasRun target).walk.stopped = w.stopped := by
  unfold detour
  split <;> rfl

theorem stopped_steer {signal : Option String} (h : signal ≠ some stopValue) :
    (w.steer scope hasRun u signal).walk.stopped = w.stopped := by
  unfold steer
  split
  · rfl
  · rfl
  · split
    · next heq =>
      subst heq
      exact absurd rfl h
    · split
      · split
        · rfl
        · exact stopped_detour ..
      · split
        · rfl
        · exact stopped_detour ..

theorem stopped_obey {signal : Option String} {fork : Option (List String)} :
    (w.obey scope hasRun u signal fork).walk.stopped = true ↔
      w.stopped = true ∨ signal = some stopValue := by
  unfold obey
  split
  · next hstop => exact iff_of_true rfl (.inr hstop)
  · next hstop =>
    rw [or_iff_left hstop]
    split
    · exact .rfl
    · exact .rfl
    · exact .rfl
    · rw [stopped_steer hstop]

/-- A walk stops at a unit exactly if the unit has left the stop signal. -/
theorem stopped_unitDone (hawaits : w.AwaitsUnit u resume) :
    (w.unitDone scope hasRun tolerant u resume none).walk.stopped = true ↔
      w.stopped = true ∨ scope.IsStop u := by
  rw [← Scope.takeRoute_fst_eq_stop]
  unfold unitDone
  split
  · unfold ownUnitDone
    rw [hawaits rfl]
    exact stopped_obey
  · unfold detourDone
    simp only
    split
    · next hstop => exact iff_of_true rfl (.inr hstop)
    · next hstop =>
      rw [or_iff_left hstop]
      split <;> exact .rfl
  all_goals
    unfold aloneDone
    simp only
    split
    · next hstop => exact iff_of_true rfl (.inr hstop)
    · next hstop =>
      rw [or_iff_left hstop]
      exact .rfl

/-- Where there are no stop signals, a walk does not stop by itself. -/
theorem stopped_advance (hearly : w.EarlyFits) (hscope : ∀ u, ¬ scope.IsStop u) :
    (w.advance scope hasRun).walk.stopped = true ↔ w.stopped = true := by
  unfold advance
  split
  · exact .rfl
  · next unitId _ =>
    split
    · exact .rfl
    · split <;> exact .rfl
    · next early _ _ hget =>
      simp only
      split
      · unfold fallThrough
        split <;> exact .rfl
      · rw [stopped_obey, Scope.takeRoute_fst_eq_stop, or_iff_left (hscope unitId)]
      · next signal fork =>
        rw [stopped_obey, or_iff_left]
        rintro rfl
        exact hearly unitId fork hget
    · exact .rfl

theorem stopped_forkDone (hawaits : w.AwaitsFork resume) (hscope : ∀ u, ¬ scope.IsStop u) :
    (w.forkDone scope hasRun tolerant resume none).walk.stopped = true ↔ w.stopped = true := by
  unfold forkDone
  split
  · unfold groupDone
    simp only
    split
    · next router _ _ =>
      rw [stopped_steer]
      rw [Ne, Scope.takeRoute_fst_eq_stop]
      exact hscope router
    · exact .rfl
  · obtain ⟨⟨unitId, hunit⟩, hsignal⟩ := hawaits _ _ rfl
    unfold scatterDone
    rw [hunit]
    simp only
    rw [stopped_steer hsignal]
  all_goals exact .rfl

end Walk

/-! ## One step at one walk -/

namespace Scene

variable {s s' : Scene} {task serial : Nat} {u : String}

/-- A unit that ends without a failure takes its stop signal along. -/
theorem not_isStop_endUnit {job : Job} (hawaits : s.walk.AwaitsUnit job.unitId job.resume)
    (task serial : Nat) : ¬ (s.endUnit task serial job none).run.scope.IsStop job.unitId := by
  intro hstop
  rw [endUnit_eq] at hstop
  have hrelays := Scope.Attends.relays (Walk.attends_succeeded hawaits trivial s.run.scope s.run.hasRun
    s.run.context.tolerant)
  exact Scope.not_isStop_takeRoute _ _ (hrelays.isStop hstop)

/-- A unit stays at work, or fails, or ends and takes its stop signal along. -/
theorem Steps.works (h : s.Steps task serial s') (hfits : (s.process serial).Fits)
    (hworks : (s.process serial).Works u) :
    (s'.process serial).Works u ∨ (s'.process serial).Marked ∨ ¬ s'.run.scope.IsStop u := by
  have hmarked := h.marked_iff hfits
  obtain ⟨-, hat, -⟩ := hfits
  obtain ⟨walk, activity, run, engine⟩ := s
  cases h with
  | advance h | missing h | queues h | begins h | forksNone h | forksOne h | forks h =>
    obtain rfl : activity = _ := h
    exact absurd hworks Process.not_works_poised
  | granted h =>
    obtain rfl : activity = _ := h
    exact absurd hworks Process.not_works_queued
  | does h | runs h | tidies h | fails h =>
    obtain rfl : activity = _ := h
    have hunit := Process.works_working.mp hworks
    exact .inl (Process.works_working.mpr hunit)
  | sleeps h =>
    obtain rfl : activity = _ := h
    exact .inl (Process.works_asleep.mpr (Process.works_working.mp hworks))
  | wakes h =>
    obtain rfl : activity = _ := h
    exact .inl (Process.works_working.mpr (Process.works_asleep.mp hworks))
  | opens h =>
    obtain rfl : activity = _ := h
    exact .inl (Process.works_calling.mpr (Process.works_working.mp hworks))
  | @ends job h =>
    obtain rfl : activity = _ := h
    obtain rfl := Process.works_working.mp hworks
    -- the walk decides where to go on, and takes the signal of its unit from the scope
    refine .inr (.inr ?_)
    exact not_isStop_endUnit (s := announce ⟨walk, _, run, engine⟩ task serial job .after none) hat
      task serial
  | gaveUp h _ hstage =>
    obtain rfl : activity = _ := h
    -- a unit that has been told of a failure may leave its stop signal behind
    exact .inr (.inl (hmarked.mpr (.inl (Process.marked_working.mpr (.inr ⟨_, hstage⟩)))))
  | starts h | refuses h =>
    obtain rfl : activity = _ := h
    obtain ⟨q, ⟨entry, hmem⟩, hq⟩ := Process.works_forking.mp hworks
    exact .inl (Process.works_forking.mpr ⟨q, ⟨entry, List.mem_append_left _ hmem⟩, hq⟩)
  | joins h hover =>
    obtain rfl : activity = _ := h
    exact absurd hworks (Process.not_works_of_over hover)

end Scene

/-! ## Steps in a tree -/

/-- A stop signal that is in the scope after a move is that of a unit at work, or something has
failed; or it was there before, and so was the unit, if it was at work. -/
def Process.KeepsStops (p : Process) (run : RunState) (p' : Process) (run' : RunState) : Prop :=
  ∀ u, run'.scope.IsStop u → p'.Works u ∨ p'.Marked ∨
    run.scope.IsStop u ∧ (p.Works u → p'.Works u ∨ p'.Marked)

theorem Scene.Steps.keepsStops {s s' : Scene} {task serial : Nat} (h : s.Steps task serial s')
    (hfits : (s.process serial).Fits) (hprocess : (s.process serial).Abides .any)
    (hengine : s.engine.Abides .any) :
    (s.process serial).KeepsStops s.run (s'.process serial) s'.run := by
  intro u hstop
  rcases (h.gains hfits hprocess hengine).route u _ hstop with
    hold | ⟨label, heq⟩ | ⟨target, job, rest, -, -, hactivity, rfl⟩
  · refine .inr (.inr ⟨hold, fun hworks => ?_⟩)
    rcases h.works hfits hworks with hworks | hmarked | hnot
    · exact .inl hworks
    · exact .inr hmarked
    · exact absurd hstop hnot
  · exact absurd (Value.text.inj heq).symm (Label.text_ne_stopValue label)
  · exact .inl (.own (by rw [hactivity]; rfl))

namespace Process

variable {who task : Nat} {p p' : Process} {run run' : RunState} {e e' : Engine} {site : Site}

/-- What a process keeps, a process keeps that waits for it. -/
theorem KeepsStops.lift {branch branch' : Process} (h : branch.KeepsStops run branch' run')
    (hworks : ∀ u, branch'.Works u → p'.Works u) (hmarked : branch'.Marked → p'.Marked)
    (hothers : ∀ u, p.Works u → branch.Works u ∨ p'.Works u) : p.KeepsStops run p' run' := by
  intro u hstop
  rcases h u hstop with hin | hmark | ⟨hold, hgone⟩
  · exact .inl (hworks u hin)
  · exact .inr (.inl (hmarked hmark))
  · refine .inr (.inr ⟨hold, fun hp => ?_⟩)
    rcases hothers u hp with hbranch | hp'
    · exact (hgone hbranch).imp (hworks u) hmarked
    · exact .inl hp'

/-- Whatever a task does, stop signals are those of units at work, unless something has failed. -/
theorem Moves.keepsStops (h : p.Moves who site task run e p' run' e') (hfits : p.Fits)
    (hprocess : p.Abides .any) (hengine : e.Abides .any) : p.KeepsStops run p' run' := by
  -- A call has a scope of its own, so it neither leaves nor takes stop signals of this one. For a
  -- branch it is enough that its units and its marks are those of the whole.
  induction h with
  | here h => exact h.keepsStops hfits hprocess hengine
  | called =>
    intro u hstop
    refine .inr (.inr ⟨hstop, fun hworks => .inl ?_⟩)
    exact works_calling.mpr (works_calling.mp hworks)
  | returned =>
    intro u hstop
    refine .inr (.inr ⟨hstop, fun hworks => .inl ?_⟩)
    exact works_working.mpr (works_calling.mp hworks)
  | inPlace _ _ ih =>
    obtain ⟨-, -, hinside⟩ := hfits
    obtain ⟨-, habide⟩ := hprocess
    refine (ih (hinside _ rfl) (habide _ rfl) hengine).lift ?_ ?_ ?_
    · exact fun u hin => works_inPlace.mpr hin
    · exact fun hmark => marked_inPlace.mpr (.inr hmark)
    · exact fun u hp => .inl (works_inPlace.mp hp)
  | @inPlaceEnded task serial walk anchor entry resume branch branch' run run' e e' s site h hfinished
      hclose ih =>
    have hmoves : Moves who (site.within serial) task
        (mk serial walk (.inPlace anchor entry resume branch)) run e (mk serial s.walk s.activity)
        s.run s.engine := .inPlaceEnded h hfinished hclose
    have hmarked := hmoves.marked_iff hfits
    obtain ⟨-, -, hinside⟩ := hfits
    obtain ⟨-, habide⟩ := hprocess
    have hbranch := ih (hinside _ rfl) (habide _ rfl) hengine
    -- what has failed in the branch is known to the walk that joins it in the same move
    have hmark : branch'.Marked → (mk serial s.walk s.activity).Marked := fun hmark => by
      rw [hmarked, marked_inPlace, or_assoc]
      rw [h.marked_iff (hinside _ rfl)] at hmark
      simpa only [Site.depth_within, Site.process_within] using .inr hmark
    intro u hstop
    -- a join leaves no stop signals, so this one is from before it
    have hstop' : run'.scope.IsStop u := by
      subst hclose
      exact (Scene.relays_close ⟨walk, _, run', e'⟩ task serial anchor resume _ [entry]).isStop hstop
    rcases hbranch u hstop' with hin | hin | ⟨hold, hgone⟩
    · exact absurd hin (not_works_of_isFinished hfinished)
    · exact .inr (.inl (hmark hin))
    · refine .inr (.inr ⟨hold, fun hp => ?_⟩)
      rcases hgone (works_inPlace.mp hp) with hin | hin
      · exact absurd hin (not_works_of_isFinished hfinished)
      · exact .inr (hmark hin)
  | @child _ _ _ _ entry _ _ _ _ _ branch branch' _ _ _ _ _ _ _ _ ih =>
    obtain ⟨-, -, hinside⟩ := hfits
    obtain ⟨-, habide⟩ := hprocess
    refine (ih (hinside branch ⟨entry, by simp⟩) (habide branch ⟨entry, by simp⟩) hengine).lift
      ?_ ?_ ?_
    · exact fun u hin => works_forking.mpr ⟨branch', ⟨entry, by simp⟩, hin⟩
    · intro hmark
      exact marked_forking.mpr (.inr ⟨.running entry branch', by simp,
        Child.marked_running.mpr hmark⟩)
    · intro u hp
      obtain ⟨q, hbefore, hq⟩ := works_forking.mp hp
      rcases Child.running_of_moved hbefore branch' with rfl | hnow
      · exact .inl hq
      · exact .inr (works_forking.mpr ⟨q, hnow, hq⟩)
  | @childEnded _ _ _ _ entry _ _ _ _ _ _ branch branch' _ _ _ _ _ _ hfinished _ _ ih =>
    obtain ⟨-, -, hinside⟩ := hfits
    obtain ⟨-, habide⟩ := hprocess
    refine (ih (hinside branch ⟨entry, by simp⟩) (habide branch ⟨entry, by simp⟩) hengine).lift
      ?_ ?_ ?_
    · exact fun u hin => absurd hin (not_works_of_isFinished hfinished)
    · intro hmark
      refine marked_forking.mpr (.inr ⟨.ended entry branch'.walk.failure, by simp, ?_⟩)
      exact Child.marked_ended.mpr ((marked_of_isFinished hfinished).mp hmark)
    · intro u hp
      obtain ⟨q, hbefore, hq⟩ := works_forking.mp hp
      rcases Child.running_of_replaced hbefore (.ended entry branch'.walk.failure) with ⟨_, heq⟩ | hnow
      · cases heq
        exact .inl hq
      · exact .inr (works_forking.mpr ⟨q, hnow, hq⟩)

end Process

/-! ## Walks that stop -/

/-- The last call of a unit has succeeded, and after the listeners have been told of it, the stop
signal of the unit is in the scope. -/
def Process.Stops (p : Process) (run : RunState) (e : Engine) : Prop :=
  ∃ job, p.activity = .working job .done ∧ job.stage = .after ∧
    (Scene.announce ⟨p.walk, p.activity, run, e⟩ p.serial p.serial job .after none).run.scope.IsStop
      job.unitId

/-- Where a walk joins without a failure and without stop signals around, it does not stop. -/
theorem Scene.stopped_close {s : Scene} {resume : Resume} (hawaits : s.walk.AwaitsFork resume)
    (hscope : ∀ u, ¬ s.run.scope.IsStop u) (task serial : Nat) (anchor : String)
    (completed : List String) :
    (s.close task serial anchor resume none completed).walk.stopped = true ↔
      s.walk.stopped = true := by
  refine Walk.stopped_forkDone hawaits fun u hstop => ?_
  exact hscope u ((fades_run_publish s.run none completed).relays.isStop hstop)

/-- As long as nothing has failed, a walk stops by a step exactly if its unit has left the stop
signal. -/
theorem Scene.Steps.stopped_iff {s s' : Scene} {task serial : Nat} (h : s.Steps task serial s')
    (hfits : (s.process serial).Fits)
    (hkept : ∀ u, s.run.scope.IsStop u → (s.process serial).Works u)
    (hclean : ¬ (s'.process serial).Marked) :
    s'.walk.stopped = true ↔
      s.walk.stopped = true ∨ (s.process serial).Stops s.run s.engine := by
  have hmarked := h.marked_iff hfits
  obtain ⟨hearly, hat, -⟩ := hfits
  obtain ⟨walk, activity, run, engine⟩ := s
  simp only at hearly hat hkept
  -- only a unit in its last call can stop the walk
  have hother : (∀ job, activity = .working job .done → job.stage ≠ .after) →
      ¬ (Scene.process ⟨walk, activity, run, engine⟩ serial).Stops run engine :=
    fun hnot ⟨job, hactivity, hstage, _⟩ => hnot job hactivity hstage
  cases h with
  | advance h =>
    obtain rfl : activity = _ := h
    rw [or_iff_left (hother nofun)]
    exact Walk.stopped_advance hearly fun u hstop => Process.not_works_poised (hkept u hstop)
  | missing h hunit =>
    obtain rfl : activity = _ := h
    exact absurd (hmarked.mpr (.inr hunit)) hclean
  | queues h | begins h | granted h | sleeps h | wakes h | opens h | forksOne h | forks h | starts h
  | refuses h =>
    obtain rfl : activity = _ := h
    exact (or_iff_left (hother nofun)).symm
  | does h hdoes =>
    obtain rfl : activity = _ := h
    exact (or_iff_left (hother fun job heq => by cases heq; cases hdoes)).symm
  | runs h hstage | tidies h hstage =>
    obtain rfl : activity = _ := h
    exact (or_iff_left (hother fun job heq => by cases heq; simp [hstage])).symm
  | @ends job h hstage =>
    obtain rfl : activity = _ := h
    rw [endUnit_eq]
    refine (Walk.stopped_unitDone hat).trans (or_congr_right ⟨fun hstop => ?_, ?_⟩)
    · exact ⟨job, rfl, hstage, hstop⟩
    · rintro ⟨_, ⟨⟩, -, hstop⟩
      exact hstop
  | fails h hfails hstage =>
    obtain rfl : activity = _ := h
    exact absurd (hmarked.mpr (.inr ⟨hstage, _, hfails⟩)) hclean
  | gaveUp h _ hstage =>
    obtain rfl : activity = _ := h
    refine absurd (hmarked.mpr (.inl ?_)) hclean
    exact Process.marked_working.mpr (.inr ⟨_, hstage⟩)
  | forksNone h =>
    obtain rfl : activity = _ := h
    rw [or_iff_left (hother nofun)]
    exact Walk.stopped_forkDone hat fun u hstop => Process.not_works_poised (hkept u hstop)
  | @joins anchor resume children completed h hover =>
    obtain rfl : activity = _ := h
    rw [or_iff_left (hother nofun)]
    rcases hresult : joinFailure? anchor children with _ | failure
    · exact stopped_close (s := ⟨walk, _, run, engine⟩) hat
        (fun u hstop => Process.not_works_of_over hover (hkept u hstop)) ..
    · refine absurd (hmarked.mpr (.inl (Process.marked_forking.mpr (.inr ?_)))) hclean
      rw [← Child.isSome_joinFailure?_iff hover, hresult]
      rfl

namespace Process

variable {who task : Nat} {p p' : Process} {run run' : RunState} {e e' : Engine} {site : Site}

/-- As long as nothing has failed, the walk of a process stops by a move exactly if the move is its
own and its unit has left the stop signal. -/
theorem Moves.stopped_iff (h : p.Moves who site task run e p' run' e') (hfits : p.Fits)
    (hprocess : p.Abides .any) (hengine : e.Abides .any)
    (hkept : ∀ u, run.scope.IsStop u → p.Works u ∨ p.Marked) (hclean : ¬ p'.Marked) :
    p'.walk.stopped = true ↔ p.walk.stopped = true ∨ who = task ∧ p.Stops run e := by
  have hmarked := h.marked_iff hfits
  have hkept' : ∀ u, run.scope.IsStop u → p.Works u := fun u hstop =>
    (hkept u hstop).resolve_right fun hmark => hclean (hmarked.mpr (.inl hmark))
  cases h with
  | here h =>
    rw [and_iff_right rfl]
    exact h.stopped_iff hfits hkept' hclean
  | called | returned | inPlace | child | childEnded =>
    rw [or_iff_left]
    · exact .rfl
    · rintro ⟨-, job, hactivity, -⟩
      cases hactivity
  | @inPlaceEnded _ serial walk anchor entry resume branch branch' _ run' _ _ s _ h hfinished hclose =>
    obtain ⟨hearly, hat, hinside⟩ := hfits
    obtain ⟨-, habide⟩ := hprocess
    rw [or_iff_left (by rintro ⟨-, job, hactivity, -⟩; cases hactivity)]
    have hbranch := h.keepsStops (hinside _ rfl) (habide _ rfl) hengine
    have hnot : ¬ branch'.Marked := by
      rw [h.marked_iff (hinside _ rfl)]
      intro hmark
      refine hclean (hmarked.mpr ?_)
      rw [marked_inPlace, Site.depth_within, Site.process_within, or_assoc]
      exact .inr hmark
    have hresult : Scene.branchFailure? anchor entry branch' = none := by
      rw [marked_of_isFinished hfinished, Bool.not_eq_true, Option.isSome_eq_false_iff,
        Option.isNone_iff_eq_none] at hnot
      rw [Scene.branchFailure?, hnot, Option.map_none]
    rw [hresult] at hclose
    subst hclose
    refine Scene.stopped_close (s := ⟨walk, _, run', _⟩) hat (fun u hstop => ?_) ..
    -- whoever left the signal is in the branch, which has ended
    rcases hbranch u hstop with hin | hmark | ⟨hold, hgone⟩
    · exact not_works_of_isFinished hfinished hin
    · exact hnot hmark
    · rcases hgone (works_inPlace.mp (hkept' u hold)) with hin | hmark
      · exact not_works_of_isFinished hfinished hin
      · exact hnot hmark

/-- Giving up tasks leaves a mark in the place of a unit at work in one of them. -/
theorem Works.cancelTasks {u : String} (h : p.Works u) :
    p.cancelTasks.Works u ∨ p.cancelTasks.Marked := by
  induction h with
  | @own serial walk activity h =>
    cases activity with
    | working | asleep | calling => exact .inl (.own h)
    | poised | queued | inPlace | forking => exact h.elim
  | @branch serial walk activity q hbranch h ih =>
    cases activity with
    | inPlace anchor entry resume branch =>
      cases hbranch
      exact ih.imp (fun hin => works_inPlace.mpr hin) fun hmark => marked_inPlace.mpr (.inr hmark)
    | forking anchor resume toStart children completed =>
      obtain ⟨entry, hmem⟩ := hbranch
      -- a branch that is given up leaves a mark, whatever its unit is about
      refine .inr (marked_forking.mpr (.inr ⟨_, List.mem_map_of_mem hmem, ?_⟩))
      exact Child.marked_cancelled entry
    | poised | queued | working | asleep | calling => exact hbranch.elim

/-- A walk keeps its first failure. -/
theorem Moves.failure (h : p.Moves who site task run e p' run' e') (hfits : p.Fits) :
    ∃ failure, p'.walk.failure = p.walk.failure.or failure := by
  have hsame : ∀ walk : Walk, ∃ failure, walk.failure = walk.failure.or failure :=
    fun walk => ⟨none, (Option.or_none ..).symm⟩
  cases h with
  | called | returned | inPlace | child | childEnded => exact hsame _
  | inPlaceEnded _ _ hclose =>
    obtain ⟨hearly, hat, -⟩ := hfits
    subst hclose
    exact ⟨_, (Walk.keeps_forkDone hearly hat _ _ _ _).failure⟩
  | @here serial walk activity _ _ s h =>
    obtain ⟨hearly, hat, -⟩ := hfits
    cases h with
    | advance => exact ⟨none, by rw [Option.or_none]; exact (Walk.keeps_advance hearly _ _).failure⟩
    | missing h =>
      obtain rfl : activity = _ := h
      exact ⟨_, (Walk.keeps_unitDone hearly hat _ _ _ _).failure⟩
    | queues | begins | granted | does | sleeps | wakes | opens | runs | tidies | fails | forksOne
    | forks | starts | refuses => exact hsame walk
    | ends h | gaveUp h =>
      obtain rfl : activity = _ := h
      rw [Scene.endUnit_eq]
      exact ⟨_, (Walk.keeps_unitDone hearly hat _ _ _ _).failure⟩
    | forksNone h | joins h =>
      obtain rfl : activity = _ := h
      exact ⟨_, (Walk.keeps_forkDone hearly hat _ _ _ _).failure⟩

end Process

/-! ## Runs -/

/-- Every stop signal in the scope of a run is that of a unit at work, unless something has failed
in the run. -/
def Run.KeepsStops (run : Run) : Prop :=
  ∀ u, run.state.scope.IsStop u → run.root.Works u ∨ run.root.Marked

namespace Executor

variable {x y start last : Executor} {m : Move} {i : Nat} {run run' : Run}
  {past : List (Executor × Move)}

/-- The walk of a run stops by a move: it is the move of its unit, whose last call has succeeded and
which has left the stop signal. -/
def StopsBy (x : Executor) (i : Nat) (m : Move) : Prop :=
  ∃ run, x.runs[i]? = some run ∧ m = .step run.root.serial ∧ run.root.Stops run.state x.engine

theorem Affects.keepsStops (hnumbered : x.ledger.Numbered) (hfits : x.Fits)
    (habides : x.Abides .any) (hrun : x.runs[i]? = some run) (haffects : x.Affects m y i run run')
    (hkept : run.KeepsStops) : run'.KeepsStops := by
  have hmarked := marked_iff hnumbered hfits hrun haffects
  have hmem := List.mem_of_getElem? hrun
  cases haffects with
  | others => exact hkept
  | step _ hmoves =>
    intro u hstop
    rcases hmoves.keepsStops (hfits run hmem) (habides.runs run hmem) habides.engine u hstop with
      hin | hmark | ⟨hold, hgone⟩
    · exact .inl hin
    · exact .inr hmark
    · rcases hkept u hold with hin | hmark
      · exact hgone hin
      · exact .inr (hmarked.mpr (.inl hmark))
  | givesUp =>
    intro u hstop
    rcases hkept u hstop with hin | hmark
    · exact hin.cancelTasks
    · exact .inr (hmarked.mpr (.inl hmark))

/-- As long as nothing has failed in a run, its walk stops exactly by such a move. -/
theorem Affects.stopped_iff (hfits : x.Fits) (habides : x.Abides .any)
    (hrun : x.runs[i]? = some run) (haffects : x.Affects m y i run run') (hkept : run.KeepsStops) (hclean : ¬ run'.root.Marked) :
    run'.root.walk.stopped = true ↔ run.root.walk.stopped = true ∨ x.StopsBy i m := by
  have hmem := List.mem_of_getElem? hrun
  have hat : run.root.At run.root.serial run.root.serial run.state (.here run.root run.state) := .here
  have hown : ∀ e, run.root.Stops run.state e →
      (Site.here run.root run.state).process.activity.IsOwn := by
    rintro e ⟨job, hactivity, -⟩
    show run.root.activity.IsOwn
    rw [hactivity]
    trivial
  cases haffects with
  | others hstep =>
    rw [or_iff_left]
    rintro ⟨run₀, hrun₀, hmove, hstops⟩
    obtain rfl : run = run₀ := Option.some.inj (hrun.symm.trans hrun₀)
    exact hstep _ _ hmove ⟨run, hrun, hat⟩ (hown _ hstops)
  | @step who site _ hmove hmoves =>
    subst hmove
    rw [hmoves.stopped_iff (hfits run hmem) (habides.runs run hmem) habides.engine hkept hclean]
    refine or_congr_right ⟨?_, ?_⟩
    · rintro ⟨rfl, hstops⟩
      exact ⟨run, hrun, rfl, hstops⟩
    · rintro ⟨run₀, hrun₀, hmove, hstops⟩
      obtain rfl : run = run₀ := Option.some.inj (hrun.symm.trans hrun₀)
      cases hmove
      exact ⟨rfl, hstops⟩
  | givesUp hgives =>
    rw [Process.walk_cancelTasks, or_iff_left]
    rintro ⟨run₀, -, hmove, -⟩
    cases hgives.1.symm.trans hmove

/-- As long as nothing has failed in a run that began at its start, its walk has stopped exactly if a
unit on it has left the stop signal. -/
theorem History.stopped_iff (h : start.History past last) (hfits : start.Fits)
    (hnumbered : start.ledger.Numbered) (habides : start.Abides .any)
    (hrun : start.runs[i]? = some run) (hkept : run.KeepsStops)
    (hfresh : run.root.walk.stopped = false) (hlast : last.runs[i]? = some run') :
    run'.KeepsStops ∧ (¬ run'.root.Marked → (run'.root.walk.stopped = true ↔
      ∃ x m, (x, m) ∈ past ∧ x.StopsBy i m)) := by
  obtain ⟨_, hsame, hkept', hstopped⟩ := h.follow_run
    (P := fun past own => own.KeepsStops ∧ (¬ own.root.Marked → (own.root.walk.stopped = true ↔
      ∃ x m, (x, m) ∈ past ∧ x.StopsBy i m))) hfits hnumbered hrun
    ⟨hkept, fun _ => by simp [hfresh]⟩
    fun past x y m own own' h hfits hnumbered _ hown _ haffects ⟨hkept, hstopped⟩ => by
      have hxabides := h.abides habides
      refine ⟨haffects.keepsStops hnumbered hfits hxabides hown hkept, fun hclean => ?_⟩
      have hbefore : ¬ own.root.Marked := fun hmark =>
        hclean ((Executor.marked_iff hnumbered hfits hown haffects).mpr (.inl hmark))
      rw [haffects.stopped_iff hfits hxabides hown hkept hclean, hstopped hbefore]
      simp [or_and_right, exists_or]
  cases hlast.symm.trans hsame
  exact ⟨hkept', hstopped⟩

/-- The first failure of a walk stays what it is. -/
theorem History.failure_eq (h : start.History past last) (hfits : start.Fits)
    (hnumbered : start.ledger.Numbered) {failure : Failure} (hrun : start.runs[i]? = some run)
    (hfailure : run.root.walk.failure = some failure) (hlast : last.runs[i]? = some run') :
    run'.root.walk.failure = some failure := by
  obtain ⟨_, hsame, hkept⟩ := h.follow_run
    (P := fun _ own => own.root.walk.failure = some failure) hfits hnumbered hrun hfailure
    fun past x y m own own' _ hfits _ _ hown _ haffects hkept => by
      cases haffects with
      | others => exact hkept
      | step _ hmoves =>
        obtain ⟨other, heq⟩ := hmoves.failure (hfits own (List.mem_of_getElem? hown))
        rw [heq, hkept, Option.some_or]
      | givesUp => rw [Process.walk_cancelTasks, hkept]
  cases hlast.symm.trans hsame
  exact hkept

/-- The failure of the walk of a run is the first that it has written down. -/
theorem failure_eq_head? (h : x.ledger.Numbered) (hrun : x.runs[i]? = some run) :
    run.root.walk.failure =
      (Journal.failures x.engine.journal.toList run.root.serial).head? := by
  have hlive : ⟨run.root.serial, none, run.root.activity.pursuit, run.root.activity.branches,
      run.root.activity.refused, run.root.walk.failure⟩ ∈ x.ledger.lives := by
    refine List.mem_flatMap.mpr ⟨run, List.mem_of_getElem? hrun, ?_⟩
    obtain ⟨state, serial, walk, activity⟩ := run
    exact List.mem_cons_self
  exact h.failure _ hlive

/-- An executor that has not been shut down starts every plan. -/
theorem launch_plan (plan : Plan) (context : Context) (hopen : x.engine.isClosed = false) :
    (x.launch (.plan plan) context).1 = none := by
  have hclosed : x.engine.takeScope.2.isClosed = false := hopen
  simp [launch, Engine.openRun, Engine.openPlan, hclosed]

/-- A plan that has been launched begins at its start. -/
theorem run_launch_plan {plan : Plan} {context : Context}
    (hlaunch : x.launch (.plan plan) context = (none, y)) :
    ∃ scopeId serial, y.runs[x.runs.length]? =
      some ⟨{ context := context, scopeId := scopeId }, .ofPlan serial plan false⟩ := by
  unfold launch Engine.openRun Engine.openPlan at hlaunch
  simp only at hlaunch
  split at hlaunch
  · cases hlaunch
  · next root _ hopen =>
    split at hopen
    · cases hopen
    · cases hopen
      cases hlaunch
      exact ⟨_, _, List.getElem?_concat_length⟩

/-- What is launched begins at its start: nothing has failed in it or stopped it. -/
theorem exists_run_launch {request : Request} {context : Context}
    (hlaunch : x.launch request context = (none, y)) :
    ∃ run, y.runs[x.runs.length]? = some run ∧ ¬ run.root.Marked ∧ run.KeepsStops ∧
      run.root.walk.stopped = false := by
  rcases x.launch_cases request context with ⟨outcome, plans, heq⟩ | ⟨root, plans, hroot, heq⟩
  · cases hlaunch.symm.trans heq
  · cases hlaunch.symm.trans heq
    have hnone : ∀ u, ¬ (∅ : Scope).IsStop u := fun u hstop => by
      rw [Scope.IsStop, Scope.slots, Table.get?_empty] at hstop
      cases hstop
    refine ⟨_, List.getElem?_concat_length, ?_, fun u hstop => absurd hstop (hnone u), ?_⟩
    · rcases hroot with ⟨plan, rfl⟩ | ⟨u, rfl⟩ <;> exact fun h => by cases Process.marked_poised.mp h
    · rcases hroot with ⟨plan, rfl⟩ | ⟨u, rfl⟩ <;> rfl

/-- How a run ends, whatever its units do and in whatever order its tasks move, as long as signals
are given as signals. It has failed exactly if something in it has failed, in the walk itself or in
any branch. Its failure is then the first that its walk has recorded, and it has stayed what it was
ever since; otherwise there is none, and the run was stopped exactly if a unit on its own walk has
succeeded and left the stop signal. -/
theorem History.outcome {config : Config} {registry : Registry} {listeners : Listeners}
    {request : Request} {context : Context} {after : List (Executor × Move)} {outcome : Outcome}
    (hbuild : build config registry listeners = .ok start) (hregistry : registry.Abides .any)
    (hlisteners : listeners.Abide) (hbefore : start.History past x)
    (hlaunch : x.launch request context = (none, y)) (h : y.History after last)
    (hrun : last.runs[x.runs.length]? = some run) (hresult : run.result? = some outcome) :
    (outcome.status = .failed ↔ ∃ z m, (z, m) ∈ after ∧ z.FailsBy x.runs.length m) ∧
      (outcome.status = .failed ↔ outcome.failure.isSome = true) ∧
      outcome.failure =
        (Journal.failures last.engine.journal.toList run.root.serial).head? ∧
      (∀ z m run' failure, (z, m) ∈ after → z.runs[x.runs.length]? = some run' →
        run'.root.walk.failure = some failure → outcome.failure = some failure) ∧
      (outcome.status ≠ .failed →
        (outcome.status = .stopped ↔ ∃ z m, (z, m) ∈ after ∧ z.StopsBy x.runs.length m) ∧
        (outcome.status = .completed ↔ ¬ ∃ z m, (z, m) ∈ after ∧ z.StopsBy x.runs.length m)) := by
  obtain ⟨hfits, hsound⟩ := sound_build hbuild
  have hy : start.History (past ++ [(x, .launch request context)]) y :=
    hbefore.move (show some (x.launch request context).2 = some y by rw [hlaunch])
  have hyfits := hy.fits hfits
  have hynumbered := hy.numbered hfits hsound.toNumbered
  have hyabides := hy.abides (abides_build hbuild hregistry hlisteners)
  obtain ⟨first, hfirst, hclean, hkept, hfresh⟩ := exists_run_launch hlaunch
  have hmarked := h.marked_iff hyfits hynumbered hfirst hclean hrun
  have hstopped := (h.stopped_iff hyfits hynumbered hyabides hfirst hkept hfresh hrun).2
  unfold Run.result? at hresult
  split at hresult
  · next hfinished =>
    cases hresult
    rw [Process.marked_of_isFinished hfinished] at hmarked hstopped
    -- a failure prevails over a stop
    have hstatus : run.root.status = .failed ↔ run.root.walk.failure.isSome = true := by
      unfold Process.status
      split
      · next hfailed => exact iff_of_true rfl hfailed
      · next hnot =>
        refine iff_of_false ?_ hnot
        split <;> nofun
    refine ⟨hstatus.trans hmarked, hstatus, ?_, ?_, ?_⟩
    · exact failure_eq_head? (h.numbered hyfits hynumbered) hrun
    · intro z m run' failure hmem hrun' hfailure
      obtain ⟨before, rest, next, -, hz, hmove, hrest⟩ := h.split hmem
      have hlater : z.History ([] ++ [(z, m)] ++ rest) last := (History.start.move hmove).trans hrest
      exact hlater.failure_eq (hz.fits hyfits)
        (hz.numbered hyfits hynumbered) hrun' hfailure hrun
    · intro hnot
      rw [Ne, hstatus] at hnot
      rw [← hstopped hnot]
      unfold Process.status
      rw [if_neg hnot]
      cases run.root.walk.stopped <;> simp
  · cases hresult

/-- One branch stops and the other fails, and what remains is the failure. -/
theorem History.outcome_branches : ∃ (plan : Plan) (x : Executor)
    (after : List (Executor × Move)) (last : Executor) (run : Run) (outcome : Outcome),
    Node.compile? (.sequence [.parallel [.unit "s", .unit "x"], .unit "b"]) = some plan ∧
      x.launch (.plan plan) {} = (none, (x.launch (.plan plan) {}).2) ∧
      (x.launch (.plan plan) {}).2.History after last ∧
      last.runs[x.runs.length]? = some run ∧ run.result? = some outcome ∧
      (outcome.status, outcome.executed) = (.failed, ["s", "x"]) ∧
      (∃ z m, (z, m) ∈ after ∧ z.FailsBy x.runs.length m) ∧
      outcome.failure = (Journal.failures last.engine.journal.toList run.root.serial).head? ∧
      outcome.failure.isSome = true := by
  let plan := (Node.compile? (.sequence [.parallel [.unit "s", .unit "x"], .unit "b"])).getD {}
  let units : List (String × Behavior) :=
    [("s", .signalRoute stopValue .done), ("x", .fail ⟨"no", []⟩), ("b", .done)]
  let x := doing units
  let moves : List Move := List.replicate 4 (.step 0) ++ List.replicate 6 (.step 1) ++
    List.replicate 6 (.step 2) ++ List.replicate 9 (.step 0)
  let last := ((x.launch (.plan plan) {}).2.follow moves).2
  have hlast : (last.runs[x.runs.length]?.bind Run.result?).map (fun o => (o.status, o.executed)) =
      some (.failed, ["s", "x"]) := by decide +kernel
  obtain ⟨outcome, hbind, houtcome⟩ := Option.map_eq_some_iff.mp hlast
  obtain ⟨run, hrun, hresult⟩ := Option.bind_eq_some_iff.mp hbind
  have hregistry : (units.foldl (fun r u => r.addUnit u.1 (.doing u.1 u.2)) ({} : Registry)).Abides
      .any := by
    have hnone : ({} : Registry).Abides .any := fun u unit hunit => by cases hunit
    refine ((hnone.addUnit "s" ?_).addUnit "x" ?_).addUnit "b" ?_
    · exact FlowUnit.abides_doing (.signalRoute trivial .done) _
    · exact FlowUnit.abides_doing (.fail _) _
    · exact FlowUnit.abides_doing .done _
  have hcompile : Node.compile? (.sequence [.parallel [.unit "s", .unit "x"], .unit "b"]) =
      some plan := rfl
  have hlaunch : x.launch (.plan plan) {} = (none, (x.launch (.plan plan) {}).2) :=
    Prod.ext (launch_plan plan {} rfl) rfl
  have hhistory : (x.launch (.plan plan) {}).2.History _ last := history_follow _ moves
  have hbuild : build {} _ {} = .ok x := build_doing units
  clear_value last plan
  have h := History.outcome hbuild hregistry (fun r hr => by cases hr) .start hlaunch hhistory hrun
    hresult
  have hfailed : outcome.status = .failed := congrArg Prod.fst houtcome
  exact ⟨plan, x, _, last, run, outcome, hcompile, hlaunch, hhistory, hrun, hresult, houtcome,
    h.1.mp hfailed, h.2.2.1, h.2.1.mp hfailed⟩

end Executor

end Workflow
