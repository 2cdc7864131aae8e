import Workflow.Proofs.Run.Labels
import Workflow.Proofs.Run.Reuse

/-!
# Walks that go on after failures

A unit may ask for walks to go on when it fails. The walk that has the unit on it does so. When that
walk is a branch, however, its group has failed, and whether the walk around it goes on is a question
of the context alone. So, as long as nothing is missing, nobody asks for a stop and all units that
fail let walks go on, there are two ways in which a walk comes to its end: it is at the end of its
plan, or a group of it has failed in a context that is not tolerant
(`Executor.History.goes_on`). In a tolerant context every walk gets to the end of its plan.

The bricks are the decisions of a walk (`Walk.advance_cases`, `Walk.goesOn_unitDone`,
`Walk.forkDone_cases`), the end of a walk by one move (`Process.Moves.endures`), and that a move
leaves every walk alone but those that it moves (`Process.Moves.goesTo`).
-/

namespace Workflow

/-! ## What can be borne -/

/-- A failure that does not come from something that is not there. -/
def Failure.Bearable (failure : Failure) : Prop := failure.origin.isMissing = false

theorem Failure.Bearable.isMissing {failure : Failure} (h : failure.Bearable) :
    failure.isMissing = false := by
  cases failure with
  | branchFailed => rfl
  | unknownFlow | unknownUnit => cases h
  | refused | unitFailed | interrupted | disabled | misconfigured | internal => rfl

/-- The failure that a unit has been told of. -/
def Stage.failure? : Stage → Option Failure
  | .onError failure => some failure
  | .before | .run | .after => none

/-- A unit that a walk asks for is there, and a unit of it that has failed lets walks go on. -/
def Activity.Forgives (e : Engine) : Activity → Prop
  | .poised (.execute u _) => (e.registry.unit? u).isSome = true
  | .working job _ | .asleep job _ _ | .calling job _ _ _ =>
    job.stage.failure?.isSome = true → job.unit.tolerant = true
  | .poised .advance | .poised (.fork ..) | .poised .finish | .queued .. | .inPlace ..
  | .forking .. => True

instance (e : Engine) : DecidablePred (Activity.Forgives e) := fun activity => by
  unfold Activity.Forgives
  split <;> infer_instance

/-- The answer concerns a unit on the way of a walk, and not one that is all there is to run. -/
def Resume.OnWay : Resume → Prop
  | .unit | .detour .. => True
  | .alone | .group _ | .scattered .. | .detourFork => False

/-- A walk that has not come to its end and asks for units on its way. -/
def Intent.GoesOn : Intent → Prop
  | .execute _ resume => resume.OnWay
  | .advance | .fork .. => True
  | .finish => False

/-- The walk is at the end of its plan. -/
def Walk.IsAtEnd (w : Walk) : Prop := w.plan.unitAt? w.position = none

/-- Nobody has asked for a stop. -/
def RunState.Unstopped (r : RunState) : Prop := ∀ u, ¬ r.scope.IsStop u

/-- Units signal what they like, but ask for no stop. -/
def Law.unstopped : Law where
  routes target := target ≠ stopValue
  forks _ := True

/-! ## Decisions -/

namespace Walk

variable {w : Walk} {scope : Scope} {hasRun : String → Bool} {tolerant : Bool} {u : String}
  {resume : Resume} {signal : Option String}

theorem goesOn_detour (w : Walk) (scope : Scope) (hasRun : String → Bool) (target : String) :
    (w.detour scope hasRun target).next.GoesOn := by
  unfold detour
  split <;> trivial

theorem goesOn_steer (h : signal ≠ some stopValue) : (w.steer scope hasRun u signal).next.GoesOn := by
  unfold steer
  split
  · trivial
  · trivial
  · split
    · next heq => exact absurd (congrArg some heq) h
    · split
      · split
        · trivial
        · exact goesOn_detour ..
      · split
        · trivial
        · exact goesOn_detour ..

theorem goesOn_obey {fork : Option (List String)} (h : signal ≠ some stopValue) :
    (w.obey scope hasRun u signal fork).next.GoesOn := by
  unfold obey
  rw [if_neg h]
  split
  · trivial
  · trivial
  · trivial
  · exact goesOn_steer h

/-- At its position a walk comes to its end only if there is no unit. -/
theorem advance_cases (hearly : w.EarlyFits) (hscope : ∀ u, ¬ scope.IsStop u) (hasRun : String → Bool) :
    (w.advance scope hasRun).next = .finish ∧ w.IsAtEnd ∨ (w.advance scope hasRun).next.GoesOn := by
  unfold advance
  split
  · next hunit => exact .inl ⟨rfl, hunit⟩
  · next unitId _ =>
    right
    split
    · trivial
    · split <;> trivial
    · next early hget =>
      simp only
      split
      · trivial
      · exact goesOn_obey (mt Scope.takeRoute_fst_eq_stop.mp (hscope unitId))
      · next signal fork =>
        refine goesOn_obey ?_
        rintro rfl
        exact hearly unitId fork hget
    · trivial

/-- No unit ends its walk that does not stop it, if the walk survives its failure. -/
theorem goesOn_unitDone {result : Option Mishap} (hawaits : w.AwaitsUnit u resume)
    (hresume : resume.OnWay) (hscope : ¬ scope.IsStop u)
    (hresult : ∀ f, result = some f → survivesUnit tolerant f = true) (hasRun : String → Bool) :
    (w.unitDone scope hasRun tolerant u resume result).next.GoesOn := by
  have hsignal : (scope.takeRoute u).1 ≠ some stopValue := mt Scope.takeRoute_fst_eq_stop.mp hscope
  unfold unitDone
  split
  · unfold ownUnitDone
    rw [hawaits rfl]
    rcases result with _ | f
    · exact goesOn_obey hsignal
    · simp only [hresult f rfl]
      trivial
  · unfold detourDone
    rcases result with _ | f
    · simp only [if_neg hsignal]
      split <;> trivial
    · simp only [hresult f rfl]
      trivial
  all_goals exact hresume.elim

/-- A group ends its walk only if the walk does not survive its failure. -/
theorem forkDone_cases (hawaits : w.AwaitsFork resume) (hscope : ∀ u, ¬ scope.IsStop u)
    (hasRun : String → Bool) (tolerant : Bool) (result : Option Failure) :
    (∃ failure, result = some failure ∧ survivesGroup tolerant failure = false) ∨
      (w.forkDone scope hasRun tolerant resume result).next.GoesOn := by
  rcases result with _ | failure
  · right
    unfold forkDone
    split
    · unfold groupDone
      simp only
      split
      -- the unit that closes the group has not asked for a stop
      · exact goesOn_steer (mt Scope.takeRoute_fst_eq_stop.mp (hscope _))
      · trivial
    · obtain ⟨⟨u, hunit⟩, hsignal⟩ := hawaits _ _ rfl
      unfold scatterDone
      rw [hunit]
      exact goesOn_steer hsignal
    all_goals trivial
  · rcases hsurvives : survivesGroup tolerant failure with _ | _
    · exact .inl ⟨failure, rfl, hsurvives⟩
    · right
      unfold forkDone
      split
      · unfold groupDone
        simp only [hsurvives]
        trivial
      · obtain ⟨⟨u, hunit⟩, hsignal⟩ := hawaits _ _ rfl
        unfold scatterDone
        rw [hunit]
        simp only [hsurvives]
        exact goesOn_steer hsignal
      all_goals
        unfold detourForkDone
        simp only [hsurvives]
        trivial

/-- Failures that can be borne are survived wherever the context or the unit allows it. -/
theorem survivesUnit_of_bearable {failure : Failure} (h : failure.Bearable) (tolerant : Bool) :
    survivesUnit tolerant ⟨failure, true⟩ = true := by
  simp [survivesUnit, h.isMissing]

theorem not_tolerant_of_bearable {failure : Failure} (h : failure.Bearable)
    (hends : survivesGroup tolerant failure = false) : tolerant = false := by
  rw [survivesGroup, h, Bool.not_false, Bool.and_true] at hends
  exact hends

end Walk

/-! ## Processes -/

/-- What a walk asks for is on its way. -/
def Intent.OnWay (next : Intent) : Prop := next = .finish ∨ next.GoesOn

/-- A walk is busy with what is on its way, and knows of no failure that cannot be borne. -/
def Activity.Endures : Activity → Prop
  | .poised next => next.OnWay
  | .queued _ _ resume => resume.OnWay
  | .working job _ | .asleep job _ _ | .calling job _ _ _ =>
    job.resume.OnWay ∧ ∀ failure, job.stage = .onError failure → failure.Bearable
  | .inPlace .. => True
  | .forking _ _ _ children _ =>
    ∀ child ∈ children, ∀ failure, child.failure? = some failure → failure.Bearable

/-- All walks of a process are busy with what is on their way, and none of them knows of a failure that
cannot be borne. -/
inductive Process.Endures : Process → Prop where
  | mk {serial : Nat} {walk : Walk} {activity : Activity}
      (failure : ∀ failure, walk.failure = some failure → failure.Bearable)
      (own : activity.Endures) (inside : ∀ q, activity.Runs q → q.Endures) :
    Endures (.mk serial walk activity)

/-- A walk has failed in a group of it, from one engine to the other. -/
def Engine.FailsGroup (w : Nat) (e e' : Engine) : Prop :=
  ∃ task anchor failure, ⟨task, w, .joined anchor (some failure)⟩ ∈
    e'.journal.toList.drop e.journal.size

/-- A walk may come to its end: it is at the end of its plan, or a group of it has failed in a context
that is not tolerant. -/
def Process.MayEnd (p : Process) (run : RunState) (e e' : Engine) : Prop :=
  p.activity = .poised .advance ∧ p.walk.IsAtEnd ∨
    run.context.tolerant = false ∧ e.FailsGroup p.serial e'

section

variable {p q : Process} {run : RunState} {e e' e'' : Engine} {serial : Nat} {failure : Option Failure}

theorem Process.Endures.of_has (h : p.Endures) (hhas : p.Has q) : q.Endures := by
  induction hhas with
  | self => exact h
  | inside hruns _ ih =>
    obtain ⟨-, -, hinside⟩ := h
    exact ih (hinside _ hruns)

theorem Process.Endures.bearable (h : p.Endures) :
    ∀ failure, p.walk.failure = some failure → failure.Bearable := by
  obtain ⟨hbearable, -, -⟩ := h
  exact hbearable

theorem Process.endures_ofPlan (serial : Nat) (plan : Plan) (pooled : Bool) :
    (Process.ofPlan serial plan pooled).Endures :=
  .mk nofun (.inr trivial) fun _ hruns => hruns.elim

theorem Turn.Keeps.endures {t : Turn} {plan : Plan} {pooled : Bool} (h : t.Keeps plan pooled failure)
    (hfailure : ∀ f, failure = some f → f.Bearable) (hnext : t.next.OnWay) (serial : Nat) :
    (Process.mk serial t.walk (.poised t.next)).Endures :=
  .mk (fun f hf => hfailure f (h.failure ▸ hf)) hnext fun _ hruns => hruns.elim

theorem Intent.GoesOn.not_isFinished {next : Intent} (h : next.GoesOn) (serial : Nat) (walk : Walk) :
    (Process.mk serial walk (.poised next)).isFinished = false := by
  cases next with
  | finish => exact h.elim
  | advance | execute | fork => rfl

theorem Failure.bearable_or {known : Option Failure}
    (hknown : ∀ f, known = some f → f.Bearable) (hfailure : ∀ f, failure = some f → f.Bearable) :
    ∀ f, known.or failure = some f → f.Bearable := by
  intro f hf
  rcases Option.or_eq_some_iff.mp hf with hf | ⟨-, hf⟩
  · exact hknown f hf
  · exact hfailure f hf

theorem Child.bearable_joinFailure? {anchor : String} {children : List Child}
    (h : ∀ child ∈ children, ∀ failure, child.failure? = some failure → failure.Bearable) :
    ∀ f, Scene.joinFailure? anchor children = some f → f.Bearable := by
  intro f hf
  obtain ⟨child, hmem, hchild⟩ := List.exists_of_findSome?_eq_some hf
  obtain ⟨failure, hfailure, rfl⟩ := Option.map_eq_some_iff.mp hchild
  exact h child hmem failure hfailure

theorem Scene.bearable_branchFailure? {anchor entry : String} (h : p.Endures) :
    ∀ f, Scene.branchFailure? anchor entry p = some f → f.Bearable := by
  intro f hf
  obtain ⟨failure, hfailure, rfl⟩ := Option.map_eq_some_iff.mp hf
  exact h.bearable failure hfailure

/-- What has been written down is among what will have been written down. -/
theorem Engine.FailsGroup.mono {P : JournalEntry → Prop} {w : Nat} (h : e.FailsGroup w e')
    (hlogs : e'.Logs P e'') : e.FailsGroup w e'' := by
  obtain ⟨task, anchor, failure, hmem⟩ := h
  exact ⟨task, anchor, failure, hlogs.drop_subset _ hmem⟩

theorem Engine.failsGroup_record (e : Engine) (task w : Nat) (anchor : String) (failure : Failure) :
    e.FailsGroup w (e.record task w (.joined anchor (some failure))) :=
  ⟨task, anchor, failure, by simp [Engine.record]⟩

end

/-! ## One step at one walk -/

namespace Scene

variable {s s' : Scene} {task serial : Nat}

/-- A group joins, and the walk goes on, or does not survive the failure of the group. -/
theorem endures_close {resume : Resume} {result : Option Failure} (hearly : s.walk.EarlyFits)
    (hat : s.walk.AwaitsFork resume)
    (hfailure : ∀ f, s.walk.failure = some f → f.Bearable) (hscope : s.run.Unstopped)
    (hresult : ∀ f, result = some f → f.Bearable) (task serial : Nat) (anchor : String)
    (completed : List String) :
    ((s.close task serial anchor resume result completed).process serial).Endures ∧
      (((s.close task serial anchor resume result completed).process serial).isFinished = true →
        s.run.context.tolerant = false ∧
          s.engine.FailsGroup serial (s.close task serial anchor resume result completed).engine) := by
  have hkeeps := Walk.keeps_forkDone hearly hat (s.run.publish result completed).scope
    (s.run.publish result completed).hasRun (s.run.publish result completed).context.tolerant result
  have hpublished : ∀ u, ¬ (s.run.publish result completed).scope.IsStop u := fun u hstop =>
    hscope u ((fades_run_publish s.run result completed).relays.isStop hstop)
  rcases Walk.forkDone_cases hat hpublished (s.run.publish result completed).hasRun
    (s.run.publish result completed).context.tolerant result with ⟨failure, rfl, hends⟩ | hnext
  · have hfinish := Walk.next_forkDone hends s.walk (s.run.publish (some failure) completed).scope
      (s.run.publish (some failure) completed).hasRun resume
    refine ⟨hkeeps.endures (Failure.bearable_or hfailure hresult) (.inl hfinish) serial,
      fun _ => ⟨?_, s.engine.failsGroup_record task serial anchor failure⟩⟩
    rw [← s.run.context_publish (some failure) completed]
    exact Walk.not_tolerant_of_bearable (hresult failure rfl) hends
  · refine ⟨hkeeps.endures (Failure.bearable_or hfailure hresult) (.inr hnext) serial, fun hfinished => ?_⟩
    cases hfinished.symm.trans (hnext.not_isFinished ..)

/-- The calls of a unit are over, and the walk goes on. -/
theorem endures_endUnit {job : Job} (hearly : s.walk.EarlyFits)
    (hat : s.walk.AwaitsUnit job.unitId job.resume)
    (hfailure : ∀ f, s.walk.failure = some f → f.Bearable) (hscope : s.run.Unstopped)
    (hresume : job.resume.OnWay) (task serial : Nat) (result : Option Mishap)
    (hresult : ∀ f, result = some f → f.failure.Bearable ∧ f.tolerant = true) :
    ((s.endUnit task serial job result).process serial).Endures ∧
      ((s.endUnit task serial job result).process serial).isFinished = false := by
  rw [endUnit_eq]
  have hkeeps := Walk.keeps_unitDone hearly hat s.run.scope s.run.hasRun s.run.context.tolerant result
  have hsurvives : ∀ f, result = some f → Walk.survivesUnit s.run.context.tolerant f = true := by
    rintro ⟨failure, tolerated⟩ hf
    obtain ⟨hbearable, htolerated⟩ := hresult _ hf
    obtain rfl : tolerated = true := htolerated
    exact Walk.survivesUnit_of_bearable hbearable _
  have hnext := Walk.goesOn_unitDone hat hresume (hscope job.unitId) hsurvives s.run.hasRun
  refine ⟨hkeeps.endures (Failure.bearable_or hfailure fun f hf => ?_) (.inr hnext) serial,
    hnext.not_isFinished ..⟩
  obtain ⟨mishap, hmishap, rfl⟩ := Option.map_eq_some_iff.mp hf
  exact (hresult mishap hmishap).1

theorem Gains.unstopped (h : Gains Law.unstopped s s') (hscope : s.run.Unstopped) :
    s'.run.Unstopped := by
  intro u hstop
  rcases h.route u _ hstop with hold | ⟨label, heq⟩ | ⟨target, _, _, hvalue, hlaw, -⟩
  · exact hscope u hold
  · exact Label.text_ne_stopValue label (Value.text.inj heq).symm
  · exact hlaw (Value.text.inj hvalue).symm

/-- What a walk does where it stands brings it to its end only if it may end. -/
theorem Steps.endures (h : s.Steps task serial s') (hfits : (s.process serial).Fits)
    (hendures : (s.process serial).Endures) (hscope : s.run.Unstopped)
    (hengine : s.engine.Abides Law.unstopped) (hforgives : s.activity.Forgives s.engine) :
    (s'.process serial).Endures ∧ ((s'.process serial).isFinished = true →
      (s.process serial).MayEnd s.run s.engine s'.engine) := by
  obtain ⟨hearly, hat, -⟩ := hfits
  obtain ⟨hfailure, hown, hinside⟩ := hendures
  have hruns : ∀ q, s'.activity.Runs q → q.Endures := by
    intro q hruns
    rcases h.runs_cases hruns with ⟨hold, -⟩ | ⟨plan, pooled, rfl⟩
    · exact hinside q hold.runs
    · exact Process.endures_ofPlan ..
  cases h with
  | advance h =>
    have hkeeps := Walk.keeps_advance hearly s.run.scope s.run.hasRun
    -- without a request to stop, only the end of the plan ends a walk that goes on
    rcases Walk.advance_cases hearly hscope s.run.hasRun with ⟨hnext, hend⟩ | hnext
    · exact ⟨hkeeps.endures hfailure (.inl hnext) serial, fun _ => .inl ⟨h, hend⟩⟩
    · refine ⟨hkeeps.endures hfailure (.inr hnext) serial, fun hfinished => ?_⟩
      cases hfinished.symm.trans (hnext.not_isFinished ..)
  | missing h hunit =>
    -- an unknown unit is not forgiven
    rw [h, Activity.Forgives, hunit] at hforgives
    cases hforgives
  | queues h =>
    rw [h] at hown
    refine ⟨.mk hfailure ?_ fun _ hruns => hruns.elim, nofun⟩
    rcases hown with hnot | hnext
    · cases hnot
    · exact hnext
  | begins h =>
    rw [h] at hown
    refine ⟨.mk hfailure ⟨?_, nofun⟩ fun _ hruns => hruns.elim, nofun⟩
    rcases hown with hnot | hnext
    · cases hnot
    · exact hnext
  | granted h =>
    rw [h] at hown
    exact ⟨.mk hfailure ⟨hown, nofun⟩ fun _ hruns => hruns.elim, nofun⟩
  | does h | sleeps h | wakes h =>
    rw [h] at hown
    exact ⟨.mk hfailure hown fun _ hruns => hruns.elim, nofun⟩
  | opens h =>
    rw [h] at hown
    exact ⟨.mk hfailure hown hruns, nofun⟩
  | runs h | tidies h =>
    rw [h] at hown
    exact ⟨.mk hfailure ⟨hown.1, nofun⟩ fun _ hruns => hruns.elim, nofun⟩
  | @ends job h =>
    rw [h] at hown hat
    -- listeners do not ask the walk to stop either
    have htold : (s.announce task serial job .after none).run.Unstopped := fun u hstop =>
      hscope u ((fades_announce hengine task serial job .after none).1.relays.isStop hstop)
    obtain ⟨hends, hrunning⟩ := endures_endUnit (s := s.announce task serial job .after none) hearly hat
      hfailure htold hown.1 task serial none nofun
    exact ⟨hends, fun hfinished => by cases hfinished.symm.trans hrunning⟩
  | @fails job behavior cause h =>
    rw [h] at hown
    refine ⟨.mk hfailure ⟨hown.1, ?_⟩ fun _ hruns => hruns.elim, nofun⟩
    rintro failure ⟨⟩
    rfl
  | @gaveUp job behavior failure h hover hstage =>
    rw [h] at hown hat hforgives
    have htold : (s.announce task serial job .error (some failure)).run.Unstopped := fun u hstop =>
      hscope u ((fades_announce hengine task serial job .error (some failure)).1.relays.isStop hstop)
    -- the walk has come to a failure, which is forgiven only where the unit is tolerant
    have htolerant : job.unit.tolerant = true := hforgives (by rw [hstage]; rfl)
    have hresult : ∀ f, some (Mishap.mk failure job.unit.tolerant) = some f →
        f.failure.Bearable ∧ f.tolerant = true := by
      rintro f ⟨⟩
      exact ⟨hown.2 failure hstage, htolerant⟩
    obtain ⟨hends, hrunning⟩ := endures_endUnit (s := s.announce task serial job .error (some failure))
      hearly hat hfailure htold hown.1 task serial _ hresult
    exact ⟨hends, fun hfinished => by cases hfinished.symm.trans hrunning⟩
  | @forksNone anchor resume h =>
    rw [h] at hat
    have hkeeps := Walk.keeps_forkDone hearly hat s.run.scope s.run.hasRun s.run.context.tolerant none
    -- without branches there is no failure that could end the walk
    rcases Walk.forkDone_cases hat hscope s.run.hasRun s.run.context.tolerant none with
      ⟨failure, hnot, -⟩ | hnext
    · cases hnot
    · refine ⟨hkeeps.endures (Failure.bearable_or hfailure nofun) (.inr hnext) serial, fun hfinished => ?_⟩
      cases hfinished.symm.trans (hnext.not_isFinished ..)
  | forksOne => exact ⟨.mk hfailure trivial hruns, nofun⟩
  | forks => exact ⟨.mk hfailure nofun hruns, nofun⟩
  | starts h =>
    rw [h] at hown
    exact ⟨.mk hfailure (List.forall_mem_append.mpr ⟨hown, List.forall_mem_singleton.mpr nofun⟩) hruns,
      nofun⟩
  | refuses h =>
    rw [h] at hown
    -- that a branch has been refused can be borne
    refine ⟨.mk hfailure (List.forall_mem_append.mpr ⟨hown, List.forall_mem_singleton.mpr ?_⟩) hruns, nofun⟩
    rintro failure ⟨⟩
    rfl
  | joins h hover =>
    rw [h] at hown hat
    obtain ⟨hends, hfails⟩ := endures_close hearly hat hfailure hscope
      (Child.bearable_joinFailure? hown) task serial _ _
    exact ⟨hends, fun hfinished => .inr (hfails hfinished)⟩

end Scene

/-! ## Steps in a tree -/

namespace Process

variable {who task : Nat} {p p' q : Process} {run run' : RunState} {e e' : Engine} {site : Site}

/-- One of the branches of a fork has been exchanged for another that endures. -/
theorem Endures.exchange {serial : Nat} {walk : Walk} {anchor : String} {resume : Resume}
    {toStart : List (Branch Plan)} {before after : List Child} {completed : List String}
    {child : Child}
    (h : (Process.mk serial walk
      (.forking anchor resume toStart (before ++ child :: after) completed)).Endures)
    (child' : Child) (completed' : List String)
    (hfailure : ∀ failure, child'.failure? = some failure → failure.Bearable)
    (hbranch : ∀ entry q, child' = .running entry q → q.Endures) :
    (Process.mk serial walk
      (.forking anchor resume toStart (before ++ child' :: after) completed')).Endures := by
  obtain ⟨hown, hchildren, hbelow⟩ := h
  refine .mk hown (fun other hother => ?_) fun q hruns => ?_
  · rcases mem_around.mp hother with rfl | hother
    · exact hfailure
    · exact hchildren other (mem_of_around hother child)
  · rcases Child.running_of_replaced hruns child with ⟨entry, heq⟩ | hold
    · exact hbranch entry q heq
    · exact hbelow q hold

/-- Whatever a task does brings a walk to its end only if the walk may end. -/
theorem Moves.endures (h : p.Moves who site task run e p' run' e') (hfits : p.Fits)
    (hendures : p.Endures) (hscopes : ∀ f ∈ Run.flows ⟨run, p⟩, f.state.Unstopped)
    (hprocess : p.Abides Law.unstopped) (hengine : e.Abides Law.unstopped)
    (hforgives : site.process.activity.Forgives e) :
    p'.Endures ∧ (p'.isFinished = true → p.MayEnd run e e') := by
  -- Only a walk that makes a step itself, or joins a branch in place, can come to its end. In the
  -- other cases it waits on, and the hypothesis says what there is to say about the part that
  -- moves.
  induction h with
  | here h => exact h.endures hfits hendures (hscopes _ List.mem_cons_self) hengine hforgives
  | @called task serial walk job inner _ _ root _ next _ _ _ _ _ ih =>
    have hhas : (mk serial walk (.calling job inner root next)).Has root := .inside rfl (.self _)
    have hroot := ih (hfits.of_has hhas) (hendures.of_has hhas)
      (Run.forall_flows_of_calls hscopes ⟨rfl, rfl⟩) (hprocess.of_has hhas) hengine hforgives
    obtain ⟨hfailure, hown, -⟩ := hendures
    refine ⟨.mk hfailure hown fun q hruns => ?_, nofun⟩
    cases hruns
    exact hroot.1
  | returned =>
    obtain ⟨hfailure, hown, -⟩ := hendures
    exact ⟨.mk hfailure hown fun _ hruns => hruns.elim, nofun⟩
  | @inPlace _ serial walk anchor entry resume branch _ _ _ _ _ _ _ _ ih =>
    have hhas : (mk serial walk (.inPlace anchor entry resume branch)).Has branch :=
      .inside rfl (.self _)
    have hbranch := ih (hfits.of_has hhas) (hendures.of_has hhas)
      (Run.forall_flows_of_branch hscopes rfl id) (hprocess.of_has hhas) hengine
      (by rwa [Site.process_within] at hforgives)
    obtain ⟨hfailure, -, -⟩ := hendures
    refine ⟨.mk hfailure trivial fun q hruns => ?_, nofun⟩
    cases hruns
    exact hbranch.1
  | @inPlaceEnded task serial walk anchor entry resume branch _ _ run' _ e' _ _ h _ hclose ih =>
    have hhas : (mk serial walk (.inPlace anchor entry resume branch)).Has branch :=
      .inside rfl (.self _)
    have hbranch := ih (hfits.of_has hhas) (hendures.of_has hhas)
      (Run.forall_flows_of_branch hscopes rfl id) (hprocess.of_has hhas) hengine
      (by rwa [Site.process_within] at hforgives)
    -- the join decides with the scope that the last step of the branch leaves behind
    have hscope := h.gains (fun _ _ => Scene.Gains.unstopped) (hfits.of_has hhas) (hprocess.of_has hhas)
      hengine (hscopes _ List.mem_cons_self)
    obtain ⟨hearly, hat, -⟩ := hfits
    obtain ⟨hfailure, -, -⟩ := hendures
    obtain ⟨hends, hfails⟩ := Scene.endures_close
      (s := ⟨walk, .inPlace anchor entry resume branch, run', e'⟩) hearly hat hfailure hscope
      (Scene.bearable_branchFailure? hbranch.1) task serial anchor [entry]
    subst hclose
    refine ⟨hends, fun hended => .inr ?_⟩
    obtain ⟨htolerant, task, anchor, failure, hmem⟩ := hfails hended
    exact ⟨h.tolerant.symm.trans htolerant, task, anchor, failure, h.logs.mem_drop _ hmem⟩
  | @child _ serial walk anchor entry resume toStart before after completed branch _ _ _ _ _ _ _ _ _ ih =>
    have hhas : (mk serial walk (.forking anchor resume toStart
        (before ++ .running entry branch :: after) completed)).Has branch :=
      .inside (show Activity.Runs _ branch from ⟨entry, mem_children ..⟩) (.self _)
    have hbranch := ih (hfits.of_has hhas) (hendures.of_has hhas)
      (Run.forall_flows_of_branch hscopes ⟨entry, mem_children ..⟩ id) (hprocess.of_has hhas) hengine
      (by rwa [Site.process_within] at hforgives)
    refine ⟨hendures.exchange (.running entry _) completed nofun fun _ _ heq => ?_, nofun⟩
    cases heq
    exact hbranch.1
  | @childEnded _ serial walk anchor entry resume toStart before after completed _ branch _ _ _ _ _ _ _ _ _
      _ ih =>
    have hhas : (mk serial walk (.forking anchor resume toStart
        (before ++ .running entry branch :: after) completed)).Has branch :=
      .inside (show Activity.Runs _ branch from ⟨entry, mem_children ..⟩) (.self _)
    have hbranch := ih (hfits.of_has hhas) (hendures.of_has hhas)
      (Run.forall_flows_of_branch hscopes ⟨entry, mem_children ..⟩ id) (hprocess.of_has hhas) hengine
      (by rwa [Site.process_within] at hforgives)
    exact ⟨hendures.exchange (.ended entry _) _ hbranch.1.bearable nofun, nofun⟩

end Process

/-! ## What a move leaves alone -/

namespace Scene

variable {s s' : Scene} {task serial : Nat} {q : Process}

theorem Steps.not_calls {inner : RunState} {root : Process} (h : s.Steps task serial s') :
    ¬ s.activity.Calls inner root := by
  intro hcalls
  have hown := h.isOwn
  cases hactivity : s.activity with
  | calling =>
    rw [hactivity] at hown
    exact hown
  | poised | queued | working | asleep | inPlace | forking =>
    rw [hactivity] at hcalls
    exact hcalls

end Scene

namespace Process

variable {who task : Nat} {p p' q : Process} {run run' state : RunState} {e e' : Engine} {site : Site}

/-- A walk has moved, and is still there unless it has come to its end. -/
def GoesTo (who : Nat) (site : Site) (e e' : Engine) (state : RunState) (q p' : Process) : Prop :=
  ∃ inner task q' state' e₁, q.Moves who inner task state e q' state' e₁ ∧
    inner.process = site.process ∧ e₁.Logs (fun _ => True) e' ∧
    (q'.isFinished = false → p'.Has q')

/-- What has moved in a process that is still there is still there. -/
theorem GoesTo.inside {other : Site} {e₁ : Engine} {b : Process}
    (h : GoesTo who site e e₁ state q b) (hsite : other.process = site.process)
    (hlogs : e₁.Logs (fun _ => True) e') (hhas : ∀ r, b.Has r → r.isFinished = false → p'.Has r) :
    GoesTo who other e e' state q p' := by
  obtain ⟨inner, task, q', state', e₂, hmoves, hprocess, hbefore, hin⟩ := h
  exact ⟨inner, task, q', state', e₂, hmoves, hprocess.trans hsite.symm, hbefore.trans hlogs,
    fun hrunning => hhas q' (hin hrunning) hrunning⟩

theorem Moves.goesTo_self (h : p.Moves who site task run e p' run' e') :
    GoesTo who site e e' run p p' :=
  ⟨site, task, p', run', e', h, rfl, .of_eq rfl, fun _ => .self p'⟩

/-- Nothing runs on in a process that has come to its end. -/
theorem not_has_of_isFinished {r : Process} (h : p.isFinished = true) (hhas : p.Has r) :
    r.isFinished ≠ false := by
  rw [has_of_isFinished hhas h, h]
  nofun

/-- A move leaves every walk alone but those that it moves. -/
theorem Moves.goesTo (h : p.Moves who site task run e p' run' e')
    (hq : Run.Has ⟨run, p⟩ state q) (hrunning : q.isFinished = false) :
    p'.Has q ∨ GoesTo who site e e' state q p' := by
  have hself := h.goesTo_self
  -- Going down to the place of the move, a walk is the one above, or it is in the part that moves,
  -- or it is in a branch next to it, which stays as it is.
  induction h with
  | here h =>
    rcases hq.cases with ⟨rfl, rfl⟩ | ⟨branch, hbranch, hq⟩ | ⟨inner, root, hcalls, -⟩
    · exact .inr hself
    · exact .inl (.inside (h.keepsBranches hbranch).1.runs hq.has)
    · exact absurd hcalls h.not_calls
  | called h _ ih =>
    rcases hq.cases with ⟨rfl, rfl⟩ | ⟨_, hbranch, -⟩ | ⟨_, _, ⟨rfl, rfl⟩, hin⟩
    · exact .inr hself
    · exact hbranch.elim
    · rcases ih hin h.goesTo_self with hin | hgoes
      · exact .inl (.inside rfl hin)
      · exact .inr (hgoes.inside rfl (.of_eq rfl) fun r hr _ => .inside rfl hr)
  | returned h hfinished ih =>
    rcases hq.cases with ⟨rfl, rfl⟩ | ⟨_, hbranch, -⟩ | ⟨_, _, ⟨rfl, rfl⟩, hin⟩
    · exact .inr hself
    · exact hbranch.elim
    · rcases ih hin h.goesTo_self with hin | hgoes
      · exact absurd hrunning (not_has_of_isFinished hfinished hin)
      · exact .inr (hgoes.inside rfl (.of_eq rfl) fun r hr hrunning =>
          absurd hrunning (not_has_of_isFinished hfinished hr))
  | inPlace h _ ih =>
    rcases hq.cases with ⟨rfl, rfl⟩ | ⟨_, rfl, hin⟩ | ⟨_, _, hcalls, -⟩
    · exact .inr hself
    · rcases ih hin h.goesTo_self with hin | hgoes
      · exact .inl (.inside rfl hin)
      · exact .inr (hgoes.inside (Site.process_within ..) (.of_eq rfl) fun r hr _ => .inside rfl hr)
    · exact hcalls.elim
  | inPlaceEnded h hfinished hclose ih =>
    rcases hq.cases with ⟨rfl, rfl⟩ | ⟨_, rfl, hin⟩ | ⟨_, _, hcalls, -⟩
    · exact .inr hself
    · rcases ih hin h.goesTo_self with hin | hgoes
      · exact absurd hrunning (not_has_of_isFinished hfinished hin)
      · subst hclose
        exact .inr (hgoes.inside (Site.process_within ..) (.record _ trivial) fun r hr hrunning =>
          absurd hrunning (not_has_of_isFinished hfinished hr))
    · exact hcalls.elim
  | @child _ serial walk anchor entry resume toStart before after completed branch branch' _ _ _ _ _ h _ _
      ih =>
    rcases hq.cases with ⟨rfl, rfl⟩ | ⟨other, hother, hin⟩ | ⟨_, _, hcalls, -⟩
    · exact .inr hself
    · rcases Child.running_of_replaced hother (.running entry branch') with ⟨_, heq⟩ | hnow
      · cases heq
        have hbranch : ∀ r, branch'.Has r → (mk serial walk (.forking anchor resume toStart
            (before ++ .running entry branch' :: after) completed)).Has r := fun r hr =>
          .inside (show Activity.Runs _ branch' from ⟨entry, mem_children ..⟩) hr
        rcases ih hin h.goesTo_self with hin | hgoes
        · exact .inl (hbranch q hin)
        · exact .inr (hgoes.inside (Site.process_within ..) (.of_eq rfl) fun r hr _ => hbranch r hr)
      · exact .inl (.inside (q := other) hnow hin.has)
    · exact hcalls.elim
  | @childEnded _ _ _ _ entry _ _ _ _ _ _ _ branch' _ _ _ _ _ h hfinished _ _ ih =>
    rcases hq.cases with ⟨rfl, rfl⟩ | ⟨other, hother, hin⟩ | ⟨_, _, hcalls, -⟩
    · exact .inr hself
    · rcases Child.running_of_replaced hother (.ended entry branch'.walk.failure) with ⟨_, heq⟩ | hnow
      · cases heq
        rcases ih hin h.goesTo_self with hin | hgoes
        · exact absurd hrunning (not_has_of_isFinished hfinished hin)
        · exact .inr (hgoes.inside (Site.process_within ..) (.of_eq rfl) fun r hr hrunning =>
            absurd hrunning (not_has_of_isFinished hfinished hr))
      · exact .inl (.inside (q := other) hnow hin.has)
    · exact hcalls.elim

/-- A walk at the end of its plan stays where it is. -/
theorem Moves.walk_of_isAtEnd (h : p.Moves who site task run e p' run' e')
    (hactivity : p.activity = .poised .advance) (hend : p.walk.IsAtEnd) : p'.walk = p.walk := by
  rw [h.eq_of_advance hactivity]
  show (p.walk.advance run.scope run.hasRun).walk = p.walk
  unfold Walk.advance
  rw [show p.walk.plan.unitAt? p.walk.position = none from hend]
  rfl

end Process

/-! ## Executors -/

/-- A registry of units that do something when they run, and that let walks go on if they fail. -/
def Registry.tolerating (units : List (String × Behavior)) : Registry :=
  units.foldl (fun r u => r.addUnit u.1 { FlowUnit.doing u.1 u.2 with tolerant := true }) {}

theorem Registry.abides_tolerating {law : Law} {units : List (String × Behavior)}
    (hunits : ∀ u ∈ units, u.2.Abides law) : (Registry.tolerating units).Abides law := by
  have hnone : ({} : Registry).Abides law := fun u unit hunit => by cases hunit
  refine hnone.foldl_addUnit Prod.fst (fun u => { FlowUnit.doing u.1 u.2 with tolerant := true }) ?_
  intro u hu
  obtain ⟨hbefore, hrun, hafter, herror⟩ := FlowUnit.abides_doing (hunits u hu) u.1
  exact ⟨hbefore, hrun, hafter, herror⟩

namespace Executor

variable {x y start last : Executor} {m : Move} {past after : List (Executor × Move)} {i : Nat}
  {run : Run}

/-- The pool is open, and the units that are asked for in a run are there; those that have failed let
walks go on. -/
structure Provides (x : Executor) (i : Nat) : Prop where
  isOpen : x.engine.isClosed = false
  forgives : ∀ run, x.runs[i]? = some run → ∀ f ∈ run.flows, ∀ q ∈ f.root.crew,
    q.activity.Forgives x.engine

/-- A walk is there and has not come to its end. -/
def Walks (x : Executor) (w : Nat) : Prop :=
  ∃ q, x.Has q ∧ q.serial = w ∧ q.isFinished = false

/-- In no run has anybody asked for a stop. -/
theorem unstopped_move (hfits : x.Fits) (habides : x.Abides Law.unstopped)
    (h : ∀ f ∈ x.flows, f.state.Unstopped) (hmove : x.move m = some y) :
    ∀ f ∈ y.flows, f.state.Unstopped := by
  refine gains_move (fun _ _ => Scene.Gains.unstopped) (fun state hstart u hstop => ?_) hfits habides
    hmove h
  rw [hstart, Scope.IsStop, Scope.slots, Table.get?_empty] at hstop
  cases hstop

/-- What holds of every executor of a history in which nobody asks for a stop. -/
structure Calm (x : Executor) : Prop where
  fits : x.Fits
  numbered : x.ledger.Numbered
  abides : x.Abides Law.unstopped
  unstopped : ∀ f ∈ x.flows, f.state.Unstopped
  shutdown : x.shutdown = .notBegun ∨ x.engine.isClosed = true

theorem Calm.move (h : x.Calm) (hmove : x.move m = some y) : y.Calm :=
  ⟨h.fits.move hmove, numbered_move h.fits h.numbered hmove, h.abides.move hmove,
    unstopped_move h.fits h.abides h.unstopped hmove, shutdown_move h.fits h.shutdown hmove⟩

theorem calm_build {config : Config} {registry : Registry} {listeners : Listeners}
    (hbuild : build config registry listeners = .ok x) (hregistry : registry.Abides Law.unstopped)
    (hlisteners : listeners.Abide) : x.Calm := by
  obtain ⟨hfits, hsound⟩ := sound_build hbuild
  refine ⟨hfits, hsound.toNumbered, abides_build hbuild hregistry hlisteners, ?_,
    (History.lasts hbuild .start).2⟩
  rw [flows_build hbuild]
  exact nofun

/-- Branches are given up only after the pool has been closed. -/
theorem Calm.not_givesUpBy (h : x.Calm) (hopen : x.engine.isClosed = false) : ¬ x.GivesUpBy m := by
  rintro ⟨-, deadline, hdraining, -⟩
  rcases h.shutdown with hnot | hclosed
  · cases hdraining.symm.trans hnot
  · cases hopen.symm.trans hclosed

/-- The root of a run that has been started as a plan: its walks endure, and if it has come to its end
in a tolerant context, it is at the end of its plan. -/
structure Endures (x : Executor) (i : Nat) (tolerant : Bool) : Prop where
  context : ∀ run, x.runs[i]? = some run → run.state.context.tolerant = tolerant
  root : ∀ run, x.runs[i]? = some run → run.root.Endures
  atEnd : ∀ run, x.runs[i]? = some run → run.root.isFinished = true → tolerant = true →
    run.root.walk.IsAtEnd

theorem Endures.of_run {tolerant : Bool} (hrun : x.runs[i]? = some run)
    (hcontext : run.state.context.tolerant = tolerant) (hroot : run.root.Endures)
    (hend : run.root.isFinished = true → tolerant = true → run.root.walk.IsAtEnd) :
    x.Endures i tolerant := by
  refine ⟨?_, ?_, ?_⟩
  all_goals
    intro own hown
    obtain rfl : run = own := Option.some.inj (hrun.symm.trans hown)
  · exact hcontext
  · exact hroot
  · exact hend

/-- A task of a run moves where its run provides for what it does. -/
theorem Provides.site (h : x.Provides i) (hrun : x.runs[i]? = some run) {who : Nat} {site : Site}
    (hat : run.root.At who run.root.serial run.state site) : site.process.activity.Forgives x.engine := by
  obtain ⟨f, hf, -, hcrew⟩ := hat.exists_flow
  exact h.forgives run hrun f hf _ hcrew

/-- What becomes of the walks of a run by one move. -/
theorem goes_on_move (hcalm : x.Calm) (hprovides : x.Provides i) {tolerant : Bool}
    (hendures : x.Endures i tolerant) (hrun : x.runs[i]? = some run) (hmove : x.move m = some y) :
    y.Endures i tolerant ∧ ∀ state q, run.Has state q → q.isFinished = false →
      y.Walks q.serial ∨ q.MayEnd state x.engine y.engine := by
  obtain ⟨run', hrun', haffects⟩ := affected hcalm.numbered hmove hrun
  have hmem := List.mem_of_getElem? hrun
  have hmem' := List.mem_of_getElem? hrun'
  cases haffects with
  | others =>
    refine ⟨?_, fun state q hq hrunning => .inl ⟨q, ⟨run, hmem', hq.has⟩, rfl, hrunning⟩⟩
    exact .of_run hrun' (hendures.context run hrun) (hendures.root run hrun)
      (hendures.atEnd run hrun)
  | givesUp hgives => exact absurd hgives (hcalm.not_givesUpBy hprovides.isOpen)
  | @step who site _ hstep hmoves =>
    have hfits := hcalm.fits run hmem
    have habides := hcalm.abides.runs run hmem
    have hforgives := hprovides.site hrun hmoves.at.1
    have hscopes : ∀ f ∈ run.flows, f.state.Unstopped := fun f hf =>
      hcalm.unstopped f (mem_flows.mpr ⟨run, hmem, hf⟩)
    -- the walk of the run itself endures this move
    have hroot := hmoves.endures hfits (hendures.root run hrun) hscopes habides hcalm.abides.engine
      hforgives
    have hcontext := hendures.context run hrun
    refine ⟨.of_run hrun' (hmoves.tolerant.trans hcontext) hroot.1 fun hfinished htolerant => ?_,
      fun state q hq hrunning => ?_⟩
    · rcases hroot.2 hfinished with ⟨hactivity, hend⟩ | ⟨hnot, -⟩
      · rw [hmoves.walk_of_isAtEnd hactivity hend]
        exact hend
      · cases (hcontext.symm.trans hnot).symm.trans htolerant
    -- another walk of it is still there, or has moved itself; then it may have come to its end
    · rcases hmoves.goesTo hq hrunning with hin | ⟨inner, task, q', state', e₁, hq', hsite, hlogs, hin⟩
      · exact .inl ⟨q, ⟨run', hmem', hin⟩, rfl, hrunning⟩
      · rcases hended : q'.isFinished with _ | _
        · exact .inl ⟨q', ⟨run', hmem', hin hended⟩, hq'.serial, hended⟩
        · right
          -- the runs below the walk are runs of the run
          have hscopes' : ∀ f ∈ Run.flows ⟨state, q⟩, f.state.Unstopped := fun f hf => by
            obtain ⟨r, hr, heq⟩ := hq.exists_flow hf
            exact heq ▸ hscopes r hr
          have hmay := (hq'.endures (hfits.of_has hq.has) ((hendures.root run hrun).of_has hq.has) hscopes'
            (habides.of_has hq.has) hcalm.abides.engine (hsite ▸ hforgives)).2 hended
          exact hmay.imp_right fun ⟨hnot, hfails⟩ => ⟨hnot, hfails.mono hlogs⟩

/-- As long as a run wants for nothing, its walks endure. -/
theorem History.endures {tolerant : Bool} (h : start.History past last) (hcalm : start.Calm)
    (hrun : start.runs[i]? = some run) (hendures : start.Endures i tolerant)
    (hprovides : ∀ z m, (z, m) ∈ past → z.Provides i) :
    last.Calm ∧ last.Endures i tolerant := by
  induction h with
  | start => exact ⟨hcalm, hendures⟩
  | @move past x y m h hmove ih =>
    obtain ⟨hx, hxendures⟩ := ih fun z m hmem => hprovides z m (List.mem_append_left _ hmem)
    obtain ⟨run', hrun'⟩ := h.exists_run hcalm.fits hcalm.numbered hrun
    exact ⟨hx.move hmove, (goes_on_move hx (hprovides x m (by simp)) hxendures hrun' hmove).1⟩

/-- Walks go on after failures, in every schedule: of a run of a plan, in whatever context and whatever
else goes on meanwhile, and of the flows that its units run. As long as the units that are asked for
are there, those that fail let walks go on, nobody asks for a stop and the pool stays open, a walk
comes to its end by a move only at the end of its plan, or because a group of it has failed in a
context that is not tolerant. In a tolerant context, the walk of the run gets to the end of the
plan. -/
theorem History.goes_on {config : Config} {registry : Registry} {listeners : Listeners} {plan : Plan}
    {context : Context} (hbuild : build config registry listeners = .ok start)
    (hregistry : registry.Abides Law.unstopped) (hlisteners : listeners.Abide)
    (hbefore : start.History past x) (hlaunch : x.launch (.plan plan) context = (none, y))
    (h : y.History after last) (hprovides : ∀ z m, (z, m) ∈ after → z.Provides x.runs.length) :
    (∀ z m z' run, (z, m) ∈ after → z.move m = some z' → z.runs[x.runs.length]? = some run →
      ∀ f ∈ run.flows, ∀ q ∈ f.root.crew, q.isFinished = false →
        z'.Walks q.serial ∨ q.MayEnd f.state z.engine z'.engine) ∧
      ∀ run, last.runs[x.runs.length]? = some run → run.root.isFinished = true →
        context.tolerant = true → run.root.walk.IsAtEnd := by
  obtain ⟨scopeId, serial, hrun⟩ := run_launch_plan hlaunch
  have hcalm : y.Calm := by
    have hx : x.Calm := hbefore.invariant (calm_build hbuild hregistry hlisteners)
      fun _ _ _ _ hx hmove => hx.move hmove
    exact hx.move (show x.move (.launch (.plan plan) context) = some y from
      congrArg some (congrArg Prod.snd hlaunch))
  have hendures : y.Endures x.runs.length context.tolerant :=
    .of_run hrun rfl (Process.endures_ofPlan ..) nofun
  refine ⟨fun z m z' run hmem hmove hown f hf q hq hrunning => ?_, ?_⟩
  -- up to the move in question, the run has wanted for nothing
  · obtain ⟨before, rest, next, rfl, hz, -, -⟩ := h.split hmem
    have hearlier : ∀ z m, (z, m) ∈ before → z.Provides x.runs.length := fun z m hin =>
      hprovides z m (List.mem_append_left _ hin)
    obtain ⟨hzcalm, hzendures⟩ := hz.endures hcalm hrun hendures hearlier
    exact (goes_on_move hzcalm (hprovides z m hmem) hzendures hown hmove).2 f.state q
      ⟨f, hf, rfl, hq⟩ hrunning
  · exact (h.endures hcalm hrun hendures hprovides).2.atEnd

/-- A unit fails in a branch of a group. In a tolerant context the unit behind the group runs. -/
theorem History.goes_on_tolerant : ∃ (plan : Plan) (x y last : Executor)
    (after : List (Executor × Move)) (run : Run),
    Node.compile? (.sequence [.parallel [.unit "x", .unit "b"], .unit "c"]) = some plan ∧
      build {} (.tolerating [("x", .fail ⟨"no", []⟩), ("b", .done), ("c", .done)]) {} = .ok x ∧
      x.launch (.plan plan) { tolerant := true } = (none, y) ∧ y.History after last ∧
      (∀ z m, (z, m) ∈ after → z.Provides 0) ∧ last.runs[0]? = some run ∧
      run.root.isFinished = true ∧ run.state.unitNames = ["x", "b", "c"] ∧
      run.root.walk.IsAtEnd := by
  let units : List (String × Behavior) := [("x", .fail ⟨"no", []⟩), ("b", .done), ("c", .done)]
  let node : Node := .sequence [.parallel [.unit "x", .unit "b"], .unit "c"]
  let plan := node.compile?.getD {}
  let x : Executor := { engine := .start {} (.tolerating units) {} }
  let y := (x.launch (.plan plan) { tolerant := true }).2
  let moves : List Move := List.replicate 4 (.step 0) ++ List.replicate 7 (.step 1) ++
    List.replicate 7 (.step 2) ++ List.replicate 7 (.step 0)
  let after := (y.follow moves).1
  let last := (y.follow moves).2
  have hplan : node.compile? = some plan := rfl
  have hbuild : build {} (.tolerating units) {} = .ok x := rfl
  have hlaunch : x.launch (.plan plan) { tolerant := true } = (none, y) :=
    Prod.ext (launch_plan plan _ rfl) rfl
  have hhistory : y.History after last := history_follow y moves
  obtain ⟨hall, hlast⟩ : (∀ e ∈ after, e.1.engine.isClosed = false ∧ ∀ run ∈ e.1.runs, ∀ f ∈ run.flows,
        ∀ q ∈ f.root.crew, q.activity.Forgives e.1.engine) ∧
      last.runs[0]?.map (fun run => (run.root.isFinished, run.state.unitNames)) =
        some (true, ["x", "b", "c"]) := by
    decide +kernel
  obtain ⟨run, hrun, heq⟩ := Option.map_eq_some_iff.mp hlast
  obtain ⟨hfinished, hnames⟩ := Prod.mk.inj heq
  have hprovides : ∀ z m, (z, m) ∈ after → z.Provides x.runs.length := fun z m hmem =>
    ⟨(hall _ hmem).1, fun run hrun => (hall _ hmem).2 run (List.mem_of_getElem? hrun)⟩
  have hregistry : (Registry.tolerating units).Abides Law.unstopped :=
    Registry.abides_tolerating (by simpa [units] using ⟨.fail _, .done⟩)
  clear_value after last
  have h := History.goes_on hbuild hregistry nofun .start hlaunch hhistory hprovides
  exact ⟨plan, x, y, last, after, run, hplan, hbuild, hlaunch, hhistory, hprovides, hrun, hfinished,
    hnames, h.2 run hrun hfinished rfl⟩

/-- In a context that is not tolerant the same walk ends behind the group, although the unit that has
failed lets walks go on. -/
theorem ends_early : ∃ (plan : Plan) (x y last : Executor) (after : List (Executor × Move)) (run : Run),
    Expression.parse "(x, b) -> c" = .ok (.sequence [.parallel [.unit "x", .unit "b"], .unit "c"]) ∧
      Node.compile? (.sequence [.parallel [.unit "x", .unit "b"], .unit "c"]) = some plan ∧
      build {} (.tolerating [("x", .fail ⟨"no", []⟩), ("b", .done), ("c", .done)]) {} = .ok x ∧
      x.launch (.plan plan) {} = (none, y) ∧ y.History after last ∧
      (∀ z m, (z, m) ∈ after → z.Provides 0) ∧ last.runs[0]? = some run ∧
      run.root.isFinished = true ∧ run.state.unitNames = ["x", "b"] ∧
      ¬ run.root.walk.IsAtEnd := by
  let units : List (String × Behavior) := [("x", .fail ⟨"no", []⟩), ("b", .done), ("c", .done)]
  let node : Node := .sequence [.parallel [.unit "x", .unit "b"], .unit "c"]
  let plan := node.compile?.getD {}
  let x : Executor := { engine := .start {} (.tolerating units) {} }
  let y := (x.launch (.plan plan) {}).2
  let moves : List Move := List.replicate 4 (.step 0) ++ List.replicate 7 (.step 1) ++
    List.replicate 7 (.step 2) ++ List.replicate 7 (.step 0)
  let after := (y.follow moves).1
  let last := (y.follow moves).2
  have hparse : Expression.parse "(x, b) -> c" = .ok node := by decide +kernel
  have hlaunch : x.launch (.plan plan) {} = (none, y) := Prod.ext (launch_plan plan _ rfl) rfl
  obtain ⟨hall, hlast⟩ : (∀ e ∈ after, e.1.engine.isClosed = false ∧ ∀ run ∈ e.1.runs, ∀ f ∈ run.flows,
        ∀ q ∈ f.root.crew, q.activity.Forgives e.1.engine) ∧
      last.runs[0]?.map (fun run => (run.root.isFinished, run.state.unitNames,
          run.root.walk.plan.unitAt? run.root.walk.position)) =
        some (true, ["x", "b"], some "x") := by
    decide +kernel
  obtain ⟨run, hrun, heq⟩ := Option.map_eq_some_iff.mp hlast
  obtain ⟨hfinished, hnames, hunit⟩ : run.root.isFinished = true ∧ run.state.unitNames = ["x", "b"] ∧
    run.root.walk.plan.unitAt? run.root.walk.position = some "x" := by simpa using heq
  refine ⟨plan, x, y, last, after, run, hparse, rfl, rfl, hlaunch, history_follow y moves, ?_, hrun,
    hfinished, hnames, fun hend => ?_⟩
  · exact fun z m hmem =>
      ⟨(hall _ hmem).1, fun run hrun => (hall _ hmem).2 run (List.mem_of_getElem? hrun)⟩
  · cases hunit.symm.trans hend

end Executor

end Workflow
