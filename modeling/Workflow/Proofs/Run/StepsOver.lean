import Workflow.Proofs.Run.Alternatives
import Workflow.Proofs.Run.Labels

/-!
# Units of forks are stepped over

A unit may choose units that its walk forks behind it. Some of them may stand further on in the plan
of the walk. When the fork has joined, the walk keeps in mind which of them have run, and steps over
them later: from then on it executes none of them any more, neither where they stand nor out of order
(`Executor.History.steps_over`).

`Intent.StepsOver w i u` says that a walk `w` with this intent is past the unit `u` at position `i`,
or keeps in mind that it has run. Each decision keeps that (`Walk.stepsOver_unitDone`,
`Walk.stepsOver_forkDone`, `Walk.stepsOver_advance`), as long as `u` stands nowhere else in the plan
and counts as executed, so that nobody is routed to it. The one decision by which it comes about is
that behind the fork (`Walk.stepsOver_scatterDone`).

A walk keeps in mind only what was forked at its own position. When a unit forks that the walk was
routed to and will not come to, its fork is run at once, and nothing is kept in mind of it: what
follows in the plan is executed again (`Executor.runs_again`). Nor is it when the fork fails and the
walk goes on, and the branches of a group do not know what the walk around them has in mind.
-/

namespace Workflow

/-! ## Being past a unit -/

/-- A unit stands at a position of a plan, and nowhere else in it. -/
structure Plan.Declares (p : Plan) (i : Nat) (u : String) : Prop where
  nodup : p.sequence.Nodup
  unit : p.unitAt? i = some u
  /-- No group of the plan is empty. -/
  groups : ∀ start group, p.groupAt? start = some group → start < group.span.stop

theorem Plan.Declares.eq {p : Plan} {i j : Nat} {u : String} (h : p.Declares i u)
    (hunit : p.unitAt? j = some u) : j = i := by
  obtain ⟨hj, hgetj⟩ := List.getElem?_eq_some_iff.mp hunit
  obtain ⟨hi, hgeti⟩ := List.getElem?_eq_some_iff.mp h.unit
  exact (List.Nodup.getElem_inj_iff h.nodup).mp (hgetj.trans hgeti.symm)

/-- The walk keeps in mind that a unit has run. -/
def Walk.Minds (w : Walk) (u : String) : Prop := (w.early.get? u).isSome = true

/-- The walk has come to a position, or keeps in mind that the unit there has run. -/
def Walk.IsPast (w : Walk) (i : Nat) (u : String) : Prop := i ≤ w.position ∨ w.Minds u

/-- The group that a fork replaces ends behind the position of the walk. -/
def Walk.IsBefore (w : Walk) (resume : Resume) : Prop := ∀ stop, resume = .group stop → w.position < stop

/-- A walk with this intent steps over the unit at a position. -/
def Intent.StepsOver (w : Walk) (i : Nat) (u : String) : Intent → Prop
  | .advance => i < w.position ∨ w.Minds u
  | .execute v _ => v ≠ u ∧ w.IsPast i u
  | .fork _ _ resume => w.IsPast i u ∧ w.IsBefore resume
  | .finish => True

/-- A walk that is busy with this steps over the unit at a position. -/
def Activity.StepsOver (w : Walk) (i : Nat) (u : String) : Activity → Prop
  | .poised next => next.StepsOver w i u
  | .queued v _ _ => v ≠ u ∧ w.IsPast i u
  | .working job _ | .asleep job _ _ | .calling job _ _ _ => job.unitId ≠ u ∧ w.IsPast i u
  | .inPlace _ _ resume _ | .forking _ resume _ _ _ => w.IsPast i u ∧ w.IsBefore resume

theorem Activity.StepsOver.unit?_ne {w : Walk} {i : Nat} {u : String} {activity : Activity}
    (h : activity.StepsOver w i u) : activity.unit? ≠ some u := by
  unfold StepsOver at h
  rintro heq
  split at h
  · next next =>
    cases next with
    | execute v _ =>
      cases heq
      exact h.1 rfl
    | advance | fork | finish => cases heq
  all_goals
    cases heq
    try exact h.1 rfl

/-! ## Decisions -/

namespace Walk

variable {w : Walk} {i : Nat} {u v : String} {scope : Scope} {hasRun : String → Bool} {tolerant : Bool}
  {resume : Resume}

theorem stepsOver_proceed (h : w.IsPast i u) (scope : Scope) :
    (w.proceed scope).next.StepsOver (w.proceed scope).walk i u :=
  h.imp_left Nat.lt_succ_of_le

theorem stepsOver_detour (h : w.IsPast i u) (hran : hasRun u = true) (scope : Scope) (target : String) :
    (w.detour scope hasRun target).next.StepsOver (w.detour scope hasRun target).walk i u := by
  unfold detour
  split
  · exact stepsOver_proceed h scope
  · next hnot => exact ⟨fun heq => hnot (heq ▸ hran), h⟩

theorem stepsOver_steer (h : w.IsPast i u) (hran : hasRun u = true) (scope : Scope) (v : String)
    (signal : Option String) :
    (w.steer scope hasRun v signal).next.StepsOver (w.steer scope hasRun v signal).walk i u := by
  unfold steer
  split
  · exact stepsOver_proceed h scope
  · exact stepsOver_proceed (w := w.chooseArm _ false) h scope
  · split
    · trivial
    · split
      · split
        · exact stepsOver_proceed (w := w.chooseArm _ _) h scope
        · exact stepsOver_detour (w := w.skipArms _) h hran scope _
      · split
        · exact stepsOver_proceed h _
        · exact stepsOver_detour h hran scope _

theorem stepsOver_obey (hdeclares : w.plan.Declares i u) (h : w.IsPast i u) (hran : hasRun u = true)
    (scope : Scope) (v : String) (signal : Option String) (fork : Option (List String)) :
    (w.obey scope hasRun v signal fork).next.StepsOver (w.obey scope hasRun v signal fork).walk i u := by
  -- the group that follows ends behind the position
  have hgroup : ∀ group, w.plan.groupAfter? w.position = some group →
      w.IsBefore (.group group.span.stop) := by
    rintro group hgroup _ ⟨⟩
    unfold Plan.groupAfter? at hgroup
    have hlt := hdeclares.groups _ _ (Option.filter_eq_some_iff.mp hgroup).1
    omega
  unfold obey
  split
  · trivial
  · split
    · next hafter => exact ⟨h, hgroup _ hafter⟩
    · next hafter => exact ⟨h, hgroup _ hafter⟩
    · exact ⟨h, nofun⟩
    · exact stepsOver_steer h hran scope v signal

theorem stepsOver_fallThrough (h : w.IsPast i u) (scope : Scope) :
    (w.fallThrough.proceed scope).next.StepsOver (w.fallThrough.proceed scope).walk i u := by
  unfold fallThrough
  split
  · exact stepsOver_proceed (w := w.chooseArm _ false) h scope
  · exact stepsOver_proceed h scope

/-- A walk that comes to the unit drops it from its mind, and goes on behind it. -/
theorem stepsOver_advance (hdeclares : w.plan.Declares i u) (h : i < w.position ∨ w.Minds u)
    (hran : hasRun u = true) (scope : Scope) :
    (w.advance scope hasRun).next.StepsOver (w.advance scope hasRun).walk i u := by
  have hpast : w.IsPast i u := h.imp_left Nat.le_of_lt
  unfold advance
  split
  · trivial
  · next v hunit =>
    have hhere : v = u → w.position = i := fun heq => hdeclares.eq (heq ▸ hunit)
    split
    · next stop _ hskip =>
      obtain ⟨_, -, -, hlt, rfl⟩ := exists_of_skipEnd? hskip
      exact h.imp_left fun hi => Nat.lt_trans hi hlt
    · next group _ hgroup =>
      have hlt := hdeclares.groups _ _ hgroup
      split
      · exact h.imp_left fun hi => Nat.lt_trans hi hlt
      · refine ⟨hpast, ?_⟩
        rintro _ ⟨⟩
        exact hlt
    · have herased : IsPast { w with early := w.early.erase v } i u := by
        by_cases heq : v = u
        · exact .inl (Nat.le_of_eq (hhere heq).symm)
        · refine hpast.imp_right fun hmind => ?_
          unfold Minds
          rwa [Table.get?_erase, if_neg heq]
      simp only
      split
      · exact stepsOver_fallThrough herased scope
      · exact stepsOver_obey (w := { w with early := w.early.erase v }) hdeclares herased hran _ v _ none
      · exact stepsOver_obey (w := { w with early := w.early.erase v }) hdeclares herased hran scope v _ _
    · next hearly =>
      refine ⟨?_, hpast⟩
      rintro rfl
      -- here the walk would have to keep its unit in mind
      rcases h with hlt | hmind
      · exact absurd (hhere rfl) (Nat.ne_of_gt hlt)
      · unfold Minds at hmind
        rw [hearly] at hmind
        cases hmind

theorem minds_insert (w : Walk) (u : String) (early : Early) :
    Minds { w with early := w.early.insert u early } u := by
  unfold Minds
  rw [Table.get?_insert_self]
  rfl

theorem Minds.insert (h : w.Minds u) (v : String) (early : Early) :
    Minds { w with early := w.early.insert v early } u := by
  by_cases heq : v = u
  · exact heq ▸ minds_insert w v early
  · unfold Minds at h ⊢
    rwa [Table.get?_insert_of_ne _ _ heq]

theorem IsPast.insert (h : w.IsPast i u) (v : String) (early : Early) :
    IsPast { w with early := w.early.insert v early } i u :=
  h.imp_right fun hminds => hminds.insert v early

theorem stepsOver_detourDone (h : w.IsPast i u) (scope : Scope) (tolerant : Bool) (v : String)
    (reached : Bool) (result : Option Mishap) :
    let t := w.detourDone scope tolerant v reached result
    t.next.StepsOver t.walk i u := by
  unfold detourDone
  rcases result with _ | f
  · simp only
    split
    · trivial
    · split
      · exact stepsOver_proceed (h.insert v _) _
      · exact ⟨h, nofun⟩
      · exact stepsOver_proceed h _
  · have hadded : (w.addFailure f.failure).IsPast i u := h
    simp only
    split
    · split
      · exact stepsOver_proceed (hadded.insert v _) _
      · exact stepsOver_proceed hadded _
    · trivial

theorem stepsOver_unitDone (hdeclares : w.plan.Declares i u) (h : w.IsPast i u) (hran : hasRun u = true)
    (scope : Scope) (tolerant : Bool) (v : String) (resume : Resume) (result : Option Mishap) :
    let t := w.unitDone scope hasRun tolerant v resume result
    t.next.StepsOver t.walk i u := by
  unfold unitDone
  split
  · unfold ownUnitDone
    split
    · trivial
    · split
      · next f =>
        simp only
        split
        · exact stepsOver_fallThrough (w := w.addFailure f.failure) h _
        · trivial
      · exact stepsOver_obey hdeclares h hran _ _ _ _
  · exact stepsOver_detourDone h ..
  all_goals
    unfold aloneDone
    split
    · trivial
    · simp only
      split <;> trivial

theorem stepsOver_groupDone {stop : Nat} (h : w.IsPast i u) (hbefore : w.position < stop)
    (hran : hasRun u = true) (scope : Scope) (tolerant : Bool) (result : Option Failure) :
    let t := w.groupDone scope hasRun tolerant stop result
    t.next.StepsOver t.walk i u := by
  have hbehind : i < stop ∨ w.Minds u := h.imp_left fun hi => Nat.lt_of_le_of_lt hi hbefore
  unfold groupDone
  split
  · simp only
    split
    · exact hbehind
    · trivial
  · split
    · have hmoved : IsPast { w with position := stop - 1 } i u := hbehind.imp_left Nat.le_sub_one_of_lt
      exact stepsOver_steer hmoved hran _ _ _
    · exact hbehind

/-- What a walk keeps in mind, it keeps in mind when units of a fork are added. -/
theorem Minds.insert_forked (h : w.Minds u) (entries : List String) : Minds { w with
    early := entries.foldl (fun done entry => done.insert entry .forked) w.early } u := by
  induction entries generalizing w with
  | nil => exact h
  | cons entry rest ih =>
    exact ih (w := { w with early := w.early.insert entry .forked }) (h.insert entry .forked)

theorem IsPast.insert_forked (h : w.IsPast i u) (entries : List String) : IsPast { w with
    early := entries.foldl (fun done entry => done.insert entry .forked) w.early } i u :=
  h.imp_right fun hmind => hmind.insert_forked entries

theorem minds_insert_forked {entries : List String} (h : u ∈ entries) (w : Walk) : Minds { w with
    early := entries.foldl (fun done entry => done.insert entry .forked) w.early } u := by
  induction entries generalizing w with
  | nil => cases h
  | cons entry rest ih =>
    rcases List.mem_cons.mp h with rfl | h
    · exact Minds.insert_forked (w := { w with early := w.early.insert u .forked })
        (minds_insert w u .forked) rest
    · exact ih h { w with early := w.early.insert entry .forked }

theorem stepsOver_forkDone (h : w.IsPast i u) (hbefore : w.IsBefore resume) (hran : hasRun u = true)
    (scope : Scope) (tolerant : Bool) (result : Option Failure) :
    let t := w.forkDone scope hasRun tolerant resume result
    t.next.StepsOver t.walk i u := by
  unfold forkDone
  split
  · exact stepsOver_groupDone h (hbefore _ rfl) hran scope tolerant result
  · next entries signal =>
    have hpast := h.insert_forked (entries.filter (w.plan.sequence.drop (w.position + 1)).contains)
    unfold scatterDone
    split
    · trivial
    · split
      · next failure =>
        simp only
        split
        · exact stepsOver_steer (w := w.addFailure failure) h hran scope _ _
        · trivial
      · exact stepsOver_steer hpast hran scope _ _
  all_goals
    unfold detourForkDone
    split
    · next failure =>
      simp only
      split
      · exact stepsOver_proceed (w := w.addFailure failure) h scope
      · trivial
    · exact stepsOver_proceed h scope

/-- When a fork has joined that the unit at the position chose, the walk steps over the units of the
fork that stand further on. -/
theorem stepsOver_scatterDone {entries : List String} (hunit : w.plan.unitAt? i = some u)
    (hlater : w.position < i) (hmem : u ∈ entries) (hran : hasRun u = true) (scope : Scope)
    (tolerant : Bool) (signal : Option String) :
    let t := w.scatterDone scope hasRun tolerant entries signal none
    t.next.StepsOver t.walk i u := by
  have hin : u ∈ w.plan.sequence.drop (w.position + 1) := by
    refine List.mem_of_getElem? (i := i - (w.position + 1)) ?_
    rw [List.getElem?_drop, Nat.add_sub_cancel' hlater]
    exact hunit
  unfold scatterDone
  split
  · trivial
  · refine stepsOver_steer (.inr (minds_insert_forked ?_ w)) hran scope _ _
    exact List.mem_filter.mpr ⟨hmem, List.contains_iff_mem.mpr hin⟩

end Walk

/-! ## One step at one walk -/

/-- A walk goes on behind a fork of its own that has joined with this result. -/
def Process.Joins (p : Process) (run : RunState) (result : Option Failure) (q : Process) : Prop :=
  ∃ resume scope tolerant, p.activity.fork? = some resume ∧
    q.walk = (p.walk.forkDone scope run.hasRun tolerant resume result).walk ∧
    q.activity = .poised (p.walk.forkDone scope run.hasRun tolerant resume result).next

/-- What is written down about a walk is so: a unit that is started is the one that the walk asks for,
and behind a fork that has joined the walk has gone on, if it is still there. -/
def Process.Says (p : Process) (after : RunState → Process → Prop) : Occurrence → Prop
  | .unitStarted u => p.activity.unit? = some u
  | .joined _ result => ∀ state q, after state q → q.serial = p.serial → p.Joins state result q
  | .remark _ | .unitEnded .. | .forked .. | .branchStarted .. => True

theorem Process.Says.mono {p : Process} {after after' : RunState → Process → Prop} {o : Occurrence}
    (h : p.Says after o) (himp : ∀ state q, after' state q → q.serial = p.serial → after state q) :
    p.Says after' o := by
  unfold Says at h ⊢
  split
  · exact h
  · exact fun state q hq hserial => h state q (himp state q hq hserial) hserial
  all_goals trivial

theorem RunState.executed_publish (r : RunState) (result : Option Failure) (completed : List String) :
    (r.publish result completed).executed = r.executed := by
  unfold publish
  split <;> rfl

theorem RunState.ran_publish {r : RunState} {u : String} (result : Option Failure)
    (completed : List String) : (r.publish result completed).Ran u ↔ r.Ran u := by
  unfold Ran hasRun
  rw [executed_publish]

namespace Scene

variable {s s' : Scene} {task serial i : Nat} {u : String}

/-- Nothing counts as executed by a step but the unit whose first call is over by it. -/
theorem Steps.executed (h : s.Steps task serial s') : s'.run.executed = s.run.executed ∨
    ∃ job, s.activity = .working job .done ∧ job.stage = .before ∧
      s'.run.executed = s.run.executed ++ [(job.unitId, job.unit.name)] := by
  cases h with
  | @runs job h hstage => exact .inr ⟨job, h, hstage, rfl⟩
  | does _ hdoes => cases hdoes <;> exact .inl rfl
  | ends | gaveUp =>
    rw [endUnit_eq]
    exact .inl rfl
  | joins => exact .inl (RunState.executed_publish ..)
  | advance | missing | queues | begins | granted | sleeps | wakes | opens | tidies | fails | forksNone
  | forksOne | forks | starts | refuses => exact .inl rfl

/-- What counts as executed goes on to count. -/
theorem Steps.ran (h : s.Steps task serial s') (hran : s.run.Ran u) : s'.run.Ran u := by
  unfold RunState.Ran RunState.hasRun at hran ⊢
  rcases h.executed with heq | ⟨_, -, -, heq⟩
  · rwa [heq]
  · rw [heq, List.any_append, hran, Bool.true_or]

theorem stepsOver_close {resume : Resume} (hpast : s.walk.IsPast i u) (hbefore : s.walk.IsBefore resume)
    (hran : s.run.Ran u) (task serial : Nat) (anchor : String) (result : Option Failure)
    (completed : List String) :
    let t := s.close task serial anchor resume result completed
    t.activity.StepsOver t.walk i u :=
  Walk.stepsOver_forkDone hpast hbefore ((RunState.ran_publish result completed).mpr hran) ..

/-- A walk that steps over a unit goes on doing so, whatever it does where it stands. -/
theorem Steps.stepsOver (h : s.Steps task serial s') (hdeclares : s.walk.plan.Declares i u)
    (hran : s.run.Ran u) (hover : s.activity.StepsOver s.walk i u) :
    s'.activity.StepsOver s'.walk i u := by
  cases h with
  | advance h =>
    rw [h] at hover
    exact Walk.stepsOver_advance hdeclares hover hran _
  | missing h =>
    rw [h] at hover
    exact Walk.stepsOver_unitDone hdeclares hover.2 hran ..
  -- the unit goes on, and stays the same unit
  | queues h | begins h | granted h | does h | sleeps h | wakes h | opens h | runs h | tidies h
  | fails h =>
    rw [h] at hover
    exact hover
  | ends h | gaveUp h =>
    rw [h] at hover
    rw [endUnit_eq]
    exact Walk.stepsOver_unitDone hdeclares hover.2 hran ..
  | forksNone h =>
    rw [h] at hover
    exact Walk.stepsOver_forkDone hover.1 hover.2 hran ..
  | forksOne h | forks h | starts h | refuses h =>
    rw [h] at hover
    exact hover
  | joins h =>
    rw [h] at hover
    exact stepsOver_close hover.1 hover.2 hran ..

theorem says_joined {resume : Resume} (hfork : s.activity.fork? = some resume) (task serial : Nat)
    (anchor : String) (result : Option Failure) :
    (s.process serial).Says (Run.Has ⟨(s.joined task serial anchor resume result).run,
      (s.joined task serial anchor resume result).process serial⟩) (.joined anchor result) := by
  intro state q hq _
  obtain ⟨rfl, rfl⟩ := hq.alone fun _ hruns => hruns
  exact ⟨resume, _, _, hfork, rfl, rfl⟩

theorem Writes.says {o : Occurrence} (h : s.Writes task serial s' o) :
    (s.process serial).Says (Run.Has ⟨s'.run, s'.process serial⟩) o := by
  obtain ⟨walk, activity, run, engine⟩ := s
  cases h with
  | begins h | granted h =>
    obtain rfl : activity = _ := h
    rfl
  | joinsNone h heq =>
    obtain rfl : activity = _ := h
    subst heq
    exact says_joined (s := ⟨walk, .poised _, run, engine⟩) rfl task serial _ none
  | joins h _ heq =>
    obtain rfl : activity = _ := h
    subst heq
    exact says_joined (s := ⟨walk, .forking .., run.publish .., engine⟩) rfl task serial _ _
  | remark | missing | ends | gaveUp | forked | branchStarted => trivial

/-- What a walk writes down about itself is so. -/
theorem Steps.logs_says (h : s.Steps task serial s') : s.engine.Logs (fun entry =>
    entry.walk = serial ∧
      (s.process serial).Says (Run.Has ⟨s'.run, s'.process serial⟩) entry.occurrence) s'.engine :=
  h.logs_writes.mono fun _ ⟨hwalk, hwrites⟩ => ⟨hwalk, hwrites.says⟩

end Scene

/-! ## Steps in a tree -/

namespace Process

variable {who task i w : Nat} {u : String} {p p' : Process} {run run' : RunState} {e e' : Engine}
  {site : Site}

theorem Moves.ran (h : p.Moves who site task run e p' run' e') (hran : run.Ran u) : run'.Ran u := by
  induction h with
  | here h => exact h.ran hran
  | called | returned => exact hran
  | inPlace _ _ ih | child _ _ _ ih | childEnded _ _ _ _ ih => exact ih hran
  | inPlaceEnded _ _ hclose ih =>
    subst hclose
    exact (RunState.ran_publish _ _).mpr (ih hran)

/-- A walk that steps over a unit goes on doing so, whatever is done at it or below it. -/
theorem Moves.stepsOver (h : p.Moves who site task run e p' run' e')
    (hdeclares : p.walk.plan.Declares i u) (hran : run.Ran u)
    (hover : p.activity.StepsOver p.walk i u) : p'.activity.StepsOver p'.walk i u := by
  cases h with
  | here h => exact h.stepsOver hdeclares hran hover
  | called | returned | inPlace | child | childEnded => exact hover
  | inPlaceEnded h _ hclose =>
    subst hclose
    exact Scene.stepsOver_close (s := ⟨_, _, _, _⟩) hover.1 hover.2 (h.ran hran) ..

theorem Fits.awaitsFork {resume : Resume} (h : p.Fits) (hfork : p.activity.fork? = some resume) :
    p.walk.EarlyFits ∧ p.walk.AwaitsFork resume := by
  obtain @⟨serial, walk, activity, hearly, hat, -⟩ := h
  refine ⟨hearly, ?_⟩
  have hfork : activity.fork? = some resume := hfork
  cases activity with
  | poised next =>
    cases next with
    | fork => cases hfork; exact hat
    | advance | execute | finish => cases hfork
  | inPlace | forking => cases hfork; exact hat
  | queued | working | asleep | calling => cases hfork

/-- What has a number of the branch that has moved is in that branch. -/
theorem has_of_moved {serial : Nat} {walk : Walk} {anchor entry : String} {resume : Resume}
    {toStart : List (Branch Plan)} {before after : List Child} {completed : List String} {child : Child}
    {branch q : Process} {state : RunState}
    (hnodup : (serial :: Child.serialsIn (before ++ .running entry branch :: after)).Nodup)
    (hq : Run.Has ⟨run, mk serial walk (.forking anchor resume toStart (before ++ child :: after)
      completed)⟩ state q) (hin : q.serial ∈ branch.serials) :
    ∃ entry other, child = .running entry other ∧ Run.Has ⟨run, other⟩ state q := by
  obtain ⟨hserial, hchildren⟩ := List.nodup_cons.mp hnodup
  have hbranch := mem_children before after entry branch
  rcases hq.cases with ⟨rfl, -⟩ | ⟨other, ⟨entry', hmem⟩, hother⟩ | ⟨_, _, hcalls, -⟩
  · exact absurd (Child.mem_serialsIn hbranch hin) hserial
  · -- the other branches have numbers of their own
    have hothers : ¬ (.running entry' other ∈ before ∨ .running entry' other ∈ after) := fun hmem =>
      notMem_serials_of_sibling hchildren hmem
        (hother.has.serials_subset q.serial_mem_serials) hin
    exact ⟨entry', other, (mem_around.mp hmem).resolve_right hothers, hother⟩
  · exact hcalls.elim

/-- Whatever is written down by a move is about a walk that was there, and is so. -/
theorem Moves.logs_says (h : p.Moves who site task run e p' run' e') (hnodup : p.serials.Nodup) :
    e.Logs (fun entry => ∃ r, p.Has r ∧ r.serial = entry.walk ∧
      r.Says (Run.Has ⟨run', p'⟩) entry.occurrence) e' := by
  induction h with
  | here h => exact h.logs_says.mono fun entry ⟨hwalk, hsays⟩ => ⟨_, .self _, hwalk.symm, hsays⟩
  | called _ _ ih =>
    obtain ⟨hserial, hnodup⟩ := List.nodup_cons.mp hnodup
    refine (ih hnodup).mono fun entry ⟨r, hr, hwalk, hsays⟩ => ⟨r, .inside rfl hr, hwalk, ?_⟩
    -- the number is that of a walk inside, so the walk that has it afterwards is inside, too
    refine hsays.mono fun state q hq heq => ?_
    rcases hq.cases with ⟨rfl, -⟩ | ⟨_, hbranch, -⟩ | ⟨_, _, ⟨rfl, rfl⟩, hin⟩
    · exact absurd heq.symm (hr.serial_ne hserial)
    · exact hbranch.elim
    · exact hin
  | returned _ _ ih =>
    obtain ⟨hserial, hnodup⟩ := List.nodup_cons.mp hnodup
    refine (ih hnodup).mono fun entry ⟨r, hr, hwalk, hsays⟩ => ⟨r, .inside rfl hr, hwalk, ?_⟩
    refine hsays.mono fun state q hq heq => ?_
    obtain ⟨rfl, -⟩ := hq.alone fun _ hruns => hruns
    exact absurd heq.symm (hr.serial_ne hserial)
  | inPlace _ _ ih =>
    obtain ⟨hserial, hnodup⟩ := List.nodup_cons.mp hnodup
    refine (ih hnodup).mono fun entry ⟨r, hr, hwalk, hsays⟩ => ⟨r, .inside rfl hr, hwalk, ?_⟩
    refine hsays.mono fun state q hq heq => ?_
    rcases hq.cases with ⟨rfl, -⟩ | ⟨_, rfl, hin⟩ | ⟨_, _, hcalls, -⟩
    · exact absurd heq.symm (hr.serial_ne hserial)
    · exact hin
    · exact hcalls.elim
  | inPlaceEnded _ _ hclose ih =>
    subst hclose
    obtain ⟨hserial, hnodup⟩ := List.nodup_cons.mp hnodup
    refine Engine.Logs.trans ((ih hnodup).mono ?_) (.record _ ?_)
    · rintro entry ⟨r, hr, hwalk, hsays⟩
      refine ⟨r, .inside rfl hr, hwalk, hsays.mono fun state q hq heq => ?_⟩
      obtain ⟨rfl, -⟩ := hq.alone fun _ hruns => hruns
      exact absurd heq.symm (hr.serial_ne hserial)
    · exact ⟨_, .self _, rfl, Scene.says_joined (s := ⟨_, .inPlace .., _, _⟩) rfl _ _ _ _⟩
  | @child _ _ _ _ entry _ _ before after _ branch _ _ _ _ _ _ _ _ _ ih =>
    obtain ⟨-, hchildren⟩ := List.nodup_cons.mp hnodup
    have hbranch := mem_children before after entry branch
    refine (ih (Child.nodup_serials hchildren hbranch)).mono fun _ ⟨r, hr, hwalk, hsays⟩ =>
      ⟨r, .inside (show Activity.Runs _ branch from ⟨entry, hbranch⟩) hr, hwalk, ?_⟩
    refine hsays.mono fun state q hq heq => ?_
    obtain ⟨_, _, ⟨⟩, hin⟩ :=
      has_of_moved hnodup hq (heq ▸ hr.serials_subset r.serial_mem_serials)
    exact hin
  | @childEnded _ _ _ _ entry _ _ before after _ _ branch _ _ _ _ _ _ _ _ _ _ ih =>
    obtain ⟨-, hchildren⟩ := List.nodup_cons.mp hnodup
    have hbranch := mem_children before after entry branch
    refine (ih (Child.nodup_serials hchildren hbranch)).mono fun _ ⟨r, hr, hwalk, hsays⟩ =>
      ⟨r, .inside (show Activity.Runs _ branch from ⟨entry, hbranch⟩) hr, hwalk, ?_⟩
    refine hsays.mono fun state q hq heq => ?_
    obtain ⟨_, _, ⟨⟩, -⟩ := has_of_moved hnodup hq (heq ▸ hr.serials_subset r.serial_mem_serials)

theorem stepsOver_cancelTasks (h : p.activity.StepsOver p.walk i u) :
    p.cancelTasks.activity.StepsOver p.cancelTasks.walk i u := by
  obtain ⟨serial, walk, activity⟩ := p
  cases activity <;> exact h

end Process

/-! ## Executors -/

/-- What stands in a plan of a flow whose units are distinct stands there once. -/
theorem Plan.WellFormed.declares {p inner : Plan} {node : Node} {i : Nat} {u : String}
    (h : p.WellFormed node) (hnodup : node.leaves.Nodup) (hinner : p.Contains inner)
    (hunit : inner.unitAt? i = some u) : inner.Declares i u where
  nodup := by
    rw [← h.fits.units] at hnodup
    exact hnodup.sublist (h.sequence_sublist hinner)
  unit := hunit
  groups := fun start group hgroup => by
    obtain ⟨innerNode, -, hfits⟩ := h.inner inner hinner
    have hfit := hfits.groups _ (Table.mem_of_lookup hgroup)
    have hstart : group.span.start = start := hfit.start
    have hpos : group.span.start < group.span.stop := hfit.pos
    omega

namespace Executor

variable {start last x y : Executor} {past after : List (Executor × Move)} {m : Move} {w i : Nat}
  {u : String}

/-- A walk steps over the unit at a position of its plan, and its run counts the unit as executed. -/
structure StepsOver (x : Executor) (w i : Nat) (u : String) : Prop where
  known : w < x.engine.nextSerial
  walks : ∀ f ∈ x.flows, ∀ q ∈ f.root.crew, q.serial = w →
    q.walk.plan.Declares i u ∧ f.state.Ran u ∧ q.activity.StepsOver q.walk i u

/-- A walk that steps over a unit goes on doing so. -/
theorem StepsOver.move (h : x.StepsOver w i u) (hfits : x.Fits) (hmove : x.move m = some y) :
    y.StepsOver w i u := by
  have hknown := h.known
  refine ⟨Nat.lt_of_lt_of_le hknown (nextSerial_le hfits hmove), fun f hf q hq hserial => ?_⟩
  rcases flow_cases hmove hf with hold | hstart | ⟨who, -, g, hg, site, task, e, j, depth, hmoves, -⟩ |
    ⟨g, hg, rfl⟩
  · exact h.walks f hold q hq hserial
  · have hnew := hstart.crew hq
    omega
  · rcases hmoves.movesFrom hq with hin | hnew | ⟨r, hr, inner, task', e₁, hown⟩
    · obtain ⟨hdeclares, hran, hover⟩ := h.walks g hg q hin hserial
      exact ⟨hdeclares, hmoves.ran hran, hover⟩
    · omega
    · obtain ⟨hdeclares, hran, hover⟩ := h.walks g hg r hr (hown.serial ▸ hserial)
      obtain ⟨run, hrun, hhas⟩ := has_root hg
      have hplan := hown.plan (((hfits run hrun).of_has hhas).of_has (Process.has_of_crew hr))
      exact ⟨hplan ▸ hdeclares, hmoves.ran hran, hown.stepsOver hdeclares hran hover⟩
  · obtain ⟨r, hr, rfl⟩ := Process.crew_cancelTasks hq
    obtain ⟨hdeclares, hran, hover⟩ := h.walks g hg r hr (r.serial_cancelTasks ▸ hserial)
    exact ⟨r.walk_cancelTasks ▸ hdeclares, hran, Process.stepsOver_cancelTasks hover⟩

/-- A walk of an executor, with the state of its run. -/
def HasIn (x : Executor) (state : RunState) (q : Process) : Prop := ∃ run ∈ x.runs, run.Has state q

theorem HasIn.exists_flow {state : RunState} {q : Process} (h : x.HasIn state q) :
    ∃ f ∈ x.flows, f.state = state ∧ q ∈ f.root.crew := by
  obtain ⟨run, hrun, f, hf, heq, hq⟩ := h
  exact ⟨f, mem_flows.mpr ⟨run, hrun, hf⟩, heq, hq⟩

theorem HasIn.has {state : RunState} {q : Process} (h : x.HasIn state q) : x.Has q := by
  obtain ⟨run, hrun, hin⟩ := h
  exact ⟨run, hrun, hin.has⟩

theorem hasIn_of_flow {f : Run} {q : Process} (hf : f ∈ x.flows) (hq : q ∈ f.root.crew) :
    x.HasIn f.state q := by
  obtain ⟨run, hrun, hf⟩ := mem_flows.mp hf
  exact ⟨run, hrun, f, hf, rfl, hq⟩

/-- Whatever is written down by a move is about a walk that was there, and is so. -/
theorem says_move (hnumbered : x.ledger.Numbered) (hmove : x.move m = some y) : x.engine.Logs
    (fun entry => ∃ state r, x.HasIn state r ∧ r.serial = entry.walk ∧ r.Says y.HasIn entry.occurrence)
    y.engine := by
  rcases move_cases hmove with
    ⟨who, before, run, after, site, root, state, e, rfl, hruns, hmoves, rfl⟩ | ⟨hjournal, -⟩
  · have hroot : run.root.serials.Nodup := nodup_of_mem hnumbered (by simp [hruns])
    refine (hmoves.logs_says hroot).mono fun entry ⟨r, hr, hwalk, hsays⟩ => ?_
    obtain ⟨known, hknown⟩ : ∃ known, run.Has known r := Run.exists_has hr
    refine ⟨known, r, ⟨run, by simp [hruns], hknown⟩, hwalk,
      hsays.mono fun state' q ⟨own, hown, hq⟩ heq => ?_⟩
    have hin : q.serial ∈ run.root.serials := heq ▸ hr.serials_subset r.serial_mem_serials
    have hothers : ¬ (own ∈ before ∨ own ∈ after) := fun hother =>
      not_mem_serials_of_other hnumbered hruns hother
        (hq.has.serials_subset q.serial_mem_serials) hin
    rcases mem_around.mp hown with rfl | hother
    · exact hq
    · exact absurd hother hothers
  · exact .of_eq hjournal

/-- A walk that steps over a unit starts it no more. -/
theorem History.stepsOver (h : start.History past last) (hfits : start.Fits)
    (hnumbered : start.ledger.Numbered) (hover : start.StepsOver w i u) :
    last.StepsOver w i u ∧ start.engine.Logs
      (fun entry => entry.occurrence = .unitStarted u → entry.walk ≠ w) last.engine := by
  induction h with
  | start => exact ⟨hover, .of_eq rfl⟩
  | @move past x y m h hmove ih =>
    obtain ⟨hx, hlogs⟩ := ih
    refine ⟨hx.move (h.fits hfits) hmove, hlogs.trans ?_⟩
    refine (says_move (h.numbered hfits hnumbered) hmove).mono ?_
    rintro ⟨task, walk, occurrence⟩ ⟨state, r, hin, hwalk, hsays⟩ rfl rfl
    obtain ⟨f, hf, -, hr⟩ := hin.exists_flow
    exact (hx.walks f hf r hr hwalk).2.2.unit?_ne hsays

/-- When a fork has joined that a unit has chosen at the position of its walk, the walk steps over the
units of the fork that stand further on. -/
theorem stepsOver_of_joined {q : Process} {entries : List String} {signal : Option String} {task : Nat}
    {anchor : String} (hfits : x.Fits) (hnumbered : x.ledger.Numbered) (hhas : x.Has q)
    (hfork : q.activity.fork? = some (.scattered entries signal)) (hmem : u ∈ entries)
    (hdeclares : q.walk.plan.Declares i u) (hlater : q.walk.position < i) (hmove : x.move m = some y)
    (hjoined : ⟨task, q.serial, .joined anchor none⟩ ∈
      y.engine.journal.toList.drop x.engine.journal.size)
    (hran : ∀ f ∈ y.flows, f.root.Holds q.serial → f.state.Ran u) : y.StepsOver q.serial i u := by
  obtain ⟨state, r, hr, hwalk, hsays⟩ := (says_move hnumbered hmove).drop _ hjoined
  obtain rfl : r = q := hr.has.unique hhas hnumbered hwalk
  refine ⟨?_, fun f hf q' hq' hserial => ?_⟩
  · obtain ⟨run, hrun, hhas⟩ := hhas
    exact Nat.lt_of_lt_of_le (serial_lt hnumbered hrun _ (hhas.serials_subset r.serial_mem_serials))
      (nextSerial_le hfits hmove)
  · have hran : f.state.Ran u := hran f hf (List.mem_map.mpr ⟨q', hq', hserial⟩)
    obtain ⟨resume, scope, tolerant, hresume, hwalk', hactivity⟩ :=
      hsays f.state q' (hasIn_of_flow hf hq') hserial
    cases hfork.symm.trans hresume
    obtain ⟨run, hrun, hhas⟩ := hhas
    obtain ⟨hearly, hawaits⟩ := ((hfits run hrun).of_has hhas).awaitsFork hfork
    have hplan := (Walk.keeps_forkDone hearly hawaits scope f.state.hasRun tolerant none).plan
    rw [hwalk', hactivity]
    exact ⟨hplan ▸ hdeclares, hran,
      Walk.stepsOver_scatterDone hdeclares.unit hlater hmem hran scope tolerant signal⟩

/-- Stepping over, in every schedule. A unit has chosen units that its walk forks at the position of
the unit, and the fork has joined without a failure. From then on the walk starts no unit any more that
the fork has executed and that stands further on in its plan. It does not matter whether the unit was
executed at its position, or before, when the walk was routed to it: then its choice has waited for the
position. -/
theorem History.steps_over {config : Config} {registry : Registry} {listeners : Listeners}
    {text : String} {node : Node} {plan : Plan} {q : Process} {entries : List String}
    {signal : Option String} {task : Nat} {anchor : String}
    (hbuild : build config registry listeners = .ok start)
    (hparse : Expression.parse text = .ok node) (hnodup : node.leaves.Nodup)
    (hcompile : node.compile? = some plan) (hpast : start.History past x) (hhas : x.Has q)
    (hplan : plan.Contains q.walk.plan)
    (hfork : q.activity.fork? = some (.scattered entries signal)) (hmem : u ∈ entries)
    (hunit : q.walk.plan.unitAt? i = some u) (hlater : q.walk.position < i)
    (hmove : x.move m = some y)
    (hjoined : ⟨task, q.serial, .joined anchor none⟩ ∈
      y.engine.journal.toList.drop x.engine.journal.size)
    (hran : ∀ f ∈ y.flows, f.root.Holds q.serial → f.state.Ran u) (h : y.History after last) :
    ∀ entry ∈ last.engine.journal.toList.drop y.engine.journal.size,
      entry.occurrence = .unitStarted u → entry.walk ≠ q.serial := by
  obtain ⟨hfits, hsound⟩ := sound_build hbuild
  have hwell := (Expression.isNormal_of_parse hparse).wellFormed hcompile
  have hdeclares := hwell.declares hnodup hplan hunit
  have hx := hpast.fits hfits
  have hnumbered := hpast.numbered hfits hsound.toNumbered
  have hover := stepsOver_of_joined hx hnumbered hhas hfork hmem hdeclares hlater hmove hjoined hran
  have hy := hpast.move hmove
  exact (h.stepsOver (hy.fits hfits) (hy.numbered hfits hsound.toNumbered) hover).2.drop

/-- A unit forks the second and the last unit of its plan, and so the third one is the only one that
is left to be executed. -/
theorem History.steps_over_fork : ∃ (past after : List (Executor × Move)) (x y last : Executor)
    (q : Process),
    (doing [("a", .signalFork ["b", "d"] .done), ("b", .done), ("c", .done), ("d", .done)]).History
        past x ∧
      x.Has q ∧ q.activity.fork? = some (.scattered ["b", "d"] none) ∧
      q.walk.plan.sequence = ["a", "b", "c", "d"] ∧ q.walk.position = 0 ∧ x.move (.step 0) = some y ∧
      ⟨0, q.serial, .joined "a" none⟩ ∈ y.engine.journal.toList.drop x.engine.journal.size ∧
      y.History after last ∧ last.flows.map (fun f => f.state.unitNames) = [["a", "b", "d", "c"]] ∧
      ∀ entry ∈ last.engine.journal.toList.drop y.engine.journal.size,
        entry.occurrence = .unitStarted "d" → entry.walk ≠ q.serial := by
  let units : List (String × Behavior) :=
    [("a", .signalFork ["b", "d"] .done), ("b", .done), ("c", .done), ("d", .done)]
  let node : Node := .sequence [.unit "a", .unit "b", .unit "c", .unit "d"]
  let plan := node.compile?.getD {}
  let first : List Move := .launch (.plan plan) {} ::
    (List.replicate 9 0 ++ List.replicate 7 1 ++ List.replicate 7 2).map .step
  let x := ((doing units).follow first).2
  let y := (x.follow [.step 0]).2
  let rest : List Move := List.replicate 20 (.step 0)
  let last := (y.follow rest).2
  have hparse : Expression.parse "a -> b -> c -> d" = .ok node := by decide +kernel
  have hmove : x.move (.step 0) = some y := move_eq_follow (by decide +kernel)
  obtain ⟨f, hf, q, hq, hserial, hfork, hposition, hg, hk, hsequence, htargets, hentries, hchoices⟩ :
      ∃ f ∈ x.flows, ∃ q ∈ f.root.crew, q.serial = 0 ∧
        q.activity.fork? = some (.scattered ["b", "d"] none) ∧ q.walk.position = 0 ∧
        plan.groups.keys = [] ∧ q.walk.plan.groups.keys = [] ∧
        plan.sequence = q.walk.plan.sequence ∧ plan.targets = q.walk.plan.targets ∧
        plan.entries = q.walk.plan.entries ∧ plan.choices = q.walk.plan.choices := by
    decide +kernel
  have hjoined : ⟨0, 0, .joined "a" none⟩ ∈ y.engine.journal.toList.drop x.engine.journal.size := by
    decide +kernel
  have hran : ∀ f ∈ y.flows, f.state.hasRun "d" = true := by decide +kernel
  have hnames : last.flows.map (fun f => f.state.unitNames) = [["a", "b", "d", "c"]] := by
    decide +kernel
  have hpast : (doing units).History _ x := history_follow _ first
  have hafter : y.History _ last := history_follow y rest
  -- plans have no decidable equality, so the walk's plan is recognised by its parts
  have hplan : plan.Contains q.walk.plan := by
    rw [← Plan.eq_of_flat hg hk hsequence htargets hentries hchoices]
    exact .self
  have hunit : q.walk.plan.unitAt? 3 = some "d" := by
    show q.walk.plan.sequence[3]? = some "d"
    rw [← hsequence]
    rfl
  have hhas : x.Has q := (hasIn_of_flow hf hq).has
  clear_value last y x
  have hjoined : ⟨0, q.serial, .joined "a" none⟩ ∈
      y.engine.journal.toList.drop x.engine.journal.size := by
    rw [hserial]
    exact hjoined
  have hover := History.steps_over (build_doing units) hparse (by decide) rfl hpast hhas hplan hfork
    (by decide) hunit (by rw [hposition]; decide) hmove hjoined (fun f hf _ => hran f hf) hafter
  exact ⟨_, _, x, y, last, q, hpast, hhas, hfork, hsequence.symm, hposition, hmove, hjoined, hafter,
    hnames, hover⟩

/-- A walk is routed to a unit that it does not come to, and that forks the next unit of the plan. When
the fork has joined, nothing is kept in mind of it, and the walk executes that unit again. -/
theorem runs_again : ∃ (past after : List (Executor × Move)) (x y last : Executor) (q : Process),
    Expression.parse "a -> b -> c" = .ok (.sequence [.unit "a", .unit "b", .unit "c"]) ∧
      (doing [("a", .signalRoute "z" .done), ("b", .done), ("c", .done),
        ("z", .signalFork ["b"] .done)]).History past x ∧
      x.Has q ∧ q.activity.fork? = some .detourFork ∧ q.walk.plan.sequence = ["a", "b", "c"] ∧
      q.walk.position = 0 ∧ x.move (.step 0) = some y ∧
      ⟨0, q.serial, .joined "z" none⟩ ∈ y.engine.journal.toList.drop x.engine.journal.size ∧
      (∀ f ∈ y.flows, f.state.Ran "b") ∧ y.History after last ∧
      last.flows.map (fun f => f.state.unitNames) = [["a", "z", "b", "b", "c"]] ∧
      ⟨0, q.serial, .unitStarted "b"⟩ ∈
        last.engine.journal.toList.drop y.engine.journal.size := by
  let units : List (String × Behavior) := [("a", .signalRoute "z" .done), ("b", .done), ("c", .done),
    ("z", .signalFork ["b"] .done)]
  let node : Node := .sequence [.unit "a", .unit "b", .unit "c"]
  let plan := node.compile?.getD {}
  let first : List Move := .launch (.plan plan) {} :: List.replicate 17 (.step 0)
  let x := ((doing units).follow first).2
  let y := (x.follow [.step 0]).2
  let rest : List Move := List.replicate 30 (.step 0)
  let last := (y.follow rest).2
  have hparse : Expression.parse "a -> b -> c" = .ok node := by decide +kernel
  have hmove : x.move (.step 0) = some y := move_eq_follow (by decide +kernel)
  obtain ⟨f, hf, q, hq, hserial, hfork, hsequence, hposition⟩ :
      ∃ f ∈ x.flows, ∃ q ∈ f.root.crew, q.serial = 0 ∧ q.activity.fork? = some .detourFork ∧
        q.walk.plan.sequence = ["a", "b", "c"] ∧ q.walk.position = 0 := by
    decide +kernel
  have hjoined : ⟨0, q.serial, .joined "z" none⟩ ∈
      y.engine.journal.toList.drop x.engine.journal.size := by
    rw [hserial]
    decide +kernel
  have hran : ∀ f ∈ y.flows, f.state.hasRun "b" = true := by decide +kernel
  have hnames : last.flows.map (fun f => f.state.unitNames) = [["a", "z", "b", "b", "c"]] := by
    decide +kernel
  have hstarted : ⟨0, q.serial, .unitStarted "b"⟩ ∈
      last.engine.journal.toList.drop y.engine.journal.size := by
    rw [hserial]
    decide +kernel
  exact ⟨_, _, x, y, last, q, hparse, history_follow _ first, (hasIn_of_flow hf hq).has, hfork,
    hsequence, hposition, hmove, hjoined, hran, history_follow y rest, hnames, hstarted⟩

end Executor

end Workflow
