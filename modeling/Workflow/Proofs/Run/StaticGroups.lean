import Workflow.Proofs.Run.Anchors
import Workflow.Proofs.Run.Bounded

/-!
# The groups of a plan

In every schedule, walks whose units fork nothing keep to their plans (`Executor.History.keepsToPlan`),
and what they are done with they stay done with (`Executor.History.isDoneWith`). How a walk goes about a
group of its plan is put together from this in `Executor.TakesGroup`: a group is forked once each time
that a walk comes to it, and one that is anchored on a unit only if this unit has succeeded
(`Executor.History.forks_once`).
-/

namespace Workflow

/-! ## Executors -/

namespace Executor

variable {start last x y : Executor} {past more : List (Executor × Move)} {m : Move} {q q' : Process}
  {node : Node} {first stop : Nat} {group : Group Plan} {config : Config} {registry : Registry}
  {listeners : Listeners}

/-- A walk after a move is new, or there was one with its number before. -/
theorem exists_of_has (hmove : x.move m = some y) (hq' : y.Has q') :
    q'.IsStart x.engine.nextSerial ∨ ∃ q, x.Has q ∧ q'.serial = q.serial := by
  rcases stemsFrom hmove hq' with hstart | hold | ⟨_, _, _, p, _, _, _, -, hp, hmoves⟩ | ⟨p, hp, rfl⟩
  · exact .inl hstart
  · exact .inr ⟨q', hold, rfl⟩
  · exact .inr ⟨p, hp, hmoves.serial⟩
  · exact .inr ⟨p, hp, p.serial_cancelTasks⟩

theorem plan_eq_of_move (hfits : x.Fits) (hnumbered : x.ledger.Numbered) (hq : x.Has q)
    (hmove : x.move m = some y) (hq' : y.Has q') (hserial : q'.serial = q.serial) :
    q'.walk.plan = q.walk.plan := by
  rcases moved_cases hnumbered hq hmove hq' hserial with rfl | rfl | ⟨_, _, _, _, _, _, -, hmoves⟩
  · rfl
  · rw [q.walk_cancelTasks]
  · obtain ⟨run, hrun, hhas⟩ := hq
    exact hmoves.plan ((hfits run hrun).of_has hhas)

/-- What a walk has in mind of a unit, it has learnt from the unit when it was routed to it. -/
def Recalls (past : List (Executor × Move)) (q : Process) : Prop :=
  ∀ u early, q.walk.early.get? u = some early → ∃ z m r v result, (z, m) ∈ past ∧ z.Has r ∧
    r.serial = q.serial ∧ r.Learns u (.detour v true) result ∧ early.Tells result

theorem Recalls.walk (h : Recalls past q) : q.walk.Recalls := fun u early hget => by
  obtain ⟨_, _, _, _, result, _, _, _, _, htells⟩ := h u early hget
  exact ⟨result, htells⟩

/-- A walk through the plan of a node that keeps to the plan. -/
structure KeepsToPlan (past : List (Executor × Move)) (q : Process) : Prop where
  byPlan : q.activity.ByPlan q.walk
  recalls : Recalls past q

theorem Recalls.mono (h : Recalls past q) (hpast : past ⊆ more) : Recalls more q := fun u early hget => by
  obtain ⟨z, m, r, v, result, hmem, hrest⟩ := h u early hget
  exact ⟨z, m, r, v, result, hpast hmem, hrest⟩

/-- What holds in every state that units lead to which fork nothing. -/
structure Unforking (x : Executor) : Prop where
  fits : x.Fits
  numbered : x.ledger.Numbered
  prunes : ∀ q, x.Has q → q.Prunes
  engine : x.engine.Abides Law.unforked
  unforked : x.Unforked

theorem History.unforking (hbuild : build config registry listeners = .ok start)
    (hregistry : registry.Abides Law.unforked) (hlisteners : listeners.Abide)
    (h : start.History past last) : last.Unforking := by
  obtain ⟨hfits, hsound⟩ := sound_build hbuild
  exact ⟨h.fits hfits, h.numbered hfits hsound.toNumbered,
    h.prunes hfits fun q hq => absurd hq (not_has_of_build hbuild),
    (h.abides (abides_build hbuild hregistry hlisteners)).engine, h.unforked hbuild hregistry hlisteners⟩

/-- By a move a walk keeps to its plan. -/
theorem KeepsToPlan.cases (h : KeepsToPlan past q) (hx : x.Unforking) (hq : x.Has q)
    (hnormal : node.IsNormal) (hplan : node.compile? = some q.walk.plan) (hmove : x.move m = some y)
    (hq' : y.Has q') (hserial : q'.serial = q.serial) : q' = q ∨ q' = q.cancelTasks ∨ q.KeepsTo q' := by
  refine (moved_cases hx.numbered hq hmove hq' hserial).imp_right fun hmoved => hmoved.imp_right ?_
  rintro ⟨who, site, task, state, state', e', hin, hmoves⟩
  obtain ⟨f, hf, rfl, -⟩ := hin.exists_flow
  exact hmoves.keepsTo (hx.prunes q hq node hnormal hplan) h.byPlan h.recalls.walk (hx.unforked f hf)
    hx.engine

/-- In every schedule, the walks of units that fork nothing keep to their plans. -/
theorem History.keepsToPlan (hbuild : build config registry listeners = .ok start)
    (hregistry : registry.Abides Law.unforked) (hlisteners : listeners.Abide)
    (h : start.History past last) (hq : last.Has q) (hnormal : node.IsNormal)
    (hplan : node.compile? = some q.walk.plan) : KeepsToPlan past q := by
  induction h generalizing q with
  | start => exact absurd hq (not_has_of_build hbuild)
  | @move past x y m h hmove ih =>
    have hx := h.unforking hbuild hregistry hlisteners
    have hpast : past ⊆ past ++ [(x, m)] := List.subset_append_left _ _
    rcases exists_of_has hmove hq with (⟨plan, pooled, rfl⟩ | ⟨u, rfl⟩) | ⟨p, hp, hserial⟩
    · exact ⟨trivial, nofun⟩
    · exact ⟨trivial, nofun⟩
    · rw [plan_eq_of_move hx.fits hx.numbered hp hmove hq hserial] at hplan
      have hkeeps := ih hp hplan
      rcases hkeeps.cases hx hp hnormal hplan hmove hq hserial with rfl | rfl | hmoved
      · exact ⟨hkeeps.byPlan, hkeeps.recalls.mono hpast⟩
      · refine ⟨?_, ?_⟩
        · have hby := hkeeps.byPlan
          obtain ⟨serial, walk, activity⟩ := p
          cases activity <;> exact hby
        · unfold Recalls
          rw [p.walk_cancelTasks, p.serial_cancelTasks]
          exact hkeeps.recalls.mono hpast
      · refine ⟨hmoved.byPlan, fun u early hget => ?_⟩
        rcases hmoved.recalls u early hget with hold | ⟨v, result, htells, hlearns⟩
        · rw [hserial]
          exact hkeeps.recalls.mono hpast u early hold
        · exact ⟨x, m, p, v, result, by simp, hp, hserial.symm, hlearns, htells⟩

/-- What a walk is done with it stays done with. -/
theorem History.isDoneWith (h : x.History more last) (hfits : x.Fits) (hnumbered : x.ledger.Numbered)
    (hq : x.Has q) (hforward : q.walk.plan.IsForward) (hdone : q.activity.IsDoneWith q.walk stop) :
    q.serial < last.engine.nextSerial ∧ ∀ r, last.Has r → r.serial = q.serial →
      r.walk.plan = q.walk.plan ∧ r.activity.IsDoneWith r.walk stop := by
  induction h with
  | start =>
    obtain ⟨run, hrun, hhas⟩ := id hq
    refine ⟨serial_lt hnumbered hrun _ (hhas.serials_subset q.serial_mem_serials), fun r hr heq => ?_⟩
    rw [hr.unique hq hnumbered heq]
    exact ⟨rfl, hdone⟩
  | @move more v last m h hmove ih =>
    obtain ⟨hknown, hkeeps⟩ := ih
    have hv := h.fits hfits
    have hvNumbered := h.numbered hfits hnumbered
    refine ⟨Nat.lt_of_lt_of_le hknown (nextSerial_le hv hmove), fun r hr heq => ?_⟩
    rcases exists_of_has hmove hr with hstart | ⟨p, hp, hserial⟩
    · have hserial := hstart.serial
      omega
    · obtain ⟨hplan, hdone⟩ := hkeeps p hp (hserial.symm.trans heq)
      refine ⟨(plan_eq_of_move hv hvNumbered hp hmove hr hserial).trans hplan, ?_⟩
      rcases moved_cases hvNumbered hp hmove hr hserial with rfl | rfl | ⟨_, _, _, _, _, _, -, hmoves⟩
      · exact hdone
      · obtain ⟨serial, walk, activity⟩ := p
        cases activity <;> exact hdone
      · exact hmoves.isDoneWith (hplan ▸ hforward) hdone

/-! ## How groups are forked -/

/-- How a walk goes about a group of its plan, by a move that makes `q'` of its process `q`. -/
structure TakesGroup (x y : Executor) (q q' : Process) (first : Nat) (group : Group Plan) : Prop where
  /-- It comes upon a group that is anchored on a unit only directly after it has handled this unit, which
  has failed. -/
  arrives : ∀ anchorAt, group.anchorAt = some anchorAt → q'.StandsAt first →
    q.StandsAt first ∨ ∃ failure, q.Handles anchorAt group.anchor (some failure)
  /-- Then it leaves the group out. -/
  leaves : group.anchorAt ≠ none → q.StandsAt first →
    q' = q ∨ q'.activity = .poised .advance ∧ q'.walk.position = group.span.stop
  /-- When it handles the anchor, which has succeeded and does not ask it to stop, it is to fork the group
  next. -/
  anchored : ∀ anchorAt, group.anchorAt = some anchorAt → q.Handles anchorAt group.anchor none →
    (∀ state, x.HasIn state q → ¬ q.Stops state x.engine) → q' = q ∨ q'.activity = .poised group.intent
  /-- A group with a virtual anchor it is to fork whenever it comes upon it. -/
  virtual : group.anchorAt = none → q.StandsAt first → q' = q ∨ q'.activity = .poised group.intent
  /-- What it is to fork it forks next, and never again. -/
  forks : q.activity = .poised group.intent → q' = q ∨
    q'.activity = .forking group.anchor (.group group.span.stop) group.branches [] [] ∧
      ∀ more last r anchor branches, y.History more last → last.Has r → r.serial = q.serial →
        r.activity ≠ .poised (.fork anchor branches (.group group.span.stop))
  /-- It executes no position of the group itself. -/
  outside : q.activity.resume? = some .unit → ¬ group.span.contains q.walk.position
  /-- Where it skips the group, it skips all of it. -/
  skips : q.activity = .poised .advance → q.walk.position = first → q.walk.Skips first →
    q' = q ∨ q'.activity = .poised .advance ∧ group.span.stop ≤ q'.walk.position

section

variable (hx : x.Unforking) (hq : x.Has q) (hnormal : node.IsNormal)
  (hplan : node.compile? = some q.walk.plan) (hmove : x.move m = some y) (hq' : y.Has q')
  (hserial : q'.serial = q.serial) (hgroup : q.walk.plan.groupAt? first = some group)

include hx hq hmove hq' hserial

/-- A walk that knows what to do next is what it was, or has done it. -/
theorem moved_of_poised {next : Intent} (hactivity : q.activity = .poised next) : q' = q ∨
    ∃ who site task state state' e', x.HasIn state q ∧ q.Moves who site task state x.engine q' state' e' := by
  rcases moved_cases hx.numbered hq hmove hq' hserial with heq | heq | hmoves
  · exact .inl heq
  · exact .inl (heq.trans (Process.cancelTasks_eq hactivity))
  · exact .inr hmoves

include hnormal hplan hgroup

theorem turn_of_standsAt (hstands : q.StandsAt first) : q' = q ∨ ∃ state : RunState,
    q' = (if group.anchorAt.isSome then
      ⟨{ q.walk with position := group.span.stop }, state.scope, .advance⟩
      else q.walk.forkGroup state.scope group group.branches : Turn).process q.serial := by
  obtain ⟨hactivity, rfl, hopen⟩ := hstands
  refine (moved_of_poised hx hq hmove hq' hserial hactivity).imp_right ?_
  rintro ⟨who, site, task, state, state', e', -, hmoves⟩
  have hprunes := hx.prunes q hq node hnormal hplan
  rw [hactivity] at hprunes
  refine ⟨state, ?_⟩
  rw [hmoves.of_advance hactivity, Walk.advance_of_groupAt? hprunes.1 hopen hgroup]

/-- A walk comes upon an anchored group only behind its anchor, which has failed. -/
theorem arrives_of_keepsToPlan (hkeeps : KeepsToPlan past q) {anchorAt : Nat}
    (hanchor : group.anchorAt = some anchorAt) (hstands : q'.StandsAt first) :
    q.StandsAt first ∨ ∃ failure, q.Handles anchorAt group.anchor (some failure) := by
  have hfits := (hnormal.wellFormed hplan).fits
  have hanchored : group.AnchoredAt q.walk.plan first anchorAt :=
    hfits.anchored _ (Table.mem_of_lookup hgroup) anchorAt hanchor
  rcases hkeeps.cases hx hq hnormal hplan hmove hq' hserial with rfl | rfl | hmoved
  · exact .inl hstands
  · rw [Process.cancelTasks_eq (Process.activity_cancelTasks_eq hstands.activity)] at hstands
    exact .inl hstands
  · obtain ⟨hactivity, hposition, -⟩ := hstands
    rcases hmoved.arrives hactivity with hclear | ⟨hnext, u, failure, hhandles⟩
    · rw [hposition] at hclear
      cases hanchor.symm.trans (hclear group hgroup)
    · obtain rfl : q.walk.position = anchorAt := by
        have hlast := hanchored.next
        omega
      obtain ⟨run, hrun, hhas⟩ := hq
      have hunit := hhandles.unitAt? ((hx.fits run hrun).of_has hhas)
      cases hunit.symm.trans hanchored.unit
      exact .inr ⟨failure, hhandles⟩

/-- A walk that handles the anchor of a group, which has succeeded, is to fork the group next. -/
theorem fork_of_handles (hkeeps : KeepsToPlan past q) {anchorAt : Nat}
    (hanchor : group.anchorAt = some anchorAt) (hhandles : q.Handles anchorAt group.anchor none)
    (hgoes : ∀ state, x.HasIn state q → ¬ q.Stops state x.engine) :
    q' = q ∨ q'.activity = .poised group.intent := by
  have hprunes := hx.prunes q hq node hnormal hplan
  have hanchored : group.AnchoredAt q.walk.plan first anchorAt :=
    (hnormal.wellFormed hplan).fits.anchored _ (Table.mem_of_lookup hgroup) anchorAt hanchor
  -- the group is the one that follows the anchor, so obeying the anchor opens it
  have hafter : q.walk.plan.groupAfter? anchorAt = some group := by
    rw [Plan.groupAfter?, hanchored.next, hgroup, Option.filter_some, if_pos]
    exact decide_eq_true hanchor
  obtain ⟨run, hrun, hhas⟩ := id hq
  have hfits := (hx.fits run hrun).of_has hhas
  cases hhandles with
  | here hposition hlearns =>
    subst hposition
    cases hlearns with
    -- the anchor has been executed at its position and tells its walk so
    | @succeeded job hactivity hstage hunit hresume =>
      rcases moved_cases hx.numbered hq hmove hq' hserial with heq | rfl |
        ⟨who, site, task, state, state', e', hin, hmoves⟩
      · exact .inl heq
      · obtain ⟨serial, walk, activity⟩ := q
        obtain rfl : activity = _ := hactivity
        exact .inl rfl
      · obtain ⟨f, hf, rfl, -⟩ := hin.exists_flow
        have hnot := hgoes f.state hin
        have htold := (hx.unforked f hf).fades (Scene.fades_announce
          (s := ⟨q.walk, q.activity, f.state, x.engine⟩) hx.engine who q.serial job .after none).1
        refine .inr ?_
        rw [hmoves.of_succeeded hactivity hstage]
        generalize hscene : Scene.announce ⟨q.walk, q.activity, f.state, x.engine⟩ who q.serial job .after
          none = told at htold
        have hwalk : told.walk = q.walk := hscene ▸ rfl
        rw [Scene.endUnit_eq]
        show Activity.poised (told.walk.unitDone told.run.scope told.run.hasRun told.run.context.tolerant
          job.unitId job.resume none).next = _
        rw [hwalk, hresume]
        show Activity.poised (q.walk.ownUnitDone told.run.scope told.run.hasRun told.run.context.tolerant
          none).next = _
        unfold Walk.ownUnitDone
        rw [hanchored.unit]
        simp only
        rw [Walk.obey_of_groupAfter? ?_ ?_ hafter]
        · rfl
        · intro hstop
          rw [← hunit] at hstop
          have hstop := Scope.takeRoute_fst_eq_stop.mp hstop
          rw [← hscene] at hstop
          exact hnot ⟨job, hactivity, hstage, hstop⟩
        · exact (htold.fades (Scope.fades_takeRoute told.run.scope _)).takeFork _
  -- the anchor has been executed ahead, and the walk finds that when it comes to it
  | @ahead early _ hactivity hposition hfinds htells =>
    subst hposition
    refine (moved_of_poised hx hq hmove hq' hserial hactivity).imp_right ?_
    rintro ⟨who, site, task, state, state', e', -, hmoves⟩
    rw [hmoves.of_advance hactivity]
    cases early with
    | failed | forked => exact htells.elim
    | routed signal fork =>
      cases htells
      have hgoes : signal ≠ some stopValue := by
        rintro rfl
        obtain ⟨hearly, -, -⟩ := hfits
        exact hearly _ _ hfinds.early
      have hnone : (none : Option (List String)).filter (· ≠ []) = none := rfl
      show Activity.poised (q.walk.advance state.scope state.hasRun).next = _
      unfold Walk.advance
      simp only [hfinds.unit, hfinds.opened, hfinds.single, hfinds.early]
      rw [Walk.obey_of_groupAfter? (w := { q.walk with early := q.walk.early.erase group.anchor }) hgoes
        hnone hafter]
      rfl

omit hmove hq' hserial in
/-- A walk executes no position of a group of its plan. -/
theorem outside_of_resume? (hresume : q.activity.resume? = some .unit) :
    ¬ group.span.contains q.walk.position := by
  obtain ⟨hprunes, u, ⟨arms, hunit⟩, -⟩ := (hx.prunes q hq node hnormal hplan).of_resume? hresume
  obtain ⟨nodes, i, arms', hstands, hle, hstop⟩ := hprunes.group_within hgroup
  have hfits : group.Fits q.walk.plan first :=
    (hnormal.wellFormed hplan).fits.groups _ (Table.mem_of_lookup hgroup)
  have hstart := hfits.start
  rw [Span.contains_iff]
  have hwork : Node.IsWork (.unit u) := trivial
  have hwork' : Node.IsWork (.parallel nodes) := trivial
  rcases hwork.eq_or_apart hwork' hunit hstands with heq | hapart
  · cases heq
  · rw [Node.width_unit, Node.width_parallel] at hapart
    omega

theorem skips_of_skips (hactivity : q.activity = .poised .advance) (hposition : q.walk.position = first)
    (hskips : q.walk.Skips first) :
    q' = q ∨ q'.activity = .poised .advance ∧ group.span.stop ≤ q'.walk.position := by
  subst hposition
  refine (moved_of_poised hx hq hmove hq' hserial hactivity).imp_right ?_
  rintro ⟨who, site, task, state, state', e', -, hmoves⟩
  have hprunes := hx.prunes q hq node hnormal hplan
  rw [hactivity] at hprunes
  obtain ⟨hprunes, -⟩ := hprunes
  obtain ⟨u, hunit⟩ := Walk.exists_unitAt? hprunes hgroup
  rcases hskip : q.walk.skipEnd? q.walk.position with _ | stop
  · exact absurd hskips (Walk.not_skips_of_skipEnd? hskip)
  have hturn : q.walk.advance state.scope state.hasRun =
      ⟨{ q.walk with position := stop }, state.scope, .advance⟩ := by
    unfold Walk.advance
    simp only [hunit, hskip]
  rw [hmoves.of_advance hactivity, hturn]
  refine ⟨rfl, ?_⟩
  -- the arm that is skipped there holds the whole group
  obtain ⟨span, hmem, hge, hlt, rfl⟩ := Walk.exists_of_skipEnd? hskip
  obtain ⟨c, t, f, j, behind, hcond, harm, -⟩ := hprunes.spans span hmem
  obtain ⟨nodes, i, arms, hstands, hle, hstop⟩ := hprunes.group_within hgroup
  have hfits : group.Fits q.walk.plan q.walk.position :=
    (hnormal.wellFormed hplan).fits.groups _ (Table.mem_of_lookup hgroup)
  have hstart := hfits.start
  have hpos := hfits.pos
  show group.span.stop ≤ span.stop
  rcases Node.IsWork.arm_cases (m := .parallel nodes) trivial hstands hcond harm with hin | hbefore | hbehind
  · rw [Node.width_parallel] at hin
    omega
  · rw [Node.width_parallel] at hbefore
    omega
  · omega

theorem takesGroup (hkeeps : KeepsToPlan past q) : TakesGroup x y q q' first group where
  arrives _ := arrives_of_keepsToPlan hx hq hnormal hplan hmove hq' hserial hgroup hkeeps
  leaves hanchor hstands := by
    refine (turn_of_standsAt hx hq hnormal hplan hmove hq' hserial hgroup hstands).imp_right ?_
    rintro ⟨state, rfl⟩
    rw [if_pos (Option.isSome_iff_ne_none.mpr hanchor)]
    exact ⟨rfl, rfl⟩
  anchored _ := fork_of_handles hx hq hnormal hplan hmove hq' hserial hgroup hkeeps
  virtual hanchor hstands := by
    refine (turn_of_standsAt hx hq hnormal hplan hmove hq' hserial hgroup hstands).imp_right ?_
    rintro ⟨state, rfl⟩
    rw [hanchor]
    rfl
  forks hactivity := by
    have hfits := (hnormal.wellFormed hplan).fits.groups
    have hforward : q.walk.plan.IsForward := fun first group hgroup => by
      have hfit : group.Fits q.walk.plan first := hfits _ (Table.mem_of_lookup hgroup)
      exact hfit.start ▸ hfit.pos
    refine (moved_of_poised hx hq hmove hq' hserial hactivity).imp_right ?_
    rintro ⟨who, site, task, state, state', e', -, hmoves⟩
    obtain ⟨hwalk, hforking⟩ := hmoves.of_fork hactivity (hfits _ (Table.mem_of_lookup hgroup)).two
    refine ⟨hforking, fun more last r anchor branches hlater hr heq hagain => ?_⟩
    have hdone : q'.activity.IsDoneWith q'.walk group.span.stop := by
      rw [hforking]
      exact Nat.le_refl _
    obtain ⟨-, hall⟩ := hlater.isDoneWith (hx.fits.move hmove) (numbered_move hx.fits hx.numbered hmove)
      hq' (hwalk ▸ hforward) hdone
    have hdone := (hall r hr (heq.trans hserial.symm)).2
    rw [hagain] at hdone
    exact hdone.2 rfl
  outside := outside_of_resume? hx hq hnormal hplan hgroup
  skips := skips_of_skips hx hq hnormal hplan hmove hq' hserial hgroup

omit hgroup in
/-- What a walk forks is a group that it has to fork. -/
theorem forks_of_keepsToPlan (hkeeps : KeepsToPlan past q) {anchor : String}
    {branches : List (Branch Plan)} {resume : Resume}
    (hactivity : q'.activity = .poised (.fork anchor branches resume)) : q' = q ∨
      ∃ first group, q.walk.plan.groupAt? first = some group ∧ q'.activity = .poised group.intent ∧
        (group.anchorAt = none ∧ q.StandsAt first ∨
          ∃ anchorAt, group.anchorAt = some anchorAt ∧ q.Handles anchorAt group.anchor none) := by
  rcases hkeeps.cases hx hq hnormal hplan hmove hq' hserial with heq | rfl | hmoved
  · exact .inl heq
  · exact .inl (Process.cancelTasks_eq (Process.activity_cancelTasks_eq hactivity))
  · obtain ⟨first, group, hgroup, hintent, hshould⟩ := hmoved.forks anchor branches resume hactivity
    refine .inr ⟨first, group, hgroup, hintent, ?_⟩
    cases hshould with
    | virtual hanchor hstands => exact .inl ⟨hanchor, hstands⟩
    | @anchored u hfirst hafter hhandles =>
      have hanchor : group.anchorAt = some q.walk.position :=
        of_decide_eq_true (Option.filter_eq_some_iff.mp hafter).2
      have hanchored : group.AnchoredAt q.walk.plan first q.walk.position :=
        (hnormal.wellFormed hplan).fits.anchored _ (Table.mem_of_lookup hgroup) _ hanchor
      obtain ⟨run, hrun, hhas⟩ := hq
      have hunit := hhandles.unitAt? ((hx.fits run hrun).of_has hhas)
      cases hunit.symm.trans hanchored.unit
      exact .inr ⟨_, hanchor, hhandles⟩

end

/-- A group of a plan is forked once each time that a walk comes to it, and only for an anchor that has
succeeded. This holds in every schedule, for units that fork nothing themselves but may fail, route, and
stop the walks that they are in. A walk that is new does not stand at an anchored group. Any other walk
goes about each group of its plan as `TakesGroup` says, forks nothing else, and what it has in mind of a
unit that it comes to is how the unit has ended when the walk was routed to it. -/
theorem History.forks_once {text : String} {part : Node}
    (hbuild : build config registry listeners = .ok start) (hregistry : registry.Abides Law.unforked)
    (hlisteners : listeners.Abide) (hparse : Expression.parse text = .ok node) (hpart : part.Within node)
    (hpast : start.History past x) (hmove : x.move m = some y) (hq' : y.Has q')
    (hplan : part.compile? = some q'.walk.plan) :
    ((∀ q, x.Has q → q'.serial ≠ q.serial) → q'.IsStart x.engine.nextSerial ∧
      ∀ first group, q'.walk.plan.groupAt? first = some group → group.anchorAt ≠ none →
        ¬ q'.StandsAt first) ∧
    ∀ q, x.Has q → q'.serial = q.serial → Recalls past q ∧
      (∀ anchor branches resume, q'.activity = .poised (.fork anchor branches resume) → q' = q ∨
        ∃ first group, q.walk.plan.groupAt? first = some group ∧ q'.activity = .poised group.intent ∧
          (group.anchorAt = none ∧ q.StandsAt first ∨
            ∃ anchorAt, group.anchorAt = some anchorAt ∧ q.Handles anchorAt group.anchor none)) ∧
      ∀ first group, q.walk.plan.groupAt? first = some group → TakesGroup x y q q' first group := by
  have hx := hpast.unforking hbuild hregistry hlisteners
  have hnormal : part.IsNormal := (Expression.isNormal_of_parse hparse).within hpart
  refine ⟨fun hnew => ?_, fun q hq hserial => ?_⟩
  · rcases exists_of_has hmove hq' with hstart | ⟨q, hq, hserial⟩
    · refine ⟨hstart, fun first group hgroup hanchor hstands => hanchor ?_⟩
      rcases hstart with ⟨plan, pooled, rfl⟩ | ⟨u, rfl⟩
      · obtain ⟨-, rfl, -⟩ := hstands
        exact (hnormal.lays_of_compile hplan).2.1.clear_zero group hgroup
      · cases hstands.activity
    · exact absurd hserial (hnew q hq)
  · have hplan : part.compile? = some q.walk.plan :=
      plan_eq_of_move hx.fits hx.numbered hq hmove hq' hserial ▸ hplan
    have hkeeps := hpast.keepsToPlan hbuild hregistry hlisteners hq hnormal hplan
    refine ⟨hkeeps.recalls, fun anchor branches resume hactivity => ?_, fun first group hgroup => ?_⟩
    · exact forks_of_keepsToPlan hx hq hnormal hplan hmove hq' hserial hkeeps hactivity
    · exact takesGroup hx hq hnormal hplan hmove hq' hserial hgroup hkeeps

/-- A unit succeeds that a group is anchored on: the walk is to fork the group next. -/
theorem History.forks_once_behind_unit : ∃ (past : List (Executor × Move)) (x y : Executor)
    (q q' : Process) (group : Group Plan),
    (doing [("a", .done), ("b", .done), ("c", .done)]).History past x ∧ x.Has q ∧
      x.move (.step 0) = some y ∧ y.Has q' ∧ q'.serial = q.serial ∧
      Node.compile? (.sequence [.unit "a", .parallel [.unit "b", .unit "c"]]) = some q.walk.plan ∧
      q.walk.plan.groupAt? 1 = some group ∧ q.Handles 0 group.anchor none ∧
      q'.activity = .poised group.intent ∧ TakesGroup x y q q' 1 group := by
  let units : List (String × Behavior) := [("a", .done), ("b", .done), ("c", .done)]
  let node : Node := .sequence [.unit "a", .parallel [.unit "b", .unit "c"]]
  let plan := node.compile?.getD {}
  let launched := ((doing units).launch (.plan plan) {}).2
  let moves : List Move := List.replicate 4 (.step 0)
  let x := (launched.follow moves).2
  let y := (x.follow [.step 0]).2
  have hparse : Expression.parse "a -> (b, c)" = .ok node := by decide +kernel
  have hcompile : node.compile? = some plan := rfl
  have hregistry : (units.foldl (fun r u => r.addUnit u.1 (.doing u.1 u.2)) ({} : Registry)).Abides
      Law.unforked :=
    Registry.abides_foldl_doing (by simpa [units] using Behavior.Abides.done) nofun
  have hfirst : launched.runs[0]? = some ⟨{ context := {}, scopeId := 1 }, .ofPlan 0 plan false⟩ := rfl
  have hlaunch : (doing units).move (.launch (.plan plan) {}) = some launched := rfl
  have hmove : x.move (.step 0) = some y := move_eq_follow (by decide +kernel)
  obtain ⟨hone, ⟨⟨state, q⟩, hf, hserial, hposition, hends, hvalue⟩, ⟨state', q'⟩, hg, hserial'⟩ :
      x.flows.length = 1 ∧
      (∃ f ∈ x.flows, f.root.serial = 0 ∧ f.root.walk.position = 0 ∧ f.root.ending? = some ("a", .unit) ∧
        (f.root.activity.job?.map fun job => ((Scene.announce ⟨f.root.walk, f.root.activity, f.state,
          x.engine⟩ 0 0 job .after none).run.scope.slots job.unitId).target) = some none) ∧
      ∃ g ∈ y.flows, g.root.serial = 0 ∧ g.root.ending? = none := by
    decide +kernel
  have hstart : (doing units).History ([] ++ [(doing units, .launch (.plan plan) {})]) launched :=
    .move .start hlaunch
  have hlater : launched.History (launched.follow moves).1 x := history_follow launched moves
  clear_value launched x y
  simp only at hserial hposition hends hvalue hserial'
  have hpast := hstart.trans hlater
  have hx := hpast.unforking (build_doing units) hregistry nofun
  have hq : x.Has q := has_root hf
  have hq' : y.Has q' := has_root hg
  -- the walk has been on the plan since it was launched
  have hplan : q.walk.plan = plan := by
    have hl := hstart.unforking (build_doing units) hregistry nofun
    have hhas : launched.Has (.ofPlan 0 plan false) := ⟨_, List.mem_of_getElem? hfirst, .self _⟩
    exact (hlater.keepsSkipping hl.fits hl.numbered hl.prunes hhas
      (Expression.isNormal_of_parse hparse) hcompile).2 q hq hserial |>.1
  have hplan' : q'.walk.plan = plan :=
    (plan_eq_of_move hx.fits hx.numbered hq hmove hq' (hserial'.1.trans hserial.symm)).trans hplan
  obtain ⟨job, hactivity, hstage, hname, hresume⟩ := Process.ending?_eq_some hends
  obtain ⟨group, hgroup, hanchorAt, hanchor⟩ : ∃ group, plan.groupAt? 1 = some group ∧
      group.anchorAt = some 0 ∧ group.anchor = "a" := ⟨_, rfl, rfl, rfl⟩
  have hhandles : q.Handles 0 group.anchor none :=
    .here hposition (.succeeded hactivity hstage (hname.trans hanchor.symm) hresume)
  have hgoes : ∀ state, x.HasIn state q → ¬ q.Stops state x.engine := by
    rintro state₁ hin ⟨job', hactivity', -, hstop⟩
    obtain ⟨f, hf', rfl, hcrew⟩ := hin.exists_flow
    obtain ⟨g, hflows⟩ := List.length_eq_one_iff.mp hone
    rw [hflows] at hf hf'
    obtain rfl := List.mem_singleton.mp hf
    obtain rfl := List.mem_singleton.mp hf'
    cases hactivity.symm.trans hactivity'
    have hstop := Scope.takeRoute_fst_eq_stop.mpr hstop
    rw [Scope.takeRoute_fst] at hstop
    rw [hactivity] at hvalue hstop
    cases (Option.some.inj hvalue).symm.trans hstop
  obtain ⟨-, hknown⟩ := History.forks_once (build_doing units) hregistry nofun hparse .self hpast hmove hq'
    (hplan' ▸ hcompile)
  obtain ⟨-, -, htakes⟩ := hknown q hq (hserial'.1.trans hserial.symm)
  have htakes := htakes 1 group (hplan ▸ hgroup)
  have hforks := (htakes.anchored 0 hanchorAt hhandles hgoes).resolve_left fun heq => by
    rw [heq, hends] at hserial'
    cases hserial'.2
  exact ⟨_, x, y, q, q', group, hpast, hq, hmove, hq', hserial'.1.trans hserial.symm, hplan ▸ hcompile,
    hplan ▸ hgroup, hhandles, hforks, htakes⟩

end Executor

end Workflow
