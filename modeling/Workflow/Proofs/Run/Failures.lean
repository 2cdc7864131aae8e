import Workflow.Proofs.Run.Sites

/-!
# No failure is lost

A failure leaves a mark at the place where it happens: the unit is told of it, or the branch counts
as refused or given up. From there it goes from mark to mark until a walk has recorded it, and from
that walk to the one that waits for it. `Process.Marked` says that there is a mark somewhere in a
process. A move makes a mark exactly if something fails by it (`Executor.marked_iff`), and no move
takes the last one away; so a run ends with a failure exactly if something has failed in it
(`Executor.History.marked_iff`).
-/

namespace Workflow

/-! ## Marks -/

/-- A unit has been told of its failure, or a branch has failed or never got to its end. -/
def Activity.Troubled : Activity → Prop
  | .working job _ | .asleep job _ _ | .calling job _ _ _ => ∃ failure, job.stage = .onError failure
  | .forking _ _ _ children _ => ∃ child ∈ children, child.failure?.isSome = true
  | .poised _ | .queued .. | .inPlace .. => False

/-- Something has failed in a process, and it will be known. -/
inductive Process.Marked : Process → Prop where
  | own {serial : Nat} {walk : Walk} {activity : Activity}
      (h : walk.failure.isSome = true ∨ activity.Troubled) : Marked (.mk serial walk activity)
  | branch {serial : Nat} {walk : Walk} {activity : Activity} {q : Process}
      (hbranch : activity.Branches q) (h : Marked q) : Marked (.mk serial walk activity)

/-- What is about to be done fails: the unit is not there, a call of it fails, or a branch is
refused. -/
def Activity.FailsOn (e : Engine) : Activity → Prop
  | .poised (.execute u _) => e.registry.unit? u = none
  | .working job behavior =>
    (∀ failure, job.stage ≠ .onError failure) ∧ ∃ cause, behavior.FailsWith cause
  | .forking _ _ (_ :: _) _ _ => e.pool.closed = true
  | _ => False

/-- Some branches of a fork are on their way. -/
def Activity.HasTasks : Activity → Prop
  | .forking _ _ _ children _ => ∃ entry branch, Child.running entry branch ∈ children
  | _ => False

theorem Activity.FailsOn.isOwn {e : Engine} {activity : Activity} (h : activity.FailsOn e) :
    activity.IsOwn := by
  cases activity with
  | calling | inPlace => exact h
  | poised | queued | working | asleep | forking => trivial

namespace Behavior

variable {cause : Cause}

@[simp] theorem not_failsWith_done : ¬ done.FailsWith cause := nofun

@[simp] theorem not_failsWith_sleep {milliseconds : Nat} {next : Behavior} :
    ¬ (sleep milliseconds next).FailsWith cause := nofun

@[simp] theorem not_failsWith_runFlow {flowId : String} {next : RunSummary → Behavior} :
    ¬ (runFlow flowId next).FailsWith cause := nofun

end Behavior

namespace Process

variable {serial : Nat} {walk : Walk} {activity : Activity}

theorem marked_iff : (Process.mk serial walk activity).Marked ↔
    walk.failure.isSome = true ∨ activity.Troubled ∨ ∃ q, activity.Branches q ∧ q.Marked := by
  constructor
  · intro h
    cases h with
    | own h => exact h.imp_right .inl
    | branch hbranch h => exact .inr (.inr ⟨_, hbranch, h⟩)
  · rintro (hfailure | htroubled | ⟨q, hbranch, h⟩)
    · exact .own (.inl hfailure)
    · exact .own (.inr htroubled)
    · exact .branch hbranch h

/-- A walk that waits for nothing bears no mark but its own failure. -/
theorem marked_poised {next : Intent} :
    (Process.mk serial walk (.poised next)).Marked ↔ walk.failure.isSome = true := by
  simp [marked_iff, Activity.Troubled, Activity.Branches]

theorem marked_queued {u : String} {unit : FlowUnit} {resume : Resume} :
    (Process.mk serial walk (.queued u unit resume)).Marked ↔ walk.failure.isSome = true := by
  simp [marked_iff, Activity.Troubled, Activity.Branches]

theorem marked_working {job : Job} {rest : Behavior} :
    (Process.mk serial walk (.working job rest)).Marked ↔
      walk.failure.isSome = true ∨ ∃ failure, job.stage = .onError failure := by
  simp [marked_iff, Activity.Troubled, Activity.Branches]

theorem marked_asleep {job : Job} {wakeAt : Nat} {rest : Behavior} :
    (Process.mk serial walk (.asleep job wakeAt rest)).Marked ↔
      walk.failure.isSome = true ∨ ∃ failure, job.stage = .onError failure := by
  simp [marked_iff, Activity.Troubled, Activity.Branches]

theorem marked_calling {job : Job} {run : RunState} {root : Process}
    {next : RunSummary → Behavior} :
    (Process.mk serial walk (.calling job run root next)).Marked ↔
      walk.failure.isSome = true ∨ ∃ failure, job.stage = .onError failure := by
  simp [marked_iff, Activity.Troubled, Activity.Branches]

theorem marked_inPlace {anchor entry : String} {resume : Resume} {branch : Process} :
    (Process.mk serial walk (.inPlace anchor entry resume branch)).Marked ↔
      walk.failure.isSome = true ∨ branch.Marked := by
  simp [marked_iff, Activity.Troubled, Activity.Branches]

end Process

/-- A branch of a fork bears a mark. -/
def Child.Marked (child : Child) : Prop :=
  child.failure?.isSome = true ∨ ∃ entry branch, child = .running entry branch ∧ branch.Marked

namespace Process

variable {serial : Nat} {walk : Walk} {p : Process}

theorem marked_forking {anchor : String} {resume : Resume} {toStart : List (Branch Plan)}
    {children : List Child} {completed : List String} :
    (Process.mk serial walk (.forking anchor resume toStart children completed)).Marked ↔
      walk.failure.isSome = true ∨ ∃ child ∈ children, child.Marked := by
  rw [marked_iff]
  constructor
  · rintro (hfailure | ⟨child, hmem, hfailure⟩ | ⟨q, ⟨entry, hmem⟩, h⟩)
    · exact .inl hfailure
    · exact .inr ⟨child, hmem, .inl hfailure⟩
    · exact .inr ⟨_, hmem, .inr ⟨entry, q, rfl, h⟩⟩
  · rintro (hfailure | ⟨child, hmem, hfailure | ⟨entry, q, rfl, h⟩⟩)
    · exact .inl hfailure
    · exact .inr (.inl ⟨child, hmem, hfailure⟩)
    · exact .inr (.inr ⟨q, ⟨entry, hmem⟩, h⟩)

theorem marked_of_isFinished (h : p.isFinished = true) :
    p.Marked ↔ p.walk.failure.isSome = true := by
  obtain ⟨serial, walk, rfl⟩ := exists_of_isFinished h
  exact marked_poised

end Process

namespace Child

theorem marked_running {entry : String} {branch : Process} :
    (running entry branch).Marked ↔ branch.Marked := by
  simp [Marked, failure?]

theorem marked_ended {entry : String} {failure : Option Failure} :
    (ended entry failure).Marked ↔ failure.isSome = true := by
  simp [Marked, failure?]

theorem marked_refused (entry : String) : (refused entry).Marked := .inl rfl

theorem marked_cancelled (entry : String) : (cancelled entry).Marked := .inl rfl

/-- Branches that are over join with a failure exactly if one of them bears a mark. -/
theorem isSome_joinFailure?_iff {anchor : String} {children : List Child}
    (hover : children.all isOver = true) :
    (Scene.joinFailure? anchor children).isSome = true ↔ ∃ child ∈ children, child.Marked := by
  rw [Scene.joinFailure?, List.findSome?_isSome_iff]
  refine exists_congr fun child => and_congr_right fun hmem => ?_
  rw [Option.isSome_map, Marked]
  have hchild := List.all_eq_true.mp hover child hmem
  cases child with
  | running => exact absurd hchild (by simp [isOver])
  | refused | ended | cancelled => simp

end Child

/-! ## One step at one walk -/

namespace Scene

variable {s s' : Scene} {task serial : Nat}

theorem marked_turn {t : Turn} {plan : Plan} {pooled : Bool} {failure : Option Failure}
    (h : t.Keeps plan pooled failure) :
    (Process.mk serial t.walk (.poised t.next)).Marked ↔ failure.isSome = true := by
  rw [Process.marked_poised, h.failure]

theorem marked_endUnit {job : Job} (hearly : s.walk.EarlyFits)
    (hawaits : s.walk.AwaitsUnit job.unitId job.resume) (result : Option Mishap) :
    ((s.endUnit task serial job result).process serial).Marked ↔
      (s.walk.failure.or (result.map Mishap.failure)).isSome = true := by
  rw [endUnit_eq]
  exact marked_turn (Walk.keeps_unitDone hearly hawaits _ _ _ result)

/-- A walk bears a mark after a step exactly if it did so before or fails by the step. -/
theorem Steps.marked_iff (h : s.Steps task serial s') (hfits : (s.process serial).Fits) :
    (s'.process serial).Marked ↔ (s.process serial).Marked ∨ s.activity.FailsOn s.engine := by
  obtain ⟨hearly, hat, -⟩ := hfits
  obtain ⟨walk, activity, run, engine⟩ := s
  simp only at hearly hat
  cases h with
  | advance h =>
    obtain rfl : activity = _ := h
    have hturn := @marked_turn serial _ _ _ _ (Walk.keeps_advance hearly run.scope run.hasRun)
    refine hturn.trans ?_
    simp [process, Process.marked_poised, Activity.FailsOn]
  | @missing u resume h hunit =>
    obtain rfl : activity = _ := h
    have hturn := @marked_turn serial _ _ _ _ (Walk.keeps_unitDone hearly hat run.scope run.hasRun
      run.context.tolerant (some ⟨.unknownUnit u, false⟩))
    refine hturn.trans ?_
    simp [process, Process.marked_poised, Activity.FailsOn, hunit]
  | queues h hunit =>
    obtain rfl : activity = _ := h
    simp [process, Process.marked_poised, Process.marked_queued, Activity.FailsOn, hunit]
  | begins h hunit =>
    obtain rfl : activity = _ := h
    simp [process, beginUnit, Process.marked_poised, Process.marked_working, Activity.FailsOn, hunit]
  | granted h =>
    obtain rfl : activity = _ := h
    simp [process, beginUnit, Process.marked_queued, Process.marked_working, Activity.FailsOn]
  | @does job behavior rest run' e' h hdoes =>
    obtain rfl : activity = _ := h
    -- whatever a unit does but fail is no failure
    have hnot : ∀ cause, ¬ behavior.FailsWith cause := fun cause hfails => by
      cases hdoes <;> cases hfails
    simp [process, Process.marked_working, Activity.FailsOn, hnot]
  | sleeps h =>
    obtain rfl : activity = _ := h
    simp [process, Process.marked_working, Process.marked_asleep, Activity.FailsOn]
  | wakes h =>
    obtain rfl : activity = _ := h
    simp [process, Process.marked_working, Process.marked_asleep, Activity.FailsOn]
  | opens h =>
    obtain rfl : activity = _ := h
    simp [process, Process.marked_working, Process.marked_calling, Activity.FailsOn]
  | runs h hstage | tidies h hstage =>
    obtain rfl : activity = _ := h
    simp [process, call, announce, Process.marked_working, Activity.FailsOn, hstage]
  | @ends job h hstage =>
    obtain rfl : activity = _ := h
    refine (marked_endUnit (s := announce ⟨walk, _, run, engine⟩ task serial job .after none) hearly hat
      none).trans ?_
    simp [process, announce, Process.marked_working, Activity.FailsOn, hstage]
  | fails h hfails hstage =>
    obtain rfl : activity = _ := h
    simp only [process, call, Process.marked_working, Activity.FailsOn]
    -- here a mark is made: the unit is told of the failure
    exact iff_of_true (.inr ⟨_, rfl⟩) (.inr ⟨hstage, _, hfails⟩)
  | @gaveUp job behavior failure h hover hstage =>
    obtain rfl : activity = _ := h
    refine (marked_endUnit (s := announce ⟨walk, _, run, engine⟩ task serial job .error (some failure))
      hearly hat (some ⟨failure, job.unit.tolerant⟩)).trans ?_
    -- the mark goes from the unit to the walk, which records the failure
    simp [process, Process.marked_working, hstage]
  | forksNone h =>
    obtain rfl : activity = _ := h
    have hturn := @marked_turn serial _ _ _ _ (Walk.keeps_forkDone hearly hat run.scope run.hasRun
      run.context.tolerant none)
    refine hturn.trans ?_
    simp [process, Process.marked_poised, Activity.FailsOn]
  | forksOne h =>
    obtain rfl : activity = _ := h
    simp [process, record, Process.marked_poised, Process.marked_inPlace, Activity.FailsOn,
      Process.ofPlan]
  | forks h =>
    obtain rfl : activity = _ := h
    simp [process, record, Process.marked_poised, Process.marked_forking, Activity.FailsOn]
  | starts h hopen =>
    obtain rfl : activity = _ := h
    simp only at hopen
    simp [process, record, Process.marked_forking, Activity.FailsOn, hopen, Child.marked_running,
      Process.ofPlan, Process.marked_poised, or_and_right, exists_or]
  | @refuses anchor resume branch toStart children completed h hclosed =>
    obtain rfl : activity = _ := h
    simp only [process, Process.marked_forking, Activity.FailsOn]
    -- and here: the branch counts as refused
    refine iff_of_true (.inr ⟨.refused branch.entry, ?_, Child.marked_refused _⟩) (.inr hclosed)
    exact List.mem_append_right _ List.mem_cons_self
  | @joins anchor resume children completed h hover =>
    obtain rfl : activity = _ := h
    have hturn := @marked_turn serial _ _ _ _ (Walk.keeps_forkDone hearly hat
      (run.publish (joinFailure? anchor children) completed).scope
      (run.publish (joinFailure? anchor children) completed).hasRun
      (run.publish (joinFailure? anchor children) completed).context.tolerant
      (joinFailure? anchor children))
    refine hturn.trans ?_
    -- the mark goes from a branch to the walk that waits for it
    rw [Option.isSome_or, Bool.or_eq_true, Child.isSome_joinFailure?_iff hover]
    simp [process, Process.marked_forking, Activity.FailsOn]

end Scene

/-! ## Steps in a tree -/

/-- A mark that is made in one branch is made in all of them. -/
private theorem or_mark {own before branch after fails : Prop} :
    own ∨ before ∨ (branch ∨ fails) ∨ after ↔ (own ∨ before ∨ branch ∨ after) ∨ fails := by
  tauto

/-- A process bears a mark after a move exactly if it did so before, or something in its run fails
by the move. -/
theorem Process.Moves.marked_iff {who task : Nat} {p p' : Process} {run run' : RunState}
    {e e' : Engine} {site : Site} (h : p.Moves who site task run e p' run' e') (hfits : p.Fits) :
    p'.Marked ↔ p.Marked ∨ (site.depth = 0 ∧ site.process.activity.FailsOn e) := by
  -- A call is another run, whose failures the walk learns of as of any other failure of its unit.
  -- The branches are of the same run, and a mark in one of them is one in the whole.
  induction h with
  | here h =>
    refine (h.marked_iff hfits).trans ?_
    simp [Scene.process, Site.here, Process.activity]
  | called => simp [Process.marked_calling, Site.called]
  | returned => simp [Process.marked_calling, Process.marked_working, Site.called]
  | inPlace _ _ ih =>
    obtain ⟨-, -, hinside⟩ := hfits
    rw [Process.marked_inPlace, Process.marked_inPlace, ih (hinside _ rfl), Site.depth_within,
      Site.process_within, or_assoc]
  | @inPlaceEnded task serial walk anchor entry resume branch branch' run run' e e' s site h hfinished
      hclose ih =>
    obtain ⟨hearly, hat, hinside⟩ := hfits
    subst hclose
    have hturn := @Scene.marked_turn serial _ _ _ _ (Walk.keeps_forkDone hearly hat
      (run'.publish (Scene.branchFailure? anchor entry branch') [entry]).scope
      (run'.publish (Scene.branchFailure? anchor entry branch') [entry]).hasRun
      (run'.publish (Scene.branchFailure? anchor entry branch') [entry]).context.tolerant
      (Scene.branchFailure? anchor entry branch'))
    refine hturn.trans ?_
    rw [Option.isSome_or, Bool.or_eq_true, Scene.branchFailure?, Option.isSome_map,
      ← Process.marked_of_isFinished hfinished, Process.marked_inPlace, ih (hinside _ rfl),
      Site.depth_within, Site.process_within, or_assoc]
  | @child task serial walk anchor entry resume toStart before after completed branch branch' _ _ _ _ site
      h _ _ ih =>
    obtain ⟨-, -, hinside⟩ := hfits
    simp only [Process.marked_forking, List.mem_append, List.mem_cons, or_and_right, exists_or,
      exists_eq_left, Child.marked_running, ih (hinside branch ⟨entry, by simp⟩), Site.depth_within,
      Site.process_within]
    exact or_mark
  | @childEnded task serial walk anchor entry resume toStart before after completed _ branch branch' _ _ _
      _ site h hfinished _ _ ih =>
    obtain ⟨-, -, hinside⟩ := hfits
    simp only [Process.marked_forking, List.mem_append, List.mem_cons, or_and_right, exists_or,
      exists_eq_left, Child.marked_running, Child.marked_ended,
      ← Process.marked_of_isFinished hfinished, ih (hinside branch ⟨entry, by simp⟩),
      Site.depth_within, Site.process_within]
    exact or_mark

/-- Giving up the tasks of a process leaves a mark exactly if there is one already or a branch is on
its way. -/
theorem Process.marked_cancelTasks (task : Nat) (run : RunState) : (p : Process) →
    (p.cancelTasks.Marked ↔ p.Marked ∨
      ∃ who site, p.At who task run site ∧ site.depth = 0 ∧ site.process.activity.HasTasks)
  | .mk serial walk (.poised _) | .mk serial walk (.queued ..) | .mk serial walk (.working ..)
  | .mk serial walk (.asleep ..) => by
    refine (or_iff_left ?_).symm
    rintro ⟨who, site, hat, -, htasks⟩
    cases hat
    exact htasks
  | .mk serial walk (.calling job inner root next) => by
    rw [Process.cancelTasks, Activity.cancelTasks, Process.marked_calling, Process.marked_calling]
    refine (or_iff_left ?_).symm
    rintro ⟨who, site, hat, hdepth, htasks⟩
    cases hat with
    | here => exact htasks
    | called => cases hdepth
  | .mk serial walk (.inPlace anchor entry resume branch) => by
    rw [Process.cancelTasks, Activity.cancelTasks, Process.marked_inPlace, Process.marked_inPlace,
      Process.marked_cancelTasks task run branch, or_assoc]
    refine or_congr_right (or_congr_right ⟨?_, ?_⟩)
    · rintro ⟨who, site, hat, hdepth, htasks⟩
      exact ⟨who, _, .inPlace hat, by rwa [Site.depth_within], by rwa [Site.process_within]⟩
    · rintro ⟨who, site, hat, hdepth, htasks⟩
      cases hat with
      | here => exact htasks.elim
      | inPlace hat =>
        rw [Site.depth_within] at hdepth
        rw [Site.process_within] at htasks
        exact ⟨who, _, hat, hdepth, htasks⟩
  | .mk serial walk (.forking anchor resume toStart children completed) => by
    rw [Process.cancelTasks, Activity.cancelTasks, Process.marked_forking, Process.marked_forking,
      or_assoc]
    refine or_congr_right ⟨?_, ?_⟩
    · rintro ⟨child, hmem, hmarked⟩
      obtain ⟨old, hold, rfl⟩ := List.mem_map.mp hmem
      cases old with
      | running entry branch => exact .inr ⟨task, _, .here, rfl, entry, branch, hold⟩
      | refused | ended | cancelled => exact .inl ⟨_, hold, hmarked⟩
    · rintro (⟨child, hmem, hmarked⟩ | ⟨who, site, hat, -, htasks⟩)
      · refine ⟨child.cancel, List.mem_map_of_mem hmem, ?_⟩
        cases child with
        | running entry branch => exact Child.marked_cancelled entry
        | refused | ended | cancelled => exact hmarked
      · -- whoever has a branch on its way is this walk, or in a branch of it
        obtain ⟨entry, branch, hmem⟩ : ∃ entry branch, Child.running entry branch ∈ children := by
          cases hat with
          | here => exact htasks
          | child hmem => exact ⟨_, _, hmem⟩
        exact ⟨_, List.mem_map_of_mem hmem, Child.marked_cancelled entry⟩

/-! ## Runs -/

namespace Executor

variable {x y start last : Executor} {m : Move} {i : Nat} {run run' : Run}
  {past : List (Executor × Move)}

/-- Something in a run fails by a move: a unit is not there, a call fails, or branches are refused or
given up. -/
def FailsBy (x : Executor) (i : Nat) (m : Move) : Prop :=
  (∃ who site, m = .step who ∧ x.At i who site ∧ site.depth = 0 ∧
    site.process.activity.FailsOn x.engine) ∨
  (x.GivesUpBy m ∧ ∃ who site, x.At i who site ∧ site.depth = 0 ∧ site.process.activity.HasTasks)

/-- A run bears a mark after a move exactly if it did so before or fails by the move. -/
theorem marked_iff (hnumbered : x.ledger.Numbered) (hfits : x.Fits) (hrun : x.runs[i]? = some run)
    (haffects : x.Affects m y i run run') :
    run'.root.Marked ↔ run.root.Marked ∨ x.FailsBy i m := by
  have hroot := hfits run (List.mem_of_getElem? hrun)
  cases haffects with
  | others hstep hkeep =>
    refine (or_iff_left ?_).symm
    rintro (⟨who, site, hmove, hat, -, hfails⟩ | ⟨hgives, -⟩)
    · exact hstep who site hmove hat hfails.isOwn
    · exact hkeep hgives
  | @step who site _ hmove hmoves =>
    subst hmove
    rw [hmoves.marked_iff hroot]
    refine or_congr_right ⟨?_, ?_⟩
    · rintro ⟨hdepth, hfails⟩
      exact .inl ⟨who, site, rfl, ⟨run, hrun, hmoves.at.1⟩, hdepth, hfails⟩
    · rintro (⟨_, other, ⟨⟩, ⟨run₀, hrun₀, hat⟩, hdepth, hfails⟩ | ⟨hgives, -⟩)
      · obtain rfl : run = run₀ := Option.some.inj (hrun.symm.trans hrun₀)
        obtain ⟨hsite, hown⟩ := hmoves.at
        rw [hsite.unique (nodup_root hnumbered hrun) hown hat hfails.isOwn]
        exact ⟨hdepth, hfails⟩
      · cases hgives.1
  | givesUp hgives =>
    rw [Process.marked_cancelTasks run.root.serial run.state run.root]
    refine or_congr_right ⟨?_, ?_⟩
    · rintro ⟨who, site, hat, hdepth, htasks⟩
      exact .inr ⟨hgives, who, site, ⟨run, hrun, hat⟩, hdepth, htasks⟩
    · rintro (⟨who, site, hmove, -⟩ | ⟨-, who, site, ⟨run₀, hrun₀, hat⟩, hdepth, htasks⟩)
      · cases hgives.1.symm.trans hmove
      · obtain rfl : run = run₀ := Option.some.inj (hrun.symm.trans hrun₀)
        exact ⟨who, site, hat, hdepth, htasks⟩

/-- A run stays where it is in the list of runs, and what is preserved by every move holds of it all
along. -/
theorem History.follow_run {P : List (Executor × Move) → Run → Prop} (h : start.History past last)
    (hfits : start.Fits) (hnumbered : start.ledger.Numbered) (hrun : start.runs[i]? = some run)
    (hstart : P [] run)
    (hstep : ∀ past x y m own own', start.History past x → x.Fits → x.ledger.Numbered →
      x.move m = some y → x.runs[i]? = some own → y.runs[i]? = some own' → x.Affects m y i own own' →
      P past own → P (past ++ [(x, m)]) own') :
    ∃ run', last.runs[i]? = some run' ∧ P past run' := by
  induction h with
  | start => exact ⟨run, hrun, hstart⟩
  | @move past x y m h hmove ih =>
    obtain ⟨own, hown, hholds⟩ := ih
    have hx := h.numbered hfits hnumbered
    obtain ⟨own', hown', haffects⟩ := affected hx hmove hown
    exact ⟨own', hown', hstep past x y m own own' h (h.fits hfits) hx hmove hown hown' haffects hholds⟩

theorem History.exists_run (h : start.History past last) (hfits : start.Fits)
    (hnumbered : start.ledger.Numbered) (hrun : start.runs[i]? = some run) :
    ∃ run', last.runs[i]? = some run' := by
  obtain ⟨run', hrun', -⟩ := h.follow_run (P := fun _ _ => True) hfits hnumbered hrun trivial
    fun _ _ _ _ _ _ _ _ _ _ _ _ _ _ => trivial
  exact ⟨run', hrun'⟩

/-- A run goes on with its plan. -/
theorem History.keeps_plan (h : start.History past last) (hfits : start.Fits)
    (hnumbered : start.ledger.Numbered) (hrun : start.runs[i]? = some run) :
    ∃ run', last.runs[i]? = some run' ∧ run'.root.walk.plan = run.root.walk.plan := by
  refine h.follow_run (P := fun _ own => own.root.walk.plan = run.root.walk.plan) hfits hnumbered hrun
    rfl fun past x y m own own' _ hfits _ _ hown _ haffects hplan => Eq.trans ?_ hplan
  cases haffects with
  | others => rfl
  | step _ hmoves => exact hmoves.plan (hfits _ (List.mem_of_getElem? hown))
  | givesUp => rw [Process.walk_cancelTasks]

/-- A run that began without a mark bears one exactly if something has failed in it. -/
theorem History.marked_iff (h : start.History past last) (hfits : start.Fits)
    (hnumbered : start.ledger.Numbered) (hrun : start.runs[i]? = some run)
    (hclean : ¬ run.root.Marked) (hlast : last.runs[i]? = some run') :
    run'.root.Marked ↔ ∃ x m, (x, m) ∈ past ∧ x.FailsBy i m := by
  obtain ⟨_, hsame, hiff⟩ := h.follow_run
    (P := fun past own => own.root.Marked ↔ ∃ x m, (x, m) ∈ past ∧ x.FailsBy i m) hfits hnumbered hrun
    (by simp [hclean]) fun past x y m own own' _ hfits hnumbered _ hown _ haffects hiff => by
      rw [Executor.marked_iff hnumbered hfits hown haffects, hiff]
      simp [or_and_right, exists_or]
  cases hlast.symm.trans hsame
  exact hiff

end Executor

end Workflow
