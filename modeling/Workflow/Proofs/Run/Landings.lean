import Workflow.Proofs.Run.Joins

/-!
# Where a step leads

A task that has something to do at its site does it in the step of the whole executor, and stands
there afterwards: `Executor.At.step_eq` computes that step from what the walk does by itself. All the
others, as long as nothing runs below them, stay where they are and write nothing down
(`Executor.At.stays`), unless their task is given up.
-/

namespace Workflow

/-! ## The step of a task -/

namespace Child

variable {who : Nat} {run run' : RunState} {e e' : Engine}

/-- A branch has no step for a task that is not in it. -/
theorem step_eq_none {child : Child} (h : who ∉ child.serials) : child.step who run e = none := by
  cases child with
  | refused | ended | cancelled => rfl
  | running entry branch =>
    rw [step, Option.map_eq_none_iff, ← Option.not_isSome_iff_eq_none]
    intro hsome
    obtain ⟨⟨branch', run', e'⟩, hstep⟩ := Option.isSome_iff_exists.mp hsome
    obtain ⟨site, hmoves⟩ := Process.moves_of_step hstep
    exact h hmoves.at.1.mem_serials

theorem stepIn_middle {before after : List Child} {child child' : Child} {ended : List String}
    (hbefore : ∀ other ∈ before, who ∉ other.serials)
    (h : child.step who run e = some (child', ended, run', e')) :
    stepIn who (before ++ child :: after) run e = some (before ++ child' :: after, ended, run', e') := by
  induction before with
  | nil => rw [List.nil_append, stepIn, h, List.nil_append]
  | cons first rest ih =>
    rw [List.cons_append, stepIn, step_eq_none (hbefore first List.mem_cons_self),
      ih fun other hother => hbefore other (List.mem_cons_of_mem _ hother)]
    rfl

end Child

namespace Process

variable {who task : Nat} {p p' : Process} {run run' : RunState} {e e' : Engine} {site : Site}

/-- What a task does at its site, as long as the walk there does not come to its end by it, is all that
happens by its step. -/
theorem At.step_eq {s : Scene} (h : p.At who task run site)
    (hnodup : (task :: p.activity.serials).Nodup)
    (hhere : Scene.stepHere ⟨site.process.walk, site.process.activity, site.run, e⟩ who
      site.process.serial = some s) (hrunning : (s.process site.process.serial).isFinished = false) :
    ∃ p' run' site', p.step who task run e = some (p', run', s.engine) ∧ p'.serial = p.serial ∧
      p'.At who task run' site' ∧ site'.process = s.process site.process.serial ∧
      site'.run = s.run := by
  induction h with
  | @here p run =>
    obtain ⟨serial, walk, activity⟩ := p
    exact ⟨.mk serial s.walk s.activity, s.run, _, step_here hhere, rfl, .here, rfl, rfl⟩
  | @called task serial walk job inner run root next site h ih =>
    obtain ⟨root', inner', site', hstep, -, hat, hprocess, hrun⟩ :=
      ih (nodup_activity hnodup) hhere hrunning
    have hroot : root'.isFinished = false := Bool.eq_false_iff.mpr fun hfinished =>
      not_at_of_isFinished hfinished (hprocess ▸ hrunning) hat
    refine ⟨.mk serial walk (.calling job inner' root' next), run, site'.called, ?_, rfl, .called hat,
      hprocess, hrun⟩
    rw [step, Activity.step, hstep]
    simp [Scene.stepCalled, hroot]
  | @inPlace task serial walk anchor entry resume branch run site h ih =>
    rw [Site.process_within, Site.run_within] at hhere
    rw [Site.process_within] at hrunning ⊢
    obtain ⟨branch', run', site', hstep, -, hat, hprocess, hrun⟩ :=
      ih (nodup_activity hnodup) hhere hrunning
    have hbranch : branch'.isFinished = false := Bool.eq_false_iff.mpr fun hfinished =>
      not_at_of_isFinished hfinished (hprocess ▸ hrunning) hat
    refine ⟨.mk serial walk (.inPlace anchor entry resume branch'), run', site'.within serial, ?_, rfl,
      .inPlace hat, by rw [Site.process_within, hprocess], by rw [Site.run_within, hrun]⟩
    rw [step, Activity.step, hstep]
    simp [Scene.stepInPlace, hbranch]
  -- of the branches the first that can move does so; those before do not have the task
  | @child task serial walk anchor entry resume toStart children completed branch run site hmem h ih =>
    obtain ⟨hne, hown⟩ := h.ne_task hmem hnodup
    rw [Site.process_within, Site.run_within] at hhere
    rw [Site.process_within] at hrunning ⊢
    obtain ⟨branch', run', site', hstep, hserial, hat, hprocess, hrun⟩ := ih hown hhere hrunning
    have hbranch : branch'.isFinished = false := Bool.eq_false_iff.mpr fun hfinished =>
      not_at_of_isFinished hfinished (hprocess ▸ hrunning) hat
    obtain ⟨before, after, rfl⟩ := List.append_of_mem hmem
    have hchild : (Child.running entry branch).step who run e =
        some (.running entry branch', [], run', s.engine) := by
      rw [Child.step, hstep]
      simp [hbranch]
    have hbefore : ∀ other ∈ before, who ∉ other.serials := by
      intro other hother hin
      have hchildren : (Child.serialsIn (before ++ .running entry branch :: after)).Nodup :=
        (List.nodup_cons.mp hnodup).2
      rw [Child.serialsIn_eq_flatMap] at hchildren
      exact not_mem_of_nodup_flatMap hchildren (.inl hother) hin h.mem_serials
    rw [← hserial] at hat
    refine ⟨.mk serial walk (.forking anchor resume toStart (before ++ .running entry branch' :: after)
      completed), run', site'.within serial, ?_, rfl, .child (mem_children ..) hat,
      by rw [Site.process_within, hprocess], by rw [Site.run_within, hrun]⟩
    rw [step, Activity.step, if_neg hne, Child.stepIn_middle hbefore hchild]
    simp

end Process

/-! ## The others -/

theorem Child.mem_tasksIn {children : List Child} {entry : String} {branch : Process} {w : Nat}
    (hmem : .running entry branch ∈ children) (hw : w ∈ branch.serial :: branch.tasks) :
    w ∈ tasksIn children := by
  induction children with
  | nil => cases hmem
  | cons first rest ih =>
    rw [tasksIn, List.mem_append]
    rcases List.mem_cons.mp hmem with rfl | hmem
    · exact .inl hw
    · exact .inr (ih hmem)

/-- A walk starts no branch where it stands but on an open pool, and one at a time. -/
theorem Scene.Steps.tasks_cases {s s' : Scene} {task serial w : Nat} (h : s.Steps task serial s')
    (hw : w ∈ s'.activity.tasks) :
    w ∈ s.activity.tasks ∨ (w = s.engine.nextSerial ∧ s.engine.isClosed = false) := by
  obtain ⟨walk, activity, run, engine⟩ := s
  cases h with
  | starts heq hopen =>
    obtain rfl : activity = _ := heq
    simp only [activity_record, Activity.tasks, Child.tasksIn_append, Child.tasksIn, Child.tasks,
      List.mem_append, List.mem_cons, List.append_nil] at hw ⊢
    rcases hw with hold | rfl | hnone
    · exact .inl hold
    · exact .inr ⟨rfl, hopen⟩
    · cases hnone
  | refuses heq =>
    obtain rfl : activity = _ := heq
    left
    simpa [Activity.tasks, Child.tasksIn_append, Child.tasksIn, Child.tasks] using hw
  | advance | missing | queues | begins | granted | does | sleeps | wakes | opens | runs | tidies | ends
  | fails | gaveUp | forksNone | forksOne | forks | joins => cases hw

namespace Process

variable {who who' task : Nat} {p p' : Process} {run run' : RunState} {e e' : Engine}
  {site moved : Site}

/-- A walk that waits for nothing below it writes nothing down when another task does something. -/
theorem Moves.own_of_alone (h : p.Moves who' moved task run e p' run' e') (hnodup : p.serials.Nodup)
    (hat : p.At who task run site) (halone : ∀ r, ¬ site.process.activity.Runs r) (hne : who' ≠ who) :
    Journal.own e'.journal.toList site.process.serial =
      Journal.own e.journal.toList site.process.serial := by
  -- a move writes down something of the walk that makes it, and of the walks above that join in
  -- place
  induction h generalizing who site with
  | @here serial _ _ _ _ _ h =>
    cases hat with
    | here => exact absurd rfl hne
    | called | inPlace => exact h.isOwn.elim
    | child hmem hat =>
      rw [Site.process_within]
      refine h.logs.own_eq fun entry hentry => ?_
      rw [hentry.1]
      rintro rfl
      exact serial_notMem hnodup (Child.mem_serialsIn hmem
        (hat.has.serials_subset (serial_mem_serials _)))
  | called _ _ ih | returned _ _ ih =>
    cases hat with
    | here => exact absurd rfl (halone _)
    | called hat =>
      have hown := ih (List.nodup_cons.mp hnodup).2 hat halone hne
      exact hown
  | inPlace _ _ ih =>
    cases hat with
    | here => exact absurd rfl (halone _)
    | inPlace hat =>
      rw [Site.process_within] at halone ⊢
      exact ih (List.nodup_cons.mp hnodup).2 hat halone hne
  | inPlaceEnded h _ hclose ih =>
    cases hat with
    | here => exact absurd rfl (halone _)
    | inPlace hat =>
      rw [Site.process_within] at halone ⊢
      obtain ⟨hserial, hbranch⟩ := List.nodup_cons.mp hnodup
      subst hclose
      refine (Engine.own_record_of_ne _ _ _ fun heq => hserial ?_).trans (ih hbranch hat halone hne)
      exact heq ▸ hat.has.serials_subset (serial_mem_serials _)
  | @child _ serial _ _ entry _ _ before after _ branch _ _ _ _ _ _ h _ _ ih
  | @childEnded _ serial _ _ entry _ _ before after _ _ branch _ _ _ _ _ _ h _ _ _ ih =>
    cases hat with
    | here => exact absurd ⟨_, mem_children ..⟩ (halone _)
    | @child _ _ _ _ _ _ _ _ _ other _ inner hmem hat =>
      rw [Site.process_within] at halone ⊢
      have hchildren := (List.nodup_cons.mp hnodup).2
      have hmine := mem_children before after entry branch
      have hbranch := Child.nodup_serials hchildren hmine
      have hin := hat.has.serials_subset (serial_mem_serials _)
      by_cases hthere : inner.process.serial ∈ branch.serials
      · cases Child.eq_of_mem_serials hchildren hmem hmine hin hthere
        exact ih hbranch hat halone hne
      -- the walk is in another branch, where the move writes nothing
      · exact h.own_eq hbranch hthere

/-- Nothing is given up where nothing runs. -/
theorem cancelTasks_of_alone (h : ∀ r, ¬ p.activity.Runs r) : p.cancelTasks = p := by
  obtain ⟨serial, walk, activity⟩ := p
  cases activity with
  | poised | queued | working | asleep => rfl
  | calling | inPlace => exact absurd rfl (h _)
  | forking anchor resume toStart children completed =>
    have hchildren : children.map Child.cancel = children := by
      refine (List.map_congr_left fun child hchild => ?_).trans (List.map_id children)
      cases child with
      | running entry branch => exact absurd ⟨entry, hchild⟩ (h branch)
      | refused | ended | cancelled => rfl
    show Process.mk serial walk (.forking anchor resume toStart (children.map Child.cancel) completed) = _
    rw [hchildren]

/-- A branch that is there after a step was there before, or has just been started. -/
theorem Moves.tasks_cases (h : p.Moves who site task run e p' run' e') {w : Nat} (hw : w ∈ p'.tasks) :
    w ∈ p.tasks ∨ (w = e.nextSerial ∧ e.isClosed = false) := by
  induction h with
  | here h => exact h.tasks_cases hw
  | called _ _ ih | inPlace _ _ ih => exact ih hw
  | returned => cases hw
  | inPlaceEnded _ _ hclose =>
    subst hclose
    cases hw
  | child h _ _ ih =>
    simp only [tasks, Activity.tasks, Child.tasksIn_append, Child.tasksIn, Child.tasks,
      List.mem_append, List.mem_cons, h.serial] at hw ⊢
    tauto
  | childEnded _ _ _ _ ih =>
    simp only [tasks, Activity.tasks, Child.tasksIn_append, Child.tasksIn, Child.tasks,
      List.mem_append, List.mem_cons, List.nil_append] at hw ⊢
    tauto

/-- A task is that of a process or of a branch in it. -/
theorem At.mem_tasks (h : p.At who task run site) : who = task ∨ who ∈ p.tasks := by
  induction h with
  | here => exact .inl rfl
  | called _ ih | inPlace _ ih => exact ih
  | child hmem _ ih => exact .inr (Child.mem_tasksIn hmem (List.mem_cons.mpr ih))

/-- Who has not been given up is at its site when the branches below it have been. -/
theorem At.cancelTasks (h : p.At who task run site) (hwho : who ∉ p.tasks) :
    ∃ site', p.cancelTasks.At who task run site' ∧ site'.run = site.run ∧
      site'.process = site.process.cancelTasks := by
  induction h with
  | here => exact ⟨_, .here, rfl, rfl⟩
  | called _ ih =>
    obtain ⟨site', hat, hrun, hprocess⟩ := ih hwho
    exact ⟨site'.called, .called hat, hrun, hprocess⟩
  | @inPlace _ serial _ _ _ _ _ _ _ _ ih =>
    obtain ⟨site', hat, hrun, hprocess⟩ := ih hwho
    refine ⟨site'.within serial, .inPlace hat, ?_, ?_⟩
    · rw [Site.run_within, Site.run_within, hrun]
    · rw [Site.process_within, Site.process_within, hprocess]
  | child hmem h =>
    exact absurd (Child.mem_tasksIn hmem (List.mem_cons.mpr h.mem_tasks)) hwho

end Process

namespace Executor

variable {x y : Executor} {m : Move} {i who : Nat} {site : Site}

theorem stepRuns_middle {e e' : Engine} {before after : List Run} {run : Run} {root : Process}
    {state : RunState} (hbefore : ∀ other ∈ before, who ∉ other.root.serials)
    (h : run.root.step who run.root.serial run.state e = some (root, state, e')) :
    stepRuns who e (before ++ run :: after) = some (before ++ ⟨state, root⟩ :: after, e') := by
  induction before with
  | nil =>
    rw [List.nil_append, stepRuns, h]
    rfl
  | cons first rest ih =>
    have hnone : first.root.step who first.root.serial first.state e = none := by
      rw [← Option.not_isSome_iff_eq_none]
      intro hsome
      obtain ⟨⟨root', state', e'⟩, hstep⟩ := Option.isSome_iff_exists.mp hsome
      obtain ⟨moved, hmoves⟩ := Process.moves_of_step hstep
      exact hbefore first List.mem_cons_self hmoves.at.1.mem_serials
    rw [List.cons_append, stepRuns, hnone,
      ih fun other hother => hbefore other (List.mem_cons_of_mem _ hother)]
    rfl

/-- What a task does at its site, as long as the walk there does not come to its end by it, is all that
happens by its step. -/
theorem At.step_eq {s : Scene} (h : x.At i who site) (hnumbered : x.ledger.Numbered)
    (hhere : Scene.stepHere ⟨site.process.walk, site.process.activity, site.run, x.engine⟩ who
      site.process.serial = some s) (hrunning : (s.process site.process.serial).isFinished = false) :
    ∃ y site', x.step who = some y ∧ y.engine = s.engine ∧ y.At i who site' ∧
      site'.process = s.process site.process.serial ∧ site'.run = s.run := by
  obtain ⟨run, hrun, hat⟩ := h
  obtain ⟨root, state, site', hstep, hserial, hat', hprocess, hstate⟩ :=
    hat.step_eq (nodup_root hnumbered hrun) hhere hrunning
  obtain ⟨hi, rfl⟩ := List.getElem?_eq_some_iff.mp hrun
  have hruns : x.runs.take i ++ x.runs[i] :: x.runs.drop (i + 1) = x.runs := by
    rw [← List.drop_eq_getElem_cons hi, List.take_append_drop]
  have hbefore : ∀ other ∈ x.runs.take i, who ∉ other.root.serials := by
    intro other hother hin
    obtain ⟨j, hj⟩ := List.getElem?_of_mem hother
    have hlt : j < i := by
      have hbound := (List.getElem?_eq_some_iff.mp hj).1
      rw [List.length_take] at hbound
      omega
    rw [List.getElem?_take_of_lt hlt] at hj
    exact Nat.ne_of_lt hlt (index_eq_of_mem_serials hnumbered hj hrun hin hat.mem_serials)
  have hmiddle := @stepRuns_middle who _ _ _ (x.runs.drop (i + 1)) _ _ _ hbefore hstep
  rw [hruns] at hmiddle
  refine ⟨_, site', by rw [Executor.step, hmiddle]; rfl, rfl, ⟨⟨state, root⟩, ?_, ?_⟩, hprocess, hstate⟩
  · have hlength : (x.runs.take i).length = i := by
      rw [List.length_take]
      omega
    show (x.runs.take i ++ ⟨state, root⟩ :: x.runs.drop (i + 1))[i]? = _
    rw [List.getElem?_append_right (Nat.le_of_eq hlength), hlength, Nat.sub_self]
    rfl
  · show root.At who root.serial state site'
    rwa [hserial]

/-- Only the run in which a task moves writes something down. -/
theorem own_eq_of_elsewhere {w : Nat} (hnumbered : x.ledger.Numbered) (hmove : x.move m = some y)
    (helsewhere : ∀ i who site run, m = .step who → x.At i who site → site.process.activity.IsOwn →
      x.runs[i]? = some run → w ∉ run.root.serials) :
    Journal.own y.engine.journal.toList w = Journal.own x.engine.journal.toList w := by
  rcases move_cases hmove with
    ⟨who, before, run, after, site, root, state, e, rfl, hruns, hmoves, rfl⟩ | ⟨hjournal, -⟩
  · have hrun : x.runs[before.length]? = some run := by simp [hruns]
    exact hmoves.own_eq (Process.nodup_of_numbered (numbered_root hnumbered (List.mem_of_getElem? hrun)))
      (helsewhere _ _ _ _ rfl ⟨run, hrun, hmoves.at.1⟩ hmoves.at.2 hrun)
  · rw [hjournal]

/-- What others do leaves a walk alone that waits for nothing below it: the walk stays where it is and
writes nothing down, and it is gone only when its task is given up. -/
theorem At.stays (h : x.At i who site) (hnumbered : x.ledger.Numbered) (hmove : x.move m = some y)
    (hother : m ≠ .step who) (halone : ∀ r, ¬ site.process.activity.Runs r)
    (hrunning : site.process.isFinished = false) :
    (who ∈ x.tasks ∧ x.GivesUpBy m ∨ ∃ site', y.At i who site' ∧ site'.process = site.process) ∧
    Journal.own y.engine.journal.toList site.process.serial =
      Journal.own x.engine.journal.toList site.process.serial := by
  obtain ⟨run, hrun, hat⟩ := h
  have hin := hat.has.serials_subset site.process.serial_mem_serials
  obtain ⟨run', hrun', haffects⟩ := affected hnumbered hmove hrun
  cases haffects with
  | others hstep =>
    refine ⟨.inr ⟨site, ⟨run, hrun', hat⟩, rfl⟩, own_eq_of_elsewhere hnumbered hmove ?_⟩
    intro j who' other run' heq hthere hown hrun'' hmem
    obtain rfl := index_eq_of_mem_serials hnumbered hrun hrun'' hin hmem
    exact hstep who' other heq hthere hown
  | @step who' moved _ heq hmoves =>
    subst heq
    have hne : who' ≠ who := fun heq => hother (congrArg Move.step heq)
    obtain ⟨site', hat', hprocess⟩ := hmoves.at_of_alone hat halone hrunning hne
    rw [← hmoves.serial] at hat'
    have hnodup := Process.nodup_of_numbered (numbered_root hnumbered (List.mem_of_getElem? hrun))
    exact ⟨.inr ⟨site', ⟨run', hrun', hat'⟩, hprocess⟩, hmoves.own_of_alone hnodup hat halone hne⟩
  | givesUp hgives =>
    constructor
    · by_cases hwho : who ∈ run.root.tasks
      · exact .inl ⟨List.mem_flatMap.mpr ⟨run, List.mem_of_getElem? hrun, hwho⟩, hgives⟩
      · obtain ⟨site', hat', -, hprocess⟩ := hat.cancelTasks hwho
        rw [← run.root.serial_cancelTasks] at hat'
        exact .inr ⟨site', ⟨_, hrun', hat'⟩, hprocess.trans (Process.cancelTasks_of_alone halone)⟩
    · obtain ⟨rfl, -⟩ := hgives
      exact own_eq_of_elsewhere hnumbered hmove nofun

end Executor

end Workflow
