import Workflow.Proofs.Run.Landings

/-!
# Shutdown is final

From the moment at which a shutdown has begun no branch is started any more. A group of two or more
branches that a walk comes to is turned away, branch by branch, and then fails, so that nothing of it
is ever executed (`Activity.TurnsAway`); a run that is asked for has failed before it starts. When a
shutdown is over no branch is in flight, and from then on only the roots of runs move.

An executor by itself keeps in mind one shutdown, the last that has been called for. But there may be
several calls, each with a deadline of its own, and each is told how its own shutdown has ended.
`Closing` is an executor together with all those calls. An act of a closing is a move of its executor,
as the call that acts finds it (`Closing.seen`), so that what is known of moves is known of acts.
-/

namespace Workflow

/-! ## Calls for a shutdown -/

/-- An executor and the calls for its shutdown, each with how far it has come. -/
structure Closing where
  executor : Executor
  calls : List Shutdown := []

/-- What can happen to an executor that may be called to shut down more than once. -/
inductive Closing.Act where
  | step (who : Nat)
  | wait (milliseconds : Nat)
  | launch (request : Request) (context : Context)
  /-- Somebody calls for a shutdown, and allows this many milliseconds for it. -/
  | call (grace : Nat)
  /-- The call with this number comes to its end, unless it has to wait. -/
  | settle (call : Nat)

def Closing.Act.isStepOf (who : Nat) : Act → Bool
  | .step other => other == who
  | .wait _ | .launch .. | .call _ | .settle _ => false

namespace Closing

/-- The move that an act is, and the executor as it is found by who acts. A call knows of its own
shutdown only. -/
def seen (c : Closing) : Act → Option (Executor × Move)
  | .step who => some (c.executor, .step who)
  | .wait milliseconds => some (c.executor, .wait milliseconds)
  | .launch request context => some (c.executor, .launch request context)
  | .call _ => some (c.executor, .beginShutdown)
  | .settle call => c.calls[call]?.map fun shutdown =>
      ({ c.executor with shutdown := shutdown }, .settleShutdown)

/-- How far the calls have come when the executor has become this one by an act. -/
def callsAfter (c : Closing) (y : Executor) : Act → List Shutdown
  | .call grace => c.calls ++ [.draining (y.engine.clock + grace)]
  | .settle call => c.calls.set call y.shutdown
  | .step _ | .wait _ | .launch .. => c.calls

/-- What becomes of a closing by an act, unless the act is that of a task which has to wait or of a call
which has not been made. -/
def act (c : Closing) (a : Act) : Option Closing :=
  (c.seen a).bind fun (x, m) => (x.move m).map fun y => ⟨y, c.callsAfter y a⟩

/-- The act ends a shutdown at its deadline, so that the branches which are left are given up. -/
def GivesUpBy (c : Closing) (a : Act) : Prop :=
  ∃ x m, c.seen a = some (x, m) ∧ x.GivesUpBy m

/-- The acts that lead from one closing to another, each with the closing before it. -/
inductive History (start : Closing) : List (Closing × Act) → Closing → Prop where
  | start : History start [] start
  | act {past : List (Closing × Act)} {c d : Closing} {a : Act} (h : History start past c)
      (hact : c.act a = some d) : History start (past ++ [(c, a)]) d

/-- With a single call that allows as much time as the settings do, there is nothing but the shutdown that
the executor has in mind. -/
theorem act_single (x : Executor) :
    act ⟨x, []⟩ (.call x.engine.config.grace) =
        some ⟨x.beginShutdown, [x.beginShutdown.shutdown]⟩ ∧
      act ⟨x, [x.shutdown]⟩ (.settle 0) = some ⟨x.settleShutdown, [x.settleShutdown.shutdown]⟩ :=
  ⟨rfl, rfl⟩

variable {start c d : Closing} {a : Act} {past : List (Closing × Act)} {size : Nat}

theorem seen_cases {x : Executor} {m : Move} (h : c.seen a = some (x, m)) :
    (∃ shutdown, x = { c.executor with shutdown := shutdown }) ∧
      (m = .settleShutdown → ∃ call, a = .settle call) ∧ ∀ who, m = .step who ↔ a = .step who := by
  cases a with
  | step | wait | launch | call =>
    cases h
    refine ⟨⟨c.executor.shutdown, rfl⟩, nofun, fun who => ?_⟩
    constructor <;> intro heq <;> cases heq <;> rfl
  | settle call =>
    obtain ⟨shutdown, -, heq⟩ := Option.map_eq_some_iff.mp h
    cases heq
    exact ⟨⟨shutdown, rfl⟩, fun _ => ⟨call, rfl⟩, fun who => ⟨nofun, nofun⟩⟩

/-- An act is a move, of the executor with one shutdown or another in mind. -/
theorem exists_move (h : c.act a = some d) : ∃ shutdown m,
    c.seen a = some ({ c.executor with shutdown := shutdown }, m) ∧
      Executor.move { c.executor with shutdown := shutdown } m = some d.executor ∧
      d.calls = c.callsAfter d.executor a ∧ ∀ who, m = .step who ↔ a = .step who := by
  obtain ⟨⟨x, m⟩, hseen, hmove⟩ := Option.bind_eq_some_iff.mp h
  obtain ⟨y, hy, rfl⟩ := Option.map_eq_some_iff.mp hmove
  obtain ⟨⟨shutdown, rfl⟩, -, hsteps⟩ := seen_cases hseen
  exact ⟨shutdown, m, hseen, hy, rfl, hsteps⟩

theorem givesUpBy_iff {x : Executor} {m : Move} (h : c.seen a = some (x, m)) :
    c.GivesUpBy a ↔ x.GivesUpBy m := by
  constructor
  · rintro ⟨x', m', hseen, hgives⟩
    cases h.symm.trans hseen
    exact hgives
  · exact fun hgives => ⟨x, m, h, hgives⟩

end Closing

namespace Executor

variable {x y : Executor} {m : Move} {size : Nat}

/-- Which shutdown an executor has in mind is nothing to its runs and its pool. -/
theorem Agrees.withShutdown (h : x.Agrees size) (shutdown : Shutdown) :
    Agrees { x with shutdown := shutdown } size :=
  ⟨h.size, h.fits, h.numbered, h.staffed, h.balanced, h.counted⟩

end Executor

namespace Closing

variable {start c d : Closing} {a : Act} {past : List (Closing × Act)} {size : Nat}

/-- What holds at the start and is kept by every act holds all along. -/
theorem History.invariant {P : Closing → Prop} (h : start.History past c) (hstart : P start)
    (hact : ∀ c a d, (c, a) ∈ past → P c → c.act a = some d → P d) : P c := by
  induction h with
  | start => exact hstart
  | @act past c d a _ hcd ih =>
    have hc : P c := ih fun c a d hmem => hact c a d (List.mem_append_left _ hmem)
    exact hact c a d (by simp) hc hcd

theorem agrees_act (h : c.executor.Agrees size) (hact : c.act a = some d) :
    d.executor.Agrees size := by
  obtain ⟨shutdown, m, -, hmove, -⟩ := exists_move hact
  exact (h.withShutdown shutdown).move hmove

theorem History.agrees (h : start.History past c) (hstart : start.executor.Agrees size) :
    c.executor.Agrees size :=
  h.invariant (P := fun c => c.executor.Agrees size) hstart fun _ _ _ _ hc hact => agrees_act hc hact

end Closing

/-! ## No branch is started -/

section

variable {who task : Nat} {p p' : Process} {run run' : RunState} {e e' : Engine} {site : Site}

/-- On a closed pool a step leaves no branch that was not there before. -/
theorem Process.Moves.tasks_subset (h : p.Moves who site task run e p' run' e')
    (hclosed : e.isClosed = true) : p'.tasks ⊆ p.tasks := by
  intro w hw
  rcases h.tasks_cases hw with hold | ⟨-, hopen⟩
  · exact hold
  · cases hclosed.symm.trans hopen

end

namespace Executor

variable {x y : Executor} {m : Move} {size : Nat}

theorem tasks_subset_move (hclosed : x.engine.isClosed = true) (hmove : x.move m = some y) :
    y.tasks ⊆ x.tasks := by
  intro w hw
  obtain ⟨own, hown, hw⟩ := List.mem_flatMap.mp hw
  cases comesBy hmove hown with
  | stays hrun => exact List.mem_flatMap.mpr ⟨own, hrun, hw⟩
  | @moves _ _ run _ _ _ _ hrun hmoves =>
    exact List.mem_flatMap.mpr ⟨run, List.mem_of_getElem? hrun, hmoves.tasks_subset hclosed hw⟩
  | launched hlaunched => cases hlaunched <;> cases hw
  | givesUp =>
    rw [Process.tasks_cancelTasks] at hw
    cases hw

end Executor

namespace Closing

variable {start c d : Closing} {a : Act} {past : List (Closing × Act)} {size : Nat}

theorem isClosed_act (h : c.executor.Agrees size) (hclosed : c.executor.engine.isClosed = true)
    (hact : c.act a = some d) : d.executor.engine.isClosed = true := by
  obtain ⟨shutdown, m, -, hmove, -⟩ := exists_move hact
  exact Executor.isClosed_move (h.withShutdown shutdown).fits hclosed hmove

theorem tasks_subset_act (hclosed : c.executor.engine.isClosed = true) (hact : c.act a = some d) :
    d.executor.tasks ⊆ c.executor.tasks := by
  obtain ⟨shutdown, m, -, hmove, -⟩ := exists_move hact
  exact Executor.tasks_subset_move (x := { c.executor with shutdown := shutdown }) hclosed hmove

/-- From the moment at which the pool is closed it stays closed, and the branches in flight become
fewer at most. -/
theorem History.tasks_subset (h : c.History past d) (hagrees : c.executor.Agrees size)
    (hclosed : c.executor.engine.isClosed = true) :
    d.executor.engine.isClosed = true ∧ d.executor.tasks ⊆ c.executor.tasks := by
  induction h with
  | start => exact ⟨hclosed, List.Subset.refl _⟩
  | @act past d d' a hpast hact ih =>
    obtain ⟨hclosed, hfewer⟩ := ih
    exact ⟨isClosed_act (hpast.agrees hagrees) hclosed hact,
      List.Subset.trans (tasks_subset_act hclosed hact) hfewer⟩

end Closing

/-! ## Groups are turned away -/

/-- A walk has come to a group and turns its branches away one after another, in this many steps. This
is what it has written down meanwhile. -/
inductive Activity.TurnsAway (anchor : String) (branches : List (Branch Plan)) :
    Nat → List Occurrence → Activity → Prop
  | due {resume : Resume} : TurnsAway anchor branches (branches.length + 2) []
      (.poised (.fork anchor branches resume))
  | turning {resume : Resume} {refused toStart : List (Branch Plan)}
      (heq : refused ++ toStart = branches) : TurnsAway anchor branches (toStart.length + 1)
      [.forked anchor (branches.map Branch.entry)]
      (.forking anchor resume toStart (refused.map fun branch => .refused branch.entry) [])

namespace Activity.TurnsAway

variable {anchor : String} {first : Branch Plan} {rest branches : List (Branch Plan)} {left : Nat}
  {written : List Occurrence} {activity : Activity}

/-- Nothing of the group runs. -/
theorem alone (h : activity.TurnsAway anchor branches left written) (r : Process) :
    ¬ activity.Runs r := by
  cases h with
  | due => exact id
  | turning =>
    rintro ⟨entry, hmem⟩
    obtain ⟨branch, -, heq⟩ := List.mem_map.mp hmem
    cases heq

theorem all_isOver (refused : List (Branch Plan)) :
    (refused.map fun branch => Child.refused branch.entry).all Child.isOver = true := by
  rw [List.all_map]
  exact List.all_eq_true.mpr fun _ _ => rfl

/-- The walk need not wait for anybody. -/
theorem isDue (h : activity.TurnsAway anchor branches left written) : activity.IsDue := by
  cases h with
  | due => nofun
  | turning => exact .inr (all_isOver _)

theorem exists_left (h : activity.TurnsAway anchor branches left written) :
    ∃ less, left = less + 1 := by
  cases h <;> exact ⟨_, rfl⟩

theorem written_eq (h : activity.TurnsAway anchor branches left written) :
    written = [] ∨ written = [.forked anchor (branches.map Branch.entry)] := by
  cases h with
  | due => exact .inl rfl
  | turning => exact .inr rfl

theorem ne_finish (h : activity.TurnsAway anchor branches left written) :
    activity ≠ .poised .finish := by
  cases h <;> nofun

end Activity.TurnsAway

/-- On a closed pool each step of the walk turns one branch away, until all of them have been. -/
theorem Scene.turnsAway_stepHere {s : Scene} {anchor : String} {branches : List (Branch Plan)}
    {left : Nat} {written : List Occurrence} (h : s.activity.TurnsAway anchor branches (left + 1) written)
    (htwo : 2 ≤ branches.length) (hclosed : s.engine.isClosed = true) (task serial : Nat) :
    (∃ s' more, s.stepHere task serial = some s' ∧
      s'.activity.TurnsAway anchor branches left (written ++ more) ∧
      Journal.own s'.engine.journal.toList serial =
        Journal.own s.engine.journal.toList serial ++ more) ∨
    (∃ resume, s.activity = .forking anchor resume []
        (branches.map fun branch => .refused branch.entry) []) ∧
      written = [.forked anchor (branches.map Branch.entry)] := by
  obtain ⟨walk, activity, run, engine⟩ := s
  generalize hleft : left + 1 = n at h
  cases h with
  | due =>
    left
    obtain rfl : left = branches.length + 1 := by omega
    rcases branches with _ | ⟨first, _ | ⟨second, rest⟩⟩
    · simp at htwo
    · simp at htwo
    · exact ⟨_, _, rfl, @Activity.TurnsAway.turning _ _ _ [] _ rfl, Engine.own_record_self ..⟩
  | @turning resume refused toStart heq =>
    rcases toStart with _ | ⟨branch, toStart⟩
    · rw [List.append_nil] at heq
      subst heq
      exact .inr ⟨⟨resume, rfl⟩, rfl⟩
    · left
      obtain rfl : left = toStart.length + 1 := by simpa using hleft
      have hstart : engine.pool.start? = none := if_pos hclosed
      refine ⟨_, [], rfl, ?_, ?_⟩
      · have hnext := @Activity.TurnsAway.turning anchor branches resume (refused ++ [branch]) toStart
          (by rw [← heq, List.append_assoc]; rfl)
        rw [startBranch, hstart]
        simpa using hnext
      · rw [startBranch, hstart, List.append_nil]

namespace Executor

variable {x y : Executor} {m : Move} {size i who w left : Nat} {anchor : String}
  {branches : List (Branch Plan)} {before : List Occurrence}

/-- The walk `w` of the task `who` is turning a group away. Before it came to the group it had written
this down. -/
def TurnsAway (x : Executor) (i who w : Nat) (anchor : String) (branches : List (Branch Plan))
    (before : List Occurrence) (left : Nat) : Prop :=
  ∃ site written, x.At i who site ∧ site.process.serial = w ∧
    site.process.activity.TurnsAway anchor branches left written ∧
    Journal.own x.engine.journal.toList w = before ++ written

/-- A group that is turned away has failed. -/
def failedGroup (anchor : String) (branches : List (Branch Plan)) : List Occurrence :=
  [.forked anchor (branches.map Branch.entry),
    .joined anchor (branches.head?.map fun first =>
      .branchFailed anchor first.entry (.interrupted .poolClosed))]

/-- The step of a walk that turns a group away turns away the next branch, or ends the group. -/
theorem TurnsAway.step (h : x.TurnsAway i who w anchor branches before left) (hagrees : x.Agrees size)
    (hclosed : x.engine.isClosed = true) (htwo : 2 ≤ branches.length)
    (hmove : x.move (.step who) = some y) :
    (∃ less, left = less + 1 ∧ y.TurnsAway i who w anchor branches before less) ∨
      Journal.own y.engine.journal.toList w = before ++ failedGroup anchor branches := by
  obtain ⟨site, written, hat, rfl, haway, hown⟩ := h
  obtain ⟨less, rfl⟩ := haway.exists_left
  rcases Scene.turnsAway_stepHere (s := ⟨site.process.walk, site.process.activity, site.run, x.engine⟩)
    haway htwo hclosed who site.process.serial with
    ⟨s', more, hhere, haway', hmore⟩ | ⟨⟨resume, hactivity⟩, rfl⟩
  -- one more branch is refused, and one fewer is left
  · left
    have hrunning : (s'.process site.process.serial).isFinished = false :=
      Process.isFinished_eq_false haway'.ne_finish
    obtain ⟨y', site', hstep, hengine, hat', hprocess, -⟩ :=
      hat.step_eq hagrees.numbered hhere hrunning
    cases hmove.symm.trans hstep
    refine ⟨less, rfl, site', written ++ more, hat', ?_, ?_, ?_⟩
    · rw [hprocess]
      rfl
    · rw [hprocess]
      exact haway'
    · rw [hengine, hmore, ← List.append_assoc, ← hown]
  -- nothing is left: the only step that a walk can make from here joins the group
  · right
    obtain ⟨run, hrun, -⟩ := id hat
    obtain ⟨run', -, haffects⟩ := affected hagrees.numbered hmove hrun
    have hmoves := haffects.site_eq hagrees.numbered hrun hat haway.isDue.isOwn
    obtain ⟨s, hsteps, hwritten⟩ := hmoves.own_at
      (Process.nodup_of_numbered (numbered_root hagrees.numbered (List.mem_of_getElem? hrun)))
    simp only at hactivity
    rw [hactivity] at hsteps
    generalize site.process.serial = serial at *
    cases hsteps with
    | joins heq hover =>
      cases heq
      rw [hwritten]
      refine (Engine.own_record_self ..).trans ?_
      have hjoined : Scene.joinFailure? anchor (branches.map fun branch => .refused branch.entry) =
          branches.head?.map fun first => .branchFailed anchor first.entry (.interrupted .poolClosed) := by
        cases branches <;> rfl
      rw [hown, hjoined, List.append_assoc]
      rfl
    | starts heq | refuses heq | advance heq | missing heq | queues heq | begins heq | granted heq
    | does heq | sleeps heq | wakes heq | opens heq | runs heq | tidies heq | ends heq | fails heq
    | gaveUp heq | forksNone heq | forksOne heq | forks heq => cases heq

/-- What others do leaves alone a walk that turns a group away, unless its task is given up. -/
theorem TurnsAway.others (h : x.TurnsAway i who w anchor branches before left)
    (hagrees : x.Agrees size) (hmove : x.move m = some y) (hother : m ≠ .step who)
    (hkeep : who ∈ x.tasks → ¬ x.GivesUpBy m) : y.TurnsAway i who w anchor branches before left := by
  obtain ⟨site, written, hat, rfl, haway, hown⟩ := h
  have hrunning := Process.isFinished_eq_false haway.ne_finish
  obtain ⟨hgone | ⟨site', hat', hprocess⟩, hsame⟩ :=
    hat.stays hagrees.numbered hmove hother haway.alone hrunning
  · exact absurd hgone.2 (hkeep hgone.1)
  · exact ⟨site', written, hat', by rw [hprocess], by rw [hprocess]; exact haway, hsame.trans hown⟩

/-- A walk that turns a group away need not wait. -/
theorem TurnsAway.isSome_step (h : x.TurnsAway i who w anchor branches before left)
    (hagrees : x.Agrees size) : (x.step who).isSome = true := by
  obtain ⟨site, written, hat, -, haway, -⟩ := h
  exact hat.isSome_step hagrees.numbered (Scene.isSome_stepHere haway.isDue ..)

/-- Nothing of a group runs that is turned away. -/
theorem TurnsAway.not_branches (h : x.TurnsAway i who w anchor branches before left)
    (hagrees : x.Agrees size) {q : Process} (hq : x.Has q) (heq : q.serial = w) (r : Process) :
    ¬ q.activity.Branches r := by
  obtain ⟨site, written, ⟨run, hrun, hat⟩, rfl, haway, -⟩ := h
  have hsite : x.Has site.process := ⟨run, List.mem_of_getElem? hrun, hat.has⟩
  obtain rfl := hq.unique hsite hagrees.numbered heq
  exact fun hr => haway.alone r hr.runs

theorem TurnsAway.own_eq (h : x.TurnsAway i who w anchor branches before left) :
    0 < left ∧ (Journal.own x.engine.journal.toList w = before ∨
      Journal.own x.engine.journal.toList w =
        before ++ [.forked anchor (branches.map Branch.entry)]) := by
  obtain ⟨site, written, -, -, haway, hown⟩ := h
  obtain ⟨less, rfl⟩ := haway.exists_left
  refine ⟨Nat.succ_pos less, ?_⟩
  rcases haway.written_eq with rfl | rfl
  · exact .inl (hown.trans (List.append_nil _))
  · exact .inr hown

end Executor

namespace Closing

variable {start c d : Closing} {a : Act} {past : List (Closing × Act)} {size : Nat}

/-- What a walk has written down stays. -/
theorem own_act (h : c.executor.Agrees size) (hact : c.act a = some d) (w : Nat) :
    ∃ more, Journal.own d.executor.engine.journal.toList w =
      Journal.own c.executor.engine.journal.toList w ++ more := by
  obtain ⟨shutdown, m, -, hmove, -⟩ := exists_move hact
  exact ⟨_, (Executor.says_move (h.withShutdown shutdown).numbered hmove).own_drop w⟩

/-- A walk that turns a group away goes on to do so, step by step, until the group has failed. -/
theorem History.turnsAway {i who w left : Nat} {anchor : String} {branches : List (Branch Plan)}
    {before : List Occurrence} (h : c.History past d) (hagrees : c.executor.Agrees size)
    (hclosed : c.executor.engine.isClosed = true) (htwo : 2 ≤ branches.length)
    (haway : c.executor.TurnsAway i who w anchor branches before left)
    (hkeep : who ∈ c.executor.tasks → ∀ e a, (e, a) ∈ past → ¬ e.GivesUpBy a) :
    (∃ less, less + past.countP (fun p => p.2.isStepOf who) = left ∧
      d.executor.TurnsAway i who w anchor branches before less) ∨
    ∃ more, Journal.own d.executor.engine.journal.toList w =
      before ++ Executor.failedGroup anchor branches ++ more := by
  induction h with
  | start => exact .inl ⟨left, rfl, haway⟩
  | @act past d d' a hpast hact ih =>
    have hagrees' := hpast.agrees hagrees
    obtain ⟨hclosed', hfewer⟩ := hpast.tasks_subset hagrees hclosed
    rcases ih fun hwho e a hmem => hkeep hwho e a (List.mem_append_left _ hmem) with
      ⟨less, hleft, haway⟩ | ⟨more, hfailed⟩
    · obtain ⟨shutdown, m, hseen, hmove, -, hsteps⟩ := exists_move hact
      have hagrees'' := hagrees'.withShutdown shutdown
      have haway : Executor.TurnsAway { d.executor with shutdown := shutdown } i who w anchor branches
        before less := haway
      by_cases hstep : a = .step who
      · -- one branch less is left to be turned away
        obtain rfl := (hsteps who).mpr hstep
        subst hstep
        rcases haway.step hagrees'' hclosed' htwo hmove with ⟨fewer, rfl, hnext⟩ | hfailed
        · refine .inl ⟨fewer, ?_, hnext⟩
          have hmine : (Act.step who).isStepOf who = true := beq_self_eq_true who
          rw [List.countP_append, List.countP_singleton, if_pos hmine]
          omega
        · exact .inr ⟨[], by rw [hfailed, List.append_nil]⟩
      · have hother : m ≠ .step who := fun heq => hstep ((hsteps who).mp heq)
        refine .inl ⟨less, ?_, haway.others hagrees'' hmove hother fun hwho hgives => ?_⟩
        · have hnot : a.isStepOf who = false := by
            cases a with
            | step other => exact beq_false_of_ne fun heq => hstep (congrArg Act.step heq)
            | wait | launch | call | settle => rfl
          simpa [List.countP_append, List.countP_singleton, hnot] using hleft
        · exact hkeep (hfewer hwho) d a (by simp) ((givesUpBy_iff hseen).mpr hgives)
    · obtain ⟨others, hown⟩ := own_act hagrees' hact w
      exact .inr ⟨more ++ others, by rw [hown, hfailed, List.append_assoc]⟩

end Closing

/-! ## Runs are refused -/

/-- Only on an open pool a run begins. -/
theorem Engine.isOpen_of_openRun {e e' : Engine} {request : Request} {root : Process}
    (h : e.openRun request = (.ok root, e')) : e.isClosed = false := by
  have hplan : ∀ (e : Engine) plan, e.openPlan plan = (.ok root, e') → e.isClosed = false := by
    intro e plan h
    unfold openPlan at h
    split at h
    · cases h
    · next hopen => exact Bool.not_eq_true _ ▸ hopen
  cases request with
  | plan plan => exact hplan e plan h
  | unit u =>
    change e.openUnit u = _ at h
    unfold openUnit at h
    split at h
    · cases h
    · next hopen => exact Bool.not_eq_true _ ▸ hopen
  | flow flowId =>
    change e.openFlow flowId = _ at h
    unfold openFlow at h
    split at h
    · cases h
    · next expression _ =>
      split at h
      · cases h
      · next cached e₁ heq =>
        obtain rfl : (e.compile expression).2 = e₁ := congrArg Prod.snd heq
        have hthere := hplan _ cached.plan h
        exact hthere

theorem Engine.openRun_of_closed {e : Engine} (hclosed : e.isClosed = true) (request : Request) :
    ∃ failure plans, e.openRun request = (.error failure, { e with plans := plans }) := by
  rcases hopen : e.openRun request with ⟨failure | root, e'⟩
  · obtain ⟨plans, rfl⟩ := Engine.openRun_error hopen
    exact ⟨failure, plans, rfl⟩
  · cases hclosed.symm.trans (isOpen_of_openRun hopen)

/-- A flow that a unit asks for has failed, and the unit goes on. -/
theorem Scene.runFlow_of_closed {s : Scene} (hclosed : s.engine.isClosed = true) (job : Job)
    (flowId : String) (next : RunSummary → Behavior) : ∃ plans, s.runFlow job flowId next = { s with
      activity := .working job (next ⟨.failed, []⟩)
      engine := { s.engine with nextScope := s.engine.nextScope + 1, plans := plans } } := by
  obtain ⟨failure, plans, hopen⟩ :=
    Engine.openRun_of_closed (e := s.engine.takeScope.2) hclosed (.flow flowId)
  refine ⟨plans, ?_⟩
  unfold runFlow
  simp only [show s.engine.takeScope.2.openFlow flowId = _ from hopen]
  rfl

namespace Executor

variable {x y : Executor} {size : Nat}

theorem launch_of_closed (hclosed : x.engine.isClosed = true) (request : Request) (context : Context) :
    ∃ failure plans, x.launch request context =
      (some (.ofFailure failure x.engine.nextScope context), { x with
        engine := { x.engine with nextScope := x.engine.nextScope + 1, plans := plans } }) := by
  obtain ⟨failure, plans, hopen⟩ := Engine.openRun_of_closed (e := x.engine.takeScope.2) hclosed request
  refine ⟨failure, plans, ?_⟩
  unfold launch
  simp only [hopen]
  rfl

/-- The runs that are asked for fail and execute nothing, be it that somebody launches them or that a
unit asks for a flow: no walk begins, and nothing is written down. -/
structure RefusesRuns (x : Executor) : Prop where
  launched : ∀ request context, ∃ outcome y, x.launch request context = (some outcome, y) ∧
    outcome.status = .failed ∧ outcome.executed = [] ∧ y.runs = x.runs ∧
    y.engine.nextSerial = x.engine.nextSerial ∧ y.engine.journal = x.engine.journal
  called : ∀ i who site job flowId next, x.At i who site →
    site.process.activity = .working job (.runFlow flowId next) →
    ∃ y site', x.step who = some y ∧ y.At i who site' ∧
      site'.process = .mk site.process.serial site.process.walk (.working job (next ⟨.failed, []⟩)) ∧
      y.engine.nextSerial = x.engine.nextSerial ∧ y.engine.journal = x.engine.journal

theorem Agrees.refusesRuns (h : x.Agrees size) (hclosed : x.engine.isClosed = true) :
    x.RefusesRuns := by
  refine ⟨fun request context => ?_, fun i who site job flowId next hat hactivity => ?_⟩
  · obtain ⟨failure, plans, hlaunch⟩ := launch_of_closed hclosed request context
    exact ⟨_, _, hlaunch, rfl, rfl, rfl, rfl, rfl⟩
  · obtain ⟨⟨serial, walk, activity⟩, state, depth, walks⟩ := site
    obtain rfl : activity = .working job (.runFlow flowId next) := hactivity
    obtain ⟨plans, hflow⟩ := Scene.runFlow_of_closed
      (s := ⟨walk, .working job (.runFlow flowId next), state, x.engine⟩) hclosed job flowId next
    -- the step of the walk is that of its unit
    have hhere : Scene.stepHere ⟨walk, .working job (.runFlow flowId next), state, x.engine⟩ who serial =
        some _ := congrArg some hflow
    obtain ⟨y, site', hstep, hengine, hat', hprocess, -⟩ := hat.step_eq h.numbered hhere rfl
    exact ⟨y, site', hstep, hat', hprocess, by rw [hengine], by rw [hengine]⟩

/-! ## When a shutdown is over -/

/-- A shutdown that comes to its end leaves no branch in flight. -/
theorem Agrees.tasks_of_settled (h : x.Agrees size) {drained : Bool}
    (hover : x.settleShutdown.shutdown = .over drained) :
    x.shutdown = .over drained ∨ x.settleShutdown.tasks = [] := by
  unfold settleShutdown at hover ⊢
  rcases hshutdown : x.shutdown with _ | deadline | before
  · rw [hshutdown] at hover
    cases hshutdown.symm.trans hover
  · right
    rw [hshutdown] at hover
    simp only at hover ⊢
    split at hover
    · next hflight =>
      rw [if_pos hflight]
      exact List.eq_nil_of_length_eq_zero (h.counted.symm.trans hflight)
    · next hflight =>
      split at hover
      · next hclock =>
        rw [if_neg hflight, if_pos hclock]
        exact List.flatMap_eq_nil_iff.mpr fun own hown => by
          obtain ⟨run, -, rfl⟩ := List.mem_map.mp hown
          exact Process.tasks_cancelTasks run.root
      · cases hshutdown.symm.trans hover
  · rw [hshutdown] at hover
    exact .inl (hshutdown.symm.trans hover)

/-- A shutdown that does not end at its deadline leaves all runs alone. -/
theorem settleShutdown_of_drained (h : x.settleShutdown.shutdown ≠ .over false) :
    x.settleShutdown.runs = x.runs ∧ x.settleShutdown.engine = x.engine := by
  rcases x.settleShutdown_cases with ⟨shutdown, heq⟩ | ⟨-, heq⟩
  · rw [heq]
    exact ⟨rfl, rfl⟩
  · rw [heq] at h
    exact absurd rfl h

end Executor

namespace Closing

variable {start c d : Closing} {a : Act} {past : List (Closing × Act)} {size : Nat}

theorem settle_eq {call : Nat} (h : c.act (.settle call) = some d) : ∃ shutdown,
    c.calls[call]? = some shutdown ∧
      d.executor = Executor.settleShutdown { c.executor with shutdown := shutdown } ∧
      d.calls = c.calls.set call d.executor.shutdown := by
  obtain ⟨⟨x, m⟩, hseen, hmove⟩ := Option.bind_eq_some_iff.mp h
  obtain ⟨shutdown, hcall, heq⟩ := Option.map_eq_some_iff.mp hseen
  cases heq
  obtain ⟨y, hy, rfl⟩ := Option.map_eq_some_iff.mp hmove
  cases hy
  exact ⟨shutdown, hcall, rfl, rfl⟩

/-- How a shutdown has ended does not change any more. -/
theorem over_act {call : Nat} {drained : Bool} (h : c.calls[call]? = some (.over drained))
    (hact : c.act a = some d) : d.calls[call]? = some (.over drained) := by
  obtain ⟨shutdown, m, -, hmove, hcalls, -⟩ := exists_move hact
  cases a with
  | step | wait | launch =>
    rw [hcalls]
    exact h
  | call =>
    rw [hcalls]
    exact (List.getElem?_append_left (List.getElem?_eq_some_iff.mp h).1).trans h
  | settle other =>
    obtain ⟨found, hfound, hexecutor, hset⟩ := settle_eq hact
    rw [hset, List.getElem?_set]
    split
    · next heq =>
      subst heq
      cases h.symm.trans hfound
      rw [if_pos (List.getElem?_eq_some_iff.mp h).1, hexecutor]
      rfl
    · exact h

/-- A call that has returned true has cancelled nothing: whenever it acted, it left all runs alone. -/
theorem History.settled_of_drained {call : Nat} (h : start.History past c)
    (hdrained : c.calls[call]? ≠ some (.over false)) {e f : Closing} (hmem : (e, .settle call) ∈ past)
    (hact : e.act (.settle call) = some f) :
    f.executor.runs = e.executor.runs ∧ f.executor.engine = e.executor.engine := by
  induction h with
  | start => cases hmem
  | @act past c d a hpast hcd ih =>
    rcases List.mem_append.mp hmem with hmem | hmem
    · exact ih (fun hover => hdrained (over_act hover hcd)) hmem
    · cases List.mem_singleton.mp hmem
      cases hcd.symm.trans hact
      obtain ⟨shutdown, hcall, hexecutor, hset⟩ := settle_eq hact
      rw [hset, List.getElem?_set_self (List.getElem?_eq_some_iff.mp hcall).1] at hdrained
      rw [hexecutor] at hdrained ⊢
      exact Executor.settleShutdown_of_drained fun heq => hdrained (congrArg some heq)

/-- What is known of the calls: the first of them has closed the pool, and when one is over, no branch is
in flight. -/
structure Settled (c : Closing) : Prop where
  closed : c.calls ≠ [] → c.executor.engine.isClosed = true
  settled : ∀ drained, .over drained ∈ c.calls → c.executor.tasks = []

theorem Settled.act (h : c.Settled) (hagrees : c.executor.Agrees size) (hact : c.act a = some d) :
    d.Settled := by
  have hquiet : ∀ drained, .over drained ∈ c.calls → d.executor.tasks = [] := fun drained hover => by
    have hfewer := tasks_subset_act (h.closed (List.ne_nil_of_mem hover)) hact
    rw [h.settled drained hover] at hfewer
    exact List.subset_nil.mp hfewer
  cases a with
  | step | wait | launch =>
    obtain ⟨shutdown, m, -, -, hcalls, -⟩ := exists_move hact
    have hsame : d.calls = c.calls := hcalls
    exact ⟨fun hne => isClosed_act hagrees (h.closed (hsame ▸ hne)) hact,
      fun drained hover => hquiet drained (hsame ▸ hover)⟩
  | call =>
    cases hact
    refine ⟨fun _ => rfl, fun drained hover => ?_⟩
    rcases List.mem_append.mp hover with hover | hover
    · exact hquiet drained hover
    · cases List.mem_singleton.mp hover
  | settle call =>
    obtain ⟨found, hfound, hexecutor, hset⟩ := settle_eq hact
    have hin := List.mem_of_getElem? hfound
    refine ⟨fun _ => isClosed_act hagrees (h.closed (List.ne_nil_of_mem hin)) hact,
      fun drained hover => ?_⟩
    rw [hset] at hover
    rcases List.mem_or_eq_of_mem_set hover with hover | hover
    · exact hquiet drained hover
    · rw [hexecutor] at hover
      rcases (hagrees.withShutdown found).tasks_of_settled hover.symm with rfl | hnone
      · exact hquiet drained hin
      · rw [hexecutor]
        exact hnone

theorem History.settled (h : start.History past c) (hagrees : start.executor.Agrees size)
    (hstart : start.calls = []) : c.Settled := by
  induction h with
  | start =>
    refine ⟨fun hne => absurd hstart hne, fun drained hover => ?_⟩
    rw [hstart] at hover
    cases hover
  | act hpast hact ih => exact ih.act (hpast.agrees hagrees) hact

/-! ## The law -/

/-- Whatever happens, no branch is started any more: the branches in flight are among those that are in
flight now. -/
def StartsNoBranch (c : Closing) : Prop :=
  ∀ past d, c.History past d →
    d.executor.engine.isClosed = true ∧ d.executor.tasks ⊆ c.executor.tasks

/-- A group of two or more branches to which a walk has come fails with the failure of its first branch,
which the pool has refused, and none of its branches ever runs. Until then the walk need not wait, and
it takes no more steps of its task than the group has branches, and two. All this holds unless the task
of the walk is a branch that is given up. -/
def TurnsGroupsAway (c : Closing) : Prop :=
  ∀ i who site anchor branches resume, c.executor.At i who site →
    site.process.activity = .poised (.fork anchor branches resume) → 2 ≤ branches.length →
    ∀ past d, c.History past d →
      (who ∈ c.executor.tasks → ∀ e a, (e, a) ∈ past → ¬ e.GivesUpBy a) →
      let w := site.process.serial
      let before := Journal.own c.executor.engine.journal.toList w
      let now := Journal.own d.executor.engine.journal.toList w
      (∃ more, now = before ++ Executor.failedGroup anchor branches ++ more) ∨
        (now = before ∨ now = before ++ [.forked anchor (branches.map Branch.entry)]) ∧
          past.countP (fun p => p.2.isStepOf who) < branches.length + 2 ∧
          (d.act (.step who)).isSome = true ∧
          ∀ q, d.executor.Has q → q.serial = w → ∀ r, ¬ q.activity.Branches r

/-- No branch is in flight and no unit on a branch is executed or waits for a permit, and so it remains:
only the roots of runs move. -/
def IsQuiet (c : Closing) : Prop :=
  ∀ past d, c.History past d →
    d.executor.engine.pool.inFlight = 0 ∧ d.executor.tasks = [] ∧ d.executor.posts = [] ∧
      ∀ who e, d.act (.step who) = some e → ∃ run ∈ d.executor.runs, who = run.root.serial

theorem turnsGroupsAway (hagrees : c.executor.Agrees size)
    (hclosed : c.executor.engine.isClosed = true) : c.TurnsGroupsAway := by
  intro i who site anchor branches resume hat hactivity htwo past d hpast hkeep w before now
  have haway : c.executor.TurnsAway i who w anchor branches before (branches.length + 2) :=
    ⟨site, [], hat, rfl, hactivity ▸ .due, (List.append_nil _).symm⟩
  rcases hpast.turnsAway hagrees hclosed htwo haway hkeep with ⟨less, hleft, haway⟩ | hfailed
  · right
    have hagrees' := hpast.agrees hagrees
    obtain ⟨hpos, hown⟩ := haway.own_eq
    refine ⟨hown, by omega, ?_, fun q hq heq r => haway.not_branches hagrees' hq heq r⟩
    show (Option.map _ (d.executor.step who)).isSome = true
    rw [Option.isSome_map]
    exact haway.isSome_step hagrees'
  · exact .inl hfailed

theorem isQuiet (hagrees : c.executor.Agrees size) (hclosed : c.executor.engine.isClosed = true)
    (hnone : c.executor.tasks = []) : c.IsQuiet := by
  intro past d hpast
  have hagrees' := hpast.agrees hagrees
  have htasks : d.executor.tasks = [] := by
    have hfewer := (hpast.tasks_subset hagrees hclosed).2
    rw [hnone] at hfewer
    exact List.subset_nil.mp hfewer
  have hroots : ∀ run ∈ d.executor.runs, run.root.tasks = [] := List.flatMap_eq_nil_iff.mp htasks
  refine ⟨by rw [hagrees'.counted, htasks]; rfl, htasks, ?_, ?_⟩
  · exact List.flatMap_eq_nil_iff.mpr fun run hrun => Process.posts_of_tasks run.root (hroots run hrun)
  · intro who e hact
    obtain ⟨shutdown, m, -, hmove, -, hsteps⟩ := exists_move hact
    obtain rfl := (hsteps who).mpr rfl
    obtain ⟨before, run, after, root, state, e', hruns, hstep, -⟩ := Executor.exists_step hmove
    have hrun : run ∈ d.executor.runs := by
      rw [show d.executor.runs = _ from hruns]
      simp
    obtain ⟨site, hmoves⟩ := Process.moves_of_step hstep
    rcases hmoves.at.1.mem_tasks with heq | hmem
    · exact ⟨run, hrun, heq⟩
    · rw [hroots run hrun] at hmem
      cases hmem

/-- Shutdown is final, in every schedule and with any number of calls for it. The first call closes the
pool. On a closed pool no branch is started, groups of two or more branches are turned away, and runs are
refused. When a call is over, whether or not in time, everything is quiet. And a call that returns true
has cancelled nothing. -/
theorem History.shutdown_final {config : Config} {registry : Registry} {listeners : Listeners}
    {x : Executor} (hbuild : Executor.build config registry listeners = .ok x)
    (h : History ⟨x, []⟩ past c) :
    (c.calls ≠ [] → c.executor.engine.isClosed = true) ∧
    (c.executor.engine.isClosed = true →
      c.StartsNoBranch ∧ c.TurnsGroupsAway ∧ c.executor.RefusesRuns) ∧
    (∀ drained, .over drained ∈ c.calls → c.IsQuiet) ∧
    ∀ call, c.calls[call]? = some (.over true) → ∀ e f, (e, .settle call) ∈ past →
      e.act (.settle call) = some f →
      f.executor.runs = e.executor.runs ∧ f.executor.engine = e.executor.engine := by
  have hagrees := h.agrees (Executor.agrees_build hbuild)
  have hsettled := h.settled (Executor.agrees_build hbuild) rfl
  refine ⟨hsettled.closed, fun hclosed => ⟨?_, ?_, ?_⟩, fun drained hover => ?_, ?_⟩
  · exact fun past d hpast => hpast.tasks_subset hagrees hclosed
  · exact turnsGroupsAway hagrees hclosed
  · exact hagrees.refusesRuns hclosed
  · exact isQuiet hagrees (hsettled.closed (List.ne_nil_of_mem hover)) (hsettled.settled drained hover)
  · intro call hdrained e f hmem hact
    refine h.settled_of_drained ?_ hmem hact
    rw [hdrained]
    nofun

/-- Performs acts one after another, leaving out those that cannot be performed. -/
def follow (c : Closing) : List Act → List (Closing × Act) × Closing
  | [] => ([], c)
  | a :: rest =>
    match c.act a with
    | none => c.follow rest
    | some d => ((c, a) :: (d.follow rest).1, (d.follow rest).2)

theorem History.cons (hact : c.act a = some d) {e : Closing} (h : d.History past e) :
    c.History ((c, a) :: past) e := by
  induction h with
  | start => exact .act .start hact
  | act _ hlast ih => exact .act ih hlast

theorem history_follow (c : Closing) (acts : List Act) :
    c.History (c.follow acts).1 (c.follow acts).2 := by
  induction acts generalizing c with
  | nil => exact .start
  | cons a rest ih =>
    unfold follow
    rcases hact : c.act a with _ | d
    · exact ih c
    · exact .cons hact (ih d)

/-- A branch that comes to a group, beside one that takes its time. -/
def lateGroup : Closing where
  executor := .doing [("a", .sleep 5 .done), ("b", .done), ("c", .done), ("d", .sleep 100 .done)]

/-- Both branches are in flight when somebody calls for a shutdown. -/
def beforeGroup : List Act :=
  .launch (.plan ((Node.compile? (.parallel [.sequence [.unit "a", .parallel [.unit "b", .unit "c"]],
    .unit "d"])).getD {})) {} ::
  [0, 0, 0, 0, 1, 1, 1, 1, 2, 2, 2, 2].map .step ++ [.call 1000, .wait 5]

/-- One comes to the group, and then somebody calls again and gives no time. -/
def behindGroup : List Act := List.replicate 9 (.step 1) ++ [.call 0, .settle 1, .settle 0]

/-- The group is turned away. The second call gives up the other branch at once and is told so; then the
first call finds nothing in flight and is told that everything has ended in time. -/
theorem History.shutdown_final_twice : ∃ (past later : List (Closing × Act)) (c d : Closing)
    (b e : Branch Plan),
    Executor.build {} lateGroup.executor.engine.registry {} = .ok lateGroup.executor ∧
      lateGroup.History past c ∧ c.executor.engine.isClosed = true ∧ c.executor.tasks = [1, 2] ∧
      c.TurnsGroupsAway ∧ c.StartsNoBranch ∧ c.executor.RefusesRuns ∧
      lateGroup.History later d ∧ d.calls = [.over true, .over false] ∧ d.IsQuiet ∧
      b.entry = "b" ∧ e.entry = "c" ∧ Journal.own d.executor.engine.journal.toList 1 =
        [.unitStarted "a", .unitEnded "a" none] ++ Executor.failedGroup "a" [b, e] := by
  have hc := history_follow lateGroup beforeGroup
  have hd := history_follow lateGroup (beforeGroup ++ behindGroup)
  have hclosed : (lateGroup.follow beforeGroup).2.executor.engine.isClosed = true := by decide +kernel
  have htasks : (lateGroup.follow beforeGroup).2.executor.tasks = [1, 2] := by decide +kernel
  have hcalls : (lateGroup.follow (beforeGroup ++ behindGroup)).2.calls = [.over true, .over false] := by
    decide +kernel
  have hown : Journal.own
      (lateGroup.follow (beforeGroup ++ behindGroup)).2.executor.engine.journal.toList 1 =
        [.unitStarted "a", .unitEnded "a" none] ++
          Executor.failedGroup "a" [⟨"b", {}⟩, ⟨"c", {}⟩] := by decide +kernel
  obtain ⟨hstarts, hturns, hrefuses⟩ :=
    (History.shutdown_final (Executor.build_doing _) hc).2.1 hclosed
  have hquiet := (History.shutdown_final (Executor.build_doing _) hd).2.2.1 true
    (by rw [hcalls]; exact List.mem_cons_self)
  exact ⟨_, _, _, _, ⟨"b", {}⟩, ⟨"c", {}⟩, rfl, hc, hclosed, htasks, hturns, hstarts, hrefuses, hd, hcalls,
    hquiet, rfl, rfl, hown⟩

end Closing

end Workflow
