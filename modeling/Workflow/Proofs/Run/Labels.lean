import Workflow.Proofs.Plan.WellFormed
import Workflow.Proofs.Run.Crews
import Workflow.Proofs.Run.Decisions
import Workflow.Proofs.Run.Outcomes
import Workflow.Proofs.Run.Staffing

/-!
# Labels and the walks they are for

A unit that routes writes a label into the slot of its id, and its walk takes it from there when the
unit has ended. The slot is one for all walks of a run, so what a walk finds in it is what its unit
has written only if no other walk of the run is concerned with the unit meanwhile.

`Run.AtWork w u` says that the walk `w` is in the middle of the unit `u`, and that no other walk of
its run is concerned with `u`. From the move by which the unit writes a label
(`Process.Moves.reads_of_signals`) the label then stays where it is (`Process.Moves.reads`), so that
the walk takes the arm with that label (`Executor.History.takes_own_arm`), behind a fork that it may
ask for first. When two walks execute one unit at the same time, one may find what the other has
left, or nothing (`Executor.takes_arm_of_other`).
-/

namespace Workflow

/-! ## A walk at work -/

/-- The unit that a walk is in the middle of. -/
def Activity.job? : Activity → Option Job
  | .working job _ | .asleep job _ _ | .calling job _ _ _ => some job
  | .poised _ | .queued .. | .inPlace .. | .forking .. => none

/-- If a walk is one of a run, it is in the middle of a unit, and no other walk of the run is
concerned with the unit, unless it is around it. -/
structure Run.AtWork (w : Nat) (u : String) (r : Run) : Prop where
  busy : ∀ q ∈ r.root.crew, q.serial = w → q.activity.job?.map Job.unitId = some u
  alone : r.root.Holds w → ∀ q ∈ r.root.crew, w ∈ q.serials ∨ u ∉ q.concerns

/-- If a walk is one of a run, the run has this routing signal of a unit. -/
def Run.Reads (w : Nat) (u target : String) (r : Run) : Prop :=
  r.root.Holds w → r.state.scope.get? (Scope.routeSlot u) = some (.text target)

instance (w : Nat) (u : String) (r : Run) : Decidable (r.AtWork w u) :=
  decidable_of_iff ((∀ q ∈ r.root.crew, q.serial = w → q.activity.job?.map Job.unitId = some u) ∧
      (w ∈ r.root.crew.map Process.serial → ∀ q ∈ r.root.crew, w ∈ q.serials ∨ u ∉ q.concerns))
    ⟨fun h => ⟨h.1, h.2⟩, fun h => ⟨h.busy, h.alone⟩⟩

/-- The routing signal that a walk is about to write: its number, its unit, and the signal. -/
def Process.signal? : Process → Option (Nat × String × String)
  | .mk serial _ (.working job (.signalRoute target _)) => some (serial, job.unitId, target)
  | _ => none

theorem Process.signal?_eq_some {w : Nat} {u target : String} {p : Process}
    (h : p.signal? = some (w, u, target)) :
    p.serial = w ∧ ∃ job rest, p.activity = .working job (.signalRoute target rest) ∧ job.unitId = u := by
  unfold signal? at h
  split at h
  · cases h
    exact ⟨rfl, _, _, rfl, rfl⟩
  · cases h

section

variable {w serial : Nat} {u target : String} {walk : Walk} {activity : Activity}
  {run inner : RunState} {p q : Process}

theorem Run.AtWork.of_branch (h : Run.AtWork w u ⟨run, .mk serial walk activity⟩)
    (hbranch : activity.Branches q) : Run.AtWork w u ⟨run, q⟩ where
  busy := fun r hr => h.busy r (Process.mem_crew.mpr (.inr ⟨q, hbranch, hr⟩))
  alone := fun hholds r hr =>
    h.alone (Process.Holds.of_branch hholds hbranch) r (Process.mem_crew.mpr (.inr ⟨q, hbranch, hr⟩))

theorem Run.Reads.of_branch (h : Run.Reads w u target ⟨run, .mk serial walk activity⟩)
    (hbranch : activity.Branches q) : Run.Reads w u target ⟨run, q⟩ :=
  fun hholds => h (Process.Holds.of_branch hholds hbranch)

end

/-! ## One step at one walk -/

namespace Scene

variable {s s' : Scene} {task serial w : Nat} {u target : String} {q : Process}

/-- In the middle of a unit that signals no route, its routing signal stays as it is. -/
theorem Steps.sameAt_work {job : Job} (h : s.Steps task serial s')
    (hprocess : (s.process serial).Spares {Scope.routeSlot job.unitId})
    (hengine : s.engine.Spares {Scope.routeSlot job.unitId}) (hjob : s.activity.job? = some job)
    (hjob' : s'.activity.job?.isSome = true)
    (hquiet : ∀ target rest, s.activity ≠ .working job (.signalRoute target rest)) :
    s.run.scope.SameAt {Scope.routeSlot job.unitId} s'.run.scope := by
  obtain ⟨hown, -⟩ := hprocess
  cases h with
  | does h hdoes =>
    rw [h] at hown hjob
    cases hjob
    cases hdoes with
    | access => cases hown.2 with | access hchange _ => exact hchange _
    | signalRoute target => exact absurd h (hquiet target _)
    | signalFork entries =>
      refine Scope.sameAt_insert _ ?_ _
      exact fun heq => Scope.routeSlot_ne_forkSlot _ _ heq.symm
    | note | payload | viewPool | closePool | addUnit | addFlow | eraseUnit | noFlow => exact .refl _
  | sleeps | wakes | opens | tidies | fails => exact .refl _
  | runs => exact (sameAt_announce hengine task serial _ .before none).1
  | ends | gaveUp =>
    rw [endUnit_eq] at hjob'
    cases hjob'
  | advance h | missing h | queues h | begins h | granted h | forksNone h | forksOne h | forks h
  | starts h | refuses h | joins h =>
    rw [h] at hjob
    cases hjob

end Scene

/-! ## What others leave alone -/

/-- The routing slot of a unit is free of what is done about other units. -/
theorem Scope.free_routeSlot {u v : String} (h : v ≠ u) : Free {routeSlot u} v :=
  ⟨fun heq => h (routeSlot_inj.mp heq), fun heq => routeSlot_ne_forkSlot _ _ heq.symm⟩

theorem Scope.free_concerns {u : String} {concerns : List String} (h : u ∉ concerns) :
    ∀ v ∈ concerns, Free {routeSlot u} v :=
  fun _ hv => free_routeSlot fun heq => h (heq ▸ hv)

theorem Scope.completedSlot_notMem (u : String) : completedSlot ∉ ({routeSlot u} : Set String) :=
  (routeSlot_ne_completedSlot u).symm

namespace Process

variable {w who task : Nat} {u target : String} {p p' q : Process} {run run' : RunState}
  {e e' : Engine} {site : Site} {keys : Set String}

/-- What is done in a flow that a unit runs leaves the state of the run to the unit, which goes on. -/
theorem Moves.run_eq (h : p.Moves who site task run e p' run' e') (hdepth : 0 < site.depth) :
    run' = run ∧ p'.isFinished = false := by
  induction h with
  | here => exact absurd hdepth (Nat.lt_irrefl 0)
  | called | returned => exact ⟨rfl, rfl⟩
  | inPlace _ _ ih | child _ _ _ ih =>
    rw [Site.depth_within] at hdepth
    exact ⟨(ih hdepth).1, rfl⟩
  | inPlaceEnded _ hfinished _ ih | childEnded _ hfinished _ _ ih =>
    rw [Site.depth_within] at hdepth
    cases (ih hdepth).2.symm.trans hfinished

/-- Besides what the code does that is called where a task moves, the run changes nothing in its scope but
what branches have completed and the slots of what its walks are concerned with. -/
theorem Moves.sameAt_code (h : p.Moves who site task run e p' run' e')
    (hfree : ∀ q ∈ p.crew, ∀ u ∈ q.concerns, Scope.Free keys u) (hpublish : Scope.completedSlot ∉ keys)
    (hdepth : site.depth = 0) : (site.process.activity.afterCode run e).SameAt keys run'.scope := by
  induction h with
  | here h => exact h.sameAt_code (hfree _ (mem_crew_self _)) fun hmem => absurd hmem hpublish
  | called | returned => cases hdepth
  | inPlace _ _ ih =>
    rw [Site.depth_within] at hdepth
    rw [Site.process_within]
    exact ih (fun q hq => hfree q (mem_crew.mpr (.inr ⟨_, rfl, hq⟩))) hdepth
  | @inPlaceEnded _ _ _ _ _ _ _ _ _ _ _ _ _ _ _ _ hclose ih =>
    rw [Site.depth_within] at hdepth
    rw [Site.process_within]
    obtain ⟨hposition, -, hgroup⟩ := freeAt_of_concerns (hfree _ (mem_crew_self _))
    subst hclose
    refine (ih (fun q hq => hfree q (mem_crew.mpr (.inr ⟨_, rfl, hq⟩))) hdepth).trans ?_
    exact Scene.sameAt_close (s := ⟨_, _, _, _⟩) hposition
      (fun stop heq => hgroup stop (by rw [← heq]; rfl)) hpublish ..
  | @child _ _ _ _ entry _ _ before after _ branch _ _ _ _ _ _ _ _ _ ih
  | @childEnded _ _ _ _ entry _ _ before after _ _ branch _ _ _ _ _ _ _ _ _ _ ih =>
    rw [Site.depth_within] at hdepth
    rw [Site.process_within]
    have hmem := mem_children before after entry branch
    exact ih (fun q hq => hfree q (mem_crew.mpr (.inr ⟨branch, ⟨entry, hmem⟩, hq⟩))) hdepth

/-- What is done in a process none of whose walks is concerned with a unit leaves the routing signal
of the unit as it is. -/
theorem Moves.sameAt (h : p.Moves who site task run e p' run' e')
    (hothers : ∀ q ∈ p.crew, u ∉ q.concerns) (hspares : p.Spares {Scope.routeSlot u})
    (hengine : e.Spares {Scope.routeSlot u}) :
    run.scope.SameAt {Scope.routeSlot u} run'.scope := by
  rcases Nat.eq_zero_or_pos site.depth with hdepth | hdepth
  · have hown := (hspares.of_has h.at.1.has).activity
    have hfree := fun q hq => Scope.free_concerns (hothers q hq)
    exact (hown.sameAt_code hengine run).trans
      (h.sameAt_code hfree (Scope.completedSlot_notMem u) hdepth)
  · rw [(h.run_eq hdepth).1]
    exact .refl _

end Process

/-! ## A signal stays where it is -/

namespace Scene

variable {s s' : Scene} {task serial w : Nat} {u target : String}

/-- What a walk does where it stands leaves the signal to be read, unless it is the walk that reads
it and goes on from its unit, or writes another one. -/
theorem Steps.reads (h : s.Steps task serial s') (hw : w < s.engine.nextSerial)
    (hspares : (s.process serial).Spares {Scope.routeSlot u})
    (hengine : s.engine.Spares {Scope.routeSlot u})
    (hwork : Run.AtWork w u ⟨s.run, s.process serial⟩)
    (hwork' : Run.AtWork w u ⟨s'.run, s'.process serial⟩)
    (hquiet : ∀ target, (s.process serial).signal? ≠ some (w, u, target))
    (hreads : ∀ f ∈ Run.flows ⟨s.run, s.process serial⟩, f.Reads w u target) :
    ∀ f ∈ Run.flows ⟨s'.run, s'.process serial⟩, f.Reads w u target := by
  have hown : Run.Reads w u target ⟨s.run, s.process serial⟩ := hreads _ List.mem_cons_self
  intro f hf
  rcases List.mem_cons.mp hf with rfl | hf
  · intro hholds
    rcases Process.holds_iff.mp hholds with rfl | ⟨branch, hbranch, hholds⟩
    · obtain ⟨job, hjob, rfl⟩ := Option.map_eq_some_iff.mp (hwork.busy _ (Process.mem_crew_self _) rfl)
      obtain ⟨job', hjob', -⟩ := Option.map_eq_some_iff.mp (hwork'.busy _ (Process.mem_crew_self _) rfl)
      have hsame := h.sameAt_work hspares hengine hjob (Option.isSome_of_mem hjob') ?_
      · rw [hsame.get?_eq _ rfl]
        exact hown (Process.holds_iff.mpr (.inl rfl))
      · intro target rest heq
        refine hquiet target ?_
        rw [process, heq]
        rfl
    · rcases h.runs_cases hbranch.runs with ⟨hold, -⟩ | ⟨plan, pooled, rfl⟩
      · rw [(h.keepsBranches hold).2]
        exact hown (Process.Holds.of_branch hholds hold)
      · exact absurd (Process.holds_ofPlan hholds) (Nat.ne_of_lt hw)
  · -- a flow that is run below the walk is the same as before, or at its start
    rcases Activity.mem_subruns.mp hf with ⟨branch, hbranch, hf⟩ | ⟨inner, root, hcalls, hf⟩
    · rcases h.runs_cases hbranch.runs with ⟨hold, -⟩ | ⟨plan, pooled, rfl⟩
      · exact hreads f (List.mem_cons_of_mem _ (Activity.mem_subruns.mpr (.inl ⟨branch, hold, hf⟩)))
      · cases hf
    · rcases h.runs_cases hcalls.runs with ⟨-, hbranch⟩ | ⟨plan, pooled, rfl⟩
      · exact absurd hbranch hcalls.not_branches
      · rcases hf with rfl | hf
        · exact fun hholds => absurd (Process.holds_ofPlan hholds) (Nat.ne_of_lt hw)
        · cases hf

/-- The move by which the signal is written. -/
theorem Steps.scope_of_signals (h : s.Steps task serial s')
    (hsignals : (s.process serial).signal? = some (w, u, target)) :
    s'.run.scope.get? (Scope.routeSlot u) = some (.text target) ∧ s'.activity.subruns = [] := by
  obtain ⟨-, job, rest, hactivity, rfl⟩ := Process.signal?_eq_some hsignals
  have hactivity : s.activity = .working job (.signalRoute target rest) := hactivity
  cases h with
  | does h hdoes =>
    rw [hactivity] at h
    cases h
    cases hdoes
    exact ⟨Table.get?_insert_self _ _ _, rfl⟩
  | advance h | missing h | queues h | begins h | granted h | sleeps h | wakes h | opens h | runs h
  | tidies h | ends h | forksNone h | forksOne h | forks h | starts h | refuses h | joins h =>
    rw [hactivity] at h
    cases h
  | fails h hfails =>
    rw [hactivity] at h
    cases h
    cases hfails
  | gaveUp h hover =>
    rw [hactivity] at h
    cases h
    obtain hdone | ⟨cause, hfails⟩ := hover
    · cases hdone
    · cases hfails

end Scene

namespace Process

variable {w who task : Nat} {u target : String} {p p' q : Process} {run run' : RunState}
  {e e' : Engine} {site : Site}

section

variable {serial : Nat} {walk : Walk} {anchor entry : String} {resume : Resume}
  {toStart : List (Branch Plan)} {before after : List Child} {completed completed' : List String}

/-- In a walk with nothing below it there is at most its own signal to be read. -/
theorem reads_alone {activity : Activity} (hnone : ∀ q, ¬ activity.Runs q)
    (hown : w = serial → run.scope.get? (Scope.routeSlot u) = some (.text target)) :
    ∀ f ∈ Run.flows ⟨run, mk serial walk activity⟩, f.Reads w u target := by
  intro f hf
  rcases List.mem_cons.mp hf with rfl | hf
  · intro hholds
    rcases holds_iff.mp hholds with heq | ⟨q, hbranch, -⟩
    · exact hown heq
    · exact absurd hbranch.runs (hnone q)
  · rcases Activity.mem_subruns.mp hf with ⟨q, hbranch, -⟩ | ⟨_, root, hcalls, -⟩
    · exact absurd hbranch.runs (hnone q)
    · exact absurd hcalls.runs (hnone root)

/-- What is to be shown of the runs below a unit that calls the executor. -/
theorem reads_calling {job : Job} {inner : RunState} {root : Process} {next : RunSummary → Behavior}
    (hown : w = serial → run.scope.get? (Scope.routeSlot u) = some (.text target))
    (hinner : ∀ f ∈ Run.flows ⟨inner, root⟩, f.Reads w u target) :
    ∀ f ∈ Run.flows ⟨run, mk serial walk (.calling job inner root next)⟩, f.Reads w u target := by
  refine List.forall_mem_cons.mpr ⟨fun hholds => ?_, hinner⟩
  exact (holds_iff.mp hholds).elim hown fun ⟨_, hbranch, _⟩ => hbranch.elim

/-- What is to be shown of the runs in a process whose only branch runs in place of the walk. -/
theorem reads_inPlace {branch : Process} (hserial : w ≠ serial)
    (hbranch : ∀ f ∈ Run.flows ⟨run, branch⟩, f.Reads w u target) :
    ∀ f ∈ Run.flows ⟨run, mk serial walk (.inPlace anchor entry resume branch)⟩,
      f.Reads w u target := by
  obtain ⟨hown, hbelow⟩ := List.forall_mem_cons.mp hbranch
  refine List.forall_mem_cons.mpr ⟨fun hholds => ?_, hbelow⟩
  rcases holds_iff.mp hholds with heq | ⟨q, hq, hin⟩
  · exact absurd heq hserial
  · obtain rfl : q = branch := hq
    exact hown hin

/-- What is to be shown of the runs in a process in which one branch of a fork has moved. -/
theorem reads_forking {child : Child} (hserial : w ≠ serial)
    (hsubruns : ∀ f ∈ child.subruns, f.Reads w u target)
    (hchild : ∀ entry branch, child = .running entry branch → Run.Reads w u target ⟨run', branch⟩)
    (hsiblings : ∀ entry q, (.running entry q ∈ before ∨ .running entry q ∈ after) →
      ∀ f ∈ Run.flows ⟨run', q⟩, f.Reads w u target) :
    ∀ f ∈ Run.flows ⟨run', mk serial walk (.forking anchor resume toStart
      (before ++ child :: after) completed)⟩, f.Reads w u target := by
  intro f hf
  rcases flows_forking hf with rfl | hf | ⟨entry', q, hmem, hf⟩
  · intro hholds
    rcases holds_forking hholds with rfl | ⟨entry', q, rfl, hin⟩ | ⟨entry', q, hmem, hin⟩
    · exact absurd rfl hserial
    · exact hchild entry' q rfl hin
    · have hown : Run.Reads w u target ⟨run', q⟩ := hsiblings entry' q hmem _ List.mem_cons_self
      exact hown hin
  · exact hsubruns f hf
  · exact hsiblings entry' q hmem f (List.mem_cons_of_mem _ hf)

/-- When a branch moves, the signal stays to be read in the others: if the walk that reads it is in
one of them, nobody in the branch is concerned with the unit. -/
theorem reads_sibling {branch : Process} {entry' : String}
    (hnodup : (Child.serialsIn (before ++ .running entry branch :: after)).Nodup)
    (hwork : Run.AtWork w u ⟨run, mk serial walk (.forking anchor resume toStart
      (before ++ .running entry branch :: after) completed)⟩)
    (hreads : ∀ f ∈ Run.flows ⟨run, mk serial walk (.forking anchor resume toStart
      (before ++ .running entry branch :: after) completed)⟩, f.Reads w u target)
    (hsame : (∀ q ∈ branch.crew, u ∉ q.concerns) → run.scope.SameAt {Scope.routeSlot u} run'.scope)
    (hmem : .running entry' q ∈ before ∨ .running entry' q ∈ after) :
    ∀ f ∈ Run.flows ⟨run', q⟩, f.Reads w u target := by
  have hown : Run.Reads w u target ⟨run, mk serial walk (.forking anchor resume toStart
      (before ++ .running entry branch :: after) completed)⟩ := hreads _ List.mem_cons_self
  have hsibling : (Activity.forking anchor resume toStart (before ++ .running entry branch :: after)
      completed).Branches q := branches_of_sibling hmem
  intro f hf
  rcases List.mem_cons.mp hf with rfl | hf
  · intro hholds
    have hin : (mk serial walk (.forking anchor resume toStart
        (before ++ .running entry branch :: after) completed)).Holds w := hholds.of_branch hsibling
    have hnotin := notMem_serials_of_sibling hnodup hmem hholds.mem_serials
    rw [(hsame ?_).get?_eq _ rfl]
    · exact hown hin
    · intro r hr
      have hbranch := mem_children before after entry branch
      refine (hwork.alone hin r (mem_crew.mpr (.inr ⟨branch, ⟨entry, hbranch⟩, hr⟩))).resolve_left ?_
      exact fun hmem => hnotin ((has_of_crew hr).serials_subset hmem)
  · exact hreads f (List.mem_cons_of_mem _ (Activity.mem_subruns.mpr (.inl ⟨q, hsibling, hf⟩)))

end

/-- Whatever a task does, the signal stays to be read, unless it is the walk that reads it that goes
on from its unit, or writes another one. -/
theorem Moves.reads (h : p.Moves who site task run e p' run' e') (hnodup : p.serials.Nodup)
    (hw : w < e.nextSerial) (hspares : p.Spares {Scope.routeSlot u})
    (hengine : e.Spares {Scope.routeSlot u}) (hwork : ∀ f ∈ Run.flows ⟨run, p⟩, f.AtWork w u)
    (hwork' : ∀ f ∈ Run.flows ⟨run', p'⟩, f.AtWork w u)
    (hquiet : ∀ target, site.process.signal? ≠ some (w, u, target))
    (hreads : ∀ f ∈ Run.flows ⟨run, p⟩, f.Reads w u target) :
    ∀ f ∈ Run.flows ⟨run', p'⟩, f.Reads w u target := by
  have hown : Run.Reads w u target ⟨run, p⟩ := hreads _ List.mem_cons_self
  have hownWork : Run.AtWork w u ⟨run, p⟩ := hwork _ List.mem_cons_self
  -- The walk that reads is the one that waits, or in the part that moves, or in a branch next to
  -- it. The first is at a unit only if that calls the executor, and for the last nobody in the part
  -- is concerned with its unit.
  induction h with
  | here h =>
    exact h.reads hw hspares hengine hownWork (hwork' _ List.mem_cons_self) hquiet hreads
  | called _ _ ih =>
    obtain ⟨-, hnodup⟩ := List.nodup_cons.mp hnodup
    have hwork := Run.forall_flows_of_calls hwork ⟨rfl, rfl⟩
    have hreads := Run.forall_flows_of_calls hreads ⟨rfl, rfl⟩
    have hinner := ih hnodup hw (hspares.of_runs rfl) hengine hwork
      (Run.forall_flows_of_calls hwork' ⟨rfl, rfl⟩) hquiet hreads (hreads _ List.mem_cons_self)
      (hwork _ List.mem_cons_self)
    exact reads_calling (fun heq => hown (holds_iff.mpr (.inl heq))) hinner
  | returned => exact reads_alone (fun _ => id) fun heq => hown (holds_iff.mpr (.inl heq))
  | inPlace _ _ ih =>
    obtain ⟨-, hnodup⟩ := List.nodup_cons.mp hnodup
    rw [Site.process_within] at hquiet
    have hwork := Run.forall_flows_of_branch hwork rfl fun h => h.of_branch rfl
    have hreads := Run.forall_flows_of_branch hreads rfl fun h => h.of_branch rfl
    have hbranch := ih hnodup hw (hspares.of_runs rfl) hengine hwork
      (Run.forall_flows_of_branch hwork' rfl fun h => h.of_branch rfl) hquiet hreads
      (hreads _ List.mem_cons_self) (hwork _ List.mem_cons_self)
    exact reads_inPlace (fun heq => absurd (hownWork.busy _ (mem_crew_self _) heq.symm) nofun) hbranch
  | inPlaceEnded _ _ hclose =>
    subst hclose
    exact reads_alone (fun _ => id) fun heq =>
      absurd (hownWork.busy _ (mem_crew_self _) heq.symm) nofun
  | @child _ _ _ _ entry _ _ before after _ branch branch' _ _ _ _ _ h _ _ ih =>
    obtain ⟨-, hchildren⟩ := List.nodup_cons.mp hnodup
    rw [Site.process_within] at hquiet
    have hmem := mem_children before after entry branch
    have hmem' := mem_children before after entry branch'
    have hbranchWork := Run.forall_flows_of_branch hwork ⟨entry, hmem⟩ fun h => h.of_branch ⟨entry, hmem⟩
    have hbranchReads :=
      Run.forall_flows_of_branch hreads ⟨entry, hmem⟩ fun h => h.of_branch ⟨entry, hmem⟩
    have hbranch := ih (Child.nodup_serials hchildren hmem) hw (hspares.of_runs ⟨entry, hmem⟩) hengine
      hbranchWork (Run.forall_flows_of_branch hwork' ⟨entry, hmem'⟩ fun h => h.of_branch ⟨entry, hmem'⟩)
      hquiet hbranchReads (hbranchReads _ List.mem_cons_self) (hbranchWork _ List.mem_cons_self)
    -- a walk that waits for branches is in the middle of nothing
    have hserial : w ≠ _ := fun heq => absurd (hownWork.busy _ (mem_crew_self _) heq.symm) nofun
    refine reads_forking hserial (fun f hf => hbranch f (List.mem_cons_of_mem _ hf)) ?_ ?_
    · rintro _ _ ⟨⟩
      exact hbranch _ List.mem_cons_self
    · exact fun _ _ hsibling => reads_sibling hchildren hownWork hreads
        (fun hothers => h.sameAt hothers (hspares.of_runs ⟨entry, hmem⟩) hengine) hsibling
  | @childEnded _ _ _ _ entry _ _ before after _ _ branch _ _ _ _ _ _ h _ _ _ =>
    obtain ⟨-, hchildren⟩ := List.nodup_cons.mp hnodup
    have hmem := mem_children before after entry branch
    have hserial : w ≠ _ := fun heq => absurd (hownWork.busy _ (mem_crew_self _) heq.symm) nofun
    exact reads_forking hserial nofun nofun fun _ _ hsibling =>
      reads_sibling hchildren hownWork hreads
        (fun hothers => h.sameAt hothers (hspares.of_runs ⟨entry, hmem⟩) hengine) hsibling

/-- A walk that writes a signal is one of those that the task moves among. -/
theorem Moves.mem_of_signals (h : p.Moves who site task run e p' run' e')
    (hsignals : site.process.signal? = some (w, u, target)) : w ∈ p.serials :=
  h.at.1.has.serials_subset ((signal?_eq_some hsignals).1 ▸ serial_mem_serials _)

/-- After a walk has written a signal, it is there to be read. -/
theorem Moves.reads_of_signals (h : p.Moves who site task run e p' run' e') (hnodup : p.serials.Nodup)
    (hsignals : site.process.signal? = some (w, u, target)) :
    ∀ f ∈ Run.flows ⟨run', p'⟩, f.Reads w u target := by
  -- Where the move is made further below, the walk that writes is there as well, and so is neither the
  -- walk above nor one of another branch, as no number occurs twice.
  induction h with
  | here h =>
    obtain ⟨hscope, hsubruns⟩ := h.scope_of_signals hsignals
    intro f hf
    rcases List.mem_cons.mp hf with rfl | hf
    · exact fun _ => hscope
    · have hf : f ∈ Activity.subruns _ := hf
      rw [hsubruns] at hf
      cases hf
  | called h _ ih =>
    obtain ⟨hserial, hnodup⟩ := List.nodup_cons.mp hnodup
    have hin := h.mem_of_signals hsignals
    exact reads_calling (fun heq => absurd hin (heq ▸ hserial)) (ih hnodup hsignals)
  | returned h =>
    obtain ⟨hserial, -⟩ := List.nodup_cons.mp hnodup
    have hin := h.mem_of_signals hsignals
    exact reads_alone (fun _ => id) fun heq => absurd hin (heq ▸ hserial)
  | inPlace h _ ih =>
    obtain ⟨hserial, hnodup⟩ := List.nodup_cons.mp hnodup
    rw [Site.process_within] at hsignals
    have hin := h.mem_of_signals hsignals
    exact reads_inPlace (fun heq => hserial (heq ▸ hin)) (ih hnodup hsignals)
  | inPlaceEnded h _ hclose =>
    obtain ⟨hserial, -⟩ := List.nodup_cons.mp hnodup
    rw [Site.process_within] at hsignals
    have hin := h.mem_of_signals hsignals
    subst hclose
    exact reads_alone (fun _ => id) fun heq => absurd hin (heq ▸ hserial)
  | @child _ _ _ _ entry _ _ before after _ branch _ _ _ _ _ _ h _ _ ih =>
    obtain ⟨hserial, hchildren⟩ := List.nodup_cons.mp hnodup
    rw [Site.process_within] at hsignals
    have hmem := mem_children before after entry branch
    have hin := h.mem_of_signals hsignals
    have hbranch := ih (Child.nodup_serials hchildren hmem) hsignals
    refine reads_forking (fun heq => hserial (heq ▸ Child.mem_serialsIn hmem hin))
      (fun f hf => hbranch f (List.mem_cons_of_mem _ hf)) ?_ ?_
    · rintro _ _ ⟨⟩
      exact hbranch _ List.mem_cons_self
    · exact fun _ _ hsibling f hf hholds => absurd hin
        (notMem_serials_of_sibling hchildren hsibling (Run.mem_serials_of_flows hf hholds))
  | @childEnded _ _ _ _ entry _ _ before after _ _ branch _ _ _ _ _ _ h _ _ _ =>
    obtain ⟨hserial, hchildren⟩ := List.nodup_cons.mp hnodup
    rw [Site.process_within] at hsignals
    have hmem := mem_children before after entry branch
    have hin := h.mem_of_signals hsignals
    exact reads_forking (fun heq => hserial (heq ▸ Child.mem_serialsIn hmem hin)) nofun nofun
      fun _ _ hsibling f hf hholds => absurd hin
        (notMem_serials_of_sibling hchildren hsibling (Run.mem_serials_of_flows hf hholds))

end Process

/-! ## Taking the arm -/

/-- A walk stands at a unit that chooses between two arms, and is not the anchor of a group. -/
structure Walk.AtChoice (w : Walk) (u : String) (choice : Choice) : Prop where
  unit : w.plan.unitAt? w.position = some u
  chooses : w.plan.choiceAt? w.position = some choice
  group : w.plan.groupAfter? w.position = none
  arms : ∃ whenTrue whenFalse, choice.arms.entries = [(false, whenFalse), (true, whenTrue)] ∧
    Label.ofText? whenFalse.target = none

/-- A walk has just gone on from a choice into the arm with a label: all other arms are skipped. -/
structure Process.Took (w : Walk) (choice : Choice) (label : Label) (q : Process) : Prop where
  plan : q.walk.plan = w.plan
  position : q.walk.position = w.position + 1
  skipped : q.walk.skipped = (w.chooseArm choice label).skipped
  next : q.activity = .poised .advance

/-- A walk still stands at a choice, and waits for units that it has forked there before it goes on
with a label. -/
structure Process.Scatters (w : Walk) (label : Label) (q : Process) : Prop where
  walk : q.walk = w
  fork : ∃ entries, q.activity.fork? = some (.scattered entries (some label.text))

/-- A walk has come to its end, and failed. -/
structure Process.Broke (q : Process) : Prop where
  finished : q.isFinished = true
  failure : q.walk.failure.isSome = true

namespace Walk

variable {w : Walk} {u : String} {choice : Choice} {label : Label} {scope : Scope}

theorem AtChoice.steer (h : w.AtChoice u choice) (scope : Scope) (hasRun : String → Bool)
    (v : String) : w.steer scope hasRun v (some label.text) =
      (w.chooseArm choice label).proceed scope := by
  obtain ⟨whenTrue, whenFalse, harms, hplain⟩ := h.arms
  exact steer_of_choice h.chooses harms hplain hasRun (some label)

/-- When its unit has ended and left a label, the walk takes the arm with that label, unless it has
to fork first. -/
theorem AtChoice.ownUnitDone (h : w.AtChoice u choice)
    (hslot : scope.get? (Scope.routeSlot u) = some (.text label.text)) (hasRun : String → Bool)
    (tolerant : Bool) (serial : Nat) :
    let t := w.ownUnitDone scope hasRun tolerant none
    (Process.mk serial t.walk (.poised t.next)).Took w choice label ∨
      (Process.mk serial t.walk (.poised t.next)).Scatters w label := by
  have hsignal : (scope.takeRoute u).1 = some label.text := by
    unfold Scope.takeRoute
    rw [hslot]
  unfold Walk.ownUnitDone
  rw [h.unit]
  simp only [hsignal]
  unfold obey
  rw [if_neg fun heq => Label.text_ne_stopValue label (Option.some.inj heq), h.group]
  rcases ((scope.takeRoute u).2.takeFork u).1.filter (· ≠ []) with _ | entries
  · simp only [h.steer]
    exact .inl ⟨rfl, rfl, rfl, rfl⟩
  · exact .inr ⟨rfl, entries, rfl⟩

/-- When the fork has ended, the walk takes the arm, unless it fails with the fork. -/
theorem AtChoice.scatterDone (h : w.AtChoice u choice) (scope : Scope) (hasRun : String → Bool)
    (tolerant : Bool) (entries : List String) (result : Option Failure) (serial : Nat) :
    let t := w.scatterDone scope hasRun tolerant entries (some label.text) result
    (Process.mk serial t.walk (.poised t.next)).Took w choice label ∨
      (Process.mk serial t.walk (.poised t.next)).Broke := by
  unfold Walk.scatterDone
  rw [h.unit]
  rcases result with _ | failure
  · have hthere : ∀ early, AtChoice { w with early := early } u choice := fun _ =>
      ⟨h.unit, h.chooses, h.group, h.arms⟩
    simp only
    rw [(hthere _).steer]
    exact .inl ⟨rfl, rfl, rfl, rfl⟩
  · have hthere : (w.addFailure failure).AtChoice u choice := ⟨h.unit, h.chooses, h.group, h.arms⟩
    simp only
    split
    · rw [hthere.steer]
      exact .inl ⟨rfl, rfl, rfl, rfl⟩
    · refine .inr ⟨rfl, ?_⟩
      show (w.failure.or (some failure)).isSome = true
      cases w.failure <;> rfl

end Walk

namespace Process

variable {who task : Nat} {q q' : Process} {run run' : RunState} {e e' : Engine} {site : Site}
  {w : Walk} {u : String} {choice : Choice} {label : Label}

theorem Took.running (h : q.Took w choice label) : q.isFinished = false := by
  obtain ⟨serial, walk, activity⟩ := q
  rw [show activity = _ from h.next]
  rfl

theorem Scatters.running (h : q.Scatters w label) : q.isFinished = false := by
  obtain ⟨serial, walk, activity⟩ := q
  obtain ⟨-, entries, hfork⟩ := h
  by_contra hfinished
  rw [activity_of_isFinished (Bool.not_eq_false _ ▸ hfinished)] at hfork
  cases hfork

theorem scatters_close {s : Scene} {task serial : Nat} {anchor : String} {resume : Resume}
    {entries : List String} (h : s.walk.AtChoice u choice)
    (hresume : resume = .scattered entries (some label.text)) (result : Option Failure)
    (completed : List String) :
    ((s.close task serial anchor resume result completed).process serial).Took s.walk choice label ∨
      ((s.close task serial anchor resume result completed).process serial).Broke := by
  subst hresume
  exact h.scatterDone ..

/-- A walk that waits for what it has forked at a choice goes on waiting, or takes the arm with its
label, or fails with the fork. -/
theorem Scatters.moves (h : q.Scatters w label) (hchoice : w.AtChoice u choice)
    (hmoves : q.Moves who site task run e q' run' e') :
    q'.Scatters w label ∨ q'.Took w choice label ∨ q'.Broke := by
  obtain ⟨rfl, entries, hfork⟩ := h
  cases hmoves with
  | @here serial walk activity run e s h =>
    have hfork : activity.fork? = some (.scattered entries (some label.text)) := hfork
    cases h with
    | forksNone h =>
      rw [show activity = _ from h] at hfork
      cases hfork
      exact .inr (hchoice.scatterDone ..)
    | joins h =>
      rw [show activity = _ from h] at hfork
      exact .inr (scatters_close (s := ⟨_, _, _, _⟩) hchoice (Option.some.inj hfork) ..)
    | forksOne h | forks h | starts h | refuses h =>
      rw [show activity = _ from h] at hfork
      exact .inl ⟨rfl, entries, hfork⟩
    | advance h | missing h | queues h | begins h | granted h | does h | sleeps h | wakes h | opens h
    | runs h | tidies h | ends h | fails h | gaveUp h =>
      rw [show activity = _ from h] at hfork
      cases hfork
  | called | returned => cases hfork
  | inPlace | child | childEnded => exact .inl ⟨rfl, entries, hfork⟩
  | inPlaceEnded _ _ hclose =>
    subst hclose
    exact .inr (scatters_close (s := ⟨_, _, _, _⟩) hchoice (Option.some.inj hfork) ..)

theorem Scatters.cancelTasks (h : q.Scatters w label) : q.cancelTasks.Scatters w label := by
  obtain ⟨serial, walk, activity⟩ := q
  obtain ⟨rfl, entries, hfork⟩ := h
  refine ⟨rfl, entries, ?_⟩
  cases activity <;> exact hfork

theorem Broke.cancelTasks (h : q.Broke) : q.cancelTasks.Broke where
  finished := q.isFinished_cancelTasks.trans h.finished
  failure := by rw [walk_cancelTasks]; exact h.failure

end Process

/-! ## Executors -/

/-- The units of the plans in a plan are units of that plan, in the same order. -/
theorem Plan.WellFormed.sequence_sublist {p inner : Plan} {node : Node} (h : p.WellFormed node)
    (hinner : p.Contains inner) : inner.sequence.Sublist p.sequence := by
  induction hinner with
  | self => exact .refl _
  | @branch outer e b houter hgroup hbranch ih =>
    obtain ⟨outerNode, -, hfits⟩ := h.inner outer houter
    have hunits := (hfits.groups e hgroup).units
    have hin : b.plan.sequence.Sublist (e.2.branches.flatMap fun branch => branch.plan.sequence) := by
      rw [List.flatMap_def]
      exact List.sublist_flatten_of_mem (List.mem_map_of_mem hbranch)
    rw [← hunits] at hin
    exact hin.trans ((List.take_sublist ..).trans ((List.drop_sublist ..).trans ih))

/-- Where a walk through a plan of a flow chooses, it stands at a choice. -/
theorem Plan.WellFormed.atChoice {p : Plan} {node : Node} {w : Walk} {u : String} {choice : Choice}
    (h : p.WellFormed node) (hinner : p.Contains w.plan)
    (hplain : ∀ v ∈ node.leaves, Label.ofText? v = none)
    (hunit : w.plan.unitAt? w.position = some u)
    (hchoice : w.plan.choiceAt? w.position = some choice) : w.AtChoice u choice where
  unit := hunit
  chooses := hchoice
  group := by
    obtain ⟨innerNode, -, hfits⟩ := h.inner _ hinner
    rcases hgroup : w.plan.groupAfter? w.position with _ | group
    · rfl
    · unfold groupAfter? at hgroup
      obtain ⟨hgroup, hanchor⟩ := Option.filter_eq_some_iff.mp hgroup
      have hmem := Table.mem_of_lookup hgroup
      have hno := (hfits.anchored _ hmem _ (of_decide_eq_true hanchor)).no_choice
      rw [hchoice] at hno
      cases hno
  arms := by
    obtain ⟨innerNode, -, hfits⟩ := h.inner _ hinner
    obtain ⟨whenTrue, whenFalse, hfit⟩ := hfits.choices _ (Table.mem_of_lookup hchoice)
    refine ⟨whenTrue, whenFalse, hfit.arms, hplain _ ?_⟩
    rw [← h.fits.units]
    exact (h.sequence_sublist hinner).subset (List.mem_of_getElem? hfit.target_false)

namespace Executor

variable {start last x y z : Executor} {past more : List (Executor × Move)} {m : Move} {w : Nat}
  {u target : String} {f : Run}

/-- The routing signals that are written by a move, with the walk and the unit that write them. -/
def written (x : Executor) : Move → List (Nat × String × String)
  | .step who => (List.range x.runs.length).flatMap fun i =>
    (x.sites i who).filterMap fun site => site.process.signal?
  | .wait _ | .launch .. | .beginShutdown | .settleShutdown => []

theorem exists_of_mem_written (h : (w, u, target) ∈ x.written m) :
    ∃ i who site, m = .step who ∧ x.At i who site ∧ site.process.signal? = some (w, u, target) := by
  cases m with
  | step who =>
    obtain ⟨i, -, h⟩ := List.mem_flatMap.mp h
    obtain ⟨site, hsite, hsignal⟩ := List.mem_filterMap.mp h
    exact ⟨i, who, site, rfl, at_of_mem_sites hsite, hsignal⟩
  | wait | launch | beginShutdown | settleShutdown => cases h

/-- Who writes a signal by a move is the one who moves. -/
theorem signal?_of_mem_written {before after : List Run} {run : Run} {who : Nat} {site : Site}
    {root : Process} {state : RunState} {e' : Engine} (h : (w, u, target) ∈ x.written (.step who))
    (hnumbered : x.ledger.Numbered) (hruns : x.runs = before ++ run :: after)
    (hmoves : run.root.Moves who site run.root.serial run.state x.engine root state e') :
    site.process.signal? = some (w, u, target) := by
  obtain ⟨i, _, other, ⟨⟩, hat, hsignal⟩ := exists_of_mem_written h
  have hown : other.process.activity.IsOwn := by
    obtain ⟨-, job, rest, hactivity, -⟩ := Process.signal?_eq_some hsignal
    rw [hactivity]
    trivial
  have hthere : x.At before.length who site := ⟨run, by simp [hruns], hmoves.at.1⟩
  rw [← (hat.unique hnumbered hown hthere hmoves.at.2).2]
  exact hsignal

/-- After a walk has written a signal, it is there to be read. -/
theorem reads_of_mem_written (hnumbered : x.ledger.Numbered) (hwritten : (w, u, target) ∈ x.written m)
    (hmove : x.move m = some y) : ∀ f ∈ y.flows, f.Reads w u target := by
  obtain ⟨i, who, site, rfl, -⟩ := exists_of_mem_written hwritten
  obtain ⟨before, run, after, root, state, e', hruns, hstep, rfl⟩ := exists_step hmove
  obtain ⟨other, hmoves⟩ := Process.moves_of_step hstep
  have hsignal := signal?_of_mem_written hwritten hnumbered hruns hmoves
  have hroot : run.root.serials.Nodup := nodup_of_mem hnumbered (by simp [hruns])
  have hin : w ∈ run.root.serials := hmoves.at.1.has.serials_subset
    ((Process.signal?_eq_some hsignal).1 ▸ Process.serial_mem_serials _)
  have hothers : ∀ own, own ∈ before ∨ own ∈ after → ∀ f ∈ own.flows, f.Reads w u target :=
    fun own hown f hf hholds => absurd hin
      (not_mem_serials_of_other hnumbered hruns hown (Run.mem_serials_of_flows hf hholds))
  intro f hf
  obtain ⟨own, hown, hf⟩ := mem_flows.mp hf
  rcases mem_around.mp hown with rfl | hother
  · exact hmoves.reads_of_signals hroot hsignal f hf
  · exact hothers own hother f hf

/-- As long as nobody else is concerned with the unit, the signal stays to be read, until its own walk
goes on from the unit or writes another one. -/
theorem reads_move (hnumbered : x.ledger.Numbered) (hspares : x.Spares {Scope.routeSlot u})
    (hw : w < x.engine.nextSerial) (hwork : ∀ f ∈ x.flows, f.AtWork w u)
    (hwork' : ∀ f ∈ y.flows, f.AtWork w u) (hquiet : ∀ target, (w, u, target) ∉ x.written m)
    (hmove : x.move m = some y) (hreads : ∀ f ∈ x.flows, f.Reads w u target) :
    ∀ f ∈ y.flows, f.Reads w u target := by
  intro f hf
  obtain ⟨own, hown, hf⟩ := mem_flows.mp hf
  cases comesBy hmove hown with
  | stays hrun => exact hreads f (mem_flows.mpr ⟨own, hrun, hf⟩)
  | @moves who i run site state root heq hat hmoves =>
    subst heq
    have hrun := List.mem_of_getElem? hat
    have hroot := nodup_of_mem hnumbered hrun
    refine hmoves.reads hroot hw (hspares.runs run hrun) hspares.engine
      (fun f hf => hwork f (mem_flows.mpr ⟨run, hrun, hf⟩))
      (fun f hf => hwork' f (mem_flows.mpr ⟨_, hown, hf⟩)) ?_
      (fun f hf => hreads f (mem_flows.mpr ⟨run, hrun, hf⟩)) f hf
    intro target hsignal
    refine hquiet target (List.mem_flatMap.mpr ⟨i, ?_, List.mem_filterMap.mpr ?_⟩)
    · exact List.mem_range.mpr (List.getElem?_eq_some_iff.mp hat).1
    · exact ⟨site, mem_sites_of_at ⟨run, hat, hmoves.at.1⟩, hsignal⟩
  | launched hlaunched =>
    intro hholds
    have hin : w ∈ own.root.serials := Run.mem_serials_of_flows hf hholds
    rw [hlaunched.serials, List.mem_singleton] at hin
    omega
  | @givesUp run hrun =>
    rcases List.mem_cons.mp hf with rfl | hf
    · have hold := hreads run (mem_flows.mpr ⟨run, hrun, List.mem_cons_self⟩)
      exact fun hholds => hold (Process.holds_of_cancelTasks hholds)
    · obtain ⟨g, hg, rfl⟩ := Process.subruns_cancelTasks hf
      have hold := hreads g (mem_flows.mpr ⟨run, hrun, List.mem_cons_of_mem _ hg⟩)
      exact fun hholds => hold (Process.holds_of_cancelTasks hholds)

/-- So it is in every schedule. -/
theorem History.reads (hfits : start.Fits) (hnumbered : start.ledger.Numbered)
    (hspares : start.Spares {Scope.routeSlot u}) (hpast : start.History past y)
    (hw : w < y.engine.nextSerial) (hreads : ∀ f ∈ y.flows, f.Reads w u target)
    (h : y.History more z)
    (hmeanwhile : ∀ v m, (v, m) ∈ more →
      (∀ f ∈ v.flows, f.AtWork w u) ∧ ∀ target, (w, u, target) ∉ v.written m)
    (hwork : ∀ f ∈ z.flows, f.AtWork w u) :
    w < z.engine.nextSerial ∧ ∀ f ∈ z.flows, f.Reads w u target := by
  induction h with
  | start => exact ⟨hw, hreads⟩
  | @move more v z m h hmove ih =>
    obtain ⟨hthere, hquiet⟩ := hmeanwhile v m (by simp)
    obtain ⟨hw, hreads⟩ := ih (fun v m hmem => hmeanwhile v m (List.mem_append_left _ hmem)) hthere
    have hv := hpast.trans h
    exact ⟨Nat.lt_of_lt_of_le hw (nextSerial_le (hv.fits hfits) hmove),
      reads_move (hv.numbered hfits hnumbered) (hv.spares hspares) hw hthere hwork hquiet hmove hreads⟩

/-- A walk has taken an arm at some moment of a history. -/
def TookArm (past : List (Executor × Move)) (last : Executor) (w : Nat) (walk : Walk)
    (choice : Choice) (label : Label) : Prop :=
  ∃ v, (v = last ∨ ∃ m, (v, m) ∈ past) ∧ ∃ q, v.Has q ∧ q.serial = w ∧ q.Took walk choice label

/-- A walk that has ended a unit with a label as its signal waits for what the unit has forked until
it takes the arm with that label, or fails with the fork. -/
theorem History.tookArm {walk : Walk} {choice : Choice} {label : Label} (h : y.History more last)
    (hchoice : walk.AtChoice u choice) (hfits : y.Fits) (hw : w < y.engine.nextSerial)
    (hstart : ∀ q, y.Has q → q.serial = w → q.Scatters walk label ∨ q.Took walk choice label) :
    w < last.engine.nextSerial ∧ ∀ q, last.Has q → q.serial = w →
      q.Scatters walk label ∨ q.Broke ∨ TookArm more last w walk choice label := by
  induction h with
  | start =>
    refine ⟨hw, fun q hhas hserial => ?_⟩
    rcases hstart q hhas hserial with hscatters | htook
    · exact .inl hscatters
    · exact .inr (.inr ⟨y, .inl rfl, q, hhas, hserial, htook⟩)
  | @move more v last m h hmove ih =>
    obtain ⟨hw, hv⟩ := ih
    have hfits := h.fits hfits
    refine ⟨Nat.lt_of_lt_of_le hw (nextSerial_le hfits hmove), fun q hhas hserial => ?_⟩
    -- what had come to pass before has come to pass
    have hpassed : TookArm more v w walk choice label →
        TookArm (more ++ [(v, m)]) last w walk choice label := by
      rintro ⟨v', rfl | ⟨m', hmem⟩, htook⟩
      · exact ⟨v', .inr ⟨m, by simp⟩, htook⟩
      · exact ⟨v', .inr ⟨m', by simp [hmem]⟩, htook⟩
    have hsame : v.Has q → q.Scatters walk label ∨ q.Broke ∨
        TookArm (more ++ [(v, m)]) last w walk choice label := fun hin =>
      (hv q hin hserial).imp_right (Or.imp_right hpassed)
    rcases comesFrom hmove hhas with ⟨who, rfl, hnew | hin | ⟨site, task, p, run, run', e', hin, hmoves⟩⟩ |
      hnew | hin | ⟨p, hin, rfl⟩
    · omega
    · exact hsame hin
    · have hsame : p.serial = w := by rw [← hmoves.serial, hserial]
      rcases hv p hin hsame with hscatters | hbroke | htook
      · rcases hscatters.moves hchoice hmoves with hscatters | htook | hbroke
        · exact .inl hscatters
        · exact .inr (.inr ⟨last, .inl rfl, q, hhas, hserial, htook⟩)
        · exact .inr (.inl hbroke)
      · exact absurd hmoves (Process.not_moves_of_isFinished hbroke.finished)
      · exact .inr (.inr (hpassed htook))
    · omega
    · exact hsame hin
    · have hsame : p.serial = w := by rw [← p.serial_cancelTasks, hserial]
      rcases hv p hin hsame with hscatters | hbroke | htook
      · exact .inl hscatters.cancelTasks
      · exact .inr (.inl hbroke.cancelTasks)
      · exact .inr (.inr (hpassed htook))

end Executor

/-- The unit that a walk is about to end, all of whose calls have succeeded, and where the answer to it
belongs. -/
def Process.ending? : Process → Option (String × Resume)
  | .mk _ _ (.working job .done) => if job.stage = .after then some (job.unitId, job.resume) else none
  | _ => none

theorem Process.ending?_eq_some {p : Process} {u : String} {resume : Resume}
    (h : p.ending? = some (u, resume)) : ∃ job, p.activity = .working job .done ∧ job.stage = .after ∧
      job.unitId = u ∧ job.resume = resume := by
  unfold ending? at h
  split at h
  · split at h
    · next hstage =>
      cases h
      exact ⟨_, rfl, hstage, rfl, rfl⟩
    · cases h
  · cases h

/-- When a unit that stands at a choice ends, and its signal is a label, its walk takes the arm with
that label, unless it has to fork first. -/
theorem Scene.Steps.takes {s s' : Scene} {task serial : Nat} {job : Job} {choice : Choice}
    {label : Label} (h : s.Steps task serial s') (hactivity : s.activity = .working job .done)
    (hstage : job.stage = .after) (hresume : job.resume = .unit)
    (hchoice : s.walk.AtChoice job.unitId choice)
    (hengine : s.engine.Spares {Scope.routeSlot job.unitId})
    (hslot : s.run.scope.get? (Scope.routeSlot job.unitId) = some (.text label.text)) :
    (s'.process serial).Took s.walk choice label ∨ (s'.process serial).Scatters s.walk label := by
  cases h with
  | ends h =>
    cases hactivity.symm.trans h
    obtain ⟨hsame, -⟩ := sameAt_announce hengine task serial job .after none
    rw [endUnit_eq, unitEnded, hresume]
    exact hchoice.ownUnitDone ((hsame.get?_eq _ rfl).trans hslot) ..
  | does h hdoes =>
    cases hactivity.symm.trans h
    cases hdoes
  | runs h hother | tidies h hother | gaveUp h _ hother =>
    cases hactivity.symm.trans h
    cases hstage.symm.trans hother
  | fails h hfails =>
    cases hactivity.symm.trans h
    cases hfails
  | advance h | missing h | queues h | begins h | granted h | sleeps h | wakes h | opens h
  | forksNone h | forksOne h | forks h | starts h | refuses h | joins h =>
    cases hactivity.symm.trans h

namespace Executor

variable {start last x y z z' : Executor} {past more later : List (Executor × Move)} {m : Move}
  {w : Nat} {u : String}

/-- Routing in every schedule, as long as walks of one run do not execute the same unit at the same
time. A walk in the middle of a unit writes a label. From then on the unit writes no other routing
value, and until it has ended no other walk of the run is concerned with it, but for those around the
walk. When the unit ends at a choice of the walk's plan, the walk takes exactly the arm with that
label. If the unit has asked for a fork as well, the walk does so behind the fork, or fails with it. -/
theorem History.takes_own_arm {config : Config} {registry : Registry} {listeners : Listeners}
    {text : String} {node : Node} {plan : Plan} {label : Label} {choice : Choice} {i who : Nat}
    {site : Site} (hbuild : build config registry listeners = .ok start)
    (hunits : registry.Spares {Scope.routeSlot u}) (hlisteners : listeners.Spare {Scope.routeSlot u})
    (hparse : Expression.parse text = .ok node) (hplain : ∀ v ∈ node.leaves, Label.ofText? v = none)
    (hcompile : node.compile? = some plan) (hplan : plan.Contains site.process.walk.plan)
    (hpast : start.History past x) (hwritten : (w, u, label.text) ∈ x.written m) (hwrite : x.move m = some y)
    (hmore : y.History more z)
    (hmeanwhile : ∀ v m, (v, m) ∈ more →
      (∀ f ∈ v.flows, f.AtWork w u) ∧ ∀ target, (w, u, target) ∉ v.written m)
    (hwork : ∀ f ∈ z.flows, f.AtWork w u) (hat : z.At i who site) (hserial : site.process.serial = w)
    (hends : site.process.ending? = some (u, .unit))
    (hchoice : site.process.walk.plan.choiceAt? site.process.walk.position = some choice)
    (hend : z.move (.step who) = some z') (hlater : z'.History later last) :
    (∃ q, z'.Has q ∧ q.serial = w ∧
      (q.Took site.process.walk choice label ∨ q.Scatters site.process.walk label)) ∧
    ∀ q, last.Has q → q.serial = w → q.Scatters site.process.walk label ∨ q.Broke ∨
      TookArm later last w site.process.walk choice label := by
  obtain ⟨job, hactivity, hstage, rfl, hresume⟩ := Process.ending?_eq_some hends
  obtain ⟨hfits, hsound⟩ := sound_build hbuild
  have hnumbered := hsound.toNumbered
  have hspares : start.Spares {Scope.routeSlot job.unitId} := spares_build hbuild hunits hlisteners
  have hy := hpast.move hwrite
  have hz := hy.trans hmore
  have hxNumbered := hpast.numbered hfits hnumbered
  have hzNumbered := hz.numbered hfits hnumbered
  -- what the walk has written is there to be read when its unit ends
  have hw : w < y.engine.nextSerial := by
    obtain ⟨j, writer, other, -, ⟨run, hrun, hthere⟩, hsignal⟩ := exists_of_mem_written hwritten
    refine Nat.lt_of_lt_of_le ?_ (nextSerial_le (hpast.fits hfits) hwrite)
    rw [← (Process.signal?_eq_some hsignal).1]
    exact serial_lt hxNumbered (List.mem_of_getElem? hrun) _
      (hthere.has.serials_subset (Process.serial_mem_serials _))
  obtain ⟨hw, hreads⟩ := History.reads hfits hnumbered hspares hy hw
    (reads_of_mem_written hxNumbered hwritten hwrite) hmore hmeanwhile hwork
  have hown : site.process.activity.IsOwn := by
    rw [hactivity]
    trivial
  obtain ⟨run, hrun, hthere⟩ := id hat
  have hslot : site.run.scope.get? (Scope.routeSlot job.unitId) = some (.text label.text) := by
    obtain ⟨f, hf, hstate, hcrew⟩ := hthere.exists_flow
    have hflow : f ∈ z.flows := mem_flows.mpr ⟨run, List.mem_of_getElem? hrun, hf⟩
    rw [← hstate]
    exact hreads f hflow (List.mem_map.mpr ⟨_, hcrew, hserial⟩)
  -- the unit is that of the choice
  have hprocess := (hz.fits hfits run (List.mem_of_getElem? hrun)).of_has hthere.has
  have hunit : site.process.walk.plan.unitAt? site.process.walk.position = some job.unitId := by
    have hawaits := hprocess.fitsAt
    rw [hactivity] at hawaits
    exact hawaits hresume
  have hstands : site.process.walk.AtChoice job.unitId choice :=
    ((Expression.isNormal_of_parse hparse).wellFormed hcompile).atChoice hplan hplain hunit hchoice
  obtain ⟨run', hrun', haffects⟩ := affected hzNumbered hend hrun
  obtain ⟨s, hsteps, hhas⟩ := (haffects.site_eq hzNumbered hrun hat hown).exists_steps
  have htakes := hsteps.takes hactivity hstage hresume hstands (hz.spares hspares).engine hslot
  have hthere' : z'.Has (s.process site.process.serial) :=
    ⟨run', List.mem_of_getElem? hrun', hhas (htakes.elim (·.running) (·.running))⟩
  have hz' := hz.move hend
  refine ⟨⟨_, hthere', hserial, htakes⟩, ?_⟩
  refine (hlater.tookArm hstands (hz'.fits hfits) ?_ fun q hin heq => ?_).2
  · exact Nat.lt_of_lt_of_le hw (nextSerial_le (hz.fits hfits) hend)
  · rw [hin.unique hthere' (hz'.numbered hfits hnumbered) (heq.trans hserial.symm)]
    exact htakes.symm

/-- Two branches route by the same unit. The first one executes it when the second one has done so and
goes on with its arm. -/
theorem History.takes_own_arm_branch : ∃ (past more : List (Executor × Move)) (x y z z' : Executor)
    (site : Site) (choice : Choice),
    (doing [("r", .signalRoute "true" .done), ("a", .done), ("b", .done), ("c", .done),
        ("d", .done)]).History past x ∧
      (1, "r", Label.text true) ∈ x.written (.step 1) ∧ x.move (.step 1) = some y ∧
      y.History more z ∧ z.At 0 1 site ∧ site.process.serial = 1 ∧
      site.process.ending? = some ("r", .unit) ∧
      site.process.walk.plan.choiceAt? site.process.walk.position = some choice ∧
      z.move (.step 1) = some z' ∧
      (∃ q, z'.Has q ∧ q.serial = 1 ∧
        (q.Took site.process.walk choice true ∨ q.Scatters site.process.walk true)) ∧
      ∀ q, z'.Has q → q.serial = 1 → q.Scatters site.process.walk true ∨ q.Broke ∨
        TookArm [] z' 1 site.process.walk choice true := by
  let units : List (String × Behavior) := [("r", .signalRoute "true" .done), ("a", .done),
    ("b", .done), ("c", .done), ("d", .done)]
  let node : Node := .parallel [.conditional (.unit "r") (.unit "a") (.unit "b"),
    .conditional (.unit "r") (.unit "c") (.unit "d")]
  let plan := node.compile?.getD {}
  let first : List Move := .launch (.plan plan) {} ::
    [0, 0, 0, 0, 2, 2, 2, 2, 2, 2, 1, 1, 1].map .step
  let x := ((doing units).follow first).2
  let y := (x.follow [.step 1]).2
  let z := (y.follow ([2, 2, 1].map .step)).2
  have hparse : Expression.parse "(r ? a : b, r ? c : d)" = .ok node := by decide +kernel
  have hwritten : (1, "r", Label.text true) ∈ x.written (.step 1) := by decide +kernel
  have hwrite : x.move (.step 1) = some y := move_eq_follow (by decide +kernel)
  have hmeanwhile : ∀ e ∈ (y.follow ([2, 2, 1].map .step)).1,
      (∀ f ∈ e.1.flows, f.AtWork 1 "r") ∧ e.1.written e.2 = [] := by decide +kernel
  have hwork : ∀ f ∈ z.flows, f.AtWork 1 "r" := by decide +kernel
  have hend : z.move (.step 1) = some (z.follow [.step 1]).2 := move_eq_follow (by decide +kernel)
  -- the plan of the walk is that of the first branch
  obtain ⟨e, he, b, hb, site, hsite, hp, hq, hsequence, htargets, hentries, hchoices⟩ :
      ∃ e ∈ plan.groups.entries, ∃ b ∈ e.2.branches, ∃ site ∈ z.sites 0 1,
        b.plan.groups.keys = [] ∧ site.process.walk.plan.groups.keys = [] ∧
        b.plan.sequence = site.process.walk.plan.sequence ∧
        b.plan.targets = site.process.walk.plan.targets ∧
        b.plan.entries = site.process.walk.plan.entries ∧
        b.plan.choices = site.process.walk.plan.choices := by
    decide +kernel
  have hobserved : ∀ site ∈ z.sites 0 1, site.process.serial = 1 ∧
      site.process.ending? = some ("r", .unit) ∧
      (site.process.walk.plan.choiceAt? site.process.walk.position).isSome = true := by
    decide +kernel
  obtain ⟨hserial, hends, hchooses⟩ := hobserved site hsite
  obtain ⟨choice, hchoice⟩ := Option.isSome_iff_exists.mp hchooses
  have hplan : plan.Contains site.process.walk.plan := by
    rw [← Plan.eq_of_flat hp hq hsequence htargets hentries hchoices]
    exact .branch .self he hb
  have hpast : (doing units).History _ x := history_follow _ first
  have hmore : y.History _ z := history_follow y _
  have hat : z.At 0 1 site := at_of_mem_sites hsite
  have hunits : Registry.Spares {Scope.routeSlot "r"}
      (units.foldl (fun r u => r.addUnit u.1 (.doing u.1 u.2)) {}) :=
    Registry.spares_foldl_doing
      (by simpa [units] using ⟨Behavior.Spares.signalRoute .done, Behavior.Spares.done⟩) nofun
  clear_value z y x
  have htakes := History.takes_own_arm (build_doing units) hunits nofun hparse (by decide) rfl hplan hpast
    hwritten hwrite hmore (fun v m hmem => ⟨(hmeanwhile _ hmem).1, by simp [(hmeanwhile _ hmem).2]⟩)
    hwork hat hserial hends hchoice hend .start
  exact ⟨_, _, x, y, z, _, site, choice, hpast, hwritten, hwrite, hmore, hat, hserial, hends, hchoice,
    hend, htakes⟩

/-- Two branches execute the same unit at the same time, and both times it asks for the arm `true`.
What the first one has left is dropped when the second one begins, and what the second one leaves is
taken by the second one. The first one finds nothing, and skips the arm that its unit has asked
for. -/
theorem takes_arm_of_other : ∃ (past more : List (Executor × Move)) (x y last : Executor)
    (site : Site) (choice : Choice),
    (doing [("r", .signalRoute "true" .done), ("a", .done), ("b", .done), ("c", .done),
        ("d", .done)]).History past x ∧
      (1, "r", Label.text true) ∈ x.written (.step 1) ∧ x.move (.step 1) = some y ∧
      y.History more last ∧ (∀ v m, (v, m) ∈ more → ∀ target, (1, "r", target) ∉ v.written m) ∧
      last.At 0 1 site ∧ site.process.serial = 1 ∧
      ⟨1, 1, .unitEnded "r" none⟩ ∈ last.engine.journal.toList ∧
      site.process.walk.plan.choiceAt? 0 = some choice ∧ site.process.walk.position = 1 ∧
      (∃ arm, (true, arm) ∈ choice.arms.entries ∧ arm.span ∈ site.process.walk.skipped) ∧
      ∀ arm, (false, arm) ∈ choice.arms.entries → arm.span ∉ site.process.walk.skipped := by
  let units : List (String × Behavior) := [("r", .signalRoute "true" .done), ("a", .done),
    ("b", .done), ("c", .done), ("d", .done)]
  let plan := (Node.compile? (.parallel [.conditional (.unit "r") (.unit "a") (.unit "b"),
    .conditional (.unit "r") (.unit "c") (.unit "d")])).getD {}
  let first : List Move := .launch (.plan plan) {} :: [0, 0, 0, 0, 1, 1, 1].map .step
  let x := ((doing units).follow first).2
  let y := (x.follow [.step 1]).2
  let rest : List Move := [2, 2, 2, 2, 2, 2, 1, 1].map .step
  let last := (y.follow rest).2
  have hwritten : (1, "r", Label.text true) ∈ x.written (.step 1) := by decide +kernel
  have hwrite : x.move (.step 1) = some y := move_eq_follow (by decide +kernel)
  have hquiet : ∀ e ∈ (y.follow rest).1, ∀ s ∈ e.1.written e.2, s.1 ≠ 1 := by decide +kernel
  have hended : ⟨1, 1, .unitEnded "r" none⟩ ∈ last.engine.journal.toList := by decide +kernel
  obtain ⟨site, hsite, hserial, hposition, choice, hchoice, htrue, hfalse⟩ : ∃ site ∈ last.sites 0 1,
      site.process.serial = 1 ∧ site.process.walk.position = 1 ∧
      ∃ choice ∈ site.process.walk.plan.choiceAt? 0,
        (∃ e ∈ choice.arms.entries, e.1 = true ∧ e.2.span ∈ site.process.walk.skipped) ∧
        ∀ e ∈ choice.arms.entries, e.1 = false → e.2.span ∉ site.process.walk.skipped := by
    decide +kernel
  have hpast : (doing units).History _ x := history_follow _ first
  have hmore : y.History _ last := history_follow y rest
  have hat : last.At 0 1 site := at_of_mem_sites hsite
  obtain ⟨⟨label, arm⟩, harm, rfl, hskipped⟩ := htrue
  exact ⟨_, _, x, y, last, site, choice, hpast, hwritten, hwrite, hmore,
    fun v m hmem target hin => hquiet _ hmem _ hin rfl, hat, hserial, hended, hchoice, hposition,
    ⟨arm, harm, hskipped⟩, fun arm harm => hfalse _ harm rfl⟩

end Executor

end Workflow
