import Workflow.Executor
import Workflow.Proofs.Expression.RoundTrip
import Workflow.Proofs.Run.Progress

/-!
# Runs of a flow are traces of it

`completes_of_parse` is the theorem about runs: when the units of an expression succeed and leave
labels, every way in which the tasks of a run can be scheduled comes to an end, the run has
completed without a failure there, and what it has executed is a trace of the node that the
expression denotes.

Behind it is an invariant of the executor (`Executor.Owes`): `Executor.Owes.step` keeps it, on the
way down, and `Executor.Owes.result` reads the outcome off it when nothing moves any more.
-/

namespace Workflow

/-! ## Moves -/

/-- Some time passes, and then a task makes a step. -/
def Executor.Moves (x y : Executor) : Prop :=
  ∃ milliseconds who, (x.wait milliseconds).step who = some y

/-- All permits of an open pool are available, and there is at least one. -/
structure Pool.Idle (p : Pool) : Prop where
  size : 0 < p.size
  available : p.available = p.size
  waiting : p.waiting = []
  granted : p.granted = []
  isOpen : p.closed = false

/-- What the units of a node are told, and the labels that they leave. -/
def Contract.of (node : Node) (label : String → Option Label) (context : Context) : Contract where
  kept := node.leaves
  label := label
  view := fun unitId => ⟨unitId, context.requestId, context.tolerant⟩

/-- The only run of an executor owes what is left of a node: what has been executed so far and what
is still owed make a trace of the node. -/
structure Executor.Owes (c : Contract) (node : Node) (x : Executor) (state : RunState)
    (root : Process) (debt : Debt) : Prop where
  runs : x.runs = [⟨state, root⟩]
  serves : x.engine.Serves c
  view : state.view = c.view
  owes : root.Owes c state.scope x.engine.nextSerial debt
  trace : ∀ rest, debt.runs rest → node.Trace c.label (state.unitNames ++ rest)
  balanced : x.engine.pool.Balanced root.stakes
  size : 0 < x.engine.pool.size

namespace Executor.Owes

variable {c : Contract} {node : Node} {x y : Executor} {state : RunState} {root : Process}
  {debt : Debt}

/-- Time alone settles nothing. -/
theorem wait (h : x.Owes c node state root debt) (milliseconds : Nat) :
    (x.wait milliseconds).Owes c node state root debt :=
  ⟨h.runs, h.serves.of_eq rfl rfl rfl, h.view, h.owes, h.trace, h.balanced, h.size⟩

/-- With every step the executor still owes what is left, and it is on the way down. -/
theorem step {who : Nat} (h : x.Owes c node state root debt) (hstep : x.step who = some y) :
    ∃ state' root' debt', y.Owes c node state' root' debt' ∧
      Descends (debt'.effort, root'.calls) (debt.effort, root.calls) := by
  rw [Executor.step, h.runs, Executor.stepRuns, Option.map_eq_some_iff] at hstep
  obtain ⟨⟨runs, engine⟩, hruns, rfl⟩ := hstep
  split at hruns
  · next root' state' engine' hroot =>
    cases hruns
    obtain ⟨-, emitted, less, hpasses, howes, hdescends⟩ :=
      Process.step_pays h.serves h.view h.owes hroot
    -- the root process is all that has anything of the pool
    obtain ⟨hsize, hbalanced⟩ := Process.step_exchanges hroot
    refine ⟨state', root', _, ⟨rfl, hpasses.serves, hpasses.view, howes, ?_, ?_, ?_⟩, hdescends⟩
    · intro rest hrest
      rw [hpasses.executed, List.append_assoc]
      exact h.trace _ hrest
    · have hbefore := h.balanced
      rw [← List.append_nil root.stakes] at hbefore
      have hafter := hbalanced [] hbefore
      rwa [List.append_nil] at hafter
    · show 0 < engine.pool.size
      rw [hsize]
      exact h.size
  · cases hruns

/-- Whatever is scheduled, the run comes to an end. -/
theorem acc (h : x.Owes c node state root debt) :
    Acc (fun later earlier => Executor.Moves earlier later) x := by
  -- by induction on the way down, for all states that are so far up
  generalize hmeasure : (debt.effort, root.calls) = measure
  induction measure using wellFounded_descends.induction generalizing x state root debt with
  | _ measure ih =>
    refine ⟨_, fun y hy => ?_⟩
    obtain ⟨milliseconds, who, hstep⟩ := hy
    obtain ⟨state', root', debt', howes, hdescends⟩ := (h.wait milliseconds).step hstep
    rw [hmeasure] at hdescends
    exact ih _ hdescends howes rfl

/-- The invariant holds along all schedules. -/
theorem moves (h : x.Owes c node state root debt)
    (hmoves : Relation.ReflTransGen Executor.Moves x y) :
    ∃ state' root' debt', y.Owes c node state' root' debt' := by
  induction hmoves with
  | refl => exact ⟨state, root, debt, h⟩
  | tail _ hmove ih =>
    obtain ⟨state', root', debt', howes⟩ := ih
    obtain ⟨milliseconds, who, hstep⟩ := hmove
    obtain ⟨state'', root'', debt'', howes', -⟩ := (howes.wait milliseconds).step hstep
    exact ⟨state'', root'', debt'', howes'⟩

/-- Where nothing moves any more, the run has completed, and it has executed a trace. -/
theorem result (h : x.Owes c node state root debt) (hstuck : ∀ y, ¬ x.Moves y) :
    ∃ outcome, x.runs.map Run.result? = [some outcome] ∧ outcome.status = .completed ∧
      outcome.failure = none ∧ node.Trace c.label outcome.executed := by
  -- no task of the executor moves, so none of the only run does
  have hroot : root.StandsStill [] root.serial state x.engine := by
    intro who milliseconds _
    have hnone : (x.wait milliseconds).step who = none := by
      rw [Option.eq_none_iff_forall_ne_some]
      exact fun y hy => hstuck y ⟨milliseconds, who, hy⟩
    rw [Executor.step, (h.wait milliseconds).runs, Executor.stepRuns] at hnone
    split at hnone
    · cases hnone
    · assumption
  have hfinished := Process.isFinished_of_standsStill h.owes h.balanced h.size hroot
  obtain ⟨serial, walk, rfl⟩ := Process.exists_of_isFinished hfinished
  obtain ⟨-, hfollows, howes⟩ := h.owes
  have hstatus : Process.status (.mk serial walk (.poised .finish)) = .completed := by
    unfold Process.status
    simp [Process.walk, hfollows.failure, hfollows.stopped]
  -- at its end the walk owes nothing more
  have htrace := h.trace [] howes.1
  rw [List.append_nil] at htrace
  refine ⟨⟨.completed, none, state.unitNames, state.scopeId, state.scope, state.context⟩, ?_, rfl,
    rfl, htrace⟩
  rw [h.runs, List.map_singleton, Run.result?]
  simp only [hfinished, if_true, hstatus]
  rw [show (Process.mk serial walk (.poised .finish)).walk.failure = none from hfollows.failure]

end Executor.Owes

/-- A flow that is launched on an idle executor owes its whole node. -/
theorem Executor.owes_launch {node : Node} (hclosable : node.Closable none)
    (hnodup : node.leaves.Nodup) (hplain : ∀ u ∈ node.leaves, Label.ofText? u = none)
    (label : String → Option Label) (context : Context) {x : Executor} (hruns : x.runs = [])
    (hidle : x.engine.pool.Idle) (hserves : x.engine.Serves (.of node label context)) :
    ∃ plan start, node.compile? = some plan ∧ x.launch (.plan plan) context = (none, start) ∧
      ∃ state root debt, start.Owes (.of node label context) node state root debt := by
  obtain ⟨plan, hcompile, -⟩ := hclosable.normal.exists_segment hclosable.routes
  have hopen : x.engine.takeScope.2.isClosed = false := hidle.isOpen
  have howes := @Process.owes_ofPlan (.of node label context) ∅ (x.engine.nextSerial + 1)
    x.engine.nextSerial node plan hclosable hcompile hnodup (fun _ hu => hu) hplain
    (Nat.lt_succ_self _) false
  refine ⟨plan, { x with
    engine := x.engine.takeScope.2.takeSerial.2
    runs := [⟨{ context := context, scopeId := x.engine.nextScope },
      .ofPlan x.engine.nextSerial plan false⟩] }, hcompile, ?_, _, _, _, rfl,
    hserves.of_eq rfl rfl rfl, rfl, howes, fun _ hrun => hrun, ?_, hidle.size⟩
  · unfold Executor.launch Engine.openRun Engine.openPlan
    simp only [hopen, hruns]
    rfl
  · have hwaiting : x.engine.takeScope.2.takeSerial.2.pool.waiting = [] := hidle.waiting
    have hgranted : x.engine.takeScope.2.takeSerial.2.pool.granted = [] := hidle.granted
    refine ⟨?_, ?_, fun _ hmem => ?_, fun hne => absurd hwaiting hne⟩
    · show x.engine.pool.available + x.engine.pool.granted.length + 0 = x.engine.pool.size
      rw [hidle.available, hidle.granted]
      rfl
    · rw [hwaiting, hgranted]
      exact .refl _
    · cases hmem

/-- Take any expression whose units are distinct, are not called like a label, and whose conditions
all end in a unit that is executed whenever the condition is. When its units are registered,
succeed, and leave a fixed label or none, then its plan can be launched on any executor with an open
pool that is not in use, every schedule of the run comes to an end, and at the end of every schedule
the run has completed without a failure and has executed a trace of the node. -/
theorem completes_of_parse {text : String} {node : Node} (hparse : Expression.parse text = .ok node)
    (hnodup : node.leaves.Nodup) (hplain : ∀ u ∈ node.leaves, Label.ofText? u = none)
    (hroutes : node.RoutesPlainly) (label : String → Option Label) (context : Context)
    {x : Executor} (hruns : x.runs = []) (hidle : x.engine.pool.Idle)
    (hunits : ∀ u ∈ node.leaves, ∃ unit, x.engine.registry.unit? u = some unit ∧
      unit.Obeys (.of node label context) u)
    (hquiet : x.engine.listeners.Quiet node.leaves) :
    ∃ plan start, node.compile? = some plan ∧ x.launch (.plan plan) context = (none, start) ∧
      Acc (fun later earlier => Executor.Moves earlier later) start ∧
      ∀ last, Relation.ReflTransGen Executor.Moves start last → (∀ y, ¬ last.Moves y) →
        ∃ outcome, last.runs.map Run.result? = [some outcome] ∧ outcome.status = .completed ∧
          outcome.failure = none ∧ node.Trace label outcome.executed := by
  have hclosable : node.Closable none :=
    ⟨Expression.isNormal_of_parse hparse, hroutes, fun hne => absurd rfl hne⟩
  obtain ⟨plan, start, hcompile, hlaunch, state, root, debt, howes⟩ :=
    Executor.owes_launch hclosable hnodup hplain label context hruns hidle
      ⟨hunits, hquiet, hidle.isOpen⟩
  refine ⟨plan, start, hcompile, hlaunch, howes.acc, ?_⟩
  intro last hmoves hstuck
  obtain ⟨state', root', debt', howes'⟩ := howes.moves hmoves
  exact howes'.result hstuck

/-- A unit that does nothing but leave a label, if it is given one. -/
def FlowUnit.leaving (name : String) (label : Option Label) : FlowUnit where
  name := name
  kind := ""
  tolerant := false
  beforeRun := fun _ => .done
  run := fun _ =>
    match label with
    | none => .done
    | some label => .signalRoute label.text .done
  afterRun := fun _ => .done
  onError := fun _ _ => .done

theorem FlowUnit.obeys_leaving (c : Contract) (u : String) :
    (FlowUnit.leaving u (c.label u)).Obeys c u := by
  refine ⟨rfl, ?_⟩
  show ((FlowUnit.leaving u (c.label u)).run (c.view u)).EndsWith c.kept u _ .clear
  unfold FlowUnit.leaving
  rcases hlabel : c.label u with _ | label
  · exact ⟨by rw [hlabel]; rfl, rfl⟩
  · exact ⟨by rw [hlabel]; rfl, rfl⟩

/-- An executor with such units and a pool of one permit. -/
def Executor.leaving (names : List String) (label : String → Option Label) : Executor where
  engine := {
    registry := names.foldl (fun r u => r.addUnit u (FlowUnit.leaving u (label u))) {}
    pool := .ofSize 1
    config := {} }

/-- A group decides by the label of its last branch, on a pool where only one branch at a time can
work. -/
theorem completes_of_parse_group :
    ∃ plan start, Node.compile? (.sequence [.unit "a",
        .conditional (.parallel [.unit "b", .unit "c"]) (.unit "d") (.unit "e")]) = some plan ∧
      (Executor.leaving ["a", "b", "c", "d", "e"]
        fun u => if u = "c" then some true else none).launch (.plan plan) {} = (none, start) ∧
      Acc (fun later earlier => Executor.Moves earlier later) start ∧
      ∀ last, Relation.ReflTransGen Executor.Moves start last → (∀ y, ¬ last.Moves y) →
        ∃ outcome, last.runs.map Run.result? = [some outcome] ∧ outcome.status = .completed ∧
          outcome.failure = none ∧
          Node.Trace (fun u => if u = "c" then some true else none) (.sequence [.unit "a",
            .conditional (.parallel [.unit "b", .unit "c"]) (.unit "d") (.unit "e")])
            outcome.executed := by
  have hparse : Expression.parse "a -> (b, c) ? d : e" = .ok (.sequence [.unit "a",
      .conditional (.parallel [.unit "b", .unit "c"]) (.unit "d") (.unit "e")]) := by
    decide +kernel
  refine completes_of_parse hparse (by decide) (by decide) ?_ _ {} rfl
    ⟨by decide, rfl, rfl, rfl, rfl⟩ ?_ ?_
  · simp [Node.RoutesPlainly, Node.AllRoutePlainly, Node.EndsPlainly, Node.LastEndsPlainly]
  · intro u hu
    refine ⟨FlowUnit.leaving u (if u = "c" then some true else none), ?_,
      FlowUnit.obeys_leaving _ u⟩
    simp only [Node.leaves, Node.leavesOf, List.cons_append, List.nil_append, List.mem_cons,
      List.not_mem_nil, or_false] at hu
    rcases hu with rfl | rfl | rfl | rfl | rfl <;>
      simp [Executor.leaving, Registry.unit?, Registry.addUnit, Table.get?_insert]
  · rintro r ⟨⟩

end Workflow
