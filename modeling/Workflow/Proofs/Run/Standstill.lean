import Workflow.Proofs.Run.Permits

/-!
# Standstill

A process stands still when none of its tasks can make a step, however much time passes. What keeps
it is read off from the tree: a walk that waits for branches has one that has not finished, so the
reason is further down, until a walk is found that waits for a permit. As long as no unit is in the
middle of a flow that it runs itself, no permit is held by then, so that all those who wait are still
in line (`Process.waits_of_standsStill`). How often groups are nested plays no part in it.
-/

namespace Workflow

variable {run : RunState} {e : Engine}

/-- The engine after a while. -/
def Engine.after (e : Engine) (milliseconds : Nat) : Engine :=
  { e with clock := e.clock + milliseconds }

mutual

/-- No unit in the process is in the middle of a flow that it runs, what a walk waits for has not
finished, and no task is that of a walk around it. -/
def Process.Tiered (around : List Nat) (task : Nat) : Process → Prop
  | .mk _ _ activity => task ∉ around ∧ activity.Tiered around task

def Activity.Tiered (around : List Nat) (task : Nat) : Activity → Prop
  | .poised _ | .queued .. | .working .. | .asleep .. => True
  | .calling .. => False
  | .inPlace _ _ _ branch => branch.isFinished = false ∧ branch.Tiered around task
  | .forking _ _ _ children _ => Child.TieredIn (task :: around) children

def Child.TieredIn (around : List Nat) : List Child → Prop
  | [] => True
  | child :: rest => child.Tiered around ∧ Child.TieredIn around rest

def Child.Tiered (around : List Nat) : Child → Prop
  | .running _ process => process.isFinished = false ∧ process.Tiered around process.serial
  | .refused _ | .ended .. | .cancelled _ => True

end

/-- None but the tasks around the process can make a step in it, however much time passes. -/
def Process.StandsStill (around : List Nat) (task : Nat) (run : RunState) (e : Engine)
    (p : Process) : Prop :=
  ∀ who milliseconds, who ∉ around → p.step who task run (e.after milliseconds) = none

/-- The branches of a fork stand still. -/
def Child.StandStill (around : List Nat) (run : RunState) (e : Engine) (children : List Child) :
    Prop :=
  ∀ who milliseconds, who ∉ around →
    (Child.stepIn who children run (e.after milliseconds)).isNone = true

theorem Child.StandStill.cons {around : List Nat} {child : Child} {rest : List Child}
    (h : Child.StandStill around run e (child :: rest)) :
    (∀ who milliseconds, who ∉ around →
      (child.step who run (e.after milliseconds)).isNone = true) ∧
      Child.StandStill around run e rest := by
  constructor
  · intro who milliseconds hwho
    have hnone := h who milliseconds hwho
    rw [Child.stepIn] at hnone
    split at hnone
    · cases hnone
    · next hstep => rw [hstep]; rfl
  · intro who milliseconds hwho
    have hnone := h who milliseconds hwho
    rw [Child.stepIn] at hnone
    split at hnone
    · cases hnone
    · rwa [Option.isNone_map] at hnone

mutual

/-- A process that stands still has finished, or it waits for permits and for nothing else. -/
theorem Process.waits_of_standsStill {around : List Nat} {task : Nat} {p : Process}
    (htiered : p.Tiered around task) (hrunning : p.isFinished = false)
    (hstill : p.StandsStill around task run e) :
    p.stakes ≠ [] ∧ ∀ stake ∈ p.stakes, stake.Waits e.pool := by
  obtain ⟨serial, walk, activity⟩ := p
  obtain ⟨htask, htiered⟩ := htiered
  have hhere : ∀ who milliseconds, who ∉ around →
      activity.step who task serial walk run (e.after milliseconds) = none := by
    intro who milliseconds hwho
    have hnone := hstill who milliseconds hwho
    rwa [Process.step, Option.map_eq_none_iff] at hnone
  have hown := hhere task 0 htask
  cases activity with
  | calling => exact htiered.elim
  | working job rest =>
    rw [Activity.step, if_pos rfl] at hown
    · cases hown
    all_goals simp
  | poised next =>
    rw [Activity.step, if_pos rfl] at hown
    · cases next with
      | finish => cases hrunning
      | advance | execute | fork => cases hown
    all_goals simp
  | queued unitId unit resume =>
    rw [Activity.step, if_pos rfl] at hown
    · refine ⟨by simp [Process.stakes, Activity.stakes], fun stake hmem => ?_⟩
      cases List.mem_singleton.mp hmem
      refine ⟨serial, walk.pooled, rfl, ?_⟩
      unfold Scene.stepHere at hown
      simp only at hown
      split at hown
      · cases hown
      · next hnot => exact Bool.eq_false_iff.mpr hnot
    all_goals simp
  | asleep job wakeAt rest =>
    -- after long enough a while the unit wakes up
    have hlater := hhere task wakeAt htask
    rw [Activity.step, if_pos rfl] at hlater
    · unfold Scene.stepHere at hlater
      have htime : wakeAt ≤ (e.after wakeAt).clock := Nat.le_add_left wakeAt e.clock
      simp only [htime, if_true] at hlater
      cases hlater
    all_goals simp
  | inPlace anchor entry resume branch =>
    obtain ⟨hbranch, htiered⟩ := htiered
    have hstillBranch : branch.StandsStill around task run e := by
      intro who milliseconds hwho
      have hnone := hhere who milliseconds hwho
      rwa [Activity.step, Option.map_eq_none_iff] at hnone
    exact Process.waits_of_standsStill (p := branch) htiered hbranch hstillBranch
  | forking anchor resume toStart children completed =>
    rw [Activity.step, if_pos rfl] at hown
    cases toStart with
    | cons branch toStart => cases hown
    | nil =>
      -- if all branches were over, the walk would join them
      have hover : children.all Child.isOver = false := by
        rw [Bool.eq_false_iff]
        intro hover
        unfold Scene.stepHere at hown
        simp only at hown
        rw [if_pos hover] at hown
        cases hown
      -- tasks other than that of the walk are looked for in the branches
      have hchildren : Child.StandStill (task :: around) run e children := by
        intro who milliseconds hwho
        have hnone := hhere who milliseconds (List.not_mem_of_not_mem_cons hwho)
        rw [Activity.step, if_neg (List.ne_of_not_mem_cons hwho), Option.map_eq_none_iff] at hnone
        rw [hnone]
        rfl
      obtain ⟨hwaits, hne⟩ := Child.waitIn_of_standStill htiered hchildren
      exact ⟨hne hover, hwaits⟩

theorem Child.waitIn_of_standStill {around : List Nat} {children : List Child}
    (htiered : Child.TieredIn around children) (hstill : Child.StandStill around run e children) :
    (∀ stake ∈ Child.stakesIn children, stake.Waits e.pool) ∧
      (children.all Child.isOver = false → Child.stakesIn children ≠ []) := by
  cases children with
  | nil =>
    refine ⟨fun stake hmem => ?_, fun hover => ?_⟩
    · cases hmem
    · cases hover
  | cons child rest =>
    obtain ⟨hchild, hrest⟩ := htiered
    obtain ⟨hstillChild, hstillRest⟩ := hstill.cons
    obtain ⟨hwaits, hne⟩ := Child.waitIn_of_standStill hrest hstillRest
    cases child with
    | refused | ended | cancelled => exact ⟨hwaits, hne⟩
    | running entry process =>
      obtain ⟨hrunning, htiered⟩ := hchild
      have hprocess : process.StandsStill around process.serial run e := by
        intro who milliseconds hwho
        have hnone := hstillChild who milliseconds hwho
        rw [Child.step, Option.isNone_map] at hnone
        exact Option.isNone_iff_eq_none.mp hnone
      obtain ⟨hsome, hall⟩ := Process.waits_of_standsStill htiered hrunning hprocess
      constructor
      · intro stake hmem
        rcases List.mem_append.mp hmem with hmem | hmem
        · exact hall stake hmem
        · exact hwaits stake hmem
      · intro _ hnil
        exact hsome (List.append_eq_nil_iff.mp hnil).1

end

end Workflow
