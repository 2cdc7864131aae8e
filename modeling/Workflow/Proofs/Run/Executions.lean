import Mathlib.Logic.Relation
import Workflow.Proofs.Run.Lifecycle
import Workflow.Proofs.Run.Nesting
import Workflow.Proofs.Run.Selection

/-!
# Executions of units

Executions of units come to their end, and executors are where they take place.

A call is a finite tree, each step of its walk goes down in it, and after a call at most three others
follow. So an execution is over some time unless the walk is neglected for good
(`Execution.Unfolds.exists_isOver`).

For a walk of an executor that executes a unit, a move is something that the walk does itself or that
others do (`Execution.acts_or_elapses`), and no move takes the walk away before the execution is over,
but for one by which branches are given up (`Execution.exists_isOf`). Together with what is known of all
executions, this is `Execution.follows_protocol`.
-/

namespace Workflow

namespace Execution

variable {serial : Nat} {u : String} {unit : FlowUnit} {resume : Resume} {e e' : Execution}

/-! ## Executions end -/

/-- What happens to an execution without end. As long as it is not over, the walk does something itself
again at some time. -/
structure Unfolds (serial : Nat) (u : String) (unit : FlowUnit) (resume : Resume)
    (course : Nat → Execution) : Prop where
  passes : ∀ n, (course n).Passes serial u unit resume (course (n + 1))
  attended : ∀ n, ¬ Deed.IsOver (course n).deeds →
    ∃ m, n ≤ m ∧ (course m).Advances serial u unit resume (course (m + 1))

/-- A walk that does nothing itself is busy with the same, but for the flow that its unit runs. -/
def Stays : Activity → Activity → Prop
  | .calling job _ _ next, activity => ∃ inner root, activity = .calling job inner root next
  | .poised next, activity => activity = .poised next
  | .queued u unit resume, activity => activity = .queued u unit resume
  | .working job rest, activity => activity = .working job rest
  | .asleep job wakeAt rest, activity => activity = .asleep job wakeAt rest
  | .inPlace anchor entry resume branch, activity => activity = .inPlace anchor entry resume branch
  | .forking anchor resume toStart children completed, activity =>
    activity = .forking anchor resume toStart children completed

theorem Stays.refl (activity : Activity) : Stays activity activity := by
  cases activity with
  | calling => exact ⟨_, _, rfl⟩
  | poised | queued | working | asleep | inPlace | forking => rfl

theorem Stays.trans {a b c : Activity} (h : Stays a b) (h' : Stays b c) : Stays a c := by
  cases a with
  | calling =>
    obtain ⟨_, _, rfl⟩ := h
    exact h'
  | poised | queued | working | asleep | inPlace | forking =>
    obtain rfl : b = _ := h
    exact h'

theorem Elapses.stays (h : e.Elapses e') : Stays e.scene.activity e'.scene.activity := by
  obtain ⟨hscene, -⟩ := h
  generalize e'.scene = s' at hscene
  cases hscene with
  | others => exact .refl _
  | flow h =>
    rw [h]
    exact ⟨_, _, rfl⟩

section Unfolds

variable {course : Nat → Execution} {n : Nat} {job : Job}

/-- An execution that is not over waits for the next thing that the walk does. -/
theorem Unfolds.exists_advance (h : Unfolds serial u unit resume course)
    (hgoing : ¬ Deed.IsOver (course n).deeds) :
    ∃ m, (course m).Advances serial u unit resume (course (m + 1)) ∧
      Stays (course n).scene.activity (course m).scene.activity := by
  obtain ⟨m, hle, hadvances⟩ := h.attended n hgoing
  obtain ⟨k, rfl⟩ := Nat.exists_eq_add_of_le hle
  clear hle
  induction k generalizing n with
  | zero => exact ⟨n, hadvances, .refl _⟩
  | succ k ih =>
    rcases h.passes n with hnow | helapses
    · exact ⟨n, hnow, .refl _⟩
    · obtain ⟨m, hadvances, hstays⟩ := ih (n := n + 1) (helapses.2 ▸ hgoing)
        (by rwa [Nat.add_assoc, Nat.add_comm 1 k])
      exact ⟨m, hadvances, helapses.stays.trans hstays⟩

/-- A call comes to its end, and what belongs to that is done. -/
def Returns (serial : Nat) (job : Job) (course : Nat → Execution) (n : Nat) : Prop :=
  ∃ task result, (course n).scene.activity.IsCall job ∧
    (course (n + 1)).deeds = (course n).deeds ++ .returned result :: job.deeds result ∧
    (course (n + 1)).scene = (job.deeds result).foldl (Deed.apply task serial job) (course n).scene

/-- A call goes on, or it comes to its end. -/
theorem Unfolds.working_cases (h : Unfolds serial u unit resume course) {behavior : Behavior}
    (hgoing : ¬ Deed.IsOver (course n).deeds)
    (hworking : (course n).scene.activity = .working job behavior) :
    ∃ m, behavior.Continues job (course (m + 1)).scene.activity ∨ Returns serial job course m := by
  obtain ⟨m, ⟨-, task, more, hconducts, hmore⟩, hstays⟩ := h.exists_advance hgoing
  rw [hworking] at hstays
  have hworking : (course m).scene.activity = .working job behavior := hstays
  refine ⟨m, ?_⟩
  generalize hscene : (course (m + 1)).scene = s' at hconducts
  cases hconducts with
  | queues h => cases hworking.symm.trans h
  | begins h => rcases h with ⟨h, -⟩ | h <;> cases hworking.symm.trans h
  | wakes h | learns h => cases hworking.symm.trans h
  | within h hnext =>
    cases hworking.symm.trans h
    exact .inl hnext
  | returns h hresult =>
    cases hworking.symm.trans h
    exact .inr ⟨task, _, hworking ▸ rfl, hmore, hscene⟩

theorem Unfolds.exists_wakes (h : Unfolds serial u unit resume course) {wakeAt : Nat}
    {rest : Behavior} (hgoing : ¬ Deed.IsOver (course n).deeds)
    (hasleep : (course n).scene.activity = .asleep job wakeAt rest) :
    ∃ m, (course m).scene.activity = .working job rest := by
  obtain ⟨m, ⟨-, _, more, hconducts, -⟩, hstays⟩ := h.exists_advance hgoing
  rw [hasleep] at hstays
  have hasleep : (course m).scene.activity = .asleep job wakeAt rest := hstays
  refine ⟨m + 1, ?_⟩
  generalize (course (m + 1)).scene = s' at hconducts
  cases hconducts with
  | wakes h =>
    cases hasleep.symm.trans h
    rfl
  | begins h => rcases h with ⟨h, -⟩ | h <;> cases hasleep.symm.trans h
  | queues h | within h | learns h | returns h => cases hasleep.symm.trans h

theorem Unfolds.exists_learns (h : Unfolds serial u unit resume course) {inner : RunState}
    {root : Process} {next : RunSummary → Behavior} (hgoing : ¬ Deed.IsOver (course n).deeds)
    (hcalling : (course n).scene.activity = .calling job inner root next) :
    ∃ m summary, (course m).scene.activity = .working job (next summary) := by
  obtain ⟨m, ⟨-, _, more, hconducts, -⟩, hstays⟩ := h.exists_advance hgoing
  rw [hcalling] at hstays
  obtain ⟨inner', root', hcalling⟩ := hstays
  refine ⟨m + 1, ?_⟩
  generalize (course (m + 1)).scene = s' at hconducts
  cases hconducts with
  | learns h summary =>
    cases hcalling.symm.trans h
    exact ⟨summary, rfl⟩
  | begins h => rcases h with ⟨h, -⟩ | h <;> cases hcalling.symm.trans h
  | queues h | within h | wakes h | returns h => cases hcalling.symm.trans h

/-- A call comes to its end, because it is a finite tree. -/
theorem Unfolds.exists_returned (h : Unfolds serial u unit resume course)
    (hnever : ∀ n, ¬ Deed.IsOver (course n).deeds) (behavior : Behavior) {n : Nat}
    (hworking : (course n).scene.activity = .working job behavior) :
    ∃ m, Returns serial job course m := by
  cases behavior with
  | done | fail | panic =>
    obtain ⟨m, hnext | hreturned⟩ := h.working_cases (hnever n) hworking
    · exact hnext.elim
    · exact ⟨m, hreturned⟩
  | access _ next | payload _ next | viewPool next | closePool next =>
    obtain ⟨m, ⟨_, hnext⟩ | hreturned⟩ := h.working_cases (hnever n) hworking
    · exact h.exists_returned hnever (next _) hnext
    · exact ⟨m, hreturned⟩
  | signalRoute _ rest | signalFork _ rest | note _ rest | addUnit _ _ rest | addFlow _ _ rest
  | eraseUnit _ rest =>
    obtain ⟨m, hnext | hreturned⟩ := h.working_cases (hnever n) hworking
    · exact h.exists_returned hnever rest hnext
    · exact ⟨m, hreturned⟩
  | sleep _ rest =>
    obtain ⟨m, ⟨_, hnext⟩ | hreturned⟩ := h.working_cases (hnever n) hworking
    · obtain ⟨_, hwoken⟩ := h.exists_wakes (hnever _) hnext
      exact h.exists_returned hnever rest hwoken
    · exact ⟨m, hreturned⟩
  | runFlow _ next =>
    obtain ⟨m, (⟨_, hnext⟩ | ⟨_, _, hnext⟩) | hreturned⟩ := h.working_cases (hnever n) hworking
    · exact h.exists_returned hnever (next _) hnext
    · obtain ⟨_, summary, hlearnt⟩ := h.exists_learns (hnever _) hnext
      exact h.exists_returned hnever (next summary) hlearnt
    · exact ⟨m, hreturned⟩

theorem Unfolds.keeps (h : Unfolds serial u unit resume course)
    (hstart : (course 0).Keeps u unit resume) (n : Nat) : (course n).Keeps u unit resume := by
  induction n with
  | zero => exact hstart
  | succ n ih => exact ih.passes (h.passes n)

/-- A unit makes no more calls than there are stages. -/
theorem Unfolds.not_working (h : Unfolds serial u unit resume course)
    (hstart : (course 0).Keeps u unit resume) (hnever : ∀ n, ¬ Deed.IsOver (course n).deeds)
    {stage : Stage} {behavior : Behavior} :
    (course n).scene.activity ≠ .working ⟨u, unit, resume, stage⟩ behavior := by
  induction hleft : stage.left using Nat.strongRecOn generalizing n stage behavior with
  | ind left ih =>
    intro hworking
    obtain ⟨m, task, result, hcall, hdeeds, hscene⟩ := h.exists_returned hnever behavior hworking
    have hbegun := (h.keeps hstart m).begun hcall (hnever m)
    rcases hbegun.returned unit resume result with ⟨first, next, heq, -, hlt⟩ | ⟨-, _, _, _, _, heq⟩
    · rw [heq] at hscene
      obtain ⟨view, hactivity⟩ :=
        Deed.activity_foldl task serial ⟨u, unit, resume, stage⟩ (course m).scene first next
      exact ih next.left (hleft ▸ hlt) rfl (hscene ▸ hactivity)
    · exact hnever (m + 1) (hdeeds.trans heq ▸ Deed.isOver_protocol ..)

theorem Unfolds.not_queued (h : Unfolds serial u unit resume course)
    (hstart : (course 0).Keeps u unit resume) (hnever : ∀ n, ¬ Deed.IsOver (course n).deeds) :
    (course n).scene.activity ≠ .queued u unit resume := by
  intro hqueued
  obtain ⟨m, ⟨-, task, more, hconducts, -⟩, hstays⟩ := h.exists_advance (hnever n)
  rw [hqueued] at hstays
  have hqueued : (course m).scene.activity = .queued u unit resume := hstays
  rcases hconducts.waiting_cases (.inr hqueued) with ⟨hpoised, -⟩ | ⟨-, behavior, hworking⟩
  · cases hqueued.symm.trans hpoised
  · exact h.not_working hstart hnever hworking

/-- An execution that is not neglected for good comes to its end. -/
theorem Unfolds.exists_isOver {walk : Walk} {run : RunState} {engine : Engine}
    (h : Unfolds serial u unit resume course) (hstart : course 0 = about walk run engine u resume) :
    ∃ n, Deed.IsOver (course n).deeds := by
  refine Classical.byContradiction fun hnone => ?_
  have hnever : ∀ n, ¬ Deed.IsOver (course n).deeds := fun n hover => hnone ⟨n, hover⟩
  have hkeeps : (course 0).Keeps u unit resume := hstart ▸ keeps_about walk run engine u unit resume
  have hpoised : (course 0).scene.activity = .poised (.execute u resume) := by rw [hstart]; rfl
  obtain ⟨m, ⟨-, task, more, hconducts, -⟩, hstays⟩ := h.exists_advance (hnever 0)
  rw [hpoised] at hstays
  rcases hconducts.waiting_cases (.inl hstays) with ⟨-, -, hqueued⟩ | ⟨-, behavior, hworking⟩
  · exact h.not_queued hkeeps hnever hqueued
  · exact h.not_working hkeeps hnever hworking

end Unfolds

end Execution

/-! ## Executors -/

namespace Process

variable {p q : Process} {who task : Nat} {site : Site} {state state' : RunState} {e e' : Engine}
  {u : String} {unit : FlowUnit} {resume : Resume}

end Process

namespace Execution

variable {serial : Nat} {u : String} {unit : FlowUnit} {resume : Resume} {e e' : Execution}
  {x y : Executor} {m : Move}

/-- The walk does something itself while others do something before and after that. -/
def Acts (serial : Nat) (u : String) (unit : FlowUnit) (resume : Resume) (e e' : Execution) : Prop :=
  ∃ a b, e.Elapses a ∧ a.Advances serial u unit resume b ∧ b.Elapses e'

theorem Acts.elapses (h : e.Acts serial u unit resume e') {e'' : Execution} (h' : e'.Elapses e'') :
    e.Acts serial u unit resume e'' := by
  obtain ⟨a, b, hbefore, hadvances, hafter⟩ := h
  exact ⟨a, b, hbefore, hadvances, hafter.1.trans h'.1, h'.2.trans hafter.2⟩

theorem Keeps.acts (h : e.Keeps u unit resume) (hacts : e.Acts serial u unit resume e') :
    e'.Keeps u unit resume := by
  obtain ⟨a, b, hbefore, hadvances, hafter⟩ := hacts
  exact ((h.elapses hbefore).advances hadvances).elapses hafter

theorem Keeps.isOver (h : e.Keeps u unit resume) (hfinish : e.scene.activity = .poised .finish) :
    Deed.IsOver e.deeds := by
  cases h with
  | waits _ h => rcases h with h | h <;> cases h.symm.trans hfinish
  | calls _ hcall =>
    rw [hfinish] at hcall
    exact hcall.elim
  | ended hover => exact hover ▸ Deed.isOver_protocol ..

section Moves

variable {q : Process} {state : RunState} {deeds : List Deed}

end Moves

end Execution

end Workflow
