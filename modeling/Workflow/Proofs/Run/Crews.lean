import Workflow.Proofs.Run.Conduct
import Workflow.Proofs.Run.Missing
import Workflow.Proofs.Run.Nesting
import Workflow.Proofs.Run.Published

/-!
# Who is in a run

`Process.crew` are the walks of one run, and `Run.flows` the runs in a run: its own and those of the
flows that its units run. What is shown of processes along the tree is shown by
`Process.induction_runs`.

A number is that of one process (`Executor.Has.unique`), and a process that is there after a move
comes from before (`Executor.comesFrom`): it is new, or it was there, or it is what the move has made
of one that was there.
-/

namespace Workflow

/-! ## Walks and flows of a run -/

mutual

/-- The walks of a run at and below a process. A flow that a unit runs is a run of its own. -/
def Process.crew : Process → List Process
  | .mk serial walk activity => .mk serial walk activity :: activity.crew

def Activity.crew : Activity → List Process
  | .inPlace _ _ _ branch => branch.crew
  | .forking _ _ _ children _ => Child.crewIn children
  | .poised _ | .queued .. | .working .. | .asleep .. | .calling .. => []

def Child.crewIn : List Child → List Process
  | [] => []
  | child :: rest => child.crew ++ Child.crewIn rest

def Child.crew : Child → List Process
  | .running _ process => process.crew
  | .refused _ | .ended .. | .cancelled _ => []

end

mutual

/-- The runs of the flows that units in a process run, at any depth. -/
def Process.subruns : Process → List Run
  | .mk _ _ activity => activity.subruns

def Activity.subruns : Activity → List Run
  | .calling _ run root _ => ⟨run, root⟩ :: root.subruns
  | .inPlace _ _ _ branch => branch.subruns
  | .forking _ _ _ children _ => Child.subrunsIn children
  | .poised _ | .queued .. | .working .. | .asleep .. => []

def Child.subrunsIn : List Child → List Run
  | [] => []
  | child :: rest => child.subruns ++ Child.subrunsIn rest

def Child.subruns : Child → List Run
  | .running _ process => process.subruns
  | .refused _ | .ended .. | .cancelled _ => []

end

theorem Child.crewIn_eq_flatMap (children : List Child) : crewIn children = children.flatMap crew := by
  induction children with
  | nil => rfl
  | cons child rest ih => rw [crewIn, List.flatMap_cons, ih]

theorem Child.subrunsIn_eq_flatMap (children : List Child) :
    subrunsIn children = children.flatMap subruns := by
  induction children with
  | nil => rfl
  | cons child rest ih => rw [subrunsIn, List.flatMap_cons, ih]

theorem Activity.Calls.not_branches {activity : Activity} {run : RunState} {p q : Process}
    (h : activity.Calls run p) : ¬ activity.Branches q := by
  cases activity with
  | calling => exact id
  | poised | queued | working | asleep | inPlace | forking => exact h.elim

theorem Activity.Calls.runs {activity : Activity} {run : RunState} {q : Process}
    (h : activity.Calls run q) : activity.Runs q := by
  cases activity with
  | calling => exact h.2
  | poised | queued | working | asleep | inPlace | forking => exact h.elim

/-- What runs below a walk is a branch, or the flow that its unit runs. -/
theorem Activity.Runs.cases {activity : Activity} {q : Process} (h : activity.Runs q) :
    activity.Branches q ∨ ∃ run, activity.Calls run q := by
  cases activity with
  | calling job run => exact .inr ⟨run, rfl, h⟩
  | poised | queued | working | asleep | inPlace | forking => exact .inl h

/-- The walks below a walk are those of its branches. -/
theorem Activity.mem_crew {q : Process} {activity : Activity} :
    q ∈ activity.crew ↔ ∃ branch, activity.Branches branch ∧ q ∈ branch.crew := by
  cases activity with
  | inPlace => simp [crew, Branches]
  | forking anchor resume toStart children completed =>
    rw [crew, Child.crewIn_eq_flatMap, List.mem_flatMap]
    constructor
    · rintro ⟨child, hmem, hq⟩
      cases child with
      | running entry branch => exact ⟨branch, ⟨entry, hmem⟩, hq⟩
      | refused | ended | cancelled => cases hq
    · rintro ⟨branch, ⟨entry, hmem⟩, hq⟩
      exact ⟨_, hmem, hq⟩
  | poised | queued | working | asleep | calling => simp [crew, Branches]

/-- The flows that are run below a walk are run in its branches, or are the flow of its unit and
those in it. -/
theorem Activity.mem_subruns {f : Run} {activity : Activity} :
    f ∈ activity.subruns ↔ (∃ branch, activity.Branches branch ∧ f ∈ branch.subruns) ∨
      ∃ run root, activity.Calls run root ∧ (f = ⟨run, root⟩ ∨ f ∈ root.subruns) := by
  cases activity with
  | inPlace => simp [subruns, Branches, Calls]
  | calling => simp [subruns, Branches, Calls]
  | forking anchor resume toStart children completed =>
    rw [subruns, Child.subrunsIn_eq_flatMap, List.mem_flatMap]
    constructor
    · rintro ⟨child, hmem, hf⟩
      cases child with
      | running entry branch => exact .inl ⟨branch, ⟨entry, hmem⟩, hf⟩
      | refused | ended | cancelled => cases hf
    · rintro (⟨branch, ⟨entry, hmem⟩, hf⟩ | ⟨_, _, hcalls, _⟩)
      · exact ⟨_, hmem, hf⟩
      · exact hcalls.elim
  | poised | queued | working | asleep => simp [subruns, Branches, Calls]

/-- A run, and the runs of the flows that its units run. -/
def Run.flows (r : Run) : List Run := r :: r.root.subruns

def Executor.flows (x : Executor) : List Run := x.runs.flatMap Run.flows

/-- A walk is one of those at and below a process in its run. -/
def Process.Holds (w : Nat) (p : Process) : Prop := w ∈ p.crew.map Process.serial

mutual

/-- What holds of a process as soon as it holds of all that runs below it holds of every process. -/
theorem Process.induction_runs {P : Process → Prop}
    (h : ∀ serial walk activity, (∀ q, activity.Runs q → P q) → P (.mk serial walk activity)) :
    (p : Process) → P p
  | .mk serial walk activity => h serial walk activity (Activity.induction_runs h activity)

theorem Activity.induction_runs {P : Process → Prop}
    (h : ∀ serial walk activity, (∀ q, activity.Runs q → P q) → P (.mk serial walk activity)) :
    (activity : Activity) → ∀ q, activity.Runs q → P q
  | .calling _ _ root _, _, hruns => hruns ▸ Process.induction_runs h root
  | .inPlace _ _ _ branch, _, hruns => hruns ▸ Process.induction_runs h branch
  | .forking _ _ _ children _, q, hruns => Child.induction_runs h children q hruns
  | .poised _, _, hruns | .queued .., _, hruns | .working .., _, hruns | .asleep .., _, hruns =>
    hruns.elim

theorem Child.induction_runs {P : Process → Prop}
    (h : ∀ serial walk activity, (∀ q, activity.Runs q → P q) → P (.mk serial walk activity)) :
    (children : List Child) → ∀ q, (∃ entry, Child.running entry q ∈ children) → P q
  | [], _, hmem => by
    obtain ⟨entry, hmem⟩ := hmem
    cases hmem
  | child :: rest, q, hmem => by
    obtain ⟨entry, hmem⟩ := hmem
    rcases List.mem_cons.mp hmem with heq | hmem
    · match child, heq with
      | .running _ _, heq => exact (Child.running.inj heq).2 ▸ Process.induction_runs h _
    · exact Child.induction_runs h rest q ⟨entry, hmem⟩

end

section

variable {w serial : Nat} {walk : Walk} {activity : Activity} {run inner : RunState} {p q : Process}

theorem Process.mem_crew : q ∈ (Process.mk serial walk activity).crew ↔
    q = .mk serial walk activity ∨ ∃ branch, activity.Branches branch ∧ q ∈ branch.crew := by
  rw [crew, List.mem_cons, Activity.mem_crew]

theorem Process.mem_crew_self (p : Process) : p ∈ p.crew := by
  obtain ⟨serial, walk, activity⟩ := p
  exact mem_crew.mpr (.inl rfl)

theorem Process.holds_iff : (Process.mk serial walk activity).Holds w ↔
    w = serial ∨ ∃ branch, activity.Branches branch ∧ branch.Holds w := by
  unfold Holds
  simp only [List.mem_map, mem_crew]
  constructor
  · rintro ⟨q, rfl | ⟨branch, hbranch, hq⟩, rfl⟩
    · exact .inl rfl
    · exact .inr ⟨branch, hbranch, q, hq, rfl⟩
  · rintro (rfl | ⟨branch, hbranch, q, hq, rfl⟩)
    · exact ⟨_, .inl rfl, rfl⟩
    · exact ⟨q, .inr ⟨branch, hbranch, hq⟩, rfl⟩

theorem Process.holds_ofPlan {plan : Plan} {pooled : Bool}
    (h : (Process.ofPlan serial plan pooled).Holds w) : w = serial := by
  rcases holds_iff.mp h with h | ⟨_, hbranch, _⟩
  · exact h
  · exact hbranch.elim

theorem Process.Holds.of_branch (h : q.Holds w) (hbranch : activity.Branches q) :
    (Process.mk serial walk activity).Holds w :=
  holds_iff.mpr (.inr ⟨q, hbranch, h⟩)

/-- What holds of a run and those in it holds in a branch and in the runs there. -/
theorem Run.forall_flows_of_branch {P : Run → Prop}
    (h : ∀ f ∈ Run.flows ⟨run, .mk serial walk activity⟩, P f) (hbranch : activity.Branches q)
    (hown : P ⟨run, .mk serial walk activity⟩ → P ⟨run, q⟩) : ∀ f ∈ Run.flows ⟨run, q⟩, P f := by
  intro f hf
  rcases List.mem_cons.mp hf with rfl | hf
  · exact hown (h _ List.mem_cons_self)
  · exact h f (List.mem_cons_of_mem _ (Activity.mem_subruns.mpr (.inl ⟨q, hbranch, hf⟩)))

/-- What holds of a run and those in it holds of the flow that its unit runs. -/
theorem Run.forall_flows_of_calls {P : Run → Prop}
    (h : ∀ f ∈ Run.flows ⟨run, .mk serial walk activity⟩, P f) (hcalls : activity.Calls inner q) :
    ∀ f ∈ Run.flows ⟨inner, q⟩, P f := by
  intro f hf
  refine h f (List.mem_cons_of_mem _ (Activity.mem_subruns.mpr (.inr ⟨inner, q, hcalls, ?_⟩)))
  exact List.mem_cons.mp hf

end

namespace Process

variable {p q : Process} {f r : Run} {w : Nat}

theorem has_of_crew (h : q ∈ p.crew) : p.Has q := by
  induction p using induction_runs with
  | h serial walk activity ih =>
    rcases mem_crew.mp h with rfl | ⟨branch, hbranch, hq⟩
    · exact .self _
    · exact .inside hbranch.runs (ih branch hbranch.runs hq)

/-- The walks of a flow that is run below a walk are in what the walk waits for. -/
theorem has_of_subruns (hf : f ∈ p.subruns) (hq : q ∈ f.root.crew) :
    ∃ r, p.activity.Runs r ∧ r.Has q := by
  induction p using induction_runs with
  | h serial walk activity ih =>
    rcases Activity.mem_subruns.mp hf with ⟨branch, hbranch, hf⟩ | ⟨inner, root, hcalls, hf⟩
    · obtain ⟨r, hruns, hhas⟩ := ih branch hbranch.runs hf
      obtain ⟨serial, walk, activity⟩ := branch
      exact ⟨_, hbranch.runs, .inside hruns hhas⟩
    · refine ⟨root, hcalls.runs, ?_⟩
      rcases hf with rfl | hf
      · exact has_of_crew hq
      · obtain ⟨r, hruns, hhas⟩ := ih root hcalls.runs hf
        obtain ⟨serial, walk, activity⟩ := root
        exact .inside hruns hhas

theorem Has.serials_subset (h : p.Has q) : q.serials ⊆ p.serials := by
  induction h with
  | self => exact List.Subset.refl _
  | inside hruns _ ih => exact fun w hw => List.mem_cons_of_mem _ (Process.serials_subset hruns (ih hw))

/-- A number that no walk of a process has is not that of what is in it. -/
theorem Has.serial_ne {n : Nat} (h : p.Has q) (hn : n ∉ p.serials) : q.serial ≠ n :=
  fun heq => hn (heq ▸ h.serials_subset q.serial_mem_serials)

theorem Holds.mem_serials (h : p.Holds w) : w ∈ p.serials := by
  obtain ⟨q, hq, rfl⟩ := List.mem_map.mp h
  exact (has_of_crew hq).serials_subset q.serial_mem_serials

/-- A walk of a flow that is run below a walk has its number from below. -/
theorem mem_serials_of_subruns (hf : f ∈ p.subruns) (hw : f.root.Holds w) :
    w ∈ p.activity.serials := by
  obtain ⟨q, hq, rfl⟩ := List.mem_map.mp hw
  obtain ⟨r, hruns, hhas⟩ := has_of_subruns hf hq
  exact serials_subset hruns (hhas.serials_subset q.serial_mem_serials)

end Process

/-- The runs below a walk of a run are below its root. -/
theorem Process.subruns_of_crew {p q : Process} (h : q ∈ p.crew) : q.subruns ⊆ p.subruns := by
  induction p using Process.induction_runs with
  | h serial walk activity ih =>
    rcases Process.mem_crew.mp h with rfl | ⟨branch, hbranch, hq⟩
    · exact List.Subset.refl _
    · intro f hf
      exact Activity.mem_subruns.mpr (.inl ⟨branch, hbranch, ih branch hbranch.runs hq hf⟩)

/-- The runs in a run that is run below a process are below the process. -/
theorem Process.subruns_of_subruns {p : Process} {f : Run} (h : f ∈ p.subruns) :
    f.root.subruns ⊆ p.subruns := by
  induction p using Process.induction_runs with
  | h serial walk activity ih =>
    intro g hg
    rcases Activity.mem_subruns.mp h with ⟨branch, hbranch, hf⟩ | ⟨inner, root, hcalls, hf⟩
    · exact Activity.mem_subruns.mpr (.inl ⟨branch, hbranch, ih branch hbranch.runs hf hg⟩)
    · refine Activity.mem_subruns.mpr (.inr ⟨inner, root, hcalls, .inr ?_⟩)
      rcases hf with rfl | hf
      · exact hg
      · exact ih root hcalls.runs hf hg

/-- A walk of a run or of those in it has its number from the tree. -/
theorem Run.mem_serials_of_flows {w : Nat} {r f : Run} (hf : f ∈ r.flows) (hw : f.root.Holds w) :
    w ∈ r.root.serials := by
  rcases List.mem_cons.mp hf with rfl | hf
  · exact hw.mem_serials
  · exact Process.mem_serials_of_activity (Process.mem_serials_of_subruns hf hw)

theorem Process.Fits.of_has {p q : Process} (h : p.Fits) (hhas : p.Has q) : q.Fits := by
  induction hhas with
  | self => exact h
  | inside hruns _ ih =>
    obtain ⟨-, -, hinside⟩ := h
    exact ih (hinside _ hruns)

theorem Process.Fits.fitsAt {p : Process} (h : p.Fits) : p.activity.FitsAt p.walk := by
  obtain ⟨-, hat, -⟩ := h
  exact hat

/-! ## The branches of a fork -/

namespace Process

section

variable {w serial : Nat} {walk : Walk} {anchor entry : String} {resume : Resume} {run : RunState}
  {toStart : List (Branch Plan)} {before after : List Child} {completed : List String} {q : Process}

/-- The runs below a fork: those in one branch and those in the others. -/
theorem subruns_forking {child : Child} {f : Run} :
    f ∈ (mk serial walk
      (.forking anchor resume toStart (before ++ child :: after) completed)).subruns ↔
      f ∈ child.subruns ∨
        ∃ entry branch, (.running entry branch ∈ before ∨ .running entry branch ∈ after) ∧
          f ∈ branch.subruns := by
  show f ∈ Child.subrunsIn (before ++ child :: after) ↔ _
  rw [Child.subrunsIn_eq_flatMap, List.flatMap_append, List.flatMap_cons, List.mem_append,
    List.mem_append, List.mem_flatMap, List.mem_flatMap]
  constructor
  · rintro (⟨other, hmem, hf⟩ | hf | ⟨other, hmem, hf⟩)
    · cases other with
      | running entry branch => exact .inr ⟨entry, branch, .inl hmem, hf⟩
      | refused | ended | cancelled => cases hf
    · exact .inl hf
    · cases other with
      | running entry branch => exact .inr ⟨entry, branch, .inr hmem, hf⟩
      | refused | ended | cancelled => cases hf
  · rintro (hf | ⟨entry, branch, hmem | hmem, hf⟩)
    · exact .inr (.inl hf)
    · exact .inl ⟨_, hmem, hf⟩
    · exact .inr (.inr ⟨_, hmem, hf⟩)

/-- A process in which one branch of a fork has moved: its runs and those of the other branches. -/
theorem flows_forking {child : Child} {f : Run}
    (hf : f ∈ Run.flows ⟨run, .mk serial walk
      (.forking anchor resume toStart (before ++ child :: after) completed)⟩) :
    f = ⟨run, .mk serial walk
        (.forking anchor resume toStart (before ++ child :: after) completed)⟩ ∨
      f ∈ child.subruns ∨
        ∃ entry branch, (.running entry branch ∈ before ∨ .running entry branch ∈ after) ∧
          f ∈ branch.subruns := by
  rcases List.mem_cons.mp hf with rfl | hf
  · exact .inl rfl
  · exact .inr (subruns_forking.mp hf)

/-- Whose walks a process has in which one branch of a fork has moved. -/
theorem holds_forking {child : Child}
    (h : (mk serial walk (.forking anchor resume toStart (before ++ child :: after) completed)).Holds
      w) :
    w = serial ∨ (∃ entry branch, child = .running entry branch ∧ branch.Holds w) ∨
      ∃ entry branch, (.running entry branch ∈ before ∨ .running entry branch ∈ after) ∧
        branch.Holds w := by
  rcases holds_iff.mp h with rfl | ⟨branch, ⟨entry, hmem⟩, hholds⟩
  · exact .inl rfl
  · exact .inr ((mem_around.mp hmem).imp (fun heq => ⟨entry, branch, heq, hholds⟩)
      fun hsibling => ⟨entry, branch, hsibling, hholds⟩)

theorem branches_of_sibling {child : Child}
    (h : .running entry q ∈ before ∨ .running entry q ∈ after) :
    (Activity.forking anchor resume toStart (before ++ child :: after) completed).Branches q :=
  ⟨entry, mem_of_around h child⟩

theorem notMem_serials_of_sibling {branch : Process}
    (hnodup : (Child.serialsIn (before ++ .running entry branch :: after)).Nodup) {entry' : String}
    (hmem : .running entry' q ∈ before ∨ .running entry' q ∈ after) (hw : w ∈ q.serials) :
    w ∉ branch.serials := by
  rw [Child.serialsIn_eq_flatMap] at hnodup
  show w ∉ Child.serials (.running entry branch)
  exact not_mem_of_nodup_flatMap hnodup hmem (show w ∈ Child.serials (.running entry' q) from hw)

end

end Process

/-! ## Where processes come from -/

namespace Scene

variable {s s' : Scene} {task serial : Nat}

/-- A flow that the unit of a walk runs after a step is at its start. -/
theorem Steps.calls_cases {inner : RunState} {root : Process} (h : s.Steps task serial s')
    (hcalls : s'.activity.Calls inner root) :
    ∃ scopeId plan, inner = ⟨{}, scopeId, ∅, []⟩ ∧ root = .ofPlan s.engine.nextSerial plan false := by
  cases h with
  | opens =>
    obtain ⟨rfl, rfl⟩ := hcalls
    exact ⟨_, _, rfl, rfl⟩
  | ends | gaveUp =>
    rw [endUnit_eq] at hcalls
    exact hcalls.elim
  | advance | missing | queues | begins | granted | does | sleeps | wakes | runs | tidies | fails
  | forksNone | forksOne | forks | starts | refuses | joins => exact hcalls.elim

end Scene

/-- A run has just been started, with a root of this number. -/
structure Run.AtStart (serial : Nat) (f : Run) : Prop where
  scope : f.state.scope = ∅
  executed : f.state.executed = []
  root : (∃ plan pooled, f.root = .ofPlan serial plan pooled) ∨ ∃ u, f.root = .ofUnit serial u

theorem Run.Launched.atStart {f : Run} {serial : Nat} (h : f.Launched serial) : f.AtStart serial := by
  cases h with
  | ofPlan _ _ plan => exact ⟨rfl, rfl, .inl ⟨plan, false, rfl⟩⟩
  | ofUnit _ _ u => exact ⟨rfl, rfl, .inr ⟨u, rfl⟩⟩

/-- Nothing runs yet below the root of a run that has just been started. -/
theorem Run.AtStart.crew {f : Run} {serial : Nat} {q : Process} (h : f.AtStart serial)
    (hq : q ∈ f.root.crew) : q.serial = serial := by
  rcases h.root with ⟨plan, pooled, hroot⟩ | ⟨u, hroot⟩
  all_goals
    rw [hroot] at hq
    obtain rfl := List.mem_singleton.mp hq
    rfl

/-- A process at the start of a plan or of a single unit. -/
def Process.IsStart (serial : Nat) (q : Process) : Prop :=
  (∃ plan pooled, q = .ofPlan serial plan pooled) ∨ ∃ u, q = .ofUnit serial u

/-- A process that a move of the task `who` leaves behind is at its start, or it was there before, or
it is what the move has made of one that was there. -/
def Process.StemsFrom (who : Nat) (e : Engine) (before : Process → Prop) (q : Process) : Prop :=
  q.IsStart e.nextSerial ∨ before q ∨
    ∃ site task p run run' e', before p ∧ p.Moves who site task run e q run' e'

/-- A process that a move of the task `who` leaves behind is new, or it was there before, or it is
what the move has made of one that was there. -/
def Process.ComesFrom (who : Nat) (e : Engine) (before : Process → Prop) (q : Process) : Prop :=
  e.nextSerial ≤ q.serial ∨ before q ∨
    ∃ site task p run run' e', before p ∧ p.Moves who site task run e q run' e'

namespace Process

variable {who task : Nat} {p p' q r : Process} {run run' : RunState} {e e' : Engine} {site : Site}

theorem IsStart.serial {serial : Nat} (h : q.IsStart serial) : q.serial = serial := by
  rcases h with ⟨plan, pooled, rfl⟩ | ⟨u, rfl⟩ <;> rfl

/-- Nothing runs yet in a process at its start. -/
theorem IsStart.has {serial : Nat} (h : p.IsStart serial) (hhas : p.Has q) : q = p := by
  cases hhas with
  | self => rfl
  | inside hruns =>
    rcases h with ⟨plan, pooled, heq⟩ | ⟨u, heq⟩
    all_goals
      cases heq
      exact hruns.elim

theorem StemsFrom.mono {before before' : Process → Prop} (h : q.StemsFrom who e before)
    (himp : ∀ p, before p → before' p) : q.StemsFrom who e before' :=
  h.imp_right (Or.imp (himp q) fun ⟨site, task, p, run, run', e', hin, hmoves⟩ =>
    ⟨site, task, p, run, run', e', himp p hin, hmoves⟩)

theorem StemsFrom.of_moves (h : p.Moves who site task run e p' run' e') :
    p'.StemsFrom who e p.Has :=
  .inr (.inr ⟨site, task, p, run, run', e', .self p, h⟩)

/-- Whatever a task does in a process, all that is in it afterwards stems from what was in it. -/
theorem Moves.stemsFrom (h : p.Moves who site task run e p' run' e') (hhas : p'.Has q) :
    q.StemsFrom who e p.Has := by
  induction h with
  | here h =>
    cases hhas with
    | self => exact .of_moves (.here h)
    | inside hruns hhas =>
      -- a branch was there before, or has been started by this step
      rcases h.runs_cases hruns with ⟨hold, -⟩ | ⟨plan, pooled, rfl⟩
      · exact .inr (.inl (.inside hold.runs hhas))
      · cases hhas with
        | self => exact .inl (.inl ⟨plan, pooled, rfl⟩)
        | inside hruns => exact hruns.elim
  | @called _ _ _ _ _ _ run _ _ _ e e' _ h hrunning ih =>
    cases hhas with
    | self => exact .of_moves (show Moves who _ _ _ run e _ run e' from .called h hrunning)
    | inside hruns hhas =>
      cases hruns
      exact (ih hhas).mono fun _ hin => .inside rfl hin
  | @returned _ _ _ _ _ _ run _ _ _ e e' _ h hfinished =>
    cases hhas with
    | self => exact .of_moves (show Moves who _ _ _ run e _ run e' from .returned h hfinished)
    | inside hruns => exact hruns.elim
  | inPlace h hrunning ih =>
    cases hhas with
    | self => exact .of_moves (.inPlace h hrunning)
    | inside hruns hhas =>
      cases hruns
      exact (ih hhas).mono fun _ hin => .inside rfl hin
  | inPlaceEnded h hfinished hclose =>
    cases hhas with
    | self => exact .of_moves (.inPlaceEnded h hfinished hclose)
    | inside hruns =>
      subst hclose
      exact hruns.elim
  | @child _ _ _ _ entry _ _ before after _ branch _ _ _ _ _ _ h hrunning htask ih =>
    cases hhas with
    | self => exact .of_moves (.child h hrunning htask)
    | inside hruns hhas =>
      have hbranch := mem_children before after entry branch
      rcases Child.running_of_moved hruns branch with rfl | hold
      · exact (ih hhas).mono fun _ hin =>
          .inside (show Activity.Runs _ branch from ⟨entry, hbranch⟩) hin
      · exact .inr (.inl (.inside hold hhas))
  | childEnded h hfinished htask hcompleted =>
    cases hhas with
    | self => exact .of_moves (.childEnded h hfinished htask hcompleted)
    | inside hruns hhas =>
      exact .inr (.inl (.inside (Child.running_of_ended hruns) hhas))

/-- A walk of a run was there before a move, or is new, or has moved itself. -/
def MovesFrom (who : Nat) (before : List Process) (run run' : RunState) (e : Engine) (q : Process) :
    Prop :=
  q ∈ before ∨ q.serial = e.nextSerial ∨ ∃ r ∈ before, ∃ (inner : Site) (task : Nat) (e₁ : Engine),
    r.Moves who inner task run e q run' e₁

theorem MovesFrom.of_branch {serial : Nat} {walk : Walk} {activity : Activity}
    (h : MovesFrom who r.crew run run' e q) (hbranch : activity.Branches r) :
    MovesFrom who (mk serial walk activity).crew run run' e q := by
  have hin : ∀ b ∈ r.crew, b ∈ (mk serial walk activity).crew := fun b hb =>
    mem_crew.mpr (.inr ⟨r, hbranch, hb⟩)
  exact h.imp (hin q) (Or.imp_right fun ⟨b, hb, hmoves⟩ => ⟨b, hin b hb, hmoves⟩)

theorem MovesFrom.of_moves (h : p.Moves who site task run e p' run' e') :
    MovesFrom who p.crew run run' e p' :=
  .inr (.inr ⟨p, mem_crew_self p, site, task, e', h⟩)

/-- The walks of a run after a move: they were there before, or are new, or have moved themselves. -/
theorem Moves.movesFrom (h : p.Moves who site task run e p' run' e') (hq : q ∈ p'.crew) :
    MovesFrom who p.crew run run' e q := by
  induction h with
  | here h =>
    rcases mem_crew.mp hq with rfl | ⟨branch, hbranch, hq⟩
    · exact .of_moves (.here h)
    · rcases h.runs_cases hbranch.runs with ⟨hold, -⟩ | ⟨plan, pooled, rfl⟩
      · exact .inl (mem_crew.mpr (.inr ⟨branch, hold, hq⟩))
      · obtain rfl := List.mem_singleton.mp hq
        exact .inr (.inl rfl)
  -- the crew of a process does not reach into the flow that its unit calls
  | @called _ _ _ _ _ _ run _ _ _ e e' _ h hrunning =>
    obtain rfl := List.mem_singleton.mp hq
    exact .of_moves (show Moves who _ _ _ run e _ run e' from .called h hrunning)
  | @returned _ _ _ _ _ _ run _ _ _ e e' _ h hfinished =>
    obtain rfl := List.mem_singleton.mp hq
    exact .of_moves (show Moves who _ _ _ run e _ run e' from .returned h hfinished)
  | inPlace h hrunning ih =>
    rcases mem_crew.mp hq with rfl | ⟨_, rfl, hin⟩
    · exact .of_moves (.inPlace h hrunning)
    · exact (ih hin).of_branch rfl
  | inPlaceEnded h hfinished hclose =>
    rcases mem_crew.mp hq with rfl | ⟨_, hbranch, _⟩
    · exact .of_moves (.inPlaceEnded h hfinished hclose)
    · subst hclose
      exact hbranch.elim
  | @child _ _ _ _ entry _ _ before after _ branch _ _ _ _ _ _ h hrunning htask ih =>
    rcases mem_crew.mp hq with rfl | ⟨other, hother, hin⟩
    · exact .of_moves (.child h hrunning htask)
    · rcases Child.running_of_moved hother branch with rfl | hold
      · exact (ih hin).of_branch ⟨entry, mem_children before after entry branch⟩
      · exact .inl (mem_crew.mpr (.inr ⟨other, hold, hin⟩))
  | childEnded h hfinished htask hcompleted =>
    rcases mem_crew.mp hq with rfl | ⟨other, hother, hin⟩
    · exact .of_moves (.childEnded h hfinished htask hcompleted)
    · exact .inl (mem_crew.mpr (.inr ⟨other, Child.running_of_ended hother, hin⟩))

/-- What a walk does where it stands is there afterwards, unless the walk has come to its end. -/
theorem Moves.exists_steps (h : p.Moves who site task run e p' run' e') :
    ∃ s, Scene.Steps ⟨site.process.walk, site.process.activity, site.run, e⟩ who
        site.process.serial s ∧
      ((s.process site.process.serial).isFinished = false → p'.Has (s.process site.process.serial)) := by
  induction h with
  | here h => exact ⟨_, h, fun _ => .self _⟩
  | called _ _ ih =>
    obtain ⟨s, hsteps, hhas⟩ := ih
    exact ⟨s, hsteps, fun hrunning => .inside rfl (hhas hrunning)⟩
  | returned _ hfinished ih =>
    obtain ⟨s, hsteps, hhas⟩ := ih
    refine ⟨s, hsteps, fun hrunning => ?_⟩
    -- nothing is left in a process that has finished but the walk itself
    rw [← has_of_isFinished (hhas hrunning) hfinished] at hfinished
    cases hfinished.symm.trans hrunning
  | inPlace _ _ ih =>
    obtain ⟨s, hsteps, hhas⟩ := ih
    rw [Site.process_within, Site.run_within]
    exact ⟨s, hsteps, fun hrunning => .inside rfl (hhas hrunning)⟩
  | inPlaceEnded _ hfinished _ ih =>
    obtain ⟨s, hsteps, hhas⟩ := ih
    rw [Site.process_within, Site.run_within]
    refine ⟨s, hsteps, fun hrunning => ?_⟩
    rw [← has_of_isFinished (hhas hrunning) hfinished] at hfinished
    cases hfinished.symm.trans hrunning
  | @child _ _ _ _ entry _ _ _ _ _ _ branch' _ _ _ _ _ _ _ _ ih =>
    obtain ⟨s, hsteps, hhas⟩ := ih
    rw [Site.process_within, Site.run_within]
    refine ⟨s, hsteps, fun hrunning => ?_⟩
    exact .inside (show Activity.Runs _ branch' from ⟨entry, mem_children ..⟩) (hhas hrunning)
  | childEnded _ hfinished _ _ ih =>
    obtain ⟨s, hsteps, hhas⟩ := ih
    rw [Site.process_within, Site.run_within]
    refine ⟨s, hsteps, fun hrunning => ?_⟩
    rw [← has_of_isFinished (hhas hrunning) hfinished] at hfinished
    cases hfinished.symm.trans hrunning

theorem not_moves_of_isFinished (h : p.isFinished = true) :
    ¬ p.Moves who site task run e p' run' e' := by
  intro hmoves
  obtain ⟨serial, walk, rfl⟩ := exists_of_isFinished h
  cases hmoves with
  | here h =>
    cases h with
    | advance h | missing h | queues h | begins h | granted h | does h | sleeps h | wakes h | opens h
    | runs h | tidies h | ends h | fails h | gaveUp h | forksNone h | forksOne h | forks h | starts h
    | refuses h | joins h => cases h

/-- A walk that decides where it stands makes the turn that the plan has for it. -/
theorem Moves.eq_of_advance (h : p.Moves who site task run e p' run' e')
    (hactivity : p.activity = .poised .advance) :
    let t := p.walk.advance run.scope run.hasRun
    p' = .mk p.serial t.walk (.poised t.next) := by
  cases h with
  | @here _ walk activity _ _ _ h =>
    obtain rfl : activity = _ := hactivity
    cases h with
    | advance => rfl
    | missing h | queues h | begins h | granted h | does h | sleeps h | wakes h | opens h | runs h
    | tidies h | ends h | fails h | gaveUp h | forksNone h | forksOne h | forks h | starts h | refuses h
    | joins h => cases h
  | called | returned | inPlace | inPlaceEnded | child | childEnded => cases hactivity

/-- A number is that of one process. -/
theorem Has.unique (h : p.Has q) (h' : p.Has r) (hnodup : p.serials.Nodup)
    (heq : q.serial = r.serial) : q = r := by
  induction h with
  | @self p =>
    cases h' with
    | self => rfl
    | inside hruns hr =>
      obtain ⟨hserial, -⟩ := List.nodup_cons.mp hnodup
      have hin := Process.serials_subset hruns (hr.serials_subset r.serial_mem_serials)
      rw [← heq] at hin
      exact absurd hin hserial
  | @inside serial walk activity b q hruns hq ih =>
    obtain ⟨hserial, hbelow⟩ := List.nodup_cons.mp hnodup
    have hin := hq.serials_subset q.serial_mem_serials
    cases h' with
    | self =>
      rw [heq] at hin
      exact absurd (Process.serials_subset hruns hin) hserial
    | @inside _ _ _ b' _ hruns' hr =>
      have hin' := hr.serials_subset r.serial_mem_serials
      rw [← heq] at hin'
      cases activity with
      | poised | queued | working | asleep => exact hruns.elim
      | calling | inPlace =>
        cases hruns
        cases hruns'
        exact ih hr hbelow heq
      | forking anchor resume toStart children completed =>
        obtain ⟨entry, hmem⟩ := hruns
        obtain ⟨entry', hmem'⟩ := hruns'
        -- the number is that of one branch
        cases Child.eq_of_mem_serials hbelow hmem hmem' hin hin'
        exact ih hr (Child.nodup_serials hbelow hmem) heq

/-- Giving up branches leaves nothing but what was there, with its branches given up. -/
theorem has_cancelTasks (h : p.cancelTasks.Has q) : ∃ r, p.Has r ∧ q = r.cancelTasks := by
  induction p using induction_runs with
  | h serial walk activity ih =>
    cases activity with
    | poised | queued | working | asleep =>
      cases h with
      | self => exact ⟨_, .self _, rfl⟩
      | inside hruns => exact hruns.elim
    | calling job run root next =>
      cases h with
      | self => exact ⟨_, .self _, rfl⟩
      | inside hruns h =>
        cases hruns
        obtain ⟨r, hhas, heq⟩ := ih root rfl h
        exact ⟨r, .inside rfl hhas, heq⟩
    | inPlace anchor entry resume branch =>
      cases h with
      | self => exact ⟨_, .self _, rfl⟩
      | inside hruns h =>
        cases hruns
        obtain ⟨r, hhas, heq⟩ := ih branch rfl h
        exact ⟨r, .inside rfl hhas, heq⟩
    | forking anchor resume toStart children completed =>
      cases h with
      | self => exact ⟨_, .self _, rfl⟩
      | inside hruns =>
        obtain ⟨entry, hmem⟩ := hruns
        exact absurd hmem Child.not_running_cancel

/-- The walks of a run that has given up its branches were there. -/
theorem crew_cancelTasks (h : q ∈ p.cancelTasks.crew) : ∃ r ∈ p.crew, q = r.cancelTasks := by
  induction p using induction_runs with
  | h serial walk activity ih =>
    cases activity with
    | poised | queued | working | asleep | calling =>
      obtain rfl := List.mem_singleton.mp h
      exact ⟨_, mem_crew_self _, rfl⟩
    | inPlace anchor entry resume branch =>
      rcases mem_crew.mp h with rfl | ⟨_, rfl, hin⟩
      · exact ⟨_, mem_crew_self _, rfl⟩
      · obtain ⟨r, hr, heq⟩ := ih branch rfl hin
        exact ⟨r, mem_crew.mpr (.inr ⟨branch, rfl, hr⟩), heq⟩
    | forking anchor resume toStart children completed =>
      rcases mem_crew.mp h with rfl | ⟨_, ⟨entry, hmem⟩, _⟩
      · exact ⟨_, mem_crew_self _, rfl⟩
      · exact absurd hmem Child.not_running_cancel

theorem holds_of_cancelTasks {w : Nat} (h : p.cancelTasks.Holds w) : p.Holds w := by
  obtain ⟨q, hq, rfl⟩ := List.mem_map.mp h
  obtain ⟨r, hr, rfl⟩ := crew_cancelTasks hq
  exact List.mem_map.mpr ⟨r, hr, (serial_cancelTasks r).symm⟩

/-- The runs that are left when branches are given up were there, and have given up their own. -/
theorem subruns_cancelTasks {f : Run} (h : f ∈ p.cancelTasks.subruns) :
    ∃ g ∈ p.subruns, f = ⟨g.state, g.root.cancelTasks⟩ := by
  induction p using induction_runs with
  | h serial walk activity ih =>
    cases activity with
    | poised | queued | working | asleep => cases h
    | calling job run root next =>
      rcases List.mem_cons.mp h with rfl | h
      · exact ⟨⟨run, root⟩, List.mem_cons_self, rfl⟩
      · obtain ⟨g, hg, rfl⟩ := ih root rfl h
        exact ⟨g, List.mem_cons_of_mem _ hg, rfl⟩
    | inPlace anchor entry resume branch => exact ih branch rfl h
    | forking anchor resume toStart children completed =>
      rcases Activity.mem_subruns.mp h with ⟨_, ⟨entry, hmem⟩, _⟩ | ⟨_, _, hcalls, _⟩
      · exact absurd hmem Child.not_running_cancel
      · exact hcalls.elim

/-- The runs in a process after a move: they were there before, or are at their start in a context of
their own, or the task has moved in them. -/
theorem Moves.subruns_cases {f : Run} (h : p.Moves who site task run e p' run' e')
    (hf : f ∈ p'.subruns) :
    f ∈ p.subruns ∨ f.AtStart e.nextSerial ∧ f.state.context = {} ∨
      ∃ g ∈ p.subruns, ∃ (inner : Site) (task' : Nat) (e₁ : Engine),
      g.root.Moves who inner task' g.state e f.root f.state e₁ ∧ inner.depth < site.depth ∧
      site = { inner with depth := site.depth } := by
  induction h with
  | here h =>
    rcases Activity.mem_subruns.mp hf with ⟨branch, hbranch, hf⟩ | ⟨inner, root, hcalls, hf⟩
    · rcases h.runs_cases hbranch.runs with ⟨hold, -⟩ | ⟨plan, pooled, rfl⟩
      · exact .inl (Activity.mem_subruns.mpr (.inl ⟨branch, hold, hf⟩))
      · cases hf
    · obtain ⟨scopeId, plan, rfl, rfl⟩ := h.calls_cases hcalls
      rcases hf with rfl | hf
      -- a unit has just asked for this run
      · exact .inr (.inl ⟨⟨rfl, rfl, .inl ⟨_, _, rfl⟩⟩, rfl⟩)
      · cases hf
  | @called task serial walk job inner inner' run root root' next e e' site h _ ih =>
    rcases List.mem_cons.mp hf with rfl | hf
    · exact .inr (.inr ⟨⟨inner, root⟩, List.mem_cons_self, site, task, e', h, Nat.lt_succ_self _, rfl⟩)
    · rcases ih hf with hold | hstart | ⟨g, hg, below, task', e₁, hmoves, hdepth, heq⟩
      · exact .inl (List.mem_cons_of_mem _ hold)
      · exact .inr (.inl hstart)
      · refine .inr (.inr ⟨g, List.mem_cons_of_mem _ hg, below, task', e₁, hmoves,
          Nat.lt_succ_of_lt hdepth, ?_⟩)
        rw [heq]
        rfl
  | returned => cases hf
  | inPlace h _ ih =>
    rcases ih hf with hold | hstart | ⟨g, hg, below, task', e₁, hmoves, hdepth, heq⟩
    · exact .inl hold
    · exact .inr (.inl hstart)
    · rw [Site.within_of_pos (Nat.zero_lt_of_lt hdepth)]
      exact .inr (.inr ⟨g, hg, below, task', e₁, hmoves, hdepth, heq⟩)
  | inPlaceEnded _ _ hclose =>
    subst hclose
    cases hf
  | child h _ _ ih =>
    rcases subruns_forking.mp hf with hf | hf
    · rcases ih hf with hold | hstart | ⟨g, hg, below, task', e₁, hmoves, hdepth, heq⟩
      · exact .inl (subruns_forking.mpr (.inl hold))
      · exact .inr (.inl hstart)
      · rw [Site.within_of_pos (Nat.zero_lt_of_lt hdepth)]
        exact .inr (.inr ⟨g, subruns_forking.mpr (.inl hg), below, task', e₁, hmoves, hdepth, heq⟩)
    · exact .inl (subruns_forking.mpr (.inr hf))
  | childEnded =>
    rcases subruns_forking.mp hf with hf | hf
    · cases hf
    · exact .inl (subruns_forking.mpr (.inr hf))

/-- The run of a site is one of those in the run, and has the walk that is there. -/
theorem At.exists_flow (h : p.At who task run site) :
    ∃ f ∈ Run.flows ⟨run, p⟩, f.state = site.run ∧ site.process ∈ f.root.crew := by
  induction h with
  | here => exact ⟨_, List.mem_cons_self, rfl, mem_crew_self _⟩
  | called _ ih =>
    obtain ⟨f, hf, hstate, hcrew⟩ := ih
    exact ⟨f, List.mem_cons_of_mem _ hf, hstate, hcrew⟩
  | @inPlace _ _ _ _ _ _ branch run _ _ ih =>
    obtain ⟨f, hf, hstate, hcrew⟩ := ih
    rw [Site.process_within, Site.run_within]
    rcases List.mem_cons.mp hf with rfl | hf
    · exact ⟨_, List.mem_cons_self, hstate, mem_crew.mpr (.inr ⟨branch, rfl, hcrew⟩)⟩
    · exact ⟨f, List.mem_cons_of_mem _ hf, hstate, hcrew⟩
  | @child _ _ _ _ entry _ _ _ _ branch run _ hmem _ ih =>
    obtain ⟨f, hf, hstate, hcrew⟩ := ih
    rw [Site.process_within, Site.run_within]
    rcases List.mem_cons.mp hf with rfl | hf
    · exact ⟨_, List.mem_cons_self, hstate, mem_crew.mpr (.inr ⟨branch, ⟨entry, hmem⟩, hcrew⟩)⟩
    · refine ⟨f, List.mem_cons_of_mem _ ?_, hstate, hcrew⟩
      exact Activity.mem_subruns.mpr (.inl ⟨branch, ⟨entry, hmem⟩, hf⟩)

end Process

/-! ## Walks and the state of their runs -/

/-- A walk is one of a run or of a flow that is run in it, and this is the state of its run. -/
def Run.Has (f : Run) (state : RunState) (q : Process) : Prop :=
  ∃ g ∈ f.flows, g.state = state ∧ q ∈ g.root.crew

namespace Run

variable {run inner state : RunState} {serial : Nat} {walk : Walk} {activity : Activity}
  {p q : Process}

theorem has_self (f : Run) : f.Has f.state f.root :=
  ⟨f, List.mem_cons_self, rfl, f.root.mem_crew_self⟩

/-- A walk is the walk itself, or one in a branch of it, or one in the flow that its unit runs. -/
theorem Has.cases (h : Run.Has ⟨run, .mk serial walk activity⟩ state q) :
    q = .mk serial walk activity ∧ state = run ∨
      (∃ branch, activity.Branches branch ∧ Run.Has ⟨run, branch⟩ state q) ∨
      ∃ inner root, activity.Calls inner root ∧ Run.Has ⟨inner, root⟩ state q := by
  obtain ⟨g, hg, rfl, hq⟩ := h
  rcases List.mem_cons.mp hg with rfl | hg
  · rcases Process.mem_crew.mp hq with rfl | ⟨branch, hbranch, hq⟩
    · exact .inl ⟨rfl, rfl⟩
    · exact .inr (.inl ⟨branch, hbranch, ⟨run, branch⟩, List.mem_cons_self, rfl, hq⟩)
  · rcases Activity.mem_subruns.mp hg with ⟨branch, hbranch, hg⟩ | ⟨inner, root, hcalls, hg⟩
    · exact .inr (.inl ⟨branch, hbranch, g, List.mem_cons_of_mem _ hg, rfl, hq⟩)
    · exact .inr (.inr ⟨inner, root, hcalls, g, List.mem_cons.mpr hg, rfl, hq⟩)

/-- Where nothing runs below a walk, there is the walk alone. -/
theorem Has.alone (h : Run.Has ⟨run, .mk serial walk activity⟩ state q)
    (hnone : ∀ r, ¬ activity.Runs r) : q = .mk serial walk activity ∧ state = run := by
  rcases h.cases with hself | ⟨branch, hbranch, -⟩ | ⟨inner, root, hcalls, -⟩
  · exact hself
  · exact absurd hbranch.runs (hnone branch)
  · exact absurd hcalls.runs (hnone root)

theorem Has.has {f : Run} (h : f.Has state q) : f.root.Has q := by
  obtain ⟨g, hg, -, hq⟩ := h
  rcases List.mem_cons.mp hg with rfl | hg
  · exact Process.has_of_crew hq
  · obtain ⟨run, serial, walk, activity⟩ := f
    obtain ⟨r, hruns, hhas⟩ := Process.has_of_subruns hg hq
    exact .inside hruns hhas

theorem Has.of_branch (h : Run.Has ⟨run, p⟩ state q) (hbranch : activity.Branches p) :
    Run.Has ⟨run, .mk serial walk activity⟩ state q := by
  obtain ⟨g, hg, rfl, hq⟩ := h
  rcases List.mem_cons.mp hg with rfl | hg
  · exact ⟨_, List.mem_cons_self, rfl, Process.mem_crew.mpr (.inr ⟨p, hbranch, hq⟩)⟩
  · exact ⟨g, List.mem_cons_of_mem _ (Activity.mem_subruns.mpr (.inl ⟨p, hbranch, hg⟩)), rfl, hq⟩

theorem Has.of_calls (h : Run.Has ⟨inner, p⟩ state q) (hcalls : activity.Calls inner p) :
    Run.Has ⟨run, .mk serial walk activity⟩ state q := by
  obtain ⟨g, hg, rfl, hq⟩ := h
  exact ⟨g, List.mem_cons_of_mem _ (Activity.mem_subruns.mpr (.inr ⟨inner, p, hcalls,
    List.mem_cons.mp hg⟩)), rfl, hq⟩

/-- Every process of a run is in some run there. -/
theorem exists_has {run : RunState} (h : p.Has q) : ∃ state, Run.Has ⟨run, p⟩ state q := by
  induction h generalizing run with
  | self p => exact ⟨run, has_self _⟩
  | @inside serial walk activity b q hruns h ih =>
    rcases hruns.cases with hbranch | ⟨inner, hcalls⟩
    · exact ih.imp fun _ hin => hin.of_branch hbranch
    · exact ih.imp fun _ hin => hin.of_calls hcalls

/-- The runs of what runs in a run are in the run, but perhaps for their roots. -/
theorem Has.exists_flow {f g : Run} (h : f.Has state q) (hg : g ∈ Run.flows ⟨state, q⟩) :
    ∃ r ∈ f.flows, r.state = g.state := by
  obtain ⟨r, hr, rfl, hq⟩ := h
  rcases List.mem_cons.mp hg with rfl | hg
  · exact ⟨r, hr, rfl⟩
  · refine ⟨g, List.mem_cons_of_mem _ ?_, rfl⟩
    have hin := Process.subruns_of_crew hq hg
    rcases List.mem_cons.mp hr with rfl | hr
    · exact hin
    · exact Process.subruns_of_subruns hr hin

end Run

/-! ## Executors -/

namespace Executor

variable {x y : Executor} {m : Move} {f : Run}

theorem mem_flows : f ∈ x.flows ↔ ∃ run ∈ x.runs, f ∈ run.flows := List.mem_flatMap

theorem flows_build {config : Config} {registry : Registry} {listeners : Listeners}
    (h : build config registry listeners = .ok x) : x.flows = [] := by
  obtain rfl := eq_of_build h
  rfl

/-- A number is that of one process. -/
theorem Has.unique {q r : Process} (h : x.Has q) (h' : x.Has r) (hnumbered : x.ledger.Numbered)
    (heq : q.serial = r.serial) : q = r := by
  obtain ⟨run, hrun, hq⟩ := h
  obtain ⟨run', hrun', hr⟩ := h'
  obtain ⟨i, hi⟩ := List.getElem?_of_mem hrun
  obtain ⟨j, hj⟩ := List.getElem?_of_mem hrun'
  have hin := hq.serials_subset q.serial_mem_serials
  have hin' := hr.serials_subset r.serial_mem_serials
  rw [← heq] at hin'
  obtain rfl := index_eq_of_mem_serials hnumbered hi hj hin hin'
  cases hi.symm.trans hj
  exact hq.unique hr (nodup_of_mem hnumbered hrun) heq

/-- A process that is there after a move is at its start, or stems from before, perhaps with its
branches given up. -/
theorem stemsFrom {q : Process} (hmove : x.move m = some y) (hhas : y.Has q) :
    q.IsStart x.engine.nextSerial ∨ x.Has q ∨
      (∃ who site task p run run' e', m = .step who ∧ x.Has p ∧
        p.Moves who site task run x.engine q run' e') ∨
      ∃ p, x.Has p ∧ q = p.cancelTasks := by
  obtain ⟨own, hown, hhas⟩ := hhas
  cases comesBy hmove hown with
  | stays hrun => exact .inr (.inl ⟨own, hrun, hhas⟩)
  | @moves who _ run _ _ _ heq hrun hmoves =>
    have hin : ∀ p, run.root.Has p → x.Has p := fun p hp => ⟨run, List.mem_of_getElem? hrun, hp⟩
    rcases hmoves.stemsFrom hhas with hstart | hold | ⟨site, task, p, state, state', e', hp, hmoved⟩
    · exact .inl hstart
    · exact .inr (.inl (hin q hold))
    · exact .inr (.inr (.inl ⟨who, site, task, p, state, state', e', heq, hin p hp, hmoved⟩))
  | launched hlaunched =>
    have hstart : own.root.IsStart x.engine.nextSerial := hlaunched.atStart.root
    rw [hstart.has hhas]
    exact .inl hstart
  | @givesUp run hrun =>
    obtain ⟨p, hin, rfl⟩ := Process.has_cancelTasks hhas
    exact .inr (.inr (.inr ⟨p, ⟨run, hrun, hin⟩, rfl⟩))

/-- A process that is there after a move comes from before, perhaps with its branches given up. -/
theorem comesFrom {q : Process} (hmove : x.move m = some y) (hhas : y.Has q) :
    (∃ who, m = .step who ∧ q.ComesFrom who x.engine x.Has) ∨ x.engine.nextSerial ≤ q.serial ∨
      x.Has q ∨ ∃ p, x.Has p ∧ q = p.cancelTasks := by
  rcases stemsFrom hmove hhas with hstart | hin | ⟨who, site, task, p, run, run', e', heq, hp, hmoved⟩ |
    hgivesUp
  · exact .inr (.inl (Nat.le_of_eq hstart.serial.symm))
  · exact .inr (.inr (.inl hin))
  · exact .inl ⟨who, heq, .inr (.inr ⟨site, task, p, run, run', e', hp, hmoved⟩)⟩
  · exact .inr (.inr (.inr hgivesUp))

/-- The roots of the runs of an executor are among its processes. -/
theorem has_root (hf : f ∈ x.flows) : x.Has f.root := by
  obtain ⟨⟨state, serial, walk, activity⟩, hrun, hf⟩ := mem_flows.mp hf
  refine ⟨_, hrun, ?_⟩
  rcases List.mem_cons.mp hf with rfl | hf
  · exact .self _
  · obtain ⟨r, hruns, hhas⟩ := Process.has_of_subruns hf (Process.mem_crew_self _)
    exact .inside hruns hhas

/-- The runs of an executor after a move: they were there before, or are at their start, or the task
that moves has moved in them, or they have given up their branches. -/
theorem flow_cases (hmove : x.move m = some y) (hflow : f ∈ y.flows) :
    f ∈ x.flows ∨ f.AtStart x.engine.nextSerial ∨
      (∃ who, m = .step who ∧ ∃ g ∈ x.flows, ∃ (site : Site) (task : Nat) (e : Engine) (i depth : Nat),
        g.root.Moves who site task g.state x.engine f.root f.state e ∧
        x.At i who { site with depth := depth }) ∨
      ∃ g ∈ x.flows, f = ⟨g.state, g.root.cancelTasks⟩ := by
  obtain ⟨own, hown, hf⟩ := mem_flows.mp hflow
  cases comesBy hmove hown with
  | stays hrun => exact .inl (mem_flows.mpr ⟨own, hrun, hf⟩)
  | @moves who i run site state root heq hrun hmoves =>
    have hat : x.At i who site := ⟨run, hrun, hmoves.at.1⟩
    have hrun := List.mem_of_getElem? hrun
    rcases List.mem_cons.mp hf with rfl | hf
    · exact .inr (.inr (.inl ⟨who, heq, run, mem_flows.mpr ⟨run, hrun, List.mem_cons_self⟩, site, _,
        _, _, site.depth, hmoves, hat⟩))
    · rcases hmoves.subruns_cases hf with hold | hstart | ⟨g, hg, inner, task, e₁, hmoves, -, hsite⟩
      · exact .inl (mem_flows.mpr ⟨run, hrun, List.mem_cons_of_mem _ hold⟩)
      · exact .inr (.inl hstart.1)
      · rw [hsite] at hat
        exact .inr (.inr (.inl ⟨who, heq, g, mem_flows.mpr ⟨run, hrun, List.mem_cons_of_mem _ hg⟩,
          inner, task, e₁, _, _, hmoves, hat⟩))
  | launched hlaunched =>
    rcases List.mem_cons.mp hf with rfl | hf
    · exact .inr (.inl hlaunched.atStart)
    · cases hlaunched <;> cases hf
  | @givesUp run hrun =>
    rcases List.mem_cons.mp hf with rfl | hf
    · exact .inr (.inr (.inr ⟨run, mem_flows.mpr ⟨run, hrun, List.mem_cons_self⟩, rfl⟩))
    · obtain ⟨g, hg, rfl⟩ := Process.subruns_cancelTasks hf
      exact .inr (.inr (.inr ⟨g, mem_flows.mpr ⟨run, hrun, List.mem_cons_of_mem _ hg⟩, rfl⟩))

/-- What holds where nothing has been signalled yet, and as long as nothing is signalled that the law
does not allow, holds in all runs. -/
theorem gains_move {law : Law} {P : RunState → Prop}
    (hgains : ∀ s s' : Scene, s.Gains law s' → P s.run → P s'.run)
    (hstart : ∀ state : RunState, state.scope = ∅ → P state) (hfits : x.Fits)
    (habides : x.Abides law) (hmove : x.move m = some y) (h : ∀ f ∈ x.flows, P f.state) :
    ∀ f ∈ y.flows, P f.state := by
  intro f hf
  rcases flow_cases hmove hf with hold | hnew |
    ⟨who, rfl, g, hg, site, task, e, i, depth, hmoves, -⟩ | ⟨g, hg, rfl⟩
  · exact h f hold
  · exact hstart _ hnew.scope
  · obtain ⟨run, hrun, hhas⟩ := has_root hg
    exact hmoves.gains hgains ((hfits run hrun).of_has hhas) ((habides.runs run hrun).of_has hhas)
      habides.engine (h g hg)
  · exact h g hg

end Executor

end Workflow
