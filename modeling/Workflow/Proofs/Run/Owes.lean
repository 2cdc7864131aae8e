import Workflow.Process
import Workflow.Proofs.Plan.WellFormed
import Workflow.Proofs.Run.Decisions

/-!
# What a process owes

`Process.Owes c scope bound p debt` is the invariant of a process whose units keep their contract:
whatever the tree of walks has yet to do, it is what `debt` says. A debt is a node that is being
walked, what may still be executed of it, and a bound on the steps that walks still make for it. A
fork owes what its branches owe, interleaved in any way, and then what is behind the group.

The invariant reads nothing of the scope but the slots of the units of the node
(`Process.Owes.congr`), so that branches that run at the same time do not disturb each other.

`Process.owes_ofPlan` is where the invariant begins: a process at the start of the plan of a node
owes all of the node.
-/

namespace Workflow

/-! ## Debts -/

/-- What is left to do of a node. -/
structure Debt where
  node : Node
  /-- What may still be executed, in order. -/
  runs : List String → Prop
  effort : Nat

namespace Debt

/-- What is left after some units were executed. -/
def pay (debt : Debt) (emitted : List String) (effort : Nat) : Debt :=
  ⟨debt.node, fun run => debt.runs (emitted ++ run), effort⟩

def whole (label : String → Option Label) (node : Node) (effort : Nat) : Debt :=
  ⟨node, node.Trace label, effort⟩

/-- The steps that walks still make for several nodes. -/
def effortOf : List Debt → Nat
  | [] => 0
  | debt :: rest => debt.effort + effortOf rest

/-- All of a branch that has yet to be started. -/
def branch (label : String → Option Label) (node : Node) : Debt :=
  whole label node (node.effort + 2 * node.width + 2)

end Debt

/-! ## Units being executed -/

/-- A walk is at a unit that has yet to add `own` to the executed units, and everything behind it is
left to do. `pace` is the effort for the unit itself. -/
def Walk.Due (c : Contract) (w : Walk) (debt : Debt) (u : String) (own : List String) (pace : Nat) :
    Prop :=
  ∃ arms rest, w.Facing c debt.node (.unit u) arms w.position rest ∧
    (∀ run, c.Behind (.unit u) arms rest run → debt.runs (own ++ run)) ∧
    w.effortBehind arms rest (w.position + 1) + pace ≤ debt.effort

/-- The unit goes on, and may be counted as executed by that. -/
theorem Walk.Due.pay {c : Contract} {w : Walk} {debt : Debt} {u : String}
    (emitted own : List String) {pace pace' : Nat} (h : w.Due c debt u (emitted ++ own) pace)
    (hpace : pace' < pace) :
    ∃ less, less < debt.effort ∧ w.Due c (debt.pay emitted less) u own pace' := by
  obtain ⟨arms, rest, hfacing, hruns, heffort⟩ := h
  refine ⟨w.effortBehind arms rest (w.position + 1) + pace', by omega, arms, rest, hfacing, ?_,
    Nat.le_refl _⟩
  intro run hrun
  have hall := hruns run hrun
  rwa [List.append_assoc] at hall

namespace Stage

/-- What a unit in this stage has yet to add to the executed units. -/
def own (u : String) : Stage → List String
  | .before => [u]
  | .run | .after | .onError _ => []

/-- The effort for the rest of the unit. -/
def pace : Stage → Nat
  | .before => 4
  | .run => 3
  | .after => 2
  | .onError _ => 0

/-- How the slots of the unit are at the end of the call, for the unit to keep its contract. -/
def Good (c : Contract) (unit : FlowUnit) (u : String) : Stage → Slots → Prop
  | .before => FlowUnit.EndsRun c unit u
  | .run => FlowUnit.EndsAfter c unit u
  | .after => Slots.Hold (c.label u)
  | .onError _ => fun _ => False

end Stage

/-- The call that a unit is making keeps the contract. -/
structure Job.Serves (c : Contract) (scope : Scope) (w : Walk) (debt : Debt) (job : Job)
    (rest : Behavior) : Prop where
  resume : job.resume = .unit
  name : job.unit.name = job.unitId
  due : w.Due c debt job.unitId (job.stage.own job.unitId) job.stage.pace
  ends : rest.EndsWith c.kept job.unitId (job.stage.Good c job.unit job.unitId)
    (scope.slots job.unitId)

/-! ## Forks -/

/-- A walk waits for branches, and when nothing is left to do of them, everything behind their group
is. -/
def Walk.Joining (c : Contract) (w : Walk) (debt : Debt) (parts : List Debt) (resume : Resume) :
    Prop :=
  ∃ arms start rest, resume = .group (start + Node.widthOf (parts.map Debt.node)) ∧
    w.Facing c debt.node (.parallel (parts.map Debt.node)) arms start rest ∧
    (∀ firsts first, List.Forall₂ Debt.runs parts firsts → Interleaves firsts first →
      ∀ second, c.Behind (.parallel (parts.map Debt.node)) arms rest second →
        debt.runs (first ++ second)) ∧
    Debt.effortOf parts +
      w.effortBehind arms rest (start + Node.widthOf (parts.map Debt.node)) + 2 ≤ debt.effort

mutual

/-- A process owes a debt, and nothing else. -/
def Process.Owes (c : Contract) (scope : Scope) (bound : Nat) : Process → Debt → Prop
  | .mk serial walk activity, debt =>
    serial < bound ∧ walk.Follows c debt.node ∧ activity.Owes c scope bound serial walk debt

def Activity.Owes (c : Contract) (scope : Scope) (bound serial : Nat) (walk : Walk) :
    Activity → Debt → Prop
  | .poised next, debt => next.Serves c scope walk debt.node debt.runs debt.effort
  | .queued u unit resume, debt => resume = .unit ∧ unit.Obeys c u ∧ walk.Due c debt u [u] 5
  | .working job rest, debt | .asleep job _ rest, debt => job.Serves c scope walk debt rest
  | .calling .., _ | .inPlace .., _ => False
  | .forking _ resume toStart children _, debt => ∃ started waiting,
    Child.OweAll c scope bound serial children started ∧
      List.Forall₂ Branch.Runs toStart waiting ∧
      walk.Joining c debt (started ++ waiting.map (Debt.branch c.label)) resume

def Child.OweAll (c : Contract) (scope : Scope) (bound above : Nat) : List Child → List Debt → Prop
  | [], debts => debts = []
  | child :: rest, debts => ∃ debt others, debts = debt :: others ∧
    child.Owes c scope bound above debt ∧ Child.OweAll c scope bound above rest others

/-- A branch of a fork owes a debt. When it has ended, nothing of the debt is left, and the label of
its last unit is there. -/
def Child.Owes (c : Contract) (scope : Scope) (bound above : Nat) : Child → Debt → Prop
  | .running _ process, debt =>
    process.isFinished = false ∧ above < process.serial ∧ process.Owes c scope bound debt
  | .ended _ failure, debt =>
    failure = none ∧ debt.runs [] ∧ (debt.node.EndsPlainly → c.Signed scope debt.node)
  | .refused _, _ | .cancelled _, _ => False

end

/-! ## The same debt in other scopes -/

section Congr

variable {c : Contract} {scope scope' : Scope} {bound bound' : Nat}

theorem Contract.Signed.congr {node : Node} (h : c.Signed scope node)
    (hslots : ∀ v ∈ node.leaves, scope'.slots v = scope.slots v) : c.Signed scope' node := by
  intro u hu
  rw [hslots u (List.mem_of_getLast? hu)]
  exact h u hu

theorem Intent.Serves.congr {w : Walk} {node : Node} {runs : List String → Prop} {effort : Nat}
    {next : Intent} (h : next.Serves c scope w node runs effort)
    (hslots : ∀ v ∈ node.leaves, scope'.slots v = scope.slots v) :
    next.Serves c scope' w node runs effort := by
  cases next with
  | advance =>
    obtain ⟨todo, hahead, hclear, hleads, hserves⟩ := h
    refine ⟨todo, hahead, hclear, fun hends => ?_, hserves⟩
    rcases hleads hends with ⟨hnil, hsigned⟩ | hlast
    · exact .inl ⟨hnil, hsigned.congr hslots⟩
    · exact .inr hlast
  | execute | fork => exact h
  | finish => exact ⟨h.1, fun hends => (h.2 hends).congr hslots⟩

/-- The unit that a walk is at is one of its node. -/
theorem Walk.Due.mem_leaves {w : Walk} {debt : Debt} {u : String} {own : List String} {pace : Nat}
    (h : w.Due c debt u own pace) (hfollows : w.Follows c debt.node) : u ∈ debt.node.leaves := by
  obtain ⟨arms, rest, ⟨⟨stop, hwork, -⟩, -⟩, -⟩ := h
  exact hfollows.mem_leaves hwork rfl

/-- The units of a group that a walk is at are among those of its node. -/
theorem Walk.Facing.sublist {w : Walk} {node : Node} {nodes : List Node} {arms : Node.Arms}
    {start : Nat} {rest : List Node} (h : w.Facing c node (.parallel nodes) arms start rest)
    (hfollows : w.Follows c node) : (Node.leavesOf nodes).Sublist node.leaves := by
  obtain ⟨⟨stop, hwork, -⟩, -⟩ := h
  rw [← hfollows.sequence]
  exact hwork.reads.sublist.trans (List.drop_sublist _ _)

theorem Walk.Joining.sublist {w : Walk} {debt : Debt} {parts : List Debt} {resume : Resume}
    (h : w.Joining c debt parts resume) (hfollows : w.Follows c debt.node) :
    (Node.leavesOf (parts.map Debt.node)).Sublist debt.node.leaves := by
  obtain ⟨arms, start, rest, -, hfacing, -⟩ := h
  exact hfacing.sublist hfollows

theorem mem_leavesOf_append {before after : List Debt} {v : String}
    (h : v ∈ Node.leavesOf (before.map Debt.node)) :
    v ∈ Node.leavesOf ((before ++ after).map Debt.node) := by
  rw [Node.leavesOf_eq_flatMap] at h ⊢
  rw [List.map_append, List.flatMap_append]
  exact List.mem_append_left _ h

mutual

/-- A process still owes the same when the slots of its units are the same. -/
theorem Process.Owes.congr {p : Process} {debt : Debt} (h : p.Owes c scope bound debt)
    (hslots : ∀ v ∈ debt.node.leaves, scope'.slots v = scope.slots v) (hbound : bound ≤ bound') :
    p.Owes c scope' bound' debt := by
  obtain ⟨serial, walk, activity⟩ := p
  obtain ⟨hserial, hfollows, hactivity⟩ := h
  exact ⟨Nat.lt_of_lt_of_le hserial hbound, hfollows, hactivity.congr hfollows hslots hbound⟩

theorem Activity.Owes.congr {activity : Activity} {serial : Nat} {walk : Walk} {debt : Debt}
    (h : activity.Owes c scope bound serial walk debt) (hfollows : walk.Follows c debt.node)
    (hslots : ∀ v ∈ debt.node.leaves, scope'.slots v = scope.slots v) (hbound : bound ≤ bound') :
    activity.Owes c scope' bound' serial walk debt := by
  cases activity with
  -- only at its end does a walk look at labels that were left before
  | poised next => exact Intent.Serves.congr h hslots
  | queued u unit resume => exact h
  | working job rest | asleep job _ rest =>
    -- the unit of the job is one of the node, so its slots are the same, too
    have hends := Job.Serves.ends h
    rw [← hslots _ (h.due.mem_leaves hfollows)] at hends
    exact ⟨h.resume, h.name, h.due, hends⟩
  | calling | inPlace => exact h.elim
  | forking anchor resume toStart children completed =>
    obtain ⟨started, waiting, hchildren, hruns, hjoining⟩ := h
    have hsublist := hjoining.sublist hfollows
    refine ⟨started, waiting, hchildren.congr (fun v hv => hslots v ?_) hbound, hruns, hjoining⟩
    exact hsublist.subset (mem_leavesOf_append hv)

theorem Child.OweAll.congr {children : List Child} {above : Nat} {debts : List Debt}
    (h : Child.OweAll c scope bound above children debts)
    (hslots : ∀ v ∈ Node.leavesOf (debts.map Debt.node), scope'.slots v = scope.slots v)
    (hbound : bound ≤ bound') : Child.OweAll c scope' bound' above children debts := by
  cases children with
  | nil => exact h
  | cons child rest =>
    obtain ⟨debt, others, rfl, hchild, hrest⟩ := h
    refine ⟨debt, others, rfl, hchild.congr (fun v hv => hslots v ?_) hbound,
      hrest.congr (fun v hv => hslots v ?_) hbound⟩
    · exact List.mem_append_left _ hv
    · exact List.mem_append_right _ hv

theorem Child.Owes.congr {child : Child} {above : Nat} {debt : Debt}
    (h : child.Owes c scope bound above debt)
    (hslots : ∀ v ∈ debt.node.leaves, scope'.slots v = scope.slots v) (hbound : bound ≤ bound') :
    child.Owes c scope' bound' above debt := by
  cases child with
  | running entry process => exact ⟨h.1, h.2.1, h.2.2.congr hslots hbound⟩
  | ended entry failure => exact ⟨h.1, h.2.1, fun hends => (h.2.2 hends).congr hslots⟩
  | refused | cancelled => exact h.elim

end

end Congr

/-! ## The start of a plan -/

/-- A process at the start of the plan of a node owes all of the node. -/
theorem Process.owes_ofPlan {c : Contract} {scope : Scope} {bound serial : Nat} {node : Node}
    {plan : Plan} (hclosable : node.Closable none) (hplan : node.compile? = some plan)
    (hnodup : node.leaves.Nodup) (hkept : ∀ u ∈ node.leaves, u ∈ c.kept)
    (hplain : ∀ u ∈ node.leaves, Label.ofText? u = none) (hserial : serial < bound)
    (pooled : Bool) :
    (Process.ofPlan serial plan pooled).Owes c scope bound
      (.whole c.label node (node.effort + 2 * node.width + 1)) := by
  obtain ⟨p, hcompile, hsequence, hapart, hsegment⟩ :=
    hclosable.normal.exists_segment hclosable.routes
  cases hcompile.symm.trans hplan
  have hlength : plan.length = node.width := by rw [Plan.length, hsequence, Node.width]
  have hreads : plan.Reads 0 node.leaves := ⟨[], by rw [hsequence]; simp⟩
  have hstop : plan.Ahead [] (0 + node.width) [] := by
    rw [Nat.zero_add, ← hlength]
    exact .done
  have hahead : plan.Ahead [] 0 (node.todo none ++ []) :=
    Plan.ahead_of_segment hclosable.normal 0 none _ [] hclosable hreads hsegment
      (fun _ _ _ => rfl) rfl hstop
  rw [List.append_nil] at hahead
  have heffort := Node.effortOf_todo hclosable.normal none hclosable
  rw [Node.effortOfArms, Nat.add_zero] at heffort
  refine ⟨hserial, ⟨hclosable, hsequence, hapart, hnodup, hkept, hplain, rfl, rfl, rfl⟩,
    node.todo none, hahead, hapart.clear_zero, ?_, ?_, ?_⟩
  -- all of the node is ahead, and nothing of it is done
  · exact fun hends => .inr (Node.exists_last_todo hclosable.normal hends)
  · exact fun run hrun => Node.trace_of_todo hclosable.normal none run hclosable hrun
  · show _ + 2 * (plan.length - 0) + 1 ≤ node.effort + 2 * node.width + 1
    rw [heffort, hlength]
    omega

/-! ## Parts of a fork -/

namespace Debt

variable {label : String → Option Label}

@[simp] theorem node_pay (debt : Debt) (emitted : List String) (effort : Nat) :
    (debt.pay emitted effort).node = debt.node := rfl

theorem map_node_branch (nodes : List Node) :
    (nodes.map (branch label)).map Debt.node = nodes := by
  rw [List.map_map]
  exact List.map_id nodes

theorem effortOf_append (debts more : List Debt) :
    effortOf (debts ++ more) = effortOf debts + effortOf more := by
  induction debts with
  | nil => simp [effortOf]
  | cons debt rest ih =>
    rw [List.cons_append, effortOf, effortOf, ih]
    omega

theorem effortOf_branch (nodes : List Node) :
    effortOf (nodes.map (branch label)) = Node.effortOfBranches nodes := by
  induction nodes with
  | nil => rfl
  | cons node rest ih =>
    rw [List.map_cons, effortOf, ih]
    rfl

/-- What is left of branches none of which has been started are their traces. -/
theorem traceEach_of_forall₂ {nodes : List Node} {runs : List (List String)}
    (h : List.Forall₂ Debt.runs (nodes.map (branch label)) runs) :
    Node.TraceEach label nodes runs := by
  induction nodes generalizing runs with
  | nil =>
    cases h
    rfl
  | cons node rest ih =>
    cases h with
    | cons hfirst hrest => exact ⟨_, _, hfirst, ih hrest, rfl⟩

end Debt

/-! ## Steps of a fork -/

namespace Walk.Joining

variable {c : Contract} {w : Walk} {debt : Debt} {resume : Resume}

/-- The walk goes on when nothing is left to do of the parts. -/
theorem of_fork {nodes : List Node} {arms : Node.Arms} {start : Nat} {rest : List Node}
    (hfacing : w.Facing c debt.node (.parallel nodes) arms start rest)
    (hruns : ∀ first, (Node.parallel nodes).Trace c.label first →
      ∀ second, c.Behind (.parallel nodes) arms rest second → debt.runs (first ++ second))
    (heffort : Node.effortOfBranches nodes +
      w.effortBehind arms rest (start + Node.widthOf nodes) + 2 ≤ debt.effort) :
    w.Joining c debt (nodes.map (Debt.branch c.label)) (.group (start + Node.widthOf nodes)) := by
  unfold Walk.Joining
  rw [Debt.map_node_branch, Debt.effortOf_branch]
  refine ⟨arms, start, rest, rfl, hfacing, ?_, heffort⟩
  intro firsts first hfirsts hfirst second hsecond
  exact hruns first ⟨firsts, Debt.traceEach_of_forall₂ hfirsts, hfirst⟩ second hsecond

/-- What is paid of one part is paid of the whole. -/
theorem pay {before after : List Debt} {part : Debt}
    (h : w.Joining c debt (before ++ part :: after) resume) (emitted : List String) (less : Nat) :
    part.effort ≤ debt.effort ∧
      w.Joining c (debt.pay emitted (debt.effort - part.effort + less))
        (before ++ part.pay emitted less :: after) resume := by
  obtain ⟨arms, start, rest, hresume, hfacing, hruns, heffort⟩ := h
  have hnodes : (before ++ part.pay emitted less :: after).map Debt.node =
      (before ++ part :: after).map Debt.node := by
    rw [List.map_append, List.map_append, List.map_cons, List.map_cons]
    rfl
  rw [Debt.effortOf_append, Debt.effortOf] at heffort
  refine ⟨by omega, ?_⟩
  unfold Walk.Joining
  rw [hnodes]
  refine ⟨arms, start, rest, hresume, hfacing, ?_, ?_⟩
  · intro firsts first hfirsts hfirst second hsecond
    -- what the part still executes stands behind what it has just executed
    obtain ⟨early, own, later, rfl, hearly, hown, hlater⟩ := forall₂_append_cons hfirsts
    have hall : List.Forall₂ Debt.runs (before ++ part :: after)
        (early ++ (emitted ++ own) :: later) := List.rel_append hearly (.cons hown hlater)
    have hrun := hruns _ _ hall (hfirst.prepend emitted) second hsecond
    rwa [List.append_assoc] at hrun
  · rw [Debt.effortOf_append, Debt.effortOf]
    show _ + (less + _) + _ + 2 ≤ debt.effort - part.effort + less
    omega

end Walk.Joining

end Workflow
