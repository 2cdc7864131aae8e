import Workflow.Proofs.Run.Ahead
import Workflow.Proofs.Run.Signals

/-!
# The decisions of a walk that nothing disturbs

A walk *follows* a node (`Walk.Follows`) when it walks the plan of that node, nothing has failed,
and no unit ran out of order. `Intent.Serves` says what an intent of such a walk promises: which
steps lie ahead, that every way through them is among the given `runs`, and that a bound on the
steps that the walk itself still makes is kept.

Every decision of the walk keeps its promise with a smaller bound:

* `Follows.advance` at its position,
* `Follows.ownUnitDone` after the unit at its position has left its label,
* `Follows.groupDone` after a group has joined.

The last two both end in `Follows.steer`, where the label of the last unit picks an arm.
-/

namespace Workflow

/-! ## Effort -/

namespace Node

mutual

/-- A bound on the steps that walks make for a node, besides those of units. -/
def effort : Node → Nat
  | .unit _ => 6
  | .sequence steps => effortOf steps
  | .conditional condition whenTrue whenFalse =>
    condition.effort + whenTrue.effort + whenFalse.effort
  | .parallel branches => effortOfBranches branches + 3

def effortOf : List Node → Nat
  | [] => 0
  | node :: rest => node.effort + effortOf rest

/-- The effort for branches, each of which is walked in a plan of its own. -/
def effortOfBranches : List Node → Nat
  | [] => 0
  | node :: rest => node.effort + 2 * node.width + 2 + effortOfBranches rest

end

def effortOfArms : Arms → Nat
  | none => 0
  | some (whenTrue, whenFalse) => whenTrue.effort + whenFalse.effort

theorem effortOf_append (nodes more : List Node) :
    effortOf (nodes ++ more) = effortOf nodes + effortOf more := by
  induction nodes with
  | nil => simp [effortOf]
  | cons node rest ih =>
    rw [List.cons_append, effortOf, effortOf, ih]
    omega

theorem effort_close (node : Node) (arms : Arms) :
    (close node arms).effort = node.effort + effortOfArms arms := by
  rcases arms with _ | ⟨t, f⟩
  · rfl
  · simp only [close, effort, effortOfArms]
    omega

theorem effortOf_todoAll {nodes : List Node} {arms : Arms} (hne : nodes ≠ [])
    (h : ∀ node ∈ nodes, ∀ arms, node.Closable arms →
      effortOf (node.todo arms) = node.effort + effortOfArms arms)
    (hclosable : AllClosable nodes arms) :
    effortOf (todoAll nodes arms) = effortOf nodes + effortOfArms arms := by
  induction nodes with
  | nil => exact absurd rfl hne
  | cons node rest ih =>
    cases rest with
    | nil => rw [todoAll, h node (by simp) arms hclosable.single, effortOf, effortOf, Nat.add_zero]
    | cons next rest =>
      have hnode := h node (by simp) none hclosable.head
      have hlater := ih (by simp) (fun n hn => h n (by simp [hn])) hclosable.tail
      rw [effortOfArms, Nat.add_zero] at hnode
      rw [todoAll, effortOf_append, hnode, hlater]
      show _ = node.effort + effortOf (next :: rest) + effortOfArms arms
      omega

/-- Taking a node apart into steps changes nothing in the effort. -/
theorem effortOf_todo {node : Node} (h : node.IsNormal) :
    ∀ arms, node.Closable arms → effortOf (node.todo arms) = node.effort + effortOfArms arms := by
  induction h with
  | unit | parallel =>
    intro arms _
    rw [todo, effortOf, effortOf, effort_close, Nat.add_zero]
  | @sequence steps htwo _ _ ih =>
    exact fun arms hclosable =>
      effortOf_todoAll (List.ne_nil_of_length_pos (by omega)) ih hclosable.steps
  | @conditional c t f _ _ _ ih _ _ =>
    intro arms hclosable
    cases hclosable.arms_eq_none
    rw [todo, ih _ hclosable.parts.1]
    simp only [effort, effortOfArms]
    omega

end Node

/-! ## The end of a node -/

/-- The last unit of a node has left its label. -/
def Contract.Signed (c : Contract) (scope : Scope) (node : Node) : Prop :=
  ∀ u, node.leaves.getLast? = some u → (scope.slots u).target = (c.label u).map Label.text

/-- If a node ends plainly, then either all is done and the label is left, or its last unit is that
of the last step to do. -/
def Contract.Leads (c : Contract) (scope : Scope) (node : Node) (todo : List Node) : Prop :=
  node.EndsPlainly → (todo = [] ∧ c.Signed scope node) ∨
    ∃ earlier last, todo = earlier ++ [last] ∧ last.EndsPlainly ∧
      last.leaves.getLast? = node.leaves.getLast?

namespace Node

/-- The steps to do after a unit or a group, when its label has picked an arm. -/
def after (label : String → Option Label) (work : Node) (arms : Arms) (rest : List Node) :
    List Node :=
  (picked label work arms).flatMap (fun arm => arm.todo none) ++ rest

theorem after_some (label : String → Option Label) (work whenTrue whenFalse : Node)
    (rest : List Node) :
    after label work (some (whenTrue, whenFalse)) rest =
      (Plan.armFor (work.lastLabel label) whenTrue whenFalse).todo none ++ rest := by
  simp [after, picked, Plan.armFor]

/-- What the steps to do may execute, the picked arm and the other steps may execute. -/
theorem trace_of_after {label : String → Option Label} {work : Node} {arms : Arms}
    {rest : List Node} {run : List String}
    (harms : ∀ arm ∈ picked label work arms, arm.Closable none)
    (h : (sequence (after label work arms rest)).Trace label run) :
    (sequence (picked label work arms ++ rest)).Trace label run := by
  rcases arms with _ | ⟨whenTrue, whenFalse⟩
  · exact h
  · rw [after_some] at h
    obtain ⟨first, second, hfirst, hsecond, rfl⟩ := trace_sequence_append.mp h
    have harm := harms _ (by rw [picked]; exact List.mem_singleton_self _)
    have htrace := trace_of_todo harm.normal none first harm hfirst
    exact trace_sequence_cons.mpr ⟨first, second, htrace, hsecond, rfl⟩

end Node

namespace Plan

variable {p : Plan} {skipped : List Span} {start stop : Nat} {work : Node} {arms : Node.Arms}
  {rest : List Node}

theorem WorkAt.picked_closable (h : p.WorkAt skipped work arms start stop)
    (label : String → Option Label) :
    ∀ arm ∈ Node.picked label work arms, arm.Closable none := by
  rcases arms with _ | ⟨whenTrue, whenFalse⟩
  · simp [Node.picked]
  · obtain ⟨-, ht, hf, -⟩ := h.arms
    intro arm harm
    rw [List.mem_singleton.mp harm]
    split
    · exact ht
    · exact hf

theorem WorkAt.effortOf_after (h : p.WorkAt skipped work arms start stop)
    (label : String → Option Label) :
    Node.effortOf (Node.after label work arms rest) ≤
      Node.effortOfArms arms + Node.effortOf rest := by
  rcases arms with _ | ⟨whenTrue, whenFalse⟩
  · exact Nat.le_add_left _ _
  · obtain ⟨-, ht, hf, -⟩ := h.arms
    rw [Node.after_some, Node.effortOf_append, Node.effortOfArms]
    unfold armFor
    split
    · rw [Node.effortOf_todo ht.normal none ht, Node.effortOfArms]
      omega
    · rw [Node.effortOf_todo hf.normal none hf, Node.effortOfArms]
      omega

end Plan

/-- What leads to the end of a node before a unit or a group leads there after it. -/
theorem Contract.Leads.after {c : Contract} {scope scope' : Scope} {node work : Node}
    {arms : Node.Arms} {rest : List Node}
    (h : c.Leads scope node (work.close arms :: rest))
    (hsigned : arms = none → work.EndsPlainly → c.Signed scope' work) :
    c.Leads scope' node (Node.after c.label work arms rest) := by
  intro hends
  rcases h hends with ⟨hnil, -⟩ | ⟨earlier, last, htodo, hlast, hleaf⟩
  · cases hnil
  · cases earlier with
    | nil =>
      obtain ⟨rfl, rfl⟩ := List.cons.inj htodo
      rcases arms with _ | pair
      · refine .inl ⟨rfl, fun u hu => hsigned rfl hlast u ?_⟩
        rw [← hu, ← hleaf]
        rfl
      · -- a step with arms behind it does not end plainly
        exact hlast.elim
    | cons first earlier =>
      obtain ⟨-, rfl⟩ := List.cons.inj htodo
      refine .inr ⟨(Node.picked c.label work arms).flatMap (fun arm => arm.todo none) ++ earlier,
        last, ?_, hlast, hleaf⟩
      rw [Node.after, List.append_assoc]
      rfl

/-! ## Walks and their intents -/

/-- A walk walks the plan of a node, and so far nothing but that has happened. -/
structure Walk.Follows (c : Contract) (w : Walk) (node : Node) : Prop where
  closable : node.Closable none
  sequence : w.plan.sequence = node.leaves
  apart : w.plan.AnchorsApart
  nodup : node.leaves.Nodup
  kept : ∀ u ∈ node.leaves, u ∈ c.kept
  plain : ∀ u ∈ node.leaves, Label.ofText? u = none
  early : w.early = ∅
  failure : w.failure = none
  stopped : w.stopped = false

/-- Positions do not matter for what a walk follows, and neither do skipped spans. -/
theorem Walk.Follows.of_eq {c : Contract} {w w' : Walk} {node : Node} (h : w.Follows c node)
    (hplan : w'.plan = w.plan) (hearly : w'.early = w.early) (hfailure : w'.failure = w.failure)
    (hstopped : w'.stopped = w.stopped) : w'.Follows c node where
  closable := h.closable
  sequence := by rw [hplan]; exact h.sequence
  apart := by rw [hplan]; exact h.apart
  nodup := h.nodup
  kept := h.kept
  plain := h.plain
  early := hearly.trans h.early
  failure := hfailure.trans h.failure
  stopped := hstopped.trans h.stopped

/-- A walk is at a unit or a group, with these arms and these steps behind it. -/
structure Walk.Facing (c : Contract) (w : Walk) (node work : Node) (arms : Node.Arms) (start : Nat)
    (rest : List Node) : Prop where
  stands : ∃ stop, w.plan.WorkAt w.skipped work arms start stop ∧ w.plan.Ahead w.skipped stop rest
  leads : ∀ scope, c.Leads scope node (work.close arms :: rest)

/-- What may be executed behind a unit or a group. -/
def Contract.Behind (c : Contract) (work : Node) (arms : Node.Arms) (rest : List Node)
    (run : List String) : Prop :=
  (Node.sequence (Node.picked c.label work arms ++ rest)).Trace c.label run

/-- The effort for what is behind a unit or a group that ends before a position. -/
def Walk.effortBehind (w : Walk) (arms : Node.Arms) (rest : List Node) (position : Nat) : Nat :=
  Node.effortOfArms arms + Node.effortOf rest + 2 * (w.plan.length - position)

/-- What an intent of a walk promises: whatever will be executed is one of `runs`, and `effort` is a
bound on the steps of the walk. -/
def Intent.Serves (c : Contract) (scope : Scope) (w : Walk) (node : Node)
    (runs : List String → Prop) (effort : Nat) : Intent → Prop
  | .advance => ∃ todo, w.plan.Ahead w.skipped w.position todo ∧ w.plan.Clear w.position ∧
    c.Leads scope node todo ∧ (∀ run, (Node.sequence todo).Trace c.label run → runs run) ∧
    Node.effortOf todo + 2 * (w.plan.length - w.position) + 1 ≤ effort
  | .execute u resume => resume = .unit ∧ ∃ arms rest,
    w.Facing c node (.unit u) arms w.position rest ∧
    (∀ run, c.Behind (.unit u) arms rest run → runs (u :: run)) ∧
    w.effortBehind arms rest (w.position + 1) + 6 ≤ effort
  | .fork _ branches resume => ∃ nodes arms start rest,
    resume = .group (start + Node.widthOf nodes) ∧ List.Forall₂ Branch.Runs branches nodes ∧
    w.Facing c node (.parallel nodes) arms start rest ∧
    (∀ first, (Node.parallel nodes).Trace c.label first →
      ∀ second, c.Behind (.parallel nodes) arms rest second → runs (first ++ second)) ∧
    Node.effortOfBranches nodes + w.effortBehind arms rest (start + Node.widthOf nodes) + 3 ≤ effort
  | .finish => runs [] ∧ (node.EndsPlainly → c.Signed scope node)

/-- What a decision of a walk is good for: the walk is still the same, slots have changed only of
units of the node, and the next intent is served with less effort. -/
structure Turn.Serves (c : Contract) (scope : Scope) (w : Walk) (node : Node)
    (runs : List String → Prop) (effort : Nat) (t : Turn) : Prop where
  follows : t.walk.Follows c node
  pooled : t.walk.pooled = w.pooled
  slots : ∀ v, v ∉ node.leaves → t.scope.slots v = scope.slots v
  next : ∃ less, less < effort ∧ t.next.Serves c t.scope t.walk node runs less

/-! ## Choices -/

/-- What spells no label is not the text of one. -/
theorem Label.text_ne_of_ofText? {text : String} (h : Label.ofText? text = none) (label : Label) :
    text ≠ label.text := by
  rintro rfl
  cases label <;> exact absurd h (by decide)

theorem Label.text_ne_stopValue (label : Label) : label.text ≠ stopValue := by
  cases label <;> decide

theorem Label.ofText?_text (label : Label) : Label.ofText? label.text = some label := by
  cases label <;> decide

/-- A label selects its own arm, when the arms begin with units that spell no label. -/
theorem Choice.labelFor?_text {choice : Choice} {whenTrue whenFalse : Arm} (label : Label)
    (harms : choice.arms.entries = [(false, whenFalse), (true, whenTrue)])
    (hfalse : Label.ofText? whenFalse.target = none) :
    choice.labelFor? label.text = some label := by
  have hne := Label.text_ne_of_ofText? hfalse label
  unfold Choice.labelFor?
  rw [harms]
  cases label with
  | false => simp
  | true =>
    have htext : Label.text false ≠ Label.text true := by decide
    simp [List.find?, htext, hne]

namespace Plan

variable {p : Plan} {skipped : List Span} {start stop : Nat} {work : Node} {arms : Node.Arms}

/-- What a unit or a group decides is decided at its last position. -/
theorem WorkAt.armsAt (h : p.WorkAt skipped work arms start stop) :
    p.ArmsAt (start + work.width - 1) arms := by
  have hwork := h.isWork
  have hsegment := h.segment
  cases work with
  | unit name => exact hsegment.2
  | parallel branches => exact hsegment.2
  | sequence | conditional => exact hwork.elim

end Plan

namespace Walk

variable {c : Contract} {w : Walk} {node work : Node} {arms : Node.Arms} {start : Nat}
  {rest : List Node} {scope : Scope} {runs : List String → Prop} {effort : Nat} {u : String}

/-- The walk that has chosen the arm that a label selects. -/
theorem skipped_chooseArm {choice : Choice} {first second : String} {position : Nat}
    {whenTrue whenFalse : Node} (label : Option Label)
    (harms : choice.arms.entries = [
      (false, ⟨second, ⟨position + whenTrue.width, position + whenTrue.width + whenFalse.width⟩⟩),
      (true, ⟨first, ⟨position, position + whenTrue.width⟩⟩)]) :
    (w.chooseArm choice (label.getD false)).skipped =
      w.skipped ++ [Plan.otherSpan label position whenTrue whenFalse] := by
  unfold chooseArm Plan.otherSpan
  rw [harms]
  rcases label with _ | _ | _ <;> simp

/-- Where nothing is decided, the walk goes on, and a label stays in the scope. -/
theorem steer_of_none (hchoice : w.plan.choiceAt? w.position = none)
    (hslots : (scope.slots u).target = none) (hasRun : String → Bool) (label : Option Label) :
    ∃ scope', w.steer scope hasRun u (label.map Label.text) = w.proceed scope' ∧
      Scope.SameBut u scope scope' ∧ (scope'.slots u).target = label.map Label.text := by
  unfold Walk.steer
  rw [hchoice]
  rcases label with _ | label
  · exact ⟨scope, rfl, fun _ _ => rfl, hslots⟩
  · refine ⟨scope.signalRoute u label.text, ?_, Scope.sameBut_signalRoute scope u label.text, ?_⟩
    · simp [Label.text_ne_stopValue, Label.ofText?_text]
    · rw [Scope.slots_signalRoute]
      rfl

/-- A router without a label goes on with the `false` arm. -/
theorem steer_of_choice {choice : Choice} {whenTrue whenFalse : Arm}
    (hchoice : w.plan.choiceAt? w.position = some choice)
    (harms : choice.arms.entries = [(false, whenFalse), (true, whenTrue)])
    (hplain : Label.ofText? whenFalse.target = none) (hasRun : String → Bool)
    (label : Option Label) :
    w.steer scope hasRun u (label.map Label.text) =
      (w.chooseArm choice (label.getD false)).proceed scope := by
  unfold Walk.steer
  rw [hchoice]
  rcases label with _ | label
  · rfl
  · have hlabel := Choice.labelFor?_text label harms hplain
    simp [Label.text_ne_stopValue, hlabel]

/-- The units that a walk comes to are those of its node. -/
theorem Follows.mem_leaves {skipped : List Span} {stop : Nat} (hfollows : w.Follows c node)
    (hwork : w.plan.WorkAt skipped work arms start stop) (hu : work.leaves.getLast? = some u) :
    u ∈ node.leaves := by
  rw [← hfollows.sequence]
  exact List.mem_of_getElem? (hwork.reads.last hu)

/-- The label of the last unit of a step decides what the walk goes on with. -/
theorem Follows.steer (hfollows : w.Follows c node)
    (hfacing : w.Facing c node work arms start rest)
    (hposition : w.position + 1 = start + work.width) (hu : work.leaves.getLast? = some u)
    (hclear : arms = none → w.plan.Clear (w.position + 1))
    (hslots : (scope.slots u).target = none)
    (hruns : ∀ run, c.Behind work arms rest run → runs run)
    (heffort : w.effortBehind arms rest (w.position + 1) + 1 < effort) (hasRun : String → Bool) :
    (w.steer scope hasRun u ((c.label u).map Label.text)).Serves c scope w node runs effort := by
  obtain ⟨stop, hwork, hahead⟩ := hfacing.stands
  have hat := hwork.armsAt
  rw [← hposition, Nat.add_sub_cancel] at hat
  have htraces : ∀ run, (Node.sequence (Node.after c.label work arms rest)).Trace c.label run →
      runs run := by
    intro run hrun
    exact hruns run (Node.trace_of_after (hwork.picked_closable c.label) hrun)
  have hafter := @Plan.WorkAt.effortOf_after _ _ _ _ _ _ rest hwork c.label
  have hbehind : w.effortBehind arms rest (w.position + 1) =
    Node.effortOfArms arms + Node.effortOf rest + 2 * (w.plan.length - (w.position + 1)) := rfl
  rcases arms with _ | ⟨whenTrue, whenFalse⟩
  · -- nothing is decided: the walk goes on, and whoever waits for the node finds the label
    obtain rfl : stop = w.position + 1 := by
      rw [hposition]
      exact hwork.arms
    obtain ⟨scope', hturn, hsame, htarget⟩ := steer_of_none hat hslots hasRun (c.label u)
    have hsigned : c.Signed scope' work := by
      intro v hv
      cases hu.symm.trans hv
      exact htarget
    rw [hturn]
    refine ⟨hfollows.of_eq rfl rfl rfl rfl, rfl, ?_,
      w.effortBehind none rest (w.position + 1) + 1, heffort,
      Node.after c.label work none rest, hahead, hclear rfl, ?_, htraces, ?_⟩
    · intro v hv
      refine hsame v ?_
      rintro rfl
      exact hv (hfollows.mem_leaves hwork hu)
    · exact (hfacing.leads scope).after fun _ _ => hsigned
    · show _ + 2 * (w.plan.length - (w.position + 1)) + 1 ≤ _
      omega
  · -- the label picks an arm, and the other one is skipped
    obtain ⟨choice, first, second, hchoice, hfirst, hsecond, harms⟩ := hat
    rw [hfollows.sequence] at hfirst hsecond
    have hlabel : work.lastLabel c.label = c.label u := by rw [Node.lastLabel, hu]; rfl
    have hskipped := @skipped_chooseArm w choice first second (w.position + 1) whenTrue whenFalse
      (c.label u) harms
    have hends := hwork.arms
    rw [← hposition] at hends
    obtain rfl : stop = w.position + 1 + whenTrue.width + whenFalse.width := hends.1
    obtain ⟨hclearStart, hclearMiddle, hclearStop⟩ := hfollows.apart.clear_of_arms hchoice harms
    have hnext := Plan.ahead_of_choice (c.label u) hends hclearStart hclearMiddle hclearStop hahead
    rw [steer_of_choice hchoice harms (hfollows.plain second hsecond)]
    refine ⟨hfollows.of_eq rfl rfl rfl rfl, rfl, fun _ _ => rfl,
      w.effortBehind (some (whenTrue, whenFalse)) rest (w.position + 1) + 1, heffort,
      Node.after c.label work (some (whenTrue, whenFalse)) rest, ?_, hclearStart, ?_, htraces, ?_⟩
    · rw [Node.after_some, hlabel]
      show w.plan.Ahead (w.chooseArm choice ((c.label u).getD false)).skipped _ _
      rw [hskipped]
      exact hnext
    · exact (hfacing.leads scope).after fun hnone => absurd hnone (by simp)
    · show _ + 2 * (w.plan.length - (w.position + 1)) + 1 ≤ _
      omega

/-! ## At a position -/

theorem Contract.Leads.of_cons {c : Contract} {scope : Scope} {node step : Node}
    {rest : List Node} (h : c.Leads scope node (step :: rest)) (scope' : Scope) :
    c.Leads scope' node (step :: rest) := by
  intro hends
  rcases h hends with ⟨hnil, -⟩ | hlast
  · cases hnil
  · exact .inr hlast

/-- Deciding at a position keeps the promise of a walk. -/
theorem Follows.advance (hfollows : w.Follows c node)
    (hserves : Intent.Serves c scope w node runs effort .advance) (hasRun : String → Bool) :
    (w.advance scope hasRun).Serves c scope w node runs effort := by
  obtain ⟨todo, hahead, hclear, hleads, htraces, heffort⟩ := hserves
  generalize hposition : w.position = position at hahead hclear heffort
  cases hahead with
  | done =>
    -- behind the last position there is no unit
    have hunit : w.plan.unitAt? w.position = none := by
      rw [hposition]
      exact List.getElem?_eq_none (Nat.le_refl _)
    unfold Walk.advance
    rw [hunit]
    refine ⟨hfollows, rfl, fun _ _ => rfl, 0, by omega, ?_, ?_⟩
    · exact htraces [] (Node.trace_sequence_nil.mpr rfl)
    · intro hends
      rcases hleads hends with ⟨-, hsigned⟩ | ⟨earlier, last, hnil, -⟩
      · exact hsigned
      · simp at hnil
  | @skip _ stop _ hskip hlt hin _ hstop hrest =>
    have hunit : ∃ unitId, w.plan.unitAt? w.position = some unitId := by
      rw [hposition]
      exact ⟨_, List.getElem?_eq_getElem hin⟩
    obtain ⟨unitId, hunit⟩ := hunit
    unfold Walk.advance
    rw [hunit, skipEnd?_eq, hposition, hskip]
    refine ⟨hfollows.of_eq rfl rfl rfl rfl, rfl, fun _ _ => rfl, _, ?_, todo, hrest, hstop, hleads,
      htraces, Nat.le_refl _⟩
    show Node.effortOf todo + 2 * (w.plan.length - stop) + 1 < effort
    omega
  | @work work arms _ stop rest hwork hrest =>
    -- what is found here serves units and groups alike
    have hfacing : ∀ w' : Walk, w'.plan = w.plan → w'.skipped = w.skipped →
        w'.Facing c node work arms position rest := by
      intro w' hplan hskipped
      refine ⟨⟨stop, ?_, ?_⟩, fun scope' => Contract.Leads.of_cons hleads scope'⟩
      · rw [hplan, hskipped]
        exact hwork
      · rw [hplan, hskipped]
        exact hrest
    have htrace : ∀ first, work.Trace c.label first → ∀ second, c.Behind work arms rest second →
        runs (first ++ second) := fun first hfirst second hsecond =>
      htraces _ (Node.trace_sequence_close.mpr ⟨first, second, hfirst, hsecond, rfl⟩)
    rw [Node.effortOf, Node.effort_close] at heffort
    have hreached := hwork.reached
    have hsegment := hwork.segment
    have hreads := hwork.reads
    have hisWork := hwork.isWork
    cases work with
    | sequence | conditional => exact hisWork.elim
    | unit name =>
      have hunit : w.plan.unitAt? position = some name := hreads.head rfl
      have hearly : w.early.get? name = none := by
        rw [hfollows.early]
        rfl
      have hturn : w.advance scope hasRun = ⟨w, scope, .execute name .unit⟩ := by
        unfold Walk.advance
        simp only [hposition, hunit, skipEnd?_eq, hreached, hsegment.1, hearly]
      rw [hturn]
      refine ⟨hfollows, rfl, fun _ _ => rfl, w.effortBehind arms rest (position + 1) + 6, ?_, rfl,
        arms, rest, ?_, ?_, ?_⟩
      · simp only [Node.effort, effortBehind] at heffort ⊢
        omega
      · rw [hposition]
        exact hfacing w rfl rfl
      · exact fun run hrun => htrace [name] rfl run hrun
      · exact Nat.le_of_eq (by rw [hposition])
    | parallel branches =>
      obtain ⟨⟨group, hgroup, hjoins⟩, -⟩ := hsegment
      have hin : position < w.plan.length := by
        have hstop := hreads.stop_le hwork.closable.normal.leaves_ne_nil
        have hwidth := hwork.closable.normal.width_pos
        unfold Node.width at hwidth
        omega
      have hunit : ∃ unitId, w.plan.unitAt? position = some unitId :=
        ⟨_, List.getElem?_eq_getElem hin⟩
      obtain ⟨unitId, hunit⟩ := hunit
      -- no unit anchors the group, for the walk could come here from elsewhere
      have hturn : w.advance scope hasRun = w.forkGroup scope group group.branches := by
        unfold Walk.advance
        simp only [hposition, hunit, skipEnd?_eq, hreached, hgroup, hclear group hgroup]
        rfl
      rw [hturn]
      refine ⟨hfollows, rfl, fun _ _ => rfl, Node.effortOfBranches branches +
        w.effortBehind arms rest (position + Node.widthOf branches) + 3, ?_, branches, arms,
        position, rest, ?_, hjoins.runs, hfacing w rfl rfl, htrace, Nat.le_refl _⟩
      · simp only [Node.effort, effortBehind] at heffort ⊢
        omega
      · rw [hjoins.span]

/-! ## After a unit or a group -/

/-- A group that is anchored on a unit is the step after that unit. -/
theorem Facing.group_of_groupAfter? {group : Group Plan} (hfollows : w.Follows c node)
    (hfacing : w.Facing c node (.unit u) arms w.position rest)
    (hgroup : w.plan.groupAfter? w.position = some group) :
    arms = none ∧ ∃ nodes arms' rest' stop, rest = Node.close (.parallel nodes) arms' :: rest' ∧
      group.Joins (w.position + 1) nodes ∧
      w.plan.WorkAt w.skipped (.parallel nodes) arms' (w.position + 1) stop ∧
      w.plan.Ahead w.skipped stop rest' := by
  obtain ⟨hat, hanchor⟩ := Option.filter_eq_some_iff.mp hgroup
  have hanchor : group.anchorAt = some w.position := of_decide_eq_true hanchor
  obtain ⟨stop, hwork, hahead⟩ := hfacing.stands
  -- nothing else can stand behind the unit, for the group is entered from the unit alone
  have hnotClear : ¬ w.plan.Clear (w.position + 1) := by
    intro hclear
    rw [hclear group hat] at hanchor
    cases hanchor
  have hnone : arms = none := by
    rcases arms with _ | ⟨whenTrue, whenFalse⟩
    · rfl
    · obtain ⟨choice, first, second, hchoice, -, -, harms⟩ := hwork.armsAt
      exact absurd (hfollows.apart.clear_of_arms hchoice harms).1 hnotClear
  refine ⟨hnone, ?_⟩
  subst hnone
  obtain rfl : stop = w.position + 1 := hwork.arms
  generalize hnext : w.position + 1 = next at hahead hat
  cases hahead with
  | done =>
    have hin := (hfollows.apart _ group _ hat hanchor).2.1
    omega
  | skip _ _ _ hstart _ _ =>
    rw [hnext] at hnotClear
    exact absurd hstart hnotClear
  | @work next arms' _ stop rest' hworkNext hrest =>
    have hisWork := hworkNext.isWork
    have hsegment := hworkNext.segment
    cases next with
    | sequence | conditional => exact hisWork.elim
    | unit name =>
      rw [hsegment.1] at hat
      cases hat
    | parallel nodes =>
      obtain ⟨⟨other, hother, hjoins⟩, -⟩ := hsegment
      cases hat.symm.trans hother
      exact ⟨nodes, arms', rest', stop, rfl, hjoins, hworkNext, hrest⟩

/-- Deciding after a unit that has left its label keeps the promise of a walk. -/
theorem Follows.ownUnitDone (hfollows : w.Follows c node)
    (hfacing : w.Facing c node (.unit u) arms w.position rest)
    (hhold : Slots.Hold (c.label u) (scope.slots u))
    (hruns : ∀ run, c.Behind (.unit u) arms rest run → runs run)
    (heffort : w.effortBehind arms rest (w.position + 1) + 1 < effort)
    (hasRun : String → Bool) (tolerant : Bool) :
    (w.ownUnitDone scope hasRun tolerant none).Serves c scope w node runs effort := by
  obtain ⟨stop, hwork, hahead⟩ := hfacing.stands
  have hunit : w.plan.unitAt? w.position = some u := hwork.reads.head rfl
  have hmem : u ∈ node.leaves := hfollows.mem_leaves hwork rfl
  -- the unit leaves its label, if it has one, and nothing else; both signals are taken
  let taken := ((scope.takeRoute u).2.takeFork u).2
  have hsignal : (scope.takeRoute u).1 = (c.label u).map Label.text := by
    rw [Scope.takeRoute_fst, hhold.1]
  have hfork : ((scope.takeRoute u).2.takeFork u).1 = none := by
    rw [Scope.takeFork_fst, Slots.entries, (Scope.slots_takeRoute scope u).2]
    exact hhold.2
  have hstop : (c.label u).map Label.text ≠ some stopValue := by
    rcases c.label u with _ | label
    · simp
    · simp [Label.text_ne_stopValue]
  have htaken : (taken.slots u).target = none := by
    rw [Slots.target, Scope.slots_takeFork]
    exact (Scope.slots_takeRoute scope u).1
  have hsame : ∀ v, v ∉ node.leaves → taken.slots v = scope.slots v := by
    intro v hv
    have hne : v ≠ u := fun heq => hv (heq ▸ hmem)
    exact (Scope.sameBut_takeFork _ u v hne).trans (Scope.sameBut_takeRoute scope u v hne)
  rcases hgroup : w.plan.groupAfter? w.position with _ | group
  · have hturn : w.ownUnitDone scope hasRun tolerant none =
        w.steer taken hasRun u ((c.label u).map Label.text) := by
      unfold Walk.ownUnitDone Walk.obey
      simp only [hunit, hsignal, hfork, if_neg hstop, Option.filter_none, hgroup]
      rfl
    have hclear := hfollows.apart.clear_of_groupAfter? hgroup
    obtain ⟨hnext, hpooled, hslots, hserves⟩ := hfollows.steer hfacing rfl rfl (fun _ => hclear)
      htaken hruns heffort hasRun
    rw [hturn]
    exact ⟨hnext, hpooled, fun v hv => (hslots v hv).trans (hsame v hv), hserves⟩
  · have hturn : w.ownUnitDone scope hasRun tolerant none =
        w.forkGroup taken group group.branches := by
      unfold Walk.ownUnitDone Walk.obey
      simp only [hunit, hsignal, hfork, if_neg hstop, Option.filter_none, hgroup]
      rfl
    -- the group is the next step, so the walk is at the group without having moved
    obtain ⟨rfl, nodes, arms', rest', stop', rfl, hjoins, hworkNext, hrest⟩ :=
      hfacing.group_of_groupAfter? hfollows hgroup
    have hsigned : c.Signed scope (.unit u) := by
      intro v hv
      cases hv
      exact hhold.1
    have hleads := (hfacing.leads scope).after fun _ _ => hsigned
    rw [hturn]
    refine ⟨hfollows, rfl, hsame, _, heffort, nodes, arms', w.position + 1, rest', ?_, hjoins.runs,
      ⟨⟨stop', hworkNext, hrest⟩, fun scope' => Contract.Leads.of_cons hleads scope'⟩, ?_, ?_⟩
    · rw [hjoins.span]
    · intro first hfirst second hsecond
      exact hruns _ (Node.trace_sequence_close.mpr ⟨first, second, hfirst, hsecond, rfl⟩)
    · show Node.effortOfBranches nodes + w.effortBehind arms' rest' _ + 3 ≤ _
      simp only [effortBehind, Node.effortOf, Node.effort_close, Node.effort, Node.effortOfArms]
      omega

/-- Deciding after a group has joined keeps the promise of a walk. -/
theorem Follows.groupDone {nodes : List Node} (hfollows : w.Follows c node)
    (hfacing : w.Facing c node (.parallel nodes) arms start rest)
    (hsigned : (Node.parallel nodes).EndsPlainly → c.Signed scope (.parallel nodes))
    (hruns : ∀ run, c.Behind (.parallel nodes) arms rest run → runs run)
    (heffort : w.effortBehind arms rest (start + Node.widthOf nodes) + 1 < effort)
    (hasRun : String → Bool) (tolerant : Bool) :
    (w.groupDone scope hasRun tolerant (start + Node.widthOf nodes) none).Serves c scope w node runs
      effort := by
  obtain ⟨stop, hwork, hahead⟩ := hfacing.stands
  have hrouter := List.getLast?_eq_getLast_of_ne_nil hwork.closable.normal.leaves_ne_nil
  generalize (Node.parallel nodes).leaves.getLast _ = router at hrouter
  have hwidth : 0 < Node.widthOf nodes := hwork.closable.normal.width_pos
  have hunit : w.plan.unitAt? (start + Node.widthOf nodes - 1) = some router :=
    hwork.reads.last hrouter
  have hat := hwork.armsAt
  obtain ⟨⟨group, hgroup, hjoins⟩, -⟩ := hwork.segment
  rcases arms with _ | ⟨whenTrue, whenFalse⟩
  · have hchoice : w.plan.choiceAt? (start + Node.widthOf nodes - 1) = none := hat
    have hturn : w.groupDone scope hasRun tolerant (start + Node.widthOf nodes) none =
        ⟨{ w with position := start + Node.widthOf nodes }, scope, .advance⟩ := by
      unfold Walk.groupDone
      simp only [hchoice]
    have hclear := hfollows.apart.clear (Plan.joint_of_groupAt? hgroup)
    rw [hjoins.span] at hclear
    obtain rfl : stop = start + Node.widthOf nodes := hwork.arms
    rw [hturn]
    refine ⟨hfollows.of_eq rfl rfl rfl rfl, rfl, fun _ _ => rfl, _, heffort, rest, hahead, hclear,
      ?_, hruns, ?_⟩
    · exact (hfacing.leads scope).after fun _ => hsigned
    · simp only [effortBehind, Node.effortOfArms]
      omega
  · obtain ⟨choice, -, -, hchoice, -⟩ := hat
    have hchoice : w.plan.choiceAt? (start + Node.widthOf nodes - 1) = some choice := hchoice
    have hsignal : (scope.takeRoute router).1 = (c.label router).map Label.text := by
      rw [Scope.takeRoute_fst]
      exact hsigned (hwork.closable.ends (by simp)) router hrouter
    -- the router stands at the last position of the group, and it is there that its label decides
    let moved : Walk := { w with position := start + Node.widthOf nodes - 1 }
    have hturn : w.groupDone scope hasRun tolerant (start + Node.widthOf nodes) none =
        moved.steer (scope.takeRoute router).2 hasRun router ((c.label router).map Label.text) := by
      unfold Walk.groupDone
      simp only [hchoice, hunit, hsignal]
      rfl
    have hposition : start + Node.widthOf nodes - 1 + 1 = start + Node.widthOf nodes := by omega
    have hmoved : moved.Follows c node := hfollows.of_eq rfl rfl rfl rfl
    have hfacingMoved : moved.Facing c node (.parallel nodes) (some (whenTrue, whenFalse)) start
        rest := ⟨hfacing.stands, hfacing.leads⟩
    have heffortMoved : moved.effortBehind (some (whenTrue, whenFalse)) rest
        (moved.position + 1) + 1 < effort := by
      show w.effortBehind _ rest (start + Node.widthOf nodes - 1 + 1) + 1 < effort
      rwa [hposition]
    rw [hturn]
    obtain ⟨hnext, hpooled, hslots, hserves⟩ := hmoved.steer hfacingMoved hposition hrouter
      (fun hnone => absurd hnone (by simp)) (Scope.slots_takeRoute scope router).1 hruns
      heffortMoved hasRun
    refine ⟨hnext, hpooled, fun v hv => (hslots v hv).trans ?_, hserves⟩
    exact Scope.sameBut_takeRoute scope router v
      fun heq => hv (heq ▸ hfollows.mem_leaves hwork hrouter)

end Walk

end Workflow
