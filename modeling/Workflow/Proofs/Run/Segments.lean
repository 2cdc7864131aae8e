import Workflow.Proofs.Plan.Growth
import Workflow.Proofs.Run.Traces

/-!
# A node in its plan

`Plan.Segment p node start arms` says that the plan `p` has, from position `start` on, what a walk
needs to walk `node`: at each position that a unit or a group of the node begins at, what stands in
the tables there, and nothing else. At the end of the node the plan decides between `arms`, if there
are any; they belong to a conditional around the node.

Groups that are anchored on a unit are entered from that unit. `Plan.Clear p position` says that no
such group begins at a position, so that a walk may come there from anywhere; this holds wherever an
arm or a group begins or ends (`AnchorsApart.clear`).
-/

namespace Workflow

namespace Plan

/-- What is decided at a position: nothing, or between two arms that follow it. -/
def ArmsAt (p : Plan) (position : Nat) : Node.Arms → Prop
  | none => p.choiceAt? position = none
  | some (whenTrue, whenFalse) => ∃ choice first second, p.choiceAt? position = some choice ∧
    first ∈ p.sequence ∧ second ∈ p.sequence ∧
    choice.arms.entries = [
      (false, ⟨second, ⟨position + 1 + whenTrue.width,
        position + 1 + whenTrue.width + whenFalse.width⟩⟩),
      (true, ⟨first, ⟨position + 1, position + 1 + whenTrue.width⟩⟩)]

mutual

/-- The tables of a plan are those of a node from a position on. -/
def Segment (p : Plan) : Node → Nat → Node.Arms → Prop
  | .unit _, start, arms => p.groupAt? start = none ∧ p.ArmsAt start arms
  | .sequence steps, start, arms => p.SegmentAll steps start arms
  | .conditional condition whenTrue whenFalse, start, _ =>
    p.Segment condition start (some (whenTrue, whenFalse)) ∧
      p.Segment whenTrue (start + condition.width) none ∧
      p.Segment whenFalse (start + condition.width + whenTrue.width) none
  | .parallel branches, start, arms =>
    (∃ group, p.groupAt? start = some group ∧ group.Joins start branches) ∧
      p.ArmsAt (start + Node.widthOf branches - 1) arms

/-- The tables of a plan are those of several nodes, one after another. -/
def SegmentAll (p : Plan) : List Node → Nat → Node.Arms → Prop
  | [], _, _ => True
  | [node], start, arms => p.Segment node start arms
  | node :: next :: rest, start, arms =>
    p.Segment node start none ∧ p.SegmentAll (next :: rest) (start + node.width) arms

end

/-- From a position on, the tables of a plan hold these choices and groups. -/
structure Holds (p : Plan) (start width : Nat) (choices : List (Nat × Choice))
    (groups : List (Nat × Group Plan)) : Prop where
  choices : ∀ i, start ≤ i → i + 1 < start + width → p.choiceAt? i = Table.lookup i choices
  groups : ∀ i, start ≤ i → i < start + width → p.groupAt? i = Table.lookup i groups

/-- Where one part ends and the next begins, the first part decides nothing. -/
theorem Holds.left {p : Plan} {start width more : Nat} {cs cs' : List (Nat × Choice)}
    {gs gs' : List (Nat × Group Plan)} (h : p.Holds start (width + more) (cs ++ cs') (gs ++ gs'))
    (hpos : 0 < width) (hmore : 0 < more)
    (hcs : ∀ e ∈ cs, e.1 + 1 < start + width) (hcs' : ∀ e ∈ cs', start + width ≤ e.1)
    (hgs' : ∀ e ∈ gs', start + width ≤ e.1) :
    p.Holds start width cs gs ∧ p.ArmsAt (start + width - 1) none := by
  refine ⟨⟨?_, ?_⟩, ?_⟩
  · intro i hge hlt
    rw [h.choices i hge (by omega), Table.lookup_append_left]
    intro e he
    have := hcs' e he
    omega
  · intro i hge hlt
    rw [h.groups i hge (by omega), Table.lookup_append_left]
    intro e he
    have := hgs' e he
    omega
  · show p.choiceAt? (start + width - 1) = none
    rw [h.choices _ (by omega) (by omega), Table.lookup_eq_none]
    intro e he
    rcases List.mem_append.mp he with he | he
    · have := hcs e he
      omega
    · have := hcs' e he
      omega

theorem Holds.right {p : Plan} {start width more : Nat} {cs cs' : List (Nat × Choice)}
    {gs gs' : List (Nat × Group Plan)} (h : p.Holds start (width + more) (cs ++ cs') (gs ++ gs'))
    (hcs : ∀ e ∈ cs, e.1 < start + width) (hgs : ∀ e ∈ gs, e.1 < start + width) :
    p.Holds (start + width) more cs' gs' := by
  refine ⟨?_, ?_⟩
  · intro i hge hlt
    rw [h.choices i (by omega) (by omega), Table.lookup_append_right]
    intro e he
    have := hcs e he
    omega
  · intro i hge hlt
    rw [h.groups i (by omega) (by omega), Table.lookup_append_right]
    intro e he
    have := hgs e he
    omega

/-! ## Nodes that are laid out -/

/-- A node is laid out in a plan from a position on, and between `arms` is decided at its end. -/
structure Lays (p : Plan) (node : Node) (start : Nat) (arms : Node.Arms) : Prop where
  normal : node.IsNormal
  reads : p.Reads start node.leaves
  holds : ∃ groups, node.GroupsFrom start groups ∧
    p.Holds start node.width (node.choicesFrom start) groups
  arms : p.ArmsAt (start + node.width - 1) arms

/-- Several nodes are laid out one after another, and between `arms` is decided at their end. -/
structure LaysAll (p : Plan) (nodes : List Node) (start : Nat) (arms : Node.Arms) : Prop where
  normal : ∀ node ∈ nodes, node.IsNormal
  reads : p.Reads start (Node.leavesOf nodes)
  holds : ∃ groups, Node.GroupsFromAll nodes start groups ∧
    p.Holds start (Node.widthOf nodes) (Node.choicesFromAll nodes start) groups
  arms : p.ArmsAt (start + Node.widthOf nodes - 1) arms

variable {p : Plan} {start : Nat} {arms : Node.Arms}

theorem Lays.steps {steps : List Node} (h : p.Lays (.sequence steps) start arms) :
    p.LaysAll steps start arms := by
  cases h.normal with
  | sequence _ _ hsteps => exact ⟨hsteps, h.reads, h.holds, h.arms⟩

theorem LaysAll.single {node : Node} (h : p.LaysAll [node] start arms) : p.Lays node start arms := by
  obtain ⟨hnormal, hreads, ⟨_, ⟨groups, _, rfl, hgroups, rfl⟩, hholds⟩, harms⟩ := h
  simp only [Node.leavesOf, Node.widthOf_cons, Node.widthOf_nil, Nat.add_zero, Node.choicesFromAll,
    List.append_nil] at hreads hholds harms
  exact ⟨hnormal node (by simp), hreads, ⟨groups, hgroups, hholds⟩, harms⟩

theorem Lays.groupAt?_eq_none {name : String} (h : p.Lays (.unit name) start arms) :
    p.groupAt? start = none := by
  obtain ⟨groups, rfl, hholds⟩ := h.holds
  exact hholds.groups start (Nat.le_refl _) (by simp)

/-- Where a group is laid out, there is a group that joins its branches. -/
theorem Lays.joins {branches : List Node} (h : p.Lays (.parallel branches) start arms) :
    ∃ group, p.groupAt? start = some group ∧ group.Joins start branches := by
  obtain ⟨hnormal, -, ⟨_, ⟨own, inner, rfl, hown, -⟩, hholds⟩, -⟩ := h
  have hgroup := hholds.groups start (Nat.le_refl _) (by have := hnormal.width_pos; omega)
  rw [Table.lookup, if_pos rfl] at hgroup
  exact ⟨own, hgroup, hown⟩

/-- Where one node ends and the next begins, nothing is decided. -/
theorem LaysAll.parts {node next : Node} {rest : List Node}
    (h : p.LaysAll (node :: next :: rest) start arms) :
    p.Lays node start none ∧ p.LaysAll (next :: rest) (start + node.width) arms := by
  obtain ⟨hnormal, hreads, ⟨_, ⟨nodeGroups, restGroups, rfl, hnode, hrest⟩, hholds⟩, harms⟩ := h
  rw [Node.leavesOf] at hreads
  rw [Node.widthOf_cons] at hholds harms
  rw [Node.choicesFromAll] at hholds
  obtain ⟨hreadsNode, hreadsRest⟩ := hreads.append
  have hlater : ∀ n ∈ next :: rest, n.IsNormal := fun n hn => hnormal n (by simp [hn])
  have hwidth := (hnormal node (by simp)).width_pos
  have hmore : 0 < Node.widthOf (next :: rest) := by
    have := (hlater next (by simp)).width_pos
    rw [Node.widthOf_cons]
    omega
  have hwithin := (hnormal node (by simp)).choicesFrom_within start
  have hwithinGroups := ((hnormal node (by simp)).groupsFrom_ascends start nodeGroups hnode).within
  have hlaterChoices := Node.choicesFromAll_within hlater (start + node.width)
  have hlaterGroups := (Node.groupsFromAll_ascends (fun n hn => (hlater n hn).groupsFrom_ascends) _
    restGroups hrest).within
  obtain ⟨hleft, hnone⟩ := hholds.left hwidth hmore (fun e he => (hwithin e he).2)
    (fun e he => (hlaterChoices e he).1) fun e he => (hlaterGroups e he).1
  have hright := hholds.right (fun e he => by have := hwithin e he; omega)
    fun e he => (hwithinGroups e he).2
  refine ⟨⟨hnormal node (by simp), hreadsNode, ⟨_, hnode, hleft⟩, hnone⟩,
    ⟨hlater, hreadsRest, ⟨_, hrest, hright⟩, ?_⟩⟩
  rwa [Nat.add_assoc]

/-- The condition of a conditional decides between the two arms, and what is decided behind the
conditional is decided at the end of the second one. -/
theorem Lays.parts {c t f : Node} (h : p.Lays (.conditional c t f) start arms) :
    p.Lays c start (some (t, f)) ∧ p.Lays t (start + c.width) none ∧
      p.Lays f (start + c.width + t.width) arms := by
  obtain ⟨hnormal, hreads, ⟨_, ⟨gc, gt, gf, rfl, hgc, hgt, hgf⟩, hholds⟩, harms⟩ := h
  cases hnormal with
  | conditional hc ht hf =>
    rw [Node.leaves, List.append_assoc] at hreads
    obtain ⟨hreadsC, hreads⟩ := hreads.append
    obtain ⟨hreadsT, hreadsF⟩ := hreads.append
    obtain ⟨router, first, second, hrouter, hfirst, hsecond, hchoice⟩ :=
      Node.exists_choice hc ht hf start
    have hwidthC := hc.width_pos
    have hwidthT := ht.width_pos
    have hwidthF := hf.width_pos
    have hcc := hc.choicesFrom_within start
    have hct := ht.choicesFrom_within (start + c.width)
    have hcf := hf.choicesFrom_within (start + c.width + t.width)
    have hgcw := (hc.groupsFrom_ascends _ gc hgc).within
    have hgtw := (ht.groupsFrom_ascends _ gt hgt).within
    have hgfw := (hf.groupsFrom_ascends _ gf hgf).within
    rw [Node.width_conditional] at hholds harms
    rw [Node.choicesFrom, hchoice] at hholds
    simp only [Option.toList_some, List.map_cons, List.map_nil] at hholds
    -- the choice of the conditional itself stands between those of its parts
    have hchoiceAt : p.choiceAt? (start + c.width - 1) = Node.choice? c t f start := by
      rw [hholds.choices _ (by omega) (by omega), Table.lookup_append_right, List.singleton_append,
        Table.lookup, if_pos rfl, hchoice]
      intro e he
      have := hcc e he
      omega
    have hholdsC : p.Holds start c.width (c.choicesFrom start) gc := by
      refine ⟨?_, ?_⟩
      · intro i hge hlt
        rw [hholds.choices i hge (by omega), Table.lookup_append_left]
        intro e he
        simp only [List.mem_append, List.mem_singleton] at he
        rcases he with rfl | he | he
        · simp only
          omega
        · have := hct e he
          omega
        · have := hcf e he
          omega
      · intro i hge hlt
        rw [hholds.groups i hge (by omega), Table.lookup_append_left]
        intro e he
        rcases List.mem_append.mp he with he | he
        · have := hgtw e he
          omega
        · have := hgfw e he
          omega
    -- the choice belongs to the condition, so the two arms hold what stands behind it
    have hrest : p.Holds (start + c.width) (t.width + f.width)
        (t.choicesFrom (start + c.width) ++ f.choicesFrom (start + c.width + t.width))
        (gt ++ gf) := by
      rw [← List.append_assoc, Nat.add_assoc] at hholds
      refine hholds.right ?_ fun e he => (hgcw e he).2
      intro e he
      rcases List.mem_append.mp he with he | he
      · have := hcc e he
        omega
      · rw [List.mem_singleton.mp he]
        simp only
        omega
    obtain ⟨hholdsT, hnone⟩ := hrest.left hwidthT hwidthF (fun e he => (hct e he).2)
      (fun e he => (hcf e he).1) fun e he => (hgfw e he).1
    have hholdsF := hrest.right (fun e he => by have := hct e he; omega)
      fun e he => (hgtw e he).2
    refine ⟨⟨hc, hreadsC, ⟨gc, hgc, hholdsC⟩, ?_⟩, ⟨ht, hreadsT, ⟨gt, hgt, hholdsT⟩, hnone⟩,
      ⟨hf, hreadsF, ⟨gf, hgf, hholdsF⟩, ?_⟩⟩
    · rw [hchoice] at hchoiceAt
      refine ⟨_, first, second, hchoiceAt, ?_, ?_, ?_⟩
      · exact List.mem_of_getElem? (hreadsT.head hfirst)
      · exact List.mem_of_getElem? (hreadsF.head hsecond)
      · rw [show start + c.width - 1 + 1 = start + c.width by omega]
    · rwa [show start + c.width + t.width + f.width =
        start + (c.width + t.width + f.width) by omega]

end Plan

namespace Node

theorem segmentAll_of_laysAll {p : Plan} {nodes : List Node}
    (h : ∀ node ∈ nodes, ∀ start arms, node.Closable arms → p.Lays node start arms →
      p.Segment node start arms) :
    ∀ start arms, AllClosable nodes arms → p.LaysAll nodes start arms →
      p.SegmentAll nodes start arms := by
  induction nodes with
  | nil => exact fun _ _ _ _ => trivial
  | cons node rest ih =>
    intro start arms hclosable hlays
    cases rest with
    | nil => exact h node (by simp) start arms hclosable.single hlays.single
    | cons next rest =>
      obtain ⟨hnode, hrest⟩ := hlays.parts
      exact ⟨h node (by simp) start none hclosable.head hnode,
        ih (fun n hn => h n (by simp [hn])) _ arms hclosable.tail hrest⟩

/-- A plan in which a node is laid out has the node as a segment. -/
theorem IsNormal.segment {node : Node} (h : node.IsNormal) (p : Plan) :
    ∀ start arms, node.Closable arms → p.Lays node start arms → p.Segment node start arms := by
  induction h with
  | unit => exact fun start arms _ hlays => ⟨hlays.groupAt?_eq_none, hlays.arms⟩
  | sequence _ _ _ ih =>
    intro start arms hclosable hlays
    exact segmentAll_of_laysAll ih start arms hclosable.steps hlays.steps
  | @parallel branches htwo hbranches _ =>
    exact fun start arms _ hlays => ⟨hlays.joins, hlays.arms⟩
  | @conditional c t f hc ht hf ihc iht ihf =>
    intro start arms hclosable hlays
    cases hclosable.arms_eq_none
    obtain ⟨hclosableC, hclosableT, hclosableF⟩ := hclosable.parts
    obtain ⟨hlaysC, hlaysT, hlaysF⟩ := hlays.parts
    exact ⟨ihc _ _ hclosableC hlaysC, iht _ _ hclosableT hlaysT, ihf _ _ hclosableF hlaysF⟩

end Node

/-! ## Anchors -/

namespace Plan

/-- Groups that are anchored on a unit begin right behind it, within the plan, and at no joint. -/
def AnchorsApart (p : Plan) : Prop :=
  ∀ position group anchorAt, p.groupAt? position = some group → group.anchorAt = some anchorAt →
    anchorAt + 1 = position ∧ position < p.length ∧
      ¬ Joint p.choices.entries p.groups.entries position

/-- No group that is anchored on a unit begins at a position. -/
def Clear (p : Plan) (position : Nat) : Prop :=
  ∀ group, p.groupAt? position = some group → group.anchorAt = none

theorem AnchorsApart.clear {p : Plan} {position : Nat} (h : p.AnchorsApart)
    (hjoint : Joint p.choices.entries p.groups.entries position) : p.Clear position := by
  intro group hgroup
  rcases hanchor : group.anchorAt with _ | anchorAt
  · rfl
  · exact absurd hjoint (h position group anchorAt hgroup hanchor).2.2

/-- Nothing comes before the beginning of a plan. -/
theorem AnchorsApart.clear_zero {p : Plan} (h : p.AnchorsApart) : p.Clear 0 := by
  intro group hgroup
  rcases hanchor : group.anchorAt with _ | anchorAt
  · rfl
  · exact absurd (h 0 group anchorAt hgroup hanchor).1 (by omega)

theorem joint_of_choiceAt? {p : Plan} {position joint : Nat} {choice : Choice} {arm : Arm}
    (h : p.choiceAt? position = some choice) (harm : arm ∈ choice.arms.values)
    (hjoint : joint = arm.span.start ∨ joint = arm.span.stop) :
    Joint p.choices.entries p.groups.entries joint :=
  .inl ⟨_, Table.mem_of_lookup h, arm, harm, hjoint⟩

theorem AnchorsApart.clear_of_groupAfter? {p : Plan} {position : Nat} (h : p.AnchorsApart)
    (hnone : p.groupAfter? position = none) : p.Clear (position + 1) := by
  intro group hat
  rcases hanchor : group.anchorAt with _ | anchorAt
  · rfl
  · have hbefore := (h _ group anchorAt hat hanchor).1
    rw [Plan.groupAfter?, hat, Option.filter_eq_none_iff] at hnone
    refine absurd ?_ (hnone group rfl)
    rw [hanchor, decide_eq_true_eq]
    congr 1
    omega

/-- A walk may come from anywhere to where the arms of a choice begin and end. -/
theorem AnchorsApart.clear_of_arms {p : Plan} {position : Nat} {choice : Choice}
    {whenTrue whenFalse : Arm} (h : p.AnchorsApart) (hchoice : p.choiceAt? position = some choice)
    (harms : choice.arms.entries = [(false, whenFalse), (true, whenTrue)]) :
    p.Clear whenTrue.span.start ∧ p.Clear whenTrue.span.stop ∧ p.Clear whenFalse.span.stop := by
  have htrue : whenTrue ∈ choice.arms.values := by simp [Table.values, harms]
  have hfalse : whenFalse ∈ choice.arms.values := by simp [Table.values, harms]
  exact ⟨h.clear (joint_of_choiceAt? hchoice htrue (.inl rfl)),
    h.clear (joint_of_choiceAt? hchoice htrue (.inr rfl)),
    h.clear (joint_of_choiceAt? hchoice hfalse (.inr rfl))⟩

theorem joint_of_groupAt? {p : Plan} {position : Nat} {group : Group Plan}
    (h : p.groupAt? position = some group) :
    Joint p.choices.entries p.groups.entries group.span.stop :=
  .inr ⟨_, Table.mem_of_lookup h, rfl⟩

end Plan

/-- The plan of a normal node: its units are the leaves, and the node is laid out from the beginning
on. -/
theorem Node.IsNormal.lays_of_compile {node : Node} {p : Plan} (h : node.IsNormal)
    (hp : node.compile? = some p) :
    p.sequence = node.leaves ∧ p.AnchorsApart ∧ p.Lays node 0 none := by
  obtain ⟨l, groups, hlayOut, hgroups, hgrows⟩ := h.laysOut {} Layout.tidy_empty
  cases (Node.compile?_of_layOut hlayOut).symm.trans hp
  have hsequence : l.plan.sequence = node.leaves := hgrows.sequence
  have hchoices : l.plan.choices.entries = node.choicesFrom 0 := hgrows.choices
  have hentries : l.plan.groups.entries = groups := hgrows.groups
  refine ⟨hsequence, ?_, ⟨h, ⟨[], by rw [hsequence]; simp⟩, ⟨groups, hgroups, ?_, ?_⟩, ?_⟩⟩
  · intro position group anchorAt hgroup hanchor
    have hmem := Table.mem_of_lookup hgroup
    rw [hentries] at hmem
    obtain ⟨hnext, -, -, hjoint⟩ := hgrows.anchored _ hmem anchorAt hanchor
    rw [hchoices, hentries]
    exact ⟨hnext, (hgrows.groups_within _ hmem).2, hjoint⟩
  · intro i _ _
    rw [Plan.choiceAt?, Table.get?, hchoices]
  · intro i _ _
    rw [Plan.groupAt?, Table.get?, hentries]
  · show l.plan.choiceAt? (0 + node.width - 1) = none
    rw [Plan.choiceAt?, Table.get?, hchoices, Table.lookup_eq_none]
    intro e he
    have := h.choicesFrom_within 0 e he
    omega

/-- The whole plan of a normal node is the segment of the node. -/
theorem Node.IsNormal.exists_segment {node : Node} (h : node.IsNormal)
    (hroutes : node.RoutesPlainly) :
    ∃ p, node.compile? = some p ∧ p.sequence = node.leaves ∧ p.AnchorsApart ∧
      p.Segment node 0 none := by
  obtain ⟨l, -, hlayOut, -⟩ := h.laysOut {} Layout.tidy_empty
  have hp := Node.compile?_of_layOut hlayOut
  obtain ⟨hsequence, hapart, hlays⟩ := h.lays_of_compile hp
  exact ⟨_, hp, hsequence, hapart, h.segment _ 0 none ⟨h, hroutes, fun hne => absurd rfl hne⟩ hlays⟩

end Workflow
