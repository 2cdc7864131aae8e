import Workflow.Proofs.Run.Decisions
import Workflow.Proofs.Run.Parts

/-!
# One arm of a conditional

`Walk.Chooses k w node` is what is known of a walk through the plan of `node` whatever becomes of
its units, as long as they route to no unit and fork nothing: the walk skips arms of conditionals
whose condition it is behind, and if it has entered such a conditional, it skips exactly one of the
arms (`Walk.Takes`). A conditional is left out if the end of its condition has been passed over
(`Node.Routed`): the condition ends in an arm that is skipped, or in a group that does not join.

Every decision of the walk keeps it like this: `Chooses.advance` at a position,
`Chooses.ownUnitDone` after a unit, and `Chooses.groupDone` after a group. At the end of a unit or a
group, all of them come down to `Chooses.choose`, where an arm is skipped, or to `Chooses.moveTo`.
`Walk.Past` says meanwhile that the units that have been executed are behind the walk, and not among
what it skips; so no units of both arms are (`Chooses.exclusive`).
-/

namespace Workflow

/-- The unit that chooses between two arms at a position. -/
def Plan.routerAt? (p : Plan) (position : Nat) : Option String :=
  (p.unitAt? position).filter fun _ => (p.choiceAt? position).isSome

/-! ## Positions that are skipped -/

namespace Walk

variable {w : Walk} {position stop : Nat}

/-- A position is in one of the spans that a walk skips. -/
def Skips (w : Walk) (position : Nat) : Prop :=
  ∃ span ∈ w.skipped, span.start ≤ position ∧ position < span.stop

theorem not_skips_of_skipEnd? (h : w.skipEnd? position = none) : ¬ w.Skips position := by
  rintro ⟨span, hmem, hin⟩
  rw [skipEnd?, Option.map_eq_none_iff, List.find?_eq_none] at h
  exact h span hmem (Span.contains_iff.mpr hin)

theorem exists_of_skipEnd? (h : w.skipEnd? position = some stop) :
    ∃ span ∈ w.skipped, span.start ≤ position ∧ position < span.stop ∧ span.stop = stop := by
  obtain ⟨span, hfind, rfl⟩ := Option.map_eq_some_iff.mp h
  have hcontains : span.contains position = true :=
    List.find?_some (p := fun span : Span => span.contains position) hfind
  have hin := Span.contains_iff.mp hcontains
  exact ⟨span, List.mem_of_find?_eq_some hfind, hin.1, hin.2, rfl⟩

/-- The router whose choice a walk passes over when it advances: the last unit of an arm that it
skips, or of a group whose anchor is a unit, which the walk comes to only if the anchor has failed. -/
def passes? (w : Walk) : Option String :=
  match w.skipEnd? w.position, w.plan.groupAt? w.position with
  | some stop, _ => w.plan.routerAt? (stop - 1)
  | none, some group =>
    if group.anchorAt.isSome then w.plan.routerAt? (group.span.stop - 1) else none
  | none, none => none

theorem passes?_of_group {group : Group Plan} (hskip : w.skipEnd? w.position = none)
    (hgroup : w.plan.groupAt? w.position = some group) (hanchor : group.anchorAt.isSome = true) :
    w.passes? = w.plan.routerAt? (group.span.stop - 1) := by
  simp only [passes?, hskip, hgroup, hanchor, if_true]

end Walk

/-- All routing signals are labels, or ask for a stop, and no units are to be forked. -/
structure Scope.Plain (s : Scope) : Prop where
  route : ∀ u target, (s.slots u).target = some target →
    target = stopValue ∨ ∃ label : Label, target = label.text
  fork : ∀ u entries, (s.slots u).entries = some entries → entries = []

/-! ## What a walk keeps to -/

/-- What has become of the routers of a run: those whose choice a walk may have passed over, and
those that have left the label `true`. -/
structure Routers where
  passed : String → Prop
  agreed : String → Prop

/-- No walk has passed over the end of a condition. -/
def Node.Routed (k : Routers) (condition : Node) : Prop :=
  ∀ u, condition.leaves.getLast? = some u → ¬ k.passed u

/-- The last unit of a condition has left the label `true`. -/
def Node.Agreed (k : Routers) (condition : Node) : Prop :=
  ∃ u, condition.leaves.getLast? = some u ∧ k.agreed u

namespace Walk

/-- A walk skips all positions of a span. -/
def SkipsAll (w : Walk) (span : Span) : Prop :=
  ∀ position, span.start ≤ position → position < span.stop → w.Skips position

/-- What a walk through the plan of a node skips are arms of conditionals whose condition ends at a
position or before it. -/
structure Prunes (w : Walk) (node : Node) (reach : Nat) : Prop where
  normal : node.IsNormal
  plan : node.compile? = some w.plan
  spans : ∀ span ∈ w.skipped, ∃ c t f i behind,
    Node.Stands (.conditional c t f) i behind node 0 none ∧ Node.IsArm c t f i span ∧
      i + c.width ≤ reach

/-- Of a conditional that stands at a position, the walk skips one arm as a whole, and goes into the
other one: into the first one only if the condition has left the label `true`. -/
def WalksOneArm (k : Routers) (w : Walk) (condition whenTrue whenFalse : Node) (i : Nat) : Prop :=
  let firstStart := i + condition.width
  let secondStart := firstStart + whenTrue.width
  (w.SkipsAll ⟨firstStart, secondStart⟩ ∧ ¬ w.Skips secondStart) ∨
    (¬ w.Skips firstStart ∧ w.SkipsAll ⟨secondStart, secondStart + whenFalse.width⟩ ∧
      condition.Agreed k)

/-- The same, said of the positions at which the arms begin. -/
def Takes (k : Routers) (w : Walk) (condition whenTrue : Node) (i : Nat) : Prop :=
  (w.Skips (i + condition.width) ∧ ¬ w.Skips (i + condition.width + whenTrue.width)) ∨
    (¬ w.Skips (i + condition.width) ∧ w.Skips (i + condition.width + whenTrue.width) ∧
      condition.Agreed k)

/-- A walk through the plan of a node takes one arm of each conditional. -/
structure Chooses (k : Routers) (w : Walk) (node : Node) : Prop where
  normal : node.IsNormal
  nodup : node.leaves.Nodup
  plan : node.compile? = some w.plan
  early : w.early = ∅
  /-- What is skipped are arms of conditionals whose condition is behind the walk. -/
  spans : ∀ span ∈ w.skipped, ∃ c t f i behind,
    Node.Stands (.conditional c t f) i behind node 0 none ∧ Node.IsArm c t f i span ∧
      i + c.width ≤ w.position
  takes : ∀ c t f i behind, Node.Stands (.conditional c t f) i behind node 0 none → c.Routed k →
    i + c.width ≤ w.position → ¬ w.Skips i → w.Takes k c t i

/-- Whatever has been executed of the plan stands before a position, and none of it is skipped. -/
def Past (w : Walk) (done : String → Prop) (reach : Nat) : Prop :=
  ∀ position u, w.plan.unitAt? position = some u → done u → position < reach ∧ ¬ w.Skips position

/-- A walk stands at a unit of a node. -/
def AtUnit (w : Walk) (node : Node) (u : String) : Prop :=
  (∃ arms, Node.Stands (.unit u) w.position arms node 0 none) ∧ ¬ w.Skips w.position

/-- A walk is to execute a unit of a node, or is about to, and what has been executed stands before a
position. -/
structure Works (w : Walk) (done : String → Prop) (node : Node) (u : String) (resume : Resume)
    (reach : Nat) : Prop where
  resume : resume = .unit ∨ resume = .alone
  unit : w.AtUnit node u
  past : w.Past done reach

/-- A walk stands at a group of a node, or at the unit before it that is its anchor. -/
structure AtGroup (w : Walk) (node : Node) (branches : List Node) (start : Nat) : Prop where
  stands : ∃ arms, Node.Stands (.parallel branches) start arms node 0 none
  opened : ¬ w.Skips start
  near : w.position = start ∨ (w.position + 1 = start ∧ w.plan.choiceAt? w.position = none)

/-- A walk stands at the last position of a unit or a group, between these arms. -/
def AtEnd (w : Walk) (node : Node) (arms : Node.Arms) : Prop :=
  (∃ work i, work.IsWork ∧ Node.Stands work i arms node 0 none ∧
    i + work.width = w.position + 1) ∧ ¬ w.Skips w.position

end Walk

/-- A position of a node that a walk comes to: that of a unit or a group, or the end of the node. -/
def Node.Reaches (node : Node) (position : Nat) : Prop :=
  position = node.width ∨
    ∃ work arms, work.IsWork ∧ Node.Stands work position arms node 0 none

/-- Behind a part of a node, there is the next unit or group, or the end of the node. -/
theorem Node.Stands.reaches {m node : Node} {i : Nat} {arms : Node.Arms}
    (h : Node.Stands m i arms node 0 none) (hnormal : node.IsNormal) : node.Reaches (i + m.width) := by
  rcases h.next hnormal with hlast | hnext
  · exact .inl (by omega)
  · exact .inr hnext

/-- No units of both arms have been executed of conditionals that stand in a node, outside its
groups. -/
def Node.ExclusiveHere (k : Routers) (done : String → Prop) (node : Node) : Prop :=
  ∀ c t f i behind, Node.Stands (.conditional c t f) i behind node 0 none → c.Routed k →
    ∀ u ∈ t.leaves, ∀ v ∈ f.leaves, ¬ (done u ∧ done v)

/-- What an intent of a walk promises. -/
def Intent.Chooses (k : Routers) (done : String → Prop) (w : Walk) (node : Node) : Intent → Prop
  | .advance => node.Reaches w.position ∧ w.Past done w.position
  | .execute u resume => w.Works done node u resume w.position
  | .fork _ branches resume => ∃ nodes start, w.AtGroup node nodes start ∧
    resume = .group (start + Node.widthOf nodes) ∧ List.Forall₂ Branch.Runs branches nodes ∧
    w.Past done start
  | .finish => node.ExclusiveHere k done

structure Turn.Chooses (k : Routers) (done : String → Prop) (node : Node) (t : Turn) : Prop where
  walk : t.walk.Chooses k node
  next : t.next.Chooses k done t.walk node

namespace Walk

variable {k : Routers} {w w' : Walk} {node : Node} {done : String → Prop} {reach : Nat}
  {c t f : Node} {i start : Nat} {behind arms : Node.Arms} {u : String} {nodes : List Node}

theorem AtUnit.atEnd (h : w.AtUnit node u) : ∃ arms, w.AtEnd node arms := by
  obtain ⟨⟨arms, hstands⟩, hopen⟩ := h
  exact ⟨arms, ⟨.unit u, w.position, trivial, hstands, rfl⟩, hopen⟩

namespace Prunes

theorem sequence (h : w.Prunes node reach) : w.plan.sequence = node.leaves :=
  (h.normal.lays_of_compile h.plan).1

theorem apart (h : w.Prunes node reach) : w.plan.AnchorsApart :=
  (h.normal.lays_of_compile h.plan).2.1

theorem lays (h : w.Prunes node reach) : w.plan.Lays node 0 none :=
  (h.normal.lays_of_compile h.plan).2.2

/-- The parts of a conditional that stands in the node have positions. -/
theorem width_pos (h : w.Prunes node reach)
    (hstands : Node.Stands (.conditional c t f) i behind node 0 none) :
    0 < c.width ∧ 0 < t.width ∧ 0 < f.width := by
  cases hstands.normal h.normal with
  | conditional hc ht hf => exact ⟨hc.width_pos, ht.width_pos, hf.width_pos⟩

/-- Nothing is skipped of the arms of a conditional whose condition lies ahead, if the conditional has
been entered. -/
theorem not_skips_arms (h : w.Prunes node reach)
    (hstands : Node.Stands (.conditional c t f) i behind node 0 none) (hahead : reach < i + c.width)
    {p position : Nat} (hopen : ¬ w.Skips p) (hp : i ≤ p) (hp' : p < i + c.width)
    (hge : i + c.width ≤ position) (hlt : position < i + c.width + t.width + f.width) :
    ¬ w.Skips position := by
  rintro ⟨span, hmem, hstart, hstop⟩
  obtain ⟨c', t', f', j, behind', hstands', harm, hreach⟩ := h.spans span hmem
  have hwidth := h.width_pos hstands
  have hnot : ¬ (span.start ≤ p ∧ p < span.stop) := fun hin => hopen ⟨span, hmem, hin⟩
  rcases hstands.nested_or_apart hstands' with hin | hin | hapart
  · -- an arm around the conditional is skipped with all of it, or it is the other arm
    cases hin with
    | self => omega
    | condition hin | whenTrue hin | whenFalse hin =>
      have hwithin := hin.within
      rw [Node.width_conditional] at hwithin
      rcases harm with rfl | rfl <;> simp only at * <;> omega
  · -- a conditional inside is part of the condition, since those in the arms lie ahead
    cases hin with
    | self => omega
    | condition hin | whenTrue hin | whenFalse hin =>
      have hwithin := hin.within
      rw [Node.width_conditional] at hwithin
      rcases harm with rfl | rfl <;> simp only at * <;> omega
  · rw [Node.width_conditional, Node.width_conditional] at hapart
    rcases harm with rfl | rfl <;> simp only at * <;> omega

/-- A unit or a group is walked, or skipped as a whole. -/
theorem not_skips_inside {work : Node} (h : w.Prunes node reach) (hwork : work.IsWork)
    (hstands : Node.Stands work i behind node 0 none) (hopen : ¬ w.Skips i) {position : Nat}
    (hge : i ≤ position) (hlt : position < i + work.width) : ¬ w.Skips position := by
  rintro ⟨span, hmem, hstart, hstop⟩
  obtain ⟨c, t, f, j, behind', hstands', harm, -⟩ := h.spans span hmem
  have hnot : ¬ (span.start ≤ i ∧ i < span.stop) := fun hin => hopen ⟨span, hmem, hin⟩
  rcases hwork.arm_cases hstands hstands' harm with hcase | hcase | hcase <;> omega

/-! ## Where a walk comes to -/

/-- Where a condition ends, the plan has the choice between its arms. -/
theorem choiceAt?_ne_none (h : w.Prunes node reach)
    (hstands : Node.Stands (.conditional c t f) i behind node 0 none) {position : Nat}
    (hend : i + c.width = position + 1) : w.plan.choiceAt? position ≠ none := by
  obtain ⟨choice, -, -, hchoice, -⟩ := (h.lays.part hstands).parts.1.arms
  rw [hend, Nat.add_sub_cancel] at hchoice
  rw [hchoice]
  exact Option.some_ne_none choice

/-- Where a condition ends, its last unit is the router. -/
theorem exists_routerAt? (h : w.Prunes node reach) (position : Nat)
    (hstands : Node.Stands (.conditional c t f) i behind node 0 none)
    (hend : i + c.width = position + 1) :
    ∃ router, c.leaves.getLast? = some router ∧ w.plan.routerAt? position = some router := by
  have hlays := (h.lays.part hstands).parts.1
  have hlast := List.getLast?_eq_some_getLast hlays.normal.leaves_ne_nil
  have hunit : w.plan.unitAt? (i + c.width - 1) = some _ := hlays.reads.last hlast
  rw [hend, Nat.add_sub_cancel] at hunit
  have hchoice := Option.isSome_iff_ne_none.mpr (h.choiceAt?_ne_none hstands hend)
  exact ⟨_, hlast, Option.filter_eq_some_iff.mpr ⟨hunit, hchoice⟩⟩

theorem skipped_choose {choice : Choice} (h : w.Prunes node reach)
    (hstands : Node.Stands (.conditional c t f) i behind node 0 none)
    (hend : i + c.width = w.position + 1) (hchoice : w.plan.choiceAt? w.position = some choice)
    (label : Label) : (w.chooseArm choice label).forward.skipped =
      w.skipped ++ [Plan.otherSpan (some label) (i + c.width) t f] := by
  obtain ⟨_, first, second, hat, -, -, harms⟩ := (h.lays.part hstands).parts.1.arms
  rw [hend, Nat.add_sub_cancel] at hat
  cases hchoice.symm.trans hat
  rw [show i + c.width - 1 + 1 = i + c.width by omega] at harms
  exact skipped_chooseArm (some label) harms

/-- Behind a walk that is at the end of a unit or a group, the next one begins. -/
theorem reaches_of_atEnd (h : w.Prunes node reach) (hend : w.AtEnd node arms) :
    node.Reaches (w.position + 1) := by
  obtain ⟨⟨work, i, -, hstands, hposition⟩, -⟩ := hend
  rcases hstands.next h.normal with hlast | hnext
  · exact .inl (by omega)
  · rw [hposition] at hnext
    exact .inr hnext

theorem armsAt_of_atEnd (h : w.Prunes node reach) (hend : w.AtEnd node arms) :
    w.plan.ArmsAt w.position arms := by
  obtain ⟨⟨work, i, -, hstands, hposition⟩, -⟩ := hend
  have harms := (h.lays.part hstands).arms
  rwa [hposition, Nat.add_sub_cancel] at harms

/-- Behind an arm, there is the next unit or group, or the end of the node. -/
theorem reaches_of_arm (h : w.Prunes node reach)
    (hstands : Node.Stands (.conditional c t f) i behind node 0 none) {span : Span}
    (hspan : Node.IsArm c t f i span) : node.Reaches span.stop := by
  rcases hspan with rfl | rfl
  · exact Node.Stands.reaches (.trans (.whenTrue .self) hstands) h.normal
  · exact Node.Stands.reaches (.trans (.whenFalse .self) hstands) h.normal

/-- Where an arm begins, no group is anchored on the unit before it. -/
theorem clear_of_arm (h : w.Prunes node reach)
    (hstands : Node.Stands (.conditional c t f) i behind node 0 none) {span : Span}
    (hspan : Node.IsArm c t f i span) : w.plan.Clear span.start := by
  obtain ⟨choice, first, second, hchoice, -, -, harms⟩ := (h.lays.part hstands).parts.1.arms
  have hwidth := h.width_pos hstands
  obtain ⟨htrue, hfalse, -⟩ := h.apart.clear_of_arms hchoice harms
  rw [show i + c.width - 1 + 1 = i + c.width by omega] at htrue hfalse
  rcases hspan with rfl | rfl
  · exact htrue
  · exact hfalse

/-- A group whose anchor is the unit that a walk stands at is the next that the walk comes to. -/
theorem atGroup_of_groupAfter? {group : Group Plan} (h : w.Prunes node reach)
    (hunit : w.AtUnit node u) (hgroup : w.plan.groupAfter? w.position = some group) :
    ∃ nodes, w.AtGroup node nodes (w.position + 1) ∧
      group.span.stop = w.position + 1 + Node.widthOf nodes ∧
      List.Forall₂ Branch.Runs group.branches nodes := by
  obtain ⟨hat, hanchor⟩ := Option.filter_eq_some_iff.mp hgroup
  have hanchor : group.anchorAt = some w.position := of_decide_eq_true hanchor
  have hlength : w.plan.length = node.width := by rw [Plan.length, h.sequence, Node.width]
  -- no arm begins where a group does that is anchored on a unit
  have hnotClear : ¬ w.plan.Clear (w.position + 1) := by
    intro hclear
    rw [hclear group hat] at hanchor
    cases hanchor
  obtain ⟨⟨arms, hstands⟩, hopen⟩ := hunit
  rcases hstands.next h.normal with hlast | ⟨work, arms', hwork, hnext⟩
  · have hin := (h.apart _ group _ hat hanchor).2.1
    rw [Node.width_unit] at hlast
    omega
  rw [Node.width_unit] at hnext
  have hlays := h.lays.part hnext
  cases work with
  | sequence | conditional => exact hwork.elim
  | unit name =>
    rw [hlays.groupAt?_eq_none] at hat
    cases hat
  | parallel nodes =>
    obtain ⟨other, hother, hjoins⟩ := hlays.joins
    cases hat.symm.trans hother
    refine ⟨nodes, ⟨⟨arms', hnext⟩, ?_, .inr ⟨rfl, ?_⟩⟩, by rw [hjoins.span], hjoins.runs⟩
    · rintro ⟨span, hmem, hstart, hstop⟩
      obtain ⟨c, t, f, i, behind, hcond, harm, -⟩ := h.spans span hmem
      rcases Nat.lt_or_ge w.position span.start with hfirst | hfirst
      · have hclear := h.clear_of_arm hcond harm
        rw [show span.start = w.position + 1 by omega] at hclear
        exact hnotClear hclear
      · exact hopen ⟨span, hmem, hfirst, by omega⟩
    · have harms : w.plan.ArmsAt w.position arms := by
        have harms := (h.lays.part hstands).arms
        rwa [Node.width_unit, Nat.add_sub_cancel] at harms
      rcases arms with _ | ⟨t, f⟩
      · exact harms
      · obtain ⟨choice, first, second, hchoice, -, -, hentries⟩ := harms
        exact absurd (h.apart.clear_of_arms hchoice hentries).1 hnotClear

theorem unitAt?_of_atUnit (h : w.Prunes node reach) (hunit : w.AtUnit node u) :
    w.plan.unitAt? w.position = some u := by
  obtain ⟨⟨arms, hstands⟩, -⟩ := hunit
  exact (h.lays.part hstands).reads.head rfl

end Prunes

namespace Chooses

theorem prunes (h : w.Chooses k node) : w.Prunes node w.position :=
  ⟨h.normal, h.plan, h.spans⟩

theorem sequence (h : w.Chooses k node) : w.plan.sequence = node.leaves := h.prunes.sequence

theorem lays (h : w.Chooses k node) : w.plan.Lays node 0 none := h.prunes.lays

/-! ## What is skipped with an arm -/

theorem width_pos (h : w.Chooses k node)
    (hstands : Node.Stands (.conditional c t f) i behind node 0 none) :
    0 < c.width ∧ 0 < t.width ∧ 0 < f.width := h.prunes.width_pos hstands

/-- A conditional is entered, or skipped as a whole. -/
theorem skips_inside (h : w.Chooses k node)
    (hstands : Node.Stands (.conditional c t f) i behind node 0 none) (hskips : w.Skips i)
    {position : Nat} (hge : i ≤ position) (hlt : position < i + c.width + t.width + f.width) :
    w.Skips position := by
  obtain ⟨span, hmem, hstart, hstop⟩ := hskips
  obtain ⟨c', t', f', j, behind', hstands', harm, -⟩ := h.spans span hmem
  have hwidth := h.width_pos hstands
  refine ⟨span, hmem, ?_⟩
  rcases hstands.conditional_cases h.normal hstands' harm with ⟨rfl, rfl, rfl, rfl⟩ |
    hcase | hcase | hcase | hcase | hcase
  · rcases harm with rfl | rfl <;> simp only at hstart <;> omega
  all_goals omega

/-- An arm of a conditional that has been entered is walked, or skipped as a whole. -/
theorem skips_arm (h : w.Chooses k node)
    (hstands : Node.Stands (.conditional c t f) i behind node 0 none) (hopen : ¬ w.Skips i)
    {span : Span} (hspan : Node.IsArm c t f i span) (hskips : w.Skips span.start) {position : Nat}
    (hge : span.start ≤ position) (hlt : position < span.stop) : w.Skips position := by
  obtain ⟨other, hmem, hstart, hstop⟩ := hskips
  obtain ⟨c', t', f', j, behind', hstands', harm, -⟩ := h.spans other hmem
  have hwidth := h.width_pos hstands
  have hnot : ¬ (other.start ≤ i ∧ i < other.stop) := fun hin => hopen ⟨other, hmem, hin⟩
  refine ⟨other, hmem, ?_⟩
  rcases hstands.conditional_cases h.normal hstands' harm with ⟨rfl, rfl, rfl, rfl⟩ |
    hcase | hcase | hcase | hcase | hcase
  · rcases hspan with rfl | rfl <;> rcases harm with rfl | rfl <;> simp only at * <;> omega
  all_goals rcases hspan with rfl | rfl <;> simp only at * <;> omega

/-- The arms of a conditional that lies ahead are open, if the conditional has been entered. -/
theorem not_skips_arm (h : w.Chooses k node)
    (hstands : Node.Stands (.conditional c t f) i behind node 0 none) (hopen : ¬ w.Skips i)
    (hahead : w.position < i + c.width) {span : Span} (hspan : Node.IsArm c t f i span) :
    ¬ w.Skips span.start := by
  have hwidth := h.width_pos hstands
  refine h.prunes.not_skips_arms hstands hahead hopen (Nat.le_refl i) (by omega) ?_ ?_
  all_goals rcases hspan with rfl | rfl <;> simp only <;> omega

/-- Of a conditional that a walk has entered, and whose condition it is behind, it walks one arm. -/
theorem walksOneArm (h : w.Chooses k node)
    (hstands : Node.Stands (.conditional c t f) i behind node 0 none) (hrouted : c.Routed k)
    (hbehind : i + c.width ≤ w.position) (hopen : ¬ w.Skips i) : w.WalksOneArm k c t f i := by
  rcases h.takes c t f i behind hstands hrouted hbehind hopen with ⟨hskips, hwalk⟩ |
    ⟨hwalk, hskips, hagreed⟩
  · exact .inl ⟨fun _ => h.skips_arm hstands hopen (.inl rfl) hskips, hwalk⟩
  · exact .inr ⟨hwalk, fun _ => h.skips_arm hstands hopen (.inr rfl) hskips, hagreed⟩

/-! ## Units of both arms -/

/-- A unit of a part stands where the part does. -/
theorem exists_position {m : Node} (h : w.Chooses k node)
    (hstands : Node.Stands m i behind node 0 none) (hu : u ∈ m.leaves) :
    ∃ position, i ≤ position ∧ position < i + m.width ∧ w.plan.unitAt? position = some u := by
  obtain ⟨offset, hlt, hget⟩ := List.getElem_of_mem hu
  refine ⟨i + offset, by omega, Nat.add_lt_add_left hlt i, ?_⟩
  rw [(h.lays.part hstands).reads.unitAt? hlt, ← hget, List.getElem?_eq_getElem hlt]

/-- No units of both arms of a conditional have been executed. -/
theorem exclusive (h : w.Chooses k node) (hpast : w.Past done reach)
    (hreach : ∀ c t f i behind, Node.Stands (.conditional c t f) i behind node 0 none →
      i + c.width + t.width < reach → i + c.width ≤ w.position) :
    node.ExclusiveHere k done := by
  rintro c t f i behind hstands hrouted u hu v hv ⟨hdone, hdone'⟩
  have htrue : Node.Stands t (i + c.width) none node 0 none := .trans (.whenTrue .self) hstands
  have hfalse : Node.Stands f (i + c.width + t.width) behind node 0 none :=
    .trans (.whenFalse .self) hstands
  obtain ⟨p, hge, hlt, hunit⟩ := h.exists_position htrue hu
  obtain ⟨q, hge', hlt', hunit'⟩ := h.exists_position hfalse hv
  obtain ⟨-, hopen⟩ := hpast p u hunit hdone
  obtain ⟨hbefore, hopen'⟩ := hpast q v hunit' hdone'
  have hpassed := hreach c t f i behind hstands (by omega)
  have hentered : ¬ w.Skips i := fun hskips =>
    hopen (h.skips_inside hstands hskips (by omega) (by omega))
  rcases h.takes c t f i behind hstands hrouted hpassed hentered with ⟨hskips, -⟩ | ⟨-, hskips, -⟩
  · exact hopen (h.skips_arm hstands hentered (.inl rfl) hskips hge hlt)
  · exact hopen' (h.skips_arm hstands hentered (.inr rfl) hskips hge' hlt')

theorem exclusive_of_le (h : w.Chooses k node) (hpast : w.Past done reach)
    (hreach : reach ≤ w.position + 1) : node.ExclusiveHere k done :=
  h.exclusive hpast fun c t f i behind hstands hlt => by
    have := h.width_pos hstands
    omega

theorem exclusive_of_atGroup (h : w.Chooses k node) (hgroup : w.AtGroup node nodes start)
    (hpast : w.Past done (start + Node.widthOf nodes)) : node.ExclusiveHere k done := by
  obtain ⟨⟨arms, hstands⟩, -, hnear⟩ := hgroup
  refine h.exclusive hpast fun c t f i behind hcond hlt => ?_
  have hwidth := h.width_pos hcond
  have hwork : (Node.parallel nodes).IsWork := trivial
  have hcases := hwork.arm_cases hstands hcond (.inr rfl)
  rw [Node.width_parallel] at hcases
  simp only at hcases
  omega

/-! ## Moving on -/

/-- A walk that moves on without choosing an arm, and without coming behind a condition where it
should have chosen one. -/
theorem moveTo (h : w.Chooses k node) (hplan : w'.plan = w.plan) (hearly : w'.early = w.early)
    (hskipped : w'.skipped = w.skipped) (hle : w.position ≤ w'.position)
    (hpassed : ∀ c t f i behind, Node.Stands (.conditional c t f) i behind node 0 none →
      c.Routed k → w.position < i + c.width → i + c.width ≤ w'.position → w.Skips i) :
    w'.Chooses k node where
  normal := h.normal
  nodup := h.nodup
  plan := hplan ▸ h.plan
  early := hearly.trans h.early
  spans := by
    intro span hmem
    rw [hskipped] at hmem
    obtain ⟨c, t, f, i, behind, hstands, harm, hbehind⟩ := h.spans span hmem
    exact ⟨c, t, f, i, behind, hstands, harm, Nat.le_trans hbehind hle⟩
  takes := by
    intro c t f i behind hstands hrouted hbehind hopen
    have hsame : ∀ position, w'.Skips position ↔ w.Skips position := by
      intro position
      rw [Skips, hskipped]
      rfl
    rw [hsame] at hopen
    rw [Takes, hsame, hsame]
    rcases Nat.lt_or_ge w.position (i + c.width) with hahead | hbehind'
    · exact absurd (hpassed c t f i behind hstands hrouted hahead hbehind) hopen
    · exact h.takes c t f i behind hstands hrouted hbehind' hopen

/-- Failures and stops have nothing to do with arms. -/
theorem of_eq (h : w.Chooses k node) (hplan : w'.plan = w.plan) (hearly : w'.early = w.early)
    (hskipped : w'.skipped = w.skipped) (hposition : w'.position = w.position) :
    w'.Chooses k node :=
  h.moveTo hplan hearly hskipped (Nat.le_of_eq hposition.symm)
    fun c t f i behind _ _ hahead hbehind => by omega

end Chooses

theorem Past.of_eq (h : w.Past done reach) (hplan : w'.plan = w.plan)
    (hskipped : w'.skipped = w.skipped) : w'.Past done reach := by
  intro position u hunit hdone
  rw [hplan] at hunit
  obtain ⟨hlt, hopen⟩ := h position u hunit hdone
  refine ⟨hlt, ?_⟩
  rwa [Skips, hskipped]

theorem Past.mono {more : Nat} (h : w.Past done reach) (hle : reach ≤ more) : w.Past done more :=
  fun position u hunit hdone =>
    ⟨Nat.lt_of_lt_of_le (h position u hunit hdone).1 hle, (h position u hunit hdone).2⟩

/-! ## Choosing -/

namespace Chooses

/-- Conditions of two conditionals that end at one position are those of one conditional. -/
theorem conditional_unique {c' t' f' : Node} {j : Nat} {behind' : Node.Arms} (h : w.Chooses k node)
    (hstands : Node.Stands (.conditional c t f) i behind node 0 none)
    (hstands' : Node.Stands (.conditional c' t' f') j behind' node 0 none)
    (hend : i + c.width = j + c'.width) : c = c' ∧ t = t' ∧ f = f' ∧ i = j := by
  have hwidth := h.width_pos hstands
  have hwidth' := h.width_pos hstands'
  rcases hstands.conditional_cases h.normal hstands' (.inl rfl) with hsame | hcase |
    hcase | hcase | hcase | hcase
  · exact hsame
  all_goals
    simp only at *
    omega

theorem isArm_otherSpan (label : Label) :
    Node.IsArm c t f i (Plan.otherSpan (some label) (i + c.width) t f) := by
  unfold Plan.otherSpan
  split
  · exact .inr rfl
  · exact .inl rfl

/-- At the end of a condition, a walk takes the arm with a label: it skips the other one. -/
theorem choose {choice : Choice} (h : w.Chooses k node)
    (hstands : Node.Stands (.conditional c t f) i behind node 0 none)
    (hend : i + c.width = w.position + 1) (hchoice : w.plan.choiceAt? w.position = some choice)
    (label : Label) (hagreed : label = true → c.Agreed k) :
    (w.chooseArm choice label).forward.Chooses k node := by
  have hskipped := h.prunes.skipped_choose hstands hend hchoice label
  have harm := isArm_otherSpan (c := c) (t := t) (f := f) (i := i) label
  have hskips : ∀ position, (w.chooseArm choice label).forward.Skips position ↔
      w.Skips position ∨ ((Plan.otherSpan (some label) (i + c.width) t f).start ≤ position ∧
        position < (Plan.otherSpan (some label) (i + c.width) t f).stop) := by
    intro position
    simp only [Skips, hskipped, List.mem_append, List.mem_singleton, or_and_right, exists_or,
      exists_eq_left]
  have hwidth := h.width_pos hstands
  refine ⟨h.normal, h.nodup, h.plan, h.early, ?_, ?_⟩
  case refine_1 =>
    intro span hmem
    rw [hskipped] at hmem
    rcases List.mem_append.mp hmem with hmem | hmem
    · obtain ⟨c', t', f', j, behind', hstands', harm', hbehind⟩ := h.spans span hmem
      exact ⟨c', t', f', j, behind', hstands', harm', Nat.le_succ_of_le hbehind⟩
    · rw [List.mem_singleton.mp hmem]
      exact ⟨c, t, f, i, behind, hstands, harm, Nat.le_of_eq hend⟩
  case refine_2 =>
    intro c' t' f' j behind' hstands' hrouted hbehind hopen
    have hbehind : j + c'.width ≤ w.position + 1 := hbehind
    rw [hskips, not_or] at hopen
    rw [Takes, hskips, hskips]
    have hwidth' := h.width_pos hstands'
    rcases Nat.lt_or_ge w.position (j + c'.width) with hahead | hpassed
    · -- it is the conditional of which an arm is taken now
      obtain ⟨rfl, rfl, rfl, rfl⟩ := h.conditional_unique hstands' hstands (by omega)
      have htrue := h.not_skips_arm hstands' hopen.1 hahead (.inl rfl)
      have hfalse := h.not_skips_arm hstands' hopen.1 hahead (.inr rfl)
      simp only at htrue hfalse
      unfold Plan.otherSpan
      cases label with
      | false =>
        rw [if_neg (by simp)]
        refine .inl ⟨.inr ⟨by simp only; omega, by simp only; omega⟩, not_or.mpr ⟨hfalse, ?_⟩⟩
        simp only
        omega
      | true =>
        rw [if_pos rfl]
        refine .inr ⟨not_or.mpr ⟨htrue, ?_⟩, .inr ⟨by simp only; omega, by simp only; omega⟩,
          hagreed rfl⟩
        simp only
        omega
    · -- the arm that is skipped now does not begin where an arm of another conditional does
      have hother : ∀ span, Node.IsArm c' t' f' j span →
          ¬ ((Plan.otherSpan (some label) (i + c.width) t f).start ≤ span.start ∧
            span.start < (Plan.otherSpan (some label) (i + c.width) t f).stop) := by
        intro span hspan
        have hstart : w.position < (Plan.otherSpan (some label) (i + c.width) t f).start := by
          rcases harm with harm | harm <;> rw [harm] <;> simp only <;> omega
        rcases hstands'.conditional_cases h.normal hstands harm with ⟨rfl, rfl, rfl, rfl⟩ |
          hcase | hcase | hcase | hcase | hcase
        · omega
        all_goals rcases hspan with rfl | rfl <;> simp only at * <;> omega
      have htrue := hother _ (.inl rfl)
      have hfalse := hother _ (.inr rfl)
      simp only at htrue hfalse
      rcases h.takes c' t' f' j behind' hstands' hrouted hpassed hopen.1 with ⟨hskip, hwalk⟩ |
        ⟨hwalk, hskip, hlabel⟩
      · exact .inl ⟨.inl hskip, not_or.mpr ⟨hwalk, hfalse⟩⟩
      · exact .inr ⟨not_or.mpr ⟨hwalk, htrue⟩, .inl hskip, hlabel⟩

/-- What has been executed is not among what is skipped from now on. -/
theorem past_choose {choice : Choice} (h : w.Chooses k node)
    (hstands : Node.Stands (.conditional c t f) i behind node 0 none)
    (hend : i + c.width = w.position + 1) (hchoice : w.plan.choiceAt? w.position = some choice)
    (label : Label) (hpast : w.Past done (w.position + 1)) :
    (w.chooseArm choice label).forward.Past done (w.position + 1) := by
  have hskipped := h.prunes.skipped_choose hstands hend hchoice label
  intro position u hunit hdone
  obtain ⟨hlt, hopen⟩ := hpast position u hunit hdone
  refine ⟨hlt, ?_⟩
  rintro ⟨span, hmem, hin⟩
  rw [hskipped] at hmem
  rcases List.mem_append.mp hmem with hmem | hmem
  · exact hopen ⟨span, hmem, hin⟩
  · rw [List.mem_singleton.mp hmem] at hin
    unfold Plan.otherSpan at hin
    split at hin <;> simp only at hin <;> omega

/-! ## At the end of a unit or a group -/

/-- Going on where nothing is decided. -/
theorem proceed (h : w.Chooses k node) (hend : w.AtEnd node none)
    (hpast : w.Past done (w.position + 1)) (scope : Scope) :
    (w.proceed scope).Chooses k done node := by
  have hnone : w.plan.choiceAt? w.position = none := h.prunes.armsAt_of_atEnd hend
  refine ⟨h.moveTo rfl rfl rfl (Nat.le_succ _) ?_, h.prunes.reaches_of_atEnd hend, hpast.of_eq rfl rfl⟩
  intro c t f i behind hstands _ hahead hbehind
  have hbehind : i + c.width ≤ w.position + 1 := hbehind
  exact absurd hnone (h.prunes.choiceAt?_ne_none hstands (by omega))

/-- Going on where there is a choice, with the arm that a label selects. -/
theorem take {choice : Choice} (h : w.Chooses k node) (hend : w.AtEnd node (some (t, f)))
    (hpast : w.Past done (w.position + 1)) (hchoice : w.plan.choiceAt? w.position = some choice)
    (label : Label) (hagreed : label = true → ∀ u, w.plan.unitAt? w.position = some u → k.agreed u)
    (scope : Scope) : ((w.chooseArm choice label).proceed scope).Chooses k done node := by
  have hreaches := h.prunes.reaches_of_atEnd hend
  obtain ⟨⟨work, j, -, hstands, hposition⟩, -⟩ := hend
  rcases hstands.conditional_of_arms with ⟨c, i, behind, hcond, hlast⟩ | ⟨hnone, -⟩
  · rw [hposition] at hlast
    refine ⟨h.choose hcond hlast hchoice label fun htrue => ?_, hreaches,
      h.past_choose hcond hlast hchoice label hpast⟩
    -- the router is the last unit of the condition
    have hlays := (h.lays.part hcond).parts.1
    have hrouter := List.getLast?_eq_some_getLast hlays.normal.leaves_ne_nil
    refine ⟨_, hrouter, hagreed htrue _ ?_⟩
    have hunit := hlays.reads.last hrouter
    rwa [show i + c.leaves.length - 1 = w.position by unfold Node.width at hlast; omega] at hunit
  · cases hnone

/-- The label that a label as a routing value selects, which is `true` only for `true`. -/
theorem exists_labelFor? {choice : Choice} {whenTrue whenFalse : Arm}
    (harms : choice.arms.entries = [(false, whenFalse), (true, whenTrue)]) (label : Label) :
    ∃ chosen, choice.labelFor? label.text = some chosen ∧ (chosen = true → label = true) := by
  have htexts : Label.text false ≠ Label.text true := by decide
  unfold Choice.labelFor?
  rw [harms]
  cases label with
  | false => exact ⟨false, by simp, fun h => h⟩
  | true =>
    by_cases hname : whenFalse.target = Label.text true
    · exact ⟨false, by simp [List.find?, hname], fun _ => rfl⟩
    · exact ⟨true, by simp [List.find?, htexts, hname], fun _ => rfl⟩

/-- Whatever label a unit or a group has left, or if it asks for a stop, the walk keeps to it. -/
theorem steer {signal : Option String} (h : w.Chooses k node) (hend : w.AtEnd node arms)
    (hpast : w.Past done (w.position + 1))
    (hsignal : ∀ target, signal = some target →
      target = stopValue ∨ ∃ label : Label, target = label.text)
    (hagreed : signal = some (Label.text true) →
      ∀ u, w.plan.unitAt? w.position = some u → k.agreed u)
    (scope : Scope) (hasRun : String → Bool) (u : String) :
    (w.steer scope hasRun u signal).Chooses k done node := by
  have hstop : (w.stop scope).Chooses k done node :=
    ⟨h.of_eq rfl rfl rfl rfl, h.exclusive_of_le hpast (Nat.le_refl _)⟩
  have harms := h.prunes.armsAt_of_atEnd hend
  unfold Walk.steer
  -- with no conditional that ends here every label leads straight on
  rcases arms with _ | ⟨t, f⟩
  · have hnone : w.plan.choiceAt? w.position = none := harms
    rw [hnone]
    rcases signal with _ | target
    · exact h.proceed hend hpast scope
    · simp only
      split
      · exact hstop
      · next hne =>
        obtain ⟨label, rfl⟩ := (hsignal target rfl).resolve_left hne
        rw [if_pos (by rw [Label.ofText?_text]; rfl)]
        exact h.proceed hend hpast _
  · obtain ⟨choice, first, second, hchoice, -, -, hentries⟩ := harms
    rw [hchoice]
    rcases signal with _ | target
    · exact h.take hend hpast hchoice false (by simp) scope
    · simp only
      split
      · exact hstop
      · next hne =>
        obtain ⟨label, rfl⟩ := (hsignal target rfl).resolve_left hne
        obtain ⟨chosen, hchosen, htrue⟩ := exists_labelFor? hentries label
        rw [hchosen]
        exact h.take hend hpast hchoice chosen (fun heq => hagreed (by rw [htrue heq])) scope

/-- After a failure, a walk takes the second arm. -/
theorem fallThrough (h : w.Chooses k node) (hend : w.AtEnd node arms)
    (hpast : w.Past done (w.position + 1)) (scope : Scope) :
    (w.fallThrough.proceed scope).Chooses k done node := by
  have harms := h.prunes.armsAt_of_atEnd hend
  unfold Walk.fallThrough
  rcases arms with _ | ⟨t, f⟩
  · have hnone : w.plan.choiceAt? w.position = none := harms
    rw [hnone]
    exact h.proceed hend hpast scope
  · obtain ⟨choice, -, -, hchoice, -⟩ := harms
    rw [hchoice]
    exact h.take hend hpast hchoice false (by simp) scope

/-! ## At a position -/

/-- A walk that skips an arm does not come behind a condition by that, unless it skips the end of the
condition, or the arm has all of the conditional in it. -/
theorem skips_of_skip (h : w.Chooses k node) {span : Span} (hmem : span ∈ w.skipped)
    (hstart : span.start ≤ w.position)
    (hpassed : ∀ u, w.plan.routerAt? (span.stop - 1) = some u → k.passed u)
    (hstands : Node.Stands (.conditional c t f) i behind node 0 none) (hrouted : c.Routed k)
    (hahead : w.position < i + c.width) (hbehind : i + c.width ≤ span.stop) : w.Skips i := by
  obtain ⟨c', t', f', j, behind', hstands', harm, -⟩ := h.spans span hmem
  have hwidth := h.width_pos hstands
  have hwidth' := h.width_pos hstands'
  rcases hstands.conditional_cases h.normal hstands' harm with ⟨rfl, rfl, rfl, rfl⟩ |
    hcase | hcase | hcase | hcase | hcase
  · rcases harm with rfl | rfl <;> simp only at hstart <;> omega
  · -- the arm is the end of the condition
    obtain ⟨router, hlast, hrouter⟩ := h.prunes.exists_routerAt? (span.stop - 1) hstands
      (by omega)
    exact absurd (hpassed router hrouter) (hrouted router hlast)
  · omega
  · omega
  · exact ⟨span, hmem, hcase.1, by omega⟩
  · omega

/-- Deciding at a position. A group whose anchor is a unit is passed over here. -/
theorem advance (h : w.Chooses k node) (hreaches : node.Reaches w.position)
    (hpast : w.Past done w.position)
    (hpassed : ∀ u, w.passes? = some u → k.passed u)
    (scope : Scope) (hasRun : String → Bool) : (w.advance scope hasRun).Chooses k done node := by
  have hlength : w.plan.length = node.width := by rw [Plan.length, h.sequence, Node.width]
  unfold Walk.advance
  rcases hunit : w.plan.unitAt? w.position with _ | unitId
  · exact ⟨h, h.exclusive_of_le hpast (Nat.le_succ _)⟩
  rcases hreaches with hlast | ⟨work, arms, hwork, hstands⟩
  · have hlt : w.position < w.plan.length := (List.getElem?_eq_some_iff.mp hunit).1
    omega
  rcases hskip : w.skipEnd? w.position with _ | stop
  · have hopen := not_skips_of_skipEnd? hskip
    have hlays := h.lays.part hstands
    cases work with
    | sequence | conditional => exact hwork.elim
    | unit name =>
      have hnone := hlays.groupAt?_eq_none
      obtain rfl : unitId = name := Option.some.inj (hunit.symm.trans (hlays.reads.head rfl))
      have hearly : w.early.get? unitId = none := by
        rw [h.early]
        rfl
      simp only [hnone, hearly]
      exact ⟨h, .inl rfl, ⟨⟨arms, hstands⟩, hopen⟩, hpast⟩
    | parallel nodes =>
      obtain ⟨group, hgroup, hjoins⟩ := hlays.joins
      have hstop : group.span.stop = w.position + Node.widthOf nodes := by rw [hjoins.span]
      have hwidth := hlays.normal.width_pos
      rw [Node.width_parallel] at hwidth
      simp only [hgroup]
      split
      · next hanchor =>
        refine ⟨h.moveTo rfl rfl rfl (by simp only; omega) ?_, ?_, ?_⟩
        · -- the group is passed over, and with it the end of the condition that it closes
          intro c t f i behind hcond hrouted hahead hbehind
          have hend := hwork.end_eq hstands hcond hahead (by
            rw [Node.width_parallel, ← hstop]
            exact hbehind)
          rw [Node.width_parallel, ← hstop] at hend
          obtain ⟨router, hlast, hrouter⟩ := h.prunes.exists_routerAt? (group.span.stop - 1)
            hcond (by omega)
          rw [← passes?_of_group hskip hgroup hanchor] at hrouter
          exact absurd (hpassed router hrouter) (hrouted router hlast)
        · show node.Reaches group.span.stop
          rw [hstop]
          rcases hstands.next h.normal with hlast | hnext
          · exact .inl (by rw [Node.width_parallel] at hlast; omega)
          · exact .inr hnext
        · have hle : w.position ≤ group.span.stop := by omega
          exact (hpast.mono hle).of_eq rfl rfl
      · refine ⟨h, nodes, w.position, ⟨⟨arms, hstands⟩, hopen, .inl rfl⟩, ?_, hjoins.runs, hpast⟩
        rw [hstop]
  · obtain ⟨span, hmem, hstart, hlt, rfl⟩ := exists_of_skipEnd? hskip
    obtain ⟨c, t, f, i, behind, hcond, harm, -⟩ := h.spans span hmem
    refine ⟨h.moveTo rfl rfl rfl (Nat.le_of_lt hlt) ?_, h.prunes.reaches_of_arm hcond harm,
      (hpast.mono (Nat.le_of_lt hlt)).of_eq rfl rfl⟩
    have hpassedHere : ∀ u, w.plan.routerAt? (span.stop - 1) = some u → k.passed u :=
      fun u hrouter => hpassed u (by rw [passes?, hskip]; exact hrouter)
    exact fun c t f i behind hstands hrouted hahead hbehind =>
      h.skips_of_skip hmem hstart hpassedHere hstands hrouted hahead hbehind

/-! ## After a unit -/

/-- Deciding after the unit that the walk stands at. -/
theorem ownUnitDone {scope : Scope} {result : Option Mishap} (h : w.Chooses k node)
    (hunit : w.AtUnit node u) (hpast : w.Past done (w.position + 1)) (hscope : scope.Plain)
    (hagreed : result = none → (scope.slots u).target = some (Label.text true) → k.agreed u)
    (hasRun : String → Bool) (tolerant : Bool) :
    (w.ownUnitDone scope hasRun tolerant result).Chooses k done node := by
  obtain ⟨arms, hend⟩ := hunit.atEnd
  have hat := h.prunes.unitAt?_of_atUnit hunit
  have hexclusive := h.exclusive_of_le hpast (Nat.le_refl _)
  unfold Walk.ownUnitDone
  rw [hat]
  rcases result with _ | f
  · simp only
    have hsignal : ∀ target, (scope.takeRoute u).1 = some target →
        target = stopValue ∨ ∃ label : Label, target = label.text := by
      intro target htarget
      rw [Scope.takeRoute_fst] at htarget
      exact hscope.route u target htarget
    -- no unit has asked for a fork, so only the plan can fork here
    have hfork : ((scope.takeRoute u).2.takeFork u).1.filter (· ≠ []) = none := by
      rw [Scope.takeFork_fst, Slots.entries, (Scope.slots_takeRoute scope u).2,
        Option.filter_eq_none_iff]
      intro entries hentries
      simpa using hscope.fork u entries hentries
    unfold Walk.obey
    rw [hfork]
    split
    · exact ⟨h.of_eq rfl rfl rfl rfl, hexclusive⟩
    · rcases hgroup : w.plan.groupAfter? w.position with _ | group
      · refine h.steer hend hpast hsignal (fun htrue v hv => ?_) _ hasRun u
        rw [Scope.takeRoute_fst] at htrue
        cases hat.symm.trans hv
        exact hagreed rfl htrue
      · obtain ⟨nodes, hatGroup, hstop, hruns⟩ := h.prunes.atGroup_of_groupAfter? hunit hgroup
        refine ⟨h, nodes, w.position + 1, hatGroup, ?_, hruns, hpast⟩
        rw [hstop]
  · simp only
    have hsame : (w.addFailure f.failure).Chooses k node := h.of_eq rfl rfl rfl rfl
    split
    · exact hsame.fallThrough hend hpast _
    · exact ⟨hsame, hexclusive⟩

/-- Deciding after a unit, also after one that is all there is to run. -/
theorem unitDone {scope : Scope} {result : Option Mishap} {resume : Resume} (h : w.Chooses k node)
    (hresume : resume = .unit ∨ resume = .alone) (hunit : w.AtUnit node u)
    (hpast : w.Past done (w.position + 1)) (hscope : scope.Plain)
    (hagreed : result = none → (scope.slots u).target = some (Label.text true) → k.agreed u)
    (hasRun : String → Bool) (tolerant : Bool) :
    (w.unitDone scope hasRun tolerant u resume result).Chooses k done node := by
  rcases hresume with rfl | rfl
  · exact h.ownUnitDone hunit hpast hscope hagreed hasRun tolerant
  · have hexclusive := h.exclusive_of_le hpast (Nat.le_refl _)
    unfold Walk.unitDone Walk.aloneDone
    rcases result with _ | f
    · simp only
      split
      · exact ⟨h.of_eq rfl rfl rfl rfl, hexclusive⟩
      · exact ⟨h, hexclusive⟩
    · exact ⟨h.of_eq rfl rfl rfl rfl, hexclusive⟩

/-! ## After a group -/

/-- A condition that a walk comes behind by passing over a group is closed by the group. -/
theorem end_of_atGroup (h : w.Chooses k node) (hgroup : w.AtGroup node nodes start)
    (hcond : Node.Stands (.conditional c t f) i behind node 0 none)
    (hahead : w.position < i + c.width) (hbehind : i + c.width ≤ start + Node.widthOf nodes) :
    i + c.width = start + Node.widthOf nodes := by
  obtain ⟨⟨arms, hstands⟩, -, hnear⟩ := hgroup
  rcases Nat.lt_or_ge start (i + c.width) with hin | hbefore
  · have hwork : (Node.parallel nodes).IsWork := trivial
    exact (hwork.end_eq hstands hcond hin hbehind).symm
  · -- no condition ends at the anchor of a group
    rcases hnear with rfl | ⟨rfl, hnone⟩
    · omega
    · exact absurd hnone (h.prunes.choiceAt?_ne_none hcond (by omega))

/-- A walk that is set behind a group comes behind no condition but one that the group closes. -/
theorem passGroup (h : w.Chooses k node) (moved : Walk) (hgroup : w.AtGroup node nodes start)
    (hpast : w.Past done (start + Node.widthOf nodes))
    (hclosed : ∀ c t f i behind, Node.Stands (.conditional c t f) i behind node 0 none →
      c.Routed k → i + c.width ≠ start + Node.widthOf nodes)
    (hplan : moved.plan = w.plan) (hearly : moved.early = w.early)
    (hskipped : moved.skipped = w.skipped) (hposition : moved.position = start + Node.widthOf nodes)
    (scope : Scope) :
    Turn.Chooses k done node ⟨moved, scope, .advance⟩ := by
  obtain ⟨arms, hstands⟩ := hgroup.stands
  have hle : w.position ≤ moved.position := by
    rcases hgroup.near with hnear | ⟨hnear, -⟩ <;> omega
  refine ⟨h.moveTo hplan hearly hskipped hle ?_, ?_, ?_⟩
  · intro c t f i behind hcond hrouted hahead hbehind
    rw [hposition] at hbehind
    exact absurd (h.end_of_atGroup hgroup hcond hahead hbehind)
      (hclosed c t f i behind hcond hrouted)
  · show node.Reaches moved.position
    rw [hposition, ← Node.width_parallel]
    rcases hstands.next h.normal with hlast | hnext
    · exact .inl (by omega)
    · exact .inr hnext
  · show moved.Past done moved.position
    rw [hposition]
    exact hpast.of_eq hplan hskipped

/-- Deciding after a group that the walk stands at. -/
theorem groupDone {scope : Scope} {result : Option Failure} {tolerant : Bool} (h : w.Chooses k node)
    (hgroup : w.AtGroup node nodes start) (hpast : w.Past done (start + Node.widthOf nodes))
    (hscope : scope.Plain)
    (hpassed : ∀ failure u, result = some failure → survivesGroup tolerant failure = true →
      w.plan.routerAt? (start + Node.widthOf nodes - 1) = some u → k.passed u)
    (hagreed : result = none → ∀ u, w.plan.unitAt? (start + Node.widthOf nodes - 1) = some u →
      (scope.slots u).target = some (Label.text true) → k.agreed u)
    (hasRun : String → Bool) :
    (w.groupDone scope hasRun tolerant (start + Node.widthOf nodes) result).Chooses k done
      node := by
  have hexclusive := h.exclusive_of_atGroup hgroup hpast
  obtain ⟨arms, hstands⟩ := hgroup.stands
  have hlays := h.lays.part hstands
  have hwidth := hlays.normal.width_pos
  have harms := hlays.arms
  rw [Node.width_parallel] at hwidth harms
  have hnear : w.position ≤ start := by
    rcases hgroup.near with hnear | ⟨hnear, -⟩ <;> omega
  unfold Walk.groupDone
  rcases result with _ | failure
  · rcases arms with _ | ⟨t, f⟩
    · have hnone : w.plan.choiceAt? (start + Node.widthOf nodes - 1) = none := harms
      simp only [hnone]
      refine h.passGroup { w with position := start + Node.widthOf nodes } hgroup hpast
        (fun c t f i behind hcond _ heq => ?_) rfl rfl rfl rfl _
      exact absurd hnone (h.prunes.choiceAt?_ne_none hcond (by omega))
    · obtain ⟨choice, -, -, hchoice, -⟩ := harms
      have hrouter := List.getLast?_eq_some_getLast hlays.normal.leaves_ne_nil
      generalize (Node.parallel nodes).leaves.getLast _ = router at hrouter
      have hunit : w.plan.unitAt? (start + Node.widthOf nodes - 1) = some router :=
        hlays.reads.last hrouter
      have hsignal : ∀ target, (scope.takeRoute router).1 = some target →
          target = stopValue ∨ ∃ label : Label, target = label.text := by
        intro target htarget
        rw [Scope.takeRoute_fst] at htarget
        exact hscope.route router target htarget
      simp only [hchoice, hunit]
      -- the choice stands at the last position of the group
      let moved : Walk := { w with position := start + Node.widthOf nodes - 1 }
      have hmoved : moved.Chooses k node := by
        refine h.moveTo rfl rfl rfl (show w.position ≤ start + Node.widthOf nodes - 1 by omega) ?_
        intro c t f i behind hcond _ hahead hle
        have hle : i + c.width ≤ start + Node.widthOf nodes - 1 := hle
        have hclosed := h.end_of_atGroup hgroup hcond hahead (by omega)
        omega
      have hlast : start + Node.widthOf nodes - 1 + 1 = start + Node.widthOf nodes := by omega
      have hend : moved.AtEnd node (some (t, f)) := by
        have hwork : (Node.parallel nodes).IsWork := trivial
        refine ⟨⟨_, start, hwork, hstands, hlast.symm⟩, ?_⟩
        exact h.prunes.not_skips_inside hwork hstands hgroup.opened
          (show start ≤ start + Node.widthOf nodes - 1 by omega)
          (show start + Node.widthOf nodes - 1 < start + Node.widthOf nodes by omega)
      have hpastMoved : moved.Past done (moved.position + 1) := by
        show moved.Past done (start + Node.widthOf nodes - 1 + 1)
        rw [hlast]
        exact hpast.of_eq rfl rfl
      refine hmoved.steer hend hpastMoved hsignal (fun htrue v hv => ?_) _ hasRun router
      rw [Scope.takeRoute_fst] at htrue
      cases hunit.symm.trans hv
      exact hagreed rfl router hunit htrue
  · simp only
    split
    · next hsurvives =>
      refine h.passGroup { w.addFailure failure with position := start + Node.widthOf nodes } hgroup
        hpast
        (fun c t f i behind hcond hrouted heq => ?_) rfl rfl rfl rfl _
      -- the choice of the condition that the group closes is passed over
      obtain ⟨router, hlast, hrouter⟩ := h.prunes.exists_routerAt?
        (start + Node.widthOf nodes - 1) hcond (by omega)
      exact hrouted router hlast (hpassed failure router rfl hsurvives hrouter)
    · exact ⟨h.of_eq rfl rfl rfl rfl, hexclusive⟩

/-! ## At the beginning -/

/-- A walk at the beginning of the plan of a node has chosen nothing. -/
theorem of_compile (hnormal : node.IsNormal) (hnodup : node.leaves.Nodup)
    (hplan : node.compile? = some w.plan) (hearly : w.early = ∅) (hskipped : w.skipped = [])
    (hposition : w.position = 0) : w.Chooses k node where
  normal := hnormal
  nodup := hnodup
  plan := hplan
  early := hearly
  spans := by simp [hskipped]
  takes := by
    intro c t f i behind hstands _ hbehind
    cases hstands.normal hnormal with
    | conditional hc _ _ =>
      have := hc.width_pos
      omega

end Chooses

end Walk

end Workflow
