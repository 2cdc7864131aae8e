import Mathlib.Data.List.Forall2
import Workflow.Proofs.Plan.Choices

/-!
# Where a node puts its groups

`Node.GroupsFrom` relates a node and the position where it begins to the groups that it adds to a
plan, with their positions. The relation says everything about these groups except how they are
anchored, which depends on what was laid out before.

A parallel node may begin with another one. Both groups would stand at one position, and there the
outer one stays: it is laid out last. The groups inside of the outer one that begin later are kept,
although a walk never looks at them.
-/

namespace Workflow

/-- A branch of a plan is that of a node: it begins with the first leaf and carries the plan. -/
structure Branch.Runs (branch : Branch Plan) (node : Node) : Prop where
  entry : node.leaves.head? = some branch.entry
  plan : node.compile? = some branch.plan

/-- A group at a position is that of some branches. -/
structure Group.Joins (group : Group Plan) (position : Nat) (branches : List Node) : Prop where
  two : 2 ≤ branches.length
  normal : ∀ branch ∈ branches, branch.IsNormal
  span : group.span = ⟨position, position + Node.widthOf branches⟩
  runs : List.Forall₂ Branch.Runs group.branches branches

namespace Node

mutual

/-- What a node that begins at a position adds to the groups of a plan. -/
def GroupsFrom : Node → Nat → List (Nat × Group Plan) → Prop
  | .unit _, _, groups => groups = []
  | .sequence steps, start, groups => GroupsFromAll steps start groups
  | .conditional condition whenTrue whenFalse, start, groups =>
    ∃ conditionGroups trueGroups falseGroups,
      groups = conditionGroups ++ (trueGroups ++ falseGroups) ∧
      condition.GroupsFrom start conditionGroups ∧
      whenTrue.GroupsFrom (start + condition.width) trueGroups ∧
      whenFalse.GroupsFrom (start + condition.width + whenTrue.width) falseGroups
  | .parallel branches, start, groups =>
    ∃ own inner, groups = (start, own) :: inner.filter (fun e => e.1 ≠ start) ∧
      own.Joins start branches ∧ GroupsFromAll branches start inner

/-- What several nodes add to the groups of a plan, one node after another. -/
def GroupsFromAll : List Node → Nat → List (Nat × Group Plan) → Prop
  | [], _, groups => groups = []
  | node :: rest, start, groups =>
    ∃ nodeGroups restGroups, groups = nodeGroups ++ restGroups ∧
      node.GroupsFrom start nodeGroups ∧ GroupsFromAll rest (start + node.width) restGroups

end

/-! ## Positions of groups -/

theorem groupsFromAll_ascends {nodes : List Node}
    (h : ∀ node ∈ nodes, ∀ start groups, node.GroupsFrom start groups →
      Table.Ascends groups start (start + node.width)) :
    ∀ start groups, GroupsFromAll nodes start groups →
      Table.Ascends groups start (start + widthOf nodes) := by
  induction nodes with
  | nil =>
    rintro start groups rfl
    exact .nil
  | cons node rest ih =>
    rintro start groups ⟨nodeGroups, restGroups, rfl, hnode, hrest⟩
    rw [widthOf_cons]
    have hrest := ih (fun n hn => h n (by simp [hn])) _ restGroups hrest
    exact (h node (by simp) start nodeGroups hnode).append hrest (by omega) (by omega) (by omega)
      (by omega)

/-- Groups stand within the node in ascending order of their positions. -/
theorem IsNormal.groupsFrom_ascends {node : Node} (h : node.IsNormal) :
    ∀ start groups, node.GroupsFrom start groups →
      Table.Ascends groups start (start + node.width) := by
  induction h with
  | unit =>
    rintro start groups rfl
    exact .nil
  | sequence _ _ _ ih => exact groupsFromAll_ascends ih
  | @parallel branches htwo hbranches ih =>
    rintro start groups ⟨own, inner, rfl, hown, hinner⟩
    have hwidth : 0 < widthOf branches := (IsNormal.parallel htwo hbranches).width_pos
    rw [width_parallel]
    -- the groups inside are those of the branches, less one that begins where this one does
    have hinside := (groupsFromAll_ascends ih start inner hinner).filter_ne
    exact hinside.cons (Nat.lt_succ_self start) (by omega) (Nat.le_refl _)
  | @conditional c t f _ _ _ ihc iht ihf =>
    rintro start groups ⟨gc, gt, gf, rfl, hgc, hgt, hgf⟩
    rw [width_conditional]
    have harms : Table.Ascends (gt ++ gf) (start + c.width) (start + c.width + t.width + f.width) :=
      (iht _ gt hgt).append (ihf _ gf hgf) (by omega) (by omega) (by omega) (by omega)
    exact (ihc _ gc hgc).append harms (by omega) (by omega) (by omega) (by omega)

/-! ## What stands in a group -/

theorem groupsFromAll_joins {nodes : List Node} {p : Plan}
    (h : ∀ node ∈ nodes, ∀ start groups, node.GroupsFrom start groups →
      p.Reads start node.leaves → ∀ e ∈ groups, ∃ branches, e.2.Joins e.1 branches ∧
        p.Reads e.1 (leavesOf branches) ∧ widthOf branches ≤ node.width) :
    ∀ start groups, GroupsFromAll nodes start groups → p.Reads start (leavesOf nodes) →
      ∀ e ∈ groups, ∃ branches, e.2.Joins e.1 branches ∧ p.Reads e.1 (leavesOf branches) ∧
        widthOf branches ≤ widthOf nodes := by
  induction nodes with
  | nil =>
    rintro start groups rfl _ e he
    simp at he
  | cons node rest ih =>
    rintro start groups ⟨nodeGroups, restGroups, rfl, hnode, hrest⟩ hreads e he
    rw [leavesOf] at hreads
    obtain ⟨hreadsNode, hreadsRest⟩ := hreads.append
    rw [widthOf_cons]
    rcases List.mem_append.mp he with he | he
    · obtain ⟨branches, hjoins, hbranches, hwidth⟩ :=
        h node (by simp) start nodeGroups hnode hreadsNode e he
      exact ⟨branches, hjoins, hbranches, by omega⟩
    · obtain ⟨branches, hjoins, hbranches, hwidth⟩ :=
        ih (fun n hn => h n (by simp [hn])) _ restGroups hrest hreadsRest e he
      exact ⟨branches, hjoins, hbranches, by omega⟩

/-- Every group of a normal node is that of some branches, whose leaves the plan reads there. -/
theorem IsNormal.groupsFrom_joins {node : Node} (h : node.IsNormal) (p : Plan) :
    ∀ start groups, node.GroupsFrom start groups → p.Reads start node.leaves →
      ∀ e ∈ groups, ∃ branches, e.2.Joins e.1 branches ∧ p.Reads e.1 (leavesOf branches) ∧
        widthOf branches ≤ node.width := by
  induction h with
  | unit =>
    rintro start groups rfl _ e he
    simp at he
  | sequence _ _ _ ih => exact groupsFromAll_joins ih
  | @parallel branches _ _ ih =>
    rintro start groups ⟨own, inner, rfl, hown, hinner⟩ hreads e he
    rcases List.mem_cons.mp he with rfl | he
    · exact ⟨branches, hown, hreads, Nat.le_refl _⟩
    · exact groupsFromAll_joins ih start inner hinner hreads e (List.mem_filter.mp he).1
  | @conditional c t f _ _ _ ihc iht ihf =>
    rintro start groups ⟨gc, gt, gf, rfl, hgc, hgt, hgf⟩ hreads e he
    rw [leaves, List.append_assoc] at hreads
    obtain ⟨hreadsC, hreads⟩ := hreads.append
    obtain ⟨hreadsT, hreadsF⟩ := hreads.append
    rw [width_conditional]
    rcases List.mem_append.mp he with he | he
    · obtain ⟨branches, hjoins, hbranches, hwidth⟩ := ihc start gc hgc hreadsC e he
      exact ⟨branches, hjoins, hbranches, by omega⟩
    · rcases List.mem_append.mp he with he | he
      · obtain ⟨branches, hjoins, hbranches, hwidth⟩ := iht _ gt hgt hreadsT e he
        exact ⟨branches, hjoins, hbranches, by omega⟩
      · obtain ⟨branches, hjoins, hbranches, hwidth⟩ := ihf _ gf hgf hreadsF e he
        exact ⟨branches, hjoins, hbranches, by omega⟩

end Node

end Workflow
