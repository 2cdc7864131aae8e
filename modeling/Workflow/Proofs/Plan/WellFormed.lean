import Workflow.Proofs.Expression.RoundTrip
import Workflow.Proofs.Plan.Growth

/-!
# Compiled plans are well formed

`Plan.WellFormed p node` collects what a run relies on when it walks the plan `p` of `node`:

* **choices**: one for each conditional, at its own position, with two arms that follow it;
* **groups**: their spans hold the units of their branches, one branch after another;
* **anchors**: a group is anchored on the unit directly before it, and then no arm and no other group
  separates the two, or it has a virtual anchor of its own;
* the same for the plan of every branch.

The facts come from what laying out a node adds (`Plan.Growth`). That no arm begins or ends between
a group and its anchor is the statement there that a group anchored on a unit begins at no joint.
-/

namespace Workflow

/-! ## Well-formedness -/

structure Group.Fits (group : Group Plan) (p : Plan) (position : Nat) : Prop where
  start : group.span.start = position
  pos : group.span.start < group.span.stop
  stop : group.span.stop ≤ p.length
  two : 2 ≤ group.branches.length
  units : (p.sequence.drop group.span.start).take (group.span.stop - group.span.start) =
    group.branches.flatMap fun branch => branch.plan.sequence
  entries : ∀ branch ∈ group.branches, branch.plan.sequence.head? = some branch.entry

/-- A group at a position is anchored on the unit at `anchorAt`, which is passed on every way to the
group. -/
structure Group.AnchoredAt (group : Group Plan) (p : Plan) (position anchorAt : Nat) : Prop where
  next : anchorAt + 1 = position
  unit : p.unitAt? anchorAt = some group.anchor
  no_choice : p.choiceAt? anchorAt = none
  arms : ∀ choice ∈ p.choices.values, ∀ arm ∈ choice.arms.values,
    arm.span.contains anchorAt = arm.span.contains position
  groups : ∀ other ∈ p.groups.entries, other.1 ≠ position →
    other.2.span.contains anchorAt = other.2.span.contains position

structure Plan.Fits (p : Plan) (node : Node) : Prop where
  units : p.sequence = node.leaves
  choices_size : p.choices.size = node.conditionals
  choices_keys : p.choices.keys = node.routersFrom 0
  choices_nodup : p.choices.keys.Nodup
  choices : ∀ e ∈ p.choices.entries, ∃ whenTrue whenFalse, e.2.Fits p e.1 whenTrue whenFalse
  groups_nodup : p.groups.keys.Nodup
  groups : ∀ e ∈ p.groups.entries, e.2.Fits p e.1
  anchored : ∀ e ∈ p.groups.entries, ∀ k, e.2.anchorAt = some k → e.2.AnchoredAt p e.1 k
  virtual : ∀ e ∈ p.groups.entries, e.2.anchorAt = none →
    Anchor.isVirtual e.2.anchor = true ∧ (e.2.anchor = Anchor.virtual 0 ↔ e.1 = 0)
  virtual_distinct : p.groups.entries.Pairwise fun a b =>
    a.2.anchorAt = none → b.2.anchorAt = none → a.2.anchor ≠ b.2.anchor

/-- The plans in a plan: itself, and the plans of the branches of its groups, at any depth. -/
inductive Plan.Contains (p : Plan) : Plan → Prop where
  | self : Contains p p
  | branch {outer : Plan} {e : Nat × Group Plan} {b : Branch Plan} (houter : Contains p outer)
      (hgroup : e ∈ outer.groups.entries) (hbranch : b ∈ e.2.branches) : Contains p b.plan

theorem Plan.Contains.trans {p q r : Plan} (h : p.Contains q) (h' : q.Contains r) : p.Contains r := by
  induction h' with
  | self => exact h
  | branch _ hgroup hbranch ih => exact .branch ih hgroup hbranch

/-- A plan fits its node, and every plan in it fits the node that it is the plan of. -/
structure Plan.WellFormed (p : Plan) (node : Node) : Prop where
  fits : p.Fits node
  inner : ∀ inner, p.Contains inner → ∃ innerNode : Node,
    innerNode.compile? = some inner ∧ inner.Fits innerNode

namespace Node

/-! ## The plan of a normal node -/

/-- A normal node has a plan: what the node adds to an empty layout. -/
theorem IsNormal.exists_compile {node : Node} (h : node.IsNormal) :
    ∃ l groups, node.compile? = some l.plan ∧ node.GroupsFrom 0 groups ∧
      Layout.Grows {} l node.leaves (node.choicesFrom 0) groups := by
  obtain ⟨l, groups, hlayOut, hgroups, hgrows⟩ := h.laysOut {} Layout.tidy_empty
  exact ⟨l, groups, compile?_of_layOut hlayOut, hgroups, hgrows⟩

theorem IsNormal.sequence_of_compile {node : Node} {p : Plan} (h : node.IsNormal)
    (hp : node.compile? = some p) : p.sequence = node.leaves := by
  obtain ⟨l, groups, hcompile, -, hgrows⟩ := h.exists_compile
  cases hcompile.symm.trans hp
  exact hgrows.sequence

/-- The branches of a group, read one after another, are the units of its span. -/
theorem flatMap_sequence_of_runs {compiled : List (Branch Plan)} {branches : List Node}
    (h : List.Forall₂ Branch.Runs compiled branches)
    (hnormal : ∀ branch ∈ branches, branch.IsNormal) :
    compiled.flatMap (fun branch => branch.plan.sequence) = leavesOf branches := by
  induction h with
  | nil => rfl
  | cons hrun _ ih =>
    rw [List.flatMap_cons, leavesOf, (hnormal _ (by simp)).sequence_of_compile hrun.plan,
      ih fun n hn => hnormal n (by simp [hn])]

theorem exists_of_runs {compiled : List (Branch Plan)} {branches : List Node}
    (h : List.Forall₂ Branch.Runs compiled branches) :
    ∀ branch ∈ compiled, ∃ node ∈ branches, branch.Runs node := by
  induction h with
  | nil => simp
  | @cons _ node _ _ hrun _ ih =>
    intro branch hmem
    rcases List.mem_cons.mp hmem with rfl | hmem
    · exact ⟨node, by simp, hrun⟩
    · obtain ⟨other, hother, hruns⟩ := ih branch hmem
      exact ⟨other, by simp [hother], hruns⟩

/-- The group of some branches belongs where a plan reads their leaves. -/
theorem fits_of_joins {group : Group Plan} {p : Plan} {position : Nat} {branches : List Node}
    (h : group.Joins position branches) (hreads : p.Reads position (leavesOf branches)) :
    group.Fits p position := by
  have hspan := h.span
  have hwidth : 0 < widthOf branches := (IsNormal.parallel h.two h.normal).width_pos
  constructor
  case start =>
    rw [hspan]
  case pos =>
    rw [hspan]
    simp only
    omega
  case stop =>
    rw [hspan]
    exact hreads.stop_le (List.ne_nil_of_length_pos hwidth)
  case two =>
    rw [h.runs.length_eq]
    exact h.two
  case units =>
    obtain ⟨rest, hrest⟩ := hreads
    rw [hspan, flatMap_sequence_of_runs h.runs h.normal]
    show (p.sequence.drop position).take (position + widthOf branches - position) = _
    rw [← hrest, Nat.add_sub_cancel_left, widthOf, List.take_left]
  case entries =>
    intro branch hmem
    obtain ⟨node, hnode, hrun⟩ := exists_of_runs h.runs branch hmem
    rw [(h.normal node hnode).sequence_of_compile hrun.plan, hrun.entry]

end Node

theorem Anchor.isVirtual_virtual (number : Nat) :
    Anchor.isVirtual (Anchor.virtual number) = true := by
  simp [Anchor.isVirtual, Anchor.virtual]

/-- A span whose ends are no joint holds a position if and only if it holds the one before. -/
theorem Span.contains_pred {span : Span} {anchorAt position : Nat} (hnext : anchorAt + 1 = position)
    (hstart : position ≠ span.start) (hstop : position ≠ span.stop) :
    span.contains anchorAt = span.contains position := by
  rw [Bool.eq_iff_iff, Span.contains_iff, Span.contains_iff]
  omega

namespace Node

theorem IsNormal.fits_of_compile {node : Node} {p : Plan} (h : node.IsNormal)
    (hp : node.compile? = some p) : p.Fits node := by
  obtain ⟨l, groups, hcompile, hgroups, hgrows⟩ := h.exists_compile
  cases hcompile.symm.trans hp
  have hsequence : l.plan.sequence = node.leaves := hgrows.sequence
  have hchoices : l.plan.choices.entries = node.choicesFrom 0 := hgrows.choices
  have hentries : l.plan.groups.entries = groups := hgrows.groups
  have hreads : l.plan.Reads 0 node.leaves := ⟨[], by rw [hsequence]; simp⟩
  have hfits := h.choicesFrom_fits l.plan 0 hreads
  have hjoins := h.groupsFrom_joins l.plan 0 groups hgroups hreads
  have hnodup : (l.plan.choices.keys).Nodup := by
    rw [Table.keys, hchoices, List.Nodup, List.pairwise_map]
    exact (h.choicesFrom_ascends 0).ascending.imp fun hlt => Nat.ne_of_lt hlt
  have hkeys : l.plan.choices.keys = node.routersFrom 0 := by
    rw [Table.keys, hchoices, h.map_fst_choicesFrom]
  constructor
  case units =>
    exact hsequence
  case choices_size =>
    have hlength := congrArg List.length hkeys
    rwa [Table.keys, List.length_map, length_routersFrom] at hlength
  case choices_keys =>
    exact hkeys
  case choices_nodup =>
    exact hnodup
  case choices =>
    rw [hchoices]
    exact hfits
  case groups_nodup =>
    rw [Table.keys, hentries, List.Nodup, List.pairwise_map]
    exact (h.groupsFrom_ascends 0 groups hgroups).ascending.imp fun hlt => Nat.ne_of_lt hlt
  case groups =>
    rw [hentries]
    intro e he
    obtain ⟨branches, hbranches, hunits, -⟩ := hjoins e he
    exact fits_of_joins hbranches hunits
  case anchored =>
    rw [hentries]
    intro e he k hk
    obtain ⟨hnext, -, hname, hjoint⟩ := hgrows.anchored e he k hk
    refine ⟨hnext, hname, ?_, ?_, ?_⟩
    · -- a choice there would have an arm that begins where the group does
      rcases hchoice : l.plan.choiceAt? k with _ | choice
      · rfl
      · rw [Plan.choiceAt?, Table.get?, Table.lookup_eq_some_iff_mem hnodup, hchoices] at hchoice
        obtain ⟨whenTrue, whenFalse, hfit⟩ := hfits _ hchoice
        have harms : choice.arms.entries = [(false, whenFalse), (true, whenTrue)] := hfit.arms
        refine absurd (.inl ⟨_, hchoice, whenTrue, ?_, .inl ?_⟩) hjoint
        · simp [Table.values, harms]
        · rw [hfit.start_true, hnext]
    · intro choice hmem arm harm
      obtain ⟨entry, hentry, rfl⟩ := List.mem_map.mp hmem
      rw [hchoices] at hentry
      -- an arm that held only one of the two positions would begin or end where the group begins
      refine Span.contains_pred hnext ?_ ?_
      · exact fun heq => hjoint (.inl ⟨entry, hentry, arm, harm, .inl heq⟩)
      · exact fun heq => hjoint (.inl ⟨entry, hentry, arm, harm, .inr heq⟩)
    · intro other hother hne
      rw [hentries] at hother
      obtain ⟨branches, hbranches, -⟩ := hjoins other hother
      refine Span.contains_pred hnext ?_ ?_
      · rw [hbranches.span]
        exact fun heq => hne heq.symm
      · exact fun heq => hjoint (.inr ⟨other, hother, heq⟩)
  case virtual =>
    rw [hentries]
    intro e he hnone
    obtain ⟨number, hname, hzero, -⟩ := hgrows.virtual e he hnone
    refine ⟨by rw [hname]; exact Anchor.isVirtual_virtual number, ?_⟩
    rw [hname, ← hzero]
    exact ⟨fun heq => Layout.virtual_inj heq, fun heq => by rw [heq]⟩
  case virtual_distinct =>
    rw [hentries]
    exact hgrows.distinct

/-- Every plan in the plan of a normal node is the plan of a normal node. -/
theorem IsNormal.exists_of_contains {node : Node} {p inner : Plan} (h : node.IsNormal)
    (hp : node.compile? = some p) (hinner : p.Contains inner) :
    ∃ innerNode : Node, innerNode.IsNormal ∧ innerNode.compile? = some inner := by
  induction hinner with
  | self => exact ⟨node, h, hp⟩
  | @branch outer e b _ hgroup hbranch ih =>
    -- the branch is that of a normal part of the node whose plan it is in
    obtain ⟨outerNode, hnormal, houter⟩ := ih
    obtain ⟨l, groups, hcompile, hgroups, hgrows⟩ := hnormal.exists_compile
    cases hcompile.symm.trans houter
    have hreads : l.plan.Reads 0 outerNode.leaves :=
      ⟨[], by rw [hnormal.sequence_of_compile houter]; simp⟩
    have hentries : l.plan.groups.entries = groups := hgrows.groups
    rw [hentries] at hgroup
    obtain ⟨branches, hjoins, -⟩ := hnormal.groupsFrom_joins l.plan 0 groups hgroups hreads e hgroup
    obtain ⟨innerNode, hmem, hrun⟩ := exists_of_runs hjoins.runs b hbranch
    exact ⟨innerNode, hjoins.normal innerNode hmem, hrun.plan⟩

theorem IsNormal.wellFormed {node : Node} {p : Plan} (h : node.IsNormal)
    (hp : node.compile? = some p) : p.WellFormed node := by
  refine ⟨h.fits_of_compile hp, ?_⟩
  intro inner hinner
  obtain ⟨innerNode, hnormal, hcompile⟩ := h.exists_of_contains hp hinner
  exact ⟨innerNode, hcompile, hnormal.fits_of_compile hcompile⟩

end Node

/-- Every flow that was read has a plan, and it is well formed. -/
theorem wellFormed_of_parse {text : String} {node : Node} (h : Expression.parse text = .ok node) :
    ∃ p, node.compile? = some p ∧ p.WellFormed node := by
  have hnormal := Expression.isNormal_of_parse h
  obtain ⟨l, groups, hcompile, -⟩ := hnormal.exists_compile
  exact ⟨l.plan, hcompile, hnormal.wellFormed hcompile⟩

/-- A group behind a unit, and one in an arm behind another group. -/
theorem wellFormed_of_parse_groups :
    ∃ p, Node.compile? (.sequence [.unit "a", .conditional (.parallel [.unit "b", .unit "c"])
        (.parallel [.unit "d", .unit "e"]) (.unit "f")]) = some p ∧
      p.WellFormed (.sequence [.unit "a", .conditional (.parallel [.unit "b", .unit "c"])
        (.parallel [.unit "d", .unit "e"]) (.unit "f")]) := by
  have hparse : Expression.parse "a -> (b, c) ? (d, e) : f" =
      .ok (.sequence [.unit "a", .conditional (.parallel [.unit "b", .unit "c"])
        (.parallel [.unit "d", .unit "e"]) (.unit "f")]) := by decide +kernel
  exact wellFormed_of_parse hparse

/-! ## Plans without groups -/

/-- Plans without groups are the same if the rest of them is. -/
theorem Plan.eq_of_flat {p q : Plan} (hp : p.groups.keys = []) (hq : q.groups.keys = [])
    (hsequence : p.sequence = q.sequence) (htargets : p.targets = q.targets)
    (hentries : p.entries = q.entries) (hchoices : p.choices = q.choices) : p = q := by
  obtain ⟨sequence, targets, entries, choices, ⟨groups⟩⟩ := p
  obtain ⟨sequence', targets', entries', choices', ⟨groups'⟩⟩ := q
  cases List.map_eq_nil_iff.mp hp
  cases List.map_eq_nil_iff.mp hq
  cases hsequence
  cases htargets
  cases hentries
  cases hchoices
  rfl

end Workflow
