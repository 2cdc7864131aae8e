import Mathlib.Data.List.Pairwise
import Workflow.Proofs.Plan.WellFormed

/-!
# What a plan shows by id

A plan keeps its choices and groups by position. Its tables `targets` and `entries` show the same by
id, and are filled beside the others: every insertion overwrites what the id had before. When no unit
name occurs twice, nothing is lost by that, and the two views agree (`Plan.Indexed`).

* Of two choices no two have one router, because they stand at different positions and the router is
  the unit there. So what is kept under the id of a router is what its choice says.
* Of two groups no two have one anchor: a unit before both would be at two positions, a virtual
  anchor is no unit, and virtual anchors have numbers of their own (`Layout.Grows`). A group that
  begins where one of its branches begins a group overwrites that one by position. Its branches may
  stay listed under the anchor they had.

`Layout.Filed` says this of a layout at any time. It survives every insertion (`Filed.addChoice`,
`Filed.addGroup`), and so it survives laying out a node (`IsNormal.files`).
-/

namespace Workflow

/-! ## Names -/

theorem Expression.IsName.not_virtual {name : String} (h : Expression.IsName name) :
    Anchor.isVirtual name = false := by
  obtain ⟨first, rest, hname, hfirst, hrest⟩ := h
  have hplain : ∀ c ∈ name.toList, c ≠ '#' := by
    rw [hname]
    rintro c hc rfl
    rcases List.mem_cons.mp hc with rfl | hc
    · revert hfirst
      decide
    · have := hrest _ hc
      revert this
      decide
  rw [Anchor.isVirtual, Bool.eq_false_iff]
  intro hstem
  exact hplain '#' ((List.isPrefixOf_iff_prefix.mp hstem).subset (by decide)) rfl

namespace Node

theorem IsNormal.isName_of_mem_leaves {node : Node} (h : node.IsNormal) :
    ∀ name ∈ node.leaves, Expression.IsName name := by
  induction h with
  | unit hname =>
    intro name hmem
    rw [leaves, List.mem_singleton] at hmem
    exact hmem ▸ hname
  | sequence _ _ _ ih | parallel _ _ ih =>
    intro name hmem
    rw [leaves, leavesOf_eq_flatMap, List.mem_flatMap] at hmem
    obtain ⟨part, hpart, hmem⟩ := hmem
    exact ih part hpart name hmem
  | conditional _ _ _ ihc iht ihf =>
    intro name hmem
    rw [leaves, List.mem_append, List.mem_append] at hmem
    rcases hmem with (hmem | hmem) | hmem
    · exact ihc name hmem
    · exact iht name hmem
    · exact ihf name hmem

end Node

/-! ## Agreement of the two views -/

/-- What a plan shows by id is what it holds by position, and all its ids are units of the plan or
virtual anchors. -/
structure Plan.Indexed (p : Plan) : Prop where
  routers_distinct : ∀ e ∈ p.choices.entries, ∀ other ∈ p.choices.entries,
    e.2.router = other.2.router → e = other
  targets : ∀ router targets, p.targetsOf? router = some targets ↔
    ∃ e ∈ p.choices.entries, e.2.router = router ∧ targets = e.2.arms.map Arm.target
  entries : ∀ e ∈ p.groups.entries,
    p.entriesOf? e.2.anchor = some (e.2.branches.map Branch.entry)
  targets_known : ∀ e ∈ p.targets.entries,
    e.1 ∈ p.sequence ∧ ∀ target ∈ e.2.values, target ∈ p.sequence
  entries_known : ∀ e ∈ p.entries.entries,
    (Anchor.isVirtual e.1 = true ∨ e.1 ∈ p.sequence) ∧ ∀ entry ∈ e.2, entry ∈ p.sequence
  not_virtual : ∀ unitId ∈ p.sequence, Anchor.isVirtual unitId = false

namespace Plan

/-- No unit of a plan occurs twice, and none looks like a virtual anchor. -/
structure Plain (p : Plan) : Prop where
  distinct : p.sequence.Nodup
  not_virtual : ∀ unitId ∈ p.sequence, Anchor.isVirtual unitId = false

/-- A unit of a plain plan is at one position only. -/
theorem Plain.position_eq {p : Plan} {i j : Nat} {unitId : String} (h : p.Plain)
    (hi : p.unitAt? i = some unitId) (hj : p.unitAt? j = some unitId) : i = j :=
  (List.getElem?_inj (List.getElem?_eq_some_iff.mp hi).1 h.distinct).mp (hi.trans hj.symm)

end Plan

namespace Layout

/-- The tables by id of a layout show what its tables by position hold. -/
structure Filed (l : Layout) : Prop where
  routers : ∀ position choice, l.plan.choiceAt? position = some choice →
    l.plan.unitAt? position = some choice.router
  targets : ∀ position choice, l.plan.choiceAt? position = some choice →
    l.plan.targetsOf? choice.router = some (choice.arms.map Arm.target)
  targets_known : ∀ e ∈ l.plan.targets.entries,
    (∃ position choice, l.plan.choiceAt? position = some choice ∧ choice.router = e.1) ∧
      ∀ target ∈ e.2.values, target ∈ l.plan.sequence
  entries : ∀ position group, l.plan.groupAt? position = some group →
    l.plan.entriesOf? group.anchor = some (group.branches.map Branch.entry)
  entries_known : ∀ e ∈ l.plan.entries.entries,
    (Anchor.isVirtual e.1 = true ∨ e.1 ∈ l.plan.sequence) ∧
      ∀ entry ∈ e.2, entry ∈ l.plan.sequence

/-- Nodes were laid out between the two. -/
def Precedes (before after : Layout) : Prop := ∃ names cs gs, Grows before after names cs gs

variable {l before middle after : Layout}

theorem Precedes.tidy (h : before.Precedes after) (hbefore : before.Tidy) : after.Tidy := by
  obtain ⟨_, _, _, hgrows⟩ := h
  exact hgrows.tidy hbefore

theorem Precedes.trans (hfirst : before.Precedes middle) (hsecond : middle.Precedes after)
    (hbefore : before.Tidy) : before.Precedes after := by
  obtain ⟨_, _, _, hfirst⟩ := hfirst
  obtain ⟨_, _, _, hsecond⟩ := hsecond
  exact ⟨_, _, _, hfirst.trans hsecond hbefore⟩

theorem precedes_closeAnchors (l : Layout) : l.Precedes l.closeAnchors :=
  ⟨_, _, _, l.grows_closeAnchors⟩

theorem Precedes.isPrefix (h : before.Precedes after) :
    before.plan.sequence <+: after.plan.sequence := by
  obtain ⟨names, _, _, hgrows⟩ := h
  exact ⟨names, hgrows.sequence.symm⟩

theorem Precedes.plain (h : before.Precedes after) (hplain : after.plan.Plain) :
    before.plan.Plain where
  distinct := hplain.distinct.sublist h.isPrefix.sublist
  not_virtual := fun unitId hmem => hplain.not_virtual unitId (h.isPrefix.subset hmem)

theorem Precedes.unitAt? (h : before.Precedes after) {position : Nat} {unitId : String}
    (hunit : before.plan.unitAt? position = some unitId) :
    after.plan.unitAt? position = some unitId := by
  obtain ⟨rest, hrest⟩ := h.isPrefix
  rw [Plan.unitAt?, ← hrest, List.getElem?_append_left (List.getElem?_eq_some_iff.mp hunit).1]
  exact hunit

/-- A layout that begins with nothing. -/
def Grown (l : Layout) : Prop := Precedes {} l

theorem grown_empty : Grown {} := ⟨[], [], [], Grows.refl {}⟩

theorem Grown.tidy (h : l.Grown) : l.Tidy := Precedes.tidy h tidy_empty

theorem Grown.grow (h : before.Grown) (hlater : before.Precedes after) : after.Grown :=
  Precedes.trans h hlater tidy_empty

/-! ## Anchors are distinct -/

theorem precedes_takeAnchor (l : Layout) : l.Precedes l.takeAnchor.2.2 :=
  ⟨[], [], [], l.taken.grows⟩

/-- Two groups with one anchor are one group. -/
theorem Grown.position_of_anchor (h : l.Grown) (hplain : l.plan.Plain) {e other : Nat × Group Plan}
    (he : e ∈ l.plan.groups.entries) (hother : other ∈ l.plan.groups.entries)
    (hsame : e.2.anchor = other.2.anchor) : e.1 = other.1 := by
  obtain ⟨names, cs, gs, hgrows⟩ := h
  have hgroups : l.plan.groups.entries = gs := hgrows.groups
  rw [hgroups] at he hother
  -- a unit is no virtual anchor, wherever it is
  have hclash : ∀ a ∈ gs, ∀ b ∈ gs, ∀ k, a.2.anchorAt = some k → b.2.anchorAt = none →
      a.2.anchor ≠ b.2.anchor := by
    intro a ha b hb k hk hnone heq
    obtain ⟨-, -, hunit, -⟩ := hgrows.anchored a ha k hk
    obtain ⟨number, hname, -⟩ := hgrows.virtual b hb hnone
    have hfalse := hplain.not_virtual _ (List.mem_of_getElem? hunit)
    rw [heq, hname, Anchor.isVirtual_virtual] at hfalse
    cases hfalse
  rcases hk : e.2.anchorAt with _ | k
  · rcases hj : other.2.anchorAt with _ | j
    · by_contra hne
      have : Std.Symm fun a b : Nat × Group Plan =>
          a.2.anchorAt = none → b.2.anchorAt = none → a.2.anchor ≠ b.2.anchor :=
        ⟨fun _ _ h hb ha heq => h ha hb heq.symm⟩
      refine hgrows.distinct.forall he hother ?_ hk hj hsame
      exact fun heq => hne (congrArg Prod.fst heq)
    · exact absurd hsame.symm (hclash other hother e he j hj hk)
  · rcases hj : other.2.anchorAt with _ | j
    · exact absurd hsame (hclash e he other hother k hk hj)
    · obtain ⟨hnext, -, hunit, -⟩ := hgrows.anchored e he k hk
      obtain ⟨hnext', -, hunit', -⟩ := hgrows.anchored other hother j hj
      rw [← hsame] at hunit'
      have := hplain.position_eq hunit hunit'
      omega

/-! ## Insertions -/

theorem filed_empty : Filed {} where
  routers := by rintro _ _ ⟨⟩
  targets := by rintro _ _ ⟨⟩
  targets_known := by rintro _ ⟨⟩
  entries := by rintro _ _ ⟨⟩
  entries_known := by rintro _ ⟨⟩

theorem Filed.push (h : l.Filed) (name : String) : (l.push name).Filed where
  routers := by
    intro position choice hchoice
    have hunit := h.routers position choice hchoice
    show (l.plan.sequence ++ [name])[position]? = _
    rwa [List.getElem?_append_left (List.getElem?_eq_some_iff.mp hunit).1]
  targets := h.targets
  targets_known := by
    intro e he
    obtain ⟨hrouter, htargets⟩ := h.targets_known e he
    exact ⟨hrouter, fun target hmem => List.mem_append_left _ (htargets target hmem)⟩
  entries := h.entries
  entries_known := by
    intro e he
    obtain ⟨hanchor, hentries⟩ := h.entries_known e he
    exact ⟨hanchor.imp_right (List.mem_append_left _),
      fun entry hmem => List.mem_append_left _ (hentries entry hmem)⟩

theorem Filed.closeAnchors (h : l.Filed) : l.closeAnchors.Filed :=
  ⟨h.routers, h.targets, h.targets_known, h.entries, h.entries_known⟩

theorem Filed.takeAnchor (h : l.Filed) : l.takeAnchor.2.2.Filed := by
  have hplan := l.taken.plan
  exact ⟨hplan ▸ h.routers, hplan ▸ h.targets, hplan ▸ h.targets_known, hplan ▸ h.entries,
    hplan ▸ h.entries_known⟩

/-- A choice is put at the position of its router. -/
theorem Filed.addChoice {position : Nat} {choice : Choice} (h : l.Filed) (hplain : l.plan.Plain)
    (hrouter : l.plan.unitAt? position = some choice.router)
    (htargets : ∀ arm ∈ choice.arms.values, arm.target ∈ l.plan.sequence) :
    (l.addChoice position choice).Filed := by
  have hchoices : ∀ i, (l.addChoice position choice).plan.choiceAt? i =
      if position = i then some choice else l.plan.choiceAt? i :=
    fun i => Table.get?_insert _ _ _ _
  have hfiled : ∀ router, (l.addChoice position choice).plan.targetsOf? router =
      if choice.router = router then some (choice.arms.map Arm.target)
      else l.plan.targetsOf? router :=
    fun router => Table.get?_insert _ _ _ _
  constructor
  case routers =>
    intro i other hother
    rw [hchoices] at hother
    split at hother
    · next heq =>
      cases hother
      exact heq ▸ hrouter
    · exact h.routers i other hother
  case targets =>
    intro i other hother
    rw [hchoices] at hother
    split at hother
    · cases hother
      rw [hfiled, if_pos rfl]
    · next hne =>
      -- the router of another choice is a unit at another position
      rw [hfiled, if_neg, h.targets i other hother]
      intro heq
      exact hne (hplain.position_eq hrouter (heq ▸ h.routers i other hother))
  case targets_known =>
    intro e he
    rcases Table.mem_of_mem_place he with rfl | he
    · refine ⟨⟨position, choice, by rw [hchoices, if_pos rfl], rfl⟩, ?_⟩
      intro target hmem
      simp only [Table.map, Table.values, List.map_map, List.mem_map] at hmem
      obtain ⟨arm, harm, rfl⟩ := hmem
      exact htargets arm.2 (List.mem_map_of_mem harm)
    · obtain ⟨⟨i, other, hother, hsame⟩, hknown⟩ := h.targets_known e he
      refine ⟨?_, hknown⟩
      by_cases heq : position = i
      · -- a choice that is replaced has the router that stands there
        subst heq
        refine ⟨position, choice, by rw [hchoices, if_pos rfl], ?_⟩
        exact (Option.some.inj (hrouter.symm.trans (h.routers _ _ hother))).trans hsame
      · exact ⟨i, other, by rw [hchoices, if_neg heq, hother], hsame⟩
  case entries =>
    exact h.entries
  case entries_known =>
    exact h.entries_known

theorem target_mem_of_arm {start : Nat} {arm : Arm} (h : l.arm? start = some arm) :
    arm.target ∈ l.plan.sequence := by
  obtain ⟨target, htarget, rfl⟩ := Option.map_eq_some_iff.mp h
  exact List.mem_of_getElem? htarget

theorem mem_values_arms {whenTrue whenFalse : Option Arm} {arm : Arm}
    (h : arm ∈ (Table.ofList ((whenTrue.map (true, ·)).toList ++
      (whenFalse.map (false, ·)).toList) : Table Label Arm).values) :
    whenTrue = some arm ∨ whenFalse = some arm := by
  obtain ⟨e, he, rfl⟩ := List.mem_map.mp h
  rcases List.mem_append.mp (Table.mem_of_mem_ofList he) with he | he
  · obtain ⟨arm, harm, rfl⟩ := Option.map_eq_some_iff.mp (Option.mem_toList.mp he)
    exact .inl harm
  · obtain ⟨arm, harm, rfl⟩ := Option.map_eq_some_iff.mp (Option.mem_toList.mp he)
    exact .inr harm

/-- A group is put where it begins, under an anchor that no other group has. -/
theorem Filed.addGroup {group : Group Plan} (h : l.Filed)
    (hfree : ∀ position other, l.plan.groupAt? position = some other →
      position ≠ group.span.start → other.anchor ≠ group.anchor)
    (hanchor : Anchor.isVirtual group.anchor = true ∨ group.anchor ∈ l.plan.sequence)
    (hentries : ∀ branch ∈ group.branches, branch.entry ∈ l.plan.sequence) :
    (l.addGroup group).Filed := by
  have hgroups : ∀ i, (l.addGroup group).plan.groupAt? i =
      if group.span.start = i then some group else l.plan.groupAt? i :=
    fun i => Table.get?_insert _ _ _ _
  have hfiled : ∀ anchor, (l.addGroup group).plan.entriesOf? anchor =
      if group.anchor = anchor then some (group.branches.map Branch.entry)
      else l.plan.entriesOf? anchor :=
    fun anchor => Table.get?_insert _ _ _ _
  constructor
  case routers =>
    exact h.routers
  case targets =>
    exact h.targets
  case targets_known =>
    exact h.targets_known
  case entries =>
    intro i other hother
    rw [hgroups] at hother
    split at hother
    · cases hother
      rw [hfiled, if_pos rfl]
    -- another group is filed under another anchor, so the new one does not hide it
    · next hne =>
      rw [hfiled, if_neg, h.entries i other hother]
      exact fun heq => hfree i other hother (Ne.symm hne) heq.symm
  case entries_known =>
    intro e he
    rcases Table.mem_of_mem_place he with rfl | he
    · refine ⟨hanchor, ?_⟩
      intro entry hmem
      obtain ⟨branch, hbranch, rfl⟩ := List.mem_map.mp hmem
      exact hentries branch hbranch
    · exact h.entries_known e he

end Layout

/-! ## Laying out -/

namespace Node

open Layout (Grows Grown Filed)

variable {node c t f : Node} {branches : List Node} {l after : Layout}

/-- How a conditional is laid out: with a choice for the last unit of its condition, or as plain
steps if the condition has no unit. -/
theorem layOut_conditional_cases (h : (conditional c t f).layOut l = some after) :
    ∃ routed, c.layOut l = some routed ∧
      ((∃ router chosen done, routed.plan.unitAt? (routed.size - 1) = some router ∧
        t.layOut routed.closeAnchors = some chosen ∧ f.layOut chosen.closeAnchors = some done ∧
        after = done.closeConditional (routed.size - 1) router (chosen.arm? routed.size)
          (done.arm? chosen.size)) ∨
      ∃ first, t.layOut routed = some first ∧ f.layOut first = some after) := by
  rw [layOut] at h
  obtain ⟨routed, hrouted, h⟩ := Option.bind_eq_some_iff.mp h
  refine ⟨routed, hrouted, ?_⟩
  split at h
  · next router hrouter _ =>
    obtain ⟨chosen, hchosen, h⟩ := Option.bind_eq_some_iff.mp h
    obtain ⟨done, hdone, h⟩ := Option.bind_eq_some_iff.mp h
    exact .inl ⟨router, chosen, done, hrouter, hchosen, hdone, (Option.some.inj h).symm⟩
  · exact .inr (Option.bind_eq_some_iff.mp h)

/-- How a group is laid out, unless its branches are empty. -/
theorem layOut_parallel_cases (h : (parallel branches).layOut l = some after) :
    after = l ∨ ∃ done compiled, layOutBranches branches l.takeAnchor.2.2 = some (done, compiled) ∧
      after = (done.addGroup
        ⟨l.takeAnchor.1, l.takeAnchor.2.1, ⟨l.size, done.size⟩, compiled⟩).closeAnchors := by
  rw [layOut] at h
  split at h
  · exact .inl (Option.some.inj h).symm
  · obtain ⟨⟨done, compiled⟩, hbranches, h⟩ := Option.bind_eq_some_iff.mp h
    exact .inr ⟨done, compiled, hbranches, (Option.some.inj h).symm⟩

theorem layOutBranches_cons_cases {branch : Node} {compiled : List (Branch Plan)}
    (h : layOutBranches (branch :: branches) l = some (after, compiled)) :
    layOutBranches branches l = some (after, compiled) ∨
      ∃ next first rest, branch.layOut l.closeAnchors = some next ∧
        next.plan.unitAt? l.size = some first.entry ∧
        layOutBranches branches next = some (after, rest) ∧ compiled = first :: rest := by
  rw [layOutBranches] at h
  split at h
  · exact .inl h
  · obtain ⟨next, hnext, h⟩ := Option.bind_eq_some_iff.mp h
    obtain ⟨entry, hentry, h⟩ := Option.bind_eq_some_iff.mp h
    obtain ⟨own, -, h⟩ := Option.bind_eq_some_iff.mp h
    obtain ⟨⟨done, rest⟩, hrest, h⟩ := Option.bind_eq_some_iff.mp h
    cases h
    exact .inr ⟨next, ⟨entry, own.plan⟩, rest, hnext, hentry, hrest, rfl⟩

theorem IsNormal.precedes (h : node.IsNormal) (hl : l.Tidy) (hlayOut : node.layOut l = some after) :
    l.Precedes after := by
  obtain ⟨result, gs, hresult, -, hgrows⟩ := h.laysOut l hl
  cases hresult.symm.trans hlayOut
  exact ⟨_, _, _, hgrows⟩

theorem precedes_layOutSteps {steps : List Node} (h : ∀ step ∈ steps, step.IsNormal) (hl : l.Tidy)
    (hlayOut : layOutSteps steps l = some after) : l.Precedes after := by
  obtain ⟨result, gs, hresult, -, hgrows⟩ :=
    exists_layOutSteps (fun step hmem => (h step hmem).laysOut) l hl
  cases hresult.symm.trans hlayOut
  exact ⟨_, _, _, hgrows⟩

theorem precedes_layOutBranches (h : ∀ branch ∈ branches, branch.IsNormal) (hl : l.Tidy)
    {compiled : List (Branch Plan)} (hlayOut : layOutBranches branches l = some (after, compiled)) :
    l.Precedes after := by
  obtain ⟨result, _, gs, hresult, -, -, hgrows, -⟩ :=
    exists_layOutBranches h (fun branch hmem => (h branch hmem).laysOut) l hl
  cases hresult.symm.trans hlayOut
  exact ⟨_, _, _, hgrows⟩

/-! ## Laying out keeps the views in agreement -/

/-- A node can be laid out without the two views falling apart, as long as no unit occurs twice. -/
def Files (node : Node) : Prop :=
  ∀ l after : Layout, l.Grown → l.Filed → node.layOut l = some after → after.plan.Plain → after.Filed

theorem files_layOutSteps {steps : List Node} (hnormal : ∀ step ∈ steps, step.IsNormal)
    (h : ∀ step ∈ steps, step.Files) (l : Layout) (hl : l.Grown) (hfiled : l.Filed)
    (hlayOut : layOutSteps steps l = some after) (hplain : after.plan.Plain) : after.Filed := by
  induction steps generalizing l with
  | nil =>
    cases hlayOut
    exact hfiled
  | cons step rest ih =>
    have hrest : ∀ s ∈ rest, s.IsNormal := fun s hs => hnormal s (by simp [hs])
    rw [layOutSteps] at hlayOut
    obtain ⟨next, hnext, hlast⟩ := Option.bind_eq_some_iff.mp hlayOut
    have hgrown := hl.grow ((hnormal step (by simp)).precedes hl.tidy hnext)
    have hnextPlain := (precedes_layOutSteps hrest hgrown.tidy hlast).plain hplain
    exact ih hrest (fun s hs => h s (by simp [hs])) next hgrown
      (h step (by simp) l next hl hfiled hnext hnextPlain) hlast

/-- The branches of a group, and the units they begin with. -/
theorem files_layOutBranches (hnormal : ∀ branch ∈ branches, branch.IsNormal)
    (h : ∀ branch ∈ branches, branch.Files) (l : Layout) (hl : l.Grown) (hfiled : l.Filed)
    (compiled : List (Branch Plan)) (hlayOut : layOutBranches branches l = some (after, compiled))
    (hplain : after.plan.Plain) :
    after.Filed ∧ ∀ branch ∈ compiled, branch.entry ∈ after.plan.sequence := by
  induction branches generalizing l compiled with
  | nil =>
    cases hlayOut
    exact ⟨hfiled, by simp⟩
  | cons branch rest ih =>
    have hrest : ∀ b ∈ rest, b.IsNormal := fun b hb => hnormal b (by simp [hb])
    have hfiles : ∀ b ∈ rest, b.Files := fun b hb => h b (by simp [hb])
    rcases layOutBranches_cons_cases hlayOut with
      hlast | ⟨next, first, others, hnext, hentry, hlast, rfl⟩
    · exact ih hrest hfiles l hl hfiled compiled hlast
    · have hclosed := hl.grow l.precedes_closeAnchors
      have hgrown := hclosed.grow ((hnormal branch (by simp)).precedes hclosed.tidy hnext)
      have hlater := precedes_layOutBranches hrest hgrown.tidy hlast
      obtain ⟨hdone, hentries⟩ := ih hrest hfiles next hgrown
        (h branch (by simp) _ next hclosed hfiled.closeAnchors hnext (hlater.plain hplain))
        others hlast
      refine ⟨hdone, ?_⟩
      intro b hmem
      rcases List.mem_cons.mp hmem with rfl | hmem
      · exact hlater.isPrefix.subset (List.mem_of_getElem? hentry)
      · exact hentries b hmem

theorem files_conditional (hc : c.IsNormal) (ht : t.IsNormal) (hf : f.IsNormal) (ihc : c.Files)
    (iht : t.Files) (ihf : f.Files) : (conditional c t f).Files := by
  intro l after hl hfiled hlayOut hplain
  obtain ⟨routed, hrouted, hrest⟩ := layOut_conditional_cases hlayOut
  have hroutedGrown := hl.grow (hc.precedes hl.tidy hrouted)
  rcases hrest with ⟨router, chosen, done, hrouter, hchosen, hdone, rfl⟩ | ⟨first, hfirst, hlast⟩
  · have hclosed := hroutedGrown.grow routed.precedes_closeAnchors
    have hlaterT := ht.precedes hclosed.tidy hchosen
    have hclosed' := (hclosed.grow hlaterT).grow chosen.precedes_closeAnchors
    have hlaterF := hf.precedes hclosed'.tidy hdone
    have hdonePlain : done.plan.Plain := ⟨hplain.distinct, hplain.not_virtual⟩
    have hchosenPlain := hlaterF.plain hdonePlain
    have hroutedFiled := ihc l routed hl hfiled hrouted (hlaterT.plain hchosenPlain)
    have hchosenFiled := iht _ chosen hclosed hroutedFiled.closeAnchors hchosen hchosenPlain
    have hdoneFiled := ihf _ done hclosed' hchosenFiled.closeAnchors hdone hdonePlain
    refine (hdoneFiled.addChoice hdonePlain ?_ ?_).closeAnchors
    · exact hlaterF.unitAt? (hlaterT.unitAt? hrouter)
    · intro arm harm
      rcases Layout.mem_values_arms harm with harm | harm
      · exact hlaterF.isPrefix.subset (Layout.target_mem_of_arm harm)
      · exact Layout.target_mem_of_arm harm
  · have hgrown := hroutedGrown.grow (ht.precedes hroutedGrown.tidy hfirst)
    have hfirstPlain := (hf.precedes hgrown.tidy hlast).plain hplain
    have hroutedPlain := (ht.precedes hroutedGrown.tidy hfirst).plain hfirstPlain
    exact ihf first after hgrown
      (iht routed first hroutedGrown (ihc l routed hl hfiled hrouted hroutedPlain) hfirst
        hfirstPlain) hlast hplain

theorem files_parallel (htwo : 2 ≤ branches.length) (hnormal : ∀ branch ∈ branches, branch.IsNormal)
    (ih : ∀ branch ∈ branches, branch.Files) : (parallel branches).Files := by
  intro l after hl hfiled hlayOut hplain
  have hgrown := hl.grow ((IsNormal.parallel htwo hnormal).precedes hl.tidy hlayOut)
  rcases layOut_parallel_cases hlayOut with rfl | ⟨done, compiled, hbranches, rfl⟩
  · exact hfiled
  · have hopened := hl.grow l.precedes_takeAnchor
    have hlater := precedes_layOutBranches hnormal hopened.tidy hbranches
    obtain ⟨hdone, hentries⟩ := files_layOutBranches hnormal ih _ hopened hfiled.takeAnchor compiled
      hbranches ⟨hplain.distinct, hplain.not_virtual⟩
    refine (hdone.addGroup ?_ ?_ hentries).closeAnchors
    · -- every group that was there before is still there, and has an anchor of its own
      intro position other hother hne heq
      have hkept : (done.addGroup ⟨l.takeAnchor.1, l.takeAnchor.2.1, ⟨l.size, done.size⟩,
          compiled⟩).plan.groupAt? position = some other :=
        (Table.get?_insert_of_ne _ _ (Ne.symm hne)).trans hother
      exact hne (hgrown.position_of_anchor hplain (Table.mem_of_lookup hkept)
        (Table.mem_of_lookup (Table.get?_insert_self _ _ _)) heq)
    · rcases hat : l.takeAnchor.2.1 with _ | position
      · obtain ⟨number, hanchor, -⟩ := l.taken.virtual hat
        exact .inl (hanchor ▸ Anchor.isVirtual_virtual number)
      · obtain ⟨-, -, hunit⟩ := l.taken.unit position hat
        exact .inr (List.mem_of_getElem? (hlater.unitAt? (l.precedes_takeAnchor.unitAt? hunit)))

theorem IsNormal.files (h : node.IsNormal) : node.Files := by
  induction h with
  | @unit name _ =>
    intro l after _ hfiled hlayOut _
    cases hlayOut
    exact hfiled.push name
  | sequence _ _ hsteps ih =>
    exact fun l after hl hfiled hlayOut hplain =>
      files_layOutSteps hsteps ih l hl hfiled hlayOut hplain
  | conditional hc ht hf ihc iht ihf => exact files_conditional hc ht hf ihc iht ihf
  | parallel htwo hbranches ih => exact files_parallel htwo hbranches ih

/-- The plan of a normal node whose units are distinct shows the same by id and by position. -/
theorem IsNormal.indexed_of_compile {p : Plan} (h : node.IsNormal) (hdistinct : node.leaves.Nodup)
    (hp : node.compile? = some p) : p.Indexed := by
  have hfits := h.fits_of_compile hp
  obtain ⟨l, hlayOut, rfl⟩ := Option.map_eq_some_iff.mp hp
  have hplain : l.plan.Plain := by
    refine ⟨by rwa [hfits.units], ?_⟩
    rw [hfits.units]
    exact fun unitId hmem => (h.isName_of_mem_leaves unitId hmem).not_virtual
  have hfiled := h.files {} l Layout.grown_empty Layout.filed_empty hlayOut hplain
  have hchoice : ∀ position choice, l.plan.choiceAt? position = some choice ↔
      (position, choice) ∈ l.plan.choices.entries :=
    fun _ _ => Table.lookup_eq_some_iff_mem hfits.choices_nodup
  constructor
  case routers_distinct =>
    rintro ⟨i, choice⟩ he ⟨j, other⟩ hother hsame
    have hi := hfiled.routers i choice ((hchoice i choice).mpr he)
    have hj := hfiled.routers j other ((hchoice j other).mpr hother)
    -- the units are distinct, so a router has one position and a position has one choice
    cases hplain.position_eq hi (hj.trans (congrArg some hsame.symm))
    have heq := ((hchoice i choice).mpr he).symm.trans ((hchoice i other).mpr hother)
    rw [Option.some.inj heq]
  case targets =>
    intro router targets
    constructor
    · intro hshown
      have hkey : router ∈ l.plan.targets.keys :=
        (Table.isSome_get?_iff _ _).mp (Option.isSome_of_eq_some hshown)
      obtain ⟨e, he, rfl⟩ := List.mem_map.mp hkey
      -- whatever is filed under a router was filed with the choice at its position
      obtain ⟨⟨position, choice, hposition, hrouter⟩, -⟩ := hfiled.targets_known e he
      refine ⟨(position, choice), (hchoice _ _).mp hposition, hrouter, ?_⟩
      have := hfiled.targets position choice hposition
      rw [hrouter, hshown] at this
      exact Option.some.inj this
    · rintro ⟨e, he, rfl, rfl⟩
      exact hfiled.targets e.1 e.2 ((hchoice _ _).mpr he)
  case entries =>
    intro e he
    exact hfiled.entries e.1 e.2 ((Table.lookup_eq_some_iff_mem hfits.groups_nodup).mpr he)
  case targets_known =>
    intro e he
    obtain ⟨⟨position, choice, hposition, hrouter⟩, htargets⟩ := hfiled.targets_known e he
    exact ⟨hrouter ▸ List.mem_of_getElem? (hfiled.routers position choice hposition), htargets⟩
  case entries_known =>
    exact hfiled.entries_known
  case not_virtual =>
    exact hplain.not_virtual

end Node

/-- Every flow that was read, and names no unit twice, has a plan whose tables by id agree with those
by position. -/
theorem indexed_of_parse {text : String} {node : Node} (h : Expression.parse text = .ok node)
    (hdistinct : node.leaves.Nodup) : ∃ p, node.compile? = some p ∧ p.Indexed := by
  have hnormal := Expression.isNormal_of_parse h
  obtain ⟨l, -, hcompile, -⟩ := hnormal.exists_compile
  exact ⟨l.plan, hcompile, hnormal.indexed_of_compile hdistinct hcompile⟩

/-- A group that takes the place of one in its first branch, both behind one unit, and a conditional
that begins with a group. -/
theorem indexed_of_parse_nested :
    ∃ p, Node.compile? (.sequence [.unit "a", .parallel [.parallel [.unit "b", .unit "c"],
        .conditional (.parallel [.unit "d", .unit "e"]) (.unit "f") (.unit "g")]]) = some p ∧
      p.Indexed := by
  have hparse : Expression.parse "a -> ((b, c), (d, e) ? f : g)" =
      .ok (.sequence [.unit "a", .parallel [.parallel [.unit "b", .unit "c"],
        .conditional (.parallel [.unit "d", .unit "e"]) (.unit "f") (.unit "g")]]) := by
    decide +kernel
  exact indexed_of_parse hparse (by decide)

end Workflow
