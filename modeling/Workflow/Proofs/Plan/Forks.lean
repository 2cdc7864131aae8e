import Workflow.Proofs.Plan.Indexes

/-!
# How the groups of a node are anchored

`Node.GroupsFrom` leaves open how a group is anchored, because that depends on what was laid out
before. It depends on one number only: the least position that can anchor a group, which moves up as
a node is laid out (`Node.firstBehind`). Given that number, `Node.forkAt?` tells for every position
of a node which group a plan keeps there, with its branches and the position of its anchor.

`IsNormal.forks` shows that this is what `Node.layOut` adds. Names of anchors are not part of it: the
name of a unit can be read off the plan, and that of a virtual anchor comes from a counter.
-/

namespace Workflow

namespace Node

/-- A group as a node has it: the position of its anchor, if that is a unit, and its branches. -/
structure Fork where
  anchorAt : Option Nat
  branches : List Node

/-! ## Groups in closed form -/

mutual

/-- The least position that can anchor a group behind a node that begins at a position, if `first` is
the least one before the node. -/
def firstBehind : Node → Nat → Nat → Nat
  | .unit _, _, first => first
  | .sequence steps, start, first => firstBehindAll steps start first
  | .conditional c t f, start, _ => start + c.width + t.width + f.width
  | .parallel branches, start, _ => start + widthOf branches

def firstBehindAll : List Node → Nat → Nat → Nat
  | [], _, first => first
  | step :: rest, start, first =>
    firstBehindAll rest (start + step.width) (step.firstBehind start first)

end

mutual

/-- The group that a plan keeps at a position for a node that begins at `start`, if `first` is the
least position that can anchor a group before the node. -/
def forkAt? : Node → Nat → Nat → Nat → Option Fork
  | .unit _, _, _, _ => none
  | .sequence steps, start, first, position => forkAtSteps? steps start first position
  | .conditional c t f, start, first, position =>
    if position < start + c.width then c.forkAt? start first position
    else if position < start + c.width + t.width then
      t.forkAt? (start + c.width) (start + c.width) position
    else f.forkAt? (start + c.width + t.width) (start + c.width + t.width) position
  | .parallel branches, start, first, position =>
    if position = start then some ⟨if first < start then some (start - 1) else none, branches⟩
    else forkAtBranches? branches start position

def forkAtSteps? : List Node → Nat → Nat → Nat → Option Fork
  | [], _, _, _ => none
  | step :: rest, start, first, position =>
    if position < start + step.width then step.forkAt? start first position
    else forkAtSteps? rest (start + step.width) (step.firstBehind start first) position

/-- No branch is anchored on what stands before it. -/
def forkAtBranches? : List Node → Nat → Nat → Option Fork
  | [], _, _ => none
  | branch :: rest, start, position =>
    if position < start + branch.width then branch.forkAt? start start position
    else forkAtBranches? rest (start + branch.width) position

end

end Node

/-- A group at a position of a plan is the one that a node has there. -/
structure Group.Shows (position : Nat) (group : Group Plan) (fork : Node.Fork) : Prop where
  joins : group.Joins position fork.branches
  anchorAt : group.anchorAt = fork.anchorAt

/-! ## What was laid out before stays -/

namespace Layout

variable {l before after : Layout}

@[simp] theorem size_closeAnchors (l : Layout) : l.closeAnchors.size = l.size := rfl

theorem Precedes.groupAt? (h : before.Precedes after) {position : Nat}
    (hposition : position < before.size) :
    after.plan.groupAt? position = before.plan.groupAt? position := by
  obtain ⟨_, _, gs, hgrows⟩ := h
  rw [Plan.groupAt?, Table.get?, hgrows.groups]
  refine Table.lookup_append_left ?_
  intro e he
  have := hgrows.groups_within e he
  omega

/-- A group is anchored on the unit before it, unless that stands before `firstAnchor`. -/
theorem takeAnchor_anchorAt (l : Layout) :
    l.takeAnchor.2.1 = if l.firstAnchor < l.size then some (l.size - 1) else none := by
  rw [takeAnchor]
  split
  · next hzero => rw [if_neg (by omega)]
  · next hpos =>
    split
    · next hle =>
      have := of_decide_eq_true hle
      rw [if_pos (by omega)]
    · next hnone =>
      -- there is a unit before the end
      have hlt : l.size - 1 < l.plan.sequence.length := by
        show l.size - 1 < l.size
        omega
      rw [if_neg]
      intro hfirst
      exact hnone _ (List.getElem?_eq_getElem hlt) (decide_eq_true (by omega))

end Layout

/-! ## Laying out -/

namespace Node

open Layout (Tidy Precedes)

variable {node c t f : Node} {branches : List Node} {l after : Layout}

theorem IsNormal.size_layOut (h : node.IsNormal) (hl : l.Tidy) (hlayOut : node.layOut l = some after) :
    after.size = l.size + node.width := by
  obtain ⟨result, _, hresult, -, hgrows⟩ := h.laysOut l hl
  cases hresult.symm.trans hlayOut
  exact hgrows.size

theorem size_layOutBranches (h : ∀ branch ∈ branches, branch.IsNormal) (hl : l.Tidy)
    {compiled : List (Branch Plan)} (hlayOut : layOutBranches branches l = some (after, compiled)) :
    after.size = l.size + widthOf branches := by
  obtain ⟨result, _, _, hresult, -, -, hgrows, -⟩ :=
    exists_layOutBranches h (fun branch hmem => (h branch hmem).laysOut) l hl
  cases hresult.symm.trans hlayOut
  exact hgrows.size

/-- A normal conditional has a choice for the last unit of its condition. -/
theorem layOut_conditional (hc : c.IsNormal) (hl : l.Tidy)
    (h : (conditional c t f).layOut l = some after) :
    ∃ routed chosen done router first second, c.layOut l = some routed ∧
      t.layOut routed.closeAnchors = some chosen ∧ f.layOut chosen.closeAnchors = some done ∧
      after = done.closeConditional (routed.size - 1) router first second := by
  obtain ⟨routed, _, hrouted, -, hgrows⟩ := hc.laysOut l hl
  have hwidth := hc.width_pos
  have hsize : routed.size = l.size + c.width := hgrows.size
  have hrouter := hgrows.last (List.getLast?_eq_some_getLast hc.leaves_ne_nil)
  rw [layOut, hrouted] at h
  simp only [Option.bind_eq_bind, Option.bind_some, hrouter,
    decide_eq_true (by omega : l.size < routed.size)] at h
  obtain ⟨chosen, hchosen, h⟩ := Option.bind_eq_some_iff.mp h
  obtain ⟨done, hdone, h⟩ := Option.bind_eq_some_iff.mp h
  exact ⟨routed, chosen, done, _, _, _, hrouted, hchosen, hdone, (Option.some.inj h).symm⟩

/-- A normal group is put where its first branch begins. -/
theorem layOut_parallel (hnode : (parallel branches).IsNormal) (hl : l.Tidy)
    (h : (parallel branches).layOut l = some after) :
    ∃ done compiled, layOutBranches branches l.takeAnchor.2.2 = some (done, compiled) ∧
      after = (done.addGroup
        ⟨l.takeAnchor.1, l.takeAnchor.2.1, ⟨l.size, done.size⟩, compiled⟩).closeAnchors := by
  have hsize := hnode.size_layOut hl h
  have hwidth := hnode.width_pos
  rcases layOut_parallel_cases h with rfl | hcases
  · omega
  · exact hcases

theorem layOutBranches_cons {branch : Node} {compiled : List (Branch Plan)}
    (hnormal : ∀ b ∈ branch :: branches, b.IsNormal) (hl : l.Tidy)
    (h : layOutBranches (branch :: branches) l = some (after, compiled)) :
    ∃ next rest, branch.layOut l.closeAnchors = some next ∧
      layOutBranches branches next = some (after, rest) := by
  have hsize := size_layOutBranches hnormal hl h
  have hwidth := (hnormal branch (by simp)).width_pos
  rcases layOutBranches_cons_cases h with hrest | ⟨next, _, rest, hnext, -, hrest, -⟩
  · have := size_layOutBranches (fun b hb => hnormal b (by simp [hb])) hl hrest
    rw [widthOf_cons] at hsize
    omega
  · exact ⟨next, rest, hnext, hrest⟩

/-- Laying a node out moves the least position that can be an anchor, and adds groups, as the closed
forms say. -/
def Forks (node : Node) : Prop :=
  ∀ l after : Layout, l.Tidy → node.layOut l = some after →
    after.firstAnchor = node.firstBehind l.size l.firstAnchor ∧
      ∀ position, l.size ≤ position → position < after.size →
        Option.Rel (Group.Shows position) (after.plan.groupAt? position)
          (node.forkAt? l.size l.firstAnchor position)

theorem forks_layOutSteps {steps : List Node} (hnormal : ∀ step ∈ steps, step.IsNormal)
    (h : ∀ step ∈ steps, step.Forks) (l : Layout) (hl : l.Tidy)
    (hlayOut : layOutSteps steps l = some after) :
    after.firstAnchor = firstBehindAll steps l.size l.firstAnchor ∧
      ∀ position, l.size ≤ position → position < after.size →
        Option.Rel (Group.Shows position) (after.plan.groupAt? position)
          (forkAtSteps? steps l.size l.firstAnchor position) := by
  induction steps generalizing l with
  | nil =>
    cases hlayOut
    exact ⟨rfl, fun position hge hlt => absurd hlt (by omega)⟩
  | cons step rest ih =>
    have hstep := hnormal step (by simp)
    have hrest : ∀ s ∈ rest, s.IsNormal := fun s hs => hnormal s (by simp [hs])
    rw [layOutSteps] at hlayOut
    obtain ⟨next, hnext, hlast⟩ := Option.bind_eq_some_iff.mp hlayOut
    have hsize := hstep.size_layOut hl hnext
    have htidy := (hstep.precedes hl hnext).tidy hl
    have hlater := precedes_layOutSteps hrest htidy hlast
    obtain ⟨hfirst, hgroups⟩ := h step (by simp) l next hl hnext
    obtain ⟨hfirst', hgroups'⟩ := ih hrest (fun s hs => h s (by simp [hs])) next htidy hlast
    rw [hsize, hfirst] at hfirst'
    refine ⟨hfirst', fun position hge hlt => ?_⟩
    rw [forkAtSteps?]
    split
    · next hin =>
      rw [hlater.groupAt? (by omega)]
      exact hgroups position hge (by omega)
    · next hout =>
      have hshown := hgroups' position (by omega) hlt
      rwa [hsize, hfirst] at hshown

theorem forks_layOutBranches (hnormal : ∀ branch ∈ branches, branch.IsNormal)
    (h : ∀ branch ∈ branches, branch.Forks) (l : Layout) (hl : l.Tidy)
    (compiled : List (Branch Plan))
    (hlayOut : layOutBranches branches l = some (after, compiled)) :
    ∀ position, l.size ≤ position → position < after.size →
      Option.Rel (Group.Shows position) (after.plan.groupAt? position)
        (forkAtBranches? branches l.size position) := by
  induction branches generalizing l compiled with
  | nil =>
    cases hlayOut
    exact fun position hge hlt => absurd hlt (by omega)
  | cons branch rest ih =>
    have hbranch := hnormal branch (by simp)
    have hrest : ∀ b ∈ rest, b.IsNormal := fun b hb => hnormal b (by simp [hb])
    obtain ⟨next, others, hnext, hlast⟩ := layOutBranches_cons hnormal hl hlayOut
    have hsize := hbranch.size_layOut hl.closeAnchors hnext
    rw [Layout.size_closeAnchors] at hsize
    have htidy := (hbranch.precedes hl.closeAnchors hnext).tidy hl.closeAnchors
    have hlater := precedes_layOutBranches hrest htidy hlast
    intro position hge hlt
    rw [forkAtBranches?]
    split
    · next hin =>
      rw [hlater.groupAt? (by omega)]
      exact (h branch (by simp) l.closeAnchors next hl.closeAnchors hnext).2 position hge (by omega)
    · next hout =>
      have hshown := ih hrest (fun b hb => h b (by simp [hb])) next htidy others hlast position
        (by omega) hlt
      rwa [hsize] at hshown

theorem forks_conditional (hc : c.IsNormal) (ht : t.IsNormal) (hf : f.IsNormal) (ihc : c.Forks)
    (iht : t.Forks) (ihf : f.Forks) : (conditional c t f).Forks := by
  intro l after hl hlayOut
  obtain ⟨routed, chosen, done, _, _, _, hrouted, hchosen, hdone, rfl⟩ :=
    layOut_conditional hc hl hlayOut
  have hsizeC := hc.size_layOut hl hrouted
  have hclosed := ((hc.precedes hl hrouted).tidy hl).closeAnchors
  have hsizeT := ht.size_layOut hclosed hchosen
  have hlaterT := ht.precedes hclosed hchosen
  have hclosed' := (hlaterT.tidy hclosed).closeAnchors
  have hsizeF := hf.size_layOut hclosed' hdone
  rw [Layout.size_closeAnchors] at hsizeT hsizeF
  have hlaterF := hf.precedes hclosed' hdone
  constructor
  · show done.size = _
    rw [firstBehind, hsizeF, hsizeT, hsizeC]
  · -- the choice leaves the groups alone, and each part those before it
    intro position hge hlt
    show Option.Rel _ (done.plan.groupAt? position) _
    have hposition : position < done.size := hlt
    rw [forkAt?, ← hsizeC, ← hsizeT]
    split
    · next hin =>
      rw [hlaterF.groupAt? (show position < chosen.size by omega)]
      show Option.Rel _ (chosen.plan.groupAt? position) _
      rw [hlaterT.groupAt? hin]
      exact (ihc l routed hl hrouted).2 position hge hin
    · next hbehind =>
      split
      · next hin =>
        rw [hlaterF.groupAt? hin]
        exact (iht routed.closeAnchors chosen hclosed hchosen).2 position
          (by show routed.size ≤ position; omega) hin
      · next hbehind' =>
        exact (ihf chosen.closeAnchors done hclosed' hdone).2 position
          (by show chosen.size ≤ position; omega) hposition

theorem forks_parallel (htwo : 2 ≤ branches.length) (hnormal : ∀ branch ∈ branches, branch.IsNormal)
    (ih : ∀ branch ∈ branches, branch.Forks) : (parallel branches).Forks := by
  intro l after hl hlayOut
  obtain ⟨done, compiled, hbranches, rfl⟩ :=
    layOut_parallel (.parallel htwo hnormal) hl hlayOut
  have hopened := l.precedes_takeAnchor.tidy hl
  have hstart : l.takeAnchor.2.2.size = l.size := l.taken.grows.size
  have hsize : done.size = l.size + widthOf branches := by
    rw [size_layOutBranches hnormal hopened hbranches, hstart]
  have hinner := forks_layOutBranches hnormal ih _ hopened compiled hbranches
  rw [hstart] at hinner
  obtain ⟨_, _, _, hresult, hruns, -⟩ :=
    exists_layOutBranches hnormal (fun branch hmem => (hnormal branch hmem).laysOut) _ hopened
  cases hresult.symm.trans hbranches
  constructor
  · exact hsize
  · intro position hge hlt
    show Option.Rel _ ((done.plan.groups.insert l.size _).get? position) _
    rw [Table.get?_insert, forkAt?]
    -- the group itself takes the place of one that its first branch begins with
    by_cases heq : position = l.size
    · rw [if_pos heq.symm, if_pos heq]
      refine .some ⟨⟨htwo, hnormal, ?_, hruns⟩, l.takeAnchor_anchorAt⟩
      rw [heq, hsize]
    · rw [if_neg (Ne.symm heq), if_neg heq]
      exact hinner position hge hlt

theorem IsNormal.forks (h : node.IsNormal) : node.Forks := by
  induction h with
  | @unit name _ =>
    intro l after hl hlayOut
    cases hlayOut
    refine ⟨rfl, fun position hge _ => ?_⟩
    -- all groups stand before the unit
    rw [forkAt?, show (l.push name).plan.groupAt? position = l.plan.groupAt? position from rfl,
      show l.plan.groupAt? position = none from Table.lookup_eq_none fun e he => by
        have := hl.groups e he
        omega]
    exact .none
  | sequence _ _ hsteps ih =>
    exact fun l after hl hlayOut => forks_layOutSteps hsteps ih l hl hlayOut
  | conditional hc ht hf ihc iht ihf => exact forks_conditional hc ht hf ihc iht ihf
  | parallel htwo hbranches ih => exact forks_parallel htwo hbranches ih

/-- The groups of a plan are those of its node in closed form. -/
theorem IsNormal.groupAt?_of_compile {p : Plan} (h : node.IsNormal) (hp : node.compile? = some p)
    {position : Nat} (hposition : position < node.width) :
    Option.Rel (Group.Shows position) (p.groupAt? position) (node.forkAt? 0 0 position) := by
  obtain ⟨l, hlayOut, rfl⟩ := Option.map_eq_some_iff.mp hp
  have hsize : l.size = 0 + node.width := h.size_layOut Layout.tidy_empty hlayOut
  exact (h.forks {} l Layout.tidy_empty hlayOut).2 position (Nat.zero_le _) (by omega)

end Node

end Workflow
