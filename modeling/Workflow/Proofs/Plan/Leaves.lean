import Workflow.Proofs.Run.Parts

/-!
# A plan reads the leaves of its node

Nodes that are built by hand may be empty in part, and then not all of them have a plan. A branch is
*hollow* when it is not empty and yet has no unit, which takes a conditional without units. Nothing
stands in the way of laying out a node but a hollow branch of a group, wherever the group is; and if
the node can be laid out, its plan reads its leaves, in order and each as often as it occurs
(`Node.plan_reads_leaves`).

`Layout.Gives l names bad` says of an attempt to lay something out behind `l` that it fails exactly
if `bad` holds, and otherwise has appended `names`. Attempts are made one after another
(`Layout.Gives.bind`), so each kind of node needs to be looked at but once.
-/

namespace Workflow

namespace Node

/-! ## Hollow branches -/

/-- A node that is not empty, and yet has no unit. -/
def IsHollow (node : Node) : Prop := node.isEmpty = false ∧ node.leaves = []

/-- Somewhere in a node there is a group with a hollow branch. -/
def HasHollow (node : Node) : Prop :=
  ∃ branches, (parallel branches).Within node ∧ ∃ branch ∈ branches, branch.IsHollow

variable {steps branches : List Node} {c t f : Node}

theorem not_hasHollow_unit (name : String) : ¬ (unit name).HasHollow := by
  rintro ⟨_, hwithin, -⟩
  cases hwithin

theorem hasHollow_sequence : (sequence steps).HasHollow ↔ ∃ step ∈ steps, step.HasHollow := by
  constructor
  · rintro ⟨branches, hwithin, hhollow⟩
    cases hwithin with
    | step hmem h => exact ⟨_, hmem, branches, h, hhollow⟩
  · rintro ⟨step, hmem, branches, hwithin, hhollow⟩
    exact ⟨branches, .step hmem hwithin, hhollow⟩

theorem hasHollow_conditional :
    (conditional c t f).HasHollow ↔ c.HasHollow ∨ t.HasHollow ∨ f.HasHollow := by
  constructor
  · rintro ⟨branches, hwithin, hhollow⟩
    cases hwithin with
    | condition h => exact .inl ⟨branches, h, hhollow⟩
    | whenTrue h => exact .inr (.inl ⟨branches, h, hhollow⟩)
    | whenFalse h => exact .inr (.inr ⟨branches, h, hhollow⟩)
  · rintro (⟨branches, h, hhollow⟩ | ⟨branches, h, hhollow⟩ | ⟨branches, h, hhollow⟩)
    · exact ⟨branches, .condition h, hhollow⟩
    · exact ⟨branches, .whenTrue h, hhollow⟩
    · exact ⟨branches, .whenFalse h, hhollow⟩

theorem hasHollow_parallel :
    (parallel branches).HasHollow ↔ ∃ branch ∈ branches, branch.IsHollow ∨ branch.HasHollow := by
  constructor
  · rintro ⟨others, hwithin, hhollow⟩
    cases hwithin with
    | self =>
      obtain ⟨branch, hmem, hhollow⟩ := hhollow
      exact ⟨branch, hmem, .inl hhollow⟩
    | branch hmem h => exact ⟨_, hmem, .inr ⟨others, h, hhollow⟩⟩
  · rintro ⟨branch, hmem, hhollow | ⟨others, hwithin, hhollow⟩⟩
    · exact ⟨branches, .self, branch, hmem, hhollow⟩
    · exact ⟨others, .branch hmem hwithin, hhollow⟩

/-! ## Empty parts -/

mutual

/-- An empty node has no unit, and nothing hollow in it. -/
theorem plain_of_isEmpty : (node : Node) → node.isEmpty = true → node.leaves = [] ∧ ¬ node.HasHollow
  | .unit _, h | .conditional .., h => by cases h
  | .sequence steps, h => by
    obtain ⟨hleaves, hnone⟩ := plain_of_areEmpty steps h
    refine ⟨hleaves, fun hhollow => ?_⟩
    obtain ⟨step, hmem, hstep⟩ := hasHollow_sequence.mp hhollow
    exact hnone step hmem (.inr hstep)
  | .parallel branches, h => by
    obtain ⟨hleaves, hnone⟩ := plain_of_areEmpty branches h
    refine ⟨hleaves, fun hhollow => ?_⟩
    obtain ⟨branch, hmem, hbranch⟩ := hasHollow_parallel.mp hhollow
    exact hnone branch hmem hbranch

theorem plain_of_areEmpty : (nodes : List Node) → areEmpty nodes = true →
    leavesOf nodes = [] ∧ ∀ node ∈ nodes, ¬ (node.IsHollow ∨ node.HasHollow)
  | [], _ => ⟨rfl, nofun⟩
  | node :: rest, h => by
    rw [areEmpty, Bool.and_eq_true] at h
    obtain ⟨hleaves, hnode⟩ := plain_of_isEmpty node h.1
    obtain ⟨hleavesRest, hrest⟩ := plain_of_areEmpty rest h.2
    refine ⟨by rw [leavesOf, hleaves, hleavesRest]; rfl, fun other hmem => ?_⟩
    rcases List.mem_cons.mp hmem with rfl | hmem
    · rintro (⟨hempty, -⟩ | hhollow)
      · cases h.1.symm.trans hempty
      · exact hnode hhollow
    · exact hrest other hmem

end

end Node

/-! ## Attempts to lay something out -/

namespace Layout

/-- An attempt to lay something out behind a layout fails exactly if `bad` holds, and otherwise has
appended these units. -/
def Gives (l : Layout) (names : List String) (bad : Prop) : Option Layout → Prop
  | none => bad
  | some after => ¬ bad ∧ after.plan.sequence = l.plan.sequence ++ names

variable {l l' : Layout} {names names' : List String} {bad bad' : Prop} {result : Option Layout}

/-- Only the units of a layout matter to what is appended to them. -/
theorem Gives.of_sequence (h : l.Gives names bad result)
    (heq : l.plan.sequence = l'.plan.sequence) : l'.Gives names bad result := by
  cases result with
  | none => exact h
  | some after => exact ⟨h.1, heq ▸ h.2⟩

theorem Gives.of_iff (h : l.Gives names bad result) (hiff : bad ↔ bad') : l.Gives names bad' result := by
  rwa [← propext hiff]

/-- A layout that is put right afterwards keeps its units. -/
theorem Gives.map (h : l.Gives names bad result) {f : Layout → Layout}
    (hf : ∀ after, (f after).plan.sequence = after.plan.sequence) :
    l.Gives names bad (result.bind fun after => some (f after)) := by
  cases result with
  | none => exact h
  | some after => exact ⟨h.1, (hf after).trans h.2⟩

/-- One attempt after another appends first what the one appends and then what the other does. -/
theorem Gives.bind (h : l.Gives names bad result) {f : Layout → Option Layout}
    (hf : ∀ after : Layout, after.plan.sequence = l.plan.sequence ++ names →
      after.Gives names' bad' (f after)) :
    l.Gives (names ++ names') (bad ∨ bad') (result.bind f) := by
  cases result with
  | none => exact .inl h
  | some after =>
    obtain ⟨hgood, hsequence⟩ := h
    have hnext := hf after hsequence
    show l.Gives _ _ (f after)
    cases hresult : f after with
    | none =>
      rw [hresult] at hnext
      exact .inr hnext
    | some last =>
      rw [hresult] at hnext
      refine ⟨fun hbad => hbad.elim hgood hnext.1, ?_⟩
      rw [hnext.2, hsequence, List.append_assoc]

end Layout

namespace Node

open Layout (Gives)

/-! ## Laying out -/

/-- What the arms of a conditional append does not depend on whether there is a unit to route. -/
theorem layOut_conditional_gives {c t f : Node} (l : Layout)
    (hc : l.Gives c.leaves c.HasHollow (c.layOut l))
    (ht : ∀ l : Layout, l.Gives t.leaves t.HasHollow (t.layOut l))
    (hf : ∀ l : Layout, l.Gives f.leaves f.HasHollow (f.layOut l)) :
    l.Gives (conditional c t f).leaves (conditional c t f).HasHollow
      ((conditional c t f).layOut l) := by
  refine Gives.of_iff ?_ hasHollow_conditional.symm
  rw [leaves, List.append_assoc, layOut]
  refine hc.bind fun routed hrouted => ?_
  split
  · refine ((ht routed.closeAnchors).of_sequence rfl).bind fun chosen hchosen => ?_
    have hlast : chosen.Gives f.leaves f.HasHollow (f.layOut chosen.closeAnchors) :=
      (hf chosen.closeAnchors).of_sequence rfl
    exact hlast.map fun _ => rfl
  · exact (ht routed).bind fun first _ => hf first

/-- The branches of a group append their units, unless one of them is hollow. -/
theorem layOutBranches_cons_gives {branch : Node} {rest : List Node} (l : Layout)
    (hbranch : ∀ l : Layout, l.Gives branch.leaves branch.HasHollow (branch.layOut l))
    (hrest : ∀ l : Layout, l.Gives (leavesOf rest)
      (∃ other ∈ rest, other.IsHollow ∨ other.HasHollow) ((layOutBranches rest l).map Prod.fst)) :
    l.Gives (leavesOf (branch :: rest))
      (∃ other ∈ branch :: rest, other.IsHollow ∨ other.HasHollow)
      ((layOutBranches (branch :: rest) l).map Prod.fst) := by
  have hcons : (∃ other ∈ branch :: rest, other.IsHollow ∨ other.HasHollow) ↔
      (branch.IsHollow ∨ branch.HasHollow) ∨ ∃ other ∈ rest, other.IsHollow ∨ other.HasHollow := by
    simp
  refine Gives.of_iff ?_ hcons.symm
  rw [leavesOf, layOutBranches]
  split
  · next hempty =>
    obtain ⟨hleaves, hnone⟩ := plain_of_isEmpty branch hempty
    have hplain : ¬ (branch.IsHollow ∨ branch.HasHollow) := by
      rintro (⟨hfull, -⟩ | hhollow)
      · cases hempty.symm.trans hfull
      · exact hnone hhollow
    rw [hleaves, List.nil_append]
    exact (hrest l).of_iff (by simp [hplain])
  · next hfull =>
    have hown := hbranch {}
    have hnext := hbranch l.closeAnchors
    cases hlaid : branch.layOut l.closeAnchors with
    | none =>
      rw [hlaid] at hnext
      exact .inl (.inr hnext)
    | some next =>
      rw [hlaid] at hnext
      obtain ⟨hgood, hsequence⟩ := hnext
      have hread : next.plan.sequence = l.plan.sequence ++ branch.leaves := hsequence
      -- the branch is known by its first unit, which stands behind what was there before
      have hentry : next.plan.sequence[l.size]? = branch.leaves.head? := by
        rw [hread, Layout.size, List.getElem?_append_right (Nat.le_refl _), Nat.sub_self,
          List.head?_eq_getElem?]
      simp only [Option.bind_eq_bind, Option.bind_some, hentry]
      cases hleaves : branch.leaves with
      | nil => exact .inl (.inl ⟨Bool.not_eq_true _ ▸ hfull, hleaves⟩)
      | cons entry others =>
        have hplain : ¬ (branch.IsHollow ∨ branch.HasHollow) := by
          rintro (⟨-, hnil⟩ | hhollow)
          · cases hleaves.symm.trans hnil
          · exact hgood hhollow
        cases hcompiled : branch.layOut {} with
        | none =>
          rw [hcompiled] at hown
          exact absurd hown hgood
        | some own =>
          have hlast := hrest next
          simp only [List.head?_cons, Option.bind_some]
          cases hrestLaid : layOutBranches rest next with
          | none =>
            rw [hrestLaid] at hlast
            exact .inr hlast
          | some result =>
            rw [hrestLaid] at hlast
            refine ⟨fun hbad => hbad.elim hplain hlast.1, ?_⟩
            rw [← List.append_assoc, ← hleaves, ← hread]
            exact hlast.2

mutual

theorem layOut_gives : (node : Node) → (l : Layout) →
    l.Gives node.leaves node.HasHollow (node.layOut l)
  | .unit name, l => by
    rw [layOut]
    exact ⟨not_hasHollow_unit name, rfl⟩
  | .sequence steps, l => by
    rw [leaves, layOut]
    exact (layOutSteps_gives steps l).of_iff hasHollow_sequence.symm
  | .conditional c t f, l =>
    layOut_conditional_gives l (layOut_gives c l) (layOut_gives t) (layOut_gives f)
  | .parallel branches, l => by
    refine Gives.of_iff ?_ hasHollow_parallel.symm
    rw [leaves, layOut]
    split
    · next hempty =>
      obtain ⟨hleaves, hnone⟩ := plain_of_areEmpty branches hempty
      refine ⟨?_, by rw [hleaves, List.append_nil]⟩
      rintro ⟨branch, hmem, hhollow⟩
      exact hnone branch hmem hhollow
    · have hopened := (layOutBranches_gives branches l.takeAnchor.2.2).of_sequence
        (congrArg Plan.sequence l.taken.plan)
      simp only [Option.bind_eq_bind]
      cases hlaid : layOutBranches branches l.takeAnchor.2.2 with
      | none =>
        rw [hlaid] at hopened
        exact hopened
      | some result =>
        rw [hlaid] at hopened
        exact hopened

theorem layOutSteps_gives : (steps : List Node) → (l : Layout) →
    l.Gives (leavesOf steps) (∃ step ∈ steps, step.HasHollow) (layOutSteps steps l)
  | [], l => ⟨by simp, by simp [leavesOf]⟩
  | step :: rest, l => by
    have hcons : (∃ other ∈ step :: rest, other.HasHollow) ↔
        step.HasHollow ∨ ∃ other ∈ rest, other.HasHollow := by
      simp
    rw [leavesOf, layOutSteps]
    refine Gives.of_iff ?_ hcons.symm
    exact (layOut_gives step l).bind fun next _ => layOutSteps_gives rest next

theorem layOutBranches_gives : (branches : List Node) → (l : Layout) →
    l.Gives (leavesOf branches) (∃ branch ∈ branches, branch.IsHollow ∨ branch.HasHollow)
      ((layOutBranches branches l).map Prod.fst)
  | [], l => ⟨by simp, by simp [leavesOf]⟩
  | branch :: rest, l =>
    layOutBranches_cons_gives l (layOut_gives branch) (layOutBranches_gives rest)

end

/-- Of all nodes there are, exactly those have no plan in which some group has a hollow branch, at any
depth. The plan of any other node reads the leaves of the node: no occurrence of a unit is left out,
none is added, and they stand in their order. -/
theorem plan_reads_leaves (node : Node) :
    (node.compile? = none ↔ node.HasHollow) ∧
      (node.compile?.map Plan.sequence = some node.leaves ↔ ¬ node.HasHollow) := by
  have hgives := node.layOut_gives {}
  unfold compile?
  cases hlaid : node.layOut {} with
  | none =>
    rw [hlaid] at hgives
    exact ⟨⟨fun _ => hgives, fun _ => rfl⟩, nofun, fun hgood => absurd hgives hgood⟩
  | some l =>
    rw [hlaid] at hgives
    obtain ⟨hgood, hsequence⟩ := hgives
    exact ⟨⟨nofun, fun hhollow => absurd hhollow hgood⟩, fun _ => hgood,
      fun _ => congrArg some hsequence⟩

/-- A branch that is a conditional of nothing is hollow, also next to one with units; the same
conditional as a step is none. -/
example :
    let nothing : Node := .conditional (.sequence []) (.parallel []) (.sequence [])
    (parallel [.unit "a", nothing]).compile?.isNone = true ∧
      ((sequence [nothing, .unit "a", nothing]).compile?.map Plan.sequence) = some ["a"] := by
  decide

end Node

end Workflow
