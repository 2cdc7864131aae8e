import Workflow.Expression.Token
import Workflow.Node

/-!
# Normal nodes

A node is *normal* when nothing in it could be written in a simpler way: names can be written in an
expression, a sequence has at least two steps and none of them is a sequence again, and a group has
at least two branches. These are the nodes that expressions denote (`Expression.RoundTrip`), and
every later statement about "a flow that was read" is a statement about normal nodes.

`Node.IsNormal` is an inductive predicate with one rule per kind of node. Induction on it is the
induction on nodes that the other proofs use: it hands out the claim for every step and branch.
-/

namespace Workflow

/-- Texts that the expression language takes for one name. -/
def Expression.IsName (text : String) : Prop :=
  ∃ first rest, text.toList = first :: rest ∧ startsName first = true ∧
    ∀ c ∈ rest, continuesName c = true

namespace Node

/-- Nodes in which nothing is nested without need. -/
inductive IsNormal : Node → Prop where
  | unit {name : String} (hname : Expression.IsName name) : IsNormal (.unit name)
  | sequence {steps : List Node} (htwo : 2 ≤ steps.length)
      (hflat : ∀ step ∈ steps, ∀ inner, step ≠ .sequence inner)
      (hsteps : ∀ step ∈ steps, IsNormal step) : IsNormal (.sequence steps)
  | conditional {condition whenTrue whenFalse : Node} (hcondition : IsNormal condition)
      (htrue : IsNormal whenTrue) (hfalse : IsNormal whenFalse) :
      IsNormal (.conditional condition whenTrue whenFalse)
  | parallel {branches : List Node} (htwo : 2 ≤ branches.length)
      (hbranches : ∀ branch ∈ branches, IsNormal branch) : IsNormal (.parallel branches)

/-! ## Flat steps -/

/-- What a normal node contributes to a sequence around it is flat: normal nodes that are no
sequences. -/
theorem IsNormal.flat_steps {node : Node} (h : node.IsNormal) :
    ∀ step ∈ node.steps, step.IsNormal ∧ ∀ inner, step ≠ .sequence inner := by
  cases h with
  | sequence _ hflat hsteps => exact fun step hstep => ⟨hsteps step hstep, hflat step hstep⟩
  | unit hname => simpa [steps] using IsNormal.unit hname
  | conditional hc ht hf => simpa [steps] using IsNormal.conditional hc ht hf
  | parallel htwo hbranches => simpa [steps] using IsNormal.parallel htwo hbranches

theorem IsNormal.steps_ne_nil {node : Node} (h : node.IsNormal) : node.steps ≠ [] := by
  cases h with
  | sequence htwo _ _ => exact List.ne_nil_of_length_pos (by simp only [steps]; omega)
  | unit | conditional | parallel => simp [steps]

theorem IsNormal.ofSteps {nodes : List Node} (hne : nodes ≠ [])
    (h : ∀ node ∈ nodes, node.IsNormal) : (Node.ofSteps nodes).IsNormal := by
  have hflat : ∀ step ∈ nodes.flatMap Node.steps,
      step.IsNormal ∧ ∀ inner, step ≠ .sequence inner := by
    intro step hstep
    obtain ⟨node, hnode, hmem⟩ := List.mem_flatMap.mp hstep
    exact (h node hnode).flat_steps step hmem
  unfold Node.ofSteps
  split
  · next step heq => exact (hflat step (by simp [heq])).1
  · next hsingle =>
    refine .sequence ?_ (fun step hstep => (hflat step hstep).2) fun step hstep =>
      (hflat step hstep).1
    -- no step at all is impossible, and a single one is the other case
    match hlist : nodes.flatMap Node.steps with
    | [] =>
      obtain ⟨node, hnode⟩ := List.exists_mem_of_ne_nil nodes hne
      have hnil := List.flatMap_eq_nil_iff.mp hlist node hnode
      exact absurd hnil (h node hnode).steps_ne_nil
    | [step] => exact absurd hlist (hsingle step)
    | _ :: _ :: _ => simp

/-- A node that is no sequence stands for itself as a single step. -/
theorem ofSteps_singleton {node : Node} (h : ∀ inner, node ≠ .sequence inner) :
    ofSteps [node] = node := by
  cases node with
  | sequence inner => exact absurd rfl (h inner)
  | unit | conditional | parallel => rfl

/-- Flat steps make up their own sequence. -/
theorem ofSteps_of_flat {nodes : List Node} (htwo : 2 ≤ nodes.length)
    (hflat : ∀ node ∈ nodes, ∀ inner, node ≠ .sequence inner) :
    ofSteps nodes = .sequence nodes := by
  have hsame : nodes.flatMap steps = nodes := by
    clear htwo
    induction nodes with
    | nil => rfl
    | cons node rest ih =>
      have hnode : node.steps = [node] := by
        cases node with
        | sequence inner => exact absurd rfl (hflat _ (by simp) inner)
        | unit | conditional | parallel => rfl
      rw [List.flatMap_cons, hnode, ih fun n hn => hflat n (by simp [hn])]
      rfl
  unfold ofSteps
  rw [hsame]
  split
  · next heq => simp at htwo
  · rfl

/-! ## Leaves -/

theorem IsNormal.leaves_ne_nil {node : Node} (h : node.IsNormal) : node.leaves ≠ [] := by
  induction h with
  | unit => simp [leaves]
  | @sequence steps htwo _ _ ih =>
    rw [leaves, leavesOf_eq_flatMap]
    intro hnil
    obtain ⟨step, hstep⟩ := List.exists_mem_of_length_pos (by omega : 0 < steps.length)
    exact ih step hstep (List.flatMap_eq_nil_iff.mp hnil step hstep)
  | conditional _ _ _ ih _ _ => simp [leaves, ih]
  | @parallel branches htwo _ ih =>
    rw [leaves, leavesOf_eq_flatMap]
    intro hnil
    obtain ⟨branch, hbranch⟩ := List.exists_mem_of_length_pos (by omega : 0 < branches.length)
    exact ih branch hbranch (List.flatMap_eq_nil_iff.mp hnil branch hbranch)

theorem IsNormal.isEmpty_eq_false {node : Node} (h : node.IsNormal) : node.isEmpty = false := by
  induction h with
  | unit | conditional => simp [isEmpty]
  | @sequence steps htwo _ _ ih =>
    obtain ⟨step, hstep⟩ := List.exists_mem_of_length_pos (by omega : 0 < steps.length)
    rw [isEmpty, areEmpty_eq_all, List.all_eq_false]
    exact ⟨step, hstep, by simp [ih step hstep]⟩
  | @parallel branches htwo _ ih =>
    obtain ⟨branch, hbranch⟩ := List.exists_mem_of_length_pos (by omega : 0 < branches.length)
    rw [isEmpty, areEmpty_eq_all, List.all_eq_false]
    exact ⟨branch, hbranch, by simp [ih branch hbranch]⟩

end Node

end Workflow
