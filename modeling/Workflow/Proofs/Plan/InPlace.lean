import Workflow.Proofs.Plan.Forks
import Workflow.Proofs.Run.Parts

/-!
# Branches in place

A branch of a group is laid out twice: as a part of the plan around it, and as a plan of its own that
a run walks. `Plan.Repeats p own start offset` compares the two, the branch beginning at `offset` in
a group that begins at `start`. Units, choices and groups are the same up to their positions, and
groups also up to the names of virtual anchors, with two exceptions.

* Where the group begins, the plan around it keeps the group itself, or one that begins there and
  has it inside.
* At the end of the branch a condition may end that has the group inside. Its choice is in the plan
  around the branch, and the branch knows nothing of it (`choiceAt?_behind_branch`).

Both sides are read off closed forms, the choices off `Node.choicesFrom` and the groups off
`Node.forkAt?`. Two facts about these carry the comparison: they move with the position at which a
node begins, and those of a node show at a part (`Node.Lies`) those of the part.
-/

namespace Workflow

/-! ## Moving -/

def Span.shift (span : Span) (offset : Nat) : Span := ⟨offset + span.start, offset + span.stop⟩

def Arm.shift (arm : Arm) (offset : Nat) : Arm := { arm with span := arm.span.shift offset }

def Choice.shift (choice : Choice) (offset : Nat) : Choice :=
  { choice with arms := choice.arms.map (·.shift offset) }

/-- A group is another one moved by an offset, up to the name of a virtual anchor. -/
structure Group.Shifts (offset : Nat) (group own : Group Plan) : Prop where
  span : group.span = own.span.shift offset
  branches : group.branches = own.branches
  anchorAt : group.anchorAt = own.anchorAt.map (offset + ·)
  unit : group.anchorAt ≠ none → group.anchor = own.anchor
  virtual : group.anchorAt = none →
    Anchor.isVirtual group.anchor = true ∧ Anchor.isVirtual own.anchor = true

/-- From `offset` on, a plan has what another plan has, which is that of a branch of a group that
begins at `start`. -/
structure Plan.Repeats (p own : Plan) (start offset : Nat) : Prop where
  units : ∀ i, i < own.length → p.unitAt? (offset + i) = own.unitAt? i
  choices : ∀ i, i + 1 < own.length →
    p.choiceAt? (offset + i) = (own.choiceAt? i).map (·.shift offset)
  no_choice : ∀ i, own.length ≤ i + 1 → own.choiceAt? i = none
  groups : ∀ i, i < own.length → offset + i ≠ start →
    Option.Rel (Group.Shifts offset) (p.groupAt? (offset + i)) (own.groupAt? i)
  no_group : ∀ i, own.length ≤ i → own.groupAt? i = none

/-- A branch of a group is narrower than the group. -/
theorem Group.Joins.width_lt {group : Group Plan} {branches : List Node}
    {branch : Node} {position : Nat} (h : group.Joins position branches) (hmem : branch ∈ branches) :
    branch.width < Node.widthOf branches := by
  obtain ⟨before, after, rfl⟩ := List.append_of_mem hmem
  have htwo := h.two
  rw [List.length_append, List.length_cons] at htwo
  rw [Node.widthOf_append, Node.widthOf_cons]
  -- there is another branch, before or after this one
  rcases before with _ | ⟨first, rest⟩
  · rcases after with _ | ⟨next, rest⟩
    · simp at htwo
    · have := (h.normal next (by simp)).width_pos
      rw [Node.widthOf_cons]
      omega
  · have := (h.normal first (by simp)).width_pos
    rw [Node.widthOf_cons]
    omega

namespace Table

variable {ν : Type} {offset key : Nat} {entries : List (Nat × ν)}

/-- Entries whose keys have moved are found where they have moved to. -/
theorem lookup_map_add (f : ν → ν) :
    lookup (offset + key) (entries.map fun e => (offset + e.1, f e.2)) =
      (lookup key entries).map f := by
  induction entries with
  | nil => rfl
  | cons e rest ih =>
    obtain ⟨k, v⟩ := e
    rw [List.map_cons, lookup, lookup]
    by_cases h : k = key
    · rw [if_pos (by omega), if_pos h, Option.map_some]
    · rw [if_neg (by omega), if_neg h, ih]

end Table

namespace Node

variable {m node c t f : Node} {before after : List Node} {i k start first position offset : Nat}

/-! ## Choices of a node that has moved -/

theorem arm?_add (node : Node) (start : Nat) :
    node.arm? (offset + start) = (node.arm? start).map (·.shift offset) := by
  rw [arm?, arm?, Option.map_map]
  congr 1
  funext target
  simp [Arm.shift, Span.shift, Nat.add_assoc]

theorem choice?_add :
    choice? c t f (offset + start) = (choice? c t f start).map (·.shift offset) := by
  rw [choice?, choice?, Nat.add_assoc, Nat.add_assoc, arm?_add t, arm?_add f]
  cases c.leaves.getLast? <;> cases t.arm? (start + c.width) <;>
    cases f.arm? (start + c.width + t.width) <;> rfl

theorem choicesFromAll_add {nodes : List Node}
    (h : ∀ node ∈ nodes, ∀ start, node.choicesFrom (offset + start) =
      (node.choicesFrom start).map fun e => (offset + e.1, e.2.shift offset)) :
    ∀ start, choicesFromAll nodes (offset + start) =
      (choicesFromAll nodes start).map fun e => (offset + e.1, e.2.shift offset) := by
  induction nodes with
  | nil => exact fun _ => rfl
  | cons node rest ih =>
    intro start
    rw [choicesFromAll, choicesFromAll, List.map_append, h node (by simp), Nat.add_assoc,
      ih fun n hn => h n (by simp [hn])]

/-- The choices of a node move with it. -/
theorem IsNormal.choicesFrom_add (h : node.IsNormal) : ∀ start,
    node.choicesFrom (offset + start) =
      (node.choicesFrom start).map fun e => (offset + e.1, e.2.shift offset) := by
  induction h with
  | unit => exact fun _ => rfl
  | sequence _ _ _ ih | parallel _ _ ih => exact choicesFromAll_add ih
  | @conditional c t f hc _ _ ihc iht ihf =>
    intro start
    have hwidth := hc.width_pos
    rw [choicesFrom, choicesFrom, choice?_add, ihc, Nat.add_assoc, iht, Nat.add_assoc, ihf,
      show offset + (start + c.width) - 1 = offset + (start + c.width - 1) by omega]
    simp only [List.map_append, List.map_map, Option.toList_map]
    rfl

/-! ## Groups of a node that has moved -/

/-- A group of a node that has moved. -/
def Fork.shift (fork : Fork) (offset : Nat) : Fork :=
  { fork with anchorAt := fork.anchorAt.map (offset + ·) }

mutual

theorem firstBehind_add (offset : Nat) : ∀ (node : Node) (start first : Nat),
    node.firstBehind (offset + start) (offset + first) = offset + node.firstBehind start first
  | .unit _, _, _ => rfl
  | .sequence steps, start, first => firstBehindAll_add offset steps start first
  | .conditional c t f, start, first => by
    simp only [firstBehind]
    omega
  | .parallel branches, start, first => by
    simp only [firstBehind]
    omega

theorem firstBehindAll_add (offset : Nat) : ∀ (steps : List Node) (start first : Nat),
    firstBehindAll steps (offset + start) (offset + first) =
      offset + firstBehindAll steps start first
  | [], _, _ => rfl
  | step :: rest, start, first => by
    rw [firstBehindAll, firstBehindAll, firstBehind_add offset step, Nat.add_assoc,
      firstBehindAll_add offset rest]

end

mutual

/-- The groups of a node move with it. -/
theorem forkAt?_add (offset : Nat) : ∀ (node : Node) (start first position : Nat),
    node.forkAt? (offset + start) (offset + first) (offset + position) =
      (node.forkAt? start first position).map (·.shift offset)
  | .unit _, _, _, _ => rfl
  | .sequence steps, start, first, position => forkAtSteps?_add offset steps start first position
  | .conditional c t f, start, first, position => by
    simp only [forkAt?, Nat.add_assoc, Nat.add_lt_add_iff_left]
    rw [forkAt?_add offset c, forkAt?_add offset t, forkAt?_add offset f]
    split
    · rfl
    · split <;> rfl
  | .parallel branches, start, first, position => by
    simp only [forkAt?, Nat.add_left_cancel_iff, Nat.add_lt_add_iff_left]
    rw [forkAtBranches?_add offset branches]
    split
    · split
      · next hlt =>
        rw [Option.map_some, Fork.shift, Option.map_some,
          show offset + start - 1 = offset + (start - 1) by omega]
      · rfl
    · rfl

theorem forkAtSteps?_add (offset : Nat) : ∀ (steps : List Node) (start first position : Nat),
    forkAtSteps? steps (offset + start) (offset + first) (offset + position) =
      (forkAtSteps? steps start first position).map (·.shift offset)
  | [], _, _, _ => rfl
  | step :: rest, start, first, position => by
    simp only [forkAtSteps?, Nat.add_assoc, Nat.add_lt_add_iff_left]
    rw [forkAt?_add offset step, firstBehind_add, forkAtSteps?_add offset rest]
    split <;> rfl

theorem forkAtBranches?_add (offset : Nat) : ∀ (branches : List Node) (start position : Nat),
    forkAtBranches? branches (offset + start) (offset + position) =
      (forkAtBranches? branches start position).map (·.shift offset)
  | [], _, _ => rfl
  | branch :: rest, start, position => by
    simp only [forkAtBranches?, Nat.add_assoc, Nat.add_lt_add_iff_left]
    rw [forkAt?_add offset branch, forkAtBranches?_add offset rest]
    split <;> rfl

end

/-! ## Parts in place -/

/-- A part of a node lies at a position when the node itself begins at `start`. Parts of branches
count too. -/
inductive Lies (m : Node) (i : Nat) : Node → Nat → Prop where
  | self : Lies m i m i
  | step {before after : List Node} {step : Node} {start : Nat}
      (h : Lies m i step (start + widthOf before)) :
      Lies m i (.sequence (before ++ step :: after)) start
  | branch {before after : List Node} {branch : Node} {start : Nat}
      (h : Lies m i branch (start + widthOf before)) :
      Lies m i (.parallel (before ++ branch :: after)) start
  | condition {c t f : Node} {start : Nat} (h : Lies m i c start) :
      Lies m i (.conditional c t f) start
  | whenTrue {c t f : Node} {start : Nat} (h : Lies m i t (start + c.width)) :
      Lies m i (.conditional c t f) start
  | whenFalse {c t f : Node} {start : Nat} (h : Lies m i f (start + c.width + t.width)) :
      Lies m i (.conditional c t f) start

theorem Lies.isWithin (h : m.Lies i node start) : m.Within node := by
  induction h with
  | self => exact .self
  | step _ ih => exact .step (by simp) ih
  | branch _ ih => exact .branch (by simp) ih
  | condition _ ih => exact .condition ih
  | whenTrue _ ih => exact .whenTrue ih
  | whenFalse _ ih => exact .whenFalse ih

theorem Lies.bounds (h : m.Lies i node start) : start ≤ i ∧ i + m.width ≤ start + node.width := by
  induction h with
  | self => omega
  | step _ ih =>
    rw [width_sequence, widthOf_append, widthOf_cons]
    omega
  | branch _ ih =>
    rw [width_parallel, widthOf_append, widthOf_cons]
    omega
  | condition _ ih | whenTrue _ ih | whenFalse _ ih =>
    rw [width_conditional]
    omega

theorem Lies.trans {inner : Node} (h : inner.Lies k m i) (h' : m.Lies i node start) :
    inner.Lies k node start := by
  induction h' with
  | self => exact h
  | step _ ih => exact .step ih
  | branch _ ih => exact .branch ih
  | condition _ ih => exact .condition ih
  | whenTrue _ ih => exact .whenTrue ih
  | whenFalse _ ih => exact .whenFalse ih

theorem reads_part {p : Plan} {part : Node}
    (h : p.Reads start (leavesOf (before ++ part :: after))) :
    p.Reads (start + widthOf before) part.leaves := by
  rw [leavesOf_eq_flatMap, List.flatMap_append, List.flatMap_cons, ← leavesOf_eq_flatMap] at h
  exact h.append.2.append.1

/-- A plan that reads the leaves of a node reads those of its parts. -/
theorem Lies.reads {p : Plan} (h : m.Lies i node start) (hreads : p.Reads start node.leaves) :
    p.Reads i m.leaves := by
  induction h with
  | self => exact hreads
  | step _ ih | branch _ ih => exact ih (reads_part hreads)
  | condition _ ih | whenTrue _ ih | whenFalse _ ih =>
    rw [leaves, List.append_assoc] at hreads
    first
      | exact ih hreads.append.1
      | exact ih hreads.append.2.append.1
      | exact ih hreads.append.2.append.2

/-! ## What a part has where it lies -/

section Choices

open Table (lookup)

theorem lookup_choicesFromAll {part : Node} (h : ∀ n ∈ before ++ part :: after, n.IsNormal)
    (hge : start + widthOf before ≤ position)
    (hlt : position < start + widthOf before + part.width) :
    lookup position (choicesFromAll (before ++ part :: after) start) =
      lookup position (part.choicesFrom (start + widthOf before)) := by
  induction before generalizing start with
  | nil =>
    rw [widthOf_nil, Nat.add_zero] at hlt ⊢
    rw [List.nil_append, choicesFromAll, Table.lookup_append_left]
    intro e he
    have := choicesFromAll_within (fun n hn => h n (by simp [hn])) _ e he
    omega
  | cons first rest ih =>
    rw [widthOf_cons, ← Nat.add_assoc] at hge hlt ⊢
    rw [List.cons_append, choicesFromAll, Table.lookup_append_right,
      ih (fun n hn => h n (by simp at hn ⊢; tauto)) hge hlt]
    intro e he
    have := (h first (by simp)).choicesFrom_within start e he
    omega

theorem lookup_choicesFrom_condition (ht : t.IsNormal) (hf : f.IsNormal)
    (hlt : position + 1 < start + c.width) :
    lookup position ((conditional c t f).choicesFrom start) =
      lookup position (c.choicesFrom start) := by
  rw [choicesFrom, Table.lookup_append_left]
  intro e he
  rw [List.mem_append, List.mem_append] at he
  rcases he with he | he | he
  · obtain ⟨choice, -, rfl⟩ := List.mem_map.mp he
    simp only
    omega
  · have := ht.choicesFrom_within _ e he
    omega
  · have := hf.choicesFrom_within _ e he
    omega

/-- Behind the condition stand the choices of the arms. -/
theorem lookup_choicesFrom_arms (hc : c.IsNormal) (hge : start + c.width ≤ position) :
    lookup position ((conditional c t f).choicesFrom start) =
      lookup position (t.choicesFrom (start + c.width) ++
        f.choicesFrom (start + c.width + t.width)) := by
  have hwidth := hc.width_pos
  rw [choicesFrom, Table.lookup_append_right, Table.lookup_append_right]
  · intro e he
    obtain ⟨choice, -, rfl⟩ := List.mem_map.mp he
    simp only
    omega
  · intro e he
    have := hc.choicesFrom_within start e he
    omega

theorem lookup_choicesFrom_whenTrue (hc : c.IsNormal) (hf : f.IsNormal)
    (hge : start + c.width ≤ position) (hlt : position < start + c.width + t.width) :
    lookup position ((conditional c t f).choicesFrom start) =
      lookup position (t.choicesFrom (start + c.width)) := by
  rw [lookup_choicesFrom_arms hc hge, Table.lookup_append_left]
  intro e he
  have := hf.choicesFrom_within _ e he
  omega

theorem lookup_choicesFrom_whenFalse (hc : c.IsNormal) (ht : t.IsNormal)
    (hge : start + c.width + t.width ≤ position) :
    lookup position ((conditional c t f).choicesFrom start) =
      lookup position (f.choicesFrom (start + c.width + t.width)) := by
  rw [lookup_choicesFrom_arms hc (by omega), Table.lookup_append_right]
  intro e he
  have := ht.choicesFrom_within _ e he
  omega

/-- Before the end of a part, the choices of a node are those of the part. -/
theorem Lies.lookup_choicesFrom (h : m.Lies i node start) (hnormal : node.IsNormal)
    (hge : i ≤ position) (hlt : position + 1 < i + m.width) :
    lookup position (node.choicesFrom start) = lookup position (m.choicesFrom i) := by
  induction h with
  | self => rfl
  | step h ih =>
    have hbounds := h.bounds
    cases hnormal with
    | sequence _ _ hsteps =>
      rw [choicesFrom, lookup_choicesFromAll hsteps (by omega) (by omega), ih (hsteps _ (by simp))]
  | branch h ih =>
    have hbounds := h.bounds
    cases hnormal with
    | parallel _ hbranches =>
      rw [choicesFrom, lookup_choicesFromAll hbranches (by omega) (by omega),
        ih (hbranches _ (by simp))]
  | condition h ih =>
    have hbounds := h.bounds
    cases hnormal with
    | conditional hc ht hf => rw [lookup_choicesFrom_condition ht hf (by omega), ih hc]
  | whenTrue h ih =>
    have hbounds := h.bounds
    cases hnormal with
    | conditional hc ht hf =>
      rw [lookup_choicesFrom_whenTrue hc hf (by omega) (by omega), ih ht]
  | whenFalse h ih =>
    have hbounds := h.bounds
    cases hnormal with
    | conditional hc ht hf => rw [lookup_choicesFrom_whenFalse hc ht (by omega), ih hf]

/-- Where a condition ends, a node has a choice. -/
theorem Lies.exists_choice (h : (conditional c t f).Lies k node start) (hnormal : node.IsNormal) :
    ∃ choice, lookup (k + c.width - 1) (node.choicesFrom start) = some choice := by
  cases hnormal.within h.isWithin with
  | conditional hc ht hf =>
    have hwidthC := hc.width_pos
    have hwidthT := ht.width_pos
    obtain ⟨router, first, second, -, -, -, hchoice⟩ := Node.exists_choice hc ht hf k
    have hown : lookup (k + c.width - 1) ((conditional c t f).choicesFrom k) =
        choice? c t f k := by
      rw [choicesFrom, Table.lookup_append_right, hchoice]
      · exact if_pos rfl
      · intro e he
        have := hc.choicesFrom_within k e he
        omega
    rw [h.lookup_choicesFrom hnormal (by omega) (by rw [width_conditional]; omega), hown]
    exact ⟨_, hchoice⟩

/-- At the end of a part a node has a choice only where a condition ends that has the part inside. -/
theorem Lies.exists_condition (h : m.Lies i node start) (hnormal : node.IsNormal) {choice : Choice}
    (hchoice : lookup (i + m.width - 1) (node.choicesFrom start) = some choice) :
    ∃ c t f k, (conditional c t f).Lies k node start ∧ m.Lies i c k ∧
      k + c.width = i + m.width := by
  have hwidth := (hnormal.within h.isWithin).width_pos
  induction h with
  | self =>
    have := hnormal.choicesFrom_within i _ (Table.mem_of_lookup hchoice)
    simp only at this
    omega
  | step h ih =>
    have hbounds := h.bounds
    cases hnormal with
    | sequence _ _ hsteps =>
      rw [choicesFrom, lookup_choicesFromAll hsteps (by omega) (by omega)] at hchoice
      obtain ⟨c, t, f, k, hlies, hcondition, hends⟩ := ih (hsteps _ (by simp)) hchoice
      exact ⟨c, t, f, k, .step hlies, hcondition, hends⟩
  | branch h ih =>
    have hbounds := h.bounds
    cases hnormal with
    | parallel _ hbranches =>
      rw [choicesFrom, lookup_choicesFromAll hbranches (by omega) (by omega)] at hchoice
      obtain ⟨c, t, f, k, hlies, hcondition, hends⟩ := ih (hbranches _ (by simp)) hchoice
      exact ⟨c, t, f, k, .branch hlies, hcondition, hends⟩
  | @condition c' t' f' start h ih =>
    have hbounds := h.bounds
    cases hnormal with
    | conditional hc ht hf =>
      -- the part ends with this condition, or inside of it
      by_cases hends : i + m.width = start + c'.width
      · exact ⟨c', t', f', start, .self, h, hends.symm⟩
      · rw [lookup_choicesFrom_condition ht hf (by omega)] at hchoice
        obtain ⟨c, t, f, k, hlies, hcondition, hends⟩ := ih hc hchoice
        exact ⟨c, t, f, k, .condition hlies, hcondition, hends⟩
  | whenTrue h ih =>
    have hbounds := h.bounds
    cases hnormal with
    | conditional hc ht hf =>
      rw [lookup_choicesFrom_whenTrue hc hf (by omega) (by omega)] at hchoice
      obtain ⟨c, t, f, k, hlies, hcondition, hends⟩ := ih ht hchoice
      exact ⟨c, t, f, k, .whenTrue hlies, hcondition, hends⟩
  | whenFalse h ih =>
    have hbounds := h.bounds
    cases hnormal with
    | conditional hc ht hf =>
      rw [lookup_choicesFrom_whenFalse hc ht (by omega)] at hchoice
      obtain ⟨c, t, f, k, hlies, hcondition, hends⟩ := ih hf hchoice
      exact ⟨c, t, f, k, .whenFalse hlies, hcondition, hends⟩

end Choices

theorem exists_forkAtSteps?_eq {step : Node} (after : List Node) (first : Nat)
    (hge : start + widthOf before ≤ position)
    (hlt : position < start + widthOf before + step.width) :
    ∃ first',
      forkAtSteps? (before ++ step :: after) start first position =
        step.forkAt? (start + widthOf before) first' position := by
  induction before generalizing start first with
  | nil =>
    rw [widthOf_nil, Nat.add_zero] at hlt ⊢
    exact ⟨first, by rw [List.nil_append, forkAtSteps?, if_pos hlt]⟩
  | cons earlier rest ih =>
    rw [widthOf_cons, ← Nat.add_assoc] at hge hlt ⊢
    rw [List.cons_append, forkAtSteps?, if_neg (by omega)]
    exact ih _ hge hlt

theorem forkAtBranches?_eq {branch : Node} (hge : start + widthOf before ≤ position)
    (hlt : position < start + widthOf before + branch.width) :
    forkAtBranches? (before ++ branch :: after) start position =
      branch.forkAt? (start + widthOf before) (start + widthOf before) position := by
  induction before generalizing start with
  | nil =>
    rw [widthOf_nil, Nat.add_zero] at hlt ⊢
    rw [List.nil_append, forkAtBranches?, if_pos hlt]
  | cons earlier rest ih =>
    rw [widthOf_cons, ← Nat.add_assoc] at hge hlt ⊢
    rw [List.cons_append, forkAtBranches?, if_neg (by omega)]
    exact ih hge hlt

/-- Behind the first position of a part, the groups of a node are those of the part. At the first
one a group around the part may begin. -/
theorem Lies.exists_forkAt?_eq (h : m.Lies i node start) (hgt : i < position)
    (hlt : position < i + m.width) : ∀ first, ∃ first',
    node.forkAt? start first position = m.forkAt? i first' position := by
  induction h with
  | self => exact fun first => ⟨first, rfl⟩
  | @step before after step start h ih =>
    intro first
    have hbounds := h.bounds
    have hge : start + widthOf before ≤ position := by omega
    have hin : position < start + widthOf before + step.width := by omega
    obtain ⟨first', heq⟩ := exists_forkAtSteps?_eq after first hge hin
    obtain ⟨first'', heq'⟩ := ih first'
    exact ⟨first'', by rw [forkAt?, heq, heq']⟩
  | @branch before after branch start h ih =>
    intro first
    have hbounds := h.bounds
    have hge : start + widthOf before ≤ position := by omega
    have hin : position < start + widthOf before + branch.width := by omega
    obtain ⟨first', heq⟩ := ih (start + widthOf before)
    exact ⟨first', by rw [forkAt?, if_neg (by omega), forkAtBranches?_eq hge hin, heq]⟩
  | condition h ih =>
    intro first
    have hbounds := h.bounds
    obtain ⟨first', heq⟩ := ih first
    exact ⟨first', by rw [forkAt?, if_pos (by omega), heq]⟩
  | whenTrue h ih =>
    intro first
    have hbounds := h.bounds
    obtain ⟨first', heq⟩ := ih _
    exact ⟨first', by rw [forkAt?, if_neg (by omega), if_pos (by omega), heq]⟩
  | whenFalse h ih =>
    intro first
    have hbounds := h.bounds
    obtain ⟨first', heq⟩ := ih _
    exact ⟨first', by rw [forkAt?, if_neg (by omega), if_neg (by omega), heq]⟩

/-! ## Plans of parts -/

theorem IsNormal.choiceAt?_of_compile {p : Plan} (h : node.IsNormal) (hp : node.compile? = some p) :
    p.choiceAt? position = Table.lookup position (node.choicesFrom 0) := by
  obtain ⟨l, _, hcompile, -, hgrows⟩ := h.exists_compile
  cases hcompile.symm.trans hp
  rw [Plan.choiceAt?, Table.get?, hgrows.choices]
  rfl

/-- The plan of a node keeps every group of the node, or a plan in it does. -/
theorem IsNormal.exists_group {p : Plan} {branches : List Node} (h : node.IsNormal)
    (hp : node.compile? = some p) (hin : (Node.parallel branches).Within node) :
    ∃ q group, p.Contains q ∧ group ∈ q.groups.values ∧
      List.Forall₂ Branch.Runs group.branches branches := by
  -- what is not kept is in a branch, which is narrower
  induction hwidth : node.width using Nat.strong_induction_on generalizing node p with
  | _ width ih =>
    subst hwidth
    have hlays := (h.lays_of_compile hp).2.2
    rcases hin.stands 0 none with ⟨i, arms, hstands⟩ | ⟨around, i, arms, branch, hstands, hmem, hin⟩
    · obtain ⟨group, hgroup, hjoins⟩ := (hlays.part hstands).joins
      exact ⟨p, group, .self, List.mem_map.mpr ⟨_, Table.mem_of_lookup hgroup, rfl⟩, hjoins.runs⟩
    · obtain ⟨group, hgroup, hjoins⟩ := (hlays.part hstands).joins
      have hentry := Table.mem_of_lookup hgroup
      have hnarrow : branch.width < node.width := by
        have hlt := hjoins.width_lt hmem
        have hbounds := hstands.within
        rw [width_parallel] at hbounds
        omega
      obtain ⟨before, after, rfl⟩ := List.append_of_mem hmem
      obtain ⟨_, own, _, hbranches, -, hrun, -⟩ := forall₂_append_cons hjoins.runs.flip
      obtain ⟨q, kept, hcontains, hkept, hruns⟩ :=
        ih branch.width hnarrow (hjoins.normal branch hmem) hrun.plan hin rfl
      exact ⟨q, kept, Plan.Contains.trans (.branch .self hentry (by rw [hbranches]; simp)) hcontains,
        hkept, hruns⟩

end Node

theorem Branch.Runs.unique {own own' : Branch Plan} {node : Node} (h : own.Runs node)
    (h' : own'.Runs node) : own = own' := by
  obtain ⟨entry, plan⟩ := own
  obtain ⟨entry', plan'⟩ := own'
  cases Option.some.inj (h.entry.symm.trans h'.entry)
  cases Option.some.inj (h.plan.symm.trans h'.plan)
  rfl

/-- The group of a node that has moved is the group of the node, moved. -/
theorem Group.Shows.shifts {p own : Plan} {node branch : Node} {offset i : Nat}
    {group ownGroup : Group Plan} {fork : Node.Fork} (hp : p.Fits node) (hown : own.Fits branch)
    (hunits : ∀ i, i < own.length → p.unitAt? (offset + i) = own.unitAt? i)
    (hgroup : p.groupAt? (offset + i) = some group) (hownGroup : own.groupAt? i = some ownGroup)
    (h : group.Shows (offset + i) (fork.shift offset)) (h' : ownGroup.Shows i fork) :
    group.Shifts offset ownGroup := by
  have hmem := Table.mem_of_lookup hgroup
  have hmemOwn := Table.mem_of_lookup hownGroup
  have hanchorAt : group.anchorAt = ownGroup.anchorAt.map (offset + ·) := by
    rw [h.anchorAt, h'.anchorAt]
    rfl
  constructor
  case span =>
    rw [h.joins.span, h'.joins.span]
    simp only [Span.shift, Nat.add_assoc]
    rfl
  case branches =>
    exact List.left_unique_forall₂' (fun _ _ _ hrun hrun' => hrun.unique hrun') h.joins.runs
      h'.joins.runs
  case anchorAt => exact hanchorAt
  case unit =>
    intro hsome
    rcases hk : ownGroup.anchorAt with _ | k
    · rw [hanchorAt, hk] at hsome
      exact absurd rfl hsome
    · -- both are the unit that the anchor is
      rw [hk] at hanchorAt
      have hunit := (hp.anchored _ hmem _ hanchorAt).unit
      have hunitOwn := (hown.anchored _ hmemOwn k hk).unit
      rw [hunits k (List.getElem?_eq_some_iff.mp hunitOwn).1, hunitOwn] at hunit
      exact (Option.some.inj hunit).symm
  case virtual =>
    intro hnone
    refine ⟨(hp.virtual _ hmem hnone).1, (hown.virtual _ hmemOwn ?_).1⟩
    rwa [hanchorAt, Option.map_eq_none_iff] at hnone

namespace Node

variable {node : Node} {before after : List Node} {start : Nat}

/-- What a plan has where a branch lies in its node, and what the plan of the branch has. -/
theorem Lies.repeats {p own : Plan} {branch : Node}
    (h : (parallel (before ++ branch :: after)).Lies start node 0) (hnormal : node.IsNormal)
    (hp : node.compile? = some p) (hown : branch.compile? = some own) :
    p.Repeats own start (start + widthOf before) := by
  have hin : branch.Lies (start + widthOf before) node 0 := .trans (.branch .self) h
  have hbranch := hnormal.within hin.isWithin
  have hfits := hnormal.fits_of_compile hp
  have hfitsOwn := hbranch.fits_of_compile hown
  have hlength : own.length = branch.width := by rw [Plan.length, hfitsOwn.units, width]
  have hbounds := hin.bounds
  have hunits : ∀ i, i < own.length →
      p.unitAt? (start + widthOf before + i) = own.unitAt? i := by
    intro i hi
    have hreads := hin.reads (hnormal.lays_of_compile hp).2.2.reads
    rw [hreads.unitAt? (by rw [← width]; omega), Plan.unitAt?, hfitsOwn.units]
  constructor
  case units => exact hunits
  case choices =>
    intro i hi
    rw [hnormal.choiceAt?_of_compile hp, hin.lookup_choicesFrom hnormal (by omega) (by omega),
      ← Nat.add_zero (start + widthOf before), hbranch.choicesFrom_add, Nat.add_zero,
      Table.lookup_map_add (Choice.shift · _), hbranch.choiceAt?_of_compile hown]
  case no_choice =>
    intro i hi
    rw [hbranch.choiceAt?_of_compile hown, Table.lookup_eq_none]
    intro e he
    have := hbranch.choicesFrom_within 0 e he
    omega
  case groups =>
    intro i hi hne
    have hrange : start + widthOf before + i <
        start + (parallel (before ++ branch :: after)).width := by
      rw [width_parallel, widthOf_append, widthOf_cons]
      omega
    obtain ⟨first, hforks⟩ := h.exists_forkAt?_eq (by omega) hrange 0
    have hkept := hnormal.groupAt?_of_compile hp (by omega : start + widthOf before + i < node.width)
    have hkeptOwn := hbranch.groupAt?_of_compile hown (by omega : i < branch.width)
    -- in the group, the branch has its groups where it has them alone, moved
    have hmoved := forkAt?_add (start + widthOf before) branch 0 0 i
    rw [Nat.add_zero] at hmoved
    rw [hforks, forkAt?, if_neg hne, forkAtBranches?_eq (by omega) (by omega), hmoved] at hkept
    generalize branch.forkAt? 0 0 i = fork at hkept hkeptOwn
    generalize hgroup : p.groupAt? (start + widthOf before + i) = group at hkept ⊢
    generalize hownGroup : own.groupAt? i = ownGroup at hkeptOwn ⊢
    cases hkeptOwn with
    | none =>
      cases hkept
      exact .none
    | some hshowsOwn =>
      cases hkept with
      | some hshows =>
        exact .some (hshows.shifts hfits hfitsOwn hunits hgroup hownGroup hshowsOwn)
  case no_group =>
    intro i hi
    rcases hgroup : own.groupAt? i with _ | group
    · rfl
    · have hgroupFits := hfitsOwn.groups _ (Table.mem_of_lookup hgroup)
      have hstart := hgroupFits.start
      have hpos := hgroupFits.pos
      have hstop := hgroupFits.stop
      simp only at hstart hpos hstop
      omega

/-- Where a branch ends, a condition ends that has its group inside, or there is no choice. -/
theorem Lies.exists_condition_behind_branch {branch : Node} {choice : Choice}
    (h : (parallel (before ++ branch :: after)).Lies start node 0) (hnormal : node.IsNormal)
    (hchoice : Table.lookup (start + widthOf before + branch.width - 1) (node.choicesFrom 0) =
      some choice) :
    ∃ c t f k, (conditional c t f).Lies k node 0 ∧
      (parallel (before ++ branch :: after)).Lies start c k ∧
      k + c.width = start + widthOf before + branch.width := by
  have hgroup := hnormal.within h.isWithin
  have hbranch := hnormal.within (Lies.isWithin (.trans (.branch .self) h) : branch.Within node)
  have hwidth := hbranch.width_pos
  have hall : (parallel (before ++ branch :: after)).width =
      widthOf before + (branch.width + widthOf after) := by
    rw [width_parallel, widthOf_append, widthOf_cons]
  by_cases hlast : widthOf after = 0
  · rw [hlast, Nat.add_zero] at hall
    rw [Nat.add_assoc, ← hall] at hchoice ⊢
    exact h.exists_condition hnormal hchoice
  · -- within the group, the last unit of a branch decides nothing
    cases hgroup with
    | parallel _ hbranches =>
      rw [h.lookup_choicesFrom hnormal (by omega) (by omega), choicesFrom,
        lookup_choicesFromAll hbranches (by omega) (by omega)] at hchoice
      have := hbranch.choicesFrom_within _ _ (Table.mem_of_lookup hchoice)
      simp only at this
      omega

end Node

/-- In the plan of a flow that was read, each branch of each group has what its own plan has, which is
the plan that the group keeps. Only at the end of a branch a choice is added where a condition ends
that has the group inside. -/
theorem repeats_of_parse {text : String} {node : Node} (h : Expression.parse text = .ok node) :
    ∃ p, node.compile? = some p ∧ ∀ before branch after start,
      (Node.parallel (before ++ branch :: after)).Lies start node 0 →
        (∃ q group, p.Contains q ∧ group ∈ q.groups.values ∧
          List.Forall₂ Branch.Runs group.branches (before ++ branch :: after)) ∧
        ∃ own, branch.compile? = some own ∧ own.length = branch.width ∧
          p.Repeats own start (start + Node.widthOf before) ∧
          ((p.choiceAt? (start + Node.widthOf before + own.length - 1)).isSome ↔
            ∃ c t f k, (Node.conditional c t f).Lies k node 0 ∧
              (Node.parallel (before ++ branch :: after)).Lies start c k ∧
              k + c.width = start + Node.widthOf before + own.length) := by
  have hnormal := Expression.isNormal_of_parse h
  obtain ⟨l, -, hp, -⟩ := hnormal.exists_compile
  refine ⟨l.plan, hp, ?_⟩
  intro before branch after start hlies
  have hin : branch.Lies (start + Node.widthOf before) node 0 := .trans (.branch .self) hlies
  have hbranch := hnormal.within hin.isWithin
  obtain ⟨own, -, hown, -⟩ := hbranch.exists_compile
  have hlength : own.plan.length = branch.width := by
    rw [Plan.length, hbranch.sequence_of_compile hown, Node.width]
  refine ⟨hnormal.exists_group hp hlies.isWithin, own.plan, hown, hlength,
    hlies.repeats hnormal hp hown, ?_⟩
  rw [hnormal.choiceAt?_of_compile hp, hlength]
  constructor
  · intro hsome
    obtain ⟨choice, hchoice⟩ := Option.isSome_iff_exists.mp hsome
    exact hlies.exists_condition_behind_branch hnormal hchoice
  · rintro ⟨c, t, f, k, hcondition, -, hends⟩
    obtain ⟨choice, hchoice⟩ := hcondition.exists_choice hnormal
    rw [← hends, hchoice]
    rfl

/-- A branch with a group of its own, anchored on a unit of the branch, in a group behind a unit. -/
theorem repeats_of_parse_nested :
    ∃ p own, Node.compile? (.sequence [.unit "a", .parallel [.unit "b",
        .sequence [.conditional (.unit "c") (.unit "d") (.unit "e"), .unit "f",
          .parallel [.unit "g", .unit "h"]]]]) = some p ∧
      Node.compile? (.sequence [.conditional (.unit "c") (.unit "d") (.unit "e"), .unit "f",
        .parallel [.unit "g", .unit "h"]]) = some own ∧ p.Repeats own 1 2 := by
  have hparse : Expression.parse "a -> (b, (c ? d : e) -> f -> (g, h))" =
      .ok (.sequence [.unit "a", .parallel [.unit "b",
        .sequence [.conditional (.unit "c") (.unit "d") (.unit "e"), .unit "f",
          .parallel [.unit "g", .unit "h"]]]]) := by
    decide +kernel
  have hlies : (Node.parallel ([.unit "b"] ++ .sequence [.conditional (.unit "c") (.unit "d")
      (.unit "e"), .unit "f", .parallel [.unit "g", .unit "h"]] :: [])).Lies 1
      (.sequence ([.unit "a"] ++ _ :: [])) 0 := .step .self
  obtain ⟨p, hp, hbranches⟩ := repeats_of_parse hparse
  obtain ⟨-, own, hown, -, hrepeats, -⟩ := hbranches _ _ _ _ hlies
  exact ⟨p, own, hp, hown, hrepeats⟩

/-- The last unit of a branch chooses for a condition that is the group, and alone it chooses
nothing. -/
theorem choiceAt?_behind_branch :
    ∃ node p own, Expression.parse "(a, b) ? x : y" = .ok node ∧ node.compile? = some p ∧
      (Node.parallel [.unit "a", .unit "b"]).Lies 0 node 0 ∧
      (Node.unit "b").compile? = some own ∧
      ¬ ∀ i, i < own.length → p.choiceAt? (1 + i) = (own.choiceAt? i).map (·.shift 1) := by
  refine ⟨.conditional (.parallel [.unit "a", .unit "b"]) (.unit "x") (.unit "y"), _, _,
    by decide +kernel, rfl, .condition .self, rfl, ?_⟩
  intro hsame
  have hrouter := hsame 0 (by decide)
  revert hrouter
  decide

end Workflow
