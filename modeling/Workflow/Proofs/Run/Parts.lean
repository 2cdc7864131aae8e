import Workflow.Proofs.Run.Ahead
import Workflow.Proofs.Run.Segments

/-!
# Where the parts of a node stand

`Node.Stands m i arms node start behind` says that the part `m` of a node stands at position `i` when
the node itself stands at `start`, and that between `arms` is decided where the part ends. Only the
parts that one walk comes to count: not those in the branches of a group, which are walked in plans
of their own.

Two parts are nested or apart (`Stands.nested_or_apart`), from which follows where an arm of one
conditional can be, seen from a unit, a group (`Node.IsWork.arm_cases`) or another conditional
(`Decides.arm_cases`). Behind every part there is the next unit or group, or the end of the node
(`Stands.next`).
-/

namespace Workflow

namespace Node

/-! ## Parts of a node -/

/-- What is decided behind a step that these steps follow. -/
def armsBehind : List Node → Arms → Arms
  | [], arms => arms
  | _ :: _, _ => none

/-- A part of a node stands at a position, and between these arms is decided at its end. -/
inductive Stands (m : Node) (i : Nat) (arms : Arms) : Node → Nat → Arms → Prop where
  | self : Stands m i arms m i arms
  | step {steps before after : List Node} {step : Node} {start : Nat} {behind : Arms}
      (hsteps : steps = before ++ step :: after)
      (h : Stands m i arms step (start + widthOf before) (armsBehind after behind)) :
      Stands m i arms (.sequence steps) start behind
  | condition {c t f : Node} {start : Nat} {behind : Arms}
      (h : Stands m i arms c start (some (t, f))) :
      Stands m i arms (.conditional c t f) start behind
  | whenTrue {c t f : Node} {start : Nat} {behind : Arms}
      (h : Stands m i arms t (start + c.width) none) :
      Stands m i arms (.conditional c t f) start behind
  | whenFalse {c t f : Node} {start : Nat} {behind : Arms}
      (h : Stands m i arms f (start + c.width + t.width) behind) :
      Stands m i arms (.conditional c t f) start behind

theorem widthOf_append (nodes more : List Node) :
    widthOf (nodes ++ more) = widthOf nodes + widthOf more := by
  induction nodes with
  | nil => simp
  | cons node rest ih =>
    rw [List.cons_append, widthOf_cons, widthOf_cons, ih]
    omega

section

variable {m m' b : Node} {i i' s : Nat} {arms arms' behind : Arms}

theorem Stands.within (h : Stands m i arms b s behind) : s ≤ i ∧ i + m.width ≤ s + b.width := by
  induction h with
  | self => omega
  | step hsteps _ ih =>
    rw [width_sequence, hsteps, widthOf_append, widthOf_cons]
    omega
  | condition _ ih | whenTrue _ ih | whenFalse _ ih =>
    rw [width_conditional]
    omega

theorem Stands.trans (h : Stands m i arms m' i' arms') (h' : Stands m' i' arms' b s behind) :
    Stands m i arms b s behind := by
  induction h' with
  | self => exact h
  | step hsteps _ ih => exact .step hsteps ih
  | condition _ ih => exact .condition ih
  | whenTrue _ ih => exact .whenTrue ih
  | whenFalse _ ih => exact .whenFalse ih

/-- One of two parts is in the other, or they are apart. -/
theorem Stands.nested_or_apart (h : Stands m i arms b s behind)
    (h' : Stands m' i' arms' b s behind) :
    Stands m i arms m' i' arms' ∨ Stands m' i' arms' m i arms ∨ i + m.width ≤ i' ∨
      i' + m'.width ≤ i := by
  induction h with
  | self => exact .inr (.inl h')
  | @step steps before after step start behind hsteps h ih =>
    cases h' with
    | self => exact .inl (.step hsteps h)
    | @step _ before' after' step' _ _ hsteps' h' =>
      have hin := h.within
      have hin' := h'.within
      -- both are in the same step of the sequence, or one stands in an earlier step
      rcases split_cases (hsteps.symm.trans hsteps') with ⟨rfl, rfl, rfl⟩ | ⟨mid, rfl⟩ | ⟨mid, rfl⟩
      · exact ih h'
      · rw [widthOf_append, widthOf_cons] at hin'
        omega
      · rw [widthOf_append, widthOf_cons] at hin
        omega
  | condition h ih =>
    have hin := h.within
    cases h' with
    | self => exact .inl (.condition h)
    | condition h' => exact ih h'
    | whenTrue h' | whenFalse h' =>
      have hin' := h'.within
      omega
  | whenTrue h ih =>
    have hin := h.within
    cases h' with
    | self => exact .inl (.whenTrue h)
    | whenTrue h' => exact ih h'
    | condition h' | whenFalse h' =>
      have hin' := h'.within
      omega
  | whenFalse h ih =>
    have hin := h.within
    cases h' with
    | self => exact .inl (.whenFalse h)
    | whenFalse h' => exact ih h'
    | condition h' | whenTrue h' =>
      have hin' := h'.within
      omega

theorem Stands.normal (h : Stands m i arms b s behind) (hb : b.IsNormal) : m.IsNormal := by
  induction h with
  | self => exact hb
  | step hsteps _ ih =>
    cases hb with
    | sequence _ _ hall => exact ih (hall _ (by simp [hsteps]))
  | condition _ ih =>
    cases hb with
    | conditional hc _ _ => exact ih hc
  | whenTrue _ ih =>
    cases hb with
    | conditional _ ht _ => exact ih ht
  | whenFalse _ ih =>
    cases hb with
    | conditional _ _ hf => exact ih hf

/-- What is decided at the end of a part is decided there because the part ends a condition, or
because it ends the whole node. -/
theorem Stands.conditional_of_arms {t f : Node} (h : Stands m i (some (t, f)) b s behind) :
    (∃ c j arms, Stands (.conditional c t f) j arms b s behind ∧ j + c.width = i + m.width) ∨
      (behind = some (t, f) ∧ i + m.width = s + b.width) := by
  induction h with
  | self => exact .inr ⟨rfl, rfl⟩
  | @step steps before after step start behind hsteps _ ih =>
    rcases ih with ⟨c, j, arms, hstands, hend⟩ | ⟨hbehind, hend⟩
    · exact .inl ⟨c, j, arms, .step hsteps hstands, hend⟩
    · cases after with
      | nil =>
        refine .inr ⟨hbehind, ?_⟩
        rw [width_sequence, hsteps, widthOf_append, widthOf_cons, widthOf_nil]
        omega
      | cons => cases hbehind
  | @condition c t' f' start _ _ ih =>
    rcases ih with ⟨c, j, arms, hstands, hend⟩ | ⟨hbehind, hend⟩
    · exact .inl ⟨c, j, arms, .condition hstands, hend⟩
    · cases hbehind
      exact .inl ⟨c, start, _, .self, hend.symm⟩
  | whenTrue _ ih =>
    rcases ih with ⟨c, j, arms, hstands, hend⟩ | ⟨hbehind, -⟩
    · exact .inl ⟨c, j, arms, .whenTrue hstands, hend⟩
    · cases hbehind
  | whenFalse _ ih =>
    rcases ih with ⟨c, j, arms, hstands, hend⟩ | ⟨hbehind, hend⟩
    · exact .inl ⟨c, j, arms, .whenFalse hstands, hend⟩
    · refine .inr ⟨hbehind, ?_⟩
      rw [width_conditional]
      omega

/-! ## What comes next -/

/-- Every node begins with a unit or a group. -/
theorem IsNormal.exists_first (h : m.IsNormal) :
    ∀ i arms, ∃ work behind, work.IsWork ∧ Stands work i behind m i arms := by
  induction h with
  | @unit name _ => exact fun i arms => ⟨.unit name, arms, trivial, .self⟩
  | @parallel branches _ _ _ => exact fun i arms => ⟨.parallel branches, arms, trivial, .self⟩
  | @sequence steps htwo _ _ ih =>
    intro i arms
    obtain ⟨step, rest, rfl⟩ := List.exists_cons_of_length_pos (Nat.lt_of_lt_of_le Nat.zero_lt_two htwo)
    obtain ⟨work, behind, hwork, hstands⟩ := ih step (by simp) i (armsBehind rest arms)
    exact ⟨work, behind, hwork, .step (show step :: rest = [] ++ step :: rest from rfl) hstands⟩
  | @conditional c t f _ _ _ ih _ _ =>
    intro i arms
    obtain ⟨work, behind, hwork, hstands⟩ := ih i (some (t, f))
    exact ⟨work, behind, hwork, .condition hstands⟩

/-- Behind a part, there is the next unit or group, or the end of the node. -/
theorem Stands.next (h : Stands m i arms b s behind) (hb : b.IsNormal) :
    i + m.width = s + b.width ∨
      ∃ work behind', work.IsWork ∧ Stands work (i + m.width) behind' b s behind := by
  induction h with
  | self => exact .inl rfl
  | @step steps before after step start behind hsteps _ ih =>
    cases hb with
    | sequence _ _ hall =>
      rcases ih (hall _ (by simp [hsteps])) with hend | ⟨work, behind', hwork, hstands⟩
      · cases after with
        | nil =>
          refine .inl ?_
          rw [hend, width_sequence, hsteps, widthOf_append, widthOf_cons, widthOf_nil]
          omega
        -- the next step begins where the part ends
        | cons next rest =>
          have hnormal := hall next (by simp [hsteps])
          obtain ⟨work, behind', hwork, hstands⟩ :=
            hnormal.exists_first (i + m.width) (armsBehind rest behind)
          have hposition : start + widthOf (before ++ [step]) = i + m.width := by
            rw [hend, widthOf_append, widthOf_cons, widthOf_nil]
            omega
          have hnext : steps = (before ++ [step]) ++ next :: rest := by simp [hsteps]
          refine .inr ⟨work, behind', hwork, .step hnext ?_⟩
          rwa [hposition]
      · exact .inr ⟨work, behind', hwork, .step hsteps hstands⟩
  | @condition c t f start behind _ ih =>
    cases hb with
    | conditional hc ht _ =>
      rcases ih hc with hend | ⟨work, behind', hwork, hstands⟩
      · obtain ⟨work, behind', hwork, hstands⟩ := ht.exists_first (start + c.width) none
        rw [hend]
        exact .inr ⟨work, behind', hwork, .whenTrue hstands⟩
      · exact .inr ⟨work, behind', hwork, .condition hstands⟩
  | @whenTrue c t f start behind _ ih =>
    cases hb with
    | conditional _ ht hf =>
      rcases ih ht with hend | ⟨work, behind', hwork, hstands⟩
      · obtain ⟨work, behind', hwork, hstands⟩ :=
          hf.exists_first (start + c.width + t.width) behind
        rw [hend]
        exact .inr ⟨work, behind', hwork, .whenFalse hstands⟩
      · exact .inr ⟨work, behind', hwork, .whenTrue hstands⟩
  | whenFalse _ ih =>
    cases hb with
    | conditional _ _ hf =>
      rcases ih hf with hend | ⟨work, behind', hwork, hstands⟩
      · refine .inl ?_
        rw [width_conditional]
        omega
      · exact .inr ⟨work, behind', hwork, .whenFalse hstands⟩

/-! ## Where arms are -/

variable {c t f c' t' f' : Node} {j : Nat} {span : Span}

/-- The positions of an arm of a conditional that stands at a position. -/
def IsArm (c t f : Node) (i : Nat) (span : Span) : Prop :=
  span = ⟨i + c.width, i + c.width + t.width⟩ ∨
    span = ⟨i + c.width + t.width, i + c.width + t.width + f.width⟩

/-- A part has a conditional in it, or it is in an arm of it, or apart from the arm. -/
theorem Stands.arm_cases (h : Stands m i arms b s behind)
    (hcond : Stands (.conditional c t f) j arms' b s behind) (hspan : IsArm c t f j span) :
    Stands (.conditional c t f) j arms' m i arms ∨
      (span.start ≤ i ∧ i + m.width ≤ span.stop) ∨ i + m.width ≤ span.start ∨ span.stop ≤ i := by
  rcases h.nested_or_apart hcond with hin | hin | hapart
  · -- the part is in the conditional: it is all of it, or in the condition, or in an arm
    cases hin with
    | self => exact .inl .self
    | condition hin | whenTrue hin | whenFalse hin =>
      have := hin.within
      rcases hspan with rfl | rfl <;> simp only <;> omega
  · exact .inl hin
  · rw [width_conditional] at hapart
    rcases hspan with rfl | rfl <;> simp only <;> omega

/-- A unit or a group is in an arm, or apart from it. -/
theorem IsWork.arm_cases (hwork : m.IsWork) (h : Stands m i arms b s behind)
    (hcond : Stands (.conditional c t f) j arms' b s behind) (hspan : IsArm c t f j span) :
    (span.start ≤ i ∧ i + m.width ≤ span.stop) ∨ i + m.width ≤ span.start ∨ span.stop ≤ i := by
  rcases h.arm_cases hcond hspan with hin | hcases
  · cases hin <;> exact hwork.elim
  · exact hcases

/-- A unit or a group that the end of a condition is in ends there. -/
theorem IsWork.end_eq (hwork : m.IsWork) (h : Stands m i arms b s behind)
    (hcond : Stands (.conditional c t f) j arms' b s behind) (hstart : i < j + c.width)
    (hstop : j + c.width ≤ i + m.width) : i + m.width = j + c.width := by
  rcases h.nested_or_apart hcond with hin | hin | hapart
  · cases hin with
    | self => exact hwork.elim
    | condition hin | whenTrue hin | whenFalse hin =>
      have := hin.within
      omega
  · cases hin <;> exact hwork.elim
  · rw [width_conditional] at hapart
    omega

/-- Two units or groups of a node are the same, or apart. -/
theorem IsWork.eq_or_apart {work work' : Node} (hwork : work.IsWork) (hwork' : work'.IsWork)
    (h : Stands work i arms b s behind) (h' : Stands work' j arms' b s behind) :
    work = work' ∨ i + work.width ≤ j ∨ j + work'.width ≤ i := by
  rcases h.nested_or_apart h' with hin | hin | hapart
  · cases hin with
    | self => exact .inl rfl
    | step | condition | whenTrue | whenFalse => exact hwork'.elim
  · cases hin with
    | self => exact .inl rfl
    | step | condition | whenTrue | whenFalse => exact hwork.elim
  · exact .inr hapart

/-- Where an arm of a conditional is, seen from another conditional: it is an arm of the same one, or
it is in the condition, or in an arm but not at its beginning, or around everything, or apart. -/
theorem Stands.conditional_cases (hb : b.IsNormal)
    (h : Stands (.conditional c t f) i arms b s behind)
    (h' : Stands (.conditional c' t' f') j arms' b s behind) (hspan : IsArm c' t' f' j span) :
    (c = c' ∧ t = t' ∧ f = f' ∧ i = j) ∨
      (i < span.start ∧ span.stop ≤ i + c.width) ∨
      (i + c.width < span.start ∧ span.stop ≤ i + c.width + t.width) ∨
      i + c.width + t.width < span.start ∨
      (span.start ≤ i ∧ i + c.width + t.width + f.width ≤ span.stop) ∨
      i + c.width + t.width + f.width ≤ span.start ∨ span.stop ≤ i := by
  have hwidth : 0 < c'.width := by
    cases h'.normal hb with
    | conditional hc _ _ => exact hc.width_pos
  rcases h.arm_cases h' hspan with hin | hcases
  · cases hin with
    | self => exact .inl ⟨rfl, rfl, rfl, rfl⟩
    | condition hin =>
      have hwithin := hin.within
      rw [width_conditional] at hwithin
      refine .inr (.inl ?_)
      rcases hspan with rfl | rfl <;> simp only <;> omega
    | whenTrue hin | whenFalse hin =>
      have hwithin := hin.within
      rw [width_conditional] at hwithin
      rcases hspan with rfl | rfl <;> simp only <;> omega
  · rw [width_conditional] at hcases
    omega

end

/-! ## Parts at any depth -/

/-- A part of a node, perhaps in a branch of a group. -/
inductive Within (m : Node) : Node → Prop where
  | self : Within m m
  | step {steps : List Node} {step : Node} (hmem : step ∈ steps) (h : Within m step) :
    Within m (.sequence steps)
  | condition {c t f : Node} (h : Within m c) : Within m (.conditional c t f)
  | whenTrue {c t f : Node} (h : Within m t) : Within m (.conditional c t f)
  | whenFalse {c t f : Node} (h : Within m f) : Within m (.conditional c t f)
  | branch {branches : List Node} {branch : Node} (hmem : branch ∈ branches)
      (h : Within m branch) : Within m (.parallel branches)

theorem IsNormal.within {m node : Node} (h : node.IsNormal) (hwithin : m.Within node) : m.IsNormal := by
  induction hwithin with
  | self => exact h
  | step hmem _ ih =>
    cases h with
    | sequence _ _ hsteps => exact ih (hsteps _ hmem)
  | condition _ ih =>
    cases h with
    | conditional hc ht hf => exact ih hc
  | whenTrue _ ih =>
    cases h with
    | conditional hc ht hf => exact ih ht
  | whenFalse _ ih =>
    cases h with
    | conditional hc ht hf => exact ih hf
  | branch hmem _ ih =>
    cases h with
    | parallel _ hbranches => exact ih (hbranches _ hmem)

theorem mem_leavesOf {b : Node} {nodes : List Node} {u : String} (hb : b ∈ nodes) (hu : u ∈ b.leaves) :
    u ∈ leavesOf nodes := by
  rw [leavesOf_eq_flatMap]
  exact List.mem_flatMap.mpr ⟨b, hb, hu⟩

theorem mem_leaves_conditional {c t f : Node} {u : String} :
    u ∈ (conditional c t f).leaves ↔ u ∈ c.leaves ∨ u ∈ t.leaves ∨ u ∈ f.leaves := by
  simp [leaves]

/-- The units of a part are among those of the node. -/
theorem Within.leaves_subset {m node : Node} (h : m.Within node) : m.leaves ⊆ node.leaves := by
  induction h with
  | self => exact List.Subset.refl _
  | step hmem _ ih | branch hmem _ ih => exact fun u hu => mem_leavesOf hmem (ih hu)
  | condition _ ih => exact fun u hu => mem_leaves_conditional.mpr (.inl (ih hu))
  | whenTrue _ ih => exact fun u hu => mem_leaves_conditional.mpr (.inr (.inl (ih hu)))
  | whenFalse _ ih => exact fun u hu => mem_leaves_conditional.mpr (.inr (.inr (ih hu)))

theorem Within.trans {m b node : Node} (h : m.Within b) (h' : b.Within node) : m.Within node := by
  induction h' with
  | self => exact h
  | step hmem _ ih => exact .step hmem ih
  | condition _ ih => exact .condition ih
  | whenTrue _ ih => exact .whenTrue ih
  | whenFalse _ ih => exact .whenFalse ih
  | branch hmem _ ih => exact .branch hmem ih

theorem Stands.isWithin {m b : Node} {i s : Nat} {arms behind : Arms} (h : Stands m i arms b s behind) : m.Within b := by
  induction h with
  | self => exact .self
  | step hsteps _ ih => exact .step (by simp [hsteps]) ih
  | condition _ ih => exact .condition ih
  | whenTrue _ ih => exact .whenTrue ih
  | whenFalse _ ih => exact .whenFalse ih

/-- What is in a node stands there, or in a branch of a group that stands there. -/
theorem Within.stands {m b : Node} (h : m.Within b) : ∀ s behind,
    (∃ i arms, Stands m i arms b s behind) ∨
      ∃ branches i arms branch, Stands (.parallel branches) i arms b s behind ∧
        branch ∈ branches ∧ m.Within branch := by
  induction h with
  | self => exact fun s behind => .inl ⟨s, behind, .self⟩
  | @step steps step hmem _ ih =>
    intro s behind
    obtain ⟨before, after, hsteps⟩ := List.append_of_mem hmem
    rcases ih (s + widthOf before) (armsBehind after behind) with
      ⟨i, arms, h⟩ | ⟨branches, i, arms, branch, h, hbranch⟩
    · exact .inl ⟨i, arms, .step hsteps h⟩
    · exact .inr ⟨branches, i, arms, branch, .step hsteps h, hbranch⟩
  | @condition c t f _ ih =>
    intro s behind
    rcases ih s (some (t, f)) with ⟨i, arms, h⟩ | ⟨branches, i, arms, branch, h, hbranch⟩
    · exact .inl ⟨i, arms, .condition h⟩
    · exact .inr ⟨branches, i, arms, branch, .condition h, hbranch⟩
  | @whenTrue c t f _ ih =>
    intro s behind
    rcases ih (s + c.width) none with ⟨i, arms, h⟩ | ⟨branches, i, arms, branch, h, hbranch⟩
    · exact .inl ⟨i, arms, .whenTrue h⟩
    · exact .inr ⟨branches, i, arms, branch, .whenTrue h, hbranch⟩
  | @whenFalse c t f _ ih =>
    intro s behind
    rcases ih (s + c.width + t.width) behind with
      ⟨i, arms, h⟩ | ⟨branches, i, arms, branch, h, hbranch⟩
    · exact .inl ⟨i, arms, .whenFalse h⟩
    · exact .inr ⟨branches, i, arms, branch, .whenFalse h, hbranch⟩
  | @branch branches branch hmem h =>
    exact fun s behind => .inr ⟨branches, s, behind, branch, .self, hmem, h⟩

/-- A node with one unit is the unit. -/
theorem IsNormal.eq_unit {node : Node} {u : String} (h : node.IsNormal)
    (hleaves : node.leaves = [u]) : node = .unit u := by
  have hwidth : node.width = 1 := by rw [width, hleaves, List.length_singleton]
  have htwo : ∀ nodes : List Node, 2 ≤ nodes.length → (∀ m ∈ nodes, m.IsNormal) →
      2 ≤ widthOf nodes := by
    intro nodes htwo hall
    obtain ⟨first, second, rest, rfl⟩ : ∃ first second rest, nodes = first :: second :: rest := by
      rcases nodes with _ | ⟨first, _ | ⟨second, rest⟩⟩
      · exact absurd htwo (by simp)
      · exact absurd htwo (by simp)
      · exact ⟨first, second, rest, rfl⟩
    have hfirst := (hall first (by simp)).width_pos
    have hsecond := (hall second (by simp)).width_pos
    rw [widthOf_cons, widthOf_cons]
    omega
  cases h with
  | unit => rw [leaves] at hleaves; simpa using hleaves
  | sequence hlength _ hall =>
    have := htwo _ hlength hall
    rw [width_sequence] at hwidth
    omega
  | parallel hlength hall =>
    have := htwo _ hlength hall
    rw [width_parallel] at hwidth
    omega
  | conditional hc ht hf =>
    have hcwidth := hc.width_pos
    have htwidth := ht.width_pos
    rw [width_conditional] at hwidth
    omega

end Node

/-! ## Parts in a plan -/

namespace Plan

variable {p : Plan} {m b : Node} {i s : Nat} {arms behind : Node.Arms}

theorem LaysAll.step {before after : List Node} {step : Node}
    (h : p.LaysAll (before ++ step :: after) s behind) :
    p.Lays step (s + Node.widthOf before) (Node.armsBehind after behind) := by
  induction before generalizing s with
  | nil =>
    cases after with
    | nil => exact h.single
    | cons => exact h.parts.1
  | cons first rest ih =>
    rw [Node.widthOf_cons, ← Nat.add_assoc]
    cases rest with
    | nil => exact ih h.parts.2
    | cons => exact ih h.parts.2

/-- The parts of a node that is laid out are laid out. -/
theorem Lays.part (h : p.Lays b s behind) (hm : Node.Stands m i arms b s behind) :
    p.Lays m i arms := by
  induction hm with
  | self => exact h
  | step hsteps _ ih =>
    refine ih (LaysAll.step ?_)
    rw [← hsteps]
    exact h.steps
  | condition _ ih => exact ih h.parts.1
  | whenTrue _ ih => exact ih h.parts.2.1
  | whenFalse _ ih => exact ih h.parts.2.2

end Plan

end Workflow
