import Workflow.Proofs.Run.Segments
import Workflow.Walk

/-!
# What lies ahead of a walk

`Plan.Ahead p skipped position todo` says that a walk through `p` that skips `skipped` and has come
to `position` has the steps `todo` before it. Each step is a unit or a group, where it stands in the
plan, together with the arms that it decides between; between the steps there may be arms that were
not chosen, which are skipped.

* `ahead_of_segment` puts a node in front of what lies ahead behind it.
* `ahead_of_choice` is what happens at the end of a condition: the chosen arm is put in front, and
  the other one is skipped.
-/

namespace Workflow

/-! ## Skipped positions -/

def skipEndIn (skipped : List Span) (position : Nat) : Option Nat :=
  (skipped.find? fun span => span.contains position).map Span.stop

theorem Walk.skipEnd?_eq (w : Walk) (position : Nat) :
    w.skipEnd? position = skipEndIn w.skipped position := rfl

/-- Skipping one more span changes nothing elsewhere. -/
theorem skipEndIn_append_of_not {skipped : List Span} {span : Span} {position : Nat}
    (h : position < span.start ∨ span.stop ≤ position) :
    skipEndIn (skipped ++ [span]) position = skipEndIn skipped position := by
  have hnot : span.contains position = false := by
    rw [Bool.eq_false_iff]
    intro hcontains
    have := Span.contains_iff.mp hcontains
    omega
  rw [skipEndIn, skipEndIn, List.find?_append, List.find?_singleton, hnot]
  simp

/-- In a span that is newly skipped, the walk goes to its end. -/
theorem skipEndIn_append_of_mem {skipped : List Span} {span : Span} {position : Nat}
    (hnone : skipEndIn skipped position = none) (hge : span.start ≤ position)
    (hlt : position < span.stop) : skipEndIn (skipped ++ [span]) position = some span.stop := by
  have hcontains : span.contains position = true := Span.contains_iff.mpr ⟨hge, hlt⟩
  rw [skipEndIn, Option.map_eq_none_iff] at hnone
  rw [skipEndIn, List.find?_append, hnone, List.find?_singleton, if_pos hcontains]
  rfl

def Node.IsWork : Node → Prop
  | .unit _ | .parallel _ => True
  | .sequence _ | .conditional .. => False

namespace Plan

/-! ## Steps ahead -/

/-- The arms behind a unit or a group: they begin at `start`, end at `stop`, and are not skipped. -/
def ArmsAhead (p : Plan) (skipped : List Span) (start stop : Nat) : Node.Arms → Prop
  | none => stop = start
  | some (whenTrue, whenFalse) =>
    stop = start + whenTrue.width + whenFalse.width ∧
      whenTrue.Closable none ∧ whenFalse.Closable none ∧
      p.Reads start whenTrue.leaves ∧ p.Reads (start + whenTrue.width) whenFalse.leaves ∧
      p.Segment whenTrue start none ∧ p.Segment whenFalse (start + whenTrue.width) none ∧
      ∀ i, start ≤ i → i < stop → skipEndIn skipped i = none

/-- A unit or a group stands at `start`, and it ends, with its arms, at `stop`. -/
structure WorkAt (p : Plan) (skipped : List Span) (work : Node) (arms : Node.Arms)
    (start stop : Nat) : Prop where
  isWork : work.IsWork
  closable : work.Closable arms
  reads : p.Reads start work.leaves
  segment : p.Segment work start arms
  reached : skipEndIn skipped start = none
  arms : p.ArmsAhead skipped (start + work.width) stop arms

/-- The steps that lie ahead of a position. -/
inductive Ahead (p : Plan) (skipped : List Span) : Nat → List Node → Prop where
  | done : Ahead p skipped p.length []
  | skip {start stop : Nat} {todo : List Node} (hskip : skipEndIn skipped start = some stop)
      (hlt : start < stop) (hin : start < p.length) (hstart : p.Clear start) (hstop : p.Clear stop)
      (h : Ahead p skipped stop todo) : Ahead p skipped start todo
  | work {work : Node} {arms : Node.Arms} {start stop : Nat} {todo : List Node}
      (hwork : p.WorkAt skipped work arms start stop) (h : Ahead p skipped stop todo) :
      Ahead p skipped start (work.close arms :: todo)

variable {p : Plan} {skipped : List Span} {start stop : Nat} {todo : List Node}

theorem ArmsAhead.le {arms : Node.Arms} (h : p.ArmsAhead skipped start stop arms) :
    start ≤ stop := by
  rcases arms with _ | ⟨t, f⟩
  · exact Nat.le_of_eq h.symm
  · have := h.1
    omega

/-- Skipping a span that ends before changes nothing ahead. -/
theorem Ahead.skipped_append {span : Span} (h : p.Ahead skipped start todo)
    (hspan : span.stop ≤ start) : p.Ahead (skipped ++ [span]) start todo := by
  induction h with
  | done => exact .done
  | skip hskip hlt hin hstart hstop _ ih =>
    refine .skip ?_ hlt hin hstart hstop (ih (by omega))
    rw [skipEndIn_append_of_not (.inr hspan), hskip]
  | @work work arms start stop todo hwork _ ih =>
    -- neither the start of the step nor its arms lie in the span
    have hwidth := hwork.closable.normal.width_pos
    have hle := hwork.arms.le
    refine .work ⟨hwork.isWork, hwork.closable, hwork.reads, hwork.segment, ?_, ?_⟩ (ih (by omega))
    · rw [skipEndIn_append_of_not (.inr hspan), hwork.reached]
    · rcases arms with _ | ⟨t, f⟩
      · exact hwork.arms
      · obtain ⟨hstop, ht, hf, hreadsT, hreadsF, hsegT, hsegF, hopen⟩ := hwork.arms
        refine ⟨hstop, ht, hf, hreadsT, hreadsF, hsegT, hsegF, ?_⟩
        intro i hge hlt
        rw [skipEndIn_append_of_not (.inr (by omega)), hopen i hge hlt]

/-! ## Nodes in front -/

/-- Where a node can be put in front of what lies ahead. -/
def Fronts (p : Plan) (skipped : List Span) (node : Node) : Prop :=
  ∀ start arms stop todo, node.Closable arms → p.Reads start node.leaves →
    p.Segment node start arms →
    (∀ i, start ≤ i → i < start + node.width → skipEndIn skipped i = none) →
    p.ArmsAhead skipped (start + node.width) stop arms → p.Ahead skipped stop todo →
    p.Ahead skipped start (node.todo arms ++ todo)

theorem ahead_of_segmentAll {nodes : List Node} (hne : nodes ≠ [])
    (h : ∀ node ∈ nodes, p.Fronts skipped node) :
    ∀ start arms stop todo, Node.AllClosable nodes arms → p.Reads start (Node.leavesOf nodes) →
      p.SegmentAll nodes start arms →
      (∀ i, start ≤ i → i < start + Node.widthOf nodes → skipEndIn skipped i = none) →
      p.ArmsAhead skipped (start + Node.widthOf nodes) stop arms → p.Ahead skipped stop todo →
      p.Ahead skipped start (Node.todoAll nodes arms ++ todo) := by
  induction nodes with
  | nil => exact absurd rfl hne
  | cons node rest ih =>
    intro start arms stop todo hclosable hreads hsegment hopen harms hahead
    rw [Node.leavesOf] at hreads
    rw [Node.widthOf_cons] at hopen harms
    obtain ⟨hreadsNode, hreadsRest⟩ := hreads.append
    cases rest with
    | nil =>
      exact h node (by simp) start arms stop todo hclosable.single hreadsNode hsegment hopen harms
        hahead
    | cons next rest =>
      -- from behind: first the later nodes are put in front, and then this one
      have hlater : p.Ahead skipped (start + node.width)
          (Node.todoAll (next :: rest) arms ++ todo) := by
        refine ih (by simp) (fun n hn => h n (by simp [hn])) _ arms stop todo hclosable.tail
          hreadsRest hsegment.2 ?_ ?_ hahead
        · exact fun i hge hlt => hopen i (by omega) (by omega)
        · rwa [Nat.add_assoc]
      rw [Node.todoAll, List.append_assoc]
      exact h node (by simp) start none _ _ hclosable.head hreadsNode hsegment.1
        (fun i hge hlt => hopen i hge (by omega)) rfl hlater

/-- A node that the plan holds can be put in front of what lies ahead behind it. -/
theorem ahead_of_segment {node : Node} (h : node.IsNormal) : p.Fronts skipped node := by
  induction h with
  | @unit name _ =>
    intro start arms stop todo hclosable hreads hsegment hopen harms hahead
    have hreached := hopen start (Nat.le_refl _) (by simp)
    exact .work ⟨trivial, hclosable, hreads, hsegment, hreached, harms⟩ hahead
  | @parallel branches htwo hbranches _ =>
    intro start arms stop todo hclosable hreads hsegment hopen harms hahead
    have hwidth := (Node.IsNormal.parallel htwo hbranches).width_pos
    have hreached := hopen start (Nat.le_refl _) (by omega)
    exact .work ⟨trivial, hclosable, hreads, hsegment, hreached, harms⟩ hahead
  | @sequence steps htwo _ _ ih =>
    intro start arms stop todo hclosable
    exact ahead_of_segmentAll (List.ne_nil_of_length_pos (by omega)) ih start arms stop todo
      hclosable.steps
  | @conditional c t f _ _ _ ih _ _ =>
    intro start arms stop todo hclosable hreads hsegment hopen harms hahead
    cases hclosable.arms_eq_none
    obtain ⟨hclosableC, hclosableT, hclosableF⟩ := hclosable.parts
    rw [Node.leaves, List.append_assoc] at hreads
    obtain ⟨hreadsC, hreads⟩ := hreads.append
    obtain ⟨hreadsT, hreadsF⟩ := hreads.append
    rw [Node.width_conditional] at hopen harms
    -- only the condition is a step to do; the arms stand behind its last unit
    refine ih start (some (t, f)) stop todo hclosableC hreadsC hsegment.1 ?_ ?_ hahead
    · exact fun i hge hlt => hopen i hge (by omega)
    · obtain rfl : stop = start + (c.width + t.width + f.width) := harms
      refine ⟨by omega, hclosableT, hclosableF, hreadsT, hreadsF, hsegment.2.1, hsegment.2.2, ?_⟩
      exact fun i hge hlt => hopen i (by omega) (by omega)

/-! ## Arms -/

/-- The arm that a label selects. -/
def armFor (label : Option Label) (whenTrue whenFalse : Node) : Node :=
  if label = some true then whenTrue else whenFalse

/-- The span of the arm that a label leaves out, when the arms begin at a position. -/
def otherSpan (label : Option Label) (start : Nat) (whenTrue whenFalse : Node) : Span :=
  if label = some true then ⟨start + whenTrue.width, start + whenTrue.width + whenFalse.width⟩
  else ⟨start, start + whenTrue.width⟩

/-- At the end of a condition, the chosen arm is put in front, and the other one is skipped. -/
theorem ahead_of_choice {whenTrue whenFalse : Node} (label : Option Label)
    (harms : p.ArmsAhead skipped start stop (some (whenTrue, whenFalse)))
    (hstart : p.Clear start) (hmiddle : p.Clear (start + whenTrue.width)) (hstop : p.Clear stop)
    (hahead : p.Ahead skipped stop todo) :
    p.Ahead (skipped ++ [otherSpan label start whenTrue whenFalse]) start
      ((armFor label whenTrue whenFalse).todo none ++ todo) := by
  obtain ⟨rfl, ht, hf, hreadsT, hreadsF, hsegT, hsegF, hopen⟩ := harms
  have hwidthT := ht.normal.width_pos
  have hwidthF := hf.normal.width_pos
  have hin := hreadsF.stop_le hf.normal.leaves_ne_nil
  have hinF : start + whenTrue.width + whenFalse.width ≤ p.length := hin
  unfold armFor otherSpan
  split
  · -- the arm that comes first is walked, and behind it the other one is skipped
    have hlater := @Ahead.skipped_append _ _ _ _ ⟨start + whenTrue.width,
      start + whenTrue.width + whenFalse.width⟩ hahead (Nat.le_refl _)
    refine ahead_of_segment ht.normal start none _ todo ht hreadsT hsegT ?_ rfl
      (.skip (skipEndIn_append_of_mem (hopen _ (by omega) (by omega)) (Nat.le_refl _) (by
        simp only
        omega)) (by simp only; omega) (by omega) hmiddle hstop hlater)
    intro i hge hlt
    rw [skipEndIn_append_of_not (.inl (by simp only; omega)), hopen i hge (by omega)]
  · have hlater := @Ahead.skipped_append _ _ _ _ ⟨start, start + whenTrue.width⟩ hahead (by
      simp only
      omega)
    have hskip : skipEndIn (skipped ++ [⟨start, start + whenTrue.width⟩]) start =
        some (start + whenTrue.width) :=
      skipEndIn_append_of_mem (hopen start (Nat.le_refl _) (by omega)) (Nat.le_refl _) (by
        simp only
        omega)
    refine .skip hskip (by omega) (by omega) hstart hmiddle ?_
    refine ahead_of_segment hf.normal _ none _ todo hf hreadsF hsegF ?_ rfl hlater
    intro i hge hlt
    rw [skipEndIn_append_of_not (.inr (by simp only; omega)), hopen i (by omega) (by omega)]

end Plan

end Workflow
