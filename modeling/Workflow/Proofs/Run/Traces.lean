import Workflow.Plan
import Workflow.Proofs.Around
import Workflow.Proofs.Node.Normal

/-!
# Traces of a node

What a flow may execute, read off the node alone: `Node.Trace label node run` says that the units of
`run`, in this order, are one way through `node`, when every unit leaves the label that `label`
gives for it. Steps follow one another, a conditional goes on with the arm that the label of the
last unit of its condition selects, and the branches of a group interleave in any way.

`Node.todo` is the same flow as a list of steps none of which is a sequence, and no condition of
which is more than a unit or a group. That is the form in which a walk meets it: one entry for every
position at which the walk decides. `trace_of_todo` says that the traces are the same ones, provided
every condition *ends plainly*, in a unit that is executed whenever the condition is
(`Node.RoutesPlainly`).
-/

namespace Workflow

/-! ## Interleavings -/

/-- A list made of several lists, each of which keeps its order. -/
inductive Interleaves {α : Type} : List (List α) → List α → Prop where
  | nil {parts : List (List α)} (h : ∀ part ∈ parts, part = []) : Interleaves parts []
  | cons {before after : List (List α)} {part whole : List α} (x : α)
      (h : Interleaves (before ++ part :: after) whole) :
      Interleaves (before ++ (x :: part) :: after) (x :: whole)

/-- What comes first in a part may come first in the whole. -/
theorem Interleaves.prepend {α : Type} {before after : List (List α)} {part whole : List α}
    (first : List α) (h : Interleaves (before ++ part :: after) whole) :
    Interleaves (before ++ (first ++ part) :: after) (first ++ whole) := by
  induction first with
  | nil => exact h
  | cons x rest ih => exact .cons x ih

namespace Node

/-! ## Traces -/

/-- The label that the last unit of a node leaves. -/
def lastLabel (label : String → Option Label) (node : Node) : Option Label :=
  node.leaves.getLast?.bind label

section

variable (label : String → Option Label)

mutual

/-- The units that a node may execute, in order. -/
def Trace : Node → List String → Prop
  | .unit name, run => run = [name]
  | .sequence steps, run => ∃ runs, TraceEach steps runs ∧ run = runs.flatten
  | .conditional condition whenTrue whenFalse, run =>
    ∃ first second, condition.Trace first ∧
      (if condition.lastLabel label = some true then whenTrue.Trace second
        else whenFalse.Trace second) ∧
      run = first ++ second
  | .parallel branches, run => ∃ runs, TraceEach branches runs ∧ Interleaves runs run

/-- The units that each of several nodes may execute. -/
def TraceEach : List Node → List (List String) → Prop
  | [], runs => runs = []
  | node :: rest, runs =>
    ∃ run others, node.Trace run ∧ TraceEach rest others ∧ runs = run :: others

end

end

/-! ## Plain ends -/

mutual

/-- Whether a node ends in a unit that is executed whenever the node is. -/
def EndsPlainly : Node → Prop
  | .unit _ => True
  | .sequence steps => LastEndsPlainly steps
  | .conditional .. => False
  | .parallel branches => LastEndsPlainly branches

def LastEndsPlainly : List Node → Prop
  | [] => False
  | [node] => node.EndsPlainly
  | _ :: next :: rest => LastEndsPlainly (next :: rest)

end

mutual

/-- Whether all conditions in a node end plainly. -/
def RoutesPlainly : Node → Prop
  | .unit _ => True
  | .sequence steps => AllRoutePlainly steps
  | .conditional condition whenTrue whenFalse =>
    condition.EndsPlainly ∧ condition.RoutesPlainly ∧ whenTrue.RoutesPlainly ∧
      whenFalse.RoutesPlainly
  | .parallel branches => AllRoutePlainly branches

def AllRoutePlainly : List Node → Prop
  | [] => True
  | node :: rest => node.RoutesPlainly ∧ AllRoutePlainly rest

end

theorem allRoutePlainly_iff {nodes : List Node} :
    AllRoutePlainly nodes ↔ ∀ node ∈ nodes, node.RoutesPlainly := by
  induction nodes with
  | nil => simp [AllRoutePlainly]
  | cons node rest ih => simp [AllRoutePlainly, ih]

theorem lastEndsPlainly_append {before : List Node} {last : Node} :
    LastEndsPlainly (before ++ [last]) ↔ last.EndsPlainly := by
  induction before with
  | nil => rfl
  | cons node rest ih =>
    cases rest with
    | nil => rfl
    | cons next rest => exact ih

/-- The last unit of several nodes is that of the last node. -/
theorem getLast?_leavesOf_append {before : List Node} {last : Node} (h : last.leaves ≠ []) :
    (leavesOf (before ++ [last])).getLast? = last.leaves.getLast? := by
  rw [leavesOf_eq_flatMap, List.flatMap_append, List.flatMap_singleton,
    List.getLast?_append_of_ne_nil _ h]

/-! ## Steps to do -/

/-- The arms that a node decides between, `true` first, if it does. -/
abbrev Arms := Option (Node × Node)

/-- A unit or a group, and the arms behind it. -/
def close : Node → Arms → Node
  | node, none => node
  | node, some (whenTrue, whenFalse) => .conditional node whenTrue whenFalse

mutual

/-- A node as a list of steps; the last one of them decides between the given arms. -/
def todo : Node → Arms → List Node
  | .unit name, arms => [close (.unit name) arms]
  | .sequence steps, arms => todoAll steps arms
  | .conditional condition whenTrue whenFalse, _ => condition.todo (some (whenTrue, whenFalse))
  | .parallel branches, arms => [close (.parallel branches) arms]

def todoAll : List Node → Arms → List Node
  | [], _ => []
  | [node], arms => node.todo arms
  | node :: next :: rest, arms => node.todo none ++ todoAll (next :: rest) arms

end

/-! ## Traces of several steps -/

section

variable {label : String → Option Label} {node : Node} {nodes more : List Node} {run : List String}

theorem trace_sequence_nil : (sequence []).Trace label run ↔ run = [] := by
  simp [Trace, TraceEach]

theorem trace_sequence_cons :
    (sequence (node :: nodes)).Trace label run ↔
      ∃ first second, node.Trace label first ∧ (sequence nodes).Trace label second ∧
        run = first ++ second := by
  constructor
  · rintro ⟨_, ⟨first, others, hfirst, hothers, rfl⟩, rfl⟩
    exact ⟨first, others.flatten, hfirst, ⟨others, hothers, rfl⟩, rfl⟩
  · rintro ⟨first, _, hfirst, ⟨others, hothers, rfl⟩, rfl⟩
    exact ⟨first :: others, ⟨first, others, hfirst, hothers, rfl⟩, rfl⟩

/-- Three runs in a row, however they are taken together. -/
theorem exists_append_append {first second third : List String → Prop} :
    (∃ a b, (∃ c d, first c ∧ second d ∧ a = c ++ d) ∧ third b ∧ run = a ++ b) ↔
      ∃ a b, first a ∧ (∃ c d, second c ∧ third d ∧ b = c ++ d) ∧ run = a ++ b := by
  constructor
  · rintro ⟨_, c, ⟨a, b, ha, hb, rfl⟩, hc, rfl⟩
    exact ⟨a, b ++ c, ha, ⟨b, c, hb, hc, rfl⟩, List.append_assoc ..⟩
  · rintro ⟨a, _, ha, ⟨b, c, hb, hc, rfl⟩, rfl⟩
    exact ⟨a ++ b, c, ⟨a, b, ha, hb, rfl⟩, hc, (List.append_assoc ..).symm⟩

theorem trace_sequence_append :
    (sequence (nodes ++ more)).Trace label run ↔
      ∃ first second, (sequence nodes).Trace label first ∧ (sequence more).Trace label second ∧
        run = first ++ second := by
  induction nodes generalizing run with
  | nil => simp [trace_sequence_nil]
  | cons node rest ih =>
    simp only [List.cons_append, trace_sequence_cons, ih]
    exact exists_append_append.symm

theorem trace_sequence_singleton : (sequence [node]).Trace label run ↔ node.Trace label run := by
  simp [trace_sequence_cons, trace_sequence_nil]

/-- The arm that is walked behind a node, if it decides between arms. -/
def picked (label : String → Option Label) (node : Node) : Arms → List Node
  | none => []
  | some (whenTrue, whenFalse) =>
    [if node.lastLabel label = some true then whenTrue else whenFalse]

theorem trace_close {arms : Arms} :
    (close node arms).Trace label run ↔
      ∃ first second, node.Trace label first ∧
        (sequence (picked label node arms)).Trace label second ∧ run = first ++ second := by
  rcases arms with _ | ⟨whenTrue, whenFalse⟩
  · simp [close, picked, trace_sequence_nil]
  · simp only [close, picked, trace_sequence_singleton]
    rw [Trace]
    split <;> rfl

theorem trace_sequence_close {arms : Arms} :
    (sequence (close node arms :: nodes)).Trace label run ↔
      ∃ first second, node.Trace label first ∧
        (sequence (picked label node arms ++ nodes)).Trace label second ∧
        run = first ++ second := by
  simp only [trace_sequence_cons, trace_close, trace_sequence_append]
  exact exists_append_append

end

/-! ## The steps to do have the traces of the node -/

/-- What a node with plain routes allows behind itself: arms only where it ends plainly. -/
structure Closable (node : Node) (arms : Arms) : Prop where
  normal : node.IsNormal
  routes : node.RoutesPlainly
  ends : arms ≠ none → node.EndsPlainly

structure AllClosable (nodes : List Node) (arms : Arms) : Prop where
  normal : ∀ node ∈ nodes, node.IsNormal
  routes : ∀ node ∈ nodes, node.RoutesPlainly
  ends : arms ≠ none → LastEndsPlainly nodes

theorem AllClosable.head {node : Node} {rest : List Node} {arms : Arms}
    (h : AllClosable (node :: rest) arms) : node.Closable none :=
  ⟨h.normal node (by simp), h.routes node (by simp), fun hne => absurd rfl hne⟩

theorem AllClosable.single {node : Node} {arms : Arms} (h : AllClosable [node] arms) :
    node.Closable arms :=
  ⟨h.normal node (by simp), h.routes node (by simp), h.ends⟩

theorem AllClosable.tail {node next : Node} {rest : List Node} {arms : Arms}
    (h : AllClosable (node :: next :: rest) arms) : AllClosable (next :: rest) arms :=
  ⟨fun n hn => h.normal n (by simp [hn]), fun n hn => h.routes n (by simp [hn]), h.ends⟩

theorem Closable.steps {steps : List Node} {arms : Arms} (h : (sequence steps).Closable arms) :
    AllClosable steps arms := by
  cases h.normal with
  | sequence htwo hflat hsteps => exact ⟨hsteps, allRoutePlainly_iff.mp h.routes, h.ends⟩

theorem Closable.branches {branches : List Node} {arms : Arms}
    (h : (parallel branches).Closable arms) : AllClosable branches arms := by
  cases h.normal with
  | parallel htwo hbranches => exact ⟨hbranches, allRoutePlainly_iff.mp h.routes, h.ends⟩

/-- A conditional ends in no unit of its own, so it has no arms behind it. -/
theorem Closable.arms_eq_none {c t f : Node} {arms : Arms} (h : (conditional c t f).Closable arms) :
    arms = none := by
  rcases arms with _ | pair
  · rfl
  · exact (h.ends (by simp)).elim

theorem Closable.parts {c t f : Node} {arms : Arms} (h : (conditional c t f).Closable arms) :
    c.Closable (some (t, f)) ∧ t.Closable none ∧ f.Closable none := by
  obtain ⟨hends, hc, ht, hf⟩ := h.routes
  cases h.normal with
  | conditional hnormalC hnormalT hnormalF =>
    exact ⟨⟨hnormalC, hc, fun _ => hends⟩, ⟨hnormalT, ht, fun hne => absurd rfl hne⟩,
      ⟨hnormalF, hf, fun hne => absurd rfl hne⟩⟩

theorem leavesOf_ne_nil {nodes : List Node} (hne : nodes ≠ [])
    (hnormal : ∀ node ∈ nodes, node.IsNormal) : leavesOf nodes ≠ [] := by
  obtain ⟨node, rest, rfl⟩ := List.exists_cons_of_ne_nil hne
  simp [leavesOf, (hnormal node (by simp)).leaves_ne_nil]

/-- What the last of several nodes leaves is what they leave. -/
theorem lastLabel_sequence_cons {label : String → Option Label} {node next : Node}
    {rest : List Node} (hnormal : ∀ n ∈ next :: rest, n.IsNormal) :
    (sequence (node :: next :: rest)).lastLabel label =
      (sequence (next :: rest)).lastLabel label := by
  simp only [lastLabel, leaves]
  rw [leavesOf, List.getLast?_append_of_ne_nil _ (leavesOf_ne_nil (by simp) hnormal)]

theorem trace_of_todoAll {label : String → Option Label} {nodes : List Node} {arms : Arms}
    {run : List String} (hne : nodes ≠ []) (hclosable : AllClosable nodes arms)
    (h : ∀ node ∈ nodes, ∀ arms run, node.Closable arms →
      (sequence (node.todo arms)).Trace label run → (close node arms).Trace label run)
    (hrun : (sequence (todoAll nodes arms)).Trace label run) :
    (close (.sequence nodes) arms).Trace label run := by
  induction nodes generalizing run with
  | nil => exact absurd rfl hne
  | cons node rest ih =>
    cases rest with
    | nil =>
      obtain ⟨first, second, hfirst, hsecond, rfl⟩ :=
        trace_close.mp (h node (by simp) arms run hclosable.single hrun)
      have hlabel : (sequence [node]).lastLabel label = node.lastLabel label := by
        simp [lastLabel, leaves, leavesOf]
      refine trace_close.mpr ⟨first, second, trace_sequence_singleton.mpr hfirst, ?_, rfl⟩
      rcases arms with _ | ⟨t, f⟩
      · exact hsecond
      · rw [picked, hlabel]
        exact hsecond
    | cons next rest =>
      -- only the last node has arms behind it, and its label is that of the sequence
      obtain ⟨first, later, hfirst, hlater, rfl⟩ := trace_sequence_append.mp hrun
      have hnode := h node (by simp) none first hclosable.head hfirst
      obtain ⟨second, third, hsecond, hthird, rfl⟩ := trace_close.mp
        (ih (by simp) hclosable.tail (fun n hn => h n (by simp [hn])) hlater)
      refine trace_close.mpr ⟨first ++ second, third,
        trace_sequence_cons.mpr ⟨first, second, hnode, hsecond, rfl⟩, ?_, by rw [List.append_assoc]⟩
      rcases arms with _ | ⟨t, f⟩
      · exact hthird
      · rw [picked, lastLabel_sequence_cons hclosable.tail.normal]
        exact hthird

/-- What the steps to do may execute, the node may execute. -/
theorem trace_of_todo {label : String → Option Label} {node : Node} (hnormal : node.IsNormal) :
    ∀ arms run, node.Closable arms → (sequence (node.todo arms)).Trace label run →
      (close node arms).Trace label run := by
  induction hnormal with
  | unit | parallel => exact fun arms run _ hrun => trace_sequence_singleton.mp hrun
  | @sequence steps htwo _ _ ih =>
    intro arms run hclosable hrun
    exact trace_of_todoAll (List.ne_nil_of_length_pos (by omega)) hclosable.steps ih hrun
  | @conditional c t f _ _ _ ih _ _ =>
    intro arms run hclosable hrun
    cases hclosable.arms_eq_none
    -- the condition takes the two arms behind itself
    exact ih (some (t, f)) run hclosable.parts.1 hrun

/-! ## The end of the steps to do -/

theorem todoAll_append {before : List Node} {last : Node} {arms : Arms} :
    ∃ earlier, todoAll (before ++ [last]) arms = earlier ++ last.todo arms := by
  induction before with
  | nil => exact ⟨[], rfl⟩
  | cons node rest ih =>
    obtain ⟨earlier, hearlier⟩ := ih
    cases rest with
    | nil => exact ⟨node.todo none, rfl⟩
    | cons next rest =>
      refine ⟨node.todo none ++ earlier, ?_⟩
      rw [List.append_assoc, ← hearlier]
      rfl

/-- A node that ends plainly ends in the last of its steps. -/
theorem exists_last_todo {node : Node} (h : node.IsNormal) (hends : node.EndsPlainly) :
    ∃ earlier last, node.todo none = earlier ++ [last] ∧ last.EndsPlainly ∧
      last.leaves.getLast? = node.leaves.getLast? := by
  induction h with
  | @unit name _ => exact ⟨[], .unit name, rfl, trivial, rfl⟩
  | @parallel branches _ _ _ => exact ⟨[], .parallel branches, rfl, hends, rfl⟩
  | conditional => exact hends.elim
  | @sequence steps htwo _ hsteps ih =>
    obtain ⟨before, last, rfl⟩ : ∃ before last, steps = before ++ [last] := by
      rcases List.eq_nil_or_concat steps with rfl | ⟨before, last, rfl⟩
      · simp at htwo
      · exact ⟨before, last, List.concat_eq_append ..⟩
    obtain ⟨earlier, step, htodo, hplain, hleaf⟩ :=
      ih last (by simp) (lastEndsPlainly_append.mp hends)
    obtain ⟨others, hothers⟩ := @todoAll_append before last none
    refine ⟨others ++ earlier, step, ?_, hplain, ?_⟩
    · rw [todo, hothers, htodo, List.append_assoc]
    · rw [hleaf, leaves, getLast?_leavesOf_append (hsteps last (by simp)).leaves_ne_nil]

end Node

end Workflow
