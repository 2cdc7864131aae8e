import Workflow.Plan.Layout
import Workflow.Proofs.Node.Normal
import Workflow.Proofs.Table

/-!
# Where a node puts its choices

A node takes as many positions as it has leaves. So what it adds to a plan can be written down from
the position where it begins, without laying anything out: `Node.choicesFrom` lists the choices of
a node in ascending order of their positions, one for each of its conditionals.

* No two conditionals share a position, because the choice of a conditional stands at the last
  position of the condition and no choice stands at the last position of a whole node
  (`IsNormal.choicesFrom_ascends`).
* Every choice fits the plan that reads the leaves of the node there (`IsNormal.choicesFrom_fits`).

`Layout.Grows` (`Plan.Growth`) shows that these are the choices that `Node.layOut` adds.
-/

namespace Workflow

namespace Node

/-! ## Widths -/

def width (node : Node) : Nat := node.leaves.length

def widthOf (nodes : List Node) : Nat := (leavesOf nodes).length

@[simp] theorem width_unit (name : String) : (unit name).width = 1 := rfl

@[simp] theorem width_sequence (steps : List Node) : (sequence steps).width = widthOf steps := rfl

@[simp] theorem width_conditional (c t f : Node) :
    (conditional c t f).width = c.width + t.width + f.width := by
  simp [width, leaves, Nat.add_assoc]

@[simp] theorem width_parallel (branches : List Node) :
    (parallel branches).width = widthOf branches := rfl

@[simp] theorem widthOf_nil : widthOf [] = 0 := rfl

@[simp] theorem widthOf_cons (node : Node) (rest : List Node) :
    widthOf (node :: rest) = node.width + widthOf rest := by
  simp [width, widthOf, leavesOf]

theorem IsNormal.width_pos {node : Node} (h : node.IsNormal) : 0 < node.width :=
  List.length_pos_iff.mpr h.leaves_ne_nil

/-! ## Choices in closed form -/

def arm? (node : Node) (start : Nat) : Option Arm :=
  node.leaves.head?.map fun target => ⟨target, ⟨start, start + node.width⟩⟩

def choice? (condition whenTrue whenFalse : Node) (start : Nat) : Option Choice := do
  let router ← condition.leaves.getLast?
  let first ← whenTrue.arm? (start + condition.width)
  let second ← whenFalse.arm? (start + condition.width + whenTrue.width)
  some ⟨router, ⟨[(false, second), (true, first)]⟩⟩

mutual

/-- The choices of a node that begins at a position, with their positions. -/
def choicesFrom : Node → Nat → List (Nat × Choice)
  | .unit _, _ => []
  | .sequence steps, start => choicesFromAll steps start
  | .conditional condition whenTrue whenFalse, start =>
    condition.choicesFrom start ++
      ((choice? condition whenTrue whenFalse start).toList.map (start + condition.width - 1, ·) ++
        (whenTrue.choicesFrom (start + condition.width) ++
          whenFalse.choicesFrom (start + condition.width + whenTrue.width)))
  | .parallel branches, start => choicesFromAll branches start

def choicesFromAll : List Node → Nat → List (Nat × Choice)
  | [], _ => []
  | node :: rest, start =>
    node.choicesFrom start ++ choicesFromAll rest (start + node.width)

end

mutual

/-- The positions at which the conditionals of a node choose: for each the last of its condition. -/
def routersFrom : Node → Nat → List Nat
  | .unit _, _ => []
  | .sequence steps, start => routersFromAll steps start
  | .conditional condition whenTrue whenFalse, start =>
    condition.routersFrom start ++
      (start + condition.width - 1) ::
        (whenTrue.routersFrom (start + condition.width) ++
          whenFalse.routersFrom (start + condition.width + whenTrue.width))
  | .parallel branches, start => routersFromAll branches start

def routersFromAll : List Node → Nat → List Nat
  | [], _ => []
  | node :: rest, start =>
    node.routersFrom start ++ routersFromAll rest (start + node.width)

end

mutual

def conditionals : Node → Nat
  | .unit _ => 0
  | .sequence steps => conditionalsOf steps
  | .conditional condition whenTrue whenFalse =>
    condition.conditionals + whenTrue.conditionals + whenFalse.conditionals + 1
  | .parallel branches => conditionalsOf branches

def conditionalsOf : List Node → Nat
  | [] => 0
  | node :: rest => node.conditionals + conditionalsOf rest

end

theorem exists_arm {node : Node} (h : node.IsNormal) (start : Nat) :
    ∃ target, node.leaves.head? = some target ∧
      node.arm? start = some ⟨target, ⟨start, start + node.width⟩⟩ := by
  obtain ⟨target, rest, hleaves⟩ := List.exists_cons_of_ne_nil h.leaves_ne_nil
  have hhead : node.leaves.head? = some target := by rw [hleaves]; rfl
  exact ⟨target, hhead, by rw [arm?, hhead]; rfl⟩

/-- A conditional of normal parts has a choice, and it looks like this. -/
theorem exists_choice {c t f : Node} (hc : c.IsNormal) (ht : t.IsNormal) (hf : f.IsNormal)
    (start : Nat) :
    ∃ router first second, c.leaves.getLast? = some router ∧ t.leaves.head? = some first ∧
      f.leaves.head? = some second ∧
      choice? c t f start = some ⟨router, ⟨[
        (false, ⟨second, ⟨start + c.width + t.width, start + c.width + t.width + f.width⟩⟩),
        (true, ⟨first, ⟨start + c.width, start + c.width + t.width⟩⟩)]⟩⟩ := by
  obtain ⟨first, hfirst, htrue⟩ := exists_arm ht (start + c.width)
  obtain ⟨second, hsecond, hfalse⟩ := exists_arm hf (start + c.width + t.width)
  have hlast := List.getLast?_eq_some_getLast hc.leaves_ne_nil
  refine ⟨_, first, second, hlast, hfirst, hsecond, ?_⟩
  rw [choice?, hlast, htrue, hfalse]
  rfl

/-! ## Positions of choices -/

theorem choicesFromAll_ascends {nodes : List Node}
    (h : ∀ node ∈ nodes, ∀ start,
      Table.Ascends (node.choicesFrom start) start (start + node.width - 1)) :
    ∀ start, Table.Ascends (choicesFromAll nodes start) start (start + widthOf nodes - 1) := by
  induction nodes with
  | nil => exact fun start => .nil
  | cons node rest ih =>
    intro start
    rw [choicesFromAll, widthOf_cons]
    have hrest := ih (fun n hn => h n (by simp [hn])) (start + node.width)
    exact (h node (by simp) start).append hrest (by omega) (by omega) (by omega) (by omega)

/-- Choices stand within the node in ascending order of their positions, and none at its last one. -/
theorem IsNormal.choicesFrom_ascends {node : Node} (h : node.IsNormal) :
    ∀ start, Table.Ascends (node.choicesFrom start) start (start + node.width - 1) := by
  induction h with
  | unit => exact fun start => .nil
  | sequence _ _ _ ih => exact choicesFromAll_ascends ih
  | parallel _ _ ih => exact choicesFromAll_ascends ih
  | @conditional c t f hc ht hf ihc iht ihf =>
    intro start
    have hwidth := hc.width_pos
    have hwidthTrue := ht.width_pos
    have hwidthFalse := hf.width_pos
    obtain ⟨_, _, _, -, -, -, hchoice⟩ := exists_choice hc ht hf start
    simp only [choicesFrom, hchoice, Option.toList_some, List.map_cons, List.map_nil,
      List.singleton_append, width_conditional]
    -- its own choice stands at the end of the condition, and both arms follow
    have harms : Table.Ascends (t.choicesFrom (start + c.width) ++
        f.choicesFrom (start + c.width + t.width)) (start + c.width)
        (start + c.width + t.width + f.width - 1) :=
      (iht _).append (ihf _) (by omega) (by omega) (by omega) (by omega)
    have hown (choice : Choice) : Table.Ascends ((start + c.width - 1, choice) :: _)
        (start + c.width - 1) (start + c.width + t.width + f.width - 1) :=
      harms.cons (by omega) (by omega) (by omega)
    exact (ihc start).append (hown _) (by omega) (by omega) (by omega) (by omega)

theorem choicesFromAll_within {nodes : List Node} (h : ∀ node ∈ nodes, node.IsNormal) (start : Nat) :
    ∀ e ∈ choicesFromAll nodes start, start ≤ e.1 ∧ e.1 + 1 < start + widthOf nodes := by
  intro e he
  have := (choicesFromAll_ascends (fun node hnode => (h node hnode).choicesFrom_ascends) start).within e he
  omega

theorem IsNormal.choicesFrom_within {node : Node} (h : node.IsNormal) (start : Nat) :
    ∀ e ∈ node.choicesFrom start, start ≤ e.1 ∧ e.1 + 1 < start + node.width := by
  intro e he
  have := (h.choicesFrom_ascends start).within e he
  omega

/-! ## One choice for each conditional -/

theorem map_fst_choicesFromAll {nodes : List Node}
    (h : ∀ node ∈ nodes, ∀ start,
      (node.choicesFrom start).map Prod.fst = node.routersFrom start) :
    ∀ start, (choicesFromAll nodes start).map Prod.fst = routersFromAll nodes start := by
  induction nodes with
  | nil => simp [choicesFromAll, routersFromAll]
  | cons node rest ih =>
    intro start
    rw [choicesFromAll, routersFromAll, List.map_append, h node (by simp),
      ih fun n hn => h n (by simp [hn])]

/-- The choices of a normal node stand where its conditionals choose. -/
theorem IsNormal.map_fst_choicesFrom {node : Node} (h : node.IsNormal) :
    ∀ start, (node.choicesFrom start).map Prod.fst = node.routersFrom start := by
  induction h with
  | unit => intro start; rfl
  | sequence _ _ _ ih => exact map_fst_choicesFromAll ih
  | parallel _ _ ih => exact map_fst_choicesFromAll ih
  | @conditional c t f hc ht hf ihc iht ihf =>
    intro start
    obtain ⟨router, first, second, -, -, -, hchoice⟩ := exists_choice hc ht hf start
    rw [choicesFrom, routersFrom, hchoice]
    simp [ihc, iht, ihf]

mutual

theorem length_routersFrom : ∀ (node : Node) (start : Nat),
    (node.routersFrom start).length = node.conditionals
  | .unit _, _ => rfl
  | .sequence steps, start => length_routersFromAll steps start
  | .conditional c t f, start => by
    simp only [routersFrom, conditionals, List.length_append, List.length_cons,
      length_routersFrom c, length_routersFrom t, length_routersFrom f]
    omega
  | .parallel branches, start => length_routersFromAll branches start

theorem length_routersFromAll : ∀ (nodes : List Node) (start : Nat),
    (routersFromAll nodes start).length = conditionalsOf nodes
  | [], _ => rfl
  | node :: rest, start => by
    rw [routersFromAll, conditionalsOf, List.length_append, length_routersFrom node,
      length_routersFromAll rest]

end

end Node

/-! ## Plans that read names -/

/-- From a position on, the plan has units of these names. -/
def Plan.Reads (p : Plan) (start : Nat) (names : List String) : Prop :=
  names <+: p.sequence.drop start

namespace Plan.Reads

variable {p : Plan} {start : Nat} {names : List String}

theorem append {more : List String} (h : p.Reads start (names ++ more)) :
    p.Reads start names ∧ p.Reads (start + names.length) more := by
  obtain ⟨rest, hrest⟩ := h
  constructor
  · exact ⟨more ++ rest, by rw [← hrest, List.append_assoc]⟩
  · refine ⟨rest, ?_⟩
    rw [← List.drop_drop, ← hrest, List.append_assoc, List.drop_left]

theorem unitAt? (h : p.Reads start names) {offset : Nat} (hoffset : offset < names.length) :
    p.unitAt? (start + offset) = names[offset]? := by
  obtain ⟨rest, hrest⟩ := h
  rw [Plan.unitAt?, ← List.getElem?_drop, ← hrest, List.getElem?_append_left hoffset]

theorem head {name : String} (h : p.Reads start names) (hname : names.head? = some name) :
    p.unitAt? start = some name := by
  rw [List.head?_eq_getElem?] at hname
  have hpos : 0 < names.length := (List.getElem?_eq_some_iff.mp hname).1
  have := h.unitAt? hpos
  rwa [Nat.add_zero, hname] at this

theorem last {name : String} (h : p.Reads start names) (hname : names.getLast? = some name) :
    p.unitAt? (start + names.length - 1) = some name := by
  rw [List.getLast?_eq_getElem?] at hname
  have hpos : names.length - 1 < names.length := (List.getElem?_eq_some_iff.mp hname).1
  have := h.unitAt? hpos
  rwa [hname, show start + (names.length - 1) = start + names.length - 1 by omega] at this

theorem stop_le (h : p.Reads start names) (hne : names ≠ []) : start + names.length ≤ p.length := by
  have hlength := h.length_le
  have hpos := List.length_pos_iff.mpr hne
  rw [List.length_drop] at hlength
  unfold Plan.length
  omega

end Plan.Reads

/-! ## Choices that fit -/

/-- A choice belongs at a position: the unit there routes into two arms, which follow it one after
the other, `true` first. -/
structure Choice.Fits (choice : Choice) (p : Plan) (position : Nat) (whenTrue whenFalse : Arm) :
    Prop where
  router : p.unitAt? position = some choice.router
  arms : choice.arms.entries = [(false, whenFalse), (true, whenTrue)]
  start_true : whenTrue.span.start = position + 1
  true_pos : whenTrue.span.start < whenTrue.span.stop
  start_false : whenFalse.span.start = whenTrue.span.stop
  false_pos : whenFalse.span.start < whenFalse.span.stop
  stop_false : whenFalse.span.stop ≤ p.length
  target_true : p.unitAt? whenTrue.span.start = some whenTrue.target
  target_false : p.unitAt? whenFalse.span.start = some whenFalse.target

namespace Node

theorem choicesFromAll_fits {nodes : List Node} {p : Plan}
    (h : ∀ node ∈ nodes, ∀ start, p.Reads start node.leaves → ∀ e ∈ node.choicesFrom start,
      ∃ whenTrue whenFalse, e.2.Fits p e.1 whenTrue whenFalse) :
    ∀ start, p.Reads start (leavesOf nodes) → ∀ e ∈ choicesFromAll nodes start,
      ∃ whenTrue whenFalse, e.2.Fits p e.1 whenTrue whenFalse := by
  induction nodes with
  | nil => simp [choicesFromAll]
  | cons node rest ih =>
    intro start hreads e he
    rw [leavesOf] at hreads
    rw [choicesFromAll, List.mem_append] at he
    obtain ⟨hnode, hrest⟩ := hreads.append
    rcases he with he | he
    · exact h node (by simp) start hnode e he
    · exact ih (fun n hn => h n (by simp [hn])) _ hrest e he

/-- The choices of a normal node fit every plan that reads its leaves there. -/
theorem IsNormal.choicesFrom_fits {node : Node} (h : node.IsNormal) (p : Plan) :
    ∀ start, p.Reads start node.leaves → ∀ e ∈ node.choicesFrom start,
      ∃ whenTrue whenFalse, e.2.Fits p e.1 whenTrue whenFalse := by
  induction h with
  | unit => simp [choicesFrom]
  | sequence _ _ _ ih => exact choicesFromAll_fits ih
  | parallel _ _ ih => exact choicesFromAll_fits ih
  | @conditional c t f hc ht hf ihc iht ihf =>
    intro start hreads e he
    rw [leaves, List.append_assoc] at hreads
    obtain ⟨hreadsC, hreads⟩ := hreads.append
    obtain ⟨hreadsT, hreadsF⟩ := hreads.append
    obtain ⟨router, first, second, hrouter, hfirst, hsecond, hchoice⟩ :=
      exists_choice hc ht hf start
    -- the choice of this conditional stands between those of its parts
    rw [choicesFrom, hchoice] at he
    simp only [Option.toList_some, List.map_cons, List.map_nil, List.mem_append,
      List.mem_singleton] at he
    rcases he with he | rfl | he | he
    · exact ihc start hreadsC e he
    · have hwidth := hc.width_pos
      have hwidthTrue := ht.width_pos
      have hwidthFalse := hf.width_pos
      refine ⟨_, _, ⟨hreadsC.last hrouter, rfl, ?_, ?_, rfl, ?_, ?_, hreadsT.head hfirst,
        hreadsF.head hsecond⟩⟩
      · simp only
        omega
      · simp only
        omega
      · simp only
        omega
      · exact hreadsF.stop_le hf.leaves_ne_nil
    · exact iht _ hreadsT e he
    · exact ihf _ hreadsF e he

end Node

end Workflow
