import Workflow.Proofs.Expression.Found
import Workflow.Proofs.Expression.Grammar

/-!
# Reading follows the grammar

The reading functions try alternatives in order and never give back what a repetition has taken.
They lose nothing and add nothing by it:

* `Sound fuel`: what a function reads with `fuel` is the sentence of a derivation tree, and the
  value that it answers is the node of that tree.
* `Complete fuel`: where the sentence of a tree stands, and what follows cannot go on with it, the
  function reads just that sentence, if the fuel is enough for its length.

Both are proved by induction on the fuel, with one lemma for each reading function.
-/

namespace Workflow.Expression

open Grammar (stepTokens branchTokens stepNodes branchNodes)
open Reading

/-! ## Soundness -/

section Soundness

variable (stop : Nat) (resolve : String → Node)

/-- What the reading functions answer with this much fuel comes from derivation trees. -/
structure Sound (fuel : Nat) : Prop where
  flow : ∀ {lexemes furthest node rest},
    (flow stop resolve fuel lexemes furthest).found = some (node, rest) →
      ∃ tree : Grammar.Flow, tree.node resolve = node ∧ Takes tree.tokens lexemes rest
  laterSteps : ∀ {lexemes furthest nodes rest},
    (laterSteps stop resolve fuel lexemes furthest).found = some (nodes, rest) →
      ∃ trees, stepNodes resolve trees = nodes ∧ Takes (stepTokens trees) lexemes rest
  conditional : ∀ {lexemes furthest node rest},
    (conditional stop resolve fuel lexemes furthest).found = some (node, rest) →
      ∃ tree : Grammar.Conditional, tree.node resolve = node ∧ Takes tree.tokens lexemes rest
  term : ∀ {lexemes furthest node rest},
    (term stop resolve fuel lexemes furthest).found = some (node, rest) →
      ∃ tree : Grammar.Term, tree.node resolve = node ∧ Takes tree.tokens lexemes rest
  group : ∀ {lexemes furthest node rest},
    (group stop resolve fuel lexemes furthest).found = some (node, rest) →
      ∃ tree : Grammar.Term, tree.node resolve = node ∧ Takes tree.tokens lexemes rest
  laterBranches : ∀ {lexemes furthest nodes rest},
    (laterBranches stop resolve fuel lexemes furthest).found = some (nodes, rest) →
      ∃ trees, branchNodes resolve trees = nodes ∧ Takes (branchTokens trees) lexemes rest

variable {stop resolve}

theorem sound_zero : Sound stop resolve 0 := by
  constructor <;> intro lexemes furthest value rest h <;>
    simp [flow, laterSteps, conditional, term, group, laterBranches] at h

namespace Sound

variable {fuel : Nat} {lexemes rest : List Lexeme} {furthest : Furthest}

theorem flow_succ (ih : Sound stop resolve fuel) {node : Node}
    (h : (Expression.flow stop resolve (fuel + 1) lexemes furthest).found = some (node, rest)) :
    ∃ tree : Grammar.Flow, tree.node resolve = node ∧ Takes tree.tokens lexemes rest := by
  rw [Expression.flow, found_construct, found_andThen_eq_some] at h
  obtain ⟨first, middle, hfirst, hlater⟩ := h
  obtain ⟨later, hsteps, rfl⟩ := found_map_eq_some.mp hlater
  obtain ⟨tree, rfl, htree⟩ := ih.conditional hfirst
  obtain ⟨trees, rfl, htrees⟩ := ih.laterSteps hsteps
  exact ⟨.mk tree trees, rfl, htree.append htrees⟩

theorem laterSteps_succ (ih : Sound stop resolve fuel) {nodes : List Node}
    (h : (Expression.laterSteps stop resolve (fuel + 1) lexemes furthest).found =
      some (nodes, rest)) :
    ∃ trees, stepNodes resolve trees = nodes ∧ Takes (stepTokens trees) lexemes rest := by
  rw [Expression.laterSteps, found_orElse_eq_some] at h
  rcases h with h | ⟨-, h⟩
  · obtain ⟨⟨⟩, afterArrow, harrow, h⟩ := found_andThen_eq_some.mp h
    obtain ⟨step, afterStep, hstep, h⟩ := found_andThen_eq_some.mp h
    obtain ⟨later, hlater, rfl⟩ := found_map_eq_some.mp h
    obtain ⟨tree, rfl, htree⟩ := ih.conditional hstep
    obtain ⟨trees, rfl, htrees⟩ := ih.laterSteps hlater
    exact ⟨tree :: trees, rfl, (takes_of_found_mark harrow).append (htree.append htrees)⟩
  · simp only [found_pure, Option.some.injEq, Prod.mk.injEq] at h
    obtain ⟨rfl, rfl⟩ := h
    exact ⟨[], rfl, .nil _⟩

theorem conditional_succ (ih : Sound stop resolve fuel) {node : Node}
    (h : (Expression.conditional stop resolve (fuel + 1) lexemes furthest).found =
      some (node, rest)) :
    ∃ tree : Grammar.Conditional, tree.node resolve = node ∧ Takes tree.tokens lexemes rest := by
  rw [Expression.conditional, found_construct] at h
  obtain ⟨condition, middle, hcondition, h⟩ := found_andThen_eq_some.mp h
  obtain ⟨term, rfl, hterm⟩ := ih.term hcondition
  rcases found_orElse_eq_some.mp h with h | ⟨-, h⟩
  · obtain ⟨⟨⟩, afterQuestion, hquestion, h⟩ := found_andThen_eq_some.mp h
    obtain ⟨whenTrue, afterTrue, htrue, h⟩ := found_andThen_eq_some.mp h
    obtain ⟨⟨⟩, afterColon, hcolon, h⟩ := found_andThen_eq_some.mp h
    obtain ⟨whenFalse, hfalse, rfl⟩ := found_map_eq_some.mp h
    obtain ⟨treeTrue, rfl, hT⟩ := ih.conditional htrue
    obtain ⟨treeFalse, rfl, hF⟩ := ih.conditional hfalse
    have hcolonOn := (takes_of_found_mark hcolon).append hF
    have hquestionOn := (takes_of_found_mark hquestion).append (hT.append hcolonOn)
    exact ⟨.choice term treeTrue treeFalse, rfl, hterm.append hquestionOn⟩
  · simp only [found_pure, Option.some.injEq, Prod.mk.injEq] at h
    obtain ⟨rfl, rfl⟩ := h
    exact ⟨.plain term, rfl, hterm⟩

theorem term_succ (ih : Sound stop resolve fuel) {node : Node}
    (h : (Expression.term stop resolve (fuel + 1) lexemes furthest).found = some (node, rest)) :
    ∃ tree : Grammar.Term, tree.node resolve = node ∧ Takes tree.tokens lexemes rest := by
  rw [Expression.term] at h
  rcases found_orElse_eq_some.mp h with h | ⟨-, h⟩
  · rcases found_orElse_eq_some.mp h with h | ⟨-, h⟩
    · exact ih.group h
    · obtain ⟨text, hname, rfl⟩ := found_map_eq_some.mp h
      obtain ⟨lexeme, rfl, htoken⟩ := found_name_eq_some.mp hname
      have hone := (Takes.nil rest).cons lexeme
      rw [htoken] at hone
      exact ⟨.name text, rfl, hone⟩
  · obtain ⟨⟨⟩, afterLeft, hleft, h⟩ := found_andThen_eq_some.mp h
    obtain ⟨inner, afterInner, hinner, h⟩ := found_andThen_eq_some.mp h
    obtain ⟨⟨⟩, hright, rfl⟩ := found_map_eq_some.mp h
    obtain ⟨tree, rfl, htree⟩ := ih.flow hinner
    have hclosed := htree.append (takes_of_found_mark hright)
    exact ⟨.brackets tree, rfl, (takes_of_found_mark hleft).append hclosed⟩

theorem group_succ (ih : Sound stop resolve fuel) {node : Node}
    (h : (Expression.group stop resolve (fuel + 1) lexemes furthest).found = some (node, rest)) :
    ∃ tree : Grammar.Term, tree.node resolve = node ∧ Takes tree.tokens lexemes rest := by
  rw [Expression.group, found_construct] at h
  obtain ⟨⟨⟩, afterLeft, hleft, h⟩ := found_andThen_eq_some.mp h
  obtain ⟨first, afterFirst, hfirst, h⟩ := found_andThen_eq_some.mp h
  obtain ⟨⟨⟩, afterComma, hcomma, h⟩ := found_andThen_eq_some.mp h
  obtain ⟨second, afterSecond, hsecond, h⟩ := found_andThen_eq_some.mp h
  obtain ⟨later, afterLater, hlater, h⟩ := found_andThen_eq_some.mp h
  obtain ⟨⟨⟩, hright, rfl⟩ := found_map_eq_some.mp h
  obtain ⟨treeFirst, rfl, hF⟩ := ih.flow hfirst
  obtain ⟨treeSecond, rfl, hS⟩ := ih.flow hsecond
  obtain ⟨trees, rfl, hL⟩ := ih.laterBranches hlater
  have hclosed := hS.append (hL.append (takes_of_found_mark hright))
  have hcommaOn := hF.append ((takes_of_found_mark hcomma).append hclosed)
  exact ⟨.group treeFirst treeSecond trees, rfl, (takes_of_found_mark hleft).append hcommaOn⟩

theorem laterBranches_succ (ih : Sound stop resolve fuel) {nodes : List Node}
    (h : (Expression.laterBranches stop resolve (fuel + 1) lexemes furthest).found =
      some (nodes, rest)) :
    ∃ trees, branchNodes resolve trees = nodes ∧ Takes (branchTokens trees) lexemes rest := by
  rw [Expression.laterBranches, found_orElse_eq_some] at h
  rcases h with h | ⟨-, h⟩
  · obtain ⟨⟨⟩, afterComma, hcomma, h⟩ := found_andThen_eq_some.mp h
    obtain ⟨branch, afterBranch, hbranch, h⟩ := found_andThen_eq_some.mp h
    obtain ⟨later, hlater, rfl⟩ := found_map_eq_some.mp h
    obtain ⟨tree, rfl, htree⟩ := ih.flow hbranch
    obtain ⟨trees, rfl, htrees⟩ := ih.laterBranches hlater
    exact ⟨tree :: trees, rfl, (takes_of_found_mark hcomma).append (htree.append htrees)⟩
  · simp only [found_pure, Option.some.injEq, Prod.mk.injEq] at h
    obtain ⟨rfl, rfl⟩ := h
    exact ⟨[], rfl, .nil _⟩

end Sound

theorem sound (stop : Nat) (resolve : String → Node) : ∀ fuel, Sound stop resolve fuel
  | 0 => sound_zero
  | fuel + 1 =>
    have ih := sound stop resolve fuel
    { flow := ih.flow_succ
      laterSteps := ih.laterSteps_succ
      conditional := ih.conditional_succ
      term := ih.term_succ
      group := ih.group_succ
      laterBranches := ih.laterBranches_succ }

end Soundness

/-! ## Completeness

A conditional can only be followed by more of itself if a question mark comes next, a flow if an
arrow does, and branches if a comma does. The fuel that suffices grows by four with each token. -/

section Completeness

variable (stop : Nat) (resolve : String → Node)

/-- With this much fuel the reading functions read every sentence that is short enough. -/
structure Complete (fuel : Nat) : Prop where
  flow : ∀ {tree : Grammar.Flow} {lexemes rest}, Takes tree.tokens lexemes rest →
    NotNext .arrow rest → NotNext .question rest → 4 * tree.tokens.length + 2 ≤ fuel →
      ∀ furthest, (flow stop resolve fuel lexemes furthest).found = some (tree.node resolve, rest)
  laterSteps : ∀ {trees lexemes rest}, Takes (stepTokens trees) lexemes rest →
    NotNext .arrow rest → NotNext .question rest → 4 * (stepTokens trees).length + 1 ≤ fuel →
      ∀ furthest, (laterSteps stop resolve fuel lexemes furthest).found =
        some (stepNodes resolve trees, rest)
  conditional : ∀ {tree : Grammar.Conditional} {lexemes rest}, Takes tree.tokens lexemes rest →
    NotNext .question rest → 4 * tree.tokens.length + 1 ≤ fuel →
      ∀ furthest, (conditional stop resolve fuel lexemes furthest).found =
        some (tree.node resolve, rest)
  term : ∀ {tree : Grammar.Term} {lexemes rest}, Takes tree.tokens lexemes rest →
    4 * tree.tokens.length ≤ fuel →
      ∀ furthest, (term stop resolve fuel lexemes furthest).found = some (tree.node resolve, rest)
  group : ∀ {first second later lexemes rest},
    Takes (Grammar.Term.group first second later).tokens lexemes rest →
    4 * (Grammar.Term.group first second later).tokens.length ≤ fuel + 1 →
      ∀ furthest, (group stop resolve fuel lexemes furthest).found =
        some ((Grammar.Term.group first second later).node resolve, rest)
  noGroup : ∀ {inner lexemes rest}, Takes (Grammar.Term.brackets inner).tokens lexemes rest →
    4 * (Grammar.Term.brackets inner).tokens.length ≤ fuel + 1 →
      ∀ furthest, (Expression.group stop resolve fuel lexemes furthest).found = none
  laterBranches : ∀ {trees lexemes rest}, Takes (branchTokens trees) lexemes rest →
    NotNext .arrow rest → NotNext .question rest → NotNext .comma rest →
    4 * (branchTokens trees).length + 1 ≤ fuel →
      ∀ furthest, (laterBranches stop resolve fuel lexemes furthest).found =
        some (branchNodes resolve trees, rest)

variable {stop resolve}

/-- Every construct has a token, so without fuel there is nothing to read. -/
theorem termTokens_pos (tree : Grammar.Term) : 0 < tree.tokens.length := by
  cases tree <;> simp [Grammar.Term.tokens]

theorem complete_zero : Complete stop resolve 0 where
  flow _ _ _ hfuel := by omega
  laterSteps _ _ _ hfuel := by omega
  conditional _ _ hfuel := by omega
  term {tree} _ _ _ hfuel := by have := termTokens_pos tree; omega
  group {first second later} _ _ _ hfuel := by
    have := termTokens_pos (.group first second later); omega
  noGroup {inner} _ _ _ hfuel := by have := termTokens_pos (.brackets inner); omega
  laterBranches _ _ _ _ hfuel := by omega

namespace Complete

variable {fuel : Nat} {lexemes rest : List Lexeme}

theorem flow_succ (ih : Complete stop resolve fuel) {tree : Grammar.Flow}
    (h : Takes tree.tokens lexemes rest) (harrow : NotNext .arrow rest)
    (hquestion : NotNext .question rest) (hfuel : 4 * tree.tokens.length + 2 ≤ fuel + 1)
    (furthest : Furthest) :
    (Expression.flow stop resolve (fuel + 1) lexemes furthest).found =
      some (tree.node resolve, rest) := by
  obtain ⟨first, later⟩ := tree
  simp only [Grammar.Flow.tokens, List.length_append] at h hfuel
  obtain ⟨middle, hfirst, hlater⟩ := h.split
  -- after the first step comes an arrow or what comes after the flow
  have hmiddle : NotNext .question middle := by
    cases later with
    | nil => rw [hlater.nil_eq]; exact hquestion
    | cons step steps => exact notNext_of_takes hlater (by simp)
  rw [Expression.flow, found_construct,
    found_andThen_of_some (ih.conditional hfirst hmiddle (by omega) _)]
  exact found_map_of_some (ih.laterSteps hlater harrow hquestion (by omega) _)

theorem laterSteps_succ (ih : Complete stop resolve fuel) {trees : List Grammar.Conditional}
    (h : Takes (stepTokens trees) lexemes rest) (harrow : NotNext .arrow rest)
    (hquestion : NotNext .question rest) (hfuel : 4 * (stepTokens trees).length + 1 ≤ fuel + 1)
    (furthest : Furthest) :
    (Expression.laterSteps stop resolve (fuel + 1) lexemes furthest).found =
      some (stepNodes resolve trees, rest) := by
  rw [Expression.laterSteps]
  cases trees with
  | nil =>
    obtain rfl := h.nil_eq
    rw [found_orElse_of_none (found_andThen_of_none (found_mark_of_notNext harrow _))]
    rfl
  | cons step steps =>
    simp only [stepTokens, List.length_cons, List.length_append] at h hfuel
    obtain ⟨lexeme, afterArrow, rfl, htoken, h⟩ := h.uncons
    obtain ⟨middle, hstep, hsteps⟩ := h.split
    -- after a step comes another arrow or what comes after them all
    have hmiddle : NotNext .question middle := by
      cases steps with
      | nil => rw [hsteps.nil_eq]; exact hquestion
      | cons next others => exact notNext_of_takes hsteps (by simp)
    apply found_orElse_of_some
    rw [found_andThen_of_some (found_mark_of_token htoken _ _),
      found_andThen_of_some (ih.conditional hstep hmiddle (by omega) _)]
    exact found_map_of_some (ih.laterSteps hsteps harrow hquestion (by omega) _)

theorem conditional_succ (ih : Complete stop resolve fuel) {tree : Grammar.Conditional}
    (h : Takes tree.tokens lexemes rest) (hquestion : NotNext .question rest)
    (hfuel : 4 * tree.tokens.length + 1 ≤ fuel + 1) (furthest : Furthest) :
    (Expression.conditional stop resolve (fuel + 1) lexemes furthest).found =
      some (tree.node resolve, rest) := by
  rw [Expression.conditional, found_construct]
  cases tree with
  | plain term =>
    rw [found_andThen_of_some (ih.term h (by simpa [Grammar.Conditional.tokens] using hfuel) _),
      found_orElse_of_none (found_andThen_of_none (found_mark_of_notNext hquestion _))]
    rfl
  | choice condition whenTrue whenFalse =>
    simp only [Grammar.Conditional.tokens, List.length_append, List.length_cons] at h hfuel
    obtain ⟨middle, hcondition, h⟩ := h.split
    obtain ⟨question, afterQuestion, rfl, hq, h⟩ := h.uncons
    obtain ⟨afterTrue, htrue, h⟩ := h.split
    -- the colon ends the first arm
    have hcolonNext : NotNext .question afterTrue := notNext_of_takes h (by simp)
    obtain ⟨colon, afterColon, rfl, hc, hfalse⟩ := h.uncons
    rw [found_andThen_of_some (ih.term hcondition (by omega) _)]
    apply found_orElse_of_some
    rw [found_andThen_of_some (found_mark_of_token hq _ _),
      found_andThen_of_some (ih.conditional htrue hcolonNext (by omega) _),
      found_andThen_of_some (found_mark_of_token hc _ _)]
    exact found_map_of_some (ih.conditional hfalse hquestion (by omega) _)

theorem term_succ (ih : Complete stop resolve fuel) {tree : Grammar.Term}
    (h : Takes tree.tokens lexemes rest) (hfuel : 4 * tree.tokens.length ≤ fuel + 1)
    (furthest : Furthest) :
    (Expression.term stop resolve (fuel + 1) lexemes furthest).found =
      some (tree.node resolve, rest) := by
  rw [Expression.term]
  cases tree with
  | name text =>
    obtain ⟨lexeme, middle, rfl, htoken, h⟩ := h.uncons
    obtain rfl := h.nil_eq
    have hnoGroup : ∀ furthest,
        (Expression.group stop resolve fuel (lexeme :: middle) furthest).found = none := by
      intro furthest
      have hparen : NotNext .leftParen (lexeme :: middle) := by
        intro other hother
        simp only [List.head?_cons, Option.some.injEq] at hother
        simp [← hother, htoken]
      cases fuel with
      | zero => rfl
      | succ fuel =>
        rw [Expression.group, found_construct]
        exact found_andThen_of_none (found_mark_of_notNext hparen _)
    apply found_orElse_of_some
    rw [found_orElse_of_none (hnoGroup _)]
    exact found_map_of_some (found_name_eq_some.mpr ⟨lexeme, rfl, htoken⟩)
  | brackets inner =>
    -- the attempt to read a group fails at the closing parenthesis, where a comma should stand
    have hnoGroup := ih.noGroup h hfuel
    have hnoName : ∀ text, NotNext (.name text) lexemes := fun text =>
      notNext_of_takes h (by simp)
    rw [found_orElse_of_none]
    · simp only [Grammar.Term.tokens, List.length_cons, List.length_append] at h hfuel
      obtain ⟨left, afterLeft, rfl, hl, h⟩ := h.uncons
      obtain ⟨middle, hinner, hright⟩ := h.split
      have harrow : NotNext .arrow middle := notNext_of_takes hright (by simp)
      have hquestion : NotNext .question middle := notNext_of_takes hright (by simp)
      obtain ⟨right, after, rfl, hr, hend⟩ := hright.uncons
      obtain rfl := hend.nil_eq
      rw [found_andThen_of_some (found_mark_of_token hl _ _),
        found_andThen_of_some (ih.flow hinner harrow hquestion (by omega) _)]
      exact found_map_of_some (found_mark_of_token hr _ _)
    · rw [found_orElse_of_none (hnoGroup _)]
      exact found_map_of_none (found_name_eq_none hnoName _)
  | group first second later =>
    exact found_orElse_of_some (found_orElse_of_some (ih.group h hfuel _))

theorem group_succ (ih : Complete stop resolve fuel) {first second : Grammar.Flow}
    {later : List Grammar.Flow}
    (h : Takes (Grammar.Term.group first second later).tokens lexemes rest)
    (hfuel : 4 * (Grammar.Term.group first second later).tokens.length ≤ fuel + 1 + 1)
    (furthest : Furthest) :
    (Expression.group stop resolve (fuel + 1) lexemes furthest).found =
      some ((Grammar.Term.group first second later).node resolve, rest) := by
  simp only [Grammar.Term.tokens, List.length_cons, List.length_append] at h hfuel
  obtain ⟨left, afterLeft, rfl, hl, h⟩ := h.uncons
  obtain ⟨afterFirst, hfirst, h⟩ := h.split
  have harrow1 : NotNext .arrow afterFirst := notNext_of_takes h (by simp)
  have hquestion1 : NotNext .question afterFirst := notNext_of_takes h (by simp)
  obtain ⟨comma, afterComma, rfl, hc, h⟩ := h.uncons
  obtain ⟨afterSecond, hsecond, h⟩ := h.split
  obtain ⟨afterLater, hlater, hright⟩ := h.split
  have harrow3 : NotNext .arrow afterLater := notNext_of_takes hright (by simp)
  have hquestion3 : NotNext .question afterLater := notNext_of_takes hright (by simp)
  have hcomma3 : NotNext .comma afterLater := notNext_of_takes hright (by simp)
  -- after the second branch comes a comma or the closing parenthesis
  have hnext2 : NotNext .arrow afterSecond ∧ NotNext .question afterSecond := by
    cases later with
    | nil => rw [hlater.nil_eq]; exact ⟨harrow3, hquestion3⟩
    | cons branch branches =>
      exact ⟨notNext_of_takes hlater (by simp), notNext_of_takes hlater (by simp)⟩
  obtain ⟨right, after, rfl, hr, hend⟩ := hright.uncons
  obtain rfl := hend.nil_eq
  rw [Expression.group, found_construct, found_andThen_of_some (found_mark_of_token hl _ _),
    found_andThen_of_some (ih.flow hfirst harrow1 hquestion1 (by omega) _),
    found_andThen_of_some (found_mark_of_token hc _ _),
    found_andThen_of_some (ih.flow hsecond hnext2.1 hnext2.2 (by omega) _),
    found_andThen_of_some (ih.laterBranches hlater harrow3 hquestion3 hcomma3 (by omega) _)]
  exact found_map_of_some (found_mark_of_token hr _ _)

theorem noGroup_succ (ih : Complete stop resolve fuel) {inner : Grammar.Flow}
    (h : Takes (Grammar.Term.brackets inner).tokens lexemes rest)
    (hfuel : 4 * (Grammar.Term.brackets inner).tokens.length ≤ fuel + 1 + 1)
    (furthest : Furthest) :
    (Expression.group stop resolve (fuel + 1) lexemes furthest).found = none := by
  simp only [Grammar.Term.tokens, List.length_cons, List.length_append] at h hfuel
  obtain ⟨left, afterLeft, rfl, hl, h⟩ := h.uncons
  obtain ⟨middle, hinner, hright⟩ := h.split
  have harrow : NotNext .arrow middle := notNext_of_takes hright (by simp)
  have hquestion : NotNext .question middle := notNext_of_takes hright (by simp)
  have hcomma : NotNext .comma middle := notNext_of_takes hright (by simp)
  rw [Expression.group, found_construct, found_andThen_of_some (found_mark_of_token hl _ _),
    found_andThen_of_some (ih.flow hinner harrow hquestion (by omega) _)]
  exact found_andThen_of_none (found_mark_of_notNext hcomma _)

theorem laterBranches_succ (ih : Complete stop resolve fuel) {trees : List Grammar.Flow}
    (h : Takes (branchTokens trees) lexemes rest) (harrow : NotNext .arrow rest)
    (hquestion : NotNext .question rest) (hcomma : NotNext .comma rest)
    (hfuel : 4 * (branchTokens trees).length + 1 ≤ fuel + 1) (furthest : Furthest) :
    (Expression.laterBranches stop resolve (fuel + 1) lexemes furthest).found =
      some (branchNodes resolve trees, rest) := by
  rw [Expression.laterBranches]
  cases trees with
  | nil =>
    obtain rfl := h.nil_eq
    rw [found_orElse_of_none (found_andThen_of_none (found_mark_of_notNext hcomma _))]
    rfl
  | cons branch branches =>
    simp only [branchTokens, List.length_cons, List.length_append] at h hfuel
    obtain ⟨lexeme, afterComma, rfl, htoken, h⟩ := h.uncons
    obtain ⟨middle, hbranch, hbranches⟩ := h.split
    have hnext : NotNext .arrow middle ∧ NotNext .question middle := by
      cases branches with
      | nil => rw [hbranches.nil_eq]; exact ⟨harrow, hquestion⟩
      | cons next others =>
        exact ⟨notNext_of_takes hbranches (by simp), notNext_of_takes hbranches (by simp)⟩
    apply found_orElse_of_some
    rw [found_andThen_of_some (found_mark_of_token htoken _ _),
      found_andThen_of_some (ih.flow hbranch hnext.1 hnext.2 (by omega) _)]
    exact found_map_of_some (ih.laterBranches hbranches harrow hquestion hcomma (by omega) _)

end Complete

theorem complete (stop : Nat) (resolve : String → Node) : ∀ fuel, Complete stop resolve fuel
  | 0 => complete_zero
  | fuel + 1 =>
    have ih := complete stop resolve fuel
    { flow := ih.flow_succ
      laterSteps := ih.laterSteps_succ
      conditional := ih.conditional_succ
      term := ih.term_succ
      group := ih.group_succ
      noGroup := ih.noGroup_succ
      laterBranches := ih.laterBranches_succ }

end Completeness

end Workflow.Expression
