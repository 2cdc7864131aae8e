import Workflow.Node.Display
import Workflow.Proofs.Expression.Acceptance

/-!
# Reading and writing are inverse on normal nodes

The two directions meet in the grammar (`Expression.Grammar`), and neither looks at the reader.

* **A flow that was read is normal.** Every tree whose names stand for normal nodes means a normal
  node, whatever brackets it has; assignments only ever put normal nodes behind names.
* **A normal node is read back.** `Written` collects, for one node, a tree for each of the places
  where `Node.display` may write it: as a whole flow, as a step or an arm, and as a condition.
  Wherever the printer leaves the brackets out, the grammar has a tree without them.

The statement `parse_display` puts them together: a node is read back from its display exactly when
it is normal.
-/

namespace Workflow.Expression

open Grammar

/-! ## What was read is normal -/

def ProperNames (tokens : List Token) : Prop := ∀ text, .name text ∈ tokens → IsName text

def ResolvesNormal (resolve : String → Node) : Prop :=
  ∀ text, IsName text → (resolve text).IsNormal

theorem properNames_of_splits {cs : List Char} {tokens : List Token} (h : Splits cs tokens) :
    ProperNames tokens := by
  induction h with
  | nil => simp [ProperNames]
  | gap _ _ ih => exact ih
  | mark hmark _ ih =>
    intro text hmem
    rcases List.mem_cons.mp hmem with heq | hmem
    · simp [marks, ← heq] at hmark
    · exact ih text hmem
  | name hname _ _ ih =>
    intro text hmem
    rcases List.mem_cons.mp hmem with heq | hmem
    · cases heq
      exact hname
    · exact ih text hmem

theorem properNames_append {ts us : List Token} :
    ProperNames (ts ++ us) ↔ ProperNames ts ∧ ProperNames us := by
  simp only [ProperNames, List.mem_append, or_imp, forall_and]

theorem properNames_cons {t : Token} {ts : List Token} :
    ProperNames (t :: ts) ↔ (∀ text, t = .name text → IsName text) ∧ ProperNames ts := by
  simp only [ProperNames, List.mem_cons, or_imp, forall_and, @eq_comm _ (Token.name _) t]

mutual

theorem isNormal_flow {resolve : String → Node} (hresolve : ResolvesNormal resolve) :
    ∀ tree : Flow, ProperNames tree.tokens → (tree.node resolve).IsNormal
  | .mk first later, h => by
    rw [Flow.tokens, properNames_append] at h
    have hfirst := isNormal_conditional hresolve first h.1
    have hlater := isNormal_steps hresolve later h.2
    refine Node.IsNormal.ofSteps (by simp) ?_
    intro node hnode
    rcases List.mem_cons.mp hnode with rfl | hnode
    · exact hfirst
    · exact hlater node hnode

theorem isNormal_steps {resolve : String → Node} (hresolve : ResolvesNormal resolve) :
    ∀ trees : List Conditional, ProperNames (stepTokens trees) →
      ∀ node ∈ stepNodes resolve trees, node.IsNormal
  | [], _ => by simp [stepNodes]
  | step :: rest, h => by
    rw [stepTokens, properNames_cons, properNames_append] at h
    have hstep := isNormal_conditional hresolve step h.2.1
    have hrest := isNormal_steps hresolve rest h.2.2
    intro node hnode
    rcases List.mem_cons.mp hnode with rfl | hnode
    · exact hstep
    · exact hrest node hnode

theorem isNormal_conditional {resolve : String → Node} (hresolve : ResolvesNormal resolve) :
    ∀ tree : Conditional, ProperNames tree.tokens → (tree.node resolve).IsNormal
  | .plain term, h => isNormal_term hresolve term h
  | .choice condition whenTrue whenFalse, h => by
    simp only [Conditional.tokens, properNames_append, properNames_cons] at h
    obtain ⟨hc, -, ht, -, hf⟩ := h
    exact .conditional (isNormal_term hresolve condition hc)
      (isNormal_conditional hresolve whenTrue ht) (isNormal_conditional hresolve whenFalse hf)

theorem isNormal_term {resolve : String → Node} (hresolve : ResolvesNormal resolve) :
    ∀ tree : Term, ProperNames tree.tokens → (tree.node resolve).IsNormal
  | .name text, h => hresolve text (h text (by simp [Term.tokens]))
  | .brackets inner, h => by
    simp only [Term.tokens, properNames_append, properNames_cons] at h
    exact isNormal_flow hresolve inner h.2.1
  | .group first second later, h => by
    simp only [Term.tokens, properNames_append, properNames_cons] at h
    obtain ⟨-, h1, -, h2, h3, -⟩ := h
    have hfirst := isNormal_flow hresolve first h1
    have hsecond := isNormal_flow hresolve second h2
    have hlater := isNormal_branches hresolve later h3
    refine .parallel (by simp) ?_
    intro node hnode
    rcases List.mem_cons.mp hnode with rfl | hnode
    · exact hfirst
    · rcases List.mem_cons.mp hnode with rfl | hnode
      · exact hsecond
      · exact hlater node hnode

theorem isNormal_branches {resolve : String → Node} (hresolve : ResolvesNormal resolve) :
    ∀ trees : List Flow, ProperNames (branchTokens trees) →
      ∀ node ∈ branchNodes resolve trees, node.IsNormal
  | [], _ => by simp [branchNodes]
  | branch :: rest, h => by
    rw [branchTokens, properNames_cons, properNames_append] at h
    have hbranch := isNormal_flow hresolve branch h.2.1
    have hrest := isNormal_branches hresolve rest h.2.2
    intro node hnode
    rcases List.mem_cons.mp hnode with rfl | hnode
    · exact hbranch
    · exact hrest node hnode

end

/-- Statements only ever give normal nodes to names and to the last bare flow. -/
theorem isNormal_meaningFrom {node : Node} (statements : List Statement)
    (resolve : String → Node) (last : Option Node) (hresolve : ResolvesNormal resolve)
    (hlast : ∀ known, last = some known → known.IsNormal)
    (htokens : ∀ s ∈ statements, ProperNames s.tokens)
    (h : meaningFrom resolve last statements = some node) : node.IsNormal := by
  induction statements generalizing resolve last with
  | nil => exact hlast node h
  | cons s rest ih =>
    have hs := htokens s (by simp)
    have hrest : ∀ s ∈ rest, ProperNames s.tokens := fun s hmem => htokens s (by simp [hmem])
    cases s with
    | assign name body =>
      simp only [Statement.tokens, properNames_cons] at hs
      refine ih _ last ?_ hlast hrest h
      -- the name now stands for what was read, and the other names for what they stood for
      intro text htext
      unfold assigned
      split
      · exact isNormal_flow hresolve body hs.2.2
      · exact hresolve text htext
    | bare flow =>
      refine ih resolve _ hresolve ?_ hrest h
      rintro _ ⟨⟩
      exact isNormal_flow hresolve flow hs

theorem properNames_of_laterTokens {later : List (Bool × Statement)}
    (h : ProperNames (laterTokens later)) : ∀ s ∈ later.map Prod.snd, ProperNames s.tokens := by
  induction later with
  | nil => simp
  | cons entry rest ih =>
    intro s hs
    rw [laterTokens, properNames_append, properNames_append] at h
    rcases List.mem_cons.mp hs with rfl | hs
    · exact h.2.1
    · exact ih h.2.2 s hs

theorem isNormal_of_meaning {node : Node} {p : Program} (htokens : ProperNames p.tokens)
    (h : p.meaning = some node) : node.IsNormal := by
  rw [Program.tokens, properNames_append, properNames_append] at htokens
  refine isNormal_meaningFrom p.statements .unit none (fun _ => .unit) (by simp) ?_ h
  intro s hs
  rcases List.mem_cons.mp hs with rfl | hs
  · exact htokens.1
  · exact properNames_of_laterTokens htokens.2.1 s hs

theorem isNormal_of_parse {input : String} {node : Node} (h : parse input = .ok node) :
    node.IsNormal := by
  obtain ⟨p, hsplit, hmeaning⟩ := program_of_parse h
  exact isNormal_of_meaning (properNames_of_splits hsplit) hmeaning

/-! ## A normal node is written as it is read -/

/-- The trees of a node, one for each place where it can be written. -/
structure Written (node : Node) : Prop where
  flow : ∃ tree : Flow, tree.node .unit = node ∧ Splits node.display.toList tree.tokens
  arm : ∃ tree : Conditional, tree.node .unit = node ∧
    Splits (Node.bracketed node.bracketedAsArm node.display).toList tree.tokens
  condition : ∃ tree : Term, tree.node .unit = node ∧
    Splits (Node.bracketed node.bracketedAsCondition node.display).toList tree.tokens

theorem endsName_mark {spelling rest : List Char} {token : Token}
    (h : (spelling, token) ∈ marks) : EndsName (spelling ++ rest) := by
  intro c hc
  simp only [marks, List.mem_cons, Prod.mk.injEq, List.not_mem_nil, or_false] at h
  rcases h with ⟨rfl, _⟩ | ⟨rfl, _⟩ | ⟨rfl, _⟩ | ⟨rfl, _⟩ | ⟨rfl, _⟩ | ⟨rfl, _⟩ | ⟨rfl, _⟩ |
    ⟨rfl, _⟩ <;> cases hc <;> decide

theorem endsName_blank (rest : List Char) : EndsName (' ' :: rest) := by
  rintro c ⟨⟩
  decide

/-- A mark between blanks holds two texts apart. -/
theorem Splits.spaced {cs ds spelling : List Char} {ts us : List Token} {token : Token}
    (hmark : (spelling, token) ∈ marks) (hcs : Splits cs ts) (hds : Splits ds us) :
    Splits (cs ++ ' ' :: (spelling ++ ' ' :: ds)) (ts ++ token :: us) :=
  hcs.append (.gap (by decide) (.mark hmark (.gap (by decide) hds))) (endsName_blank _)

/-- A comma and a blank hold two texts apart. -/
theorem Splits.listed {cs ds : List Char} {ts us : List Token} (hcs : Splits cs ts)
    (hds : Splits ds us) : Splits (cs ++ ',' :: ' ' :: ds) (ts ++ .comma :: us) := by
  have hmark : ([','], Token.comma) ∈ marks := by simp [marks]
  exact hcs.append (.mark hmark (.gap (by decide) hds)) (endsName_mark hmark)

theorem Splits.parenthesized {cs : List Char} {ts : List Token} (h : Splits cs ts) :
    Splits ('(' :: (cs ++ [')'])) (.leftParen :: (ts ++ [.rightParen])) := by
  have hopen : (['('], Token.leftParen) ∈ marks := by simp [marks]
  have hclose : ([')'], Token.rightParen) ∈ marks := by simp [marks]
  exact .mark hopen (h.append (.mark hclose .nil) (endsName_mark hclose))

/-- A node that is no sequence stands for itself in a flow of one step. -/
theorem flow_node_of_plain {tree : Conditional} {node : Node} (h : tree.node .unit = node)
    (hflat : ∀ inner, node ≠ .sequence inner) : (Grammar.Flow.mk tree []).node .unit = node := by
  rw [Flow.node, stepNodes, h, Node.ofSteps_singleton hflat]

/-- In brackets, any flow is a term. -/
theorem exists_term_of_flow {node : Node}
    (h : ∃ tree : Flow, tree.node .unit = node ∧ Splits node.display.toList tree.tokens) :
    ∃ tree : Term, tree.node .unit = node ∧
      Splits (Node.bracketed true node.display).toList tree.tokens := by
  obtain ⟨tree, hnode, hsplit⟩ := h
  refine ⟨.brackets tree, hnode, ?_⟩
  simpa [Node.bracketed, Term.tokens] using hsplit.parenthesized

/-- Nodes that need no brackets anywhere. -/
theorem Written.ofTerm {node : Node} {tree : Term} (harm : node.bracketedAsArm = false)
    (hcondition : node.bracketedAsCondition = false) (hnode : tree.node .unit = node)
    (hsplit : Splits node.display.toList tree.tokens) : Written node := by
  have hflat : ∀ inner, node ≠ .sequence inner := by
    rintro inner rfl
    simp [Node.bracketedAsArm] at harm
  refine ⟨⟨.mk (.plain tree) [], flow_node_of_plain hnode hflat, ?_⟩, ?_, ?_⟩
  · simpa [Flow.tokens, stepTokens, Conditional.tokens] using hsplit
  · rw [harm]
    exact ⟨.plain tree, hnode, by simpa [Node.bracketed, Conditional.tokens] using hsplit⟩
  · rw [hcondition]
    exact ⟨tree, hnode, by simpa [Node.bracketed] using hsplit⟩

/-- Steps with arrows between them are read as the steps of a flow. -/
theorem exists_steps {steps : List Node} {step : Node} (hstep : Written step)
    (hsteps : ∀ step ∈ steps, Written step) :
    ∃ (first : Conditional) (later : List Conditional),
      first.node .unit = step ∧ stepNodes .unit later = steps ∧
      Splits (" -> ".intercalate (Node.displaySteps (step :: steps))).toList
        (first.tokens ++ stepTokens later) := by
  obtain ⟨first, hnode, hsplit⟩ := hstep.arm
  induction steps generalizing step first with
  | nil => exact ⟨first, [], hnode, rfl, by simpa [Node.displaySteps, stepTokens] using hsplit⟩
  | cons next rest ih =>
    have hnext := hsteps next (by simp)
    obtain ⟨tree, htree, htreeSplit⟩ := hnext.arm
    obtain ⟨second, later, hsecond, hlater, hrest⟩ :=
      ih hnext (fun step hmem => hsteps step (by simp [hmem])) tree htree htreeSplit
    refine ⟨first, second :: later, hnode, by rw [stepNodes, hsecond, hlater], ?_⟩
    have hmark : (['-', '>'], Token.arrow) ∈ marks := by simp [marks]
    have hboth := hsplit.spaced hmark hrest
    simpa [Node.displaySteps, stepTokens, String.toList_append] using hboth

/-- Branches with commas between them are read as the branches of a group. -/
theorem exists_branches {branches : List Node} {branch : Node} (hbranch : Written branch)
    (hbranches : ∀ branch ∈ branches, Written branch) :
    ∃ (first : Flow) (later : List Flow),
      first.node .unit = branch ∧ branchNodes .unit later = branches ∧
      Splits (", ".intercalate (Node.displayBranches (branch :: branches))).toList
        (first.tokens ++ branchTokens later) := by
  obtain ⟨first, hnode, hsplit⟩ := hbranch.flow
  induction branches generalizing branch first with
  | nil => exact ⟨first, [], hnode, rfl, by simpa [Node.displayBranches, branchTokens] using hsplit⟩
  | cons next rest ih =>
    have hnext := hbranches next (by simp)
    obtain ⟨tree, htree, htreeSplit⟩ := hnext.flow
    obtain ⟨second, later, hsecond, hlater, hrest⟩ :=
      ih hnext (fun branch hmem => hbranches branch (by simp [hmem])) tree htree htreeSplit
    refine ⟨first, second :: later, hnode, by rw [branchNodes, hsecond, hlater], ?_⟩
    have hboth := hsplit.listed hrest
    simpa [Node.displayBranches, branchTokens, String.toList_append] using hboth

/-- A normal node has a tree wherever it is written. -/
theorem written_of_isNormal {node : Node} (h : node.IsNormal) : Written node := by
  induction h with
  | @unit name hname =>
    exact @Written.ofTerm _ (.name name) rfl rfl rfl (Splits.ofName hname)
  | @sequence steps htwo hflat _ ih =>
    obtain ⟨step, rest, rfl⟩ : ∃ step rest, steps = step :: rest :=
      List.exists_cons_of_length_pos (by omega)
    have hrest : ∀ node ∈ rest, Written node := fun node hmem => ih node (by simp [hmem])
    obtain ⟨first, later, hfirst, hlater, hsplit⟩ := exists_steps (ih step (by simp)) hrest
    have hflow : ∃ tree : Flow, tree.node .unit = .sequence (step :: rest) ∧
        Splits (Node.sequence (step :: rest)).display.toList tree.tokens := by
      refine ⟨.mk first later, ?_, by simpa [Node.display, Flow.tokens] using hsplit⟩
      rw [Flow.node, hfirst, hlater, Node.ofSteps_of_flat htwo hflat]
    -- in every other place the display puts a sequence in brackets
    obtain ⟨term, hnode, hterm⟩ := exists_term_of_flow hflow
    exact ⟨hflow, ⟨.plain term, hnode, hterm⟩, ⟨term, hnode, hterm⟩⟩
  | @conditional condition whenTrue whenFalse _ _ _ ihc iht ihf =>
    obtain ⟨c, hc, hcSplit⟩ := ihc.condition
    obtain ⟨t, ht, htSplit⟩ := iht.arm
    obtain ⟨f, hf, hfSplit⟩ := ihf.arm
    have hquestion : (['?'], Token.question) ∈ marks := by simp [marks]
    have hcolon : ([':'], Token.colon) ∈ marks := by simp [marks]
    have hsplit := hcSplit.spaced hquestion (htSplit.spaced hcolon hfSplit)
    have harm : ∃ tree : Conditional,
        tree.node .unit = .conditional condition whenTrue whenFalse ∧
        Splits (Node.conditional condition whenTrue whenFalse).display.toList tree.tokens := by
      refine ⟨.choice c t f, by rw [Conditional.node, hc, ht, hf], ?_⟩
      simpa [Node.display, Conditional.tokens, String.toList_append] using hsplit
    -- a conditional is a step of its own, and needs brackets only as a condition
    obtain ⟨tree, hnode, htree⟩ := harm
    have hflow : ∃ tree : Flow, tree.node .unit = .conditional condition whenTrue whenFalse ∧
        Splits (Node.conditional condition whenTrue whenFalse).display.toList tree.tokens :=
      ⟨.mk tree [], flow_node_of_plain hnode (by simp),
        by simpa [Flow.tokens, stepTokens] using htree⟩
    exact ⟨hflow, ⟨tree, hnode, htree⟩, exists_term_of_flow hflow⟩
  | @parallel branches htwo _ ih =>
    obtain ⟨branch, next, rest, rfl⟩ : ∃ branch next rest, branches = branch :: next :: rest := by
      rcases branches with _ | ⟨branch, _ | ⟨next, rest⟩⟩
      · simp at htwo
      · simp at htwo
      · exact ⟨branch, next, rest, rfl⟩
    have hrest : ∀ node ∈ next :: rest, Written node :=
      fun node hmem => ih node (List.mem_cons_of_mem _ hmem)
    obtain ⟨first, later, hfirst, hlater, hsplit⟩ := exists_branches (ih branch (by simp)) hrest
    obtain ⟨second, others, rfl⟩ : ∃ second others, later = second :: others := by
      cases later with
      | nil => simp [branchNodes] at hlater
      | cons second others => exact ⟨second, others, rfl⟩
    -- a group brings its own parentheses along
    refine @Written.ofTerm _ (.group first second others) rfl rfl ?_ ?_
    · rw [Term.node, hfirst, ← hlater, branchNodes]
    · have hall := hsplit.parenthesized
      simpa [Node.display, Term.tokens, branchTokens, String.toList_append] using hall

/-- The display of a normal node is read back. -/
theorem parse_of_isNormal {node : Node} (h : node.IsNormal) : parse node.display = .ok node := by
  obtain ⟨tree, hnode, hsplit⟩ := (written_of_isNormal h).flow
  refine @parse_of_program _ _ ⟨.bare tree, [], false⟩ ?_ ?_
  · simpa [Program.tokens, Statement.tokens, laterTokens, semicolonTokens] using hsplit
  · simp [Program.meaning, Program.statements, meaningFrom, hnode]

/-- Reading gives normal nodes only, and gives back every normal node that was written: the nodes
that are read back from their display are the normal ones. -/
theorem parse_display :
    (∀ input node, parse input = .ok node → node.IsNormal) ∧
      (∀ node : Node, node.IsNormal → parse node.display = .ok node) ∧
      ∀ node : Node, parse node.display = .ok node ↔ node.IsNormal :=
  ⟨fun _ _ h => isNormal_of_parse h, fun _ h => parse_of_isNormal h,
    fun _ => ⟨fun h => isNormal_of_parse h, parse_of_isNormal⟩⟩

/-- A choice with two steps in one arm, which is written `a ? (b -> c) : d`. -/
theorem parse_display_choice :
    let node := Node.conditional (.unit "a") (.sequence [.unit "b", .unit "c"]) (.unit "d")
    node.IsNormal ∧ parse node.display = .ok node := by
  intro node
  have hname : ∀ c : Char, startsName c = true → (Node.unit (String.singleton c)).IsNormal :=
    fun c hc => .unit ⟨c, [], by simp, hc, by simp⟩
  have hsteps : (Node.sequence [.unit "b", .unit "c"]).IsNormal := by
    refine .sequence (by simp) (by simp) ?_
    intro step hstep
    simp only [List.mem_cons, List.not_mem_nil, or_false] at hstep
    rcases hstep with rfl | rfl
    · exact hname 'b' (by decide)
    · exact hname 'c' (by decide)
  have hnode : node.IsNormal :=
    .conditional (hname 'a' (by decide)) hsteps (hname 'd' (by decide))
  have hparse := parse_display.2.1 node hnode
  exact ⟨parse_display.1 _ node hparse, hparse⟩

end Workflow.Expression
