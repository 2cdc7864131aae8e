import Mathlib.Logic.Function.Basic
import Workflow.Proofs.Expression.Refusals
import Workflow.Proofs.Expression.RoundTrip

/-!
# Aliases

An assigned name is an abbreviation. The last bare flow of a text can be read without the statements
around it once each name in it that was assigned before is replaced, in the text, by the display of
what it was assigned last, in parentheses. `parse_expanded` says so of every text that is read.

* `bindings` are what names are bound to after some statements, and `expand` replaces the bound names
  of a text. Neither looks at the reader.
* Replacing commutes with splitting: `Splits.expand` follows the characters of the text, and
  `Flow.tokens_substitute` the tree. Each bound name gives way to the tree of its display in brackets,
  and brackets mean what they enclose.
-/

namespace Workflow.Expression

open Grammar

/-! ## Bindings -/

/-- The name that a statement assigns, if it is an assignment. -/
def Grammar.Statement.target : Statement → Option String
  | .assign name _ => some name
  | .bare _ => none

/-- What a name stands for: the node that it is bound to, or else the unit of this name. -/
def standsFor (bound : String → Option Node) (name : String) : Node :=
  (bound name).getD (.unit name)

/-- What names are bound to after some statements. The body of an assignment is resolved with the
bindings made before it. -/
def bindings (bound : String → Option Node) : List Statement → String → Option Node
  | [] => bound
  | .assign name body :: rest =>
    bindings (Function.update bound name (some (body.node (standsFor bound)))) rest
  | .bare _ :: rest => bindings bound rest

theorem standsFor_none : standsFor (fun _ => none) = .unit := rfl

theorem standsFor_update (bound : String → Option Node) (name : String) (node : Node) :
    standsFor (Function.update bound name (some node)) = assigned (standsFor bound) name node := by
  funext other
  by_cases h : other = name
  · subst h
    simp [standsFor, assigned]
  · simp [standsFor, assigned, h]

theorem bindings_append (bound : String → Option Node) (earlier later : List Statement) :
    bindings bound (earlier ++ later) = bindings (bindings bound earlier) later := by
  induction earlier generalizing bound with
  | nil => rfl
  | cons s rest ih => cases s <;> exact ih _

/-- Statements leave alone what they do not assign. -/
theorem bindings_of_not_target {name : String} (bound : String → Option Node)
    {statements : List Statement} (h : ∀ s ∈ statements, s.target ≠ some name) :
    bindings bound statements name = bound name := by
  induction statements generalizing bound with
  | nil => rfl
  | cons s rest ih =>
    have hrest : ∀ s ∈ rest, s.target ≠ some name := fun s hs => h s (List.mem_cons_of_mem _ hs)
    cases s with
    | bare flow => exact ih bound hrest
    | assign other body =>
      have hne : name ≠ other := by
        rintro rfl
        exact h (.assign name body) List.mem_cons_self rfl
      rw [bindings, ih _ hrest, Function.update_of_ne hne]

/-- A name is bound to what it was assigned last, as it was understood there. -/
theorem bindings_of_assign {name : String} (bound : String → Option Node) (earlier : List Statement)
    (body : Flow) {later : List Statement} (h : ∀ s ∈ later, s.target ≠ some name) :
    bindings bound (earlier ++ .assign name body :: later) name =
      some (body.node (standsFor (bindings bound earlier))) := by
  rw [bindings_append, bindings, bindings_of_not_target _ h, Function.update_self]

theorem meaningFrom_append (bound : String → Option Node) (last : Option Node)
    (earlier rest : List Statement) :
    meaningFrom (standsFor bound) last (earlier ++ rest) =
      meaningFrom (standsFor (bindings bound earlier)) (meaningFrom (standsFor bound) last earlier)
        rest := by
  induction earlier generalizing bound last with
  | nil => rfl
  | cons s statements ih =>
    cases s with
    | bare flow => exact ih bound _
    | assign name body =>
      rw [List.cons_append, meaningFrom, meaningFrom, ← standsFor_update]
      exact ih _ last

/-- Assignments after the last bare flow do not count. -/
theorem meaningFrom_of_assigns {statements : List Statement} (resolve : String → Node)
    (last : Option Node) (h : ∀ s ∈ statements, s.target.isSome) :
    meaningFrom resolve last statements = last := by
  induction statements generalizing resolve with
  | nil => rfl
  | cons s rest ih =>
    have hrest : ∀ s ∈ rest, s.target.isSome := fun s hs => h s (List.mem_cons_of_mem _ hs)
    cases s with
    | assign name body => exact ih _ hrest
    | bare flow => exact absurd (h _ List.mem_cons_self) (by simp [Statement.target])

/-- Names are bound to normal nodes only. -/
def BindsNormal (bound : String → Option Node) : Prop :=
  ∀ name node, bound name = some node → node.IsNormal

theorem BindsNormal.resolvesNormal {bound : String → Option Node} (h : BindsNormal bound) :
    ResolvesNormal (standsFor bound) := by
  intro text htext
  rw [standsFor]
  cases hbound : bound text with
  | none => exact .unit htext
  | some node => exact h text node hbound

theorem BindsNormal.bindings {bound : String → Option Node} (h : BindsNormal bound)
    {statements : List Statement} (htokens : ∀ s ∈ statements, ProperNames s.tokens) :
    BindsNormal (bindings bound statements) := by
  induction statements generalizing bound with
  | nil => exact h
  | cons s rest ih =>
    have hrest : ∀ s ∈ rest, ProperNames s.tokens := fun s hs => htokens s (List.mem_cons_of_mem _ hs)
    cases s with
    | bare flow => exact ih h hrest
    | assign name body =>
      refine ih ?_ hrest
      have hbody : ProperNames body.tokens := by
        have hs := htokens _ List.mem_cons_self
        simp only [Statement.tokens, properNames_cons] at hs
        exact hs.2.2
      intro other node hnode
      by_cases heq : other = name
      · subst heq
        rw [Function.update_self, Option.some.injEq] at hnode
        exact hnode ▸ isNormal_flow h.resolvesNormal body hbody
      · rw [Function.update_of_ne heq] at hnode
        exact h other node hnode

/-! ## Replacing in texts -/

/-- The text with every bound name replaced by the display of its node in parentheses. A name is as
long as it can be. -/
def expand (bound : String → Option Node) : List Char → List Char
  | [] => []
  | c :: rest =>
    if startsName c then
      let word := c :: rest.takeWhile continuesName
      let replaced := match bound (String.ofList word) with
        | some node => '(' :: (node.display.toList ++ [')'])
        | none => word
      replaced ++ expand bound (rest.dropWhile continuesName)
    else c :: expand bound rest
termination_by cs => cs.length
decreasing_by
  all_goals have := length_dropWhile_le continuesName rest
  all_goals simp_wf
  all_goals omega

section Expand

variable {bound : String → Option Node}

theorem expand_append_of_not_startsName {cs : List Char} (h : ∀ c ∈ cs, startsName c = false)
    (ds : List Char) : expand bound (cs ++ ds) = cs ++ expand bound ds := by
  induction cs with
  | nil => rfl
  | cons c rest ih =>
    have hc : ¬startsName c = true := by simp [h c List.mem_cons_self]
    rw [List.cons_append, expand, if_neg hc, ih fun c hmem => h c (List.mem_cons_of_mem _ hmem)]
    rfl

/-- What a name is replaced by. -/
theorem expand_name {text : String} (hname : IsName text) {rest : List Char}
    (hends : EndsName rest) :
    expand bound (text.toList ++ rest) =
      (match bound text with
        | some node => '(' :: (node.display.toList ++ [')'])
        | none => text.toList) ++ expand bound rest := by
  obtain ⟨first, word, htext, hfirst, hword⟩ := hname
  have hofList : String.ofList (first :: word) = text := by rw [← htext, String.ofList_toList]
  rw [htext, List.cons_append, expand, if_pos hfirst]
  simp only [takeWhile_continuesName hword hends, dropWhile_continuesName hword hends, hofList]

theorem not_startsName_of_isGap {c : Char} (h : isGap c = true) : startsName c = false := by
  rw [Bool.eq_false_iff]
  intro hstarts
  rw [(not_isGap_of_startsName hstarts).1] at h
  exact absurd h (by decide)

theorem not_startsName_of_mark {spelling : List Char} {token : Token}
    (h : (spelling, token) ∈ marks) : ∀ c ∈ spelling, startsName c = false := by
  have hall : (marks.all fun entry => entry.1.all fun c => !startsName c) = true := by decide
  intro c hc
  have hspelling := List.all_eq_true.mp hall _ h
  simpa using List.all_eq_true.mp hspelling c hc

/-- Where a name ends before a text, it ends before the expanded text. -/
theorem EndsName.expand {cs : List Char} (h : EndsName cs) : EndsName (expand bound cs) := by
  cases cs with
  | nil =>
    rw [Expression.expand]
    exact h
  | cons c rest =>
    have hc := h c rfl
    have hstarts : ¬startsName c = true := by
      intro hstarts
      simp only [startsName, continuesName, Bool.or_eq_true, Bool.or_eq_false_iff, Char.isAlphanum]
        at hstarts hc
      rcases hstarts with halpha | hunderscore
      · simp [halpha] at hc
      · simp [hunderscore] at hc
    rw [Expression.expand, if_neg hstarts]
    rintro d ⟨⟩
    exact hc

end Expand

/-! ## Replacing in trees -/

section Substitute

variable (forms : String → Option Flow)

/-- The tokens with every name that has a form replaced by the form in parentheses. -/
def expandTokens : List Token → List Token
  | [] => []
  | .name text :: rest =>
    (match forms text with
      | some tree => .leftParen :: (tree.tokens ++ [.rightParen])
      | none => [.name text]) ++ expandTokens rest
  | token :: rest => token :: expandTokens rest

mutual

/-- The tree with every name that has a form replaced by the form in brackets. -/
def Grammar.Flow.substitute : Flow → Flow
  | .mk first later => .mk first.substitute (substituteSteps later)

def substituteSteps : List Conditional → List Conditional
  | [] => []
  | step :: rest => step.substitute :: substituteSteps rest

def Grammar.Conditional.substitute : Conditional → Conditional
  | .plain term => .plain term.substitute
  | .choice condition whenTrue whenFalse =>
    .choice condition.substitute whenTrue.substitute whenFalse.substitute

def Grammar.Term.substitute : Term → Term
  | .name text =>
    match forms text with
    | some tree => .brackets tree
    | none => .name text
  | .brackets inner => .brackets inner.substitute
  | .group first second later =>
    .group first.substitute second.substitute (substituteBranches later)

def substituteBranches : List Flow → List Flow
  | [] => []
  | branch :: rest => branch.substitute :: substituteBranches rest

end

end Substitute

section Substitute

variable {forms : String → Option Flow}

theorem expandTokens_append (ts us : List Token) :
    expandTokens forms (ts ++ us) = expandTokens forms ts ++ expandTokens forms us := by
  induction ts with
  | nil => rfl
  | cons token rest ih => cases token <;> simp [expandTokens, ih]

theorem expandTokens_mark {spelling : List Char} {token : Token} (h : (spelling, token) ∈ marks)
    (rest : List Token) : expandTokens forms (token :: rest) = token :: expandTokens forms rest := by
  cases token with
  | name text => simp [marks] at h
  | _ => rfl

mutual

/-- The sentence of the tree with forms is the sentence with forms. -/
theorem Grammar.Flow.tokens_substitute :
    ∀ tree : Flow, (tree.substitute forms).tokens = expandTokens forms tree.tokens
  | .mk first later => by
    rw [Flow.substitute, Flow.tokens, Flow.tokens, expandTokens_append, first.tokens_substitute,
      tokens_substituteSteps later]

theorem tokens_substituteSteps :
    ∀ trees, stepTokens (substituteSteps forms trees) = expandTokens forms (stepTokens trees)
  | [] => rfl
  | step :: rest => by
    rw [substituteSteps, stepTokens, stepTokens, expandTokens, expandTokens_append,
      step.tokens_substitute, tokens_substituteSteps rest]
    all_goals simp

theorem Grammar.Conditional.tokens_substitute :
    ∀ tree : Conditional, (tree.substitute forms).tokens = expandTokens forms tree.tokens
  | .plain term => term.tokens_substitute
  | .choice condition whenTrue whenFalse => by
    simp only [Conditional.substitute, Conditional.tokens, expandTokens_append, expandTokens,
      condition.tokens_substitute, whenTrue.tokens_substitute, whenFalse.tokens_substitute]

theorem Grammar.Term.tokens_substitute :
    ∀ tree : Term, (tree.substitute forms).tokens = expandTokens forms tree.tokens
  | .name text => by
    rw [Term.substitute, Term.tokens, expandTokens, expandTokens]
    cases forms text <;> simp [Term.tokens]
  | .brackets inner => by
    simp only [Term.substitute, Term.tokens, expandTokens_append, expandTokens,
      inner.tokens_substitute]
  | .group first second later => by
    simp only [Term.substitute, Term.tokens, expandTokens_append, expandTokens,
      first.tokens_substitute, second.tokens_substitute, tokens_substituteBranches later]

theorem tokens_substituteBranches :
    ∀ trees, branchTokens (substituteBranches forms trees) = expandTokens forms (branchTokens trees)
  | [] => rfl
  | branch :: rest => by
    simp only [substituteBranches, branchTokens, expandTokens_append, expandTokens,
      branch.tokens_substitute, tokens_substituteBranches rest]

end

end Substitute

/-- The form of a bound name is a tree of the display of its node, and other names have none. -/
def Spells (forms : String → Option Flow) (bound : String → Option Node) : Prop :=
  ∀ name, Option.Rel
    (fun tree node => tree.node .unit = node ∧ Splits node.display.toList tree.tokens)
    (forms name) (bound name)

theorem exists_spells {bound : String → Option Node} (h : BindsNormal bound) :
    ∃ forms, Spells forms bound := by
  have hform : ∀ name, ∃ form, Option.Rel
      (fun (tree : Flow) node => tree.node .unit = node ∧ Splits node.display.toList tree.tokens)
      form (bound name) := by
    intro name
    cases hbound : bound name with
    | none => exact ⟨none, .none⟩
    | some node =>
      obtain ⟨tree, hnode, hsplit⟩ := (written_of_isNormal (h name node hbound)).flow
      exact ⟨some tree, .some ⟨hnode, hsplit⟩⟩
  exact ⟨fun name => (hform name).choose, fun name => (hform name).choose_spec⟩

section Spells

variable {forms : String → Option Flow} {bound : String → Option Node}

/-- The expanded text splits into the expanded tokens. -/
theorem Splits.expand (h : Spells forms bound) {cs : List Char} {tokens : List Token}
    (hsplit : Splits cs tokens) : Splits (expand bound cs) (expandTokens forms tokens) := by
  induction hsplit with
  | nil =>
    rw [Expression.expand]
    exact .nil
  | @gap c rest tokens hgap _ ih =>
    have hc : ¬startsName c = true := by simp [not_startsName_of_isGap hgap]
    rw [Expression.expand, if_neg hc]
    exact .gap hgap ih
  | mark hmark _ ih =>
    rw [expand_append_of_not_startsName (not_startsName_of_mark hmark), expandTokens_mark hmark]
    exact .mark hmark ih
  | @name text rest tokens hname hends _ ih =>
    rw [expand_name hname hends, expandTokens]
    -- what follows a name does not begin with one, so its expansion begins with the same character
    have hseam : EndsName (Expression.expand bound rest) := hends.expand
    cases hbound : bound text with
    | none =>
      have hform : forms text = none := by
        have := h text
        rw [hbound] at this
        cases hf : forms text with
        | none => rfl
        | some tree => rw [hf] at this; cases this
      rw [hform]
      exact .name hname hseam ih
    | some node =>
      obtain ⟨tree, hform, -, hdisplay⟩ : ∃ tree, forms text = some tree ∧ tree.node .unit = node ∧
          Splits node.display.toList tree.tokens := by
        have := h text
        rw [hbound] at this
        cases hf : forms text with
        | none => rw [hf] at this; cases this
        | some tree => rw [hf] at this; cases this with | some h => exact ⟨tree, rfl, h⟩
      rw [hform]
      exact hdisplay.parenthesized.append ih hseam

mutual

/-- With forms in place of the bound names, a tree means without bindings what it meant with them. -/
theorem Grammar.Flow.node_substitute (h : Spells forms bound) :
    ∀ tree : Flow, (tree.substitute forms).node .unit = tree.node (standsFor bound)
  | .mk first later => by
    rw [Flow.substitute, Flow.node, Flow.node, first.node_substitute h, stepNodes_substitute h later]

theorem stepNodes_substitute (h : Spells forms bound) :
    ∀ trees, stepNodes .unit (substituteSteps forms trees) = stepNodes (standsFor bound) trees
  | [] => rfl
  | step :: rest => by
    rw [substituteSteps, stepNodes, stepNodes, step.node_substitute h, stepNodes_substitute h rest]

theorem Grammar.Conditional.node_substitute (h : Spells forms bound) :
    ∀ tree : Conditional, (tree.substitute forms).node .unit = tree.node (standsFor bound)
  | .plain term => term.node_substitute h
  | .choice condition whenTrue whenFalse => by
    rw [Conditional.substitute, Conditional.node, Conditional.node, condition.node_substitute h,
      whenTrue.node_substitute h, whenFalse.node_substitute h]

theorem Grammar.Term.node_substitute (h : Spells forms bound) :
    ∀ tree : Term, (tree.substitute forms).node .unit = tree.node (standsFor bound)
  | .name text => by
    have hform := h text
    rw [Term.substitute, Term.node, standsFor]
    cases hbound : bound text <;> cases hf : forms text <;> rw [hbound, hf] at hform
    · rfl
    · cases hform
    · cases hform
    · cases hform with | some h => exact h.1
  | .brackets inner => inner.node_substitute h
  | .group first second later => by
    rw [Term.substitute, Term.node, Term.node, first.node_substitute h, second.node_substitute h,
      branchNodes_substitute h later]

theorem branchNodes_substitute (h : Spells forms bound) :
    ∀ trees, branchNodes .unit (substituteBranches forms trees) = branchNodes (standsFor bound) trees
  | [] => rfl
  | branch :: rest => by
    rw [substituteBranches, branchNodes, branchNodes, branch.node_substitute h,
      branchNodes_substitute h rest]

end

end Spells

/-- The text of a flow, expanded, is read as what the flow means with the bindings. -/
theorem parse_expand {bound : String → Option Node} (hbound : BindsNormal bound) {text : List Char}
    {tree : Flow} (hsplit : Splits text tree.tokens) :
    parse (String.ofList (expand bound text)) = .ok (tree.node (standsFor bound)) := by
  obtain ⟨forms, hforms⟩ := exists_spells hbound
  have hexpanded : Splits (expand bound text) (tree.substitute forms).tokens := by
    rw [tree.tokens_substitute]
    exact hsplit.expand hforms
  refine @parse_of_program _ _ ⟨.bare (tree.substitute forms), [], false⟩ ?_ ?_
  · simpa [Program.tokens, Statement.tokens, laterTokens, semicolonTokens] using hexpanded
  · rw [← tree.node_substitute hforms]
    rfl

/-! ## The last bare flow of a text -/

/-- A text that splits into two lists of tokens can be cut between them. -/
theorem Splits.cut {cs : List Char} {ts us : List Token} (h : Splits cs (ts ++ us)) :
    ∃ ds es, cs = ds ++ es ∧ Splits ds ts ∧ Splits es us := by
  generalize htokens : ts ++ us = tokens at h
  induction h generalizing ts with
  | nil =>
    obtain ⟨rfl, rfl⟩ := List.append_eq_nil_iff.mp htokens
    exact ⟨[], [], rfl, .nil, .nil⟩
  | gap hgap _ ih =>
    obtain ⟨ds, es, rfl, hds, hes⟩ := ih htokens
    exact ⟨_ :: ds, es, rfl, .gap hgap hds, hes⟩
  | mark hmark hrest ih =>
    cases ts with
    | nil =>
      obtain rfl : us = _ := htokens
      exact ⟨[], _, rfl, .nil, .mark hmark hrest⟩
    | cons token ts =>
      obtain ⟨rfl, hmore⟩ := List.cons_eq_cons.mp htokens
      obtain ⟨ds, es, rfl, hds, hes⟩ := ih hmore
      exact ⟨_ ++ ds, es, (List.append_assoc ..).symm, .mark hmark hds, hes⟩
  | name hname hends hrest ih =>
    cases ts with
    | nil =>
      obtain rfl : us = _ := htokens
      exact ⟨[], _, rfl, .nil, .name hname hends hrest⟩
    | cons token ts =>
      obtain ⟨rfl, hmore⟩ := List.cons_eq_cons.mp htokens
      obtain ⟨ds, es, rfl, hds, hes⟩ := ih hmore
      exact ⟨_ ++ ds, es, (List.append_assoc ..).symm, .name hname hends.of_append hds, hes⟩

/-- The statements of a program, each with whether a semicolon precedes it. -/
def Grammar.Program.entries (p : Program) : List (Bool × Statement) := (false, p.first) :: p.later

theorem Grammar.Program.tokens_eq (p : Program) :
    p.tokens = laterTokens p.entries ++ semicolonTokens p.closed := by
  simp [Program.tokens, Program.entries, laterTokens, semicolonTokens]

/-- A cut of a text around the last bare flow of a program that it splits into: the tokens of the
statements before the flow stand before `text`, and after it those of the statements after the flow,
which are all assignments. -/
structure LastFlow (input : String) where
  program : Program
  splits : Splits input.toList program.tokens
  earlier : List (Bool × Statement)
  separated : Bool
  flow : Flow
  later : List (Bool × Statement)
  entries_eq : program.entries = earlier ++ (separated, .bare flow) :: later
  assigns : ∀ entry ∈ later, entry.2.target.isSome
  before : List Char
  text : List Char
  after : List Char
  input_eq : input.toList = before ++ (text ++ after)
  splits_before : Splits before (laterTokens earlier ++ semicolonTokens separated)
  splits_text : Splits text flow.tokens
  splits_after : Splits after (laterTokens later ++ semicolonTokens program.closed)

namespace LastFlow

variable {input : String} (l : LastFlow input)

/-- The statements before the last bare flow. -/
def statements : List Statement := l.earlier.map Prod.snd

/-- What names are bound to where the last bare flow begins. -/
def bound : String → Option Node := bindings (fun _ => none) l.statements

/-- The last bare flow alone, with its bound names replaced. -/
def expanded : String := String.ofList (expand l.bound l.text)

theorem meaning_eq : l.program.meaning = some (l.flow.node (standsFor l.bound)) := by
  have hstatements : l.program.statements =
      l.statements ++ .bare l.flow :: l.later.map Prod.snd := by
    have := congrArg (List.map Prod.snd) l.entries_eq
    rw [List.map_append, List.map_cons] at this
    exact this
  have hlater : ∀ s ∈ l.later.map Prod.snd, s.target.isSome := by
    intro s hs
    obtain ⟨entry, hentry, rfl⟩ := List.mem_map.mp hs
    exact l.assigns entry hentry
  rw [Program.meaning, hstatements, ← standsFor_none, meaningFrom_append, meaningFrom,
    meaningFrom_of_assigns _ _ hlater]
  rfl

theorem bindsNormal : BindsNormal l.bound := by
  have hproper : ProperNames (laterTokens l.earlier) :=
    (properNames_append.mp (properNames_of_splits l.splits_before)).1
  exact BindsNormal.bindings (by simp [BindsNormal]) (properNames_of_laterTokens hproper)

end LastFlow

/-- A program that means anything has a last bare flow. -/
theorem exists_last_bare (entries : List (Bool × Statement)) :
    (∀ entry ∈ entries, entry.2.target.isSome) ∨
      ∃ earlier separated flow later, entries = earlier ++ (separated, .bare flow) :: later ∧
        ∀ entry ∈ later, entry.2.target.isSome := by
  induction entries with
  | nil => exact .inl (by simp)
  | cons entry rest ih =>
    rcases ih with hassigns | ⟨earlier, separated, flow, later, rfl, hlater⟩
    · obtain ⟨separated, s⟩ := entry
      cases s with
      | bare flow => exact .inr ⟨[], separated, flow, rest, rfl, hassigns⟩
      | assign name body =>
        exact .inl (List.forall_mem_cons.mpr ⟨rfl, hassigns⟩)
    · exact .inr ⟨entry :: earlier, separated, flow, later, rfl, hlater⟩

theorem nonempty_lastFlow {input : String} {p : Program} {node : Node}
    (hsplits : Splits input.toList p.tokens) (hmeaning : p.meaning = some node) :
    Nonempty (LastFlow input) := by
  rcases exists_last_bare p.entries with hassigns | ⟨earlier, separated, flow, later, hentries, hlater⟩
  · -- assignments alone mean nothing
    have hnone : p.meaning = none := by
      refine meaningFrom_of_assigns _ _ fun s hs => ?_
      rcases List.mem_cons.mp hs with rfl | hs
      · exact hassigns _ List.mem_cons_self
      · obtain ⟨entry, hentry, rfl⟩ := List.mem_map.mp hs
        exact hassigns entry (List.mem_cons_of_mem _ hentry)
    rw [hnone] at hmeaning
    cases hmeaning
  · have htokens : p.tokens = (laterTokens earlier ++ semicolonTokens separated) ++
        (flow.tokens ++ (laterTokens later ++ semicolonTokens p.closed)) := by
      rw [p.tokens_eq, hentries, laterTokens_append, laterTokens, Statement.tokens]
      simp only [List.append_assoc]
    have hwhole := hsplits
    rw [htokens] at hwhole
    obtain ⟨before, rest, hinput, hbefore, hrest⟩ := hwhole.cut
    obtain ⟨text, after, rfl, htext, hafter⟩ := hrest.cut
    exact ⟨⟨p, hsplits, earlier, separated, flow, later, hentries, hlater, before, text, after,
      hinput, hbefore, htext, hafter⟩⟩

/-- Aliases are textual substitution. A text is read exactly when it has a last bare flow, and however
it is cut around it, the flow alone is read as the same node once its bound names are replaced. A name
is bound to what the last assignment before the flow gave it, resolved where that assignment stands,
and names without one are not bound. -/
theorem parse_expanded (input : String) :
    ((∃ node, parse input = .ok node) ↔ Nonempty (LastFlow input)) ∧
      ∀ l : LastFlow input, parse l.expanded = parse input ∧
        (∀ name, (∀ s ∈ l.statements, s.target ≠ some name) → l.bound name = none) ∧
        ∀ name earlier body later, l.statements = earlier ++ .assign name body :: later →
          (∀ s ∈ later, s.target ≠ some name) →
            l.bound name = some (body.node (standsFor (bindings (fun _ => none) earlier))) := by
  have hread : ∀ l : LastFlow input, parse input = .ok (l.flow.node (standsFor l.bound)) :=
    fun l => parse_of_program l.splits l.meaning_eq
  refine ⟨⟨?_, fun ⟨l⟩ => ⟨_, hread l⟩⟩, fun l => ⟨?_, ?_, ?_⟩⟩
  · rintro ⟨node, hnode⟩
    obtain ⟨p, hsplits, hmeaning⟩ := program_of_parse hnode
    exact nonempty_lastFlow hsplits hmeaning
  · rw [hread l]
    exact parse_expand l.bindsNormal l.splits_text
  · intro name hname
    exact bindings_of_not_target _ hname
  · intro name earlier body later hstatements hlater
    rw [LastFlow.bound, hstatements]
    exact bindings_of_assign _ earlier body hlater

/-- An alias that is redefined by itself, used before and after, and one that is assigned only after the
flow. -/
theorem parse_expanded_redefined :
    let input := "a = x; b = (a, c); a = a -> b; a ? c : b; c = z"
    (∃ l : LastFlow input, l.expanded = "(x -> (x, c)) ? c : ((x, c))" ∧
      parse l.expanded = parse input) ∧
      parse input = .ok (.conditional (.sequence [.unit "x", .parallel [.unit "x", .unit "c"]])
        (.unit "c") (.parallel [.unit "x", .unit "c"])) := by
  intro input
  have hparse : parse input = .ok (.conditional
      (.sequence [.unit "x", .parallel [.unit "x", .unit "c"]]) (.unit "c")
      (.parallel [.unit "x", .unit "c"])) := by decide +kernel
  let named (text : String) : Flow := .mk (.plain (.name text)) []
  let earlier : List (Bool × Statement) :=
    [(false, .assign "a" (named "x")),
      (true, .assign "b" (.mk (.plain (.group (named "a") (named "c") [])) [])),
      (true, .assign "a" (.mk (.plain (.name "a")) [.plain (.name "b")]))]
  let flow : Flow := .mk (.choice (.name "a") (.plain (.name "c")) (.plain (.name "b"))) []
  let later : List (Bool × Statement) := [(true, .assign "c" (named "z"))]
  let l : LastFlow input :=
    { program := ⟨.assign "a" (named "x"), earlier.tail ++ (true, .bare flow) :: later, false⟩
      splits := (splits_iff_lex 0).mpr ⟨by decide +kernel, fun c => Program.stray_not_mem c _⟩
      earlier := earlier
      separated := true
      flow := flow
      later := later
      entries_eq := rfl
      assigns := by simp [later, Statement.target]
      before := "a = x; b = (a, c); a = a -> b; ".toList
      text := "a ? c : b".toList
      after := "; c = z".toList
      input_eq := by decide +kernel
      splits_before := (splits_iff_lex 0).mpr ⟨by decide +kernel, fun c => by
        simp [stray_not_mem_laterTokens, stray_not_mem_semicolonTokens]⟩
      splits_text := (splits_iff_lex 0).mpr ⟨by decide +kernel, fun c => flow.stray_not_mem c⟩
      splits_after := (splits_iff_lex 0).mpr ⟨by decide +kernel, fun c => by
        simp [stray_not_mem_laterTokens, stray_not_mem_semicolonTokens]⟩ }
  refine ⟨⟨l, by decide +kernel, ((parse_expanded input).2 l).1⟩, hparse⟩

end Workflow.Expression
