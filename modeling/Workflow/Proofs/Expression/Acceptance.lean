import Mathlib.Data.List.TakeWhile
import Workflow.Proofs.Expression.Reading
import Workflow.Proofs.Expression.Splitting

/-!
# What `parse` accepts

From flows (`Expression.Reading`) to whole texts. `Outline.after` is what a statement does to the
outline of the statements before it; the reader of statements and `Grammar.meaningFrom` both follow
it. The statement `parse_eq_ok_iff` puts everything together: `parse` answers a node exactly when
the text splits into the tokens of a program that means this node.
-/

namespace Workflow.Expression

open Grammar (Statement laterTokens semicolonTokens meaningFrom)
open Reading

/-! ## Statements -/

namespace Outline

/-- The outline after one more statement. -/
def after (o : Outline) : Statement → Outline
  | .assign name body => { o with aliases := o.aliases.insert name (body.node o.resolve) }
  | .bare flow => { o with root := some (flow.node o.resolve) }

theorem resolve_after_assign (o : Outline) (name : String) (body : Grammar.Flow) :
    (o.after (.assign name body)).resolve =
      Grammar.assigned o.resolve name (body.node o.resolve) := by
  funext other
  simp only [resolve, after, Grammar.assigned, Table.get?_insert]
  by_cases h : name = other
  · simp [h]
  · simp [h, Ne.symm h]

/-- The root of an outline is the meaning of the statements that made it. -/
theorem root_foldl_after (statements : List Statement) (o : Outline) :
    (statements.foldl after o).root = meaningFrom o.resolve o.root statements := by
  induction statements generalizing o with
  | nil => rfl
  | cons statement rest ih =>
    rw [List.foldl_cons, ih]
    cases statement with
    | assign name body => rw [resolve_after_assign]; rfl
    | bare flow => rfl

end Outline

/-- A flow that begins with a name does not go on with an equals sign. -/
theorem flowTokens_cases (tree : Grammar.Flow) :
    (∃ more, tree.tokens = .leftParen :: more) ∨
      ∃ text more, tree.tokens = .name text :: more ∧ ∀ others, more ≠ .equals :: others := by
  have hsteps : ∀ trees others, Grammar.stepTokens trees ≠ .equals :: others := by
    intro trees others
    cases trees <;> simp [Grammar.stepTokens]
  obtain ⟨first, later⟩ := tree
  cases first with
  | plain term =>
    cases term with
    | name text =>
      exact .inr ⟨text, _, rfl, hsteps later⟩
    | brackets inner => exact .inl ⟨_, rfl⟩
    | group branch second others => exact .inl ⟨_, rfl⟩
  | choice condition whenTrue whenFalse =>
    cases condition with
    | name text =>
      exact .inr ⟨text, _, rfl, by simp⟩
    | brackets inner => exact .inl ⟨_, rfl⟩
    | group branch second others => exact .inl ⟨_, rfl⟩

/-- A statement begins with a name or a parenthesis. -/
theorem statementTokens_cases (s : Statement) :
    (∃ more, s.tokens = .leftParen :: more) ∨ ∃ text more, s.tokens = .name text :: more := by
  cases s with
  | assign name body => exact .inr ⟨name, _, rfl⟩
  | bare flow =>
    rcases flowTokens_cases flow with h | ⟨text, more, h, _⟩
    · exact .inl h
    · exact .inr ⟨text, more, h⟩

theorem statementTokens_pos (s : Statement) : 0 < s.tokens.length := by
  rcases statementTokens_cases s with ⟨more, h⟩ | ⟨text, more, h⟩ <;> simp [h]

section Statements

variable {stop : Nat} {outline outline' : Outline} {lexemes rest : List Lexeme}
  {furthest : Furthest}

theorem takes_of_found_statement
    (h : (statement stop outline lexemes furthest).found = some (outline', rest)) :
    ∃ s : Statement, outline.after s = outline' ∧ Takes s.tokens lexemes rest := by
  rcases found_orElse_eq_some.mp h with h | ⟨-, h⟩
  · rw [found_construct] at h
    obtain ⟨bound, afterName, hname, h⟩ := found_andThen_eq_some.mp h
    obtain ⟨⟨⟩, afterEquals, hequals, h⟩ := found_andThen_eq_some.mp h
    obtain ⟨node, hflow, rfl⟩ := found_map_eq_some.mp h
    obtain ⟨tree, rfl, htree⟩ := (sound stop outline.resolve _).flow hflow
    obtain ⟨lexeme, rfl, htoken⟩ := found_name_eq_some.mp hname
    have hall := ((takes_of_found_mark hequals).append htree).cons lexeme
    rw [htoken] at hall
    exact ⟨.assign bound tree, rfl, hall⟩
  · obtain ⟨node, hflow, rfl⟩ := found_map_eq_some.mp h
    obtain ⟨tree, rfl, htree⟩ := (sound stop outline.resolve _).flow hflow
    exact ⟨.bare tree, rfl, htree⟩

/-- Enough fuel for all the lexemes is enough for some of them. -/
theorem fuelFor_enough {tokens : List Token} {before : List Lexeme}
    (h : tokens.length ≤ before.length) : 4 * tokens.length + 2 ≤ fuelFor before := by
  unfold fuelFor
  omega

theorem found_statement {s : Statement} (h : Takes s.tokens lexemes rest)
    (harrow : NotNext .arrow rest) (hquestion : NotNext .question rest)
    (hequals : NotNext .equals rest) (furthest : Furthest) :
    (statement stop outline lexemes furthest).found = some (outline.after s, rest) := by
  have hlength := h.length_le
  cases s with
  | assign bound body =>
    simp only [Statement.tokens, List.length_cons] at h hlength
    obtain ⟨lexeme, afterName, rfl, hname, h⟩ := h.uncons
    obtain ⟨equals, afterEquals, rfl, heq, h⟩ := h.uncons
    apply found_orElse_of_some
    rw [found_construct, found_andThen_of_some (found_name_eq_some.mpr ⟨lexeme, rfl, hname⟩),
      found_andThen_of_some (found_mark_of_token heq _ _)]
    exact found_map_of_some
      ((complete stop _ _).flow h harrow hquestion (fuelFor_enough (by omega)) _)
  | bare tree =>
    simp only [Statement.tokens] at h hlength
    -- the attempt to read an assignment fails at the name or at the equals sign
    refine (found_orElse_of_none ?_).trans (found_map_of_some
      ((complete stop _ _).flow h harrow hquestion (fuelFor_enough hlength) _))
    rw [found_construct]
    rcases flowTokens_cases tree with ⟨more, htokens⟩ | ⟨text, more, htokens, hmore⟩
    · rw [htokens] at h
      have hnoName : ∀ text, NotNext (.name text) lexemes := fun text =>
        notNext_of_takes h (by simp)
      exact found_andThen_of_none (found_name_eq_none hnoName _)
    · rw [htokens] at h
      obtain ⟨lexeme, afterName, rfl, hname, h⟩ := h.uncons
      have hnoEquals : NotNext .equals afterName := by
        cases more with
        | nil => rw [h.nil_eq]; exact hequals
        | cons token others =>
          exact notNext_of_takes h fun heq => hmore others (by rw [heq])
      rw [found_andThen_of_some (found_name_eq_some.mpr ⟨lexeme, rfl, hname⟩)]
      exact found_andThen_of_none (found_mark_of_notNext hnoEquals _)

/-- There is no statement where neither a name nor a parenthesis stands. -/
theorem found_statement_eq_none (hname : ∀ text, NotNext (.name text) lexemes)
    (hparen : NotNext .leftParen lexemes) :
    (statement stop outline lexemes furthest).found = none := by
  rcases hfound : (statement stop outline lexemes furthest).found with _ | ⟨outline', rest⟩
  · rfl
  · obtain ⟨s, _, h⟩ := takes_of_found_statement hfound
    rcases statementTokens_cases s with ⟨more, htokens⟩ | ⟨text, more, htokens⟩ <;>
      rw [htokens] at h <;> obtain ⟨lexeme, middle, rfl, htoken, _⟩ := h.uncons
    · exact absurd htoken (hparen lexeme rfl)
    · exact absurd htoken (hname text lexeme rfl)

end Statements

/-! ## Programs -/

section Programs

variable {stop : Nat} {lexemes rest : List Lexeme} {furthest : Furthest}

theorem takes_skipSemicolon (lexemes : List Lexeme) :
    ∃ separated, Takes (semicolonTokens separated) lexemes (skipSemicolon lexemes) := by
  unfold skipSemicolon
  split
  · next offset rest => exact ⟨true, (Takes.nil rest).cons ⟨.semicolon, offset⟩⟩
  · exact ⟨false, .nil lexemes⟩

theorem skipSemicolon_of_takes {separated : Bool} {tokens : List Token}
    (h : Takes (semicolonTokens separated ++ tokens) lexemes rest)
    (hnext : ∀ lexeme middle, separated = false → lexemes = lexeme :: middle →
      lexeme.token ≠ .semicolon) :
    Takes tokens (skipSemicolon lexemes) rest := by
  cases separated with
  | true =>
    obtain ⟨⟨token, offset⟩, middle, rfl, htoken, hrest⟩ := h.uncons
    simp only at htoken
    subst htoken
    exact hrest
  | false =>
    have hsame : skipSemicolon lexemes = lexemes := by
      unfold skipSemicolon
      split
      · next offset middle => exact absurd rfl (hnext _ middle rfl rfl)
      · rfl
    rw [hsame]
    exact h

theorem takes_of_found_laterStatements (rounds : Nat) {outline outline' : Outline}
    (h : (laterStatements stop rounds outline lexemes furthest).found = some (outline', rest)) :
    ∃ later, (later.map Prod.snd).foldl Outline.after outline = outline' ∧
      Takes (laterTokens later) lexemes rest := by
  induction rounds generalizing outline lexemes furthest with
  | zero =>
    simp only [laterStatements, found_pure, Option.some.injEq, Prod.mk.injEq] at h
    obtain ⟨rfl, rfl⟩ := h
    exact ⟨[], rfl, .nil _⟩
  | succ rounds ih =>
    rw [laterStatements] at h
    split at h
    · next next middle hfound =>
      obtain ⟨s, rfl, hs⟩ := takes_of_found_statement hfound
      obtain ⟨later, rfl, hlater⟩ := ih h
      obtain ⟨separated, hsep⟩ := takes_skipSemicolon lexemes
      exact ⟨(separated, s) :: later, rfl, hsep.append (hs.append hlater)⟩
    · simp only [found_pure, Option.some.injEq, Prod.mk.injEq] at h
      obtain ⟨rfl, rfl⟩ := h
      exact ⟨[], rfl, .nil _⟩

/-- After a statement comes a semicolon, another statement or the end of the text. -/
theorem notNext_of_takes_laterTokens {later : List (Bool × Statement)} {closed : Bool}
    (h : Takes (laterTokens later ++ semicolonTokens closed) lexemes []) :
    NotNext .arrow lexemes ∧ NotNext .question lexemes ∧ NotNext .equals lexemes := by
  match later, closed with
  | [], false =>
    rw [h.nil_eq]
    exact ⟨notNext_nil _, notNext_nil _, notNext_nil _⟩
  | [], true =>
    exact ⟨notNext_of_takes h (by simp), notNext_of_takes h (by simp),
      notNext_of_takes h (by simp)⟩
  | (true, s) :: later, _ =>
    exact ⟨notNext_of_takes h (by simp), notNext_of_takes h (by simp),
      notNext_of_takes h (by simp)⟩
  | (false, s) :: later, _ =>
    rw [laterTokens] at h
    rcases statementTokens_cases s with ⟨more, htokens⟩ | ⟨text, more, htokens⟩ <;>
      rw [htokens] at h <;>
      exact ⟨notNext_of_takes h (by simp), notNext_of_takes h (by simp),
        notNext_of_takes h (by simp)⟩

theorem found_laterStatements {later : List (Bool × Statement)} {closed : Bool} (rounds : Nat)
    (outline : Outline) (hrounds : lexemes.length ≤ rounds)
    (h : Takes (laterTokens later ++ semicolonTokens closed) lexemes []) (furthest : Furthest) :
    ∃ rest, (laterStatements stop rounds outline lexemes furthest).found =
        some ((later.map Prod.snd).foldl Outline.after outline, rest) ∧
      Takes (semicolonTokens closed) rest [] := by
  induction later generalizing rounds outline lexemes furthest with
  | nil =>
    refine ⟨lexemes, ?_, h⟩
    -- no statement begins at the end of the text
    have hend : skipSemicolon lexemes = [] := by
      have hskip : Takes [] (skipSemicolon lexemes) [] := by
        have hclosed : Takes (semicolonTokens closed ++ []) lexemes [] := by
          simpa [laterTokens] using h
        refine skipSemicolon_of_takes hclosed ?_
        rintro lexeme middle rfl rfl
        exact absurd h.nil_eq (by simp)
      exact hskip.nil_eq
    cases rounds with
    | zero => rfl
    | succ rounds =>
      rw [laterStatements, hend,
        found_statement_eq_none (fun _ => notNext_nil _) (notNext_nil _)]
      rfl
  | cons entry later ih =>
    obtain ⟨separated, s⟩ := entry
    simp only [laterTokens, List.append_assoc] at h
    have hpos := statementTokens_pos s
    have hlength := h.length_le
    simp only [List.length_append] at hlength
    -- no statement begins with a semicolon, so one that is skipped stood between the two
    have hskip : Takes (s.tokens ++ (laterTokens later ++ semicolonTokens closed))
        (skipSemicolon lexemes) [] := by
      refine skipSemicolon_of_takes h ?_
      rintro lexeme middle rfl rfl hsemicolon
      rcases statementTokens_cases s with ⟨more, htokens⟩ | ⟨text, more, htokens⟩ <;>
        rw [htokens] at h <;>
        exact notNext_of_takes h (by simp) lexeme rfl hsemicolon
    obtain ⟨middle, hs, hlater⟩ := hskip.split
    obtain ⟨harrow, hquestion, hequals⟩ := notNext_of_takes_laterTokens hlater
    obtain ⟨used, hused, hmap⟩ := hs
    -- the statement takes a lexeme, so one round less is enough for the others
    have hmiddle : middle.length < lexemes.length := by
      have hle : (skipSemicolon lexemes).length ≤ lexemes.length := by
        obtain ⟨_, used', heq, _⟩ := takes_skipSemicolon lexemes
        have := congrArg List.length heq
        simp only [List.length_append] at this
        omega
      have hused' := congrArg List.length hused
      have hmap' := congrArg List.length hmap
      simp only [List.length_append, List.length_map] at hused' hmap'
      omega
    obtain ⟨fewer, rfl⟩ : ∃ fewer, rounds = fewer + 1 := ⟨rounds - 1, by omega⟩
    obtain ⟨rest, hfound, hrest⟩ := ih fewer (outline.after s) (by omega) hlater
      (statement stop outline (skipSemicolon lexemes) furthest).furthest
    refine ⟨rest, ?_, hrest⟩
    rw [laterStatements, found_statement ⟨used, hused, hmap⟩ harrow hquestion hequals]
    exact hfound

theorem found_endOfInput_eq_some :
    (endOfInput stop lexemes furthest).found = some ((), rest) ↔ lexemes = [] ∧ rest = [] := by
  rw [endOfInput, found_construct]
  cases lexemes <;> simp [eq_comm]

/-- A program that was read is the sentence of a derivation tree. -/
theorem takes_of_found_program {outline : Outline}
    (h : (program stop lexemes).found = some (outline, rest)) :
    ∃ p : Grammar.Program, p.meaning = outline.root ∧ lexemes.map Lexeme.token = p.tokens := by
  rw [program, found_construct] at h
  obtain ⟨outline1, middle1, hfirst, h⟩ := found_andThen_eq_some.mp h
  obtain ⟨outline2, middle2, hlater, h⟩ := found_andThen_eq_some.mp h
  obtain ⟨⟨⟩, hend, rfl⟩ := found_map_eq_some.mp h
  obtain ⟨first, rfl, htakesFirst⟩ := takes_of_found_statement hfirst
  obtain ⟨later, rfl, htakesLater⟩ := takes_of_found_laterStatements _ hlater
  obtain ⟨closed, hclosed⟩ := takes_skipSemicolon middle2
  rw [(found_endOfInput_eq_some.mp hend).1] at hclosed
  obtain ⟨used, hused, htokens⟩ := htakesFirst.append (htakesLater.append hclosed)
  refine ⟨⟨first, later, closed⟩, ?_, ?_⟩
  · exact (Outline.root_foldl_after (first :: later.map Prod.snd) {}).symm
  · rw [hused, List.append_nil, htokens]
    rfl

/-- The sentence of a derivation tree is read as a program. -/
theorem found_program {p : Grammar.Program} (stop : Nat) (h : lexemes.map Lexeme.token = p.tokens) :
    ∃ outline rest, (program stop lexemes).found = some (outline, rest) ∧
      outline.root = p.meaning := by
  have htakes : Takes p.tokens lexemes [] := ⟨lexemes, by simp, h⟩
  obtain ⟨middle, hfirst, hlater⟩ := htakes.split
  obtain ⟨harrow, hquestion, hequals⟩ := notNext_of_takes_laterTokens hlater
  have hstatement := @found_statement stop {} _ _ _ hfirst harrow hquestion hequals
  refine ⟨(p.later.map Prod.snd).foldl Outline.after (Outline.after {} p.first), [], ?_, ?_⟩
  · rw [program, found_construct, found_andThen_of_some (hstatement _)]
    obtain ⟨rest, hfound, hclosed⟩ :=
      found_laterStatements middle.length (Outline.after {} p.first) (Nat.le_refl _) hlater
        (statement stop {} lexemes {}).furthest
    rw [found_andThen_of_some hfound]
    have hskip : Takes [] (skipSemicolon rest) [] := by
      refine skipSemicolon_of_takes (by simpa using hclosed) ?_
      rintro lexeme after hno rfl
      rw [hno] at hclosed
      exact absurd hclosed.nil_eq (by simp)
    exact found_map_of_some (found_endOfInput_eq_some.mpr ⟨hskip.nil_eq, rfl⟩)
  · exact Outline.root_foldl_after p.statements {}

end Programs

/-! ## Texts -/

/-- A character that begins a name or a mark is not blank. -/
theorem exists_not_blank_of_splits {cs : List Char} {tokens : List Token} (h : Splits cs tokens)
    (hne : tokens ≠ []) : ∃ c ∈ cs, Text.isBlank c = false := by
  induction h with
  | nil => exact absurd rfl hne
  | gap _ _ ih =>
    obtain ⟨c, hc, hblank⟩ := ih hne
    exact ⟨c, by simp [hc], hblank⟩
  | @mark spelling token rest tokens hmark _ _ =>
    simp only [marks, List.mem_cons, Prod.mk.injEq, List.not_mem_nil, or_false] at hmark
    rcases hmark with ⟨rfl, _⟩ | ⟨rfl, _⟩ | ⟨rfl, _⟩ | ⟨rfl, _⟩ | ⟨rfl, _⟩ | ⟨rfl, _⟩ |
      ⟨rfl, _⟩ | ⟨rfl, _⟩ <;>
      exact ⟨_, List.mem_append_left _ List.mem_cons_self, by decide⟩
  | @name text rest tokens hname _ _ _ =>
    obtain ⟨first, word, htext, hfirst, _⟩ := hname
    refine ⟨first, by simp [htext], ?_⟩
    -- letters and the underscore lie between `A` and `z`
    have hbound : 65 ≤ first.toNat ∧ first.toNat ≤ 122 := by
      change ((decide ('A'.val ≤ first.val ∧ first.val ≤ 'Z'.val) ||
        (decide ('a'.val ≤ first.val) && decide (first.val ≤ 'z'.val))) || first == '_') = true
        at hfirst
      simp only [Bool.or_eq_true, Bool.and_eq_true, decide_eq_true_eq, beq_iff_eq,
        UInt32.le_iff_toNat_le] at hfirst
      rcases hfirst with (⟨h1, h2⟩ | ⟨h1, h2⟩) | rfl
      · exact ⟨h1, Nat.le_trans h2 (by decide)⟩
      · exact ⟨Nat.le_trans (by decide) h1, h2⟩
      · decide
    simp only [Text.isBlank, Bool.or_eq_false_iff, Bool.and_eq_false_iff, decide_eq_false_iff_not,
      beq_eq_false_iff_ne, ne_eq]
    omega

theorem trimmed_ne_nil {input : String} {c : Char} (hmem : c ∈ input.toList)
    (hblank : Text.isBlank c = false) : Text.trimmed input ≠ [] := by
  intro hnil
  rw [Text.trimmed, List.reverse_eq_nil_iff, List.dropWhile_eq_nil_iff] at hnil
  rcases hkept : input.toList.dropWhile Text.isBlank with _ | ⟨first, rest⟩
  · rw [List.dropWhile_eq_nil_iff] at hkept
    simp [hkept c hmem] at hblank
  · have hfirst := List.head?_dropWhile_not Text.isBlank input.toList
    rw [hkept] at hfirst hnil
    have := hnil first (by simp)
    simp [this] at hfirst

theorem program_of_parse {input : String} {node : Node} (h : parse input = .ok node) :
    ∃ p : Grammar.Program, Splits input.toList p.tokens ∧ p.meaning = some node := by
  unfold parse at h
  split at h
  · cases h
  · rcases hfound : (program (byteLength input.toList) (lex 0 input.toList)).found with
      _ | ⟨outline, rest⟩
    · simp [hfound] at h
    · simp only [hfound] at h
      obtain ⟨p, hmeaning, htokens⟩ := takes_of_found_program hfound
      -- without a bare flow the text is refused
      rcases hroot : outline.root with _ | root
      · simp [hroot] at h
      · simp only [hroot, Except.ok.injEq] at h
        refine ⟨p, ?_, by rw [hmeaning, hroot, h]⟩
        exact (splits_iff_lex 0).mpr ⟨htokens, fun c => p.stray_not_mem c⟩

theorem parse_of_program {input : String} {node : Node} {p : Grammar.Program}
    (hsplit : Splits input.toList p.tokens) (hmeaning : p.meaning = some node) :
    parse input = .ok node := by
  obtain ⟨outline, rest, hfound, hroot⟩ :=
    found_program (byteLength input.toList) (lex_of_splits hsplit 0)
  have hne : p.tokens ≠ [] := by
    have := statementTokens_pos p.first
    apply List.ne_nil_of_length_pos
    simp only [Grammar.Program.tokens, List.length_append]
    omega
  obtain ⟨c, hmem, hblank⟩ := exists_not_blank_of_splits hsplit hne
  unfold parse
  rw [if_neg (trimmed_ne_nil hmem hblank)]
  simp [hfound, hroot, hmeaning]

/-- `parse` answers a node exactly when the text splits into the tokens of a program whose last bare
flow means that node. -/
theorem parse_eq_ok_iff (input : String) (node : Node) :
    parse input = .ok node ↔
      ∃ p : Grammar.Program, Splits input.toList p.tokens ∧ p.meaning = some node := by
  constructor
  · exact program_of_parse
  · rintro ⟨p, hsplit, hmeaning⟩
    exact parse_of_program hsplit hmeaning

end Workflow.Expression
