import Workflow.Proofs.Expression.Places

/-!
# Refused texts

A refused text is reported with a place in it. The place is an offset in bytes, and what the report says
about lines and columns is counted in characters. Both come from one cut of the text
(`Refusal.IsAt`): the lexemes before the place are the tokens of the characters before it
(`splits_before`).

Up to the place nothing is wrong yet. The characters before it can be continued to a text that is read
(`exists_parse_of_begins`), because their tokens can be the beginning of a program and every token can
be spelled.
-/

namespace Workflow.Expression

open Grammar (Program laterTokens semicolonTokens)

/-! ## Cutting a text at a place -/

theorem byteLength_append (cs ds : List Char) :
    byteLength (cs ++ ds) = byteLength cs + byteLength ds := by
  induction cs with
  | nil => simp [byteLength]
  | cons c rest ih => rw [List.cons_append, byteLength, byteLength, ih, Nat.add_assoc]

theorem byteLength_eq_utf8ByteSize (cs : List Char) : byteLength cs = (String.ofList cs).utf8ByteSize := by
  induction cs with
  | nil => rfl
  | cons c rest ih =>
    rw [byteLength, ih]
    simp

theorem EndsName.of_append {cs ds : List Char} (h : EndsName (cs ++ ds)) : EndsName cs := by
  intro c hc
  refine h c ?_
  rw [List.head?_append, hc, Option.some_or]

/-- The lexemes before a place are the tokens of the characters before it, unless they are stray. -/
theorem splits_before (offset : Nat) (cs : List Char) {used rest : List Lexeme}
    (h : lex offset cs = used ++ rest) (hused : ∀ c, .stray c ∉ used.map Lexeme.token) :
    ∃ before after, cs = before ++ after ∧ Splits before (used.map Lexeme.token) ∧
      nextOffset (offset + byteLength cs) rest = offset + byteLength before := by
  -- in front of the first lexeme the place is the beginning of the text
  have hnone : ∀ {offset stop : Nat} {cs : List Char} {t : Token} {used more : List Lexeme},
      ⟨t, offset⟩ :: more = used ++ rest → used = [] → ∃ before after, cs = before ++ after ∧
        Splits before (used.map Lexeme.token) ∧ nextOffset stop rest = offset + byteLength before := by
    rintro offset stop cs t _ more h rfl
    rw [List.nil_append] at h
    exact ⟨[], cs, rfl, .nil, by rw [← h]; rfl⟩
  fun_induction lex offset cs generalizing used with
  | case1 =>
    obtain ⟨rfl, rfl⟩ := List.append_eq_nil_iff.mp h.symm
    exact ⟨[], [], rfl, .nil, rfl⟩
  | case2 offset cs ih =>
    rcases List.cons_eq_append_iff.mp h with ⟨hnil, -⟩ | ⟨used, rfl, hmore⟩
    · exact hnone h hnil
    obtain ⟨before, after, rfl, hsplits, hoffset⟩ := ih hmore fun d hd => hused d (by simp [hd])
    have hmark : (['-', '>'], Token.arrow) ∈ marks := by simp [marks]
    have htwo : ∀ cs, offset + byteLength ('-' :: '>' :: cs) = offset + 2 + byteLength cs := fun cs => by
      rw [Nat.add_assoc]
      exact congrArg (offset + ·) (Nat.add_assoc 1 1 (byteLength cs)).symm
    exact ⟨'-' :: '>' :: before, after, rfl, .mark hmark hsplits, by rw [htwo, htwo, hoffset]⟩
  | case3 offset c cs _ hgap ih =>
    obtain ⟨before, after, rfl, hsplits, hoffset⟩ := ih h hused
    refine ⟨c :: before, after, rfl, .gap hgap hsplits, ?_⟩
    rw [byteLength, byteLength, ← Nat.add_assoc, ← Nat.add_assoc, hoffset]
  | case4 offset c cs _ _ hstart word =>
    rename_i ih
    rcases List.cons_eq_append_iff.mp h with ⟨hnil, -⟩ | ⟨used, rfl, hmore⟩
    · exact hnone h hnil
    obtain ⟨before, after, hrest, hsplits, hoffset⟩ := ih hmore fun d hd => hused d (by simp [hd])
    have hends : EndsName before := .of_append (hrest ▸ endsName_dropWhile cs)
    have hsplit := Splits.name (isName_cons_takeWhile hstart cs) hends hsplits
    rw [String.toList_ofList] at hsplit
    have hword : c :: cs = word ++ cs.dropWhile continuesName := by
      rw [List.cons_append, List.takeWhile_append_dropWhile]
    refine ⟨word ++ before, after, ?_, hsplit, ?_⟩
    · rw [hword, hrest, List.append_assoc]
    · rw [hword, byteLength_append, byteLength_append, ← Nat.add_assoc, ← Nat.add_assoc, hoffset]
  | case5 offset c cs _ _ _ ih =>
    rcases List.cons_eq_append_iff.mp h with ⟨hnil, -⟩ | ⟨used, rfl, hmore⟩
    · exact hnone h hnil
    obtain ⟨before, after, rfl, hsplits, hoffset⟩ := ih hmore fun d hd => hused d (by simp [hd])
    have hmark := (markOf_cases c).resolve_right fun hstray => hused c (by simp [hstray])
    refine ⟨c :: before, after, rfl, .mark hmark hsplits, ?_⟩
    rw [byteLength, byteLength, ← Nat.add_assoc, ← Nat.add_assoc, hoffset]

/-! ## Spelling tokens -/

theorem exists_mark {token : Token} (hname : ∀ text, token ≠ .name text) (hstray : ∀ c, token ≠ .stray c) :
    ∃ spelling, (spelling, token) ∈ marks := by
  cases token with
  | name text => exact absurd rfl (hname text)
  | stray c => exact absurd rfl (hstray c)
  | arrow => exact ⟨['-', '>'], by simp [marks]⟩
  | question => exact ⟨['?'], by simp [marks]⟩
  | colon => exact ⟨[':'], by simp [marks]⟩
  | comma => exact ⟨[','], by simp [marks]⟩
  | equals => exact ⟨['='], by simp [marks]⟩
  | semicolon => exact ⟨[';'], by simp [marks]⟩
  | leftParen => exact ⟨['('], by simp [marks]⟩
  | rightParen => exact ⟨[')'], by simp [marks]⟩

/-- Every list of tokens with proper names is what some text splits into. -/
theorem exists_splits {tokens : List Token} (hnames : ProperNames tokens)
    (hstray : ∀ c, .stray c ∉ tokens) : ∃ cs, Splits cs tokens := by
  induction tokens with
  | nil => exact ⟨[], .nil⟩
  | cons token rest ih =>
    obtain ⟨htoken, hrest⟩ := properNames_cons.mp hnames
    obtain ⟨cs, hcs⟩ := ih hrest fun c hc => hstray c (List.mem_cons_of_mem _ hc)
    by_cases hname : ∃ text, token = .name text
    · obtain ⟨text, rfl⟩ := hname
      -- a blank keeps the name apart from what follows
      exact ⟨text.toList ++ ' ' :: cs, .name (htoken text rfl) (endsName_blank cs) (.gap rfl hcs)⟩
    · obtain ⟨spelling, hmark⟩ := exists_mark (fun text heq => hname ⟨text, heq⟩)
        fun c heq => hstray c (heq ▸ List.mem_cons_self)
      exact ⟨spelling ++ cs, .mark hmark hcs⟩

/-! ## What can follow -/

/-- A program with one more flow behind it, which is then what the program means. -/
def Grammar.Program.andThen (p : Program) (flow : Grammar.Flow) : Program where
  first := p.first
  later := p.later ++ [(p.closed, .bare flow)]
  closed := false

theorem laterTokens_append (ps qs : List (Bool × Grammar.Statement)) :
    laterTokens (ps ++ qs) = laterTokens ps ++ laterTokens qs := by
  induction ps with
  | nil => rfl
  | cons p rest ih =>
    obtain ⟨separated, statement⟩ := p
    simp only [List.cons_append, laterTokens, ih, List.append_assoc]

theorem tokens_andThen (p : Program) (flow : Grammar.Flow) :
    (p.andThen flow).tokens = p.tokens ++ flow.tokens := by
  simp [Program.tokens, Program.andThen, laterTokens_append, laterTokens, semicolonTokens,
    Grammar.Statement.tokens]

theorem exists_meaning_andThen (p : Program) (flow : Grammar.Flow) :
    ∃ node, (p.andThen flow).meaning = some node := by
  suffices hfrom : ∀ (statements : List Grammar.Statement) (resolve : String → Node) (last : Option Node),
      ∃ node, Grammar.meaningFrom resolve last (statements ++ [.bare flow]) = some node by
    obtain ⟨node, hnode⟩ := hfrom p.statements .unit none
    refine ⟨node, ?_⟩
    rw [← hnode]
    simp [Program.meaning, Program.statements, Program.andThen]
  intro statements
  induction statements with
  | nil => exact fun resolve last => ⟨flow.node resolve, rfl⟩
  | cons statement rest ih =>
    intro resolve last
    cases statement with
    | assign name body => exact ih _ _
    | bare inner => exact ih _ _

/-- A text whose tokens can be the beginning of a program can be continued to one that is read. -/
theorem exists_parse_of_begins {before : List Char} {tokens : List Token} (hsplits : Splits before tokens)
    (hbegins : Begins tokens) : ∃ more node, parse (String.ofList (before ++ more)) = .ok node := by
  obtain ⟨p, rest, htokens, hrest⟩ := hbegins
  have hwhole : (p.andThen someFlow).tokens = tokens ++ (rest ++ [.name someName]) := by
    rw [tokens_andThen, htokens, List.append_assoc]
    rfl
  obtain ⟨node, hnode⟩ := exists_meaning_andThen p someFlow
  obtain ⟨cs, hcs⟩ := exists_splits (properNames_append.mpr ⟨hrest, properNames_someName⟩)
    fun c hc => (p.andThen someFlow).stray_not_mem c (by
      rw [hwhole]
      exact List.mem_append_right _ hc)
  have hgap : Splits (' ' :: cs) (rest ++ [.name someName]) := .gap rfl hcs
  refine ⟨' ' :: cs, node, parse_of_program (p := p.andThen someFlow) ?_ hnode⟩
  rw [String.toList_ofList, hwhole]
  exact hsplits.append hgap (endsName_blank cs)

/-! ## What a report says -/

/-- A text stands somewhere in another. -/
def Names (part whole : String) : Prop := ∃ front back, whole = front ++ part ++ back

theorem Names.self (part : String) : Names part part := ⟨"", "", by simp⟩

theorem Names.append_left {part whole : String} (h : Names part whole) (front : String) :
    Names part (front ++ whole) := by
  obtain ⟨start, back, rfl⟩ := h
  exact ⟨front ++ start, back, by simp only [String.append_assoc]⟩

theorem Names.append_right {part whole : String} (h : Names part whole) (back : String) :
    Names part (whole ++ back) := by
  obtain ⟨front, rest, rfl⟩ := h
  exact ⟨front, rest ++ back, by simp only [String.append_assoc]⟩

theorem names_intercalate {part : String} {parts : List String} (separator : String) (h : part ∈ parts) :
    Names part (separator.intercalate parts) := by
  induction parts with
  | nil => cases h
  | cons head rest ih =>
    cases rest with
    | nil =>
      rw [String.intercalate_singleton, List.mem_singleton.mp h]
      exact .self head
    | cons next rest =>
      rw [String.intercalate_cons_cons]
      rcases List.mem_cons.mp h with rfl | hmem
      · exact ((Names.self part).append_right separator).append_right _
      · exact (ih hmem).append_left _

theorem names_alternatives {part : String} {parts : List String} (h : part ∈ parts) :
    Names part (alternatives parts) := by
  unfold alternatives
  split
  · cases h
  · rw [List.mem_singleton.mp h]
    exact .self _
  · rcases List.mem_cons.mp h with rfl | hmem
    · exact ((Names.self part).append_right _).append_right _
    · rw [List.mem_singleton.mp hmem]
      exact (Names.self _).append_left _
  · have hne : parts ≠ [] := List.ne_nil_of_mem h
    rw [← List.dropLast_concat_getLast hne] at h
    rcases List.mem_append.mp h with hmem | hmem
    · exact ((names_intercalate ", " hmem).append_right _).append_right _
    · rw [List.mem_singleton.mp hmem, List.getLastD_eq_getLast?, List.getLast?_eq_some_getLast hne]
      exact (Names.self _).append_left _

theorem Construct.mem_all (c : Construct) : c ∈ Construct.all := by
  cases c <;> decide

/-- A report of what was expected names each of the constructs. -/
theorem Fault.names_message {c : Construct} {constructs : List Construct} (h : c ∈ constructs) :
    Names c.display (Fault.message (.expected constructs)) := by
  have hmem : c.display ∈ (Construct.all.filter (constructs.contains ·)).map Construct.display :=
    List.mem_map_of_mem (List.mem_filter.mpr ⟨c.mem_all, by simpa using h⟩)
  exact (names_alternatives hmem).append_left _

/-! ## Places in texts -/

/-- A report is about the place between two parts of its text: `before` takes as many bytes as its
position says, its line is counted in line feeds, and its column in characters from the last of them. -/
structure Refusal.IsAt (e : Refusal) (before after : List Char) : Prop where
  text : e.input.toList = before ++ after
  offset : e.position = (String.ofList before).utf8ByteSize
  line : e.line = 1 + before.count '\n'
  column : ∃ lines line, before = lines ++ line ∧ '\n' ∉ line ∧
    (∀ c, lines.getLast? = some c → c = '\n') ∧ e.column = 1 + line.length

namespace Refusal

theorem charsBefore_append (before after : List Char) :
    charsBefore (byteLength before) (before ++ after) = before := by
  induction before with
  | nil => cases after <;> rfl
  | cons c rest ih =>
    have hpos : c.utf8Size + byteLength rest ≠ 0 := by
      have := c.utf8Size_pos
      omega
    rw [List.cons_append, byteLength, charsBefore, if_neg hpos, Nat.add_sub_cancel_left, ih]

/-- Where a text is cut in characters, a report can be about that place. -/
theorem isAt_of_split {e : Refusal} {before after : List Char} (htext : e.input.toList = before ++ after)
    (hoffset : e.position = byteLength before) : e.IsAt before after := by
  have hbefore : e.before = before := by
    rw [Refusal.before, htext, hoffset, charsBefore_append]
  refine ⟨htext, hoffset.trans (byteLength_eq_utf8ByteSize before), by rw [line, hbefore], ?_⟩
  have hsplit := List.takeWhile_append_dropWhile (p := (· ≠ '\n')) (l := before.reverse)
  refine ⟨(before.reverse.dropWhile (· ≠ '\n')).reverse, (before.reverse.takeWhile (· ≠ '\n')).reverse,
    ?_, ?_, ?_, ?_⟩
  · rw [← List.reverse_append, hsplit, List.reverse_reverse]
  · intro hmem
    have hall := List.all_eq_true.mp (List.all_takeWhile (p := (· ≠ '\n')) (l := before.reverse)) '\n'
      (List.mem_reverse.mp hmem)
    simp at hall
  · intro c hc
    rw [List.getLast?_reverse] at hc
    have hhead := List.head?_dropWhile_not (· ≠ '\n') before.reverse
    rw [hc] at hhead
    simpa using hhead
  · rw [column, hbefore, List.length_reverse]

end Refusal

theorem Refusal.IsAt.position_le {e : Refusal} {before after : List Char} (h : e.IsAt before after) :
    e.position ≤ e.input.utf8ByteSize := by
  have hinput : e.input = String.ofList before ++ String.ofList after := by
    rw [← String.ofList_append, ← h.text, String.ofList_toList]
  rw [h.offset, hinput, String.utf8ByteSize_append]
  omega

/-- The place of a true report is a cut of the text, and what is before it can be continued. -/
theorem exists_split_of_isPlace {cs : List Char} {position : Nat}
    (h : IsPlace (byteLength cs) (lex 0 cs) position) :
    ∃ before after tokens, cs = before ++ after ∧ position = byteLength before ∧
      Splits before tokens ∧ Begins tokens := by
  rcases h with rfl | ⟨tokens, rest, ⟨used, hused, rfl⟩, hbegins, rfl⟩
  · have hnil : Begins [] := .of_append (begins_program ⟨.bare someFlow, [], false⟩) properNames_someName
    exact ⟨[], cs, [], rfl, rfl, .nil, hnil⟩
  · have hstray : ∀ c, .stray c ∉ used.map Lexeme.token := fun c hc => by
      obtain ⟨p, more, htokens, -⟩ := hbegins
      exact p.stray_not_mem c (htokens ▸ List.mem_append_left _ hc)
    obtain ⟨before, after, hcs, hsplits, hoffset⟩ := splits_before 0 cs hused hstray
    rw [Nat.zero_add, Nat.zero_add] at hoffset
    exact ⟨before, after, _, hcs, hoffset, hsplits, hbegins⟩

/-- Where a text is refused: at its beginning, at its end behind a program without a flow, or at the place
of a true report, with something that is wanted there. -/
theorem refusal_cases {input : String} {e : Refusal} (h : parse input = .error e) :
    e.input = input ∧ IsPlace (byteLength input.toList) (lex 0 input.toList) e.position ∧
      (e.fault = .empty ∨ e.fault = .noFlow ∨
        ∃ constructs, e.fault = .expected constructs ∧ constructs ≠ []) := by
  unfold parse at h
  split at h
  · cases h
    exact ⟨rfl, .inl rfl, .inl rfl⟩
  simp only at h
  obtain ⟨hreal, hwanted⟩ := real_program (byteLength input.toList) (lex 0 input.toList)
  split at h
  · next hnone =>
    cases h
    refine ⟨rfl, hreal.place, .inr (.inr ⟨_, rfl, fun hnil => hwanted hnone ?_⟩)⟩
    rwa [Array.toList_eq_nil_iff] at hnil
  · next outline rest hfound =>
    split at h
    · cases h
    · cases h
      obtain ⟨p, -, htokens⟩ := takes_of_found_program hfound
      exact ⟨rfl, .inr ⟨p.tokens, [], ⟨_, (List.append_nil _).symm, htokens⟩, begins_program p, rfl⟩,
        .inr (.inl rfl)⟩

/-- Whatever text is refused, the report holds the text as it is and is about a place in it. What stands
before the place can be continued to a text that is read, and the report either is one of the two for
texts without a flow or names something that was expected. -/
theorem parse_refuses_at_place {input : String} {e : Refusal} (h : parse input = .error e) :
    e.input = input ∧ e.position ≤ input.utf8ByteSize ∧
      (∃ before after, e.IsAt before after ∧
        ∃ more node, parse (String.ofList (before ++ more)) = .ok node) ∧
      (e.fault.message = "empty flow expression" ∨
        e.fault.message = "expression defines aliases but no flow to execute" ∨
        ∃ constructs, e.fault = .expected constructs ∧ constructs ≠ [] ∧
          ∀ c ∈ constructs, Names c.display e.fault.message) := by
  obtain ⟨rfl, hplace, hfault⟩ := refusal_cases h
  obtain ⟨before, after, tokens, htext, hoffset, hsplits, hbegins⟩ := exists_split_of_isPlace hplace
  have hat := Refusal.isAt_of_split htext hoffset
  refine ⟨rfl, hat.position_le, ⟨before, after, hat, exists_parse_of_begins hsplits hbegins⟩, ?_⟩
  rcases hfault with heq | heq | ⟨constructs, heq, hne⟩
  · exact .inl (congrArg Fault.message heq)
  · exact .inr (.inl (congrArg Fault.message heq))
  · refine .inr (.inr ⟨constructs, heq, hne, fun c hc => ?_⟩)
    rw [heq]
    exact Fault.names_message hc

/-- The second branch of a group begins with a letter that no name has. -/
theorem parse_refuses_at_place_branch :
    let e : Refusal := ⟨"(a,\n\té)", 5, .expected [.conditional]⟩
    parse "(a,\n\té)" = .error e ∧ e.line = 2 ∧ e.column = 2 ∧
      e.input = "(a,\n\té)" ∧ e.position ≤ "(a,\n\té)".utf8ByteSize ∧
      (∃ before after, e.IsAt before after ∧
        ∃ more node, parse (String.ofList (before ++ more)) = .ok node) ∧
      Names "conditional" e.fault.message := by
  intro e
  have hparse : parse "(a,\n\té)" = .error e := by decide +kernel
  obtain ⟨hinput, hposition, hplace, -⟩ := parse_refuses_at_place hparse
  exact ⟨hparse, by decide +kernel, by decide +kernel, hinput, hposition, hplace,
    Fault.names_message List.mem_cons_self⟩

end Workflow.Expression
