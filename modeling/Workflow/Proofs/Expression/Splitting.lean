import Workflow.Proofs.Node.Normal

/-!
# Splitting a text into tokens

`Splits cs tokens` says, without an algorithm, that the characters `cs` are the tokens written one
after another with nothing but gaps between them, each name as long as it can be. Among the marks
there is no choice, since none is the beginning of another.

* `Splits.append` glues two split texts together, unless a name could run over the seam.
* `splits_iff_lex` ties the relation to `lex`: a text splits into tokens exactly when these are what
  `lex` answers and none of them is stray.
-/

namespace Workflow.Expression

/-- The marks of the language and how they are written. -/
def marks : List (List Char × Token) :=
  [(['-', '>'], .arrow), (['?'], .question), ([':'], .colon), ([','], .comma), (['='], .equals),
    ([';'], .semicolon), (['('], .leftParen), ([')'], .rightParen)]

/-- Whether a name ends before these characters. -/
def EndsName (cs : List Char) : Prop := ∀ c, cs.head? = some c → continuesName c = false

/-- The characters are the tokens, with gaps before, between and after them. -/
inductive Splits : List Char → List Token → Prop where
  | nil : Splits [] []
  | gap {c : Char} {rest : List Char} {tokens : List Token} (hgap : isGap c = true)
      (hrest : Splits rest tokens) : Splits (c :: rest) tokens
  | mark {spelling : List Char} {token : Token} {rest : List Char} {tokens : List Token}
      (hmark : (spelling, token) ∈ marks) (hrest : Splits rest tokens) :
      Splits (spelling ++ rest) (token :: tokens)
  | name {text : String} {rest : List Char} {tokens : List Token} (hname : IsName text)
      (hends : EndsName rest) (hrest : Splits rest tokens) :
      Splits (text.toList ++ rest) (.name text :: tokens)

/-! ## Gluing -/

theorem EndsName.append {cs ds : List Char} (hcs : EndsName cs) (hds : EndsName ds) :
    EndsName (cs ++ ds) := by
  intro c hc
  cases cs with
  | nil => exact hds c hc
  | cons d rest => exact hcs c hc

theorem Splits.append {cs ds : List Char} {ts us : List Token} (hcs : Splits cs ts)
    (hds : Splits ds us) (hseam : EndsName ds) : Splits (cs ++ ds) (ts ++ us) := by
  induction hcs with
  | nil => exact hds
  | gap hgap _ ih => exact .gap hgap ih
  | mark hmark _ ih =>
    rw [List.append_assoc]
    exact .mark hmark ih
  | name hname hends _ ih =>
    rw [List.append_assoc]
    exact .name hname (hends.append hseam) ih

theorem Splits.ofName {text : String} (h : IsName text) : Splits text.toList [.name text] := by
  have hsplit : Splits (text.toList ++ []) [.name text] := .name h (by intro c hc; simp at hc) .nil
  rwa [List.append_nil] at hsplit

/-! ## Names from both sides -/

/-- A name, cut off where the characters of names end, is the whole name. -/
theorem takeWhile_continuesName {word rest : List Char}
    (hword : ∀ c ∈ word, continuesName c = true) (hends : EndsName rest) :
    (word ++ rest).takeWhile continuesName = word := by
  rw [List.takeWhile_append_of_pos hword]
  cases rest with
  | nil => simp
  | cons c rest => simp [hends c rfl]

theorem dropWhile_continuesName {word rest : List Char}
    (hword : ∀ c ∈ word, continuesName c = true) (hends : EndsName rest) :
    (word ++ rest).dropWhile continuesName = rest := by
  rw [List.dropWhile_append_of_pos hword]
  cases rest with
  | nil => simp
  | cons c rest => simp [hends c rfl]

theorem endsName_dropWhile (cs : List Char) : EndsName (cs.dropWhile continuesName) := by
  intro c hc
  have h := List.head?_dropWhile_not continuesName cs
  rw [hc] at h
  simpa using h

theorem isName_cons_takeWhile {c : Char} (h : startsName c = true) (rest : List Char) :
    IsName (String.ofList (c :: rest.takeWhile continuesName)) := by
  refine ⟨c, rest.takeWhile continuesName, String.toList_ofList, h, ?_⟩
  intro d hd
  exact List.all_eq_true.mp List.all_takeWhile d hd

/-! ## What `lex` does with the beginning of a text -/

/-- A character that begins a name is no gap and begins no mark. -/
theorem not_isGap_of_startsName {c : Char} (h : startsName c = true) :
    isGap c = false ∧ c ≠ '-' := by
  constructor
  · rw [Bool.eq_false_iff]
    intro hgap
    simp only [isGap, Bool.or_eq_true, beq_iff_eq] at hgap
    rcases hgap with ((rfl | rfl) | rfl) | rfl <;> exact absurd h (by decide)
  · rintro rfl
    exact absurd h (by decide)

theorem lex_gap {c : Char} (h : isGap c = true) (offset : Nat) (rest : List Char) :
    lex offset (c :: rest) = lex (offset + c.utf8Size) rest := by
  have hne : c ≠ '-' := by
    rintro rfl
    exact absurd h (by decide)
  rw [lex.eq_3 _ _ _ (by intro _ hc; exact absurd hc hne), if_pos h]

theorem lex_name {c : Char} (h : startsName c = true) (offset : Nat) (rest : List Char) :
    lex offset (c :: rest) =
      ⟨.name (String.ofList (c :: rest.takeWhile continuesName)), offset⟩ ::
        lex (offset + byteLength (c :: rest.takeWhile continuesName))
          (rest.dropWhile continuesName) := by
  obtain ⟨hgap, hne⟩ := not_isGap_of_startsName h
  rw [lex.eq_3 _ _ _ (by intro _ hc; exact absurd hc hne), if_neg (by simp [hgap]), if_pos h]

theorem lex_mark {spelling : List Char} {token : Token} (h : (spelling, token) ∈ marks)
    (offset : Nat) (rest : List Char) :
    ∃ next, lex offset (spelling ++ rest) = ⟨token, offset⟩ :: lex next rest := by
  simp only [marks, List.mem_cons, Prod.mk.injEq, List.not_mem_nil, or_false] at h
  rcases h with ⟨rfl, rfl⟩ | ⟨rfl, rfl⟩ | ⟨rfl, rfl⟩ | ⟨rfl, rfl⟩ | ⟨rfl, rfl⟩ | ⟨rfl, rfl⟩ |
    ⟨rfl, rfl⟩ | ⟨rfl, rfl⟩
  -- the arrow is the only mark of two characters
  · exact ⟨offset + 2, by rw [List.cons_append, List.cons_append, lex]; rfl⟩
  all_goals
    refine ⟨offset + 1, ?_⟩
    rw [List.cons_append, lex.eq_3 _ _ _ (by intro _ hc; exact absurd hc (by decide)),
      if_neg (by decide), if_neg (by decide)]
    rfl

/-- A character that is no gap and begins no name is a mark of its own or stray. -/
theorem markOf_cases (c : Char) : ([c], markOf c) ∈ marks ∨ markOf c = .stray c := by
  unfold markOf
  split
  all_goals first | exact .inr rfl | exact .inl (by simp [marks])

/-! ## The relation and the algorithm -/

theorem lex_of_splits {cs : List Char} {tokens : List Token} (h : Splits cs tokens) :
    ∀ offset, (lex offset cs).map Lexeme.token = tokens := by
  induction h with
  | nil => intro offset; simp [lex]
  | gap hgap _ ih => intro offset; rw [lex_gap hgap]; exact ih _
  | mark hmark _ ih =>
    rename_i rest _ _
    intro offset
    obtain ⟨next, hnext⟩ := lex_mark hmark offset rest
    rw [hnext, List.map_cons, ih]
  | @name text rest tokens hname hends _ ih =>
    intro offset
    obtain ⟨first, word, htext, hfirst, hword⟩ := hname
    -- behind the word no name goes on, so `lex` takes just the word
    rw [htext, List.cons_append, lex_name hfirst, takeWhile_continuesName hword hends,
      dropWhile_continuesName hword hends, List.map_cons, ih, ← htext, String.ofList_toList]

theorem not_stray_of_splits {cs : List Char} {tokens : List Token} (h : Splits cs tokens) :
    ∀ c, .stray c ∉ tokens := by
  induction h with
  | nil => simp
  | gap _ _ ih => exact ih
  | mark hmark _ ih =>
    intro c hc
    rcases List.mem_cons.mp hc with heq | hmem
    · simp [marks, ← heq] at hmark
    · exact ih c hmem
  | name _ _ _ ih =>
    intro c hc
    rcases List.mem_cons.mp hc with heq | hmem
    · simp at heq
    · exact ih c hmem

theorem splits_of_lex (offset : Nat) (cs : List Char)
    (h : ∀ c, .stray c ∉ (lex offset cs).map Lexeme.token) :
    Splits cs ((lex offset cs).map Lexeme.token) := by
  fun_induction lex offset cs with
  | case1 => exact .nil
  | case2 offset rest ih =>
    have hrest := ih fun c hc => h c (by simp [hc])
    have hmark : (['-', '>'], Token.arrow) ∈ marks := by simp [marks]
    exact .mark hmark hrest
  | case3 offset c rest _ hgap ih => exact .gap hgap (ih h)
  | case4 offset c rest _ _ hstart word ih =>
    have hrest := ih fun d hd => h d (by simp [hd])
    -- the longest name is taken, so a name ends behind it
    have hsplit := Splits.name (isName_cons_takeWhile hstart rest) (endsName_dropWhile rest) hrest
    rw [String.toList_ofList, List.cons_append, List.takeWhile_append_dropWhile] at hsplit
    exact hsplit
  | case5 offset c rest _ _ _ ih =>
    have hrest := ih fun d hd => h d (by simp [hd])
    rcases markOf_cases c with hmark | hstray
    · exact .mark hmark hrest
    · exact absurd (by simp [hstray]) (h c)

/-- A text splits into tokens exactly when these are what `lex` answers and none is stray. -/
theorem splits_iff_lex {cs : List Char} {tokens : List Token} (offset : Nat) :
    Splits cs tokens ↔
      (lex offset cs).map Lexeme.token = tokens ∧ ∀ c, .stray c ∉ tokens := by
  constructor
  · intro h
    exact ⟨lex_of_splits h offset, not_stray_of_splits h⟩
  · rintro ⟨rfl, h⟩
    exact splits_of_lex offset cs h

end Workflow.Expression
