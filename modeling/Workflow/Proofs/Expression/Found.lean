import Workflow.Expression.Parser

/-!
# What a reading function finds

Rules for computing `Reading.found`, the part of a reading that matters: one for each way of putting
readings together, and one for each of the smallest readings. The report of failures
(`Reading.furthest`) is never looked at, so everything said here holds for every report handed in.

`Takes tokens before after` is the view of lexemes that the proofs use: from `before` to `after`
stand exactly these tokens. `NotNext token lexemes` says that a token is not the next one.
-/

namespace Workflow.Expression

/-! ## What is found -/

namespace Reading

variable {α β : Type}

@[simp] theorem found_fail (furthest : Furthest) : (fail furthest : Reading α).found = none := rfl

@[simp] theorem found_pure (value : α) (rest : List Lexeme) (furthest : Furthest) :
    (pure value rest furthest).found = some (value, rest) := rfl

theorem found_andThen_eq_some {r : Reading α} {next : α → List Lexeme → Furthest → Reading β}
    {result : β × List Lexeme} :
    (r.andThen next).found = some result ↔
      ∃ value rest, r.found = some (value, rest) ∧
        (next value rest r.furthest).found = some result := by
  unfold andThen
  rcases h : r.found with _ | ⟨value, rest⟩
  · simp
  · constructor
    · intro hnext
      exact ⟨value, rest, rfl, hnext⟩
    · rintro ⟨_, _, heq, hnext⟩
      cases heq
      exact hnext

theorem found_andThen_of_some {r : Reading α} {next : α → List Lexeme → Furthest → Reading β}
    {value : α} {rest : List Lexeme} (h : r.found = some (value, rest)) :
    (r.andThen next).found = (next value rest r.furthest).found := by
  unfold andThen
  rw [h]

theorem found_andThen_of_none {r : Reading α} {next : α → List Lexeme → Furthest → Reading β}
    (h : r.found = none) : (r.andThen next).found = none := by
  unfold andThen
  rw [h]
  rfl

theorem found_orElse_eq_some {r : Reading α} {other : Furthest → Reading α}
    {result : α × List Lexeme} :
    (r.orElse other).found = some result ↔
      r.found = some result ∨ r.found = none ∧ (other r.furthest).found = some result := by
  unfold orElse
  rcases h : r.found with _ | found <;> simp [h]

theorem found_orElse_of_some {r : Reading α} {other : Furthest → Reading α}
    {result : α × List Lexeme} (h : r.found = some result) :
    (r.orElse other).found = some result :=
  found_orElse_eq_some.mpr (.inl h)

theorem found_orElse_of_none {r : Reading α} {other : Furthest → Reading α}
    (h : r.found = none) : (r.orElse other).found = (other r.furthest).found := by
  unfold orElse
  rw [h]

theorem found_map_eq_some {f : α → β} {r : Reading α} {value : β} {rest : List Lexeme} :
    (r.map f).found = some (value, rest) ↔
      ∃ inner, r.found = some (inner, rest) ∧ f inner = value := by
  unfold map
  rcases h : r.found with _ | ⟨inner, rest'⟩
  · simp
  · simp only [Option.map_some, Option.some.injEq, Prod.mk.injEq]
    constructor
    · rintro ⟨rfl, rfl⟩
      exact ⟨inner, ⟨rfl, rfl⟩, rfl⟩
    · rintro ⟨_, ⟨rfl, rfl⟩, rfl⟩
      exact ⟨rfl, rfl⟩

theorem found_map_of_some {f : α → β} {r : Reading α} {value : α} {rest : List Lexeme}
    (h : r.found = some (value, rest)) : (r.map f).found = some (f value, rest) :=
  found_map_eq_some.mpr ⟨value, h, rfl⟩

theorem found_map_of_none {f : α → β} {r : Reading α} (h : r.found = none) :
    (r.map f).found = none := by
  unfold map
  rw [h]
  rfl

end Reading

open Reading

@[simp] theorem found_construct {α : Type} (which : Construct) (position : Nat)
    (furthest : Furthest) (body : Furthest → Reading α) :
    (construct which position furthest body).found = (body furthest).found := by
  unfold construct
  rcases h : (body furthest).found with _ | result
  · rw [found_orElse_of_none h]
    rfl
  · exact found_orElse_of_some h

/-! ## Taking lexemes -/

/-- Between `before` and `after` stand exactly these tokens. -/
def Takes (tokens : List Token) (before after : List Lexeme) : Prop :=
  ∃ used, before = used ++ after ∧ used.map Lexeme.token = tokens

theorem Takes.nil (lexemes : List Lexeme) : Takes [] lexemes lexemes := ⟨[], rfl, rfl⟩

theorem Takes.append {ts us : List Token} {before middle after : List Lexeme}
    (h1 : Takes ts before middle) (h2 : Takes us middle after) : Takes (ts ++ us) before after := by
  obtain ⟨used1, rfl, rfl⟩ := h1
  obtain ⟨used2, rfl, rfl⟩ := h2
  exact ⟨used1 ++ used2, by simp, by simp⟩

theorem Takes.cons (lexeme : Lexeme) {ts : List Token} {before after : List Lexeme}
    (h : Takes ts before after) : Takes (lexeme.token :: ts) (lexeme :: before) after := by
  obtain ⟨used, rfl, rfl⟩ := h
  exact ⟨lexeme :: used, rfl, rfl⟩

/-- Tokens that stand in two parts have a place where the second part begins. -/
theorem Takes.split {ts us : List Token} {before after : List Lexeme}
    (h : Takes (ts ++ us) before after) :
    ∃ middle, Takes ts before middle ∧ Takes us middle after := by
  obtain ⟨used, rfl, hused⟩ := h
  obtain ⟨used1, used2, rfl, h1, h2⟩ := List.map_eq_append_iff.mp hused
  exact ⟨used2 ++ after, ⟨used1, by simp, h1⟩, ⟨used2, rfl, h2⟩⟩

theorem Takes.uncons {t : Token} {ts : List Token} {before after : List Lexeme}
    (h : Takes (t :: ts) before after) :
    ∃ lexeme middle, before = lexeme :: middle ∧ lexeme.token = t ∧ Takes ts middle after := by
  obtain ⟨used, rfl, hused⟩ := h
  obtain ⟨lexeme, used', rfl, htoken, hrest⟩ := List.map_eq_cons_iff.mp hused
  exact ⟨lexeme, used' ++ after, rfl, htoken, ⟨used', rfl, hrest⟩⟩

theorem Takes.nil_eq {before after : List Lexeme} (h : Takes [] before after) : before = after := by
  obtain ⟨used, rfl, hused⟩ := h
  rw [List.map_eq_nil_iff.mp hused, List.nil_append]

theorem Takes.length_le {ts : List Token} {before after : List Lexeme}
    (h : Takes ts before after) : ts.length ≤ before.length := by
  obtain ⟨used, rfl, rfl⟩ := h
  simp

/-- The next lexeme, if there is one, is another token. -/
def NotNext (token : Token) (lexemes : List Lexeme) : Prop :=
  ∀ lexeme, lexemes.head? = some lexeme → lexeme.token ≠ token

theorem notNext_nil (token : Token) : NotNext token [] := by
  intro lexeme h
  simp at h

theorem notNext_of_takes {t token : Token} {ts : List Token} {before after : List Lexeme}
    (h : Takes (t :: ts) before after) (hne : t ≠ token) : NotNext token before := by
  obtain ⟨lexeme, middle, rfl, htoken, _⟩ := h.uncons
  intro other hother
  simp only [List.head?_cons, Option.some.injEq] at hother
  rw [← hother, htoken]
  exact hne

theorem found_mark_eq_some {token : Token} {lexemes rest : List Lexeme} {furthest : Furthest}
    {value : Unit} :
    (mark token lexemes furthest).found = some (value, rest) ↔
      ∃ lexeme, lexemes = lexeme :: rest ∧ lexeme.token = token := by
  unfold mark
  split
  · next lexeme rest' =>
    by_cases h : lexeme.token = token
    · rw [if_pos h, found_pure, Option.some.injEq, Prod.mk.injEq]
      constructor
      · rintro ⟨-, rfl⟩
        exact ⟨lexeme, rfl, h⟩
      · rintro ⟨_, heq, -⟩
        exact ⟨rfl, (List.cons.inj heq).2⟩
    · simp only [h, if_false, found_fail, reduceCtorEq, false_iff]
      rintro ⟨other, heq, htoken⟩
      rw [List.cons.injEq] at heq
      exact h (heq.1 ▸ htoken)
  · simp

theorem found_mark_of_token {token : Token} {lexeme : Lexeme} (h : lexeme.token = token)
    (rest : List Lexeme) (furthest : Furthest) :
    (mark token (lexeme :: rest) furthest).found = some ((), rest) :=
  found_mark_eq_some.mpr ⟨lexeme, rfl, h⟩

theorem found_mark_of_notNext {token : Token} {lexemes : List Lexeme} (h : NotNext token lexemes)
    (furthest : Furthest) : (mark token lexemes furthest).found = none := by
  unfold mark
  split
  · next lexeme rest => rw [if_neg (h lexeme rfl)]; rfl
  · rfl

theorem takes_of_found_mark {token : Token} {lexemes rest : List Lexeme} {furthest : Furthest}
    {value : Unit} (h : (mark token lexemes furthest).found = some (value, rest)) :
    Takes [token] lexemes rest := by
  obtain ⟨lexeme, rfl, rfl⟩ := found_mark_eq_some.mp h
  exact (Takes.nil rest).cons lexeme

section Flows

variable {stop : Nat} {resolve : String → Node}

theorem found_name_eq_some {lexemes rest : List Lexeme} {furthest : Furthest} {text : String} :
    (name stop lexemes furthest).found = some (text, rest) ↔
      ∃ lexeme, lexemes = lexeme :: rest ∧ lexeme.token = .name text := by
  rw [name, found_construct]
  split
  · next text' offset rest' =>
    simp only [found_pure, Option.some.injEq, Prod.mk.injEq, List.cons.injEq]
    constructor
    · rintro ⟨rfl, rfl⟩
      exact ⟨_, ⟨rfl, rfl⟩, rfl⟩
    · rintro ⟨lexeme, ⟨rfl, rfl⟩, htoken⟩
      exact ⟨by simpa using htoken, rfl⟩
  · next hno =>
    simp only [found_fail, reduceCtorEq, false_iff]
    rintro ⟨⟨token, offset⟩, rfl, htoken⟩
    simp only at htoken
    exact hno text offset rest (by rw [htoken])

theorem found_name_eq_none {lexemes : List Lexeme} (h : ∀ text, NotNext (.name text) lexemes)
    (furthest : Furthest) : (name stop lexemes furthest).found = none := by
  rcases hfound : (name stop lexemes furthest).found with _ | ⟨text, rest⟩
  · rfl
  · obtain ⟨lexeme, rfl, htoken⟩ := found_name_eq_some.mp hfound
    exact absurd htoken (h text lexeme rfl)

end Flows

end Workflow.Expression
