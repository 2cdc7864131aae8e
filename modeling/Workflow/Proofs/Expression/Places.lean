import Workflow.Proofs.Expression.Reading
import Workflow.Proofs.Expression.RoundTrip

/-!
# Where reading gets stuck

The report of the furthest failure is written by every construct that fails, those of abandoned
alternatives included. It still says something about the text: a construct is only tried where what
was read so far can be the beginning of a program, whatever sentence of the construct stood there
(`Begins`). So the place of the report is always such a place, and something is wanted there as soon
as it is behind the beginning (`Furthest.Real`).

`Reports fuel` says that the reading functions keep this, with one field for each of them, and is
proved by induction on the fuel. What a function is handed down with its lexemes is that the tokens
before them can be followed by any sentence it reads.
-/

namespace Workflow.Expression

open Grammar (Program stepTokens branchTokens laterTokens semicolonTokens)
open Reading

/-! ## Beginnings of programs -/

/-- Tokens with which a program begins that goes on with names that can be written. -/
def Begins (tokens : List Token) : Prop :=
  ∃ (p : Program) (more : List Token), p.tokens = tokens ++ more ∧ ProperNames more

theorem Begins.of_append {ts us : List Token} (h : Begins (ts ++ us)) (hus : ProperNames us) :
    Begins ts := by
  obtain ⟨p, more, htokens, hmore⟩ := h
  exact ⟨p, us ++ more, by rw [htokens, List.append_assoc], properNames_append.mpr ⟨hus, hmore⟩⟩

/-- A name that stands wherever some sentence has to. -/
def someName : String := "a"

theorem isName_someName : IsName someName := ⟨'a', [], rfl, rfl, nofun⟩

/-- The shortest sentences. -/
def someConditional : Grammar.Conditional := .plain (.name someName)

def someFlow : Grammar.Flow := .mk someConditional []

theorem properNames_someName : ProperNames [.name someName] := by
  intro text hmem
  cases List.mem_singleton.mp hmem
  exact isName_someName

theorem properNames_mark {token : Token} {ts : List Token} (htoken : ∀ text, token ≠ .name text)
    (hts : ProperNames ts) : ProperNames (token :: ts) :=
  properNames_cons.mpr ⟨fun text heq => absurd heq (htoken text), hts⟩

/-! ## Reports -/

/-- An offset at which something was missing: the beginning of the text, or a place up to which the
lexemes are the beginning of a program. -/
def IsPlace (stop : Nat) (all : List Lexeme) (position : Nat) : Prop :=
  position = 0 ∨ ∃ tokens rest, Takes tokens all rest ∧ Begins tokens ∧ position = nextOffset stop rest

/-- A report that is true of a text: it names a place, and behind the beginning of the text something
that is wanted there. -/
structure Furthest.Real (stop : Nat) (all : List Lexeme) (f : Furthest) : Prop where
  place : IsPlace stop all f.position
  wanted : 0 < f.position → f.wanted ≠ #[]

section

variable {stop : Nat} {all : List Lexeme} {f : Furthest} {position before : Nat} {which : Construct}

theorem Furthest.real_start : Real stop all {} := ⟨.inl rfl, nofun⟩

/-- A construct that fails at a place leaves a true report, with something that is wanted. -/
theorem Furthest.Real.refuse (h : f.Real stop all) (hplace : IsPlace stop all position) :
    (f.refuse which position before).Real stop all ∧
      (f.refuse which position before).wanted ≠ #[] := by
  unfold Furthest.refuse
  split
  · next hcount =>
    refine ⟨h, fun hnone => ?_⟩
    simp only [countAt, hnone, Array.size_empty, ite_self] at hcount
    omega
  · split
    · exact ⟨⟨h.place, fun _ => Array.push_ne_empty⟩, Array.push_ne_empty⟩
    · split
      · exact ⟨⟨hplace, fun _ => nofun⟩, nofun⟩
      · exact ⟨h, h.wanted (by omega)⟩

variable {α β : Type}

theorem Furthest.Real.construct {body : Furthest → Reading α} (hplace : IsPlace stop all position)
    (h : (body f).furthest.Real stop all) :
    (construct which position f body).furthest.Real stop all := by
  unfold Expression.construct orElse
  split
  · exact h
  · exact (h.refuse hplace).1

/-- A construct that fails leaves something that is wanted. -/
theorem Furthest.Real.wanted_construct {body : Furthest → Reading α} (hplace : IsPlace stop all position)
    (h : (body f).furthest.Real stop all)
    (hnone : (Expression.construct which position f body).found = none) :
    (Expression.construct which position f body).furthest.wanted ≠ #[] := by
  rw [found_construct] at hnone
  unfold Expression.construct Reading.orElse
  simp only [hnone]
  exact (h.refuse hplace).2

theorem Furthest.Real.andThen {r : Reading α} {next : α → List Lexeme → Furthest → Reading β}
    (h : r.furthest.Real stop all) (hnext : ∀ {value rest}, r.found = some (value, rest) →
      r.furthest.Real stop all → (next value rest r.furthest).furthest.Real stop all) :
    (r.andThen next).furthest.Real stop all := by
  unfold Reading.andThen
  split
  · next hfound => exact hnext hfound h
  · exact h

theorem Furthest.Real.orElse {r : Reading α} {other : Furthest → Reading α}
    (h : r.furthest.Real stop all)
    (hother : r.furthest.Real stop all → (other r.furthest).furthest.Real stop all) :
    (r.orElse other).furthest.Real stop all := by
  unfold Reading.orElse
  split
  · exact h
  · exact hother h

theorem Furthest.Real.mark {token : Token} {lexemes : List Lexeme} (h : f.Real stop all) :
    (mark token lexemes f).furthest.Real stop all := by
  unfold Expression.mark
  split
  · split <;> exact h
  · exact h

/-- Where any of the sentences of a construct may stand, there is a place. -/
theorem isPlace_of_begins {tokens sentence : List Token} {lexemes : List Lexeme}
    (htakes : Takes tokens all lexemes) (h : Begins (tokens ++ sentence))
    (hsentence : ProperNames sentence) : IsPlace stop all (nextOffset stop lexemes) :=
  .inr ⟨tokens, lexemes, htakes, h.of_append hsentence, rfl⟩

theorem Furthest.Real.name {tokens : List Token} {lexemes : List Lexeme}
    (htakes : Takes tokens all lexemes) (hbegins : Begins (tokens ++ [.name someName]))
    (h : f.Real stop all) : (name stop lexemes f).furthest.Real stop all := by
  refine .construct (isPlace_of_begins htakes hbegins properNames_someName) ?_
  split <;> exact h

theorem Furthest.Real.endOfInput {lexemes : List Lexeme} (h : f.Real stop all)
    (hplace : IsPlace stop all (nextOffset stop lexemes)) :
    (endOfInput stop lexemes f).furthest.Real stop all := by
  refine .construct hplace ?_
  split <;> exact h

end

/-! ## Flows -/

section Flows

variable (stop : Nat) (all : List Lexeme) (resolve : String → Node)

/-- With this much fuel the reading functions keep a report true, where any of their sentences can
follow the tokens before. -/
structure Reports (fuel : Nat) : Prop where
  flow : ∀ {ts lexemes f}, Takes ts all lexemes → (∀ tree : Grammar.Flow, Begins (ts ++ tree.tokens)) →
    f.Real stop all → (flow stop resolve fuel lexemes f).furthest.Real stop all
  laterSteps : ∀ {ts lexemes f}, Takes ts all lexemes → (∀ trees, Begins (ts ++ stepTokens trees)) →
    f.Real stop all → (laterSteps stop resolve fuel lexemes f).furthest.Real stop all
  conditional : ∀ {ts lexemes f}, Takes ts all lexemes →
    (∀ tree : Grammar.Conditional, Begins (ts ++ tree.tokens)) →
    f.Real stop all → (conditional stop resolve fuel lexemes f).furthest.Real stop all
  term : ∀ {ts lexemes f}, Takes ts all lexemes → (∀ tree : Grammar.Term, Begins (ts ++ tree.tokens)) →
    f.Real stop all → (term stop resolve fuel lexemes f).furthest.Real stop all
  group : ∀ {ts lexemes f}, Takes ts all lexemes → (∀ tree : Grammar.Term, Begins (ts ++ tree.tokens)) →
    f.Real stop all → (group stop resolve fuel lexemes f).furthest.Real stop all
  laterBranches : ∀ {ts lexemes f}, Takes ts all lexemes →
    (∀ trees, Begins (ts ++ branchTokens trees)) →
    f.Real stop all → (laterBranches stop resolve fuel lexemes f).furthest.Real stop all

variable {stop all resolve}

theorem reports_zero : Reports stop all resolve 0 := by
  constructor <;> intro ts lexemes f _ _ h <;> exact h

namespace Reports

variable {fuel : Nat} {ts : List Token} {lexemes : List Lexeme} {f : Furthest}

theorem flow_succ (ih : Reports stop all resolve fuel) (htakes : Takes ts all lexemes)
    (hbegins : ∀ tree : Grammar.Flow, Begins (ts ++ tree.tokens)) (h : f.Real stop all) :
    (Expression.flow stop resolve (fuel + 1) lexemes f).furthest.Real stop all := by
  have hstep : ∀ tree : Grammar.Conditional, Begins (ts ++ tree.tokens) := fun tree => by
    have hone := hbegins (.mk tree [])
    rwa [Grammar.Flow.tokens, stepTokens, List.append_nil] at hone
  refine .construct (isPlace_of_begins htakes (hbegins someFlow) properNames_someName) ?_
  refine .andThen (ih.conditional htakes hstep h) fun hfirst h => ?_
  obtain ⟨first, -, hfirst⟩ := (sound stop resolve fuel).conditional hfirst
  refine ih.laterSteps (htakes.append hfirst) (fun trees => ?_) h
  rw [List.append_assoc]
  exact hbegins (.mk first trees)

theorem laterSteps_succ (ih : Reports stop all resolve fuel) (htakes : Takes ts all lexemes)
    (hbegins : ∀ trees, Begins (ts ++ stepTokens trees)) (h : f.Real stop all) :
    (Expression.laterSteps stop resolve (fuel + 1) lexemes f).furthest.Real stop all := by
  refine .orElse (.andThen h.mark fun harrow h => ?_) id
  have htakes := htakes.append (takes_of_found_mark harrow)
  refine .andThen (ih.conditional htakes (fun tree => ?_) h) fun hstep h => ?_
  · have hone := hbegins [tree]
    rwa [stepTokens, stepTokens, List.append_nil, ← List.singleton_append, ← List.append_assoc] at hone
  · obtain ⟨step, -, hstep⟩ := (sound stop resolve fuel).conditional hstep
    refine ih.laterSteps (htakes.append hstep) (fun trees => ?_) h
    have hmore := hbegins (step :: trees)
    rwa [stepTokens, ← List.singleton_append, ← List.append_assoc, ← List.append_assoc] at hmore

theorem conditional_succ (ih : Reports stop all resolve fuel) (htakes : Takes ts all lexemes)
    (hbegins : ∀ tree : Grammar.Conditional, Begins (ts ++ tree.tokens)) (h : f.Real stop all) :
    (Expression.conditional stop resolve (fuel + 1) lexemes f).furthest.Real stop all := by
  have hsound := sound stop resolve fuel
  refine .construct (isPlace_of_begins htakes (hbegins someConditional) properNames_someName) ?_
  refine .andThen (ih.term htakes (fun tree => hbegins (.plain tree)) h) fun hcondition h => ?_
  obtain ⟨condition, -, hcondition⟩ := hsound.term hcondition
  have htakes := htakes.append hcondition
  refine .orElse (.andThen h.mark fun hquestion h => ?_) id
  have htakes := htakes.append (takes_of_found_mark hquestion)
  refine .andThen (ih.conditional htakes (fun tree => ?_) h) fun htrue h => ?_
  · have hchoice := hbegins (.choice condition tree someConditional)
    rw [Grammar.Conditional.tokens, ← List.singleton_append, ← List.append_assoc, ← List.append_assoc,
      ← List.append_assoc] at hchoice
    exact hchoice.of_append (properNames_mark nofun properNames_someName)
  · obtain ⟨whenTrue, -, htrue⟩ := hsound.conditional htrue
    have htakes := htakes.append htrue
    refine .andThen h.mark fun hcolon h => ?_
    have htakes := htakes.append (takes_of_found_mark hcolon)
    refine ih.conditional htakes (fun tree => ?_) h
    have hchoice := hbegins (.choice condition whenTrue tree)
    simpa only [Grammar.Conditional.tokens, List.append_assoc, List.cons_append, List.nil_append] using hchoice

theorem term_succ (ih : Reports stop all resolve fuel) (htakes : Takes ts all lexemes)
    (hbegins : ∀ tree : Grammar.Term, Begins (ts ++ tree.tokens)) (h : f.Real stop all) :
    (Expression.term stop resolve (fuel + 1) lexemes f).furthest.Real stop all := by
  refine .orElse (.orElse (ih.group htakes hbegins h) fun h => ?_) fun h => ?_
  · exact .name htakes (hbegins (.name someName)) h
  · refine .andThen h.mark fun hleft h => ?_
    refine .andThen (ih.flow (htakes.append (takes_of_found_mark hleft)) (fun tree => ?_) h) fun _ h => h.mark
    have hbrackets := hbegins (.brackets tree)
    rw [Grammar.Term.tokens, ← List.singleton_append, ← List.append_assoc, ← List.append_assoc] at hbrackets
    exact hbrackets.of_append (properNames_mark nofun nofun)

theorem group_succ (ih : Reports stop all resolve fuel) (htakes : Takes ts all lexemes)
    (hbegins : ∀ tree : Grammar.Term, Begins (ts ++ tree.tokens)) (h : f.Real stop all) :
    (Expression.group stop resolve (fuel + 1) lexemes f).furthest.Real stop all := by
  have hsound := sound stop resolve fuel
  refine .construct (isPlace_of_begins htakes (hbegins (.name someName)) properNames_someName) ?_
  refine .andThen h.mark fun hleft h => ?_
  have htakes := htakes.append (takes_of_found_mark hleft)
  refine .andThen (ih.flow htakes (fun tree => ?_) h) fun hfirst h => ?_
  · have hbrackets := hbegins (.brackets tree)
    rw [Grammar.Term.tokens, ← List.singleton_append, ← List.append_assoc, ← List.append_assoc] at hbrackets
    exact hbrackets.of_append (properNames_mark nofun nofun)
  obtain ⟨first, -, hfirst⟩ := hsound.flow hfirst
  have htakes := htakes.append hfirst
  refine .andThen h.mark fun hcomma h => ?_
  have htakes := htakes.append (takes_of_found_mark hcomma)
  -- behind a second flow any number of branches can follow
  have hlater : ∀ second trees, Begins (ts ++ [.leftParen] ++ first.tokens ++ [.comma] ++
      (second : Grammar.Flow).tokens ++ branchTokens trees) := fun second trees => by
    have hclosed : Begins (ts ++ [.leftParen] ++ first.tokens ++ [.comma] ++
        second.tokens ++ branchTokens trees ++ [.rightParen]) := by
      have hgroup := hbegins (.group first second trees)
      rw [Grammar.Term.tokens, ← List.append_assoc second.tokens] at hgroup
      simpa only [List.append_assoc, List.cons_append, List.nil_append] using hgroup
    exact hclosed.of_append (properNames_mark nofun nofun)
  refine .andThen (ih.flow htakes (fun tree => ?_) h) fun hsecond h => ?_
  · have htwo := hlater tree []
    rwa [branchTokens, List.append_nil] at htwo
  obtain ⟨second, -, hsecond⟩ := hsound.flow hsecond
  refine .andThen (ih.laterBranches (htakes.append hsecond) (hlater second) h) fun _ h => h.mark

theorem laterBranches_succ (ih : Reports stop all resolve fuel) (htakes : Takes ts all lexemes)
    (hbegins : ∀ trees, Begins (ts ++ branchTokens trees)) (h : f.Real stop all) :
    (Expression.laterBranches stop resolve (fuel + 1) lexemes f).furthest.Real stop all := by
  refine .orElse (.andThen h.mark fun hcomma h => ?_) id
  have htakes := htakes.append (takes_of_found_mark hcomma)
  refine .andThen (ih.flow htakes (fun tree => ?_) h) fun hbranch h => ?_
  · have hone := hbegins [tree]
    rwa [branchTokens, branchTokens, List.append_nil, ← List.singleton_append, ← List.append_assoc] at hone
  · obtain ⟨branch, -, hbranch⟩ := (sound stop resolve fuel).flow hbranch
    refine ih.laterBranches (htakes.append hbranch) (fun trees => ?_) h
    have hmore := hbegins (branch :: trees)
    rwa [branchTokens, ← List.singleton_append, ← List.append_assoc, ← List.append_assoc] at hmore

end Reports

theorem reports (stop : Nat) (all : List Lexeme) (resolve : String → Node) :
    ∀ fuel, Reports stop all resolve fuel
  | 0 => reports_zero
  | fuel + 1 =>
    have ih := reports stop all resolve fuel
    ⟨ih.flow_succ, ih.laterSteps_succ, ih.conditional_succ, ih.term_succ, ih.group_succ,
      ih.laterBranches_succ⟩

end Flows

/-! ## Statements and programs -/

section Programs

variable {stop : Nat} {all lexemes : List Lexeme} {ts : List Token} {f : Furthest} {outline : Outline}

theorem Furthest.Real.statement (htakes : Takes ts all lexemes)
    (hbegins : ∀ s : Grammar.Statement, Begins (ts ++ s.tokens)) (h : f.Real stop all) :
    (statement stop outline lexemes f).furthest.Real stop all := by
  have hreports := reports stop all outline.resolve (fuelFor lexemes)
  have hname := hbegins (.bare someFlow)
  refine .orElse (.construct (isPlace_of_begins htakes hname properNames_someName) ?_) fun h =>
    hreports.flow htakes (fun tree => hbegins (.bare tree)) h
  refine .andThen (.name htakes hname h) fun hbound h => ?_
  obtain ⟨lexeme, rfl, htoken⟩ := found_name_eq_some.mp hbound
  refine .andThen h.mark fun hequals h => ?_
  have htakes := (htakes.append ((Takes.nil _).cons lexeme)).append (takes_of_found_mark hequals)
  refine hreports.flow htakes (fun tree => ?_) h
  rw [htoken, List.append_assoc, List.append_assoc]
  exact hbegins (.assign _ tree)

theorem Furthest.Real.laterStatements (rounds : Nat) {outline : Outline} {lexemes : List Lexeme}
    {ts : List Token} {f : Furthest} (htakes : Takes ts all lexemes)
    (hbegins : ∀ later, Begins (ts ++ laterTokens later)) (h : f.Real stop all) :
    (laterStatements stop rounds outline lexemes f).furthest.Real stop all := by
  induction rounds generalizing outline lexemes ts f with
  | zero => exact h
  | succ rounds ih =>
    obtain ⟨separated, hskip⟩ := takes_skipSemicolon lexemes
    have htakes := htakes.append hskip
    have hreal : (Expression.statement stop outline (skipSemicolon lexemes) f).furthest.Real stop all :=
      .statement htakes (fun s => by
        have hone := hbegins [(separated, s)]
        rwa [laterTokens, laterTokens, List.append_nil, ← List.append_assoc] at hone) h
    unfold Expression.laterStatements
    simp only
    split
    · next hfound =>
      obtain ⟨s, -, hs⟩ := takes_of_found_statement hfound
      refine ih (htakes.append hs) (fun later => ?_) hreal
      have hmore := hbegins ((separated, s) :: later)
      rwa [laterTokens, ← List.append_assoc, ← List.append_assoc] at hmore
    · exact hreal

theorem begins_program (p : Program) : Begins p.tokens := ⟨p, [], (List.append_nil _).symm, nofun⟩

/-- The report of a whole program is true, and when the program is refused something is wanted. -/
theorem real_program (stop : Nat) (all : List Lexeme) :
    (program stop all).furthest.Real stop all ∧
      ((program stop all).found = none → (program stop all).furthest.wanted ≠ #[]) := by
  suffices hbody : ((statement stop {} all {}).andThen fun outline rest furthest =>
      (laterStatements stop rest.length outline rest furthest).andThen fun outline rest furthest =>
        (endOfInput stop (skipSemicolon rest) furthest).map fun _ => outline).furthest.Real stop all from
    ⟨.construct (.inl rfl) hbody, Furthest.Real.wanted_construct (.inl rfl) hbody⟩
  refine .andThen (.statement (.nil all) (fun s => ?_) Furthest.real_start) fun hfirst h => ?_
  · have hone := begins_program ⟨s, [], false⟩
    rwa [Program.tokens, laterTokens, semicolonTokens, if_neg Bool.false_ne_true, List.append_nil,
      List.append_nil] at hone
  obtain ⟨first, -, hfirst⟩ := takes_of_found_statement hfirst
  refine .andThen (.laterStatements _ hfirst (fun later => ?_) h) fun hlater h => ?_
  · have hmore := begins_program ⟨first, later, false⟩
    rwa [Program.tokens, semicolonTokens, if_neg Bool.false_ne_true, List.append_nil] at hmore
  obtain ⟨later, -, hlater⟩ := takes_of_found_laterStatements _ hlater
  obtain ⟨closed, hclosed⟩ := takes_skipSemicolon _
  refine h.endOfInput (.inr ⟨_, _, (hfirst.append hlater).append hclosed, ?_, rfl⟩)
  have hall := begins_program ⟨first, later, closed⟩
  rwa [Program.tokens, ← List.append_assoc] at hall

end Programs

end Workflow.Expression
