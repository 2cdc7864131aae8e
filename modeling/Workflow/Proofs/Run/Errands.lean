import Workflow.Proofs.Run.Once
import Workflow.Proofs.Run.Pruning

/-!
# Units that are executed ahead

A walk through a plan without groups executes one unit after another. When every unit that is
registered succeeds and leaves the same signal whenever it is executed (`Roster`), the walk has no
choice: `Walk.EndsUp` tells from what a walk does next where it ends and what has been executed by
then. It is evaluation in big steps, with the number of steps counted, and it is total
(`Walk.exists_endsUp`).

What comes of sending a unit that left no signal to another one is shown in three steps, each by
induction on the evaluation:

* `EndsUp.congr`: where the unit that is sent has been passed, nothing depends on the order in which
  units have been executed, nor on what is kept in mind of units that the walk will not come to;
* `EndsUp.catchesUp`: a walk for which the target has been executed ahead comes to the same end, and
  waits there for the other walk until that one executes the target itself, or is sent to it;
* `EndsUp.reroute`: the walk goes on as it would have up to the position of the unit that is sent.

At every router that a walk has come past it has skipped the arms that the signal of the router does
not name, also if the router was executed ahead (`EndsUp.settled`).
-/

namespace Workflow

/-- What is known of units that are executed one by one: which of them are registered, and what each
is called, leaves as its routing signal and is told of the run. Nobody touches what the engine keeps
for the units in `kept`. -/
structure Roster where
  kept : List String
  ids : List String
  name : String → String
  signal : String → Option String
  view : String → UnitView

/-- One unit leaves another signal. -/
def Roster.reroute (r : Roster) (a t : String) : Roster :=
  { r with signal := fun u => if u = a then some t else r.signal u }

/-- What a walk keeps in mind of a unit that was executed ahead. -/
def Roster.early (r : Roster) (u : String) : Early := .routed (r.signal u) none

section Reroute

variable (r : Roster) (a t : String)

@[simp] theorem Roster.ids_reroute : (r.reroute a t).ids = r.ids := rfl

@[simp] theorem Roster.signal_reroute_self : (r.reroute a t).signal a = some t := if_pos rfl

theorem Roster.signal_reroute_of_ne {u : String} (h : u ≠ a) : (r.reroute a t).signal u = r.signal u :=
  if_neg h

end Reroute

/-- The label that a signal of its router names at a choice. Without a signal it is `false`. -/
def Choice.named? (choice : Choice) : Option String → Option Label
  | none => some false
  | some target => choice.labelFor? target

namespace Walk

variable {w w' : Walk} {signal : Option String} {u : String}

/-! ## After a signal -/

/-- Skips the arms that the signal of the unit at the position does not name. -/
def settle (w : Walk) (signal : Option String) : Walk :=
  match w.plan.choiceAt? w.position with
  | none => w
  | some choice =>
    match choice.named? signal with
    | some label => w.chooseArm choice label
    | none => w.skipArms choice

/-- The unit that the walk is sent to by a signal. -/
def errand? (w : Walk) (signal : Option String) : Option String :=
  match w.plan.choiceAt? w.position, signal with
  | _, none => none
  | some choice, some target => if (choice.labelFor? target).isSome then none else some target
  | none, some target => if (Label.ofText? target).isSome then none else some target

/-- How the walk goes on after the unit at its position has left a signal. -/
def heed (w : Walk) (hasRun : String → Bool) (signal : Option String) : Walk × Intent :=
  match w.errand? signal with
  | some target =>
    if hasRun target then ((w.settle signal).forward, .advance)
    else (w.settle signal,
      .execute target (.detour target ((w.settle signal).willReach w.position target)))
  | none => ((w.settle signal).forward, .advance)

section Settle

variable {choice : Choice} {label : Label}

theorem settle_of_none (hchoice : w.plan.choiceAt? w.position = none) (signal : Option String) :
    w.settle signal = w := by
  rw [settle, hchoice]

theorem settle_of_named (hchoice : w.plan.choiceAt? w.position = some choice)
    (hnamed : choice.named? signal = some label) : w.settle signal = w.chooseArm choice label := by
  simp only [settle, hchoice, hnamed]

theorem settle_of_unnamed (hchoice : w.plan.choiceAt? w.position = some choice)
    (hnamed : choice.named? signal = none) : w.settle signal = w.skipArms choice := by
  simp only [settle, hchoice, hnamed]

/-- The arms that the signal does not name are skipped from then on. -/
theorem mem_settle_iff (hchoice : w.plan.choiceAt? w.position = some choice) {span : Span} :
    span ∈ (w.settle signal).skipped ↔ span ∈ w.skipped ∨
      ∃ entry ∈ choice.arms.entries, choice.named? signal ≠ some entry.1 ∧ entry.2.span = span := by
  rcases hnamed : choice.named? signal with _ | label
  · rw [settle_of_unnamed hchoice hnamed]
    simp [skipArms, Table.values]
  · rw [settle_of_named hchoice hnamed]
    simp [chooseArm, and_assoc, ne_comm]

end Settle

/-- A walk that skips something more is the same apart from that. -/
theorem exists_settle (w : Walk) (signal : Option String) :
    ∃ spans, w.settle signal = { w with skipped := w.skipped ++ spans } := by
  unfold settle
  split
  · exact ⟨[], by rw [List.append_nil]⟩
  · split <;> exact ⟨_, rfl⟩

@[simp] theorem plan_settle (w : Walk) (signal : Option String) : (w.settle signal).plan = w.plan := by
  obtain ⟨spans, heq⟩ := w.exists_settle signal
  rw [heq]

@[simp] theorem position_settle (w : Walk) (signal : Option String) :
    (w.settle signal).position = w.position := by
  obtain ⟨spans, heq⟩ := w.exists_settle signal
  rw [heq]

/-- For any signal but the one to stop, this is what `steer` does. -/
theorem steer_eq_heed (h : signal ≠ some stopValue) (scope : Scope) (hasRun : String → Bool)
    (u : String) : ∃ scope', w.steer scope hasRun u signal =
      ⟨(w.heed hasRun signal).1, scope', (w.heed hasRun signal).2⟩ := by
  have hdetour : ∀ w' : Walk, w'.position = w.position → ∀ target,
      w'.detour scope hasRun target = if hasRun target then ⟨w'.forward, scope, .advance⟩
        else ⟨w', scope, .execute target (.detour target (w'.willReach w.position target))⟩ :=
    fun w' hposition target => hposition ▸ rfl
  rcases hchoice : w.plan.choiceAt? w.position with _ | choice
  · unfold heed errand?
    rw [settle_of_none hchoice]
    rcases signal with _ | target
    · exact ⟨scope, by simp [steer, hchoice, proceed]⟩
    · have hstop : target ≠ stopValue := fun heq => h (congrArg some heq)
      rcases hlabel : Label.ofText? target with _ | label
      · refine ⟨scope, ?_⟩
        simp only [steer, hchoice, hstop, if_false, hlabel, Option.isSome_none, Bool.false_eq_true,
          hdetour w rfl]
        cases hasRun target <;> rfl
      · exact ⟨scope.signalRoute u target, by simp [steer, hchoice, hstop, hlabel, proceed]⟩
  · unfold heed errand?
    rcases signal with _ | target
    · rw [settle_of_named hchoice rfl]
      exact ⟨scope, by simp [steer, hchoice, proceed]⟩
    · have hstop : target ≠ stopValue := fun heq => h (congrArg some heq)
      rcases hlabel : choice.labelFor? target with _ | label
      · have hnamed : choice.named? (some target) = none := hlabel
        rw [settle_of_unnamed hchoice hnamed]
        refine ⟨scope, ?_⟩
        simp only [steer, hchoice, hstop, if_false, hlabel, Option.isSome_none, Bool.false_eq_true,
          hdetour (w.skipArms choice) rfl]
        cases hasRun target <;> rfl
      · have hnamed : choice.named? (some target) = some label := hlabel
        rw [settle_of_named hchoice hnamed]
        exact ⟨scope, by simp [steer, hchoice, hstop, hlabel, proceed]⟩

/-- The walk with other units in mind. -/
def mind (w : Walk) (e : Table String Early) : Walk := { w with early := e }

@[simp] theorem mind_mind (w : Walk) (e e' : Table String Early) : (w.mind e).mind e' = w.mind e' := rfl

/-- What a walk keeps in mind is nothing to how it heeds a signal. -/
theorem heed_mind (w : Walk) (e : Table String Early) (hasRun : String → Bool)
    (signal : Option String) : (w.mind e).heed hasRun signal =
      ((w.heed hasRun signal).1.mind e, (w.heed hasRun signal).2) := by
  have hsettle : (w.mind e).settle signal = (w.settle signal).mind e := by
    unfold settle mind
    split <;> (try split) <;> simp_all [chooseArm, skipArms]
  unfold heed
  rw [hsettle, show (w.mind e).errand? signal = w.errand? signal from rfl]
  split <;> (try split) <;> rfl

/-! ## What is still to come -/

/-- The walk has come further through its plan, and keeps the same units in mind. -/
structure Further (w w' : Walk) : Prop where
  plan : w'.plan = w.plan
  pooled : w'.pooled = w.pooled
  position : w.position ≤ w'.position
  skipped : w.skipped ⊆ w'.skipped
  early : w'.early = w.early

/-- The walk will come to a unit, unless it skips more. -/
def ComesTo (w : Walk) (u : String) : Prop :=
  ∃ i, w.position ≤ i ∧ w.plan.unitAt? i = some u ∧ ¬ w.Skips i

theorem Further.comesTo (h : w.Further w') (hcomes : w'.ComesTo u) : w.ComesTo u := by
  obtain ⟨i, hi, hunit, hskips⟩ := hcomes
  refine ⟨i, h.position.trans hi, h.plan ▸ hunit, ?_⟩
  rintro ⟨span, hmem, hin⟩
  exact hskips ⟨span, h.skipped hmem, hin⟩

theorem further_forward (w : Walk) : w.Further w.forward :=
  ⟨rfl, rfl, Nat.le_succ _, List.Subset.refl _, rfl⟩

theorem further_settle (w : Walk) (signal : Option String) : w.Further (w.settle signal) := by
  obtain ⟨spans, heq⟩ := w.exists_settle signal
  rw [heq]
  exact ⟨rfl, rfl, Nat.le_refl _, List.subset_append_left .., rfl⟩

theorem Further.trans {w'' : Walk} (h : w.Further w') (h' : w'.Further w'') : w.Further w'' :=
  ⟨h'.plan.trans h.plan, h'.pooled.trans h.pooled, h.position.trans h'.position,
    List.Subset.trans h.skipped h'.skipped, h'.early.trans h.early⟩

/-- What the walk keeps in mind meanwhile does not matter. -/
theorem Further.mind (h : w.Further w') (e : Table String Early) : (w.mind e).Further (w'.mind e) :=
  ⟨h.plan, h.pooled, h.position, h.skipped, rfl⟩

theorem further_heed (w : Walk) (hasRun : String → Bool) (signal : Option String) :
    w.Further (w.heed hasRun signal).1 := by
  unfold heed
  split
  · split
    · exact (further_settle w signal).trans (further_forward _)
    · exact further_settle w signal
  · exact (further_settle w signal).trans (further_forward _)

theorem mind_heed (w : Walk) (hasRun : String → Bool) (signal : Option String) :
    (w.heed hasRun signal).1.mind w.early = (w.heed hasRun signal).1 := by
  rw [← (further_heed w hasRun signal).early]
  rfl

/-- What a walk may come to do next after a signal is to execute a unit that has not been executed. -/
theorem not_hasRun_of_heed {hasRun : String → Bool} {resume : Resume}
    (h : (w.heed hasRun signal).2 = .execute u resume) : hasRun u = false := by
  unfold heed at h
  split at h
  · split at h
    · cases h
    · next target _ hran =>
      cases h
      exact Bool.eq_false_iff.mpr hran
  · cases h

theorem skipEnd?_eq_none_iff {i : Nat} : w.skipEnd? i = none ↔ ¬ w.Skips i := by
  refine ⟨not_skips_of_skipEnd?, fun h => ?_⟩
  rcases hskip : w.skipEnd? i with _ | stop
  · rfl
  · obtain ⟨span, hmem, hstart, hstop, -⟩ := exists_of_skipEnd? hskip
    exact absurd ⟨span, hmem, hstart, hstop⟩ h

theorem lt_of_skipEnd? {i stop : Nat} (h : w.skipEnd? i = some stop) : i < stop := by
  obtain ⟨span, -, -, hstop, rfl⟩ := exists_of_skipEnd? h
  exact hstop

theorem further_of_skipEnd? {stop : Nat} (h : w.skipEnd? w.position = some stop) :
    w.Further { w with position := stop } :=
  ⟨rfl, rfl, Nat.le_of_lt (lt_of_skipEnd? h), List.Subset.refl _, rfl⟩

theorem comesTo_of_unitAt? (hunit : w.plan.unitAt? w.position = some u)
    (hskip : w.skipEnd? w.position = none) : w.ComesTo u :=
  ⟨w.position, Nat.le_refl _, hunit, not_skips_of_skipEnd? hskip⟩

/-- The walk will reach a unit behind its position if it is still awaited there. -/
theorem willReach_of_comesTo (h : w.forward.ComesTo u) : w.willReach w.position u = true := by
  obtain ⟨i, hi, hunit, hskips⟩ := h
  refine List.any_eq_true.mpr ⟨i, List.mem_range.mpr (List.getElem?_eq_some_iff.mp hunit).1, ?_⟩
  have hskip : w.skipEnd? i = none := skipEnd?_eq_none_iff.mpr hskips
  have hunit : w.plan.unitAt? i = some u := hunit
  simpa [hunit, hskip] using Nat.lt_of_succ_le hi

/-! ## Where a walk ends up -/

/-- What is kept in mind of a unit that was executed ahead, if the walk will reach it. -/
def keep (r : Roster) (u : String) (reached : Bool) (e : Table String Early) : Table String Early :=
  if reached then e.insert u (r.early u) else e

theorem get?_keep_of_ne (r : Roster) {u v : String} (h : u ≠ v) (reached : Bool)
    (e : Table String Early) : (keep r v reached e).get? u = e.get? u := by
  unfold keep
  cases reached with
  | false => rfl
  | true => exact Table.get?_insert_of_ne _ _ h.symm

/-- From what a walk does next, when `ran` has been executed, where it ends and what has been executed
by then. -/
inductive EndsUp (r : Roster) :
    Nat → Walk → Intent → List String → Walk → List String → Prop where
  | finished {w : Walk} {ran : List String} : EndsUp r 0 w .finish ran w ran
  | past {w : Walk} {ran : List String} (hunit : w.plan.unitAt? w.position = none) :
    EndsUp r 1 w .advance ran w ran
  | skips {n stop : Nat} {w last : Walk} {u : String} {ran all : List String}
      (hunit : w.plan.unitAt? w.position = some u) (hskip : w.skipEnd? w.position = some stop)
      (h : EndsUp r n { w with position := stop } .advance ran last all) :
    EndsUp r (n + 1) w .advance ran last all
  /-- The unit at the position was executed ahead, and its signal waits for the walk. -/
  | recalls {n : Nat} {w last : Walk} {u : String} {ran all : List String}
      (hunit : w.plan.unitAt? w.position = some u) (hskip : w.skipEnd? w.position = none)
      (hearly : w.early.get? u = some (r.early u))
      (h : EndsUp r n ((w.heed ran.contains (r.signal u)).1.mind (w.early.erase u))
        (w.heed ran.contains (r.signal u)).2 ran last all) :
    EndsUp r (n + 1) w .advance ran last all
  | comes {n : Nat} {w last : Walk} {u : String} {ran all : List String}
      (hunit : w.plan.unitAt? w.position = some u) (hskip : w.skipEnd? w.position = none)
      (hearly : w.early.get? u = none) (h : EndsUp r n w (.execute u .unit) ran last all) :
    EndsUp r (n + 1) w .advance ran last all
  | runs {n : Nat} {w last : Walk} {u : String} {ran all : List String} (hmem : u ∈ r.ids)
      (hunit : w.plan.unitAt? w.position = some u)
      (h : EndsUp r n (w.heed (ran ++ [u]).contains (r.signal u)).1
        (w.heed (ran ++ [u]).contains (r.signal u)).2 (ran ++ [u]) last all) :
    EndsUp r (n + 1) w (.execute u .unit) ran last all
  | detours {n : Nat} {w last : Walk} {u : String} {reached : Bool} {ran all : List String}
      (hmem : u ∈ r.ids)
      (h : EndsUp r n (w.forward.mind (keep r u reached w.early)) .advance (ran ++ [u]) last all) :
    EndsUp r (n + 1) w (.execute u (.detour u reached)) ran last all
  /-- The walk ends at a unit that is not there. -/
  | misses {w : Walk} {u : String} {resume : Resume} {ran : List String} (hmem : u ∉ r.ids)
      (hunit : resume = .unit → w.plan.unitAt? w.position = some u) :
    EndsUp r 1 w (.execute u resume) ran (w.addFailure (.unknownUnit u)) ran

/-! ## Walks with other units in mind -/

/-- Two walks keep the same in mind of a unit, each of them what its roster says. -/
def MindsAlike (r r' : Roster) (m e : Table String Early) (u : String) : Prop :=
  m.get? u = none ∧ e.get? u = none ∨ m.get? u = some (r.early u) ∧ e.get? u = some (r'.early u)

section MindsAlike

variable {r r' : Roster} {m e : Table String Early}

theorem MindsAlike.get?_eq_some (h : MindsAlike r r' m e u) (hm : m.get? u = some (r.early u)) :
    e.get? u = some (r'.early u) := by
  rcases h with ⟨hnone, -⟩ | ⟨-, hsome⟩
  · cases hm.symm.trans hnone
  · exact hsome

theorem MindsAlike.get?_eq_none (h : MindsAlike r r' m e u) (hm : m.get? u = none) :
    e.get? u = none := by
  rcases h with ⟨-, hnone⟩ | ⟨hsome, -⟩
  · exact hnone
  · cases hm.symm.trans hsome

theorem MindsAlike.erase (h : MindsAlike r r' m e u) (v : String) :
    MindsAlike r r' (m.erase v) (e.erase v) u := by
  unfold MindsAlike
  rw [Table.get?_erase, Table.get?_erase]
  split
  · exact .inl ⟨rfl, rfl⟩
  · exact h

theorem MindsAlike.keep (h : MindsAlike r r' m e u) (v : String) (reached : Bool) :
    MindsAlike r r' (Walk.keep r v reached m) (Walk.keep r' v reached e) u := by
  cases reached with
  | false => exact h
  | true =>
    unfold MindsAlike Walk.keep
    simp only [if_true, Table.get?_insert]
    split
    · next heq => exact heq ▸ .inr ⟨rfl, rfl⟩
    · exact h

end MindsAlike

/-- The walk and one with other units in mind will take the units alike that they come to. -/
def Alike (r r' : Roster) (w : Walk) (e : Table String Early) : Prop :=
  ∀ u, w.ComesTo u → MindsAlike r r' w.early e u

theorem Alike.further {r r' : Roster} {e : Table String Early} (h : w.Alike r r' e)
    (hfurther : w.Further w') : w'.Alike r r' e :=
  fun u hcomes => hfurther.early ▸ h u (hfurther.comesTo hcomes)

variable {r : Roster} {a t : String} {n : Nat} {last : Walk} {next : Intent} {ran all : List String}
  {e : Table String Early} {ran' : List String}

/-! ## Every walk ends up somewhere -/

/-- After a signal the walk goes on to the next position, or is sent to a unit. -/
theorem heed_cases (w : Walk) (hasRun : String → Bool) (signal : Option String) :
    w.heed hasRun signal = ((w.settle signal).forward, .advance) ∨
      ∃ target, w.heed hasRun signal = (w.settle signal,
        .execute target (.detour target ((w.settle signal).willReach w.position target))) := by
  unfold heed
  split
  · split
    · exact .inl rfl
    · exact .inr ⟨_, rfl⟩
  · exact .inl rfl

theorem exists_endsUp_heed {m : Table String Early} (signal : Option String)
    (halike : (w.mind m).Alike r r m) (ran : List String)
    (ih : ∀ (w' : Walk) (ran : List String), w'.plan = w.plan → w'.position = w.position + 1 →
      w'.Alike r r w'.early → ∃ n last all, EndsUp r n w' .advance ran last all) :
    ∃ n last all, EndsUp r n ((w.heed ran.contains signal).1.mind m) (w.heed ran.contains signal).2
      ran last all := by
  have hsettle : (w.mind m).Further ((w.settle signal).forward.mind m) :=
    ((further_settle w signal).trans (further_forward _)).mind m
  have hposition : (w.settle signal).forward.position = w.position + 1 :=
    congrArg (· + 1) (position_settle w signal)
  rcases heed_cases w ran.contains signal with heq | ⟨target, heq⟩
  · rw [heq]
    exact ih _ ran (plan_settle w signal) hposition (halike.further hsettle)
  · rw [heq]
    by_cases hmem : target ∈ r.ids
    · obtain ⟨n, last, all, h⟩ := ih ((w.settle signal).forward.mind (keep r target
        ((w.settle signal).willReach w.position target) m)) (ran ++ [target]) (plan_settle w signal)
        hposition fun u hcomes => (halike u (hsettle.comesTo hcomes)).keep target _
      exact ⟨n + 1, last, all, .detours hmem h⟩
    · exact ⟨1, _, ran, .misses hmem nofun⟩

/-- The positions of a plan are finite, and each of them is settled in a few steps. -/
theorem exists_endsUp (halike : w.Alike r r w.early) (ran : List String) :
    ∃ n last all, EndsUp r n w .advance ran last all := by
  induction hrest : w.plan.length - w.position using Nat.strong_induction_on generalizing w ran with
  | _ rest ih =>
  rcases hunit : w.plan.unitAt? w.position with _ | u
  · exact ⟨1, w, ran, .past hunit⟩
  have hlt : w.position < w.plan.length := (List.getElem?_eq_some_iff.mp hunit).1
  rcases hskip : w.skipEnd? w.position with _ | stop
  · have hbehind : ∀ (w' : Walk) (ran : List String), w'.plan = w.plan →
        w'.position = w.position + 1 → w'.Alike r r w'.early →
        ∃ n last all, EndsUp r n w' .advance ran last all :=
      fun w' ran hplan hposition halike => ih _ (by rw [hplan, hposition]; omega) halike ran rfl
    rcases halike u (comesTo_of_unitAt? hunit hskip) with ⟨hearly, -⟩ | ⟨hearly, -⟩
    · by_cases hmem : u ∈ r.ids
      · obtain ⟨n, last, all, h⟩ :=
          exists_endsUp_heed (m := w.early) (r.signal u) halike (ran ++ [u]) hbehind
        rw [mind_heed] at h
        exact ⟨n + 2, last, all, .comes hunit hskip hearly (.runs hmem hunit h)⟩
      · exact ⟨2, _, ran, .comes hunit hskip hearly (.misses hmem fun _ => hunit)⟩
    · obtain ⟨n, last, all, h⟩ := exists_endsUp_heed (m := w.early.erase u) (r.signal u)
        (fun v hv => (halike v hv).erase u) ran hbehind
      exact ⟨n + 1, last, all, .recalls hunit hskip hearly h⟩
  · have hstop := lt_of_skipEnd? hskip
    obtain ⟨n, last, all, h⟩ := ih (w.plan.length - stop) (by omega) (w := { w with position := stop })
      (halike.further (further_of_skipEnd? hskip)) ran rfl
    exact ⟨n + 1, last, all, .skips hunit hskip h⟩

/-! ## Routers that the walk is past -/

/-- The unit at `i` is a router, and it has an arm there which its signal does not name. -/
def Declines (r : Roster) (p : Plan) (i : Nat) (span : Span) : Prop :=
  ∃ u choice, p.unitAt? i = some u ∧ p.choiceAt? i = some choice ∧
    ∃ entry ∈ choice.arms.entries, choice.named? (r.signal u) ≠ some entry.1 ∧ entry.2.span = span

/-- At every router before `reach` that the walk has not skipped, it skips the arms that the signal of
the router does not name, and it skips nothing but such arms. -/
structure Settled (r : Roster) (w : Walk) (reach : Nat) : Prop where
  all : ∀ i span, i < reach → ¬ w.Skips i → Declines r w.plan i span → span ∈ w.skipped
  only : ∀ span ∈ w.skipped, ∃ i, Declines r w.plan i span

/-- How far a walk has settled its routers. -/
def reachOf (w : Walk) : Intent → Nat
  | .execute _ (.detour ..) => w.position + 1
  | .advance | .execute .. | .fork .. | .finish => w.position

theorem Settled.mono {reach reach' : Nat} (h : w.Settled r reach) (hle : reach' ≤ reach) :
    w.Settled r reach' where
  all i span hi := h.all i span (hi.trans_le hle)
  only := h.only

theorem Settled.of_eq {reach : Nat} (h : w.Settled r reach) (hplan : w'.plan = w.plan)
    (hskipped : w'.skipped = w.skipped) : w'.Settled r reach where
  all i span hi hskips := by
    rw [hskipped, hplan]
    exact h.all i span hi fun ⟨around, hmem, hin⟩ => hskips ⟨around, hskipped ▸ hmem, hin⟩
  only := by
    rw [hskipped, hplan]
    exact h.only

/-- What a walk skips it passes over. -/
theorem Settled.skips {stop : Nat} (h : w.Settled r w.position)
    (hskip : w.skipEnd? w.position = some stop) : w.Settled r stop where
  all i span hi hskips := by
    refine h.all i span (by_contra fun hge => hskips ?_) hskips
    obtain ⟨around, hmem, hstart, -, rfl⟩ := exists_of_skipEnd? hskip
    exact ⟨around, hmem, by omega, hi⟩
  only := h.only

theorem Settled.settle (h : w.Settled r w.position) (hunit : w.plan.unitAt? w.position = some u) :
    (w.settle (r.signal u)).Settled r (w.position + 1) where
  all i span hi hskips hdeclines := by
    rw [plan_settle] at hdeclines
    rcases Nat.lt_succ_iff_lt_or_eq.mp hi with hlt | rfl
    · refine (further_settle w _).skipped (h.all i span hlt ?_ hdeclines)
      exact fun ⟨around, hmem, hin⟩ => hskips ⟨around, (further_settle w _).skipped hmem, hin⟩
    · obtain ⟨v, choice, hunit', hchoice, hentry⟩ := hdeclines
      obtain rfl : u = v := Option.some.inj (hunit.symm.trans hunit')
      exact (mem_settle_iff hchoice).mpr (.inr hentry)
  only span hspan := by
    rw [plan_settle]
    rcases hchoice : w.plan.choiceAt? w.position with _ | choice
    · rw [settle_of_none hchoice] at hspan
      exact h.only span hspan
    · rcases (mem_settle_iff hchoice).mp hspan with hspan | hentry
      · exact h.only span hspan
      · exact ⟨w.position, u, choice, hunit, hchoice, hentry⟩

theorem Settled.heed (h : w.Settled r w.position) (hunit : w.plan.unitAt? w.position = some u)
    (hasRun : String → Bool) : (w.heed hasRun (r.signal u)).1.Settled r
      ((w.heed hasRun (r.signal u)).1.reachOf (w.heed hasRun (r.signal u)).2) := by
  have hsettled := h.settle hunit
  rw [← position_settle w (r.signal u)] at hsettled
  rcases heed_cases w hasRun (r.signal u) with heq | ⟨target, heq⟩
  · rw [heq]
    exact hsettled.of_eq rfl rfl
  · rw [heq]
    exact hsettled

/-- Wherever a walk ends up, it has settled the routers that it is past by their signals, also those
that were executed ahead. -/
theorem EndsUp.settled (h : EndsUp r n w next ran last all) (hsettled : w.Settled r (w.reachOf next)) :
    last.Settled r last.position := by
  induction h with
  | finished | past => exact hsettled
  | skips hunit hskip h ih => exact ih ((hsettled.skips hskip).of_eq rfl rfl)
  | @recalls n w last u ran all hunit _ _ h ih =>
    exact ih ((Settled.heed hsettled hunit ran.contains).of_eq rfl rfl)
  | comes _ _ _ h ih => exact ih hsettled
  | runs hmem hunit h ih => exact ih (hsettled.heed hunit _)
  | detours hmem h ih => exact ih (hsettled.of_eq rfl rfl)
  | @misses w u resume =>
    have hreached : w.Settled r w.position := hsettled.mono (by cases resume <;> simp [reachOf])
    exact hreached.of_eq rfl rfl

/-! ## Walks that end up alike -/

/-- With the units `e` in mind, the walk ends up at `last` under the roster, apart from what it has in mind
there, and has executed the units of `all` by then, perhaps in another order. -/
def EndsLike (r : Roster) (w : Walk) (e : Table String Early) (next : Intent) (ran : List String)
    (last : Walk) (all : List String) : Prop :=
  ∃ n e' all', EndsUp r n (w.mind e) next ran (last.mind e') all' ∧ all'.Perm all

namespace EndsLike

theorem skips {stop : Nat} (hunit : w.plan.unitAt? w.position = some u)
    (hskip : w.skipEnd? w.position = some stop)
    (h : EndsLike r { w with position := stop } e .advance ran last all) :
    EndsLike r w e .advance ran last all := by
  obtain ⟨n, e', all', hends, hperm⟩ := h
  exact ⟨n + 1, e', all', .skips hunit hskip hends, hperm⟩

theorem recalls (hunit : w.plan.unitAt? w.position = some u) (hskip : w.skipEnd? w.position = none)
    (hearly : e.get? u = some (r.early u))
    (h : EndsLike r (w.heed ran.contains (r.signal u)).1 (e.erase u)
      (w.heed ran.contains (r.signal u)).2 ran last all) : EndsLike r w e .advance ran last all := by
  obtain ⟨n, e', all', hends, hperm⟩ := h
  refine ⟨n + 1, e', all', .recalls hunit hskip hearly ?_, hperm⟩
  rw [heed_mind]
  exact hends

theorem comes (hunit : w.plan.unitAt? w.position = some u) (hskip : w.skipEnd? w.position = none)
    (hearly : e.get? u = none) (h : EndsLike r w e (.execute u .unit) ran last all) :
    EndsLike r w e .advance ran last all := by
  obtain ⟨n, e', all', hends, hperm⟩ := h
  exact ⟨n + 1, e', all', .comes hunit hskip hearly hends, hperm⟩

theorem runs (hmem : u ∈ r.ids) (hunit : w.plan.unitAt? w.position = some u)
    (h : EndsLike r (w.heed (ran ++ [u]).contains (r.signal u)).1 e
      (w.heed (ran ++ [u]).contains (r.signal u)).2 (ran ++ [u]) last all) :
    EndsLike r w e (.execute u .unit) ran last all := by
  obtain ⟨n, e', all', hends, hperm⟩ := h
  refine ⟨n + 1, e', all', .runs hmem hunit ?_, hperm⟩
  rw [heed_mind]
  exact hends

theorem detours {reached : Bool} (hmem : u ∈ r.ids)
    (h : EndsLike r w.forward (keep r u reached e) .advance (ran ++ [u]) last all) :
    EndsLike r w e (.execute u (.detour u reached)) ran last all := by
  obtain ⟨n, e', all', hends, hperm⟩ := h
  exact ⟨n + 1, e', all', .detours hmem hends, hperm⟩

end EndsLike

/-! ## Behind the unit that is sent -/

/-- A unit has been executed, and the walk will not come to it any more. -/
structure Passed (a : String) (w : Walk) (next : Intent) (ran : List String) : Prop where
  ran : a ∈ ran
  behind : ¬ w.ComesTo a
  next : ∀ resume, next ≠ .execute a resume

theorem Passed.heed (h : w.Passed a next ran) (hmem : ∀ v ∈ ran, v ∈ ran') (signal : Option String) :
    (w.heed ran'.contains signal).1.Passed a (w.heed ran'.contains signal).2 ran' where
  ran := hmem a h.ran
  behind hcomes := h.behind ((further_heed w ran'.contains signal).comesTo hcomes)
  next resume heq := by simpa [hmem a h.ran] using not_hasRun_of_heed heq

theorem Passed.mind (h : w.Passed a next ran) (e : Table String Early) : (w.mind e).Passed a next ran :=
  ⟨h.ran, h.behind, h.next⟩

theorem Passed.further (h : w.Passed a next ran) (hfurther : w.Further w') :
    w'.Passed a .advance ran :=
  ⟨h.ran, fun hcomes => h.behind (hfurther.comesTo hcomes), nofun⟩

theorem contains_eq_of_perm (h : ran'.Perm ran) : ran'.contains = ran.contains :=
  funext fun _ => h.contains_eq

/-- Behind the unit that is sent, a walk ends up the same in whatever order units have been executed,
and whatever else it keeps in mind of units that it does not come to. -/
theorem EndsUp.congr (h : EndsUp r n w next ran last all) (hpassed : w.Passed a next ran)
    (halike : w.Alike r (r.reroute a t) e) (hperm : ran'.Perm ran) :
    EndsLike (r.reroute a t) w e next ran' last all := by
  induction h generalizing e ran' with
  | finished => exact ⟨0, e, ran', .finished, hperm⟩
  | past hunit => exact ⟨1, e, ran', .past hunit, hperm⟩
  | misses hmem hunit => exact ⟨1, e, ran', .misses hmem hunit, hperm⟩
  | skips hunit hskip h ih =>
    have hfurther := further_of_skipEnd? hskip
    exact .skips hunit hskip (ih (hpassed.further hfurther) (halike.further hfurther) hperm)
  | @recalls n w last u ran all hunit hskip hearly h ih =>
    have hcomes : w.ComesTo u := comesTo_of_unitAt? hunit hskip
    -- the walk does not come to the unit that is sent any more, so this unit signals the same
    have hne : u ≠ a := fun heq => hpassed.behind (heq ▸ hcomes)
    have hfurther := further_heed w ran.contains (r.signal u)
    refine .recalls hunit hskip ((halike u hcomes).get?_eq_some hearly) ?_
    rw [contains_eq_of_perm hperm, r.signal_reroute_of_ne a t hne]
    exact ih ((hpassed.heed (fun _ => id) (r.signal u)).mind _)
      (fun v hv => (halike v (hfurther.comesTo hv)).erase u) hperm
  | @comes n w last u ran all hunit hskip hearly h ih =>
    have hcomes : w.ComesTo u := comesTo_of_unitAt? hunit hskip
    have hpassed : w.Passed a (.execute u .unit) ran := ⟨hpassed.ran, hpassed.behind, by
      rintro resume ⟨⟩
      exact hpassed.behind hcomes⟩
    exact .comes hunit hskip ((halike u hcomes).get?_eq_none hearly) (ih hpassed halike hperm)
  | @runs n w last u ran all hmem hunit h ih =>
    have hne : u ≠ a := fun heq => hpassed.next _ (by rw [heq])
    have hperm := hperm.append_right [u]
    have hfurther := further_heed w (ran ++ [u]).contains (r.signal u)
    refine .runs hmem hunit ?_
    rw [contains_eq_of_perm hperm, r.signal_reroute_of_ne a t hne]
    exact ih (hpassed.heed (fun _ => List.mem_append_left _) (r.signal u)) (halike.further hfurther) hperm
  | @detours n w last u reached ran all hmem h ih =>
    have hfurther := further_forward w
    exact .detours hmem (ih ⟨List.mem_append_left _ hpassed.ran,
      fun h => hpassed.behind (hfurther.comesTo h), nofun⟩
      (fun v hv => (halike v (hfurther.comesTo hv)).keep u reached) (hperm.append_right [u]))

/-! ## While the target is executed ahead -/

/-- For a walk with units `e` in mind that has executed `ran'`, the unit `t` has been executed ahead.
Otherwise it has come as far as the walk that has executed `ran`. -/
structure Ahead (r : Roster) (a t : String) (w : Walk) (next : Intent) (ran : List String)
    (e : Table String Early) (ran' : List String) : Prop where
  passed : w.Passed a next ran
  due : t ∉ ran
  clear : w.early.get? t = none
  next : ∀ resume, next ≠ .execute t resume
  alike : ∀ u, w.ComesTo u → u ≠ t → MindsAlike r (r.reroute a t) w.early e u
  held : w.ComesTo t → e.get? t = some ((r.reroute a t).early t)
  perm : ran'.Perm (ran ++ [t])

theorem Ahead.mem (h : w.Ahead r a t next ran e ran') : t ∈ ran' :=
  h.perm.mem_iff.mpr (List.mem_append_right _ (List.mem_singleton_self t))

theorem Ahead.further (h : w.Ahead r a t next ran e ran') (hfurther : w.Further w') :
    w'.Ahead r a t .advance ran e ran' where
  passed := h.passed.further hfurther
  due := h.due
  clear := hfurther.early ▸ h.clear
  next := nofun
  alike u hcomes := hfurther.early ▸ h.alike u (hfurther.comesTo hcomes)
  held hcomes := h.held (hfurther.comesTo hcomes)
  perm := h.perm

/-- Both walks execute another unit. -/
theorem Ahead.execute {u : String} (h : w.Ahead r a t next ran e ran') (hother : u ≠ t) :
    w.Ahead r a t .advance (ran ++ [u]) e (ran' ++ [u]) where
  passed := ⟨List.mem_append_left _ h.passed.ran, h.passed.behind, nofun⟩
  due := by simpa [hother.symm] using h.due
  clear := h.clear
  next := nofun
  alike := h.alike
  held := h.held
  perm := by
    refine (h.perm.append_right [u]).trans ?_
    rw [List.append_assoc, List.append_assoc]
    exact (List.Perm.swap u t []).append_left ran

/-- The walk that has executed the target heeds a signal as the other one does, unless it is sent to
the target by it. -/
theorem heed_of_perm (hdue : t ∉ ran) (hperm : ran'.Perm (ran ++ [t])) (signal : Option String) :
    w.heed ran'.contains signal = w.heed ran.contains signal ∨
      w.heed ran.contains signal = (w.settle signal,
          .execute t (.detour t ((w.settle signal).willReach w.position t))) ∧
        w.heed ran'.contains signal = ((w.settle signal).forward, .advance) := by
  have hcontains : ∀ target, ran'.contains target = (ran.contains target || decide (target = t)) := by
    intro target
    rw [hperm.contains_eq]
    simp
  unfold heed
  split
  · next target _ =>
    rw [hcontains]
    by_cases heq : target = t
    · subst heq
      exact .inr ⟨by simp [hdue], by simp⟩
    · exact .inl (by simp [heq])
  · exact .inl rfl

/-- When the walk heeds a signal, the other one stays ahead of it, or the walk is sent to the target
now, and the other one is not. -/
theorem EndsUp.meets {m : Table String Early} {signal : Option String}
    (h : EndsUp r n ((w.heed ran.contains signal).1.mind m) (w.heed ran.contains signal).2 ran last all)
    (hall : t ∈ all) (hahead : (w.mind m).Ahead r a t .advance ran e ran')
    (ih : ((w.heed ran.contains signal).1.mind m).Ahead r a t (w.heed ran.contains signal).2 ran e ran' →
      EndsLike (r.reroute a t) (w.heed ran.contains signal).1 e (w.heed ran.contains signal).2 ran' last
        all) :
    EndsLike (r.reroute a t) (w.heed ran'.contains signal).1 e (w.heed ran'.contains signal).2 ran' last
      all := by
  have hfurther : (w.mind m).Further ((w.heed ran.contains signal).1.mind m) := by
    have := further_heed (w.mind m) ran.contains signal
    rwa [heed_mind] at this
  -- only a signal that sends the walk to the target is heeded in another way
  rcases heed_of_perm hahead.due hahead.perm signal with heq | ⟨hsent, hgone⟩
  · rw [heq]
    have hnext := fun resume (hnext : (w.heed ran.contains signal).2 = .execute t resume) =>
      not_hasRun_of_heed (heq.symm ▸ hnext)
    have hpassed : w.Passed a .advance ran := hahead.passed.mind w.early
    refine ih { hahead.further hfurther with
      passed := (hpassed.heed (fun _ => id) signal).mind m
      next := fun resume hsent => ?_ }
    simpa [hahead.mem] using hnext resume hsent
  · rw [hsent] at h hfurther
    rw [hgone]
    cases h with
    | misses hmem => exact absurd hall hahead.due
    | detours hmem h =>
      have hfurther := hfurther.trans (further_forward _)
      -- behind this errand, both walks have executed the target, and keep the same of it
      have halike : ((w.settle signal).forward.mind (keep r t
          ((w.settle signal).willReach w.position t) m)).Alike r (r.reroute a t) e := by
        intro u hcomes
        by_cases heq : u = t
        · subst heq
          have hreach : (w.settle signal).willReach w.position u = true :=
            position_settle w signal ▸ willReach_of_comesTo hcomes
          refine .inr ⟨?_, hahead.held (hfurther.comesTo hcomes)⟩
          rw [hreach]
          exact Table.get?_insert_self ..
        · have halike := hahead.alike u (hfurther.comesTo hcomes) heq
          unfold MindsAlike at halike ⊢
          rwa [show (mind _ (keep r t _ m)).early.get? u = m.get? u from get?_keep_of_ne r heq _ m]
      exact h.congr (t := t) ⟨List.mem_append_left _ hahead.passed.ran,
        fun h => hahead.passed.behind (hfurther.comesTo h), nofun⟩ halike hahead.perm

/-- A walk for which the target has been executed ahead ends up as the other one does, with the same
units executed, if that one executes the target at all. -/
theorem EndsUp.catchesUp (h : EndsUp r n w next ran last all) (hne : t ≠ a) (hall : t ∈ all)
    (hahead : w.Ahead r a t next ran e ran') : EndsLike (r.reroute a t) w e next ran' last all := by
  induction h generalizing e ran' with
  | finished | past | misses => exact absurd hall hahead.due
  | skips hunit hskip h ih =>
    exact .skips hunit hskip (ih hall (hahead.further (further_of_skipEnd? hskip)))
  | @recalls n w last u ran all hunit hskip hearly h ih =>
    have hcomes : w.ComesTo u := comesTo_of_unitAt? hunit hskip
    have hpassed : u ≠ a := fun heq => hahead.passed.behind (heq ▸ hcomes)
    have hother : u ≠ t := by
      rintro rfl
      cases hearly.symm.trans hahead.clear
    refine .recalls hunit hskip ((hahead.alike u hcomes hother).get?_eq_some hearly) ?_
    rw [r.signal_reroute_of_ne a t hpassed]
    exact h.meets (e := e.erase u) hall
      { passed := hahead.passed.mind _, due := hahead.due
        clear := (Table.get?_erase ..).trans (by rw [hahead.clear, ite_self])
        next := nofun
        alike := fun v hv hother => (hahead.alike v hv hother).erase u
        held := fun hv => by rw [Table.get?_erase, if_neg hother, hahead.held hv]
        perm := hahead.perm } (ih hall)
  | @comes n w last u ran all hunit hskip hearly h ih =>
    have hcomes : w.ComesTo u := comesTo_of_unitAt? hunit hskip
    have hpassed : u ≠ a := fun heq => hahead.passed.behind (heq ▸ hcomes)
    by_cases heq : u = t
    · subst heq
      -- the walk executes the target itself now, and the other one recalls it
      cases h with
      | misses hmem => exact absurd hall hahead.due
      | @runs k _ _ _ _ _ hmem _ h =>
        have hfurther := further_heed w (ran ++ [u]).contains (r.signal u)
        have halike : (w.heed (ran ++ [u]).contains (r.signal u)).1.Alike r (r.reroute a u)
            (e.erase u) := by
          intro v hv
          unfold MindsAlike
          rw [hfurther.early, Table.get?_erase]
          split
          · next heq => exact .inl ⟨heq ▸ hahead.clear, rfl⟩
          · next hother => exact hahead.alike v (hfurther.comesTo hv) (Ne.symm hother)
        refine .recalls hunit hskip (hahead.held hcomes) ?_
        rw [contains_eq_of_perm hahead.perm, r.signal_reroute_of_ne a u hpassed]
        exact h.congr (hahead.passed.heed (fun _ => List.mem_append_left _) _) halike hahead.perm
    · refine .comes hunit hskip ((hahead.alike u hcomes heq).get?_eq_none hearly) (ih hall ?_)
      exact { hahead with
        passed := ⟨hahead.passed.ran, hahead.passed.behind, by
          rintro resume ⟨⟩
          exact hpassed rfl⟩
        next := by
          rintro resume ⟨⟩
          exact heq rfl }
  | @runs n w last u ran all hmem hunit h ih =>
    have hpassed : u ≠ a := fun heq => hahead.passed.next _ (by rw [heq])
    have hother : u ≠ t := fun heq => hahead.next _ (by rw [heq])
    rw [← mind_heed] at h
    refine .runs hmem hunit ?_
    rw [r.signal_reroute_of_ne a t hpassed]
    exact h.meets hall (hahead.execute hother) (mind_heed w .. ▸ ih hall)
  | @detours n w last u reached ran all hmem h ih =>
    have hother : u ≠ t := fun heq => hahead.next _ (by rw [heq])
    have hahead := (hahead.execute hother).further (further_forward w)
    exact .detours hmem (ih hall
      { hahead with
        passed := hahead.passed.mind _
        clear := (get?_keep_of_ne r hother.symm reached _).trans hahead.clear
        alike := fun v hv hne => (hahead.alike v hv hne).keep u reached
        held := fun hv => (get?_keep_of_ne _ hother.symm reached e).trans (hahead.held hv) })

/-! ## Up to the unit that is sent -/

/-- All that is executed is registered. -/
theorem EndsUp.mem_ids {u : String} (h : EndsUp r n w next ran last all) (hall : u ∈ all)
    (hran : u ∉ ran) : u ∈ r.ids := by
  induction h with
  | finished | past | misses => exact absurd hall hran
  | skips _ _ _ ih | recalls _ _ _ _ ih | comes _ _ _ _ ih => exact ih hall hran
  | @runs _ _ _ v _ _ hmem _ _ ih | @detours _ _ _ v _ _ _ hmem _ ih =>
    by_cases heq : u = v
    · exact heq ▸ hmem
    · exact ih hall (by simp [hran, heq])

/-- Where a unit that is no router has left no signal, the walk goes on to the next position. -/
theorem heed_none (hchoice : w.plan.choiceAt? w.position = none) (hasRun : String → Bool) :
    w.heed hasRun none = (w.forward, .advance) := by
  simp [heed, errand?, settle, hchoice]

/-- Where it is sent to a unit, the walk executes that unit first, unless that has been done. -/
theorem heed_some (hchoice : w.plan.choiceAt? w.position = none) (hlabel : Label.ofText? t = none)
    (hasRun : String → Bool) : w.heed hasRun (some t) = if hasRun t then (w.forward, .advance)
      else (w, .execute t (.detour t (w.willReach w.position t))) := by
  simp [heed, errand?, settle, hchoice, hlabel]

/-- At the position of the unit that is sent, one walk goes on, and the other one executes the target
first. -/
theorem EndsUp.setsOut {m : Table String Early} (h : EndsUp r n (w.forward.mind m) .advance ran last all)
    (hdistinct : w.plan.Distinct) (hunit : w.plan.unitAt? w.position = some a)
    (hchoice : w.plan.choiceAt? w.position = none) (hlabel : Label.ofText? t = none) (hall : t ∈ all)
    (hmem : a ∈ ran) (hran : ∀ u, m.get? u ≠ none → u ∈ ran)
    (halike : (w.forward.mind m).Alike r (r.reroute a t) e)
    (ih : EndsLike (r.reroute a t) w.forward e .advance ran last all) :
    EndsLike (r.reroute a t) (w.heed ran.contains (some t)).1 e (w.heed ran.contains (some t)).2 ran last
      all := by
  rw [heed_some hchoice hlabel]
  split
  · exact ih
  · next hnot =>
    have hdue : t ∉ ran := by simpa using hnot
    have hne : t ≠ a := fun heq => hdue (heq ▸ hmem)
    have hover : ¬ (w.forward.mind m).ComesTo a := by
      rintro ⟨i, hi, hunit', -⟩
      have heq := hdistinct.unique hunit hunit'
      exact absurd hi (by simp [heq, forward, mind])
    have hahead : (w.forward.mind m).Ahead r a t .advance ran
        (keep (r.reroute a t) t (w.willReach w.position t) e) (ran ++ [t]) :=
      { passed := ⟨hmem, hover, nofun⟩
        due := hdue
        clear := by_contra fun hsome => hdue (hran t hsome)
        next := nofun
        alike := fun u hcomes hother => by
          unfold MindsAlike
          rw [get?_keep_of_ne _ hother]
          exact halike u hcomes
        held := fun hcomes => by
          rw [willReach_of_comesTo (w := w) hcomes]
          exact Table.get?_insert_self ..
        perm := .refl _ }
    exact .detours (h.mem_ids hall hdue) (h.catchesUp hne hall hahead)

/-- How the walks go on after the signal of a unit, which may be the one that is sent. -/
theorem EndsUp.heeds {m : Table String Early} {u : String}
    (h : EndsUp r n ((w.heed ran.contains (r.signal u)).1.mind m)
      (w.heed ran.contains (r.signal u)).2 ran last all)
    (hquiet : r.signal a = none) (hlabel : Label.ofText? t = none) (hdistinct : w.plan.Distinct)
    (hplain : ∀ i, w.plan.unitAt? i = some a → w.plan.choiceAt? i = none)
    (hunit : w.plan.unitAt? w.position = some u) (hall : t ∈ all) (hmem : u ∈ ran)
    (hran : ∀ v, m.get? v ≠ none → v ∈ ran) (halike : (w.mind m).Alike r (r.reroute a t) e)
    (ih : ((w.heed ran.contains (r.signal u)).1.mind m).Alike r (r.reroute a t) e →
      EndsLike (r.reroute a t) (w.heed ran.contains (r.signal u)).1 e
        (w.heed ran.contains (r.signal u)).2 ran last all) :
    EndsLike (r.reroute a t) (w.heed ran.contains ((r.reroute a t).signal u)).1 e
      (w.heed ran.contains ((r.reroute a t).signal u)).2 ran last all := by
  have hfurther := further_heed (w.mind m) ran.contains (r.signal u)
  rw [heed_mind] at hfurther
  have ih := ih (halike.further hfurther)
  by_cases heq : u = a
  · subst heq
    have hchoice := hplain _ hunit
    rw [hquiet, heed_none hchoice] at h ih
    rw [r.signal_reroute_self]
    exact h.setsOut hdistinct hunit hchoice hlabel hall hmem hran
      (halike.further (further_forward (w.mind m))) ih
  · rw [r.signal_reroute_of_ne a t heq]
    exact ih

/-- Sending a unit that has left no signal to one that the walk executes anyway changes nothing but the
order in which units are executed. -/
theorem EndsUp.reroute (h : EndsUp r n w next ran last all) (hquiet : r.signal a = none)
    (hlabel : Label.ofText? t = none) (hdistinct : w.plan.Distinct)
    (hplain : ∀ i, w.plan.unitAt? i = some a → w.plan.choiceAt? i = none) (hall : t ∈ all)
    (halike : w.Alike r (r.reroute a t) e) (hran : ∀ u, w.early.get? u ≠ none → u ∈ ran) :
    EndsLike (r.reroute a t) w e next ran last all := by
  induction h generalizing e with
  | finished => exact ⟨0, e, _, .finished, .refl _⟩
  | past hunit => exact ⟨1, e, _, .past hunit, .refl _⟩
  | misses hmem hunit => exact ⟨1, e, _, .misses hmem hunit, .refl _⟩
  | skips hunit hskip h ih =>
    exact .skips hunit hskip
      (ih hdistinct hplain hall (halike.further (further_of_skipEnd? hskip)) hran)
  | @recalls n w last u ran all hunit hskip hearly h ih =>
    have hcomes : w.ComesTo u := comesTo_of_unitAt? hunit hskip
    have hmem : u ∈ ran := hran u (by simp [hearly])
    -- what is kept in mind has been executed, and stays so when it is recalled
    have herased : ∀ v, (w.early.erase u).get? v ≠ none → v ∈ ran := by
      intro v hv
      rw [Table.get?_erase] at hv
      split at hv
      · exact absurd rfl hv
      · exact hran v hv
    have hfurther := further_heed w ran.contains (r.signal u)
    refine .recalls hunit hskip ((halike u hcomes).get?_eq_some hearly) ?_
    exact h.heeds hquiet hlabel hdistinct hplain hunit hall hmem herased
      (fun v hv => (halike v hv).erase u) fun halike =>
        ih (hfurther.plan ▸ hdistinct) (hfurther.plan ▸ hplain) hall halike herased
  | comes hunit hskip hearly h ih =>
    have hminds := (halike _ (comesTo_of_unitAt? hunit hskip)).get?_eq_none hearly
    exact .comes hunit hskip hminds (ih hdistinct hplain hall halike hran)
  | @runs n w last u ran all hmem hunit h ih =>
    have hran : ∀ v, w.early.get? v ≠ none → v ∈ ran ++ [u] :=
      fun v hv => List.mem_append_left _ (hran v hv)
    have hfurther := further_heed w (ran ++ [u]).contains (r.signal u)
    rw [← mind_heed] at h ih
    exact .runs hmem hunit (h.heeds hquiet hlabel hdistinct hplain hunit hall (by simp) hran halike
      fun halike => ih (hfurther.plan ▸ hdistinct) (hfurther.plan ▸ hplain) hall halike hran)
  | @detours n w last u reached ran all hmem h ih =>
    have hkept : ∀ v, (keep r u reached w.early).get? v ≠ none → v ∈ ran ++ [u] := by
      intro v hv
      by_cases heq : v = u
      · simp [heq]
      · rw [get?_keep_of_ne r heq] at hv
        exact List.mem_append_left _ (hran v hv)
    exact .detours hmem (ih hdistinct hplain hall
      (fun v hv => (halike v ((further_forward w).comesTo hv)).keep u reached) hkept)

end Walk

end Workflow
