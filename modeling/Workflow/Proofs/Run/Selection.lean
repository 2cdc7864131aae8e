import Workflow.Proofs.Run.Branches
import Workflow.Proofs.Run.Pruning
import Workflow.Proofs.Run.StepsOver

/-!
# Selecting an arm

Behind the end of a condition a walk goes on with a routing value, if there is one
(`Process.Answers`): its unit has just ended, or had been executed ahead of its position, or a group or
a fork has joined. There is no other way in which a walk comes to skip anything.

What the value selects is an arm or none (`Process.Heeds`): the value `false` selects the arm for it,
any other value that names the first unit of an arm selects that arm, and a value that neither is a
label nor names such a unit selects no arm. The value `true` selects the arm for it as well, unless the
other arm begins with a unit of that name. The arm that is selected is not skipped, and what is not
selected is skipped as a whole, from then on for good (`Executor.History.selects`).
-/

namespace Workflow

/-! ## Arms -/

/-- The positions of the arm with a label, if the arms of a conditional begin at `start`. -/
def Node.armSpan (whenTrue whenFalse : Node) (start : Nat) : Label → Span
  | true => ⟨start, start + whenTrue.width⟩
  | false => ⟨start + whenTrue.width, start + whenTrue.width + whenFalse.width⟩

/-- A walk goes on in one of two arms: nothing of it is skipped, and all of the other one. -/
structure Process.Enters (q : Process) (own other : Span) : Prop where
  next : q.activity = .poised .advance
  ahead : q.walk.position = own.start ∨ q.walk.skipEnd? q.walk.position = some own.start
  open_ : ∀ position, own.start ≤ position → position < own.stop → ¬ q.walk.Skips position
  left : q.walk.SkipsAll other

/-- A walk goes on behind a condition at `start` and skips both arms. Before that it may execute a unit
that it was routed to. -/
structure Process.Bypasses (q : Process) (start : Nat) (value : String) (first second : Span) :
    Prop where
  next : (q.activity = .poised .advance ∧ q.walk.position = start) ∨
    q.walk.position + 1 = start ∧ ∃ reached,
      q.activity = .poised (.execute value (.detour value reached))
  first : q.walk.SkipsAll first
  second : q.walk.SkipsAll second

/-- A walk goes on behind the condition of a conditional, with a routing value or with none. The arms
begin at `start`, and with the units `first` and `second`. -/
structure Process.Heeds (q : Process) (whenTrue whenFalse : Node) (start : Nat) (first second : String)
    (signal : Option String) : Prop where
  onFalse : signal = none ∨ signal = some (Label.text false) ∨ signal = some second →
    q.Enters (whenTrue.armSpan whenFalse start false) (whenTrue.armSpan whenFalse start true)
  onTrue : signal = some (Label.text true) ∨ signal = some first → signal ≠ some (Label.text false) →
    signal ≠ some second →
    q.Enters (whenTrue.armSpan whenFalse start true) (whenTrue.armSpan whenFalse start false)
  neither : ∀ value, signal = some value → (∀ label : Label, value ≠ label.text) → value ≠ first →
    value ≠ second → q.Bypasses start value (whenTrue.armSpan whenFalse start true)
      (whenTrue.armSpan whenFalse start false)

/-- A walk has not gone on yet: it waits for units that its unit has chosen, and will go on with this
routing value then. -/
structure Process.Defers (q : Process) (w : Walk) (signal : Option String) : Prop where
  position : q.walk.position = w.position
  skipped : q.walk.skipped = w.skipped
  fork : ∃ entries, q.activity.fork? = some (.scattered entries signal)

/-- The process that a turn of its walk makes of it. -/
def Turn.process (t : Turn) (serial : Nat) : Process := .mk serial t.walk (.poised t.next)

/-- Of two arms, a value selects the one for `false` if it is that label or names its first unit, and
otherwise the one for `true` if it is that label or names its first unit. -/
theorem Choice.labelFor?_eq {choice : Choice} {whenTrue whenFalse : Arm}
    (h : choice.arms.entries = [(false, whenFalse), (true, whenTrue)]) (value : String) :
    choice.labelFor? value =
      if value = Label.text false ∨ value = whenFalse.target then some false
      else if value = Label.text true ∨ value = whenTrue.target then some true else none := by
  have hmatches : ∀ (label : Label) (arm : Arm),
      (decide (label.text = value) || decide (arm.target = value)) =
        decide (value = label.text ∨ value = arm.target) := fun label arm => by
    rw [← Bool.decide_or]
    exact decide_eq_decide.mpr (or_congr eq_comm eq_comm)
  unfold labelFor?
  rw [h, List.find?_cons, List.find?_cons, List.find?_nil]
  simp only [hmatches]
  split <;> split <;> simp_all

namespace Walk

variable {w : Walk} {node c t f : Node} {i serial : Nat} {behind arms : Node.Arms}
  {u first second value : String} {scope : Scope} {hasRun : String → Bool}

/-- A conditional at the end of whose condition a walk is, and the first units of its arms. -/
structure AtCondition (w : Walk) (node c t f : Node) (i : Nat) (first second : String) : Prop where
  stands : ∃ behind, Node.Stands (.conditional c t f) i behind node 0 none
  last : i + c.width = w.position + 1
  first : t.leaves.head? = some first
  second : f.leaves.head? = some second

namespace AtCondition

/-- The choice of the plan is between the arms of the conditional. -/
theorem exists_choice {reach : Nat} (h : w.AtCondition node c t f i first second)
    (hprunes : w.Prunes node reach) : ∃ choice, w.plan.choiceAt? w.position = some choice ∧
      choice.arms.entries = [(false, ⟨second, t.armSpan f (w.position + 1) false⟩),
        (true, ⟨first, t.armSpan f (w.position + 1) true⟩)] := by
  obtain ⟨⟨behind, hstands⟩, hlast, hfirst, hsecond⟩ := h
  obtain ⟨hc, ht, hf⟩ := (hprunes.lays.part hstands).parts
  obtain ⟨choice, first', second', hchoice, -, -, harms⟩ := hc.arms
  rw [hlast, Nat.add_sub_cancel] at hchoice harms
  refine ⟨choice, hchoice, ?_⟩
  -- the targets of the arms are the units at their starts
  obtain ⟨whenTrue, whenFalse, hfits⟩ :=
    (hprunes.normal.wellFormed hprunes.plan).fits.choices _ (Table.mem_of_lookup hchoice)
  have hentries := hfits.arms
  rw [harms] at hentries
  cases hentries
  have htarget := (ht.reads.head hfirst).symm.trans (hlast ▸ hfits.target_true)
  have htarget' := (hf.reads.head hsecond).symm.trans (hlast ▸ hfits.target_false)
  cases htarget
  cases htarget'
  exact harms

/-- The arms are ahead of the walk, so nothing of them is skipped. -/
theorem not_skips_arms (h : w.AtCondition node c t f i first second)
    (hprunes : w.Prunes node w.position) (hopen : ¬ w.Skips w.position) {position : Nat}
    (hge : w.position + 1 ≤ position) (hlt : position < w.position + 1 + t.width + f.width) :
    ¬ w.Skips position := by
  obtain ⟨⟨behind, hstands⟩, hlast, -, -⟩ := h
  have hwidth := hprunes.width_pos hstands
  exact hprunes.not_skips_arms hstands (by omega) hopen (by omega) (by omega) (by omega) (by omega)

/-- Choosing an arm, the walk goes on in it. -/
theorem enters (h : w.AtCondition node c t f i first second) (hprunes : w.Prunes node w.position)
    (hopen : ¬ w.Skips w.position) {choice : Choice}
    (hchoice : w.plan.choiceAt? w.position = some choice) (label : Label) (scope : Scope)
    (serial : Nat) : (((w.chooseArm choice label).proceed scope).process serial).Enters
      (t.armSpan f (w.position + 1) label) (t.armSpan f (w.position + 1) (!label)) := by
  have hclear : ∀ position, w.position + 1 ≤ position →
      position < w.position + 1 + t.width + f.width → ¬ w.Skips position :=
    fun _ hge hlt => h.not_skips_arms hprunes hopen hge hlt
  obtain ⟨⟨behind, hstands⟩, hlast, -, -⟩ := h
  have hwidth := hprunes.width_pos hstands
  let w' := (w.chooseArm choice label).forward
  have hskipped : w'.skipped = w.skipped ++ [t.armSpan f (w.position + 1) (!label)] := by
    rw [hprunes.skipped_choose hstands hlast hchoice label, hlast]
    cases label <;> rfl
  have hskips : ∀ position, w'.Skips position ↔ w.Skips position ∨
      ((t.armSpan f (w.position + 1) (!label)).start ≤ position ∧
        position < (t.armSpan f (w.position + 1) (!label)).stop) := fun position => by
    simp only [Skips, hskipped, List.mem_append, List.mem_singleton, or_and_right, exists_or,
      exists_eq_left]
  refine ⟨rfl, ?_, fun position hge hlt => ?_, fun position hge hlt => (hskips position).mpr (.inr ⟨hge, hlt⟩)⟩
  · cases label with
    | true => exact .inl rfl
    | false =>
      -- the arm for `true` is skipped, and it ends where the other one begins
      have hnone : skipEndIn w.skipped (w.position + 1) = none := by
        rw [← skipEnd?_eq]
        rcases hskip : w.skipEnd? (w.position + 1) with _ | stop
        · rfl
        · obtain ⟨span, hmem, hge, hlt, -⟩ := exists_of_skipEnd? hskip
          exact absurd ⟨span, hmem, hge, hlt⟩ (hclear _ (Nat.le_refl _) (by omega))
      refine .inr ?_
      show w'.skipEnd? (w.position + 1) = _
      rw [skipEnd?_eq, hskipped]
      refine skipEndIn_append_of_mem hnone (Nat.le_refl _) ?_
      simp only [Bool.not_false, Node.armSpan]
      omega
  · show ¬ w'.Skips position
    rw [hskips]
    cases label <;> simp only [Node.armSpan, Bool.not_true, Bool.not_false] at hge hlt ⊢ <;>
      exact fun hskips => hskips.elim (hclear position (by omega) (by omega)) (by omega)

/-- Choosing no arm, the walk skips both. -/
theorem bypasses (h : w.AtCondition node c t f i first second) (hprunes : w.Prunes node w.position)
    {choice : Choice} (hchoice : w.plan.choiceAt? w.position = some choice) (scope : Scope)
    (hasRun : String → Bool) (value : String) (serial : Nat) :
    (((w.skipArms choice).detour scope hasRun value).process serial).Bypasses (w.position + 1) value
      (t.armSpan f (w.position + 1) true) (t.armSpan f (w.position + 1) false) := by
  obtain ⟨_, hsame, harms⟩ := h.exists_choice hprunes
  cases hchoice.symm.trans hsame
  have hskips : ∀ label, (w.skipArms choice).SkipsAll (t.armSpan f (w.position + 1) label) := by
    intro label position hge hlt
    refine ⟨_, List.mem_append_right _ ?_, hge, hlt⟩
    rw [Table.values, harms]
    cases label <;> simp
  unfold detour
  split
  · exact ⟨.inl ⟨rfl, rfl⟩, hskips true, hskips false⟩
  · exact ⟨.inr ⟨rfl, _, rfl⟩, hskips true, hskips false⟩

/-- What a routing value selects, if it does not ask the walk to stop. -/
theorem heeds_steer (h : w.AtCondition node c t f i first second) (hprunes : w.Prunes node w.position)
    (hopen : ¬ w.Skips w.position) {signal : Option String} (hgoes : signal ≠ some stopValue)
    (scope : Scope) (hasRun : String → Bool) (u : String) (serial : Nat) :
    ((w.steer scope hasRun u signal).process serial).Heeds t f (w.position + 1) first second signal := by
  obtain ⟨choice, hchoice, harms⟩ := h.exists_choice hprunes
  -- with a label the walk goes on in the arm for it, whichever of the two it is
  have henters := h.enters hprunes hopen hchoice
  rcases signal with _ | value
  · have hsteer : w.steer scope hasRun u none = (w.chooseArm choice false).proceed scope := by
      rw [steer_none, fallThrough, hchoice]
    rw [hsteer]
    have hnever : ∀ value, (none : Option String) ≠ some value := fun _ => (Option.some_ne_none _).symm
    exact ⟨fun _ => henters false scope serial, fun heq => (heq.elim (hnever _) (hnever _)).elim,
      fun _ heq => absurd heq (hnever _)⟩
  have hlabel := Choice.labelFor?_eq harms value
  -- with a value it all depends on the label that the value stands for, if it stands for one
  have hsteer : w.steer scope hasRun u (some value) = (choice.labelFor? value).elim
      ((w.skipArms choice).detour scope hasRun value)
      fun label => (w.chooseArm choice label).proceed scope := by
    unfold steer
    rw [hchoice]
    refine (if_neg fun heq => hgoes (congrArg some heq)).trans ?_
    simp only
    cases choice.labelFor? value <;> rfl
  rw [hsteer]
  simp only [← Option.some.injEq value] at hlabel
  refine ⟨fun hfalse => ?_, fun htrue hlabelled hnamed => ?_, fun _ heq hplain hfirst hsecond => ?_⟩
  · rw [if_pos (hfalse.resolve_left (Option.some_ne_none _))] at hlabel
    simp only [hlabel]
    exact henters false scope serial
  · rw [if_neg (not_or.mpr ⟨hlabelled, hnamed⟩), if_pos htrue] at hlabel
    simp only [hlabel]
    exact henters true scope serial
  · cases heq
    simp only [Option.some.injEq] at hlabel
    rw [if_neg (not_or.mpr ⟨hplain false, hsecond⟩), if_neg (not_or.mpr ⟨hplain true, hfirst⟩)] at hlabel
    simp only [hlabel]
    exact h.bypasses hprunes hchoice scope hasRun value serial

/-- What the signals of a unit at the end of a condition lead to. -/
theorem heeds_obey (h : w.AtCondition node c t f i first second) (hprunes : w.Prunes node w.position)
    (hunit : w.AtUnit node u) {signal : Option String} (hgoes : signal ≠ some stopValue) (scope : Scope)
    (hasRun : String → Bool) (fork : Option (List String)) (serial : Nat) :
    let q := (w.obey scope hasRun u signal fork).process serial
    q.Defers w signal ∨ q.Heeds t f (w.position + 1) first second signal := by
  -- no group is anchored on a unit that chooses between arms
  have hgroup : w.plan.groupAfter? w.position = none := by
    rcases hgroup : w.plan.groupAfter? w.position with _ | group
    · rfl
    · obtain ⟨nodes, ⟨-, -, hnear⟩, -, -⟩ := hprunes.atGroup_of_groupAfter? hunit hgroup
      obtain ⟨⟨behind, hstands⟩, hlast, -, -⟩ := h
      rcases hnear with hnear | ⟨-, hnone⟩
      · omega
      · exact absurd hnone (hprunes.choiceAt?_ne_none hstands hlast)
  unfold obey
  rw [if_neg hgoes, hgroup]
  split
  · next heq => cases heq
  · next heq => cases heq
  · next entries _ _ => exact .inl ⟨rfl, rfl, entries, rfl⟩
  · exact .inr (h.heeds_steer hprunes hunit.2 hgoes scope hasRun u serial)

end AtCondition

end Walk

/-! ## Routing values -/

/-- The routing value that a unit has left that was executed ahead of its position. -/
def Early.value? (scope : Scope) (u : String) : Early → Option String
  | .forked => (scope.slots u).target
  | .routed route _ => route
  | .failed => none

/-- By a move of its own a walk goes on behind a position of its plan, with a routing value or with
none, and becomes another process by that. The value is the one that the router at this position has
left. -/
inductive Process.Answers (who task : Nat) (q : Process) (run : RunState) (e : Engine) :
    Nat → Option String → Process → Prop where
  /-- Its unit has ended, and the listeners have been told. -/
  | unit {job : Job} {told : Scene} (hactivity : q.activity = .working job .done)
      (hstage : job.stage = .after) (hresume : job.resume = .unit)
      (htold : told = Scene.announce ⟨q.walk, q.activity, run, e⟩ task q.serial job .after none) :
    Answers who task q run e q.walk.position (told.run.scope.slots job.unitId).target
      ((told.endUnit task q.serial job none).process q.serial)
  /-- Its unit has failed. -/
  | failed {job : Job} {failure : Failure} {told : Scene} {behavior : Behavior}
      (hactivity : q.activity = .working job behavior) (hstage : job.stage = .onError failure)
      (hresume : job.resume = .unit)
      (htold : told =
        Scene.announce ⟨q.walk, q.activity, run, e⟩ task q.serial job .error (some failure)) :
    Answers who task q run e q.walk.position none
      ((told.endUnit task q.serial job (some ⟨failure, job.unit.tolerant⟩)).process q.serial)
  /-- The unit that it has come to was executed before, because the walk was routed to it or it stood in
  a fork. -/
  | ahead {u : String} {early : Early} (hactivity : q.activity = .poised .advance)
      (hunit : q.walk.plan.unitAt? q.walk.position = some u)
      (hopen : q.walk.skipEnd? q.walk.position = none)
      (hgroup : q.walk.plan.groupAt? q.walk.position = none)
      (hearly : q.walk.early.get? u = some early) :
    Answers who task q run e q.walk.position (early.value? run.scope u)
      ((q.walk.advance run.scope run.hasRun).process q.serial)
  /-- A group at the end of a condition has joined. -/
  | joined {anchor router : String} {completed : List String} {found : RunState} {engine : Engine}
      {stop : Nat} (hcloses : q.Closes who task run e anchor none completed found engine)
      (hresume : q.activity.fork? = some (.group stop))
      (hrouter : q.walk.plan.unitAt? (stop - 1) = some router)
      (hchoice : q.walk.plan.choiceAt? (stop - 1) ≠ none) :
    Answers who task q run e (stop - 1) (found.scope.slots router).target
      ((Scene.close ⟨q.walk, q.activity, found, engine⟩ task q.serial anchor (.group stop) none
        completed).process q.serial)
  /-- What its unit has forked has joined. The unit had left a value with the fork. -/
  | scattered {anchor : String} {result : Option Failure} {completed entries : List String}
      {found : RunState} {engine : Engine} {signal : Option String}
      (hcloses : q.Closes who task run e anchor result completed found engine)
      (hresume : q.activity.fork? = some (.scattered entries signal))
      (hsurvives : ∀ failure, result = some failure →
        Walk.survivesGroup found.context.tolerant failure = true) :
    Answers who task q run e q.walk.position signal
      ((Scene.close ⟨q.walk, q.activity, found, engine⟩ task q.serial anchor
        (.scattered entries signal) result completed).process q.serial)

namespace Walk

variable {w : Walk} {node c t f : Node} {i : Nat} {u first second value : String} {scope : Scope}
  {hasRun : String → Bool} {tolerant : Bool}

theorem AtCondition.of_eq {w' : Walk} (h : w.AtCondition node c t f i first second)
    (hposition : w'.position = w.position) : w'.AtCondition node c t f i first second :=
  ⟨h.stands, hposition ▸ h.last, h.first, h.second⟩

/-- What a unit at the end of a condition leads to when it has ended. -/
theorem AtCondition.heeds_ownUnitDone (h : w.AtCondition node c t f i first second)
    (hprunes : w.Prunes node w.position) (hunit : w.AtUnit node u)
    (hgoes : (scope.slots u).target ≠ some stopValue) (serial : Nat) :
    let q := (w.ownUnitDone scope hasRun tolerant none).process serial
    q.Defers w (scope.slots u).target ∨
      q.Heeds t f (w.position + 1) first second (scope.slots u).target := by
  unfold ownUnitDone
  rw [hprunes.unitAt?_of_atUnit hunit]
  simp only
  rw [Scope.takeRoute_fst]
  exact h.heeds_obey hprunes hunit hgoes ..

/-- What a unit at the end of a condition leads to when it has failed. -/
theorem AtCondition.heeds_ownUnitDone_some (h : w.AtCondition node c t f i first second)
    (hprunes : w.Prunes node w.position) (hunit : w.AtUnit node u) (mishap : Mishap) (serial : Nat) :
    let q := (w.ownUnitDone scope hasRun tolerant (some mishap)).process serial
    q.Heeds t f (w.position + 1) first second none ∨ q.isFinished = true := by
  have hadded : (w.addFailure mishap.failure).Prunes node w.position :=
    hprunes.moveTo rfl rfl (Nat.le_refl _)
  have hcondition : (w.addFailure mishap.failure).AtCondition node c t f i first second := h.of_eq rfl
  have hgoes : (none : Option String) ≠ some stopValue := nofun
  unfold ownUnitDone
  rw [hprunes.unitAt?_of_atUnit hunit]
  simp only
  split
  · rw [← steer_none (w.addFailure mishap.failure) _ hasRun u]
    exact .inl (hcondition.heeds_steer hadded hunit.2 hgoes ..)
  · exact .inr rfl

/-- What a unit at the end of a condition leads to that was executed before. -/
theorem AtCondition.heeds_advance {early : Early} (h : w.AtCondition node c t f i first second)
    (hprunes : w.Prunes node w.position) (hreaches : node.Reaches w.position)
    (hunit : w.plan.unitAt? w.position = some u) (hopen : w.skipEnd? w.position = none)
    (hgroup : w.plan.groupAt? w.position = none) (hearly : w.early.get? u = some early)
    (hgoes : early.value? scope u ≠ some stopValue) (serial : Nat) :
    let q := (w.advance scope hasRun).process serial
    q.Defers w (early.value? scope u) ∨
      q.Heeds t f (w.position + 1) first second (early.value? scope u) := by
  have hat : w.AtUnit node u := by
    rcases hprunes.exists_work hreaches hunit (not_skips_of_skipEnd? hopen) with ⟨hat, -⟩ |
      ⟨nodes, group, -, hsome, -⟩
    · exact hat
    · cases hgroup.symm.trans hsome
  have herased : Prunes { w with early := w.early.erase u } node w.position :=
    hprunes.moveTo rfl rfl (Nat.le_refl _)
  have hcondition : AtCondition { w with early := w.early.erase u } node c t f i first second :=
    h.of_eq rfl
  unfold advance
  simp only [hunit, hopen, hgroup, hearly]
  cases early with
  | failed =>
    simp only
    rw [← steer_none { w with early := w.early.erase u } scope hasRun u]
    exact .inr (hcondition.heeds_steer herased hat.2 hgoes ..)
  | forked =>
    simp only
    rw [Scope.takeRoute_fst]
    exact (hcondition.heeds_obey herased hat hgoes ..).imp_left fun hdefers =>
      ⟨hdefers.position, hdefers.skipped, hdefers.fork⟩
  | routed route fork =>
    exact (hcondition.heeds_obey herased hat hgoes ..).imp_left fun hdefers =>
      ⟨hdefers.position, hdefers.skipped, hdefers.fork⟩

/-- What a group at the end of a condition leads to. -/
theorem AtCondition.heeds_groupDone {nodes : List Node} {start : Nat} {router : String}
    (h : AtCondition { w with position := start + Node.widthOf nodes - 1 } node c t f i first second)
    (hprunes : w.Prunes node w.position) (hgroup : w.AtGroup node nodes start)
    (hrouter : w.plan.unitAt? (start + Node.widthOf nodes - 1) = some router)
    (hgoes : (scope.slots router).target ≠ some stopValue) (serial : Nat) :
    ((w.groupDone scope hasRun tolerant (start + Node.widthOf nodes) none).process serial).Heeds t f
      (start + Node.widthOf nodes - 1 + 1) first second (scope.slots router).target := by
  obtain ⟨hle, -, arms, -, hopen⟩ := hprunes.atEnd_of_atGroup hgroup
  have hmoved : Prunes { w with position := start + Node.widthOf nodes - 1 } node
      (start + Node.widthOf nodes - 1) := hprunes.moveTo rfl rfl hle
  obtain ⟨choice, hchoice, -⟩ := h.exists_choice hmoved
  have hchoice : w.plan.choiceAt? (start + Node.widthOf nodes - 1) = some choice := hchoice
  unfold groupDone
  simp only [hchoice, hrouter]
  rw [Scope.takeRoute_fst]
  exact h.heeds_steer hmoved hopen hgoes ..

/-- What a fork that a unit at the end of a condition has chosen leads to. -/
theorem AtCondition.heeds_scatterDone {entries : List String} {result : Option Failure}
    {signal : Option String} (h : w.AtCondition node c t f i first second)
    (hprunes : w.Prunes node w.position) (hunit : w.AtUnit node u)
    (hsurvives : ∀ failure, result = some failure → survivesGroup tolerant failure = true)
    (hgoes : signal ≠ some stopValue) (serial : Nat) :
    ((w.scatterDone scope hasRun tolerant entries signal result).process serial).Heeds t f
      (w.position + 1) first second signal := by
  have hmoved : ∀ {w' : Walk}, w'.plan = w.plan → w'.skipped = w.skipped → w'.position = w.position →
      ∀ serial, ((w'.steer scope hasRun u signal).process serial).Heeds t f (w.position + 1)
        first second signal := fun {w'} hplan hskipped hposition serial => by
    have hopen : ¬ w'.Skips w'.position := by
      rw [Skips, hskipped, hposition]
      exact hunit.2
    have hprunes : w'.Prunes node w'.position :=
      hprunes.moveTo hplan hskipped (Nat.le_of_eq hposition.symm)
    rw [← hposition]
    exact (h.of_eq hposition).heeds_steer hprunes hopen hgoes ..
  unfold scatterDone
  rw [hprunes.unitAt?_of_atUnit hunit]
  rcases result with _ | failure
  · simp only
    refine hmoved ?_ ?_ ?_ serial <;> rfl
  · simp only [hsurvives failure rfl, if_true]
    refine hmoved ?_ ?_ ?_ serial <;> rfl

end Walk

namespace Process

variable {who task position : Nat} {q q' : Process} {run run' : RunState} {e e' : Engine} {site : Site}
  {node c t f : Node} {i : Nat} {first second value : String} {signal : Option String}

/-- Behind the end of a condition a walk goes on into an arm or past both of them, perhaps behind a fork.
It may also end there, with a failure of its unit. -/
theorem Answers.heeds (h : q.Answers who task run e position signal q') (hfits : q.Fits)
    (hprunes : q.activity.Prunes q.walk node)
    (hcondition : Walk.AtCondition { q.walk with position := position } node c t f i first second)
    (hgoes : signal ≠ some stopValue) :
    q'.Defers q.walk signal ∨ q'.Heeds t f (position + 1) first second signal ∨
      signal = none ∧ q'.isFinished = true := by
  obtain ⟨serial, walk, activity⟩ := q
  obtain ⟨hearly, hat, -⟩ := hfits
  cases h with
  -- the unit has ended, and its walk takes the value from the scope as the listeners have left it
  | @unit job told hactivity hstage hresume htold =>
    obtain rfl : activity = _ := hactivity
    obtain ⟨hwalk, u, hunit⟩ : walk.PrunesAt node .unit := hresume ▸ hprunes
    obtain rfl := Option.some.inj ((hwalk.unitAt?_of_atUnit hunit).symm.trans (hat hresume))
    have hwalks : told.walk = walk := htold ▸ rfl
    show Process.Defers ((told.endUnit task serial job none).process serial) _ _ ∨
      Process.Heeds ((told.endUnit task serial job none).process serial) _ _ _ _ _ _ ∨ _
    rw [Scene.endUnit_eq, Scene.unitEnded, hresume]
    subst hwalks
    exact (Walk.AtCondition.heeds_ownUnitDone hcondition hwalk hunit hgoes serial).imp_right .inl
  | @failed job failure told behavior hactivity hstage hresume htold =>
    obtain rfl : activity = _ := hactivity
    obtain ⟨hwalk, u, hunit⟩ : walk.PrunesAt node .unit := hresume ▸ hprunes
    have hwalks : told.walk = walk := htold ▸ rfl
    right
    show Process.Heeds ((told.endUnit task serial job (some ⟨failure, job.unit.tolerant⟩)).process
      serial) _ _ _ _ _ _ ∨ _ ∧ Process.isFinished ((told.endUnit task serial job
        (some ⟨failure, job.unit.tolerant⟩)).process serial) = true
    rw [Scene.endUnit_eq, Scene.unitEnded, hresume]
    subst hwalks
    exact (Walk.AtCondition.heeds_ownUnitDone_some hcondition hwalk hunit _ serial).imp_right
      (And.intro rfl)
  -- the unit had been executed ahead, and the value is the one that was kept
  | ahead hactivity hunit hopen hgroup hearly =>
    obtain rfl : activity = _ := hactivity
    exact (Walk.AtCondition.heeds_advance hcondition hprunes.1 hprunes.2 hunit hopen hgroup hearly
      hgoes serial).imp_right .inl
  -- a group has joined, and the value is that of the unit that closes it
  | @joined anchor router completed found engine stop hcloses hresume hrouter hchoice =>
    obtain ⟨hwalk, nodes, start, hgroup, rfl⟩ : walk.PrunesAt node (.group stop) :=
      hprunes.of_resume? (Activity.resume?_of_fork? hresume)
    have hvalue : (found.scope.slots router).target =
        ((found.publish none completed).scope.slots router).target :=
      (congrArg Slots.target (Scope.slots_publish found.scope completed router)).symm
    rw [hvalue] at hgoes ⊢
    exact .inr (.inl (Walk.AtCondition.heeds_groupDone hcondition hwalk hgroup hrouter hgoes serial))
  -- a fork that the unit asked for has joined, and the value was kept by the fork
  | @scattered anchor result completed entries found engine signal hcloses hresume hsurvives =>
    obtain ⟨hwalk, u, hunit⟩ : walk.PrunesAt node (.scattered entries signal) :=
      hprunes.of_resume? (Activity.resume?_of_fork? hresume)
    have hcontext : (found.publish result completed).context = found.context :=
      Scene.context_publish ..
    refine .inr (.inl (Walk.AtCondition.heeds_scatterDone hcondition hwalk hunit (fun failure heq => ?_)
      hgoes serial))
    rw [hcontext]
    exact hsurvives failure heq

end Process

/-! ## Nothing else is skipped -/

namespace Walk

variable {w : Walk} {resume : Resume}

theorem skipped_unitDone (hresume : resume ≠ .unit) (scope : Scope) (hasRun : String → Bool)
    (tolerant : Bool) (u : String) (result : Option Mishap) :
    (w.unitDone scope hasRun tolerant u resume result).walk.skipped = w.skipped := by
  have halone : (w.aloneDone scope u result).walk.skipped = w.skipped := by
    unfold aloneDone
    cases result with
    | none => simp only; split <;> rfl
    | some => rfl
  cases resume with
  | unit => exact absurd rfl hresume
  | detour v reached =>
    show (w.detourDone scope tolerant u reached result).walk.skipped = w.skipped
    unfold detourDone
    cases result with
    | none =>
      simp only
      split
      · rfl
      · split <;> rfl
    | some =>
      simp only
      split
      · split <;> rfl
      · rfl
  | alone | group | scattered | detourFork => exact halone

/-- A walk that has come to a unit which is not there ends. -/
theorem skipped_missing (scope : Scope) (hasRun : String → Bool) (tolerant : Bool) (u : String) :
    (w.unitDone scope hasRun tolerant u resume (some ⟨.unknownUnit u, false⟩)).walk.skipped =
      w.skipped := by
  have hends : survivesUnit tolerant ⟨.unknownUnit u, false⟩ = false := rfl
  obtain ⟨w', scope', heq, rfl | rfl⟩ := unitDone_eq_finish hends w scope hasRun u resume <;>
    rw [heq] <;> rfl

theorem skipped_groupDone {stop : Nat} {result : Option Failure}
    (h : result = none → w.plan.choiceAt? (stop - 1) = none ∨ w.plan.unitAt? (stop - 1) = none)
    (scope : Scope) (hasRun : String → Bool) (tolerant : Bool) :
    (w.groupDone scope hasRun tolerant stop result).walk.skipped = w.skipped := by
  unfold groupDone
  cases result with
  | none =>
    simp only
    split
    · next hchoice hunit => rcases h rfl with hnone | hnone <;> simp_all
    · rfl
  | some =>
    simp only
    split <;> rfl

end Walk

namespace Process

variable {who task : Nat} {q q' : Process} {run run' : RunState} {e e' : Engine} {site : Site}
  {node : Node}

/-- A join skips nothing, but with a routing value or in place of one. -/
theorem Closes.answers {anchor : String} {result : Option Failure} {completed : List String}
    {found : RunState} {engine : Engine} {resume : Resume}
    (h : q.Closes who task run e anchor result completed found engine)
    (hresume : q.activity.fork? = some resume) :
    let s := Scene.close ⟨q.walk, q.activity, found, engine⟩ task q.serial anchor resume result completed
    s.walk.skipped = q.walk.skipped ∨
      ∃ position signal, q.Answers who task run e position signal (s.process q.serial) := by
  have hdetour : ∀ (scope : Scope) tolerant,
      (q.walk.detourForkDone scope tolerant result).walk.skipped = q.walk.skipped :=
    fun scope tolerant => by
    unfold Walk.detourForkDone
    cases result with
    | none => rfl
    | some => simp only; split <;> rfl
  cases resume with
  | unit | alone | detour | detourFork => exact .inl (hdetour ..)
  | group stop =>
    -- a group that succeeds goes on with a value only if a unit that chooses closes it
    by_cases hplain : result = none → q.walk.plan.choiceAt? (stop - 1) = none ∨
        q.walk.plan.unitAt? (stop - 1) = none
    · exact .inl (Walk.skipped_groupDone hplain ..)
    · obtain ⟨rfl, hsome⟩ := Classical.not_imp.mp hplain
      obtain ⟨hchoice, hunit⟩ := not_or.mp hsome
      obtain ⟨router, hrouter⟩ := Option.ne_none_iff_exists'.mp hunit
      exact .inr ⟨_, _, .joined h hresume hrouter hchoice⟩
  | scattered entries signal =>
    -- a fork that the walk does not survive ends it, and nothing more is skipped
    by_cases hsurvives : ∀ failure, result = some failure →
        Walk.survivesGroup found.context.tolerant failure = true
    · exact .inr ⟨_, _, .scattered h hresume hsurvives⟩
    · refine .inl ?_
      simp only [not_forall] at hsurvives
      obtain ⟨failure, rfl, hends⟩ := hsurvives
      show (q.walk.scatterDone found.scope found.hasRun found.context.tolerant entries signal
        (some failure)).walk.skipped = q.walk.skipped
      unfold Walk.scatterDone
      split
      · rfl
      · simp [hends, Walk.finish, Walk.addFailure]

/-- A walk comes to skip something only by a move of its own by which it goes on behind a position of
its plan. -/
theorem Moves.answers (h : q.Moves who site task run e q' run' e')
    (hprunes : q.activity.Prunes q.walk node) : q'.walk.skipped = q.walk.skipped ∨
      ∃ position signal, q.Answers who task run e position signal q' := by
  cases h with
  | @here serial walk activity _ _ s h =>
    cases h with
    | advance h =>
      obtain rfl : activity = _ := h
      rcases hunit : walk.plan.unitAt? walk.position with _ | u
      · exact .inl (by simp [Scene.turn, Walk.advance, hunit, Walk.finish, Process.walk])
      rcases hskip : walk.skipEnd? walk.position with _ | stop
      · rcases hgroup : walk.plan.groupAt? walk.position with _ | group
        · rcases hearly : walk.early.get? u with _ | early
          · exact .inl (by simp [Scene.turn, Walk.advance, hunit, hskip, hgroup, hearly, Process.walk])
          -- of all that a walk does where it stands, only this leads on behind the position without
          -- executing its unit
          · exact .inr ⟨_, _, .ahead (q := mk serial walk (.poised .advance)) rfl hunit hskip hgroup
              hearly⟩
        · refine .inl ?_
          simp only [Scene.turn, Walk.advance, hunit, hskip, hgroup, Process.walk]
          split <;> rfl
      · exact .inl (by simp [Scene.turn, Walk.advance, hunit, hskip, Process.walk])
    | missing => exact .inl (Walk.skipped_missing ..)
    | @ends job h hstage =>
      obtain rfl : activity = _ := h
      -- a unit out of order selects nothing
      by_cases hresume : job.resume = .unit
      · exact .inr ⟨_, _, .unit (q := mk serial walk (.working job .done)) rfl hstage hresume rfl⟩
      · rw [Scene.endUnit_eq]
        exact .inl (Walk.skipped_unitDone hresume ..)
    | @gaveUp job behavior failure h _ hstage =>
      obtain rfl : activity = _ := h
      by_cases hresume : job.resume = .unit
      · exact .inr ⟨_, _, .failed (q := mk serial walk (.working job behavior)) rfl hstage hresume rfl⟩
      · rw [Scene.endUnit_eq]
        exact .inl (Walk.skipped_unitDone hresume ..)
    | forksNone h =>
      obtain rfl : activity = _ := h
      exact absurd rfl hprunes.1
    | joins h hover =>
      obtain rfl : activity = _ := h
      exact Closes.answers (q := mk serial walk _) (.forking rfl hover rfl) rfl
    | queues | begins | granted | does | sleeps | wakes | opens | runs | tidies | fails | forksOne | forks
    | starts | refuses => exact .inl rfl
  | called | returned | inPlace | child | childEnded => exact .inl rfl
  | inPlaceEnded h hfinished hclose =>
    subst hclose
    exact Closes.answers (q := mk _ _ _) (.inPlace rfl h hfinished rfl) rfl

end Process

/-! ## Executors -/

namespace Executor

variable {start x y : Executor} {past : List (Executor × Move)} {m : Move} {q q' : Process}
  {node : Node}

/-- A walk after a move is what it was, or has given up its branches, or has moved itself. -/
theorem moved_cases (hnumbered : x.ledger.Numbered) (hq : x.Has q) (hmove : x.move m = some y)
    (hq' : y.Has q') (hserial : q'.serial = q.serial) : q' = q ∨ q' = q.cancelTasks ∨
      ∃ who site task state state' e', x.HasIn state q ∧
        q.Moves who site task state x.engine q' state' e' := by
  have hsame : ∀ {r : Process}, x.Has r → r.serial = q.serial → r = q := fun hr heq =>
    hr.unique hq hnumbered heq
  have hknown : q.serial < x.engine.nextSerial := by
    obtain ⟨run, hrun, hhas⟩ := hq
    exact serial_lt hnumbered hrun _ (hhas.serials_subset q.serial_mem_serials)
  obtain ⟨run, hrun, hhas'⟩ := hq'
  obtain ⟨state', g, hg, -, hin⟩ : ∃ state', run.Has state' q' := Run.exists_has hhas'
  have hflow : g ∈ y.flows := mem_flows.mpr ⟨run, hrun, hg⟩
  rcases flow_cases hmove hflow with hold | hstart | ⟨who, -, f, hf, site, task, e, i, depth, hmoves, -⟩ |
    ⟨f, hf, rfl⟩
  · exact .inl (hsame (hasIn_of_flow hold hin).has hserial)
  -- a walk that is new has a number that nobody had
  · have hnew := hstart.crew hin
    omega
  · rcases hmoves.movesFrom hin with hold | hnew | ⟨r, hr, inner, task', e', hown⟩
    · exact .inl (hsame (hasIn_of_flow hf hold).has hserial)
    · omega
    · have hthere := hasIn_of_flow hf hr
      obtain rfl := hsame hthere.has (hown.serial ▸ hserial)
      exact .inr (.inr ⟨who, inner, task', f.state, _, e', hthere, hown⟩)
  · obtain ⟨r, hr, rfl⟩ := Process.crew_cancelTasks hin
    exact .inr (.inl (congrArg _ (hsame (hasIn_of_flow hf hr).has (r.serial_cancelTasks ▸ hserial))))

/-- What a walk comes to skip by a move it skips because it goes on behind a position of its plan. -/
theorem answers_move (hnumbered : x.ledger.Numbered) (hq : x.Has q)
    (hprunes : q.activity.Prunes q.walk node) (hmove : x.move m = some y) (hq' : y.Has q')
    (hserial : q'.serial = q.serial) : q'.walk.skipped = q.walk.skipped ∨
      ∃ state who task position signal, x.HasIn state q ∧
        q.Answers who task state x.engine position signal q' := by
  rcases moved_cases hnumbered hq hmove hq' hserial with rfl | rfl |
    ⟨who, site, task, state, state', e', hthere, hown⟩
  · exact .inl rfl
  · exact .inl (congrArg Walk.skipped q.walk_cancelTasks)
  · exact (hown.answers hprunes).imp_right fun ⟨position, signal, hanswers⟩ =>
      ⟨state, who, task, position, signal, hthere, hanswers⟩

/-- What routing values select, in every schedule and for all that the units of a flow are called. A
walk comes to skip something only when it goes on behind a position of its plan. If it has a routing
value then, the position is the end of a condition, and the value does not ask the walk to stop, the
walk does what the value selects, perhaps behind a fork that its unit has asked for as well: the value
`false`, and the name of the first unit of the arm for it, lead into that arm; any other value that is
`true` or the name of the first unit of the other arm leads into the other one; and what is none of
this leads past both. What the walk skips it goes on skipping, and it is never at work there. -/
theorem History.selects {config : Config} {registry : Registry} {listeners : Listeners}
    {text : String} {part : Node} (hbuild : build config registry listeners = .ok start)
    (hparse : Expression.parse text = .ok node) (hpart : part.Within node)
    (hpast : start.History past x) (hq : x.Has q) (hplan : part.compile? = some q.walk.plan)
    (hmove : x.move m = some y) (hq' : y.Has q') (hserial : q'.serial = q.serial) :
    (q'.walk.skipped = q.walk.skipped ∨ ∃ state who task position signal, x.HasIn state q ∧
      q.Answers who task state x.engine position signal q') ∧
    (∀ state who task position value c t f i behind first second,
      q.Answers who task state x.engine position (some value) q' → value ≠ stopValue →
      Node.Stands (.conditional c t f) i behind part 0 none → i + c.width = position + 1 →
      t.leaves.head? = some first → f.leaves.head? = some second →
      q'.Defers q.walk (some value) ∨ q'.Heeds t f (position + 1) first second (some value)) ∧
    ∀ later last r position, y.History later last → last.Has r → r.serial = q.serial →
      q'.walk.Skips position → r.walk.Skips position ∧ r.workAt? ≠ some position := by
  obtain ⟨hfits, hsound⟩ := sound_build hbuild
  have hnormal : part.IsNormal := (Expression.isNormal_of_parse hparse).within hpart
  have hnone : ∀ q, start.Has q → q.Prunes := fun q hq => absurd hq (not_has_of_build hbuild)
  have hx := hpast.fits hfits
  have hxNumbered := hpast.numbered hfits hsound.toNumbered
  have hprunes := hpast.prunes hfits hnone q hq part hnormal hplan
  obtain ⟨run, hrun, hhas⟩ := id hq
  refine ⟨answers_move hxNumbered hq hprunes hmove hq' hserial,
    fun state who task position value c t f i behind first second hanswers hgoes hstands hlast hfirst
      hsecond => ?_,
    fun later last r position hlater hr heq hskips => ?_⟩
  · exact (hanswers.heeds ((hx run hrun).of_has hhas) hprunes
      ⟨⟨behind, hstands⟩, hlast, hfirst, hsecond⟩ fun heq => hgoes (Option.some.inj heq)).imp_right
      fun hheeds => hheeds.resolve_right nofun
  -- what a walk skips stays in its list, and no walk works where it skips
  · have hy := hpast.move hmove
    have hyPrunes := hy.prunes hfits hnone
    have hplan' : part.compile? = some q'.walk.plan := by
      have hsame := ((History.move .start hmove).keepsSkipping hx hxNumbered (hpast.prunes hfits hnone) hq
        hnormal hplan).2 q' hq' hserial
      rw [hsame.1]
      exact hplan
    obtain ⟨-, hkeeps⟩ := hlater.keepsSkipping (hy.fits hfits) (hy.numbered hfits hsound.toNumbered)
      hyPrunes hq' hnormal hplan'
    obtain ⟨hwalks, hsubset⟩ := hkeeps r hr (heq.trans hserial.symm)
    obtain ⟨span, hmem, hin⟩ := hskips
    have hskips : r.walk.Skips position := ⟨span, hsubset hmem, hin⟩
    refine ⟨hskips, fun hwork => ?_⟩
    exact (hy.trans hlater).prunes hfits hnone r hr |>.not_skips_workAt? hnormal (hwalks ▸ hplan') hwork hskips

/-- A unit leaves the label `false`, and the other arm begins with a unit of that name. -/
theorem History.selects_false : ∃ (past : List (Executor × Move)) (x y : Executor) (q q' : Process)
    (state : RunState),
    (doing [("r", .signalRoute "false" .done), ("false", .done), ("a", .done),
        ("b", .done)]).History past x ∧
      x.Has q ∧ x.move (.step 0) = some y ∧ y.Has q' ∧ q'.serial = q.serial ∧
      Node.compile? (.conditional (.unit "r") (.sequence [.unit "false", .unit "a"]) (.unit "b")) =
        some q.walk.plan ∧
      q.Answers 0 0 state x.engine 0 (some "false") q' ∧ q'.Enters ⟨3, 4⟩ ⟨1, 3⟩ ∧
      ∀ later last r position, y.History later last → last.Has r → r.serial = q.serial →
        q'.walk.Skips position → r.walk.Skips position ∧ r.workAt? ≠ some position := by
  let units : List (String × Behavior) :=
    [("r", .signalRoute "false" .done), ("false", .done), ("a", .done), ("b", .done)]
  let arm : Node := .sequence [.unit "false", .unit "a"]
  let node : Node := .conditional (.unit "r") arm (.unit "b")
  let plan := node.compile?.getD {}
  let moves : List Move := .launch (.plan plan) {} :: List.replicate 5 (.step 0)
  let x := ((doing units).follow moves).2
  let y := (x.follow [.step 0]).2
  have hparse : Expression.parse "r ? (false -> a) : b" = .ok node := by decide +kernel
  have hmove : x.move (.step 0) = some y := move_eq_follow (by decide +kernel)
  have hone : x.runs.length = 1 := by decide +kernel
  have hplain : ∀ run ∈ y.runs, run.root.activity.fork? = none := by decide +kernel
  obtain ⟨⟨state, serial, walk, activity⟩, hrun, hserial, hends, hvalue, hposition, hp, hq, hsequence,
      htargets, hentries, hchoices⟩ :
      ∃ run ∈ x.runs, run.root.serial = 0 ∧ run.root.ending? = some ("r", .unit) ∧
        (run.root.activity.job?.map fun job => ((Scene.announce ⟨run.root.walk, run.root.activity,
          run.state, x.engine⟩ 0 0 job .after none).run.scope.slots job.unitId).target) =
            some (some "false") ∧
        run.root.walk.position = 0 ∧
        plan.groups.keys = [] ∧ run.root.walk.plan.groups.keys = [] ∧
        plan.sequence = run.root.walk.plan.sequence ∧ plan.targets = run.root.walk.plan.targets ∧
        plan.entries = run.root.walk.plan.entries ∧ plan.choices = run.root.walk.plan.choices := by
    decide +kernel
  have hsame : plan = walk.plan := Plan.eq_of_flat hp hq hsequence htargets hentries hchoices
  have hplan : node.compile? = some walk.plan := hsame ▸ rfl
  obtain rfl : serial = 0 := hserial
  obtain ⟨job, hactivity, hstage, hname, hresume⟩ := Process.ending?_eq_some hends
  obtain rfl : activity = _ := hactivity
  have hpast : (doing units).History _ x := history_follow _ moves
  clear_value x y
  -- the walk goes on from its unit
  obtain ⟨before, mover, after, root, state', e', hruns, hstep, rfl⟩ := exists_step hmove
  rw [hruns, List.length_append, List.length_cons] at hone
  obtain rfl : before = [] := List.length_eq_zero_iff.mp (by omega)
  obtain rfl : after = [] := List.length_eq_zero_iff.mp (by simpa using hone)
  rw [hruns] at hrun
  cases List.mem_singleton.mp hrun
  let q : Process := .mk 0 walk (.working job .done)
  let told := Scene.announce ⟨walk, .working job .done, state, x.engine⟩ 0 0 job .after none
  let q' := (told.endUnit 0 0 job none).process 0
  obtain rfl : root = q' := by
    simp only [Process.serial, Process.step, Activity.step, if_true, Scene.stepHere, Scene.act,
      Scene.succeed, hstage, Option.map_some, Option.some.injEq, Prod.mk.injEq] at hstep
    exact hstep.1.symm
  have hthere : x.Has q := ⟨_, by rw [hruns]; exact List.mem_singleton_self _, .self _⟩
  have hthere' : Executor.Has { x with runs := [⟨state', q'⟩], engine := e' } q' :=
    ⟨_, List.mem_singleton_self _, .self _⟩
  have hanswers : q.Answers 0 0 state x.engine walk.position (told.run.scope.slots job.unitId).target q' :=
    .unit rfl hstage hresume rfl
  have hposition : walk.position = 0 := hposition
  have hvalue : (told.run.scope.slots job.unitId).target = some "false" := Option.some.inj hvalue
  rw [hposition, hvalue] at hanswers
  obtain ⟨-, hheeds, hkeeps⟩ :=
    History.selects (build_doing units) hparse .self hpast hthere hplan hmove hthere' rfl
  have henters := (hheeds state 0 0 0 "false" (.unit "r") arm (.unit "b") 0 none "false" "b" hanswers
    (by decide) .self rfl rfl rfl).resolve_left fun hdefers => by
      obtain ⟨entries, hfork⟩ := hdefers.fork
      cases hfork.symm.trans (hplain ⟨state', q'⟩ (List.mem_singleton_self _))
  exact ⟨_, x, _, q, q', state, hpast, hthere, hmove, hthere', rfl, hplan, hanswers,
    henters.onFalse (.inr (.inl rfl)), hkeeps⟩

/-- A unit leaves the label `true`, and the other arm begins with a unit of that name. The walk takes
the other arm. -/
theorem takes_arm_of_namesake : ∃ (past : List (Executor × Move)) (last : Executor) (f : Run),
    (doing [("r", .signalRoute "true" .done), ("x", .done), ("true", .done)]).History past last ∧
      f ∈ last.flows ∧ f.state.unitNames = ["r", "true"] ∧
      Node.compile? (.conditional (.unit "r") (.unit "x") (.unit "true")) = some f.root.walk.plan ∧
      f.root.walk.skipped = [(Node.unit "x").armSpan (.unit "true") 1 true] ∧
      f.result?.map Outcome.status = some .completed := by
  let units : List (String × Behavior) :=
    [("r", .signalRoute "true" .done), ("x", .done), ("true", .done)]
  let node : Node := .conditional (.unit "r") (.unit "x") (.unit "true")
  let plan := node.compile?.getD {}
  let moves : List Move := .launch (.plan plan) {} :: List.replicate 20 (.step 0)
  let last := ((doing units).follow moves).2
  obtain ⟨f, hf, hunits, hskipped, hresult, hp, hq, hsequence, htargets, hentries, hchoices⟩ :
      ∃ f ∈ last.flows, f.state.unitNames = ["r", "true"] ∧ f.root.walk.skipped = [⟨1, 2⟩] ∧
        f.result?.map Outcome.status = some .completed ∧
        plan.groups.keys = [] ∧ f.root.walk.plan.groups.keys = [] ∧
        plan.sequence = f.root.walk.plan.sequence ∧ plan.targets = f.root.walk.plan.targets ∧
        plan.entries = f.root.walk.plan.entries ∧ plan.choices = f.root.walk.plan.choices := by
    decide +kernel
  refine ⟨_, last, f, history_follow _ moves, hf, hunits, ?_, hskipped, hresult⟩
  rw [← Plan.eq_of_flat hp hq hsequence htargets hentries hchoices]
  rfl

end Executor

end Workflow
