import Workflow.Proofs.Run.StepsOver

/-!
# Units are executed once

A unit that is routed to out of order is executed at once, and when its walk comes to the position of
the unit later, it steps over it. So no unit is executed twice in a run, however its units route walks,
as long as they fork nothing, and every walk that is routed to the unit has it among its own positions
(`Executor.History.at_most_once`). A flow without groups has one walk, and there the second condition
is void.

`Walk.Spent w u reach` says of a unit `u` that a walk executes it no more from a position on: where it
still stands in the plan, it is outside groups, and the walk skips the position or keeps in mind that
the unit has run. `Process.Once u done alone p` says that the walks of `p` that may still execute `u`
do so only if it has not been executed, and that all walks that will not are past it or have spent
it. Each decision keeps that, and so does each move (`Process.Moves.once`), since the branches of a
group have no unit in common.

What a walk keeps in mind is its own. A walk that is routed to a unit in a branch of a group behind it
keeps in mind that the unit has run, but the walk of the branch does not, and executes it again
(`Executor.executes_twice`). The same happens when the walk of a branch is routed to a unit that
another walk will come to. These are the moves at which a walk strays (`Site.strays?`).
-/

namespace Workflow

/-! ## Plans of distinct units -/

namespace Plan

/-- In a plan, and in all plans in it, every unit stands once, and groups span the units of their
branches. -/
def Distinct (p : Plan) : Prop :=
  ∀ q, p.Contains q → q.sequence.Nodup ∧ ∀ e ∈ q.groups.entries, e.2.Fits q e.1

/-- A position lies in no group. -/
def IsOutside (p : Plan) (i : Nat) : Prop := ∀ e ∈ p.groups.entries, e.2.span.contains i = false

/-- A unit stands in a plan, and in no group of it: a walk through the plan executes it itself. -/
def Owns (p : Plan) (u : String) : Prop :=
  ∃ i ∈ List.range p.length, p.unitAt? i = some u ∧ p.IsOutside i

instance (p : Plan) (i : Nat) : Decidable (p.IsOutside i) :=
  inferInstanceAs (Decidable (∀ e ∈ p.groups.entries, e.2.span.contains i = false))

instance (p : Plan) (u : String) : Decidable (p.Owns u) :=
  inferInstanceAs (Decidable (∃ i ∈ List.range p.length, p.unitAt? i = some u ∧ p.IsOutside i))

variable {p : Plan} {e : Nat × Group Plan} {b : Branch Plan} {group : Group Plan} {i j start : Nat}
  {u : String}

theorem WellFormed.distinct {node : Node} (h : p.WellFormed node) (hnodup : node.leaves.Nodup) :
    p.Distinct := by
  intro q hq
  obtain ⟨part, -, hfits⟩ := h.inner q hq
  rw [← h.fits.units] at hnodup
  exact ⟨hnodup.sublist (h.sequence_sublist hq), hfits.groups⟩

theorem Distinct.unique (h : p.Distinct) (hi : p.unitAt? i = some u) (hj : p.unitAt? j = some u) :
    i = j :=
  (List.getElem?_inj (List.getElem?_eq_some_iff.mp hi).1 (h p .self).1).mp (hi.trans hj.symm)

theorem Distinct.fits (h : p.Distinct) (hgroup : p.groupAt? start = some group) :
    group.Fits p start :=
  (h p .self).2 _ (Table.mem_of_lookup hgroup)

theorem Distinct.branch (h : p.Distinct) (hgroup : e ∈ p.groups.entries) (hbranch : b ∈ e.2.branches) :
    b.plan.Distinct :=
  fun _ hq => h _ (.trans (.branch .self hgroup hbranch) hq)

theorem Distinct.isOutside (h : p.Distinct) (howns : p.Owns u) (hunit : p.unitAt? i = some u) :
    p.IsOutside i := by
  obtain ⟨j, -, hunit', houtside⟩ := howns
  rwa [h.unique hunit hunit']

theorem Owns.mem (h : p.Owns u) : u ∈ p.sequence := by
  obtain ⟨i, -, hunit, -⟩ := h
  exact List.mem_of_getElem? hunit

end Plan

namespace Group.Fits

variable {group : Group Plan} {p : Plan} {start : Nat} {branch : Branch Plan} {u : String}

/-- The units of the branches stand in the plan before the end of the group. -/
theorem sublist (h : group.Fits p start) :
    (group.branches.flatMap fun branch => branch.plan.sequence).Sublist
      (p.sequence.take group.span.stop) := by
  rw [← h.units, ← List.drop_take]
  exact List.drop_sublist ..

/-- A unit of a branch stands in the span of the group. -/
theorem exists_position (h : group.Fits p start) (hbranch : branch ∈ group.branches)
    (hu : u ∈ branch.plan.sequence) :
    ∃ i, start ≤ i ∧ p.unitAt? i = some u ∧ group.span.contains i = true := by
  have hmem : u ∈ group.branches.flatMap fun branch => branch.plan.sequence :=
    List.mem_flatMap.mpr ⟨branch, hbranch, hu⟩
  rw [← h.units] at hmem
  obtain ⟨offset, hget⟩ := List.mem_iff_getElem?.mp hmem
  rw [List.getElem?_take] at hget
  split at hget
  · next hlt =>
    rw [List.getElem?_drop] at hget
    refine ⟨group.span.start + offset, ?_, hget, Span.contains_iff.mpr ⟨?_, ?_⟩⟩
    · rw [h.start]
      exact Nat.le_add_right ..
    · exact Nat.le_add_right ..
    · omega
  · cases hget

end Group.Fits

/-! ## Walks that have spent a unit -/

namespace Walk

variable {w w' : Walk} {u v : String} {i reach reach' : Nat} {done alone : Prop} {scope : Scope}
  {hasRun : String → Bool} {tolerant : Bool} {resume : Resume} {stage : Stage}

/-- From a position on, a walk executes a unit no more: where the unit still stands in the plan, that
is in no group, and the walk skips it there or keeps in mind that it has run. -/
def Spent (w : Walk) (u : String) (reach : Nat) : Prop :=
  ∀ i, reach ≤ i → w.plan.unitAt? i = some u → w.plan.IsOutside i ∧ (w.Skips i ∨ w.Minds u)

theorem Spent.mono (h : w.Spent u reach) (hle : reach ≤ reach') : w.Spent u reach' :=
  fun i hi => h i (Nat.le_trans hle hi)

/-- What a walk has spent stays spent when it skips or keeps in mind something more. -/
theorem Spent.of_more (h : w.Spent u reach) (hplan : w'.plan = w.plan)
    (hskipped : w.skipped ⊆ w'.skipped) (hminds : w.Minds u → w'.Minds u) : w'.Spent u reach := by
  intro i hi hunit
  rw [hplan] at hunit ⊢
  obtain ⟨houtside, hover⟩ := h i hi hunit
  refine ⟨houtside, hover.imp ?_ hminds⟩
  rintro ⟨span, hmem, hin⟩
  exact ⟨span, hskipped hmem, hin⟩

theorem Spent.chooseArm (h : w.Spent u reach) (choice : Choice) (label : Label) :
    (w.chooseArm choice label).Spent u reach :=
  h.of_more rfl (List.subset_append_left ..) id

theorem Spent.skipArms (h : w.Spent u reach) (choice : Choice) : (w.skipArms choice).Spent u reach :=
  h.of_more rfl (List.subset_append_left ..) id

/-- A unit that stands before a position, or nowhere, is spent there. -/
theorem spent_of_unitAt? (hdistinct : w.plan.Distinct) (hunit : w.plan.unitAt? i = some u)
    (hlt : i < reach) : w.Spent u reach := by
  intro j hj hunit'
  have heq := hdistinct.unique hunit hunit'
  omega

theorem spent_of_notMem (hnot : u ∉ w.plan.sequence) : w.Spent u reach :=
  fun _ _ hunit => absurd (List.mem_of_getElem? hunit) hnot

/-- A walk that has dropped what it kept in mind of the unit at its position goes on behind it. -/
theorem Spent.erase (hdistinct : w.plan.Distinct) (hunit : w.plan.unitAt? w.position = some v)
    (h : w.Spent u w.position) :
    Spent { w with early := w.early.erase v } u (w.position + 1) := by
  intro i hi hunit'
  obtain ⟨houtside, hover⟩ := h i (Nat.le_of_lt hi) hunit'
  refine ⟨houtside, hover.imp_right fun hminds => ?_⟩
  have hne : v ≠ u := by
    rintro rfl
    have heq := hdistinct.unique hunit hunit'
    omega
  unfold Minds at hminds ⊢
  rwa [Table.get?_erase, if_neg hne]

/-- A walk that will not come to a unit behind its position skips it. -/
theorem skips_of_willReach (h : w.willReach w.position u = false) (hunit : w.plan.unitAt? i = some u)
    (hlt : w.position < i) : w.Skips i := by
  unfold willReach at h
  rw [List.any_eq_false] at h
  have hnot := h i (List.mem_range.mpr (List.getElem?_eq_some_iff.mp hunit).1)
  rcases hskip : w.skipEnd? i with _ | stop
  · exact absurd (by simp [hlt, hunit, hskip]) hnot
  · obtain ⟨span, hmem, hstart, hstop, -⟩ := exists_of_skipEnd? hskip
    exact ⟨span, hmem, hstart, hstop⟩

/-! ## What a walk relies on -/

/-- The plan of a walk has distinct units, and what it keeps in mind are no forks. Only a plan without
groups is walked by one walk alone. -/
structure Orderly (w : Walk) (alone : Prop) : Prop where
  distinct : w.plan.Distinct
  unforked : ∀ v signal fork, w.early.get? v = some (.routed signal fork) → fork = none
  flat : alone → w.plan.groups.entries = []

theorem Orderly.of_eq (h : w.Orderly alone) (hplan : w'.plan = w.plan) (hearly : w'.early = w.early) :
    w'.Orderly alone :=
  ⟨hplan ▸ h.distinct, hearly ▸ h.unforked, hplan ▸ h.flat⟩

theorem Orderly.erase (h : w.Orderly alone) (v : String) :
    Orderly { w with early := w.early.erase v } alone := by
  refine ⟨h.distinct, fun v' signal fork hget => h.unforked v' signal fork ?_, h.flat⟩
  rw [Table.get?_erase] at hget
  split at hget
  · cases hget
  · exact hget

theorem Orderly.insert (h : w.Orderly alone) (v : String) {early : Early}
    (hearly : ∀ signal fork, early = .routed signal fork → fork = none) :
    Orderly { w with early := w.early.insert v early } alone := by
  refine ⟨h.distinct, fun v' signal fork hget => ?_, h.flat⟩
  rw [Table.get?_insert] at hget
  split at hget
  · exact hearly signal fork (Option.some.inj hget)
  · exact h.unforked v' signal fork hget

/-- A walk is the one that may execute a unit: it stands in the plan, or there is no other walk. -/
def Handles (w : Walk) (u : String) (alone : Prop) : Prop := u ∈ w.plan.sequence ∨ alone

/-- The walk executes a unit at its position, or out of order. -/
def Expects (w : Walk) (u : String) : Resume → Prop
  | .unit | .alone => w.plan.unitAt? w.position = some u
  | .detour _ reached => reached = w.willReach w.position u
  | .group _ | .scattered .. | .detourFork => False

/-- A walk executes a unit, and no other walk of the run will: it stands outside groups, or there is no
other walk. -/
structure Executes (w : Walk) (u : String) (alone : Prop) (resume : Resume) : Prop where
  expects : w.Expects u resume
  stays : ∀ v reached, resume = .detour v reached → w.plan.Owns u ∨ alone

theorem Executes.handles (h : w.Executes u alone resume) : w.Handles u alone := by
  obtain ⟨hexpects, hstays⟩ := h
  unfold Expects at hexpects
  split at hexpects
  · exact .inl (List.mem_of_getElem? hexpects)
  · exact .inl (List.mem_of_getElem? hexpects)
  · next v reached => exact (hstays v reached rfl).imp_left Plan.Owns.mem
  all_goals exact hexpects.elim

/-- A walk has a unit at work: if it is the one in question, it has not been executed before its first
call is over, and if it is another one, the one in question is spent behind the position. -/
structure HasAtWork (w : Walk) (u : String) (done alone : Prop) (v : String) (stage : Stage)
    (resume : Resume) : Prop where
  own : v = u → (stage = .before → ¬ done) ∧ w.Executes u alone resume
  other : v ≠ u → done → w.Spent u (w.position + 1)

/-- The first call of the unit is over. -/
theorem HasAtWork.later {stage' : Stage} (h : w.HasAtWork u done alone v stage resume)
    (hstage : stage' ≠ .before) : w.HasAtWork u done alone v stage' resume :=
  ⟨fun heq => ⟨fun hbefore => absurd hbefore hstage, (h.own heq).2⟩, h.other⟩

/-- A walk waits for a group that ends at a position. Its branches, those that have been started and
those that are still to be, share no unit, and these stand before that position. -/
structure AwaitsGroup (w : Walk) (u : String) (done : Prop) (stop : Nat) (started : List String)
    (toStart : List (Branch Plan)) : Prop where
  before : w.position < stop
  grouped : w.plan.groups.entries ≠ []
  units : (started ++ toStart.flatMap fun branch => branch.plan.sequence).Sublist
    (w.plan.sequence.take stop)
  spent : done → w.Spent u stop
  fresh : done → ∀ branch ∈ toStart, u ∉ branch.plan.sequence
  distinct : ∀ branch ∈ toStart, branch.plan.Distinct

end Walk

/-- What an intent of a walk promises of a unit, given whether it has been executed. -/
def Intent.Once (u : String) (done alone : Prop) (w : Walk) : Intent → Prop
  | .advance => done → w.Spent u w.position
  | .execute v resume => (v = u → (w.Handles u alone → ¬ done) ∧ w.Expects u resume) ∧
    (v ≠ u → done → w.Spent u (w.position + 1))
  | .fork _ branches resume => 2 ≤ branches.length ∧
    ∃ stop, resume = .group stop ∧ w.AwaitsGroup u done stop [] branches
  | .finish => True

structure Turn.Once (u : String) (done alone : Prop) (t : Turn) : Prop where
  walk : t.walk.Orderly alone
  next : t.next.Once u done alone t.walk

/-! ## Decisions -/

/-- Nobody has left a fork signal with units in it. -/
def Scope.Unforked (s : Scope) : Prop := ∀ u entries, (s.slots u).entries = some entries → entries = []

theorem Scope.Unforked.fades {s s' : Scope} (h : s.Unforked) (hfades : s.Fades s') : s'.Unforked :=
  fun u entries hentries => h u entries (hfades.entries hentries)

/-- There is nothing to be forked in a fork signal. -/
theorem Scope.Unforked.takeFork {s : Scope} (h : s.Unforked) (u : String) :
    (s.takeFork u).1.filter (· ≠ []) = none := by
  rw [Scope.takeFork_fst]
  rcases hentries : (s.slots u).entries with _ | entries
  · rfl
  · rw [h u entries hentries]
    rfl

namespace Walk

variable {w : Walk} {u v : String} {done alone : Prop} {scope : Scope} {hasRun : String → Bool}
  {tolerant : Bool} {resume : Resume} {stage : Stage} {start stop : Nat} {group : Group Plan}

theorem once_proceed (h : w.Orderly alone) (hspent : done → w.Spent u (w.position + 1))
    (scope : Scope) : (w.proceed scope).Once u done alone :=
  ⟨(h.of_eq rfl rfl), hspent⟩

theorem once_detour (h : w.Orderly alone) (hspent : done → w.Spent u (w.position + 1))
    (hran : done → hasRun u = true) (scope : Scope) (target : String) :
    (w.detour scope hasRun target).Once u done alone := by
  unfold detour
  split
  · exact once_proceed h hspent scope
  · next hnot =>
    refine ⟨h, ?_, fun _ => hspent⟩
    rintro rfl
    exact ⟨fun _ hdone => hnot (hran hdone), rfl⟩

theorem once_steer (h : w.Orderly alone) (hspent : done → w.Spent u (w.position + 1))
    (hran : done → hasRun u = true) (scope : Scope) (v : String) (signal : Option String) :
    (w.steer scope hasRun v signal).Once u done alone := by
  have hchosen : ∀ choice label, ((w.chooseArm choice label).proceed scope).Once u done alone :=
    fun choice label => once_proceed (w := w.chooseArm choice label)
      (h.of_eq rfl rfl) (fun hdone => (hspent hdone).chooseArm choice label) scope
  unfold steer
  split
  · exact once_proceed h hspent scope
  · exact hchosen ..
  · split
    · exact ⟨(h.of_eq rfl rfl), trivial⟩
    · split
      · next choice _ =>
        split
        · exact hchosen ..
        · exact once_detour (w := w.skipArms choice) (h.of_eq rfl rfl)
            (fun hdone => (hspent hdone).skipArms choice) hran scope _
      · split
        · exact once_proceed h hspent _
        · exact once_detour h hspent hran scope _

/-- A group that a walk comes to is none of whose units has been executed. -/
theorem once_forkGroup (h : w.Orderly alone) (hgroup : w.plan.groupAt? start = some group)
    (hle : w.position ≤ start) (hspent : done → w.Spent u start) (scope : Scope) :
    (w.forkGroup scope group group.branches).Once u done alone := by
  have hfits := h.distinct.fits hgroup
  have hmem := Table.mem_of_lookup hgroup
  have hlt : start < group.span.stop := hfits.start ▸ hfits.pos
  refine ⟨h, hfits.two, group.span.stop, rfl, Nat.lt_of_le_of_lt hle hlt, List.ne_nil_of_mem hmem,
    hfits.sublist, fun hdone => (hspent hdone).mono (Nat.le_of_lt hlt), ?_,
    fun branch hbranch => h.distinct.branch hmem hbranch⟩
  intro hdone branch hbranch hu
  obtain ⟨i, hle, hunit, hin⟩ := hfits.exists_position hbranch hu
  have hout := (hspent hdone i hle hunit).1 _ hmem
  rw [hin] at hout
  cases hout

theorem once_obey {fork : Option (List String)} (h : w.Orderly alone)
    (hspent : done → w.Spent u (w.position + 1)) (hran : done → hasRun u = true)
    (hfork : fork.filter (· ≠ []) = none) (scope : Scope) (v : String) (signal : Option String) :
    (w.obey scope hasRun v signal fork).Once u done alone := by
  unfold obey
  rw [hfork]
  split
  · exact ⟨(h.of_eq rfl rfl), trivial⟩
  · split
    · next heq _ => cases heq
    · next group _ hgroup =>
      unfold Plan.groupAfter? at hgroup
      exact once_forkGroup h (Option.filter_eq_some_iff.mp hgroup).1 (Nat.le_succ _) hspent scope
    · next heq _ => cases heq
    · exact once_steer h hspent hran scope v signal

theorem once_fallThrough (h : w.Orderly alone) (hspent : done → w.Spent u (w.position + 1))
    (scope : Scope) : (w.fallThrough.proceed scope).Once u done alone := by
  unfold fallThrough
  split
  · next choice _ =>
    exact once_proceed (w := w.chooseArm choice false) (h.of_eq rfl rfl)
      (fun hdone => (hspent hdone).chooseArm choice false) scope
  · exact once_proceed h hspent scope

/-- A walk goes on at a later position. -/
theorem once_moveTo (h : w.Orderly alone) (hspent : done → w.Spent u stop) (scope : Scope) :
    Turn.Once u done alone ⟨{ w with position := stop }, scope, .advance⟩ :=
  ⟨(h.of_eq rfl rfl), hspent⟩

theorem once_advance (h : w.Orderly alone) (hspent : done → w.Spent u w.position)
    (hran : done → hasRun u = true) (scope : Scope) :
    (w.advance scope hasRun).Once u done alone := by
  unfold advance
  split
  · exact ⟨h, trivial⟩
  · next v hunit =>
    split
    · next stop _ hskip =>
      obtain ⟨_, -, -, hlt, rfl⟩ := exists_of_skipEnd? hskip
      exact once_moveTo h (fun hdone => (hspent hdone).mono (Nat.le_of_lt hlt)) scope
    · next group _ hgroup =>
      split
      · have hfits := h.distinct.fits hgroup
        have hlt : w.position < group.span.stop := hfits.start ▸ hfits.pos
        exact once_moveTo h (fun hdone => (hspent hdone).mono (Nat.le_of_lt hlt)) scope
      · exact once_forkGroup h hgroup (Nat.le_refl _) hspent scope
    · next early _ _ hearly =>
      have herased := h.erase v
      have hbehind := fun hdone => (hspent hdone).erase h.distinct hunit
      simp only
      split
      · exact once_fallThrough herased hbehind scope
      · exact once_obey herased hbehind hran rfl _ v _
      · next signal fork =>
        obtain rfl := h.unforked v signal fork hearly
        exact once_obey herased hbehind hran rfl scope v _
    · next hskip _ hearly =>
      refine ⟨h, ?_, fun _ hdone => (hspent hdone).mono (Nat.le_succ _)⟩
      rintro rfl
      refine ⟨fun _ hdone => ?_, hunit⟩
      -- here the walk would have to skip the position, or keep the unit in mind
      rcases (hspent hdone w.position (Nat.le_refl _) hunit).2 with hskips | hminds
      · exact not_skips_of_skipEnd? hskip hskips
      · unfold Minds at hminds
        rw [hearly] at hminds
        cases hminds

/-! ## Answers -/

/-- A unit at work that is not out of order is spent behind the position of its walk. -/
theorem HasAtWork.spent (h : w.HasAtWork u done alone v stage resume) (hdistinct : w.plan.Distinct)
    (hhere : ∀ v' reached, resume ≠ .detour v' reached) (hdone : done) :
    w.Spent u (w.position + 1) := by
  by_cases heq : v = u
  · have hexpects := (h.own heq).2.expects
    unfold Expects at hexpects
    split at hexpects
    · exact spent_of_unitAt? hdistinct hexpects (Nat.lt_succ_self _)
    · exact spent_of_unitAt? hdistinct hexpects (Nat.lt_succ_self _)
    · next v' reached => exact absurd rfl (hhere v' reached)
    all_goals exact hexpects.elim
  · exact h.other heq hdone

theorem once_ownUnitDone (h : w.Orderly alone) (hspent : done → w.Spent u (w.position + 1))
    (hran : done → hasRun u = true) (hscope : scope.Unforked) (tolerant : Bool)
    (result : Option Mishap) : (w.ownUnitDone scope hasRun tolerant result).Once u done alone := by
  unfold ownUnitDone
  split
  · exact ⟨h, trivial⟩
  · next v _ =>
    split
    · next f =>
      have hadded : (w.addFailure f.failure).Orderly alone := (h.of_eq rfl rfl)
      simp only
      split
      · exact once_fallThrough hadded hspent _
      · exact ⟨hadded, trivial⟩
    · exact once_obey h hspent hran
        ((hscope.fades (Scope.fades_takeRoute scope v)).takeFork v) _ v _

/-- Behind a unit that was executed out of order, the unit in question is spent if it was another one,
or if the walk will not come to it; if it will, it keeps that in mind. -/
theorem once_detourDone {reached : Bool} {v' : String} (h : w.Orderly alone)
    (hwork : w.HasAtWork u done alone v stage (.detour v' reached)) (hscope : scope.Unforked)
    (tolerant : Bool) (result : Option Mishap) :
    (w.detourDone scope tolerant v reached result).Once u done alone := by
  -- where it stands, the unit that was executed is outside groups
  have houtside : ∀ i, v = u → w.plan.unitAt? i = some u → w.plan.IsOutside i := by
    intro i heq hunit
    rcases (hwork.own heq).2.stays v' reached rfl with howns | halone
    · exact h.distinct.isOutside howns hunit
    · unfold Plan.IsOutside
      rw [h.flat halone]
      exact nofun
  have hkept : ∀ early, done →
      Spent { w with early := w.early.insert v early } u (w.position + 1) := by
    intro early hdone
    by_cases heq : v = u
    · exact fun i _ hunit => ⟨houtside i heq hunit, .inr (heq ▸ minds_insert w v early)⟩
    · exact (hwork.other heq hdone).of_more rfl (List.Subset.refl _) fun hminds => hminds.insert v early
  have hskipped : reached = false → done → w.Spent u (w.position + 1) := by
    intro hreached hdone
    by_cases heq : v = u
    · have hexpects : reached = w.willReach w.position u := (hwork.own heq).2.expects
      refine fun i hi hunit => ⟨houtside i heq hunit, .inl ?_⟩
      exact skips_of_willReach (hexpects.symm.trans hreached) hunit hi
    · exact hwork.other heq hdone
  unfold detourDone
  rcases result with _ | f
  · have hnone := (hscope.fades (Scope.fades_takeRoute scope v)).takeFork v
    simp only [hnone]
    split
    · exact ⟨(h.of_eq rfl rfl), trivial⟩
    · split
      · exact once_proceed (h.insert v fun _ _ heq => (Early.routed.inj heq).2.symm) (hkept _) _
      · next heq => cases heq
      · exact once_proceed h (hskipped rfl) _
  · have hadded : (w.addFailure f.failure).Orderly alone := (h.of_eq rfl rfl)
    simp only
    split
    · split
      · refine once_proceed (hadded.insert v ?_) (hkept .failed) _
        exact nofun
      · next hnot => exact once_proceed hadded (hskipped (Bool.not_eq_true _ ▸ hnot)) _
    · exact ⟨hadded, trivial⟩

theorem once_unitDone (h : w.Orderly alone) (hwork : w.HasAtWork u done alone v stage resume)
    (hran : done → hasRun u = true) (hscope : scope.Unforked) (tolerant : Bool)
    (result : Option Mishap) :
    (w.unitDone scope hasRun tolerant v resume result).Once u done alone := by
  unfold unitDone
  split
  · exact once_ownUnitDone h (hwork.spent h.distinct nofun) hran hscope tolerant result
  · exact once_detourDone h hwork hscope tolerant result
  all_goals
    unfold aloneDone
    split
    · exact ⟨(h.of_eq rfl rfl), trivial⟩
    · simp only
      split <;> exact ⟨(h.of_eq rfl rfl), trivial⟩

theorem once_groupDone (h : w.Orderly alone) (hbefore : w.position < stop)
    (hspent : done → w.Spent u stop) (hran : done → hasRun u = true) (scope : Scope)
    (tolerant : Bool) (result : Option Failure) :
    (w.groupDone scope hasRun tolerant stop result).Once u done alone := by
  unfold groupDone
  split
  · next failure =>
    simp only
    split
    · exact once_moveTo (w := w.addFailure failure) (h.of_eq rfl rfl) hspent scope
    · exact ⟨(h.of_eq rfl rfl), trivial⟩
  · split
    · refine once_steer (w := { w with position := stop - 1 }) (h.of_eq rfl rfl) ?_ hran
        _ _ _
      rwa [show stop - 1 + 1 = stop by omega]
    · exact once_moveTo h hspent scope

end Walk

/-! ## Processes -/

/-- The units that a branch executes. -/
def Child.units : Child → List String
  | .running _ process => process.walk.plan.sequence
  | .refused _ | .ended .. | .cancelled _ => []

/-- What a walk that is busy with this promises of a unit, given whether it has been executed. -/
def Activity.Once (u : String) (done alone : Prop) (w : Walk) : Activity → Prop
  | .poised next => next.Once u done alone w
  | .queued v _ resume => w.HasAtWork u done alone v .before resume
  | .working job _ | .asleep job _ _ | .calling job _ _ _ =>
    w.HasAtWork u done alone job.unitId job.stage job.resume
  | .inPlace .. => False
  | .forking _ resume toStart children _ => ∃ stop, resume = .group stop ∧
    w.AwaitsGroup u done stop (children.flatMap Child.units) toStart

/-- The walks of a process that may still execute a unit do so only if it has not been executed. The
process has the run for itself, or it is a branch of a group. -/
inductive Process.Once (u : String) (done : Prop) : Prop → Process → Prop where
  | mk {alone : Prop} {serial : Nat} {walk : Walk} {activity : Activity} (orderly : walk.Orderly alone)
      (own : activity.Once u done alone walk)
      (inside : ∀ q, activity.Branches q → Process.Once u done False q) :
    Process.Once u done alone (.mk serial walk activity)

section

variable {u v : String} {done done' alone : Prop} {w : Walk} {reach stop : Nat} {resume : Resume}
  {stage : Stage} {started started' : List String} {toStart : List (Branch Plan)}

theorem Turn.Once.process {s : Scene} {t : Turn} (h : t.Once u done alone) (serial : Nat) :
    ((s.turn t).process serial).Once u done alone :=
  .mk h.walk h.next fun _ hbranch => hbranch.elim

theorem Process.once_ofPlan {plan : Plan} (hdistinct : plan.Distinct)
    (hflat : alone → plan.groups.entries = []) (hnot : done → u ∉ plan.sequence) (serial : Nat)
    (pooled : Bool) : (Process.ofPlan serial plan pooled).Once u done alone :=
  .mk ⟨hdistinct, nofun, hflat⟩ (fun hdone => Walk.spent_of_notMem (hnot hdone))
    fun _ hbranch => hbranch.elim

theorem Process.once_ofUnit (hdistinct : (Plan.ofUnit v).Distinct) (hnot : ¬ done) (serial : Nat) :
    (Process.ofUnit serial v).Once u done alone := by
  refine .mk ⟨hdistinct, nofun, fun _ => rfl⟩ ⟨?_, fun _ hdone => absurd hdone hnot⟩
    fun _ hbranch => hbranch.elim
  rintro rfl
  exact ⟨fun _ => hnot, rfl⟩

/-! ### What has been executed meanwhile -/

theorem Walk.spent_of_done (h : done → w.Spent u reach) (hdone : w.Handles u alone → done' → done)
    (hnew : done') : w.Spent u reach := by
  by_cases hmem : u ∈ w.plan.sequence
  · exact h (hdone (.inl hmem) hnew)
  · exact spent_of_notMem hmem

theorem Walk.HasAtWork.of_done (h : w.HasAtWork u done alone v stage resume)
    (hdone : w.Handles u alone → done' → done) : w.HasAtWork u done' alone v stage resume := by
  refine ⟨fun heq => ?_, fun hne => spent_of_done (h.other hne) hdone⟩
  obtain ⟨hnot, hexecutes⟩ := h.own heq
  exact ⟨fun hstage hnew => hnot hstage (hdone hexecutes.handles hnew), hexecutes⟩

/-- A unit of a branch that has been started stands in the plan before the end of the group. -/
theorem Walk.AwaitsGroup.exists_position (h : w.AwaitsGroup u done stop started toStart)
    (hmem : v ∈ started) : ∃ i, i < stop ∧ w.plan.unitAt? i = some v := by
  obtain ⟨i, hget⟩ := List.mem_iff_getElem?.mp (h.units.subset (List.mem_append_left _ hmem))
  rw [List.getElem?_take] at hget
  split at hget
  · next hlt => exact ⟨i, hlt, hget⟩
  · cases hget

/-- What is executed meanwhile in the branches of a group is spent behind the group, and stands in no
branch that is still to be started. -/
theorem Walk.AwaitsGroup.grow (h : w.AwaitsGroup u done stop started toStart)
    (hdistinct : w.plan.Distinct) (hstarted : started'.Sublist started)
    (hdone : u ∈ w.plan.sequence → done' → done ∨ u ∈ started) :
    w.AwaitsGroup u done' stop started' toStart where
  before := h.before
  grouped := h.grouped
  units := (hstarted.append_right _).trans h.units
  spent := by
    intro hnew
    by_cases hmem : u ∈ w.plan.sequence
    · rcases hdone hmem hnew with hold | hin
      · exact h.spent hold
      · obtain ⟨i, hlt, hunit⟩ := h.exists_position hin
        exact spent_of_unitAt? hdistinct hunit hlt
    · exact spent_of_notMem hmem
  fresh := by
    intro hnew branch hbranch hu
    have hin : u ∈ toStart.flatMap fun branch => branch.plan.sequence :=
      List.mem_flatMap.mpr ⟨branch, hbranch, hu⟩
    have hmem : u ∈ w.plan.sequence :=
      List.mem_of_mem_take (h.units.subset (List.mem_append_right _ hin))
    rcases hdone hmem hnew with hold | hother
    · exact h.fresh hold branch hbranch hu
    · have hnodup := ((h.units.trans (List.take_sublist ..)).nodup (hdistinct _ .self).1)
      exact (List.nodup_append.mp hnodup).2.2 u hother u hin rfl
  distinct := h.distinct

theorem Activity.Once.of_done {activity : Activity} (h : activity.Once u done alone w)
    (hdistinct : w.plan.Distinct) (hdone : w.Handles u alone → done' → done) :
    activity.Once u done' alone w := by
  have hgroup {stop : Nat} {started : List String} {toStart : List (Branch Plan)}
      (h : w.AwaitsGroup u done stop started toStart) :
      w.AwaitsGroup u done' stop started toStart :=
    h.grow hdistinct (.refl _) fun hmem hnew => .inl (hdone (.inl hmem) hnew)
  cases activity with
  | poised next =>
    cases next with
    | advance => exact Walk.spent_of_done h hdone
    | execute v resume =>
      obtain ⟨hown, hother⟩ := h
      refine ⟨fun heq => ?_, fun hne => Walk.spent_of_done (hother hne) hdone⟩
      obtain ⟨hnot, hexpects⟩ := hown heq
      exact ⟨fun hhandles hnew => hnot hhandles (hdone hhandles hnew), hexpects⟩
    | fork anchor branches resume =>
      obtain ⟨htwo, stop, hresume, hawaits⟩ := h
      exact ⟨htwo, stop, hresume, hgroup hawaits⟩
    | finish => trivial
  | queued | working | asleep | calling => exact Walk.HasAtWork.of_done h hdone
  | inPlace => exact h.elim
  | forking anchor resume toStart children completed =>
    obtain ⟨stop, hresume, hawaits⟩ := h
    exact ⟨stop, hresume, hgroup hawaits⟩

/-- The units of a branch that is running are units of the plan around it. -/
theorem Activity.Once.subset_of_branches {activity : Activity} {q : Process}
    (h : activity.Once u done alone w) (hbranch : activity.Branches q) :
    q.walk.plan.sequence ⊆ w.plan.sequence := by
  cases activity with
  | poised | queued | working | asleep | calling => exact hbranch.elim
  | inPlace => exact h.elim
  | forking anchor resume toStart children completed =>
    obtain ⟨stop, -, hawaits⟩ := h
    obtain ⟨entry, hmem⟩ := hbranch
    intro v hv
    have hin : v ∈ children.flatMap Child.units := List.mem_flatMap.mpr ⟨_, hmem, hv⟩
    exact List.mem_of_mem_take (hawaits.units.subset (List.mem_append_left _ hin))

/-- Whatever is executed elsewhere is nothing to a process that does not execute it itself. -/
theorem Process.Once.of_done {p : Process} (h : p.Once u done alone)
    (hdone : p.walk.Handles u alone → done' → done) : p.Once u done' alone := by
  induction h with
  | mk hwalk hown _ ih =>
    refine .mk hwalk (hown.of_done hwalk.distinct hdone) fun q hbranch => ih q hbranch ?_
    rintro (hmem | hfalse)
    · exact hdone (.inl (hown.subset_of_branches hbranch hmem))
    · exact hfalse.elim

end

/-! ## One step at one walk -/

/-- How often a unit has been executed. -/
def RunState.times (r : RunState) (u : String) : Nat := (r.executed.map Prod.fst).count u

theorem RunState.times_eq_zero {r : RunState} {u : String} (h : ¬ r.Ran u) : r.times u = 0 := by
  unfold Ran hasRun at h
  unfold times
  rw [List.count_eq_zero, List.mem_map]
  rintro ⟨entry, hmem, heq⟩
  exact h (List.any_eq_true.mpr ⟨entry, hmem, decide_eq_true heq⟩)

/-- Units signal what they like, but fork nothing. -/
def Law.unforked : Law where
  routes _ := True
  forks entries := entries = []

namespace Scene

variable {s s' : Scene} {task serial : Nat} {u v : String} {done alone : Prop} {resume : Resume}

theorem Gains.unforked (h : Gains Law.unforked s s') (hscope : s.run.scope.Unforked) :
    s'.run.scope.Unforked :=
  fun u entries hentries => (h.entries hentries).elim (hscope u entries) id

/-- A unit that a walk is about to execute has been found. -/
theorem hasAtWork_of_execute (h : (Intent.execute v resume).Once u done alone s.walk)
    (hactivity : s.activity = .poised (.execute v resume))
    (hstays : ∀ v' reached, s.activity = .poised (.execute u (.detour v' reached)) →
      s.walk.plan.Owns u ∨ alone) (stage : Stage) : s.walk.HasAtWork u done alone v stage resume := by
  refine ⟨?_, h.2⟩
  rintro rfl
  obtain ⟨hnot, hexpects⟩ := h.1 rfl
  have hexecutes : s.walk.Executes v alone resume :=
    ⟨hexpects, fun v' reached heq => hstays v' reached (heq ▸ hactivity)⟩
  exact ⟨fun _ => hnot hexecutes.handles, hexecutes⟩

theorem once_unitEnded {stage : Stage} (hwalk : s.walk.Orderly alone)
    (hwork : s.walk.HasAtWork u (s.run.Ran u) alone v stage resume) (hscope : s.run.scope.Unforked)
    (task serial : Nat) (result : Option Mishap) :
    ((s.unitEnded task serial v resume result).process serial).Once u (s.run.Ran u) alone :=
  Turn.Once.process (Walk.once_unitDone hwalk hwork id hscope _ result) serial

/-- Whatever a walk does where it stands, its process executes a unit at most once. -/
theorem Steps.once (h : s.Steps task serial s')
    (honce : (s.process serial).Once u (s.run.Ran u) alone) (hscope : s.run.scope.Unforked)
    (hengine : s.engine.Abides Law.unforked)
    (hstays : ∀ v reached, s.activity = .poised (.execute u (.detour v reached)) →
      s.walk.plan.Owns u ∨ alone) : (s'.process serial).Once u (s'.run.Ran u) alone := by
  obtain ⟨hwalk, hown, hinside⟩ := honce
  cases h with
  | advance h =>
    rw [h] at hown
    exact Turn.Once.process (Walk.once_advance hwalk hown id _) serial
  | missing h =>
    rw [h] at hown
    exact once_unitEnded hwalk (hasAtWork_of_execute hown h hstays .run) hscope task serial _
  | queues h | begins h =>
    rw [h] at hown
    exact .mk hwalk (hasAtWork_of_execute hown h hstays .before) fun _ hbranch => hbranch.elim
  | granted h | sleeps h | wakes h | opens h =>
    rw [h] at hown
    exact .mk hwalk hown fun _ hbranch => hbranch.elim
  | does h hdoes =>
    rw [h] at hown
    simp only [hdoes.ran_eq]
    exact .mk hwalk hown fun _ hbranch => hbranch.elim
  | @runs job h hstage =>
    rw [h] at hown
    -- this is where a unit becomes one that has run, and its own walk has it at work
    have hwork : s.walk.HasAtWork u (s.run.Ran u) alone job.unitId job.stage job.resume := hown
    refine .mk hwalk ⟨fun heq => ⟨nofun, (hwork.own heq).2⟩, fun hne hran => ?_⟩
      fun _ hbranch => hbranch.elim
    exact hwork.other hne ((ran_append.mp hran).resolve_right (Ne.symm hne))
  | tidies h | fails h =>
    rw [h] at hown
    exact .mk hwalk (Walk.HasAtWork.later hown nofun) fun _ hbranch => hbranch.elim
  | ends h | gaveUp h =>
    rw [h] at hown
    rw [endUnit_eq]
    exact once_unitEnded (s := { s.announce task serial _ _ _ with engine := _ }) hwalk hown
      (hscope.fades (fades_announce hengine task serial _ _ _).1) task serial _
  | forksNone h | forksOne h =>
    rw [h] at hown
    -- a group has two branches or more
    exact absurd hown.1 (by simp)
  | forks h =>
    rw [h] at hown
    obtain ⟨-, stop, hresume, hawaits⟩ := hown
    refine .mk hwalk ⟨stop, hresume, hawaits⟩ fun q hbranch => ?_
    obtain ⟨entry, hmem⟩ := hbranch
    cases hmem
  | @starts anchor resume branch toStart children completed h =>
    rw [h] at hown hinside
    obtain ⟨stop, hresume, hawaits⟩ := hown
    refine .mk hwalk ⟨stop, hresume, hawaits.before, hawaits.grouped, ?_, hawaits.spent,
      fun hran b hb => hawaits.fresh hran b (List.mem_cons_of_mem _ hb),
      fun b hb => hawaits.distinct b (List.mem_cons_of_mem _ hb)⟩ fun q hbranch => ?_
    -- the units of the branch go over from those that are to be started to those that have been
    · have hunits := hawaits.units
      rw [List.flatMap_cons, ← List.append_assoc] at hunits
      rw [List.flatMap_append, List.flatMap_singleton]
      exact hunits
    · rcases Child.running_of_started hbranch with rfl | hold
      · exact Process.once_ofPlan (hawaits.distinct branch List.mem_cons_self) False.elim
          (fun hran => hawaits.fresh hran branch List.mem_cons_self) s.engine.nextSerial true
      · exact hinside q hold
  | @refuses anchor resume branch toStart children completed h =>
    rw [h] at hown hinside
    obtain ⟨stop, hresume, hawaits⟩ := hown
    refine .mk hwalk ⟨stop, hresume, hawaits.before, hawaits.grouped, ?_, hawaits.spent,
      fun hran b hb => hawaits.fresh hran b (List.mem_cons_of_mem _ hb),
      fun b hb => hawaits.distinct b (List.mem_cons_of_mem _ hb)⟩ fun q hbranch => ?_
    -- the units of a branch that is refused are in nobody's hands any more
    · refine List.Sublist.trans ?_ hawaits.units
      rw [List.flatMap_append, List.flatMap_cons]
      simp [Child.units]
    · exact hinside q (Child.running_of_refused hbranch)
  | joins h =>
    rw [h] at hown
    obtain ⟨stop, rfl, hawaits⟩ := hown
    rw [ran_close]
    exact Turn.Once.process (Walk.once_groupDone hwalk hawaits.before hawaits.spent
      (RunState.ran_publish _ _).mpr _ _ _) serial

/-- A unit that counts as executed by a step is one that the walk may execute, and counted as executed
no more often than once. -/
theorem Steps.times_le (h : s.Steps task serial s')
    (honce : (s.process serial).Once u (s.run.Ran u) alone) :
    (s'.run.Ran u → s.run.Ran u ∨ s.walk.Handles u alone) ∧
      (s.run.times u ≤ 1 → s'.run.times u ≤ 1) := by
  obtain ⟨-, hown, -⟩ := honce
  unfold RunState.Ran RunState.hasRun RunState.times
  rcases h.executed with heq | ⟨job, hactivity, hstage, heq⟩
  · rw [heq]
    exact ⟨.inl, id⟩
  · rw [hactivity] at hown
    have hwork : s.walk.HasAtWork u (s.run.Ran u) alone job.unitId job.stage job.resume := hown
    rw [heq]
    -- a step that executes the unit finds that it has not been executed, and one that executes
    -- another leaves the count as it is
    by_cases hunit : job.unitId = u
    · obtain ⟨hnot, hexecutes⟩ := hwork.own hunit
      refine ⟨fun _ => .inr hexecutes.handles, fun _ => ?_⟩
      have hzero := RunState.times_eq_zero (hnot hstage)
      unfold RunState.times at hzero
      rw [List.map_append, List.count_append, hzero]
      simp [hunit]
    · have hran : (s.run.executed ++ [(job.unitId, job.unit.name)]).any (fun entry => entry.1 = u) =
          s.run.executed.any fun entry => entry.1 = u := by
        simp [hunit]
      have htimes : ((s.run.executed ++ [(job.unitId, job.unit.name)]).map Prod.fst).count u =
          (s.run.executed.map Prod.fst).count u := by
        simp [hunit]
      rw [hran, htimes]
      exact ⟨.inl, id⟩

end Scene

/-! ## Steps in a tree -/

/-- The unit that a walk is about to execute out of order, if it does not stand among the positions of
the walk itself. -/
def Site.strays? (site : Site) : Option String :=
  match site.process with
  | .mk _ walk (.poised (.execute v (.detour ..))) => if walk.plan.Owns v then none else some v
  | _ => none

theorem Site.owns_of_strays? {site : Site} {u v : String} {reached : Bool}
    (h : site.strays? ≠ some u)
    (hactivity : site.process.activity = .poised (.execute u (.detour v reached))) :
    site.process.walk.plan.Owns u := by
  unfold strays? at h
  obtain ⟨⟨serial, walk, activity⟩, run, depth, walks⟩ := site
  obtain rfl : activity = _ := hactivity
  by_contra hnot
  exact h (if_neg hnot)

theorem Site.strays?_within (serial : Nat) (site : Site) :
    (site.within serial).strays? = site.strays? := by
  rw [strays?, process_within, strays?]

namespace Process

variable {who task serial : Nat} {p p' branch : Process} {run run' : RunState} {e e' : Engine}
  {site : Site} {u : String} {done done' alone : Prop} {walk : Walk} {anchor entry : String}
  {resume : Resume} {toStart : List (Branch Plan)} {before after : List Child}
  {completed : List String}

/-- A walk that waits for a group has not the run for itself. -/
theorem Once.not_alone {children : List Child}
    (h : (Process.mk serial walk (.forking anchor resume toStart children completed)).Once u done
      alone) : ¬ alone := by
  obtain ⟨horderly, ⟨stop, -, hawaits⟩, -⟩ := h
  exact fun halone => hawaits.grouped (horderly.flat halone)

/-- A branch of a group may be exchanged for what has become of it. What has been executed by that is a
unit of the branch, and nothing to the other branches, which have no unit in common with it. -/
theorem Once.exchange
    (h : (Process.mk serial walk (.forking anchor resume toStart
      (before ++ .running entry branch :: after) completed)).Once u done alone)
    (child : Child) (completed' : List String) (hunits : child.units.Sublist branch.walk.plan.sequence)
    (hgrow : done' → done ∨ branch.walk.Handles u False)
    (hchild : ∀ entry' q, child = .running entry' q → q.Once u done' False) :
    (Process.mk serial walk (.forking anchor resume toStart (before ++ child :: after)
      completed')).Once u done' alone ∧ (done' → done ∨ walk.Handles u alone) := by
  have hmem := mem_children before after entry branch
  obtain ⟨horderly, hown, hinside⟩ := h
  have hsubset := hown.subset_of_branches ⟨entry, hmem⟩
  obtain ⟨stop, hresume, hawaits⟩ := hown
  have hgrow : done' → done ∨ u ∈ branch.walk.plan.sequence := fun hnew =>
    (hgrow hnew).imp_right fun hhandles => hhandles.resolve_right id
  have hstarted : ((before ++ child :: after).flatMap Child.units).Sublist
      ((before ++ .running entry branch :: after).flatMap Child.units) := by
    simp only [List.flatMap_append, List.flatMap_cons]
    exact (List.Sublist.refl _).append (hunits.append_right _)
  refine ⟨.mk horderly ⟨stop, hresume, hawaits.grow horderly.distinct hstarted fun _ hnew => ?_⟩
    fun q hbranch => ?_, fun hnew => (hgrow hnew).imp_right fun hin => .inl (hsubset hin)⟩
  · exact (hgrow hnew).imp_right fun hin => List.mem_flatMap.mpr ⟨_, hmem, hin⟩
  · have hnodup := (hawaits.units.trans (List.take_sublist ..)).nodup (horderly.distinct _ .self).1
    obtain ⟨entry', hin⟩ := hbranch
    rcases mem_around.mp hin with heq | hother
    · exact hchild entry' q heq
    · -- what a branch has executed is no unit of another, as the units of all of them are distinct
      have hold := hinside q ⟨entry', mem_of_around hother _⟩
      refine hold.of_done fun hhandles hnew => (hgrow hnew).resolve_right ?_
      exact not_mem_of_nodup_flatMap (f := Child.units) (List.nodup_append.mp hnodup).1 hother
        (hhandles.resolve_right id)

/-- Whatever a task does in a process, the process executes a unit at most once, as long as no walk of
it strays to the unit. -/
theorem Moves.once (h : p.Moves who site task run e p' run' e') (honce : p.Once u (run.Ran u) alone)
    (hfits : p.Fits) (hscope : run.scope.Unforked) (hengine : e.Abides Law.unforked)
    (hstays : ¬ alone → site.depth = 0 → site.strays? ≠ some u) :
    p'.Once u (run'.Ran u) alone ∧ (run'.Ran u → run.Ran u ∨ p.walk.Handles u alone) ∧
      (run.times u ≤ 1 → run'.times u ≤ 1) := by
  -- For a branch the condition is that of a walk that does not have the run for itself, so the
  -- induction is over `alone` as well. A unit that calls the executor is at work all the while.
  induction h generalizing alone with
  | here h =>
    refine ⟨h.once honce hscope hengine fun v reached hactivity => ?_, h.times_le honce⟩
    by_cases halone : alone
    · exact .inr halone
    · exact .inl (Site.owns_of_strays? (hstays halone rfl) hactivity)
  | called | returned =>
    obtain ⟨horderly, hown, -⟩ := honce
    exact ⟨.mk horderly hown fun _ hbranch => hbranch.elim, .inl, id⟩
  | inPlace | inPlaceEnded =>
    obtain ⟨-, hown, -⟩ := honce
    exact hown.elim
  | @child _ _ _ anchor entry resume toStart before after completed branch branch' _ _ _ _ _ h _ _
      ih =>
    have hbranch : Activity.Branches (.forking anchor resume toStart
      (before ++ .running entry branch :: after) completed) branch :=
      ⟨entry, mem_children before after entry branch⟩
    obtain ⟨-, -, hinside⟩ := id honce
    rw [Site.depth_within, Site.strays?_within] at hstays
    have hbranchFits := hfits.of_has (.inside hbranch.runs (.self _))
    obtain ⟨honce', hgrow, htimes⟩ := ih (hinside branch hbranch) hbranchFits hscope hengine
      fun _ => hstays honce.not_alone
    have hunits : (Child.running entry branch').units.Sublist branch.walk.plan.sequence := by
      rw [Child.units, h.plan hbranchFits]
    obtain ⟨hwhole, hgrow⟩ := honce.exchange _ completed hunits hgrow fun _ _ heq => by
      cases heq
      exact honce'
    exact ⟨hwhole, hgrow, htimes⟩
  | @childEnded _ _ _ anchor entry resume toStart before after completed _ branch _ _ _ _ _ _ _ _
      _ _ ih =>
    have hbranch : Activity.Branches (.forking anchor resume toStart
      (before ++ .running entry branch :: after) completed) branch :=
      ⟨entry, mem_children before after entry branch⟩
    obtain ⟨-, -, hinside⟩ := id honce
    rw [Site.depth_within, Site.strays?_within] at hstays
    have hbranchFits := hfits.of_has (.inside hbranch.runs (.self _))
    obtain ⟨-, hgrow, htimes⟩ := ih (hinside branch hbranch) hbranchFits hscope hengine
      fun _ => hstays honce.not_alone
    obtain ⟨hwhole, hgrow⟩ := honce.exchange (.ended entry _) _ (List.nil_sublist _) hgrow
      fun _ _ heq => by cases heq
    exact ⟨hwhole, hgrow, htimes⟩

/-- A process that has given up its branches still executes a unit at most once. -/
theorem Once.cancelTasks (h : p.Once u done alone) : p.cancelTasks.Once u done alone := by
  cases h with
  | @mk _ serial walk activity horderly hown _ =>
  cases activity with
  | poised | queued | working | asleep | calling =>
    exact .mk horderly hown fun _ hbranch => hbranch.elim
  | inPlace => exact hown.elim
  | forking anchor resume toStart children completed =>
    obtain ⟨stop, hresume, hawaits⟩ := hown
    have hnone : (children.map Child.cancel).flatMap Child.units = [] := by
      rw [List.flatMap_eq_nil_iff]
      intro child hmem
      obtain ⟨old, -, rfl⟩ := List.mem_map.mp hmem
      cases old <;> rfl
    refine .mk horderly ⟨stop, hresume, ?_⟩ fun q ⟨entry, hmem⟩ => ?_
    · exact hawaits.grow horderly.distinct (hnone ▸ List.nil_sublist _) fun _ => .inl
    · exact absurd hmem Child.not_running_cancel

end Process

/-! ## Runs -/

/-- A run executes a unit at most once, and has done so. Its root has the run for itself if its plan has
no groups. -/
structure Run.Once (u : String) (f : Run) : Prop where
  root : f.root.Once u (f.state.Ran u) (f.root.walk.plan.groups.entries = [])
  times : f.state.times u ≤ 1

theorem Run.AtStart.once {u : String} {f : Run} {serial : Nat} (h : f.AtStart serial)
    (hdistinct : f.root.walk.plan.Distinct) : f.Once u := by
  have hnot := h.not_ran u
  refine ⟨?_, RunState.times_eq_zero hnot ▸ Nat.zero_le _⟩
  rcases h.root with ⟨plan, pooled, hroot⟩ | ⟨v, hroot⟩
  · rw [hroot] at hdistinct ⊢
    exact Process.once_ofPlan hdistinct id (fun hran => absurd hran hnot) serial pooled
  · rw [hroot] at hdistinct ⊢
    exact Process.once_ofUnit hdistinct hnot serial

namespace Executor

variable {start last x y : Executor} {past : List (Executor × Move)} {m : Move} {f : Run}
  {number : Nat} {plan : Plan} {u : String}

/-- In every run nothing is to be forked, and the run with this number at its root, if it walks this
plan, executes a unit at most once. -/
structure Once (x : Executor) (number : Nat) (plan : Plan) (u : String) : Prop where
  unforked : ∀ f ∈ x.flows, f.state.scope.Unforked
  runs : ∀ f ∈ x.flows, f.root.serial = number → f.root.walk.plan = plan → f.Once u

/-- In no run has anybody left anything to be forked. -/
theorem unforked_move (hfits : x.Fits) (habides : x.Abides Law.unforked) (hmove : x.move m = some y)
    (h : ∀ f ∈ x.flows, f.state.scope.Unforked) : ∀ f ∈ y.flows, f.state.scope.Unforked := by
  refine gains_move (P := fun r => r.scope.Unforked) (fun _ _ => Scene.Gains.unforked)
    (fun state hstart v entries hentries => ?_) hfits habides hmove h
  rw [hstart] at hentries
  cases hentries

theorem Once.move (h : x.Once number plan u) (hfits : x.Fits) (habides : x.Abides Law.unforked)
    (hdistinct : plan.Distinct)
    (hstays : plan.groups.keys ≠ [] → (number, u) ∉ x.told Site.strays? m)
    (hmove : x.move m = some y) : y.Once number plan u := by
  refine ⟨unforked_move hfits habides hmove h.unforked, fun f hf hserial hplan => ?_⟩
  rcases flow_cases hmove hf with hold | hstart |
    ⟨who, rfl, g, hg, site, task, e, i, depth, hmoves, hat⟩ | ⟨g, hg, rfl⟩
  · exact h.runs f hold hserial hplan
  · exact hstart.once (hplan ▸ hdistinct)
  · obtain ⟨run, hrun, hhas⟩ := has_root hg
    have hroot := (hfits run hrun).of_has hhas
    have hsame := hmoves.plan hroot
    rw [hsame] at hplan
    rw [hmoves.serial] at hserial
    obtain ⟨honce, htimes⟩ := h.runs g hg hserial hplan
    obtain ⟨honce', -, htimes'⟩ := hmoves.once honce hroot (h.unforked g hg) habides.engine
      fun hgroups hdepth hstrays => by
        refine hstays (fun hkeys => hgroups ?_) ?_
        · rw [hplan]
          exact List.map_eq_nil_iff.mp hkeys
        · have hnumber := hmoves.at.1.head?_walks hdepth
          rw [hserial] at hnumber
          exact mem_told hat hnumber hstrays
    exact ⟨hsame ▸ honce', htimes' htimes⟩
  · rw [Process.walk_cancelTasks] at hplan
    rw [Process.serial_cancelTasks] at hserial
    obtain ⟨honce, htimes⟩ := h.runs g hg hserial hplan
    refine ⟨?_, htimes⟩
    rw [Process.walk_cancelTasks]
    exact honce.cancelTasks

/-- At most once, in every schedule. Of a flow with distinct units, whose units route as they like but
fork nothing, no unit is executed twice in one run, whatever becomes of the units. If the flow has
groups, units are left out to which a walk has been routed that does not have them among its own
positions. -/
theorem History.at_most_once {config : Config} {registry : Registry} {listeners : Listeners}
    {text : String} {node : Node} (hbuild : build config registry listeners = .ok start)
    (hregistry : registry.Abides Law.unforked) (hlisteners : listeners.Abide)
    (hparse : Expression.parse text = .ok node) (hnodup : node.leaves.Nodup)
    (h : start.History past last) (hf : f ∈ last.flows)
    (hplan : node.compile? = some f.root.walk.plan)
    (hstays : f.root.walk.plan.groups.keys ≠ [] →
      ∀ x m, (x, m) ∈ past → (f.root.serial, u) ∉ x.told Site.strays? m) :
    f.state.times u ≤ 1 := by
  obtain ⟨hfits, -⟩ := sound_build hbuild
  have hdistinct := ((Expression.isNormal_of_parse hparse).wellFormed hplan).distinct hnodup
  have hinvariant : last.Fits ∧ last.Abides Law.unforked ∧
      last.Once f.root.serial f.root.walk.plan u := by
    refine h.invariant (P := fun x => x.Fits ∧ x.Abides Law.unforked ∧
      x.Once f.root.serial f.root.walk.plan u)
      ⟨hfits, abides_build hbuild hregistry hlisteners, ?_, ?_⟩ ?_
    · rw [flows_build hbuild]
      exact nofun
    · rw [flows_build hbuild]
      exact nofun
    · rintro x m y hmem ⟨hfits, habides, honce⟩ hmove
      exact ⟨hfits.move hmove, habides.move hmove,
        honce.move hfits habides hdistinct (fun hgroups => hstays hgroups x m hmem) hmove⟩
  exact (hinvariant.2.2.runs f hf rfl rfl).times

/-- A unit is routed to over a group that stands between. When the walk comes to it behind the group, it
steps over it. -/
theorem History.at_most_once_ahead : ∃ (past : List (Executor × Move)) (last : Executor) (f : Run),
    (doing [("a", .signalRoute "c" .done), ("d", .done), ("x", .done), ("y", .done),
        ("c", .done)]).History past last ∧
      f ∈ last.flows ∧ f.root.isFinished = true ∧
      Node.compile? (.sequence [.unit "a", .unit "d", .parallel [.unit "x", .unit "y"], .unit "c"]) =
        some f.root.walk.plan ∧
      (∀ x m, (x, m) ∈ past → (f.root.serial, "c") ∉ x.told Site.strays? m) ∧
      f.state.unitNames = ["a", "c", "d", "x", "y"] ∧
      f.state.times "c" ≤ 1 := by
  let units : List (String × Behavior) := [("a", .signalRoute "c" .done), ("d", .done), ("x", .done),
    ("y", .done), ("c", .done)]
  let node : Node := .sequence [.unit "a", .unit "d", .parallel [.unit "x", .unit "y"], .unit "c"]
  let plan := node.compile?.getD {}
  let y := ((doing units).launch (.plan plan) {}).2
  let moves : List Move := (List.replicate 18 0 ++ List.replicate 6 1 ++ List.replicate 6 2 ++
    List.replicate 3 0).map .step
  let after := (y.follow moves).1
  let last := (y.follow moves).2
  have hparse : Expression.parse "a -> d -> (x, y) -> c" = .ok node := by decide +kernel
  have hregistry : (units.foldl (fun r u => r.addUnit u.1 (.doing u.1 u.2)) ({} : Registry)).Abides
      Law.unforked := by
    refine Registry.abides_foldl_doing ?_ nofun
    simpa [units] using ⟨.signalRoute trivial .done, .done⟩
  have hlaunch : (doing units).launch (.plan plan) {} = (none, y) :=
    Prod.ext (launch_plan plan _ rfl) rfl
  have hmove : (doing units).move (.launch (.plan plan) {}) = some y :=
    congrArg some (congrArg Prod.snd hlaunch)
  have hafter : y.History after last := history_follow y moves
  obtain ⟨hall, hlast⟩ : (∀ e ∈ after, (0, "c") ∉ e.1.told Site.strays? e.2) ∧
      last.runs[0]?.map (fun run => (run.root.serial, run.root.isFinished, run.state.unitNames)) =
        some (0, true, ["a", "c", "d", "x", "y"]) := by
    decide +kernel
  obtain ⟨scopeId, serial, hfirst⟩ := run_launch_plan hlaunch
  obtain ⟨hfits, hsound⟩ := sound_build (build_doing units)
  -- from here on the run is known by what was observed of it
  clear_value after last
  have hy : (doing units).History _ y := .move .start hmove
  obtain ⟨f, hrun, hplan⟩ :=
    hafter.keeps_plan (hy.fits hfits) (hy.numbered hfits hsound.toNumbered) hfirst
  have hobserved := (congrArg (Option.map fun run : Run =>
    (run.root.serial, run.root.isFinished, run.state.unitNames)) hrun).symm.trans hlast
  obtain ⟨hserial, hfinished, hnames⟩ : f.root.serial = 0 ∧ f.root.isFinished = true ∧
      f.state.unitNames = ["a", "c", "d", "x", "y"] := by
    simpa using hobserved
  have hf : f ∈ last.flows := mem_flows.mpr ⟨f, List.mem_of_getElem? hrun, List.mem_cons_self⟩
  have hcompile : node.compile? = some f.root.walk.plan := hplan ▸ rfl
  -- the walk does not stray to the unit
  have hstays : ∀ x m, (x, m) ∈ [(doing units, .launch (.plan plan) {})] ++ after →
      (f.root.serial, "c") ∉ x.told Site.strays? m := by
    intro x m hmem
    rw [hserial]
    rcases List.mem_append.mp hmem with hmem | hmem
    · cases List.mem_singleton.mp hmem
      exact List.not_mem_nil
    · exact hall _ hmem
  have hpast := hy.trans hafter
  exact ⟨_, last, f, hpast, hf, hfinished, hcompile, hstays, hnames,
    History.at_most_once (build_doing units) hregistry nofun hparse (by decide) hpast hf hcompile
      fun _ => hstays⟩

/-- A unit is routed to that stands in a branch of a group behind. The walk of the branch does not know
of that, and executes the unit again. -/
theorem executes_twice : ∃ (past : List (Executor × Move)) (last : Executor) (f : Run),
    Expression.parse "a -> x -> (b, c)" =
        .ok (.sequence [.unit "a", .unit "x", .parallel [.unit "b", .unit "c"]]) ∧
      (doing [("a", .signalRoute "b" .done), ("x", .done), ("b", .done), ("c", .done)]).History past
        last ∧
      f ∈ last.flows ∧ f.root.isFinished = true ∧ f.root.walk.failure = none ∧
      f.root.walk.plan.sequence = ["a", "x", "b", "c"] ∧
      f.state.unitNames = ["a", "b", "x", "b", "c"] ∧
      f.state.times "b" = 2 := by
  let units : List (String × Behavior) := [("a", .signalRoute "b" .done), ("x", .done), ("b", .done),
    ("c", .done)]
  let node : Node := .sequence [.unit "a", .unit "x", .parallel [.unit "b", .unit "c"]]
  let plan := node.compile?.getD {}
  let moves : List Move := .launch (.plan plan) {} :: (List.replicate 18 0 ++ List.replicate 6 1 ++
    List.replicate 6 2 ++ List.replicate 3 0).map .step
  let last := ((doing units).follow moves).2
  have hparse : Expression.parse "a -> x -> (b, c)" = .ok node := by decide +kernel
  obtain ⟨f, hf, hfinished, hfailure, hsequence, hnames, hcount⟩ : ∃ f ∈ last.flows,
      f.root.isFinished = true ∧ f.root.walk.failure = none ∧
      f.root.walk.plan.sequence = ["a", "x", "b", "c"] ∧
      f.state.unitNames = ["a", "b", "x", "b", "c"] ∧
      f.state.times "b" = 2 := by
    decide +kernel
  exact ⟨_, last, f, hparse, history_follow _ moves, hf, hfinished, hfailure, hsequence, hnames,
    hcount⟩

end Executor

end Workflow
