import Mathlib.Algebra.GroupWithZero.Nat
import Workflow.Proofs.Run.Once

/-!
# What a walk gets by with

The position of a walk moves by several rules, and a unit that is routed to is executed without moving
it. All the same a walk comes to its end, after so many units and so many steps of its own, as long as
units fork nothing. What it needs is measured by the positions that are still before it: for each of
them at most the unit itself and one that is routed to, and what a group needs is no more than what
its positions allow.

`Process.Affords p starts steps` says that the walks of `p` get by with so many units to start, and so
many steps outside units. Every step pays for itself (`Process.Moves.spends`). `Process.rank` orders
what a walk does at one position: it decides, it executes the unit there, it does what follows from
that. A walk never goes back in that order, and decides only once at a position.
-/

namespace Workflow

/-! ## Plans -/

namespace Plan

/-- In a plan, and in all plans in it, groups span the units of their branches. -/
def Grouped (p : Plan) : Prop :=
  ∀ q, p.Contains q → ∀ e ∈ q.groups.entries, e.2.Fits q e.1

/-- How many units a walk through a plan may start: at each position two at most, its own unit and one
that is routed to, and one more where a group is joined. -/
def starts (p : Plan) : Nat := 3 * p.length - 1

/-- How many steps a walk through a plan may take outside units. -/
def steps (p : Plan) : Nat := max 1 (17 * p.length - 9)

variable {p : Plan} {node : Node} {e : Nat × Group Plan} {b : Branch Plan} {start : Nat}
  {group : Group Plan}

theorem WellFormed.grouped (h : p.WellFormed node) : p.Grouped := by
  intro q hq
  obtain ⟨part, -, hfits⟩ := h.inner q hq
  exact hfits.groups

theorem Grouped.fits (h : p.Grouped) (hgroup : p.groupAt? start = some group) :
    group.Fits p start :=
  h p .self _ (Table.mem_of_lookup hgroup)

theorem Grouped.branch (h : p.Grouped) (hgroup : p.groupAt? start = some group)
    (hbranch : b ∈ group.branches) : b.plan.Grouped :=
  fun _ hq => h _ (.trans (.branch .self (Table.mem_of_lookup hgroup) hbranch) hq)

end Plan

/-- The units that branches may start. -/
def Branch.startsIn (branches : List (Branch Plan)) : Nat :=
  (branches.map fun branch => branch.plan.starts).sum

/-- The steps that branches may take, with those by which they are started. -/
def Branch.stepsIn (branches : List (Branch Plan)) : Nat :=
  (branches.map fun branch => branch.plan.steps + 1).sum

namespace Group.Fits

variable {group : Group Plan} {p : Plan} {start : Nat} {branch : Branch Plan}

theorem branch_length_pos (h : group.Fits p start) (hbranch : branch ∈ group.branches) :
    0 < branch.plan.length := by
  have hhead := h.entries branch hbranch
  rcases hsequence : branch.plan.sequence with _ | ⟨u, rest⟩
  · rw [hsequence] at hhead
    cases hhead
  · rw [Plan.length, hsequence]
    exact Nat.succ_pos _

/-- The branches of a group have as many positions as the group. -/
theorem sum_length (h : group.Fits p start) :
    start + (group.branches.map fun branch => branch.plan.length).sum = group.span.stop := by
  have hlength := congrArg List.length h.units
  rw [List.length_take, List.length_drop, List.length_flatMap] at hlength
  have hstop : group.span.stop ≤ p.sequence.length := h.stop
  have hpos := h.pos
  have hstart := h.start
  simp only [Plan.length]
  omega

/-- Two branches or more need less than the positions of their group allow. -/
theorem needs (h : group.Fits p start) :
    Branch.startsIn group.branches + 2 ≤ 3 * (group.span.stop - start) ∧
      Branch.stepsIn group.branches + 16 ≤ 17 * (group.span.stop - start) := by
  have hneeds : ∀ branches : List (Branch Plan), (∀ branch ∈ branches, 0 < branch.plan.length) →
      Branch.startsIn branches + branches.length =
          3 * (branches.map fun branch => branch.plan.length).sum ∧
        Branch.stepsIn branches + 8 * branches.length =
          17 * (branches.map fun branch => branch.plan.length).sum := by
    intro branches hpos
    induction branches with
    | nil => exact ⟨rfl, rfl⟩
    | cons branch rest ih =>
      obtain ⟨hstarts, hsteps⟩ := ih fun b hb => hpos b (List.mem_cons_of_mem _ hb)
      have hone := hpos branch List.mem_cons_self
      simp only [Branch.startsIn, Branch.stepsIn, List.map_cons, List.sum_cons, List.length_cons,
        Plan.starts, Plan.steps] at hstarts hsteps ⊢
      omega
  obtain ⟨hstarts, hsteps⟩ := hneeds group.branches fun _ => h.branch_length_pos
  have hsum := h.sum_length
  have htwo := h.two
  omega

end Group.Fits

/-! ## Walks -/

/-- What a walk relies on: groups fit, and no unit that ran early is to fork anything. -/
structure Walk.Tidy (w : Walk) : Prop where
  grouped : w.plan.Grouped
  unforked : ∀ v signal fork, w.early.get? v = some (.routed signal fork) → fork = none

/-- The order in which a walk does things at a position. -/
def Intent.rank (w : Walk) : Intent → Nat
  | .advance => 3 * w.position
  | .execute _ .unit => 3 * w.position + 1
  | .execute .. | .fork .. | .finish => 3 * w.position + 2

namespace Plan

variable {p : Plan} {i j starts steps more longer : Nat}

/-- So much is enough for a walk that has to decide at a position. -/
structure Decides (p : Plan) (i starts steps : Nat) : Prop where
  startsLeft : 3 * (p.length - i) ≤ starts + 1
  stepsLeft : 17 * (p.length - i) ≤ steps + 9
  decides : 1 ≤ steps

/-- So much is enough for a walk that has done with a position, but for a unit that it may be routed
to. -/
structure Leaves (p : Plan) (i starts steps : Nat) : Prop where
  startsLeft : 3 * (p.length - (i + 1)) ≤ starts
  stepsLeft : 17 * (p.length - (i + 1)) ≤ steps + 6
  detours : 1 ≤ starts ∧ 4 ≤ steps

/-- So much is enough for a walk that has executed the unit at a position. -/
structure Obeys (p : Plan) (i starts steps : Nat) : Prop where
  within : i < p.length
  startsLeft : 3 * (p.length - i) ≤ starts + 2
  stepsLeft : 17 * (p.length - i) ≤ steps + 13

theorem Decides.mono (h : p.Decides i starts steps) (hstarts : starts ≤ more)
    (hsteps : steps ≤ longer) : p.Decides i more longer := by
  obtain ⟨hn, ht, hone⟩ := h
  exact ⟨by omega, by omega, by omega⟩

theorem Obeys.mono (h : p.Obeys i starts steps) (hstarts : starts ≤ more)
    (hsteps : steps ≤ longer) : p.Obeys i more longer := by
  obtain ⟨hin, hn, ht⟩ := h
  exact ⟨hin, by omega, by omega⟩

theorem Decides.later (h : p.Decides i starts (steps + 1)) (hlt : i < j) (hin : i < p.length) :
    p.Decides j starts steps := by
  obtain ⟨hstarts, hsteps, -⟩ := h
  exact ⟨by omega, by omega, by omega⟩

theorem Decides.obeys (h : p.Decides i starts (steps + 1)) (hin : i < p.length) :
    p.Obeys i starts steps := by
  obtain ⟨hstarts, hsteps, -⟩ := h
  exact ⟨hin, by omega, by omega⟩

theorem Obeys.leaves (h : p.Obeys i starts steps) : p.Leaves i starts steps := by
  obtain ⟨hin, hstarts, hsteps⟩ := h
  exact ⟨by omega, by omega, by omega⟩

theorem Leaves.decides (h : p.Leaves i starts steps) : p.Decides (i + 1) starts steps := by
  obtain ⟨hstarts, hsteps, hdetours⟩ := h
  exact ⟨by omega, by omega, by omega⟩

/-- A unit that the walk is routed to is started, begun and ended. -/
theorem Leaves.detour (h : p.Leaves i starts steps) :
    p.Decides (i + 1) (starts - 1) (steps - 2 - 1) := by
  obtain ⟨hstarts, hsteps, hdetours⟩ := h
  exact ⟨by omega, by omega, by omega⟩

theorem Decides.execute (h : p.Decides i starts (steps + 1)) (hin : i < p.length) :
    p.Obeys i (starts - 1) (steps - 2 - 1) := by
  obtain ⟨hstarts, hsteps, -⟩ := h
  exact ⟨hin, by omega, by omega⟩

end Plan

namespace Walk

/-- So much is enough for a walk that executes a unit, for the end of the unit and all that follows. -/
def GoesOn (w : Walk) (starts steps : Nat) : Resume → Prop
  | .unit => 1 ≤ steps ∧ w.plan.Obeys w.position starts (steps - 1)
  | .detour .. => 1 ≤ steps ∧ w.plan.Decides (w.position + 1) starts (steps - 1)
  | .alone => 1 ≤ steps
  | .group _ | .scattered .. | .detourFork => False

/-- So much is enough for a walk that waits for a group, and for the branches that are still to be
started. -/
def Awaits (w : Walk) (starts steps : Nat) (resume : Resume) (toStart : List (Branch Plan)) : Prop :=
  ∃ stop own left, resume = .group stop ∧ w.position < stop ∧ w.plan.Leaves (stop - 1) own left ∧
    (∀ branch ∈ toStart, branch.plan.Grouped) ∧
    Branch.startsIn toStart + own ≤ starts ∧ Branch.stepsIn toStart + 1 + left ≤ steps

end Walk

/-- So much is enough for what a walk does next and all that follows. -/
def Intent.Affords (w : Walk) (starts steps : Nat) : Intent → Prop
  | .advance => w.plan.Decides w.position starts steps
  | .execute _ resume => 1 ≤ starts ∧ 2 ≤ steps ∧ w.GoesOn (starts - 1) (steps - 2) resume
  | .fork _ branches resume => 2 ≤ branches.length ∧ 1 ≤ steps ∧
    w.Awaits starts (steps - 1) resume branches
  | .finish => True

/-- A turn does not go back behind a rank, and so much is enough for what comes next. -/
structure Turn.Affords (t : Turn) (rank starts steps : Nat) : Prop where
  tidy : t.walk.Tidy
  onward : rank ≤ t.next.rank t.walk
  next : t.next.Affords t.walk starts steps

namespace Walk

variable {w w' : Walk} {scope : Scope} {hasRun : String → Bool} {tolerant : Bool} {u v : String}
  {resume : Resume} {starts steps start stop : Nat} {group : Group Plan}

theorem Tidy.of_eq (h : w.Tidy) (hplan : w'.plan = w.plan) (hearly : w'.early = w.early) : w'.Tidy :=
  ⟨hplan ▸ h.grouped, hearly ▸ h.unforked⟩

theorem Tidy.erase (h : w.Tidy) (v : String) : Tidy { w with early := w.early.erase v } := by
  refine ⟨h.grouped, fun v' signal fork hget => h.unforked v' signal fork ?_⟩
  rw [Table.get?_erase] at hget
  split at hget
  · cases hget
  · exact hget

theorem Tidy.insert (h : w.Tidy) (v : String) {early : Early}
    (hearly : ∀ signal fork, early = .routed signal fork → fork = none) :
    Tidy { w with early := w.early.insert v early } := by
  refine ⟨h.grouped, fun v' signal fork hget => ?_⟩
  rw [Table.get?_insert] at hget
  split at hget
  · exact hearly signal fork (Option.some.inj hget)
  · exact h.unforked v' signal fork hget

/-! ## Decisions -/

theorem affords_finish (h : w.Tidy) (scope : Scope) :
    (w.finish scope).Affords (3 * w.position + 2) starts steps :=
  ⟨h, Nat.le_refl _, trivial⟩

theorem affords_stop (h : w.Tidy) (scope : Scope) :
    (w.stop scope).Affords (3 * w.position + 2) starts steps :=
  ⟨h.of_eq rfl rfl, Nat.le_refl _, trivial⟩

/-- A walk goes on at a later position. -/
theorem affords_moveTo (h : w.Tidy) (hlt : w.position < stop)
    (hdecides : w.plan.Decides stop starts steps) (scope : Scope) :
    Turn.Affords ⟨{ w with position := stop }, scope, .advance⟩ (3 * w.position + 2) starts steps := by
  refine ⟨h.of_eq rfl rfl, ?_, hdecides⟩
  show 3 * w.position + 2 ≤ 3 * stop
  omega

theorem affords_proceed (h : w.Tidy) (hdecides : w.plan.Decides (w.position + 1) starts steps) (scope : Scope) :
    (w.proceed scope).Affords (3 * w.position + 2) starts steps :=
  affords_moveTo h (Nat.lt_succ_self _) hdecides scope

theorem affords_detour (h : w.Tidy) (hleaves : w.plan.Leaves w.position starts steps) (scope : Scope)
    (hasRun : String → Bool) (target : String) :
    (w.detour scope hasRun target).Affords (3 * w.position + 2) starts steps := by
  unfold detour
  split
  · exact affords_proceed h hleaves.decides scope
  · obtain ⟨hone, hfour⟩ := hleaves.detours
    exact ⟨h, Nat.le_refl _, hone, by omega, by omega, hleaves.detour⟩

theorem affords_steer (h : w.Tidy) (hleaves : w.plan.Leaves w.position starts steps) (scope : Scope)
    (hasRun : String → Bool) (v : String) (signal : Option String) :
    (w.steer scope hasRun v signal).Affords (3 * w.position + 2) starts steps := by
  have hchosen : ∀ choice label,
      ((w.chooseArm choice label).proceed scope).Affords (3 * w.position + 2) starts steps :=
    fun choice label => affords_proceed (w := w.chooseArm choice label) (h.of_eq rfl rfl)
      hleaves.decides scope
  unfold steer
  split
  · exact affords_proceed h hleaves.decides scope
  · exact hchosen ..
  · split
    · exact affords_stop h scope
    · split
      · next choice _ =>
        split
        · exact hchosen ..
        · exact affords_detour (w := w.skipArms choice) (h.of_eq rfl rfl) hleaves scope hasRun _
      · split
        · exact affords_proceed h hleaves.decides _
        · exact affords_detour h hleaves scope hasRun _

/-- The positions of a group allow for its branches, and for joining them. -/
theorem affords_forkGroup (h : w.Tidy) (hgroup : w.plan.groupAt? start = some group)
    (hle : w.position ≤ start) (hstarts : 3 * (w.plan.length - start) ≤ starts + 1)
    (hsteps : 17 * (w.plan.length - start) ≤ steps + 10) (scope : Scope) :
    (w.forkGroup scope group group.branches).Affords (3 * w.position + 2) starts steps := by
  have hfits := h.grouped.fits hgroup
  obtain ⟨hbranchStarts, hbranchSteps⟩ := hfits.needs
  have hlt : start < group.span.stop := hfits.start ▸ hfits.pos
  have hstop := hfits.stop
  have hleaves : w.plan.Leaves (group.span.stop - 1) (max 1 (3 * (w.plan.length - group.span.stop)))
      (max 4 (17 * (w.plan.length - group.span.stop) - 6)) :=
    ⟨by omega, by omega, by omega⟩
  exact ⟨h, Nat.le_refl _, hfits.two, by omega, group.span.stop, _, _, rfl,
    Nat.lt_of_le_of_lt hle hlt, hleaves, fun branch hbranch => h.grouped.branch hgroup hbranch,
    by omega, by omega⟩

theorem affords_obey {fork : Option (List String)} (h : w.Tidy) (hobeys : w.plan.Obeys w.position starts steps)
    (hfork : fork.filter (· ≠ []) = none) (scope : Scope) (hasRun : String → Bool) (v : String)
    (signal : Option String) :
    (w.obey scope hasRun v signal fork).Affords (3 * w.position + 2) starts steps := by
  unfold obey
  rw [hfork]
  split
  · exact affords_stop h scope
  · split
    · next heq _ => cases heq
    · next group _ hgroup =>
      unfold Plan.groupAfter? at hgroup
      obtain ⟨hin, hstarts, hsteps⟩ := hobeys
      exact affords_forkGroup h (Option.filter_eq_some_iff.mp hgroup).1 (Nat.le_succ _) (by omega)
        (by omega) scope
    · next heq _ => cases heq
    · exact affords_steer h hobeys.leaves scope hasRun v signal

theorem affords_fallThrough (h : w.Tidy) (hdecides : w.plan.Decides (w.position + 1) starts steps)
    (scope : Scope) :
    (w.fallThrough.proceed scope).Affords (3 * w.position + 2) starts steps := by
  unfold fallThrough
  split
  · next choice _ =>
    exact affords_proceed (w := w.chooseArm choice false) (h.of_eq rfl rfl) hdecides scope
  · exact affords_proceed h hdecides scope

/-- A decision at a position takes one step. -/
theorem affords_advance (h : w.Tidy) (hdecides : w.plan.Decides w.position starts (steps + 1))
    (scope : Scope) (hasRun : String → Bool) :
    (w.advance scope hasRun).Affords (3 * w.position + 1) starts steps := by
  -- what is enough behind a later position is enough here
  have hlater {t : Turn} (ht : t.Affords (3 * w.position + 2) starts steps) :
      t.Affords (3 * w.position + 1) starts steps :=
    ⟨ht.tidy, Nat.le_of_succ_le ht.onward, ht.next⟩
  unfold advance
  split
  · exact hlater (affords_finish h scope)
  · next v hunit =>
    have hin : w.position < w.plan.length := (List.getElem?_eq_some_iff.mp hunit).1
    have hobeys := hdecides.obeys hin
    obtain ⟨-, hstarts, hsteps⟩ := id hobeys
    split
    · next stop _ hskipped =>
      obtain ⟨_, -, -, hlt, rfl⟩ := exists_of_skipEnd? hskipped
      exact hlater (affords_moveTo h hlt (hdecides.later hlt hin) scope)
    · next group _ hgroup =>
      split
      · have hfits := h.grouped.fits hgroup
        have hlt : w.position < group.span.stop := hfits.start ▸ hfits.pos
        exact hlater (affords_moveTo h hlt (hdecides.later hlt hin) scope)
      · obtain ⟨hstarts, hsteps, -⟩ := hdecides
        exact hlater (affords_forkGroup h hgroup (Nat.le_refl _) hstarts (by omega) scope)
    · next early _ _ hearly =>
      have herased := h.erase v
      simp only
      split
      · exact hlater (affords_fallThrough herased hobeys.leaves.decides scope)
      · exact hlater (affords_obey herased hobeys rfl _ hasRun v _)
      · next signal fork =>
        -- a tidy walk keeps no fork for later
        obtain rfl := h.unforked v signal fork hearly
        exact hlater (affords_obey herased hobeys rfl scope hasRun v _)
    · exact ⟨h, Nat.le_refl _, by omega, by omega, by omega, hdecides.execute hin⟩

/-! ## Answers -/

theorem affords_unitDone (h : w.Tidy) (hgoes : w.GoesOn starts steps resume)
    (hscope : scope.Unforked) (hasRun : String → Bool) (tolerant : Bool) (u : String)
    (result : Option Mishap) :
    (w.unitDone scope hasRun tolerant u resume result).Affords (3 * w.position + 2) starts
      (steps - 1) := by
  unfold unitDone
  split
  · obtain ⟨-, hobeys⟩ := hgoes
    unfold ownUnitDone
    split
    · exact affords_finish h scope
    · next v _ =>
      split
      · next f =>
        -- a tolerated failure leaves the position as it is, and the walk falls through
        have hadded : (w.addFailure f.failure).Tidy := h.of_eq rfl rfl
        simp only
        split
        · exact affords_fallThrough hadded hobeys.leaves.decides _
        · exact affords_finish hadded scope
      · exact affords_obey h hobeys
          ((hscope.fades (Scope.fades_takeRoute scope v)).takeFork v) _ hasRun v _
  · obtain ⟨-, hdecides⟩ := hgoes
    unfold detourDone
    rcases result with _ | f
    · have hnone := (hscope.fades (Scope.fades_takeRoute scope u)).takeFork u
      simp only [hnone]
      split
      · exact affords_stop h _
      · split
        -- an early unit is kept without a fork, which is what a tidy walk asks for
        · exact affords_proceed (h.insert u fun _ _ heq => (Early.routed.inj heq).2.symm) hdecides _
        · next heq => cases heq
        · exact affords_proceed h hdecides _
    · have hadded : (w.addFailure f.failure).Tidy := h.of_eq rfl rfl
      simp only
      split
      · split
        · refine affords_proceed (hadded.insert u ?_) hdecides _
          exact nofun
        · exact affords_proceed hadded hdecides _
      · exact affords_finish hadded _
  all_goals
    unfold aloneDone
    split
    · next f => exact affords_finish (w := w.addFailure f.failure) (h.of_eq rfl rfl) _
    · simp only
      split
      · exact affords_stop h _
      · exact affords_finish h _

theorem affords_groupDone (h : w.Tidy) (hlt : w.position < stop)
    (hleaves : w.plan.Leaves (stop - 1) starts steps) (scope : Scope) (hasRun : String → Bool)
    (tolerant : Bool) (result : Option Failure) :
    (w.groupDone scope hasRun tolerant stop result).Affords (3 * w.position + 2) starts steps := by
  have hdecides : w.plan.Decides stop starts steps := by
    have hdecides := hleaves.decides
    rwa [show stop - 1 + 1 = stop by omega] at hdecides
  unfold groupDone
  split
  · next failure =>
    have hadded : (w.addFailure failure).Tidy := h.of_eq rfl rfl
    simp only
    split
    · exact affords_moveTo hadded hlt hdecides scope
    · exact affords_finish hadded scope
  · split
    · next router _ _ =>
      -- the router of a group decides at the last position of the group, which is not before the
      -- walk
      have hsteered := affords_steer (w := { w with position := stop - 1 }) (h.of_eq rfl rfl) hleaves
        (scope.takeRoute router).2 hasRun router (scope.takeRoute router).1
      refine ⟨hsteered.tidy, Nat.le_trans ?_ hsteered.onward, hsteered.next⟩
      show 3 * w.position + 2 ≤ 3 * (stop - 1) + 2
      omega
    · exact affords_moveTo h hlt hdecides scope

end Walk

/-! ## Processes -/

mutual

/-- So many units to start and so many steps outside units are enough for the walks of a process. -/
def Process.Affords : Process → Nat → Nat → Prop
  | .mk _ walk activity, starts, steps => walk.Tidy ∧ activity.Affords walk starts steps

def Activity.Affords (walk : Walk) : Activity → Nat → Nat → Prop
  | .poised next, starts, steps => next.Affords walk starts steps
  | .queued _ _ resume, starts, steps => 1 ≤ steps ∧ walk.GoesOn starts (steps - 1) resume
  | .working job _, starts, steps | .asleep job _ _, starts, steps
  | .calling job _ _ _, starts, steps => walk.GoesOn starts steps job.resume
  | .inPlace .., _, _ => False
  | .forking _ resume toStart children _, starts, steps => ∃ own left inner pace,
    walk.Awaits own left resume toStart ∧ Child.AffordIn children inner pace ∧
      own + inner ≤ starts ∧ left + pace ≤ steps

def Child.AffordIn : List Child → Nat → Nat → Prop
  | [], _, _ => True
  | child :: rest, starts, steps => ∃ own left others pace,
    child.Affords own left ∧ Child.AffordIn rest others pace ∧ own + others ≤ starts ∧
      left + pace ≤ steps

def Child.Affords : Child → Nat → Nat → Prop
  | .running _ process, starts, steps => process.Affords starts steps
  | .refused _, _, _ | .ended .., _, _ | .cancelled _, _, _ => True

end

/-- What a walk does at a position, in the order in which it does it. -/
def Activity.rank (walk : Walk) : Activity → Nat
  | .poised next => next.rank walk
  | .queued .. | .working .. | .asleep .. | .calling .. | .inPlace .. | .forking .. =>
    3 * walk.position + 2

def Process.rank (p : Process) : Nat := p.activity.rank p.walk

/-- A unit is in the middle of its calls. -/
def Activity.IsAtWork : Activity → Prop
  | .working .. | .asleep .. | .calling .. => True
  | .poised _ | .queued .. | .inPlace .. | .forking .. => False

theorem Intent.rank_le (w : Walk) (next : Intent) : next.rank w ≤ 3 * w.position + 2 := by
  unfold Intent.rank
  split <;> omega

theorem Activity.rank_le (w : Walk) (activity : Activity) :
    activity.rank w ≤ 3 * w.position + 2 := by
  cases activity with
  | poised next => exact Intent.rank_le w next
  | queued | working | asleep | calling | inPlace | forking => exact Nat.le_refl _

/-- What a walk does after it has begun a unit. -/
theorem Activity.rank_of_isAtWork {w : Walk} {activity : Activity} (h : activity.IsAtWork) :
    activity.rank w = 3 * w.position + 2 := by
  cases activity with
  | working | asleep | calling => rfl
  | poised | queued | inPlace | forking => exact h.elim

/-- The unit that a walk begins to execute: it looks the unit up, and waits for a permit if need be. -/
def Activity.begins? : Activity → Option String
  | .poised (.execute u _) => some u
  | .poised _ | .queued .. | .working .. | .asleep .. | .calling .. | .inPlace .. | .forking .. => none

section

variable {w : Walk} {starts steps more longer : Nat} {resume : Resume} {toStart : List (Branch Plan)}
  {before after children : List Child} {child : Child}

theorem Walk.GoesOn.mono (h : w.GoesOn starts steps resume) (hstarts : starts ≤ more)
    (hsteps : steps ≤ longer) : w.GoesOn more longer resume := by
  cases resume with
  | unit => exact ⟨Nat.le_trans h.1 hsteps, h.2.mono hstarts (by omega)⟩
  | detour => exact ⟨Nat.le_trans h.1 hsteps, h.2.mono hstarts (by omega)⟩
  | alone => exact Nat.le_trans h hsteps
  | group | scattered | detourFork => exact h

theorem Walk.Awaits.mono (h : w.Awaits starts steps resume toStart) (hstarts : starts ≤ more)
    (hsteps : steps ≤ longer) : w.Awaits more longer resume toStart := by
  obtain ⟨stop, own, left, hresume, hlt, hleaves, hgrouped, hown, hleft⟩ := h
  exact ⟨stop, own, left, hresume, hlt, hleaves, hgrouped, by omega, by omega⟩

theorem Intent.Affords.mono {next : Intent} (h : next.Affords w starts steps) (hstarts : starts ≤ more)
    (hsteps : steps ≤ longer) : next.Affords w more longer := by
  cases next with
  | advance => exact Plan.Decides.mono h hstarts hsteps
  | execute u resume =>
    obtain ⟨hone, htwo, hgoes⟩ := h
    exact ⟨by omega, by omega, hgoes.mono (by omega) (by omega)⟩
  | fork anchor branches resume =>
    obtain ⟨htwo, hone, hawaits⟩ := h
    exact ⟨htwo, by omega, hawaits.mono hstarts (by omega)⟩
  | finish => trivial

theorem Activity.Affords.mono {activity : Activity} (h : activity.Affords w starts steps)
    (hstarts : starts ≤ more) (hsteps : steps ≤ longer) : activity.Affords w more longer := by
  cases activity with
  | poised next => exact Intent.Affords.mono h hstarts hsteps
  | queued u unit resume => exact ⟨by have := h.1; omega, h.2.mono hstarts (by omega)⟩
  | working | asleep | calling => exact Walk.GoesOn.mono h hstarts hsteps
  | inPlace => exact h.elim
  | forking anchor resume toStart children completed =>
    obtain ⟨own, left, inner, pace, hawaits, hinner, hstarts', hsteps'⟩ := h
    exact ⟨own, left, inner, pace, hawaits, hinner, by omega, by omega⟩

theorem Process.Affords.mono {p : Process} (h : p.Affords starts steps) (hstarts : starts ≤ more)
    (hsteps : steps ≤ longer) : p.Affords more longer := by
  cases p with
  | mk serial walk activity => exact ⟨h.1, h.2.mono hstarts hsteps⟩

theorem Child.AffordIn.mono (h : Child.AffordIn children starts steps) (hstarts : starts ≤ more)
    (hsteps : steps ≤ longer) : Child.AffordIn children more longer := by
  cases children with
  | nil => trivial
  | cons child rest =>
    obtain ⟨own, left, others, pace, hown, hothers, hstarts', hsteps'⟩ := h
    exact ⟨own, left, others, pace, hown, hothers, by omega, by omega⟩

theorem Child.affordIn_append : Child.AffordIn (before ++ after) starts steps ↔
    ∃ own left others pace, Child.AffordIn before own left ∧ Child.AffordIn after others pace ∧
      own + others ≤ starts ∧ left + pace ≤ steps := by
  induction before generalizing starts steps with
  | nil =>
    constructor
    · exact fun h => ⟨0, 0, starts, steps, trivial, h, by omega, by omega⟩
    · rintro ⟨own, left, others, pace, -, h, hstarts, hsteps⟩
      exact h.mono (by omega) (by omega)
  | cons first rest ih =>
    constructor
    · rintro ⟨own, left, others, pace, hown, hothers, hstarts, hsteps⟩
      obtain ⟨own', left', others', pace', hrest, hafter, hstarts', hsteps'⟩ := ih.mp hothers
      exact ⟨own + own', left + left', others', pace', ⟨own, left, own', left', hown, hrest, by omega,
        by omega⟩, hafter, by omega, by omega⟩
    · rintro ⟨own, left, others, pace, ⟨own', left', others', pace', hfirst, hrest, hstarts', hsteps'⟩,
        hafter, hstarts, hsteps⟩
      exact ⟨own', left', others' + others, pace' + pace, hfirst,
        ih.mpr ⟨others', pace', others, pace, hrest, hafter, by omega, by omega⟩, by omega, by omega⟩

/-- One branch of a fork and the others. -/
theorem Child.affordIn_middle : Child.AffordIn (before ++ child :: after) starts steps ↔
    ∃ own left others pace, child.Affords own left ∧ Child.AffordIn (before ++ after) others pace ∧
      own + others ≤ starts ∧ left + pace ≤ steps := by
  constructor
  · intro h
    obtain ⟨n, t, _, _, hbefore, ⟨own, left, n', t', hchild, hafter, hown, hleft⟩, hstarts, hsteps⟩ :=
      affordIn_append.mp h
    exact ⟨own, left, n + n', t + t', hchild,
      affordIn_append.mpr ⟨n, t, n', t', hbefore, hafter, by omega, by omega⟩, by omega, by omega⟩
  · rintro ⟨own, left, others, pace, hchild, hothers, hstarts, hsteps⟩
    obtain ⟨n, t, n', t', hbefore, hafter, hn, ht⟩ := affordIn_append.mp hothers
    exact affordIn_append.mpr ⟨n, t, own + n', left + t', hbefore,
      ⟨own, left, n', t', hchild, hafter, by omega, by omega⟩, by omega, by omega⟩

end

theorem Process.affords_ofPlan {plan : Plan} (hgrouped : plan.Grouped) (serial : Nat)
    (pooled : Bool) : (Process.ofPlan serial plan pooled).Affords plan.starts plan.steps := by
  have hdecides : plan.Decides 0 plan.starts plan.steps := by
    unfold Plan.starts Plan.steps
    exact ⟨by omega, by omega, by omega⟩
  exact ⟨⟨hgrouped, nofun⟩, hdecides⟩

theorem Process.affords_ofUnit {u : String} (hgrouped : (Plan.ofUnit u).Grouped) (serial : Nat) :
    (Process.ofUnit serial u).Affords (Plan.ofUnit u).starts (Plan.ofUnit u).steps := by
  have hstarts : (Plan.ofUnit u).starts = 2 := rfl
  have hsteps : (Plan.ofUnit u).steps = 8 := rfl
  have hgoes : Walk.GoesOn { plan := .ofUnit u, pooled := false } (2 - 1) (8 - 2) .alone := by
    show 1 ≤ 8 - 2
    omega
  rw [hstarts, hsteps]
  exact ⟨⟨hgrouped, nofun⟩, by omega, by omega, hgoes⟩

/-- A step has been paid for: a unit that it begins, and the step itself unless it happens in the middle
of a unit. A walk does not go back by it, and has done with a decision at a position and with the unit
there. -/
structure Process.Spends (p p' : Process) (begins starts steps : Nat) : Prop where
  affords : ∃ starts' steps', p'.Affords starts' steps' ∧ starts' + begins ≤ starts ∧ steps' ≤ steps ∧
    (¬ (p.activity.IsAtWork ∧ p'.activity.IsAtWork) → steps' + 1 ≤ steps)
  onward : p.rank ≤ p'.rank
  passes : p.rank % 3 ≠ 2 → p.rank < p'.rank

theorem Walk.GoesOn.pos {w : Walk} {starts steps : Nat} {resume : Resume}
    (h : w.GoesOn starts steps resume) : 1 ≤ steps := by
  cases resume with
  | unit | detour => exact h.1
  | alone => exact h
  | group | scattered | detourFork => exact h.elim

namespace Scene

variable {s s' : Scene} {task serial starts steps starts' steps' begins rank : Nat} {u : String}
  {resume : Resume}

/-- A turn that has been paid for. -/
theorem spends_of_turn {t : Turn} (h : t.Affords rank starts' steps')
    (hrank : (s.process serial).rank < rank ∨
      (s.process serial).rank = rank ∧ (s.process serial).rank % 3 = 2)
    (hstarts : starts' + begins ≤ starts) (hsteps : steps' + 1 ≤ steps) :
    (s.process serial).Spends (.mk serial t.walk (.poised t.next)) begins starts steps := by
  have honward : rank ≤ (Process.mk serial t.walk (.poised t.next)).rank := h.onward
  exact ⟨⟨starts', steps', ⟨h.tidy, h.next⟩, hstarts, by omega, fun _ => hsteps⟩, by omega, by omega⟩

/-- A unit ends. -/
theorem spends_unitDone {scope : Scope} (htidy : s.walk.Tidy)
    (hgoes : s.walk.GoesOn starts' steps' resume) (hscope : scope.Unforked)
    (hrank : (s.process serial).rank = 3 * s.walk.position + 2 ∨
      (s.process serial).rank = 3 * s.walk.position + 1)
    (hstarts : starts' + begins ≤ starts) (hsteps : steps' ≤ steps) (hasRun : String → Bool)
    (tolerant : Bool) (u : String) (result : Option Mishap) :
    let t := s.walk.unitDone scope hasRun tolerant u resume result
    (s.process serial).Spends (.mk serial t.walk (.poised t.next)) begins starts steps := by
  have hone := hgoes.pos
  exact spends_of_turn (Walk.affords_unitDone htidy hgoes hscope hasRun tolerant u result) (by omega)
    hstarts (by omega)

/-- In the middle of a unit nothing is spent. -/
theorem spends_atWork {activity : Activity} (htidy : s.walk.Tidy) (hwas : s.activity.IsAtWork)
    (hworks : activity.IsAtWork) (haffords : activity.Affords s.walk starts steps) :
    (s.process serial).Spends (.mk serial s.walk activity) 0 starts steps := by
  have hrank : (s.process serial).rank = 3 * s.walk.position + 2 := Activity.rank_of_isAtWork hwas
  have hrank' : (Process.mk serial s.walk activity).rank = 3 * s.walk.position + 2 :=
    Activity.rank_of_isAtWork hworks
  exact ⟨⟨starts, steps, ⟨htidy, haffords⟩, by omega, by omega, fun hnot => absurd ⟨hwas, hworks⟩ hnot⟩,
    by omega, by omega⟩

/-- A walk goes on to something that is neither a decision nor the unit at its position. -/
theorem spends_onward (activity : Activity) (htidy : s.walk.Tidy)
    (hrank : (s.process serial).rank ≤ 3 * s.walk.position + 2)
    (hrank' : activity.rank s.walk = 3 * s.walk.position + 2)
    (haffords : activity.Affords s.walk starts' steps') (hstarts : starts' + begins ≤ starts)
    (hsteps : steps' + 1 ≤ steps) :
    (s.process serial).Spends (.mk serial s.walk activity) begins starts steps := by
  have hlater : (Process.mk serial s.walk activity).rank = 3 * s.walk.position + 2 := hrank'
  exact ⟨⟨starts', steps', ⟨htidy, haffords⟩, hstarts, by omega, fun _ => hsteps⟩, by omega, by omega⟩

/-- Every step that a walk takes where it stands pays for itself. -/
theorem Steps.spends (h : s.Steps task serial s') (haffords : (s.process serial).Affords starts steps)
    (hscope : s.run.scope.Unforked) (hlisteners : s.engine.listeners.Abide) :
    (s.process serial).Spends (s'.process serial) (s.activity.begins?.toList.length) starts steps := by
  obtain ⟨htidy, hown⟩ := haffords
  have hrank : (s.process serial).rank = s.activity.rank s.walk := rfl
  have hle := Activity.rank_le s.walk s.activity
  cases h with
  | advance h =>
    rw [h] at hown hrank ⊢
    -- a decision takes a step and raises the rank
    have hone : steps - 1 + 1 = steps := Nat.sub_add_cancel hown.decides
    have hdecides : s.walk.plan.Decides s.walk.position starts (steps - 1 + 1) := hone ▸ hown
    exact spends_of_turn (Walk.affords_advance htidy hdecides _ _) (.inl (hrank ▸ Nat.lt_succ_self _))
      (Nat.le_refl _) (Nat.le_of_eq hone)
  | @missing u resume h =>
    rw [h] at hown hrank ⊢
    obtain ⟨hone, htwo, hgoes⟩ := hown
    -- a unit that is not there is done with at once, be it the unit at the position or one routed
    -- to
    have hrank' : (s.process serial).rank = 3 * s.walk.position + 2 ∨
        (s.process serial).rank = 3 * s.walk.position + 1 := by
      rw [hrank]
      cases resume with
      | unit => exact .inr rfl
      | alone | detour | group | scattered | detourFork => exact .inl rfl
    exact spends_unitDone htidy hgoes hscope hrank' (Nat.le_of_eq (Nat.sub_add_cancel hone))
      (Nat.sub_le ..) _ _ u _
  | queues h =>
    rw [h] at hown ⊢
    obtain ⟨hone, htwo, hgoes⟩ := hown
    have hqueued : 1 ≤ steps - 1 ∧ s.walk.GoesOn (starts - 1) (steps - 1 - 1) _ := ⟨by omega, hgoes⟩
    exact spends_onward (.queued _ _ _) htidy (by omega) rfl hqueued (Nat.le_of_eq (Nat.sub_add_cancel hone)) (by omega)
  | begins h =>
    rw [h] at hown ⊢
    obtain ⟨hone, htwo, hgoes⟩ := hown
    exact spends_onward (.working _ _) htidy (by omega) rfl hgoes
      (Nat.le_of_eq (Nat.sub_add_cancel hone)) (by omega)
  | granted h =>
    rw [h] at hown ⊢
    obtain ⟨hone, hgoes⟩ := hown
    exact spends_onward (.working _ _) htidy (by omega) rfl hgoes (Nat.le_refl _) (by omega)
  | does h | sleeps h | wakes h | opens h | runs h | tidies h | fails h =>
    have hwas : s.activity.IsAtWork := by
      rw [h]
      trivial
    rw [h] at hown
    -- in the middle of a unit nothing has to be paid
    have hnone : s.activity.begins?.toList.length = 0 := by
      rw [h]
      rfl
    rw [hnone]
    exact spends_atWork htidy hwas trivial hown
  | ends h | gaveUp h =>
    rw [h] at hown hrank ⊢
    rw [endUnit_eq]
    exact spends_unitDone htidy hown
      (hscope.fades (announce_of_abide hlisteners task serial _ _ _).1) (.inl hrank) (Nat.le_refl _)
      (Nat.le_refl _) _ _ _ _
  | forksNone h | forksOne h =>
    rw [h] at hown
    -- a group has two branches or more
    exact absurd hown.1 (by simp)
  | forks h =>
    rw [h] at hown ⊢
    obtain ⟨-, hone, hawaits⟩ := hown
    exact spends_onward (.forking _ _ _ [] []) htidy (by omega) rfl
      ⟨starts, steps - 1, 0, 0, hawaits, trivial, Nat.le_refl _, Nat.le_refl _⟩ (Nat.le_refl _)
      (by omega)
  | @starts anchor resume branch toStart children completed h =>
    rw [h] at hown ⊢
    obtain ⟨own, left, inner, pace, ⟨stop, own', left', hresume, hlt, hleaves, hgrouped, hn, ht⟩,
      hinner, hstarts, hsteps⟩ := hown
    simp only [Branch.startsIn, Branch.stepsIn, List.map_cons, List.sum_cons] at hn ht
    -- what was set aside for the branch goes over to its walk
    have hchild := Process.affords_ofPlan (hgrouped branch List.mem_cons_self) s.engine.nextSerial true
    have hawaits : s.walk.Awaits (own - branch.plan.starts) (left - branch.plan.steps - 1) resume
        toStart :=
      ⟨stop, own', left', hresume, hlt, hleaves,
        fun b hb => hgrouped b (List.mem_cons_of_mem _ hb),
        by simp only [Branch.startsIn]; omega, by simp only [Branch.stepsIn]; omega⟩
    have hchildren : Child.AffordIn (children ++
        [.running branch.entry (.ofPlan s.engine.nextSerial branch.plan true)])
        (inner + branch.plan.starts) (pace + branch.plan.steps) :=
      Child.affordIn_append.mpr ⟨inner, pace, _, _, hinner, ⟨_, _, 0, 0, hchild, trivial, Nat.le_refl _,
        Nat.le_refl _⟩, Nat.le_refl _, Nat.le_refl _⟩
    have hforking : Activity.Affords s.walk (.forking anchor resume toStart _ completed) starts
        (steps - 1) := ⟨_, _, _, _, hawaits, hchildren, by omega, by omega⟩
    exact spends_onward _ htidy (by omega) rfl hforking (Nat.le_refl _) (by omega)
  | @refuses anchor resume branch toStart children completed h =>
    rw [h] at hown ⊢
    obtain ⟨own, left, inner, pace, ⟨stop, own', left', hresume, hlt, hleaves, hgrouped, hn, ht⟩,
      hinner, hstarts, hsteps⟩ := hown
    simp only [Branch.startsIn, Branch.stepsIn, List.map_cons, List.sum_cons] at hn ht
    have hawaits : s.walk.Awaits own (left - 1) resume toStart :=
      ⟨stop, own', left', hresume, hlt, hleaves,
        fun b hb => hgrouped b (List.mem_cons_of_mem _ hb),
        by simp only [Branch.startsIn]; omega, by simp only [Branch.stepsIn]; omega⟩
    have hchildren : Child.AffordIn (children ++ [.refused branch.entry]) inner pace :=
      Child.affordIn_append.mpr ⟨inner, pace, 0, 0, hinner, ⟨0, 0, 0, 0, trivial, trivial, Nat.le_refl _,
        Nat.le_refl _⟩, Nat.le_refl _, Nat.le_refl _⟩
    have hforking : Activity.Affords s.walk (.forking anchor resume toStart _ completed) starts
        (steps - 1) := ⟨_, _, _, _, hawaits, hchildren, by omega, by omega⟩
    exact spends_onward _ htidy (by omega) rfl hforking (Nat.le_refl _) (by omega)
  | joins h =>
    rw [h] at hown hrank ⊢
    obtain ⟨own, left, inner, pace, ⟨stop, own', left', rfl, hlt, hleaves, hgrouped, hn, ht⟩, hinner,
      hstarts, hsteps⟩ := hown
    have hwaits : (s.process serial).rank = 3 * s.walk.position + 2 := hrank
    -- the walk goes on with what was set aside for the time after the join
    have hstarts' : own' + 0 ≤ starts := by omega
    exact spends_of_turn (Walk.affords_groupDone htidy hlt hleaves _ _ _ _)
      (.inr ⟨hwaits, by omega⟩) hstarts' (by omega)

end Scene

/-! ## Steps in a tree -/

/-- A unit of a walk of a process is in the middle of its calls, and no such unit has ended. -/
def Process.StaysAtWork (p p' : Process) : Prop :=
  (∃ q ∈ p.crew, q.activity.IsAtWork) ∧
    ∀ q ∈ p.crew, q.activity.IsAtWork → ∃ r ∈ p'.crew, r.serial = q.serial ∧ r.activity.IsAtWork

/-- The unit that a walk begins to execute at a site. -/
def Site.begins? (site : Site) : Option String := site.process.activity.begins?

namespace Process

variable {who task starts steps : Nat} {p p' q : Process} {run run' : RunState} {e e' : Engine}
  {site : Site}

/-- A walk whose unit is at work has no branches. -/
theorem crew_of_isAtWork (h : p.activity.IsAtWork) : p.crew = [p] := by
  obtain ⟨serial, walk, activity⟩ := p
  cases activity with
  | working | asleep | calling => rfl
  | poised | queued | inPlace | forking => exact h.elim

theorem staysAtWork (h : p.activity.IsAtWork) (h' : p'.activity.IsAtWork)
    (hserial : p'.serial = p.serial) : p.StaysAtWork p' := by
  refine ⟨⟨p, p.mem_crew_self, h⟩, fun q hq _ => ⟨p', p'.mem_crew_self, ?_, h'⟩⟩
  rw [crew_of_isAtWork h, List.mem_singleton] at hq
  rw [hq, hserial]

/-- At the end of a walk no unit is at work. -/
theorem StaysAtWork.not_isFinished (h : p.StaysAtWork p') : p'.isFinished = false := by
  obtain ⟨⟨q, hq, hwork⟩, hkeeps⟩ := h
  obtain ⟨r, hr, -, hstill⟩ := hkeeps q hq hwork
  by_contra hfinished
  obtain ⟨serial, walk, rfl⟩ := exists_of_isFinished (Bool.not_eq_false _ ▸ hfinished)
  obtain rfl := List.mem_singleton.mp hr
  exact hstill.elim

/-- A unit of a branch is in the middle of its calls. -/
theorem StaysAtWork.child {branch branch' : Process} (h : branch.StaysAtWork branch') (serial : Nat)
    (walk : Walk) (anchor entry : String) (resume : Resume) (toStart : List (Branch Plan))
    (before after : List Child) (completed : List String) :
    (mk serial walk (.forking anchor resume toStart (before ++ .running entry branch :: after)
        completed)).StaysAtWork
      (mk serial walk (.forking anchor resume toStart (before ++ .running entry branch' :: after)
        completed)) := by
  obtain ⟨⟨q, hq, hwork⟩, hkeeps⟩ := h
  refine ⟨⟨q, mem_crew.mpr (.inr ⟨branch, ⟨entry, mem_children ..⟩, hq⟩), hwork⟩, fun q hq hwork => ?_⟩
  rcases mem_crew.mp hq with rfl | ⟨other, hother, hin⟩
  · exact hwork.elim
  · rcases Child.running_of_moved hother branch' with rfl | hnow
    · obtain ⟨r, hr, hserial, hstill⟩ := hkeeps q hin hwork
      exact ⟨r, mem_crew.mpr (.inr ⟨branch', ⟨entry, mem_children ..⟩, hr⟩), hserial, hstill⟩
    · exact ⟨q, mem_crew.mpr (.inr ⟨other, hnow, hin⟩), rfl, hwork⟩

/-- Every step of a task pays for itself, but for what happens in the middle of a unit. -/
theorem Moves.spends (h : p.Moves who site task run e p' run' e') (haffords : p.Affords starts steps)
    (hscope : run.scope.Unforked) (hlisteners : e.listeners.Abide) :
    ∃ starts' steps', p'.Affords starts' steps' ∧
      starts' + (if site.depth = 0 then site.begins?.toList.length else 0) ≤ starts ∧
      (steps' + 1 ≤ steps ∨ steps' ≤ steps ∧ p.StaysAtWork p') := by
  -- A step that a branch pays for is paid for by the walk above as well, whose allowance holds
  -- those of the branches. In a call only the calling unit counts, which stays at work.
  induction h generalizing starts steps with
  | @here serial walk activity run e s h =>
    obtain ⟨starts', steps', haffords', hstarts, hsteps, houtside⟩ :=
      (h.spends haffords hscope hlisteners).affords
    refine ⟨starts', steps', haffords', hstarts, ?_⟩
    -- a step is free only between two calls of one unit
    by_cases hworks : activity.IsAtWork ∧ s.activity.IsAtWork
    · have hstays : (mk serial walk activity).StaysAtWork (mk serial s.walk s.activity) :=
        staysAtWork hworks.1 hworks.2 rfl
      exact .inr ⟨hsteps, hstays⟩
    · exact .inl (houtside hworks)
  | @called _ serial walk job inner inner' _ root root' next =>
    have hstays : (mk serial walk (.calling job inner root next)).StaysAtWork
        (mk serial walk (.calling job inner' root' next)) := staysAtWork trivial trivial rfl
    exact ⟨starts, steps, haffords, Nat.le_of_eq rfl, .inr ⟨Nat.le_refl _, hstays⟩⟩
  | @returned _ serial walk job inner inner' _ root root' next =>
    have hstays : (mk serial walk (.calling job inner root next)).StaysAtWork
        (mk serial walk (.working job (next ⟨root'.status, inner'.unitNames⟩))) :=
      staysAtWork trivial trivial rfl
    exact ⟨starts, steps, haffords, Nat.le_of_eq rfl, .inr ⟨Nat.le_refl _, hstays⟩⟩
  | inPlace | inPlaceEnded => exact haffords.2.elim
  | @child _ serial walk anchor entry resume toStart before after completed branch branch' _ _ _ _ _ _ _
      _ ih =>
    obtain ⟨htidy, own, left, inner, pace, hawaits, hinner, hstarts, hsteps⟩ := haffords
    obtain ⟨n, t, n', t', hbranch, hothers, hn, ht⟩ := Child.affordIn_middle.mp hinner
    obtain ⟨m, l, hbranch', hm, hl⟩ := ih hbranch hscope hlisteners
    rw [Site.depth_within, Site.begins?, Site.process_within]
    have hchildren : Child.AffordIn (before ++ .running entry branch' :: after) (m + n') (l + t') :=
      Child.affordIn_middle.mpr ⟨m, l, n', t', hbranch', hothers, Nat.le_refl _, Nat.le_refl _⟩
    refine ⟨own + (m + n'), left + (l + t'), ⟨htidy, own, left, _, _, hawaits, hchildren,
      Nat.le_refl _, Nat.le_refl _⟩, ?_, ?_⟩
    · rw [Site.begins?] at hm
      omega
    · exact hl.imp (fun hl => by omega) fun ⟨hl, hworks⟩ => ⟨by omega, hworks.child ..⟩
  | @childEnded _ serial walk anchor entry resume toStart before after completed _ branch branch' _ _ _
      _ _ _ hfinished _ _ ih =>
    obtain ⟨htidy, own, left, inner, pace, hawaits, hinner, hstarts, hsteps⟩ := haffords
    obtain ⟨n, t, n', t', hbranch, hothers, hn, ht⟩ := Child.affordIn_middle.mp hinner
    obtain ⟨m, l, hbranch', hm, hl⟩ := ih hbranch hscope hlisteners
    rw [Site.depth_within, Site.begins?, Site.process_within]
    have hchildren : Child.AffordIn (before ++ .ended entry branch'.walk.failure :: after) n' t' :=
      Child.affordIn_middle.mpr ⟨0, 0, n', t', trivial, hothers, by omega, by omega⟩
    refine ⟨own + n', left + t', ⟨htidy, own, left, _, _, hawaits, hchildren, Nat.le_refl _,
      Nat.le_refl _⟩, ?_, .inl ?_⟩
    · rw [Site.begins?] at hm
      omega
    · rcases hl with hl | ⟨-, hworks⟩
      · omega
      -- no unit is at work in a branch that is over
      · cases hworks.not_isFinished.symm.trans hfinished

/-- A walk does not go back. -/
theorem Moves.rank_le (h : p.Moves who site task run e p' run' e') (haffords : p.Affords starts steps)
    (hscope : run.scope.Unforked) (hlisteners : e.listeners.Abide) : p.rank ≤ p'.rank := by
  cases h with
  | here h => exact (h.spends haffords hscope hlisteners).onward
  | called | returned | child | childEnded => exact Nat.le_refl _
  | inPlace | inPlaceEnded => exact haffords.2.elim

theorem Affords.of_crew (h : p.Affords starts steps) (hq : q ∈ p.crew) :
    ∃ starts' steps', q.Affords starts' steps' := by
  induction p using induction_runs generalizing starts steps with
  | h serial walk activity ih =>
    rcases mem_crew.mp hq with rfl | ⟨branch, hbranch, hin⟩
    · exact ⟨starts, steps, h⟩
    · cases activity with
      | poised | queued | working | asleep | calling => exact hbranch.elim
      | inPlace => exact h.2.elim
      | forking anchor resume toStart children completed =>
        obtain ⟨-, own, left, inner, pace, -, hinner, -, -⟩ := h
        obtain ⟨entry, hmem⟩ := hbranch
        obtain ⟨before, after, rfl⟩ := List.append_of_mem hmem
        obtain ⟨n, t, _, _, haffords, -⟩ := Child.affordIn_middle.mp hinner
        exact ih branch ⟨entry, hmem⟩ haffords hin

theorem rank_cancelTasks (p : Process) : p.cancelTasks.rank = p.rank := by
  obtain ⟨serial, walk, activity⟩ := p
  cases activity <;> rfl

/-- A process that has given up its branches needs no more than before. -/
theorem Affords.cancelTasks (h : p.Affords starts steps) : p.cancelTasks.Affords starts steps := by
  obtain ⟨serial, walk, activity⟩ := p
  cases activity with
  | poised | queued | working | asleep | calling => exact h
  | inPlace => exact h.2.elim
  | forking anchor resume toStart children completed =>
    obtain ⟨htidy, own, left, inner, pace, hawaits, -, hstarts, hsteps⟩ := h
    have hnone : Child.AffordIn (children.map Child.cancel) 0 0 := by
      induction children with
      | nil => trivial
      | cons child rest ih =>
        refine ⟨0, 0, 0, 0, ?_, ih, Nat.le_refl _, Nat.le_refl _⟩
        cases child <;> trivial
    exact ⟨htidy, own, left, inner, pace, hawaits, hnone.mono (Nat.zero_le _) (Nat.zero_le _), hstarts,
      hsteps⟩

end Process

end Workflow
