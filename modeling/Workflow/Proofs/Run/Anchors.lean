import Workflow.Proofs.Run.Missing
import Workflow.Proofs.Run.Once
import Workflow.Proofs.Run.Selection

/-!
# Where a walk comes to a group

Where units ask for no forks, a walk forks the groups of its plan and nothing else. It comes to a group
in one of two ways. A group with a virtual anchor it comes upon, and forks it there. A group that is
anchored on a unit it forks behind that unit, if the unit has succeeded and does not ask it to stop; it
comes upon such a group only if the unit has failed, and then leaves it out.

That a walk comes upon an anchored group in no other way is what the anchors of a plan are chosen for:
wherever an arm or a group begins or ends, no anchored group begins (`Plan.Clear`). Every decision of a
walk that leads on, except behind a failed unit, leads to such a place (`Turn.ByPlan`), which makes
`Process.KeepsTo` a property of every move. A group that a walk has begun to fork, or is behind, it does
not come to again (`Activity.IsDoneWith`).
-/

namespace Workflow

/-! ## Where groups stand -/

namespace Node

/-- A group of several nodes is one of a node among them. -/
theorem exists_of_groupsFromAll {nodes : List Node} {e : Nat × Group Plan} :
    ∀ {start : Nat} {groups : List (Nat × Group Plan)}, GroupsFromAll nodes start groups → e ∈ groups →
      ∃ before node after own, nodes = before ++ node :: after ∧
        node.GroupsFrom (start + widthOf before) own ∧ e ∈ own := by
  induction nodes with
  | nil =>
    rintro start groups rfl he
    cases he
  | cons node rest ih =>
    rintro start groups ⟨own, more, rfl, hnode, hrest⟩ he
    rcases List.mem_append.mp he with he | he
    · exact ⟨[], node, rest, own, rfl, hnode, he⟩
    · obtain ⟨before, later, after, own', rfl, hlater, hmem⟩ := ih hrest he
      refine ⟨node :: before, later, after, own', rfl, ?_, hmem⟩
      rwa [widthOf_cons, ← Nat.add_assoc]

/-- Every group of a node lies in one that stands in it. -/
theorem IsNormal.groupsFrom_stands {node : Node} {e : Nat × Group Plan} (h : node.IsNormal) :
    ∀ {start : Nat} {groups : List (Nat × Group Plan)} (behind : Arms), node.GroupsFrom start groups →
      e ∈ groups → ∃ nodes i arms, Stands (.parallel nodes) i arms node start behind ∧ i ≤ e.1 ∧
        e.2.span.stop ≤ i + widthOf nodes := by
  induction h with
  | unit =>
    rintro start groups behind rfl he
    cases he
  | sequence _ _ _ ih =>
    intro start groups behind hgroups he
    obtain ⟨before, step, after, own, rfl, hstep, hmem⟩ := exists_of_groupsFromAll hgroups he
    obtain ⟨nodes, i, arms, hstands, hin⟩ := ih step (by simp) (armsBehind after behind) hstep hmem
    exact ⟨nodes, i, arms, .step rfl hstands, hin⟩
  | @parallel branches _ _ ih =>
    rintro start groups behind ⟨own, inner, rfl, hown, hinner⟩ he
    refine ⟨branches, start, behind, .self, ?_⟩
    rcases List.mem_cons.mp he with rfl | he
    · exact ⟨Nat.le_refl _, by rw [hown.span]⟩
    · obtain ⟨before, branch, after, own', rfl, hbranch, hmem⟩ :=
        exists_of_groupsFromAll hinner (List.mem_filter.mp he).1
      obtain ⟨nodes, i, arms, hstands, hge, hle⟩ := ih branch (by simp) none hbranch hmem
      have hin := hstands.within
      rw [width_parallel] at hin
      rw [widthOf_append, widthOf_cons]
      omega
  | conditional _ _ _ ihc iht ihf =>
    rintro start groups behind ⟨gc, gt, gf, rfl, hgc, hgt, hgf⟩ he
    rcases List.mem_append.mp he with he | he
    · obtain ⟨nodes, i, arms, hstands, hin⟩ := ihc _ hgc he
      exact ⟨nodes, i, arms, .condition hstands, hin⟩
    rcases List.mem_append.mp he with he | he
    · obtain ⟨nodes, i, arms, hstands, hin⟩ := iht _ hgt he
      exact ⟨nodes, i, arms, .whenTrue hstands, hin⟩
    · obtain ⟨nodes, i, arms, hstands, hin⟩ := ihf _ hgf he
      exact ⟨nodes, i, arms, .whenFalse hstands, hin⟩

end Node

/-- Every group of a plan lies in one that a walk comes to. -/
theorem Walk.Prunes.group_within {w : Walk} {node : Node} {reach first : Nat} {group : Group Plan}
    (h : w.Prunes node reach) (hgroup : w.plan.groupAt? first = some group) :
    ∃ nodes i arms, Node.Stands (.parallel nodes) i arms node 0 none ∧ i ≤ first ∧
      group.span.stop ≤ i + Node.widthOf nodes := by
  have hfits : group.Fits w.plan first :=
    (h.normal.wellFormed h.plan).fits.groups _ (Table.mem_of_lookup hgroup)
  have hlength : w.plan.length = node.width := by rw [Plan.length, h.sequence, Node.width]
  have hlt : first < node.width := by
    have hstart := hfits.start
    have hpos := hfits.pos
    have hstop := hfits.stop
    omega
  obtain ⟨groups, hgroups, hholds⟩ := h.lays.holds
  have hat : Table.lookup first groups = some group :=
    (hholds.groups first (Nat.zero_le _) (by omega)).symm.trans hgroup
  exact h.normal.groupsFrom_stands none hgroups (Table.mem_of_lookup hat)

/-! ## Walks that keep to their plan -/

/-- To fork a group, with the branches that the plan has for it. -/
def Group.intent (group : Group Plan) : Intent :=
  .fork group.anchor group.branches (.group group.span.stop)

/-- Behind what a walk waits for it does not come upon an anchored group. -/
def Resume.ByPlan (w : Walk) : Resume → Prop
  | .unit | .alone => True
  | .detour .. => w.plan.Clear (w.position + 1)
  | .group _ | .scattered .. | .detourFork => False

/-- What a walk waits for is a group of a plan. -/
def Resume.IsGroupOf (p : Plan) (resume : Resume) : Prop :=
  ∃ first group, p.groupAt? first = some group ∧ resume = .group group.span.stop

def Intent.ByPlan (w : Walk) : Intent → Prop
  | .advance | .finish => True
  | .execute _ resume => resume.ByPlan w
  | .fork anchor branches resume => ∃ first group, w.plan.groupAt? first = some group ∧
    Intent.fork anchor branches resume = group.intent

def Activity.ByPlan (w : Walk) : Activity → Prop
  | .poised next => next.ByPlan w
  | .queued _ _ resume => resume.ByPlan w
  | .working job _ | .asleep job _ _ | .calling job _ _ _ => job.resume.ByPlan w
  | .inPlace _ _ resume _ | .forking _ resume _ _ _ => resume.IsGroupOf w.plan

/-- A turn by which a walk forks nothing, keeps nothing new in mind and comes upon no anchored group. -/
structure Turn.IsQuiet (t : Turn) (w : Walk) : Prop where
  plan : t.walk.plan = w.plan
  early : t.walk.early = w.early
  next : t.next.ByPlan t.walk
  arrives : t.next = .advance → w.plan.Clear t.walk.position
  plain : ∀ anchor branches resume, t.next ≠ .fork anchor branches resume

/-- A turn by which a walk forks groups of its plan only that it owes a fork, and comes upon an anchored
group only if something has failed. What it keeps in mind from then on has been told to it. -/
structure Turn.ByPlan (t : Turn) (w : Walk) (told : String → Early → Prop) (failed : Prop)
    (owes : Nat → Group Plan → Prop) : Prop where
  plan : t.walk.plan = w.plan
  early : ∀ u early, t.walk.early.get? u = some early → w.early.get? u = some early ∨ told u early
  next : t.next.ByPlan t.walk
  arrives : t.next = .advance →
    w.plan.Clear t.walk.position ∨ failed ∧ t.walk.position = w.position + 1
  forks : ∀ anchor branches resume, t.next = .fork anchor branches resume →
    ∃ first group, w.plan.groupAt? first = some group ∧ t.next = group.intent ∧ owes first group

namespace Turn

variable {t : Turn} {w w' : Walk} {told told' : String → Early → Prop} {failed failed' : Prop}
  {owes owes' : Nat → Group Plan → Prop}

theorem IsQuiet.of_eq (h : t.IsQuiet w') (hplan : w'.plan = w.plan) (hearly : w'.early = w.early) :
    t.IsQuiet w :=
  ⟨h.plan.trans hplan, h.early.trans hearly, h.next, fun hnext => hplan ▸ h.arrives hnext, h.plain⟩

theorem IsQuiet.byPlan (h : t.IsQuiet w) : t.ByPlan w told failed owes where
  plan := h.plan
  early u early hget := .inl (by rwa [h.early] at hget)
  next := h.next
  arrives hnext := .inl (h.arrives hnext)
  forks anchor branches resume hnext := absurd hnext (h.plain anchor branches resume)

theorem ByPlan.mono (h : t.ByPlan w told failed owes) (htold : ∀ u early, told u early → told' u early)
    (hfailed : failed → failed') (howes : ∀ first group, owes first group → owes' first group) :
    t.ByPlan w told' failed' owes' where
  plan := h.plan
  early u early hget := (h.early u early hget).imp_right (htold u early)
  next := h.next
  arrives hnext := (h.arrives hnext).imp_right (And.imp_left hfailed)
  forks anchor branches resume hnext := by
    obtain ⟨first, group, hgroup, hintent, howed⟩ := h.forks anchor branches resume hnext
    exact ⟨first, group, hgroup, hintent, howes first group howed⟩

/-- A walk that has dropped something it had in mind makes the same turns. -/
theorem ByPlan.of_erase {u : String}
    (h : t.ByPlan { w with early := w.early.erase u } told failed owes) : t.ByPlan w told failed owes where
  plan := h.plan
  early v early hget := by
    refine (h.early v early hget).imp_left fun hkept => ?_
    rw [Table.get?_erase] at hkept
    split at hkept
    · cases hkept
    · exact hkept
  next := h.next
  arrives := h.arrives
  forks := h.forks

end Turn

/-- What a walk keeps in mind of a unit is how the unit has ended that the walk was routed to. -/
def Early.Tells : Early → Option Failure → Prop
  | .failed, some _ => True
  | .routed _ fork, none => fork = none
  | .forked, _ | .failed, none | .routed .., some _ => False

namespace Walk

variable {w : Walk} {node : Node} {scope : Scope} {hasRun : String → Bool} {tolerant : Bool}
  {u : String} {told : String → Early → Prop} {failed : Prop} {owes : Nat → Group Plan → Prop}

/-! ### Decisions -/

theorem isQuiet_finish (w : Walk) (scope : Scope) : (w.finish scope).IsQuiet w :=
  ⟨rfl, rfl, trivial, nofun, nofun⟩

theorem isQuiet_stop (w : Walk) (scope : Scope) : (w.stop scope).IsQuiet w :=
  ⟨rfl, rfl, trivial, nofun, nofun⟩

theorem isQuiet_advance {position : Nat} (hclear : w.plan.Clear position) (scope : Scope) :
    Turn.IsQuiet ⟨{ w with position := position }, scope, .advance⟩ w :=
  ⟨rfl, rfl, trivial, fun _ => hclear, nofun⟩

theorem isQuiet_execute (scope : Scope) (u : String) (resume : Resume) (hby : resume.ByPlan w) :
    Turn.IsQuiet ⟨w, scope, .execute u resume⟩ w :=
  ⟨rfl, rfl, hby, nofun, nofun⟩

theorem isQuiet_proceed (hclear : w.plan.Clear (w.position + 1)) (scope : Scope) :
    (w.proceed scope).IsQuiet w :=
  isQuiet_advance hclear scope

theorem byPlan_forkGroup {first : Nat} {group : Group Plan} (hgroup : w.plan.groupAt? first = some group)
    (howes : owes first group) (scope : Scope) :
    (w.forkGroup scope group group.branches).ByPlan w told failed owes :=
  ⟨rfl, fun _ _ hget => .inl hget, ⟨first, group, hgroup, rfl⟩, nofun,
    fun _ _ _ _ => ⟨first, group, hgroup, rfl, howes⟩⟩

theorem isQuiet_detour (hclear : w.plan.Clear (w.position + 1)) (scope : Scope)
    (hasRun : String → Bool) (target : String) : (w.detour scope hasRun target).IsQuiet w := by
  unfold detour
  split
  · exact isQuiet_proceed hclear scope
  · exact isQuiet_execute scope target (.detour target (w.willReach w.position target)) hclear

theorem isQuiet_steer (hclear : w.plan.Clear (w.position + 1)) (scope : Scope)
    (hasRun : String → Bool) (u : String) (signal : Option String) :
    (w.steer scope hasRun u signal).IsQuiet w := by
  unfold steer
  split
  · exact isQuiet_proceed hclear scope
  · next choice _ => exact (isQuiet_proceed (w := w.chooseArm choice false) hclear scope).of_eq rfl rfl
  · split
    · exact isQuiet_stop w scope
    · split
      · next choice _ =>
        split
        · next label _ => exact (isQuiet_proceed (w := w.chooseArm choice label) hclear scope).of_eq rfl rfl
        · exact (isQuiet_detour (w := w.skipArms choice) hclear scope hasRun _).of_eq rfl rfl
      · split
        · exact isQuiet_proceed hclear _
        · exact isQuiet_detour hclear scope hasRun _

/-- Behind a failed unit a walk may come upon the group that is anchored on it. -/
theorem byPlan_fallThrough (hfailed : failed) (scope : Scope) :
    (w.fallThrough.proceed scope).ByPlan w told failed owes := by
  unfold fallThrough
  split <;>
    exact ⟨rfl, fun _ _ hget => .inl hget, trivial, fun _ => .inr ⟨hfailed, rfl⟩, nofun⟩

/-- Behind a unit that has succeeded a walk forks the group that is anchored on it. -/
theorem byPlan_obey (hapart : w.plan.AnchorsApart) {fork : Option (List String)}
    (hfork : fork.filter (· ≠ []) = none) (scope : Scope) (hasRun : String → Bool) (u : String)
    (signal : Option String) : (w.obey scope hasRun u signal fork).ByPlan w told failed fun first group =>
      first = w.position + 1 ∧ w.plan.groupAfter? w.position = some group := by
  unfold obey
  split
  · exact (isQuiet_stop w scope).byPlan
  rw [hfork]
  split
  · next heq _ => cases heq
  · next group _ hgroup =>
    exact byPlan_forkGroup (Option.filter_eq_some_iff.mp hgroup).1 ⟨rfl, hgroup⟩ scope
  · next heq _ => cases heq
  · next hnone => exact (isQuiet_steer (hapart.clear_of_groupAfter? hnone) scope hasRun u signal).byPlan

/-- A walk comes to a unit that it has something in mind of. -/
structure Finds (w : Walk) (u : String) (early : Early) : Prop where
  unit : w.plan.unitAt? w.position = some u
  opened : w.skipEnd? w.position = none
  single : w.plan.groupAt? w.position = none
  early : w.early.get? u = some early

/-- A walk keeps nothing in mind but how units have ended that it was routed to. -/
def Recalls (w : Walk) : Prop := ∀ u early, w.early.get? u = some early → ∃ result, early.Tells result

/-- Where an arm ends, no group is anchored on the unit before it. -/
theorem Prunes.clear_behind_arm {reach i : Nat} {c t f : Node} {behind : Node.Arms} {span : Span}
    (h : w.Prunes node reach) (hstands : Node.Stands (.conditional c t f) i behind node 0 none)
    (hspan : Node.IsArm c t f i span) : w.plan.Clear span.stop := by
  obtain ⟨choice, first, second, hchoice, -, -, harms⟩ := (h.lays.part hstands).parts.1.arms
  have hwidth := h.width_pos hstands
  obtain ⟨-, htrue, hfalse⟩ := h.apart.clear_of_arms hchoice harms
  rw [show i + c.width - 1 + 1 = i + c.width by omega] at htrue hfalse
  rcases hspan with rfl | rfl
  · exact htrue
  · exact hfalse

theorem Prunes.stop_pos {reach first : Nat} {group : Group Plan} (h : w.Prunes node reach)
    (hgroup : w.plan.groupAt? first = some group) : 0 < group.span.stop :=
  Nat.zero_lt_of_lt
    ((h.normal.wellFormed h.plan).fits.groups _ (Table.mem_of_lookup hgroup)).pos

theorem byPlan_advance (h : w.Prunes node w.position) (hrecalls : w.Recalls) (scope : Scope)
    (hasRun : String → Bool) : (w.advance scope hasRun).ByPlan w told (∃ u, w.Finds u .failed)
      fun first group => first = w.position ∧ group.anchorAt = none ∧ w.skipEnd? w.position = none ∨
        (first = w.position + 1 ∧ w.plan.groupAfter? w.position = some group ∧
          ∃ u early, w.Finds u early ∧ early.Tells none) := by
  unfold advance
  rcases hunit : w.plan.unitAt? w.position with _ | u
  · exact (isQuiet_finish w scope).byPlan
  rcases hskip : w.skipEnd? w.position with _ | stop
  · rcases hgroup : w.plan.groupAt? w.position with _ | group
    · rcases hearly : w.early.get? u with _ | early
      · simp only [hearly]
        exact (isQuiet_execute (w := w) scope u .unit trivial).byPlan
      · have hfinds : w.Finds u early := ⟨hunit, hskip, hgroup, hearly⟩
        obtain ⟨result, htells⟩ := hrecalls u early hearly
        simp only [hearly]
        -- an early unit stands for its position: the walk does what it would do behind it
        refine Turn.ByPlan.of_erase (u := u) ?_
        cases early with
        | failed => exact byPlan_fallThrough ⟨u, hfinds⟩ scope
        | forked => exact htells.elim
        | routed signal fork =>
          cases result with
          | some => exact htells.elim
          | none =>
            cases htells
            have hnone : (none : Option (List String)).filter (· ≠ []) = none := rfl
            exact (byPlan_obey (w := { w with early := w.early.erase u }) h.apart hnone scope hasRun u
              signal).mono (fun _ _ => id) id fun first group howed =>
                Or.inr ⟨howed.1, howed.2, u, _, hfinds, rfl⟩
    · simp only
      split
      -- a group whose anchor did not call for it is left out, and at its end no anchored group
      -- begins
      · exact (isQuiet_advance (h.apart.clear (Plan.joint_of_groupAt? hgroup)) scope).byPlan
      · next hanchor =>
        have hanchor : group.anchorAt = none := by simpa using hanchor
        exact byPlan_forkGroup hgroup (.inl ⟨rfl, hanchor, trivial⟩) scope
  · obtain ⟨span, hmem, -, -, rfl⟩ := exists_of_skipEnd? hskip
    obtain ⟨c, t, f, i, behind, hstands, harm, -⟩ := h.spans span hmem
    -- nor behind an arm
    exact (isQuiet_advance (h.clear_behind_arm hstands harm) scope).byPlan

/-! ### Answers -/

theorem byPlan_ownUnitDone (hapart : w.plan.AnchorsApart) (hscope : scope.Unforked)
    (hasRun : String → Bool) (tolerant : Bool) (result : Option Mishap) :
    (w.ownUnitDone scope hasRun tolerant result).ByPlan w told (result ≠ none) fun first group =>
      result = none ∧ first = w.position + 1 ∧ w.plan.groupAfter? w.position = some group := by
  unfold ownUnitDone
  split
  · exact (isQuiet_finish w scope).byPlan
  · next u _ =>
    rcases result with _ | f
    · exact (byPlan_obey hapart ((hscope.fades (Scope.fades_takeRoute scope u)).takeFork u) _ hasRun u
        _).mono (fun _ _ => id) id fun _ _ howed => ⟨rfl, howed⟩
    · simp only
      split
      · have hfell : ((w.addFailure f.failure).fallThrough.proceed (scope.dropSignals u)).ByPlan
            (w.addFailure f.failure) told (some f ≠ none) fun _ _ => False :=
          byPlan_fallThrough (Option.some_ne_none f) _
        exact Turn.ByPlan.mono ⟨hfell.plan, hfell.early, hfell.next, hfell.arrives, hfell.forks⟩
          (fun _ _ => id) id fun _ _ => False.elim
      · exact Turn.IsQuiet.byPlan ((isQuiet_finish (w.addFailure f.failure) scope).of_eq rfl rfl)

/-- A unit that the walk was routed to and will reach is kept in mind, unless the walk ends. -/
theorem byPlan_detourDone (hclear : w.plan.Clear (w.position + 1)) (hscope : scope.Unforked)
    (tolerant : Bool) (u : String) (reached : Bool) (result : Option Mishap) :
    (w.detourDone scope tolerant u reached result).ByPlan w
      (fun v early => v = u ∧ reached = true ∧ early.Tells (result.map Mishap.failure)) failed owes := by
  -- whatever the unit has come to, it is what is kept in mind of it
  have hkept : ∀ (w' : Walk) (early : Early) (scope : Scope), w'.plan = w.plan → w'.early = w.early →
      w'.position = w.position → reached = true → early.Tells (result.map Mishap.failure) →
      (proceed { w' with early := w'.early.insert u early } scope).ByPlan w
        (fun v early => v = u ∧ reached = true ∧ early.Tells (result.map Mishap.failure)) failed owes := by
    intro w' early scope hplan hearly hposition hreached htells
    refine ⟨hplan, fun v early' hget => ?_, trivial, fun _ => .inl ?_, nofun⟩
    · have hget : (w'.early.insert u early).get? v = some early' := hget
      rw [Table.get?_insert, hearly] at hget
      split at hget
      · next heq =>
        cases hget
        exact .inr ⟨heq.symm, hreached, htells⟩
      · exact .inl hget
    · show w.plan.Clear (w'.position + 1)
      rwa [hposition]
  unfold detourDone
  rcases result with _ | f
  · simp only
    split
    · exact (isQuiet_stop w _).byPlan
    · rw [(hscope.fades (Scope.fades_takeRoute scope u)).takeFork u]
      split
      · exact hkept w _ _ rfl rfl rfl rfl rfl
      · next heq => cases heq
      · exact (isQuiet_proceed hclear _).byPlan
  · simp only
    split
    · split
      · next hreached => exact hkept (w.addFailure f.failure) _ _ rfl rfl rfl hreached trivial
      · exact Turn.IsQuiet.byPlan
          ((isQuiet_proceed (w := w.addFailure f.failure) hclear _).of_eq rfl rfl)
    · exact Turn.IsQuiet.byPlan ((isQuiet_finish (w.addFailure f.failure) _).of_eq rfl rfl)

theorem isQuiet_aloneDone (w : Walk) (scope : Scope) (u : String) (result : Option Mishap) :
    (w.aloneDone scope u result).IsQuiet w := by
  unfold aloneDone
  rcases result with _ | f
  · simp only
    split
    · exact isQuiet_stop w _
    · exact isQuiet_finish w _
  · exact (isQuiet_finish (w.addFailure f.failure) scope).of_eq rfl rfl

theorem byPlan_unitDone {resume : Resume} (hapart : w.plan.AnchorsApart) (hresume : resume.ByPlan w)
    (hscope : scope.Unforked) (hasRun : String → Bool) (tolerant : Bool) (u : String)
    (result : Option Mishap) : (w.unitDone scope hasRun tolerant u resume result).ByPlan w
      (fun v early => v = u ∧ (∃ v', resume = .detour v' true) ∧ early.Tells (result.map Mishap.failure))
      (resume = .unit ∧ result ≠ none) fun first group => resume = .unit ∧ result = none ∧
        first = w.position + 1 ∧ w.plan.groupAfter? w.position = some group := by
  unfold unitDone
  cases resume with
  | unit =>
    exact Turn.ByPlan.mono (byPlan_ownUnitDone hapart hscope hasRun tolerant result) (fun _ _ => id)
      (fun hfailed => ⟨rfl, hfailed⟩) fun _ _ howed => ⟨rfl, howed⟩
  | detour v reached =>
    exact Turn.ByPlan.mono (byPlan_detourDone hresume hscope tolerant u reached result)
      (fun v' early htold => ⟨htold.1, ⟨v, by rw [htold.2.1]⟩, htold.2.2⟩) id fun _ _ => id
  | alone => exact (isQuiet_aloneDone w scope u result).byPlan
  | group | scattered | detourFork => exact hresume.elim

theorem isQuiet_forkDone {reach : Nat} {resume : Resume} (h : w.Prunes node reach)
    (hresume : resume.IsGroupOf w.plan) (scope : Scope) (hasRun : String → Bool) (tolerant : Bool)
    (result : Option Failure) : (w.forkDone scope hasRun tolerant resume result).IsQuiet w := by
  obtain ⟨first, group, hgroup, rfl⟩ := hresume
  have hclear : w.plan.Clear group.span.stop := h.apart.clear (Plan.joint_of_groupAt? hgroup)
  have hpassed : ∀ (w' : Walk) (scope : Scope), w'.plan = w.plan → w'.early = w.early →
      w'.position = group.span.stop → Turn.IsQuiet ⟨w', scope, .advance⟩ w :=
    fun w' scope hplan hearly hposition =>
      (isQuiet_advance (w := w') (hplan ▸ hposition ▸ hclear) scope).of_eq hplan hearly
  show (w.groupDone scope hasRun tolerant group.span.stop result).IsQuiet w
  unfold groupDone
  rcases result with _ | failure
  · simp only
    split
    · next router _ _ =>
      have hbehind : w.plan.Clear (group.span.stop - 1 + 1) := by
        rwa [Nat.sub_add_cancel (h.stop_pos hgroup)]
      exact (isQuiet_steer (w := { w with position := group.span.stop - 1 }) hbehind _ hasRun router
        _).of_eq rfl rfl
    · exact hpassed _ _ rfl rfl rfl
  · simp only
    split
    · exact hpassed _ _ rfl rfl rfl
    · exact (isQuiet_finish (w.addFailure failure) scope).of_eq rfl rfl

end Walk

/-! ## Processes that keep to their plan -/

/-- A walk learns how the unit has ended that it is at work with. -/
inductive Process.Learns (q : Process) (u : String) (resume : Resume) : Option Failure → Prop where
  /-- The last call has succeeded. -/
  | succeeded {job : Job} (hactivity : q.activity = .working job .done) (hstage : job.stage = .after)
      (hunit : job.unitId = u) (hresume : job.resume = resume) : Learns q u resume none
  /-- A call has failed, and the unit has been told so. -/
  | failed {job : Job} {behavior : Behavior} {failure : Failure}
      (hactivity : q.activity = .working job behavior) (hstage : job.stage = .onError failure)
      (hunit : job.unitId = u) (hresume : job.resume = resume) : Learns q u resume (some failure)

/-- A walk has come to a position that it does not skip, and is to decide there. -/
structure Process.StandsAt (q : Process) (i : Nat) : Prop where
  activity : q.activity = .poised .advance
  position : q.walk.position = i
  opened : ¬ q.walk.Skips i

/-- A walk handles the unit at a position that has ended like this: it learns so there, or it has come to
the position of a unit that it has been routed to before. -/
inductive Process.Handles (q : Process) (i : Nat) (u : String) : Option Failure → Prop where
  | here {result : Option Failure} (hposition : q.walk.position = i) (hlearns : q.Learns u .unit result) :
    Handles q i u result
  | ahead {early : Early} {result : Option Failure} (hactivity : q.activity = .poised .advance)
      (hposition : q.walk.position = i) (hfinds : q.walk.Finds u early) (htells : early.Tells result) :
    Handles q i u result

/-- A walk has to fork a group next: it has come upon a group with a virtual anchor, or handles the anchor
of a group, which has succeeded. -/
inductive Process.ShouldFork (q : Process) (first : Nat) (group : Group Plan) : Prop where
  | virtual (hanchor : group.anchorAt = none) (hstands : q.StandsAt first)
  | anchored {u : String} (hfirst : first = q.walk.position + 1)
      (hafter : q.walk.plan.groupAfter? q.walk.position = some group)
      (hhandles : q.Handles q.walk.position u none)

/-- What a walk comes to by a move of its own, if it keeps to its plan. -/
structure Process.KeepsTo (q q' : Process) : Prop where
  byPlan : q'.activity.ByPlan q'.walk
  recalls : ∀ u early, q'.walk.early.get? u = some early → q.walk.early.get? u = some early ∨
    ∃ v result, early.Tells result ∧ q.Learns u (.detour v true) result
  arrives : q'.activity = .poised .advance → q.walk.plan.Clear q'.walk.position ∨
    q'.walk.position = q.walk.position + 1 ∧
      ∃ u failure, q.Handles q.walk.position u (some failure)
  forks : ∀ anchor branches resume, q'.activity = .poised (.fork anchor branches resume) →
    ∃ first group, q.walk.plan.groupAt? first = some group ∧ q'.activity = .poised group.intent ∧
      q.ShouldFork first group

theorem Turn.ByPlan.keepsTo {t : Turn} {q : Process} {serial : Nat} {told : String → Early → Prop}
    {failed : Prop} {owes : Nat → Group Plan → Prop} (h : t.ByPlan q.walk told failed owes)
    (htold : ∀ u early, told u early → ∃ v result, early.Tells result ∧ q.Learns u (.detour v true) result)
    (hfailed : failed → ∃ u failure, q.Handles q.walk.position u (some failure))
    (howes : ∀ first group, owes first group → q.ShouldFork first group) : q.KeepsTo (t.process serial) where
  byPlan := h.next
  recalls u early hget := (h.early u early hget).imp_right (htold u early)
  arrives hnext := (h.arrives (Activity.poised.inj hnext)).imp_right fun hfell =>
    ⟨hfell.2, hfailed hfell.1⟩
  forks anchor branches resume hnext := by
    obtain ⟨first, group, hgroup, hintent, howed⟩ :=
      h.forks anchor branches resume (Activity.poised.inj hnext)
    exact ⟨first, group, hgroup, congrArg Activity.poised hintent, howes first group howed⟩

theorem Turn.IsQuiet.keepsTo {t : Turn} {q : Process} (h : t.IsQuiet q.walk) (serial : Nat) :
    q.KeepsTo (t.process serial) :=
  Turn.ByPlan.keepsTo h.byPlan (fun _ _ => False.elim) False.elim fun _ _ => False.elim

/-- A walk that stays where it is and does not decide anything. -/
theorem Process.KeepsTo.of_walk_eq {q q' : Process} (hwalk : q'.walk = q.walk)
    (hactivity : ∀ next, q'.activity ≠ .poised next) (hby : q'.activity.ByPlan q'.walk) : q.KeepsTo q' where
  byPlan := hby
  recalls _ _ hget := .inl (hwalk ▸ hget)
  arrives hnext := absurd hnext (hactivity _)
  forks _ _ _ hnext := absurd hnext (hactivity _)

theorem Walk.PrunesAt.exists_reach {w : Walk} {node : Node} {resume : Resume} (h : w.PrunesAt node resume) :
    ∃ reach, w.Prunes node reach := by
  cases resume <;> exact ⟨_, h.1⟩

/-- A walk that ends with a unit keeps nothing in mind of it. -/
theorem Walk.early_unitDone {tolerant : Bool} {f : Mishap} (hends : survivesUnit tolerant f = false)
    (w : Walk) (scope : Scope) (hasRun : String → Bool) (u : String) (resume : Resume) :
    (w.unitDone scope hasRun tolerant u resume (some f)).walk.early = w.early := by
  obtain ⟨w', scope', heq, rfl | rfl⟩ := unitDone_eq_finish hends w scope hasRun u resume <;>
    rw [heq] <;> rfl

namespace Scene

variable {s s' : Scene} {task serial : Nat} {node : Node}

/-- Where a unit has ended, its walk keeps to its plan. -/
theorem keepsTo_endUnit {job : Job} {result : Option Mishap} {walk : Walk} {activity : Activity}
    (hwalk : s.walk = walk) (hapart : walk.plan.AnchorsApart) (hresume : job.resume.ByPlan walk)
    (hscope : s.run.scope.Unforked) (hlearns : ∀ u resume, job.unitId = u → job.resume = resume →
      (Process.mk serial walk activity).Learns u resume (result.map Mishap.failure)) :
    (Process.mk serial walk activity).KeepsTo ((s.endUnit task serial job result).process serial) := by
  subst hwalk
  rw [endUnit_eq]
  have hby := Walk.byPlan_unitDone hapart hresume hscope s.run.hasRun s.run.context.tolerant job.unitId result
  refine hby.keepsTo (fun u early htold => ?_) (fun hfailed => ?_) fun first group howed => ?_
  · obtain ⟨rfl, ⟨v, hdetour⟩, htells⟩ := htold
    exact ⟨v, _, htells, hlearns _ _ rfl hdetour⟩
  · obtain ⟨hunit, hsome⟩ := hfailed
    obtain ⟨f, rfl⟩ := Option.ne_none_iff_exists'.mp hsome
    exact ⟨_, _, .here rfl (hlearns _ _ rfl hunit)⟩
  · obtain ⟨hunit, rfl, hfirst, hafter⟩ := howed
    exact .anchored hfirst hafter (.here rfl (hlearns _ _ rfl hunit))

/-- Whatever a walk does where it stands, it keeps to its plan. -/
theorem Steps.keepsTo (h : s.Steps task serial s') (hprunes : s.activity.Prunes s.walk node)
    (hby : s.activity.ByPlan s.walk) (hrecalls : s.walk.Recalls) (hscope : s.run.scope.Unforked)
    (hengine : s.engine.Abides Law.unforked) : (s.process serial).KeepsTo (s'.process serial) := by
  obtain ⟨walk, activity, run, engine⟩ := s
  simp only at hprunes hby hrecalls hscope
  cases h with
  | advance h =>
    obtain rfl : activity = _ := h
    refine Turn.ByPlan.keepsTo (q := .mk serial walk (.poised .advance))
      (Walk.byPlan_advance hprunes.1 hrecalls run.scope run.hasRun) (fun _ _ => False.elim) ?_ ?_
    · rintro ⟨u, hfinds⟩
      exact ⟨u, .unknownUnit u, .ahead rfl rfl hfinds trivial⟩
    · intro first group howed
      rcases howed with ⟨rfl, hanchor, hskip⟩ | ⟨hfirst, hafter, u, early, hfinds, htells⟩
      · exact .virtual hanchor ⟨rfl, rfl, Walk.not_skips_of_skipEnd? hskip⟩
      · exact .anchored hfirst hafter (.ahead rfl rfl hfinds htells)
  | @missing u resume h =>
    obtain rfl : activity = _ := h
    -- a unit that is not there ends its walk, which comes to no group any more
    have hends : Walk.survivesUnit run.context.tolerant ⟨.unknownUnit u, false⟩ = false := rfl
    have hnext := Walk.next_unitDone hends walk run.scope run.hasRun u resume
    have hactivity : ((Scene.unitEnded ⟨walk, .poised (.execute u resume), run, engine⟩ task serial u resume
        (some ⟨.unknownUnit u, false⟩)).process serial).activity = .poised .finish := congrArg _ hnext
    refine ⟨?_, fun v early hget => .inl ?_, fun heq => ?_, fun _ _ _ heq => ?_⟩
    · rw [hactivity]
      trivial
    · have hget : (walk.unitDone run.scope run.hasRun run.context.tolerant u resume
        (some ⟨.unknownUnit u, false⟩)).walk.early.get? v = some early := hget
      rwa [Walk.early_unitDone hends] at hget
    · cases hactivity.symm.trans heq
    · cases hactivity.symm.trans heq
  | @ends job h hstage =>
    obtain rfl : activity = _ := h
    have hbare : ({ walk := walk, activity := .working job .done, run := run, engine := engine } :
        Scene).run.scope.Unforked := hscope
    have htold := hbare.fades (fades_announce hengine task serial job .after none).1
    obtain ⟨reach, hwalk⟩ := hprunes.exists_reach
    exact keepsTo_endUnit rfl hwalk.apart hby htold fun u resume hunit hresume =>
      .succeeded rfl hstage hunit hresume
  | @gaveUp job behavior failure h _ hstage =>
    obtain rfl : activity = _ := h
    have htold := hscope.fades (fades_announce (s := ⟨walk, .working job behavior, run, engine⟩) hengine task
      serial job .error (some failure)).1
    obtain ⟨reach, hwalk⟩ := hprunes.exists_reach
    exact keepsTo_endUnit rfl hwalk.apart hby htold fun u resume hunit hresume =>
      .failed rfl hstage hunit hresume
  | forksNone h =>
    obtain rfl : activity = _ := h
    exact absurd rfl hprunes.1
  | forksOne h | forks h =>
    obtain rfl : activity = _ := h
    obtain ⟨first, group, hgroup, hintent⟩ := hby
    exact .of_walk_eq rfl nofun ⟨first, group, hgroup, (Intent.fork.inj hintent).2.2⟩
  | joins h =>
    obtain rfl : activity = _ := h
    obtain ⟨reach, hwalk⟩ := hprunes.exists_reach
    exact Turn.IsQuiet.keepsTo (q := .mk serial walk _) (Walk.isQuiet_forkDone hwalk hby ..) serial
  | queues h | begins h | granted h | does h | sleeps h | wakes h | opens h | runs h | tidies h | fails h
  | starts h | refuses h =>
    obtain rfl : activity = _ := h
    exact .of_walk_eq rfl nofun hby

end Scene

namespace Process

variable {q q' : Process} {who task first : Nat} {u : String} {node : Node} {run run' : RunState}
  {e e' : Engine} {site : Site}

theorem Moves.keepsTo (h : q.Moves who site task run e q' run' e')
    (hprunes : q.activity.Prunes q.walk node) (hby : q.activity.ByPlan q.walk)
    (hrecalls : q.walk.Recalls) (hscope : run.scope.Unforked) (hengine : e.Abides Law.unforked) :
    q.KeepsTo q' := by
  cases h with
  | here h => exact h.keepsTo hprunes hby hrecalls hscope hengine
  | called | returned | inPlace | child | childEnded => exact .of_walk_eq rfl nofun hby
  | inPlaceEnded _ _ hclose =>
    subst hclose
    obtain ⟨reach, hwalk⟩ := hprunes.exists_reach
    exact Turn.IsQuiet.keepsTo (q := .mk _ _ _) (Walk.isQuiet_forkDone hwalk hby ..) _

/-- The unit that a walk handles stands there. -/
theorem Handles.unitAt? {i : Nat} {result : Option Failure} (h : q.Handles i u result) (hfits : q.Fits) :
    q.walk.plan.unitAt? i = some u := by
  cases h with
  | here hposition hlearns =>
    subst hposition
    obtain ⟨-, hat, -⟩ := hfits
    cases hlearns with
    | succeeded hactivity _ hunit hresume | failed hactivity _ hunit hresume =>
      obtain rfl := hactivity
      subst hunit
      exact hat hresume
  | ahead _ hposition hfinds => exact hposition ▸ hfinds.unit

end Process

/-! ## Groups that are behind a walk -/

/-- The groups of a plan end behind where they begin. -/
def Plan.IsForward (p : Plan) : Prop :=
  ∀ first group, p.groupAt? first = some group → first < group.span.stop

/-- A walk that waits like this has begun to fork the group that ends before a position, or is behind
it. -/
def Resume.IsDoneWith (w : Walk) (stop : Nat) : Resume → Prop
  | .unit | .scattered .. => stop ≤ w.position
  | .group other => stop ≤ other
  | .alone | .detour .. | .detourFork => stop ≤ w.position + 1

def Intent.IsDoneWith (w : Walk) (stop : Nat) : Intent → Prop
  | .advance => stop ≤ w.position
  | .execute _ resume => resume.IsDoneWith w stop
  | .fork _ _ resume => resume.IsDoneWith w stop ∧ resume ≠ .group stop
  | .finish => True

def Turn.IsDoneWith (t : Turn) (stop : Nat) : Prop := t.next.IsDoneWith t.walk stop

def Activity.IsDoneWith (w : Walk) (stop : Nat) : Activity → Prop
  | .poised next => next.IsDoneWith w stop
  | .queued _ _ resume | .inPlace _ _ resume _ | .forking _ resume _ _ _ => resume.IsDoneWith w stop
  | .working job _ | .asleep job _ _ | .calling job _ _ _ => job.resume.IsDoneWith w stop

namespace Walk

variable {w : Walk} {scope : Scope} {hasRun : String → Bool} {tolerant : Bool} {u : String} {stop : Nat}

theorem isDoneWith_detour (h : stop ≤ w.position + 1) (scope : Scope) (hasRun : String → Bool)
    (target : String) : (w.detour scope hasRun target).IsDoneWith stop := by
  unfold detour
  split <;> exact h

theorem isDoneWith_steer (h : stop ≤ w.position + 1) (scope : Scope) (hasRun : String → Bool) (u : String)
    (signal : Option String) : (w.steer scope hasRun u signal).IsDoneWith stop := by
  unfold steer
  split
  · exact h
  · exact h
  · split
    · trivial
    · split
      · next choice _ =>
        split
        · exact h
        · exact isDoneWith_detour (w := w.skipArms choice) h scope hasRun _
      · split
        · exact h
        · exact isDoneWith_detour h scope hasRun _

theorem isDoneWith_forkGroup {first : Nat} {group : Group Plan} (hforward : w.plan.IsForward)
    (hgroup : w.plan.groupAt? first = some group) (hle : stop ≤ first) :
    Resume.IsDoneWith w stop (.group group.span.stop) ∧ Resume.group group.span.stop ≠ .group stop := by
  have hlt := hforward first group hgroup
  exact ⟨Nat.le_of_lt (Nat.lt_of_le_of_lt hle hlt), fun heq => by cases heq; omega⟩

theorem isDoneWith_obey (hforward : w.plan.IsForward) (h : stop ≤ w.position) (scope : Scope)
    (hasRun : String → Bool) (u : String) (signal : Option String) (fork : Option (List String)) :
    (w.obey scope hasRun u signal fork).IsDoneWith stop := by
  unfold obey
  split
  · trivial
  · split
    · next hgroup =>
      exact isDoneWith_forkGroup hforward (Option.filter_eq_some_iff.mp hgroup).1 (Nat.le_succ_of_le h)
    · next hgroup =>
      exact isDoneWith_forkGroup hforward (Option.filter_eq_some_iff.mp hgroup).1 (Nat.le_succ_of_le h)
    · exact ⟨h, nofun⟩
    · exact isDoneWith_steer (Nat.le_succ_of_le h) scope hasRun u signal

theorem isDoneWith_fallThrough (h : stop ≤ w.position + 1) (scope : Scope) :
    (w.fallThrough.proceed scope).IsDoneWith stop := by
  unfold fallThrough
  split <;> exact h

theorem isDoneWith_advance (hforward : w.plan.IsForward) (h : stop ≤ w.position) (scope : Scope)
    (hasRun : String → Bool) :
    (w.advance scope hasRun).IsDoneWith stop := by
  unfold advance
  split
  · trivial
  · next u _ =>
    split
    · next hskip =>
      obtain ⟨span, -, -, hlt, rfl⟩ := exists_of_skipEnd? hskip
      exact Nat.le_of_lt (Nat.lt_of_le_of_lt h hlt)
    · next hgroup =>
      split
      · exact Nat.le_of_lt (Nat.lt_of_le_of_lt h (hforward _ _ hgroup))
      · exact isDoneWith_forkGroup hforward hgroup h
    · simp only
      split
      · exact isDoneWith_fallThrough (w := { w with early := w.early.erase u }) (Nat.le_succ_of_le h) scope
      · exact isDoneWith_obey (w := { w with early := w.early.erase u }) hforward h ..
      · exact isDoneWith_obey (w := { w with early := w.early.erase u }) hforward h ..
    · exact h

theorem isDoneWith_unitDone {resume : Resume} (hforward : w.plan.IsForward) (h : resume.IsDoneWith w stop)
    (scope : Scope) (hasRun : String → Bool) (tolerant : Bool) (u : String) (result : Option Mishap) :
    (w.unitDone scope hasRun tolerant u resume result).IsDoneWith stop := by
  unfold unitDone
  split
  · unfold ownUnitDone
    split
    · trivial
    · rcases result with _ | f
      · exact isDoneWith_obey hforward h ..
      · simp only
        split
        · exact isDoneWith_fallThrough (w := w.addFailure f.failure) (Nat.le_succ_of_le h) _
        · trivial
  · unfold detourDone
    rcases result with _ | f
    · simp only
      split
      · trivial
      · split
        · exact h
        · exact ⟨h, nofun⟩
        · exact h
    · simp only
      split
      · split <;> exact h
      · trivial
  all_goals
    unfold aloneDone
    rcases result with _ | f
    · simp only
      split <;> trivial
    · trivial

theorem isDoneWith_forkDone {resume : Resume} (h : resume.IsDoneWith w stop) (scope : Scope)
    (hasRun : String → Bool) (tolerant : Bool) (result : Option Failure) :
    (w.forkDone scope hasRun tolerant resume result).IsDoneWith stop := by
  -- behind a fork that a unit has asked for, the walk is where it was or one further
  have hdetour : stop ≤ w.position + 1 →
      (w.detourForkDone scope tolerant result).IsDoneWith stop := fun h => by
    unfold detourForkDone
    rcases result with _ | failure
    · exact h
    · simp only
      split
      · exact h
      · trivial
  unfold forkDone
  cases resume with
  | group other =>
    have hle : stop ≤ other := h
    show (w.groupDone scope hasRun tolerant other result).IsDoneWith stop
    unfold groupDone
    rcases result with _ | failure
    · simp only
      split
      · refine isDoneWith_steer (w := { w with position := other - 1 }) ?_ ..
        simp only
        omega
      · exact hle
    · simp only
      split
      · exact hle
      · trivial
  | scattered entries signal =>
    have hle : stop ≤ w.position + 1 := Nat.le_succ_of_le h
    show (w.scatterDone scope hasRun tolerant entries signal result).IsDoneWith stop
    unfold scatterDone
    split
    · trivial
    · rcases result with _ | failure
      · simp only
        generalize List.foldl _ _ _ = early
        exact isDoneWith_steer (w := { w with early := early }) hle ..
      · simp only
        split
        · exact isDoneWith_steer (w := w.addFailure failure) hle ..
        · trivial
  | unit => exact hdetour (Nat.le_succ_of_le h)
  | alone | detour | detourFork => exact hdetour h

end Walk

/-- Whatever a walk does where it stands, what it is done with it stays done with. -/
theorem Scene.Steps.isDoneWith {s s' : Scene} {task serial stop : Nat} (h : s.Steps task serial s')
    (hforward : s.walk.plan.IsForward) (hdone : s.activity.IsDoneWith s.walk stop) :
    s'.activity.IsDoneWith s'.walk stop := by
  obtain ⟨walk, activity, run, engine⟩ := s
  cases h with
  | advance h =>
    obtain rfl : activity = _ := h
    exact Walk.isDoneWith_advance hforward hdone ..
  | missing h =>
    obtain rfl : activity = _ := h
    exact Walk.isDoneWith_unitDone hforward hdone ..
  | ends h | gaveUp h =>
    obtain rfl : activity = _ := h
    rw [endUnit_eq]
    exact Walk.isDoneWith_unitDone hforward hdone ..
  | forksNone h =>
    obtain rfl : activity = _ := h
    exact Walk.isDoneWith_forkDone hdone.1 ..
  | joins h =>
    obtain rfl : activity = _ := h
    exact Walk.isDoneWith_forkDone hdone ..
  | forksOne h | forks h =>
    obtain rfl : activity = _ := h
    exact hdone.1
  | queues h | begins h | granted h | does h | sleeps h | wakes h | opens h | runs h | tidies h | fails h
  | starts h | refuses h =>
    obtain rfl : activity = _ := h
    exact hdone

theorem Process.Moves.isDoneWith {q q' : Process} {who task stop : Nat} {run run' : RunState}
    {e e' : Engine} {site : Site} (h : q.Moves who site task run e q' run' e')
    (hforward : q.walk.plan.IsForward) (hdone : q.activity.IsDoneWith q.walk stop) :
    q'.activity.IsDoneWith q'.walk stop := by
  cases h with
  | here h => exact h.isDoneWith hforward hdone
  | called | returned | inPlace | child | childEnded => exact hdone
  | inPlaceEnded _ _ hclose =>
    subst hclose
    exact Walk.isDoneWith_forkDone hdone ..

/-! ## Moves of a walk that need no decision of others -/

namespace Process

variable {q q' : Process} {who task first : Nat} {run run' : RunState} {e e' : Engine} {site : Site}
  {group : Group Plan} {node : Node}

/-- A walk that decides where it stands makes the turn that the plan has for it. -/
theorem Moves.of_advance (h : q.Moves who site task run e q' run' e')
    (hactivity : q.activity = .poised .advance) :
    q' = (q.walk.advance run.scope run.hasRun).process q.serial :=
  h.eq_of_advance hactivity

/-- A walk whose unit has succeeded goes on behind it. -/
theorem Moves.of_succeeded {job : Job} (h : q.Moves who site task run e q' run' e')
    (hactivity : q.activity = .working job .done) (hstage : job.stage = .after) :
    q' = ((Scene.announce ⟨q.walk, q.activity, run, e⟩ who q.serial job .after none).endUnit who q.serial
      job none).process q.serial := by
  cases h with
  | @here _ walk activity _ _ _ h =>
    obtain rfl : activity = _ := hactivity
    cases h with
    | ends h =>
      cases h
      rfl
    | does h hdoes =>
      cases h
      cases hdoes
    | runs h hother | tidies h hother =>
      cases h
      cases hstage.symm.trans hother
    | gaveUp h _ hother =>
      cases h
      cases hstage.symm.trans hother
    | fails h hfails =>
      cases h
      cases hfails
    | advance h | missing h | queues h | begins h | granted h | sleeps h | wakes h | opens h | forksNone h
    | forksOne h | forks h | starts h | refuses h | joins h => cases h
  | called | returned | inPlace | inPlaceEnded | child | childEnded => cases hactivity

/-- A walk that is to fork two or more branches begins to start them. -/
theorem Moves.of_fork {anchor : String} {branches : List (Branch Plan)} {resume : Resume}
    (h : q.Moves who site task run e q' run' e')
    (hactivity : q.activity = .poised (.fork anchor branches resume)) (htwo : 2 ≤ branches.length) :
    q'.walk = q.walk ∧ q'.activity = .forking anchor resume branches [] [] := by
  cases h with
  | @here _ walk activity _ _ _ h =>
    obtain rfl : activity = _ := hactivity
    cases h with
    | forks h =>
      cases h
      exact ⟨rfl, rfl⟩
    | forksNone h =>
      cases h
      cases htwo
    | forksOne h =>
      cases h
      simp at htwo
    | advance h | missing h | queues h | begins h | granted h | does h | sleeps h | wakes h | opens h
    | runs h | tidies h | ends h | fails h | gaveUp h | starts h | refuses h | joins h => cases h
  | called | returned | inPlace | inPlaceEnded | child | childEnded => cases hactivity

/-- A walk that knows what to do next has no branches to give up. -/
theorem cancelTasks_eq {next : Intent} (h : q.activity = .poised next) : q.cancelTasks = q := by
  obtain ⟨serial, walk, activity⟩ := q
  obtain rfl : activity = _ := h
  rfl

theorem activity_cancelTasks_eq {next : Intent} (h : q.cancelTasks.activity = .poised next) :
    q.activity = .poised next := by
  obtain ⟨serial, walk, activity⟩ := q
  cases activity with
  | poised => exact h
  | queued | working | asleep | calling | inPlace | forking => cases h

end Process

namespace Walk

variable {w : Walk} {node : Node} {first : Nat} {group : Group Plan} {scope : Scope}
  {hasRun : String → Bool}

theorem exists_unitAt? {reach : Nat} (h : w.Prunes node reach) (hgroup : w.plan.groupAt? first = some group) :
    ∃ u, w.plan.unitAt? first = some u := by
  have hfits : group.Fits w.plan first :=
    (h.normal.wellFormed h.plan).fits.groups _ (Table.mem_of_lookup hgroup)
  have hlt : first < w.plan.sequence.length := by
    have hstart := hfits.start
    have hpos := hfits.pos
    have hstop : group.span.stop ≤ w.plan.sequence.length := hfits.stop
    omega
  exact ⟨_, List.getElem?_eq_getElem hlt⟩

/-- What a walk does that comes upon a group. -/
theorem advance_of_groupAt? (h : w.Prunes node w.position) (hopen : ¬ w.Skips w.position)
    (hgroup : w.plan.groupAt? w.position = some group) (scope : Scope) (hasRun : String → Bool) :
    w.advance scope hasRun =
      if group.anchorAt.isSome then ⟨{ w with position := group.span.stop }, scope, .advance⟩
      else w.forkGroup scope group group.branches := by
  obtain ⟨u, hunit⟩ := exists_unitAt? h hgroup
  have hskip : w.skipEnd? w.position = none := by
    rcases hskip : w.skipEnd? w.position with _ | stop
    · rfl
    · obtain ⟨span, hmem, hin⟩ := exists_of_skipEnd? hskip
      exact absurd ⟨span, hmem, hin.1, hin.2.1⟩ hopen
  unfold advance
  simp only [hunit, hskip, hgroup]

/-- What a walk obeys that is to fork the group behind its position. -/
theorem obey_of_groupAfter? {u : String} {signal : Option String} {fork : Option (List String)}
    (hgoes : signal ≠ some stopValue) (hfork : fork.filter (· ≠ []) = none)
    (hgroup : w.plan.groupAfter? w.position = some group) (scope : Scope) (hasRun : String → Bool) :
    w.obey scope hasRun u signal fork = w.forkGroup scope group group.branches := by
  unfold obey
  rw [if_neg hgoes, hfork, hgroup]

end Walk

end Workflow
