import Mathlib.Data.List.Flatten
import Workflow.Proofs.Run.Bounded
import Workflow.Proofs.Run.Leftovers

/-!
# The keys of the engine

The scope of a run is shared by its units and the engine. The engine has keys of its own in it: the one
under which it publishes what branches have completed, and the slots of the units that the run has to do
with, which are those on its plan and those that one of its walks was sent to (`Executor.OwnKey`). All
walks of a run deal with such units only (`Executor.History.among`).

`Activity.afterCode` is what the code of units and listeners that a walk calls in one step makes of the
scope. Whatever the engine does to it besides, it does to keys of its own (`Process.Moves.sameAt_code`).
So what is stored under any other key stays there until the code of a unit or a listener changes it
(`Executor.History.touches_own_keys`). Nothing is asked of the units and listeners.
-/

namespace Workflow

/-! ## Units on a plan -/

/-- A unit is on a plan or on that of a branch of its groups, at any depth. -/
def Plan.Mentions (p : Plan) (u : String) : Prop := ∃ q, p.Contains q ∧ u ∈ q.sequence

namespace Plan

variable {p q : Plan} {u v : String} {position : Nat} {group : Group Plan} {branch : Branch Plan}

theorem mentions_of_unitAt? (h : p.unitAt? position = some u) : p.Mentions u :=
  ⟨p, .self, List.mem_of_getElem? h⟩

/-- What is on the plan of a branch is on the plan around it. -/
theorem Mentions.of_branch (h : branch.plan.Mentions u) (hgroup : p.groupAt? position = some group)
    (hbranch : branch ∈ group.branches) : p.Mentions u := by
  obtain ⟨q, hq, hu⟩ := h
  have hcontains : p.Contains branch.plan := .branch .self (Table.mem_of_lookup hgroup) hbranch
  exact ⟨q, hcontains.trans hq, hu⟩

theorem Contains.eq_ofUnit (h : (Plan.ofUnit u).Contains q) : q = .ofUnit u := by
  induction h with
  | self => rfl
  | branch _ hgroup _ ih =>
    subst ih
    cases hgroup

theorem mentions_ofUnit : (Plan.ofUnit u).Mentions v ↔ v = u := by
  constructor
  · rintro ⟨q, hq, hv⟩
    rw [hq.eq_ofUnit] at hv
    exact List.mem_singleton.mp hv
  · rintro rfl
    exact ⟨_, .self, List.mem_singleton_self _⟩

end Plan

/-! ## What decisions ask for -/

/-- What a walk asks for is on its plan, or the walk is sent to it. -/
inductive Intent.DrawnFrom (p : Plan) : Intent → Prop where
  | advance : DrawnFrom p .advance
  | finish : DrawnFrom p .finish
  | unit {u : String} {resume : Resume} (h : p.Mentions u) : DrawnFrom p (.execute u resume)
  | detour (u : String) (reached : Bool) : DrawnFrom p (.execute u (.detour u reached))
  | group {position : Nat} {group : Group Plan} {anchor : String} {resume : Resume}
      (h : p.groupAt? position = some group) : DrawnFrom p (.fork anchor group.branches resume)
  | chosen (entries : List String) {anchor : String} {resume : Resume} :
    DrawnFrom p (.fork anchor (entries.map Branch.ofUnit) resume)

namespace Walk

variable {p : Plan} {w : Walk} {scope : Scope} {hasRun : String → Bool} {tolerant : Bool} {u : String}
  {signal : Option String} {fork : Option (List String)} {resume : Resume}

theorem drawn_detour {target : String} : (w.detour scope hasRun target).next.DrawnFrom p := by
  unfold detour
  split
  · exact .advance
  · exact .detour ..

theorem drawn_steer : (w.steer scope hasRun u signal).next.DrawnFrom p := by
  unfold steer
  split
  · exact .advance
  · exact .advance
  · split
    · exact .finish
    · split
      · split
        · exact .advance
        · exact drawn_detour
      · split
        · exact .advance
        · exact drawn_detour

theorem drawn_obey : (w.obey scope hasRun u signal fork).next.DrawnFrom w.plan := by
  unfold obey
  split
  · exact .finish
  · split
    · exact .chosen _
    · next group _ hgroup => exact .group (Option.filter_eq_some_iff.mp hgroup).1
    · exact .chosen _
    · exact drawn_steer

theorem drawn_advance : (w.advance scope hasRun).next.DrawnFrom w.plan := by
  unfold advance
  split
  · exact .finish
  · next unitId hunit =>
    split
    · exact .advance
    · next group _ hgroup =>
      split
      · exact .advance
      · exact .group hgroup
    · simp only
      split
      · exact .advance
      · exact drawn_obey (w := { w with early := w.early.erase unitId })
      · exact drawn_obey (w := { w with early := w.early.erase unitId })
    · exact .unit (Plan.mentions_of_unitAt? hunit)

theorem drawn_unitDone {result : Option Mishap} :
    (w.unitDone scope hasRun tolerant u resume result).next.DrawnFrom w.plan := by
  unfold unitDone
  split
  · unfold ownUnitDone
    split
    · exact .finish
    · split
      · simp only
        split
        · exact .advance
        · exact .finish
      · exact drawn_obey
  · unfold detourDone
    split
    · simp only
      split
      · exact .advance
      · exact .finish
    · simp only
      split
      · exact .finish
      · split
        · exact .advance
        · exact .chosen _
        · exact .advance
  all_goals
    unfold aloneDone
    split
    · exact .finish
    · simp only
      split <;> exact .finish

theorem drawn_forkDone {result : Option Failure} :
    (w.forkDone scope hasRun tolerant resume result).next.DrawnFrom w.plan := by
  unfold forkDone
  split
  · unfold groupDone
    split
    · simp only
      split
      · exact .advance
      · exact .finish
    · split
      · exact drawn_steer
      · exact .advance
  · unfold scatterDone
    split
    · exact .finish
    · split
      · simp only
        split
        · exact drawn_steer
        · exact .finish
      · exact drawn_steer
  all_goals
    unfold detourForkDone
    split
    · simp only
      split
      · exact .advance
      · exact .finish
    · exact .advance

end Walk

/-! ## Units of a run -/

/-- A walk is about to execute a unit that it was routed to, or to fork it as a branch of its own. -/
inductive Process.SentTo (u : String) (q : Process) : Prop where
  | routed {reached : Bool} (h : q.activity = .poised (.execute u (.detour u reached)))
  | forked {anchor : String} {branches : List (Branch Plan)} {resume : Resume}
      (h : q.activity = .poised (.fork anchor branches resume)) (hbranch : Branch.ofUnit u ∈ branches)

/-- A run has to do with a unit: the unit is on its plan, or one of its walks is sent to it. -/
inductive Run.Involves (u : String) (f : Run) : Prop where
  | planned (h : f.root.walk.plan.Mentions u)
  | sent {q : Process} (hq : q ∈ f.root.crew) (h : q.SentTo u)

/-- The branches that a walk is about to fork or has yet to start. -/
def Activity.pending : Activity → List (Branch Plan)
  | .poised (.fork _ branches _) => branches
  | .forking _ _ toStart _ _ => toStart
  | .poised .advance | .poised (.execute ..) | .poised .finish | .queued .. | .working .. | .asleep ..
  | .calling .. | .inPlace .. => []

/-- A walk has to do with some units only, as long as it is not sent to others. -/
structure Process.Among (units : Set String) (q : Process) : Prop where
  plan : ∀ u, q.walk.plan.Mentions u → u ∈ units
  unit : ∀ u, q.activity.unit? = some u → u ∈ units
  pending : ∀ branch ∈ q.activity.pending, ∀ u, branch.plan.Mentions u → u ∈ units

namespace Process

variable {units more : Set String} {serial : Nat} {plan : Plan} {pooled : Bool} {walk : Walk}
  {activity : Activity} {q : Process} {u : String}

theorem Among.mono (h : q.Among units) (hsub : units ⊆ more) : q.Among more :=
  ⟨fun u hu => hsub (h.plan u hu), fun u hu => hsub (h.unit u hu),
    fun branch hbranch u hu => hsub (h.pending branch hbranch u hu)⟩

/-- The units whose signals a walk may deal with where it stands are among them. -/
theorem Among.concerns (h : q.Among units) (hu : u ∈ q.concerns) : u ∈ units := by
  obtain ⟨serial, walk, activity⟩ := q
  have hat : ∀ position, walk.plan.unitAt? position = some u → u ∈ units := fun position hunit =>
    h.plan u (Plan.mentions_of_unitAt? hunit)
  rcases List.mem_append.mp hu with hu | hu
  · rcases List.mem_append.mp hu with hu | hu
    · exact hat _ (Option.mem_toList.mp hu)
    · exact h.unit u (Option.mem_toList.mp hu)
  · obtain ⟨stop, -, hunit⟩ := Option.bind_eq_some_iff.mp (Option.mem_toList.mp hu)
    exact hat _ hunit

/-- Giving up branches leaves the units that there were. -/
theorem Among.cancelTasks (h : q.Among units) : q.cancelTasks.Among units := by
  obtain ⟨serial, walk, activity⟩ := q
  cases activity <;> exact ⟨h.plan, h.unit, h.pending⟩

theorem among_ofPlan (h : ∀ u, plan.Mentions u → u ∈ units) : (ofPlan serial plan pooled).Among units :=
  ⟨h, nofun, nofun⟩

theorem among_ofUnit (h : u ∈ units) : (ofUnit serial u).Among units := by
  refine ⟨fun v hv => ?_, fun v hv => ?_, nofun⟩
  · rw [Plan.mentions_ofUnit.mp hv]
    exact h
  · cases hv
    exact h

/-- A walk that has decided has to do with what is on its plan, and with what it is sent to. -/
theorem among_poised {next : Intent} (hdrawn : next.DrawnFrom walk.plan)
    (hplan : ∀ u, walk.plan.Mentions u → u ∈ units)
    (hsent : ∀ u, (mk serial walk (.poised next)).SentTo u → u ∈ units) :
    (mk serial walk (.poised next)).Among units := by
  refine ⟨hplan, fun u hu => ?_, fun branch hbranch u hu => ?_⟩
  · cases hdrawn with
    | unit h =>
      cases hu
      exact hplan _ h
    | detour =>
      cases hu
      exact hsent _ (.routed rfl)
    | advance | finish | group | chosen => cases hu
  · cases hdrawn with
    | group h => exact hplan u (hu.of_branch h hbranch)
    | chosen entries =>
      obtain ⟨entry, -, rfl⟩ := List.mem_map.mp hbranch
      rw [Plan.mentions_ofUnit.mp hu]
      exact hsent _ (.forked rfl hbranch)
    | advance | finish | unit | detour => cases hbranch

end Process

namespace Scene

variable {s s' : Scene} {task serial : Nat} {units : Set String}

/-- A walk that goes on with its plan and its unit has to do with no other units, and its branches are
those that it had and those that it has started. -/
theorem among_of_kept (hall : ∀ q ∈ (s.process serial).crew, q.Among units) (hwalk : s'.walk = s.walk)
    (hunit : s'.activity.unit? = none ∨ s'.activity.unit? = s.activity.unit?)
    (hpending : s'.activity.pending ⊆ s.activity.pending)
    (hbranches : ∀ b, s'.activity.Branches b → s.activity.Branches b ∨
      ∃ branch ∈ s.activity.pending, ∃ number pooled, b = .ofPlan number branch.plan pooled) :
    ∀ q ∈ (s'.process serial).crew, q.Among units := by
  have hself := hall _ (Process.mem_crew_self _)
  have hplan : ∀ u, s'.walk.plan.Mentions u → u ∈ units := by
    rw [hwalk]
    exact hself.plan
  intro q hq
  rcases Process.mem_crew.mp hq with rfl | ⟨b, hb, hin⟩
  · refine ⟨hplan, fun u hu => ?_, fun branch hbranch => hself.pending branch (hpending hbranch)⟩
    rcases hunit with hnone | hsame
    · cases hnone.symm.trans hu
    · exact hself.unit u (hsame.symm.trans hu)
  · rcases hbranches b hb with hold | ⟨branch, hbranch, number, pooled, rfl⟩
    · exact hall q (Process.mem_crew.mpr (.inr ⟨b, hold, hin⟩))
    · obtain rfl := List.mem_singleton.mp hin
      exact Process.among_ofPlan (hself.pending branch hbranch)

/-- Whatever a walk does where it stands, the walks of the run have to do with the same units as before
and with those that they are sent to. -/
theorem Steps.among (h : s.Steps task serial s') (hfits : (s.process serial).Fits)
    (hall : ∀ q ∈ (s.process serial).crew, q.Among units)
    (hsent : ∀ q ∈ (s'.process serial).crew, ∀ u, q.SentTo u → u ∈ units) :
    ∀ q ∈ (s'.process serial).crew, q.Among units := by
  have hself := hall _ (Process.mem_crew_self _)
  have hsame := h.plan hfits
  -- a walk decides, or it goes on with what it has
  have hdecided : ∀ t : Turn, t.next.DrawnFrom s.walk.plan → s'.walk = t.walk →
      s'.activity = .poised t.next → ∀ q ∈ (s'.process serial).crew, q.Among units := by
    intro t hdrawn hwalk hactivity q hq
    have hsent := hsent _ (Process.mem_crew_self _)
    rw [process, hwalk, hactivity] at hq hsent
    rw [hwalk] at hsame
    obtain rfl := List.mem_singleton.mp hq
    exact Process.among_poised (hsame ▸ hdrawn) (hsame ▸ hself.plan) hsent
  have hkept := @among_of_kept s s' serial units hall
  cases h with
  | advance => exact hdecided _ Walk.drawn_advance rfl rfl
  | missing => exact hdecided _ Walk.drawn_unitDone rfl rfl
  | queues h | begins h | granted h | does h | sleeps h | wakes h | opens h | runs h | tidies h | fails h =>
    exact hkept rfl (.inr (by rw [h]; rfl)) (List.nil_subset _) fun b hb => hb.elim
  | ends | gaveUp =>
    rw [endUnit_eq] at hdecided ⊢
    exact hdecided _ Walk.drawn_unitDone rfl rfl
  | forksNone | joins => exact hdecided _ Walk.drawn_forkDone rfl rfl
  | @forksOne _ branch _ h =>
    refine hkept rfl (.inl rfl) (List.nil_subset _) fun b hb => .inr ⟨branch, ?_, _, _, hb⟩
    rw [h]
    exact List.mem_singleton_self _
  | forks h =>
    refine hkept rfl (.inl rfl) (by rw [h]; exact List.Subset.refl _) fun b hb => ?_
    obtain ⟨entry, hmem⟩ := hb
    cases hmem
  | @starts _ _ branch _ _ _ h =>
    rw [h] at hkept
    refine hkept rfl (.inl rfl) (List.subset_cons_self _ _) fun b hb => ?_
    rcases Child.running_of_started hb with rfl | hold
    · exact .inr ⟨branch, List.mem_cons_self, _, _, rfl⟩
    · exact .inl hold
  | refuses h =>
    rw [h] at hkept
    exact hkept rfl (.inl rfl) (List.subset_cons_self _ _) fun b hb =>
      .inl (Child.running_of_refused hb)

end Scene

/-- Whatever a task does, the walks of a run have to do with the same units as before and with those that
they are sent to. -/
theorem Process.Moves.among {who task : Nat} {p p' : Process} {run run' : RunState} {e e' : Engine}
    {site : Site} {units : Set String} (h : p.Moves who site task run e p' run' e') (hfits : p.Fits)
    (hall : ∀ q ∈ p.crew, q.Among units) (hsent : ∀ q ∈ p'.crew, ∀ u, q.SentTo u → u ∈ units) :
    ∀ q ∈ p'.crew, q.Among units := by
  have hself := hall _ p.mem_crew_self
  induction h with
  | here h => exact h.among hfits hall hsent
  | called | returned =>
    -- the walks of the flow that the unit runs are not in this run
    intro q hq
    obtain rfl := List.mem_singleton.mp hq
    exact ⟨hself.plan, hself.unit, hself.pending⟩
  | @inPlace _ _ _ _ _ _ branch _ _ _ _ _ _ _ _ ih =>
    obtain ⟨-, -, hinside⟩ := hfits
    have hbelow : ∀ q ∈ branch.crew, q.Among units := fun q hq =>
      hall q (mem_crew.mpr (.inr ⟨branch, rfl, hq⟩))
    intro q hq
    rcases mem_crew.mp hq with rfl | ⟨_, rfl, hin⟩
    · exact ⟨hself.plan, hself.unit, hself.pending⟩
    · exact ih (hinside branch rfl) hbelow (fun q hq => hsent q (mem_crew.mpr (.inr ⟨_, rfl, hq⟩)))
        (hbelow _ branch.mem_crew_self) q hin
  | @inPlaceEnded _ _ walk _ _ _ _ _ _ _ _ _ s _ hmoves hfinished hclose =>
    have hplan : s.walk.plan = walk.plan := (inPlaceEnded hmoves hfinished hclose).plan hfits
    have hsent := hsent _ (mem_crew_self _)
    subst hclose
    intro q hq
    obtain rfl := List.mem_singleton.mp hq
    refine among_poised ?_ ?_ hsent
    · rw [hplan]
      exact Walk.drawn_forkDone
    · rw [hplan]
      exact hself.plan
  | @child _ _ _ _ entry _ _ before after _ branch branch' _ _ _ _ _ _ _ _ ih =>
    obtain ⟨-, -, hinside⟩ := hfits
    have hmem := mem_children before after entry branch
    have hbelow : ∀ q ∈ branch.crew, q.Among units := fun q hq =>
      hall q (mem_crew.mpr (.inr ⟨branch, ⟨entry, hmem⟩, hq⟩))
    intro q hq
    rcases mem_crew.mp hq with rfl | ⟨other, hother, hin⟩
    · exact ⟨hself.plan, hself.unit, hself.pending⟩
    · rcases Activity.branches_exchange hother with hold | ⟨entry', heq⟩
      · exact hall q (mem_crew.mpr (.inr ⟨other, hold, hin⟩))
      · cases heq
        exact ih (hinside branch ⟨entry, hmem⟩) hbelow
          (fun q hq => hsent q (mem_crew.mpr (.inr ⟨_, hother, hq⟩))) (hbelow _ branch.mem_crew_self) q hin
  | childEnded =>
    intro q hq
    rcases mem_crew.mp hq with rfl | ⟨other, hother, hin⟩
    · exact ⟨hself.plan, hself.unit, hself.pending⟩
    · rcases Activity.branches_exchange hother with hold | ⟨entry', heq⟩
      · exact hall q (mem_crew.mpr (.inr ⟨other, hold, hin⟩))
      · cases heq

/-! ## Runs of an executor -/

mutual

/-- The roots of the runs below a process have numbers from there. -/
theorem Process.sublist_subruns :
    (p : Process) → (p.subruns.map fun f => f.root.serial).Sublist p.activity.serials
  | .mk _ _ activity => Activity.sublist_subruns activity

theorem Activity.sublist_subruns :
    (activity : Activity) → (activity.subruns.map fun f => f.root.serial).Sublist activity.serials
  | .calling _ run root _ => by
    show (root.serial :: root.subruns.map fun f => f.root.serial).Sublist root.serials
    rw [root.serials_eq]
    exact (Process.sublist_subruns root).cons_cons _
  | .inPlace _ _ _ branch => by
    show (branch.subruns.map fun f => f.root.serial).Sublist branch.serials
    rw [branch.serials_eq]
    exact (Process.sublist_subruns branch).cons _
  | .forking _ _ _ children _ => Child.sublist_subrunsIn children
  | .poised _ | .queued .. | .working .. | .asleep .. => .slnil

theorem Child.sublist_subrunsIn : (children : List Child) →
    ((Child.subrunsIn children).map fun f => f.root.serial).Sublist (Child.serialsIn children)
  | [] => .slnil
  | .running _ process :: rest => by
    rw [Child.subrunsIn, List.map_append]
    refine List.Sublist.append ?_ (Child.sublist_subrunsIn rest)
    show (process.subruns.map fun f => f.root.serial).Sublist process.serials
    rw [process.serials_eq]
    exact (Process.sublist_subruns process).cons _
  | .refused _ :: rest | .ended .. :: rest | .cancelled _ :: rest => Child.sublist_subrunsIn rest

end

/-- What is read of the scope of a run, by code that is called in it and by the caller in the end. -/
inductive Run.Shows (f : Run) : Scope → Prop where
  | code : Shows f f.state.scope
  | caller {outcome : Outcome} (h : f.result? = some outcome) : Shows f outcome.scope

theorem Run.Shows.eq {f : Run} {scope : Scope} (h : f.Shows scope) : scope = f.state.scope := by
  cases h with
  | code => rfl
  | caller h =>
    unfold Run.result? at h
    split at h <;> cases h
    rfl

instance : DecidablePred Activity.IsOwn
  | .calling .. | .inPlace .. => .isFalse id
  | .poised _ | .queued .. | .working .. | .asleep .. | .forking .. => .isTrue trivial

namespace Executor

variable {start last x y z : Executor} {past more : List (Executor × Move)} {m : Move} {f g : Run}
  {who i number : Nat} {site : Site} {u key : String} {keys : Set String}

/-- No two runs have one number. -/
theorem nodup_flows (hnumbered : x.ledger.Numbered) : (x.flows.map fun f => f.root.serial).Nodup := by
  refine (nodup_serials hnumbered).sublist ?_
  rw [flows, List.map_flatMap]
  refine List.Sublist.flatMap_right _ fun run _ => ?_
  rw [run.root.serials_eq]
  exact run.root.sublist_subruns.cons_cons _

theorem flow_unique (hnumbered : x.ledger.Numbered) (hf : f ∈ x.flows) (hg : g ∈ x.flows)
    (hserial : f.root.serial = g.root.serial) : f = g :=
  List.inj_on_of_nodup_map (nodup_flows hnumbered) hf hg hserial

/-! ## What code makes of scopes by a move -/

/-- The walk that does something by a move, in its surroundings. -/
def actor? (x : Executor) : Move → Option Site
  | .step who => ((List.range x.runs.length).flatMap fun i => x.sites i who).find? fun site =>
    site.process.activity.IsOwn
  | .wait _ | .launch .. | .beginShutdown | .settleShutdown => none

/-- What the code of units and listeners that is called by a move makes of the scope of a run. -/
def afterCode (x : Executor) (m : Move) (f : Run) : Scope :=
  match x.actor? m with
  | some site =>
    if site.walks.head? = some f.root.serial then site.process.activity.afterCode f.state x.engine
    else f.state.scope
  | none => f.state.scope

theorem exists_of_actor? (h : x.actor? m = some site) :
    ∃ who i, m = .step who ∧ x.At i who site ∧ site.process.activity.IsOwn := by
  cases m with
  | step who =>
    obtain ⟨i, -, hsite⟩ := List.mem_flatMap.mp (List.mem_of_find?_eq_some h)
    have hown := List.find?_some (p := fun site : Site => decide site.process.activity.IsOwn) h
    exact ⟨who, i, rfl, at_of_mem_sites hsite, of_decide_eq_true hown⟩
  | wait | launch | beginShutdown | settleShutdown => cases h

theorem actor?_eq (hnumbered : x.ledger.Numbered) (hat : x.At i who site)
    (hown : site.process.activity.IsOwn) : x.actor? (.step who) = some site := by
  have hlt : i < x.runs.length := by
    obtain ⟨run, hrun, -⟩ := id hat
    exact (List.getElem?_eq_some_iff.mp hrun).1
  have hmem : site ∈ (List.range x.runs.length).flatMap fun i => x.sites i who :=
    List.mem_flatMap.mpr ⟨i, List.mem_range.mpr hlt, mem_sites_of_at hat⟩
  have hsome : (x.actor? (.step who)).isSome = true :=
    List.find?_isSome.mpr ⟨site, hmem, decide_eq_true hown⟩
  obtain ⟨other, hother⟩ := Option.isSome_iff_exists.mp hsome
  obtain ⟨_, j, ⟨⟩, hthere, hother'⟩ := exists_of_actor? hother
  rw [hother, (hthere.unique hnumbered hother' hat hown).2]

/-- A run after a move is new, or there was one with its number, and besides what the code did that was
called in it nothing has changed in its scope but what branches have completed and the slots of what its
walks were concerned with. -/
theorem sameAt_move (hnumbered : x.ledger.Numbered) (hmove : x.move m = some y) (hf : f ∈ y.flows)
    (hfree : ∀ g ∈ x.flows, g.root.serial = f.root.serial →
      ∀ q ∈ g.root.crew, ∀ u ∈ q.concerns, Scope.Free keys u)
    (hpublish : Scope.completedSlot ∉ keys) : f.AtStart x.engine.nextSerial ∨
      ∃ g ∈ x.flows, g.root.serial = f.root.serial ∧ (x.afterCode m g).SameAt keys f.state.scope := by
  by_cases hin : ∃ site, x.actor? m = some site ∧ site.walks.head? = some f.root.serial
  · -- the task moves in this run
    obtain ⟨site, hactor, hhead⟩ := hin
    obtain ⟨who, i, rfl, hat, hown⟩ := exists_of_actor? hactor
    obtain ⟨g, hg, inner, task, e, hmoves, hdepth, hprocess⟩ :=
      flow_moves hnumbered hmove hat hown hf hhead
    have hserial := hmoves.serial.symm
    refine .inr ⟨g, hg, hserial, ?_⟩
    have hcode : x.afterCode (.step who) g = inner.process.activity.afterCode g.state x.engine := by
      simp only [afterCode, hactor, hhead, hserial, hprocess, if_true]
    rw [hcode]
    exact hmoves.sameAt_code (hfree g hg hserial) hpublish hdepth
  · -- no code is called in the run
    have hcode : ∀ g : Run, g.root.serial = f.root.serial → x.afterCode m g = g.state.scope := by
      intro g hserial
      unfold afterCode
      split
      · next site hactor => exact if_neg fun hhead => hin ⟨site, hactor, hhead.trans (congrArg some hserial)⟩
      · rfl
    rcases flow_cases hmove hf with hold | hstart | ⟨who, rfl, g, hg, site, task, e, i, depth, hmoves, hat⟩ |
      ⟨g, hg, rfl⟩
    · exact .inr ⟨f, hold, rfl, hcode f rfl ▸ .refl _⟩
    · exact .inl hstart
    · have hserial := hmoves.serial.symm
      have hdepth : 0 < site.depth := Nat.pos_of_ne_zero fun hzero =>
        hin ⟨_, actor?_eq hnumbered hat hmoves.at.2, (hmoves.at.1.head?_walks hzero).trans (congrArg some hserial)⟩
      refine .inr ⟨g, hg, hserial, ?_⟩
      rw [hcode g hserial, (hmoves.run_eq hdepth).1]
      exact .refl _
    · have hserial := g.root.serial_cancelTasks.symm
      exact .inr ⟨g, hg, hserial, hcode g hserial ▸ .refl _⟩

/-! ## Own keys -/

/-- A run with a number has had to do with a unit up to a moment, that of `x`. -/
def Involved (past : List (Executor × Move)) (x : Executor) (number : Nat) (u : String) : Prop :=
  ∃ y, (y = x ∨ ∃ m, (y, m) ∈ past) ∧ ∃ f ∈ y.flows, f.root.serial = number ∧ f.Involves u

/-- A key of the engine in the scope of a run with a number. -/
def OwnKey (past : List (Executor × Move)) (x : Executor) (number : Nat) (key : String) : Prop :=
  key = Scope.completedSlot ∨
    ∃ u, x.Involved past number u ∧ (key = Scope.routeSlot u ∨ key = Scope.forkSlot u)

/-- The keys that are not the engine's. -/
def foreign (past : List (Executor × Move)) (x : Executor) (number : Nat) : Set String :=
  {key | ¬ x.OwnKey past number key}

theorem Involved.move (h : x.Involved past number u) (m : Move) (y : Executor) :
    y.Involved (past ++ [(x, m)]) number u := by
  obtain ⟨z, hz, hthere⟩ := h
  refine ⟨z, .inr ?_, hthere⟩
  rcases hz with rfl | ⟨m', hmem⟩
  · exact ⟨m, List.mem_append_right _ (List.mem_singleton_self _)⟩
  · exact ⟨m', List.mem_append_left _ hmem⟩

theorem foreign_move_subset (past : List (Executor × Move)) (x : Executor) (m : Move) (y : Executor)
    (number : Nat) : y.foreign (past ++ [(x, m)]) number ⊆ x.foreign past number := by
  intro key hkey hown
  refine hkey (hown.imp_right ?_)
  rintro ⟨u, hu, heq⟩
  exact ⟨u, hu.move m y, heq⟩

theorem Involved.free (h : x.Involved past number u) : Scope.Free (x.foreign past number) u :=
  ⟨fun hmem => hmem (.inr ⟨u, h, .inl rfl⟩), fun hmem => hmem (.inr ⟨u, h, .inr rfl⟩)⟩

theorem completedSlot_not_foreign : Scope.completedSlot ∉ x.foreign past number :=
  fun hmem => hmem (.inl rfl)

/-- In every schedule, the walks of a run have to do with the units on its plan and with those that walks
of the run were sent to. -/
theorem History.among (h : start.History past last) (hfits : start.Fits) (hnone : start.flows = [])
    (hf : f ∈ last.flows) : ∀ q ∈ f.root.crew, q.Among {u | last.Involved past f.root.serial u} := by
  induction h generalizing f with
  | start =>
    rw [hnone] at hf
    cases hf
  | @move past x y m h hmove ih =>
    have hhere : ∀ u, f.Involves u → y.Involved (past ++ [(x, m)]) f.root.serial u := fun u hu =>
      ⟨y, .inl rfl, f, hf, rfl, hu⟩
    have hbefore : ∀ g ∈ x.flows, g.root.serial = f.root.serial → ∀ q ∈ g.root.crew,
        q.Among {u | y.Involved (past ++ [(x, m)]) f.root.serial u} := fun g hg hserial q hq =>
      (ih hg q hq).mono fun u hu => hserial ▸ Involved.move hu m y
    rcases flow_cases hmove hf with hold | hstart | ⟨_, -, g, hg, _, _, _, _, _, hmoves, -⟩ | ⟨g, hg, rfl⟩
    · exact hbefore f hold rfl
    · have hplanned : ∀ u, f.root.walk.plan.Mentions u →
          u ∈ {u | y.Involved (past ++ [(x, m)]) f.root.serial u} := fun u hu => hhere u (.planned hu)
      generalize {u | y.Involved (past ++ [(x, m)]) f.root.serial u} = units at hplanned ⊢
      intro q hq
      rcases hstart.root with ⟨plan, pooled, hroot⟩ | ⟨u, hroot⟩
      all_goals
        rw [hroot] at hq hplanned
        obtain rfl := List.mem_singleton.mp hq
      · exact Process.among_ofPlan hplanned
      · exact Process.among_ofUnit (hplanned u (Plan.mentions_ofUnit.mpr rfl))
    · obtain ⟨run, hrun, hhas⟩ := has_root hg
      exact hmoves.among ((h.fits hfits run hrun).of_has hhas) (hbefore g hg hmoves.serial.symm)
        fun q hq u hsent => hhere u (.sent hq hsent)
    · intro q hq
      obtain ⟨r, hr, rfl⟩ := Process.crew_cancelTasks hq
      exact (hbefore g hg g.root.serial_cancelTasks.symm r hr).cancelTasks

/-! ## What is stored in a scope -/

/-- By some move the code of a unit or of a listener has changed what is under a key in the scope of the
run with a number. -/
def CodeChanged (moves : List (Executor × Move)) (number : Nat) (key : String) : Prop :=
  ∃ y m, (y, m) ∈ moves ∧ ∃ f ∈ y.flows, f.root.serial = number ∧
    (y.afterCode m f).get? key ≠ f.state.scope.get? key

theorem CodeChanged.mono (h : CodeChanged past number key) (hsub : past ⊆ more) :
    CodeChanged more number key := by
  obtain ⟨y, m, hmem, hchanged⟩ := h
  exact ⟨y, m, hsub hmem, hchanged⟩

theorem History.nextSerial_mono (h : x.History more z) (hfits : x.Fits) :
    x.engine.nextSerial ≤ z.engine.nextSerial := by
  induction h with
  | start => exact Nat.le_refl _
  | move h hmove ih => exact Nat.le_trans ih (Executor.nextSerial_le (h.fits hfits) hmove)

/-- What the walks of a run are concerned with has its slots under keys of the engine. -/
theorem History.free (h : start.History past last) (hfits : start.Fits) (hnone : start.flows = [])
    (hf : f ∈ last.flows) (hserial : f.root.serial = number) :
    ∀ q ∈ f.root.crew, ∀ u ∈ q.concerns, Scope.Free (last.foreign past number) u := by
  subst hserial
  exact fun q hq _ hu => Involved.free ((h.among hfits hnone hf q hq).concerns hu)

/-- What is under a key that is not the engine's stays there until code changes it. -/
theorem History.stays (hpast : start.History past x) (h : x.History more z) (hfits : start.Fits)
    (hnumbered : start.ledger.Numbered) (hnone : start.flows = []) (hf : f ∈ x.flows) (hg : g ∈ z.flows)
    (hserial : g.root.serial = f.root.serial) (hkey : key ∈ z.foreign (past ++ more) f.root.serial) :
    g.state.scope.get? key = f.state.scope.get? key ∨ CodeChanged more f.root.serial key := by
  have hx := hpast.fits hfits
  have hxNumbered := hpast.numbered hfits hnumbered
  induction h generalizing g with
  | start => exact .inl (flow_unique hxNumbered hg hf hserial ▸ rfl)
  | @move more y z m h hmove ih =>
    rw [← List.append_assoc] at hkey
    have hall := hpast.trans h
    have hkey := foreign_move_subset (past ++ more) y m z _ hkey
    rcases sameAt_move (h.numbered hx hxNumbered) hmove hg
      (fun b hb heq => hall.free hfits hnone hb (heq.trans hserial)) completedSlot_not_foreign with
      hstart | ⟨b, hb, heq, hsame⟩
    · -- the number of the run was given out before
      have hknown : f.root.serial < x.engine.nextSerial := by
        obtain ⟨run, hrun, hhas⟩ := has_root hf
        exact serial_lt hxNumbered hrun _ (hhas.serials_subset f.root.serial_mem_serials)
      have hnew := hstart.crew g.root.mem_crew_self
      have hlater := h.nextSerial_mono hx
      omega
    · rcases ih hb (heq.trans hserial) hkey with hstays | hchanged
      · by_cases hcode : (y.afterCode m b).get? key = b.state.scope.get? key
        · exact .inl ((hsame.get?_eq key hkey).trans (hcode.trans hstays))
        · exact .inr ⟨y, m, by simp, b, hb, heq.trans hserial, hcode⟩
      · exact .inr (hchanged.mono (List.subset_append_left _ _))

/-- The engine touches only keys of its own. Its keys are those under which it publishes what branches have
completed, and the two slots of each unit that is on the plan of the run or that a walk of the run was
sent to so far; a unit that is started is one of these. The slots of different units and the three kinds of
keys never coincide, whatever the units are called.

Take any moment in any schedule. When a run makes a step, its scope comes out as the code of units and
listeners that is called in this step has left it, but for keys of the engine. This goes for all runs
after a move, unless they have just begun, and then their scopes are empty. So whatever is under another
key at that moment is still there whenever code or the caller reads it later, unless the code of a unit or
a listener has changed it in between. Nothing is asked of the plans, the units or the listeners. -/
theorem History.touches_own_keys {config : Config} {registry : Registry} {listeners : Listeners}
    (hbuild : build config registry listeners = .ok start) (h : start.History past last) :
    (∀ u v, (Scope.routeSlot u = Scope.routeSlot v → u = v) ∧ (Scope.forkSlot u = Scope.forkSlot v → u = v) ∧
      Scope.routeSlot u ≠ Scope.forkSlot v ∧ Scope.routeSlot u ≠ Scope.completedSlot ∧
      Scope.forkSlot u ≠ Scope.completedSlot) ∧
    (∀ f ∈ last.flows, ∀ who site task root state e,
      f.root.Moves who site task f.state last.engine root state e → site.depth = 0 →
      (site.process.activity.afterCode f.state last.engine).SameAt (last.foreign past f.root.serial)
        state.scope) ∧
    (∀ m y, last.move m = some y → ∀ f ∈ y.flows, f.AtStart last.engine.nextSerial ∨
      ∃ g ∈ last.flows, g.root.serial = f.root.serial ∧
        (last.afterCode m g).SameAt (last.foreign past f.root.serial) f.state.scope) ∧
    ∀ more z, last.History more z → ∀ f ∈ last.flows, ∀ g ∈ z.flows, g.root.serial = f.root.serial →
      ∀ key ∈ z.foreign (past ++ more) f.root.serial, ∀ scope, g.Shows scope →
        scope.get? key = f.state.scope.get? key ∨ CodeChanged more f.root.serial key := by
  obtain ⟨hfits, hsound⟩ := sound_build hbuild
  have hnone := flows_build hbuild
  refine ⟨fun u v => ?_, fun f hf who site task root state e hmoves hdepth => ?_, fun m y hmove f hf => ?_,
    fun more z hmore f hf g hg hserial key hkey scope hshows => ?_⟩
  · exact ⟨Scope.routeSlot_inj.mp, Scope.forkSlot_inj.mp, Scope.routeSlot_ne_forkSlot u v,
      Scope.routeSlot_ne_completedSlot u, Scope.forkSlot_ne_completedSlot u⟩
  · exact hmoves.sameAt_code (h.free hfits hnone hf rfl) completedSlot_not_foreign hdepth
  · exact sameAt_move (h.numbered hfits hsound.toNumbered) hmove hf
      (fun g hg hserial => h.free hfits hnone hg hserial) completedSlot_not_foreign
  · rw [hshows.eq]
    exact h.stays hmore hfits hsound.toNumbered hnone hf hg hserial hkey

/-- A unit stores something and routes to a unit that is not on the plan, and this one forks two more. What
was stored is there in the end, beside what the branches have completed. -/
theorem History.touches_own_keys_detour : ∃ (past more : List (Executor × Move)) (x z : Executor) (f g : Run)
    (outcome : Outcome),
    (doing [("a", .access (fun s => s.insert "note" (.text "kept")) fun _ => .signalRoute "d" .done),
      ("d", .signalFork ["x", "y"] .done), ("x", .done), ("y", .done), ("b", .done)]).History past x ∧
    x.History more z ∧ f ∈ x.flows ∧ g ∈ z.flows ∧ g.root.serial = f.root.serial ∧
    "note" ∈ z.foreign (past ++ more) f.root.serial ∧ ¬ CodeChanged more f.root.serial "note" ∧
    f.state.scope.get? "note" = some (.text "kept") ∧ g.result? = some outcome ∧
    outcome.scope.get? "note" = some (.text "kept") ∧
    outcome.scope.get? Scope.completedSlot = some (.texts ["x", "y"]) := by
  let units : List (String × Behavior) :=
    [("a", .access (fun s => s.insert "note" (.text "kept")) fun _ => .signalRoute "d" .done),
      ("d", .signalFork ["x", "y"] .done), ("x", .done), ("y", .done), ("b", .done)]
  let first : List Move := .launch (.plan { sequence := ["a", "b"] }) {} :: List.replicate 4 (.step 0)
  let second : List Move := (List.replicate 14 0 ++ List.replicate 8 1 ++ List.replicate 8 2 ++
    List.replicate 14 0).map .step
  let x := ((doing units).follow first).2
  let z := (x.follow second).2
  obtain ⟨f, hf, hserial, hstored⟩ : ∃ f ∈ x.flows, f.root.serial = 0 ∧
      f.state.scope.get? "note" = some (.text "kept") := by decide +kernel
  obtain ⟨g, hg, hserial', hpublished, hfinished⟩ : ∃ g ∈ z.flows, g.root.serial = 0 ∧
      g.state.scope.get? Scope.completedSlot = some (.texts ["x", "y"]) ∧ g.result?.isSome = true := by
    decide +kernel
  have hcode : ∀ p ∈ (x.follow second).1, ∀ h ∈ p.1.flows,
      (p.1.afterCode p.2 h).get? "note" = h.state.scope.get? "note" := by decide +kernel
  have hpast : (doing units).History _ x := history_follow _ first
  have hmore : x.History _ z := history_follow x second
  clear_value x z
  obtain ⟨outcome, hresult⟩ := Option.isSome_iff_exists.mp hfinished
  have hsame : g.root.serial = f.root.serial := hserial'.trans hserial.symm
  have hunchanged : ¬ CodeChanged (x.follow second).1 f.root.serial "note" := by
    rintro ⟨y, m, hmem, h, hh, -, hchanged⟩
    exact hchanged (hcode (y, m) hmem h hh)
  have hforeign : ∀ past, "note" ∈ z.foreign past f.root.serial := by
    rintro past (heq | ⟨u, -, heq | heq⟩)
    · exact absurd heq (by decide)
    · have hthird := Scope.third_routeSlot u
      rw [← heq] at hthird
      exact absurd hthird (by decide)
    · have hthird := Scope.third_forkSlot u
      rw [← heq] at hthird
      exact absurd hthird (by decide)
  obtain ⟨-, -, -, hstays⟩ := History.touches_own_keys (build_doing units) hpast
  have hread := (hstays _ z hmore f hf g hg hsame "note" (hforeign _) _ (.caller hresult)).resolve_right
    hunchanged
  have hscope : outcome.scope = g.state.scope := (Run.Shows.caller hresult).eq
  exact ⟨_, _, x, z, f, g, outcome, hpast, hmore, hf, hg, hsame, hforeign _, hunchanged, hstored, hresult,
    hread.trans hstored, hscope ▸ hpublished⟩

end Executor

end Workflow
