import Workflow.Proofs.Plan.WellFormed
import Workflow.Proofs.Run.Arms
import Workflow.Proofs.Run.Conduct
import Workflow.Proofs.Run.Crews

/-!
# Alternatives

No units of both arms of a conditional are executed in one run, and a walk that comes behind the
condition walks one arm (`Executor.History.one_arm`), whatever becomes of the units, as long as they
signal nothing but labels and stops.

`Process.Chooses k done p node` says that a tree of walks works on a node: each walk takes one arm
of each conditional of its part (`Walk.Chooses`), and what has been executed is behind it. So
nothing of both arms has been (`Process.Chooses.exclusive`), neither where the walk is nor in the
branches of its groups. It stays like that when a walk does something (`Scene.Steps.chooses`), and
since branches share no unit, also when that is in a branch (`Process.chooses_child`,
`Process.Moves.chooses`).

A walk chooses where it comes to the last unit of a condition. It may pass over that unit: when it
skips an arm at the end of the condition, when it comes to a group there whose anchor has failed,
and when a group there fails in a tolerant context. Then it does not choose, and walks both arms
(`Executor.walks_both_arms`). `Executor.routers` reads off a history which units were passed over,
and which left the label `true`.
-/

namespace Workflow

/-! ## Units of both arms -/

namespace Node

variable {k : Routers} {done done' : String → Prop} {m node b : Node} {i j s : Nat}
  {arms arms' behind : Arms} {u : String}

/-- No units of both arms have been executed of conditionals in a node, at any depth. -/
def Exclusive (k : Routers) (done : String → Prop) (node : Node) : Prop :=
  ∀ c t f, (Node.conditional c t f).Within node → c.Routed k →
    ∀ u ∈ t.leaves, ∀ v ∈ f.leaves, ¬ (done u ∧ done v)

/-- The same of the branches of all groups that stand in a node. -/
def ExclusiveBelow (k : Routers) (done : String → Prop) (node : Node) : Prop :=
  ∀ branches i arms, Stands (.parallel branches) i arms node 0 none →
    ∀ b ∈ branches, b.Exclusive k done

theorem Within.arms_subset {c t f : Node} (h : (Node.conditional c t f).Within node) :
    t.leaves ⊆ node.leaves ∧ f.leaves ⊆ node.leaves :=
  ⟨fun _ hu => h.leaves_subset (mem_leaves_conditional.mpr (.inr (.inl hu))),
    fun _ hu => h.leaves_subset (mem_leaves_conditional.mpr (.inr (.inr hu)))⟩

/-- Only what has been executed of the node itself counts. -/
theorem Exclusive.mono (h : node.Exclusive k done) (hdone : ∀ u ∈ node.leaves, done' u → done u) :
    node.Exclusive k done' := by
  intro c t f hwithin hrouted u hu v hv hboth
  obtain ⟨htrue, hfalse⟩ := hwithin.arms_subset
  exact h c t f hwithin hrouted u hu v hv
    ⟨hdone u (htrue hu) hboth.1, hdone v (hfalse hv) hboth.2⟩

theorem ExclusiveHere.mono (h : node.ExclusiveHere k done)
    (hdone : ∀ u ∈ node.leaves, done' u → done u) : node.ExclusiveHere k done' := by
  intro c t f i behind hstands hrouted u hu v hv hboth
  obtain ⟨htrue, hfalse⟩ := hstands.isWithin.arms_subset
  exact h c t f i behind hstands hrouted u hu v hv
    ⟨hdone u (htrue hu) hboth.1, hdone v (hfalse hv) hboth.2⟩

theorem ExclusiveBelow.mono (h : node.ExclusiveBelow k done)
    (hdone : ∀ u ∈ node.leaves, done' u → done u) : node.ExclusiveBelow k done' := by
  intro branches i arms hstands b hb
  have hleaves := hstands.isWithin.leaves_subset
  exact (h branches i arms hstands b hb).mono fun u hu => hdone u (hleaves (mem_leavesOf hb hu))

theorem exclusive_of_parts (hhere : node.ExclusiveHere k done)
    (hbelow : node.ExclusiveBelow k done) : node.Exclusive k done := by
  intro c t f hwithin hrouted
  rcases hwithin.stands 0 none with ⟨i, arms, hstands⟩ | ⟨branches, i, arms, b, hstands, hb, hin⟩
  · exact hhere c t f i arms hstands hrouted
  · exact hbelow branches i arms hstands b hb c t f hin hrouted

theorem exclusive_of_none (h : ∀ u ∈ node.leaves, ¬ done u) : node.Exclusive k done :=
  fun _ _ _ hwithin _ u hu _ _ hboth => h u (hwithin.arms_subset.1 hu) hboth.1

theorem exclusiveBelow_of_none (h : ∀ u ∈ node.leaves, ¬ done u) : node.ExclusiveBelow k done :=
  fun _ _ _ hstands _ hb => exclusive_of_none fun u hu =>
    h u (hstands.isWithin.leaves_subset (mem_leavesOf hb hu))

end Node

/-! ## What has been executed meanwhile -/

namespace Walk.Chooses

variable {k : Routers} {w : Walk} {node work m : Node} {done done' : String → Prop}
  {i j reach : Nat} {arms arms' : Node.Arms} {nodes : List Node} {u : String}

/-- Units of parts that are apart are different. -/
theorem notMem_of_apart (h : w.Chooses k node) (hstands : Node.Stands work i arms node 0 none)
    (hstands' : Node.Stands m j arms' node 0 none)
    (hapart : i + work.width ≤ j ∨ j + m.width ≤ i) (hu : u ∈ work.leaves) : u ∉ m.leaves := by
  intro hu'
  obtain ⟨p, hge, hlt, hunit⟩ := h.exists_position hstands hu
  obtain ⟨q, hge', hlt', hunit'⟩ := h.exists_position hstands' hu'
  have hnodup := h.nodup
  rw [← h.sequence] at hnodup
  have hlength := (List.getElem?_eq_some_iff.mp hunit).1
  have := (List.getElem?_inj hlength hnodup).mp (hunit.trans hunit'.symm)
  omega

/-- A walk that has come behind a unit or a group is also behind what has been executed of it. -/
theorem past_grow (h : w.Chooses k node) (hwork : work.IsWork)
    (hstands : Node.Stands work i arms node 0 none) (hopen : ¬ w.Skips i)
    (hpast : w.Past done reach) (hreach : i + work.width ≤ reach)
    (hgrow : ∀ v, done' v → done v ∨ v ∈ work.leaves) : w.Past done' reach := by
  intro position v hunit hdone
  rcases hgrow v hdone with hold | hnew
  · exact hpast position v hunit hold
  · obtain ⟨p, hge, hlt, hunit'⟩ := h.exists_position hstands hnew
    have hnodup := h.nodup
    rw [← h.sequence] at hnodup
    have hlength := (List.getElem?_eq_some_iff.mp hunit).1
    obtain rfl := (List.getElem?_inj hlength hnodup).mp (hunit.trans hunit'.symm)
    exact ⟨by omega, h.prunes.not_skips_inside hwork hstands hopen hge hlt⟩

/-- What is executed of a unit or a group is nothing to the branches of other groups. -/
theorem below_grow (h : w.Chooses k node) (hwork : work.IsWork)
    (hstands : Node.Stands work i arms node 0 none) (hbelow : node.ExclusiveBelow k done)
    (hgrow : ∀ v, done' v → done v ∨ v ∈ work.leaves)
    (hown : ∀ branches, work = .parallel branches → ∀ b ∈ branches, b.Exclusive k done') :
    node.ExclusiveBelow k done' := by
  intro branches j arms' hgroup b hb
  have hparallel : (Node.parallel branches).IsWork := trivial
  rcases hwork.eq_or_apart hparallel hstands hgroup with rfl | hapart
  · exact hown branches rfl b hb
  · refine (hbelow branches j arms' hgroup b hb).mono fun v hv hdone => ?_
    rcases hgrow v hdone with hold | hnew
    · exact hold
    · exact absurd (Node.mem_leavesOf hb hv) (h.notMem_of_apart hstands hgroup hapart hnew)

/-- The unit that a walk is at is one of its node. -/
theorem mem_leaves (h : w.Chooses k node) (hunit : w.AtUnit node u) : u ∈ node.leaves := by
  rw [← h.sequence]
  exact List.mem_of_getElem? (h.prunes.unitAt?_of_atUnit hunit)

theorem nodup_group (h : w.Chooses k node)
    (hstands : Node.Stands (.parallel nodes) i arms node 0 none) : (Node.leavesOf nodes).Nodup := by
  have hsublist := (h.lays.part hstands).reads.sublist.trans (List.drop_sublist _ _)
  rw [h.sequence] at hsublist
  exact hsublist.nodup h.nodup

end Walk.Chooses

/-- How far behind its own position a walk has executed units when one of them is in this stage. -/
def Stage.counted : Stage → Nat
  | .before => 0
  | .run | .after | .onError _ => 1

theorem Stage.counted_le (stage : Stage) : stage.counted ≤ 1 := by
  cases stage <;> simp [counted]

/-! ## Processes -/

mutual

/-- A process works on a node: its walk takes one arm of each conditional, no units of both arms
have been executed in groups, and each of its branches works on a branch of the group that the walk
is at. -/
def Process.Chooses (k : Routers) (done : String → Prop) : Process → Node → Prop
  | .mk _ walk activity, node =>
    walk.Chooses k node ∧ node.ExclusiveBelow k done ∧ activity.Chooses k done walk node

def Activity.Chooses (k : Routers) (done : String → Prop) (walk : Walk) : Activity → Node → Prop
  | .poised next, node => next.Chooses k done walk node
  | .queued u _ resume, node => walk.Works done node u resume walk.position
  | .working job _, node | .asleep job _ _, node | .calling job _ _ _, node =>
    walk.Works done node job.unitId job.resume (walk.position + job.stage.counted)
  | .inPlace .., _ => False
  | .forking _ resume toStart children _, node => ∃ start started waiting,
    walk.AtGroup node (started ++ waiting) start ∧
      resume = .group (start + Node.widthOf (started ++ waiting)) ∧
      walk.Past done (start + Node.widthOf (started ++ waiting)) ∧
      Child.ChooseAll k done children started ∧ List.Forall₂ Branch.Runs toStart waiting ∧
      ∀ u ∈ Node.leavesOf waiting, ¬ done u

def Child.ChooseAll (k : Routers) (done : String → Prop) : List Child → List Node → Prop
  | [], nodes => nodes = []
  | child :: rest, nodes => ∃ node others, nodes = node :: others ∧ child.Chooses k done node ∧
    Child.ChooseAll k done rest others

def Child.Chooses (k : Routers) (done : String → Prop) : Child → Node → Prop
  | .running _ process, node => process.Chooses k done node
  | .refused _, _ | .ended .., _ | .cancelled _, _ => True

end

section

variable {k : Routers} {done done' : String → Prop} {node : Node} {w : Walk} {reach : Nat}
  {u : String} {resume : Resume}

theorem Walk.Past.of_done (h : w.Past done reach) (hsequence : w.plan.sequence = node.leaves)
    (hdone : ∀ u ∈ node.leaves, done' u → done u) : w.Past done' reach := by
  intro position u hunit hnew
  refine h position u hunit (hdone u ?_ hnew)
  rw [← hsequence]
  exact List.mem_of_getElem? hunit

theorem Walk.Works.of_done (h : w.Works done node u resume reach)
    (hsequence : w.plan.sequence = node.leaves) (hdone : ∀ u ∈ node.leaves, done' u → done u) :
    w.Works done' node u resume reach :=
  ⟨h.resume, h.unit, h.past.of_done hsequence hdone⟩

theorem Intent.Chooses.of_done {next : Intent} (h : next.Chooses k done w node)
    (hsequence : w.plan.sequence = node.leaves) (hdone : ∀ u ∈ node.leaves, done' u → done u) :
    next.Chooses k done' w node := by
  cases next with
  | advance => exact ⟨h.1, h.2.of_done hsequence hdone⟩
  | execute u resume => exact Walk.Works.of_done h hsequence hdone
  | fork anchor branches resume =>
    obtain ⟨nodes, start, hgroup, hresume, hruns, hpast⟩ := h
    exact ⟨nodes, start, hgroup, hresume, hruns, hpast.of_done hsequence hdone⟩
  | finish => exact Node.ExclusiveHere.mono h hdone

theorem Child.chooseAll_append {first second : List Child} {nodes : List Node} :
    Child.ChooseAll k done (first ++ second) nodes ↔ ∃ before after, nodes = before ++ after ∧
      Child.ChooseAll k done first before ∧ Child.ChooseAll k done second after := by
  induction first generalizing nodes with
  | nil => simp [Child.ChooseAll]
  | cons child rest ih =>
    rw [List.cons_append, Child.ChooseAll]
    constructor
    · rintro ⟨b, others, rfl, hchild, hrest⟩
      obtain ⟨before, after, rfl, hbefore, hafter⟩ := ih.mp hrest
      exact ⟨b :: before, after, rfl, ⟨b, before, rfl, hchild, hbefore⟩, hafter⟩
    · rintro ⟨_, after, rfl, ⟨b, before, rfl, hchild, hbefore⟩, hafter⟩
      exact ⟨b, before ++ after, rfl, hchild, ih.mpr ⟨before, after, rfl, hbefore, hafter⟩⟩

theorem Child.ChooseAll.exists_node {children : List Child} {nodes : List Node} {child : Child}
    (h : Child.ChooseAll k done children nodes) (hmem : child ∈ children) :
    ∃ b ∈ nodes, child.Chooses k done b := by
  obtain ⟨before, after, rfl⟩ := List.append_of_mem hmem
  obtain ⟨first, others, rfl, -, b, last, rfl, hchild, -⟩ := Child.chooseAll_append.mp h
  exact ⟨b, by simp, hchild⟩

theorem Child.ChooseAll.map_cancel {children : List Child} {nodes : List Node}
    (h : Child.ChooseAll k done children nodes) :
    Child.ChooseAll k done (children.map Child.cancel) nodes := by
  induction children generalizing nodes with
  | nil => exact h
  | cons child rest ih =>
    obtain ⟨b, others, rfl, -, hrest⟩ := h
    refine ⟨b, others, rfl, ?_, ih hrest⟩
    cases child <;> trivial

mutual

/-- Only what has been executed of the node itself counts. -/
theorem Process.Chooses.of_done {p : Process} {m : Node} (h : p.Chooses k done m)
    (hdone : ∀ u ∈ m.leaves, done' u → done u) : p.Chooses k done' m := by
  obtain ⟨serial, walk, activity⟩ := p
  obtain ⟨hwalk, hbelow, hactivity⟩ := h
  exact ⟨hwalk, hbelow.mono hdone, hactivity.of_done hwalk hdone⟩

theorem Activity.Chooses.of_done {activity : Activity} {walk : Walk} {m : Node}
    (h : activity.Chooses k done walk m) (hwalk : walk.Chooses k m)
    (hdone : ∀ u ∈ m.leaves, done' u → done u) : activity.Chooses k done' walk m := by
  cases activity with
  | poised next => exact Intent.Chooses.of_done h hwalk.sequence hdone
  | queued | working | asleep | calling => exact Walk.Works.of_done h hwalk.sequence hdone
  | inPlace => exact h.elim
  | forking anchor resume toStart children completed =>
    obtain ⟨start, started, waiting, hgroup, hresume, hpast, hchildren, hruns, hnone⟩ := h
    obtain ⟨arms, hstands⟩ := hgroup.stands
    have hleaves : ∀ b ∈ started ++ waiting, b.leaves ⊆ m.leaves := fun b hb u hu =>
      hstands.isWithin.leaves_subset (Node.mem_leavesOf hb hu)
    refine ⟨start, started, waiting, hgroup, hresume, hpast.of_done hwalk.sequence hdone,
      hchildren.of_done fun b hb u hu => ?_, hruns, fun u hu hnew => hnone u hu (hdone u ?_ hnew)⟩
    · exact hdone u (hleaves b (List.mem_append_left _ hb) hu)
    · rw [Node.leavesOf_eq_flatMap] at hu
      obtain ⟨b, hb, hu⟩ := List.mem_flatMap.mp hu
      exact hleaves b (List.mem_append_right _ hb) hu

theorem Child.ChooseAll.of_done {children : List Child} {nodes : List Node}
    (h : Child.ChooseAll k done children nodes)
    (hdone : ∀ b ∈ nodes, ∀ u ∈ b.leaves, done' u → done u) :
    Child.ChooseAll k done' children nodes := by
  cases children with
  | nil => exact h
  | cons child rest =>
    obtain ⟨b, others, rfl, hchild, hrest⟩ := h
    exact ⟨b, others, rfl, hchild.of_done (hdone b List.mem_cons_self),
      hrest.of_done fun b' hb' => hdone b' (List.mem_cons_of_mem _ hb')⟩

theorem Child.Chooses.of_done {child : Child} {m : Node} (h : child.Chooses k done m)
    (hdone : ∀ u ∈ m.leaves, done' u → done u) : child.Chooses k done' m := by
  cases child with
  | running entry process => exact Process.Chooses.of_done h hdone
  | refused | ended | cancelled => trivial

end

/-- No units of both arms have been executed of conditionals in the node of a process. -/
theorem Process.Chooses.exclusive {p : Process} (h : p.Chooses k done node) :
    node.Exclusive k done := by
  obtain ⟨serial, walk, activity⟩ := p
  obtain ⟨hwalk, hbelow, hactivity⟩ := h
  refine Node.exclusive_of_parts ?_ hbelow
  cases activity with
  | poised next =>
    cases next with
    | advance => exact hwalk.exclusive_of_le hactivity.2 (Nat.le_succ _)
    | execute u resume => exact hwalk.exclusive_of_le (Walk.Works.past hactivity) (Nat.le_succ _)
    | fork anchor branches resume =>
      obtain ⟨nodes, start, hgroup, -, -, hpast⟩ := hactivity
      exact hwalk.exclusive_of_atGroup hgroup (hpast.mono (Nat.le_add_right _ _))
    | finish => exact hactivity
  | queued => exact hwalk.exclusive_of_le (Walk.Works.past hactivity) (Nat.le_succ _)
  | working job | asleep job | calling job =>
    exact hwalk.exclusive_of_le (Walk.Works.past hactivity)
      (Nat.add_le_add_left job.stage.counted_le _)
  | inPlace => exact hactivity.elim
  | forking =>
    obtain ⟨start, started, waiting, hgroup, -, hpast, -⟩ := hactivity
    exact hwalk.exclusive_of_atGroup hgroup hpast

end

/-! ## At the beginning -/

section

variable {k : Routers} {done : String → Prop} {node : Node}

theorem Node.IsNormal.reaches_zero (h : node.IsNormal) : node.Reaches 0 := by
  obtain ⟨work, arms, hwork, hstands⟩ := h.exists_first 0 none
  exact .inr ⟨work, arms, hwork, hstands⟩

theorem Walk.past_of_none {w : Walk} (hsequence : w.plan.sequence = node.leaves)
    (hnone : ∀ u ∈ node.leaves, ¬ done u) (reach : Nat) : w.Past done reach := by
  intro position u hunit hdone
  refine absurd hdone (hnone u ?_)
  rw [← hsequence]
  exact List.mem_of_getElem? hunit

/-- A process at the start of the plan of a node, of which nothing has been executed. -/
theorem Process.chooses_ofPlan {plan : Plan} (hnormal : node.IsNormal) (hnodup : node.leaves.Nodup)
    (hplan : node.compile? = some plan) (hnone : ∀ u ∈ node.leaves, ¬ done u) (serial : Nat)
    (pooled : Bool) : (Process.ofPlan serial plan pooled).Chooses k done node := by
  have hwalk : ({ plan := plan, pooled := pooled } : Walk).Chooses k node :=
    .of_compile hnormal hnodup hplan rfl rfl rfl
  exact ⟨hwalk, Node.exclusiveBelow_of_none hnone, hnormal.reaches_zero,
    Walk.past_of_none hwalk.sequence hnone _⟩

/-- A process that executes a unit and nothing else, seen as one of the plan that is the unit. -/
theorem Process.chooses_ofUnit {u : String} (hnormal : node.IsNormal) (hnodup : node.leaves.Nodup)
    (hplan : node.compile? = some (.ofUnit u)) (hnone : ∀ u ∈ node.leaves, ¬ done u)
    (serial : Nat) : (Process.ofUnit serial u).Chooses k done node := by
  have hwalk : ({ plan := .ofUnit u, pooled := false } : Walk).Chooses k node :=
    .of_compile hnormal hnodup hplan rfl rfl rfl
  obtain rfl : node = .unit u := hnormal.eq_unit hwalk.sequence.symm
  refine ⟨hwalk, Node.exclusiveBelow_of_none hnone, .inr rfl, ⟨⟨none, .self⟩, ?_⟩,
    Walk.past_of_none hwalk.sequence hnone _⟩
  rintro ⟨span, hmem, -⟩
  cases hmem

end

/-! ## What happens to routers -/

/-- The router whose choice a walk is about to pass over: the last unit of an arm that it skips, of a
group whose anchor has failed, or of a group that has failed and does not end the walk. -/
def Process.passes? (tolerant : Bool) : Process → Option String
  | .mk _ walk (.poised .advance) => walk.passes?
  | .mk _ walk (.forking anchor (.group stop) [] children _) =>
    match Scene.joinFailure? anchor children with
    | some failure =>
      if children.all Child.isOver && Walk.survivesGroup tolerant failure then
        walk.plan.routerAt? (stop - 1)
      else none
    | none => none
  | _ => none

/-- The unit whose last call has succeeded, or the last unit of a group that is about to join, if it
has left the label `true`. -/
def Process.agrees? (scope : Scope) : Process → Option String
  | .mk _ _ (.working job .done) =>
    if job.stage = .after ∧ (scope.slots job.unitId).target = some (Label.text true) then
      some job.unitId
    else none
  | .mk _ walk (.forking anchor (.group stop) [] children _) =>
    if children.all Child.isOver ∧ Scene.joinFailure? anchor children = none then
      (walk.plan.unitAt? (stop - 1)).filter fun u =>
        (scope.slots u).target = some (Label.text true)
    else none
  | _ => none

/-- The unit that is passed over at a site. -/
def Site.passes? (site : Site) : Option String :=
  site.process.passes? site.run.context.tolerant

/-- The unit that ends at a site and has left the label `true`. -/
def Site.agrees? (site : Site) : Option String := site.process.agrees? site.run.scope

/-- What happens to a router at a site is known. -/
structure Site.Tells (k : Routers) (site : Site) : Prop where
  passed : ∀ u, site.passes? = some u → k.passed u
  agreed : ∀ u, site.agrees? = some u → k.agreed u

theorem Site.Tells.of_within {k : Routers} {site : Site} {serial : Nat}
    (h : (site.within serial).Tells k) : site.Tells k := by
  obtain ⟨hpassed, hagreed⟩ := h
  rw [Site.passes?, Site.process_within, Site.run_within] at hpassed
  rw [Site.agrees?, Site.process_within, Site.run_within] at hagreed
  exact ⟨hpassed, hagreed⟩

/-! ## Signals -/

namespace Scope

variable {s s' : Scope}

theorem Fades.target {u target : String} (h : s.Fades s')
    (htarget : (s'.slots u).target = some target) :
    (s.slots u).target = some target := by
  unfold Slots.target at htarget ⊢
  split at htarget
  · next value hroute =>
    cases htarget
    rw [h.route u _ hroute]
  · cases htarget

theorem Plain.fades (h : s.Plain) (hfades : s.Fades s') : s'.Plain :=
  ⟨fun u target htarget => h.route u target (hfades.target htarget),
    fun u entries hentries => h.fork u entries (hfades.entries hentries)⟩

theorem plain_empty : (∅ : Scope).Plain := by
  refine ⟨fun u target htarget => ?_, fun u entries hentries => ?_⟩
  · cases htarget
  · cases hentries

end Scope

/-- Units leave labels or ask for a stop, and fork nothing. -/
def Law.plain : Law where
  routes target := target = stopValue ∨ ∃ label : Label, target = label.text
  forks entries := entries = []

/-! ## One step at one walk -/

/-- The unit has been executed, as far as the run knows. -/
def RunState.Ran (r : RunState) (u : String) : Prop := r.hasRun u = true

namespace Scene

variable {k : Routers} {node : Node} {s s' : Scene} {task serial : Nat} {done : String → Prop}

theorem Gains.plain (h : Gains Law.plain s s') (hplain : s.run.scope.Plain) :
    s'.run.scope.Plain := by
  refine ⟨fun u target htarget => ?_, fun u entries hentries => ?_⟩
  · unfold Slots.target at htarget
    split at htarget
    · next value hroute =>
      cases htarget
      rcases h.route u _ hroute with hold | ⟨label, hlabel⟩ | ⟨target, _, _, hvalue, hlaw, _⟩
      · exact hplain.route u _ (by rw [Slots.target, hold])
      · cases hlabel
        exact .inr ⟨label, rfl⟩
      · cases hvalue
        exact hlaw
    · cases htarget
  · exact (h.entries hentries).elim (hplain.fork u entries) id

theorem chooses_turn {t : Turn} (hbelow : node.ExclusiveBelow k done)
    (ht : t.Chooses k done node) : ((s.turn t).process serial).Chooses k done node :=
  ⟨ht.walk, hbelow, ht.next⟩

theorem Does.ran_eq {job : Job} {behavior rest : Behavior} {run : RunState} {e : Engine}
    (h : s.Does task serial job behavior rest run e) : run.Ran = s.run.Ran := by
  cases h <;> rfl

theorem ran_append {r : RunState} {u name v : String} :
    RunState.Ran { r with executed := r.executed ++ [(u, name)] } v ↔ r.Ran v ∨ v = u := by
  simp only [RunState.Ran, RunState.hasRun, List.any_append, List.any_cons, List.any_nil,
    Bool.or_false, Bool.or_eq_true, decide_eq_true_eq]
  exact or_congr_right eq_comm

/-- The first call of a unit has succeeded, and the unit counts as executed. -/
theorem chooses_runs {w : Walk} {u : String} {resume : Resume} {done' : String → Prop}
    (hwalk : w.Chooses k node) (hbelow : node.ExclusiveBelow k done)
    (hworks : w.Works done node u resume w.position) (hdone : ∀ v, done' v → done v ∨ v = u) :
    node.ExclusiveBelow k done' ∧ w.Works done' node u resume (w.position + 1) := by
  obtain ⟨hresume, ⟨⟨arms, hstands⟩, hopen⟩, hpast⟩ := hworks
  have hwork : (Node.unit u).IsWork := trivial
  have hgrow : ∀ v, done' v → done v ∨ v ∈ (Node.unit u).leaves := fun v hv =>
    (hdone v hv).imp_right List.mem_singleton.mpr
  refine ⟨hwalk.below_grow hwork hstands hbelow hgrow nofun, hresume, ⟨⟨arms, hstands⟩, hopen⟩, ?_⟩
  exact hwalk.past_grow hwork hstands hopen (hpast.mono (Nat.le_succ _)) (Nat.le_refl _) hgrow

/-- The parts of a group that branches are to run. -/
theorem two_le_of_runs {w : Walk} {nodes : List Node} {start : Nat} {branches : List (Branch Plan)}
    (hwalk : w.Chooses k node) (hgroup : w.AtGroup node nodes start)
    (hruns : List.Forall₂ Branch.Runs branches nodes) : 2 ≤ branches.length := by
  obtain ⟨arms, hstands⟩ := hgroup.stands
  rw [hruns.length_eq]
  cases hstands.normal hwalk.normal with
  | parallel htwo _ => exact htwo

/-- Of a group that a walk has come to, nothing has been executed. -/
theorem none_of_past {w : Walk} {nodes : List Node} {start : Nat} (hwalk : w.Chooses k node)
    (hgroup : w.AtGroup node nodes start) (hpast : w.Past done start) :
    ∀ u ∈ Node.leavesOf nodes, ¬ done u := by
  intro u hu hdone
  obtain ⟨arms, hstands⟩ := hgroup.stands
  obtain ⟨position, hge, -, hunit⟩ := hwalk.exists_position hstands hu
  exact absurd (hpast position u hunit hdone).1 (Nat.not_lt.mpr hge)

/-- One more branch of a fork has been started, or refused. -/
theorem chooses_started {w : Walk} {anchor : String} {resume : Resume} {branch : Branch Plan}
    {toStart : List (Branch Plan)} {children : List Child} {completed : List String} {child : Child}
    (hwalk : w.Chooses k node)
    (h : (Activity.forking anchor resume (branch :: toStart) children completed).Chooses k done w
      node)
    (hchild : ∀ b : Node, b.IsNormal → b.leaves.Nodup → b.compile? = some branch.plan →
      (∀ u ∈ b.leaves, ¬ done u) → child.Chooses k done b) :
    (Activity.forking anchor resume toStart (children ++ [child]) completed).Chooses k done w
      node := by
  obtain ⟨start, started, waiting, hgroup, hresume, hpast, hchildren, hruns, hnone⟩ := h
  cases hruns with
  | @cons _ b _ others hbranch hruns =>
    obtain ⟨arms, hstands⟩ := hgroup.stands
    have hnormal : b.IsNormal := by
      cases hstands.normal hwalk.normal with
      | parallel _ hall => exact hall b (by simp)
    have hnodup : b.leaves.Nodup := by
      have hall := hwalk.nodup_group hstands
      rw [Node.leavesOf_eq_flatMap, List.nodup_flatMap] at hall
      exact hall.1 b (by simp)
    have hsplit : started ++ b :: others = (started ++ [b]) ++ others := by simp
    rw [hsplit] at hgroup hresume hpast
    refine ⟨start, started ++ [b], others, hgroup, hresume, hpast, ?_, hruns,
      fun u hu => hnone u (List.mem_append_right _ hu)⟩
    refine Child.chooseAll_append.mpr ⟨started, [b], rfl, hchildren, b, [], rfl, ?_, rfl⟩
    exact hchild b hnormal hnodup hbranch.plan fun u hu => hnone u (List.mem_append_left _ hu)

theorem context_publish (r : RunState) (result : Option Failure) (completed : List String) :
    (r.publish result completed).context = r.context := by
  unfold RunState.publish
  split <;> rfl

theorem ran_close (s : Scene) (task serial : Nat) (anchor : String) (resume : Resume)
    (result : Option Failure) (completed : List String) :
    (s.close task serial anchor resume result completed).run.Ran = s.run.Ran := by
  show (s.run.publish result completed).Ran = s.run.Ran
  unfold RunState.publish
  split <;> rfl

/-- The branches of a fork are over, and the walk goes on. -/
theorem chooses_close {anchor : String} {children : List Child} {completed : List String}
    {resume : Resume} (hwalk : s.walk.Chooses k node) (hbelow : node.ExclusiveBelow k done)
    (h : (Activity.forking anchor resume [] children completed).Chooses k done s.walk node)
    (hactivity : s.activity = .forking anchor resume [] children completed)
    (hover : children.all Child.isOver = true) (hplain : s.run.scope.Plain)
    (htells : Site.Tells k (.here (s.process serial) s.run)) :
    ((s.close task serial anchor resume (joinFailure? anchor children) completed).process
      serial).Chooses k done node := by
  obtain ⟨start, started, waiting, hgroup, rfl, hpast, -⟩ := h
  obtain ⟨hpassed, hagreed⟩ := htells
  have hfades := fades_run_publish s.run (joinFailure? anchor children) completed
  refine chooses_turn hbelow (hwalk.groupDone hgroup hpast (hplain.fades hfades) ?_ ?_ _)
  · intro failure u hresult hsurvives hrouter
    refine hpassed u ?_
    show Process.passes? _ (.mk serial s.walk s.activity) = some u
    rw [hactivity]
    simp only [context_publish] at hsurvives
    simp only [Process.passes?, hresult, hover, Bool.true_and]
    exact (if_pos hsurvives).trans hrouter
  · intro hresult u hunit htarget
    refine hagreed u ?_
    show Process.agrees? _ (.mk serial s.walk s.activity) = some u
    rw [hactivity, Process.agrees?, if_pos ⟨hover, hresult⟩, hunit]
    exact Option.filter_eq_some_iff.mpr ⟨rfl, decide_eq_true (hfades.target htarget)⟩

/-- The calls of a unit are over, and the walk goes on. -/
theorem chooses_unitEnded {u : String} {resume : Resume} {reach : Nat} (result : Option Mishap)
    (hwalk : s.walk.Chooses k node) (hbelow : node.ExclusiveBelow k done)
    (hworks : s.walk.Works done node u resume reach) (hreach : reach ≤ s.walk.position + 1)
    (hplain : s.run.scope.Plain)
    (hagreed : result = none → (s.run.scope.slots u).target = some (Label.text true) → k.agreed u) :
    ((s.unitEnded task serial u resume result).process serial).Chooses k done node :=
  chooses_turn hbelow
    (hwalk.unitDone hworks.resume hworks.unit (hworks.past.mono hreach) hplain hagreed _ _)

/-- Whatever a walk does where it stands, its process goes on working on the node. What has been
executed by that is a unit of the node. -/
theorem Steps.chooses (h : s.Steps task serial s')
    (hchooses : (s.process serial).Chooses k s.run.Ran node) (hplain : s.run.scope.Plain)
    (hengine : s.engine.Abides Law.plain)
    (htells : Site.Tells k (.here (s.process serial) s.run)) :
    (s'.process serial).Chooses k s'.run.Ran node ∧
      ∀ v, s'.run.Ran v → s.run.Ran v ∨ v ∈ node.leaves := by
  obtain ⟨hwalk, hbelow, hactivity⟩ := hchooses
  have hsame : ∀ v, s.run.Ran v → s.run.Ran v ∨ v ∈ node.leaves := fun _ => .inl
  cases h with
  | advance h =>
    rw [h] at hactivity
    obtain ⟨hreaches, hpast⟩ := hactivity
    refine ⟨chooses_turn hbelow (hwalk.advance hreaches hpast (fun u hu => ?_) _ _), hsame⟩
    refine htells.passed u ?_
    show Process.passes? _ (.mk serial s.walk s.activity) = some u
    rwa [h]
  | missing h =>
    rw [h] at hactivity
    exact ⟨chooses_unitEnded _ hwalk hbelow hactivity (Nat.le_succ _) hplain nofun, hsame⟩
  | queues h | begins h | granted h =>
    rw [h] at hactivity
    exact ⟨⟨hwalk, hbelow, hactivity⟩, hsame⟩
  | does h hdoes =>
    rw [h] at hactivity
    simp only [hdoes.ran_eq]
    exact ⟨⟨hwalk, hbelow, hactivity⟩, hsame⟩
  | sleeps h | wakes h | opens h =>
    rw [h] at hactivity
    exact ⟨⟨hwalk, hbelow, hactivity⟩, hsame⟩
  -- only here something comes to be executed: the unit at the position, which is in the arm that
  -- the walk has taken
  | @runs job h hstage =>
    rw [h, Activity.Chooses, hstage] at hactivity
    obtain ⟨hbelow', hworks⟩ := chooses_runs hwalk hbelow hactivity fun v => ran_append.mp
    refine ⟨⟨hwalk, hbelow', hworks⟩, fun v hv => ?_⟩
    refine (ran_append.mp hv).imp_right fun heq => ?_
    rw [heq]
    exact hwalk.mem_leaves hactivity.unit
  | tidies h hstage =>
    rw [h, Activity.Chooses, hstage] at hactivity
    exact ⟨⟨hwalk, hbelow, hactivity⟩, hsame⟩
  | @ends job h hstage =>
    rw [h] at hactivity
    have hworks : s.walk.Works _ node _ _ _ := hactivity
    have hfades := (fades_announce hengine task serial job .after none).1
    rw [endUnit_eq]
    refine ⟨chooses_unitEnded none hwalk hbelow hworks (Nat.add_le_add_left (Stage.counted_le _) _)
      (hplain.fades hfades) fun _ htarget => ?_, hsame⟩
    -- that the unit has left the label `true` is told of it before its walk reads the label
    refine htells.agreed job.unitId ?_
    show Process.agrees? _ (.mk serial s.walk s.activity) = some job.unitId
    rw [h, Process.agrees?, if_pos ⟨hstage, hfades.target htarget⟩]
  | @fails job behavior cause h hfails hstage =>
    rw [h] at hactivity
    have hworks : s.walk.Works _ node _ _ _ := hactivity
    refine ⟨⟨hwalk, hbelow, hworks.resume, hworks.unit, hworks.past.mono ?_⟩, hsame⟩
    exact Nat.add_le_add_left (Stage.counted_le _) _
  | @gaveUp job _ failure h =>
    rw [h] at hactivity
    have hworks : s.walk.Works _ node _ _ _ := hactivity
    have hfades := (fades_announce hengine task serial job .error (some failure)).1
    rw [endUnit_eq]
    exact ⟨chooses_unitEnded _ hwalk hbelow hworks (Nat.add_le_add_left (Stage.counted_le _) _)
      (hplain.fades hfades) nofun, hsame⟩
  | forksNone h =>
    rw [h] at hactivity
    obtain ⟨nodes, start, hgroup, -, hruns, -⟩ := hactivity
    -- a group has two branches or more
    exact absurd (two_le_of_runs hwalk hgroup hruns) (by simp)
  | forksOne h =>
    rw [h] at hactivity
    obtain ⟨nodes, start, hgroup, -, hruns, -⟩ := hactivity
    exact absurd (two_le_of_runs hwalk hgroup hruns) (by simp)
  | forks h =>
    rw [h] at hactivity
    obtain ⟨nodes, start, hgroup, hresume, hruns, hpast⟩ := hactivity
    exact ⟨⟨hwalk, hbelow, start, [], nodes, hgroup, hresume, hpast.mono (Nat.le_add_right _ _),
      rfl, hruns, none_of_past hwalk hgroup hpast⟩, hsame⟩
  | starts h =>
    rw [h] at hactivity
    refine ⟨⟨hwalk, hbelow, chooses_started hwalk hactivity fun b hnormal hnodup hplan hnone => ?_⟩,
      hsame⟩
    exact Process.chooses_ofPlan hnormal hnodup hplan hnone s.engine.nextSerial true
  | refuses h =>
    rw [h] at hactivity
    exact ⟨⟨hwalk, hbelow, chooses_started hwalk hactivity fun _ _ _ _ _ => trivial⟩, hsame⟩
  | joins h hover =>
    have hchildren := hactivity
    rw [h] at hchildren
    rw [ran_close]
    exact ⟨chooses_close hwalk hbelow hchildren h hover hplain htells, hsame⟩

end Scene

/-! ## Steps in a tree -/

namespace Process

variable {k : Routers} {node : Node} {done : String → Prop} {who task serial : Nat} {p p' : Process}
  {run run' : RunState} {e e' : Engine} {site : Site} {walk : Walk} {anchor : String}
  {resume : Resume} {toStart : List (Branch Plan)} {before after : List Child} {child : Child}
  {completed : List String}

/-- A branch of a fork works on a branch of a group, and may be exchanged for another one that does.
What is executed by that is nothing to the other branches. -/
theorem chooses_child
    (h : (mk serial walk (.forking anchor resume toStart (before ++ child :: after)
      completed)).Chooses k done node) :
    ∃ b, child.Chooses k done b ∧ b.leaves ⊆ node.leaves ∧
      ∀ (child' : Child) (completed' : List String) (done' : String → Prop),
        (∀ v, done' v → done v ∨ v ∈ b.leaves) → child'.Chooses k done' b → b.Exclusive k done' →
        (mk serial walk (.forking anchor resume toStart (before ++ child' :: after)
          completed')).Chooses k done' node := by
  obtain ⟨hwalk, hbelow, start, started, waiting, hgroup, hresume, hpast, hchildren, hruns, hnone⟩ :=
    h
  obtain ⟨first, others, rfl, hfirst, b, last, rfl, hchild, hlast⟩ :=
    Child.chooseAll_append.mp hchildren
  have hsplit : (first ++ b :: last) ++ waiting = first ++ b :: (last ++ waiting) := by simp
  rw [hsplit] at hgroup hresume hpast
  obtain ⟨arms, hstands⟩ := hgroup.stands
  have hwork : (Node.parallel (first ++ b :: (last ++ waiting))).IsWork := trivial
  have hmem : b ∈ first ++ b :: (last ++ waiting) := by simp
  refine ⟨b, hchild, fun u hu => hstands.isWithin.leaves_subset (Node.mem_leavesOf hmem hu), ?_⟩
  intro child' completed' done' hgrow hchild' hexclusive
  -- branches share no unit
  have hnodup := hwalk.nodup_group hstands
  rw [Node.leavesOf_eq_flatMap] at hnodup
  have hothers : ∀ b', b' ∈ first ∨ b' ∈ last ++ waiting → ∀ u ∈ b'.leaves, done' u → done u :=
    fun b' hb' u hu hnew =>
      (hgrow u hnew).resolve_right (not_mem_of_nodup_flatMap hnodup hb' hu)
  have hgrowGroup : ∀ v, done' v →
      done v ∨ v ∈ (Node.parallel (first ++ b :: (last ++ waiting))).leaves :=
    fun v hv => (hgrow v hv).imp_right (Node.mem_leavesOf hmem)
  refine ⟨hwalk, hwalk.below_grow hwork hstands hbelow hgrowGroup ?_, start, first ++ b :: last,
    waiting, ?_⟩
  · rintro _ ⟨⟩ b' hb'
    have hold := hbelow _ start arms hstands b' hb'
    rcases List.mem_append.mp hb' with hin | hin
    · exact hold.mono (hothers b' (.inl hin))
    · rcases List.mem_cons.mp hin with rfl | hin
      · exact hexclusive
      · exact hold.mono (hothers b' (.inr hin))
  · rw [hsplit]
    refine ⟨hgroup, hresume,
      hwalk.past_grow hwork hstands hgroup.opened hpast (Nat.le_refl _) hgrowGroup,
      Child.chooseAll_append.mpr ⟨first, b :: last, rfl, ?_, b, last, rfl, hchild', ?_⟩, hruns, ?_⟩
    · exact hfirst.of_done fun b' hb' => hothers b' (.inl hb')
    · exact hlast.of_done fun b' hb' => hothers b' (.inr (List.mem_append_left _ hb'))
    · intro u hu hnew
      rw [Node.leavesOf_eq_flatMap] at hu
      obtain ⟨b', hb', hu⟩ := List.mem_flatMap.mp hu
      refine hnone u (Node.mem_leavesOf hb' hu) ?_
      exact hothers b' (.inr (List.mem_append_right _ hb')) u hu hnew

/-- Whatever a task does in a process, the process goes on working on its node. What has been
executed by that is a unit of the node. -/
theorem Moves.chooses (h : p.Moves who site task run e p' run' e')
    (hchooses : p.Chooses k run.Ran node) (hplain : run.scope.Plain) (hengine : e.Abides Law.plain)
    (htells : site.depth = 0 → site.Tells k) :
    p'.Chooses k run'.Ran node ∧ ∀ v, run'.Ran v → run.Ran v ∨ v ∈ node.leaves := by
  induction h generalizing node with
  | here h => exact h.chooses hchooses hplain hengine (htells rfl)
  | called => exact ⟨hchooses, fun _ => .inl⟩
  | returned => exact ⟨hchooses, fun _ => .inl⟩
  | inPlace | inPlaceEnded =>
    obtain ⟨-, -, hactivity⟩ := hchooses
    exact hactivity.elim
  | child _ _ _ ih =>
    obtain ⟨b, hchild, hleaves, hexchange⟩ := chooses_child hchooses
    rw [Site.depth_within] at htells
    obtain ⟨hbranch, hgrow⟩ := ih hchild hplain hengine fun hdepth => (htells hdepth).of_within
    exact ⟨hexchange _ _ _ hgrow hbranch hbranch.exclusive,
      fun v hv => (hgrow v hv).imp_right (@hleaves v)⟩
  | childEnded _ _ _ _ ih =>
    obtain ⟨b, hchild, hleaves, hexchange⟩ := chooses_child hchooses
    rw [Site.depth_within] at htells
    obtain ⟨hbranch, hgrow⟩ := ih hchild hplain hengine fun hdepth => (htells hdepth).of_within
    exact ⟨hexchange _ _ _ hgrow trivial hbranch.exclusive,
      fun v hv => (hgrow v hv).imp_right (@hleaves v)⟩

/-- A process that has given up its branches still works on its node. -/
theorem Chooses.cancelTasks (h : p.Chooses k done node) : p.cancelTasks.Chooses k done node := by
  obtain ⟨serial, walk, activity⟩ := p
  obtain ⟨hwalk, hbelow, hactivity⟩ := h
  refine ⟨hwalk, hbelow, ?_⟩
  cases activity with
  | poised | queued | working | asleep | calling => exact hactivity
  | inPlace => exact hactivity.elim
  | forking anchor resume toStart children completed =>
    obtain ⟨start, started, waiting, hgroup, hresume, hpast, hchildren, hruns, hnone⟩ := hactivity
    refine ⟨start, started, waiting, hgroup, hresume, hpast, ?_, hruns, hnone⟩
    exact hchildren.map_cancel

/-- Each of the walks of a process takes one arm of each conditional of its part of the node. -/
theorem Chooses.crew {q : Process} (h : p.Chooses k done node) (hq : q ∈ p.crew) :
    ∃ part, part.Within node ∧ q.walk.Chooses k part := by
  induction p using induction_runs generalizing node with
  | h serial walk activity ih =>
    obtain ⟨hwalk, hbelow, hactivity⟩ := h
    rcases mem_crew.mp hq with rfl | ⟨branch, hbranch, hin⟩
    · exact ⟨node, .self, hwalk⟩
    · cases activity with
      | inPlace => exact hactivity.elim
      | poised | queued | working | asleep | calling => exact hbranch.elim
      | forking anchor resume toStart children completed =>
        obtain ⟨start, started, waiting, hgroup, -, -, hchildren, -⟩ := hactivity
        obtain ⟨arms, hstands⟩ := hgroup.stands
        obtain ⟨entry, hmem⟩ := hbranch
        obtain ⟨b, hb, hchild⟩ := hchildren.exists_node hmem
        obtain ⟨part, hpart, hchooses⟩ := ih branch ⟨entry, hmem⟩ hchild hin
        exact ⟨part, hpart.trans (.trans (.branch (List.mem_append_left _ hb) .self)
          hstands.isWithin), hchooses⟩

end Process

/-! ## Runs -/

/-- In a run, only labels and stops are signalled, and if its plan is that of a node, its root works
on the node. The routers are those of all runs, told apart by the numbers of the roots. -/
structure Run.Chooses (k : Nat → Routers) (f : Run) : Prop where
  plain : f.state.scope.Plain
  root : ∀ node : Node, node.IsNormal → node.leaves.Nodup →
    node.compile? = some f.root.walk.plan → f.root.Chooses (k f.root.serial) f.state.Ran node

/-- Nothing has been executed yet in a run that has just been started. -/
theorem Run.AtStart.not_ran {f : Run} {serial : Nat} (h : f.AtStart serial) (u : String) :
    ¬ f.state.Ran u := by
  intro hran
  rw [RunState.Ran, RunState.hasRun, h.executed] at hran
  cases hran

theorem Run.AtStart.chooses {k : Nat → Routers} {f : Run} {serial : Nat} (h : f.AtStart serial) :
    f.Chooses k := by
  have hnone := h.not_ran
  refine ⟨h.scope ▸ Scope.plain_empty, fun node hnormal hnodup hplan => ?_⟩
  rcases h.root with ⟨plan, pooled, hroot⟩ | ⟨u, hroot⟩
  · rw [hroot] at hplan ⊢
    exact Process.chooses_ofPlan hnormal hnodup hplan (fun u _ => hnone u) serial pooled
  · rw [hroot] at hplan ⊢
    exact Process.chooses_ofUnit hnormal hnodup hplan (fun u _ => hnone u) serial

namespace Executor

variable {start last x y : Executor} {past : List (Executor × Move)} {m : Move} {f : Run}
  {k : Nat → Routers} {number : Nat} {u : String}

/-- What is read off the site at which a move is made, with the number of the root of its run. -/
def told (x : Executor) (read : Site → Option String) : Move → List (Nat × String)
  | .step who => (List.range x.runs.length).flatMap fun i => (x.sites i who).filterMap fun site =>
    site.walks.head?.bind fun number => (read site).map (number, ·)
  | .wait _ | .launch .. | .beginShutdown | .settleShutdown => []

/-- What has become of the routers of a run by the moves of a history. The run is that whose root
has the number. -/
def routers (past : List (Executor × Move)) (number : Nat) : Routers where
  passed u := ∃ x m, (x, m) ∈ past ∧ (number, u) ∈ x.told Site.passes? m
  agreed u := ∃ x m, (x, m) ∈ past ∧ (number, u) ∈ x.told Site.agrees? m

theorem mem_told {read : Site → Option String} {i who : Nat} {site : Site} (hat : x.At i who site)
    (hnumber : site.walks.head? = some number) (hread : read site = some u) :
    (number, u) ∈ x.told read (.step who) := by
  obtain ⟨run, hrun, -⟩ := id hat
  refine List.mem_flatMap.mpr ⟨i, List.mem_range.mpr (List.getElem?_eq_some_iff.mp hrun).1, ?_⟩
  exact List.mem_filterMap.mpr ⟨site, mem_sites_of_at hat, by rw [hnumber, hread]; rfl⟩

/-- Every move keeps it like this. -/
theorem chooses_move (hfits : x.Fits) (habides : x.Abides Law.plain) (hmem : (x, m) ∈ past)
    (h : ∀ f ∈ x.flows, f.Chooses (routers past)) (hmove : x.move m = some y) :
    ∀ f ∈ y.flows, f.Chooses (routers past) := by
  intro f hf
  rcases flow_cases hmove hf with hold | hstart |
    ⟨who, rfl, g, hg, site, task, e, i, depth, hmoves, hat⟩ | ⟨g, hg, rfl⟩
  · exact h f hold
  · exact hstart.chooses
  · obtain ⟨run, hrun, hhas⟩ := has_root hg
    have hfitsRoot := (hfits run hrun).of_has hhas
    have habidesRoot := (habides.runs run hrun).of_has hhas
    obtain ⟨hplain, hroot⟩ := h g hg
    have hgains := hmoves.gains (P := fun r => r.scope.Plain) (fun _ _ => Scene.Gains.plain)
    refine ⟨hgains hfitsRoot habidesRoot habides.engine hplain, ?_⟩
    intro node hnormal hnodup hcompile
    rw [hmoves.plan hfitsRoot] at hcompile
    rw [hmoves.serial]
    have hworks := hroot node hnormal hnodup hcompile
    refine (hmoves.chooses hworks hplain habides.engine fun hdepth => ?_).1
    have hnumber := hmoves.at.1.head?_walks hdepth
    exact ⟨fun u hu => ⟨x, _, hmem, mem_told hat hnumber hu⟩,
      fun u hu => ⟨x, _, hmem, mem_told hat hnumber hu⟩⟩
  · obtain ⟨hplain, hroot⟩ := h g hg
    refine ⟨hplain, fun node hnormal hnodup hplan => ?_⟩
    rw [Process.walk_cancelTasks] at hplan
    rw [Process.serial_cancelTasks]
    exact (hroot node hnormal hnodup hplan).cancelTasks

/-- One arm of each conditional, in every schedule. Of a flow whose units signal nothing but labels
and stops, no units of both arms of a conditional are executed in one run, and every walk that is
behind the condition of a conditional that it has entered walks one arm and skips the other one; the
first arm it walks only if the last unit of the condition has left the label `true`. A conditional
is left out if a walk of the run has passed over the choice between its arms. -/
theorem History.one_arm {config : Config} {registry : Registry} {listeners : Listeners}
    {text : String} {node : Node} (hbuild : build config registry listeners = .ok start)
    (hregistry : registry.Abides Law.plain) (hlisteners : listeners.Abide)
    (hparse : Expression.parse text = .ok node) (hnodup : node.leaves.Nodup)
    (h : start.History past last) (hf : f ∈ last.flows)
    (hplan : node.compile? = some f.root.walk.plan) :
    node.Exclusive (routers past f.root.serial) f.state.Ran ∧
      ∀ q ∈ f.root.crew, ∃ part, part.Within node ∧ part.compile? = some q.walk.plan ∧
        ∀ c t e i behind, Node.Stands (.conditional c t e) i behind part 0 none →
          c.Routed (routers past f.root.serial) → i + c.width ≤ q.walk.position →
          ¬ q.walk.Skips i → q.walk.WalksOneArm (routers past f.root.serial) c t e i := by
  obtain ⟨hfits, -⟩ := sound_build hbuild
  have hinvariant : last.Fits ∧ last.Abides Law.plain ∧
      ∀ f ∈ last.flows, f.Chooses (routers past) := by
    refine h.invariant (P := fun x => x.Fits ∧ x.Abides Law.plain ∧
      ∀ f ∈ x.flows, f.Chooses (routers past))
      ⟨hfits, abides_build hbuild hregistry hlisteners, ?_⟩ ?_
    · rw [flows_build hbuild]
      exact fun f hf => by cases hf
    · rintro x m y hmem ⟨hfits, habides, hchooses⟩ hmove
      exact ⟨hfits.move hmove, habides.move hmove, chooses_move hfits habides hmem hchooses hmove⟩
  obtain ⟨-, -, hchooses⟩ := hinvariant
  have hroot := (hchooses f hf).root node (Expression.isNormal_of_parse hparse) hnodup hplan
  refine ⟨hroot.exclusive, fun q hq => ?_⟩
  obtain ⟨part, hpart, hwalk⟩ := hroot.crew hq
  exact ⟨part, hpart, hwalk.plan, fun c t e i behind => hwalk.walksOneArm⟩

/-- A condition that ends in a conditional. Its unit leaves no label, so that both times the second
arm is walked. -/
theorem History.one_arm_nested : ∃ (past : List (Executor × Move)) (last : Executor) (f : Run),
    (doing [("r", .done), ("a", .done), ("b", .done), ("c", .done), ("d", .done)]).History past
        last ∧
      f ∈ last.flows ∧ f.state.unitNames = ["r", "b", "d"] ∧
      (Node.conditional (.unit "r") (.unit "a") (.unit "b")).Routed (routers past f.root.serial) ∧
      ¬ (f.state.Ran "c" ∧ f.state.Ran "d") ∧
      ∀ q ∈ f.root.crew, ∃ part, part.compile? = some q.walk.plan ∧
        ∀ c t e i behind, Node.Stands (.conditional c t e) i behind part 0 none →
          c.Routed (routers past f.root.serial) → i + c.width ≤ q.walk.position →
          ¬ q.walk.Skips i → q.walk.WalksOneArm (routers past f.root.serial) c t e i := by
  let units : List (String × Behavior) :=
    [("r", .done), ("a", .done), ("b", .done), ("c", .done), ("d", .done)]
  let condition : Node := .conditional (.unit "r") (.unit "a") (.unit "b")
  let node : Node := .conditional condition (.unit "c") (.unit "d")
  let plan := node.compile?.getD {}
  let moves : List Move := .launch (.plan plan) {} :: List.replicate 40 (.step 0)
  let past := ((doing units).follow moves).1
  let last := ((doing units).follow moves).2
  have hparse : Expression.parse "(r ? a : b) ? c : d" = .ok node := by decide +kernel
  obtain ⟨f, hf, hserial, hunits, hp, hq, hsequence, htargets, hentries, hchoices⟩ :
      ∃ f ∈ last.flows, f.root.serial = 0 ∧ f.state.unitNames = ["r", "b", "d"] ∧
        plan.groups.keys = [] ∧ f.root.walk.plan.groups.keys = [] ∧
        plan.sequence = f.root.walk.plan.sequence ∧ plan.targets = f.root.walk.plan.targets ∧
        plan.entries = f.root.walk.plan.entries ∧ plan.choices = f.root.walk.plan.choices := by
    decide +kernel
  have hmet : ∀ e ∈ past, (0, "b") ∉ e.1.told Site.passes? e.2 := by decide +kernel
  have hplan : node.compile? = some f.root.walk.plan := by
    rw [← Plan.eq_of_flat hp hq hsequence htargets hentries hchoices]
    rfl
  have hrouted : condition.Routed (routers past f.root.serial) := by
    rintro u hu ⟨x, m, hmem, htold⟩
    obtain rfl : "b" = u := Option.some.inj hu
    rw [hserial] at htold
    exact hmet (x, m) hmem htold
  have hregistry : (units.foldl (fun r u => r.addUnit u.1 (.doing u.1 u.2)) ({} : Registry)).Abides
      Law.plain :=
    Registry.abides_foldl_doing (by simpa [units] using Behavior.Abides.done) nofun
  have hpast : (doing units).History past last := history_follow _ moves
  clear_value past last
  obtain ⟨hexclusive, hwalks⟩ := History.one_arm (build_doing units) hregistry nofun hparse
    (by decide) hpast hf hplan
  refine ⟨past, last, f, hpast, hf, hunits, hrouted, ?_, fun q hq => ?_⟩
  · exact hexclusive condition (.unit "c") (.unit "d") .self hrouted "c" (by decide) "d" (by decide)
  · obtain ⟨part, -, hcompile, hone⟩ := hwalks q hq
    exact ⟨part, hcompile, hone⟩

/-- The same flow, when its unit leaves the label `true`. The walk skips the arm at the end of the
condition, and so it does not come to where it would choose between the arms behind. It walks
both. -/
theorem walks_both_arms : ∃ (past : List (Executor × Move)) (last : Executor) (f : Run),
    (doing [("r", .signalRoute "true" .done), ("a", .done), ("b", .done), ("c", .done),
        ("d", .done)]).History past last ∧
      f ∈ last.flows ∧ f.state.unitNames = ["r", "a", "c", "d"] ∧ f.state.Ran "c" ∧
      f.state.Ran "d" ∧ (routers past f.root.serial).passed "b" ∧
      Node.compile? (.conditional (.conditional (.unit "r") (.unit "a") (.unit "b")) (.unit "c")
        (.unit "d")) = some f.root.walk.plan ∧
      f.result?.map Outcome.status = some .completed := by
  let units : List (String × Behavior) := [("r", .signalRoute "true" .done), ("a", .done),
    ("b", .done), ("c", .done), ("d", .done)]
  let node : Node := .conditional (.conditional (.unit "r") (.unit "a") (.unit "b")) (.unit "c")
    (.unit "d")
  let plan := node.compile?.getD {}
  let moves : List Move := .launch (.plan plan) {} :: List.replicate 40 (.step 0)
  let past := ((doing units).follow moves).1
  let last := ((doing units).follow moves).2
  obtain ⟨f, hf, hserial, hunits, hc, hd, hresult, hp, hq, hsequence, htargets, hentries,
      hchoices⟩ :
      ∃ f ∈ last.flows, f.root.serial = 0 ∧ f.state.unitNames = ["r", "a", "c", "d"] ∧
        f.state.hasRun "c" = true ∧ f.state.hasRun "d" = true ∧
        f.result?.map Outcome.status = some .completed ∧
        plan.groups.keys = [] ∧ f.root.walk.plan.groups.keys = [] ∧
        plan.sequence = f.root.walk.plan.sequence ∧ plan.targets = f.root.walk.plan.targets ∧
        plan.entries = f.root.walk.plan.entries ∧ plan.choices = f.root.walk.plan.choices := by
    decide +kernel
  obtain ⟨⟨x, m⟩, hmem, htold⟩ : ∃ e ∈ past, (0, "b") ∈ e.1.told Site.passes? e.2 := by
    decide +kernel
  refine ⟨past, last, f, history_follow _ moves, hf, hunits, hc, hd, ⟨x, m, hmem, ?_⟩, ?_, hresult⟩
  · rw [hserial]
    exact htold
  · rw [← Plan.eq_of_flat hp hq hsequence htargets hentries hchoices]
    rfl

end Executor

end Workflow
