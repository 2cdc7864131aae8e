import Workflow.Proofs.Run.Descent
import Workflow.Proofs.Run.Moves
import Workflow.Proofs.Run.Owes

/-!
# One step at one walk

A step at a walk that owes a debt pays some of it (`Scene.pays_stepHere`): what has been executed by
the step and what is still owed together are what was owed before, and the step is one on the way
down. Meanwhile the engine stays as the units need it (`Engine.Serves`), and so do the slots of all
units that the debt has nothing to do with (`Passes`).
-/

namespace Workflow

/-! ## What a step leaves as it is -/

/-- The engine has the units of the contract, its listeners keep away from their slots, and branches
can be started. -/
structure Engine.Serves (c : Contract) (e : Engine) : Prop where
  units : ∀ u ∈ c.kept, ∃ unit, e.registry.unit? u = some unit ∧ unit.Obeys c u
  quiet : e.listeners.Quiet c.kept
  isOpen : e.pool.closed = false

/-- From one state of a run to a later one. In between, the units in `emitted` were executed, and no
slots were touched but those of the units in `leaves`. -/
structure Passes (c : Contract) (leaves emitted : List String) (run : RunState) (e : Engine)
    (run' : RunState) (e' : Engine) : Prop where
  serves : e'.Serves c
  view : run'.view = c.view
  slots : ∀ v ∈ c.kept, v ∉ leaves → run'.scope.slots v = run.scope.slots v
  executed : run'.unitNames = run.unitNames ++ emitted
  serials : e.nextSerial ≤ e'.nextSerial

theorem Engine.Serves.of_eq {c : Contract} {e e' : Engine} (h : e.Serves c)
    (hregistry : e'.registry = e.registry) (hlisteners : e'.listeners = e.listeners)
    (hclosed : e'.pool.closed = e.pool.closed) : e'.Serves c where
  units := by rw [hregistry]; exact h.units
  quiet := by rw [hlisteners]; exact h.quiet
  isOpen := hclosed.trans h.isOpen

namespace Passes

variable {c : Contract} {leaves emitted : List String} {run run' : RunState} {e e' : Engine}

theorem refl (hserves : e.Serves c) (hview : run.view = c.view) :
    Passes c leaves [] run e run e where
  serves := hserves
  view := hview
  slots := fun _ _ _ => rfl
  executed := (List.append_nil _).symm
  serials := Nat.le_refl _

/-- The engine may do more, as long as it keeps serving. -/
theorem engine (h : Passes c leaves emitted run e run' e') (e'' : Engine) (hserves : e''.Serves c)
    (hserials : e'.nextSerial ≤ e''.nextSerial) : Passes c leaves emitted run e run' e'' :=
  ⟨hserves, h.view, h.slots, h.executed, Nat.le_trans h.serials hserials⟩

/-- The scope may change further, as long as the slots stay that must stay. -/
theorem scope (h : Passes c leaves emitted run e run' e') (scope : Scope)
    (hslots : ∀ v ∈ c.kept, v ∉ leaves → scope.slots v = run'.scope.slots v) :
    Passes c leaves emitted run e { run' with scope := scope } e' :=
  ⟨h.serves, h.view, fun v hv hnot => (hslots v hv hnot).trans (h.slots v hv hnot), h.executed,
    h.serials⟩

/-- Where fewer units are concerned, fewer slots are touched. -/
theorem mono {more : List String} (h : Passes c leaves emitted run e run' e')
    (hsubset : leaves ⊆ more) : Passes c more emitted run e run' e' :=
  ⟨h.serves, h.view, fun v hv hnot => h.slots v hv fun hmem => hnot (hsubset hmem), h.executed,
    h.serials⟩

end Passes

namespace Scene

variable {c : Contract} {debt : Debt} {run : RunState} {e : Engine} {task serial : Nat} {job : Job}
  {calls : Multiset Behavior.Rest} {leaves emitted : List String}

/-- After a step at a walk, some of its debt has been paid. -/
def Pays (c : Contract) (serial : Nat) (debt : Debt) (run : RunState) (e : Engine)
    (calls : Multiset Behavior.Rest) (s : Scene) : Prop :=
  ∃ emitted less, Passes c debt.node.leaves emitted run e s.run s.engine ∧
    s.walk.Follows c debt.node ∧
    s.activity.Owes c s.run.scope s.engine.nextSerial serial s.walk (debt.pay emitted less) ∧
    Descends (less, s.activity.calls) (debt.effort, calls)

/-! ## Decisions -/

/-- A decision that serves pays. -/
theorem pays_turn {s : Scene} {t : Turn}
    (hpasses : Passes c debt.node.leaves [] run e s.run s.engine)
    (ht : t.Serves c s.run.scope s.walk debt.node debt.runs debt.effort) :
    (s.turn t).Pays c serial debt run e calls := by
  obtain ⟨hfollows, -, hslots, less, hless, hnext⟩ := ht
  exact ⟨[], less, hpasses.scope t.scope fun v _ hnot => hslots v hnot, hfollows, hnext,
    .left _ _ hless⟩

/-! ## Listeners -/

/-- Telling the listeners about a unit changes nothing that matters. -/
theorem passes_announce {s : Scene} (h : Passes c leaves emitted run e s.run s.engine)
    (task serial : Nat) (job : Job) (moment : Moment) (failure : Option Failure) :
    let s' := s.announce task serial job moment failure
    Passes c leaves emitted run e s'.run s'.engine ∧ s'.walk = s.walk ∧
      ∀ v ∈ c.kept, s'.run.scope.slots v = s.run.scope.slots v := by
  obtain ⟨event, heq⟩ := s.announce_eq task serial job moment failure
  obtain ⟨hslots, hquiet⟩ := h.serves.quiet.announce event s.run.scope
  have hserves : (s.announce task serial job moment failure).engine.Serves c := by
    rw [heq]
    exact ⟨h.serves.units, hquiet, h.serves.isOpen⟩
  have hpasses := h.engine _ hserves (by rw [heq])
  rw [heq] at hpasses ⊢
  exact ⟨hpasses.scope _ fun v hv _ => hslots v hv, rfl, hslots⟩

/-! ## Units -/

/-- A unit of the debt at which the walk is. -/
theorem pays_endUnit {s : Scene} (hpasses : Passes c debt.node.leaves [] run e s.run s.engine)
    (hfollows : s.walk.Follows c debt.node) (hresume : job.resume = .unit)
    (hdue : s.walk.Due c debt job.unitId [] 2)
    (hhold : Slots.Hold (c.label job.unitId) (s.run.scope.slots job.unitId)) :
    (s.endUnit task serial job none).Pays c serial debt run e calls := by
  obtain ⟨arms, rest, hfacing, hruns, heffort⟩ := hdue
  have hserves := hfollows.ownUnitDone hfacing hhold hruns heffort s.run.hasRun
    s.run.context.tolerant
  unfold endUnit unitEnded
  rw [hresume]
  by_cases hpooled : s.walk.pooled = true
  · rw [if_pos hpooled]
    refine pays_turn (hpasses.engine _ (hpasses.serves.of_eq rfl rfl ?_) (Nat.le_refl _)) hserves
    show s.engine.pool.release.closed = s.engine.pool.closed
    unfold Pool.release
    split <;> rfl
  · rw [if_neg hpooled]
    exact pays_turn (hpasses.engine _ (hpasses.serves.of_eq rfl rfl rfl) (Nat.le_refl _)) hserves

/-- The end of a call. -/
theorem pays_succeed {s : Scene} (hserves : s.engine.Serves c) (hview : s.run.view = c.view)
    (hfollows : s.walk.Follows c debt.node)
    (hjob : job.Serves c s.run.scope s.walk debt .done) :
    (s.succeed task serial job).Pays c serial debt s.run s.engine calls := by
  obtain ⟨unitId, unit, resume, stage⟩ := job
  obtain ⟨hresume, hname, hdue, hgood⟩ := hjob
  have hmem : unitId ∈ c.kept := hfollows.kept _ (hdue.mem_leaves hfollows)
  have hview' : s.run.view unitId = c.view unitId := congrFun hview unitId
  have hrefl := @Passes.refl c debt.node.leaves _ _ hserves hview
  cases stage with
  | before =>
    let announced := s.announce task serial ⟨unitId, unit, resume, .before⟩ .before none
    obtain ⟨hpasses, hwalk, hslots⟩ :=
      passes_announce hrefl task serial ⟨unitId, unit, resume, .before⟩ .before none
    obtain ⟨less, hless, hdue⟩ := Walk.Due.pay [unitId] [] hdue (show 3 < 4 by omega)
    -- from here on the unit counts as executed
    refine ⟨[unitId], less, ⟨hpasses.serves, hpasses.view, hpasses.slots, ?_, hpasses.serials⟩,
      hfollows, ⟨hresume, hname, hdue, ?_⟩, .left _ _ hless⟩
    · show (s.run.executed ++ [(unitId, unit.name)]).map Prod.snd = s.run.unitNames ++ [unitId]
      rw [List.map_append, show unit.name = unitId from hname]
      rfl
    · show (unit.run (s.run.view unitId)).EndsWith _ _ (FlowUnit.EndsAfter c unit unitId)
        (announced.run.scope.slots unitId)
      rw [hview', hslots unitId hmem]
      exact hgood
  | run =>
    obtain ⟨less, hless, hdue⟩ := Walk.Due.pay [] [] hdue (show 2 < 3 by omega)
    refine ⟨[], less, hrefl, hfollows, ⟨hresume, hname, hdue, ?_⟩, .left _ _ hless⟩
    show (unit.afterRun (s.run.view unitId)).EndsWith _ _ (Slots.Hold (c.label unitId)) _
    rw [hview']
    exact hgood
  | after =>
    obtain ⟨hpasses, hwalk, hslots⟩ :=
      passes_announce hrefl task serial ⟨unitId, unit, resume, .after⟩ .after none
    refine pays_endUnit hpasses hfollows hresume hdue ?_
    rw [hslots unitId hmem]
    exact hgood
  | onError failure => exact hgood.elim

/-- A call goes on with the rest of its behaviour. -/
theorem pays_rest {walk : Walk} {run' : RunState} {e' : Engine} {behavior rest : Behavior}
    (hpasses : Passes c debt.node.leaves [] run e run' e') (hfollows : walk.Follows c debt.node)
    {scope : Scope} (hjob : job.Serves c scope walk debt behavior) (hnext : rest.Next behavior)
    (hends : rest.EndsWith c.kept job.unitId (job.stage.Good c job.unit job.unitId)
      (run'.scope.slots job.unitId)) :
    Pays c serial debt run e {(behavior, false)} ⟨walk, .working job rest, run', e'⟩ :=
  ⟨[], debt.effort, hpasses, hfollows, ⟨hjob.resume, hjob.name, hjob.due, hends⟩,
    .right _ (Relation.cutExpand_singleton_singleton (.left _ _ hnext))⟩

/-- What a unit does that keeps the contract. -/
theorem pays_act {s : Scene} {behavior : Behavior} (hserves : s.engine.Serves c)
    (hview : s.run.view = c.view) (hfollows : s.walk.Follows c debt.node)
    (hjob : job.Serves c s.run.scope s.walk debt behavior) :
    (s.act task serial job behavior).Pays c serial debt s.run s.engine {(behavior, false)} := by
  have hmem : job.unitId ∈ debt.node.leaves := hjob.due.mem_leaves hfollows
  have hrefl := @Passes.refl c debt.node.leaves _ _ hserves hview
  have hends := hjob.ends
  -- the slots of the unit may change, and those of no other unit
  have hown : ∀ {scope : Scope}, Scope.SameBut job.unitId s.run.scope scope →
      ∀ v ∈ c.kept, v ∉ debt.node.leaves → scope.slots v = s.run.scope.slots v := by
    intro scope hsame v _ hnot
    exact hsame v fun heq => hnot (heq ▸ hmem)
  cases behavior with
  | done => exact pays_succeed hserves hview hfollows hjob
  -- the contract excludes them
  | fail | panic | closePool | runFlow => exact hends.elim
  | access change next =>
    obtain ⟨hothers, hnext⟩ := hends s.run.scope rfl
    have hpasses := hrefl.scope (change s.run.scope) fun v hv hnot =>
      hothers v hv fun heq => hnot (heq ▸ hmem)
    exact pays_rest hpasses hfollows hjob (.access change next s.run.scope) hnext
  | signalRoute target next =>
    have hpasses := hrefl.scope _ (hown (Scope.sameBut_signalRoute s.run.scope job.unitId target))
    refine pays_rest hpasses hfollows hjob (.signalRoute target next) ?_
    show next.EndsWith _ _ _ ((s.run.scope.signalRoute job.unitId target).slots job.unitId)
    rw [Scope.slots_signalRoute]
    exact hends
  | signalFork entries next =>
    have hpasses := hrefl.scope _ (hown (Scope.sameBut_signalFork s.run.scope job.unitId entries))
    refine pays_rest hpasses hfollows hjob (.signalFork entries next) ?_
    show next.EndsWith _ _ _ ((s.run.scope.signalFork job.unitId entries).slots job.unitId)
    rw [Scope.slots_signalFork]
    exact hends
  | note text next =>
    have hpasses := hrefl.engine (s.engine.record task serial (.remark text))
      (hserves.of_eq rfl rfl rfl) (Nat.le_refl _)
    exact pays_rest hpasses hfollows hjob (.note text next) hends
  | sleep milliseconds next =>
    -- a unit that sleeps has come further, but not as far as one that has woken up
    refine ⟨[], debt.effort, hrefl, hfollows, ⟨hjob.resume, hjob.name, hjob.due, hends⟩, ?_⟩
    exact .right _ (Relation.cutExpand_singleton_singleton (.left _ _ (.sleep milliseconds next)))
  | payload change next =>
    let context := { s.run.context with payload := s.run.context.payload.map change }
    have hpasses : Passes c debt.node.leaves [] s.run s.engine { s.run with context := context }
        s.engine := ⟨hserves, hview, hrefl.slots, hrefl.executed, Nat.le_refl _⟩
    exact pays_rest hpasses hfollows hjob (.payload change next _) (hends s.run.context.payload)
  | viewPool next =>
    exact pays_rest hrefl hfollows hjob (.viewPool next _) (hends s.engine.pool.view)
  | addUnit unitId unit next =>
    have hunits : ∀ u ∈ c.kept, ∃ known,
        (s.engine.registry.addUnit unitId unit).unit? u = some known ∧ known.Obeys c u := by
      intro u hu
      have hne : unitId ≠ u := fun heq => hends.1 (heq ▸ hu)
      obtain ⟨known, hknown, hobeys⟩ := hserves.units u hu
      exact ⟨known, (Table.get?_insert_of_ne _ unit hne).trans hknown, hobeys⟩
    have hpasses := hrefl.engine
      { s.engine with registry := s.engine.registry.addUnit unitId unit }
      ⟨hunits, hserves.quiet, hserves.isOpen⟩ (Nat.le_refl _)
    exact pays_rest hpasses hfollows hjob (.addUnit unitId unit next) hends.2
  | addFlow flowId expression next =>
    have hpasses := hrefl.engine
      { s.engine with registry := s.engine.registry.addFlow flowId expression }
      ⟨hserves.units, hserves.quiet, hserves.isOpen⟩ (Nat.le_refl _)
    exact pays_rest hpasses hfollows hjob (.addFlow flowId expression next) hends
  | eraseUnit unitId next =>
    have hunits : ∀ u ∈ c.kept, ∃ known,
        (s.engine.registry.eraseUnit unitId).unit? u = some known ∧ known.Obeys c u := by
      intro u hu
      have hne : unitId ≠ u := fun heq => hends.1 (heq ▸ hu)
      obtain ⟨known, hknown, hobeys⟩ := hserves.units u hu
      refine ⟨known, ?_, hobeys⟩
      rw [Registry.unit?, Registry.eraseUnit, Table.get?_erase, if_neg hne]
      exact hknown
    have hpasses := hrefl.engine
      { s.engine with registry := s.engine.registry.eraseUnit unitId }
      ⟨hunits, hserves.quiet, hserves.isOpen⟩ (Nat.le_refl _)
    exact pays_rest hpasses hfollows hjob (.eraseUnit unitId next) hends.2

theorem pays_beginUnit {s : Scene} {u : String} {unit : FlowUnit} {pace : Nat}
    (hpasses : Passes c debt.node.leaves [] run e s.run s.engine)
    (hfollows : s.walk.Follows c debt.node) (hobeys : unit.Obeys c u)
    (hdue : s.walk.Due c debt u [u] pace) (hpace : 4 < pace) :
    (s.beginUnit task serial u unit .unit).Pays c serial debt run e calls := by
  have hmem : u ∈ debt.node.leaves := hdue.mem_leaves hfollows
  obtain ⟨less, hless, hdue⟩ := Walk.Due.pay [] [u] hdue hpace
  have hengine := hpasses.engine (s.engine.record task serial (.unitStarted u))
    (hpasses.serves.of_eq rfl rfl rfl) (Nat.le_refl _)
  have hdropped := hengine.scope (s.run.scope.dropSignals u) fun v _ hnot =>
    Scope.sameBut_dropSignals s.run.scope u v fun heq => hnot (heq ▸ hmem)
  have hview : s.run.view u = c.view u := congrFun hpasses.view u
  -- the first call begins with clear slots, as the contract asks for
  refine ⟨[], less, hdropped, hfollows, ⟨rfl, hobeys.name, hdue, ?_⟩, .left _ _ hless⟩
  show (unit.beforeRun (s.run.view u)).EndsWith _ _ (FlowUnit.EndsRun c unit u)
    ((s.run.scope.dropSignals u).slots u)
  rw [Scope.slots_dropSignals, hview]
  exact hobeys.calls

theorem pays_execute {s : Scene} {u : String} (hserves : s.engine.Serves c)
    (hview : s.run.view = c.view) (hfollows : s.walk.Follows c debt.node)
    (hdue : s.walk.Due c debt u [u] 6) :
    (s.execute task serial u .unit).Pays c serial debt s.run s.engine calls := by
  obtain ⟨unit, hunit, hobeys⟩ := hserves.units u (hfollows.kept u (hdue.mem_leaves hfollows))
  have hrefl := @Passes.refl c debt.node.leaves _ _ hserves hview
  unfold execute
  rw [hunit]
  by_cases hpooled : s.walk.pooled = true
  · simp only [hpooled, if_true]
    rcases htake : s.engine.pool.take? with _ | pool
    · -- the unit goes to the end of the line; its first call is still to come
      obtain ⟨less, hless, hdue⟩ := Walk.Due.pay [] [u] hdue (show 5 < 6 by omega)
      have hengine := hrefl.engine { s.engine with pool := s.engine.pool.enqueue serial }
        (hserves.of_eq rfl rfl rfl) (Nat.le_refl _)
      exact ⟨[], less, hengine, hfollows, ⟨rfl, hobeys, hdue⟩, .left _ _ hless⟩
    · have hclosed : pool.closed = s.engine.pool.closed := by
        unfold Pool.take? at htake
        split at htake <;> cases htake
        rfl
      have hengine := hrefl.engine { s.engine with pool := pool } (hserves.of_eq rfl rfl hclosed)
        (Nat.le_refl _)
      exact @pays_beginUnit c debt _ _ task serial calls
        { s with engine := { s.engine with pool := pool } } u unit 6 hengine hfollows hobeys hdue
        (by omega)
  · simp only [hpooled]
    exact pays_beginUnit hrefl hfollows hobeys hdue (by omega)

/-! ## Forks -/

theorem pays_fork {s : Scene} {anchor : String} {branches : List (Branch Plan)} {resume : Resume}
    (hserves : s.engine.Serves c) (hview : s.run.view = c.view)
    (hfollows : s.walk.Follows c debt.node)
    (h : (Intent.fork anchor branches resume).Serves c s.run.scope s.walk debt.node debt.runs
      debt.effort) :
    (s.fork task serial anchor branches resume).Pays c serial debt s.run s.engine 0 := by
  obtain ⟨nodes, arms, start, rest, rfl, hbranches, hfacing, hruns, heffort⟩ := h
  have htwo : 2 ≤ branches.length := by
    obtain ⟨⟨stop, hwork, -⟩, -⟩ := hfacing
    rw [hbranches.length_eq]
    cases hwork.closable.normal with
    | parallel htwo _ => exact htwo
  have hrefl := @Passes.refl c debt.node.leaves _ _ hserves hview
  have hengine := hrefl.engine
    (s.engine.record task serial (.forked anchor (branches.map Branch.entry)))
    (hserves.of_eq rfl rfl rfl) (Nat.le_refl _)
  -- a group of a plan has two branches at least, so none is run in place
  rcases branches with _ | ⟨first, _ | ⟨second, more⟩⟩
  · simp at htwo
  · simp at htwo
  · refine ⟨[], debt.effort - 1, hengine, hfollows, ⟨[], nodes, rfl, hbranches, ?_⟩,
      .left _ _ (by omega)⟩
    refine .of_fork hfacing hruns ?_
    show _ + s.walk.effortBehind arms rest _ + 2 ≤ debt.effort - 1
    omega

end Scene

/-- The branches of a group that a walk is at. -/
theorem Walk.Joining.part {c : Contract} {w : Walk} {debt part : Debt} {parts : List Debt}
    {resume : Resume} (h : w.Joining c debt parts resume) (hfollows : w.Follows c debt.node)
    (hmem : part ∈ parts) :
    part.node.Closable none ∧ part.node.leaves.Sublist debt.node.leaves := by
  have hsublist := h.sublist hfollows
  obtain ⟨arms, start, rest, -, ⟨⟨stop, hwork, -⟩, -⟩, -⟩ := h
  have hnode : part.node ∈ parts.map Debt.node := List.mem_map_of_mem hmem
  have hall := hwork.closable.branches
  refine ⟨⟨hall.normal _ hnode, hall.routes _ hnode, fun hne => absurd rfl hne⟩, ?_⟩
  rw [Node.leavesOf_eq_flatMap] at hsublist
  exact (List.sublist_flatten_of_mem (List.mem_map_of_mem hnode)).trans hsublist

/-- Owing one more branch. -/
theorem Child.OweAll.append {c : Contract} {scope : Scope} {bound above : Nat}
    {children : List Child} {debts : List Debt} {child : Child} {debt : Debt}
    (h : Child.OweAll c scope bound above children debts)
    (hchild : child.Owes c scope bound above debt) :
    Child.OweAll c scope bound above (children ++ [child]) (debts ++ [debt]) := by
  induction children generalizing debts with
  | nil =>
    cases h
    exact ⟨debt, [], rfl, hchild, rfl⟩
  | cons first rest ih =>
    obtain ⟨own, others, rfl, hfirst, hrest⟩ := h
    exact ⟨own, others ++ [debt], rfl, hfirst, ih hrest⟩

theorem Child.calls_append_singleton {child : Child} (children : List Child) (h : child.calls = 0) :
    Child.callsIn (children ++ [child]) = Child.callsIn children := by
  induction children with
  | nil =>
    rw [List.nil_append, Child.callsIn, Child.callsIn, h]
    rfl
  | cons first rest ih => rw [List.cons_append, Child.callsIn, Child.callsIn, ih]

/-- Branches that are over owe nothing. -/
theorem Child.OweAll.of_over {c : Contract} {scope : Scope} {bound above : Nat} (anchor : String)
    {children : List Child} {debts : List Debt}
    (h : Child.OweAll c scope bound above children debts)
    (hover : children.all Child.isOver = true) :
    Scene.joinFailure? anchor children = none ∧ ∀ debt ∈ debts, debt.runs [] ∧
      (debt.node.EndsPlainly → c.Signed scope debt.node) := by
  induction children generalizing debts with
  | nil =>
    cases h
    exact ⟨rfl, fun _ hmem => by cases hmem⟩
  | cons child rest ih =>
    obtain ⟨debt, others, rfl, hchild, hrest⟩ := h
    rw [List.all_cons, Bool.and_eq_true] at hover
    obtain ⟨hnone, hothers⟩ := ih hrest hover.2
    cases child with
    | running => exact absurd hover.1 (by simp [Child.isOver])
    | refused | cancelled => exact hchild.elim
    | ended entry failure =>
      obtain ⟨rfl, howes⟩ := hchild
      refine ⟨hnone, fun other hmem => ?_⟩
      rcases List.mem_cons.mp hmem with rfl | hmem
      · exact howes
      · exact hothers other hmem

/-- What the last of several nodes has left, all of them have left. -/
theorem Contract.Signed.of_last {c : Contract} {scope : Scope} {parts : List Debt}
    (hnormal : ∀ node ∈ parts.map Debt.node, node.IsNormal)
    (h : ∀ part ∈ parts, part.node.EndsPlainly → c.Signed scope part.node)
    (hends : (Node.parallel (parts.map Debt.node)).EndsPlainly) :
    c.Signed scope (.parallel (parts.map Debt.node)) := by
  rcases List.eq_nil_or_concat parts with rfl | ⟨before, last, rfl⟩
  · exact hends.elim
  · rw [List.concat_eq_append] at hnormal h hends ⊢
    rw [List.map_append, List.map_singleton] at hnormal hends ⊢
    intro u hu
    rw [Node.leaves, Node.getLast?_leavesOf_append (hnormal _ (by simp)).leaves_ne_nil] at hu
    exact h last (by simp) (Node.lastEndsPlainly_append.mp hends) u hu

namespace Scene

/-- A branch is started as long as the pool is open, and then it owes all of its node. -/
theorem pays_startBranch {s : Scene} {anchor : String} {resume : Resume} {branch : Branch Plan}
    {toStart : List (Branch Plan)} {children : List Child} {completed : List String}
    (hserves : s.engine.Serves c) (hview : s.run.view = c.view)
    (hfollows : s.walk.Follows c debt.node) (hserial : serial < s.engine.nextSerial)
    (h : (Activity.forking anchor resume (branch :: toStart) children completed).Owes c s.run.scope
      s.engine.nextSerial serial s.walk debt) :
    (s.startBranch task serial anchor resume branch toStart children completed).Pays c serial debt
      s.run s.engine (Child.callsIn children) := by
  obtain ⟨started, waiting, hchildren, hruns, hjoining⟩ := h
  cases hruns with
  | @cons _ node _ waiting hbranch hruns =>
  obtain ⟨hclosable, hsublist⟩ :=
    hjoining.part hfollows (show Debt.branch c.label node ∈ _ by simp)
  have hstart : s.engine.pool.start? =
      some { s.engine.pool with inFlight := s.engine.pool.inFlight + 1 } := by
    rw [Pool.start?, if_neg (by rw [hserves.isOpen]; simp)]
  -- the branch has a plan of its own, and its units are units of the node
  have hnew := @Process.owes_ofPlan c s.run.scope (s.engine.nextSerial + 1) s.engine.nextSerial node
    branch.plan hclosable hbranch.plan (hsublist.nodup hfollows.nodup)
    (fun u hu => hfollows.kept u (hsublist.subset hu))
    (fun u hu => hfollows.plain u (hsublist.subset hu)) (Nat.lt_succ_self _) true
  have hrefl := @Passes.refl c debt.node.leaves _ _ hserves hview
  obtain ⟨hle, hpaid⟩ := hjoining.pay [] (node.effort + 2 * node.width + 1)
  have heffort : (Debt.branch c.label node).effort = node.effort + 2 * node.width + 2 := rfl
  unfold startBranch
  rw [hstart]
  refine ⟨[], debt.effort - (Debt.branch c.label node).effort + (node.effort + 2 * node.width + 1),
    hrefl.engine _ (hserves.of_eq rfl rfl rfl) (Nat.le_succ _), hfollows,
    ⟨started ++ [Debt.whole c.label node (node.effort + 2 * node.width + 1)], waiting, ?_, hruns,
      ?_⟩, ?_⟩
  · exact (hchildren.congr (fun _ _ => rfl) (Nat.le_succ _)).append ⟨rfl, hserial, hnew⟩
  · rw [List.append_assoc]
    exact hpaid
  · -- the effort of a branch has one step more before it is started
    rw [show Activity.calls _ = Child.callsIn (children ++ [_]) from rfl,
      Child.calls_append_singleton children rfl]
    exact .left _ _ (by omega)

/-- When all branches are over, the walk goes on behind the group. -/
theorem pays_join {s : Scene} {anchor : String} {resume : Resume} {children : List Child}
    {completed : List String} (hserves : s.engine.Serves c) (hview : s.run.view = c.view)
    (hfollows : s.walk.Follows c debt.node) (hover : children.all Child.isOver = true)
    (h : (Activity.forking anchor resume [] children completed).Owes c s.run.scope
      s.engine.nextSerial serial s.walk debt) :
    (s.join task serial anchor resume children completed).Pays c serial debt s.run s.engine
      calls := by
  obtain ⟨parts, waiting, hchildren, hruns, hjoining⟩ := h
  cases hruns
  rw [List.map_nil, List.append_nil] at hjoining
  obtain ⟨hnone, hparts⟩ := hchildren.of_over anchor hover
  obtain ⟨arms, start, rest, rfl, hfacing, hruns, heffort⟩ := hjoining
  have hrefl := @Passes.refl c debt.node.leaves _ _ hserves hview
  have hpublished := (hrefl.engine (s.engine.record task serial (.joined anchor none))
    (hserves.of_eq rfl rfl rfl) (Nat.le_refl _)).scope (s.run.scope.publish completed)
    fun v _ _ => Scope.slots_publish s.run.scope completed v
  have hsigned : (Node.parallel (parts.map Debt.node)).EndsPlainly →
      c.Signed (s.run.scope.publish completed) (.parallel (parts.map Debt.node)) := by
    obtain ⟨⟨stop, hwork, -⟩, -⟩ := hfacing
    have hlast := Contract.Signed.of_last hwork.closable.branches.normal
      fun part hmem => (hparts part hmem).2
    exact fun hends => (hlast hends).congr fun v _ => Scope.slots_publish s.run.scope completed v
  -- no branch executes anything more, so what is left is what is behind the group
  have hbehind : ∀ run, c.Behind (.parallel (parts.map Debt.node)) arms rest run →
      debt.runs run := by
    intro run hrun
    have hfirsts : List.Forall₂ Debt.runs parts (parts.map fun _ => []) := by
      rw [List.forall₂_map_right_iff, List.forall₂_same]
      exact fun part hmem => (hparts part hmem).1
    exact hruns _ [] hfirsts (.nil (by simp)) run hrun
  have hless : s.walk.effortBehind arms rest
      (start + Node.widthOf (parts.map Debt.node)) + 1 < debt.effort := by omega
  have hturn := hfollows.groupDone hfacing hsigned hbehind hless s.run.hasRun s.run.context.tolerant
  unfold join
  rw [hnone]
  exact pays_turn hpublished hturn

/-- A step at a walk pays some of what the walk owes. -/
theorem pays_stepHere {s s' : Scene} (hserves : s.engine.Serves c) (hview : s.run.view = c.view)
    (hserial : serial < s.engine.nextSerial) (hfollows : s.walk.Follows c debt.node)
    (howes : s.activity.Owes c s.run.scope s.engine.nextSerial serial s.walk debt)
    (h : s.stepHere task serial = some s') :
    s'.Pays c serial debt s.run s.engine s.activity.calls := by
  have hrefl := @Passes.refl c debt.node.leaves _ _ hserves hview
  obtain ⟨walk, activity, run, engine⟩ := s
  unfold stepHere at h
  cases activity with
  | poised next =>
    cases next with
    | advance =>
      cases h
      exact pays_turn hrefl (hfollows.advance howes run.hasRun)
    | execute unitId resume =>
      cases h
      obtain ⟨rfl, hdue⟩ := howes
      exact pays_execute hserves hview hfollows hdue
    | fork anchor branches resume =>
      cases h
      exact pays_fork hserves hview hfollows howes
    | finish => cases h
  | queued unitId unit resume =>
    obtain ⟨rfl, hobeys, hdue⟩ := howes
    simp only at h
    split at h
    · cases h
      exact pays_beginUnit (hrefl.engine _ (hserves.of_eq rfl rfl rfl) (Nat.le_refl _)) hfollows
        hobeys hdue (by omega)
    · cases h
  | working job behavior =>
    cases h
    exact pays_act hserves hview hfollows howes
  | asleep job wakeAt rest =>
    simp only at h
    split at h
    · cases h
      -- to be awake is to have come further
      refine ⟨[], debt.effort, hrefl, hfollows, howes, .right _ ?_⟩
      exact Relation.cutExpand_singleton_singleton (.right _ (by decide))
    · cases h
  | calling | inPlace => exact howes.elim
  | forking anchor resume toStart children completed =>
    cases toStart with
    | cons branch toStart =>
      cases h
      exact pays_startBranch hserves hview hfollows hserial howes
    | nil =>
      simp only at h
      split at h
      · next hover =>
        cases h
        exact pays_join hserves hview hfollows hover howes
      · cases h

end Scene

end Workflow
