import Workflow.Proofs.Run.Labels
import Workflow.Proofs.Run.Selection

/-!
# What units have left for routing

A routing value that a walk goes on with was written by its unit, but not always by the execution that
the walk has come from. A value stays in the slot of its unit until the unit is executed again, or a walk
takes it from there; and a label at a unit that chooses nothing is put back, for a walk around this one.
`Run.Left u value` says that a run has such a value of a unit, in the slot or kept by one of its walks.

Whatever a task does, a run has left only what it had left before and what one of its walks writes
(`Process.Moves.left`). So a value that a walk goes on with was written since any moment at which nothing
was left of the unit, and when none was, the walk goes on as if the unit had left nothing
(`Executor.History.routes_freshly`). An execution of a unit begins with an empty slot, but a walk may
come to route by a unit that it has not executed: then it finds what is left from before
(`Executor.routes_by_leftover`).
-/

namespace Workflow

/-! ## Values that are left -/

/-- A walk keeps a routing value of a unit: one that was executed ahead of its position, or the one at
its position while it waits for what that has forked. -/
inductive Process.Keeps (u value : String) (q : Process) : Prop where
  | early {fork : Option (List String)}
      (h : q.walk.early.get? u = some (.routed (some value) fork)) : Keeps u value q
  | scattered {entries : List String}
      (h : q.activity.fork? = some (.scattered entries (some value)))
      (hunit : q.walk.plan.unitAt? q.walk.position = some u) : Keeps u value q

/-- The routing value with which a walk goes on when its fork has come to an end. -/
def Activity.scattered? (a : Activity) : Option String :=
  match a.fork? with
  | some (.scattered _ signal) => signal
  | _ => none

/-- A run has a routing value of a unit, in the slot of the unit or kept by one of its walks. -/
def Run.Left (u value : String) (r : Run) : Prop :=
  (r.state.scope.slots u).target = some value ∨ ∃ q ∈ r.root.crew, q.Keeps u value

/-- The same of a walk and the scope that it decides with. -/
def Walk.Left (u value : String) (scope : Scope) (w : Walk) : Prop :=
  (scope.slots u).target = some value ∨
    ∃ fork, w.early.get? u = some (.routed (some value) fork)

/-- The same of what a decision makes of them. -/
def Turn.Left (u value : String) (t : Turn) : Prop :=
  (t.scope.slots u).target = some value ∨ (t.process 0).Keeps u value

/-- The slot of a unit holds the routing value that has just been written, and the others hold what
they did. -/
theorem Scope.target_signalRoute {s : Scope} {u v target value : String}
    (h : ((s.signalRoute v target).slots u).target = some value) :
    (s.slots u).target = some value ∨ target = value ∧ v = u := by
  by_cases heq : u = v
  · subst heq
    rw [slots_signalRoute] at h
    exact .inr ⟨Option.some.inj h, rfl⟩
  · rw [sameBut_signalRoute s v target u heq] at h
    exact .inl h

/-! ## Decisions -/

namespace Walk

variable {w : Walk} {scope : Scope} {hasRun : String → Bool} {tolerant : Bool} {u v value : String}
  {signal : Option String} {fork : Option (List String)} {resume : Resume}

/-- A decision that keeps nothing leaves what there was. -/
theorem left_of_turn {t : Turn} (h : t.Left u value) (hearly : t.walk.early = w.early)
    (hslot : scope.Fades t.scope)
    (hnext : (t.process 0).activity.scattered? = none) : w.Left u value scope := by
  rcases h with hleft | hkeeps
  · exact .inl (hslot.target hleft)
  · cases hkeeps with
    | early hkept => exact .inr ⟨_, hearly ▸ hkept⟩
    | scattered hfork =>
      unfold Activity.scattered? at hnext
      rw [hfork] at hnext
      cases hnext

theorem left_proceed (h : (w.proceed scope).Left u value) : w.Left u value scope :=
  left_of_turn h rfl (.refl _) rfl

theorem left_detour {target : String} (h : (w.detour scope hasRun target).Left u value) :
    w.Left u value scope := by
  unfold detour at h
  split at h
  · exact left_proceed h
  · exact left_of_turn h rfl (.refl _) rfl

/-- A routing value is applied, or it is put back for a walk around this one. -/
theorem left_steer (h : (w.steer scope hasRun v signal).Left u value) :
    w.Left u value scope ∨ signal = some value ∧ v = u := by
  unfold steer at h
  split at h
  · exact .inl (left_proceed h)
  · exact .inl (left_proceed (w := w.chooseArm _ _) h)
  · split at h
    · exact .inl (left_of_turn h rfl (.refl _) rfl)
    · split at h
      · split at h
        · exact .inl (left_proceed (w := w.chooseArm _ _) h)
        · exact .inl (left_detour (w := w.skipArms _) h)
      · split at h
        · rcases left_proceed h with hleft | hkept
          · exact (Scope.target_signalRoute hleft).imp .inl fun ⟨heq, hunit⟩ =>
              ⟨congrArg some heq, hunit⟩
          · exact .inl (.inr hkept)
        · exact .inl (left_detour h)

theorem left_obey (hunit : w.plan.unitAt? w.position = some v)
    (h : (w.obey scope hasRun v signal fork).Left u value) :
    w.Left u value scope ∨ signal = some value ∧ v = u := by
  unfold obey at h
  split at h
  · exact .inl (left_of_turn h rfl (.refl _) rfl)
  · split at h
    · exact .inl (left_of_turn h rfl (.refl _) rfl)
    · exact .inl (left_of_turn h rfl (.refl _) rfl)
    · rcases h with hleft | hkeeps
      · exact .inl (.inl hleft)
      · cases hkeeps with
        | early hkept => exact .inl (.inr ⟨_, hkept⟩)
        | scattered hfork hat =>
          cases hfork
          exact .inr ⟨rfl, Option.some.inj (hunit.symm.trans hat)⟩
    · exact left_steer h

/-- What the slots have lost was there. -/
theorem Left.of_fades {scope' : Scope} (h : w.Left u value scope') (hfades : scope.Fades scope') :
    w.Left u value scope :=
  h.imp_left hfades.target

theorem early_fallThrough (w : Walk) : w.fallThrough.early = w.early := by
  unfold fallThrough
  split <;> rfl

theorem left_fallThrough (h : w.fallThrough.Left u value scope) : w.Left u value scope := by
  unfold Left at h
  rwa [early_fallThrough] at h

theorem left_advance (h : (w.advance scope hasRun).Left u value) : w.Left u value scope := by
  unfold advance at h
  split at h
  · exact left_of_turn h rfl (.refl _) rfl
  · next unitId hunit =>
    let w' : Walk := { w with early := w.early.erase unitId }
    have hunit' : w'.plan.unitAt? w'.position = some unitId := hunit
    have herased : ∀ {scope : Scope}, w'.Left u value scope → w.Left u value scope := fun hleft => by
      refine hleft.imp_right fun ⟨fork, hkept⟩ => ⟨fork, ?_⟩
      simp only [w', Table.get?_erase] at hkept
      split at hkept
      · cases hkept
      · exact hkept
    split at h
    · exact left_of_turn h rfl (.refl _) rfl
    · split at h <;> exact left_of_turn h rfl (.refl _) rfl
    · next early _ _ hearly =>
      cases early with
      | failed => exact herased (left_fallThrough (left_proceed h))
      | forked =>
        simp only at h
        rcases left_obey hunit' h with hleft | ⟨hsignal, rfl⟩
        · exact (herased hleft).of_fades (Scope.fades_takeRoute scope unitId)
        · exact .inl ((Scope.takeRoute_fst scope unitId).symm.trans hsignal)
      | routed route fork =>
        simp only at h
        rcases left_obey hunit' h with hleft | ⟨rfl, rfl⟩
        · exact herased hleft
        · exact .inr ⟨fork, hearly⟩
    · exact left_of_turn h rfl (.refl _) rfl

theorem left_ownUnitDone {result : Option Mishap}
    (h : (w.ownUnitDone scope hasRun tolerant result).Left u value) : w.Left u value scope := by
  unfold ownUnitDone at h
  split at h
  · exact left_of_turn h rfl (.refl _) rfl
  · next unitId hunit =>
    cases result with
    | none =>
      rcases left_obey hunit h with hleft | ⟨hsignal, rfl⟩
      · exact hleft.of_fades ((Scope.fades_takeRoute scope unitId).trans (Scope.fades_takeFork _ unitId))
      · exact .inl ((Scope.takeRoute_fst scope unitId).symm.trans hsignal)
    | some mishap =>
      simp only at h
      split at h
      · have hleft := left_fallThrough (left_proceed h)
        exact Left.of_fades (w := w) hleft (Scope.fades_dropSignals scope unitId)
      · exact left_of_turn h rfl (.refl _) rfl

theorem left_detourDone {reached : Bool} {result : Option Mishap}
    (h : (w.detourDone scope tolerant v reached result).Left u value) : w.Left u value scope := by
  unfold detourDone at h
  cases result with
  | none =>
    have hfades := (Scope.fades_takeRoute scope v).trans (Scope.fades_takeFork (scope.takeRoute v).2 v)
    simp only at h
    split at h
    · exact left_of_turn h rfl (Scope.fades_takeRoute scope v) rfl
    · split at h
      · -- what the unit has left is kept for its position
        rcases left_proceed h with hleft | ⟨fork, hkept⟩
        · exact .inl (hfades.target hleft)
        · simp only [Table.get?_insert] at hkept
          split at hkept
          · next heq =>
            subst heq
            simp only [Option.some.injEq, Early.routed.injEq] at hkept
            exact .inl ((Scope.takeRoute_fst scope v).symm.trans hkept.1)
          · exact .inr ⟨fork, hkept⟩
      · exact left_of_turn h rfl hfades rfl
      · exact left_of_turn h rfl hfades rfl
  | some mishap =>
    have hfades := Scope.fades_dropSignals scope v
    simp only at h
    split at h
    · rcases left_proceed h with hleft | ⟨fork, hkept⟩
      · exact .inl (hfades.target hleft)
      · refine .inr ⟨fork, ?_⟩
        split at hkept
        · simp only [Table.get?_insert] at hkept
          split at hkept
          · cases hkept
          · exact hkept
        · exact hkept
    · exact left_of_turn h rfl hfades rfl

theorem left_aloneDone {result : Option Mishap}
    (h : (w.aloneDone scope v result).Left u value) : w.Left u value scope := by
  unfold aloneDone at h
  cases result with
  | none =>
    simp only at h
    split at h <;> exact left_of_turn h rfl (Scope.fades_takeRoute scope v) rfl
  | some mishap => exact left_of_turn h rfl (.refl _) rfl

theorem left_unitDone {result : Option Mishap}
    (h : (w.unitDone scope hasRun tolerant v resume result).Left u value) : w.Left u value scope := by
  cases resume with
  | unit => exact left_ownUnitDone h
  | detour => exact left_detourDone h
  | alone | group | scattered | detourFork => exact left_aloneDone h

theorem left_groupDone {stop : Nat} {result : Option Failure}
    (h : (w.groupDone scope hasRun tolerant stop result).Left u value) : w.Left u value scope := by
  unfold groupDone at h
  cases result with
  | none =>
    simp only at h
    split at h
    · next router _ _ =>
      rcases left_steer h with hleft | ⟨hsignal, rfl⟩
      · exact Left.of_fades (w := w) hleft (Scope.fades_takeRoute scope router)
      · exact .inl ((Scope.takeRoute_fst scope router).symm.trans hsignal)
    · exact left_of_turn h rfl (.refl _) rfl
  | some failure =>
    simp only at h
    split at h <;> exact left_of_turn h rfl (.refl _) rfl

/-- The units of a fork that a walk comes to later leave their routing values in their slots. -/
theorem get?_foldl_forked {entries : List String} {early : Table String Early}
    {kept : Option String} :
    (entries.foldl (fun done entry => done.insert entry .forked) early).get? u =
      some (.routed kept fork) → early.get? u = some (.routed kept fork) := by
  induction entries generalizing early with
  | nil => exact id
  | cons entry rest ih =>
    intro h
    have hkept := ih h
    rw [Table.get?_insert] at hkept
    split at hkept
    · cases hkept
    · exact hkept

theorem left_scatterDone {entries : List String} {result : Option Failure}
    (h : (w.scatterDone scope hasRun tolerant entries signal result).Left u value) :
    w.Left u value scope ∨ signal = some value ∧ w.plan.unitAt? w.position = some u := by
  unfold scatterDone at h
  split at h
  · exact .inl (left_of_turn h rfl (.refl _) rfl)
  · next unitId hunit =>
    cases result with
    | none =>
      rcases left_steer h with hleft | ⟨hsignal, rfl⟩
      · exact .inl (hleft.imp_right fun ⟨fork, hkept⟩ => ⟨fork, get?_foldl_forked hkept⟩)
      · exact .inr ⟨hsignal, hunit⟩
    | some failure =>
      simp only at h
      split at h
      · exact (left_steer h).imp_right fun ⟨hsignal, heq⟩ => ⟨hsignal, heq ▸ hunit⟩
      · exact .inl (left_of_turn h rfl (.refl _) rfl)

theorem left_forkDone {result : Option Failure}
    (h : (w.forkDone scope hasRun tolerant resume result).Left u value) : w.Left u value scope ∨
      ∃ entries, resume = .scattered entries (some value) ∧ w.plan.unitAt? w.position = some u := by
  have hdetour : (w.detourForkDone scope tolerant result).Left u value → w.Left u value scope :=
    fun h => by
    unfold detourForkDone at h
    cases result with
    | none => exact left_proceed h
    | some failure =>
      simp only at h
      split at h <;> exact left_of_turn h rfl (.refl _) rfl
  cases resume with
  | group => exact .inl (left_groupDone h)
  | scattered entries signal =>
    exact (left_scatterDone h).imp_right fun ⟨hsignal, hunit⟩ => ⟨entries, hsignal ▸ rfl, hunit⟩
  | unit | alone | detour | detourFork => exact .inl (hdetour h)

end Walk

/-! ## One step at one walk -/

/-- A process at the start of a plan keeps nothing. -/
theorem Process.not_keeps_ofPlan {u value : String} {serial : Nat} {plan : Plan} {pooled : Bool} :
    ¬ (Process.ofPlan serial plan pooled).Keeps u value := by
  rintro (h | h)
  · cases h
  · cases h

/-- What a walk has left is left in its run. -/
theorem Walk.Left.run {u value : String} {w : Walk} {run : RunState} {serial : Nat}
    {activity : Activity} (h : w.Left u value run.scope) : Run.Left u value ⟨run, .mk serial w activity⟩ :=
  h.imp_right fun ⟨_, hkept⟩ => ⟨_, Process.mem_crew_self _, .early hkept⟩

namespace Scene

variable {s s' : Scene} {task serial : Nat} {u value : String} {law : Law}

theorem left_turn {t : Turn} (h : Run.Left u value ⟨(s.turn t).run, (s.turn t).process serial⟩) :
    t.Left u value := by
  rcases h with hleft | ⟨q, hq, hkeeps⟩
  · exact .inl hleft
  · obtain rfl := List.mem_singleton.mp hq
    cases hkeeps with
    | early hkept => exact .inr (.early hkept)
    | scattered hfork hunit => exact .inr (.scattered hfork hunit)

theorem left_joined {activity : Activity} {anchor : String} {resume : Resume} {result : Option Failure}
    (hfork : activity.fork? = some resume)
    (h : Run.Left u value ⟨(s.joined task serial anchor resume result).run,
      (s.joined task serial anchor resume result).process serial⟩) :
    Run.Left u value ⟨s.run, .mk serial s.walk activity⟩ := by
  rcases Walk.left_forkDone (left_turn h) with hleft | ⟨entries, rfl, hunit⟩
  · exact hleft.run
  · exact .inr ⟨_, Process.mem_crew_self _, .scattered hfork hunit⟩

theorem left_close {activity : Activity} {anchor : String} {resume : Resume} {result : Option Failure}
    {completed : List String} (hfork : activity.fork? = some resume)
    (h : Run.Left u value ⟨(s.close task serial anchor resume result completed).run,
      (s.close task serial anchor resume result completed).process serial⟩) :
    Run.Left u value ⟨s.run, .mk serial s.walk activity⟩ :=
  (left_joined hfork h).imp_left (fades_run_publish s.run result completed).target

theorem Does.left {job : Job} {behavior rest : Behavior} {run : RunState} {e : Engine}
    (h : s.Does task serial job behavior rest run e) (hbehavior : behavior.Abides law)
    (hleft : (run.scope.slots u).target = some value) : (s.run.scope.slots u).target = some value ∨
      behavior = .signalRoute value rest ∧ job.unitId = u := by
  cases h with
  | access =>
    cases hbehavior with
    | access hchange => exact .inl ((hchange _).target hleft)
  | signalRoute target =>
    exact (Scope.target_signalRoute hleft).imp_right fun ⟨heq, hunit⟩ => ⟨heq ▸ rfl, hunit⟩
  | signalFork entries =>
    simp only [Slots.target, Scope.route_signalFork] at hleft
    exact .inl hleft
  | note | payload | viewPool | closePool | addUnit | addFlow | eraseUnit | noFlow => exact .inl hleft

/-- A walk that does not decide leaves what there was. -/
theorem Steps.left_of_kept (h : s.Steps task serial s')
    (hleft : Run.Left u value ⟨s'.run, s'.process serial⟩) (hwalk : s'.walk = s.walk)
    (hslot : s.run.scope.Fades s'.run.scope)
    (hfork : s'.activity.fork? = none ∨ s'.activity.fork? = s.activity.fork?) :
    Run.Left u value ⟨s.run, s.process serial⟩ := by
  rcases hleft with hleft | ⟨q, hq, hkeeps⟩
  · exact .inl (hslot.target hleft)
  rcases Process.mem_crew.mp hq with rfl | ⟨branch, hbranch, hin⟩
  · refine .inr ⟨_, Process.mem_crew_self _, ?_⟩
    cases hkeeps with
    | early hkept => exact .early (hwalk ▸ hkept)
    | scattered hforks hunit =>
      have hunit : s'.walk.plan.unitAt? s'.walk.position = some u := hunit
      rw [hwalk] at hunit
      rcases hfork with hnone | hsame
      · cases hnone.symm.trans hforks
      · exact .scattered (hsame.symm.trans hforks) hunit
  · rcases h.runs_cases hbranch.runs with ⟨hold, -⟩ | ⟨plan, pooled, rfl⟩
    · exact .inr ⟨q, Process.mem_crew.mpr (.inr ⟨branch, hold, hin⟩), hkeeps⟩
    · cases List.mem_singleton.mp hin
      exact absurd hkeeps Process.not_keeps_ofPlan

/-- Whatever a walk does where it stands, only what was left before is left, and what its unit
writes. -/
theorem Steps.left (h : s.Steps task serial s') (hprocess : (s.process serial).Abides law)
    (hengine : s.engine.Abides law) (hleft : Run.Left u value ⟨s'.run, s'.process serial⟩) :
    Run.Left u value ⟨s.run, s.process serial⟩ ∨
      (s.process serial).signal? = some (serial, u, value) := by
  obtain ⟨hown, -⟩ := hprocess
  -- in most steps the walk stays what it is, and no slot gains anything
  have hkept := fun hwalk hslot hfork => h.left_of_kept hleft hwalk hslot hfork
  cases h with
  | advance => exact .inl (Walk.left_advance (left_turn hleft)).run
  | missing => exact .inl (Walk.left_unitDone (left_turn hleft)).run
  | queues | sleeps | wakes | opens | tidies | fails => exact .inl (hkept rfl (.refl _) (.inl rfl))
  | begins | granted => exact .inl (hkept rfl (Scope.fades_dropSignals ..) (.inl rfl))
  | does h hdoes =>
    rw [h] at hown
    rcases hleft with hleft | ⟨q, hq, hkeeps⟩
    · rcases hdoes.left hown.2 hleft with hslot | ⟨rfl, rfl⟩
      · exact .inl (.inl hslot)
      · refine .inr ?_
        rw [process, h]
        rfl
    · obtain rfl := List.mem_singleton.mp hq
      cases hkeeps with
      | early hkept => exact .inl (.inr ⟨_, Process.mem_crew_self _, .early hkept⟩)
      | scattered hfork => cases hfork
  | runs => exact .inl (hkept rfl (fades_announce hengine task serial _ .before none).1 (.inl rfl))
  | ends | gaveUp =>
    rw [endUnit_eq] at hleft
    exact .inl ((Walk.left_unitDone (left_turn hleft)).of_fades
      (fades_announce hengine task serial _ _ _).1).run
  | forksNone h =>
    exact .inl (left_joined (s := s.record task serial _) (by rw [h]; rfl) hleft)
  | forksOne h | forks h | starts h | refuses h =>
    exact .inl (hkept rfl (.refl _) (.inr (by rw [h]; rfl)))
  | joins h => exact .inl (left_close (by rw [h]; rfl) hleft)

end Scene

/-! ## Steps in a tree -/

section

variable {who task serial : Nat} {walk : Walk} {activity activity' : Activity} {p p' : Process}
  {branch branch' : Process} {run run' : RunState} {e e' : Engine} {site : Site} {u value : String}
  {law : Law}

/-- What a walk keeps does not depend on how far its fork has come. -/
theorem Process.Keeps.of_fork (h : (Process.mk serial walk activity').Keeps u value)
    (hfork : activity'.fork? = activity.fork?) : (Process.mk serial walk activity).Keeps u value := by
  cases h with
  | early hkept => exact .early hkept
  | scattered hscattered hunit => exact .scattered (hfork.symm.trans hscattered) hunit

theorem Run.Left.of_branch (h : Run.Left u value ⟨run, branch⟩) (hbranch : activity.Branches branch) :
    Run.Left u value ⟨run, .mk serial walk activity⟩ :=
  h.imp_right fun ⟨q, hq, hkeeps⟩ => ⟨q, Process.mem_crew.mpr (.inr ⟨branch, hbranch, hq⟩), hkeeps⟩

/-- The branches of a fork one of whose children has changed were there before, but for that child. -/
theorem Activity.branches_exchange {anchor entry : String} {resume : Resume}
    {toStart : List (Branch Plan)} {before after : List Child} {completed completed' : List String}
    {child : Child} {q : Process}
    (h : (Activity.forking anchor resume toStart (before ++ child :: after) completed').Branches q) :
    (Activity.forking anchor resume toStart (before ++ .running entry branch :: after)
      completed).Branches q ∨ ∃ entry', child = .running entry' q :=
  (Child.running_of_replaced h _).symm

/-- When one branch of a fork moves, what is left comes from that branch, or it was left before. -/
theorem Run.left_exchange {P : Prop}
    (hleft : Run.Left u value ⟨run', .mk serial walk activity'⟩)
    (hmoved : Run.Left u value ⟨run', branch'⟩ → Run.Left u value ⟨run, branch⟩ ∨ P)
    (hfork : activity'.fork? = activity.fork?) (hbranch : activity.Branches branch)
    (hothers : ∀ q, activity'.Branches q → activity.Branches q ∨ q = branch') :
    Run.Left u value ⟨run, .mk serial walk activity⟩ ∨ P := by
  have hfrom : Run.Left u value ⟨run', branch'⟩ →
      Run.Left u value ⟨run, .mk serial walk activity⟩ ∨ P :=
    fun h => (hmoved h).imp_left fun h => h.of_branch hbranch
  rcases hleft with hslot | ⟨q, hq, hkeeps⟩
  · exact hfrom (.inl hslot)
  rcases Process.mem_crew.mp hq with rfl | ⟨other, hother, hin⟩
  · exact .inl (.inr ⟨_, Process.mem_crew_self _, hkeeps.of_fork hfork⟩)
  · rcases hothers other hother with hold | rfl
    · exact .inl (.inr ⟨q, Process.mem_crew.mpr (.inr ⟨other, hold, hin⟩), hkeeps⟩)
    · exact hfrom (.inr ⟨q, hin, hkeeps⟩)

/-- Whatever a task does, a run has left only what it had left before, and what one of its walks
writes. -/
theorem Process.Moves.left (h : p.Moves who site task run e p' run' e') (hprocess : p.Abides law)
    (hengine : e.Abides law) (hleft : Run.Left u value ⟨run', p'⟩) :
    Run.Left u value ⟨run, p⟩ ∨
      site.depth = 0 ∧ site.process.signal? = some (site.process.serial, u, value) := by
  induction h with
  | here h => exact (h.left hprocess hengine hleft).imp_right (And.intro rfl)
  | called | returned =>
    -- the flow that a unit runs has a scope and walks of its own
    refine .inl (hleft.imp_right fun ⟨q, hq, hkeeps⟩ => ?_)
    obtain rfl := List.mem_singleton.mp hq
    exact ⟨_, mem_crew_self _, hkeeps.of_fork rfl⟩
  | inPlace _ _ ih =>
    obtain ⟨-, hinside⟩ := hprocess
    rw [Site.depth_within, Site.process_within]
    exact Run.left_exchange hleft (ih (hinside _ rfl) hengine) rfl rfl fun _ => .inr
  | @inPlaceEnded _ _ _ anchor entry resume branch branch' _ _ _ _ _ _ _ _ hclose ih =>
    obtain ⟨-, hinside⟩ := hprocess
    subst hclose
    rw [Site.depth_within, Site.process_within]
    -- what is left when it has joined was left when the branch had come to its end
    have hended : Run.Left u value ⟨_, .mk _ _ (.inPlace anchor entry resume branch')⟩ :=
      Scene.left_close rfl hleft
    exact Run.left_exchange hended (ih (hinside _ rfl) hengine) rfl rfl fun _ => .inr
  | @child _ _ _ _ entry _ _ before after _ branch _ _ _ _ _ _ _ _ _ ih =>
    obtain ⟨-, hinside⟩ := hprocess
    have hmem := mem_children before after entry branch
    rw [Site.depth_within, Site.process_within]
    refine Run.left_exchange hleft (ih (hinside _ ⟨entry, hmem⟩) hengine) rfl ⟨entry, hmem⟩ fun q hq => ?_
    refine (Activity.branches_exchange hq).imp_right fun ⟨entry', heq⟩ => ?_
    cases heq
    rfl
  | @childEnded _ _ _ _ entry _ _ before after _ _ branch _ _ _ _ _ _ _ _ _ _ ih =>
    obtain ⟨-, hinside⟩ := hprocess
    have hmem := mem_children before after entry branch
    rw [Site.depth_within, Site.process_within]
    refine Run.left_exchange hleft (ih (hinside _ ⟨entry, hmem⟩) hengine) rfl ⟨entry, hmem⟩ fun q hq => ?_
    exact (Activity.branches_exchange hq).imp_right fun ⟨entry', heq⟩ => nomatch heq

/-- The walks below a walk of a run are walks of that run. -/
theorem Process.crew_subset {q : Process} (h : q ∈ p.crew) : q.crew ⊆ p.crew := by
  induction p using Process.induction_runs with
  | h serial walk activity ih =>
    rcases Process.mem_crew.mp h with rfl | ⟨branch, hbranch, hin⟩
    · exact List.Subset.refl _
    · exact fun r hr => Process.mem_crew.mpr (.inr ⟨branch, hbranch, ih branch hbranch.runs hin hr⟩)

/-- A walk at a site that is in no flow which a unit runs is one of the run of the process. -/
theorem Process.At.mem_crew (h : p.At who task run site) (hdepth : site.depth = 0) :
    site.process ∈ p.crew := by
  induction h with
  | here => exact Process.mem_crew_self _
  | called => cases hdepth
  | inPlace _ ih =>
    rw [Site.depth_within] at hdepth
    rw [Site.process_within]
    exact Process.mem_crew.mpr (.inr ⟨_, rfl, ih hdepth⟩)
  | child hmem _ ih =>
    rw [Site.depth_within] at hdepth
    rw [Site.process_within]
    exact Process.mem_crew.mpr (.inr ⟨_, ⟨_, hmem⟩, ih hdepth⟩)

theorem Process.keeps_cancelTasks (h : p.cancelTasks.Keeps u value) : p.Keeps u value := by
  obtain ⟨serial, walk, activity⟩ := p
  refine h.of_fork ?_
  cases activity <;> rfl

theorem Run.AtStart.not_left {f : Run} (h : f.AtStart serial) : ¬ f.Left u value := by
  rintro (hslot | ⟨q, hq, hkeeps⟩)
  · rw [h.scope] at hslot
    cases hslot
  · rcases h.root with ⟨plan, pooled, hroot⟩ | ⟨v, hroot⟩
    all_goals
      rw [hroot] at hq
      obtain rfl := List.mem_singleton.mp hq
      rcases hkeeps with hkept | hfork
      · cases hkept
      · cases hfork

/-- A walk whose unit is writing a routing value does not come to its end by that. -/
theorem Process.Moves.signal?_eq_none (h : p.Moves who site task run e p' run' e')
    (hfinished : p'.isFinished = true) (hdepth : site.depth = 0) : site.process.signal? = none := by
  induction h with
  | @here _ walk activity _ _ s h =>
    by_contra hsignal
    obtain ⟨⟨w, v, target⟩, hsome⟩ := Option.ne_none_iff_exists'.mp hsignal
    obtain ⟨-, job, rest, hactivity, -⟩ := signal?_eq_some hsome
    obtain rfl : activity = _ := hactivity
    cases h with
    | does h hdoes => cases hfinished
    | advance h | missing h | queues h | begins h | granted h | sleeps h | wakes h | opens h | runs h
    | tidies h | ends h | forksNone h | forksOne h | forks h | starts h | refuses h | joins h => cases h
    | fails h hfails =>
      cases h
      cases hfails
    | gaveUp h hover =>
      cases h
      rcases hover with hdone | ⟨cause, hfails⟩
      · cases hdone
      · cases hfails
  | called | returned => cases hdepth
  | inPlace | child | childEnded => cases hfinished
  | inPlaceEnded _ hended _ ih =>
    rw [Site.depth_within] at hdepth
    rw [Site.process_within]
    exact ih hended hdepth

end

namespace Process

variable {who task position : Nat} {q q' : Process} {run found : RunState} {e engine : Engine}
  {u value : String} {law : Law}

/-- What a walk finds in a slot when its branches are over was left before. -/
theorem Closes.left {anchor : String} {result : Option Failure} {completed : List String}
    (h : q.Closes who task run e anchor result completed found engine) (hprocess : q.Abides law)
    (hengine : e.Abides law) (hslot : (found.scope.slots u).target = some value) :
    Run.Left u value ⟨run, q⟩ := by
  obtain ⟨serial, walk, activity⟩ := q
  obtain ⟨-, hinside⟩ := hprocess
  cases h with
  | forking => exact .inl hslot
  | inPlace hactivity hmoves hfinished =>
    obtain rfl : activity = _ := hactivity
    rcases hmoves.left (hinside _ rfl) hengine (.inl hslot) with hleft | ⟨hdepth, hsignal⟩
    · exact hleft.of_branch rfl
    · cases (hmoves.signal?_eq_none hfinished hdepth).symm.trans hsignal

/-- A walk that asks for nothing and has not come to its end is about to decide. -/
theorem activity_eq_advance {q : Process} (hnone : q.activity.resume? = none)
    (hrunning : q.isFinished = false) : q.activity = .poised .advance := by
  obtain ⟨serial, walk, activity⟩ := q
  match activity, hnone, hrunning with
  | .poised .advance, _, _ => rfl

/-- The routing value that a walk goes on with was left. -/
theorem Answers.left (h : q.Answers who task run e position (some value) q') (hfits : q.Fits)
    (hprocess : q.Abides law) (hengine : e.Abides law)
    (hunit : q.walk.plan.unitAt? position = some u) : Run.Left u value ⟨run, q⟩ := by
  obtain ⟨serial, walk, activity⟩ := q
  obtain ⟨-, hat, -⟩ := hfits
  generalize hsignal : some value = signal at h
  cases h with
  | @unit job told hactivity hstage hresume htold =>
    obtain rfl : activity = _ := hactivity
    obtain rfl := Option.some.inj ((hat hresume).symm.trans hunit)
    subst htold
    exact .inl ((Scene.fades_announce hengine task serial job .after none).1.target hsignal.symm)
  | failed => cases hsignal
  | @ahead v early hactivity hv hopen hgroup hearly =>
    obtain rfl := Option.some.inj (hv.symm.trans hunit)
    cases early with
    | forked => exact .inl hsignal.symm
    | routed route fork =>
      obtain rfl : some value = route := hsignal
      exact .inr ⟨_, mem_crew_self _, .early hearly⟩
    | failed => cases hsignal
  | joined hcloses hresume hrouter hchoice =>
    obtain rfl := Option.some.inj (hrouter.symm.trans hunit)
    exact hcloses.left hprocess hengine hsignal.symm
  | scattered hcloses hresume hsurvives =>
    subst hsignal
    exact .inr ⟨_, mem_crew_self _, .scattered hresume hunit⟩

end Process

/-! ## Executors -/

namespace Executor

variable {start x y z : Executor} {before more : List (Executor × Move)} {m : Move} {number : Nat}
  {u value : String} {f : Run} {q q' : Process} {node : Node} {law : Law}

/-- By some move a walk of the run with a number has written a routing value of a unit. -/
def Wrote (moves : List (Executor × Move)) (number : Nat) (u value : String) : Prop :=
  ∃ v m, (v, m) ∈ moves ∧ ∃ w, (w, u, value) ∈ v.written m ∧
    ∃ g ∈ v.flows, g.root.serial = number ∧ g.root.Holds w

theorem mem_written {i who : Nat} {site : Site} {written : Nat × String × String} (hat : x.At i who site)
    (hsignal : site.process.signal? = some written) : written ∈ x.written (.step who) := by
  have hlt : i < x.runs.length := by
    obtain ⟨run, hrun, -⟩ := id hat
    exact (List.getElem?_eq_some_iff.mp hrun).1
  exact List.mem_flatMap.mpr ⟨i, List.mem_range.mpr hlt,
    List.mem_filterMap.mpr ⟨site, mem_sites_of_at hat, hsignal⟩⟩

/-- What a run has left after a move it had left before, or one of its walks has written it. -/
theorem left_move (habides : x.Abides law) (hmove : x.move m = some y) (hf : f ∈ y.flows)
    (hleft : f.Left u value) : (∃ g ∈ x.flows, g.root.serial = f.root.serial ∧ g.Left u value) ∨
      Wrote [(x, m)] f.root.serial u value := by
  rcases flow_cases hmove hf with hold | hstart | ⟨who, rfl, g, hg, site, task, e, i, depth, hmoves, hat⟩ |
    ⟨g, hg, rfl⟩
  · exact .inl ⟨f, hold, rfl, hleft⟩
  · exact absurd hleft hstart.not_left
  · obtain ⟨run, hrun, hhas⟩ := has_root hg
    rcases hmoves.left ((habides.runs run hrun).of_has hhas) habides.engine hleft with
      hleft | ⟨hdepth, hsignal⟩
    · exact .inl ⟨g, hg, hmoves.serial.symm, hleft⟩
    · exact .inr ⟨x, _, List.mem_singleton_self _, _, mem_written hat hsignal, g, hg, hmoves.serial.symm,
        List.mem_map.mpr ⟨_, hmoves.at.1.mem_crew hdepth, rfl⟩⟩
  · refine .inl ⟨g, hg, g.root.serial_cancelTasks.symm, hleft.imp_right fun ⟨r, hr, hkeeps⟩ => ?_⟩
    obtain ⟨q, hq, rfl⟩ := Process.crew_cancelTasks hr
    exact ⟨q, hq, Process.keeps_cancelTasks hkeeps⟩

/-- What a run has left was written since any moment at which it had left nothing. -/
theorem History.left (h : z.History more x) (habides : z.Abides law)
    (hnone : ∀ g ∈ z.flows, g.root.serial = number → ¬ g.Left u value) (hf : f ∈ x.flows)
    (hserial : f.root.serial = number) (hleft : f.Left u value) : Wrote more number u value := by
  induction h generalizing f with
  | start => exact absurd hleft (hnone f hf hserial)
  | move h hmove ih =>
    rcases left_move (h.abides habides) hmove hf hleft with ⟨g, hg, hsame, hleft⟩ |
      ⟨v, m, hmem, hwritten⟩
    · obtain ⟨v, m, hmem, hwritten⟩ := ih hg (hsame.trans hserial) hleft
      exact ⟨v, m, List.mem_append_left _ hmem, hwritten⟩
    · rw [hserial] at hwritten
      exact ⟨v, m, List.mem_append_right _ hmem, hwritten⟩

/-- Routing is by what has been written since nothing was left of the router, in every schedule, for units
and listeners that signal in the way that is meant for it. A walk comes to skip something only when it
goes on behind a position of its plan. Suppose that at some moment, say when the walk came to the
condition, its run had no routing value of the unit at this position, neither in the slot of the unit nor
kept by a walk. Then the value that the walk goes on with was written since, by a walk of the same run
that executes this unit. If none was written, the walk goes on without a value, and at the end of a
condition it takes the arm for `false`, unless its unit has failed and it ends. -/
theorem History.routes_freshly {config : Config} {registry : Registry} {listeners : Listeners}
    {text : String} {part : Node} (hbuild : build config registry listeners = .ok start)
    (hunits : registry.Abides .any) (hlisteners : listeners.Abide)
    (hparse : Expression.parse text = .ok node) (hpart : part.Within node)
    (hbefore : start.History before z) (hmore : z.History more x) (hq : x.Has q)
    (hplan : part.compile? = some q.walk.plan) (hmove : x.move m = some y) (hq' : y.Has q')
    (hserial : q'.serial = q.serial) :
    (q'.walk.skipped = q.walk.skipped ∨ ∃ f ∈ x.flows, q ∈ f.root.crew ∧
      ∃ who task position signal, q.Answers who task f.state x.engine position signal q') ∧
    ∀ f ∈ x.flows, q ∈ f.root.crew → ∀ who task position signal u,
      q.Answers who task f.state x.engine position signal q' →
      q.walk.plan.unitAt? position = some u →
      (∀ g ∈ z.flows, g.root.serial = f.root.serial → ∀ value, ¬ g.Left u value) →
      (∀ value, signal = some value → Wrote more f.root.serial u value) ∧
      ((∀ value, ¬ Wrote more f.root.serial u value) → signal = none ∧
        ∀ c whenTrue whenFalse i behind first second,
          Node.Stands (.conditional c whenTrue whenFalse) i behind part 0 none →
          i + c.width = position + 1 → whenTrue.leaves.head? = some first →
          whenFalse.leaves.head? = some second →
          q'.Defers q.walk none ∨
            q'.Enters (whenTrue.armSpan whenFalse (position + 1) false)
              (whenTrue.armSpan whenFalse (position + 1) true) ∨
            q'.isFinished = true) := by
  obtain ⟨hfits, hsound⟩ := sound_build hbuild
  have hnormal : part.IsNormal := (Expression.isNormal_of_parse hparse).within hpart
  have hnone : ∀ q, start.Has q → q.Prunes := fun q hq => absurd hq (not_has_of_build hbuild)
  have hpast := hbefore.trans hmore
  have hz : z.Abides .any := hbefore.abides (abides_build hbuild hunits hlisteners)
  have hx := hmore.abides hz
  have hprunes := hpast.prunes hfits hnone q hq part hnormal hplan
  obtain ⟨own, hown, hhas⟩ := id hq
  have hqFits := (hpast.fits hfits own hown).of_has hhas
  refine ⟨?_, fun f hf hin who task position signal u hanswers hunit hempty => ?_⟩
  · refine (answers_move (hpast.numbered hfits hsound.toNumbered) hq hprunes hmove hq' hserial).imp_right ?_
    rintro ⟨state, who, task, position, signal, hthere, hanswers⟩
    obtain ⟨f, hf, rfl, hin⟩ := hthere.exists_flow
    exact ⟨f, hf, hin, who, task, position, signal, hanswers⟩
  -- the value is left when the walk goes on, and was not at the beginning, so it was written in
  -- between
  have hwrote : ∀ value, signal = some value → Wrote more f.root.serial u value := by
    rintro value rfl
    have hleft := hanswers.left hqFits ((hx.runs own hown).of_has hhas) hx.engine hunit
    refine hmore.left hz (fun g hg hsame => hempty g hg hsame value) hf rfl (hleft.imp_right ?_)
    rintro ⟨r, hr, hkeeps⟩
    exact ⟨r, Process.crew_subset hin hr, hkeeps⟩
  refine ⟨hwrote, fun hunwritten => ?_⟩
  obtain rfl : signal = none := by
    rcases signal with _ | value
    · rfl
    · exact absurd (hwrote value rfl) (hunwritten value)
  refine ⟨rfl, fun c t f' i behind first second hstands hlast hfirst hsecond => ?_⟩
  rcases hanswers.heeds hqFits hprunes ⟨⟨behind, hstands⟩, hlast, hfirst, hsecond⟩ nofun with
    hdefers | hheeds | ⟨-, hfinished⟩
  · exact .inl hdefers
  · exact .inr (.inl (hheeds.onFalse (.inl rfl)))
  · exact .inr (.inr hfinished)

/-- A walk is routed to a router ahead of its position, and goes on with the value that this execution has
written when it comes there. -/
theorem History.routes_freshly_ahead : ∃ (before more : List (Executor × Move)) (z x y : Executor) (f : Run)
    (q q' : Process),
    (doing [("a", .signalRoute "r" .done), ("r", .signalRoute "true" .done), ("x", .done),
        ("y", .done)]).History before z ∧ z.History more x ∧ f ∈ x.flows ∧ q ∈ f.root.crew ∧
      Node.compile? (.sequence [.unit "a", .conditional (.unit "r") (.unit "x") (.unit "y")]) =
        some q.walk.plan ∧
      x.move (.step 0) = some y ∧ y.Has q' ∧ q'.serial = q.serial ∧
      q.Answers 0 0 f.state x.engine 1 (some "true") q' ∧ q.walk.plan.unitAt? 1 = some "r" ∧
      (∀ g ∈ z.flows, g.root.serial = f.root.serial → ∀ value, ¬ g.Left "r" value) ∧
      Wrote more f.root.serial "r" "true" := by
  let units : List (String × Behavior) :=
    [("a", .signalRoute "r" .done), ("r", .signalRoute "true" .done), ("x", .done), ("y", .done)]
  let node : Node := .sequence [.unit "a", .conditional (.unit "r") (.unit "x") (.unit "y")]
  let plan := node.compile?.getD {}
  let z := ((doing units).follow [.launch (.plan plan) {}]).2
  let moves : List Move := List.replicate 11 (.step 0)
  let x := (z.follow moves).2
  let y := (x.follow [.step 0]).2
  have hparse : Expression.parse "a -> r ? x : y" = .ok node := by decide +kernel
  have hlaunch : (doing units).move (.launch (.plan plan) {}) = some z := rfl
  have hmove : x.move (.step 0) = some y := move_eq_follow (by decide +kernel)
  obtain ⟨⟨state, serial, walk, activity⟩, hrun, hserial, hnone, hrunning, hposition, hearly, hopen, hp, hq,
      hsequence, htargets, hentries, hchoices⟩ :
      ∃ run ∈ x.runs, run.root.serial = 0 ∧ run.root.activity.resume? = none ∧
        run.root.isFinished = false ∧ run.root.walk.position = 1 ∧
        run.root.walk.early.get? "r" = some (.routed (some "true") none) ∧
        run.root.walk.skipEnd? 1 = none ∧
        plan.groups.keys = [] ∧ run.root.walk.plan.groups.keys = [] ∧
        plan.sequence = run.root.walk.plan.sequence ∧ plan.targets = run.root.walk.plan.targets ∧
        plan.entries = run.root.walk.plan.entries ∧ plan.choices = run.root.walk.plan.choices := by
    decide +kernel
  have hsame : plan = walk.plan := Plan.eq_of_flat hp hq hsequence htargets hentries hchoices
  have hplan : node.compile? = some walk.plan := hsame ▸ rfl
  have hone : x.runs.length = 1 := by decide +kernel
  obtain rfl : serial = 0 := hserial
  obtain rfl : activity = .poised .advance :=
    Process.activity_eq_advance (q := .mk 0 walk activity) hnone hrunning
  have hbefore : (doing units).History _ z := .move .start hlaunch
  have hmore : z.History _ x := history_follow z moves
  have habides : ∀ u ∈ units, u.2.Abides .any := by
    simp only [units, List.forall_mem_cons]
    exact ⟨.signalRoute trivial .done, .signalRoute trivial .done, .done, .done, List.forall_mem_nil _⟩
  -- when the run begins, nothing is left in it
  have hfresh : ∀ g ∈ z.flows, g.root.serial = 0 → ∀ value, ¬ g.Left "r" value := fun g hg _ value => by
    rcases flow_cases hlaunch hg with hold | hstart | ⟨who, heq, -⟩ | ⟨g, hold, -⟩
    · rw [flows_build (build_doing units)] at hold
      cases hold
    · exact hstart.not_left
    · cases heq
    · rw [flows_build (build_doing units)] at hold
      cases hold
  clear_value x y z
  obtain ⟨past, mover, after, root, state', e', hruns, hstep, rfl⟩ := exists_step hmove
  rw [hruns, List.length_append, List.length_cons] at hone
  obtain rfl : past = [] := List.length_eq_zero_iff.mp (by omega)
  obtain rfl : after = [] := List.length_eq_zero_iff.mp (by simpa using hone)
  rw [hruns] at hrun
  cases List.mem_singleton.mp hrun
  let q : Process := .mk 0 walk (.poised .advance)
  let q' : Process := (walk.advance state.scope state.hasRun).process 0
  obtain rfl : root = q' := by
    simp only [Process.serial, Process.step, Activity.step, if_true, Scene.stepHere, Option.map_some,
      Option.some.injEq, Prod.mk.injEq] at hstep
    exact hstep.1.symm
  have hthere : (⟨state, q⟩ : Run) ∈ x.runs := by rw [hruns]; exact List.mem_singleton_self _
  have hflow : (⟨state, q⟩ : Run) ∈ x.flows := mem_flows.mpr ⟨_, hthere, List.mem_cons_self⟩
  have hthere' : Executor.Has { x with runs := [⟨state', q'⟩], engine := e' } q' :=
    ⟨_, List.mem_singleton_self _, .self _⟩
  have hposition : walk.position = 1 := hposition
  have hunit : walk.plan.unitAt? 1 = some "r" := by rw [← hsame]; rfl
  have hgroup : walk.plan.groupAt? walk.position = none := by rw [← hsame, hposition]; rfl
  have hanswers : q.Answers 0 0 state x.engine walk.position _ q' :=
    .ahead rfl (hposition ▸ hunit) (hposition ▸ hopen) hgroup hearly
  rw [hposition] at hanswers
  have hnone : ({} : Registry).Abides .any := fun u unit h => by cases h
  have hdeaf : ({} : Listeners).Abide := fun _ hmem => absurd hmem List.not_mem_nil
  obtain ⟨-, hall⟩ := History.routes_freshly (build_doing units)
    (Registry.abides_foldl_doing habides hnone) hdeaf hparse .self hbefore hmore ⟨_, hthere, .self _⟩
    hplan hmove hthere' rfl
  obtain ⟨hwrote, -⟩ := hall _ hflow (Process.mem_crew_self _) 0 0 1 (some "true") "r" hanswers hunit hfresh
  exact ⟨_, _, z, x, _, _, q, q', hbefore, hmore, hflow, Process.mem_crew_self _, hplan, hmove, hthere', rfl,
    hanswers, hunit, hfresh, hwrote "true" rfl⟩

/-- A unit has left a label for routing, and the walk comes to route by the same unit once more. This time
the branch in which the unit stands stops before it. The walk takes the arm for the label that is left. -/
theorem routes_by_leftover : ∃ (node : Node) (plan : Plan) (past : List (Executor × Move))
    (last : Executor) (f : Run),
    Expression.parse "r -> b -> (a, s -> r) ? x : y" = .ok node ∧ node.compile? = some plan ∧
      plan.sequence = ["r", "b", "a", "s", "r", "x", "y"] ∧
      (doing [("r", .signalRoute "true" .done), ("a", .done), ("b", .done),
        ("s", .signalRoute stopValue .done), ("x", .done), ("y", .done)]).History past last ∧
      past.head?.map Prod.snd = some (.launch (.plan plan) {}) ∧ f ∈ last.flows ∧
      f.state.unitNames = ["r", "b", "a", "s", "x"] ∧
      f.result?.map Outcome.status = some .completed := by
  let units : List (String × Behavior) :=
    [("r", .signalRoute "true" .done), ("a", .done), ("b", .done), ("s", .signalRoute stopValue .done),
      ("x", .done), ("y", .done)]
  let node : Node := .sequence [.unit "r", .unit "b",
    .conditional (.parallel [.unit "a", .sequence [.unit "s", .unit "r"]]) (.unit "x") (.unit "y")]
  let moves : List Move := .launch (.plan (node.compile?.getD {})) {} ::
    (List.replicate 20 0 ++ List.replicate 10 1 ++ List.replicate 10 2 ++ List.replicate 10 0).map .step
  let last := ((doing units).follow moves).2
  have hparse : Expression.parse "r -> b -> (a, s -> r) ? x : y" = .ok node := by decide +kernel
  obtain ⟨f, hf, hunits, hstatus⟩ : ∃ f ∈ last.flows, f.state.unitNames = ["r", "b", "a", "s", "x"] ∧
      f.result?.map Outcome.status = some .completed := by decide +kernel
  exact ⟨node, _, _, last, f, hparse, rfl, rfl, history_follow _ moves, rfl, hf, hunits, hstatus⟩

end Executor

end Workflow
