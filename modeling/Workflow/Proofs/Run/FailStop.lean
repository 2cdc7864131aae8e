import Workflow.Proofs.Run.Joins
import Workflow.Proofs.Run.Nesting
import Workflow.Proofs.Run.StepsOver

/-!
# The first failure is the last thing a walk does

In a context that is not tolerant, and where the units themselves let no walk go on, a failure ends the
walk that meets it: a unit that is not there, a unit that has failed, at the position of the walk or out
of order, and a group that has failed. Each of these exits writes the failure down, keeps it as that of
the walk and finishes the walk, all in one step (`Process.Fares`). A walk that is finished neither moves
nor writes again (`Executor.Halted`), so the failure is the last entry of the walk in the journal, and
the only failure among its entries.

A failure may pass several walks in one step, when branches that run in place end inside each other.
Every one of them fares like that, each with its own entry.
-/

namespace Workflow

/-! ## What ends a walk -/

/-- The unit that a walk is at work with does not let walks go on that it has failed. -/
def Activity.IsStern : Activity → Prop
  | .working job _ | .asleep job _ _ | .calling job _ _ _ => job.unit.tolerant = false
  | .poised _ | .queued .. | .inPlace .. | .forking .. => True

instance : DecidablePred Activity.IsStern
  | .working job _ | .asleep job _ _ | .calling job _ _ _ => instDecidableEqBool job.unit.tolerant false
  | .poised _ | .queued .. | .inPlace .. | .forking .. => .isTrue trivial

/-- What a walk that is busy like this writes down when it fails, and its failure: the unit that it asks
for is not there, the unit that it is at work with has failed, or the group that it waits for. -/
inductive Activity.FailsBy : Activity → Failure → Occurrence → Prop where
  | missing {u : String} {resume : Resume} :
    FailsBy (.poised (.execute u resume)) (.unknownUnit u) (.unitEnded u (some (.unknownUnit u)))
  | unit {job : Job} {behavior : Behavior} {failure : Failure} (hstage : job.stage = .onError failure) :
    FailsBy (.working job behavior) failure (.unitEnded job.unitId (some failure))
  | group {activity : Activity} {anchor entry : String} {entries started : List String}
      {source : Failure} (hpursuit : activity.pursuit = .fork anchor entries started) :
    FailsBy activity (.branchFailed anchor entry source)
      (.joined anchor (some (.branchFailed anchor entry source)))

theorem Activity.FailsBy.failure?_eq {activity : Activity} {failure : Failure} {o : Occurrence}
    (h : activity.FailsBy failure o) : o.failure? = some failure := by
  cases h <;> rfl

theorem Scene.exists_of_branchFailure? {anchor entry : String} {branch : Process} {failure : Failure}
    (h : Scene.branchFailure? anchor entry branch = some failure) :
    ∃ source, failure = .branchFailed anchor entry source := by
  obtain ⟨source, -, rfl⟩ := Option.map_eq_some_iff.mp h
  exact ⟨source, rfl⟩

theorem Scene.exists_of_joinFailure? {anchor : String} {children : List Child} {failure : Failure}
    (h : Scene.joinFailure? anchor children = some failure) :
    ∃ entry source, failure = .branchFailed anchor entry source := by
  obtain ⟨child, -, hchild⟩ := List.exists_of_findSome?_eq_some h
  obtain ⟨source, -, rfl⟩ := Option.map_eq_some_iff.mp hchild
  exact ⟨child.entry, source, rfl⟩

/-- An entry reports no failure. -/
def JournalEntry.IsFine (entry : JournalEntry) : Prop := entry.occurrence.failure? = none

/-- What a walk has come to by a move. -/
inductive Process.Fares (q : Process) (e : Engine) (q' : Process) (e' : Engine) : Prop where
  /-- It has not failed, and has written down nothing that fails. -/
  | goesOn {more : List Occurrence} (own : Journal.own e'.journal.toList q.serial =
        Journal.own e.journal.toList q.serial ++ more)
      (plain : ∀ o ∈ more, o.failure? = none) (clean : q'.walk.failure = none)
  /-- It has come to its end, and its failure is the last thing that it wrote down. -/
  | fails {first : List Occurrence} {o : Occurrence} {failure : Failure}
      (own : Journal.own e'.journal.toList q.serial =
        Journal.own e.journal.toList q.serial ++ first ++ [o])
      (plain : ∀ o ∈ first, o.failure? = none) (cause : q.activity.FailsBy failure o)
      (failure_eq : q'.walk.failure = some failure) (finished : q'.isFinished = true)

namespace Process

variable {q q' : Process} {e e₁ e' : Engine}

/-- What a walk has written down before, as part of the same move. -/
theorem Fares.after (h : q.Fares e₁ q' e') {before : List Occurrence}
    (heq : Journal.own e₁.journal.toList q.serial =
      Journal.own e.journal.toList q.serial ++ before)
    (hbefore : ∀ o ∈ before, o.failure? = none) : q.Fares e q' e' := by
  cases h with
  | goesOn own plain clean =>
    rw [heq, List.append_assoc] at own
    exact .goesOn own (List.forall_mem_append.mpr ⟨hbefore, plain⟩) clean
  | fails own plain cause failure finished =>
    rw [heq, List.append_assoc _ before] at own
    exact .fails own (List.forall_mem_append.mpr ⟨hbefore, plain⟩) cause failure finished

theorem Fares.of_own_eq (h : q.Fares e₁ q' e')
    (heq : Journal.own e₁.journal.toList q.serial = Journal.own e.journal.toList q.serial) :
    q.Fares e q' e' :=
  h.after (heq.trans (List.append_nil _).symm) (List.forall_mem_nil _)

/-- A walk that writes down nothing that fails. -/
theorem fares_of_logs (hlogs : e.Logs JournalEntry.IsFine e') (hclean : q'.walk.failure = none) :
    q.Fares e q' e' := by
  obtain ⟨more, hmore, hfine⟩ := hlogs.own q.serial
  exact .goesOn hmore (fun o ho => (hfine o ho).elim fun _ h => h) hclean

end Process

namespace Scene

variable {s s' : Scene} {task serial : Nat}

/-- A fork that has ended is the last thing that the walk around it does, if it has failed. -/
theorem fares_close {resume : Resume} {anchor : String} {result : Option Failure}
    (hearly : s.walk.EarlyFits) (hat : s.walk.AwaitsFork resume) (hclean : s.walk.failure = none)
    (htolerant : s.run.context.tolerant = false)
    (hfails : ∀ f, result = some f → s.activity.FailsBy f (.joined anchor (some f)))
    (task : Nat) (completed : List String) :
    (s.process serial).Fares s.engine
      ((s.close task serial anchor resume result completed).process serial)
      (s.close task serial anchor resume result completed).engine := by
  have hkeeps := Walk.keeps_forkDone hearly hat (s.run.publish result completed).scope
    (s.run.publish result completed).hasRun (s.run.publish result completed).context.tolerant result
  have hfailure : (s.close task serial anchor resume result completed).walk.failure = result := by
    refine hkeeps.failure.trans ?_
    rw [hclean, Option.none_or]
  have hown : Journal.own (s.close task serial anchor resume result completed).engine.journal.toList
      serial = Journal.own s.engine.journal.toList serial ++ [.joined anchor result] :=
    Engine.own_record_self ..
  cases result with
  | none => exact .goesOn hown (List.forall_mem_singleton.mpr rfl) hfailure
  | some f =>
    have hends : Walk.survivesGroup (s.run.publish (some f) completed).context.tolerant f = false := by
      rw [RunState.context_publish, htolerant]
      rfl
    rw [← List.append_nil (Journal.own s.engine.journal.toList serial)] at hown
    refine .fails hown (List.forall_mem_nil _) (hfails f rfl) hfailure ?_
    have hnext := Walk.next_forkDone hends s.walk (s.run.publish (some f) completed).scope
      (s.run.publish (some f) completed).hasRun resume
    show Process.isFinished (.mk serial _ (.poised (Walk.forkDone ..).next)) = true
    rw [hnext]
    rfl

/-- A unit that has ended is the last thing that its walk does, if it has failed and nobody lets the walk
go on. -/
theorem fares_unitEnded {u : String} {resume : Resume} {result : Option Mishap}
    (hearly : s.walk.EarlyFits) (hat : s.walk.AwaitsUnit u resume) (hclean : s.walk.failure = none)
    (hends : ∀ f, result = some f → Walk.survivesUnit s.run.context.tolerant f = false)
    {activity : Activity}
    (hfails : ∀ f, result = some f → activity.FailsBy f.failure (.unitEnded u (some f.failure)))
    (walk : Walk) (task : Nat) :
    (Process.mk serial walk activity).Fares s.engine
      ((s.unitEnded task serial u resume result).process serial)
      (s.unitEnded task serial u resume result).engine := by
  have hkeeps := Walk.keeps_unitDone hearly hat s.run.scope s.run.hasRun s.run.context.tolerant result
  have hfailure : (s.unitEnded task serial u resume result).walk.failure =
      result.map Mishap.failure := by
    refine hkeeps.failure.trans ?_
    rw [hclean, Option.none_or]
  have hown : Journal.own (s.unitEnded task serial u resume result).engine.journal.toList serial =
      Journal.own s.engine.journal.toList serial ++ [.unitEnded u (result.map Mishap.failure)] :=
    Engine.own_record_self ..
  cases result with
  | none => exact .goesOn hown (List.forall_mem_singleton.mpr rfl) hfailure
  | some f =>
    rw [← List.append_nil (Journal.own s.engine.journal.toList serial)] at hown
    refine .fails hown (List.forall_mem_nil _) (hfails f rfl) hfailure ?_
    have hnext := Walk.next_unitDone (hends f rfl) s.walk s.run.scope s.run.hasRun u resume
    show Process.isFinished (.mk serial _ (.poised (Walk.unitDone ..).next)) = true
    rw [hnext]
    rfl

/-- The same, after the listeners have been told. -/
theorem fares_endUnit {job : Job} {result : Option Mishap} (hearly : s.walk.EarlyFits)
    (hat : s.walk.AwaitsUnit job.unitId job.resume) (hclean : s.walk.failure = none)
    (hends : ∀ f, result = some f → Walk.survivesUnit s.run.context.tolerant f = false)
    (hfails : ∀ f, result = some f →
      s.activity.FailsBy f.failure (.unitEnded job.unitId (some f.failure)))
    (task : Nat) (moment : Moment) (failure : Option Failure) :
    let told := s.announce task serial job moment failure
    (s.process serial).Fares s.engine ((told.endUnit task serial job result).process serial)
      (told.endUnit task serial job result).engine := by
  intro told
  have hlogs : s.engine.Logs JournalEntry.IsFine told.engine :=
    logs_announce s job moment failure fun _ => rfl
  obtain ⟨remarks, hremarks, hfine⟩ := hlogs.own serial
  rw [endUnit_eq]
  generalize (if told.walk.pooled then told.engine.pool.release else told.engine.pool) = pool
  have hfares : (Process.mk serial s.walk s.activity).Fares _ _ _ :=
    fares_unitEnded (s := { told with engine := { told.engine with pool := pool } }) hearly hat hclean
      hends hfails s.walk task
  exact hfares.after hremarks fun o ho => (hfine o ho).elim fun _ h => h

/-- What a walk comes to by what it does where it stands, if it has not failed before. -/
theorem Steps.fares (h : s.Steps task serial s') (hfits : (s.process serial).Fits)
    (htolerant : s.run.context.tolerant = false) (hstern : s.activity.IsStern)
    (hclean : s.walk.failure = none) :
    (s.process serial).Fares s.engine (s'.process serial) s'.engine := by
  obtain ⟨walk, activity, run, engine⟩ := s
  obtain ⟨hearly, hat, -⟩ := hfits
  -- in most steps no failure is written down, and the walk has none afterwards
  have hplain : ∀ {s' : Scene}, engine.Logs JournalEntry.IsFine s'.engine → s'.walk.failure = none →
      (Scene.process ⟨walk, activity, run, engine⟩ serial).Fares engine (s'.process serial) s'.engine :=
    fun hlogs hclean' => Process.fares_of_logs hlogs hclean'
  cases h with
  | advance => exact hplain (.of_eq rfl) ((Walk.keeps_advance hearly _ _).failure.trans hclean)
  | queues | sleeps | wakes | opens | tidies | fails | refuses => exact hplain (.of_eq rfl) hclean
  | missing h =>
    obtain rfl : activity = _ := h
    exact fares_unitEnded (s := ⟨walk, _, run, engine⟩) hearly hat hclean
      (fun f hf => by cases hf; rfl) (fun f hf => by cases hf; exact .missing) walk task
  | @begins _ _ _ pool => exact hplain (.record { engine with pool := pool } rfl) hclean
  | granted => exact hplain (.record { engine with pool := engine.pool.accept serial } rfl) hclean
  | does _ hdoes =>
    cases hdoes with
    | note => exact hplain (.record engine rfl) hclean
    | access | signalRoute | signalFork | payload | viewPool | closePool | addUnit | addFlow
    | eraseUnit | noFlow => exact hplain (.of_eq rfl) hclean
  | runs => exact hplain (logs_announce ⟨walk, activity, run, engine⟩ _ _ _ fun _ => rfl) hclean
  | @ends job h =>
    obtain rfl : activity = _ := h
    exact fares_endUnit (s := ⟨walk, _, run, engine⟩) hearly hat hclean
      (fun f hf => by cases hf) (fun f hf => by cases hf) task .after none
  | @gaveUp job _ failure h _ hstage =>
    obtain rfl : activity = _ := h
    -- neither the context nor the unit forgives the failure
    have hends : Walk.survivesUnit run.context.tolerant ⟨failure, job.unit.tolerant⟩ = false := by
      have hunit : job.unit.tolerant = false := hstern
      have hcontext : run.context.tolerant = false := htolerant
      rw [Walk.survivesUnit, hunit, hcontext, Bool.or_self, Bool.and_false]
    exact fares_endUnit (s := ⟨walk, _, run, engine⟩) hearly hat hclean
      (fun f hf => Option.some.inj hf ▸ hends) (fun f hf => Option.some.inj hf ▸ .unit hstage) task
      .error (some failure)
  | @forksNone anchor _ h =>
    obtain rfl : activity = _ := h
    -- without branches there is nothing that could have failed
    have hforked : engine.Logs JournalEntry.IsFine (engine.record task serial (.forked anchor [])) :=
      .record engine rfl
    exact hplain (hforked.trans (.record _ rfl))
      ((Walk.keeps_forkDone hearly hat _ _ _ none).failure.trans (by rw [hclean]; rfl))
  | @forksOne anchor branch =>
    have hforked : engine.Logs JournalEntry.IsFine
      (engine.record task serial (.forked anchor [branch.entry])) := .record engine rfl
    exact hplain (hforked.trans (.record { engine.record task serial
      (.forked anchor [branch.entry]) with nextSerial := engine.nextSerial + 1 } rfl)) hclean
  | forks => exact hplain (.record engine rfl) hclean
  | starts => exact hplain (.record { engine with
      pool := { engine.pool with inFlight := engine.pool.inFlight + 1 }
      nextSerial := engine.nextSerial + 1 } rfl) hclean
  | joins h =>
    obtain rfl : activity = _ := h
    refine fares_close (s := ⟨walk, _, run, engine⟩) hearly hat hclean htolerant (fun f hf => ?_) task _
    obtain ⟨entry, source, rfl⟩ := exists_of_joinFailure? hf
    exact .group rfl

end Scene

/-- What a walk comes to by a move of its own, if it has not failed before: the failure of a unit that
nobody forgives, or of a group, ends it. -/
theorem Process.Moves.fares {who task : Nat} {q q' : Process} {run run' : RunState} {e e' : Engine}
    {site : Site} (h : q.Moves who site task run e q' run' e') (hfits : q.Fits)
    (hnodup : q.serials.Nodup) (htolerant : run.context.tolerant = false)
    (hstern : q.activity.IsStern) (hclean : q.walk.failure = none) : q.Fares e q' e' := by
  have hquiet : Journal.own e'.journal.toList q.serial = Journal.own e.journal.toList q.serial →
      q'.walk.failure = none → q.Fares e q' e' := fun heq hclean' =>
    .goesOn (heq.trans (List.append_nil _).symm) (List.forall_mem_nil _) hclean'
  cases h with
  | here h => exact h.fares hfits htolerant hstern hclean
  | called h | returned h | inPlace h =>
    obtain ⟨hserial, hbelow⟩ := List.nodup_cons.mp hnodup
    exact hquiet (h.own_eq hbelow hserial) hclean
  | @inPlaceEnded _ serial walk anchor entry resume branch branch' _ found _ engine s site h hfinished
      hclose =>
    obtain ⟨hserial, hbelow⟩ := List.nodup_cons.mp hnodup
    obtain ⟨hearly, hat, -⟩ := hfits
    subst hclose
    refine Fares.of_own_eq ?_ (h.own_eq hbelow hserial)
    refine Scene.fares_close (s := ⟨walk, .inPlace anchor entry resume branch, found, engine⟩) hearly hat
      hclean (h.tolerant.trans htolerant) (fun f hf => ?_) task [entry]
    obtain ⟨source, rfl⟩ := Scene.exists_of_branchFailure? hf
    exact .group rfl
  | @child _ serial _ _ entry _ _ before after _ branch _ _ _ _ _ site h
  | @childEnded _ serial _ _ entry _ _ before after _ _ branch _ _ _ _ _ site h =>
    obtain ⟨hserial, hbelow⟩ := List.nodup_cons.mp hnodup
    have hmem := Process.mem_children before after entry branch
    exact hquiet (h.own_eq (Child.nodup_serials hbelow hmem)
      fun hin => hserial (Child.mem_serialsIn hmem hin)) hclean

namespace Executor

variable {x y start last : Executor} {m : Move} {past after : List (Executor × Move)} {i w : Nat}
  {run run' : Run} {q : Process}

/-! ## Walks that have come to their end -/

/-- The failure of a walk is the first that it has written down. -/
theorem Has.failure_eq (h : x.Has q) (hnumbered : x.ledger.Numbered) :
    q.walk.failure = (Journal.failures x.engine.journal.toList q.serial).head? := by
  obtain ⟨run, hrun, hq⟩ := h
  obtain ⟨other?, hother⟩ := Process.numbered_of_has (numbered_root hnumbered hrun) hq
  obtain ⟨serial, walk, activity⟩ := q
  exact hother.failure (Live.of serial other? walk activity) List.mem_cons_self

/-- A walk has come to its end, and may or may not be there still. -/
structure Halted (x : Executor) (w : Nat) : Prop where
  known : w < x.engine.nextSerial
  finished : ∀ q, x.Has q → q.serial = w → q.isFinished = true

/-- A walk that has come to its end stays so, and nothing more is written down about it. -/
theorem Halted.move (h : x.Halted w) (hfits : x.Fits) (hnumbered : x.ledger.Numbered)
    (hmove : x.move m = some y) :
    y.Halted w ∧ Journal.own y.engine.journal.toList w = Journal.own x.engine.journal.toList w := by
  refine ⟨⟨lt_of_lt_of_le h.known (nextSerial_le hfits hmove), fun q hq heq => ?_⟩, ?_⟩
  · rcases comesFrom hmove hq with ⟨who, -, hnew | hold | ⟨_, _, p, _, _, _, hp, hmoves⟩⟩ |
      hnew | hold | ⟨p, hp, rfl⟩
    · exact absurd (heq ▸ h.known) (by omega)
    · exact h.finished q hold heq
    · exact absurd hmoves (Process.not_moves_of_isFinished
        (h.finished p hp (hmoves.serial.symm.trans heq)))
    · exact absurd (heq ▸ h.known) (by omega)
    · exact h.finished q hold heq
    · rw [p.serial_cancelTasks] at heq
      rw [p.isFinished_cancelTasks]
      exact h.finished p hp heq
  · by_cases hthere : ∃ q, x.Has q ∧ q.serial = w
    · obtain ⟨q, ⟨run, hrun, hq⟩, rfl⟩ := hthere
      obtain ⟨state, hin⟩ : ∃ state, run.Has state q := Run.exists_has hq
      by_contra hwrote
      obtain ⟨who, site, task, q', state', e', -, hmoves, -⟩ :=
        own_move hnumbered hmove ⟨run, hrun, hin⟩ hwrote
      exact Process.not_moves_of_isFinished (h.finished q ⟨run, hrun, hq⟩ rfl) hmoves
    · have hgone : x.Gone w := ⟨h.known, fun q hq heq => hthere ⟨q, hq, heq⟩⟩
      exact (hgone.move hfits hnumbered hmove).2

theorem History.halted (h : start.History past last) (hfits : start.Fits)
    (hnumbered : start.ledger.Numbered) (hhalted : start.Halted w) :
    last.Halted w ∧
      Journal.own last.engine.journal.toList w = Journal.own start.engine.journal.toList w := by
  induction h with
  | start => exact ⟨hhalted, rfl⟩
  | move h hmove ih =>
    obtain ⟨hx, hown⟩ := ih
    have hstep := hx.move (h.fits hfits) (h.numbered hfits hnumbered) hmove
    exact ⟨hstep.1, hstep.2.trans hown⟩

/-! ## Runs in which every failure ends a walk -/

/-- The units that the walks of a run are at work with let no walk go on that they have failed. -/
def IsStern (x : Executor) (i : Nat) : Prop :=
  ∀ run, x.runs[i]? = some run → ∀ f ∈ run.flows, ∀ q ∈ f.root.crew, q.activity.IsStern

/-- The runs in a run after a move: they were there before, or are at their start in a context of their
own, or the task that moves has moved in them, or they have given up their branches. -/
theorem Affects.flow_cases (haffects : x.Affects m y i run run') {f : Run} (hf : f ∈ run'.flows) :
    f ∈ run.flows ∨ f.AtStart x.engine.nextSerial ∧ f.state.context = {} ∨
      (∃ g ∈ run.flows, ∃ (who : Nat) (site : Site) (task : Nat) (e : Engine),
        g.root.Moves who site task g.state x.engine f.root f.state e) ∨
      ∃ g ∈ run.flows, f = ⟨g.state, g.root.cancelTasks⟩ := by
  cases haffects with
  | others => exact .inl hf
  | @step who site _ _ hmoves =>
    rcases List.mem_cons.mp hf with rfl | hf
    · exact .inr (.inr (.inl ⟨run, List.mem_cons_self, who, site, _, _, hmoves⟩))
    · rcases hmoves.subruns_cases hf with hold | hstart | ⟨g, hg, inner, task, e₁, hmoves, -⟩
      · exact .inl (List.mem_cons_of_mem _ hold)
      · exact .inr (.inl hstart)
      · exact .inr (.inr (.inl ⟨g, List.mem_cons_of_mem _ hg, who, inner, task, e₁, hmoves⟩))
  | givesUp =>
    rcases List.mem_cons.mp hf with rfl | hf
    · exact .inr (.inr (.inr ⟨run, List.mem_cons_self, rfl⟩))
    · obtain ⟨g, hg, rfl⟩ := Process.subruns_cancelTasks hf
      exact .inr (.inr (.inr ⟨g, List.mem_cons_of_mem _ hg, rfl⟩))

end Executor

/-- The contexts of a run and of the flows in it are not tolerant, and none of the walks in them that are
on their way has failed. -/
structure Run.IsClean (run : Run) : Prop where
  strict : ∀ f ∈ run.flows, f.state.context.tolerant = false
  walks : ∀ f ∈ run.flows, ∀ q ∈ f.root.crew, q.isFinished = false → q.walk.failure = none

namespace Executor

variable {x y start last : Executor} {m : Move} {past after : List (Executor × Move)} {i w : Nat}
  {run run' : Run} {q : Process}

/-- A walk that is new has not failed. -/
theorem failure_eq_none_of_new (hnumbered : x.ledger.Numbered) (hmove : x.move m = some y)
    (hq : y.Has q) (hnew : q.serial = x.engine.nextSerial) : q.walk.failure = none := by
  have hknown : ∀ p, x.Has p → p.serial ≠ x.engine.nextSerial := by
    rintro p ⟨run, hrun, hp⟩
    exact (serial_lt hnumbered hrun _ (hp.serials_subset p.serial_mem_serials)).ne
  rcases stemsFrom hmove hq with (⟨plan, pooled, rfl⟩ | ⟨u, rfl⟩) | hold |
    ⟨_, _, _, p, _, _, _, -, hp, hmoves⟩ | ⟨p, hp, rfl⟩
  · rfl
  · rfl
  · exact absurd hnew (hknown q hold)
  · exact absurd (hmoves.serial.symm.trans hnew) (hknown p hp)
  · exact absurd (p.serial_cancelTasks.symm.trans hnew) (hknown p hp)

/-- What a walk of such a run comes to by a move of its own. -/
theorem fares_of_moves {f : Run} {who task : Nat} {site : Site} {q' : Process} {state : RunState}
    {e' : Engine} (hfits : x.Fits) (hnumbered : x.ledger.Numbered) (hstern : x.IsStern i)
    (hrun : x.runs[i]? = some run) (hclean : run.IsClean) (hf : f ∈ run.flows) (hq : q ∈ f.root.crew)
    (h : q.Moves who site task f.state x.engine q' state e') : q.Fares x.engine q' e' := by
  have hin : run.Has f.state q := ⟨f, hf, rfl, hq⟩
  have hmem := List.mem_of_getElem? hrun
  obtain ⟨other?, hother⟩ := Process.numbered_of_has (numbered_root hnumbered hmem) hin.has
  have hrunning : q.isFinished = false :=
    Bool.not_eq_true _ ▸ fun hover => Process.not_moves_of_isFinished hover h
  exact h.fares ((hfits run hmem).of_has hin.has) (Process.nodup_of_numbered hother)
    (hclean.strict f hf) (hstern run hrun f hf q hq) (hclean.walks f hf q hq hrunning)

/-- A run stays like that. -/
theorem Affects.isClean (haffects : x.Affects m y i run run') (hfits : x.Fits)
    (hnumbered : x.ledger.Numbered) (hmove : x.move m = some y) (hstern : x.IsStern i)
    (hrun : x.runs[i]? = some run) (hrun' : y.runs[i]? = some run') (hclean : run.IsClean) :
    run'.IsClean := by
  refine ⟨fun f hf => ?_, fun f hf q hq hrunning => ?_⟩
  · rcases haffects.flow_cases hf with hold | ⟨-, hcontext⟩ | ⟨g, hg, _, _, _, _, hmoves⟩ | ⟨g, hg, rfl⟩
    · exact hclean.strict f hold
    · rw [hcontext]
    · exact hmoves.tolerant.trans (hclean.strict g hg)
    · exact hclean.strict g hg
  · have hin : run'.Has f.state q := ⟨f, hf, rfl, hq⟩
    have hnew := failure_eq_none_of_new hnumbered hmove ⟨run', List.mem_of_getElem? hrun', hin.has⟩
    rcases haffects.flow_cases hf with hold | ⟨hstart, -⟩ | ⟨g, hg, _, _, _, _, hmoves⟩ | ⟨g, hg, rfl⟩
    · exact hclean.walks f hold q hq hrunning
    · exact hnew (hstart.crew hq)
    · rcases hmoves.movesFrom hq with hold | hserial | ⟨r, hr, _, _, e₁, hmoved⟩
      · exact hclean.walks g hg q hold hrunning
      · exact hnew hserial
      · cases fares_of_moves hfits hnumbered hstern hrun hclean hg hr hmoved with
        | goesOn _ _ hclean' => exact hclean'
        | fails _ _ _ _ hfinished => cases hrunning.symm.trans hfinished
    · obtain ⟨r, hr, rfl⟩ := Process.crew_cancelTasks hq
      rw [r.isFinished_cancelTasks] at hrunning
      rw [Process.walk_cancelTasks]
      exact hclean.walks g hg r hr hrunning

theorem History.isClean (h : start.History past last) (hfits : start.Fits)
    (hnumbered : start.ledger.Numbered) (hrun : start.runs[i]? = some run) (hclean : run.IsClean)
    (hstern : ∀ z m, (z, m) ∈ past → z.IsStern i) :
    ∃ run', last.runs[i]? = some run' ∧ run'.IsClean := by
  obtain ⟨own, hown, hall⟩ := h.follow_run
    (P := fun past own => (∀ z m, (z, m) ∈ past → z.IsStern i) → own.IsClean) hfits hnumbered hrun
    (fun _ => hclean)
    fun past x y m own own' _ hfits hnumbered hmove hown hown' haffects hall hstern =>
      haffects.isClean hfits hnumbered hmove (hstern x m (by simp)) hown hown'
        (hall fun z m hmem => hstern z m (List.mem_append_left _ hmem))
  exact ⟨own, hown, hall hstern⟩

theorem isClean_ofPlan {context : Context} (htolerant : context.tolerant = false) (scopeId serial : Nat)
    (plan : Plan) :
    Run.IsClean ⟨{ context := context, scopeId := scopeId }, .ofPlan serial plan false⟩ := by
  refine ⟨fun f hf => ?_, fun f hf q hq _ => ?_⟩
  all_goals obtain rfl := List.mem_singleton.mp hf
  · exact htolerant
  · obtain rfl := List.mem_singleton.mp hq
    rfl

/-- What a walk of such a run writes down in a move: if it is a failure, the walk has come to its end,
and it has written nothing after it. -/
theorem fails_move {f : Run} {task : Nat} {o : Occurrence} {failure : Failure} (hfits : x.Fits)
    (hnumbered : x.ledger.Numbered) (hstern : x.IsStern i) (hmove : x.move m = some y)
    (hrun : x.runs[i]? = some run) (hclean : run.IsClean) (hf : f ∈ run.flows) (hq : q ∈ f.root.crew)
    (hwritten : ⟨task, q.serial, o⟩ ∈ y.engine.journal.toList.drop x.engine.journal.size)
    (hfailure : o.failure? = some failure) :
    y.Halted q.serial ∧ q.activity.FailsBy failure o ∧
      ∃ first, Journal.own y.engine.journal.toList q.serial = first ++ [o] ∧
        ∀ o' ∈ first, o'.failure? = none := by
  have hmem := List.mem_of_getElem? hrun
  have hin : run.Has f.state q := ⟨f, hf, rfl, hq⟩
  have hlogs : x.engine.Logs (fun _ => True) y.engine :=
    (logs_move hmove).mono fun _ _ => trivial
  have hdrop := hlogs.own_drop q.serial
  have hown : o ∈ Journal.own (y.engine.journal.toList.drop x.engine.journal.size) q.serial :=
    List.mem_filterMap.mpr ⟨_, hwritten, if_pos rfl⟩
  -- the walk has written something, so the move is its own
  have hwrote : Journal.own y.engine.journal.toList q.serial ≠
      Journal.own x.engine.journal.toList q.serial := by
    intro heq
    rw [List.append_right_eq_self.mp (hdrop.symm.trans heq)] at hown
    cases hown
  obtain ⟨who, site, task', q', state', e', -, hmoves, heq, -, hstays⟩ :=
    own_move hnumbered hmove ⟨run, hmem, hin⟩ hwrote
  -- it has not failed before, as it still moves
  have hnone : Journal.failures x.engine.journal.toList q.serial = [] := by
    have hrunning : q.isFinished = false :=
      Bool.not_eq_true _ ▸ fun hover => Process.not_moves_of_isFinished hover hmoves
    rw [← List.head?_eq_none_iff, ← Has.failure_eq ⟨run, hmem, hin.has⟩ hnumbered]
    exact hclean.walks f hf q hq hrunning
  have hbefore : ∀ o' ∈ Journal.own x.engine.journal.toList q.serial, o'.failure? = none :=
    fun o' ho' => List.filterMap_eq_nil_iff.mp hnone o' ho'
  rw [heq q.serial q.serial_mem_serials] at hdrop
  cases fares_of_moves hfits hnumbered hstern hrun hclean hf hq hmoves with
  | goesOn own plain =>
    rw [List.append_cancel_left (hdrop.symm.trans own)] at hown
    cases (plain o hown).symm.trans hfailure
  | @fails first o' failure' own plain cause failure_eq finished =>
    rw [List.append_assoc] at own
    rw [List.append_cancel_left (hdrop.symm.trans own)] at hown
    rcases List.mem_append.mp hown with hfirst | hlast
    · cases (plain o hfirst).symm.trans hfailure
    · obtain rfl := List.mem_singleton.mp hlast
      obtain rfl := Option.some.inj (cause.failure?_eq.symm.trans hfailure)
      refine ⟨⟨?_, fun r hr hserial => ?_⟩, cause, _, ?_, List.forall_mem_append.mpr ⟨hbefore, plain⟩⟩
      · exact lt_of_lt_of_le (serial_lt hnumbered hmem _ (hin.has.serials_subset q.serial_mem_serials))
          (nextSerial_le hfits hmove)
      · rcases hstays with hthere | ⟨-, hgone⟩
        · have hynumbered := numbered_move hfits hnumbered hmove
          rw [hr.unique hthere.has hynumbered (hserial.trans hmoves.serial.symm)]
          exact finished
        · exact absurd hserial (hgone r hr)
      · rw [heq q.serial q.serial_mem_serials, own, List.append_assoc]

end Executor

/-! ## What a run has executed when it fails -/

/-- The unit counts as executed by the next step of the walk. -/
def Process.Counts (q : Process) (unit : String × String) : Prop :=
  ∃ job, q.activity = .working job .done ∧ job.stage = .before ∧ unit = (job.unitId, job.unit.name)

/-- How the failure of a unit looks in the run of its walk: the unit is not there, or has failed before it
counted as executed, or it is the last one executed. -/
inductive RunState.FailsAt (r : RunState) (u : String) : Failure → Prop where
  | missing : FailsAt r u (.unknownUnit u)
  | early (cause : Cause) : FailsAt r u (.unitFailed u .beforeRun cause)
  | counted {phase : Phase} (name : String) (hphase : phase ≠ .beforeRun)
      (hlast : r.executed.getLast? = some (u, name)) (cause : Cause) :
    FailsAt r u (.unitFailed u phase cause)

/-- What a stage of a unit says about the run of its walk. -/
def Stage.Accounts (r : RunState) (u : String) : Stage → Prop
  | .before => True
  | .run | .after => ∃ name, r.executed.getLast? = some (u, name)
  | .onError failure => r.FailsAt u failure

theorem RunState.FailsAt.of_executed_eq {r r' : RunState} {u : String} {failure : Failure}
    (h : r.FailsAt u failure) (heq : r'.executed = r.executed) : r'.FailsAt u failure := by
  cases h with
  | missing => exact .missing
  | early cause => exact .early cause
  | counted name hphase hlast cause => exact .counted name hphase (heq ▸ hlast) cause

theorem Stage.Accounts.of_executed_eq {r r' : RunState} {u : String} {stage : Stage}
    (h : stage.Accounts r u) (heq : r'.executed = r.executed) : stage.Accounts r' u := by
  cases stage with
  | before => trivial
  | run | after => exact h.imp fun _ hlast => heq ▸ hlast
  | onError failure => exact RunState.FailsAt.of_executed_eq h heq

/-- A call that fails, in a stage that says so. -/
theorem Stage.Accounts.fails {r : RunState} {u : String} {stage : Stage} (h : stage.Accounts r u)
    (hstage : ∀ failure, stage ≠ .onError failure) (cause : Cause) :
    r.FailsAt u (.unitFailed u (Scene.phase stage) cause) := by
  cases stage with
  | before => exact .early cause
  | run =>
    obtain ⟨name, hlast⟩ := h
    show r.FailsAt u (.unitFailed u .run cause)
    exact .counted name (by decide) hlast cause
  | after =>
    obtain ⟨name, hlast⟩ := h
    show r.FailsAt u (.unitFailed u .afterRun cause)
    exact .counted name (by decide) hlast cause
  | onError failure => exact absurd rfl (hstage failure)

namespace Executor

/-- The walk of the run waits for a fork with this anchor. -/
def WaitsFor (x : Executor) (i : Nat) (anchor : String) : Prop :=
  ∃ run entries started, x.runs[i]? = some run ∧
    run.root.activity.pursuit = .fork anchor entries started

/-- The unit counts as executed by the next step of a walk in the branches that the walk of the run
waits for. -/
def CountsBelow (x : Executor) (i : Nat) (unit : String × String) : Prop :=
  ∃ run, x.runs[i]? = some run ∧ ∃ q ∈ run.root.activity.crew, q.Counts unit

/-- The walk of a run has forked and has waited since. What has been executed since then was executed in
its branches. -/
def Forked (past : List (Executor × Move)) (i : Nat) (r : RunState) (anchor : String) : Prop :=
  ∃ (earlier later : List (Executor × Move)) (x : Executor) (m : Move) (run : Run)
    (branches : List (Branch Plan)) (resume : Resume) (units : List (String × String)),
    past = earlier ++ (x, m) :: later ∧ x.runs[i]? = some run ∧
      run.root.activity = .poised (.fork anchor branches resume) ∧
      r.executed = run.state.executed ++ units ∧
      (∀ z m, (z, m) ∈ later → z.WaitsFor i anchor) ∧
      ∀ unit ∈ units, ∃ z m, (z, m) ∈ later ∧ z.CountsBelow i unit

end Executor

/-- What is known of the run of a walk while it is busy like this. -/
def Activity.Accounts (past : List (Executor × Move)) (i : Nat) (r : RunState) : Activity → Prop
  | .working job _ | .asleep job _ _ | .calling job _ _ _ => job.stage.Accounts r job.unitId
  | .inPlace anchor .. | .forking anchor .. => Executor.Forked past i r anchor
  | .poised _ | .queued .. => True

/-- The last thing that the walk of a run has written down, if the run has ended with this failure: it is
the failure of a unit, or that of a group whose own units are the last ones executed. -/
def Occurrence.EndsRun (past : List (Executor × Move)) (i : Nat) (r : RunState) (failure : Failure) :
    Occurrence → Prop
  | .unitEnded u result => result = some failure ∧ r.FailsAt u failure
  | .joined anchor result => result = some failure ∧
    (∃ entry source, failure = .branchFailed anchor entry source) ∧
    ∃ before rest, past = before ++ rest ∧ Executor.Forked before i r anchor
  | .remark _ | .unitStarted _ | .forked .. | .branchStarted .. => False

/-- How a run has ended that has failed. -/
structure Run.StopsAt (past : List (Executor × Move)) (i : Nat) (own : List Occurrence) (run : Run)
    (failure : Failure) : Prop where
  last : ∃ first o, own = first ++ [o] ∧ (∀ o' ∈ first, o'.failure? = none) ∧
    o.EndsRun past i run.state failure
  result : ∃ outcome, run.result? = some outcome ∧ outcome.status = .failed ∧
    outcome.failure = some failure

theorem Scene.executed_close (s : Scene) (task serial : Nat) (anchor : String) (resume : Resume)
    (result : Option Failure) (completed : List String) :
    (s.close task serial anchor resume result completed).run.executed = s.run.executed :=
  s.run.executed_publish result completed

/-- Nothing counts as executed by a move but a unit of a walk of the run. -/
theorem Process.Moves.executed {who task : Nat} {p p' : Process} {run run' : RunState} {e e' : Engine}
    {site : Site} (h : p.Moves who site task run e p' run' e') : run'.executed = run.executed ∨
      ∃ q ∈ p.crew, ∃ unit, q.Counts unit ∧ run'.executed = run.executed ++ [unit] := by
  induction h with
  | here h =>
    rcases h.executed with heq | ⟨job, hactivity, hstage, heq⟩
    · exact .inl heq
    · exact .inr ⟨_, mem_crew_self _, _, ⟨job, hactivity, hstage, rfl⟩, heq⟩
  | called | returned => exact .inl rfl
  | inPlace _ _ ih => exact ih.imp_right fun ⟨q, hq, hunit⟩ => ⟨q, mem_crew.mpr (.inr ⟨_, rfl, hq⟩), hunit⟩
  | inPlaceEnded _ _ hclose ih =>
    subst hclose
    rw [Scene.executed_close]
    exact ih.imp_right fun ⟨q, hq, hunit⟩ => ⟨q, mem_crew.mpr (.inr ⟨_, rfl, hq⟩), hunit⟩
  | @child _ _ _ _ entry _ _ before after _ branch _ _ _ _ _ _ _ _ _ ih
  | @childEnded _ _ _ _ entry _ _ before after _ _ branch _ _ _ _ _ _ _ _ _ _ ih =>
    exact ih.imp_right fun ⟨q, hq, hunit⟩ =>
      ⟨q, mem_crew.mpr (.inr ⟨branch, ⟨entry, mem_children before after entry branch⟩, hq⟩), hunit⟩

namespace Executor

variable {x y start last : Executor} {m : Move} {past after : List (Executor × Move)} {i : Nat}
  {run run' : Run} {r r' : RunState} {anchor : String}

/-- A walk that is about to fork. -/
theorem forked_start {branches : List (Branch Plan)} {resume : Resume} (hrun : x.runs[i]? = some run)
    (hactivity : run.root.activity = .poised (.fork anchor branches resume))
    (heq : r.executed = run.state.executed) : Forked (past ++ [(x, m)]) i r anchor :=
  ⟨past, [], x, m, run, branches, resume, [], rfl, hrun, hactivity,
    heq.trans (List.append_nil _).symm, fun _ _ hmem => absurd hmem List.not_mem_nil,
    List.forall_mem_nil _⟩

/-- A walk that waits for its branches, and what is executed meanwhile. -/
theorem Forked.move (h : Forked past i r anchor) (hrun : x.runs[i]? = some run)
    {entries started : List String} (hpursuit : run.root.activity.pursuit = .fork anchor entries started)
    (hexecuted : r'.executed = r.executed ∨ ∃ q ∈ run.root.activity.crew, ∃ unit, q.Counts unit ∧
      r'.executed = r.executed ++ [unit]) (m : Move) : Forked (past ++ [(x, m)]) i r' anchor := by
  obtain ⟨earlier, later, z, m₀, run₀, branches, resume, units, rfl, hz, hactivity, heq, hwaits,
    hcounts⟩ := h
  have hkept : ∀ unit ∈ units, ∃ z m', (z, m') ∈ later ++ [(x, m)] ∧ z.CountsBelow i unit :=
    fun unit hunit => (hcounts unit hunit).imp fun z ⟨m', hmem, hbelow⟩ =>
      ⟨m', List.mem_append_left _ hmem, hbelow⟩
  have hlater : ∀ z m', (z, m') ∈ later ++ [(x, m)] → z.WaitsFor i anchor := by
    intro z m' hmem
    rcases List.mem_append.mp hmem with hmem | hmem
    · exact hwaits z m' hmem
    · cases List.mem_singleton.mp hmem
      exact ⟨run, entries, started, hrun, hpursuit⟩
  have hsplit : earlier ++ (z, m₀) :: later ++ [(x, m)] = earlier ++ (z, m₀) :: (later ++ [(x, m)]) :=
    List.append_assoc ..
  rcases hexecuted with hsame | ⟨q, hq, unit, hunit, hmore⟩
  · exact ⟨earlier, _, z, m₀, run₀, branches, resume, units, hsplit, hz, hactivity, hsame.trans heq,
      hlater, hkept⟩
  · refine ⟨earlier, _, z, m₀, run₀, branches, resume, units ++ [unit], hsplit, hz, hactivity, ?_,
      hlater, ?_⟩
    · rw [hmore, heq, List.append_assoc]
    · refine List.forall_mem_append.mpr ⟨hkept, List.forall_mem_singleton.mpr ?_⟩
      exact ⟨x, m, by simp, run, hrun, q, hq, hunit⟩

end Executor

/-- A walk that waits for branches. -/
theorem Activity.Accounts.forked {past : List (Executor × Move)} {i : Nat} {r : RunState}
    {activity : Activity} {anchor : String} {entries started : List String}
    (h : activity.Accounts past i r) (hpursuit : activity.pursuit = .fork anchor entries started) :
    Executor.Forked past i r anchor := by
  cases activity with
  | poised | queued | working | asleep | calling => cases hpursuit
  | inPlace | forking =>
    cases hpursuit
    exact h

namespace Scene

variable {s s' : Scene} {task serial : Nat} {x : Executor} {m : Move} {past : List (Executor × Move)}
  {i : Nat}

/-- What a walk of a run does where it stands keeps what is known of the run. -/
theorem Steps.accounts (h : s.Steps task serial s')
    (hrun : x.runs[i]? = some ⟨s.run, s.process serial⟩) (haccounts : s.activity.Accounts past i s.run) :
    s'.activity.Accounts (past ++ [(x, m)]) i s'.run := by
  obtain ⟨walk, activity, run, engine⟩ := s
  cases h with
  | advance | missing | queues | begins | granted | forksNone | joins => trivial
  | ends | gaveUp =>
    rw [endUnit_eq]
    trivial
  | does h hdoes =>
    obtain rfl : activity = _ := h
    refine Stage.Accounts.of_executed_eq haccounts ?_
    cases hdoes <;> rfl
  | sleeps h | wakes h | opens h =>
    obtain rfl : activity = _ := h
    exact haccounts
  | @runs job => exact ⟨job.unit.name, List.getLast?_concat⟩
  | @tidies job h hstage =>
    obtain rfl : activity = _ := h
    have hrun : job.stage.Accounts run job.unitId := haccounts
    rw [hstage] at hrun
    exact hrun
  | fails h _ hstage =>
    obtain rfl : activity = _ := h
    exact Stage.Accounts.fails haccounts hstage _
  | forksOne h | forks h => exact Executor.forked_start hrun h rfl
  | starts h | refuses h =>
    obtain rfl : activity = _ := h
    exact Executor.Forked.move haccounts hrun rfl (.inl rfl) m

end Scene

/-- A move keeps what is known of a run by its walk. -/
theorem Process.Moves.accounts {who task : Nat} {p p' : Process} {r r' : RunState} {e e' : Engine}
    {site : Site} {x : Executor} {past : List (Executor × Move)} {i : Nat}
    (h : p.Moves who site task r e p' r' e') (hrun : x.runs[i]? = some ⟨r, p⟩)
    (haccounts : p.activity.Accounts past i r) (m : Move) :
    p'.activity.Accounts (past ++ [(x, m)]) i r' := by
  cases h with
  | here h => exact h.accounts hrun haccounts
  | called | returned => exact haccounts
  | inPlace h =>
    refine Executor.Forked.move haccounts hrun rfl (h.executed.imp_right ?_) m
    exact fun ⟨q, hq, hunit⟩ => ⟨q, Activity.mem_crew.mpr ⟨_, rfl, hq⟩, hunit⟩
  | inPlaceEnded _ _ hclose =>
    subst hclose
    trivial
  | @child _ _ _ _ entry _ _ before after _ branch _ _ _ _ _ _ h
  | @childEnded _ _ _ _ entry _ _ before after _ _ branch _ _ _ _ _ _ h =>
    refine Executor.Forked.move haccounts hrun rfl (h.executed.imp_right ?_) m
    exact fun ⟨q, hq, hunit⟩ =>
      ⟨q, Activity.mem_crew.mpr ⟨_, ⟨entry, mem_children before after entry branch⟩, hq⟩, hunit⟩

/-- What is known of a run by the walk of it and by what that has written down. -/
structure Run.Accounts (past : List (Executor × Move)) (i : Nat) (own : List Occurrence) (run : Run) :
    Prop where
  busy : run.root.activity.Accounts past i run.state
  ended : ∀ failure, run.root.walk.failure = some failure → run.StopsAt past i own failure

theorem Occurrence.EndsRun.append {past : List (Executor × Move)} {i : Nat} {r : RunState}
    {failure : Failure} {o : Occurrence} (h : o.EndsRun past i r failure)
    (more : List (Executor × Move)) : o.EndsRun (past ++ more) i r failure := by
  cases o with
  | unitEnded => exact h
  | joined =>
    obtain ⟨hresult, hfailure, before, rest, rfl, hforked⟩ := h
    exact ⟨hresult, hfailure, before, rest ++ more, List.append_assoc .., hforked⟩
  | remark | unitStarted | forked | branchStarted => exact h.elim

theorem Occurrence.EndsRun.failure?_eq {past : List (Executor × Move)} {i : Nat} {r : RunState}
    {failure : Failure} {o : Occurrence} (h : o.EndsRun past i r failure) :
    o.failure? = some failure := by
  cases o with
  | unitEnded | joined => exact h.1
  | remark | unitStarted | forked | branchStarted => exact h.elim

/-- The failure of the run is the only one that its walk has written down. -/
theorem Run.StopsAt.failures_eq {past : List (Executor × Move)} {i w : Nat}
    {journal : List JournalEntry} {run : Run} {failure : Failure}
    (h : run.StopsAt past i (Journal.own journal w) failure) : Journal.failures journal w = [failure] := by
  obtain ⟨first, o, hown, hfine, hends⟩ := h.last
  rw [Journal.failures, hown, List.filterMap_append, List.filterMap_eq_nil_iff.mpr hfine,
    List.nil_append, List.filterMap_cons_some hends.failure?_eq, List.filterMap_nil]

theorem Run.StopsAt.isFinished {past : List (Executor × Move)} {i : Nat} {own : List Occurrence}
    {run : Run} {failure : Failure} (h : run.StopsAt past i own failure) :
    run.root.isFinished = true := by
  obtain ⟨outcome, hresult, -⟩ := h.result
  unfold Run.result? at hresult
  split at hresult
  · assumption
  · cases hresult

namespace Executor

variable {x y start last : Executor} {m : Move} {past after : List (Executor × Move)} {i : Nat}
  {run run' : Run}

/-- The failing entry of the walk of a run is the last word about the run. -/
theorem endsRun_of_failsBy {who : Nat} {site : Site} {o : Occurrence} {failure : Failure}
    (hrun : x.runs[i]? = some run) (hbusy : run.root.activity.Accounts past i run.state)
    (hmoves : run.root.Moves who site run.root.serial run.state x.engine run'.root run'.state y.engine)
    (hfails : run.root.activity.FailsBy failure o) (m : Move) :
    o.EndsRun (past ++ [(x, m)]) i run'.state failure := by
  obtain ⟨state, serial, walk, activity⟩ := run
  have hexecuted := hmoves.executed
  cases hfails with
  | missing => exact ⟨rfl, .missing⟩
  | @unit job behavior _ hstage =>
    have hfailed : job.stage.Accounts state job.unitId := hbusy
    rw [hstage] at hfailed
    refine ⟨rfl, RunState.FailsAt.of_executed_eq hfailed ?_⟩
    rcases hexecuted with heq | ⟨q, hq, unit, ⟨job', hactivity, hbefore, -⟩, -⟩
    · exact heq
    · obtain rfl := List.mem_singleton.mp hq
      cases hactivity
      cases hbefore.symm.trans hstage
  | @group _ anchor entry entries started source hpursuit =>
    refine ⟨rfl, ⟨entry, source, rfl⟩, _, [], (List.append_nil _).symm, ?_⟩
    refine (hbusy.forked hpursuit).move hrun hpursuit (hexecuted.imp_right ?_) m
    rintro ⟨q, hq, unit, hunit, heq⟩
    rcases Process.mem_crew.mp hq with rfl | hbelow
    · obtain ⟨job, rfl, -⟩ := hunit
      cases hpursuit
    · exact ⟨q, Activity.mem_crew.mpr hbelow, unit, hunit, heq⟩

/-- A move keeps what is known of a run. -/
theorem Affects.accounts (haffects : x.Affects m y i run run') (hfits : x.Fits)
    (hnumbered : x.ledger.Numbered) (hmove : x.move m = some y) (hstern : x.IsStern i)
    (hrun : x.runs[i]? = some run) (hclean : run.IsClean)
    (haccounts : run.Accounts past i (Journal.own x.engine.journal.toList run.root.serial)) :
    run'.Accounts (past ++ [(x, m)]) i (Journal.own y.engine.journal.toList run'.root.serial) := by
  have hmem := List.mem_of_getElem? hrun
  have hkept : ∀ failure, run.root.walk.failure = some failure → run.StopsAt (past ++ [(x, m)]) i
      (Journal.own y.engine.journal.toList run.root.serial) failure := by
    intro failure hfailure
    have hstops := haccounts.ended failure hfailure
    obtain ⟨first, o, hown, hfine, hends⟩ := hstops.last
    -- a walk that has failed writes nothing any more, so what is known of its last entry stays true
    have hhalted : x.Halted run.root.serial := by
      refine ⟨serial_lt hnumbered hmem _ run.root.serial_mem_serials, fun q hq heq => ?_⟩
      rw [hq.unique ⟨run, hmem, .self _⟩ hnumbered heq]
      exact hstops.isFinished
    rw [(hhalted.move hfits hnumbered hmove).2]
    exact ⟨⟨first, o, hown, hfine, hends.append _⟩, hstops.result⟩
  have hbusy : ∀ anchor entries started, run.root.activity.pursuit = .fork anchor entries started →
      Forked (past ++ [(x, m)]) i run.state anchor := fun anchor entries started hpursuit =>
    (haccounts.busy.forked hpursuit).move hrun hpursuit (.inl rfl) m
  cases haffects with
  | others =>
    refine ⟨?_, hkept⟩
    obtain ⟨state, serial, walk, activity⟩ := run
    cases activity with
    | poised | queued => trivial
    | working | asleep | calling => exact haccounts.busy
    | inPlace | forking => exact hbusy _ _ _ rfl
  | givesUp =>
    rw [Process.serial_cancelTasks]
    refine ⟨?_, fun failure hfailure => ?_⟩
    · obtain ⟨state, serial, walk, activity⟩ := run
      cases activity with
      | poised | queued => trivial
      | working | asleep | calling => exact haccounts.busy
      | inPlace | forking => exact hbusy _ _ _ rfl
    · rw [Process.walk_cancelTasks] at hfailure
      have hstops := hkept failure hfailure
      rw [Process.cancelTasks_of_isFinished hstops.isFinished]
      exact hstops
  | @step who site _ _ hmoves =>
    refine ⟨hmoves.accounts hrun haccounts.busy m, fun failure hfailure => ?_⟩
    -- the walk moves, so it has not failed yet
    have hclear : Journal.failures x.engine.journal.toList run.root.serial = [] := by
      have hrunning : run.root.isFinished = false :=
        Bool.not_eq_true _ ▸ fun hover => Process.not_moves_of_isFinished hover hmoves
      rw [← List.head?_eq_none_iff, ← failure_eq_head? hnumbered hrun]
      exact hclean.walks run List.mem_cons_self _ (Process.mem_crew_self _) hrunning
    rw [hmoves.serial]
    cases fares_of_moves hfits hnumbered hstern hrun hclean List.mem_cons_self
      (Process.mem_crew_self _) hmoves with
    | goesOn _ _ hclean' => cases hclean'.symm.trans hfailure
    | @fails first o failure' own plain cause failure_eq finished =>
      obtain rfl := Option.some.inj (failure_eq.symm.trans hfailure)
      refine ⟨⟨_, o, own, List.forall_mem_append.mpr ⟨?_, plain⟩,
        endsRun_of_failsBy hrun haccounts.busy hmoves cause m⟩, ?_⟩
      · exact fun o' ho' => List.filterMap_eq_nil_iff.mp hclear o' ho'
      · refine ⟨_, if_pos finished, ?_, failure_eq⟩
        show Process.status _ = _
        rw [Process.status, if_pos (by rw [failure_eq]; rfl)]

theorem History.accounts (h : start.History past last) (hfits : start.Fits)
    (hnumbered : start.ledger.Numbered) (hrun : start.runs[i]? = some run) (hclean : run.IsClean)
    (hstern : ∀ z m, (z, m) ∈ past → z.IsStern i)
    (haccounts : run.Accounts [] i (Journal.own start.engine.journal.toList run.root.serial)) :
    ∃ run', last.runs[i]? = some run' ∧
      run'.Accounts past i (Journal.own last.engine.journal.toList run'.root.serial) := by
  induction h with
  | start => exact ⟨run, hrun, haccounts⟩
  | @move past x y m h hmove ih =>
    have hearlier : ∀ z m, (z, m) ∈ past → z.IsStern i := fun z m hmem =>
      hstern z m (List.mem_append_left _ hmem)
    obtain ⟨own, hown, hxaccounts⟩ := ih hearlier
    obtain ⟨_, hown', hxclean⟩ := h.isClean hfits hnumbered hrun hclean hearlier
    obtain rfl := Option.some.inj (hown'.symm.trans hown)
    have hxnumbered := h.numbered hfits hnumbered
    obtain ⟨own', hown', haffects⟩ := affected hxnumbered hmove hown
    exact ⟨own', hown', haffects.accounts (h.fits hfits) hxnumbered hmove (hstern x m (by simp)) hown
      hxclean hxaccounts⟩

/-! ## Fail-stop -/

/-- Fail-stop, in every schedule and whatever else goes on meanwhile: a plan is run in a context that is
not tolerant, and so are the units that its walks work with. Whatever fails in a walk of the run, or of a
flow that its units run, is the last thing that the walk does: a unit that is not there or that has failed,
in its turn or out of order, or a group. What fails on the walk of the run itself ends the run, and is its
failure. The last unit executed is then the one that has failed, unless it failed too early to count, or
else a group has failed, and no unit was executed since its fork but by its own branches. -/
theorem History.fails_fast {config : Config} {registry : Registry} {listeners : Listeners} {plan : Plan}
    {context : Context} (hbuild : build config registry listeners = .ok start)
    (hbefore : start.History past x) (hlaunch : x.launch (.plan plan) context = (none, y))
    (htolerant : context.tolerant = false) (h : y.History after last)
    (hstern : ∀ z m, (z, m) ∈ after → z.IsStern x.runs.length) :
    (∀ z m z' run, (z, m) ∈ after → z.move m = some z' → z.runs[x.runs.length]? = some run →
      ∀ f ∈ run.flows, ∀ q ∈ f.root.crew, ∀ task o failure,
        ⟨task, q.serial, o⟩ ∈ z'.engine.journal.toList.drop z.engine.journal.size →
        o.failure? = some failure → q.activity.FailsBy failure o ∧
          ∃ first, Journal.own last.engine.journal.toList q.serial = first ++ [o] ∧
            ∀ o' ∈ first, o'.failure? = none) ∧
      ∀ run failure, last.runs[x.runs.length]? = some run →
        failure ∈ Journal.failures last.engine.journal.toList run.root.serial →
        run.StopsAt after x.runs.length (Journal.own last.engine.journal.toList run.root.serial)
          failure := by
  obtain ⟨scopeId, serial, hrun⟩ := run_launch_plan hlaunch
  obtain ⟨hfits, hsound⟩ := sound_build hbuild
  have hmove : x.move (.launch (.plan plan) context) = some y :=
    congrArg some (congrArg Prod.snd hlaunch)
  have hlaunched := hbefore.move hmove
  have hyfits := hlaunched.fits hfits
  have hynumbered := hlaunched.numbered hfits hsound.toNumbered
  have hclean := isClean_ofPlan htolerant scopeId serial plan
  refine ⟨fun z m z' run hmem hmove' hown f hf q hq task o failure hwritten hfailure => ?_,
    fun run failure hown hfailure => ?_⟩
  · obtain ⟨before, rest, next, rfl, hz, hnext, hrest⟩ := h.split hmem
    obtain rfl := Option.some.inj (hmove'.symm.trans hnext)
    have hzfits := hz.fits hyfits
    have hznumbered := hz.numbered hyfits hynumbered
    obtain ⟨_, hown', hzclean⟩ := hz.isClean hyfits hynumbered hrun hclean fun z m hin =>
      hstern z m (List.mem_append_left _ hin)
    obtain rfl := Option.some.inj (hown'.symm.trans hown)
    obtain ⟨hhalted, hfails, first, hwrote, hfine⟩ := fails_move hzfits hznumbered (hstern z m hmem)
      hmove' hown hzclean hf hq hwritten hfailure
    refine ⟨hfails, first, ?_, hfine⟩
    rw [(hrest.halted (hzfits.move hmove') (numbered_move hzfits hznumbered hmove') hhalted).2, hwrote]
  -- from here on what the walk of the run writes is accounted for, move by move
  · have hstart : Run.Accounts [] x.runs.length (Journal.own y.engine.journal.toList serial)
        ⟨{ context := context, scopeId := scopeId }, .ofPlan serial plan false⟩ :=
      ⟨trivial, fun failure hfailure => by cases hfailure⟩
    obtain ⟨_, hown', haccounts⟩ := h.accounts hyfits hynumbered hrun hclean hstern hstart
    obtain rfl := Option.some.inj (hown'.symm.trans hown)
    have hhead := failure_eq_head? (h.numbered hyfits hynumbered) hown
    obtain ⟨head, hsome⟩ := Option.ne_none_iff_exists'.mp fun hnone =>
      List.ne_nil_of_mem hfailure (List.head?_eq_none_iff.mp hnone)
    have hstops := haccounts.ended head (hhead.trans hsome)
    rw [hstops.failures_eq] at hfailure
    obtain rfl := List.mem_singleton.mp hfailure
    exact hstops

/-- A unit fails in a branch of a group: the branch ends with it, and the run behind the group. -/
theorem History.fails_fast_group : ∃ (plan : Plan) (x y last : Executor)
    (after : List (Executor × Move)) (run : Run) (failure : Failure),
    Node.compile? (.sequence [.parallel [.unit "x", .unit "b"], .unit "c"]) = some plan ∧
      x = doing [("x", .fail ⟨"no", []⟩), ("b", .done), ("c", .done)] ∧
      x.launch (.plan plan) {} = (none, y) ∧ y.History after last ∧
      (∀ z m, (z, m) ∈ after → z.IsStern 0) ∧ last.runs[0]? = some run ∧
      failure = .branchFailed "__fork__#0" "x" (.unitFailed "x" .run ⟨"no", []⟩) ∧
      failure ∈ Journal.failures last.engine.journal.toList run.root.serial ∧
      run.state.unitNames = ["x", "b"] ∧
      run.StopsAt after 0 (Journal.own last.engine.journal.toList run.root.serial) failure := by
  let units : List (String × Behavior) := [("x", .fail ⟨"no", []⟩), ("b", .done), ("c", .done)]
  let node : Node := .sequence [.parallel [.unit "x", .unit "b"], .unit "c"]
  let plan := node.compile?.getD {}
  let x := doing units
  let y := (x.launch (.plan plan) {}).2
  let moves : List Move := List.replicate 4 (.step 0) ++ List.replicate 7 (.step 1) ++
    List.replicate 7 (.step 2) ++ List.replicate 7 (.step 0)
  let after := (y.follow moves).1
  let last := (y.follow moves).2
  let failure : Failure := .branchFailed "__fork__#0" "x" (.unitFailed "x" .run ⟨"no", []⟩)
  have hlaunch : x.launch (.plan plan) {} = (none, y) := Prod.ext (launch_plan plan _ rfl) rfl
  have hhistory : y.History after last := history_follow y moves
  obtain ⟨hall, hlast⟩ : (∀ e ∈ after, ∀ run ∈ e.1.runs, ∀ f ∈ run.flows, ∀ q ∈ f.root.crew,
        q.activity.IsStern) ∧
      last.runs[0]?.map (fun run => (run.state.unitNames,
          Journal.failures last.engine.journal.toList run.root.serial)) =
        some (["x", "b"], [failure]) := by
    decide +kernel
  obtain ⟨run, hrun, heq⟩ := Option.map_eq_some_iff.mp hlast
  obtain ⟨hnames, hfailures⟩ := Prod.mk.inj heq
  have hstern : ∀ z m, (z, m) ∈ after → z.IsStern x.runs.length := fun z m hmem run hrun =>
    hall _ hmem run (List.mem_of_getElem? hrun)
  have hmem : failure ∈ Journal.failures last.engine.journal.toList run.root.serial :=
    hfailures ▸ List.mem_singleton_self _
  clear_value after last
  have h := (History.fails_fast (build_doing units) .start hlaunch rfl hhistory hstern).2 run failure
    hrun hmem
  exact ⟨plan, x, y, last, after, run, failure, rfl, rfl, hlaunch, hhistory, hstern, hrun, rfl, hmem,
    hnames, h⟩

end Executor

end Workflow
