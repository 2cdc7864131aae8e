import Workflow.Proofs.Run.Failures
import Workflow.Proofs.Run.Nesting

/-!
# Units that are not there

A walk ends when a unit on it is not there, and so does every walk around it, if it learns of that.
`Process.IsLost` says of a walk that it will not go on: it has come to its end with a failure, or it
waits for branches of which one has failed or will not go on either. A lost walk stays lost until
its end as long as its groups do not survive their failures (`Process.Moves.loses`), and
`Executor.History.missing_ends` draws the conclusion.

A group survives no failure unless the context is tolerant, and it never survives one whose origin
is a missing unit. What a group learns of a branch, however, is the first failure of the branch, and
of its branches the first that failed. Where that is another failure, a tolerant walk goes on.
-/

namespace Workflow

/-! ## What is written down -/

/-- A walk starts a unit or branches. -/
def Occurrence.Starts : Occurrence → Prop
  | .unitStarted _ | .forked .. => True
  | .remark _ | .unitEnded .. | .branchStarted .. | .joined .. => False

/-- A walk is about to start a unit or branches. -/
def Activity.IsStarting (e : Engine) : Activity → Prop
  | .poised (.execute u _) => e.registry.unit? u ≠ none
  | .poised (.fork ..) | .queued .. => True
  | .poised .advance | .poised .finish | .working .. | .asleep .. | .calling .. | .inPlace ..
  | .forking .. => False

/-- From one engine to the other, entries with a property have been added to the journal. -/
def Engine.Logs (P : JournalEntry → Prop) (e e' : Engine) : Prop :=
  ∃ new, e'.journal.toList = e.journal.toList ++ new ∧ ∀ entry ∈ new, P entry

namespace Engine.Logs

variable {P Q : JournalEntry → Prop} {e e' e'' : Engine}

theorem of_eq (h : e'.journal = e.journal) : Logs P e e' := ⟨[], by simp [h], nofun⟩

theorem record (e : Engine) {task walk : Nat} {o : Occurrence} (h : P ⟨task, walk, o⟩) :
    Logs P e (e.record task walk o) :=
  ⟨[⟨task, walk, o⟩], by simp [Engine.record], by simpa using h⟩

theorem trans (h : Logs P e e') (h' : Logs P e' e'') : Logs P e e'' := by
  obtain ⟨new, heq, hnew⟩ := h
  obtain ⟨more, heq', hmore⟩ := h'
  refine ⟨new ++ more, by rw [heq', heq, List.append_assoc], fun entry hmem => ?_⟩
  rcases List.mem_append.mp hmem with hmem | hmem
  · exact hnew entry hmem
  · exact hmore entry hmem

theorem mono (h : Logs P e e') (himp : ∀ entry, P entry → Q entry) : Logs Q e e' := by
  obtain ⟨new, heq, hnew⟩ := h
  exact ⟨new, heq, fun entry hmem => himp entry (hnew entry hmem)⟩

/-- The entries that have been added are those behind the old ones. -/
theorem drop (h : Logs P e e') : ∀ entry ∈ e'.journal.toList.drop e.journal.size, P entry := by
  obtain ⟨new, heq, hnew⟩ := h
  rwa [heq, List.drop_append_of_le_length (by simp), List.drop_of_length_le (by simp),
    List.nil_append]

end Engine.Logs

/-! ## Walks that will not go on -/

/-- A branch has failed, or is one of the given walks. -/
def Child.IsLost (walks : List Nat) (child : Child) : Prop :=
  child.failure?.isSome = true ∨ ∃ entry branch, child = .running entry branch ∧ branch.serial ∈ walks

/-- A walk has come to its end with a failure, or waits for branches of which one has failed or is
one of the given walks. -/
def Process.IsLost (walks : List Nat) : Process → Prop
  | .mk _ walk (.poised .finish) => walk.failure.isSome = true
  | .mk _ _ (.inPlace _ _ _ branch) => branch.serial ∈ walks
  | .mk _ _ (.forking _ _ _ children _) => ∃ child ∈ children, child.IsLost walks
  | .mk .. => False

/-- The unit that a walk is about to ask for. -/
def Activity.asked? : Activity → Option String
  | .poised (.execute u _) => some u
  | _ => none

theorem Activity.exists_of_asked? {activity : Activity} {u : String} (h : activity.asked? = some u) :
    ∃ resume, activity = .poised (.execute u resume) := by
  unfold asked? at h
  split at h <;> cases h
  exact ⟨_, rfl⟩

theorem Activity.IsStarting.isOwn {e : Engine} {activity : Activity} (h : activity.IsStarting e) :
    activity.IsOwn := by
  cases activity with
  | calling | inPlace => exact h
  | poised | queued | working | asleep | forking => trivial

/-- A lost walk is not about to start anything. -/
theorem Process.IsLost.not_isStarting {walks : List Nat} {p : Process} (h : p.IsLost walks)
    (e : Engine) : ¬ p.activity.IsStarting e := by
  unfold IsLost at h
  split at h
  · exact id
  · exact id
  · exact id
  · exact h.elim

namespace Scene

variable {s s' : Scene} {task serial : Nat}

theorem logs_announce {P : JournalEntry → Prop} (s : Scene) (job : Job) (moment : Moment)
    (failure : Option Failure) (h : ∀ text, P ⟨task, serial, .remark text⟩) :
    s.engine.Logs P (s.announce task serial job moment failure).engine := by
  obtain ⟨event, heq⟩ := s.announce_eq task serial job moment failure
  rw [heq]
  refine ⟨_, Array.toList_appendList .., fun entry hmem => ?_⟩
  obtain ⟨text, -, rfl⟩ := List.mem_map.mp hmem
  exact h text

theorem logs_endUnit {P : JournalEntry → Prop} (s : Scene) (job : Job) (result : Option Mishap)
    (h : P ⟨task, serial, .unitEnded job.unitId (result.map Mishap.failure)⟩) :
    s.engine.Logs P (s.endUnit task serial job result).engine := by
  rw [endUnit_eq]
  refine Engine.Logs.trans (.of_eq ?_) (.record _ h)
  rfl

/-- What a walk writes down by a step where it stands, and which step that is. -/
inductive Writes (s : Scene) (task serial : Nat) (s' : Scene) : Occurrence → Prop where
  | remark (text : String) : Writes s task serial s' (.remark text)
  | begins {u : String} {unit : FlowUnit} {resume : Resume}
      (h : s.activity = .poised (.execute u resume))
      (hunit : s.engine.registry.unit? u = some unit) :
    Writes s task serial s' (.unitStarted u)
  | granted {u : String} {unit : FlowUnit} {resume : Resume}
      (h : s.activity = .queued u unit resume) :
    Writes s task serial s' (.unitStarted u)
  | missing {u : String} {resume : Resume} (h : s.activity = .poised (.execute u resume))
      (hunit : s.engine.registry.unit? u = none) :
    Writes s task serial s' (.unitEnded u (some (.unknownUnit u)))
  | ends {job : Job} (h : s.activity = .working job .done) (hstage : job.stage = .after) :
    Writes s task serial s' (.unitEnded job.unitId none)
  | gaveUp {job : Job} {behavior : Behavior} {failure : Failure}
      (h : s.activity = .working job behavior) (hstage : job.stage = .onError failure) :
    Writes s task serial s' (.unitEnded job.unitId (some failure))
  | forked {anchor : String} {branches : List (Branch Plan)} {resume : Resume}
      (h : s.activity = .poised (.fork anchor branches resume)) :
    Writes s task serial s' (.forked anchor (branches.map Branch.entry))
  | branchStarted (entry : String) (number : Nat) :
    Writes s task serial s' (.branchStarted entry number)
  | joinsNone {anchor : String} {resume : Resume}
      (h : s.activity = .poised (.fork anchor [] resume))
      (heq : s' = (s.record task serial (.forked anchor [])).joined task serial anchor resume none) :
    Writes s task serial s' (.joined anchor none)
  | joins {anchor : String} {resume : Resume} {children : List Child} {completed : List String}
      (h : s.activity = .forking anchor resume [] children completed)
      (hover : children.all Child.isOver = true)
      (heq : s' =
        s.close task serial anchor resume (joinFailure? anchor children) completed) :
    Writes s task serial s' (.joined anchor (joinFailure? anchor children))

/-- The rules cover all that a walk writes down where it stands. -/
theorem Steps.logs_writes (h : s.Steps task serial s') : s.engine.Logs
    (fun entry => entry.walk = serial ∧ s.Writes task serial s' entry.occurrence) s'.engine := by
  have htold : ∀ {s' : Scene} (job : Job) (moment : Moment) (failure : Option Failure),
      s.engine.Logs (fun entry => entry.walk = serial ∧ s.Writes task serial s' entry.occurrence)
        (s.announce task serial job moment failure).engine :=
    fun job moment failure => logs_announce s job moment failure fun text => ⟨rfl, .remark text⟩
  cases h with
  | advance | queues | sleeps | wakes | opens | tidies | fails | refuses => exact .of_eq rfl
  | missing h hunit => exact .record s.engine ⟨rfl, .missing h hunit⟩
  | @begins _ _ _ pool h hunit =>
    exact .record { s.engine with pool := pool } ⟨rfl, .begins h hunit⟩
  | granted h =>
    exact .record { s.engine with pool := s.engine.pool.accept serial } ⟨rfl, .granted h⟩
  | does h hdoes =>
    cases hdoes with
    | note text => exact .record s.engine ⟨rfl, .remark text⟩
    | access | signalRoute | signalFork | payload | viewPool | closePool | addUnit | addFlow
    | eraseUnit | noFlow => exact .of_eq rfl
  | @runs job => exact htold job .before none
  | @ends job h hstage =>
    exact (htold job .after none).trans (logs_endUnit _ _ _ ⟨rfl, .ends h hstage⟩)
  | @gaveUp job _ failure h _ hstage =>
    exact (htold job .error (some failure)).trans (logs_endUnit _ _ _ ⟨rfl, .gaveUp h hstage⟩)
  | forksNone h =>
    exact (Engine.Logs.record s.engine ⟨rfl, .forked h⟩).trans (.record _ ⟨rfl, .joinsNone h rfl⟩)
  | @forksOne anchor branch resume h =>
    exact (Engine.Logs.record s.engine ⟨rfl, .forked h⟩).trans
      (.record { s.engine.record task serial (.forked anchor [branch.entry]) with
        nextSerial := s.engine.nextSerial + 1 } ⟨rfl, .branchStarted ..⟩)
  | forks h => exact .record s.engine ⟨rfl, .forked h⟩
  | starts =>
    exact .record { s.engine with
      pool := { s.engine.pool with inFlight := s.engine.pool.inFlight + 1 }
      nextSerial := s.engine.nextSerial + 1 } ⟨rfl, .branchStarted ..⟩
  | joins h hover => exact .record s.engine ⟨rfl, .joins h hover rfl⟩

theorem Writes.isStarting {o : Occurrence} (h : s.Writes task serial s' o) (hstarts : o.Starts) :
    s.activity.IsStarting s.engine := by
  cases h with
  | begins h hunit =>
    rw [h]
    intro hnone
    cases hunit.symm.trans hnone
  | granted h | forked h =>
    rw [h]
    trivial
  | remark | missing | ends | gaveUp | branchStarted | joinsNone | joins => exact hstarts.elim

/-- A walk writes down what it does itself. -/
theorem Steps.logs (h : s.Steps task serial s') : s.engine.Logs
    (fun entry => entry.walk = serial ∧
      (entry.occurrence.Starts → s.activity.IsStarting s.engine)) s'.engine :=
  h.logs_writes.mono fun _ ⟨hwalk, hwrites⟩ => ⟨hwalk, hwrites.isStarting⟩

end Scene

/-- Groups join, and otherwise the walk that moves writes down what it does itself. -/
theorem Process.Moves.logs {who task : Nat} {p p' : Process} {run run' : RunState} {e e' : Engine}
    {site : Site} (h : p.Moves who site task run e p' run' e') : e.Logs
      (fun entry => entry.occurrence.Starts →
        entry.walk = site.process.serial ∧ site.process.activity.IsStarting e) e' := by
  induction h with
  | here h => exact h.logs.mono fun entry hentry hstarts => ⟨hentry.1, hentry.2 hstarts⟩
  | called _ _ ih | returned _ _ ih => exact ih
  | inPlace _ _ ih | child _ _ _ ih =>
    rw [Site.process_within]
    exact ih
  | inPlaceEnded _ _ hclose ih =>
    subst hclose
    rw [Site.process_within]
    exact ih.trans (.record _ nofun)
  | childEnded _ _ _ _ ih =>
    rw [Site.process_within]
    exact ih.trans (.of_eq rfl)

/-! ## The context -/

@[simp] theorem RunState.context_publish (r : RunState) (result : Option Failure)
    (completed : List String) : (r.publish result completed).context = r.context := by
  unfold publish
  split <;> rfl

theorem Scene.context_close (s : Scene) (task serial : Nat) (anchor : String) (resume : Resume)
    (result : Option Failure) (completed : List String) :
    (s.close task serial anchor resume result completed).run.context = s.run.context :=
  s.run.context_publish result completed

/-- Whether a run is tolerant does not change. -/
theorem Scene.Steps.tolerant {s s' : Scene} {task serial : Nat} (h : s.Steps task serial s') :
    s'.run.context.tolerant = s.run.context.tolerant := by
  cases h with
  | does h hdoes => cases hdoes <;> rfl
  | ends | gaveUp =>
    rw [endUnit_eq]
    rfl
  | joins => rw [context_close]
  | advance | missing | queues | begins | granted | sleeps | wakes | opens | runs | tidies | fails
  | forksNone | forksOne | forks | starts | refuses => rfl

theorem Process.Moves.tolerant {who task : Nat} {p p' : Process} {run run' : RunState}
    {e e' : Engine} {site : Site} (h : p.Moves who site task run e p' run' e') :
    run'.context.tolerant = run.context.tolerant := by
  induction h with
  | here h => exact h.tolerant
  | called | returned => rfl
  | inPlace _ _ ih | child _ _ _ ih | childEnded _ _ _ _ ih => exact ih
  | inPlaceEnded _ _ hclose ih =>
    subst hclose
    rw [Scene.context_close]
    exact ih

/-! ## Decisions -/

namespace Walk

/-- A walk ends where it does not survive the failure of a unit, and at most keeps the failure. -/
theorem unitDone_eq_finish {tolerant : Bool} {f : Mishap} (hends : survivesUnit tolerant f = false)
    (w : Walk) (scope : Scope) (hasRun : String → Bool) (u : String) (resume : Resume) :
    ∃ w' scope', w.unitDone scope hasRun tolerant u resume (some f) = w'.finish scope' ∧
      (w' = w ∨ w' = w.addFailure f.failure) := by
  unfold unitDone
  split
  · unfold ownUnitDone
    split
    · exact ⟨w, _, rfl, .inl rfl⟩
    · simp only [hends]
      exact ⟨_, _, rfl, .inr rfl⟩
  · unfold detourDone
    simp only [hends]
    exact ⟨_, _, rfl, .inr rfl⟩
  all_goals exact ⟨_, _, rfl, .inr rfl⟩

theorem next_unitDone {tolerant : Bool} {f : Mishap} (hends : survivesUnit tolerant f = false)
    (w : Walk) (scope : Scope) (hasRun : String → Bool) (u : String) (resume : Resume) :
    (w.unitDone scope hasRun tolerant u resume (some f)).next = .finish := by
  obtain ⟨w', scope', heq, -⟩ := unitDone_eq_finish hends w scope hasRun u resume
  rw [heq]
  rfl

/-- A walk ends where it does not survive the failure of a group. -/
theorem next_forkDone {tolerant : Bool} {failure : Failure}
    (hends : survivesGroup tolerant failure = false) (w : Walk) (scope : Scope)
    (hasRun : String → Bool) (resume : Resume) :
    (w.forkDone scope hasRun tolerant resume (some failure)).next = .finish := by
  unfold forkDone
  split
  · unfold groupDone
    simp only [hends]
    rfl
  · unfold scatterDone
    split
    · rfl
    · simp only [hends]
      rfl
  all_goals
    unfold detourForkDone
    simp only [hends]
    rfl

end Walk

/-! ## Lost walks stay lost -/

/-- The flow that a unit runs, and the state of its run. -/
def Activity.Calls : Activity → RunState → Process → Prop
  | .calling _ inner root _, run, q => run = inner ∧ q = root
  | _, _, _ => False

/-- Of the given walks, those in a process are lost, and their run is as tolerant as given. -/
inductive Process.Loses (walks : List Nat) (tolerant : Bool) : RunState → Process → Prop where
  | mk {serial : Nat} {walk : Walk} {activity : Activity} {run : RunState}
      (own : serial ∈ walks →
        run.context.tolerant = tolerant ∧ (Process.mk serial walk activity).IsLost walks)
      (called : ∀ inner root, activity.Calls inner root → Loses walks tolerant inner root)
      (branches : ∀ q, activity.Branches q → Loses walks tolerant run q) :
    Loses walks tolerant run (.mk serial walk activity)

/-- If a group fails here, it blames a unit that is not there. -/
def Occurrence.BlamesMissing : Occurrence → Prop
  | .joined _ (some failure) => failure.origin.isMissing = true
  | _ => True

instance : DecidablePred Occurrence.BlamesMissing := fun o => by
  unfold Occurrence.BlamesMissing
  split <;> infer_instance

/-- The groups of some walks fail for no other reason than that units are not there. -/
def Journal.Blames (walks : List Nat) (journal : List JournalEntry) : Prop :=
  ∀ entry ∈ journal, entry.walk ∈ walks → entry.occurrence.BlamesMissing

instance (walks : List Nat) (journal : List JournalEntry) : Decidable (Journal.Blames walks journal) :=
  inferInstanceAs (Decidable (∀ entry ∈ journal, entry.walk ∈ walks → entry.occurrence.BlamesMissing))

namespace Process

variable {walks : List Nat} {tolerant : Bool} {run run' : RunState} {p : Process}

theorem Loses.of_tolerant (h : p.Loses walks tolerant run)
    (heq : run'.context.tolerant = run.context.tolerant) : p.Loses walks tolerant run' := by
  induction h with
  | mk own called _ _ ih =>
    exact .mk (fun hmem => ⟨heq.trans (own hmem).1, (own hmem).2⟩) called fun q hbranch =>
      ih q hbranch heq

mutual

theorem loses_of_disjoint (run : RunState) : (p : Process) → (∀ w ∈ p.serials, w ∉ walks) →
    p.Loses walks tolerant run
  | .mk serial walk activity, h => by
    have hserial : serial ∉ walks := h serial List.mem_cons_self
    have hinside : ∀ w ∈ activity.serials, w ∉ walks := fun w hw => h w (List.mem_cons_of_mem _ hw)
    refine .mk (fun hmem => absurd hmem hserial) ?_ ?_
    · match activity, hinside with
      | .calling _ inner root _, hinside =>
        rintro _ _ ⟨rfl, rfl⟩
        exact loses_of_disjoint _ _ hinside
      | .poised _, _ | .queued .., _ | .working .., _ | .asleep .., _ | .inPlace .., _
      | .forking .., _ => exact fun _ _ h => h.elim
    · match activity, hinside with
      | .inPlace _ _ _ branch, hinside =>
        rintro _ rfl
        exact loses_of_disjoint run _ hinside
      | .forking _ _ _ children _, hinside =>
        rintro q ⟨entry, hmem⟩
        exact Child.loses_of_disjoint run children hinside entry q hmem
      | .poised _, _ | .queued .., _ | .working .., _ | .asleep .., _ | .calling .., _ =>
        exact fun _ h => h.elim

theorem Child.loses_of_disjoint (run : RunState) : (children : List Child) →
    (∀ w ∈ Child.serialsIn children, w ∉ walks) → ∀ entry q, Child.running entry q ∈ children →
      q.Loses walks tolerant run
  | [], _, _, _, hmem => by cases hmem
  | child :: rest, h, entry, q, hmem => by
    have hfirst : ∀ w ∈ child.serials, w ∉ walks := fun w hw => h w (List.mem_append_left _ hw)
    have hrest : ∀ w ∈ Child.serialsIn rest, w ∉ walks := fun w hw => h w (List.mem_append_right _ hw)
    rcases List.mem_cons.mp hmem with heq | hmem
    · match child, heq with
      | .running _ process, heq =>
        obtain ⟨-, rfl⟩ := Child.running.inj heq
        exact loses_of_disjoint run q hfirst
    · exact Child.loses_of_disjoint run rest hrest entry q hmem

end

theorem loses_ofPlan {own : Nat} (h : own ∉ walks) (plan : Plan) (pooled : Bool) (run : RunState) :
    (ofPlan own plan pooled).Loses walks tolerant run :=
  loses_of_disjoint run _ fun w hw => by
    obtain rfl : w = own := List.mem_singleton.mp hw
    exact h

/-- A process that waits for nothing. -/
theorem loses_alone {serial : Nat} {walk : Walk} {activity : Activity}
    (halone : ∀ q, ¬ activity.Runs q)
    (own : serial ∈ walks →
      run.context.tolerant = tolerant ∧ (Process.mk serial walk activity).IsLost walks) :
    (mk serial walk activity).Loses walks tolerant run := by
  refine .mk own ?_ ?_
  · intro inner root hcalls
    cases activity with
    | calling => exact absurd hcalls.2 (halone root)
    | poised | queued | working | asleep | inPlace | forking => exact hcalls.elim
  · intro q hbranch
    refine absurd ?_ (halone q)
    cases activity with
    | calling => exact hbranch.elim
    | poised | queued | working | asleep | inPlace | forking => exact hbranch

theorem IsLost.isSome_failure (h : p.IsLost walks) (hfinished : p.isFinished = true) :
    p.walk.failure.isSome = true := by
  obtain ⟨serial, walk, rfl⟩ := exists_of_isFinished hfinished
  exact h

/-- Of the walks of a process, the given ones are lost. -/
theorem Loses.isLost {q : Process} (h : p.Loses walks tolerant run) (hhas : p.Has q)
    (hmem : q.serial ∈ walks) : q.IsLost walks := by
  induction hhas generalizing run with
  | self p =>
    obtain ⟨own, -, -⟩ := h
    exact (own hmem).2
  | @inside serial walk activity q r hruns _ ih =>
    obtain ⟨-, called, branches⟩ := h
    cases activity with
    | calling job inner root next =>
      obtain rfl : q = root := hruns
      exact ih (called _ _ ⟨rfl, rfl⟩) hmem
    | poised | queued | working | asleep | inPlace | forking => exact ih (branches q hruns) hmem

end Process

/-- A walk around a group that has failed, and that does not survive it, comes to its end. -/
theorem Scene.loses_close {s : Scene} {resume : Resume} {walks : List Nat} {tolerant : Bool}
    {serial : Nat} {result : Option Failure} (hearly : s.walk.EarlyFits)
    (hat : s.walk.AwaitsFork resume) (task : Nat) (anchor : String) (completed : List String)
    (hown : serial ∈ walks → s.run.context.tolerant = tolerant ∧ ∃ failure, result = some failure ∧
      (tolerant = true → failure.origin.isMissing = true)) :
    ((s.close task serial anchor resume result completed).process serial).Loses walks tolerant
      (s.close task serial anchor resume result completed).run := by
  refine Process.loses_alone (fun _ hruns => hruns) fun hmem => ?_
  obtain ⟨htolerant, failure, rfl, hmissing⟩ := hown hmem
  rw [context_close]
  refine ⟨htolerant, ?_⟩
  have hends : Walk.survivesGroup s.run.context.tolerant failure = false := by
    rw [htolerant, Walk.survivesGroup]
    cases tolerant with
    | false => rfl
    | true => rw [hmissing rfl]; rfl
  have hnext := Walk.next_forkDone hends s.walk (s.run.publish (some failure) completed).scope
    (s.run.publish (some failure) completed).hasRun resume
  have hkeeps := Walk.keeps_forkDone hearly hat (s.run.publish (some failure) completed).scope
    (s.run.publish (some failure) completed).hasRun s.run.context.tolerant (some failure)
  show Process.IsLost walks (.mk serial (Walk.forkDone _ _ _ _ resume (some failure)).walk
    (.poised (Walk.forkDone _ _ _ _ resume (some failure)).next))
  rw [RunState.context_publish, hnext]
  show Option.isSome (Walk.failure _) = true
  rw [hkeeps.failure, Option.isSome_or]
  exact Bool.or_true _

namespace Scene

variable {s s' : Scene} {task serial : Nat} {walks : List Nat} {tolerant : Bool}

/-- A lost walk that does something starts branches or joins them. -/
theorem Steps.loses (h : s.Steps task serial s') (hfits : (s.process serial).Fits)
    (hnew : s.engine.nextSerial ∉ walks) (hlost : (s.process serial).Loses walks tolerant s.run)
    (hblames : tolerant = true →
      Journal.Blames walks (s'.engine.journal.toList.drop s.engine.journal.size)) :
    (s'.process serial).Loses walks tolerant s'.run := by
  have htolerant := h.tolerant
  obtain ⟨hearly, hat, -⟩ := hfits
  obtain ⟨own, -, branches⟩ := hlost
  have hbranches : ∀ q, s'.activity.Branches q → q.Loses walks tolerant s.run := by
    intro q hbranch
    rcases h.runs_cases hbranch.runs with ⟨hold, -⟩ | ⟨plan, pooled, rfl⟩
    · exact branches q hold
    · exact Process.loses_ofPlan hnew ..
  obtain ⟨walk, activity, run, engine⟩ := s
  -- Where a walk takes a turn it has not been lost before, as a lost walk has nothing to decide.
  have hpoised : ∀ t : Turn, ¬ (Process.mk serial walk activity).IsLost walks →
      (Process.mk serial t.walk (.poised t.next)).Loses walks tolerant s'.run := fun t hnot =>
    Process.loses_alone (fun _ hruns => hruns) fun hmem => absurd (own hmem).2 hnot
  cases h with
  | advance h | missing h | forksNone h =>
    obtain rfl : activity = _ := h
    exact hpoised _ id
  | queues h | begins h | granted h | does h | sleeps h | wakes h | runs h | tidies h | fails h =>
    obtain rfl : activity = _ := h
    exact Process.loses_alone (fun _ hruns => hruns) fun hmem => (own hmem).2.elim
  | opens h =>
    obtain rfl : activity = _ := h
    refine .mk (fun hmem => (own hmem).2.elim) ?_ fun _ hbranch => hbranch.elim
    rintro inner root ⟨rfl, rfl⟩
    exact Process.loses_ofPlan hnew ..
  | ends h | gaveUp h =>
    obtain rfl : activity = _ := h
    rw [endUnit_eq] at hpoised ⊢
    exact hpoised _ id
  | forksOne h | forks h =>
    obtain rfl : activity = _ := h
    exact .mk (fun hmem => (own hmem).2.elim) (fun _ _ hcalls => hcalls.elim) hbranches
  | starts h | refuses h =>
    obtain rfl : activity = _ := h
    refine .mk (fun hmem => ⟨(own hmem).1, ?_⟩) (fun _ _ hcalls => hcalls.elim) hbranches
    obtain ⟨child, hchild, hlost⟩ := (own hmem).2
    exact ⟨child, List.mem_append_left _ hchild, hlost⟩
  | @joins anchor resume children completed h hover =>
    obtain rfl : activity = _ := h
    refine loses_close (s := ⟨walk, _, run, engine⟩) hearly hat task anchor completed fun hmem => ?_
    obtain ⟨hsame, child, hchild, hlost⟩ := own hmem
    refine ⟨hsame, ?_⟩
    -- all branches are over, so the lost one has failed, and the join fails with it
    have hsome : (joinFailure? anchor children).isSome = true := by
      refine (Child.isSome_joinFailure?_iff hover).mpr ⟨child, hchild, ?_⟩
      refine hlost.imp_right ?_
      rintro ⟨entry, branch, rfl, -⟩
      exact absurd (List.all_eq_true.mp hover _ hchild) (by simp [Child.isOver])
    obtain ⟨failure, hfailure⟩ := Option.isSome_iff_exists.mp hsome
    refine ⟨failure, hfailure, fun htrue => hblames htrue ⟨task, serial, .joined anchor (some failure)⟩ ?_ hmem⟩
    rw [hfailure]
    show _ ∈ (engine.journal.push _).toList.drop engine.journal.size
    simp

end Scene

/-! ## Steps in a tree -/

theorem Journal.Blames.subset {walks : List Nat} {journal more : List JournalEntry}
    (h : Blames walks more) (hsub : ∀ entry ∈ journal, entry ∈ more) : Blames walks journal :=
  fun entry hmem => h entry (hsub entry hmem)

/-- What was added first is among what has been added. -/
theorem Engine.Logs.drop_subset {P : JournalEntry → Prop} {e e' e'' : Engine} (h : e'.Logs P e'') :
    ∀ entry ∈ e'.journal.toList.drop e.journal.size,
      entry ∈ e''.journal.toList.drop e.journal.size := by
  obtain ⟨new, heq, -⟩ := h
  intro entry hmem
  rw [heq, List.drop_append]
  exact List.mem_append_left _ hmem

/-- What was added last is among what has been added. -/
theorem Engine.Logs.mem_drop {P : JournalEntry → Prop} {e e' e'' : Engine} (h : e.Logs P e') :
    ∀ entry ∈ e''.journal.toList.drop e'.journal.size,
      entry ∈ e''.journal.toList.drop e.journal.size := by
  obtain ⟨new, heq, -⟩ := h
  intro entry hmem
  have hlength := congrArg List.length heq
  simp only [Array.length_toList, List.length_append] at hlength
  rw [hlength, ← List.drop_drop] at hmem
  exact List.mem_of_mem_drop hmem

namespace Process

variable {walks : List Nat} {tolerant : Bool} {who task : Nat} {p p' : Process} {run run' : RunState}
  {e e' : Engine} {site : Site}

/-- A branch that has come to its end as a lost walk has a failure. -/
theorem Loses.isSome_failure (h : p.Loses walks tolerant run) (hmem : p.serial ∈ walks)
    (hfinished : p.isFinished = true) : p.walk.failure.isSome = true :=
  (h.isLost (.self p) hmem).isSome_failure hfinished

/-- The branch in a walk's place has come to its end, and the walk joins it. -/
theorem Moves.loses_inPlaceEnded {serial : Nat} {walk : Walk} {anchor entry : String}
    {resume : Resume} {branch branch' : Process}
    (h : branch.Moves who site task run e branch' run' e') (hfinished : branch'.isFinished = true)
    (hearly : walk.EarlyFits) (hat : walk.AwaitsFork resume)
    (hbranch : branch'.Loses walks tolerant run')
    (hblames : tolerant = true → Journal.Blames walks ((e'.record task serial (.joined anchor
      (Scene.branchFailure? anchor entry branch'))).journal.toList.drop e.journal.size))
    (hown : serial ∈ walks → run.context.tolerant = tolerant ∧ branch.serial ∈ walks) :
    let s := Scene.close ⟨walk, .inPlace anchor entry resume branch, run', e'⟩ task serial anchor resume
      (Scene.branchFailure? anchor entry branch') [entry]
    (s.process serial).Loses walks tolerant s.run := by
  refine Scene.loses_close (s := ⟨walk, _, run', e'⟩) hearly hat task anchor [entry] fun hmem => ?_
  obtain ⟨htolerant, hserial⟩ := hown hmem
  rw [← h.serial] at hserial
  refine ⟨h.tolerant.trans htolerant, ?_⟩
  obtain ⟨failure, hfailure⟩ :=
    Option.isSome_iff_exists.mp (hbranch.isSome_failure hserial hfinished)
  have hresult : Scene.branchFailure? anchor entry branch' =
      some (.branchFailed anchor entry failure) := by
    rw [Scene.branchFailure?, hfailure, Option.map_some]
  refine ⟨_, hresult, fun htrue => hblames htrue ⟨task, serial, .joined anchor
    (some (.branchFailed anchor entry failure))⟩ ?_ hmem⟩
  -- the walk writes this down behind what the branch has written
  obtain ⟨new, heq, -⟩ := h.logs
  rw [hresult, Engine.record, Array.toList_push, heq, List.append_assoc,
    List.drop_append_of_le_length (by simp), List.drop_of_length_le (by simp)]
  simp

/-- One of the branches of a fork has done something. -/
theorem loses_forking {serial : Nat} {walk : Walk} {anchor : String} {resume : Resume}
    {toStart : List (Branch Plan)} {before after : List Child} {completed : List String}
    {child : Child}
    (hown : serial ∈ walks → run.context.tolerant = tolerant ∧
      ∃ child' ∈ before ++ child :: after, child'.IsLost walks)
    (hchild : ∀ entry q, child = .running entry q → q.Loses walks tolerant run)
    (hothers : ∀ entry q, Child.running entry q ∈ before ∨ Child.running entry q ∈ after →
      q.Loses walks tolerant run) :
    (mk serial walk (.forking anchor resume toStart (before ++ child :: after) completed)).Loses
      walks tolerant run := by
  refine .mk hown (fun _ _ hcalls => hcalls.elim) ?_
  rintro q ⟨entry, hmem⟩
  rcases List.mem_append.mp hmem with hmem | hmem
  · exact hothers entry q (.inl hmem)
  · rcases List.mem_cons.mp hmem with heq | hmem
    · exact hchild entry q heq.symm
    · exact hothers entry q (.inr hmem)

/-- A branch that is on its way to be lost has moved, or ended: in its place there is one that is
lost. -/
theorem isLost_of_replaced {before after : List Child} {child child' : Child}
    (h : ∃ c ∈ before ++ child :: after, c.IsLost walks)
    (himp : child.IsLost walks → child'.IsLost walks) :
    ∃ c ∈ before ++ child' :: after, c.IsLost walks := by
  obtain ⟨c, hmem, hlost⟩ := h
  rcases mem_around.mp hmem with rfl | hother
  · exact ⟨child', by simp, himp hlost⟩
  · exact ⟨c, mem_of_around hother child', hlost⟩

/-- Lost walks stay lost, as long as their groups blame missing units, if they have to. -/
theorem Moves.loses (h : p.Moves who site task run e p' run' e') (hfits : p.Fits)
    (hnew : e.nextSerial ∉ walks) (hlost : p.Loses walks tolerant run)
    (hblames : tolerant = true →
      Journal.Blames walks (e'.journal.toList.drop e.journal.size)) :
    p'.Loses walks tolerant run' := by
  -- A lost walk waits for a branch that is lost or has failed, so the hypothesis is about just that
  -- branch as long as it runs. Its end is a failure.
  induction h with
  | here h => exact h.loses hfits hnew hlost hblames
  | called _ _ ih =>
    obtain ⟨-, -, hinside⟩ := hfits
    obtain ⟨own, called, -⟩ := hlost
    refine .mk (fun hmem => (own hmem).2.elim) ?_ fun _ hbranch => hbranch.elim
    rintro _ _ ⟨rfl, rfl⟩
    exact ih (hinside _ rfl) hnew (called _ _ ⟨rfl, rfl⟩) hblames
  | returned =>
    obtain ⟨own, -, -⟩ := hlost
    exact loses_alone (fun _ hruns => hruns) fun hmem => (own hmem).2.elim
  | inPlace h _ ih =>
    obtain ⟨-, -, hinside⟩ := hfits
    obtain ⟨own, -, branches⟩ := hlost
    refine .mk (fun hmem => ⟨h.tolerant.trans (own hmem).1, ?_⟩) (fun _ _ hcalls => hcalls.elim) fun q hbranch => ?_
    · show Process.serial _ ∈ walks
      rw [h.serial]
      exact (own hmem).2
    · obtain rfl : q = _ := hbranch
      exact ih (hinside _ rfl) hnew (branches _ rfl) hblames
  | inPlaceEnded h hfinished hclose ih =>
    obtain ⟨hearly, hat, hinside⟩ := hfits
    obtain ⟨own, -, branches⟩ := hlost
    subst hclose
    -- the entry of the join is one more than what the branch has written down
    have hbranch := ih (hinside _ rfl) hnew (branches _ rfl) fun htrue =>
      (hblames htrue).subset (Engine.Logs.record (P := fun _ => True) _ trivial).drop_subset
    exact h.loses_inPlaceEnded hfinished hearly hat hbranch hblames own
  | @child _ _ _ _ entry _ _ _ _ _ branch branch' _ _ _ _ _ h _ _ ih =>
    obtain ⟨-, -, hinside⟩ := hfits
    obtain ⟨own, -, branches⟩ := hlost
    have hbranch := ih (hinside branch ⟨entry, by simp⟩) hnew (branches branch ⟨entry, by simp⟩) hblames
    refine loses_forking (fun hmem => ⟨h.tolerant.trans (own hmem).1, ?_⟩) ?_ ?_
    · refine isLost_of_replaced (own hmem).2 fun hlost => .inr ⟨entry, branch', rfl, ?_⟩
      rw [h.serial]
      rcases hlost with hfailure | ⟨_, _, ⟨⟩, hserial⟩
      · cases hfailure
      · exact hserial
    · rintro _ _ ⟨⟩
      exact hbranch
    · intro entry' q hmem
      refine (branches q ⟨entry', ?_⟩).of_tolerant h.tolerant
      rcases hmem with hmem | hmem <;> simp [hmem]
  | @childEnded _ _ _ _ entry _ _ _ _ _ _ branch branch' _ _ _ _ _ h hfinished _ _ ih =>
    obtain ⟨-, -, hinside⟩ := hfits
    obtain ⟨own, -, branches⟩ := hlost
    have hbranch := ih (hinside branch ⟨entry, by simp⟩) hnew (branches branch ⟨entry, by simp⟩) hblames
    refine loses_forking (fun hmem => ⟨h.tolerant.trans (own hmem).1, ?_⟩) nofun ?_
    · refine isLost_of_replaced (own hmem).2 fun hlost => .inl ?_
      rcases hlost with hfailure | ⟨_, _, ⟨⟩, hserial⟩
      · cases hfailure
      · exact hbranch.isSome_failure (by rwa [h.serial]) hfinished
    · intro entry' q hmem
      refine (branches q ⟨entry', ?_⟩).of_tolerant h.tolerant
      rcases hmem with hmem | hmem <;> simp [hmem]

/-- The walks around a site in a branch are those seen from the branch and, unless there is a flow
in between that a unit runs, the walk that waits for the branch. -/
theorem At.around {serial : Nat} {branch : Process} (hat : branch.At who task run site)
    (hserial : serial ∉ branch.serials)
    (hwalks : ∀ w, w = serial ∨ w ∈ branch.serials →
      (w ∈ walks ↔ w ∈ (site.within serial).walks)) :
    (∀ w ∈ branch.serials, w ∈ walks ↔ w ∈ site.walks) ∧
      (serial ∈ walks → site.run = run ∧ branch.serial ∈ walks) := by
  have hbranches : ∀ w ∈ branch.serials, w ∈ walks ↔ w ∈ site.walks := fun w hw => by
    rw [hwalks w (.inr hw), Site.mem_walks_within, or_iff_right]
    rintro ⟨-, rfl⟩
    exact hserial hw
  refine ⟨hbranches, fun hmem => ?_⟩
  have hdepth : site.depth = 0 := by
    rcases Site.mem_walks_within.mp ((hwalks serial (.inl rfl)).mp hmem) with ⟨hdepth, -⟩ | hin
    · exact hdepth
    · exact absurd (hat.walks_subset serial hin) hserial
  obtain ⟨hrun, hhead⟩ := hat.of_depth_eq_zero hdepth
  exact ⟨hrun, (hbranches _ branch.serial_mem_serials).mpr hhead⟩

/-- Branches beside that of a walk have none of the walks around it. -/
theorem At.loses_others {serial : Nat} {branch : Process} {before after : List Child} {entry : String}
    (hat : branch.At who branch.serial run site) (tolerant : Bool) (run' : RunState)
    (hnodup : (serial :: Child.serialsIn (before ++ .running entry branch :: after)).Nodup)
    (hwalks : ∀ w ∈ serial :: Child.serialsIn (before ++ .running entry branch :: after),
      w ∈ walks ↔ w ∈ (site.within serial).walks) :
    ∀ entry' q, Child.running entry' q ∈ before ∨ Child.running entry' q ∈ after →
      q.Loses walks tolerant run' := by
  obtain ⟨hserial, hnodup⟩ := List.nodup_cons.mp hnodup
  intro entry' q hother
  refine loses_of_disjoint run' q fun w hw hmem => ?_
  have hin : w ∈ Child.serialsIn (before ++ .running entry branch :: after) :=
    Child.mem_serialsIn (mem_of_around hother _) hw
  rcases Site.mem_walks_within.mp ((hwalks w (List.mem_cons_of_mem _ hin)).mp hmem) with
    ⟨-, rfl⟩ | haround
  · exact hserial hin
  · rw [Child.serialsIn_eq_flatMap] at hnodup
    exact not_mem_of_nodup_flatMap hnodup hother hw (hat.walks_subset w haround)

/-- When a unit is not there, the walk that asked for it is lost, and so are the walks around it. -/
theorem Moves.loses_missing {u : String} {resume : Resume}
    (h : p.Moves who site task run e p' run' e') (hfits : p.Fits) (hnodup : p.serials.Nodup)
    (hactivity : site.process.activity = .poised (.execute u resume))
    (hunit : e.registry.unit? u = none)
    (hwalks : ∀ w ∈ p.serials, w ∈ walks ↔ w ∈ site.walks)
    (hblames : site.run.context.tolerant = true →
      Journal.Blames walks (e'.journal.toList.drop e.journal.size)) :
    p'.Loses walks site.run.context.tolerant run' := by
  -- The walks around the site are among those of the part that moves and, unless a call is in
  -- between, the walk that waits for the part: `At.around` tells one from the other in each case.
  induction h with
  | @here serial walk activity run e s h =>
    obtain ⟨hearly, hat, -⟩ := hfits
    obtain rfl : activity = _ := hactivity
    cases h with
    | missing h =>
      obtain ⟨rfl, rfl⟩ : u = _ ∧ resume = _ := by simpa using h
      refine loses_alone (fun _ hruns => hruns) fun _ => ⟨rfl, ?_⟩
      -- a unit that is not there is not survived, be the context tolerant or not
      have hends : Walk.survivesUnit run.context.tolerant ⟨.unknownUnit u, false⟩ = false := rfl
      have hnext := Walk.next_unitDone hends walk run.scope run.hasRun u resume
      have hkeeps := Walk.keeps_unitDone hearly hat run.scope run.hasRun run.context.tolerant
        (some ⟨.unknownUnit u, false⟩)
      show IsLost walks (.mk serial (Walk.unitDone _ _ _ _ u resume _).walk
        (.poised (Walk.unitDone _ _ _ _ u resume _).next))
      rw [hnext]
      show Option.isSome (Walk.failure _) = true
      rw [hkeeps.failure, Option.map_some, Option.isSome_or]
      exact Bool.or_true _
    | queues h hsome | begins h hsome =>
      obtain ⟨rfl, rfl⟩ : u = _ ∧ resume = _ := by simpa using h
      cases hunit.symm.trans hsome
    | advance h | granted h | does h | sleeps h | wakes h | opens h | runs h | tidies h | ends h
    | fails h | gaveUp h | forksNone h | forksOne h | forks h | starts h | refuses h | joins h =>
      cases h
  | @called task serial walk job inner inner' run root root' next e e' site h _ ih =>
    obtain ⟨-, -, hinside⟩ := hfits
    obtain ⟨hserial, hnodup⟩ := List.nodup_cons.mp hnodup
    refine .mk (fun hmem => ?_) ?_ fun _ hbranch => hbranch.elim
    -- a walk whose unit calls the executor is around nothing that happens in the call
    · refine absurd (h.at.1.walks_subset serial ?_) hserial
      exact (hwalks serial List.mem_cons_self).mp hmem
    · rintro _ _ ⟨rfl, rfl⟩
      exact ih (hinside _ rfl) hnodup hactivity hunit
        (fun w hw => hwalks w (List.mem_cons_of_mem _ hw)) hblames
  | @returned task serial walk job inner inner' run root root' next e e' site h _ ih =>
    obtain ⟨hserial, hnodup⟩ := List.nodup_cons.mp hnodup
    refine loses_alone (fun _ hruns => hruns) fun hmem => ?_
    refine absurd (h.at.1.walks_subset serial ?_) hserial
    exact (hwalks serial List.mem_cons_self).mp hmem
  | inPlace h _ ih =>
    obtain ⟨-, -, hinside⟩ := hfits
    obtain ⟨hserial, hnodup⟩ := List.nodup_cons.mp hnodup
    rw [Site.run_within] at hblames ⊢
    rw [Site.process_within] at hactivity
    obtain ⟨hbranches, hown⟩ :=
      h.at.1.around hserial fun w hw => hwalks w (List.mem_cons.mpr hw)
    refine .mk (fun hmem => ⟨by rw [h.tolerant, (hown hmem).1], ?_⟩) (fun _ _ hcalls => hcalls.elim) fun q hbranch => ?_
    · show Process.serial _ ∈ walks
      rw [h.serial]
      exact (hown hmem).2
    · obtain rfl : q = _ := hbranch
      exact ih (hinside _ rfl) hnodup hactivity hunit hbranches hblames
  | inPlaceEnded h hfinished hclose ih =>
    obtain ⟨hearly, hat, hinside⟩ := hfits
    obtain ⟨hserial, hnodup⟩ := List.nodup_cons.mp hnodup
    rw [Site.run_within] at hblames ⊢
    rw [Site.process_within] at hactivity
    obtain ⟨hbranches, hown⟩ :=
      h.at.1.around hserial fun w hw => hwalks w (List.mem_cons.mpr hw)
    subst hclose
    have hbranch := ih (hinside _ rfl) hnodup hactivity hunit hbranches fun htrue =>
      (hblames htrue).subset (Engine.Logs.record (P := fun _ => True) _ trivial).drop_subset
    exact h.loses_inPlaceEnded hfinished hearly hat hbranch hblames fun hmem =>
      ⟨by rw [(hown hmem).1], (hown hmem).2⟩
  | @child _ _ _ _ entry _ _ before after _ branch branch' run run' _ _ site h _ _ ih =>
    obtain ⟨-, -, hinside⟩ := hfits
    -- the branches next to this one are not around the site
    have hothers := h.at.1.loses_others site.run.context.tolerant run' hnodup hwalks
    obtain ⟨hserial, hnodup⟩ := List.nodup_cons.mp hnodup
    rw [Site.run_within] at hblames ⊢
    rw [Site.process_within] at hactivity
    have hmem : Child.running entry branch ∈ before ++ .running entry branch :: after := by simp
    obtain ⟨hbranches, hown⟩ :=
      h.at.1.around (fun hin => hserial (Child.mem_serialsIn hmem hin)) fun w hw =>
        hwalks w (List.mem_cons.mpr (hw.imp_right (Child.mem_serialsIn hmem)))
    have hbranch := ih (hinside branch ⟨entry, hmem⟩) (Child.nodup_serials hnodup hmem) hactivity hunit
      hbranches hblames
    refine loses_forking (fun hin => ⟨by rw [h.tolerant, (hown hin).1], ?_⟩) ?_ hothers
    · refine ⟨.running entry branch', by simp, .inr ⟨entry, branch', rfl, ?_⟩⟩
      rw [h.serial]
      exact (hown hin).2
    · rintro _ _ ⟨⟩
      exact hbranch
  | @childEnded _ _ _ _ entry _ _ before after _ _ branch branch' run run' _ _ site h hfinished _ _ ih =>
    obtain ⟨-, -, hinside⟩ := hfits
    have hothers := h.at.1.loses_others site.run.context.tolerant run' hnodup hwalks
    obtain ⟨hserial, hnodup⟩ := List.nodup_cons.mp hnodup
    rw [Site.run_within] at hblames ⊢
    rw [Site.process_within] at hactivity
    have hmem : Child.running entry branch ∈ before ++ .running entry branch :: after := by simp
    obtain ⟨hbranches, hown⟩ :=
      h.at.1.around (fun hin => hserial (Child.mem_serialsIn hmem hin)) fun w hw =>
        hwalks w (List.mem_cons.mpr (hw.imp_right (Child.mem_serialsIn hmem)))
    have hbranch := ih (hinside branch ⟨entry, hmem⟩) (Child.nodup_serials hnodup hmem) hactivity hunit
      hbranches hblames
    refine loses_forking (fun hin => ⟨by rw [h.tolerant, (hown hin).1], ?_⟩) nofun hothers
    refine ⟨.ended entry branch'.walk.failure, by simp, .inl ?_⟩
    exact hbranch.isSome_failure (by rw [h.serial]; exact (hown hin).2) hfinished

/-- Giving up branches leaves lost walks lost. -/
theorem Loses.cancelTasks (h : p.Loses walks tolerant run) :
    p.cancelTasks.Loses walks tolerant run := by
  induction h with
  | @mk serial walk activity run own called branches ihcalled ihbranches =>
    cases activity with
    | poised | queued | working | asleep => exact .mk own called branches
    | calling job inner root next =>
      refine .mk (fun hmem => (own hmem).2.elim) ?_ fun _ hbranch => hbranch.elim
      rintro _ _ ⟨rfl, rfl⟩
      exact ihcalled _ _ ⟨rfl, rfl⟩
    | inPlace anchor entry resume branch =>
      refine .mk (fun hmem => ⟨(own hmem).1, ?_⟩) (fun _ _ hcalls => hcalls.elim) fun q hbranch => ?_
      · obtain ⟨serial, walk, activity⟩ := branch
        exact (own hmem).2
      · obtain rfl : q = branch.cancelTasks := hbranch
        exact ihbranches branch rfl
    | forking anchor resume toStart children completed =>
      refine .mk (fun hmem => ⟨(own hmem).1, ?_⟩) (fun _ _ hcalls => hcalls.elim) ?_
      · obtain ⟨child, hchild, hlost⟩ := (own hmem).2
        refine ⟨child.cancel, List.mem_map_of_mem hchild, .inl ?_⟩
        -- a branch that is given up counts as one that has failed
        rcases hlost with hfailure | ⟨entry, branch, rfl, -⟩
        · cases child with
          | running => cases hfailure
          | refused | ended | cancelled => exact hfailure
        · rfl
      · rintro q ⟨entry, hmem⟩
        exact absurd hmem Child.not_running_cancel

end Process

/-! ## Executors -/

namespace Executor

variable {walks : List Nat} {tolerant : Bool} {x y start last : Executor} {m : Move}
  {past : List (Executor × Move)}

/-- Some walks are lost, as far as they are still there, and none of them is yet to come. -/
structure Loses (walks : List Nat) (tolerant : Bool) (x : Executor) : Prop where
  known : ∀ w ∈ walks, w < x.engine.nextSerial
  runs : ∀ run ∈ x.runs, run.root.Loses walks tolerant run.state

/-- Only the walk that moves starts anything, and was about to do so. -/
theorem logs_move (hmove : x.move m = some y) : x.engine.Logs (fun entry => entry.occurrence.Starts →
    ∃ i who site, m = .step who ∧ x.At i who site ∧ entry.walk = site.process.serial ∧
      site.process.activity.IsStarting x.engine) y.engine := by
  rcases move_cases hmove with
    ⟨who, before, run, after, site, root, state, e, rfl, hruns, hmoves, rfl⟩ | ⟨hjournal, -⟩
  · refine hmoves.logs.mono fun entry hentry hstarts => ?_
    exact ⟨before.length, who, site, rfl, ⟨run, by simp [hruns], hmoves.at.1⟩, hentry hstarts⟩
  · exact .of_eq hjournal

theorem History.logs (h : start.History past last) :
    start.engine.Logs (fun _ => True) last.engine := by
  induction h with
  | start => exact .of_eq rfl
  | move _ hmove ih => exact ih.trans ((logs_move hmove).mono fun _ _ => trivial)

theorem nextSerial_le (h : x.Fits) (hmove : x.move m = some y) :
    x.engine.nextSerial ≤ y.engine.nextSerial := by
  by_cases hgives : x.GivesUpBy m
  · obtain ⟨rfl, -⟩ := hgives
    cases hmove
    rcases x.settleShutdown_cases with ⟨_, heq⟩ | ⟨-, heq⟩ <;>
      exact Nat.le_of_eq (congrArg (·.engine.nextSerial) heq).symm
  · exact Ledger.next_le_of_ops (books_move h hmove hgives)

/-- Lost walks stay lost, whatever happens. -/
theorem Loses.move (h : x.Loses walks tolerant) (hfits : x.Fits) (hmove : x.move m = some y)
    (hblames : tolerant = true →
      Journal.Blames walks (y.engine.journal.toList.drop x.engine.journal.size)) :
    y.Loses walks tolerant := by
  refine ⟨fun w hw => Nat.lt_of_lt_of_le (h.known w hw) (nextSerial_le hfits hmove), ?_⟩
  have hnew : x.engine.nextSerial ∉ walks := fun hmem => Nat.lt_irrefl _ (h.known _ hmem)
  intro own hown
  cases comesBy hmove hown with
  | stays hrun => exact h.runs own hrun
  | moves _ hrun hmoves =>
    have hrun := List.mem_of_getElem? hrun
    exact hmoves.loses (hfits _ hrun) hnew (h.runs _ hrun) hblames
  | launched hlaunched =>
    refine Process.loses_of_disjoint _ _ fun w hw => ?_
    rw [hlaunched.serials] at hw
    rwa [List.mem_singleton.mp hw]
  | givesUp hrun => exact (h.runs _ hrun).cancelTasks

/-- From where walks are lost, they start nothing. -/
theorem History.loses (h : start.History past last) (hfits : start.Fits)
    (hstart : start.Loses walks tolerant)
    (hblames : tolerant = true →
      Journal.Blames walks (last.engine.journal.toList.drop start.engine.journal.size)) :
    last.Loses walks tolerant ∧
      start.engine.Logs (fun entry => entry.occurrence.Starts → entry.walk ∉ walks) last.engine := by
  induction h with
  | start => exact ⟨hstart, .of_eq rfl⟩
  | @move past x y m h hmove ih =>
    have hlogs := logs_move hmove
    obtain ⟨hx, hearlier⟩ := ih fun htrue => (hblames htrue).subset hlogs.drop_subset
    refine ⟨hx.move (h.fits hfits) hmove fun htrue => ?_, hearlier.trans (hlogs.mono ?_)⟩
    · exact (hblames htrue).subset hearlier.mem_drop
    · intro entry hentry hstarts hmem
      obtain ⟨i, who, site, -, ⟨run, hrun, hat⟩, hwalk, hstarting⟩ := hentry hstarts
      rw [hwalk] at hmem
      -- only the walk that moves starts anything, and a lost one is not about to
      have hlost := (hx.runs run (List.mem_of_getElem? hrun)).isLost hat.has hmem
      exact hlost.not_isStarting _ hstarting

/-- When a task asks for a unit that is not there, its walk and all walks around it are lost, unless
a group blames something else on the way. -/
theorem loses_missing {i who : Nat} {site : Site} {u : String} {resume : Resume} (hfits : x.Fits)
    (hnumbered : x.ledger.Numbered) (hat : x.At i who site)
    (hactivity : site.process.activity = .poised (.execute u resume))
    (hunit : x.engine.registry.unit? u = none) (hmove : x.move (.step who) = some y)
    (hblames : site.run.context.tolerant = true →
      Journal.Blames site.walks (y.engine.journal.toList.drop x.engine.journal.size)) :
    y.Loses site.walks site.run.context.tolerant := by
  obtain ⟨run, hrun, hat⟩ := hat
  have hown : site.process.activity.IsOwn := by rw [hactivity]; trivial
  have hserials : ∀ w ∈ site.walks, w ∈ run.root.serials := hat.walks_subset
  refine ⟨fun w hw => ?_, ?_⟩
  · refine Nat.lt_of_lt_of_le ?_ (nextSerial_le hfits hmove)
    obtain ⟨live, hlive, rfl⟩ := List.mem_map.mp
      ((run.root.map_serial_lives none).symm ▸ hserials w hw)
    exact hnumbered.bounded live (List.mem_flatMap.mpr ⟨run, List.mem_of_getElem? hrun, hlive⟩)
  obtain ⟨before, mover, after, root, state, e', hruns, hstep, rfl⟩ := exists_step hmove
  obtain ⟨other, hmoves⟩ := Process.moves_of_step hstep
  have hmover : x.runs[before.length]? = some mover := by simp [hruns]
  -- the run, the place in it and the walk that move are those of the site, as no number occurs
  -- twice
  obtain rfl : i = before.length :=
    index_eq_of_mem_serials hnumbered hrun hmover hat.mem_serials hmoves.at.1.mem_serials
  obtain rfl : mover = run := Option.some.inj (hmover.symm.trans hrun)
  obtain rfl : site = other :=
    hat.unique (nodup_root hnumbered hrun) hown hmoves.at.1 hmoves.at.2
  -- the walks around the site are all in one run
  have hothers : ∀ own, own ∈ before ∨ own ∈ after →
      own.root.Loses site.walks site.run.context.tolerant own.state := by
    intro own hown
    exact Process.loses_of_disjoint own.state own.root fun w hw hmem =>
      not_mem_serials_of_other hnumbered hruns hown hw (hserials w hmem)
  intro own hmem
  rcases mem_around.mp hmem with rfl | hother
  · refine hmoves.loses_missing (hfits mover (List.mem_of_getElem? hrun)) ?_ hactivity hunit
      (fun _ _ => .rfl) hblames
    rw [mover.root.serials_eq]
    exact nodup_root hnumbered hrun
  · exact hothers own hother

/-- A unit that is not there ends the walk that asked for it and all walks around it, to whatever
depth, whatever has failed before and whether or not failures are survived otherwise: none of them
starts a unit or branches any more, and each of them has come to its end with a failure, or waits for
branches that will let it end like that. Only if the context is tolerant it takes that no group on the
way blames another failure. -/
theorem History.missing_ends {config : Config} {registry : Registry} {listeners : Listeners}
    {after : List (Executor × Move)} {i who : Nat} {site : Site} {u : String} {resume : Resume}
    (hbuild : build config registry listeners = .ok start) (hbefore : start.History past x)
    (hat : x.At i who site) (hactivity : site.process.activity = .poised (.execute u resume))
    (hunit : x.engine.registry.unit? u = none) (hmove : x.move (.step who) = some y)
    (h : y.History after last)
    (hblames : site.run.context.tolerant = true →
      Journal.Blames site.walks (last.engine.journal.toList.drop x.engine.journal.size)) :
    (∀ entry ∈ last.engine.journal.toList.drop x.engine.journal.size,
        entry.occurrence.Starts → entry.walk ∉ site.walks) ∧
      ∀ q, last.Has q → q.serial ∈ site.walks → q.IsLost site.walks := by
  obtain ⟨hfits, hsound⟩ := sound_build hbuild
  have hxfits := hbefore.fits hfits
  have hnumbered := hbefore.numbered hfits hsound.toNumbered
  have hy : y.Loses site.walks site.run.context.tolerant :=
    loses_missing hxfits hnumbered hat hactivity hunit hmove fun htrue =>
      (hblames htrue).subset h.logs.drop_subset
  have hfirst := logs_move hmove
  obtain ⟨hlast, hlater⟩ := h.loses (hxfits.move hmove) hy fun htrue =>
    (hblames htrue).subset hfirst.mem_drop
  refine ⟨((hfirst.mono ?_).trans hlater).drop, fun q ⟨run, hrun, hhas⟩ hmem => ?_⟩
  · -- the move by which the unit turns out not to be there starts nothing either
    intro entry hentry hstarts
    obtain ⟨j, _, other, ⟨⟩, hother, -, hstarting⟩ := hentry hstarts
    have hown : site.process.activity.IsOwn := by rw [hactivity]; trivial
    obtain ⟨-, rfl⟩ := hat.unique hnumbered hown hother hstarting.isOwn
    rw [hactivity] at hstarting
    exact absurd hunit hstarting
  · exact (hlast.runs run hrun).isLost hhas hmem

/-- A unit is not there in one branch of a group, whose walk would survive other failures, and the
unit behind the group does not run. -/
theorem History.missing_ends_group : ∃ (x y last : Executor) (past after : List (Executor × Move))
    (site : Site) (resume : Resume),
    (doing [("b", .done), ("c", .done)]).History past x ∧ x.At 0 1 site ∧
      site.run.context.tolerant = true ∧ site.walks = [0, 1] ∧
      site.process.activity = .poised (.execute "m" resume) ∧ x.move (.step 1) = some y ∧
      y.History after last ∧
      last.runs.map (fun run => (run.state.unitNames, run.root.isFinished)) = [(["b"], true)] ∧
      (∀ entry ∈ last.engine.journal.toList.drop x.engine.journal.size,
        entry.occurrence.Starts → entry.walk ∉ site.walks) ∧
      ∀ q, last.Has q → q.serial ∈ site.walks → q.IsLost site.walks := by
  let plan := (Node.compile? (.sequence [.parallel [.unit "m", .unit "b"], .unit "c"])).getD {}
  let moves : List Move :=
    .launch (.plan plan) { tolerant := true } :: List.replicate 4 (.step 0) ++ [.step 1]
  let x := ((doing [("b", .done), ("c", .done)]).follow moves).2
  let y := (x.follow [.step 1]).2
  let later : List Move := List.replicate 6 (.step 2) ++ List.replicate 2 (.step 0)
  let last := (y.follow later).2
  obtain ⟨hsites, hstep, hunit, hblames, hended⟩ :
      (x.sites 0 1).map
          (fun site => (site.run.context.tolerant, site.walks, site.process.activity.asked?)) =
        [(true, [0, 1], some "m")] ∧
      (x.move (.step 1)).isSome = true ∧ x.engine.registry.unit? "m" = none ∧
      Journal.Blames [0, 1] (last.engine.journal.toList.drop x.engine.journal.size) ∧
      last.runs.map (fun run => (run.state.unitNames, run.root.isFinished)) = [(["b"], true)] := by
    decide +kernel
  obtain ⟨site, hsite, heq⟩ := List.map_eq_singleton_iff.mp hsites
  obtain ⟨htolerant, hwalks, hasked⟩ : site.run.context.tolerant = true ∧ site.walks = [0, 1] ∧
    site.process.activity.asked? = some "m" := by simpa using heq
  obtain ⟨resume, hactivity⟩ := Activity.exists_of_asked? hasked
  have hat : x.At 0 1 site := at_of_mem_sites (hsite ▸ List.mem_singleton_self site)
  have hbefore : (doing [("b", .done), ("c", .done)]).History _ x := history_follow _ moves
  have hmove : x.move (.step 1) = some y := move_eq_follow hstep
  have hlater : y.History _ last := history_follow y later
  have hbuild := build_doing [("b", .done), ("c", .done)]
  rw [← hwalks] at hblames
  clear_value x y last
  have h := History.missing_ends hbuild hbefore hat hactivity hunit hmove hlater fun _ => hblames
  exact ⟨x, y, last, _, _, site, resume, hbefore, hat, htolerant, hwalks, hactivity, hmove, hlater, hended,
    h⟩

/-- The first failure of a branch is not that a unit was not there. A tolerant walk around it goes on,
although a unit was not there. -/
theorem History.missing_survived : ∃ (x y last : Executor) (past after : List (Executor × Move))
    (site : Site) (resume : Resume),
    (doing [("b", .done), ("c", .done), ("x", .fail ⟨"no", []⟩)]).History past x ∧ x.At 0 1 site ∧
      site.process.activity = .poised (.execute "m" resume) ∧
      x.engine.registry.unit? "m" = none ∧ x.move (.step 1) = some y ∧ y.History after last ∧
      ¬ ∀ entry ∈ last.engine.journal.toList.drop x.engine.journal.size,
        entry.occurrence.Starts → entry.walk ∉ site.walks := by
  let plan := (Node.compile? (.sequence [.parallel [.sequence [.unit "x", .unit "m"], .unit "b"],
    .unit "c"])).getD {}
  let moves : List Move :=
    .launch (.plan plan) { tolerant := true } :: List.replicate 4 (.step 0) ++ List.replicate 6 (.step 1)
  let units : List (String × Behavior) := [("b", .done), ("c", .done), ("x", .fail ⟨"no", []⟩)]
  let x := ((doing units).follow moves).2
  let y := (x.follow [.step 1]).2
  let later : List Move := List.replicate 6 (.step 2) ++ List.replicate 3 (.step 0)
  let last := (y.follow later).2
  obtain ⟨hsites, hstep, hunit, entry, hmem, hoccurrence, hwalk⟩ :
      (x.sites 0 1).map (fun site => (site.walks, site.process.activity.asked?)) =
        [([0, 1], some "m")] ∧
      (x.move (.step 1)).isSome = true ∧ x.engine.registry.unit? "m" = none ∧
      ∃ entry ∈ last.engine.journal.toList.drop x.engine.journal.size,
        entry.occurrence = .unitStarted "c" ∧ entry.walk = 0 := by
    decide +kernel
  obtain ⟨site, hsite, heq⟩ := List.map_eq_singleton_iff.mp hsites
  obtain ⟨hwalks, hasked⟩ : site.walks = [0, 1] ∧ site.process.activity.asked? = some "m" := by
    simpa using heq
  obtain ⟨resume, hactivity⟩ := Activity.exists_of_asked? hasked
  have hat : x.At 0 1 site := at_of_mem_sites (hsite ▸ List.mem_singleton_self site)
  have hbefore : (doing units).History _ x := history_follow _ moves
  have hmove : x.move (.step 1) = some y := move_eq_follow hstep
  have hlater : y.History _ last := history_follow y later
  clear_value x y last
  refine ⟨x, y, last, _, _, site, resume, hbefore, hat, hactivity, hunit, hmove, hlater,
    fun hnone => ?_⟩
  refine hnone entry hmem (by rw [hoccurrence]; trivial) ?_
  rw [hwalks, hwalk]
  exact List.mem_cons_self

end Executor

end Workflow
