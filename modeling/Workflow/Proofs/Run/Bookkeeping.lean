import Workflow.Proofs.Run.History
import Workflow.Proofs.Run.Ledger
import Workflow.Proofs.Run.Turns

/-!
# Processes keep a ledger

`Process.lives` are the walks of a process as a ledger has them: first the process itself, then the
walks of what it waits for. Whatever a task does in a process, it makes entries in the ledger
(`Process.Moves.books`), and what other processes have in the ledger stays as it is. So the ledger
of an executor (`Executor.ledger`) is in order all along (`Executor.History.sound`); what is known
about numbers and failures outlives even a shutdown that gives branches up
(`Executor.History.numbered`).
-/

namespace Workflow

/-! ## The walks of a process -/

namespace Child

def isRefused : Child → Bool
  | .refused _ => true
  | .running .. | .ended .. | .cancelled _ => false

/-- The number of a branch on its way. -/
def serial? : Child → Option Nat
  | .running _ process => some process.serial
  | .refused _ | .ended .. | .cancelled _ => none

/-- The entries of the branches that have been started. -/
def started (children : List Child) : List String :=
  (children.filter fun child => !child.isRefused).map entry

end Child

namespace Activity

def pursuit : Activity → Pursuit
  | .poised _ | .queued .. => .idle
  | .working job _ | .asleep job _ _ | .calling job _ _ _ => .unit job.unitId
  | .inPlace anchor entry _ _ => .fork anchor [entry] [entry]
  | .forking anchor _ toStart children _ =>
    .fork anchor (children.map Child.entry ++ toStart.map Branch.entry) (Child.started children)

/-- The numbers of the branches that a walk waits for. -/
def branches : Activity → List Nat
  | .inPlace _ _ _ branch => [branch.serial]
  | .forking _ _ _ children _ => children.filterMap Child.serial?
  | .poised _ | .queued .. | .working .. | .asleep .. | .calling .. => []

def refused : Activity → Bool
  | .forking _ _ _ children _ => children.any Child.isRefused
  | .poised _ | .queued .. | .working .. | .asleep .. | .calling .. | .inPlace .. => false

end Activity

/-- A walk as the ledger has it. -/
def Live.of (serial : Nat) (parent? : Option Nat) (walk : Walk) (activity : Activity) : Live :=
  ⟨serial, parent?, activity.pursuit, activity.branches, activity.refused, walk.failure⟩

mutual

/-- The walks of a process, itself first. -/
def Process.lives (parent? : Option Nat) : Process → List Live
  | .mk serial walk activity => .of serial parent? walk activity :: activity.lives serial

/-- The walks below a walk with this number. -/
def Activity.lives (serial : Nat) : Activity → List Live
  | .calling _ _ root _ => root.lives none
  | .inPlace _ _ _ branch => branch.lives (some serial)
  | .forking _ _ _ children _ => Child.livesIn serial children
  | .poised _ | .queued .. | .working .. | .asleep .. => []

def Child.livesIn (serial : Nat) : List Child → List Live
  | [] => []
  | child :: rest => child.lives serial ++ Child.livesIn serial rest

def Child.lives (serial : Nat) : Child → List Live
  | .running _ process => process.lives (some serial)
  | .refused _ | .ended .. | .cancelled _ => []

end

namespace Child

theorem livesIn_append (serial : Nat) (children more : List Child) :
    livesIn serial (children ++ more) = livesIn serial children ++ livesIn serial more := by
  induction children with
  | nil => rfl
  | cons child rest ih => rw [List.cons_append, livesIn, livesIn, ih, List.append_assoc]

/-- A branch that has just been started is a walk of its own. -/
theorem livesIn_concat (serial : Nat) (children : List Child) (entry : String) (own : Nat)
    (plan : Plan) :
    livesIn serial (children ++ [.running entry (.ofPlan own plan true)]) =
      livesIn serial children ++ [.newborn own (some serial)] := by
  rw [livesIn_append]
  rfl

/-- Branches that are over are no walks any more. -/
theorem livesIn_of_over {children : List Child} (serial : Nat)
    (h : children.all isOver = true) : livesIn serial children = [] := by
  induction children with
  | nil => rfl
  | cons child rest ih =>
    rw [List.all_cons, Bool.and_eq_true] at h
    rw [livesIn, ih h.2, List.append_nil]
    cases child with
    | running => exact absurd h.1 (by simp [isOver])
    | refused | ended | cancelled => rfl

theorem branches_of_over {children : List Child} (h : children.all isOver = true) :
    children.filterMap serial? = [] := by
  rw [List.filterMap_eq_nil_iff]
  intro child hchild
  have hover := List.all_eq_true.mp h child hchild
  cases child with
  | running => exact absurd hover (by simp [isOver])
  | refused | ended | cancelled => rfl

/-- Where no branch was refused, all have been started. -/
theorem started_of_any {children : List Child} (h : children.any isRefused = false) :
    started children = children.map entry := by
  rw [started, List.filter_eq_self.mpr]
  intro child hchild
  rw [Bool.not_eq_true']
  exact Bool.eq_false_iff.mpr (List.any_eq_false.mp h child hchild)

end Child

/-- A process that has finished is a walk in the middle of nothing. -/
theorem Process.lives_of_isFinished {p : Process} (h : p.isFinished = true) (parent? : Option Nat) :
    p.lives parent? = [⟨p.serial, parent?, .idle, [], false, p.walk.failure⟩] := by
  obtain ⟨serial, walk, rfl⟩ := exists_of_isFinished h
  rfl

/-! ## Ledgers of engines -/

/-- The ledger of an engine on which these walks are on their way. -/
def Engine.ledger (e : Engine) (lives : List Live) : Ledger :=
  ⟨lives, e.journal.toList, e.nextSerial, e.pool.closed⟩

/-- From some walks on an engine to others on a later one, with nothing but entries in the
ledger. -/
def Books (e : Engine) (lives : List Live) (e' : Engine) (lives' : List Live) : Prop :=
  ∀ before after, Relation.ReflTransGen Ledger.Op (e.ledger (before ++ lives ++ after))
    (e'.ledger (before ++ lives' ++ after))

namespace Books

variable {e e' e'' : Engine} {lives lives' lives'' : List Live}

theorem trans (h : Books e lives e' lives') (h' : Books e' lives' e'' lives'') :
    Books e lives e'' lives'' :=
  fun before after => (h before after).trans (h' before after)

/-- Nothing happens that the ledger knows of. -/
theorem of_eq (hlives : lives' = lives) (hjournal : e'.journal = e.journal)
    (hnext : e'.nextSerial = e.nextSerial) (hclosed : e'.pool.closed = e.pool.closed) :
    Books e lives e' lives' := by
  intro before after
  rw [hlives, Engine.ledger, Engine.ledger, hjournal, hnext, hclosed]

/-- What happens among some walks does not touch those around them. -/
theorem around (h : Books e lives e' lives') (before after : List Live) :
    Books e (before ++ lives ++ after) e' (before ++ lives' ++ after) := by
  intro first last
  have hall := h (first ++ before) (after ++ last)
  simpa only [List.append_assoc] using hall

/-- One entry in the ledger. -/
theorem of_op (h : ∀ before after, Ledger.Op (e.ledger (before ++ lives ++ after))
    (e'.ledger (before ++ lives' ++ after))) : Books e lives e' lives' :=
  fun before after => .single (h before after)

theorem log {live : Live} (task : Nat) {o : Occurrence} {pursuit : Pursuit} {refused : Bool}
    (hpursuit : live.pursuit.after live.refused o = some pursuit)
    (hother : ∀ entry branch, o ≠ .branchStarted entry branch)
    (hjoined : ∀ anchor failure, o = .joined anchor failure → live.branches = [])
    (hrefused : refused = true → live.refused = true) :
    Books e [live] (e.record task live.serial o)
      [{ live with
        pursuit := pursuit, refused := refused, failure := live.failure.or o.failure? }] := by
  refine of_op fun before after => ?_
  have hop := @Ledger.Op.log before after live e.journal.toList e.nextSerial e.pool.closed task o
    pursuit refused hpursuit hother hjoined hrefused
  simpa [Engine.ledger, Engine.record] using hop

theorem spawn {live : Live} {between : List Live} (task : Nat) {entry : String} {pursuit : Pursuit}
    (hpursuit : live.pursuit.after live.refused (.branchStarted entry e.nextSerial) = some pursuit) :
    Books e (live :: between)
      ({ e with nextSerial := e.nextSerial + 1 }.record task live.serial
        (.branchStarted entry e.nextSerial))
      ({ live with pursuit := pursuit, branches := live.branches ++ [e.nextSerial] } ::
        (between ++ [.newborn e.nextSerial (some live.serial)])) := by
  refine of_op fun before after => ?_
  have hop := @Ledger.Op.spawn before between after live e.journal.toList e.nextSerial
    e.pool.closed task entry pursuit hpursuit
  simpa [Engine.ledger, Engine.record] using hop

theorem begin (e : Engine) (lives : List Live) :
    Books e lives { e with nextSerial := e.nextSerial + 1 }
      (lives ++ [.newborn e.nextSerial none]) := by
  refine of_op fun before after => ?_
  have hop := @Ledger.Op.begin (before ++ lives) after e.journal.toList e.nextSerial e.pool.closed
  simpa [Engine.ledger] using hop

theorem refuse {live : Live} {between : List Live} (hclosed : e.pool.closed = true) :
    Books e (live :: between) e ({ live with refused := true } :: between) := by
  refine of_op fun before after => ?_
  have hop := @Ledger.Op.refuse before (between ++ after) live e.journal.toList e.nextSerial
  simpa [Engine.ledger, hclosed] using hop

theorem finish {live : Live} (hidle : live.pursuit = .idle) (before : List Live) :
    Books e (before ++ [live]) e before := by
  refine of_op fun first after => ?_
  have hop := @Ledger.Op.finish (first ++ before) after live e.journal.toList e.nextSerial
    e.pool.closed hidle
  simpa [Engine.ledger] using hop

theorem leave {live branch : Live} {between more : List Live} {kept rest : List Nat}
    (hbranches : live.branches = kept ++ branch.serial :: rest) (hidle : branch.pursuit = .idle) :
    Books e (live :: (between ++ branch :: more)) e
      ({ live with branches := kept ++ rest } :: (between ++ more)) := by
  refine of_op fun before after => ?_
  have hop := @Ledger.Op.leave before between (more ++ after) live branch e.journal.toList
    e.nextSerial e.pool.closed kept rest hbranches hidle
  simpa [Engine.ledger] using hop

theorem close (e : Engine) (lives : List Live) :
    Books e lives { e with pool := e.pool.close } lives :=
  of_op fun _ _ => .close

/-- Remarks are made in the middle of a unit, and it stays in the middle of it. -/
theorem remarks {live : Live} {u : String} (task : Nat) (hpursuit : live.pursuit = .unit u)
    (texts : List String) (e : Engine) :
    Books e [live]
      (texts.foldl (fun e text => e.record task live.serial (.remark text)) e) [live] := by
  induction texts generalizing e with
  | nil => exact of_eq rfl rfl rfl rfl
  | cons text rest ih =>
    have hlog := @Books.log e live task (.remark text) (.unit u) live.refused
      (by rw [hpursuit]; rfl) (fun _ _ heq => by cases heq) (fun _ _ heq => by cases heq) id
    have hsame : { live with
        pursuit := .unit u, refused := live.refused,
        failure := live.failure.or (Occurrence.remark text).failure? } = live := by
      rw [← hpursuit, Occurrence.failure?, Option.or_none]
    rw [hsame] at hlog
    exact hlog.trans (ih _)

end Books

/-! ## One step at one walk -/

namespace Scene

variable {s s' : Scene} {task serial : Nat} {parent? : Option Nat}

/-- The walk and what is below it, as the ledger has them. -/
def lives (s : Scene) (parent? : Option Nat) (serial : Nat) : List Live :=
  (s.process serial).lives parent?

/-- After a turn, a walk is in the middle of nothing. -/
theorem lives_turn (s : Scene) (t : Turn) :
    (s.turn t).lives parent? serial = [⟨serial, parent?, .idle, [], false, t.walk.failure⟩] := rfl

theorem books_unitEnded {u : String} {resume : Resume} {pursuit : Pursuit}
    (hearly : s.walk.EarlyFits) (hawaits : s.walk.AwaitsUnit u resume)
    (hpursuit : pursuit = .idle ∨ pursuit = .unit u) (result : Option Mishap) :
    Books s.engine [⟨serial, parent?, pursuit, [], false, s.walk.failure⟩]
      (s.unitEnded task serial u resume result).engine
      ((s.unitEnded task serial u resume result).lives parent? serial) := by
  have hafter : pursuit.after false (.unitEnded u (result.map Mishap.failure)) = some .idle := by
    rcases hpursuit with rfl | rfl <;> simp [Pursuit.after]
  have hlog := @Books.log s.engine ⟨serial, parent?, pursuit, [], false, s.walk.failure⟩ task _ _
    false hafter (fun _ _ heq => by cases heq) (fun _ _ heq => by cases heq) id
  have hkeeps := Walk.keeps_unitDone hearly hawaits s.run.scope s.run.hasRun s.run.context.tolerant
    result
  unfold unitEnded
  rw [lives_turn, hkeeps.failure]
  exact hlog

theorem books_joined {anchor : String} {resume : Resume} {entries started : List String}
    {refused : Bool} (hearly : s.walk.EarlyFits) (hawaits : s.walk.AwaitsFork resume)
    (hall : refused = true ∨ started = entries) (result : Option Failure) :
    Books s.engine
      [⟨serial, parent?, .fork anchor entries started, [], refused, s.walk.failure⟩]
      (s.joined task serial anchor resume result).engine
      ((s.joined task serial anchor resume result).lives parent? serial) := by
  have hafter : (Pursuit.fork anchor entries started).after refused (.joined anchor result) =
      some .idle := by
    simp [Pursuit.after, hall]
  have hlog := @Books.log s.engine
    ⟨serial, parent?, .fork anchor entries started, [], refused, s.walk.failure⟩ task _ _ false
    hafter (fun _ _ heq => by cases heq) (fun _ _ _ => rfl) (fun heq => by cases heq)
  have hkeeps := Walk.keeps_forkDone hearly hawaits s.run.scope s.run.hasRun
    s.run.context.tolerant result
  unfold joined
  rw [lives_turn, hkeeps.failure]
  exact hlog

/-- Listeners make remarks, and that is all the ledger sees of them. -/
theorem books_announce {job : Job} (s : Scene) (moment : Moment) (failure : Option Failure) :
    Books s.engine [⟨serial, parent?, .unit job.unitId, [], false, s.walk.failure⟩]
      (s.announce task serial job moment failure).engine
      [⟨serial, parent?, .unit job.unitId, [], false, s.walk.failure⟩] := by
  let event : Notice :=
    { moment := moment, unitId := job.unitId, kind := job.unit.kind,
      requestId := s.run.context.requestId, tolerant := s.run.context.tolerant, failure := failure }
  let reception := s.engine.listeners.announce event s.run.scope
  have hlisteners : Books s.engine
      [⟨serial, parent?, .unit job.unitId, [], false, s.walk.failure⟩]
      { s.engine with listeners := reception.listeners }
      [⟨serial, parent?, .unit job.unitId, [], false, s.walk.failure⟩] := .of_eq rfl rfl rfl rfl
  exact hlisteners.trans (@Books.remarks
    ⟨serial, parent?, .unit job.unitId, [], false, s.walk.failure⟩ job.unitId task rfl
    reception.remarks _)

theorem books_endUnit {job : Job} (hearly : s.walk.EarlyFits)
    (hawaits : s.walk.AwaitsUnit job.unitId job.resume) (result : Option Mishap) :
    Books s.engine [⟨serial, parent?, .unit job.unitId, [], false, s.walk.failure⟩]
      (s.endUnit task serial job result).engine
      ((s.endUnit task serial job result).lives parent? serial) := by
  have hrelease : s.engine.pool.release.closed = s.engine.pool.closed := by
    unfold Pool.release
    split <;> rfl
  unfold endUnit
  split
  · have hpool : Books s.engine
        [⟨serial, parent?, .unit job.unitId, [], false, s.walk.failure⟩]
        { s.engine with pool := s.engine.pool.release }
        [⟨serial, parent?, .unit job.unitId, [], false, s.walk.failure⟩] :=
      .of_eq rfl rfl rfl hrelease
    exact hpool.trans (books_unitEnded
      (s := { s with engine := { s.engine with pool := s.engine.pool.release } }) hearly hawaits
      (.inr rfl) result)
  · exact books_unitEnded hearly hawaits (.inr rfl) result

/-- Beginning a unit is an entry in the ledger, wherever the permit comes from. -/
theorem books_beginUnit {u : String} {unit : FlowUnit} {resume : Resume} {pool : Pool} (s : Scene)
    (hclosed : pool.closed = s.engine.pool.closed) :
    Books s.engine [⟨serial, parent?, .idle, [], false, s.walk.failure⟩]
      ({ s with engine := { s.engine with pool := pool } }.beginUnit task serial u unit
        resume).engine
      [⟨serial, parent?, .unit u, [], false, s.walk.failure⟩] := by
  have hpool : Books s.engine [⟨serial, parent?, .idle, [], false, s.walk.failure⟩]
      { s.engine with pool := pool } [⟨serial, parent?, .idle, [], false, s.walk.failure⟩] :=
    .of_eq rfl rfl rfl hclosed
  have hlog := @Books.log { s.engine with pool := pool }
    ⟨serial, parent?, .idle, [], false, s.walk.failure⟩ task (.unitStarted u) (.unit u) false rfl
    (fun _ _ heq => by cases heq) (fun _ _ heq => by cases heq) id
  simp only [Occurrence.failure?, Option.or_none] at hlog
  exact hpool.trans hlog

theorem books_forked {anchor : String} {entries : List String} (e : Engine)
    (failure : Option Failure) :
    Books e [⟨serial, parent?, .idle, [], false, failure⟩]
      (e.record task serial (.forked anchor entries))
      [⟨serial, parent?, .fork anchor entries [], [], false, failure⟩] := by
  have hlog := @Books.log e ⟨serial, parent?, .idle, [], false, failure⟩ task
    (.forked anchor entries) (.fork anchor entries []) false rfl (fun _ _ heq => by cases heq)
    (fun _ _ heq => by cases heq) id
  simp only [Occurrence.failure?, Option.or_none] at hlog
  exact hlog

theorem Does.books {job : Job} {behavior rest : Behavior} {run : RunState} {e : Engine}
    (h : s.Does task serial job behavior rest run e) :
    Books s.engine [⟨serial, parent?, .unit job.unitId, [], false, s.walk.failure⟩] e
      [⟨serial, parent?, .unit job.unitId, [], false, s.walk.failure⟩] := by
  cases h with
  | note text rest =>
    exact @Books.remarks ⟨serial, parent?, .unit job.unitId, [], false, s.walk.failure⟩ job.unitId
      task rfl [text] s.engine
  | closePool next => exact .close s.engine _
  | access | signalRoute | signalFork | payload | viewPool | addUnit | addFlow | eraseUnit
  | noFlow => exact .of_eq rfl rfl rfl rfl

/-- What a walk does where it stands makes entries in the ledger. -/
theorem Steps.books (h : s.Steps task serial s') (hfits : (s.process serial).Fits)
    (parent? : Option Nat) :
    Books s.engine (s.lives parent? serial) s'.engine (s'.lives parent? serial) := by
  obtain ⟨hearly, hat, -⟩ := hfits
  have hlives : ∀ activity, s.activity = activity → s.lives parent? serial =
      .of serial parent? s.walk activity :: activity.lives serial := by
    rintro activity rfl
    rfl
  cases h with
  | advance h =>
    rw [hlives _ h, lives_turn, (Walk.keeps_advance hearly _ _).failure]
    exact .of_eq rfl rfl rfl rfl
  | missing h =>
    rw [h] at hat
    rw [hlives _ h]
    exact books_unitEnded hearly hat (.inl rfl) _
  | queues h =>
    rw [hlives _ h]
    exact .of_eq rfl rfl rfl rfl
  -- whether it takes a permit or is not pooled, the unit begins with the same entry
  | begins h _ hpool =>
    rw [hlives _ h]
    refine books_beginUnit s ?_
    split at hpool
    · unfold Pool.take? at hpool
      split at hpool <;> cases hpool
      rfl
    · rw [hpool]
  | granted h =>
    rw [hlives _ h]
    exact books_beginUnit s rfl
  | does h hdoes =>
    rw [hlives _ h]
    exact hdoes.books
  | sleeps h | wakes h | tidies h | fails h =>
    rw [hlives _ h]
    exact .of_eq rfl rfl rfl rfl
  | opens h =>
    rw [hlives _ h]
    exact (Books.begin s.engine _).trans (.of_eq rfl rfl rfl rfl)
  | runs h =>
    rw [hlives _ h]
    exact (books_announce s .before none).trans (.of_eq rfl rfl rfl rfl)
  | ends h | gaveUp h =>
    rw [h] at hat
    rw [hlives _ h]
    exact (books_announce s _ _).trans (books_endUnit (s := s.announce ..) hearly hat _)
  | forksNone h =>
    rw [h] at hat
    rw [hlives _ h]
    -- a fork without branches is written down and joined in one step
    exact (books_forked s.engine s.walk.failure).trans
      (books_joined (s := s.record task serial _) hearly hat (.inr rfl) none)
  | @forksOne anchor branch resume h =>
    rw [hlives _ h]
    refine (@books_forked task serial parent? anchor [branch.entry] s.engine s.walk.failure).trans ?_
    exact @Books.spawn _ ⟨serial, parent?, .fork anchor [branch.entry] [], [], false,
      s.walk.failure⟩ [] task branch.entry (.fork anchor [branch.entry] [branch.entry])
      (by simp [Pursuit.after])
  | @forks anchor branches resume h =>
    rw [hlives _ h]
    exact (@books_forked task serial parent? anchor (branches.map Branch.entry) s.engine
      s.walk.failure).trans (.of_eq rfl rfl rfl rfl)
  | @starts anchor resume branch toStart children completed h =>
    rw [hlives _ h]
    -- the branch is one of those that the fork still has to start, the next one in order
    have hspawn := @Books.spawn
      { s.engine with pool := { s.engine.pool with inFlight := s.engine.pool.inFlight + 1 } }
      (.of serial parent? s.walk (.forking anchor resume (branch :: toStart) children completed))
      (Child.livesIn serial children) task branch.entry _ (if_pos (by simp))
    refine (Books.trans (.of_eq rfl rfl rfl rfl) hspawn).trans (.of_eq ?_ rfl rfl rfl)
    show Live.of serial parent? s.walk (.forking anchor resume toStart (children ++ [_])
      completed) :: Child.livesIn serial (children ++ [_]) = _
    rw [Child.livesIn_concat]
    simp [Live.of, Activity.pursuit, Activity.branches, Activity.refused, Child.started, Child.isRefused, Child.entry, Child.serial?, Process.ofPlan, Process.serial]
  | @refuses anchor resume branch toStart children completed h hclosed =>
    rw [hlives _ h]
    refine (Books.refuse hclosed).trans (.of_eq ?_ rfl rfl rfl)
    show Live.of serial parent? s.walk (.forking anchor resume toStart
      (children ++ [.refused branch.entry]) completed) ::
        Child.livesIn serial (children ++ [.refused branch.entry]) = _
    simp [Live.of, Activity.pursuit, Activity.branches, Activity.refused, Child.started, Child.isRefused, Child.entry, Child.serial?, Child.livesIn_append,
      Child.livesIn, Child.lives, Activity.lives]
  | @joins anchor resume children completed h hover =>
    rw [h] at hat
    -- the join closes the fork: all its entries have been started, or some have been refused
    have hall : children.any Child.isRefused = true ∨
        Child.started children = children.map Child.entry ++ [] := by
      rcases hrefused : children.any Child.isRefused with _ | _
      · exact .inr (by simp [Child.started_of_any hrefused])
      · exact .inl rfl
    have hown : s.lives parent? serial = [⟨serial, parent?, .fork anchor
        (children.map Child.entry ++ []) (Child.started children), [],
        children.any Child.isRefused, s.walk.failure⟩] := by
      rw [hlives _ h, Activity.lives, Child.livesIn_of_over serial hover, Live.of,
        Activity.branches, Child.branches_of_over hover]
      rfl
    rw [hown]
    exact books_joined
      (s := { s with run := s.run.publish (joinFailure? anchor children) completed }) hearly hat
      hall _

end Scene

/-! ## One step of one task -/

/-- Whatever a task does in a process, it makes entries in the ledger. -/
theorem Process.Moves.books {who task : Nat} {p p' : Process} {run run' : RunState} {e e' : Engine}
    {site : Site} (h : p.Moves who site task run e p' run' e') (hfits : p.Fits)
    (parent? : Option Nat) :
    Books e (p.lives parent?) e' (p'.lives parent?) := by
  induction h generalizing parent? with
  | here h => exact h.books hfits parent?
  | @called _ serial walk job inner _ _ root root' next _ _ _ _ _ ih =>
    obtain ⟨-, -, hinside⟩ := hfits
    have hroot := (ih (hinside _ rfl) none).around
      [.of serial parent? walk (.calling job inner root next)] []
    simp only [List.append_nil] at hroot
    exact hroot
  | @returned _ serial walk job inner _ _ root root' next _ _ _ _ hfinished ih =>
    obtain ⟨-, -, hinside⟩ := hfits
    have hroot := (ih (hinside _ rfl) none).around
      [.of serial parent? walk (.calling job inner root next)] []
    rw [Process.lives_of_isFinished hfinished] at hroot
    simp only [List.append_nil] at hroot
    exact hroot.trans (.finish rfl _)
  | @inPlace _ serial walk anchor entry resume branch branch' _ _ _ _ _ h _ ih =>
    obtain ⟨-, -, hinside⟩ := hfits
    have hbranch := (ih (hinside _ rfl) (some serial)).around
      [.of serial parent? walk (.inPlace anchor entry resume branch)] []
    simp only [List.append_nil] at hbranch
    refine hbranch.trans (.of_eq ?_ rfl rfl rfl)
    simp [Process.lives, Activity.lives, Live.of, Activity.branches, Activity.pursuit,
      Activity.refused, h.serial]
  | @inPlaceEnded task serial walk anchor entry resume branch branch' _ run' _ e' _ _ h hfinished
      hclose ih =>
    obtain ⟨hearly, hat, hinside⟩ := hfits
    subst hclose
    have hbranch := (ih (hinside _ rfl) (some serial)).around
      [.of serial parent? walk (.inPlace anchor entry resume branch)] []
    rw [Process.lives_of_isFinished hfinished, h.serial] at hbranch
    simp only [List.append_nil] at hbranch
    -- first the branch leaves, and then its walk joins
    have hleave := @Books.leave e' (.of serial parent? walk (.inPlace anchor entry resume branch))
      ⟨branch.serial, some serial, .idle, [], false, branch'.walk.failure⟩ [] [] [] [] rfl rfl
    have hjoined := @Scene.books_joined ⟨walk, .inPlace anchor entry resume branch,
      run'.publish (Scene.branchFailure? anchor entry branch') [entry], e'⟩ task serial parent? anchor
      resume [entry] [entry] false hearly hat (.inr rfl) (Scene.branchFailure? anchor entry branch')
    exact hbranch.trans (hleave.trans hjoined)
  | @child _ serial walk anchor entry resume toStart before after completed branch branch' _ _ _ _ _
      h _ _ ih =>
    obtain ⟨-, -, hinside⟩ := hfits
    have hbranch := (ih (hinside _ ⟨entry, by simp⟩) (some serial)).around
      (.of serial parent? walk (.forking anchor resume toStart
        (before ++ .running entry branch :: after) completed) :: Child.livesIn serial before)
      (Child.livesIn serial after)
    refine (Books.trans (.of_eq ?_ rfl rfl rfl) hbranch).trans (.of_eq ?_ rfl rfl rfl)
    · simp [Process.lives, Activity.lives, Child.livesIn_append, Child.livesIn, Child.lives]
    · simp [Process.lives, Activity.lives, Child.livesIn_append, Child.livesIn, Child.lives, Live.of,
        Activity.branches, Activity.pursuit, Activity.refused, Child.started, Child.isRefused,
        Child.entry, Child.serial?, h.serial]
  | @childEnded _ serial walk anchor entry resume toStart before after completed _ branch branch' _
      _ _ e' _ h hfinished _ _ ih =>
    obtain ⟨-, -, hinside⟩ := hfits
    have hbranch := (ih (hinside _ ⟨entry, by simp⟩) (some serial)).around
      (.of serial parent? walk (.forking anchor resume toStart
        (before ++ .running entry branch :: after) completed) :: Child.livesIn serial before)
      (Child.livesIn serial after)
    rw [Process.lives_of_isFinished hfinished, h.serial] at hbranch
    have hleave := @Books.leave e' (.of serial parent? walk (.forking anchor resume toStart
        (before ++ .running entry branch :: after) completed))
      ⟨branch.serial, some serial, .idle, [], false, branch'.walk.failure⟩
      (Child.livesIn serial before) (Child.livesIn serial after)
      (before.filterMap Child.serial?) (after.filterMap Child.serial?)
      (by simp [Live.of, Activity.branches, Child.serial?]) rfl
    refine (Books.trans (.of_eq ?_ rfl rfl rfl) hbranch).trans
      (Books.trans (.of_eq ?_ rfl rfl rfl) (hleave.trans (.of_eq ?_ rfl rfl rfl)))
    · simp [Process.lives, Activity.lives, Child.livesIn_append, Child.livesIn, Child.lives]
    · simp
    · simp [Process.lives, Activity.lives, Child.livesIn_append, Child.livesIn, Child.lives, Live.of,
        Activity.branches, Activity.pursuit, Activity.refused, Child.started, Child.isRefused,
        Child.entry, Child.serial?, List.filterMap_cons]

/-! ## Giving up -/

theorem Child.not_running_cancel {children : List Child} {entry : String} {p : Process} :
    Child.running entry p ∉ children.map Child.cancel := by
  intro hmem
  obtain ⟨child, -, heq⟩ := List.mem_map.mp hmem
  cases child <;> cases heq

theorem Child.livesIn_map_cancel (serial : Nat) (children : List Child) :
    Child.livesIn serial (children.map Child.cancel) = [] := by
  induction children with
  | nil => rfl
  | cons child rest ih =>
    rw [List.map_cons, livesIn, ih]
    cases child <;> rfl

/-- Giving up branches leaves a process that fits. -/
theorem Process.Fits.cancelTasks {p : Process} (h : p.Fits) : p.cancelTasks.Fits := by
  induction h with
  | @mk serial walk activity early fits inside ih =>
    cases activity with
    | poised | queued | working | asleep => exact .mk early fits inside
    | calling job run root next =>
      refine .mk early fits fun q hruns => ?_
      obtain rfl : q = root.cancelTasks := hruns
      exact ih root rfl
    | inPlace anchor entry resume branch =>
      refine .mk early fits fun q hruns => ?_
      obtain rfl : q = branch.cancelTasks := hruns
      exact ih branch rfl
    | forking anchor resume toStart children completed =>
      refine .mk early fits fun q hruns => ?_
      obtain ⟨entry, hmem⟩ := hruns
      exact absurd hmem Child.not_running_cancel

mutual

/-- Giving up branches leaves fewer walks, and what is left has not changed. -/
theorem Process.lives_cancelTasks (parent? : Option Nat) (p : Process) :
    ((p.cancelTasks.lives parent?).map Live.label).Sublist ((p.lives parent?).map Live.label) := by
  obtain ⟨serial, walk, activity⟩ := p
  exact (Activity.lives_cancelTasks serial activity).cons_cons _

theorem Activity.lives_cancelTasks (serial : Nat) (activity : Activity) :
    ((activity.cancelTasks.lives serial).map Live.label).Sublist
      ((activity.lives serial).map Live.label) := by
  cases activity with
  | poised | queued | working | asleep => exact .refl _
  | calling job run root next => exact Process.lives_cancelTasks none root
  | inPlace anchor entry resume branch => exact Process.lives_cancelTasks (some serial) branch
  | forking anchor resume toStart children completed =>
    rw [Activity.cancelTasks, Activity.lives, Child.livesIn_map_cancel]
    exact List.nil_sublist _

end

/-! ## Executors -/

/-- A run that is opened is at its start, as a walk with a new number. -/
theorem Engine.openRun_ok {e e' : Engine} {request : Request} {root : Process}
    (h : e.openRun request = (.ok root, e')) :
    ((∃ plan, root = .ofPlan e.nextSerial plan false) ∨ ∃ u, root = .ofUnit e.nextSerial u) ∧
      ∃ plans, e' = { e with plans := plans, nextSerial := e.nextSerial + 1 } := by
  cases request with
  | flow flowId =>
    obtain ⟨plan, plans, rfl, rfl⟩ := openFlow_ok h
    exact ⟨.inl ⟨plan, rfl⟩, plans, rfl⟩
  | plan plan =>
    unfold openRun openPlan at h
    simp only at h
    split at h <;> cases h
    exact ⟨.inl ⟨plan, rfl⟩, e.plans, rfl⟩
  | unit u =>
    unfold openRun openUnit at h
    simp only at h
    split at h <;> cases h
    exact ⟨.inr ⟨u, rfl⟩, e.plans, rfl⟩

theorem Engine.openRun_error {e e' : Engine} {request : Request} {failure : Failure}
    (h : e.openRun request = (.error failure, e')) : ∃ plans, e' = { e with plans := plans } := by
  cases request with
  | flow flowId => exact openFlow_error h
  | plan plan =>
    unfold openRun openPlan at h
    simp only at h
    split at h <;> cases h
    exact ⟨e.plans, rfl⟩
  | unit u =>
    unfold openRun openUnit at h
    simp only at h
    split at h <;> cases h
    exact ⟨e.plans, rfl⟩

/-- A run has just been launched, and its walk has this number. -/
inductive Run.Launched (serial : Nat) : Run → Prop
  | ofPlan (context : Context) (scopeId : Nat) (plan : Plan) :
      Launched serial ⟨{ context := context, scopeId := scopeId }, .ofPlan serial plan false⟩
  | ofUnit (context : Context) (scopeId : Nat) (u : String) :
      Launched serial ⟨{ context := context, scopeId := scopeId }, .ofUnit serial u⟩

theorem Run.Launched.fits {serial : Nat} {run : Run} (h : run.Launched serial) : run.root.Fits := by
  cases h with
  | ofPlan => exact Process.fits_ofPlan ..
  | ofUnit => exact Process.fits_ofUnit ..

namespace Executor

variable {x y start last : Executor} {m : Move} {past : List (Executor × Move)}

/-- What is launched either cannot start, or is a new run at the start of its walk. -/
theorem launch_cases (x : Executor) (request : Request) (context : Context) :
    (∃ outcome plans, x.launch request context = (some outcome, { x with
      engine := { x.engine with nextScope := x.engine.nextScope + 1, plans := plans } })) ∨
    ∃ root plans, ((∃ plan, root = .ofPlan x.engine.nextSerial plan false) ∨
        ∃ u, root = .ofUnit x.engine.nextSerial u) ∧
      x.launch request context = (none, { x with
        engine := { x.engine with
          nextScope := x.engine.nextScope + 1
          plans := plans
          nextSerial := x.engine.nextSerial + 1 }
        runs := x.runs ++ [⟨{ context := context, scopeId := x.engine.nextScope }, root⟩] }) := by
  unfold launch
  rcases hopen : x.engine.takeScope.2.openRun request with ⟨failure | root, e'⟩
  · obtain ⟨plans, rfl⟩ := Engine.openRun_error hopen
    simp only [hopen]
    exact .inl ⟨_, plans, rfl⟩
  · obtain ⟨hroot, plans, rfl⟩ := Engine.openRun_ok hopen
    simp only [hopen]
    exact .inr ⟨root, plans, hroot, rfl⟩

/-- The walks of all runs. -/
def lives (x : Executor) : List Live := x.runs.flatMap fun run => run.root.lives none

def ledger (x : Executor) : Ledger := x.engine.ledger x.lives

/-- What the walks of all runs wait for belongs to where they stand. -/
def Fits (x : Executor) : Prop := ∀ run ∈ x.runs, run.root.Fits

/-- A shutdown that settles gives up branches only at its deadline. -/
theorem settleShutdown_cases (x : Executor) :
    (∃ shutdown, x.settleShutdown = { x with shutdown := shutdown }) ∨
      x.GivesUpBy .settleShutdown ∧
        x.settleShutdown = { x.cancelTasks with shutdown := .over false } := by
  unfold settleShutdown
  split
  · next deadline hshutdown =>
    split
    · exact .inl ⟨_, rfl⟩
    · next hflight =>
      split
      · next hclock => exact .inr ⟨⟨rfl, deadline, hshutdown, hflight, hclock⟩, rfl⟩
      · exact .inl ⟨x.shutdown, rfl⟩
  all_goals exact .inl ⟨x.shutdown, rfl⟩

/-- How a run has come about by a move: it was there before, or a task has moved in it, or it has been
launched, or its branches have been given up. -/
inductive ComesBy (x : Executor) (m : Move) (y : Executor) : Run → Prop
  | stays {run : Run} (hrun : run ∈ x.runs) : ComesBy x m y run
  | moves {who i : Nat} {run : Run} {site : Site} {state : RunState} {root : Process}
      (heq : m = .step who) (hrun : x.runs[i]? = some run)
      (hmoves : run.root.Moves who site run.root.serial run.state x.engine root state y.engine) :
      ComesBy x m y ⟨state, root⟩
  | launched {run : Run} (h : run.Launched x.engine.nextSerial) : ComesBy x m y run
  | givesUp {run : Run} (hrun : run ∈ x.runs) : ComesBy x m y ⟨run.state, run.root.cancelTasks⟩

/-- Every run that is there after a move has come about in one of these ways. -/
theorem comesBy (hmove : x.move m = some y) {run : Run} (hrun : run ∈ y.runs) :
    x.ComesBy m y run := by
  cases m with
  | step who =>
    obtain ⟨before, mover, after, root, state, e', hruns, hstep, rfl⟩ := exists_step hmove
    rcases mem_around.mp hrun with rfl | hother
    · obtain ⟨site, hmoves⟩ := Process.moves_of_step hstep
      have hmover : x.runs[before.length]? = some mover := by simp [hruns]
      exact .moves rfl hmover hmoves
    · exact .stays (hruns ▸ mem_of_around hother mover)
  | wait | beginShutdown =>
    cases hmove
    exact .stays hrun
  | launch request context =>
    cases hmove
    rcases x.launch_cases request context with ⟨outcome, plans, heq⟩ | ⟨root, plans, hroot, heq⟩
    · rw [heq] at hrun
      exact .stays hrun
    · rw [heq] at hrun
      rcases List.mem_append.mp hrun with hrun | hrun
      · exact .stays hrun
      · rw [List.mem_singleton.mp hrun]
        rcases hroot with ⟨plan, rfl⟩ | ⟨u, rfl⟩
        · exact .launched (.ofPlan ..)
        · exact .launched (.ofUnit ..)
  | settleShutdown =>
    cases hmove
    rcases x.settleShutdown_cases with ⟨shutdown, heq⟩ | ⟨-, heq⟩
    · rw [heq] at hrun
      exact .stays hrun
    · rw [heq] at hrun
      obtain ⟨own, hown, rfl⟩ := List.mem_map.mp hrun
      exact .givesUp hown

/-- A task moves in one of the runs, or nobody writes anything down, and what is registered and who
listens stays as it is. -/
theorem move_cases (hmove : x.move m = some y) :
    (∃ who before run after site root state e, m = .step who ∧ x.runs = before ++ run :: after ∧
      run.root.Moves who site run.root.serial run.state x.engine root state e ∧
      y = { x with runs := before ++ ⟨state, root⟩ :: after, engine := e }) ∨
    y.engine.journal = x.engine.journal ∧ y.engine.registry = x.engine.registry ∧
      y.engine.listeners = x.engine.listeners := by
  cases m with
  | step who =>
    obtain ⟨before, run, after, root, state, e, hruns, hstep, heq⟩ := exists_step hmove
    obtain ⟨site, hmoves⟩ := Process.moves_of_step hstep
    exact .inl ⟨who, before, run, after, site, root, state, e, rfl, hruns, hmoves, heq⟩
  | wait | beginShutdown =>
    cases hmove
    exact .inr ⟨rfl, rfl, rfl⟩
  | launch request context =>
    cases hmove
    rcases x.launch_cases request context with ⟨_, _, heq⟩ | ⟨_, _, -, heq⟩ <;> rw [heq] <;>
      exact .inr ⟨rfl, rfl, rfl⟩
  | settleShutdown =>
    cases hmove
    rcases x.settleShutdown_cases with ⟨_, heq⟩ | ⟨-, heq⟩ <;> rw [heq] <;>
      exact .inr ⟨rfl, rfl, rfl⟩

/-- What is registered and who listens changes at most where a task moves. -/
theorem engine_cases (hmove : x.move m = some y) :
    (∃ who run site root state, m = .step who ∧ run ∈ x.runs ∧
      run.root.Moves who site run.root.serial run.state x.engine root state y.engine) ∨
    y.engine.registry = x.engine.registry ∧ y.engine.listeners = x.engine.listeners := by
  rcases move_cases hmove with
    ⟨who, before, run, after, site, root, state, e, rfl, hruns, hmoves, rfl⟩ | ⟨-, hsame⟩
  · exact .inl ⟨who, run, site, root, state, rfl, by simp [hruns], hmoves⟩
  · exact .inr hsame

theorem Fits.move (h : x.Fits) (hmove : x.move m = some y) : y.Fits := by
  intro own hown
  cases comesBy hmove hown with
  | stays hrun => exact h own hrun
  | moves _ hrun hmoves => exact hmoves.fits (h _ (List.mem_of_getElem? hrun))
  | launched hlaunched => exact hlaunched.fits
  | givesUp hrun => exact (h _ hrun).cancelTasks

/-- Every move makes entries in the ledger, unless branches are given up. -/
theorem books_move (h : x.Fits) (hmove : x.move m = some y) (hkeep : ¬ x.GivesUpBy m) :
    Relation.ReflTransGen Ledger.Op x.ledger y.ledger := by
  cases m with
  | step who =>
    obtain ⟨before, run, after, root, state, e', hruns, hstep, rfl⟩ := exists_step hmove
    obtain ⟨site, hmoves⟩ := Process.moves_of_step hstep
    have hbooks := hmoves.books (h run (by simp [hruns])) none
    -- what the other runs have in the ledger stands before and behind, and stays
    have hall := hbooks (before.flatMap fun run => run.root.lives none)
      (after.flatMap fun run => run.root.lives none)
    simpa [ledger, lives, hruns] using hall
  | wait milliseconds =>
    cases hmove
    exact .refl
  | launch request context =>
    cases hmove
    rcases x.launch_cases request context with
      ⟨outcome, plans, hlaunch⟩ | ⟨root, plans, hroot, hlaunch⟩
    · rw [hlaunch]
      exact .refl
    · rw [hlaunch]
      have hroot : root.lives none = [.newborn x.engine.nextSerial none] := by
        rcases hroot with ⟨plan, rfl⟩ | ⟨u, rfl⟩ <;> rfl
      -- a run that is launched is entered behind those that are there
      have hbegin := Books.begin x.engine x.lives [] []
      have hlives : x.lives ++ [.newborn x.engine.nextSerial none] =
          (x.runs ++ [(⟨{ context := context, scopeId := x.engine.nextScope }, root⟩ : Run)]).flatMap
            fun run => run.root.lives none := by
        simp [lives, hroot]
      simp only [List.nil_append, List.append_nil, hlives] at hbegin
      exact hbegin
  | beginShutdown =>
    cases hmove
    exact .single .close
  | settleShutdown =>
    cases hmove
    rcases x.settleShutdown_cases with ⟨shutdown, heq⟩ | ⟨hgives, -⟩
    · rw [heq]
      exact .refl
    · exact absurd hgives hkeep

/-! ## Along a history -/

theorem History.fits (h : start.History past last) (hstart : start.Fits) : last.Fits :=
  h.invariant hstart fun _ _ _ _ hx hmove => hx.move hmove

/-- As long as no branches are given up, the ledger is in order. -/
theorem History.sound (h : start.History past last) (hfits : start.Fits)
    (hstart : start.ledger.Sound) (hkeep : ∀ x m, (x, m) ∈ past → ¬ x.GivesUpBy m) :
    last.ledger.Sound := by
  have hboth : last.Fits ∧ last.ledger.Sound := by
    refine h.invariant (P := fun x => x.Fits ∧ x.ledger.Sound) ⟨hfits, hstart⟩ ?_
    rintro x m y hmem ⟨hx, hsound⟩ hmove
    exact ⟨hx.move hmove, hsound.ops (books_move hx hmove (hkeep x m hmem))⟩
  exact hboth.2

/-- Giving up branches leaves fewer walks, and what is left has not changed. -/
theorem lives_cancelTasks (x : Executor) :
    (x.cancelTasks.lives.map Live.label).Sublist (x.lives.map Live.label) := by
  show (((x.runs.map fun run => { run with root := run.root.cancelTasks }).flatMap
    fun run => run.root.lives none).map Live.label).Sublist
      ((x.runs.flatMap fun run => run.root.lives none).map Live.label)
  induction x.runs with
  | nil => exact .refl _
  | cons run rest ih =>
    simp only [List.map_cons, List.flatMap_cons, List.map_append]
    exact (Process.lives_cancelTasks none run.root).append ih

theorem numbered_move (h : x.Fits) (hnumbered : x.ledger.Numbered) (hmove : x.move m = some y) :
    y.ledger.Numbered := by
  by_cases hgives : x.GivesUpBy m
  · obtain ⟨rfl, -⟩ := hgives
    cases hmove
    rcases x.settleShutdown_cases with ⟨shutdown, heq⟩ | ⟨-, heq⟩
    · rw [heq]
      exact hnumbered
    · rw [heq]
      exact hnumbered.sublist x.lives_cancelTasks
  · exact hnumbered.ops (books_move h hmove hgives)

/-- Numbers are given out once, and first failures are known, whatever happens. -/
theorem History.numbered (h : start.History past last) (hfits : start.Fits)
    (hstart : start.ledger.Numbered) : last.ledger.Numbered := by
  have hboth : last.Fits ∧ last.ledger.Numbered := by
    refine h.invariant (P := fun x => x.Fits ∧ x.ledger.Numbered) ⟨hfits, hstart⟩ ?_
    rintro x m y - ⟨hx, hnumbered⟩ hmove
    exact ⟨hx.move hmove, numbered_move hx hnumbered hmove⟩
  exact hboth.2

/-- An executor that has just been built has no walks. -/
theorem sound_build {config : Config} {registry : Registry} {listeners : Listeners}
    (h : build config registry listeners = .ok x) : x.Fits ∧ x.ledger.Sound := by
  obtain rfl := eq_of_build h
  refine ⟨nofun, ⟨List.nodup_nil, nofun, nofun, nofun⟩, nofun, fun w _ => rfl, nofun, nofun, nofun, ?_⟩
  intro before e after entry branch hjournal
  have hnil : before ++ e :: after = [] := hjournal.symm
  simp at hnil

end Executor

end Workflow
