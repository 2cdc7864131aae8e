import Workflow.Proofs.Run.Branches
import Workflow.Proofs.Run.Endings
import Workflow.Proofs.Run.Reuse

/-!
# How forks come out

As long as the pool is open, branches are neither refused nor given up, so each of them is walked to its
own end. When all of them are over, the fork comes out in one of two ways, whatever the order in which
they have come to their ends: if none of them failed, their entries are published in that order, and
otherwise the fork fails with the first failure of the first of them, in declared order, that failed.

So a failure tells where it comes from: inside a walk it is that of a unit, or it is wrapped around the
failure of one branch, which in turn is explained in the same way (`Journal.Explains`).
-/

namespace Workflow

namespace Executor

variable {x y z start : Executor} {m : Move} {past : List (Executor × Move)} {k w : Nat}
  {ended ended' : Nat → Nat → Option Failure → Prop}

/-! ## The ends of walks -/

/-- A walk that has been there is there no more. -/
structure Gone (x : Executor) (w : Nat) : Prop where
  known : w < x.engine.nextSerial
  absent : ∀ q, x.Has q → q.serial ≠ w

/-- A walk that is gone does not come back, and nothing more is written down about it. -/
theorem Gone.move (h : x.Gone w) (hfits : x.Fits) (hnumbered : x.ledger.Numbered)
    (hmove : x.move m = some y) :
    y.Gone w ∧ Journal.own y.engine.journal.toList w = Journal.own x.engine.journal.toList w := by
  refine ⟨⟨lt_of_lt_of_le h.known (nextSerial_le hfits hmove), fun q hq => ?_⟩, ?_⟩
  · rcases comesFrom hmove hq with ⟨who, -, hnew | hold | ⟨_, _, p, _, _, _, hp, hmoves⟩⟩ |
      hnew | hold | ⟨p, hp, rfl⟩
    · exact fun heq => absurd (heq ▸ h.known) (by omega)
    · exact h.absent q hold
    · rw [hmoves.serial]
      exact h.absent p hp
    · exact fun heq => absurd (heq ▸ h.known) (by omega)
    · exact h.absent q hold
    · rw [p.serial_cancelTasks]
      exact h.absent p hp
  · refine (says_move hnumbered hmove).own_eq fun entry ⟨state, r, hr, hwalk, _⟩ => ?_
    rw [← hwalk]
    exact h.absent r hr.has

/-- A walk comes to its end by a move, by what it does itself, and leaves the executor. -/
structure EndsBy (x : Executor) (m : Move) (w : Nat) : Prop where
  ends : ∃ who q, m = .step who ∧ x.Has q ∧ q.serial = w ∧ q.isFinished = false ∧
    ∃ site task run q' run' e', q.Moves who site task run x.engine q' run' e' ∧ q'.isFinished = true
  leaves : ∀ y, x.move m = some y → ∀ q, y.Has q → q.serial ≠ w

/-- The walk has come to its end by the move with this number. -/
def EndsAt (past : List (Executor × Move)) (k w : Nat) : Prop :=
  ∃ x m, past[k]? = some (x, m) ∧ x.EndsBy m w

/-- How a walk has come to its end: by the move with this number, and with the first failure that it
has written down. -/
def Ended (past : List (Executor × Move)) (x : Executor) (k w : Nat) (failure : Option Failure) :
    Prop :=
  EndsAt past k w ∧ failure = (Journal.failures x.engine.journal.toList w).head?

theorem EndsAt.lt (h : EndsAt past k w) : k < past.length := by
  obtain ⟨x, m, hat, -⟩ := h
  exact (List.getElem?_eq_some_iff.mp hat).1

theorem EndsAt.append (h : EndsAt past k w) (more : List (Executor × Move)) :
    EndsAt (past ++ more) k w := by
  obtain ⟨x, m, hat, hends⟩ := h
  exact ⟨x, m, by rw [List.getElem?_append_left (List.getElem?_eq_some_iff.mp hat).1, hat], hends⟩

theorem EndsBy.at (h : x.EndsBy m w) (past : List (Executor × Move)) :
    EndsAt (past ++ [(x, m)]) past.length w :=
  ⟨x, m, List.getElem?_concat_length, h⟩

/-- Who has come to its end and left is gone. -/
theorem EndsAt.gone (h : EndsAt past k w) (hpast : start.History past x) (hfits : start.Fits)
    (hnumbered : start.ledger.Numbered) : x.Gone w := by
  induction hpast with
  | start =>
    obtain ⟨_, _, hat, -⟩ := h
    cases hat
  | @move past x y m hpast hmove ih =>
    have hx := hpast.fits hfits
    have hxnumbered := hpast.numbered hfits hnumbered
    by_cases hk : k < past.length
    · obtain ⟨z, m', hat, hends⟩ := h
      rw [List.getElem?_append_left hk] at hat
      exact ((ih ⟨z, m', hat, hends⟩).move hx hxnumbered hmove).1
    · obtain rfl : k = past.length := by
        have hlt := h.lt
        rw [List.length_append, List.length_singleton] at hlt
        omega
      obtain ⟨z, m', hat, hends⟩ := h
      rw [List.getElem?_concat_length] at hat
      cases hat
      obtain ⟨who, q, -, ⟨run, hrun, hq⟩, rfl, -⟩ := hends.ends
      have hknown := serial_lt hxnumbered hrun _ (hq.serials_subset q.serial_mem_serials)
      exact ⟨lt_of_lt_of_le hknown (nextSerial_le hx hmove), hends.leaves y hmove⟩

/-- How a walk has come to its end does not change any more. -/
theorem Ended.move {failure : Option Failure} (h : Ended past x k w failure)
    (hpast : start.History past x) (hfits : start.Fits) (hnumbered : start.ledger.Numbered)
    (hmove : x.move m = some y) : Ended (past ++ [(x, m)]) y k w failure := by
  have hown := ((h.1.gone hpast hfits hnumbered).move (hpast.fits hfits)
    (hpast.numbered hfits hnumbered) hmove).2
  refine ⟨h.1.append _, ?_⟩
  rw [h.2, Journal.failures, Journal.failures, hown]

/-- As long as the pool is open no shutdown has begun, so that no branches are given up. -/
theorem History.not_givesUpBy {config : Config} {registry : Registry} {listeners : Listeners}
    (hbuild : build config registry listeners = .ok start) (h : start.History past x)
    (hopen : x.engine.isClosed = false) (m : Move) : ¬ x.GivesUpBy m := by
  rintro ⟨-, deadline, hdraining, -⟩
  rcases (h.lasts hbuild).2 with hnot | hclosed
  · cases hnot.symm.trans hdraining
  · cases hopen.symm.trans hclosed

/-- Who has left without having been given up has come to its end. -/
theorem endsBy_of_absent {q : Process} (hkeep : ¬ x.GivesUpBy m) (hmove : x.move m = some y)
    (hq : x.Has q) (hrunning : q.isFinished = false) (habsent : ∀ r, y.Has r → r.serial ≠ q.serial) :
    x.EndsBy m q.serial := by
  rcases goesOn hmove hkeep hq hrunning with hstays | ⟨who, rfl, ⟨r, hr, heq, -⟩ | hends⟩
  · exact absurd rfl (habsent q hstays)
  · exact absurd heq (habsent r hr)
  · refine ⟨⟨who, q, rfl, hq, rfl, hrunning, hends⟩, fun y' hmove' => ?_⟩
    cases hmove.symm.trans hmove'
    exact habsent

/-! ## What is known of branches -/

/-- What is known of all forks in an executor. -/
def Tells (ended : Nat → Nat → Option Failure → Prop) (x : Executor) : Prop :=
  ∀ q, x.Has q → q.activity.Tells ended (Journal.own x.engine.journal.toList q.serial)

theorem numbered_root (h : x.ledger.Numbered) {run : Run} (hrun : run ∈ x.runs) :
    (x.engine.ledger (run.root.lives none)).Numbered := by
  obtain ⟨before, after, hruns⟩ := List.append_of_mem hrun
  refine h.sublist (List.Sublist.map _ ?_)
  show (run.root.lives none).Sublist (x.runs.flatMap fun run => run.root.lives none)
  rw [hruns, List.flatMap_append, List.flatMap_cons]
  exact (List.sublist_append_left _ _).trans (List.sublist_append_right _ _)

/-- A move keeps what is known of all branches. The walks that leave the executor have come to their
ends by it. -/
theorem Tells.move {n : Nat} (h : x.Tells ended) (hfits : x.Fits) (hnumbered : x.ledger.Numbered)
    (hopen : x.engine.isClosed = false) (hkeep : ¬ x.GivesUpBy m) (hmove : x.move m = some y)
    (himp : ∀ k w failure, ended k w failure → ended' k w failure)
    (hpast : ∀ k w failure, ended k w failure → k < n)
    (hends : ∀ q, x.Has q → q.isFinished = false → (∀ r, y.Has r → r.serial ≠ q.serial) →
      ended' n q.serial (Journal.failures y.engine.journal.toList q.serial).head?) :
    y.Tells ended' := by
  have hstays : ∀ q, x.Has q → q.activity.Tells ended'
      (Journal.own x.engine.journal.toList q.serial) := fun q hq => (h q hq).mono himp
  cases m with
  | step who =>
    obtain ⟨before, run, after, root, state, e', hruns, hstep, rfl⟩ := exists_step hmove
    obtain ⟨site, hmoves⟩ := Process.moves_of_step hstep
    have hin : run ∈ x.runs := by simp [hruns]
    have hroot := numbered_root hnumbered hin
    have hrootnodup := Process.nodup_of_numbered hroot
    -- no number occurs in two runs, so the other runs are told nothing new
    have hothers : ∀ own q, own ∈ before ∨ own ∈ after → own.root.Has q →
        q.serial ∉ run.root.serials := fun own q hown hq =>
      not_mem_serials_of_other hnumbered hruns hown (hq.serials_subset q.serial_mem_serials)
    rintro q ⟨own, hown, hq⟩
    rcases mem_around.mp hown with rfl | hother
    · refine hmoves.tells (hfits run hin) hroot hopen himp hpast (fun r hr hrunning hgone => ?_)
        (fun r hr => h r ⟨run, hin, hr⟩) q hq
      refine hends r ⟨run, hin, hr⟩ hrunning ?_
      rintro other ⟨own, hown, hother⟩ heq
      have hmem := hr.serials_subset r.serial_mem_serials
      rw [← heq] at hgone hmem
      rcases mem_around.mp hown with rfl | hown
      · exact hgone (hother.serials_subset other.serial_mem_serials)
      · exact hothers own other hown hother hmem
    · rw [hmoves.own_eq hrootnodup (hothers own q hother hq)]
      exact hstays q ⟨own, hruns ▸ mem_of_around hother run, hq⟩
  | wait | beginShutdown =>
    cases hmove
    exact hstays
  | launch request context =>
    cases hmove
    rcases x.launch_cases request context with ⟨_, _, heq⟩ | ⟨root, _, hroot, heq⟩
    · rw [heq]
      exact hstays
    · rw [heq]
      rintro q ⟨own, hown, hq⟩
      rcases List.mem_append.mp hown with hown | hown
      · exact hstays q ⟨own, hown, hq⟩
      · obtain rfl := List.mem_singleton.mp hown
        rcases hroot with ⟨plan, rfl⟩ | ⟨u, rfl⟩ <;> cases hq with
        | self => trivial
        | inside hruns => exact hruns.elim
  | settleShutdown =>
    cases hmove
    rcases x.settleShutdown_cases with ⟨_, heq⟩ | ⟨hgives, -⟩
    · rw [heq]
      exact hstays
    · exact absurd hgives hkeep

/-- As long as the pool is open, a pool has been open all along. -/
theorem isOpen_of_move (hfits : x.Fits) (hmove : x.move m = some y) (hopen : y.engine.isClosed = false) :
    x.engine.isClosed = false := by
  by_contra hclosed
  rw [isClosed_move hfits (Bool.not_eq_false _ ▸ hclosed) hmove] at hopen
  cases hopen

/-- What has come to its end by a move, in the past that the move has made. -/
theorem ended_of_absent {config : Config} {registry : Registry} {listeners : Listeners}
    (hbuild : build config registry listeners = .ok start) (hpast : start.History past x)
    (hopen : x.engine.isClosed = false) (hmove : x.move m = some y) {q : Process} (hq : x.Has q)
    (hrunning : q.isFinished = false) (habsent : ∀ r, y.Has r → r.serial ≠ q.serial) :
    Ended (past ++ [(x, m)]) y past.length q.serial
      (Journal.failures y.engine.journal.toList q.serial).head? :=
  ⟨(endsBy_of_absent (hpast.not_givesUpBy hbuild hopen m) hmove hq hrunning habsent).at past, rfl⟩

/-- As long as the pool is open, every fork knows of each of its branches that it is on its way or how
it has come to its end. -/
theorem History.tells {config : Config} {registry : Registry} {listeners : Listeners}
    (hbuild : build config registry listeners = .ok start) (h : start.History past x)
    (hopen : x.engine.isClosed = false) : x.Tells (Ended past x) := by
  obtain ⟨hfits, hsound⟩ := sound_build hbuild
  -- by induction on the history, with the past up to each move as what is known of ends
  induction h with
  | start => exact fun q hq => absurd hq (not_has_of_build hbuild)
  | @move past x y m hpast hmove ih =>
    have hx := hpast.fits hfits
    have hxnumbered := hpast.numbered hfits hsound.toNumbered
    have hxopen := isOpen_of_move hx hmove hopen
    exact (ih hxopen).move hx hxnumbered hxopen (hpast.not_givesUpBy hbuild hxopen m) hmove
      (fun _ _ _ hended => hended.move hpast hfits hsound.toNumbered hmove)
      (fun _ _ _ hended => hended.1.lt)
      (fun q hq hrunning habsent => ended_of_absent hbuild hpast hxopen hmove hq hrunning habsent)

/-! ## What a fork comes to -/

/-- A walk that writes something down does so in a move of its own. What leaves the walk by that leaves
the executor. -/
theorem own_move {state : RunState} {q : Process} (hnumbered : x.ledger.Numbered)
    (hmove : x.move m = some y) (hq : x.HasIn state q)
    (hwrote : Journal.own y.engine.journal.toList q.serial ≠
      Journal.own x.engine.journal.toList q.serial) :
    ∃ who site task q' state' e', m = .step who ∧
      q.Moves who site task state x.engine q' state' e' ∧
      (∀ w ∈ q.serials, Journal.own y.engine.journal.toList w = Journal.own e'.journal.toList w) ∧
      (∀ w ∈ q.serials, w ∉ q'.serials → ∀ r, y.Has r → r.serial ≠ w) ∧
      (y.HasIn state' q' ∨ q'.isFinished = true ∧ ∀ r, y.Has r → r.serial ≠ q.serial) := by
  rcases move_cases hmove with
    ⟨who, before, run, after, site, root, state', e, rfl, hruns, hmoves, rfl⟩ | ⟨hjournal, -⟩
  · have hin : run ∈ x.runs := by simp [hruns]
    have hroot := Process.nodup_of_numbered (numbered_root hnumbered hin)
    have hothers : ∀ own r, own ∈ before ∨ own ∈ after → own.root.Has r →
        r.serial ∉ run.root.serials := fun own r hown hr =>
      not_mem_serials_of_other hnumbered hruns hown (hr.serials_subset r.serial_mem_serials)
    -- a walk of another run would have written nothing down
    have hmine : q.serial ∈ run.root.serials := by
      by_contra hnot
      exact hwrote (hmoves.own_eq hroot hnot)
    obtain ⟨own, hown, hq⟩ := hq
    rw [hruns] at hown
    rcases mem_around.mp hown with rfl | hown
    · obtain ⟨inner, task, q', state₁, e₁, hpart⟩ := hmoves.own_part hroot hq hwrote
      have hleaves : ∀ w ∈ q.serials, w ∉ root.serials → ∀ r, Executor.Has
          { x with runs := before ++ ⟨state', root⟩ :: after, engine := e } r → r.serial ≠ w := by
        rintro w hw hgone r ⟨other, hother, hr⟩ heq
        have hw' : r.serial ∈ run.root.serials := heq ▸ hq.has.serials_subset hw
        rcases mem_around.mp hother with rfl | hother
        · exact hgone (heq ▸ hr.serials_subset r.serial_mem_serials)
        · exact hothers other r hother hr hw'
      exact ⟨who, inner, task, q', state₁, e₁, rfl, hpart.moves, hpart.own_eq,
        fun w hw hgone => hleaves w hw (hpart.leaves w hw hgone),
        hpart.stays.imp (fun hin => ⟨⟨state', root⟩, by simp, hin⟩)
          (And.imp_right fun hgone => hleaves _ q.serial_mem_serials hgone)⟩
    · exact absurd hmine (hothers own q hown hq.has)
  · exact absurd (by rw [hjournal]) hwrote

/-- How a fork comes out by a move: each of its branches, given in declared order as entry and number,
has been walked to its end, and the result is the first failure of the first branch that has failed. If
there is none, the walk leaves the entries of the branches published in the order of their ends, and
otherwise it leaves what has been published as it has found it. -/
structure Joins (past : List (Executor × Move)) (x : Executor) (m : Move) (y : Executor)
    (state : RunState) (q : Process) (anchor : String) (result : Option Failure)
    (branches : List (String × Nat)) : Prop where
  nonempty : branches ≠ []
  written : ∃ first, Journal.own x.engine.journal.toList q.serial =
    first ++ Journal.fork anchor branches []
  ended : ∀ branch ∈ branches, ∃ k, EndsAt (past ++ [(x, m)]) k branch.2
  result_eq : result = branches.findSome? fun branch =>
    (Journal.failures y.engine.journal.toList branch.2).head?.map (.branchFailed anchor branch.1)
  published : ∃ who site task q' state' e' completed found engine, m = .step who ∧
    q.Moves who site task state x.engine q' state' e' ∧
    q.Closes who task state x.engine anchor result completed found engine ∧
    (q'.isFinished = false → y.HasIn state' q') ∧
    (result = none → ∃ order, order.Perm branches ∧
      Journal.InOrder (Ended (past ++ [(x, m)]) y) order ∧
      state'.scope.completed = order.map Prod.fst) ∧
    (result.isSome = true → state'.scope.completed = found.scope.completed)

/-- What a walk writes down by a move, as long as the pool is open: how its fork comes out, or nothing
that has to do with branches. -/
theorem History.writes {config : Config} {registry : Registry} {listeners : Listeners}
    {state : RunState} {q : Process} (hbuild : build config registry listeners = .ok start)
    (h : start.History past x) (hopen : x.engine.isClosed = false) (hmove : x.move m = some y)
    (hq : x.HasIn state q) :
    (∃ more, Journal.own y.engine.journal.toList q.serial =
        Journal.own x.engine.journal.toList q.serial ++ more ∧
      ∀ o ∈ more, o.IsPlain q.activity) ∨
    ∃ anchor result branches, Journal.own y.engine.journal.toList q.serial =
        Journal.own x.engine.journal.toList q.serial ++ [.joined anchor result] ∧
      Joins past x m y state q anchor result branches := by
  obtain ⟨hstart, hsound⟩ := sound_build hbuild
  have hfits := h.fits hstart
  have hnumbered := h.numbered hstart hsound.toNumbered
  by_cases hwrote : Journal.own y.engine.journal.toList q.serial =
      Journal.own x.engine.journal.toList q.serial
  · exact .inl ⟨[], by rw [hwrote, List.append_nil], nofun⟩
  obtain ⟨run, hrun, hhas⟩ := hq.has
  obtain ⟨parent?, hbelow⟩ := Process.numbered_of_has (numbered_root hnumbered hrun) hhas
  have htells := h.tells hbuild hopen q hq.has
  obtain ⟨who, site, task, q', state', e', rfl, hmoves, hown, hleaves, hstays⟩ :=
    own_move hnumbered hmove hq hwrote
  have hmine := hown _ q.serial_mem_serials
  rcases hmoves.writes (Process.nodup_of_numbered hbelow) htells with ⟨more, hmore, hplain⟩ |
    ⟨anchor, result, completed, found, engine, hcloses, hjoined, hothers, halone, hpublished⟩
  · exact .inl ⟨more, hmine.trans hmore, hplain⟩
  -- The failures of the branches are read off the journal after the move, to which the join adds
  -- nothing of theirs.
  have hinside : ∀ r, q.activity.Branches r → r.serial ∈ q.serials ∧ r.serial ≠ q.serial := fun r hr =>
    ⟨(Process.has_of_branch hr).serials_subset r.serial_mem_serials,
      Process.serial_ne_of_branch (Process.nodup_of_numbered hbelow) hr⟩
  have hended : ∀ k w failure, Ended past x k w failure →
      Ended (past ++ [(x, .step who)]) y k w failure := fun _ _ _ hended =>
    hended.move h hstart hsound.toNumbered hmove
  obtain ⟨first, branches, hnonempty, hfork, hall, hresult, horder⟩ :=
    hcloses.branches ((hfits run hrun).of_has hhas) hbelow htells
      (fun w => (Journal.failures y.engine.journal.toList w).head?)
      (fun k w failure hk => (hended k w failure hk).2) fun r hr => by
        rw [Journal.failures, Journal.failures, hown _ (hinside r hr).1, hothers _ (hinside r hr).2]
  refine .inr ⟨anchor, result, branches, hmine.trans hjoined, hnonempty, ⟨first, hfork⟩,
    fun branch hbranch => ?_, hresult, who, site, task, q', state', e', completed, found, engine, rfl,
    hmoves, hcloses, fun hrunning => hstays.resolve_right fun hgone =>
      Bool.false_ne_true (hrunning.symm.trans hgone.1), fun hnone => ?_, fun hsome => ?_⟩
  · rcases hall branch hbranch with ⟨k, failure, hk⟩ | ⟨r, hr, hrunning, heq⟩
    · exact ⟨k, hk.1.append _⟩
    · have habsent := hleaves r.serial (hinside r hr).1 (by simp [halone, (hinside r hr).2])
      have hthere : x.Has r := ⟨run, hrun, hhas.trans (Process.has_of_branch hr)⟩
      exact ⟨past.length, heq ▸ (ended_of_absent hbuild h hopen hmove hthere hrunning habsent).1⟩
  · obtain ⟨order, hperm, hinorder, hcompleted⟩ := horder hnone
    refine ⟨order, hperm, hinorder.mono hended, ?_⟩
    rw [hpublished, hnone, hcompleted]
    exact Scope.completed_publish ..
  · obtain ⟨failure, rfl⟩ := Option.isSome_iff_exists.mp hsome
    exact hpublished

/-! ## Where failures come from -/

end Executor

/-- The origin of a failure is no failure of a group. -/
theorem Failure.origin_ne_branchFailed (failure : Failure) (anchor entry : String) (source : Failure) :
    failure.origin ≠ .branchFailed anchor entry source := by
  induction failure with
  | branchFailed _ _ _ ih => exact ih
  | _ => exact nofun

namespace Journal

/-- A failure that a walk writes down is that of a unit, or its fork has failed because of a branch.
Then this is the first branch that has failed, the failure is the first one of that branch, and nothing
can change about it: that branch and those before it are `settled`. -/
def Accounted (settled : Nat → Prop) (fails : Nat → Option Failure) (first : List Occurrence) :
    Occurrence → Prop
  | .unitEnded _ (some failure) => failure.origin = failure
  | .joined anchor (some failure) => ∃ earlier before entry branch after source,
    first = earlier ++ fork anchor (before ++ (entry, branch) :: after) [] ∧
    failure = .branchFailed anchor entry source ∧
    (∀ other ∈ before, settled other.2 ∧ fails other.2 = none) ∧ settled branch ∧
    fails branch = some source
  | .unitEnded _ none | .joined _ none | .remark _ | .unitStarted _ | .forked .. | .branchStarted .. =>
    True

variable {settled settled' : Nat → Prop} {fails fails' : Nat → Option Failure} {o : Occurrence}
  {first own more rest : List Occurrence}

theorem Accounted.mono (h : Accounted settled fails first o) (himp : ∀ w, settled w → settled' w)
    (hfails : ∀ w, settled w → fails' w = fails w) : Accounted settled' fails' first o := by
  unfold Accounted at h ⊢
  split at h
  · exact h
  · obtain ⟨earlier, before, entry, branch, after, source, hfirst, hfailure, hbefore, hover, hsource⟩ := h
    refine ⟨earlier, before, entry, branch, after, source, hfirst, hfailure, fun other hother => ?_,
      himp _ hover, (hfails _ hover).trans hsource⟩
    obtain ⟨hover, hnone⟩ := hbefore other hother
    exact ⟨himp _ hover, (hfails _ hover).trans hnone⟩
  all_goals trivial

theorem accounted_of_isPlain {activity : Activity} (h : o.IsPlain activity) :
    Accounted settled fails first o := by
  unfold Accounted
  split
  · exact h
  · cases h.2
  all_goals trivial

/-- What stands in a list stands in its beginning, or comes in behind it. -/
theorem split_of_append (h : own ++ more = first ++ o :: rest) :
    (∃ rest', own = first ++ o :: rest') ∨ o ∈ more := by
  rcases List.append_eq_append_iff.mp h with ⟨between, -, hmore⟩ | ⟨behind, hown, hbehind⟩
  · exact .inr (hmore ▸ List.mem_append_right _ List.mem_cons_self)
  · rcases List.append_eq_cons_iff.mp hbehind.symm with ⟨-, hmore⟩ | ⟨rest', rfl, -⟩
    · exact .inr (hmore ▸ List.mem_cons_self)
    · exact .inl ⟨rest', hown⟩

/-- Why the first failure of a walk is what it is: it is the failure of a unit, or that of a fork, whose
branches before the one named in the failure have not failed, and in which the failure of that branch is
explained in turn. The last failure of the chain is that of a unit. -/
inductive Explains (journal : List JournalEntry) : Nat → Failure → Failure → Prop where
  | unit {w : Nat} {u : String} {failure : Failure} {first rest : List Occurrence}
      (hown : Journal.own journal w = first ++ .unitEnded u (some failure) :: rest)
      (hfirst : ∀ o ∈ first, o.failure? = none)
      (hplain : ∀ anchor entry source, failure ≠ .branchFailed anchor entry source) :
    Explains journal w failure failure
  | fork {w branch : Nat} {anchor entry : String} {before after : List (String × Nat)}
      {source origin : Failure} {first rest : List Occurrence}
      (hown : Journal.own journal w =
        first ++ Journal.fork anchor (before ++ (entry, branch) :: after) [] ++
          .joined anchor (some (.branchFailed anchor entry source)) :: rest)
      (hfirst : ∀ o ∈ first, o.failure? = none)
      (hbefore : ∀ other ∈ before, failures journal other.2 = [])
      (hbranch : Explains journal branch source origin) :
    Explains journal w (.branchFailed anchor entry source) origin

/-- Where all failures are accounted for, the first one of a walk is that of a unit, or of a fork of
which a branch has failed before all that come behind it. -/
theorem failure_cases {journal : List JournalEntry}
    (h : ∀ w first o rest, Journal.own journal w = first ++ o :: rest →
      Accounted settled (fun w => (failures journal w).head?) first o) {w : Nat} {failure : Failure}
    (hfailure : (failures journal w).head? = some failure) :
    (∃ u first rest, Journal.own journal w = first ++ .unitEnded u (some failure) :: rest ∧
      (∀ o ∈ first, o.failure? = none) ∧ failure.origin = failure) ∨
    ∃ anchor before entry branch after source first rest,
      failure = .branchFailed anchor entry source ∧
      Journal.own journal w = first ++ fork anchor (before ++ (entry, branch) :: after) [] ++
        .joined anchor (some failure) :: rest ∧
      (∀ o ∈ first, o.failure? = none) ∧ (∀ other ∈ before, failures journal other.2 = []) ∧
      (failures journal branch).head? = some source := by
  obtain ⟨others, hothers⟩ := List.head?_eq_some_iff.mp hfailure
  obtain ⟨first, o, rest, hown, hfirst, ho, -⟩ := List.filterMap_eq_cons_iff.mp hothers
  have haccounted := h w first o rest hown
  cases o with
  | unitEnded u result =>
    obtain rfl : result = some failure := ho
    exact .inl ⟨u, first, rest, hown, hfirst, haccounted⟩
  | joined anchor result =>
    obtain rfl : result = some failure := ho
    obtain ⟨earlier, before, entry, branch, after, source, rfl, heq, hbefore, -, hsource⟩ := haccounted
    refine .inr ⟨anchor, before, entry, branch, after, source, earlier, rest, heq, hown,
      fun o ho => hfirst o (List.mem_append_left _ ho), fun other hother => ?_, hsource⟩
    exact List.head?_eq_none_iff.mp (hbefore other hother).2
  | remark | unitStarted | forked | branchStarted => cases ho

/-- Where all failures are accounted for, the first one of each walk is explained. The induction is on
the failure, which wraps that of a branch. -/
theorem explains_of_accounted {journal : List JournalEntry}
    (h : ∀ w first o rest, Journal.own journal w = first ++ o :: rest →
      Accounted settled (fun w => (failures journal w).head?) first o) {w : Nat} {failure : Failure}
    (hfailure : (failures journal w).head? = some failure) :
    Explains journal w failure failure.origin := by
  have hcases := failure_cases h hfailure
  induction failure generalizing w with
  | branchFailed anchor entry source ih =>
    rcases hcases with ⟨u, first, rest, -, -, hplain⟩ |
      ⟨_, before, _, branch, after, _, first, rest, heq, hown, hfirst, hbefore, hsource⟩
    · exact absurd hplain (Failure.origin_ne_branchFailed _ _ _ _)
    · cases heq
      exact .fork hown hfirst hbefore (ih hsource (failure_cases h hsource))
  | _ =>
    rcases hcases with ⟨u, first, rest, hown, hfirst, -⟩ | ⟨_, _, _, _, _, _, _, _, heq, -⟩
    · exact .unit hown hfirst nofun
    · cases heq

end Journal

namespace Executor

variable {x y start : Executor} {m : Move} {past : List (Executor × Move)}
  {config : Config} {registry : Registry} {listeners : Listeners}

theorem Joins.accounted {state : RunState} {q : Process} {anchor : String} {result : Option Failure}
    {branches : List (String × Nat)} (h : Joins past x m y state q anchor result branches)
    (hgone : ∀ k w, EndsAt (past ++ [(x, m)]) k w → y.Gone w) :
    Journal.Accounted y.Gone (fun w => (Journal.failures y.engine.journal.toList w).head?)
      (Journal.own x.engine.journal.toList q.serial) (.joined anchor result) := by
  cases result with
  | none => trivial
  | some failure =>
    obtain ⟨before, ⟨entry, branch⟩, after, rfl, hfailure, hbefore⟩ :=
      List.findSome?_eq_some_iff.mp h.result_eq.symm
    obtain ⟨source, hsource, rfl⟩ := Option.map_eq_some_iff.mp hfailure
    obtain ⟨first, hwritten⟩ := h.written
    have hover : ∀ other ∈ before ++ (entry, branch) :: after, y.Gone other.2 := fun other hother =>
      (h.ended other hother).elim fun k hk => hgone k _ hk
    exact ⟨first, before, entry, branch, after, source, hwritten, rfl, fun other hother =>
      ⟨hover other (List.mem_append_left _ hother), Option.map_eq_none_iff.mp (hbefore other hother)⟩,
      hover (entry, branch) (by simp), hsource⟩

/-- As long as the pool is open, all failures that have been written down are accounted for. -/
theorem History.accounted (hbuild : build config registry listeners = .ok start)
    (h : start.History past x) (hopen : x.engine.isClosed = false) {w : Nat} {o : Occurrence}
    {first rest : List Occurrence}
    (hown : Journal.own x.engine.journal.toList w = first ++ o :: rest) :
    Journal.Accounted x.Gone (fun w => (Journal.failures x.engine.journal.toList w).head?) first o := by
  obtain ⟨hstart, hsound⟩ := sound_build hbuild
  induction h generalizing w o first rest with
  | start =>
    obtain rfl := eq_of_build hbuild
    cases first <;> cases hown
  | @move past x y m hpast hmove ih =>
    have hfits := hpast.fits hstart
    have hnumbered := hpast.numbered hstart hsound.toNumbered
    have hxopen := isOpen_of_move hfits hmove hopen
    have hearlier : ∀ rest, Journal.own x.engine.journal.toList w = first ++ o :: rest →
        Journal.Accounted y.Gone (fun w => (Journal.failures y.engine.journal.toList w).head?)
          first o := fun rest hrest => by
      refine (ih hxopen hrest).mono (fun v hv => (hv.move hfits hnumbered hmove).1) fun v hv => ?_
      rw [Journal.failures, Journal.failures, (hv.move hfits hnumbered hmove).2]
    by_cases hwrote : Journal.own y.engine.journal.toList w = Journal.own x.engine.journal.toList w
    · exact hearlier rest (hwrote ▸ hown)
    -- only a walk that is there writes something down
    obtain ⟨state, q, hq, rfl⟩ : ∃ state q, x.HasIn state q ∧ q.serial = w := by
      by_contra hnone
      refine hwrote ((says_move hnumbered hmove).own_eq fun entry hentry heq => ?_)
      obtain ⟨state, r, hr, hwalk, -⟩ := hentry
      exact hnone ⟨state, r, hr, hwalk.trans heq⟩
    rcases hpast.writes hbuild hxopen hmove hq with ⟨more, hmore, hplain⟩ |
      ⟨anchor, result, branches, hjoined, hjoins⟩
    · rcases Journal.split_of_append (hmore ▸ hown) with ⟨rest', hrest⟩ | hmem
      · exact hearlier rest' hrest
      · exact Journal.accounted_of_isPlain (hplain o hmem)
    · rcases concat_eq_append_cons (hjoined ▸ hown) with ⟨-, rfl, rfl⟩ | ⟨rest', -, hrest⟩
      · exact hjoins.accounted fun k v hk => hk.gone (hpast.move hmove) hstart hsound.toNumbered
      · exact hearlier rest' hrest

/-! ## Forks go on -/

end Executor

/-- Each walk belongs to a task. -/
theorem Run.Has.exists_at {run state : RunState} {p q : Process} (h : Run.Has ⟨run, p⟩ state q)
    (task : Nat) : ∃ who site, p.At who task run site ∧ site.process = q := by
  induction p using Process.induction_runs generalizing run task with
  | h serial walk activity ih =>
    rcases h.cases with ⟨rfl, -⟩ | ⟨branch, hbranch, hin⟩ | ⟨inner, root, hcalls, hin⟩
    · exact ⟨task, _, .here, rfl⟩
    · cases activity with
      | poised | queued | working | asleep | calling => exact hbranch.elim
      | inPlace =>
        obtain rfl := hbranch
        obtain ⟨who, site, hat, hsite⟩ := ih branch rfl hin task
        exact ⟨who, _, .inPlace hat, (Site.process_within ..).trans hsite⟩
      | forking =>
        obtain ⟨entry, hmem⟩ := hbranch
        obtain ⟨who, site, hat, hsite⟩ := ih branch ⟨entry, hmem⟩ hin branch.serial
        exact ⟨who, _, .child hmem hat, (Site.process_within ..).trans hsite⟩
    · cases activity with
      | poised | queued | working | asleep | inPlace | forking => exact hcalls.elim
      | calling =>
        obtain ⟨rfl, rfl⟩ := hcalls
        obtain ⟨who, site, hat, hsite⟩ := ih _ rfl hin task
        exact ⟨who, _, .called hat, hsite⟩

/-- What a walk writes down in its step is what is written down of it in the whole move. -/
theorem Process.Moves.own_at {who task : Nat} {p p' : Process} {run run' : RunState} {e e' : Engine}
    {site : Site} (h : p.Moves who site task run e p' run' e') (hnodup : p.serials.Nodup) :
    ∃ s, Scene.Steps ⟨site.process.walk, site.process.activity, site.run, e⟩ who
        site.process.serial s ∧
      Journal.own e'.journal.toList site.process.serial =
        Journal.own s.engine.journal.toList site.process.serial := by
  induction h with
  | here h => exact ⟨_, h, rfl⟩
  | called _ _ ih | returned _ _ ih => exact ih (List.nodup_cons.mp hnodup).2
  | inPlace _ _ ih =>
    rw [Site.process_within, Site.run_within]
    exact ih (List.nodup_cons.mp hnodup).2
  | inPlaceEnded h _ hclose ih =>
    rw [Site.process_within, Site.run_within]
    obtain ⟨hserial, hbranch⟩ := List.nodup_cons.mp hnodup
    obtain ⟨s, hsteps, hown⟩ := ih hbranch
    subst hclose
    refine ⟨s, hsteps, (Engine.own_record_of_ne _ _ _ fun heq => hserial ?_).trans hown⟩
    exact heq ▸ h.at.1.has.serials_subset (Process.serial_mem_serials _)
  | @child _ _ _ _ entry _ _ before after _ branch | @childEnded _ _ _ _ entry _ _ before after _ _ branch =>
    rename_i ih
    rw [Site.process_within, Site.run_within]
    exact ih (Child.nodup_serials (List.nodup_cons.mp hnodup).2
      (Process.mem_children before after entry branch))

namespace Executor

variable {x y start : Executor} {m : Move} {past : List (Executor × Move)}
  {config : Config} {registry : Registry} {listeners : Listeners}

/-- A fork goes on as long as the pool is open: when none of its branches is under way, it can start the
next one or join them. -/
theorem HasIn.forks_on {state : RunState} {q : Process} {anchor : String}
    {entries started : List String} (hq : x.HasIn state q) (hnumbered : x.ledger.Numbered)
    (hopen : x.engine.isClosed = false) (hfork : q.activity.pursuit = .fork anchor entries started)
    (hidle : ∀ r, ¬ q.activity.Branches r) :
    ∃ who y o, x.move (.step who) = some y ∧
      Journal.own y.engine.journal.toList q.serial =
        Journal.own x.engine.journal.toList q.serial ++ [o] ∧
      ((∃ entry number, o = .branchStarted entry number) ∨ ∃ result, o = .joined anchor result) := by
  obtain ⟨run, hrun, hhas⟩ := hq
  obtain ⟨i, hi⟩ := List.getElem?_of_mem hrun
  obtain ⟨who, site, hat, rfl⟩ := Run.Has.exists_at (p := run.root) hhas run.root.serial
  have hthere : x.At i who site := ⟨run, hi, hat⟩
  cases hactivity : site.process.activity with
  | poised | queued | working | asleep | calling =>
    rw [hactivity] at hfork
    cases hfork
  | inPlace anchor' entry resume branch =>
    rw [hactivity] at hidle
    exact absurd rfl (hidle branch)
  | forking anchor' resume toStart children completed =>
    rw [hactivity] at hfork hidle
    cases hfork
    -- what has been started and does not run any more is over
    have hover : children.all Child.isOver = true := List.all_eq_true.mpr fun child hchild => by
      cases child with
      | running entry r => exact absurd ⟨entry, hchild⟩ (hidle r)
      | refused | ended | cancelled => rfl
    have hdue : site.process.activity.IsDue := by
      rw [hactivity]
      exact .inr hover
    obtain ⟨y, hmove⟩ : ∃ y, x.move (.step who) = some y := Option.isSome_iff_exists.mp
      (hthere.isSome_step hnumbered (Scene.isSome_stepHere hdue _ _))
    obtain ⟨run', -, haffects⟩ := affected hnumbered hmove hi
    have hmoves := haffects.site_eq hnumbered hi hthere hdue.isOwn
    obtain ⟨s, hsteps, hown⟩ := hmoves.own_at (Process.nodup_of_numbered (numbered_root hnumbered hrun))
    rw [hactivity] at hsteps
    refine ⟨who, y, ?_⟩
    generalize site.process.serial = serial at *
    cases hsteps with
    | starts h =>
      cases h
      exact ⟨_, hmove, hown.trans (Engine.own_record_self ..), .inl ⟨_, _, rfl⟩⟩
    | joins h =>
      cases h
      exact ⟨_, hmove, hown.trans (Engine.own_record_self ..), .inr ⟨_, rfl⟩⟩
    | refuses _ hclosed => cases hopen.symm.trans hclosed
    | advance h | missing h | queues h | begins h | granted h | does h | sleeps h | wakes h | opens h
    | runs h | tidies h | ends h | fails h | gaveUp h | forksNone h | forksOne h | forks h => cases h

/-- The outcome of forks, in every schedule. As long as the pool is open, a fork of which no branch is
under way can start the next one or join them all. When it joins them, each has been walked to its own
end. The result is the first failure of the first branch, in declared order, that has failed. If there
is none, the entries of the branches are published in the order in which the branches have come to their
ends, and otherwise nothing is published. So the first failure of each walk is explained by a chain of
forks, each with the first of its branches that has failed, and the failure of a unit at its end. -/
theorem History.fork_outcome (hbuild : build config registry listeners = .ok start)
    (h : start.History past x) (hopen : x.engine.isClosed = false) :
    (∀ state q anchor entries started, x.HasIn state q →
      q.activity.pursuit = .fork anchor entries started → (∀ r, ¬ q.activity.Branches r) →
      ∃ who y o, x.move (.step who) = some y ∧
        Journal.own y.engine.journal.toList q.serial =
          Journal.own x.engine.journal.toList q.serial ++ [o] ∧
        ((∃ entry number, o = .branchStarted entry number) ∨
          ∃ result, o = .joined anchor result)) ∧
    (∀ m y state q anchor entries started anchor' result task, x.move m = some y →
      x.HasIn state q → q.activity.pursuit = .fork anchor entries started →
      ⟨task, q.serial, .joined anchor' result⟩ ∈
        y.engine.journal.toList.drop x.engine.journal.size →
      ∃ branches, Joins past x m y state q anchor' result branches) ∧
    ∀ w failure, (Journal.failures x.engine.journal.toList w).head? = some failure →
      Journal.Explains x.engine.journal.toList w failure failure.origin := by
  obtain ⟨hstart, hsound⟩ := sound_build hbuild
  have hnumbered := h.numbered hstart hsound.toNumbered
  refine ⟨fun state q anchor entries started hq hfork hidle =>
    hq.forks_on hnumbered hopen hfork hidle, ?_, fun w failure hfailure => ?_⟩
  · intro m y state q anchor entries started anchor' result task hmove hq hfork hjoined
    have hown := (says_move hnumbered hmove).own_drop q.serial
    have hjoined := Journal.mem_own.mpr ⟨task, hjoined⟩
    rcases h.writes hbuild hopen hmove hq with ⟨more, hmore, hplain⟩ |
      ⟨anchor'', result', branches, hjoin, hjoins⟩
    · obtain rfl := List.append_cancel_left (hown.symm.trans hmore)
      cases hfork.symm.trans (hplain _ hjoined).1
    · rw [List.append_cancel_left (hown.symm.trans hjoin)] at hjoined
      cases List.mem_singleton.mp hjoined
      exact ⟨branches, hjoins⟩
  · exact Journal.explains_of_accounted (fun w first o rest hown => h.accounted hbuild hopen hown)
      hfailure

/-- Two branches fail, and the one that comes last in declared order does so first. What remains is the
failure of the first one, in which a group has failed. -/
theorem History.fork_outcome_nested : ∃ (past : List (Executor × Move)) (x y : Executor) (state : RunState)
    (q : Process) (branches : List (String × Nat)) (c : Failure),
    c = .unitFailed "c" .run ⟨"no", []⟩ ∧
      (doing [("a", .done), ("b", .done), ("c", .fail ⟨"no", []⟩),
        ("d", .fail ⟨"none", []⟩)]).History past x ∧
      x.engine.isClosed = false ∧ x.move (.step 0) = some y ∧ x.HasIn state q ∧ q.serial = 0 ∧
      q.activity.pursuit = .fork "__fork__#0" ["a", "d"] ["a", "d"] ∧
      Joins past x (.step 0) y state q "__fork__#0"
        (some (.branchFailed "__fork__#0" "a" (.branchFailed "a" "c" c))) branches ∧
      Journal.Explains x.engine.journal.toList 1 (.branchFailed "a" "c" c) c := by
  let units : List (String × Behavior) := [("a", .done), ("b", .done), ("c", .fail ⟨"no", []⟩),
    ("d", .fail ⟨"none", []⟩)]
  let plan := (Node.compile? (.parallel [.sequence [.unit "a", .parallel [.unit "b", .unit "c"]],
    .unit "d"])).getD {}
  let c : Failure := .unitFailed "c" .run ⟨"no", []⟩
  let moves : List Move := .launch (.plan plan) {} ::
    [0, 0, 0, 0, 2, 2, 2, 2, 2, 1, 1, 1, 1, 1, 1, 1, 1, 4, 4, 4, 4, 4, 3, 3, 3, 3, 3, 3, 1].map .step
  let x := ((doing units).follow moves).2
  let y := (x.follow [.step 0]).2
  have hpast : (doing units).History _ x := history_follow _ moves
  have hopen : x.engine.isClosed = false := by decide +kernel
  have hmove : x.move (.step 0) = some y := move_eq_follow (by decide +kernel)
  have hruns : (x.runs.map fun run => (run.root.serial, run.root.activity.pursuit)) =
      [(0, .fork "__fork__#0" ["a", "d"] ["a", "d"])] := by decide +kernel
  have hjoined : ⟨0, 0, .joined "__fork__#0"
      (some (.branchFailed "__fork__#0" "a" (.branchFailed "a" "c" c)))⟩ ∈
      y.engine.journal.toList.drop x.engine.journal.size := by decide +kernel
  have hfailure : (Journal.failures x.engine.journal.toList 1).head? = some (.branchFailed "a" "c" c) := by
    decide +kernel
  clear_value x y
  obtain ⟨run, hrun, hroot⟩ := List.mem_map.mp (hruns ▸ List.mem_singleton_self _)
  obtain ⟨hserial, hfork⟩ := Prod.mk.inj hroot
  have hq : x.HasIn run.state run.root := ⟨run, hrun, Run.has_self run⟩
  obtain ⟨-, hjoins, hexplains⟩ := History.fork_outcome (build_doing units) hpast hopen
  obtain ⟨branches, hjoins⟩ := hjoins _ _ _ _ _ _ _ _ _ _ hmove hq hfork (hserial ▸ hjoined)
  exact ⟨_, x, y, run.state, run.root, branches, c, rfl, hpast, hopen, hmove, hq, hserial, hfork, hjoins,
    hexplains 1 _ hfailure⟩

end Executor

end Workflow
