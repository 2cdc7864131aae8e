import Workflow.Proofs.Run.StepsOver

/-!
# Forks and their branches

A walk that forks writes down the entries of the branches, and for each branch the number of its walk
when it starts it. While the walk waits, the fork knows of every branch that has been started whether
it is on its way or how it has come to its end, and in which order those that succeeded have done so
(`Activity.Tells`). Every move keeps this (`Process.Moves.tells`), whichever task makes it.

When and how walks come to their ends is a parameter here, `ended k w failure`: the move numbered `k`
ended the walk `w`, with this failure or none.
-/

namespace Workflow

variable {ended ended' : Nat → Nat → Option Failure → Prop}

/-! ## What is written down -/

namespace Journal

/-- What a walk has written down of a fork when it has started some of its branches, given as entries
and numbers, and not yet the others. -/
def fork (anchor : String) (started : List (String × Nat)) (toStart : List String) :
    List Occurrence :=
  .forked anchor (started.map Prod.fst ++ toStart) ::
    started.map fun branch => .branchStarted branch.1 branch.2

theorem fork_concat (anchor entry : String) (number : Nat) (started : List (String × Nat))
    (toStart : List String) :
    fork anchor started (entry :: toStart) ++ [.branchStarted entry number] =
      fork anchor (started ++ [(entry, number)]) toStart := by
  simp [fork]

/-- Branches stand in the order in which they have come to their ends. -/
def InOrder (ended : Nat → Nat → Option Failure → Prop) (order : List (String × Nat)) : Prop :=
  order.Pairwise fun first second => ∃ j k f g, j < k ∧ ended j first.2 f ∧ ended k second.2 g

theorem InOrder.mono {order : List (String × Nat)} (h : InOrder ended order)
    (himp : ∀ k w failure, ended k w failure → ended' k w failure) : InOrder ended' order :=
  h.imp fun ⟨j, k, f, g, hlt, hfirst, hsecond⟩ =>
    ⟨j, k, f, g, hlt, himp j _ f hfirst, himp k _ g hsecond⟩

end Journal

namespace Engine

theorem own_record_self (e : Engine) (task walk : Nat) (o : Occurrence) :
    Journal.own (e.record task walk o).journal.toList walk =
      Journal.own e.journal.toList walk ++ [o] := by
  show Journal.own (e.journal.push ⟨task, walk, o⟩).toList walk = _
  rw [Array.toList_push]
  exact Journal.own_concat_self

theorem own_record_of_ne (e : Engine) (task : Nat) (o : Occurrence) {walk w : Nat} (h : walk ≠ w) :
    Journal.own (e.record task walk o).journal.toList w = Journal.own e.journal.toList w := by
  show Journal.own (e.journal.push ⟨task, walk, o⟩).toList w = _
  rw [Array.toList_push]
  exact Journal.own_concat_of_ne h

/-- What has been written down about others is nothing to a walk. -/
theorem Logs.own_eq {P : JournalEntry → Prop} {e e' : Engine} {w : Nat} (h : e.Logs P e')
    (hne : ∀ entry, P entry → entry.walk ≠ w) :
    Journal.own e'.journal.toList w = Journal.own e.journal.toList w := by
  obtain ⟨new, hnew, hall⟩ := h
  have hnone := Journal.own_eq_nil fun entry hentry => hne entry (hall entry hentry)
  rw [hnew, Journal.own_append, hnone, List.append_nil]

/-- What a walk has written down is what it had written down before, and what has been added. -/
theorem Logs.own_drop {P : JournalEntry → Prop} {e e' : Engine} (h : e.Logs P e') (w : Nat) :
    Journal.own e'.journal.toList w =
      Journal.own e.journal.toList w ++ Journal.own (e'.journal.toList.drop e.journal.size) w := by
  obtain ⟨new, hnew, -⟩ := h
  rw [← Journal.own_append, hnew, ← Array.length_toList, List.drop_left]

/-- What has been written down about a walk is of the kind that has been written down at all. -/
theorem Logs.own {P : JournalEntry → Prop} {e e' : Engine} (h : e.Logs P e') (w : Nat) :
    ∃ more, Journal.own e'.journal.toList w = Journal.own e.journal.toList w ++ more ∧
      ∀ o ∈ more, ∃ task, P ⟨task, w, o⟩ := by
  obtain ⟨new, hnew, hall⟩ := h
  refine ⟨Journal.own new w, by rw [hnew, Journal.own_append], fun o ho => ?_⟩
  obtain ⟨task, hmem⟩ := Journal.mem_own.mp ho
  exact ⟨task, hall _ hmem⟩

end Engine

/-! ## What a fork knows of its branches -/

namespace Child

/-- A child stands for this branch: it is on its way, or it has come to its end as the child says. -/
inductive Tells (ended : Nat → Nat → Option Failure → Prop) : Child → String × Nat → Prop
  | running (entry : String) (p : Process) : Tells ended (.running entry p) (entry, p.serial)
  | ended {k w : Nat} {entry : String} {failure : Option Failure} (h : ended k w failure) :
    Tells ended (.ended entry failure) (entry, w)

theorem Tells.mono {child : Child} {branch : String × Nat} (h : child.Tells ended branch)
    (himp : ∀ k w failure, ended k w failure → ended' k w failure) : child.Tells ended' branch := by
  cases h with
  | running => exact .running _ _
  | ended h => exact .ended (himp _ _ _ h)

def hasSucceeded : Child → Bool
  | .ended _ failure => failure.isNone
  | .running .. | .refused _ | .cancelled _ => false

/-- The branches that have come to their ends without a failure, in declared order. -/
def doneOf (children : List Child) (branches : List (String × Nat)) : List (String × Nat) :=
  ((children.zip branches).filter fun pair => pair.1.hasSucceeded).map Prod.snd

variable {children : List Child} {branches : List (String × Nat)}

theorem doneOf_append {more : List Child} {others : List (String × Nat)}
    (h : children.length = branches.length) :
    doneOf (children ++ more) (branches ++ others) =
      doneOf children branches ++ doneOf more others := by
  rw [doneOf, List.zip_append h, List.filter_append, List.map_append]
  rfl

theorem doneOf_middle {before after : List Child} {child : Child} {early later : List (String × Nat)}
    {branch : String × Nat} (h : before.length = early.length) :
    doneOf (before ++ child :: after) (early ++ branch :: later) =
      doneOf before early ++
        ((if child.hasSucceeded then [branch] else []) ++ doneOf after later) := by
  rw [doneOf_append h]
  congr 1
  rw [doneOf, List.zip_cons_cons, List.filter_cons]
  split <;> rfl

/-- Who is among the branches that are done has come to its end. -/
theorem ended_of_mem_doneOf (h : List.Forall₂ (Tells ended) children branches)
    {branch : String × Nat} (hmem : branch ∈ doneOf children branches) :
    ∃ k, ended k branch.2 none := by
  obtain ⟨⟨child, own⟩, hpair, rfl⟩ := List.mem_map.mp hmem
  obtain ⟨hzip, hdone⟩ := List.mem_filter.mp hpair
  cases List.forall₂_zip h hzip with
  | running => cases hdone
  | @ended k _ _ failure hended =>
    obtain rfl := Option.isNone_iff_eq_none.mp hdone
    exact ⟨k, hended⟩

/-- When all branches are over, each of them has come to its own end. -/
theorem ended_of_over (h : List.Forall₂ (Tells ended) children branches)
    (hover : children.all isOver = true) :
    ∀ branch ∈ branches, ∃ k failure, ended k branch.2 failure := by
  induction h with
  | nil => exact nofun
  | @cons child branch rest others hchild _ ih =>
    obtain ⟨hfirst, hrest⟩ := Bool.and_eq_true_iff.mp hover
    intro other hother
    rcases List.mem_cons.mp hother with rfl | hother
    · cases hchild with
      | running => cases hfirst
      | ended hended => exact ⟨_, _, hended⟩
    · exact ih hrest other hother

/-- The failure of a fork is that of the first branch in declared order that has failed. -/
theorem joinFailure?_eq {fails : Nat → Option Failure}
    (h : List.Forall₂ (Tells ended) children branches) (hover : children.all isOver = true)
    (hfails : ∀ k w failure, ended k w failure → failure = fails w) (anchor : String) :
    Scene.joinFailure? anchor children =
      branches.findSome? fun branch => (fails branch.2).map (.branchFailed anchor branch.1) := by
  induction h with
  | nil => rfl
  | @cons child branch rest others hchild _ ih =>
    obtain ⟨hfirst, hrest⟩ := Bool.and_eq_true_iff.mp hover
    cases hchild with
    | running => cases hfirst
    | @ended k w entry failure hended =>
      obtain rfl := hfails _ _ _ hended
      rw [List.findSome?_cons, ← ih hrest]
      rfl

/-- Where no branch has failed, all of them are done. -/
theorem doneOf_eq_of_join (h : List.Forall₂ (Tells ended) children branches)
    (hover : children.all isOver = true) {anchor : String}
    (hjoin : Scene.joinFailure? anchor children = none) : doneOf children branches = branches := by
  induction h with
  | nil => rfl
  | @cons child branch rest others hchild _ ih =>
    obtain ⟨hfirst, hrest⟩ := Bool.and_eq_true_iff.mp hover
    cases hchild with
    | running => cases hfirst
    | @ended k w entry failure hended =>
      cases failure with
      | some => cases hjoin
      | none =>
        have hjoin : Scene.joinFailure? anchor rest = none := hjoin
        exact congrArg (List.cons _) (ih hrest hjoin)

end Child

/-- What is known of the branches of a walk that waits for them, and of the failure that a unit has
been told of. `own` is what the walk has written down. -/
def Activity.Tells (ended : Nat → Nat → Option Failure → Prop) (own : List Occurrence) :
    Activity → Prop
  | .inPlace anchor entry _ branch =>
    ∃ first, own = first ++ Journal.fork anchor [(entry, branch.serial)] []
  | .forking anchor _ toStart children completed =>
    2 ≤ children.length + toStart.length ∧ ∃ first branches order,
      own = first ++ Journal.fork anchor branches (toStart.map Branch.entry) ∧
      List.Forall₂ (Child.Tells ended) children branches ∧
      completed = order.map Prod.fst ∧ order.Perm (Child.doneOf children branches) ∧
      Journal.InOrder ended order
  | .working job _ | .asleep job _ _ | .calling job _ _ _ =>
    ∀ failure, job.stage = .onError failure → failure.origin = failure
  | .poised _ | .queued .. => True

theorem Activity.Tells.mono {activity : Activity} {own : List Occurrence}
    (h : activity.Tells ended own)
    (himp : ∀ k w failure, ended k w failure → ended' k w failure) :
    activity.Tells ended' own := by
  cases activity with
  | forking =>
    obtain ⟨htwo, first, branches, order, hown, htells, hcompleted, hperm, horder⟩ := h
    exact ⟨htwo, first, branches, order, hown, htells.imp fun _ _ hchild => hchild.mono himp,
      hcompleted, hperm, horder.mono himp⟩
  | poised | queued | working | asleep | calling | inPlace => exact h

/-- A fork goes on knowing its branches when one of them moves, or comes to its end by the move
numbered `n`. -/
theorem Activity.Tells.exchange {n : Nat} {anchor entry : String} {resume : Resume}
    {toStart : List (Branch Plan)} {before after : List Child} {branch : Process}
    {completed : List String} {own : List Occurrence} (child : Child)
    (h : Activity.Tells ended own
      (.forking anchor resume toStart (before ++ .running entry branch :: after) completed))
    (himp : ∀ k w failure, ended k w failure → ended' k w failure)
    (hpast : ∀ k w failure, ended k w failure → k < n)
    (hchild : child.Tells ended' (entry, branch.serial))
    (hlast : child.hasSucceeded = true → ended' n branch.serial none) :
    Activity.Tells ended' own (.forking anchor resume toStart (before ++ child :: after)
      (completed ++ if child.hasSucceeded then [entry] else [])) := by
  obtain ⟨htwo, first, branches, order, hown, htells, hcompleted, hperm, horder⟩ := h
  obtain ⟨early, own, later, rfl, hearly, hthis, hlater⟩ := forall₂_append_cons htells
  have hdone : ∀ first ∈ order, ∃ k, ended k first.2 none := fun first hmem =>
    Child.ended_of_mem_doneOf htells (hperm.subset hmem)
  obtain rfl : own = (entry, branch.serial) := by cases hthis; rfl
  have himp' : ∀ c b, Child.Tells ended c b → Child.Tells ended' c b := fun _ _ h => h.mono himp
  rw [Child.doneOf_middle hearly.length_eq] at hperm
  refine ⟨by simpa using htwo, first, early ++ (entry, branch.serial) :: later,
    order ++ if child.hasSucceeded then [(entry, branch.serial)] else [], hown,
    List.rel_append (hearly.imp himp') (.cons hchild (hlater.imp himp')), ?_, ?_, ?_⟩
  · rw [hcompleted, List.map_append]
    split <;> rfl
  · rw [Child.doneOf_middle hearly.length_eq, ← List.append_assoc]
    refine (hperm.append_right _).trans ?_
    show (Child.doneOf before early ++ Child.doneOf after later ++ _).Perm _
    rw [List.append_assoc, List.append_assoc]
    exact List.perm_append_comm.append_left _
  · refine List.pairwise_append.mpr ⟨horder.mono himp, ?_, ?_⟩
    · split
      · exact List.pairwise_singleton _ _
      · exact .nil
    · -- whoever is done already has been so before this move
      intro earlier hearlier last hmem
      split at hmem
      · next hsucceeded =>
        obtain rfl := List.mem_singleton.mp hmem
        obtain ⟨k, hk⟩ := hdone earlier hearlier
        exact ⟨k, n, none, none, hpast k _ _ hk, himp k _ _ hk, hlast hsucceeded⟩
      · cases hmem

/-- What is known of all forks in a process. -/
def Process.Tells (ended : Nat → Nat → Option Failure → Prop) (journal : List JournalEntry)
    (p : Process) : Prop :=
  ∀ q, p.Has q → q.activity.Tells ended (Journal.own journal q.serial)

/-! ## Steps at a walk -/

namespace Scene

variable {s s' : Scene} {task serial : Nat}

/-- A step at a walk keeps what is known of the branches of the walk. -/
theorem Steps.tells_own (h : s.Steps task serial s') (hopen : s.engine.pool.closed = false)
    (htells : s.activity.Tells ended (Journal.own s.engine.journal.toList serial)) :
    s'.activity.Tells ended (Journal.own s'.engine.journal.toList serial) := by
  cases h with
  | advance | missing | queues | forksNone | joins => trivial
  | begins | granted => exact nofun
  | runs | tidies => exact nofun
  | does h | sleeps h | wakes h | opens h =>
    rw [h] at htells
    exact htells
  -- behind a unit the walk is about to decide something, and waits for no branch
  | ends | gaveUp =>
    rw [endUnit_eq]
    trivial
  | fails =>
    intro failure hstage
    cases hstage
    rfl
  | @forksOne anchor branch resume h =>
    refine ⟨Journal.own s.engine.journal.toList serial, ?_⟩
    rw [Scene.record, Engine.own_record_self]
    show Journal.own (s.engine.record task serial _).journal.toList serial ++ _ = _
    rw [Engine.own_record_self, List.append_assoc]
    rfl
  | @forks anchor branches resume h htwo =>
    refine ⟨by simpa using htwo, Journal.own s.engine.journal.toList serial, [], [], ?_, .nil, rfl,
      .refl _, .nil⟩
    exact Engine.own_record_self ..
  | @starts anchor resume branch toStart children completed h =>
    rw [h] at htells
    obtain ⟨htwo, first, branches, order, hown, htold, hcompleted, hperm, horder⟩ := htells
    refine ⟨by simp at htwo ⊢; omega, first, branches ++ [(branch.entry, s.engine.nextSerial)],
      order, ?_, ?_, hcompleted, ?_, horder⟩
    · rw [Scene.record, Engine.own_record_self]
      show Journal.own s.engine.journal.toList serial ++ _ = _
      rw [hown, List.append_assoc, List.map_cons, Journal.fork_concat]
    · exact List.rel_append htold (.cons (.running _ (.ofPlan _ branch.plan true)) .nil)
    · rw [Child.doneOf_append htold.length_eq]
      show order.Perm (Child.doneOf children branches ++ [])
      rwa [List.append_nil]
  | refuses _ hclosed => cases hopen.symm.trans hclosed

/-- A step at a walk keeps what is known of all branches. -/
theorem Steps.tells (h : s.Steps task serial s') (hnodup : (s.process serial).serials.Nodup)
    (hopen : s.engine.pool.closed = false)
    (htells : (s.process serial).Tells ended s.engine.journal.toList) :
    (s'.process serial).Tells ended s'.engine.journal.toList := by
  intro q hq
  cases hq with
  | self => exact h.tells_own hopen (htells _ (.self _))
  | inside hruns hq =>
    rcases h.runs_cases hruns with ⟨hold, -⟩ | ⟨plan, pooled, rfl⟩
    · have hbelow : (s.process serial).Has q := .inside hold.runs hq
      have hin := Process.serials_subset hold.runs (hq.serials_subset q.serial_mem_serials)
      have hne : serial ≠ q.serial := fun heq => Process.serial_notMem hnodup (heq ▸ hin)
      have hown := h.logs.own_eq (w := q.serial) fun entry hentry => hentry.1 ▸ hne
      rw [hown]
      exact htells q hbelow
    · -- a branch that has just begun waits for nobody
      cases hq with
      | self => trivial
      | inside hruns => exact hruns.elim

end Scene

/-! ## Moves in a tree -/

/-- A run that has come to its end is its root alone. -/
theorem Run.Has.isFinished {f : Run} {state : RunState} {q : Process} (h : f.Has state q)
    (hfinished : f.root.isFinished = true) : q.isFinished = true :=
  Process.has_of_isFinished h.has hfinished ▸ hfinished

namespace Process

variable {who task : Nat} {p p' q : Process} {run run' state : RunState} {e e' : Engine} {site : Site}

/-- A move leaves alone what others have written down. -/
theorem Moves.own_eq (h : p.Moves who site task run e p' run' e') (hnodup : p.serials.Nodup) {w : Nat}
    (hw : w ∉ p.serials) : Journal.own e'.journal.toList w = Journal.own e.journal.toList w := by
  refine (h.logs_says hnodup).own_eq fun entry ⟨r, hr, hwalk, _⟩ => ?_
  rw [← hwalk]
  exact hr.serial_ne hw

/-- What is left of the inside of a walk when something has taken the place of it is in that. -/
theorem mem_serials_of_inside {serial w : Nat} {left : List Nat} (hnodup : (serial :: p.serials).Nodup)
    (hw : w ∈ p.serials) (hin : w ∈ serial :: left) : w ∈ left :=
  (List.mem_cons.mp hin).resolve_left fun heq => (List.nodup_cons.mp hnodup).1 (heq ▸ hw)

/-- What is left of a branch when a child has taken the place of it is in the child. -/
theorem mem_serials_of_exchange {serial w : Nat} {branch : Process} {child : Child} {entry : String}
    {before after : List Child}
    (hnodup : (serial :: Child.serialsIn (before ++ .running entry branch :: after)).Nodup)
    (hw : w ∈ branch.serials) (hin : w ∈ serial :: Child.serialsIn (before ++ child :: after)) :
    w ∈ child.serials := by
  obtain ⟨hserial, hnodup⟩ := List.nodup_cons.mp hnodup
  have hin := (List.mem_cons.mp hin).resolve_left fun heq =>
    hserial (heq ▸ Child.mem_serialsIn (mem_children before after entry branch) hw)
  rw [Child.serialsIn_eq_flatMap] at hnodup hin
  obtain ⟨other, hother, hinside⟩ := List.mem_flatMap.mp hin
  rcases mem_around.mp hother with rfl | hother
  · exact hinside
  · exact (not_mem_of_nodup_flatMap hnodup hother hinside hw).elim

/-- The walk `q` of a run makes a move, as a part of a move by which the run becomes `f` and the engine
`e'`. What the move writes down of it and of the walks below it is written down by that part, and what
leaves it leaves the run. -/
structure OwnPart (who : Nat) (state : RunState) (e : Engine) (q : Process) (f : Run) (e' : Engine)
    (site : Site) (task : Nat) (q' : Process) (state' : RunState) (e₁ : Engine) : Prop where
  moves : q.Moves who site task state e q' state' e₁
  own_eq : ∀ w ∈ q.serials, Journal.own e'.journal.toList w = Journal.own e₁.journal.toList w
  leaves : ∀ w ∈ q.serials, w ∉ q'.serials → w ∉ f.root.serials
  stays : f.Has state' q' ∨ q'.isFinished = true ∧ q.serial ∉ f.root.serials

section

variable {f g : Run} {q' : Process} {state' : RunState} {e'' e₁ : Engine} {task' : Nat}

/-- A part of a move inside of a process is a part of the move of the process. -/
theorem OwnPart.around (h : OwnPart who state e q g e' site task' q' state' e₁)
    (hleft : ∀ w ∈ q.serials, w ∈ f.root.serials → w ∈ g.root.serials)
    (hhas : g.Has state' q' → f.Has state' q') : OwnPart who state e q f e' site task' q' state' e₁ where
  moves := h.moves
  own_eq := h.own_eq
  leaves w hw hgone hin := h.leaves w hw hgone (hleft w hw hin)
  stays := h.stays.imp hhas (And.imp_right fun hgone hin => hgone (hleft _ q.serial_mem_serials hin))

/-- So is a part of a move by which the inside comes to its end and goes away. -/
theorem OwnPart.last (h : OwnPart who state e q g e' site task' q' state' e₁)
    (hfinished : g.root.isFinished = true)
    (hown : ∀ w ∈ q.serials, Journal.own e''.journal.toList w = Journal.own e'.journal.toList w)
    (hgone : ∀ w ∈ q.serials, w ∉ f.root.serials) : OwnPart who state e q f e'' site task' q' state' e₁ where
  moves := h.moves
  own_eq w hw := (hown w hw).trans (h.own_eq w hw)
  leaves w hw _ := hgone w hw
  stays := .inr ⟨h.stays.elim (fun hin => hin.isFinished hfinished) And.left,
    hgone _ q.serial_mem_serials⟩

end

/-- A walk that writes something down does so in a move of its own. -/
theorem Moves.own_part (h : p.Moves who site task run e p' run' e') (hnodup : p.serials.Nodup)
    (hq : Run.Has ⟨run, p⟩ state q)
    (hwrote : Journal.own e'.journal.toList q.serial ≠ Journal.own e.journal.toList q.serial) :
    ∃ inner task' q' state' e₁, OwnPart who state e q ⟨run', p'⟩ e' inner task' q' state' e₁ := by
  -- The induction goes down to the place of the move. On the way `q` is the walk that waits, which
  -- writes nothing down, or it is in the part that moves, for which the hypothesis holds.
  induction h with
  | @here serial walk activity run e s h =>
    -- a step writes down entries of the walk that makes it and of no other, so this walk is `q`
    have halone : q.serial ≠ serial → False := fun hne =>
      hwrote (h.logs.own_eq fun entry hentry => hentry.1 ▸ hne.symm)
    rcases hq.cases with ⟨rfl, rfl⟩ | ⟨branch, hbranch, hin⟩ | ⟨inner, root, hcalls, hin⟩
    · exact ⟨_, _, _, _, _, .here h, fun _ _ => rfl, fun _ _ => id, .inl (Run.has_self _)⟩
    · exact (halone fun heq => Process.serial_notMem hnodup (heq ▸ Process.serials_subset
        hbranch.runs (hin.has.serials_subset q.serial_mem_serials))).elim
    · exact (halone fun heq => Process.serial_notMem hnodup (heq ▸ Process.serials_subset
        hcalls.runs (hin.has.serials_subset q.serial_mem_serials))).elim
  | @called _ serial _ _ _ _ _ _ root' _ _ _ _ h _ ih =>
    obtain ⟨hserial, hroot⟩ := List.nodup_cons.mp hnodup
    rcases hq.cases with ⟨rfl, rfl⟩ | ⟨branch, hbranch, -⟩ | ⟨inner, root, ⟨rfl, rfl⟩, hin⟩
    · exact absurd (h.own_eq hroot hserial) hwrote
    · exact hbranch.elim
    · obtain ⟨_, _, _, _, _, hpart⟩ := ih hroot hin hwrote
      exact ⟨_, _, _, _, _, hpart.around
        (fun w hw => mem_serials_of_inside hnodup (hin.has.serials_subset hw))
        fun hin => hin.of_calls ⟨rfl, rfl⟩⟩
  | @returned _ serial _ _ _ _ _ _ _ _ _ _ _ h hfinished ih =>
    obtain ⟨hserial, hroot⟩ := List.nodup_cons.mp hnodup
    rcases hq.cases with ⟨rfl, rfl⟩ | ⟨branch, hbranch, -⟩ | ⟨inner, root, ⟨rfl, rfl⟩, hin⟩
    · exact absurd (h.own_eq hroot hserial) hwrote
    · exact hbranch.elim
    · obtain ⟨_, _, _, _, _, hpart⟩ := ih hroot hin hwrote
      -- nothing of the run that was called is left, only the walk that called it
      exact ⟨_, _, _, _, _, hpart.last hfinished (fun _ _ => rfl)
        fun w hw hleft => nomatch mem_serials_of_inside hnodup (hin.has.serials_subset hw) hleft⟩
  | @inPlace _ serial _ _ _ _ _ branch' _ _ _ _ _ h _ ih =>
    obtain ⟨hserial, hbranch⟩ := List.nodup_cons.mp hnodup
    rcases hq.cases with ⟨rfl, rfl⟩ | ⟨branch, rfl, hin⟩ | ⟨_, _, hcalls, -⟩
    · exact absurd (h.own_eq hbranch hserial) hwrote
    · obtain ⟨_, _, _, _, _, hpart⟩ := ih hbranch hin hwrote
      exact ⟨_, _, _, _, _, hpart.around
        (fun w hw => mem_serials_of_inside hnodup (hin.has.serials_subset hw))
        fun hin => hin.of_branch rfl⟩
    · exact hcalls.elim
  | @inPlaceEnded task serial walk anchor entry resume branch branch' run run' e e' s site h hfinished
      hclose ih =>
    obtain ⟨hserial, hbranch⟩ := List.nodup_cons.mp hnodup
    rcases hq.cases with ⟨rfl, rfl⟩ | ⟨branch, rfl, hin⟩ | ⟨_, _, hcalls, -⟩
    · exact ⟨_, _, _, _, _, .inPlaceEnded h hfinished hclose, fun _ _ => rfl, fun _ _ => id,
        .inl (Run.has_self _)⟩
    · subst hclose
      -- the join that follows at once is written down by the walk above and not by `q`
      have hjoined : ∀ w ∈ q.serials, Journal.own (Scene.close ⟨walk, .inPlace anchor entry resume
          branch, run', e'⟩ task serial anchor resume (Scene.branchFailure? anchor entry branch')
          [entry]).engine.journal.toList w = Journal.own e'.journal.toList w := fun w hw =>
        Engine.own_record_of_ne _ _ _ fun heq => hserial (heq ▸ hin.has.serials_subset hw)
      rw [hjoined _ q.serial_mem_serials] at hwrote
      obtain ⟨_, _, _, _, _, hpart⟩ := ih hbranch hin hwrote
      exact ⟨_, _, _, _, _, hpart.last hfinished hjoined
        fun w hw hleft => nomatch mem_serials_of_inside hnodup (hin.has.serials_subset hw) hleft⟩
    · exact hcalls.elim
  | @child task serial walk anchor entry resume toStart before after completed branch branch' run run'
      e e' site h _ _ ih =>
    obtain ⟨hserial, hchildren⟩ := List.nodup_cons.mp hnodup
    have hmem := mem_children before after entry branch
    have hbranch := Child.nodup_serials hchildren hmem
    -- the other branches write nothing down
    have hin : q.serial ∈ branch.serials := by
      by_contra hnot
      exact hwrote (h.own_eq hbranch hnot)
    obtain ⟨_, _, heq, hin⟩ := has_of_moved hnodup hq hin
    cases heq
    obtain ⟨_, _, _, _, _, hpart⟩ := ih hbranch hin hwrote
    exact ⟨_, _, _, _, _, hpart.around
      (fun w hw => mem_serials_of_exchange hnodup (hin.has.serials_subset hw))
      fun hin => hin.of_branch ⟨entry, mem_children before after entry branch'⟩⟩
  | @childEnded task serial walk anchor entry resume toStart before after completed _ branch branch'
      run run' e e' site h hfinished _ _ ih =>
    obtain ⟨hserial, hchildren⟩ := List.nodup_cons.mp hnodup
    have hmem := mem_children before after entry branch
    have hbranch := Child.nodup_serials hchildren hmem
    have hin : q.serial ∈ branch.serials := by
      by_contra hnot
      exact hwrote (h.own_eq hbranch hnot)
    obtain ⟨_, _, heq, hin⟩ := has_of_moved hnodup hq hin
    cases heq
    obtain ⟨_, _, _, _, _, hpart⟩ := ih hbranch hin hwrote
    exact ⟨_, _, _, _, _, hpart.last hfinished (fun _ _ => rfl)
      fun w hw hleft => nomatch mem_serials_of_exchange hnodup (hin.has.serials_subset hw) hleft⟩

theorem Has.trans {p q r : Process} (h : p.Has q) (hq : q.Has r) : p.Has r := by
  induction h with
  | self => exact hq
  | inside hruns _ ih => exact .inside hruns (ih hq)

theorem has_of_branch {q r : Process} (h : q.activity.Branches r) : q.Has r := by
  obtain ⟨serial, walk, activity⟩ := q
  exact .inside h.runs (.self _)

theorem serial_ne_of_branch {q r : Process} (hnodup : q.serials.Nodup) (h : q.activity.Branches r) :
    r.serial ≠ q.serial := by
  obtain ⟨serial, walk, activity⟩ := q
  intro heq
  exact serial_notMem hnodup (heq ▸ serials_subset h.runs r.serial_mem_serials)

theorem map_label_lives (p : Process) (parent? other? : Option Nat) :
    (p.lives parent?).map Live.label = (p.lives other?).map Live.label := by
  obtain ⟨serial, walk, activity⟩ := p
  rfl

/-- What is known of the walks of a process is known of those below it. -/
theorem numbered_of_runs {serial : Nat} {walk : Walk} {activity : Activity} {parent? : Option Nat}
    (h : (e.ledger ((mk serial walk activity).lives parent?)).Numbered) (hruns : activity.Runs q)
    (other? : Option Nat) : (e.ledger (q.lives other?)).Numbered := by
  refine h.sublist ?_
  refine List.Sublist.trans ?_ (List.sublist_cons_self _ _)
  cases activity with
  | poised | queued | working | asleep => exact hruns.elim
  | calling =>
    obtain rfl := hruns
    rw [map_label_lives q other? none]
    exact .refl _
  | inPlace =>
    obtain rfl := hruns
    rw [map_label_lives q other? (some serial)]
    exact .refl _
  | forking anchor resume toStart children completed =>
    obtain ⟨entry, hmem⟩ := hruns
    obtain ⟨before, after, rfl⟩ := List.append_of_mem hmem
    rw [map_label_lives q other? (some serial)]
    refine List.Sublist.map _ ?_
    show (q.lives (some serial)).Sublist (Child.livesIn serial (before ++ .running entry q :: after))
    rw [Child.livesIn_append]
    exact (List.sublist_append_left _ _).trans (List.sublist_append_right _ _)

theorem nodup_of_numbered {parent? : Option Nat} (h : (e.ledger (p.lives parent?)).Numbered) :
    p.serials.Nodup := by
  rw [← map_serial_lives parent? p]
  exact h.distinct

theorem numbered_of_has {parent? : Option Nat} (h : (e.ledger (p.lives parent?)).Numbered)
    (hhas : p.Has q) : ∃ other?, (e.ledger (q.lives other?)).Numbered := by
  induction hhas generalizing parent? with
  | self => exact ⟨parent?, h⟩
  | inside hruns _ ih => exact ih (numbered_of_runs h hruns none)

/-- A walk that has come to its end by a move ends with the first failure that it has recorded. -/
theorem Moves.failure_eq (h : p.Moves who site task run e p' run' e') (hfits : p.Fits)
    {parent? : Option Nat} (hnumbered : (e.ledger (p.lives parent?)).Numbered)
    (hfinished : p'.isFinished = true) :
    p'.walk.failure = (Journal.failures e'.journal.toList p.serial).head? := by
  have hbooks := h.books hfits parent? [] []
  rw [List.nil_append, List.nil_append, List.append_nil, List.append_nil] at hbooks
  have hlater := hnumbered.ops hbooks
  rw [p'.lives_of_isFinished hfinished] at hlater
  have hfailure := hlater.failure _ List.mem_cons_self
  rwa [h.serial] at hfailure

/-- A move in one branch is nothing to what is known in the others. -/
theorem Moves.tells_sibling {branch branch' r : Process} {entry entry' : String}
    {before after : List Child} (h : branch.Moves who site task run e branch' run' e')
    (hnodup : (Child.serialsIn (before ++ .running entry branch :: after)).Nodup)
    (himp : ∀ k w failure, ended k w failure → ended' k w failure)
    (hmem : .running entry' r ∈ before ∨ .running entry' r ∈ after)
    (htells : r.Tells ended e.journal.toList) : r.Tells ended' e'.journal.toList := by
  intro q hq
  have hbranch := Child.nodup_serials hnodup (mem_children before after entry branch)
  have hown := h.own_eq hbranch (notMem_serials_of_sibling hnodup hmem
    (hq.serials_subset q.serial_mem_serials))
  rw [hown]
  exact (htells q hq).mono himp

/-- A move keeps what is known of all branches. The walks that leave the tree have come to their ends
by it. -/
theorem Moves.tells {n : Nat} (h : p.Moves who site task run e p' run' e') (hfits : p.Fits)
    {parent? : Option Nat} (hnumbered : (e.ledger (p.lives parent?)).Numbered)
    (hopen : e.pool.closed = false)
    (himp : ∀ k w failure, ended k w failure → ended' k w failure)
    (hpast : ∀ k w failure, ended k w failure → k < n)
    (hends : ∀ q, p.Has q → q.isFinished = false → q.serial ∉ p'.serials →
      ended' n q.serial (Journal.failures e'.journal.toList q.serial).head?)
    (htells : p.Tells ended e.journal.toList) : p'.Tells ended' e'.journal.toList := by
  -- A walk that leaves the part that moves leaves the tree as well, since numbers are not reused:
  -- this is how `hends` gets to the hypothesis in each case.
  induction h generalizing parent? with
  | here h => exact fun q hq =>
      (h.tells (nodup_of_numbered hnumbered) hopen htells q hq).mono himp
  | @called _ serial walk job _ _ run _ _ _ _ _ _ h _ ih =>
    have hroot := numbered_of_runs hnumbered rfl none
    intro q hq
    cases hq with
    | self => exact htells _ (.self _)
    | inside hruns hq =>
      obtain rfl := hruns
      refine ih (hfits.of_has (.inside rfl (.self _))) hroot hopen (fun r hr hrunning hgone => ?_)
        (fun r hr => htells r (.inside rfl hr)) q hq
      exact hends r (.inside rfl hr) hrunning fun hin => hgone (mem_serials_of_inside
        (nodup_of_numbered hnumbered) (hr.serials_subset r.serial_mem_serials) hin)
  | returned =>
    intro q hq
    cases hq with
    | self => exact htells _ (.self _)
    | inside hruns => exact hruns.elim
  | @inPlace _ serial walk anchor entry resume branch branch' _ _ _ _ _ h _ ih =>
    have hbranch := numbered_of_runs hnumbered rfl none
    obtain ⟨hserial, hnodup⟩ := List.nodup_cons.mp (nodup_of_numbered hnumbered)
    intro q hq
    cases hq with
    | self =>
      have hown := htells _ (.self _)
      show ∃ first, _ = first ++ Journal.fork anchor [(entry, branch'.serial)] []
      rw [h.serial]
      show ∃ first, Journal.own _ serial = _
      rw [h.own_eq hnodup hserial]
      exact hown
    | inside hruns hq =>
      obtain rfl := hruns
      refine ih (hfits.of_has (.inside rfl (.self _))) hbranch hopen
        (fun r hr hrunning hgone => ?_) (fun r hr => htells r (.inside rfl hr)) q hq
      exact hends r (.inside rfl hr) hrunning fun hin => hgone (mem_serials_of_inside
        (nodup_of_numbered hnumbered) (hr.serials_subset r.serial_mem_serials) hin)
  | inPlaceEnded _ _ hclose =>
    subst hclose
    intro q hq
    cases hq with
    | self => trivial
    | inside hruns => exact hruns.elim
  | @child _ serial walk anchor entry resume toStart before after completed branch branch' _ _ e e' _ h
      _ _ ih =>
    have hmem := mem_children before after entry branch
    have hruns : Activity.Runs (.forking anchor resume toStart
      (before ++ .running entry branch :: after) completed) branch := ⟨entry, hmem⟩
    have hbranch := numbered_of_runs hnumbered hruns none
    obtain ⟨hserial, hchildren⟩ := List.nodup_cons.mp (nodup_of_numbered hnumbered)
    have hnodup := Child.nodup_serials hchildren hmem
    have hown := h.own_eq hnodup fun hin => hserial (Child.mem_serialsIn hmem hin)
    intro q hq
    cases hq with
    | self =>
      show Activity.Tells ended' (Journal.own e'.journal.toList serial) _
      rw [hown, ← List.append_nil completed]
      -- the walk that waits has written nothing down, and the branch keeps its number
      refine (htells _ (.self _)).exchange (.running entry branch') himp hpast ?_ nofun
      rw [← h.serial]
      exact .running _ _
    | inside hruns' hq =>
      obtain ⟨entry', hmem'⟩ := hruns'
      rcases mem_around.mp hmem' with heq | hsibling
      · cases heq
        refine ih (hfits.of_has (.inside hruns (.self _))) hbranch hopen
          (fun r hr hrunning hgone => ?_) (fun r hr => htells r (.inside hruns hr)) q hq
        exact hends r (.inside hruns hr) hrunning fun hin => hgone (mem_serials_of_exchange
          (nodup_of_numbered hnumbered) (hr.serials_subset r.serial_mem_serials) hin)
      · exact h.tells_sibling hchildren himp hsibling
          (fun r hr => htells r (.inside ⟨entry', mem_of_around hsibling _⟩ hr)) q hq
  | @childEnded _ serial walk anchor entry resume toStart before after completed _ branch branch' _ _ e
      e' _ h hfinished _ hcompleted _ =>
    have hmem := mem_children before after entry branch
    have hruns : Activity.Runs (.forking anchor resume toStart
      (before ++ .running entry branch :: after) completed) branch := ⟨entry, hmem⟩
    have hbranch := numbered_of_runs hnumbered hruns none
    obtain ⟨hserial, hchildren⟩ := List.nodup_cons.mp (nodup_of_numbered hnumbered)
    have hnodup := Child.nodup_serials hchildren hmem
    have hown := h.own_eq hnodup fun hin => hserial (Child.mem_serialsIn hmem hin)
    -- the branch is gone by this move, so `hends` speaks of it
    have hended : ended' n branch.serial branch'.walk.failure := by
      rw [h.failure_eq (hfits.of_has (.inside hruns (.self _))) hbranch hfinished]
      refine hends branch (.inside hruns (.self _)) ?_ fun hin => ?_
      · exact Bool.not_eq_true _ ▸ fun hover => not_moves_of_isFinished hover h
      · cases mem_serials_of_exchange (nodup_of_numbered hnumbered) branch.serial_mem_serials hin
    intro q hq
    cases hq with
    | self =>
      show Activity.Tells ended' (Journal.own e'.journal.toList serial) _
      rw [hown, hcompleted]
      refine (htells _ (.self _)).exchange (.ended entry branch'.walk.failure) himp hpast
        (.ended hended) fun hsucceeded => ?_
      rw [Option.isNone_iff_eq_none.mp hsucceeded] at hended
      exact hended
    | inside hruns' hq =>
      obtain ⟨entry', hmem'⟩ := hruns'
      have hsibling := (mem_around.mp hmem').resolve_left nofun
      exact h.tells_sibling hchildren himp hsibling
        (fun r hr => htells r (.inside ⟨entry', mem_of_around hsibling _⟩ hr)) q hq

end Process

/-! ## What a walk writes down itself -/

/-- An occurrence is none of a walk that joins branches, and a unit that it reports has not failed with
the failure of a group. What joins without branches succeeds. -/
def Occurrence.IsPlain (activity : Activity) : Occurrence → Prop
  | .unitEnded _ (some failure) => failure.origin = failure
  | .joined _ result => activity.pursuit = .idle ∧ result = none
  | .unitEnded _ none | .remark _ | .unitStarted _ | .forked .. | .branchStarted .. => True

namespace Scene

variable {s s' : Scene} {task serial : Nat}

/-- What a join publishes is there when the walk goes on. -/
theorem completed_close (s : Scene) (task serial : Nat) (anchor : String) (resume : Resume)
    (result : Option Failure) (completed : List String) :
    (s.close task serial anchor resume result completed).run.scope.completed =
      (s.run.publish result completed).scope.completed :=
  Scope.SameAt.completed_eq (Scope.Attends.sameAt (Walk.attends_forkDone
    (fun _ _ => Scope.free_completedSlot _) (fun _ _ _ _ => Scope.free_completedSlot _) ..))

theorem Writes.isPlain {o : Occurrence} (h : s.Writes task serial s' o)
    (htells : s.activity.Tells ended (Journal.own s.engine.journal.toList serial))
    (hjoins : ∀ {anchor resume children completed},
      s.activity = .forking anchor resume [] children completed → children.all Child.isOver = true →
      s' ≠ s.close task serial anchor resume (joinFailure? anchor children) completed) :
    o.IsPlain s.activity := by
  cases h with
  | joins h hover heq => exact absurd heq (hjoins h hover)
  | joinsNone h =>
    rw [h]
    exact ⟨rfl, rfl⟩
  | gaveUp h hstage =>
    rw [h] at htells
    exact htells _ hstage
  | missing => rfl
  | remark | begins | granted | ends | forked | branchStarted => trivial

/-- What a step writes down is of that kind, unless branches join by it. -/
theorem Steps.logs_plain (h : s.Steps task serial s')
    (htells : s.activity.Tells ended (Journal.own s.engine.journal.toList serial)) :
    s.engine.Logs (fun entry => entry.occurrence.IsPlain s.activity) s'.engine ∨
      ∃ anchor resume children completed,
        s.activity = .forking anchor resume [] children completed ∧
        children.all Child.isOver = true ∧
        s' = s.close task serial anchor resume (joinFailure? anchor children) completed := by
  by_cases hjoins : ∃ anchor resume children completed,
      s.activity = .forking anchor resume [] children completed ∧
        children.all Child.isOver = true ∧
        s' = s.close task serial anchor resume (joinFailure? anchor children) completed
  · exact .inr hjoins
  · exact .inl (h.logs_writes.mono fun _ ⟨_, hwrites⟩ =>
      hwrites.isPlain htells fun h hover heq => hjoins ⟨_, _, _, _, h, hover, heq⟩)

end Scene

/-- A walk that waits for branches joins them by a move of its own. All of them are over, this is the
result, and this is what they have completed. The join finds the run and the engine in the states
`found` and `engine`: a single branch, which runs in place of the walk, has made its last step just
before. -/
inductive Process.Closes (who task : Nat) (q : Process) (run : RunState) (e : Engine)
    (anchor : String) (result : Option Failure) : List String → RunState → Engine → Prop where
  | inPlace {entry : String} {resume : Resume} {branch branch' : Process} {found : RunState}
      {engine : Engine} {site : Site} (hactivity : q.activity = .inPlace anchor entry resume branch)
      (h : branch.Moves who site task run e branch' found engine)
      (hfinished : branch'.isFinished = true)
      (hresult : result = Scene.branchFailure? anchor entry branch') :
    Closes who task q run e anchor result [entry] found engine
  | forking {resume : Resume} {children : List Child} {completed : List String}
      (hactivity : q.activity = .forking anchor resume [] children completed)
      (hover : children.all Child.isOver = true)
      (hresult : result = Scene.joinFailure? anchor children) :
    Closes who task q run e anchor result completed run e

/-- What a walk writes down in a move of its own: it joins branches, or nothing of the kind. -/
theorem Process.Moves.writes {who task : Nat} {q q' : Process} {run run' : RunState} {e e' : Engine}
    {site : Site} (h : q.Moves who site task run e q' run' e') (hnodup : q.serials.Nodup)
    (htells : q.activity.Tells ended (Journal.own e.journal.toList q.serial)) :
    (∃ more, Journal.own e'.journal.toList q.serial = Journal.own e.journal.toList q.serial ++ more ∧
      ∀ o ∈ more, o.IsPlain q.activity) ∨
    ∃ anchor result completed found engine,
      q.Closes who task run e anchor result completed found engine ∧
      Journal.own e'.journal.toList q.serial =
        Journal.own e.journal.toList q.serial ++ [.joined anchor result] ∧
      (∀ w, w ≠ q.serial →
        Journal.own e'.journal.toList w = Journal.own engine.journal.toList w) ∧
      q'.serials = [q.serial] ∧
      run'.scope.completed = (found.publish result completed).scope.completed := by
  -- where the move is made further below, the walk itself writes nothing down
  have hquiet : Journal.own e'.journal.toList q.serial = Journal.own e.journal.toList q.serial →
      ∃ more, Journal.own e'.journal.toList q.serial =
        Journal.own e.journal.toList q.serial ++ more ∧ ∀ o ∈ more, o.IsPlain q.activity :=
    fun heq => ⟨[], by rw [heq, List.append_nil], nofun⟩
  cases h with
  | @here serial walk activity _ _ s h =>
    rcases h.logs_plain htells with hplain | ⟨anchor, resume, children, completed, heq, hover, rfl⟩
    · obtain ⟨more, hmore, hplain⟩ := hplain.own serial
      exact .inl ⟨more, hmore, fun o ho => (hplain o ho).elim fun _ h => h⟩
    · refine .inr ⟨anchor, _, completed, run, e, .forking heq hover rfl, ?_, fun w hne => ?_,
        rfl, Scene.completed_close ..⟩
      · exact Engine.own_record_self ..
      · exact Engine.own_record_of_ne _ _ _ hne.symm
  | called h | returned h | inPlace h =>
    obtain ⟨hserial, hbelow⟩ := List.nodup_cons.mp hnodup
    exact .inl (hquiet (h.own_eq hbelow hserial))
  | @inPlaceEnded _ serial walk anchor entry resume branch branch' _ found _ engine s site h hfinished
      hclose =>
    obtain ⟨hserial, hbelow⟩ := List.nodup_cons.mp hnodup
    subst hclose
    refine .inr ⟨anchor, _, [entry], found, engine, .inPlace rfl h hfinished rfl, ?_, fun w hne => ?_,
      rfl, Scene.completed_close ..⟩
    · refine (Engine.own_record_self ..).trans ?_
      exact congrArg (· ++ _) (h.own_eq hbelow hserial)
    · exact Engine.own_record_of_ne _ _ _ hne.symm
  | @child _ serial _ _ entry _ _ before after _ branch _ _ _ _ _ site h
  | @childEnded _ serial _ _ entry _ _ before after _ _ branch _ _ _ _ _ site h =>
    obtain ⟨hserial, hbelow⟩ := List.nodup_cons.mp hnodup
    have hmem := Process.mem_children before after entry branch
    exact .inl (hquiet (h.own_eq (Child.nodup_serials hbelow hmem)
      fun hin => hserial (Child.mem_serialsIn hmem hin)))

/-- The branches that a walk joins: each of them has come to its end before, or does so in place of the
walk. Without a failure, what they have completed are their entries in the order of their ends. -/
theorem Process.Closes.branches {who task : Nat} {q : Process} {run found : RunState}
    {e engine : Engine} {anchor : String} {result : Option Failure} {completed : List String}
    (h : q.Closes who task run e anchor result completed found engine) (hfits : q.Fits)
    {parent? : Option Nat} (hnumbered : (e.ledger (q.lives parent?)).Numbered)
    (htells : q.activity.Tells ended (Journal.own e.journal.toList q.serial))
    (fails : Nat → Option Failure) (hfails : ∀ k w failure, ended k w failure → failure = fails w)
    (hbelow : ∀ r, q.activity.Branches r →
      (Journal.failures engine.journal.toList r.serial).head? = fails r.serial) :
    ∃ first branches, branches ≠ [] ∧
      Journal.own e.journal.toList q.serial = first ++ Journal.fork anchor branches [] ∧
      (∀ branch ∈ branches, (∃ k failure, ended k branch.2 failure) ∨
        ∃ r, q.activity.Branches r ∧ r.isFinished = false ∧ r.serial = branch.2) ∧
      result = branches.findSome? (fun branch =>
        (fails branch.2).map (.branchFailed anchor branch.1)) ∧
      (result = none → ∃ order, order.Perm branches ∧ Journal.InOrder ended order ∧
        completed = order.map Prod.fst) := by
  cases h with
  | @inPlace entry resume branch branch' _ _ site hactivity h hfinished hresult =>
    obtain ⟨serial, walk, activity⟩ := q
    obtain rfl : activity = _ := hactivity
    obtain ⟨first, hown⟩ := htells
    -- the only branch comes to its end in this very move, with the failure that it has recorded
    have hfailure := h.failure_eq (hfits.of_has (.inside rfl (.self _)))
      (Process.numbered_of_runs hnumbered rfl none) hfinished
    have hrunning : branch.isFinished = false :=
      Bool.not_eq_true _ ▸ fun hover => Process.not_moves_of_isFinished hover h
    refine ⟨first, [(entry, branch.serial)], List.cons_ne_nil _ _, hown, fun b hb => ?_, ?_,
      fun _ => ⟨_, .refl _, List.pairwise_singleton _ _, rfl⟩⟩
    · obtain rfl := List.mem_singleton.mp hb
      exact .inr ⟨branch, rfl, hrunning, rfl⟩
    · rw [hresult, Scene.branchFailure?, hfailure, hbelow branch rfl, List.findSome?_singleton]
  | @forking resume children _ hactivity hover hresult =>
    rw [hactivity] at htells
    -- all branches are over before, so what the fork has been told of them is all that there is
    obtain ⟨htwo, first, branches, order, hown, htold, hcompleted, hperm, horder⟩ := htells
    refine ⟨first, branches, ?_, hown, fun b hb => .inl (Child.ended_of_over htold hover b hb), ?_,
      fun hnone => ⟨order, ?_, horder, hcompleted⟩⟩
    · rintro rfl
      obtain rfl := List.forall₂_nil_right_iff.mp htold
      cases htwo
    · rw [hresult]
      exact Child.joinFailure?_eq htold hover hfails anchor
    · rwa [Child.doneOf_eq_of_join htold hover (hresult.symm.trans hnone)] at hperm

end Workflow
