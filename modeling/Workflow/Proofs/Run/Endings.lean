import Workflow.Proofs.Expression.RoundTrip
import Workflow.Proofs.Run.Bounded
import Workflow.Proofs.Run.Courses

/-!
# Runs end

In a fair course in which units return, a run of a plan comes to its end as long as units fork nothing
(`Course.ends`). Each step outside units uses up some of what the run gets by with. So suppose that
from some moment on there is no such step. Then no unit of the run is at work any more, for it would
come to its end by one; nothing changes in the run; and in a run that has not finished there is a walk
that waits for a permit, or one that need not wait (`Process.exists_due`). The first is impossible in
such a course, the second in a fair one.

With the bounds on what a run begins this is `Executor.bounded_work`.
-/

namespace Workflow

/-- A walk that waits for nothing and nobody. -/
def Activity.IsDue : Activity → Prop
  | .poised next => next ≠ .finish
  | .forking _ _ toStart children _ => toStart ≠ [] ∨ children.all Child.isOver = true
  | .queued .. | .working .. | .asleep .. | .calling .. | .inPlace .. => False

theorem Activity.IsDue.isOwn {activity : Activity} (h : activity.IsDue) : activity.IsOwn := by
  cases activity with
  | poised | forking => trivial
  | queued | working | asleep | calling | inPlace => exact h.elim

theorem Scene.isSome_stepHere {s : Scene} (h : s.activity.IsDue) (task serial : Nat) :
    (s.stepHere task serial).isSome = true := by
  obtain ⟨walk, activity, run, engine⟩ := s
  cases activity with
  | queued | working | asleep | calling | inPlace => exact h.elim
  | poised next =>
    cases next with
    | finish => exact absurd rfl h
    | advance | execute | fork => rfl
  | forking anchor resume toStart children completed =>
    cases toStart with
    | cons => rfl
    | nil =>
      have hover : children.all Child.isOver = true := h.resolve_left (absurd rfl)
      rw [stepHere]
      simp only
      rw [if_pos hover]
      rfl

namespace Process

variable {starts steps : Nat} {p : Process}

/-- In a process that has not finished and has no unit at work, some walk waits for a permit or need
not wait. -/
theorem exists_due {onBranch : Bool} (haffords : p.Affords starts steps)
    (hstaffed : p.Staffed onBranch) (hrunning : p.isFinished = false)
    (hidle : ∀ q ∈ p.crew, ¬ q.activity.IsAtWork) (task : Nat) (run : RunState) :
    (∃ who site, p.At who task run site ∧ site.process.activity.IsDue) ∨
      ∃ post ∈ p.posts onBranch, post.begun = false := by
  induction p using induction_runs generalizing onBranch starts steps task with
  | h serial walk activity ih =>
    obtain ⟨-, hqueued, hbranches, hinside⟩ := hstaffed
    have hself := hidle _ (mem_crew_self _)
    cases activity with
    | working | asleep | calling => exact absurd trivial hself
    | inPlace => exact haffords.2.elim
    | poised next =>
      refine .inl ⟨task, _, .here, ?_⟩
      rintro rfl
      cases hrunning
    | queued u unit resume =>
      obtain rfl := hqueued u unit resume rfl
      exact .inr ⟨⟨serial, u, false⟩, List.mem_cons_self, rfl⟩
    | forking anchor resume toStart children completed =>
      by_cases hdue : (Activity.forking anchor resume toStart children completed).IsDue
      · exact .inl ⟨task, _, .here, hdue⟩
      · -- a branch is on its way
        have hover : children.all Child.isOver = false :=
          Bool.eq_false_iff.mpr fun hover => hdue (.inr hover)
        obtain ⟨child, hmem, hchild⟩ := List.all_eq_false.mp hover
        cases child with
        | refused | ended | cancelled => exact absurd rfl hchild
        | running entry branch =>
          obtain ⟨-, own, left, inner, pace, -, hinner, -, -⟩ := haffords
          obtain ⟨before, after, rfl⟩ := List.append_of_mem hmem
          obtain ⟨n, t, _, _, hbranch, -⟩ := Child.affordIn_middle.mp hinner
          have hcrew : ∀ q ∈ branch.crew, ¬ q.activity.IsAtWork := fun q hq =>
            hidle q (mem_crew.mpr (.inr ⟨branch, ⟨entry, hmem⟩, hq⟩))
          rcases ih branch ⟨entry, hmem⟩ hbranch (hinside branch ⟨entry, hmem⟩)
              (hbranches branch ⟨entry, hmem⟩) hcrew branch.serial with
            ⟨who, site, hat, hdue⟩ | ⟨post, hpost, hwaits⟩
          · exact .inl ⟨who, _, .child hmem hat, by rwa [Site.process_within]⟩
          · refine .inr ⟨post, ?_, hwaits⟩
            exact Child.mem_postsIn.mpr ⟨entry, branch, hmem, hpost⟩

/-- A walk whose branches have been given up has none. -/
theorem Affords.crew_cancelTasks (h : p.Affords starts steps) : p.cancelTasks.crew = [p.cancelTasks] := by
  obtain ⟨serial, walk, activity⟩ := p
  cases activity with
  | poised | queued | working | asleep | calling => rfl
  | inPlace => exact h.2.elim
  | forking anchor resume toStart children completed =>
    show _ :: Child.crewIn (children.map Child.cancel) = _
    have hnone : Child.crewIn (children.map Child.cancel) = [] := by
      rw [Child.crewIn_eq_flatMap, List.flatMap_map, List.flatMap_eq_nil_iff]
      intro child _
      cases child <;> rfl
    rw [hnone]
    rfl

/-- A process without branches whose unit is not at work has nothing to give up. -/
theorem Affords.cancelTasks_eq (h : p.Affords starts steps) (halone : p.crew = [p])
    (hidle : ¬ p.activity.IsAtWork) : p.cancelTasks = p := by
  obtain ⟨serial, walk, activity⟩ := p
  cases activity with
  | poised | queued => rfl
  | working | asleep | calling => exact absurd trivial hidle
  | inPlace => exact h.2.elim
  | forking anchor resume toStart children completed =>
    have hnone : ∀ child ∈ children, child.crew = [] := by
      have hcrew : Child.crewIn children = [] := (List.cons.inj halone).2
      rwa [Child.crewIn_eq_flatMap, List.flatMap_eq_nil_iff] at hcrew
    have hsame : children.map Child.cancel = children := by
      refine (List.map_congr_left fun child hchild => ?_).trans (List.map_id children)
      cases child with
      | refused | ended | cancelled => rfl
      | running entry branch =>
        have hin : branch ∈ (Child.running entry branch).crew := branch.mem_crew_self
        rw [hnone _ hchild] at hin
        cases hin
    show mk serial walk (.forking anchor resume toStart (children.map Child.cancel) completed) = _
    rw [hsame]

theorem isAtWork_cancelTasks (h : p.activity.IsAtWork) : p.cancelTasks.activity.IsAtWork := by
  obtain ⟨serial, walk, activity⟩ := p
  cases activity with
  | working | asleep | calling => trivial
  | poised | queued | inPlace | forking => exact h.elim

end Process

/-- A run has not spent anything by a move: it stays as it is, or what happens is in the middle of a
unit, or its branches are given up. -/
inductive Run.Spares (f : Run) (gives : Prop) : Run → Prop where
  | stays : Spares f gives f
  | works {g : Run} (hserial : g.root.serial = f.root.serial) (h : f.root.StaysAtWork g.root) :
    Spares f gives g
  | givesUp (h : gives) : Spares f gives { f with root := f.root.cancelTasks }

/-- A run without branches has none as long as it spares what it has. -/
theorem Run.Spares.alone {f g : Run} {gives : Prop} {starts steps : Nat} (h : f.Spares gives g)
    (haffords : f.root.Affords starts steps) (halone : f.root.crew = [f.root])
    (hnodup : g.root.serials.Nodup) : g.root.crew = [g.root] := by
  cases h with
  | stays => exact halone
  | givesUp => exact haffords.crew_cancelTasks
  | works hsame h =>
    obtain ⟨⟨q, hq, hwork⟩, hstill⟩ := h
    rw [halone, List.mem_singleton] at hq
    subst hq
    obtain ⟨r, hr, hserial, hwork'⟩ := hstill _ f.root.mem_crew_self hwork
    have hroot : r = g.root :=
      (Process.has_of_crew hr).unique (.self _) hnodup (hserial.trans hsame.symm)
    exact Process.crew_of_isAtWork (hroot ▸ hwork')

namespace Course

variable {c : Course} {size starts steps n i : Nat} {f g : Run}

theorem orderly (h : (c.executor 0).Orderly) (n : Nat) : (c.executor n).Orderly := by
  induction n with
  | zero => exact h
  | succ n ih => exact ih.move (c.moves n)

/-- The branches of runs are given up. -/
def GivesUp (c : Course) (n : Nat) : Prop := (c.executor n).GivesUpBy (c.move n)

/-- By a move a run spends some of what it gets by with, or spares it. -/
theorem spends (hx : (c.executor n).Orderly) (hunforked : (c.executor n).Unforked) (hrun : (c.executor n).runs[i]? = some f)
    (haffords : f.root.Affords starts steps) :
    ∃ g, (c.executor (n + 1)).runs[i]? = some g ∧ g.root.serial = f.root.serial ∧
      ((∃ starts' steps', g.root.Affords starts' steps' ∧ steps' < steps) ∨
        (∃ starts', g.root.Affords starts' steps) ∧ f.Spares (c.GivesUp n) g ∧
          ∀ who site, c.move n = .step who → (c.executor n).At i who site →
            site.process.activity.IsOwn → f.root.StaysAtWork g.root) := by
  obtain ⟨g, hrun', haffects⟩ := Executor.affected hx.numbered (c.moves n) hrun
  refine ⟨g, hrun', ?_⟩
  cases haffects with
  | others hstep hkeep =>
    exact ⟨rfl, .inr ⟨⟨starts, haffords⟩, .stays, fun who site hmove hat hown =>
      absurd hown (hstep who site hmove hat)⟩⟩
  | step _ hmoves =>
    have hin := Executor.mem_flows.mpr ⟨f, List.mem_of_getElem? hrun, List.mem_cons_self⟩
    obtain ⟨starts', steps', haffords', -, hspent | ⟨hle, hworks⟩⟩ :=
      hmoves.spends haffords (hunforked f hin) hx.listeners
    · exact ⟨hmoves.serial, .inl ⟨starts', steps', haffords', hspent⟩⟩
    · exact ⟨hmoves.serial, .inr ⟨⟨starts', haffords'.mono (Nat.le_refl _) hle⟩,
        .works hmoves.serial hworks, fun _ _ _ _ _ => hworks⟩⟩
  | givesUp hgives =>
    refine ⟨Process.serial_cancelTasks _, .inr ⟨⟨starts, haffords.cancelTasks⟩, .givesUp hgives,
      fun who site hmove => ?_⟩⟩
    rw [hgives.1] at hmove
    cases hmove

/-- A run that spares what it has, from some moment on, and whose branches are not given up any more,
has finished. -/
theorem isFinished_of_spares (hfair : c.IsFair) (hreturn : c.UnitsReturn)
    (hagrees : (c.executor 0).Agrees size) (hsize : 0 < size)
    (hspares : ∀ k, n ≤ k → ∀ f, (c.executor k).runs[i]? = some f → ∃ g,
      (c.executor (k + 1)).runs[i]? = some g ∧ f.Spares (f.root.crew = [f.root]) g ∧
        (∃ starts steps, f.root.Affords starts steps) ∧
          ∀ who site, c.move k = .step who → (c.executor k).At i who site →
            site.process.activity.IsOwn → f.root.StaysAtWork g.root)
    (hrun : (c.executor n).runs[i]? = some f) : f.root.isFinished = true := by
  have hall := agrees hagrees
  -- a unit that is at work stays at work
  have hworks : ∀ k q f, n ≤ k → (c.executor k).runs[i]? = some f → q ∈ f.root.crew →
      ¬ q.activity.IsAtWork := by
    intro k q f hk hrun hq hwork
    have hkeeps : ∀ last, k ≤ last → ∃ g, (c.executor last).runs[i]? = some g ∧ ∃ r ∈ g.root.crew,
        r.serial = q.serial ∧ r.activity.IsAtWork := by
      intro last hlast
      induction last, hlast using Nat.le_induction with
      | base => exact ⟨f, hrun, q, hq, rfl, hwork⟩
      | succ last hlast ih =>
        obtain ⟨g, hg, r, hr, hserial, hstill⟩ := ih
        obtain ⟨g', hg', hspares, -, -⟩ := hspares last (Nat.le_trans hk hlast) g hg
        refine ⟨g', hg', ?_⟩
        cases hspares with
        | stays => exact ⟨r, hr, hserial, hstill⟩
        | works _ h =>
          obtain ⟨r', hr', hserial', hstill'⟩ := h.2 r hr hstill
          exact ⟨r', hr', hserial'.trans hserial, hstill'⟩
        | givesUp halone =>
          rw [halone, List.mem_singleton] at hr
          subst hr
          exact ⟨_, g.root.cancelTasks.mem_crew_self, (Process.serial_cancelTasks _).trans hserial,
            Process.isAtWork_cancelTasks hstill⟩
    obtain ⟨last, hlast, hover⟩ := hreturn k q
      ⟨f, List.mem_of_getElem? hrun, Process.has_of_crew hq⟩ hwork
    obtain ⟨g, hg, r, hr, hserial, hwork'⟩ := hkeeps last hlast
    exact hover r ⟨g, List.mem_of_getElem? hg, Process.has_of_crew hr⟩ hserial hwork'
  -- so nothing changes in the run
  have hsame : ∀ k, n ≤ k → (c.executor k).runs[i]? = some f := by
    intro k hk
    induction k, hk using Nat.le_induction with
    | base => exact hrun
    | succ k hk ih =>
      obtain ⟨g, hg, hspares, ⟨_, _, haffords⟩, -⟩ := hspares k hk f ih
      cases hspares with
      | stays => exact hg
      | works _ h =>
        obtain ⟨⟨q, hq, hwork⟩, -⟩ := h
        exact absurd hwork (hworks k q f hk ih hq)
      | givesUp halone =>
        rwa [haffords.cancelTasks_eq halone (hworks k _ f hk ih f.root.mem_crew_self)] at hg
  by_contra hrunning
  rw [Bool.not_eq_true] at hrunning
  obtain ⟨-, -, -, ⟨_, _, haffords⟩, -⟩ := hspares n (Nat.le_refl n) f hrun
  have hin := List.mem_of_getElem? hrun
  rcases Process.exists_due haffords ((hall n).staffed f hin) hrunning
      (fun q hq => hworks n q f (Nat.le_refl n) hrun hq) f.root.serial f.state with
    ⟨who, site, hat, hdue⟩ | ⟨post, hpost, hwaits⟩
  · have hthere : ∀ k, n ≤ k → (c.executor k).At i who site := fun k hk => ⟨f, hsame k hk, hat⟩
    obtain ⟨k, hk, hmove⟩ := hfair n who fun k hk =>
      (hthere k hk).isSome_step (hall k).numbered (Scene.isSome_stepHere hdue _ _)
    obtain ⟨g, -, -, -, hsteps⟩ := hspares k hk f (hsame k hk)
    obtain ⟨⟨q, hq, hwork⟩, -⟩ := hsteps who site hmove (hthere k hk) hdue.isOwn
    exact hworks k q f hk (hsame k hk) hq hwork
  · refine not_queued hfair hreturn hagrees hsize post.walk n fun k hk => ?_
    refine List.mem_map.mpr ⟨post, List.mem_filter.mpr ⟨?_, by simpa using hwaits⟩, rfl⟩
    exact List.mem_flatMap.mpr ⟨f, List.mem_of_getElem? (hsame k hk), hpost⟩

/-- In a fair course in which units return, a run comes to its end that gets by with a number of
steps. -/
theorem ends (hfair : c.IsFair) (hreturn : c.UnitsReturn) (hagrees : (c.executor 0).Agrees size)
    (hsize : 0 < size) (horderly : (c.executor 0).Orderly)
    (hunforked : ∀ n, (c.executor n).Unforked)
    (hrun : (c.executor n).runs[i]? = some f) (haffords : f.root.Affords starts steps) :
    ∃ k, n ≤ k ∧ ∃ g, (c.executor k).runs[i]? = some g ∧ g.root.serial = f.root.serial ∧
      g.root.isFinished = true := by
  have hall := orderly horderly
  induction steps using Nat.strong_induction_on generalizing n f starts with
  | h steps ih =>
    by_contra hnever
    -- once it has spent something, the rest brings it to its end
    have hspares : ∀ k, n ≤ k → ∀ g, (c.executor k).runs[i]? = some g →
        g.root.serial = f.root.serial → ∀ starts, g.root.Affords starts steps → ∃ g',
          (c.executor (k + 1)).runs[i]? = some g' ∧ g'.root.serial = f.root.serial ∧
          (∃ starts, g'.root.Affords starts steps) ∧ g.Spares (c.GivesUp k) g' ∧
          ∀ who site, c.move k = .step who → (c.executor k).At i who site →
            site.process.activity.IsOwn → g.root.StaysAtWork g'.root := by
      intro k hk g hg hserial starts haffords
      obtain ⟨g', hg', hserial', hspent | hspared⟩ := spends (hall k) (hunforked k) hg haffords
      · obtain ⟨_, steps', haffords', hlt⟩ := hspent
        obtain ⟨last, hlast, final, hfinal, hsame, hfinished⟩ := ih steps' hlt hg' haffords'
        exact absurd ⟨last, by omega, final, hfinal, by rw [hsame, hserial', hserial], hfinished⟩ hnever
      · exact ⟨g', hg', hserial'.trans hserial, hspared⟩
    have hkeeps : ∀ k, n ≤ k → ∃ g, (c.executor k).runs[i]? = some g ∧
        g.root.serial = f.root.serial ∧ ∃ starts, g.root.Affords starts steps := by
      intro k hk
      induction k, hk using Nat.le_induction with
      | base => exact ⟨f, hrun, rfl, starts, haffords⟩
      | succ k hk ih =>
        obtain ⟨g, hg, hserial, starts, haffords⟩ := ih
        obtain ⟨g', hg', hserial', haffords', -⟩ := hspares k hk g hg hserial starts haffords
        exact ⟨g', hg', hserial', haffords'⟩
    have hnone : ∀ m, n ≤ m → ¬ ∀ k, m ≤ k → ∀ g, (c.executor k).runs[i]? = some g →
        c.GivesUp k → g.root.crew = [g.root] := by
      intro m hm halone
      obtain ⟨g, hg, hserial, -⟩ := hkeeps m hm
      refine hnever ⟨m, hm, g, hg, hserial, ?_⟩
      refine isFinished_of_spares hfair hreturn hagrees hsize (fun k hk g hg => ?_) hg
      obtain ⟨g', hg', hserial, starts, haffords⟩ := hkeeps k (Nat.le_trans hm hk)
      cases hg.symm.trans hg'
      obtain ⟨g', hg', -, -, hspares, hsteps⟩ :=
        hspares k (Nat.le_trans hm hk) g hg hserial starts haffords
      refine ⟨g', hg', ?_, ⟨starts, steps, haffords⟩, hsteps⟩
      cases hspares with
      | stays => exact .stays
      | works hserial h => exact .works hserial h
      | givesUp hgives => exact .givesUp (halone k hk g hg hgives)
    -- once its branches have been given up, it has none any more
    by_cases hgives : ∃ k, n ≤ k ∧ c.GivesUp k
    · obtain ⟨m, hm, hgives⟩ := hgives
      have halone : ∀ k, m + 1 ≤ k → ∀ g, (c.executor k).runs[i]? = some g →
          g.root.crew = [g.root] := by
        intro k hk
        induction k, hk using Nat.le_induction with
        | base =>
          intro g hg
          obtain ⟨g₀, hg₀, -, starts, haffords⟩ := hkeeps m hm
          obtain ⟨g₁, hg₁, haffects⟩ := Executor.affected (hall m).numbered (c.moves m) hg₀
          cases hg.symm.trans hg₁
          cases haffects with
          | others _ hkeep => exact absurd hgives hkeep
          | step hmove => cases hmove.symm.trans hgives.1
          | givesUp => exact haffords.crew_cancelTasks
        | succ k hk ih =>
          intro g hg
          have hlater : n ≤ k := Nat.le_trans hm (Nat.le_of_succ_le hk)
          obtain ⟨g₀, hg₀, hserial, starts, haffords⟩ := hkeeps k hlater
          obtain ⟨g₁, hg₁, -, -, hspares, -⟩ := hspares k hlater g₀ hg₀ hserial starts haffords
          cases hg.symm.trans hg₁
          refine hspares.alone haffords (ih g₀ hg₀) ?_
          rw [g.root.serials_eq]
          exact Executor.nodup_root (hall (k + 1)).numbered hg
      exact hnone (m + 1) (Nat.le_succ_of_le hm) fun k hk g hg _ => halone k hk g hg
    · exact hnone n (Nat.le_refl n) fun k hk _ _ hgiven => absurd ⟨k, hk, hgiven⟩ hgives

theorem exists_history (c : Course) (n : Nat) : ∃ past, (c.executor 0).History past (c.executor n) ∧
    ∀ x m, (x, m) ∈ past → ∃ k, x = c.executor k := by
  induction n with
  | zero => exact ⟨[], .start, nofun⟩
  | succ n ih =>
    obtain ⟨past, hpast, hin⟩ := ih
    refine ⟨_, hpast.move (c.moves n), fun x m hmem => ?_⟩
    rcases List.mem_append.mp hmem with hmem | hmem
    · exact hin x m hmem
    · cases List.mem_singleton.mp hmem
      exact ⟨n, rfl⟩

/-- Where all runs have finished no task has a step, and no unit is at work. So a course that comes to
that is fair, and units return in it. -/
theorem fair_of_finished (N : Nat)
    (hfinished : ∀ n, N ≤ n → ∀ run ∈ (c.executor n).runs, run.root.isFinished = true) :
    c.IsFair ∧ c.UnitsReturn := by
  constructor
  · intro n who hready
    have hsome := hready (max n N) (Nat.le_max_left ..)
    obtain ⟨y, hstep⟩ := Option.isSome_iff_exists.mp hsome
    obtain ⟨before, run, after, root, state, e', hruns, hmoved, -⟩ := Executor.exists_step hstep
    obtain ⟨site, hmoves⟩ := Process.moves_of_step hmoved
    have hover := hfinished (max n N) (Nat.le_max_right ..) run (by simp [hruns])
    exact absurd hmoves (Process.not_moves_of_isFinished hover)
  · rintro n q - -
    refine ⟨max n N, Nat.le_max_left .., fun r hhas _ hwork => ?_⟩
    obtain ⟨run, hrun, hhas⟩ := hhas
    have hover := hfinished (max n N) (Nat.le_max_right ..) run hrun
    rw [Process.has_of_isFinished hhas hover] at hwork
    obtain ⟨state, serial, walk, activity⟩ := run
    cases activity with
    | poised next => exact hwork
    | queued | working | asleep | calling | inPlace | forking => cases hover

end Course

namespace Executor

theorem follow_append (x : Executor) (moves more : List Move) :
    (x.follow (moves ++ more)).2 = ((x.follow moves).2.follow more).2 := by
  induction moves generalizing x with
  | nil => rfl
  | cons m rest ih =>
    rw [List.cons_append, follow, follow]
    split <;> exact ih _

theorem follow_cons {x y : Executor} {m : Move} (h : x.move m = some y) (moves : List Move) :
    (x.follow (m :: moves)).2 = (y.follow moves).2 := by
  rw [follow, h]

/-- The course of an executor that makes these moves, as far as it can, and waits from then on. -/
def course (x : Executor) (moves : List Move) : Course where
  executor n := (x.follow (moves.take n)).2
  move n := (moves[n]?.filter fun m => ((x.follow (moves.take n)).2.move m).isSome).getD (.wait 0)
  moves n := by
    rw [List.take_add_one, follow_append]
    rcases moves[n]? with _ | m
    · rfl
    · rcases hmove : (x.follow (moves.take n)).2.move m with _ | y
      · -- a move that is not possible is left out
        have hstays : ((x.follow (moves.take n)).2.follow [m]).2 = (x.follow (moves.take n)).2 := by
          rw [follow, hmove]
          rfl
        rw [show (some m).toList = [m] from rfl, hstays, Option.filter, hmove]
        rfl
      · rw [show (some m).toList = [m] from rfl, follow_cons hmove, Option.filter, hmove]
        exact hmove

/-- A course that waits for good when all runs have finished is fair, and units return in it. -/
theorem fair_course (x : Executor) (moves : List Move)
    (h : ∀ run ∈ (x.follow moves).2.runs, run.root.isFinished = true) :
    (x.course moves).IsFair ∧ (x.course moves).UnitsReturn := by
  refine Course.fair_of_finished moves.length fun n hn => ?_
  show ∀ run ∈ (x.follow (moves.take n)).2.runs, _
  rwa [List.take_of_length_le hn]

end Executor

/-! ## What a run comes to -/

/-- The position at which a walk is about to decide. -/
def Process.decidesAt? : Process → Option Nat
  | .mk _ walk (.poised .advance) => some walk.position
  | _ => none

/-- The position whose unit a walk is about to execute as the unit of that position. -/
def Process.opensAt? : Process → Option Nat
  | .mk _ walk (.poised (.execute _ .unit)) => some walk.position
  | _ => none

section

variable {p : Process} {i : Nat}

theorem Process.rank_of_decidesAt (h : p.decidesAt? = some i) :
    p.rank = 3 * i ∧ p.activity.IsOwn := by
  unfold decidesAt? at h
  split at h
  · cases h
    exact ⟨rfl, trivial⟩
  · cases h

theorem Process.rank_of_opensAt (h : p.opensAt? = some i) :
    p.rank = 3 * i + 1 ∧ p.activity.IsOwn := by
  unfold opensAt? at h
  split at h
  · cases h
    exact ⟨rfl, trivial⟩
  · cases h

end

namespace Executor

/-- The work of a run is bounded, and the run ends. As long as no unit leaves anything to be forked,
a run of a flow that was read begins three units at most for each position of its plan, those
counted that are routed to and those in branches; whenever a walk of it decides at a position, it does
so further on than before, and so it begins no unit twice as that of its position; and in a fair course
in which units return it comes to its end. -/
theorem bounded_work {config : Config} {registry : Registry} {listeners : Listeners}
    {start : Executor} {text : String} {node : Node} {plan : Plan}
    (hbuild : build config registry listeners = .ok start) (hlisteners : listeners.Abide)
    (hparse : Expression.parse text = .ok node) (hcompile : node.compile? = some plan) :
    (∀ (past : List (Executor × Move)) (x : Executor) (f : Run), start.History past x →
      (∀ y m, (y, m) ∈ past → y.Unforked) → f ∈ x.flows → f.root.walk.plan = plan →
      begun past f.root.serial ≤ 3 * plan.length ∧
      ∀ (m : Move) (q : Process) (y z : Executor) (more : List (Executor × Move)) (g : Run)
        (r : Process), x.Unforked → x.Takes m f.root.serial q → x.move m = some y →
        y.History more z → (∀ y m, (y, m) ∈ more → y.Unforked) → g ∈ z.flows →
        g.root.serial = f.root.serial → r ∈ g.root.crew → r.serial = q.serial →
        (∀ i j, q.decidesAt? = some i → r.decidesAt? = some j → i < j) ∧
        ∀ i j, q.opensAt? = some i → r.opensAt? = some j → i < j) ∧
    ∀ c : Course, c.executor 0 = start → c.IsFair → c.UnitsReturn → (∀ n, (c.executor n).Unforked) →
      ∀ (n i : Nat) (f : Run), (c.executor n).runs[i]? = some f → f.root.walk.plan = plan →
        ∃ k, n ≤ k ∧ ∃ g, (c.executor k).runs[i]? = some g ∧ g.root.serial = f.root.serial ∧
          g.root.isFinished = true := by
  obtain ⟨known, hknown, hwell⟩ := wellFormed_of_parse hparse
  cases hcompile.symm.trans hknown
  have hgrouped := hwell.grouped
  have horderly := orderly_build hbuild hlisteners
  have hnone := flows_build hbuild
  refine ⟨fun past x f hpast hunforked hf hplan => ⟨?_, ?_⟩, ?_⟩
  · exact hpast.begun_le hnone horderly hunforked hgrouped hf hplan
  · intro m q y z more g r hx htakes hmove hmore hlater hg hnumber hr hserial
    obtain ⟨starts, steps, haffords, -⟩ :=
      (hpast.affords hnone horderly hunforked hgrouped).1 f hf rfl hplan
    -- the rank orders what is done at one position, so that of two like moves the later is further
    -- on
    have hpasses (hown : q.activity.IsOwn) (hrank : q.rank % 3 ≠ 2) : q.rank < r.rank :=
      htakes.onward (hpast.orderly horderly) hx hf haffords hown hrank hmove hmore hlater hg hnumber hr
        hserial
    refine ⟨fun i j hi hj => ?_, fun i j hi hj => ?_⟩
    · obtain ⟨hrank, hown⟩ := Process.rank_of_decidesAt hi
      have hlt := hpasses hown (by omega)
      rw [hrank, (Process.rank_of_decidesAt hj).1] at hlt
      omega
    · obtain ⟨hrank, hown⟩ := Process.rank_of_opensAt hi
      have hlt := hpasses hown (by omega)
      rw [hrank, (Process.rank_of_opensAt hj).1] at hlt
      omega
  · rintro c rfl hfair hreturn hunforked n i f hrun hplan
    obtain ⟨past, hpast, hin⟩ := c.exists_history n
    have hbefore : ∀ x m, (x, m) ∈ past → x.Unforked := by
      intro x m hmem
      obtain ⟨k, rfl⟩ := hin x m hmem
      exact hunforked k
    have hf : f ∈ (c.executor n).flows :=
      mem_flows.mpr ⟨f, List.mem_of_getElem? hrun, List.mem_cons_self⟩
    obtain ⟨starts, steps, haffords, -⟩ :=
      (hpast.affords hnone horderly hbefore hgrouped).1 f hf rfl hplan
    exact Course.ends hfair hreturn (agrees_build hbuild) (Nat.le_max_right ..) horderly hunforked hrun
      haffords

/-- Units that route to each other in a circle. One of them is executed in two branches at once. -/
theorem bounded_work_circle : ∃ (c : Course) (past : List (Executor × Move)) (x : Executor) (f : Run),
    c.executor 0 = doing [("a", .signalRoute "b" .done), ("b", .signalRoute "a" .done),
      ("c", .signalRoute "d" .done), ("d", .signalRoute "c" .done)] ∧
    c.IsFair ∧ c.UnitsReturn ∧ (c.executor 0).History past x ∧ x.runs = [f] ∧
    Node.compile? (.sequence [.unit "a", .unit "b", .parallel [.unit "c", .unit "d"], .unit "a"]) =
      some f.root.walk.plan ∧
    f.state.unitNames = ["a", "b", "c", "d", "d", "a"] ∧ begun past f.root.serial = 6 ∧
    begun past f.root.serial ≤ 3 * f.root.walk.plan.length ∧
    ∃ k g, (c.executor k).runs[0]? = some g ∧ g.root.serial = f.root.serial ∧
      g.root.isFinished = true := by
  let units : List (String × Behavior) := [("a", .signalRoute "b" .done), ("b", .signalRoute "a" .done),
    ("c", .signalRoute "d" .done), ("d", .signalRoute "c" .done)]
  let node : Node := .sequence [.unit "a", .unit "b", .parallel [.unit "c", .unit "d"], .unit "a"]
  let plan := node.compile?.getD {}
  let y := ((doing units).launch (.plan plan) {}).2
  let moves : List Move := (List.replicate 30 0 ++ List.replicate 20 1 ++ List.replicate 20 2 ++
    List.replicate 20 0).map .step
  let after := (y.follow moves).1
  let last := (y.follow moves).2
  let c := (doing units).course (.launch (.plan plan) {} :: moves)
  have hparse : Expression.parse "a -> b -> (c, d) -> a" = .ok node := by decide +kernel
  have hregistry : (units.foldl (fun r u => r.addUnit u.1 (.doing u.1 u.2)) ({} : Registry)).Abides
      Law.unforked := by
    refine Registry.abides_foldl_doing ?_ nofun
    simpa [units] using ⟨.signalRoute trivial .done, .signalRoute trivial .done,
      .signalRoute trivial .done, .signalRoute trivial .done⟩
  have hunforked {past : List (Executor × Move)} {x : Executor} (h : (doing units).History past x) :
      x.Unforked := h.unforked (build_doing units) hregistry nofun
  -- the schedule is run once, and all that is said of its end is read off here
  obtain ⟨hruns, hbegun⟩ : (last.runs.map fun run =>
        (run.root.serial, run.root.isFinished, run.state.unitNames)) =
        [(0, true, ["a", "b", "c", "d", "d", "a"])] ∧
      begun ([(doing units, .launch (.plan plan) {})] ++ after) 0 = 6 := by
    decide +kernel
  have hafter : y.History after last := history_follow y moves
  have hfirst : y.runs[0]? = some ⟨{ context := {}, scopeId := 1 }, .ofPlan 0 plan false⟩ := rfl
  have hmove : (doing units).move (.launch (.plan plan) {}) = some y := rfl
  have hy : (doing units).History [(doing units, .launch (.plan plan) {})] y := .move .start hmove
  have hzero : c.executor 0 = doing units := rfl
  have hone : c.executor 1 = y := follow_cons hmove []
  obtain ⟨f, hf, hobserved⟩ := List.map_eq_singleton_iff.mp hruns
  obtain ⟨hserial, hfinished, hnames⟩ : f.root.serial = 0 ∧ f.root.isFinished = true ∧
      f.state.unitNames = ["a", "b", "c", "d", "d", "a"] := by
    simpa using hobserved
  have hover : ∀ run ∈ last.runs, run.root.isFinished = true := by
    rw [hf]
    simpa using hfinished
  rw [← show _ = last from follow_cons hmove moves] at hover
  -- behind its last move the course stands still with all runs over, so nobody is left to wait
  obtain ⟨hfair, hreturn⟩ : c.IsFair ∧ c.UnitsReturn := fair_course _ _ hover
  clear_value c after last
  have hpast := hy.trans hafter
  have hcourse : ∀ n, (c.executor n).Unforked := fun n => by
    obtain ⟨past, hpast, -⟩ := c.exists_history n
    exact hunforked (hzero ▸ hpast)
  have hpasts : ∀ x m, (x, m) ∈ [(doing units, .launch (.plan plan) {})] ++ after →
      x.Unforked := by
    intro x m hmem
    obtain ⟨before, _, _, -, hbefore, -⟩ := hpast.split hmem
    exact hunforked hbefore
  obtain ⟨hfits, hsound⟩ := sound_build (build_doing units)
  obtain ⟨f', hf', hplan⟩ := hafter.keeps_plan (hy.fits hfits) (hy.numbered hfits hsound.toNumbered)
    hfirst
  rw [hf] at hf'
  cases hf'
  have hcompile : node.compile? = some f.root.walk.plan := hplan ▸ rfl
  have hin : f ∈ last.flows :=
    mem_flows.mpr ⟨f, hf ▸ List.mem_singleton_self f, List.mem_cons_self⟩
  obtain ⟨hbounded, hends⟩ := bounded_work (build_doing units) nofun hparse hcompile
  obtain ⟨k, -, g, hg, hsame, hover⟩ :=
    hends c hzero hfair hreturn hcourse 1 0 _ (hone ▸ hfirst) hplan.symm
  exact ⟨c, _, last, f, hzero, hfair, hreturn, hzero ▸ hpast, hf, hcompile, hnames, hserial ▸ hbegun,
    (hbounded _ _ f hpast hpasts hin rfl).1, k, g, hg, hsame.trans hserial.symm, hover⟩

end Executor

end Workflow
