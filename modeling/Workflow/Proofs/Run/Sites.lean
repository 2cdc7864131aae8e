import Mathlib.Data.List.Pairwise
import Workflow.Proofs.Run.Bookkeeping

/-!
# Where a task stands

What happens in a run is said of sites: the walk of a process that is at work, what it is busy with,
and the walks around it. `Process.At who task p run site` says that the task `who` has a walk at
`site`, in a process `p` of the task `task`. Since no number is given out twice, there is one site at
which a task can do something (`Process.At.unique`), and when the task moves, it moves there
(`Process.Moves.site_eq`). `Executor.affected` says what a move of an executor does to one of its
runs.
-/

namespace Workflow

namespace Process

def activity : Process → Activity
  | .mk _ _ activity => activity

theorem activity_of_isFinished {p : Process} (h : p.isFinished = true) :
    p.activity = .poised .finish := by
  obtain ⟨serial, walk, rfl⟩ := exists_of_isFinished h
  rfl

theorem serial_cancelTasks (p : Process) : p.cancelTasks.serial = p.serial := by
  obtain ⟨serial, walk, activity⟩ := p
  rfl

theorem walk_cancelTasks (p : Process) : p.cancelTasks.walk = p.walk := by
  obtain ⟨serial, walk, activity⟩ := p
  rfl

/-- The task `who` has a walk at a site, in a process of the task `task`. -/
inductive At (who : Nat) : Nat → Process → RunState → Site → Prop where
  | here {p : Process} {run : RunState} : At who who p run (.here p run)
  | called {task serial : Nat} {walk : Walk} {job : Job} {inner run : RunState} {root : Process}
      {next : RunSummary → Behavior} {site : Site} (h : At who task root inner site) :
    At who task (.mk serial walk (.calling job inner root next)) run site.called
  | inPlace {task serial : Nat} {walk : Walk} {anchor entry : String} {resume : Resume}
      {branch : Process} {run : RunState} {site : Site} (h : At who task branch run site) :
    At who task (.mk serial walk (.inPlace anchor entry resume branch)) run (site.within serial)
  | child {task serial : Nat} {walk : Walk} {anchor entry : String} {resume : Resume}
      {toStart : List (Branch Plan)} {children : List Child} {completed : List String}
      {branch : Process} {run : RunState} {site : Site} (hmem : .running entry branch ∈ children)
      (h : At who branch.serial branch run site) :
    At who task (.mk serial walk (.forking anchor resume toStart children completed)) run
      (site.within serial)

end Process

/-- A walk does something itself, and does not wait for what runs in its place. -/
def Activity.IsOwn : Activity → Prop
  | .calling .. | .inPlace .. => False
  | .poised _ | .queued .. | .working .. | .asleep .. | .forking .. => True

/-- What a walk waits for that does something itself are branches. -/
theorem Activity.IsOwn.branches {activity : Activity} {q : Process} (h : activity.IsOwn)
    (hruns : activity.Runs q) : activity.Branches q := by
  cases activity with
  | calling | inPlace => exact h.elim
  | poised | queued | working | asleep | forking => exact hruns

namespace Site

@[simp] theorem process_within (serial : Nat) (s : Site) :
    (s.within serial).process = s.process := by
  unfold within
  split <;> rfl

theorem within_of_pos {serial : Nat} {s : Site} (h : 0 < s.depth) : s.within serial = s :=
  if_neg (Nat.ne_of_gt h)

@[simp] theorem process_called (s : Site) : s.called.process = s.process := rfl

@[simp] theorem run_within (serial : Nat) (s : Site) : (s.within serial).run = s.run := by
  unfold within
  split <;> rfl

@[simp] theorem run_called (s : Site) : s.called.run = s.run := rfl

@[simp] theorem depth_within (serial : Nat) (s : Site) : (s.within serial).depth = s.depth := by
  unfold within
  split <;> rfl

theorem mem_walks_within {serial w : Nat} {s : Site} :
    w ∈ (s.within serial).walks ↔ (s.depth = 0 ∧ w = serial) ∨ w ∈ s.walks := by
  unfold within
  split
  · next hdepth => simp [hdepth]
  · next hdepth => simp [hdepth]

end Site

/-- Who does something where it stands does it itself. -/
theorem Scene.Steps.isOwn {s s' : Scene} {task serial : Nat} (h : s.Steps task serial s') :
    s.activity.IsOwn := by
  cases h with
  | advance h | missing h | queues h | begins h | granted h | does h | sleeps h | wakes h | opens h
  | runs h | tidies h | ends h | fails h | gaveUp h | forksNone h | forksOne h | forks h | starts h
  | refuses h | joins h =>
    rw [h]
    trivial

/-- A task moves where it stands. -/
theorem Process.Moves.at {who task : Nat} {p p' : Process} {run run' : RunState} {e e' : Engine}
    {site : Site} (h : p.Moves who site task run e p' run' e') :
    p.At who task run site ∧ site.process.activity.IsOwn := by
  induction h with
  | here h => exact ⟨.here, h.isOwn⟩
  | called _ _ ih | returned _ _ ih => exact ⟨.called ih.1, ih.2⟩
  | inPlace _ _ ih | inPlaceEnded _ _ _ ih =>
    exact ⟨.inPlace ih.1, by rw [Site.process_within]; exact ih.2⟩
  | child _ _ _ ih | childEnded _ _ _ _ ih =>
    exact ⟨.child (List.mem_append_right _ List.mem_cons_self) ih.1,
      by rw [Site.process_within]; exact ih.2⟩

/-! ## Finding sites -/

mutual

/-- The sites at which a task has a walk. -/
def Process.sites (who task : Nat) (run : RunState) : Process → List Site
  | .mk serial walk activity =>
    (if who = task then [.here (.mk serial walk activity) run] else []) ++
      activity.sites who task serial run

def Activity.sites (who task serial : Nat) (run : RunState) : Activity → List Site
  | .calling _ inner root _ => (root.sites who task inner).map .called
  | .inPlace _ _ _ branch => (branch.sites who task run).map (.within serial)
  | .forking _ _ _ children _ => (Child.sitesIn who run children).map (.within serial)
  | .poised _ | .queued .. | .working .. | .asleep .. => []

def Child.sitesIn (who : Nat) (run : RunState) : List Child → List Site
  | [] => []
  | child :: rest => child.sites who run ++ Child.sitesIn who run rest

def Child.sites (who : Nat) (run : RunState) : Child → List Site
  | .running _ process => process.sites who process.serial run
  | .refused _ | .ended .. | .cancelled _ => []

end

mutual

theorem Process.at_of_mem_sites {who task : Nat} {site : Site} (run : RunState) :
    (p : Process) → site ∈ p.sites who task run → p.At who task run site
  | .mk serial walk activity, h => by
    rw [Process.sites, List.mem_append] at h
    rcases h with h | h
    · split at h
      · next heq =>
        cases List.mem_singleton.mp h
        subst heq
        exact .here
      · cases h
    · match activity, h with
      | .calling job inner root next, h =>
        obtain ⟨below, hmem, rfl⟩ := List.mem_map.mp h
        exact .called (Process.at_of_mem_sites inner root hmem)
      | .inPlace anchor entry resume branch, h =>
        obtain ⟨below, hmem, rfl⟩ := List.mem_map.mp h
        exact .inPlace (Process.at_of_mem_sites run branch hmem)
      | .forking anchor resume toStart children completed, h =>
        obtain ⟨below, hmem, rfl⟩ := List.mem_map.mp h
        obtain ⟨entry, branch, hbranch, hat⟩ := Child.at_of_mem_sitesIn run children hmem
        exact .child hbranch hat

theorem Child.at_of_mem_sitesIn {who : Nat} {site : Site} (run : RunState) :
    (children : List Child) → site ∈ Child.sitesIn who run children →
      ∃ entry branch, Child.running entry branch ∈ children ∧
        branch.At who branch.serial run site
  | [], h => by cases h
  | child :: rest, h => by
    rw [Child.sitesIn, List.mem_append] at h
    rcases h with h | h
    · match child, h with
      | .running entry branch, h =>
        exact ⟨entry, branch, List.mem_cons_self, Process.at_of_mem_sites run branch h⟩
    · obtain ⟨entry, branch, hmem, hat⟩ := Child.at_of_mem_sitesIn run rest h
      exact ⟨entry, branch, List.mem_cons_of_mem _ hmem, hat⟩

end

theorem Child.sitesIn_eq_flatMap (who : Nat) (run : RunState) (children : List Child) :
    sitesIn who run children = children.flatMap (sites who run) := by
  induction children with
  | nil => rfl
  | cons child rest ih => rw [sitesIn, List.flatMap_cons, ih]

theorem Process.mem_sites_of_at {who task : Nat} {p : Process} {run : RunState} {site : Site}
    (h : p.At who task run site) : site ∈ p.sites who task run := by
  induction h with
  | @here p run =>
    obtain ⟨serial, walk, activity⟩ := p
    rw [sites, if_pos rfl]
    exact List.mem_cons_self
  | called _ ih | inPlace _ ih => exact List.mem_append_right _ (List.mem_map_of_mem ih)
  | child hmem _ ih =>
    refine List.mem_append_right _ (List.mem_map_of_mem ?_)
    rw [Child.sitesIn_eq_flatMap]
    exact List.mem_flatMap.mpr ⟨_, hmem, ih⟩

/-! ## Numbers in a tree -/

mutual

/-- The numbers of the walks in a process. -/
def Process.serials : Process → List Nat
  | .mk serial _ activity => serial :: activity.serials

def Activity.serials : Activity → List Nat
  | .calling _ _ root _ => root.serials
  | .inPlace _ _ _ branch => branch.serials
  | .forking _ _ _ children _ => Child.serialsIn children
  | .poised _ | .queued .. | .working .. | .asleep .. => []

def Child.serialsIn : List Child → List Nat
  | [] => []
  | child :: rest => child.serials ++ Child.serialsIn rest

def Child.serials : Child → List Nat
  | .running _ process => process.serials
  | .refused _ | .ended .. | .cancelled _ => []

end

mutual

/-- They are the numbers that the ledger has. -/
theorem Process.map_serial_lives (parent? : Option Nat) :
    (p : Process) → (p.lives parent?).map Live.serial = p.serials
  | .mk serial walk activity => by
    rw [Process.lives, Process.serials, List.map_cons, Activity.map_serial_lives serial activity]
    rfl

theorem Activity.map_serial_lives (serial : Nat) :
    (activity : Activity) → (activity.lives serial).map Live.serial = activity.serials
  | .calling _ _ root _ => Process.map_serial_lives none root
  | .inPlace _ _ _ branch => Process.map_serial_lives (some serial) branch
  | .forking _ _ _ children _ => Child.map_serial_livesIn serial children
  | .poised _ | .queued .. | .working .. | .asleep .. => rfl

theorem Child.map_serial_livesIn (serial : Nat) :
    (children : List Child) → (Child.livesIn serial children).map Live.serial =
      Child.serialsIn children
  | [] => rfl
  | child :: rest => by
    rw [Child.livesIn, Child.serialsIn, List.map_append, Child.map_serial_livesIn serial rest]
    congr 1
    cases child with
    | running entry process => exact Process.map_serial_lives (some serial) process
    | refused | ended | cancelled => rfl

end

theorem Run.Launched.serials {run : Run} {serial : Nat} (h : run.Launched serial) :
    run.root.serials = [serial] := by
  cases h <;> rfl

theorem Child.serialsIn_eq_flatMap (children : List Child) :
    serialsIn children = children.flatMap serials := by
  induction children with
  | nil => rfl
  | cons child rest ih => rw [serialsIn, List.flatMap_cons, ih]

/-- A number that two branches share is that of the same branch. -/
theorem Child.eq_of_mem_serials {children : List Child} {child other : Child} {w : Nat}
    (hnodup : (serialsIn children).Nodup) (hchild : child ∈ children) (hother : other ∈ children)
    (hw : w ∈ child.serials) (hw' : w ∈ other.serials) : child = other := by
  rw [serialsIn_eq_flatMap, List.nodup_flatMap] at hnodup
  by_contra hne
  have hsymm : Std.Symm (Function.onFun List.Disjoint serials) := ⟨fun _ _ h _ hw hw' => h hw' hw⟩
  have hdisjoint := hnodup.2.forall hchild hother hne
  exact hdisjoint hw hw'

theorem Child.nodup_serials {children : List Child} {child : Child}
    (hnodup : (serialsIn children).Nodup) (hchild : child ∈ children) : child.serials.Nodup := by
  rw [serialsIn_eq_flatMap, List.nodup_flatMap] at hnodup
  exact hnodup.1 child hchild

theorem Child.mem_serialsIn {children : List Child} {entry : String} {branch : Process} {w : Nat}
    (hmem : .running entry branch ∈ children) (hw : w ∈ branch.serials) :
    w ∈ serialsIn children := by
  rw [serialsIn_eq_flatMap]
  exact List.mem_flatMap.mpr ⟨_, hmem, hw⟩

namespace Process

variable {who task : Nat} {p : Process} {run : RunState} {site other : Site}

theorem serials_eq (p : Process) : p.serials = p.serial :: p.activity.serials := by
  obtain ⟨serial, walk, activity⟩ := p
  rfl

theorem serial_mem_serials (p : Process) : p.serial ∈ p.serials := by
  rw [p.serials_eq]
  exact List.mem_cons_self

/-- A task that has a walk in a process is that of the process or of a branch in it. -/
theorem At.mem (h : p.At who task run site) : who = task ∨ who ∈ p.activity.serials := by
  induction h with
  | here => exact .inl rfl
  | @called task serial walk job inner run root next site h ih =>
    rcases ih with rfl | hmem
    · exact .inl rfl
    · refine .inr ?_
      show who ∈ root.serials
      rw [root.serials_eq]
      exact List.mem_cons_of_mem _ hmem
  | @inPlace task serial walk anchor entry resume branch run site h ih =>
    rcases ih with rfl | hmem
    · exact .inl rfl
    · refine .inr ?_
      show who ∈ branch.serials
      rw [branch.serials_eq]
      exact List.mem_cons_of_mem _ hmem
  | @child task serial walk anchor entry resume toStart children completed branch run site hmem h ih =>
    refine .inr (Child.mem_serialsIn hmem ?_)
    rw [branch.serials_eq]
    rcases ih with rfl | hin
    · exact List.mem_cons_self
    · exact List.mem_cons_of_mem _ hin

theorem At.mem_serials (h : p.At who p.serial run site) : who ∈ p.serials := by
  rw [p.serials_eq]
  rcases h.mem with rfl | hmem
  · exact List.mem_cons_self
  · exact List.mem_cons_of_mem _ hmem

/-- A site is in the process. -/
theorem At.has (h : p.At who task run site) : p.Has site.process := by
  induction h with
  | here => exact .self _
  | called _ ih => exact .inside rfl ih
  | inPlace _ ih =>
    rw [Site.process_within]
    exact .inside rfl ih
  | child hmem _ ih =>
    rw [Site.process_within]
    exact .inside ⟨_, hmem⟩ ih

/-- What is around a site is in the process. -/
theorem At.walks_subset (h : p.At who task run site) : ∀ w ∈ site.walks, w ∈ p.serials := by
  induction h with
  | @here p run =>
    intro w hw
    rw [List.mem_singleton.mp hw, p.serials_eq]
    exact List.mem_cons_self
  | called _ ih => exact fun w hw => List.mem_cons_of_mem _ (ih w hw)
  | inPlace _ ih =>
    intro w hw
    rcases Site.mem_walks_within.mp hw with ⟨-, rfl⟩ | hw
    · exact List.mem_cons_self
    · exact List.mem_cons_of_mem _ (ih w hw)
  | child hmem _ ih =>
    intro w hw
    rcases Site.mem_walks_within.mp hw with ⟨-, rfl⟩ | hw
    · exact List.mem_cons_self
    · exact List.mem_cons_of_mem _ (Child.mem_serialsIn hmem (ih w hw))

/-- A site that is in no flow which a unit runs is in the run of the process, whose own walk is
around it. -/
theorem At.of_depth_eq_zero (h : p.At who task run site) (hdepth : site.depth = 0) :
    site.run = run ∧ p.serial ∈ site.walks := by
  induction h with
  | here => exact ⟨rfl, List.mem_singleton_self _⟩
  | called => cases hdepth
  | inPlace _ ih | child _ _ ih =>
    rw [Site.depth_within] at hdepth
    rw [Site.run_within]
    exact ⟨(ih hdepth).1, Site.mem_walks_within.mpr (.inl ⟨hdepth, rfl⟩)⟩

/-- The walks around such a site begin with that of the process. -/
theorem At.head?_walks (h : p.At who task run site) (hdepth : site.depth = 0) :
    site.walks.head? = some p.serial := by
  cases h with
  | here => rfl
  | called => cases hdepth
  | inPlace | child =>
    rw [Site.depth_within] at hdepth
    rw [Site.within, if_pos hdepth]
    rfl

/-- What runs in the place of a walk has the numbers below the walk, its own apart. -/
theorem nodup_activity {root : Process} (hnodup : (task :: root.serials).Nodup) :
    (task :: root.activity.serials).Nodup := by
  rw [root.serials_eq] at hnodup
  exact hnodup.sublist ((List.sublist_cons_self _ _).cons_cons task)

/-- A branch has a task of its own, and has nothing to do with that of the walk that waits for it. -/
theorem At.ne_task {children : List Child} {entry : String} {branch : Process}
    (h : branch.At who branch.serial run site) (hmem : .running entry branch ∈ children)
    (hnodup : (task :: Child.serialsIn children).Nodup) :
    who ≠ task ∧ (branch.serial :: branch.activity.serials).Nodup := by
  obtain ⟨htask, hinside⟩ := List.nodup_cons.mp hnodup
  refine ⟨?_, branch.serials_eq ▸ Child.nodup_serials hinside hmem⟩
  rintro rfl
  exact htask (Child.mem_serialsIn hmem h.mem_serials)

/-- There is one site at which a task can do something. -/
theorem At.unique (hnodup : (task :: p.activity.serials).Nodup) (h : p.At who task run site)
    (hown : site.process.activity.IsOwn) (hother : p.At who task run other)
    (hother' : other.process.activity.IsOwn) : site = other := by
  induction h generalizing other with
  | here =>
    cases hother with
    | here => rfl
    | called | inPlace => exact hown.elim
    -- the task of the process would be in one of its branches
    | child hmem h => exact absurd rfl (h.ne_task hmem hnodup).1
  | @called task serial walk job inner run root next site h ih =>
    cases hother with
    | here => exact hother'.elim
    | called hother => rw [ih (nodup_activity hnodup) hown hother hother']
  | @inPlace task serial walk anchor entry resume branch run site h ih =>
    cases hother with
    | here => exact hother'.elim
    | inPlace hother =>
      rw [Site.process_within] at hown hother'
      rw [ih (nodup_activity hnodup) hown hother hother']
  | @child task serial walk anchor entry resume toStart children completed branch run site hmem h ih =>
    cases hother with
    | here => exact absurd rfl (h.ne_task hmem hnodup).1
    | child hmem' hother =>
      have hchildren : (Child.serialsIn children).Nodup := (List.nodup_cons.mp hnodup).2
      have hsame := Child.eq_of_mem_serials hchildren hmem hmem' h.mem_serials hother.mem_serials
      cases hsame
      rw [Site.process_within] at hown hother'
      rw [ih (h.ne_task hmem hnodup).2 hown hother hother']

end Process

/-! ## Runs of an executor -/

namespace Executor

variable {x y : Executor} {m : Move} {i : Nat} {run : Run}

/-- The task `who` has a walk at a site of a run. -/
def At (x : Executor) (i who : Nat) (site : Site) : Prop :=
  ∃ run, x.runs[i]? = some run ∧ run.root.At who run.root.serial run.state site

/-- The sites at which a task has a walk in a run. -/
def sites (x : Executor) (i who : Nat) : List Site :=
  match x.runs[i]? with
  | some run => run.root.sites who run.root.serial run.state
  | none => []

theorem at_of_mem_sites {who : Nat} {site : Site} (h : site ∈ x.sites i who) : x.At i who site := by
  unfold sites at h
  split at h
  · next run hrun => exact ⟨run, hrun, Process.at_of_mem_sites run.state run.root h⟩
  · cases h

theorem mem_sites_of_at {who : Nat} {site : Site} (h : x.At i who site) : site ∈ x.sites i who := by
  obtain ⟨run, hrun, hat⟩ := h
  unfold sites
  rw [hrun]
  exact Process.mem_sites_of_at hat

/-- What a move does to a run. -/
inductive Affects (x : Executor) (m : Move) (y : Executor) (i : Nat) (run : Run) : Run → Prop where
  /-- It is a move of others. -/
  | others (hstep : ∀ who site, m = .step who → x.At i who site → ¬ site.process.activity.IsOwn)
      (hkeep : ¬ x.GivesUpBy m) : Affects x m y i run run
  | step {who : Nat} {site : Site} {run' : Run} (hmove : m = .step who)
      (hmoves : run.root.Moves who site run.root.serial run.state x.engine run'.root run'.state
        y.engine) : Affects x m y i run run'
  /-- The branches of the run are given up. -/
  | givesUp (hgives : x.GivesUpBy m) :
    Affects x m y i run { run with root := run.root.cancelTasks }

theorem nodup_serials (h : x.ledger.Numbered) :
    (x.runs.flatMap fun run => run.root.serials).Nodup := by
  have hdistinct : (x.lives.map Live.serial).Nodup := h.distinct
  rw [lives, List.map_flatMap] at hdistinct
  simpa only [Process.map_serial_lives] using hdistinct

/-- The walks of a run have different numbers. -/
theorem nodup_of_mem (h : x.ledger.Numbered) (hrun : run ∈ x.runs) : run.root.serials.Nodup :=
  (List.nodup_flatMap.mp (nodup_serials h)).1 run hrun

/-- No run has a walk of another run. -/
theorem not_mem_serials_of_other {before after : List Run} {other : Run} {w : Nat}
    (h : x.ledger.Numbered) (hruns : x.runs = before ++ run :: after)
    (hother : other ∈ before ∨ other ∈ after) (hw : w ∈ other.root.serials) :
    w ∉ run.root.serials := by
  have hnodup := nodup_serials h
  rw [hruns] at hnodup
  exact not_mem_of_nodup_flatMap (f := fun run : Run => run.root.serials) hnodup hother hw

/-- A number belongs to one run. -/
theorem index_eq_of_mem_serials (h : x.ledger.Numbered) {j w : Nat} {other : Run}
    (hrun : x.runs[i]? = some run) (hother : x.runs[j]? = some other) (hw : w ∈ run.root.serials)
    (hw' : w ∈ other.root.serials) : i = j := by
  have hnodup := nodup_serials h
  rw [List.nodup_flatMap] at hnodup
  obtain ⟨hi, rfl⟩ := List.getElem?_eq_some_iff.mp hrun
  obtain ⟨hj, rfl⟩ := List.getElem?_eq_some_iff.mp hother
  have hpairs := List.pairwise_iff_getElem.mp hnodup.2
  rcases Nat.lt_trichotomy i j with hlt | heq | hlt
  · exact absurd hw' (hpairs i j hi hj hlt hw)
  · exact heq
  · exact absurd hw (hpairs j i hj hi hlt hw')

theorem nodup_root (h : x.ledger.Numbered) (hrun : x.runs[i]? = some run) :
    (run.root.serial :: run.root.activity.serials).Nodup := by
  rw [← run.root.serials_eq]
  exact nodup_of_mem h (List.mem_of_getElem? hrun)

/-- There is one site at which a task can do something. -/
theorem At.unique (h : x.ledger.Numbered) {j who : Nat} {site other : Site} (hat : x.At i who site)
    (hown : site.process.activity.IsOwn) (hother : x.At j who other)
    (hother' : other.process.activity.IsOwn) : i = j ∧ site = other := by
  obtain ⟨run, hrun, hat⟩ := hat
  obtain ⟨run', hrun', hother⟩ := hother
  obtain rfl := index_eq_of_mem_serials h hrun hrun' hat.mem_serials hother.mem_serials
  obtain rfl : run = run' := Option.some.inj (hrun.symm.trans hrun')
  exact ⟨rfl, hat.unique (nodup_root h hrun) hown hother hother'⟩

/-- What can become of a run by a move. -/
theorem affected (h : x.ledger.Numbered) (hmove : x.move m = some y)
    (hrun : x.runs[i]? = some run) :
    ∃ run', y.runs[i]? = some run' ∧ x.Affects m y i run run' := by
  have hothers : (∀ who, m ≠ .step who) → ¬ x.GivesUpBy m → x.Affects m y i run run :=
    fun hstep hkeep => .others (fun who _ heq => absurd heq (hstep who)) hkeep
  cases m with
  -- the run in which the task has moved, or another one, in which it has no site
  | step who =>
    have hkeep : ¬ x.GivesUpBy (.step who) := fun hgives => by cases hgives.1
    obtain ⟨before, mover, after, root, state, e', hruns, hstep, rfl⟩ := exists_step hmove
    obtain ⟨site, hmoves⟩ := Process.moves_of_step hstep
    have hmover : x.runs[before.length]? = some mover := by simp [hruns]
    by_cases heq : i = before.length
    -- the run that is asked for is the one that moves
    · subst heq
      obtain rfl : mover = run := Option.some.inj (hmover.symm.trans hrun)
      exact ⟨⟨state, root⟩, by simp, .step rfl hmoves⟩
    · refine ⟨run, ?_, .others ?_ hkeep⟩
      · rw [hruns] at hrun
        rcases Nat.lt_or_gt_of_ne heq with hlt | hlt
        · rw [List.getElem?_append_left hlt] at hrun ⊢
          exact hrun
        · rw [List.getElem?_append_right (Nat.le_of_lt hlt)] at hrun ⊢
          rwa [List.getElem?_cons, if_neg (by omega)] at hrun ⊢
      · rintro _ other ⟨⟩ ⟨run', hrun', hat⟩ -
        obtain rfl : run = run' := Option.some.inj (hrun.symm.trans hrun')
        exact heq (index_eq_of_mem_serials h hrun hmover hat.mem_serials hmoves.at.1.mem_serials)
  | wait milliseconds | beginShutdown =>
    cases hmove
    exact ⟨run, hrun, hothers (fun _ heq => by cases heq) fun hgives => by cases hgives.1⟩
  | launch request context =>
    cases hmove
    refine ⟨run, ?_, hothers (fun _ heq => by cases heq) fun hgives => by cases hgives.1⟩
    rcases x.launch_cases request context with
      ⟨outcome, plans, hlaunch⟩ | ⟨root, plans, -, hlaunch⟩
    · rw [hlaunch]
      exact hrun
    · rw [hlaunch]
      exact (List.getElem?_append_left (List.getElem?_eq_some_iff.mp hrun).1).trans hrun
  | settleShutdown =>
    cases hmove
    by_cases hgives : x.GivesUpBy .settleShutdown
    · refine ⟨_, ?_, .givesUp hgives⟩
      obtain ⟨-, deadline, hshutdown, hflight, hclock⟩ := hgives
      unfold settleShutdown
      rw [hshutdown]
      simp only [if_neg hflight, if_pos hclock]
      show (x.runs.map fun run => { run with root := run.root.cancelTasks })[i]? = _
      rw [List.getElem?_map, hrun]
      rfl
    · refine ⟨run, ?_, hothers (fun _ heq => by cases heq) hgives⟩
      rcases x.settleShutdown_cases with ⟨shutdown, heq⟩ | ⟨hgives', -⟩
      · rw [heq]
        exact hrun
      · exact absurd hgives' hgives

/-- Who is at a site where something is to be done does it there. -/
theorem Affects.site_eq {who : Nat} {site : Site} {run' : Run} (h : x.ledger.Numbered)
    (hrun : x.runs[i]? = some run) (haffects : x.Affects (.step who) y i run run')
    (hat : x.At i who site) (hown : site.process.activity.IsOwn) :
    run.root.Moves who site run.root.serial run.state x.engine run'.root run'.state y.engine := by
  obtain ⟨run₀, hrun₀, hat⟩ := hat
  obtain rfl : run = run₀ := Option.some.inj (hrun.symm.trans hrun₀)
  cases haffects with
  | others hstep => exact absurd hown (hstep who site rfl ⟨run, hrun, hat⟩)
  | @step who' other _ heq hmoves =>
    cases heq
    obtain ⟨hother, hother'⟩ := hmoves.at
    rwa [hat.unique (nodup_root h hrun) hown hother hother']
  | givesUp hgives => cases hgives.1

end Executor

end Workflow
