import Mathlib.Data.List.Induction
import Workflow.Proofs.Run.Sites

/-!
# Forks and joins in order

What happens in the walks of an executor is nested like the walks themselves. `Journal.Ordered` says
so of a journal: a walk executes one unit at a time, a branch begins after its walk has come to the
fork, and everything that happens in the branch, and in the branches of its own forks, lies between
that beginning and the next thing that its walk does. In between, every unit that was started ends.

A journal that agrees with a ledger is ordered (`Ledger.Sound.ordered`), so every schedule that
gives no branches up keeps the order (`Executor.History.nested`). The theorem also says what becomes
of a branch: it is left to itself until it comes to its own end, whatever its siblings do.
-/

namespace Workflow

/-! ## Order in a journal -/

namespace Journal

/-- A walk has started another one as a branch. -/
def Begot (journal : List JournalEntry) (parent branch : Nat) : Prop :=
  ∃ task entry, ⟨task, parent, .branchStarted entry branch⟩ ∈ journal

/-- A walk is another one, or a branch of it, or a branch of its branches, at any depth. -/
def Below (journal : List JournalEntry) : Nat → Nat → Prop :=
  Relation.ReflTransGen (Begot journal)

/-- Every unit that a walk starts within a part of a journal ends there. -/
def Settles (part : List JournalEntry) (walk : Nat) : Prop :=
  ∀ before after task u, part = before ++ ⟨task, walk, .unitStarted u⟩ :: after →
    ∃ task' failure, ⟨task', walk, .unitEnded u failure⟩ ∈ after

/-- The entry of a branch that an occurrence starts. -/
def entry? : Occurrence → Option String
  | .branchStarted entry _ => some entry
  | .remark _ | .unitStarted _ | .unitEnded .. | .forked .. | .joined .. => none

/-- All that a walk does within a part of a journal is to start branches. -/
def OnlyStarts (part : List JournalEntry) (walk : Nat) : Prop :=
  ∀ e ∈ part, e.walk = walk → ∃ entry branch, e.occurrence = .branchStarted entry branch

/-- The walks of a journal execute one unit at a time and are nested. -/
structure Ordered (journal : List JournalEntry) (closed : Bool) : Prop where
  /-- Between two starts of a walk, the first unit has ended. -/
  oneByOne : ∀ before middle after task task' w u v,
    journal = before ++ ⟨task, w, .unitStarted u⟩ :: (middle ++ ⟨task', w, .unitStarted v⟩ ::
      after) →
    ∃ task failure, ⟨task, w, .unitEnded u failure⟩ ∈ middle
  /-- A branch is one of a fork that its walk has come to and not gone on from. -/
  reached : ∀ before after task w entry branch,
    journal = before ++ ⟨task, w, .branchStarted entry branch⟩ :: after →
    ∃ earlier later task anchor entries, before = earlier ++ ⟨task, w, .forked anchor entries⟩ ::
      later ∧ entry ∈ entries ∧ OnlyStarts later w
  /-- Nothing happens in a branch, or below, before it has been started. -/
  started : ∀ before after task w entry branch,
    journal = before ++ ⟨task, w, .branchStarted entry branch⟩ :: after →
    ∀ v, Below journal branch v → ∀ e ∈ before, e.walk ≠ v
  /-- When a walk goes on, every unit in the branch, and below, has ended, and nothing happens there
  any more. -/
  within : ∀ before middle after task task' w entry branch o,
    journal = before ++ ⟨task, w, .branchStarted entry branch⟩ :: (middle ++ ⟨task', w, o⟩ ::
      after) →
    (∀ entry branch, o ≠ .branchStarted entry branch) →
    ∀ v, Below journal branch v → Settles middle v ∧ ∀ e ∈ after, e.walk ≠ v
  /-- As long as the pool is open, a fork that joins has started all its branches. -/
  complete : closed = false → ∀ before middle after task task' w anchor anchor' entries failure,
    journal = before ++ ⟨task, w, .forked anchor entries⟩ :: (middle ++
      ⟨task', w, .joined anchor' failure⟩ :: after) →
    OnlyStarts middle w → (own middle w).filterMap entry? = entries

theorem mem_own {journal : List JournalEntry} {w : Nat} {o : Occurrence} :
    o ∈ own journal w ↔ ∃ task, ⟨task, w, o⟩ ∈ journal := by
  constructor
  · intro hmem
    obtain ⟨⟨task, walk, occurrence⟩, he, ho⟩ := List.mem_filterMap.mp hmem
    simp only at ho
    split at ho
    · next heq =>
      cases ho
      exact ⟨task, heq ▸ he⟩
    · cases ho
  · rintro ⟨task, hmem⟩
    exact List.mem_filterMap.mpr ⟨_, hmem, if_pos rfl⟩

theorem own_cons_self {journal : List JournalEntry} {task w : Nat} {o : Occurrence} :
    own (⟨task, w, o⟩ :: journal) w = o :: own journal w := by
  simp [own]

/-- Where the occurrences of a walk can be split, the journal can. -/
theorem exists_split_of_own {journal : List JournalEntry} {w : Nat} {o : Occurrence}
    {first second : List Occurrence} (h : own journal w = first ++ o :: second) :
    ∃ before task after, journal = before ++ ⟨task, w, o⟩ :: after ∧ own before w = first ∧
      own after w = second := by
  obtain ⟨before, rest, rfl, hbefore, hrest⟩ := List.filterMap_eq_append_iff.mp h
  obtain ⟨others, ⟨task, walk, occurrence⟩, after, rfl, hothers, ho, hafter⟩ :=
    List.filterMap_eq_cons_iff.mp hrest
  simp only at ho
  split at ho
  · next heq =>
    cases ho
    subst heq
    refine ⟨before ++ others, task, after, by simp, ?_, hafter⟩
    have hnil : own others walk = [] := List.filterMap_eq_nil_iff.mpr hothers
    have hown : own before walk = first := hbefore
    rw [own_append, hnil, List.append_nil, hown]
  · cases ho

end Journal

/-! ## Pursuits over several occurrences -/

namespace Pursuit

variable {refused : Bool} {pursuit pursuit' : Pursuit} {o : Occurrence}
  {own first second : List Occurrence}

theorem exists_through (h : through refused pursuit (first ++ o :: second) = some pursuit') :
    ∃ p q, through refused pursuit first = some p ∧ p.after refused o = some q ∧
      through refused q second = some pursuit' := by
  rw [through_append] at h
  obtain ⟨p, hp, hrest⟩ := Option.bind_eq_some_iff.mp h
  rw [through, List.foldlM_cons] at hrest
  obtain ⟨q, hq, hsecond⟩ := Option.bind_eq_some_iff.mp hrest
  exact ⟨p, q, hp, hq, hsecond⟩

theorem after_unitStarted {u : String}
    (h : pursuit.after refused (.unitStarted u) = some pursuit') :
    pursuit = .idle ∧ pursuit' = .unit u := by
  cases pursuit <;> cases h
  exact ⟨rfl, rfl⟩

theorem after_forked {anchor : String} {entries : List String}
    (h : pursuit.after refused (.forked anchor entries) = some pursuit') :
    pursuit' = .fork anchor entries [] := by
  cases pursuit <;> cases h
  rfl

/-- A walk comes out of a unit only by its end. -/
theorem exists_unitEnded {u : String} (h : through refused (.unit u) own = some pursuit)
    (hne : pursuit ≠ .unit u) : ∃ failure, Occurrence.unitEnded u failure ∈ own := by
  induction own with
  | nil =>
    cases h
    exact absurd rfl hne
  | cons o rest ih =>
    rw [through, List.foldlM_cons] at h
    obtain ⟨p, hp, hrest⟩ := Option.bind_eq_some_iff.mp h
    cases o with
    | remark text =>
      cases hp
      obtain ⟨failure, hmem⟩ := ih hrest
      exact ⟨failure, List.mem_cons_of_mem _ hmem⟩
    | unitEnded v failure =>
      simp only [after] at hp
      split at hp
      · next heq =>
        subst heq
        exact ⟨failure, List.mem_cons_self⟩
      · cases hp
    | unitStarted | forked | branchStarted | joined => cases hp

/-- A walk comes out of a fork only by joining; until then it does nothing but start branches. -/
theorem fork_cases {anchor : String} {entries started : List String}
    (h : through refused (.fork anchor entries started) own = some pursuit) :
    (∃ failure, Occurrence.joined anchor failure ∈ own) ∨
      pursuit = .fork anchor entries (started ++ own.filterMap Journal.entry?) ∧
        ∀ o ∈ own, ∃ entry branch, o = .branchStarted entry branch := by
  induction own generalizing started with
  | nil =>
    cases h
    exact .inr ⟨by simp, by simp⟩
  | cons o rest ih =>
    rw [through, List.foldlM_cons] at h
    obtain ⟨p, hp, hrest⟩ := Option.bind_eq_some_iff.mp h
    cases o with
    | branchStarted entry branch =>
      simp only [after] at hp
      split at hp <;> cases hp
      rcases ih hrest with ⟨failure, hmem⟩ | ⟨hfork, hall⟩
      · exact .inl ⟨failure, List.mem_cons_of_mem _ hmem⟩
      · refine .inr ⟨by simp [hfork, Journal.entry?], fun o ho => ?_⟩
        rcases List.mem_cons.mp ho with rfl | ho
        · exact ⟨entry, branch, rfl⟩
        · exact hall o ho
    | joined anchor' failure =>
      simp only [after] at hp
      split at hp
      · next heq =>
        obtain ⟨rfl, -⟩ := heq
        exact .inl ⟨failure, List.mem_cons_self⟩
      · cases hp
    | remark | unitStarted | unitEnded | forked => cases hp

/-- A walk is in the middle of a fork since it came to it. -/
theorem exists_forked {anchor : String} {entries started : List String}
    (h : through refused .idle own = some (.fork anchor entries started)) :
    ∃ first second, own = first ++ .forked anchor entries :: second ∧
      ∀ o ∈ second, ∃ entry branch, o = .branchStarted entry branch := by
  -- by induction from the end: a fork is entered by a walk in the middle of nothing, and left only
  -- by its join
  induction own using List.reverseRecOn generalizing started with
  | nil => cases h
  | append_singleton rest o ih =>
    obtain ⟨p, q, hp, hq, hlast⟩ := exists_through h
    cases hlast
    cases p with
    | idle =>
      cases o with
      | forked anchor' entries' =>
        cases hq
        exact ⟨rest, [], rfl, by simp⟩
      | remark | unitStarted | unitEnded | branchStarted | joined => cases hq
    | unit u =>
      cases o with
      | unitEnded v failure =>
        simp only [after] at hq
        split at hq <;> cases hq
      | remark | unitStarted | forked | branchStarted | joined => cases hq
    | fork anchor' entries' started' =>
      cases o with
      | branchStarted entry branch =>
        simp only [after] at hq
        split at hq <;> cases hq
        obtain ⟨first, second, rfl, hall⟩ := ih hp
        refine ⟨first, second ++ [.branchStarted entry branch], by simp, fun o ho => ?_⟩
        rcases List.mem_append.mp ho with ho | ho
        · exact hall o ho
        · exact ⟨entry, branch, List.mem_singleton.mp ho⟩
      | joined anchor'' failure =>
        simp only [after] at hq
        split at hq <;> cases hq
      | remark | unitStarted | unitEnded | forked => cases hq

end Pursuit

/-! ## A ledger in order -/

namespace Ledger.Sound

open Journal

variable {l : Ledger} {before middle after : List JournalEntry} {task w v branch : Nat}
  {entry : String}

/-- What a walk has done is in order, and if it is in the middle of something, it is on its way. -/
theorem exists_pursuit (h : l.Sound) (w : Nat) :
    ∃ pursuit, Pursuit.through l.closed .idle (own l.journal w) = some pursuit ∧
      (pursuit = .idle ∨ ∃ live ∈ l.lives, live.serial = w) := by
  by_cases hlive : ∃ live ∈ l.lives, live.serial = w
  · obtain ⟨live, hmem, rfl⟩ := hlive
    exact ⟨live.pursuit, h.pursuit live hmem, .inr ⟨live, hmem, rfl⟩⟩
  · exact ⟨.idle, h.gone w fun live hmem heq => hlive ⟨live, hmem, heq⟩, .inl rfl⟩

/-- The pursuit of a walk before and after one of its occurrences. -/
theorem through_at (h : l.Sound) {o : Occurrence}
    (hjournal : l.journal = before ++ ⟨task, w, o⟩ :: after) :
    ∃ p q r, Pursuit.through l.closed .idle (own before w) = some p ∧
      p.after l.closed o = some q ∧ Pursuit.through l.closed q (own after w) = some r ∧
      Pursuit.through l.closed .idle (own l.journal w) = some r := by
  obtain ⟨r, hr, -⟩ := h.exists_pursuit w
  have hsplit := hr
  rw [hjournal, own_append, own_cons_self] at hsplit
  obtain ⟨p, q, hp, hq, hrest⟩ := Pursuit.exists_through hsplit
  exact ⟨p, q, r, hp, hq, hrest, hr⟩

/-- A unit that was started in a walk which is in the middle of nothing has ended. -/
theorem exists_ended (h : l.Sound) {u : String}
    (hjournal : l.journal = before ++ ⟨task, w, .unitStarted u⟩ :: after)
    (hidle : Pursuit.through l.closed .idle (own l.journal w) = some .idle) :
    ∃ task failure, ⟨task, w, .unitEnded u failure⟩ ∈ after := by
  obtain ⟨p, q, r, -, hq, hrest, hr⟩ := h.through_at hjournal
  obtain ⟨-, rfl⟩ := Pursuit.after_unitStarted hq
  obtain rfl : r = .idle := Option.some.inj (hr.symm.trans hidle)
  obtain ⟨failure, hmem⟩ := Pursuit.exists_unitEnded hrest (by simp)
  obtain ⟨task', hmem⟩ := mem_own.mp hmem
  exact ⟨task', failure, hmem⟩

theorem oneByOne (h : l.Sound) {task' : Nat} {u u' : String}
    (hjournal : l.journal = before ++ ⟨task, w, .unitStarted u⟩ ::
      (middle ++ ⟨task', w, .unitStarted u'⟩ :: after)) :
    ∃ task failure, ⟨task, w, .unitEnded u failure⟩ ∈ middle := by
  obtain ⟨p, q, r, -, hq, hrest, -⟩ := h.through_at hjournal
  obtain ⟨-, rfl⟩ := Pursuit.after_unitStarted hq
  rw [own_append, own_cons_self] at hrest
  obtain ⟨p', q', hmiddle, hq', -⟩ := Pursuit.exists_through hrest
  obtain ⟨rfl, -⟩ := Pursuit.after_unitStarted hq'
  obtain ⟨failure, hmem⟩ := Pursuit.exists_unitEnded hmiddle (by simp)
  obtain ⟨task'', hmem⟩ := mem_own.mp hmem
  exact ⟨task'', failure, hmem⟩

theorem reached (h : l.Sound)
    (hjournal : l.journal = before ++ ⟨task, w, .branchStarted entry branch⟩ :: after) :
    ∃ earlier later task anchor entries, before = earlier ++ ⟨task, w, .forked anchor entries⟩ ::
      later ∧ entry ∈ entries ∧ OnlyStarts later w := by
  obtain ⟨p, q, r, hp, hq, -, -⟩ := h.through_at hjournal
  obtain ⟨anchor, entries, started, rfl, hentry, -⟩ := Pursuit.exists_fork_of_branchStarted hq
  obtain ⟨first, second, hown, hstarts⟩ := Pursuit.exists_forked hp
  obtain ⟨earlier, task', later, rfl, -, hlater⟩ := exists_split_of_own hown
  refine ⟨earlier, later, task', anchor, entries, rfl, hentry, fun e he hwalk => ?_⟩
  subst hwalk
  exact hstarts _ (hlater ▸ mem_own.mpr ⟨e.task, he⟩)

/-- Where a later entry can be found in a journal, behind everything that comes first. -/
theorem exists_split_of_mem {journal : List JournalEntry} {x e : JournalEntry}
    (hjournal : journal = before ++ x :: after) (hmem : e ∈ journal) (hnot : e ∉ before) :
    ∃ more rest, journal = (before ++ more) ++ e :: rest := by
  subst hjournal
  rcases List.mem_append.mp hmem with hmem | hmem
  · exact absurd hmem hnot
  · obtain ⟨more, rest, heq⟩ := List.append_of_mem hmem
    exact ⟨more, rest, by rw [heq, List.append_assoc]⟩

theorem started_below (h : l.Sound)
    (hjournal : l.journal = before ++ ⟨task, w, .branchStarted entry branch⟩ :: after)
    (hbelow : Below l.journal branch v) : ∀ e ∈ before, e.walk ≠ v := by
  induction hbelow with
  | refl => exact fun e he => ((h.started _ _ _ _ _ hjournal rfl).new e he).1
  | @tail u v _ hbegot ih =>
    obtain ⟨task', entry', hmem⟩ := hbegot
    -- the branch was started in a walk of which nothing is written before
    obtain ⟨more, rest, hsplit⟩ := exists_split_of_mem hjournal hmem fun hin => ih _ hin rfl
    exact fun e he => ((h.started _ _ _ _ _ hsplit rfl).new e (List.mem_append_left _ he)).1

/-- A walk is not below a branch of its own. -/
theorem ne_of_below (h : l.Sound)
    (hjournal : l.journal = before ++ ⟨task, w, .branchStarted entry branch⟩ :: after)
    (hbelow : Below l.journal branch v) : w ≠ v := by
  obtain ⟨earlier, later, task', anchor, entries, hbefore, -, -⟩ := h.reached hjournal
  exact h.started_below hjournal hbelow ⟨task', w, .forked anchor entries⟩ (by simp [hbefore])

/-- A branch of a walk that is in the middle of nothing is over. -/
theorem gone_of_idle (h : l.Sound) (hbegot : Begot l.journal w branch)
    (hidle : Pursuit.through l.closed .idle (own l.journal w) = some .idle) :
    ∀ live ∈ l.lives, live.serial ≠ branch := by
  obtain ⟨task, entry, hmem⟩ := hbegot
  obtain ⟨before, after, hjournal⟩ := List.append_of_mem hmem
  obtain ⟨p, q, r, -, hq, hrest, hr⟩ := h.through_at hjournal
  obtain ⟨anchor, entries, started, -, -, rfl⟩ := Pursuit.exists_fork_of_branchStarted hq
  obtain rfl : r = .idle := Option.some.inj (hr.symm.trans hidle)
  intro live hlive heq
  rcases Pursuit.fork_cases hrest with ⟨failure, hjoined⟩ | ⟨hfork, -⟩
  · obtain ⟨task', hjoined⟩ := mem_own.mp hjoined
    exact ((h.started _ _ _ _ _ hjournal rfl).waited live hlive heq).2 _ hjoined rfl _ _ rfl
  · cases hfork

/-- Whatever is below a walk that is in the middle of nothing is in the middle of nothing. -/
theorem idle_below (h : l.Sound)
    (hidle : Pursuit.through l.closed .idle (own l.journal w) = some .idle)
    (hbelow : Below l.journal w v) :
    Pursuit.through l.closed .idle (own l.journal v) = some .idle := by
  induction hbelow with
  | refl => exact hidle
  | tail _ hbegot ih => exact h.gone _ (h.gone_of_idle hbegot ih)

/-- Behind the end of a fork, nothing happens in its branches and below. -/
theorem over_below (h : l.Sound) {task' : Nat} {anchor : String} {failure : Option Failure}
    (hjournal : l.journal = before ++ ⟨task, w, .branchStarted entry branch⟩ ::
      (middle ++ ⟨task', w, .joined anchor failure⟩ :: after))
    (hbelow : Below l.journal branch v) :
    (∀ live ∈ l.lives, live.serial ≠ v) ∧ ∀ e ∈ after, e.walk ≠ v := by
  induction hbelow with
  | refl =>
    have hsettled := h.started _ _ _ _ _ hjournal rfl
    refine ⟨fun live hlive heq => ?_, hsettled.quiet middle _ after anchor failure rfl rfl rfl⟩
    exact (hsettled.waited live hlive heq).2 ⟨task', w, .joined anchor failure⟩ (by simp) rfl _ _
      rfl
  | @tail u v hbelow hbegot ih =>
    obtain ⟨hgone, hafter⟩ := ih
    have hidle := h.gone u hgone
    refine ⟨h.gone_of_idle hbegot hidle, ?_⟩
    obtain ⟨task'', entry', hmem⟩ := hbegot
    have hne := h.ne_of_below hjournal hbelow
    -- the branch of `u` was started before the fork of `w` ended, and so `u` has joined before that
    have hin : ⟨task'', u, .branchStarted entry' v⟩ ∈ middle := by
      rw [hjournal] at hmem
      simp only [List.mem_append, List.mem_cons, JournalEntry.mk.injEq, reduceCtorEq, and_false,
        false_or] at hmem
      rcases hmem with hmem | ⟨-, heq, -⟩ | hmem | hmem
      · exact absurd rfl (h.started_below hjournal hbelow _ hmem)
      · exact absurd heq.symm hne
      · exact hmem
      · exact absurd rfl (hafter _ hmem)
    obtain ⟨first, second, rfl⟩ := List.append_of_mem hin
    have hsplit : l.journal = (before ++ ⟨task, w, .branchStarted entry branch⟩ :: first) ++
        ⟨task'', u, .branchStarted entry' v⟩ ::
          (second ++ ⟨task', w, .joined anchor failure⟩ :: after) := by
      rw [hjournal]
      simp
    obtain ⟨p, q, r, -, hq, hrest, hr⟩ := h.through_at hsplit
    obtain ⟨anchor', entries, started, -, -, rfl⟩ := Pursuit.exists_fork_of_branchStarted hq
    obtain rfl : r = .idle := Option.some.inj (hr.symm.trans hidle)
    rcases Pursuit.fork_cases hrest with ⟨failure', hjoined⟩ | ⟨hfork, -⟩
    · obtain ⟨task₃, hjoined⟩ := mem_own.mp hjoined
      have hin : ⟨task₃, u, .joined anchor' failure'⟩ ∈ second := by
        simp only [List.mem_append, List.mem_cons, JournalEntry.mk.injEq] at hjoined
        rcases hjoined with hjoined | ⟨-, heq, -⟩ | hjoined
        · exact hjoined
        · exact absurd heq.symm hne
        · exact absurd rfl (hafter _ hjoined)
      obtain ⟨third, fourth, rfl⟩ := List.append_of_mem hin
      have hover := (h.started _ _ _ _ _ hsplit rfl).quiet third
        ⟨task₃, u, .joined anchor' failure'⟩
        (fourth ++ ⟨task', w, .joined anchor failure⟩ :: after) anchor' failure' (by simp) rfl rfl
      exact fun e he => hover e (by simp [he])
    · cases hfork

theorem within (h : l.Sound) {task' : Nat} {o : Occurrence}
    (hjournal : l.journal = before ++ ⟨task, w, .branchStarted entry branch⟩ ::
      (middle ++ ⟨task', w, o⟩ :: after))
    (hother : ∀ entry branch, o ≠ .branchStarted entry branch)
    (hbelow : Below l.journal branch v) : Settles middle v ∧ ∀ e ∈ after, e.walk ≠ v := by
  have hne := h.ne_of_below hjournal hbelow
  -- the walk has joined by the time it goes on, perhaps just then
  have hjoined : ∃ anchor failure, .joined anchor failure ∈ own (middle ++ [⟨task', w, o⟩]) w := by
    obtain ⟨p, q, r, -, hq, hrest, -⟩ := h.through_at hjournal
    obtain ⟨anchor, entries, started, -, -, rfl⟩ := Pursuit.exists_fork_of_branchStarted hq
    rw [List.append_cons middle, own_append, Pursuit.through_append] at hrest
    obtain ⟨p', hp', -⟩ := Option.bind_eq_some_iff.mp hrest
    rcases Pursuit.fork_cases hp' with ⟨failure, hmem⟩ | ⟨-, hstarts⟩
    · exact ⟨anchor, failure, hmem⟩
    · obtain ⟨entry', branch', heq⟩ := hstarts o (mem_own.mpr ⟨task', by simp⟩)
      exact absurd heq (hother entry' branch')
  obtain ⟨anchor, failure, hjoined⟩ := hjoined
  obtain ⟨task'', hjoined⟩ := mem_own.mp hjoined
  obtain ⟨first, second, hsplit⟩ := List.append_of_mem hjoined
  have hclosed : l.journal = before ++ ⟨task, w, .branchStarted entry branch⟩ ::
      (first ++ ⟨task'', w, .joined anchor failure⟩ :: (second ++ after)) := by
    rw [hjournal, List.append_cons middle, hsplit, List.append_assoc, List.cons_append]
  have hover := h.over_below hclosed hbelow
  have hafter : ∀ e ∈ after, e.walk ≠ v := fun e he => hover.2 e (List.mem_append_right _ he)
  refine ⟨?_, hafter⟩
  rintro first' second' task₃ u rfl
  have hsplit' : l.journal = (before ++ ⟨task, w, .branchStarted entry branch⟩ :: first') ++
      ⟨task₃, v, .unitStarted u⟩ :: (second' ++ ⟨task', w, o⟩ :: after) := by
    rw [hjournal]
    simp
  obtain ⟨task₀, failure', hmem⟩ := h.exists_ended hsplit' (h.gone v hover.1)
  refine ⟨task₀, failure', ?_⟩
  simp only [List.mem_append, List.mem_cons, JournalEntry.mk.injEq] at hmem
  rcases hmem with hmem | ⟨-, heq, -⟩ | hmem
  · exact hmem
  · exact absurd heq.symm hne
  · exact absurd rfl (hafter _ hmem)

theorem complete (h : l.Sound) (hopen : l.closed = false) {task' : Nat} {anchor anchor' : String}
    {entries : List String} {failure : Option Failure}
    (hjournal : l.journal = before ++ ⟨task, w, .forked anchor entries⟩ ::
      (middle ++ ⟨task', w, .joined anchor' failure⟩ :: after))
    (honly : OnlyStarts middle w) : (own middle w).filterMap entry? = entries := by
  obtain ⟨p, q, r, -, hq, hrest, -⟩ := h.through_at hjournal
  obtain rfl := Pursuit.after_forked hq
  rw [own_append, own_cons_self] at hrest
  obtain ⟨p', q', hmiddle, hq', -⟩ := Pursuit.exists_through hrest
  rcases Pursuit.fork_cases hmiddle with ⟨failure', hmem⟩ | ⟨rfl, -⟩
  · obtain ⟨task'', hmem⟩ := mem_own.mp hmem
    obtain ⟨_, _, heq⟩ := honly _ hmem rfl
    cases heq
  · rw [hopen] at hq'
    simp only [Pursuit.after] at hq'
    split at hq'
    · next hall => simpa using hall.2
    · cases hq'

/-- The journal of a ledger in order is ordered. -/
theorem ordered (h : l.Sound) : Ordered l.journal l.closed where
  oneByOne := fun _ _ _ _ _ _ _ _ hjournal => h.oneByOne hjournal
  reached := fun _ _ _ _ _ _ hjournal => h.reached hjournal
  started := fun _ _ _ _ _ _ hjournal _ hbelow => h.started_below hjournal hbelow
  within := fun _ _ _ _ _ _ _ _ _ hjournal hother _ hbelow => h.within hjournal hother hbelow
  complete := fun hopen _ _ _ _ _ _ _ _ _ _ hjournal honly => h.complete hopen hjournal honly

end Ledger.Sound

/-! ## Walks in the ledger and in the tree -/

/-- A walk of the ledger is that of a process, and a process that has finished does nothing. -/
def Process.Bears (q : Process) (live : Live) : Prop :=
  q.serial = live.serial ∧ (q.isFinished = true → live.pursuit = .idle)

theorem Process.bears_of (serial : Nat) (parent? : Option Nat) (walk : Walk) (activity : Activity) :
    (Process.mk serial walk activity).Bears (.of serial parent? walk activity) := by
  refine ⟨rfl, fun hfinished => ?_⟩
  obtain rfl : activity = _ := Process.activity_of_isFinished hfinished
  rfl

mutual

/-- The ledger has no other walks than those in the tree. -/
theorem Process.exists_has {live : Live} {parent? : Option Nat} :
    (p : Process) → live ∈ p.lives parent? → ∃ q, p.Has q ∧ q.Bears live
  | .mk serial walk activity, h => by
    rw [Process.lives] at h
    rcases List.mem_cons.mp h with rfl | h
    · exact ⟨_, .self _, Process.bears_of serial parent? walk activity⟩
    · obtain ⟨q, r, hruns, hhas, hbears⟩ := Activity.exists_has activity h
      exact ⟨r, .inside hruns hhas, hbears⟩

theorem Activity.exists_has {live : Live} {serial : Nat} :
    (activity : Activity) → live ∈ activity.lives serial →
      ∃ q r, activity.Runs q ∧ q.Has r ∧ r.Bears live
  | .calling _ _ root _, h => by
    obtain ⟨r, hhas, hbears⟩ := Process.exists_has root h
    exact ⟨root, r, rfl, hhas, hbears⟩
  | .inPlace _ _ _ branch, h => by
    obtain ⟨r, hhas, hbears⟩ := Process.exists_has branch h
    exact ⟨branch, r, rfl, hhas, hbears⟩
  | .forking _ _ _ children _, h => by
    obtain ⟨entry, q, r, hmem, hhas, hbears⟩ := Child.exists_has children h
    exact ⟨q, r, ⟨entry, hmem⟩, hhas, hbears⟩
  | .poised _, h | .queued .., h | .working .., h | .asleep .., h => by cases h

theorem Child.exists_has {live : Live} {serial : Nat} :
    (children : List Child) → live ∈ Child.livesIn serial children →
      ∃ entry q r, Child.running entry q ∈ children ∧ q.Has r ∧ r.Bears live
  | [], h => by cases h
  | child :: rest, h => by
    rw [Child.livesIn] at h
    rcases List.mem_append.mp h with h | h
    · cases child with
      | running entry process =>
        obtain ⟨r, hhas, hbears⟩ := Process.exists_has process h
        exact ⟨entry, process, r, List.mem_cons_self, hhas, hbears⟩
      | refused | ended | cancelled => cases h
    · obtain ⟨entry, q, r, hmem, hhas, hbears⟩ := Child.exists_has rest h
      exact ⟨entry, q, r, List.mem_cons_of_mem _ hmem, hhas, hbears⟩

end

/-! ## Nobody is left behind -/

/-- After a move on an engine, a process that was on its way is so still, or has made the move itself
and come to its end by it. -/
def Process.GoesOn (who : Nat) (e : Engine) (q : Process) (onItsWay : Process → Prop) : Prop :=
  (∃ q', onItsWay q' ∧ q'.serial = q.serial ∧ q'.isFinished = false) ∨
    ∃ site task run q' run' e', q.Moves who site task run e q' run' e' ∧ q'.isFinished = true

namespace Process.GoesOn

variable {who : Nat} {p p' q : Process} {run run' : RunState} {e e' : Engine}
  {onItsWay onItsWay' : Process → Prop}

theorem mono (h : q.GoesOn who e onItsWay) (himp : ∀ q', onItsWay q' → onItsWay' q') :
    q.GoesOn who e onItsWay' := by
  rcases h with ⟨q', hin, hserial, hrunning⟩ | hends
  · exact .inl ⟨q', himp q' hin, hserial, hrunning⟩
  · exact .inr hends

theorem stays (hin : onItsWay q) (hrunning : q.isFinished = false) : q.GoesOn who e onItsWay :=
  .inl ⟨q, hin, rfl, hrunning⟩

/-- The process that moves. -/
theorem of_moves {task : Nat} {site : Site} (h : p.Moves who site task run e p' run' e')
    (hin : onItsWay p') :
    p.GoesOn who e onItsWay := by
  by_cases hfinished : p'.isFinished = true
  · exact .inr ⟨site, task, run, p', run', e', h, hfinished⟩
  · exact .inl ⟨p', hin, h.serial, Bool.not_eq_true _ ▸ hfinished⟩

end Process.GoesOn

theorem Process.has_of_isFinished {p q : Process} (h : p.Has q) (hfinished : p.isFinished = true) :
    q = p := by
  obtain ⟨serial, walk, rfl⟩ := exists_of_isFinished hfinished
  cases h with
  | self => rfl
  | inside hruns => exact hruns.elim

/-- Where a walk stands it does not part with branches that are on their way, and leaves the state of the
run to them. -/
theorem Scene.Steps.keepsBranches {s s' : Scene} {task serial : Nat} {q : Process}
    (h : s.Steps task serial s') (hbranch : s.activity.Branches q) :
    s'.activity.Branches q ∧ s'.run = s.run := by
  cases h with
  | starts h | refuses h =>
    rw [h] at hbranch
    obtain ⟨entry, hmem⟩ := hbranch
    exact ⟨⟨entry, List.mem_append_left _ hmem⟩, rfl⟩
  | joins h hover =>
    rw [h] at hbranch
    obtain ⟨entry, hmem⟩ := hbranch
    exact absurd (List.all_eq_true.mp hover _ hmem) (by simp [Child.isOver])
  | advance h | missing h | queues h | begins h | granted h | does h | sleeps h | wakes h
  | opens h | runs h | tidies h | ends h | fails h | gaveUp h | forksNone h | forksOne h
  | forks h =>
    rw [h] at hbranch
    exact hbranch.elim

/-- Whatever a task does in a process, everything in it that is on its way goes on. -/
theorem Process.Moves.goesOn {who task : Nat} {p p' q : Process} {run run' : RunState}
    {e e' : Engine} {site : Site} (h : p.Moves who site task run e p' run' e') (hhas : p.Has q)
    (hrunning : q.isFinished = false) : q.GoesOn who e p'.Has := by
  -- What is in the part that moves goes on by the hypothesis, and what is next to it stays. Where
  -- the part comes to its end, nothing in it is on its way, so what was there has ended.
  induction h with
  | here h =>
    cases hhas with
    | self => exact .of_moves (.here h) (.self _)
    | inside hruns hhas =>
      have hkept := (h.keepsBranches (h.isOwn.branches hruns)).1
      exact .stays (.inside hkept.runs hhas) hrunning
  | @called _ _ _ _ _ _ run _ _ _ e e' _ h hgoes ih =>
    cases hhas with
    | self =>
      exact .of_moves (show Moves who _ _ _ run e _ run e' from .called h hgoes) (.self _)
    | inside hruns hhas =>
      cases hruns
      exact (ih hhas).mono fun q' hin => .inside rfl hin
  | @returned _ _ _ _ _ _ run _ _ _ e e' _ h hfinished ih =>
    cases hhas with
    | self =>
      exact .of_moves (show Moves who _ _ _ run e _ run e' from .returned h hfinished) (.self _)
    | inside hruns hhas =>
      cases hruns
      rcases ih hhas with ⟨q', hin, -, hrunning'⟩ | hends
      · rw [Process.has_of_isFinished hin hfinished, hfinished] at hrunning'
        cases hrunning'
      · exact .inr hends
  | inPlace h hgoes ih =>
    cases hhas with
    | self => exact .of_moves (.inPlace h hgoes) (.self _)
    | inside hruns hhas =>
      cases hruns
      exact (ih hhas).mono fun q' hin => .inside rfl hin
  | inPlaceEnded h hfinished hclose ih =>
    cases hhas with
    | self => exact .of_moves (.inPlaceEnded h hfinished hclose) (.self _)
    | inside hruns hhas =>
      cases hruns
      rcases ih hhas with ⟨q', hin, -, hrunning'⟩ | hends
      · rw [Process.has_of_isFinished hin hfinished, hfinished] at hrunning'
        cases hrunning'
      · exact .inr hends
  | @child _ _ _ _ entry _ _ _ _ _ _ branch' _ _ _ _ _ h hgoes htask ih =>
    cases hhas with
    | self => exact .of_moves (.child h hgoes htask) (.self _)
    | inside hruns hhas =>
      rcases Child.running_of_moved hruns branch' with rfl | hnow
      · exact (ih hhas).mono fun q' hin => .inside (q := branch') ⟨entry, by simp⟩ hin
      · exact .stays (.inside hnow hhas) hrunning
  | @childEnded _ _ _ _ entry _ _ _ _ _ _ _ branch' _ _ _ _ _ h hfinished htask hcompleted ih =>
    cases hhas with
    | self => exact .of_moves (.childEnded h hfinished htask hcompleted) (.self _)
    | inside hruns hhas =>
      rcases Child.running_of_replaced hruns (.ended entry branch'.walk.failure) with ⟨_, heq⟩ | hnow
      · cases heq
        rcases ih hhas with ⟨q', hin, -, hrunning'⟩ | hends
        · rw [Process.has_of_isFinished hin hfinished, hfinished] at hrunning'
          cases hrunning'
        · exact .inr hends
      · exact .stays (.inside hnow hhas) hrunning

/-! ## Executors -/

namespace Executor

variable {start x y last : Executor} {past : List (Executor × Move)} {m : Move}

/-- The processes of an executor. -/
def Has (x : Executor) (q : Process) : Prop :=
  ∃ run ∈ x.runs, run.root.Has q

theorem not_has_of_build {config : Config} {registry : Registry} {listeners : Listeners} {q : Process}
    (h : build config registry listeners = .ok x) : ¬ x.Has q := by
  obtain rfl := eq_of_build h
  rintro ⟨run, hrun, -⟩
  cases hrun

/-- Unless branches are given up, a process that is on its way is so still after a move, or has made
the move itself and come to its end by it. -/
theorem goesOn {q : Process} (hmove : x.move m = some y) (hkeep : ¬ x.GivesUpBy m) (hhas : x.Has q)
    (hrunning : q.isFinished = false) :
    y.Has q ∨ ∃ who, m = .step who ∧ q.GoesOn who x.engine y.Has := by
  obtain ⟨own, hown, hhas⟩ := hhas
  cases m with
  | step who =>
    obtain ⟨before, run, after, root, state, e', hruns, hstep, rfl⟩ := exists_step hmove
    rw [hruns] at hown
    rcases mem_around.mp hown with rfl | hother
    · refine .inr ⟨who, rfl, ?_⟩
      obtain ⟨site, hmoves⟩ := Process.moves_of_step hstep
      exact (hmoves.goesOn hhas hrunning).mono fun q' hin =>
        ⟨⟨state, root⟩, by simp, hin⟩
    · exact .inl ⟨own, mem_of_around hother _, hhas⟩
  | launch request context =>
    cases hmove
    rcases x.launch_cases request context with
      ⟨outcome, plans, hlaunch⟩ | ⟨root, plans, -, hlaunch⟩
    · rw [hlaunch]
      exact .inl ⟨own, hown, hhas⟩
    · rw [hlaunch]
      exact .inl ⟨own, List.mem_append_left _ hown, hhas⟩
  | wait | beginShutdown =>
    cases hmove
    exact .inl ⟨own, hown, hhas⟩
  | settleShutdown =>
    cases hmove
    rcases x.settleShutdown_cases with ⟨shutdown, heq⟩ | ⟨hgives, -⟩
    · rw [heq]
      exact .inl ⟨own, hown, hhas⟩
    · exact absurd hgives hkeep

/-- A walk that is not on its way is in the middle of nothing. -/
theorem through_idle (hsound : x.ledger.Sound) {w : Nat}
    (hover : ∀ q, x.Has q → q.serial = w → q.isFinished = true) :
    Pursuit.through x.engine.pool.closed .idle (Journal.own x.engine.journal.toList w) =
      some .idle := by
  by_cases hlive : ∃ live ∈ x.ledger.lives, live.serial = w
  · obtain ⟨live, hmem, rfl⟩ := hlive
    obtain ⟨run, hrun, hlives⟩ := List.mem_flatMap.mp hmem
    obtain ⟨q, hhas, hserial, hidle⟩ := run.root.exists_has hlives
    have hpursuit := hsound.pursuit live hmem
    rwa [hidle (hover q ⟨run, hrun, hhas⟩ hserial)] at hpursuit
  · exact hsound.gone w fun live hmem heq => hlive ⟨live, hmem, heq⟩

/-- Forks and joins in every schedule that gives no branches up. The journal is ordered: a walk
executes one unit at a time, and whatever happens in a branch happens after its walk has come to the
fork and before the walk goes on. A walk that has come to its end leaves no unit below it in the
middle of anything. And no move parts with a process that is on its way, but for the move by which
the process itself comes to its end. -/
theorem History.nested {config : Config} {registry : Registry} {listeners : Listeners}
    (hbuild : build config registry listeners = .ok start) (h : start.History past last)
    (hkeep : ∀ x m, (x, m) ∈ past → ¬ x.GivesUpBy m) :
    Journal.Ordered last.engine.journal.toList last.engine.pool.closed ∧
      (∀ w, (∀ q, last.Has q → q.serial = w → q.isFinished = true) →
        ∀ v, Journal.Below last.engine.journal.toList w v →
          Journal.Settles last.engine.journal.toList v) ∧
      ∀ x m y, (x, m) ∈ past → x.move m = some y → ∀ q, x.Has q → q.isFinished = false →
        y.Has q ∨ ∃ who, m = .step who ∧ q.GoesOn who x.engine y.Has := by
  obtain ⟨hfits, hstart⟩ := sound_build hbuild
  have hsound := h.sound hfits hstart hkeep
  refine ⟨hsound.ordered, ?_, ?_⟩
  · intro w hover v hbelow before after task u hjournal
    exact hsound.exists_ended hjournal (hsound.idle_below (through_idle hsound hover) hbelow)
  · intro x m y hmem hmove q hhas hrunning
    exact goesOn hmove (hkeep x m hmem) hhas hrunning

/-- Two branches take turns, and the unit behind their group runs after both. -/
theorem History.nested_branches : ∃ plan past last,
    Node.compile? (.sequence [.parallel [.unit "a", .unit "b"], .unit "c"]) = some plan ∧
      (doing [("a", .done), ("b", .done), ("c", .done)]).History past last ∧
      last.runs.map (fun run => (run.state.unitNames, run.root.isFinished)) =
        [(["b", "a", "c"], true)] ∧
      Journal.Ordered last.engine.journal.toList last.engine.pool.closed ∧
      (∀ w, (∀ q, last.Has q → q.serial = w → q.isFinished = true) →
        ∀ v, Journal.Below last.engine.journal.toList w v →
          Journal.Settles last.engine.journal.toList v) ∧
      ∀ x m y, (x, m) ∈ past → x.move m = some y → ∀ q, x.Has q → q.isFinished = false →
        y.Has q ∨ ∃ who, m = .step who ∧ q.GoesOn who x.engine y.Has := by
  let plan := (Node.compile? (.sequence [.parallel [.unit "a", .unit "b"], .unit "c"])).getD {}
  let moves : List Move := .launch (.plan plan) {} :: List.replicate 4 (.step 0) ++
    List.replicate 3 (.step 2) ++ List.replicate 5 (.step 1) ++ List.replicate 3 (.step 2) ++
    List.replicate 3 (.step 1) ++ List.replicate 9 (.step 0)
  refine ⟨plan, _, _, rfl, history_follow _ moves, by decide +kernel, ?_⟩
  refine History.nested (build_doing _) (history_follow _ moves) fun x m hmem hgives => ?_
  rw [hgives.1] at hmem
  exact absurd (mem_follow hmem) (by simp [moves])

end Executor

end Workflow
