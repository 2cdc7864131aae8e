import Mathlib.Data.List.Nodup
import Mathlib.Logic.Relation
import Workflow.Engine
import Workflow.Proofs.Around

/-!
# The ledger of walks

What matters for the order of things in a journal is little: which walks there are, who started
them, and what each is in the middle of. A `Ledger` keeps just that beside the journal, and
`Ledger.Op` lists the entries that may be made in it. Trees, tasks and permits do not occur; that
everything which processes do comes down to these entries is shown in `Bookkeeping`.

`Pursuit` is what a walk is in the middle of, as far as its own occurrences tell. Every operation
keeps a ledger in order (`Ledger.Sound.op`): the journal tells the pursuit of every walk, walks that
are gone are in the middle of nothing, and a walk that joins has no branch left. Some of it does not
depend on how walks come to an end (`Ledger.Numbered`), and so outlives a shutdown that gives walks
up.
-/

namespace Workflow

/-! ## Pursuits -/

/-- What a walk is in the middle of. -/
inductive Pursuit where
  | idle
  | unit (unitId : String)
  /-- A fork, and the entries of the branches that have been started. -/
  | fork (anchor : String) (entries started : List String)
  deriving DecidableEq

/-- The failure that an occurrence reports. -/
def Occurrence.failure? : Occurrence → Option Failure
  | .unitEnded _ failure | .joined _ failure => failure
  | .remark _ | .unitStarted _ | .forked .. | .branchStarted .. => none

namespace Pursuit

/-- What a walk is in the middle of after an occurrence. Only where branches may be `refused` does a
fork join before all of them have been started. -/
def after (refused : Bool) : Pursuit → Occurrence → Option Pursuit
  | .unit u, .remark _ => some (.unit u)
  | .idle, .unitStarted u => some (.unit u)
  -- the unit was not there
  | .idle, .unitEnded _ _ => some .idle
  | .unit u, .unitEnded v _ => if v = u then some .idle else none
  | .idle, .forked anchor entries => some (.fork anchor entries [])
  | .fork anchor entries started, .branchStarted entry _ =>
    if entry ∈ entries then some (.fork anchor entries (started ++ [entry])) else none
  | .fork anchor entries started, .joined anchor' _ =>
    if anchor' = anchor ∧ (refused = true ∨ started = entries) then some .idle else none
  | _, _ => none

/-- What a walk is in the middle of after some occurrences. -/
def through (refused : Bool) (pursuit : Pursuit) (own : List Occurrence) : Option Pursuit :=
  own.foldlM (after refused) pursuit

variable {refused : Bool} {pursuit pursuit' : Pursuit} {o : Occurrence} {own more : List Occurrence}

theorem through_append :
    through refused pursuit (own ++ more) =
      (through refused pursuit own).bind fun p => through refused p more := by
  rw [through, List.foldlM_append]
  rfl

theorem through_concat (h : through refused .idle own = some pursuit)
    (ho : pursuit.after refused o = some pursuit') :
    through refused .idle (own ++ [o]) = some pursuit' := by
  rw [through_append, h, Option.bind_some, through, List.foldlM_cons, ho]
  rfl

/-- Only in the middle of a fork are branches started. -/
theorem exists_fork_of_branchStarted {entry : String} {branch : Nat}
    (h : pursuit.after refused (.branchStarted entry branch) = some pursuit') :
    ∃ anchor entries started, pursuit = .fork anchor entries started ∧ entry ∈ entries ∧
      pursuit' = .fork anchor entries (started ++ [entry]) := by
  cases pursuit with
  | idle | unit => cases h
  | fork anchor entries started =>
    simp only [after] at h
    split at h
    · next hmem =>
      cases h
      exact ⟨anchor, entries, started, rfl, hmem, rfl⟩
    · cases h

/-- Where branches may be refused, everything is allowed that is allowed elsewhere. -/
theorem after_of_le {refused' : Bool} (hle : refused = true → refused' = true)
    (h : pursuit.after refused o = some pursuit') : pursuit.after refused' o = some pursuit' := by
  unfold after at h ⊢
  split at h <;> try exact h
  · split at h
    · next hjoins =>
      rw [if_pos ⟨hjoins.1, hjoins.2.imp_left hle⟩]
      exact h
    · cases h

theorem through_of_le {refused' : Bool} (hle : refused = true → refused' = true)
    (h : through refused pursuit own = some pursuit') : through refused' pursuit own = some pursuit' := by
  induction own generalizing pursuit with
  | nil => exact h
  | cons o rest ih =>
    rw [through, List.foldlM_cons] at h ⊢
    obtain ⟨p, hp, hrest⟩ := Option.bind_eq_some_iff.mp h
    exact Option.bind_eq_some_iff.mpr ⟨p, after_of_le hle hp, ih hrest⟩

end Pursuit

/-! ## Journals -/

namespace Journal

/-- The occurrences of a walk, in order. -/
def own (journal : List JournalEntry) (walk : Nat) : List Occurrence :=
  journal.filterMap fun e => if e.walk = walk then some e.occurrence else none

/-- The failures that a walk has recorded, in order. -/
def failures (journal : List JournalEntry) (walk : Nat) : List Failure :=
  (own journal walk).filterMap Occurrence.failure?

variable {journal more : List JournalEntry} {e : JournalEntry} {w : Nat}

@[simp] theorem own_nil : own [] w = [] := rfl

theorem own_append : own (journal ++ more) w = own journal w ++ own more w :=
  List.filterMap_append

theorem own_concat_self : own (journal ++ [e]) e.walk = own journal e.walk ++ [e.occurrence] := by
  rw [own_append]
  simp [own]

theorem own_concat_of_ne (h : e.walk ≠ w) : own (journal ++ [e]) w = own journal w := by
  rw [own_append]
  simp [own, h]

theorem own_eq_nil (h : ∀ e ∈ journal, e.walk ≠ w) : own journal w = [] := by
  rw [own, List.filterMap_eq_nil_iff]
  intro e he
  rw [if_neg (h e he)]

end Journal

/-! ## Ledgers -/

/-- A walk on its way: who started it as a branch, what it is in the middle of, the branches that it
waits for, whether some were refused, and the first failure in it. -/
structure Live where
  serial : Nat
  parent? : Option Nat
  pursuit : Pursuit
  branches : List Nat
  refused : Bool
  failure : Option Failure

/-- What is known of a walk whatever becomes of it. -/
def Live.label (live : Live) : Nat × Option Failure := (live.serial, live.failure)

/-- A walk that has just begun. -/
def Live.newborn (serial : Nat) (parent? : Option Nat) : Live :=
  ⟨serial, parent?, .idle, [], false, none⟩

structure Ledger where
  lives : List Live
  journal : List JournalEntry
  /-- The number of the next walk. -/
  next : Nat
  /-- Whether branches are refused. -/
  closed : Bool

/-- The entries that may be made in a ledger. -/
inductive Ledger.Op : Ledger → Ledger → Prop where
  /-- Something happens in a walk. A walk that joins waits for nobody. -/
  | log {before after : List Live} {live : Live} {journal : List JournalEntry} {next : Nat}
      {closed : Bool} (task : Nat) {o : Occurrence} {pursuit : Pursuit} {refused : Bool}
      (hpursuit : live.pursuit.after live.refused o = some pursuit)
      (hother : ∀ entry branch, o ≠ .branchStarted entry branch)
      (hjoined : ∀ anchor failure, o = .joined anchor failure → live.branches = [])
      (hrefused : refused = true → live.refused = true) :
    Op ⟨before ++ live :: after, journal, next, closed⟩
      ⟨before ++ { live with
          pursuit := pursuit, refused := refused, failure := live.failure.or o.failure? } :: after,
        journal ++ [⟨task, live.serial, o⟩], next, closed⟩
  /-- A walk starts a branch. -/
  | spawn {before between after : List Live} {live : Live} {journal : List JournalEntry}
      {next : Nat} {closed : Bool} (task : Nat) {entry : String} {pursuit : Pursuit}
      (hpursuit : live.pursuit.after live.refused (.branchStarted entry next) = some pursuit) :
    Op ⟨before ++ live :: (between ++ after), journal, next, closed⟩
      ⟨before ++ { live with pursuit := pursuit, branches := live.branches ++ [next] } ::
          (between ++ .newborn next (some live.serial) :: after),
        journal ++ [⟨task, live.serial, .branchStarted entry next⟩], next + 1, closed⟩
  /-- A walk begins that nobody waits for here. -/
  | begin {before after : List Live} {journal : List JournalEntry} {next : Nat} {closed : Bool} :
    Op ⟨before ++ after, journal, next, closed⟩
      ⟨before ++ .newborn next none :: after, journal, next + 1, closed⟩
  | refuse {before after : List Live} {live : Live} {journal : List JournalEntry} {next : Nat} :
    Op ⟨before ++ live :: after, journal, next, true⟩
      ⟨before ++ { live with refused := true } :: after, journal, next, true⟩
  /-- A walk has come to its end. -/
  | finish {before after : List Live} {live : Live} {journal : List JournalEntry} {next : Nat}
      {closed : Bool} (hidle : live.pursuit = .idle) :
    Op ⟨before ++ live :: after, journal, next, closed⟩ ⟨before ++ after, journal, next, closed⟩
  /-- A branch has come to its end, and its walk need not wait for it any longer. -/
  | leave {before between after : List Live} {live branch : Live} {journal : List JournalEntry}
      {next : Nat} {closed : Bool} {kept more : List Nat}
      (hbranches : live.branches = kept ++ branch.serial :: more) (hidle : branch.pursuit = .idle) :
    Op ⟨before ++ live :: (between ++ branch :: after), journal, next, closed⟩
      ⟨before ++ { live with branches := kept ++ more } :: (between ++ after), journal, next,
        closed⟩
  | close {lives : List Live} {journal : List JournalEntry} {next : Nat} {closed : Bool} :
    Op ⟨lives, journal, next, closed⟩ ⟨lives, journal, next, true⟩

namespace Ledger

/-- Numbers are given out once, and what has failed first in a walk is known. -/
structure Numbered (l : Ledger) : Prop where
  distinct : (l.lives.map Live.serial).Nodup
  bounded : ∀ live ∈ l.lives, live.serial < l.next
  written : ∀ e ∈ l.journal, e.walk < l.next
  failure : ∀ live ∈ l.lives, live.failure = (Journal.failures l.journal live.serial).head?

/-- A branch that was started is new at its start, it is over once its parent has joined, and until
then its parent is still on its way. -/
structure Settled (l : Ledger) (before : List JournalEntry) (parent branch : Nat)
    (after : List JournalEntry) : Prop where
  bounded : branch < l.next
  new : ∀ e ∈ before, e.walk ≠ branch ∧ ∀ entry, e.occurrence ≠ .branchStarted entry branch
  waited : ∀ live ∈ l.lives, live.serial = branch → live.parent? = some parent ∧
    ∀ e ∈ after, e.walk = parent → ∀ anchor failure, e.occurrence ≠ .joined anchor failure
  quiet : ∀ middle e rest anchor failure, after = middle ++ e :: rest → e.walk = parent →
    e.occurrence = .joined anchor failure → ∀ e' ∈ rest, e'.walk ≠ branch

/-- The ledger agrees with its journal. -/
structure Sound (l : Ledger) : Prop extends Numbered l where
  pursuit : ∀ live ∈ l.lives,
    Pursuit.through l.closed .idle (Journal.own l.journal live.serial) = some live.pursuit
  gone : ∀ w, (∀ live ∈ l.lives, live.serial ≠ w) →
    Pursuit.through l.closed .idle (Journal.own l.journal w) = some .idle
  refused : ∀ live ∈ l.lives, live.refused = true → l.closed = true
  parent : ∀ live ∈ l.lives, ∀ w, live.parent? = some w →
    ∃ other ∈ l.lives, other.serial = w ∧ live.serial ∈ other.branches
  busy : ∀ live ∈ l.lives, live.branches ≠ [] →
    ∃ anchor entries started, live.pursuit = .fork anchor entries started
  started : ∀ before e after entry branch, l.journal = before ++ e :: after →
    e.occurrence = .branchStarted entry branch → l.Settled before e.walk branch after

/-! ## Numbers -/

section

variable {l l' : Ledger} {before after between : List Live} {live other : Live}
  {journal : List JournalEntry} {next : Nat} {closed : Bool}

/-- No other walk has the number of this one. -/
theorem ne_of_distinct (h : ((before ++ live :: after).map Live.serial).Nodup)
    (hother : other ∈ before ∨ other ∈ after) : other.serial ≠ live.serial := by
  rw [List.map_append, List.map_cons] at h
  have hnot := (List.nodup_middle.mp h).notMem
  intro heq
  apply hnot
  rw [← heq, ← List.map_append]
  exact List.mem_map_of_mem (List.mem_append.mpr hother)

/-- Walks are distinguished by their numbers. -/
theorem Numbered.eq_of_serial (h : l.Numbered) (hlive : live ∈ l.lives) (hother : other ∈ l.lives)
    (heq : other.serial = live.serial) : other = live :=
  List.inj_on_of_nodup_map h.distinct hother hlive heq

theorem failures_concat_self (task : Nat) (o : Occurrence) (w : Nat) :
    (Journal.failures (journal ++ [⟨task, w, o⟩]) w).head? =
      (Journal.failures journal w).head?.or o.failure? := by
  have hown := @Journal.own_concat_self journal ⟨task, w, o⟩
  simp only at hown
  rw [Journal.failures, Journal.failures, hown, List.filterMap_append, List.head?_append]
  rcases hfailure : o.failure? with _ | failure <;> simp [hfailure]

theorem failures_concat_of_ne {e : JournalEntry} {w : Nat} (h : e.walk ≠ w) :
    Journal.failures (journal ++ [e]) w = Journal.failures journal w := by
  rw [Journal.failures, Journal.failures, Journal.own_concat_of_ne h]

/-- A walk that has not begun has recorded nothing. -/
theorem Numbered.failures_next (h : l.Numbered) : Journal.failures l.journal l.next = [] := by
  rw [Journal.failures, Journal.own_eq_nil fun e he => Nat.ne_of_lt (h.written e he)]
  rfl

/-- Walks may be given up, and what is known of them besides number and failure may change. -/
theorem Numbered.sublist {lives : List Live} (h : l.Numbered)
    (hsub : (lives.map Live.label).Sublist (l.lives.map Live.label)) :
    Numbered { l with lives := lives } := by
  have hold : ∀ own ∈ lives, ∃ old ∈ l.lives, old.serial = own.serial ∧
      old.failure = own.failure := by
    intro own hown
    obtain ⟨old, hold, heq⟩ := List.mem_map.mp (hsub.subset (List.mem_map_of_mem hown))
    exact ⟨old, hold, congrArg Prod.fst heq, congrArg Prod.snd heq⟩
  refine ⟨?_, ?_, h.written, ?_⟩
  · have hdistinct := h.distinct
    have hserials : ∀ lives : List Live,
        lives.map Live.serial = (lives.map Live.label).map Prod.fst := by
      intro lives
      rw [List.map_map]
      rfl
    rw [hserials] at hdistinct ⊢
    exact hdistinct.sublist (hsub.map _)
  · intro own hown
    obtain ⟨old, hold, hserial, -⟩ := hold own hown
    rw [← hserial]
    exact h.bounded old hold
  · intro own hown
    obtain ⟨old, hold, hserial, hfailure⟩ := hold own hown
    rw [← hserial, ← hfailure]
    exact h.failure old hold

/-- A walk that has just begun takes the next number. -/
theorem Numbered.newborn (h : Numbered ⟨before ++ after, journal, next, closed⟩)
    (parent? : Option Nat) :
    Numbered ⟨before ++ .newborn next parent? :: after, journal, next + 1, closed⟩ := by
  have hbounded : ∀ live ∈ before ++ .newborn next parent? :: after,
      live = .newborn next parent? ∨ live ∈ before ++ after := fun live hlive =>
    (mem_around.mp hlive).imp Eq.symm List.mem_append.mpr
  refine ⟨?_, ?_, fun e he => Nat.lt_succ_of_lt (h.written e he), ?_⟩
  · have hnot : next ∉ (before ++ after).map Live.serial := by
      intro hmem
      obtain ⟨live, hlive, heq⟩ := List.mem_map.mp hmem
      exact absurd heq (Nat.ne_of_lt (h.bounded live hlive))
    have hdistinct := h.distinct
    simp only [List.map_append, List.map_cons] at hnot hdistinct ⊢
    exact List.nodup_middle.mpr (List.nodup_cons.mpr ⟨hnot, hdistinct⟩)
  · intro live hlive
    rcases hbounded live hlive with rfl | hlive
    · exact Nat.lt_succ_self next
    · exact Nat.lt_succ_of_lt (h.bounded live hlive)
  · intro live hlive
    rcases hbounded live hlive with rfl | hlive
    · show none = (Journal.failures journal next).head?
      rw [show Journal.failures journal next = [] from h.failures_next]
      rfl
    · exact h.failure live hlive

/-- Something that happens in a walk is written down under its number. -/
theorem Numbered.log (h : Numbered ⟨before ++ live :: after, journal, next, closed⟩) (task : Nat)
    (o : Occurrence) (hserial : other.serial = live.serial)
    (hfailure : other.failure = live.failure.or o.failure?) :
    Numbered ⟨before ++ other :: after, journal ++ [⟨task, live.serial, o⟩], next, closed⟩ := by
  have hlive : live ∈ before ++ live :: after := by simp
  constructor
  case distinct =>
    have hdistinct := h.distinct
    simp only [List.map_append, List.map_cons] at hdistinct ⊢
    rwa [hserial]
  case bounded =>
    intro own hown
    rcases mem_around.mp hown with rfl | hown
    · show other.serial < next
      rw [hserial]
      exact h.bounded live hlive
    · exact h.bounded own (mem_of_around hown live)
  case written =>
    intro e he
    rcases List.mem_append.mp he with he | he
    · exact h.written e he
    · rw [List.mem_singleton.mp he]
      exact h.bounded live hlive
  case failure =>
    intro own hown
    rcases mem_around.mp hown with rfl | hown
    · rw [hserial, failures_concat_self, hfailure]
      rw [h.failure live hlive]
    · rw [failures_concat_of_ne (ne_of_distinct h.distinct hown).symm]
      exact h.failure own (mem_of_around hown live)

/-- Every operation gives numbers out once and keeps track of failures. -/
theorem Numbered.op (h : l.Numbered) (hop : l.Op l') : l'.Numbered := by
  cases hop with
  | log task => exact h.log task _ rfl rfl
  | @spawn before between after live journal next closed task entry pursuit _ =>
    let forking : Live := { live with pursuit := pursuit, branches := live.branches ++ [next] }
    have hlogged : Numbered ⟨before ++ forking :: (between ++ after),
        journal ++ [⟨task, live.serial, .branchStarted entry next⟩], next, closed⟩ :=
      h.log task _ rfl (Option.or_none ..).symm
    rw [← List.cons_append, ← List.append_assoc] at hlogged
    have hborn := hlogged.newborn (some live.serial)
    rwa [List.append_assoc, List.cons_append] at hborn
  | begin => exact h.newborn none
  | refuse => exact h.sublist (by simp [Live.label])
  | finish => exact h.sublist (((List.sublist_cons_self _ _).append_left _).map _)
  | @leave before between after live branch =>
    have hsub : (between ++ after).Sublist (between ++ branch :: after) :=
      (List.sublist_cons_self branch after).append_left between
    have hkept := ((hsub.cons_cons live).append_left before).map Live.label
    rw [List.map_append, List.map_cons] at hkept
    exact h.sublist (by rw [List.map_append, List.map_cons]; exact hkept)
  | close => exact ⟨h.distinct, h.bounded, h.written, h.failure⟩

/-! ## Order -/

/-- A walk that is in the middle of no fork waits for nobody. -/
theorem Sound.branches_eq_nil (h : l.Sound) (hlive : live ∈ l.lives)
    (hfork : ∀ anchor entries started, live.pursuit ≠ .fork anchor entries started) :
    live.branches = [] := by
  by_contra hne
  obtain ⟨anchor, entries, started, heq⟩ := h.busy live hlive hne
  exact hfork anchor entries started heq

theorem Sound.branches_of_idle (h : l.Sound) (hlive : live ∈ l.lives) (hidle : live.pursuit = .idle) :
    live.branches = [] :=
  h.branches_eq_nil hlive fun _ _ _ heq => by rw [hidle] at heq; cases heq

/-- What was started stays settled when the walks that are left are the same as before. -/
theorem Settled.congr {past rest : List JournalEntry} {parent branch : Nat}
    (h : l.Settled past parent branch rest) (hnext : l.next ≤ l'.next)
    (hlives : ∀ own ∈ l'.lives, own.serial = branch →
      ∃ old ∈ l.lives, old.serial = branch ∧ old.parent? = own.parent?) :
    l'.Settled past parent branch rest := by
  refine ⟨Nat.lt_of_lt_of_le h.bounded hnext, h.new, ?_, h.quiet⟩
  intro own hown hserial
  obtain ⟨old, hold, heq, hparent⟩ := hlives own hown hserial
  rw [← hparent]
  exact h.waited old hold heq

/-- What was started stays settled when something happens in a walk on its way, unless that walk
joins while the branch is on its way. -/
theorem Settled.concat {past rest : List JournalEntry} {parent branch : Nat} {e : JournalEntry}
    (h : l.Settled past parent branch rest) (hlive : live ∈ l.lives) (hwalk : e.walk = live.serial)
    (hjoined : ∀ anchor failure, e.occurrence = .joined anchor failure → e.walk = parent →
      ∀ own ∈ l.lives, own.serial ≠ branch) :
    l.Settled past parent branch (rest ++ [e]) := by
  refine ⟨h.bounded, h.new, ?_, ?_⟩
  · intro own hown hserial
    obtain ⟨hparent, hnone⟩ := h.waited own hown hserial
    refine ⟨hparent, fun e' he' => ?_⟩
    rcases List.mem_append.mp he' with he' | he'
    · exact hnone e' he'
    · rw [List.mem_singleton.mp he']
      intro hparent anchor failure ho
      exact hjoined anchor failure ho hparent own hown hserial
  · intro middle joined later anchor failure hsplit hparent ho e' he'
    rcases concat_eq_append_cons hsplit with ⟨rfl, -, -⟩ | ⟨later, rfl, rfl⟩
    · cases he'
    · rcases List.mem_append.mp he' with he' | he'
      · exact h.quiet middle joined later anchor failure rfl hparent ho e' he'
      · -- the branch of a parent that has joined is no longer on its way
        rw [List.mem_singleton.mp he', hwalk]
        intro heq
        exact (h.waited live hlive heq).2 joined (by simp) hparent anchor failure ho

theorem Sound.log (h : Sound ⟨before ++ live :: after, journal, next, closed⟩) (task : Nat)
    {o : Occurrence} {pursuit : Pursuit} {refused : Bool}
    (hpursuit : live.pursuit.after live.refused o = some pursuit)
    (hother : ∀ entry branch, o ≠ .branchStarted entry branch)
    (hjoined : ∀ anchor failure, o = .joined anchor failure → live.branches = [])
    (hrefused : refused = true → live.refused = true) :
    Sound ⟨before ++ { live with
        pursuit := pursuit, refused := refused, failure := live.failure.or o.failure? } :: after,
      journal ++ [⟨task, live.serial, o⟩], next, closed⟩ := by
  have hlive : live ∈ before ++ live :: after := by simp
  have hclosed := h.refused live hlive
  -- only who forks waits for somebody, and a fork goes on by starting branches and by joining
  have hnobody : live.branches = [] := by
    by_contra hne
    obtain ⟨anchor, entries, started, heq⟩ := h.busy live hlive hne
    rw [heq] at hpursuit
    cases o with
    | branchStarted entry branch => exact hother entry branch rfl
    | joined anchor failure => exact hne (hjoined anchor failure rfl)
    | remark | unitStarted | unitEnded | forked => cases hpursuit
  have hmem : ∀ own ∈ before ++ { live with
      pursuit := pursuit, refused := refused, failure := live.failure.or o.failure? } :: after,
      own = { live with
        pursuit := pursuit, refused := refused, failure := live.failure.or o.failure? } ∨
      own.serial ≠ live.serial ∧ own ∈ before ++ live :: after := fun own hown =>
    (mem_around.mp hown).imp Eq.symm fun hown => ⟨ne_of_distinct h.distinct hown, mem_of_around hown live⟩
  constructor
  case toNumbered =>
    exact h.toNumbered.log task o rfl rfl
  case pursuit =>
    intro own hown
    rcases hmem own hown with rfl | ⟨hne, hown⟩
    · have hown := @Journal.own_concat_self journal ⟨task, live.serial, o⟩
      simp only at hown ⊢
      rw [hown]
      exact Pursuit.through_concat (h.pursuit live hlive) (Pursuit.after_of_le hclosed hpursuit)
    · simp only
      rw [Journal.own_concat_of_ne hne.symm]
      exact h.pursuit own hown
  case gone =>
    intro w hw
    have hne : live.serial ≠ w := hw { live with
      pursuit := pursuit, refused := refused, failure := live.failure.or o.failure? } (by simp)
    simp only
    rw [Journal.own_concat_of_ne hne]
    refine h.gone w fun own hown => ?_
    by_cases heq : own.serial = live.serial
    · rw [heq]
      exact hne
    · have hkept : live ≠ own := fun h => heq (h ▸ rfl)
      exact hw own (mem_of_around ((mem_around.mp hown).resolve_left hkept) _)
  case refused =>
    intro own hown hyes
    rcases hmem own hown with rfl | ⟨-, hown⟩
    · exact hclosed (hrefused hyes)
    · exact h.refused own hown hyes
  case parent =>
    intro own hown w hparent
    have hold : ∃ old ∈ before ++ live :: after, old.serial = own.serial ∧
        old.parent? = own.parent? := by
      rcases hmem own hown with rfl | ⟨-, hown⟩
      · exact ⟨live, hlive, rfl, rfl⟩
      · exact ⟨own, hown, rfl, rfl⟩
    obtain ⟨old, hold, hserial, hsame⟩ := hold
    rw [← hsame] at hparent
    obtain ⟨other, hother, hw, hin⟩ := h.parent old hold w hparent
    rw [hserial] at hin
    -- the walk in which something happens waits for nobody, so it is not the parent
    have hne : live ≠ other := by
      rintro rfl
      rw [hnobody] at hin
      cases hin
    exact ⟨other, mem_of_around ((mem_around.mp hother).resolve_left hne) _, hw, hin⟩
  case busy =>
    intro own hown hne
    rcases hmem own hown with rfl | ⟨-, hown⟩
    · exact absurd hnobody hne
    · exact h.busy own hown hne
  case started =>
    intro past e rest entry branch hsplit ho
    rcases concat_eq_append_cons hsplit with ⟨-, rfl, -⟩ | ⟨rest, rfl, hjournal⟩
    · exact absurd ho (hother entry branch)
    · have hstarted := h.started past e rest entry branch hjournal ho
      have hsettled := hstarted.concat (e := ⟨task, live.serial, o⟩) hlive rfl ?_
      · refine hsettled.congr (Nat.le_refl _) fun own hown hserial => ?_
        rcases hmem own hown with rfl | ⟨-, hown⟩
        · exact ⟨live, hlive, hserial, rfl⟩
        · exact ⟨own, hown, hserial, rfl⟩
      · -- whoever joins waits for nobody, so its branch is over
        intro anchor failure _ hwalk own hown hserial
        have hparent := (hstarted.waited own hown hserial).1
        obtain ⟨other, hother, hw, hin⟩ := h.parent own hown _ hparent
        obtain rfl := h.eq_of_serial hlive hother (hw.trans hwalk.symm)
        rw [hnobody] at hin
        cases hin

theorem Sound.spawn (h : Sound ⟨before ++ live :: (between ++ after), journal, next, closed⟩)
    (task : Nat) {entry : String} {pursuit : Pursuit}
    (hpursuit : live.pursuit.after live.refused (.branchStarted entry next) = some pursuit) :
    Sound ⟨before ++ { live with pursuit := pursuit, branches := live.branches ++ [next] } ::
        (between ++ .newborn next (some live.serial) :: after),
      journal ++ [⟨task, live.serial, .branchStarted entry next⟩], next + 1, closed⟩ := by
  have hlive : live ∈ before ++ live :: (between ++ after) := by simp
  have hclosed := h.refused live hlive
  have hlt : live.serial < next := h.bounded live hlive
  have hnew : ∀ own ∈ before ++ live :: (between ++ after), own.serial ≠ next :=
    fun own hown => Nat.ne_of_lt (h.bounded own hown)
  obtain ⟨anchor, entries, started, -, -, hfork⟩ := Pursuit.exists_fork_of_branchStarted hpursuit
  let forking : Live := { live with pursuit := pursuit, branches := live.branches ++ [next] }
  have hmem : ∀ own ∈ before ++ forking :: (between ++ .newborn next (some live.serial) :: after),
      own = forking ∨ own = .newborn next (some live.serial) ∨
        own.serial ≠ live.serial ∧ own ∈ before ++ live :: (between ++ after) := by
    intro own hown
    rcases mem_around.mp hown with rfl | hown
    · exact .inl rfl
    · by_cases hborn : own = .newborn next (some live.serial)
      · exact .inr (.inl hborn)
      · have hold : own ∈ before ∨ own ∈ between ++ after := hown.imp_right fun hin =>
          List.mem_append.mpr ((mem_around.mp hin).resolve_left (Ne.symm hborn))
        exact .inr (.inr ⟨ne_of_distinct h.distinct hold, mem_of_around hold live⟩)
  have hforking : forking ∈
      before ++ forking :: (between ++ .newborn next (some live.serial) :: after) := by simp
  -- whoever was on its way still is, and waits for nobody less
  have hstay : ∀ old ∈ before ++ live :: (between ++ after),
      ∃ own ∈ before ++ forking :: (between ++ .newborn next (some live.serial) :: after),
        own.serial = old.serial ∧ ∀ b ∈ old.branches, b ∈ own.branches := by
    intro old hold
    rcases mem_around.mp hold with rfl | hold
    · exact ⟨forking, hforking, rfl, fun b hb => List.mem_append_left _ hb⟩
    · have hthere := hold.imp_right fun hin =>
        mem_of_around (List.mem_append.mp hin) (.newborn next (some live.serial))
      exact ⟨old, mem_of_around hthere forking, rfl, fun b hb => hb⟩
  have hparents : ∀ own ∈ before ++ forking :: (between ++ .newborn next (some live.serial) :: after),
      own.serial ≠ next → ∃ old ∈ before ++ live :: (between ++ after),
        old.serial = own.serial ∧ old.parent? = own.parent? := by
    intro own hown hne
    rcases hmem own hown with rfl | rfl | ⟨-, hown⟩
    · exact ⟨live, hlive, rfl, rfl⟩
    · exact absurd rfl hne
    · exact ⟨own, hown, rfl, rfl⟩
  constructor
  case toNumbered =>
    exact h.toNumbered.op (.spawn task hpursuit)
  case pursuit =>
    intro own hown
    rcases hmem own hown with rfl | rfl | ⟨hne, hown⟩
    · have hself := @Journal.own_concat_self journal ⟨task, live.serial, .branchStarted entry next⟩
      simp only at hself ⊢
      rw [hself]
      exact Pursuit.through_concat (h.pursuit live hlive) (Pursuit.after_of_le hclosed hpursuit)
    · show Pursuit.through closed .idle (Journal.own _ next) = some .idle
      rw [Journal.own_concat_of_ne (Nat.ne_of_lt hlt),
        Journal.own_eq_nil fun e he => Nat.ne_of_lt (h.written e he)]
      rfl
    · simp only
      rw [Journal.own_concat_of_ne hne.symm]
      exact h.pursuit own hown
  case gone =>
    intro w hw
    simp only
    rw [Journal.own_concat_of_ne (hw forking hforking)]
    refine h.gone w fun old hold => ?_
    obtain ⟨own, hown, hserial, -⟩ := hstay old hold
    rw [← hserial]
    exact hw own hown
  case refused =>
    intro own hown hyes
    rcases hmem own hown with rfl | rfl | ⟨-, hown⟩
    · exact hclosed hyes
    · cases hyes
    · exact h.refused own hown hyes
  case parent =>
    intro own hown w hparent
    by_cases hborn : own = .newborn next (some live.serial)
    · subst hborn
      cases hparent
      exact ⟨forking, hforking, rfl, by simp [forking, Live.newborn]⟩
    · have hne : own.serial ≠ next := by
        rcases hmem own hown with rfl | hcases | ⟨-, hown⟩
        · exact hnew live hlive
        · exact absurd hcases hborn
        · exact hnew own hown
      obtain ⟨old, hold, hserial, hsame⟩ := hparents own hown hne
      rw [← hsame] at hparent
      obtain ⟨other, hother, hw, hin⟩ := h.parent old hold w hparent
      obtain ⟨other', hother', hserial', hsub⟩ := hstay other hother
      exact ⟨other', hother', hserial'.trans hw, hserial ▸ hsub _ hin⟩
  case busy =>
    intro own hown hne
    rcases hmem own hown with rfl | rfl | ⟨-, hown⟩
    · exact ⟨_, _, _, hfork⟩
    · exact absurd rfl hne
    · exact h.busy own hown hne
  case started =>
    intro past e rest entry' branch hsplit ho
    have hlives : ∀ branch, branch < next →
        ∀ own ∈ before ++ forking :: (between ++ .newborn next (some live.serial) :: after),
          own.serial = branch → ∃ old ∈ before ++ live :: (between ++ after),
            old.serial = branch ∧ old.parent? = own.parent? := by
      intro branch hlt own hown hserial
      obtain ⟨old, hold, heq, hsame⟩ := hparents own hown (by omega)
      exact ⟨old, hold, heq.trans hserial, hsame⟩
    rcases concat_eq_append_cons hsplit with ⟨rfl, rfl, rfl⟩ | ⟨rest, rfl, hjournal⟩
    · -- the new branch
      cases ho
      refine ⟨Nat.lt_succ_self next, ?_, ?_, ?_⟩
      · intro e he
        refine ⟨Nat.ne_of_lt (h.written e he), fun entry' ho => ?_⟩
        obtain ⟨past, rest, hjournal⟩ := List.append_of_mem he
        exact absurd (h.started past e rest entry' next hjournal ho).bounded (Nat.lt_irrefl next)
      · intro own hown hserial
        rcases hmem own hown with rfl | rfl | ⟨-, hown⟩
        · exact absurd hserial (hnew live hlive)
        · exact ⟨rfl, fun e he => by cases he⟩
        · exact absurd hserial (hnew own hown)
      · intro middle e later anchor failure hnil
        cases middle <;> cases hnil
    · have hstarted := h.started past e rest entry' branch hjournal ho
      have hsettled := hstarted.concat (e := ⟨task, live.serial, .branchStarted entry next⟩) hlive
        rfl (fun anchor failure heq => by cases heq)
      exact hsettled.congr (Nat.le_succ next) (hlives branch hstarted.bounded)

theorem Sound.begin (h : Sound ⟨before ++ after, journal, next, closed⟩) :
    Sound ⟨before ++ .newborn next none :: after, journal, next + 1, closed⟩ := by
  have hmem : ∀ own ∈ before ++ .newborn next none :: after,
      own = .newborn next none ∨ own ∈ before ++ after := fun own hown =>
    (mem_around.mp hown).imp Eq.symm List.mem_append.mpr
  have hstay : ∀ old ∈ before ++ after, old ∈ before ++ .newborn next none :: after :=
    fun old hold => mem_of_around (List.mem_append.mp hold) _
  constructor
  case toNumbered =>
    exact h.toNumbered.newborn none
  case pursuit =>
    intro own hown
    rcases hmem own hown with rfl | hown
    -- nothing has been written down under a number that is yet to be given out
    · show Pursuit.through closed .idle (Journal.own journal next) = some .idle
      rw [Journal.own_eq_nil fun e he => Nat.ne_of_lt (h.written e he)]
      rfl
    · exact h.pursuit own hown
  case gone =>
    exact fun w hw => h.gone w fun old hold => hw old (hstay old hold)
  case refused =>
    intro own hown hyes
    rcases hmem own hown with rfl | hown
    · cases hyes
    · exact h.refused own hown hyes
  case parent =>
    intro own hown w hparent
    rcases hmem own hown with rfl | hown
    · cases hparent
    · obtain ⟨other, hother, hw, hin⟩ := h.parent own hown w hparent
      exact ⟨other, hstay other hother, hw, hin⟩
  case busy =>
    intro own hown hne
    rcases hmem own hown with rfl | hown
    · exact absurd rfl hne
    · exact h.busy own hown hne
  case started =>
    intro past e rest entry branch hjournal ho
    have hstarted := h.started past e rest entry branch hjournal ho
    refine hstarted.congr (Nat.le_succ next) fun own hown hserial => ?_
    rcases hmem own hown with rfl | hown
    · have : next = branch := hserial
      have hlt : branch < next := hstarted.bounded
      omega
    · exact ⟨own, hown, hserial, rfl⟩

/-- The walks may change while nothing happens in them: each of those afterwards was there before and waits
for somebody only if it did, and each of those before is still there and waits for the branches that are,
unless it was in the middle of nothing. -/
theorem Sound.of_lives {lives : List Live} (h : l.Sound) (hnumbered : Numbered { l with lives := lives })
    (hback : ∀ own ∈ lives, ∃ old ∈ l.lives, old.serial = own.serial ∧ old.parent? = own.parent? ∧
      old.pursuit = own.pursuit ∧ (own.refused = true → l.closed = true) ∧
      (own.branches ≠ [] → old.branches ≠ []))
    (hforth : ∀ old ∈ l.lives, old.pursuit ≠ .idle → ∃ own ∈ lives, own.serial = old.serial ∧
      ∀ branch ∈ lives, branch.serial ∈ old.branches → branch.serial ∈ own.branches) :
    Sound { l with lives := lives } where
  toNumbered := hnumbered
  pursuit := by
    intro own hown
    obtain ⟨old, hold, hserial, -, hpursuit, -⟩ := hback own hown
    rw [← hserial, ← hpursuit]
    exact h.pursuit old hold
  gone := by
    intro w hw
    by_cases hlive : ∃ old ∈ l.lives, old.serial = w
    · obtain ⟨old, hold, rfl⟩ := hlive
      have hidle : old.pursuit = .idle := by
        by_contra hne
        obtain ⟨own, hown, hserial, -⟩ := hforth old hold hne
        exact hw own hown hserial
      exact hidle ▸ h.pursuit old hold
    · exact h.gone w fun old hold heq => hlive ⟨old, hold, heq⟩
  refused := by
    intro own hown
    obtain ⟨_, -, -, -, -, hrefused, -⟩ := hback own hown
    exact hrefused
  parent := by
    intro own hown w hparent
    obtain ⟨old, hold, hserial, hsame, -⟩ := hback own hown
    obtain ⟨other, hother, hw, hin⟩ := h.parent old hold w (hsame.trans hparent)
    -- who is waited for is not in the middle of nothing
    have hbusy : other.pursuit ≠ .idle := by
      intro hidle
      rw [h.branches_of_idle hother hidle] at hin
      cases hin
    obtain ⟨other', hother', hserial', hkept⟩ := hforth other hother hbusy
    exact ⟨other', hother', hserial'.trans hw, hkept own hown (hserial ▸ hin)⟩
  busy := by
    intro own hown hne
    obtain ⟨old, hold, -, -, hpursuit, -, hwaits⟩ := hback own hown
    rw [← hpursuit]
    exact h.busy old hold (hwaits hne)
  started := by
    intro past e rest entry branch hjournal ho
    refine (h.started past e rest entry branch hjournal ho).congr (Nat.le_refl _) ?_
    intro own hown hserial
    obtain ⟨old, hold, heq, hsame, -⟩ := hback own hown
    exact ⟨old, hold, heq.trans hserial, hsame⟩

theorem Sound.refuse (h : Sound ⟨before ++ live :: after, journal, next, true⟩) :
    Sound ⟨before ++ { live with refused := true } :: after, journal, next, true⟩ := by
  -- All that is said of a walk but whether branches of it were refused is the same before and
  -- after.
  refine h.of_lives (h.toNumbered.op .refuse) ?_ ?_
  · intro own hown
    rcases mem_around.mp hown with rfl | hown
    · exact ⟨live, by simp, rfl, rfl, rfl, fun _ => rfl, id⟩
    · exact ⟨own, mem_of_around hown live, rfl, rfl, rfl, fun _ => rfl, id⟩
  · intro old hold _
    rcases mem_around.mp hold with rfl | hold
    · exact ⟨{ live with refused := true }, by simp, rfl, fun _ _ => id⟩
    · exact ⟨old, mem_of_around hold _, rfl, fun _ _ => id⟩

/-- Walks that are in the middle of nothing may be left out, if nobody waits for them any more. -/
theorem Sound.forget {lives : List Live} (h : l.Sound) (hsub : lives.Sublist l.lives)
    (hidle : ∀ own ∈ l.lives, own ∉ lives → own.pursuit = .idle) :
    Sound { l with lives := lives } := by
  refine h.of_lives (h.toNumbered.sublist (hsub.map _)) ?_ ?_
  · exact fun own hown => ⟨own, hsub.subset hown, rfl, rfl, rfl, h.refused own (hsub.subset hown), id⟩
  · intro old hold hbusy
    refine ⟨old, ?_, rfl, fun _ _ => id⟩
    by_contra hnot
    exact hbusy (hidle old hold hnot)

/-- A walk need not wait any longer for a branch that has come to its end. -/
theorem Sound.leave {branch : Live} {kept more : List Nat}
    (h : Sound ⟨before ++ live :: (between ++ branch :: after), journal, next, closed⟩)
    (hbranches : live.branches = kept ++ branch.serial :: more) (hidle : branch.pursuit = .idle) :
    Sound ⟨before ++ { live with branches := kept ++ more } :: (between ++ after), journal, next,
      closed⟩ := by
  have hlive : live ∈ before ++ live :: (between ++ branch :: after) := by simp
  -- none of those who are left is the branch
  have hother : ∀ own ∈ before ++ { live with branches := kept ++ more } :: (between ++ after),
      own.serial ≠ branch.serial := by
    have hdistinct := h.distinct
    rw [← List.cons_append, ← List.append_assoc] at hdistinct
    have hlive : live.serial ≠ branch.serial := ne_of_distinct hdistinct (.inl (by simp))
    intro own hown
    simp only [List.mem_append, List.mem_cons] at hown
    rcases hown with hown | rfl | hown | hown
    · exact ne_of_distinct hdistinct (.inl (by simp [hown]))
    · exact hlive
    · exact ne_of_distinct hdistinct (.inl (by simp [hown]))
    · exact ne_of_distinct hdistinct (.inr hown)
  refine h.of_lives (h.toNumbered.op (.leave hbranches hidle)) ?_ ?_
  · intro own hown
    rcases mem_around.mp hown with rfl | hown
    · exact ⟨live, hlive, rfl, rfl, rfl, h.refused live hlive, fun _ => by simp [hbranches]⟩
    · have hold : own ∈ before ++ live :: (between ++ branch :: after) :=
        mem_of_around (hown.imp_right fun hin => mem_of_around (List.mem_append.mp hin) branch) live
      exact ⟨own, hold, rfl, rfl, rfl, h.refused own hold, id⟩
  · intro old hold hbusy
    have hne : branch ≠ old := by
      rintro rfl
      exact hbusy hidle
    rcases mem_around.mp hold with rfl | hold
    · refine ⟨{ live with branches := kept ++ more }, by simp, rfl, fun b hb hin => ?_⟩
      rw [hbranches] at hin
      exact List.mem_append.mpr ((mem_around.mp hin).resolve_left (Ne.symm (hother b hb)))
    · have hthere := hold.imp_right fun hin =>
        List.mem_append.mpr ((mem_around.mp hin).resolve_left hne)
      exact ⟨old, mem_of_around hthere _, rfl, fun _ _ => id⟩

/-- From now on branches are refused. -/
theorem Sound.close (h : l.Sound) : Sound { l with closed := true } where
  toNumbered := ⟨h.distinct, h.bounded, h.written, h.failure⟩
  pursuit := fun own hown => Pursuit.through_of_le (fun _ => rfl) (h.pursuit own hown)
  gone := fun w hw => Pursuit.through_of_le (fun _ => rfl) (h.gone w hw)
  refused := fun _ _ _ => rfl
  parent := h.parent
  busy := h.busy
  started := fun past e rest entry branch hjournal ho =>
    (h.started past e rest entry branch hjournal ho).congr (Nat.le_refl _)
      fun own hown hserial => ⟨own, hown, hserial, rfl⟩

/-- Every operation keeps the ledger in order. -/
theorem Sound.op (h : l.Sound) (hop : l.Op l') : l'.Sound := by
  cases hop with
  | log task hpursuit hother hjoined hrefused => exact h.log task hpursuit hother hjoined hrefused
  | spawn task hpursuit => exact h.spawn task hpursuit
  | begin => exact h.begin
  | refuse => exact h.refuse
  | @finish before after live journal next closed hidle =>
    refine h.forget ((List.sublist_cons_self live after).append_left before) ?_
    intro own hown hnot
    obtain rfl := (mem_around.mp hown).resolve_right fun hother => hnot (List.mem_append.mpr hother)
    exact hidle
  | leave hbranches hidle => exact h.leave hbranches hidle
  | close => exact h.close

/-- No number is given back. -/
theorem next_le_of_ops (hops : Relation.ReflTransGen Op l l') : l.next ≤ l'.next := by
  induction hops with
  | refl => exact Nat.le_refl _
  | tail _ hop ih =>
    refine Nat.le_trans ih ?_
    cases hop with
    | spawn | begin => exact Nat.le_succ _
    | log | refuse | finish | leave | close => exact Nat.le_refl _

theorem Numbered.ops (h : l.Numbered) (hops : Relation.ReflTransGen Op l l') : l'.Numbered := by
  induction hops with
  | refl => exact h
  | tail _ hop ih => exact ih.op hop

theorem Sound.ops (h : l.Sound) (hops : Relation.ReflTransGen Op l l') : l'.Sound := by
  induction hops with
  | refl => exact h
  | tail _ hop ih => exact ih.op hop

end

end Ledger

end Workflow
