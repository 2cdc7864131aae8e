import Mathlib.Data.List.Perm.Basic
import Mathlib.Logic.Function.Basic
import Workflow.Proofs.Run.Missing
import Workflow.Proofs.Run.Reserved

/-!
# What a run reads of its groups

When a group joins, the entries of its branches are published under one key of the scope, and all
walks of the run read them there. What can be read is therefore what the group of the run has left
that joined last, wherever in the run it was forked.

`Journal.Bulletin` draws that from the journal alone: in which run each walk is, what each walk has
forked last, and what was published last in each run. In every schedule the scopes agree with it
(`Executor.History.informed`). So a group is read by the walks of its run from its join until the
next one of the run (`Executor.History.reads_last_joined`), which need not be a group of the walk
that reads (`Executor.reads_of_other_group`).
-/

namespace Workflow

/-! ## The bulletin -/

namespace Journal

/-- What the journal tells of the groups in runs. -/
structure Bulletin where
  /-- The walk at the root of the run that a walk is in. -/
  home : Nat → Nat
  /-- The entries of the group that a walk has forked last. -/
  forked : Nat → List String
  /-- The entries of the group that has joined last in the run with a given root. -/
  published : Nat → List String

namespace Bulletin

def blank : Bulletin := ⟨id, fun _ => [], fun _ => []⟩

def note (b : Bulletin) (e : JournalEntry) : Bulletin :=
  match e.occurrence with
  | .branchStarted _ branch => { b with home := Function.update b.home branch (b.home e.walk) }
  | .forked _ entries => { b with forked := Function.update b.forked e.walk entries }
  | .joined _ none =>
    -- a group without branches publishes nothing
    if b.forked e.walk = [] then b
    else { b with published := Function.update b.published (b.home e.walk) (b.forked e.walk) }
  | .joined _ (some _) | .remark _ | .unitStarted _ | .unitEnded .. => b

/-- Nothing is known of walks from some number on. -/
structure BlankFrom (b : Bulletin) (next : Nat) : Prop where
  home : ∀ w, next ≤ w → b.home w = w
  forked : ∀ w, next ≤ w → b.forked w = []
  published : ∀ w, next ≤ w → b.published w = []

/-- From one bulletin to another nothing has changed for walks below some number, unless they are
among those given or at the root of the given run. No walk changes its run. -/
structure Alters (b : Bulletin) (next : Nat) (walks : List Nat) (root : Nat) (b' : Bulletin) :
    Prop where
  home : ∀ w < next, b'.home w = b.home w
  forked : ∀ w < next, w ∉ walks → b'.forked w = b.forked w
  published : ∀ w < next, w ∉ walks → w ≠ root → b'.published w = b.published w

end Bulletin

def bulletin (journal : List JournalEntry) : Bulletin := journal.foldl Bulletin.note .blank

/-- The walk at the root of the run that a walk is in. -/
def home (journal : List JournalEntry) (w : Nat) : Nat := (bulletin journal).home w

/-- A walk that is started as a branch is new: nothing has happened in it before. -/
def StartsNew (journal : List JournalEntry) : Prop :=
  ∀ before e after entry branch, journal = before ++ e :: after →
    e.occurrence = .branchStarted entry branch → ∀ e' ∈ before ++ [e], e'.walk ≠ branch

variable {journal before after more : List JournalEntry} {e : JournalEntry} {w root : Nat}

theorem bulletin_concat : bulletin (journal ++ [e]) = (bulletin journal).note e := by
  rw [bulletin, bulletin, List.foldl_concat]

/-- Remarks tell nothing of groups. -/
theorem bulletin_remarks (journal : List JournalEntry) (task serial : Nat) (texts : List String) :
    bulletin (journal ++ JournalEntry.remarks task serial texts) = bulletin journal := by
  rw [bulletin, List.foldl_append, JournalEntry.remarks, List.foldl_map]
  exact List.foldl_fixed' (fun _ => rfl) texts

/-- The run of a walk is settled when the walk begins. -/
theorem home_append (h : ∀ e ∈ more, ∀ entry, e.occurrence ≠ .branchStarted entry w) :
    home (journal ++ more) w = home journal w := by
  induction more using List.reverseRecOn with
  | nil => rw [List.append_nil]
  | append_singleton more e ih =>
    rw [← ih fun e he => h e (List.mem_append_left _ he), ← List.append_assoc, home, bulletin_concat]
    unfold Bulletin.note
    split
    · next entry branch hstarted =>
      have hne : w ≠ branch := by
        rintro rfl
        exact h e (by simp) entry hstarted
      exact Function.update_of_ne hne _ _
    · rfl
    · split <;> rfl
    all_goals rfl

/-- In a journal whose branches are new, a walk is in the run that it is in when something happens in
it. -/
theorem StartsNew.home_eq (h : StartsNew journal) (hjournal : journal = before ++ e :: after) :
    home journal e.walk = home before e.walk := by
  rw [hjournal]
  refine home_append fun e' he' entry hstarted => ?_
  obtain ⟨first, rest, hsplit⟩ := List.append_of_mem he'
  refine h (before ++ first) e' rest entry e.walk (by simp [hjournal, hsplit]) hstarted e ?_ rfl
  rcases first with _ | ⟨e'', first⟩
  · rw [List.nil_append] at hsplit
    obtain rfl : e = e' := (List.cons.inj hsplit).1
    simp
  · obtain rfl : e = e'' := (List.cons.inj hsplit).1
    simp

theorem forked_append (h : ∀ e ∈ more, e.walk = w → ∀ anchor entries,
    e.occurrence ≠ .forked anchor entries) :
    (bulletin (journal ++ more)).forked w = (bulletin journal).forked w := by
  induction more using List.reverseRecOn with
  | nil => rw [List.append_nil]
  | append_singleton more e ih =>
    rw [← ih fun e he => h e (List.mem_append_left _ he), ← List.append_assoc, bulletin_concat]
    unfold Bulletin.note
    split
    · rfl
    · next anchor entries hforked =>
      have hne : w ≠ e.walk := fun heq => h e (by simp) heq.symm anchor entries hforked
      exact Function.update_of_ne hne _ _
    · split <;> rfl
    all_goals rfl

/-- What has been published in a run stays until a group of the run joins. -/
theorem published_append (h : ∀ first e rest anchor, more = first ++ e :: rest →
    e.occurrence = .joined anchor none → home (journal ++ first) e.walk ≠ root) :
    (bulletin (journal ++ more)).published root = (bulletin journal).published root := by
  induction more using List.reverseRecOn with
  | nil => rw [List.append_nil]
  | append_singleton more e ih =>
    have hmore := ih fun first e' rest anchor heq =>
      h first e' (rest ++ [e]) anchor (by simp [heq])
    rw [← hmore, ← List.append_assoc, bulletin_concat]
    unfold Bulletin.note
    split
    · rfl
    · rfl
    · next anchor hjoined =>
      split
      · rfl
      · exact Function.update_of_ne (h more e [] anchor rfl hjoined).symm _ _
    all_goals rfl

/-- After a group has joined, and before another one of its run does, its entries are published. -/
theorem StartsNew.published_eq {task : Nat} {anchor : String} (h : StartsNew journal)
    (hjournal : journal = before ++ ⟨task, w, .joined anchor none⟩ :: after)
    (hentries : (bulletin before).forked w ≠ [])
    (hlast : ∀ e ∈ after, ∀ anchor, e.occurrence = .joined anchor none →
      home journal e.walk ≠ home journal w) :
    (bulletin journal).published (home journal w) = (bulletin before).forked w := by
  have hsplit : journal = (before ++ [⟨task, w, .joined anchor none⟩]) ++ after := by
    rw [hjournal, List.append_assoc, List.singleton_append]
  have hquiet : (bulletin ((before ++ [⟨task, w, .joined anchor none⟩]) ++ after)).published
        (home journal w) =
      (bulletin (before ++ [⟨task, w, .joined anchor none⟩])).published (home journal w) := by
    refine published_append fun first e rest anchor' hafter hjoined => ?_
    have heq : journal = (before ++ [⟨task, w, .joined anchor none⟩] ++ first) ++ e :: rest := by
      rw [hsplit, hafter, List.append_assoc _ first]
    rw [← h.home_eq heq]
    exact hlast e (by simp [hafter]) anchor' hjoined
  rw [← hsplit] at hquiet
  rw [hquiet, bulletin_concat, h.home_eq hjournal]
  simp only [Bulletin.note, if_neg hentries]
  exact Function.update_self ..

end Journal

/-- Walks have numbers of their own, so that branches are new. -/
theorem Ledger.startsNew_op {l l' : Ledger} (hnumbered : l.Numbered)
    (h : Journal.StartsNew l.journal) (hop : l.Op l') : Journal.StartsNew l'.journal := by
  cases hop with
  | @log before after live journal next closed task o pursuit refused _ hother =>
    intro first e rest entry branch hsplit hstarted
    rcases concat_eq_append_cons hsplit with ⟨-, rfl, -⟩ | ⟨rest, rfl, hjournal⟩
    · exact absurd hstarted (hother entry branch)
    · exact h first e rest entry branch hjournal hstarted
  | @spawn before between after live journal next closed task entry pursuit =>
    intro first e rest entry branch hsplit hstarted
    rcases concat_eq_append_cons hsplit with ⟨-, rfl, rfl⟩ | ⟨rest, rfl, hjournal⟩
    · cases hstarted
      intro e' he'
      rcases List.mem_append.mp he' with he' | he'
      · exact Nat.ne_of_lt (hnumbered.written e' he')
      · rw [List.mem_singleton.mp he']
        exact Nat.ne_of_lt (hnumbered.bounded live (by simp))
    · exact h first e rest entry branch hjournal hstarted
  | begin | refuse | finish | leave | close => exact h

namespace Executor

variable {start last x y : Executor} {past : List (Executor × Move)} {m : Move}

theorem startsNew_move (h : x.Fits) (hnumbered : x.ledger.Numbered)
    (hnew : Journal.StartsNew x.ledger.journal) (hmove : x.move m = some y) :
    Journal.StartsNew y.ledger.journal := by
  by_cases hgives : x.GivesUpBy m
  · obtain ⟨rfl, -⟩ := hgives
    cases hmove
    rcases x.settleShutdown_cases with ⟨_, heq⟩ | ⟨-, heq⟩ <;> rw [heq] <;> exact hnew
  · have hops := books_move h hmove hgives
    clear hmove
    generalize y.ledger = l at hops
    induction hops with
    | refl => exact hnew
    | tail hops hop ih => exact Ledger.startsNew_op (hnumbered.ops hops) ih hop

/-- Branches are new walks, whatever happens. -/
theorem History.startsNew (h : start.History past last) (hfits : start.Fits)
    (hnumbered : start.ledger.Numbered) (hnew : Journal.StartsNew start.ledger.journal) :
    Journal.StartsNew last.ledger.journal := by
  induction h with
  | start => exact hnew
  | move hpast hmove ih =>
    exact startsNew_move (hpast.fits hfits) (hpast.numbered hfits hnumbered) ih hmove

end Executor

/-! ## Walks that the bulletin tells of -/

/-- The entries of branches that have ended without a failure. -/
def Child.succeeded (children : List Child) : List String :=
  children.filterMap fun child =>
    match child with
    | .ended entry none => some entry
    | .ended _ (some _) | .running .. | .refused _ | .cancelled _ => none

namespace Activity

/-- What the bulletin tells of the walk at work is so. -/
def ToldBy (b : Journal.Bulletin) (serial : Nat) : Activity → Prop
  | .inPlace _ entry _ _ => b.forked serial = [entry]
  | .forking _ _ toStart children completed =>
    b.forked serial = children.map Child.entry ++ toStart.map Branch.entry ∧
      b.forked serial ≠ [] ∧ completed.Perm (Child.succeeded children)
  | .calling _ run root _ => run.scope.completed.Perm (b.published root.serial)
  | .poised _ | .queued .. | .working .. | .asleep .. => True

/-- The root of the run of a process that a walk waits for: a flow that a unit runs is a run of its
own. -/
def homeOf (root : Nat) (q : Process) : Activity → Nat
  | .calling .. => q.serial
  | .inPlace .. | .forking .. | .poised _ | .queued .. | .working .. | .asleep .. => root

end Activity

/-- What the bulletin tells of the walks of a process, in the run with a given root, is so. -/
inductive Process.ToldBy (b : Journal.Bulletin) : Nat → Process → Prop where
  | mk {root serial : Nat} {walk : Walk} {activity : Activity} (home : b.home serial = root)
      (own : activity.ToldBy b serial)
      (inside : ∀ q, activity.Runs q → ToldBy b (activity.homeOf root q) q) :
    ToldBy b root (.mk serial walk activity)

namespace Process

variable {b b' : Journal.Bulletin} {root : Nat} {p q : Process}

/-- What a walk waits for has numbers below it. -/
theorem serials_subset {activity : Activity} (h : activity.Runs q) : q.serials ⊆ activity.serials := by
  cases activity with
  | calling | inPlace => cases h; exact List.Subset.refl _
  | forking anchor resume toStart children completed =>
    obtain ⟨entry, hmem⟩ := h
    exact fun w hw => Child.mem_serialsIn hmem hw
  | poised | queued | working | asleep => exact h.elim

/-- A bulletin that tells the same of the walks of a process tells what is so. -/
theorem ToldBy.congr (h : p.ToldBy b root) (hhome : ∀ w ∈ p.serials, b'.home w = b.home w)
    (hforked : ∀ w ∈ p.serials, b'.forked w = b.forked w)
    (hpublished : ∀ w ∈ p.activity.serials, b'.published w = b.published w) : p.ToldBy b' root := by
  induction h with
  | @mk root serial walk activity home own inside ih =>
    refine .mk ((hhome serial List.mem_cons_self).trans home) ?_ fun q hruns => ?_
    · have hsame := hforked serial List.mem_cons_self
      cases activity with
      | inPlace => exact hsame.trans own
      | forking => exact ⟨hsame.trans own.1, hsame ▸ own.2.1, own.2.2⟩
      | calling job run q next =>
        rw [Activity.ToldBy, hpublished q.serial q.serial_mem_serials]
        exact own
      | poised | queued | working | asleep => trivial
    · have hsub := serials_subset hruns
      refine ih q hruns (fun w hw => hhome w (List.mem_cons_of_mem _ (hsub hw)))
        (fun w hw => hforked w (List.mem_cons_of_mem _ (hsub hw))) fun w hw => ?_
      refine hpublished w (hsub ?_)
      rw [q.serials_eq]
      exact List.mem_cons_of_mem _ hw

/-- A process that waits for nothing. -/
theorem toldBy_alone {serial : Nat} {walk : Walk} {activity : Activity}
    (home : b.home serial = root) (own : activity.ToldBy b serial)
    (halone : ∀ q, ¬ activity.Runs q) : (mk serial walk activity).ToldBy b root :=
  .mk home own fun q hruns => absurd hruns (halone q)

theorem ToldBy.of_runs {serial : Nat} {walk : Walk} {activity : Activity}
    (h : (Process.mk serial walk activity).ToldBy b root) (hruns : activity.Runs q) :
    q.ToldBy b (activity.homeOf root q) := by
  obtain ⟨-, -, inside⟩ := h
  exact inside q hruns

theorem ToldBy.home_eq (h : p.ToldBy b root) : b.home p.serial = root := by
  cases h
  assumption

/-- Giving up branches leaves it so. -/
theorem ToldBy.cancelTasks (h : p.ToldBy b root) : p.cancelTasks.ToldBy b root := by
  induction h with
  | @mk root serial walk activity home own inside ih =>
    cases activity with
    | poised | queued | working | asleep => exact .mk home own inside
    | calling job run q next =>
      refine .mk home ?_ fun _ hruns => ?_
      · rw [Activity.cancelTasks, Activity.ToldBy, q.serial_cancelTasks]
        exact own
      · cases hruns
        rw [Activity.cancelTasks, Activity.homeOf, q.serial_cancelTasks]
        exact ih _ rfl
    | inPlace anchor entry resume branch =>
      refine .mk home own fun q hruns => ?_
      cases hruns
      exact ih _ rfl
    | forking anchor resume toStart children completed =>
      obtain ⟨hentries, hne, hcompleted⟩ := own
      refine .mk home ⟨?_, hne, ?_⟩ fun q hruns => ?_
      · have hentry : (children.map Child.cancel).map Child.entry = children.map Child.entry := by
          rw [List.map_map]
          exact List.map_congr_left fun child _ => by cases child <;> rfl
        rw [hentry]
        exact hentries
      · have hsucceeded : Child.succeeded (children.map Child.cancel) = Child.succeeded children := by
          unfold Child.succeeded
          rw [List.filterMap_map]
          exact List.filterMap_congr fun child _ => by cases child <;> rfl
        rw [hsucceeded]
        exact hcompleted
      · obtain ⟨entry, hmem⟩ := hruns
        exact absurd hmem Child.not_running_cancel

/-- What is read at a site is what is published in its run. -/
theorem At.read {who task : Nat} {run : RunState} {site : Site} (h : p.At who task run site)
    (htold : p.ToldBy b root) (hread : run.scope.completed.Perm (b.published root)) :
    site.run.scope.completed.Perm (b.published (b.home site.process.serial)) := by
  induction h generalizing root with
  | @here p run =>
    show run.scope.completed.Perm (b.published (b.home p.serial))
    rw [htold.home_eq]
    exact hread
  | called _ ih =>
    obtain ⟨-, own, inside⟩ := htold
    exact ih (inside _ rfl) own
  | inPlace _ ih =>
    rw [Site.run_within, Site.process_within]
    exact ih (htold.of_runs rfl) hread
  | child hmem _ ih =>
    rw [Site.run_within, Site.process_within]
    exact ih (htold.of_runs ⟨_, hmem⟩) hread

end Process

/-! ## Steps -/

namespace Scope

variable {s s' : Scope}

theorem SameAt.completed_eq (h : s.SameAt {completedSlot} s') : s'.completed = s.completed := by
  unfold completed
  rw [h.get?_eq completedSlot rfl]

theorem completed_publish (s : Scope) (entries : List String) :
    (s.publish entries).completed = entries := by
  simp [completed, publish]

/-- No slot of a unit is that of what groups have completed. -/
theorem free_completedSlot (u : String) : Free {completedSlot} u :=
  ⟨routeSlot_ne_completedSlot u, forkSlot_ne_completedSlot u⟩

end Scope

namespace Engine

def bulletin (e : Engine) : Journal.Bulletin := Journal.bulletin e.journal.toList

@[simp] theorem bulletin_record (e : Engine) (task walk : Nat) (o : Occurrence) :
    (e.record task walk o).bulletin = e.bulletin.note ⟨task, walk, o⟩ := by
  unfold bulletin
  rw [record, Array.toList_push, Journal.bulletin_concat]

end Engine

namespace Journal.Bulletin

variable {b b' b'' : Bulletin} {next next' root root' : Nat} {walks walks' : List Nat}

theorem BlankFrom.mono (h : b.BlankFrom next) (hle : next ≤ next') : b.BlankFrom next' :=
  ⟨fun w hw => h.home w (hle.trans hw), fun w hw => h.forked w (hle.trans hw),
    fun w hw => h.published w (hle.trans hw)⟩

theorem Alters.refl (b : Bulletin) (next : Nat) (walks : List Nat) (root : Nat) :
    b.Alters next walks root b :=
  ⟨fun _ _ => rfl, fun _ _ _ => rfl, fun _ _ _ _ => rfl⟩

theorem Alters.trans (h : b.Alters next walks root b') (h' : b'.Alters next' walks root b'')
    (hle : next ≤ next') : b.Alters next walks root b'' := by
  refine ⟨fun w hw => ?_, fun w hw hne => ?_, fun w hw hne hroot => ?_⟩
  · exact (h'.home w (hw.trans_le hle)).trans (h.home w hw)
  · exact (h'.forked w (hw.trans_le hle) hne).trans (h.forked w hw hne)
  · exact (h'.published w (hw.trans_le hle) hne hroot).trans (h.published w hw hne hroot)

theorem Alters.mono (h : b.Alters next walks root b') (hwalks : walks ⊆ walks')
    (hroot : root = root' ∨ root ∈ walks') : b.Alters next walks' root' b' := by
  refine ⟨h.home, fun w hw hne => h.forked w hw fun hmem => hne (hwalks hmem), ?_⟩
  refine fun w hw hne hne' => h.published w hw (fun hmem => hne (hwalks hmem)) ?_
  rintro rfl
  exact hroot.elim hne' hne

/-- A walk comes to a fork. -/
theorem BlankFrom.fork (h : b.BlankFrom next) {serial : Nat} (hserial : serial < next)
    (entries : List String) :
    BlankFrom { b with forked := Function.update b.forked serial entries } next := by
  refine ⟨h.home, fun w hw => ?_, h.published⟩
  exact (Function.update_of_ne (hserial.trans_le hw).ne' ..).trans (h.forked w hw)

theorem alters_fork (b : Bulletin) (next serial root : Nat) (entries : List String) :
    b.Alters next [serial] root
      { b with forked := Function.update b.forked serial entries } := by
  refine ⟨fun _ _ => rfl, fun w _ hne => Function.update_of_ne ?_ .., fun _ _ _ _ => rfl⟩
  exact fun heq => hne (List.mem_singleton.mpr heq)

/-- A walk begins in a run. -/
theorem BlankFrom.start (h : b.BlankFrom next) (root : Nat) :
    BlankFrom { b with home := Function.update b.home next root } (next + 1) := by
  refine ⟨fun w hw => ?_, fun w hw => h.forked w (Nat.le_of_succ_le hw),
    fun w hw => h.published w (Nat.le_of_succ_le hw)⟩
  exact (Function.update_of_ne (Nat.lt_of_succ_le hw).ne' ..).trans (h.home w (Nat.le_of_succ_le hw))

theorem alters_start (b : Bulletin) (next : Nat) (walks : List Nat) (root : Nat) :
    b.Alters next walks root { b with home := Function.update b.home next root } :=
  ⟨fun _ hw => Function.update_of_ne hw.ne .., fun _ _ _ => rfl, fun _ _ _ _ => rfl⟩

end Journal.Bulletin

/-- The bulletin of an engine is right about a process in the run with a given root. -/
structure Process.Informed (root : Nat) (p : Process) (run : RunState) (e : Engine) : Prop where
  blank : e.bulletin.BlankFrom e.nextSerial
  told : p.ToldBy e.bulletin root
  read : run.scope.completed.Perm (e.bulletin.published root)

/-- From one engine to a later one, the bulletin has changed for no walks but some that there were,
and for the run with a given root. -/
structure Engine.Informs (e : Engine) (walks : List Nat) (root : Nat) (e' : Engine) : Prop where
  next : e.nextSerial ≤ e'.nextSerial
  alters : e.bulletin.Alters e.nextSerial walks root e'.bulletin

namespace Engine.Informs

variable {e e' e'' : Engine} {walks walks' : List Nat} {root root' : Nat}

theorem trans (h : e.Informs walks root e') (h' : e'.Informs walks root e'') :
    e.Informs walks root e'' :=
  ⟨h.next.trans h'.next, h.alters.trans h'.alters h.next⟩

theorem mono (h : e.Informs walks root e') (hwalks : walks ⊆ walks')
    (hroot : root = root' ∨ root ∈ walks') : e.Informs walks' root' e' :=
  ⟨h.next, h.alters.mono hwalks hroot⟩

end Engine.Informs

namespace Scene

open Journal (Bulletin)

variable {s s' : Scene} {task serial root : Nat}

theorem bulletin_announce (s : Scene) (task serial : Nat) (job : Job) (moment : Moment)
    (failure : Option Failure) :
    (s.announce task serial job moment failure).engine.bulletin = s.engine.bulletin ∧
      (s.announce task serial job moment failure).engine.nextSerial = s.engine.nextSerial := by
  obtain ⟨event, heq⟩ := s.announce_eq task serial job moment failure
  rw [heq]
  refine ⟨?_, rfl⟩
  simp only [Engine.bulletin, Array.toList_appendList]
  exact Journal.bulletin_remarks ..

theorem bulletin_endUnit (s : Scene) (task serial : Nat) (job : Job) (moment : Moment)
    (failure : Option Failure) (result : Option Mishap) :
    let ended := (s.announce task serial job moment failure).endUnit task serial job result
    ended.engine.bulletin = s.engine.bulletin ∧ ended.engine.nextSerial = s.engine.nextSerial := by
  obtain ⟨hbulletin, hnext⟩ := bulletin_announce s task serial job moment failure
  rw [endUnit_eq]
  exact ⟨(Engine.bulletin_record ..).trans hbulletin, hnext⟩

theorem informed_of {b : Bulletin} (hbulletin : s'.engine.bulletin = b)
    (hnext : s.engine.nextSerial ≤ s'.engine.nextSerial) (hblank : b.BlankFrom s'.engine.nextSerial)
    (htold : (s'.process serial).ToldBy b root)
    (hread : s'.run.scope.completed.Perm (b.published root))
    (halters : s.engine.bulletin.Alters s.engine.nextSerial [serial] root b) :
    (s'.process serial).Informed root s'.run s'.engine ∧
      s.engine.Informs [serial] root s'.engine := by
  subst hbulletin
  exact ⟨⟨hblank, htold, hread⟩, hnext, halters⟩

/-- What a walk does that concerns no groups changes nothing of what is told and read. -/
theorem informed_quiet (h : (s.process serial).Informed root s.run s.engine)
    (hbulletin : s'.engine.bulletin = s.engine.bulletin)
    (hnext : s'.engine.nextSerial = s.engine.nextSerial)
    (hscope : s'.run.scope.completed = s.run.scope.completed)
    (hown : s'.activity.ToldBy s.engine.bulletin serial) (halone : ∀ q, ¬ s'.activity.Runs q) :
    (s'.process serial).Informed root s'.run s'.engine ∧
      s.engine.Informs [serial] root s'.engine := by
  refine informed_of hbulletin hnext.ge ?_ (Process.toldBy_alone h.told.home_eq hown halone) ?_ (.refl ..)
  · rw [hnext]
    exact h.blank
  · rw [hscope]
    exact h.read

/-- A group joins: without a failure, what its branches have completed is published, and that is all
of them. -/
theorem informed_close {entries completed : List String} (hblank : s.engine.bulletin.BlankFrom s.engine.nextSerial)
    (hhome : s.engine.bulletin.home serial = root)
    (hforked : s.engine.bulletin.forked serial = entries) (hentries : entries ≠ [])
    (hread : s.run.scope.completed.Perm (s.engine.bulletin.published root))
    (hroot : root < s.engine.nextSerial) (task : Nat) (anchor : String) (resume : Resume) (result : Option Failure)
    (hcompleted : result = none → completed.Perm entries) :
    ((s.close task serial anchor resume result completed).process serial).Informed root
        (s.close task serial anchor resume result completed).run
        (s.close task serial anchor resume result completed).engine ∧
      s.engine.Informs [serial] root (s.close task serial anchor resume result completed).engine := by
  have hsteers : ((s.run.publish result completed).scope).SameAt {Scope.completedSlot}
      (s.close task serial anchor resume result completed).run.scope :=
    Scope.Attends.sameAt (Walk.attends_forkDone (fun u _ => Scope.free_completedSlot u)
      (fun _ _ u _ => Scope.free_completedSlot u) ..)
  have hbulletin : (s.close task serial anchor resume result completed).engine.bulletin =
      s.engine.bulletin.note ⟨task, serial, .joined anchor result⟩ := Engine.bulletin_record ..
  cases result with
  | some failure =>
    refine informed_of hbulletin le_rfl hblank (Process.toldBy_alone hhome trivial fun _ => id) ?_
      (.refl ..)
    rw [hsteers.completed_eq]
    exact hread
  | none =>
    have hnote : s.engine.bulletin.note ⟨task, serial, .joined anchor none⟩ =
        { s.engine.bulletin with
          published := Function.update s.engine.bulletin.published root entries } := by
      rw [Bulletin.note]
      simp only [hforked, hhome, if_neg hentries]
    refine informed_of (hbulletin.trans hnote) le_rfl ⟨hblank.home, hblank.forked, fun w hw => ?_⟩
      (Process.toldBy_alone hhome trivial fun _ => id) ?_
      ⟨fun _ _ => rfl, fun _ _ _ => rfl, fun w _ _ hne => Function.update_of_ne hne ..⟩
    · exact (Function.update_of_ne (hroot.trans_le hw).ne' ..).trans (hblank.published w hw)
    · rw [hsteers.completed_eq]
      show (s.run.scope.publish completed).completed.Perm
        (Function.update s.engine.bulletin.published root entries root)
      rw [Scope.completed_publish, Function.update_self]
      exact hcompleted rfl

/-- Branches that are over and of which none has failed have all succeeded. -/
theorem succeeded_of_join {anchor : String} {children : List Child}
    (hover : children.all Child.isOver = true) (h : joinFailure? anchor children = none) :
    Child.succeeded children = children.map Child.entry := by
  rw [joinFailure?, List.findSome?_eq_none_iff] at h
  rw [List.all_eq_true] at hover
  rw [Child.succeeded, ← List.filterMap_eq_map]
  refine List.filterMap_congr fun child hchild => ?_
  have hfailure : child.failure? = none := by simpa using h child hchild
  cases child with
  | running => exact absurd (hover _ hchild) (by simp [Child.isOver])
  | refused | cancelled => cases hfailure
  | ended entry failure =>
    obtain rfl : failure = none := hfailure
    rfl

/-- What a walk does where it stands leaves the bulletin right about it. -/
theorem Steps.informed (h : s.Steps task serial s')
    (hinformed : (s.process serial).Informed root s.run s.engine)
    (hbelow : ∀ w ∈ (s.process serial).serials, w < s.engine.nextSerial)
    (hroot : root < s.engine.nextSerial) (hspares : (s.process serial).Spares {Scope.completedSlot})
    (hengine : s.engine.Spares {Scope.completedSlot}) :
    (s'.process serial).Informed root s'.run s'.engine ∧
      s.engine.Informs [serial] root s'.engine := by
  have hserial : serial < s.engine.nextSerial := hbelow serial List.mem_cons_self
  have hscope : (∀ anchor resume children completed,
      s.activity ≠ .forking anchor resume [] children completed) →
      s'.run.scope.completed = s.run.scope.completed := fun hjoin =>
    (h.sameAt hspares hengine (fun u _ => Scope.free_completedSlot u) fun _ => hjoin).completed_eq
  obtain ⟨hblank, ⟨hhome, hown, hinside⟩, hread⟩ := id hinformed
  have hnew : s.engine.bulletin.home s.engine.nextSerial = s.engine.nextSerial :=
    hblank.home _ le_rfl
  cases h with
  | advance h | queues h | sleeps h | wakes h | tidies h | fails h =>
    exact informed_quiet hinformed rfl rfl (hscope (by rw [h]; nofun)) trivial fun _ => id
  | missing h | begins h | granted h =>
    exact informed_quiet hinformed (Engine.bulletin_record ..) rfl (hscope (by rw [h]; nofun)) trivial
      fun _ => id
  | does h hdoes =>
    refine informed_quiet hinformed ?_ ?_ (hscope (by rw [h]; nofun)) trivial fun _ => id
    · cases hdoes with
      | note => exact Engine.bulletin_record ..
      | access | signalRoute | signalFork | payload | viewPool | closePool | addUnit | addFlow
      | eraseUnit | noFlow => rfl
    · cases hdoes <;> rfl
  | runs h =>
    obtain ⟨hbulletin, hnext⟩ := bulletin_announce s task serial _ .before none
    exact informed_quiet hinformed hbulletin hnext (hscope (by rw [h]; nofun)) trivial fun _ => id
  | ends h | gaveUp h =>
    exact informed_quiet hinformed (bulletin_endUnit ..).1 (bulletin_endUnit ..).2
      (hscope (by rw [h]; nofun)) (by rw [endUnit_eq]; trivial) (by rw [endUnit_eq]; exact fun _ => id)
  | opens h =>
    refine informed_of (b := s.engine.bulletin) rfl (Nat.le_succ _) (hblank.mono (Nat.le_succ _))
      (.mk hhome ?_ fun q hruns => ?_) hread (.refl ..)
    · -- nothing has been published in a run that begins
      have hnone := hblank.published s.engine.nextSerial le_rfl
      show List.Perm [] (s.engine.bulletin.published s.engine.nextSerial)
      rw [hnone]
    · cases hruns
      exact Process.toldBy_alone hnew trivial fun _ => id
  | @forksNone anchor resume h =>
    have hforked : (s.record task serial (.forked anchor [])).engine.bulletin =
        { s.engine.bulletin with forked := Function.update s.engine.bulletin.forked serial [] } :=
      Engine.bulletin_record ..
    refine informed_of (b := { s.engine.bulletin with
        forked := Function.update s.engine.bulletin.forked serial [] }) ?_ le_rfl
      (hblank.fork hserial []) (Process.toldBy_alone hhome trivial fun _ => id) ?_
      (Bulletin.alters_fork ..)
    · refine (Engine.bulletin_record ..).trans ?_
      rw [hforked]
      simp [Bulletin.note]
    · rw [hscope (by rw [h]; nofun)]
      exact hread
  | @forksOne anchor branch resume h =>
    have hforked : (s.engine.record task serial (.forked anchor [branch.entry])).bulletin =
        { s.engine.bulletin with
          forked := Function.update s.engine.bulletin.forked serial [branch.entry] } :=
      Engine.bulletin_record ..
    refine informed_of (b := { s.engine.bulletin with
        forked := Function.update s.engine.bulletin.forked serial [branch.entry]
        home := Function.update s.engine.bulletin.home s.engine.nextSerial root }) ?_ (Nat.le_succ _)
      ((hblank.fork hserial _).start root) (.mk ?_ (Function.update_self ..) fun q hruns => ?_) hread
      ((Bulletin.alters_fork ..).trans (Bulletin.alters_start ..) le_rfl)
    · refine (Engine.bulletin_record ..).trans ?_
      rw [show Engine.bulletin { s.engine.record task serial (.forked anchor [branch.entry]) with
        nextSerial := s.engine.nextSerial + 1 } = _ from hforked]
      simp only [Bulletin.note, hhome]
    · exact (Function.update_of_ne hserial.ne ..).trans hhome
    · cases hruns
      exact Process.toldBy_alone (Function.update_self ..) trivial fun _ => id
  | @forks anchor branches resume h htwo =>
    refine informed_of (Engine.bulletin_record ..) le_rfl (hblank.fork hserial _)
      (.mk hhome ⟨Function.update_self .., ?_, List.Perm.refl []⟩ fun q hruns => ?_) hread
      (Bulletin.alters_fork ..)
    · show Function.update s.engine.bulletin.forked serial (branches.map Branch.entry) serial ≠ []
      rw [Function.update_self, ← List.length_pos_iff, List.length_map]
      exact Nat.zero_lt_of_lt htwo
    · obtain ⟨entry, hmem⟩ := hruns
      cases hmem
  | @starts anchor resume branch toStart children completed h =>
    rw [h] at hown hinside
    obtain ⟨hentries, hne, hcompleted⟩ := hown
    have hchildren : ∀ w ∈ Child.serialsIn children, w < s.engine.nextSerial := fun w hw =>
      hbelow w (List.mem_cons_of_mem _ (by rw [h]; exact hw))
    refine informed_of (b := { s.engine.bulletin with
        home := Function.update s.engine.bulletin.home s.engine.nextSerial root }) ?_ (Nat.le_succ _)
      (hblank.start root) (.mk ?_ ⟨?_, hne, ?_⟩ fun q hruns => ?_) hread (Bulletin.alters_start ..)
    · refine (Engine.bulletin_record ..).trans ?_
      show s.engine.bulletin.note _ = _
      simp only [Bulletin.note, hhome]
    · exact (Function.update_of_ne hserial.ne ..).trans hhome
    · simpa [Child.entry] using hentries
    · simpa [Child.succeeded] using hcompleted
    · rcases Child.running_of_started hruns with rfl | ⟨entry, hmem⟩
      · exact Process.toldBy_alone (Function.update_self ..) trivial fun _ => id
      · -- the other branches have lower numbers
        refine (hinside q ⟨entry, hmem⟩).congr (fun w hw => ?_) (fun _ _ => rfl) fun _ _ => rfl
        exact Function.update_of_ne (hchildren w (Child.mem_serialsIn hmem hw)).ne ..
  | @refuses anchor resume branch toStart children completed h =>
    rw [h] at hown hinside
    obtain ⟨hentries, hne, hcompleted⟩ := hown
    refine informed_of (b := s.engine.bulletin) rfl le_rfl hblank
      (.mk hhome ⟨?_, hne, ?_⟩ fun q hruns => ?_) hread (.refl ..)
    · simpa [Child.entry] using hentries
    · simpa [Child.succeeded] using hcompleted
    · exact hinside q (Child.running_of_refused hruns)
  | @joins anchor resume children completed h hover =>
    rw [h] at hown
    obtain ⟨hentries, hne, hcompleted⟩ := hown
    rw [List.map_nil, List.append_nil] at hentries
    refine informed_close hblank hhome hentries (hentries ▸ hne) hread hroot task anchor resume _
      fun hnone => ?_
    rw [← succeeded_of_join hover hnone]
    exact hcompleted

end Scene

/-! ## Steps in a tree -/

namespace Process

variable {who task root : Nat} {p p' : Process} {run run' : RunState} {e e' : Engine} {site : Site}

theorem serial_notMem (h : p.serials.Nodup) : p.serial ∉ p.activity.serials := by
  rw [p.serials_eq] at h
  exact (List.nodup_cons.mp h).1

theorem mem_serials_of_activity {w : Nat} (h : w ∈ p.activity.serials) : w ∈ p.serials := by
  rw [p.serials_eq]
  exact List.mem_cons_of_mem _ h

/-- What the bulletin has told of a process that does nothing, it goes on telling. -/
theorem ToldBy.informs {walks : List Nat} {home : Nat} (h : p.ToldBy e.bulletin home)
    (hinforms : e.Informs walks root e') (hbelow : ∀ w ∈ p.serials, w < e.nextSerial)
    (hothers : ∀ w ∈ p.serials, w ∉ walks) (hroot : root ∉ p.activity.serials) :
    p.ToldBy e'.bulletin home := by
  refine h.congr (fun w hw => hinforms.alters.home w (hbelow w hw))
    (fun w hw => hinforms.alters.forked w (hbelow w hw) (hothers w hw)) fun w hw => ?_
  have hmem : w ∈ p.serials := mem_serials_of_activity hw
  refine hinforms.alters.published w (hbelow w hmem) (hothers w hmem) ?_
  rintro rfl
  exact hroot hw

section

variable {serial : Nat} {walk : Walk} {anchor entry : String} {resume : Resume}
  {toStart : List (Branch Plan)} {before after : List Child} {completed completed' : List String}
  {q : Process}

/-- One of the branches of a fork has done something, and stands for what has become of it. -/
theorem toldBy_forking {child : Child} (h : (mk serial walk (.forking anchor resume toStart
      (before ++ .running entry q :: after) completed)).ToldBy e.bulletin root)
    (hnodup : (serial :: Child.serialsIn (before ++ .running entry q :: after)).Nodup)
    (hbelow : ∀ w ∈ serial :: Child.serialsIn (before ++ .running entry q :: after), w < e.nextSerial)
    (hroot : root ∉ Child.serialsIn (before ++ .running entry q :: after))
    (hinforms : e.Informs q.serials root e') (hentry : child.entry = entry)
    (hcompleted : completed' = completed ++ Child.succeeded [child])
    (hrunning : ∀ other q', child = .running other q' → q'.ToldBy e'.bulletin root) :
    (mk serial walk (.forking anchor resume toStart (before ++ child :: after)
      completed')).ToldBy e'.bulletin root := by
  obtain ⟨hhome, ⟨hentries, hne, hperm⟩, hinside⟩ := h
  obtain ⟨hserial, hchildren⟩ := List.nodup_cons.mp hnodup
  have hlt : serial < e.nextSerial := hbelow serial List.mem_cons_self
  have hforked := hinforms.alters.forked serial hlt fun hmem =>
    hserial (Child.mem_serialsIn (mem_children before after entry q) hmem)
  refine .mk ((hinforms.alters.home serial hlt).trans hhome) ⟨?_, ?_, ?_⟩ fun q' hruns => ?_
  · rw [hforked, hentries, List.map_append, List.map_append, List.map_cons, List.map_cons, hentry]
    rfl
  · rw [hforked]
    exact hne
  · have hold : Child.succeeded (before ++ .running entry q :: after) =
        Child.succeeded before ++ Child.succeeded after := by simp [Child.succeeded]
    have hnew : Child.succeeded (before ++ child :: after) =
        Child.succeeded before ++ (Child.succeeded [child] ++ Child.succeeded after) := by
      rw [← List.singleton_append (l := after)]
      simp only [Child.succeeded, List.filterMap_append]
    rw [hold] at hperm
    rw [hnew, hcompleted]
    refine (hperm.append_right _).trans ?_
    rw [List.append_assoc]
    exact (List.perm_append_comm).append_left _
  · obtain ⟨other, hmem⟩ := hruns
    rcases mem_around.mp hmem with heq | hsibling
    · exact hrunning other q' heq
    · -- the other branches share no number with the one that has moved
      have hmem' := mem_of_around hsibling (.running entry q)
      refine (hinside q' ⟨other, hmem'⟩).informs hinforms (fun w hw => ?_) (fun w hw hw' => ?_)
        fun hw => ?_
      · exact hbelow w (List.mem_cons_of_mem _ (Child.mem_serialsIn hmem' hw))
      · rw [Child.serialsIn_eq_flatMap] at hchildren
        exact not_mem_of_nodup_flatMap hchildren hsibling hw hw'
      · exact hroot (Child.mem_serialsIn hmem' (mem_serials_of_activity hw))

end

/-- Whatever a task does, the bulletin stays right. -/
theorem Moves.informed (h : p.Moves who site task run e p' run' e')
    (hinformed : p.Informed root run e) (hnodup : p.serials.Nodup)
    (hbelow : ∀ w ∈ p.serials, w < e.nextSerial) (hroot : root < e.nextSerial)
    (hinside : root ∉ p.activity.serials) (hspares : p.Spares {Scope.completedSlot})
    (hengine : e.Spares {Scope.completedSlot}) :
    p'.Informed root run' e' ∧ e.Informs p.serials root e' := by
  induction h generalizing root with
  | @here serial walk activity run e s h =>
    obtain ⟨hs, hinforms⟩ := h.informed (s := ⟨walk, activity, run, e⟩) hinformed hbelow hroot hspares
      hengine
    exact ⟨hs, hinforms.next, hinforms.alters.mono (by simp [Process.serials]) (.inl rfl)⟩
  | @called task serial walk job inner inner' run q q' next e e' site h hrunning ih =>
    obtain ⟨hblank, ⟨hhome, hown, hin⟩, hread⟩ := hinformed
    obtain ⟨-, hspares⟩ := hspares
    obtain ⟨hserial, hq⟩ := List.nodup_cons.mp hnodup
    have hbelow' : ∀ w ∈ q.serials, w < e.nextSerial := fun w hw =>
      hbelow w (List.mem_cons_of_mem _ hw)
    obtain ⟨hq', hinforms⟩ := ih ⟨hblank, hin q rfl, hown⟩ hq hbelow' (hbelow' _ q.serial_mem_serials)
      (serial_notMem hq) (hspares q rfl) hengine
    have hne : root ≠ q.serial := fun heq => hinside (heq ▸ q.serial_mem_serials)
    refine ⟨⟨hq'.blank, .mk ?_ ?_ fun _ hruns => ?_, ?_⟩,
      hinforms.mono (List.subset_cons_self ..) (.inr (List.mem_cons_of_mem _ q.serial_mem_serials))⟩
    · exact (hinforms.alters.home serial (hbelow serial List.mem_cons_self)).trans hhome
    · rw [Activity.ToldBy, h.serial]
      exact hq'.read
    · cases hruns
      rw [Activity.homeOf, h.serial]
      exact hq'.told
    · rw [hinforms.alters.published root hroot hinside hne]
      exact hread
  | @returned task serial walk job inner inner' run q q' next e e' site h hfinished ih =>
    obtain ⟨hblank, ⟨hhome, hown, hin⟩, hread⟩ := hinformed
    obtain ⟨-, hspares⟩ := hspares
    obtain ⟨hserial, hq⟩ := List.nodup_cons.mp hnodup
    have hbelow' : ∀ w ∈ q.serials, w < e.nextSerial := fun w hw =>
      hbelow w (List.mem_cons_of_mem _ hw)
    obtain ⟨hq', hinforms⟩ := ih ⟨hblank, hin q rfl, hown⟩ hq hbelow' (hbelow' _ q.serial_mem_serials)
      (serial_notMem hq) (hspares q rfl) hengine
    have hne : root ≠ q.serial := fun heq => hinside (heq ▸ q.serial_mem_serials)
    refine ⟨⟨hq'.blank, toldBy_alone ?_ trivial fun _ => id, ?_⟩,
      hinforms.mono (List.subset_cons_self ..) (.inr (List.mem_cons_of_mem _ q.serial_mem_serials))⟩
    · exact (hinforms.alters.home serial (hbelow serial List.mem_cons_self)).trans hhome
    · rw [hinforms.alters.published root hroot hinside hne]
      exact hread
  | @inPlace task serial walk anchor entry resume branch branch' run run' e e' site h hrunning ih =>
    obtain ⟨hblank, ⟨hhome, hown, hin⟩, hread⟩ := hinformed
    obtain ⟨-, hspares⟩ := hspares
    obtain ⟨hserial, hbranch⟩ := List.nodup_cons.mp hnodup
    obtain ⟨hbranch', hinforms⟩ := ih ⟨hblank, hin branch rfl, hread⟩ hbranch
      (fun w hw => hbelow w (List.mem_cons_of_mem _ hw)) hroot
      (fun hmem => hinside (mem_serials_of_activity hmem)) (hspares branch rfl) hengine
    have hlt : serial < e.nextSerial := hbelow serial List.mem_cons_self
    refine ⟨⟨hbranch'.blank, .mk ?_ ?_ fun _ hruns => ?_, hbranch'.read⟩,
      hinforms.mono (List.subset_cons_self ..) (.inl rfl)⟩
    · exact (hinforms.alters.home serial hlt).trans hhome
    · exact (hinforms.alters.forked serial hlt hserial).trans hown
    · cases hruns
      exact hbranch'.told
  | @inPlaceEnded task serial walk anchor entry resume branch branch' run run' e e' s site h hfinished
      hclose ih =>
    obtain ⟨hblank, ⟨hhome, hown, hin⟩, hread⟩ := hinformed
    obtain ⟨-, hspares⟩ := hspares
    obtain ⟨hserial, hbranch⟩ := List.nodup_cons.mp hnodup
    obtain ⟨hbranch', hinforms⟩ := ih ⟨hblank, hin branch rfl, hread⟩ hbranch
      (fun w hw => hbelow w (List.mem_cons_of_mem _ hw)) hroot
      (fun hmem => hinside (mem_serials_of_activity hmem)) (hspares branch rfl) hengine
    have hlt : serial < e.nextSerial := hbelow serial List.mem_cons_self
    subst hclose
    obtain ⟨hclosed, hinforms'⟩ := Scene.informed_close
      (s := ⟨walk, .inPlace anchor entry resume branch, run', e'⟩) hbranch'.blank
      ((hinforms.alters.home serial hlt).trans hhome)
      ((hinforms.alters.forked serial hlt hserial).trans hown) (by simp) hbranch'.read
      (hroot.trans_le hinforms.next) task anchor resume (Scene.branchFailure? anchor entry branch')
      fun _ => .refl _
    exact ⟨hclosed, (hinforms.mono (List.subset_cons_self ..) (.inl rfl)).trans
      (hinforms'.mono (by simp) (.inl rfl))⟩
  | @child task serial walk anchor entry resume toStart before after completed branch branch' run run'
      e e' site h hrunning htask ih =>
    obtain ⟨hblank, htold, hread⟩ := hinformed
    have hmem := mem_children before after entry branch
    have hsub : branch.serials ⊆ Child.serialsIn (before ++ .running entry branch :: after) :=
      fun w hw => Child.mem_serialsIn hmem hw
    obtain ⟨hbranch', hinforms⟩ := ih ⟨hblank, htold.of_runs ⟨entry, hmem⟩, hread⟩
      (Child.nodup_serials (List.nodup_cons.mp hnodup).2 hmem)
      (fun w hw => hbelow w (List.mem_cons_of_mem _ (hsub hw))) hroot
      (fun hw => hinside (hsub (mem_serials_of_activity hw))) (hspares.of_runs ⟨entry, hmem⟩) hengine
    refine ⟨⟨hbranch'.blank, ?_, hbranch'.read⟩,
      hinforms.mono (fun w hw => List.mem_cons_of_mem _ (hsub hw)) (.inl rfl)⟩
    refine toldBy_forking htold hnodup hbelow hinside hinforms rfl (List.append_nil _).symm ?_
    rintro _ _ ⟨⟩
    exact hbranch'.told
  | @childEnded task serial walk anchor entry resume toStart before after completed completed' branch
      branch' run run' e e' site h hfinished htask hcompleted ih =>
    obtain ⟨hblank, htold, hread⟩ := hinformed
    have hmem := mem_children before after entry branch
    have hsub : branch.serials ⊆ Child.serialsIn (before ++ .running entry branch :: after) :=
      fun w hw => Child.mem_serialsIn hmem hw
    obtain ⟨hbranch', hinforms⟩ := ih ⟨hblank, htold.of_runs ⟨entry, hmem⟩, hread⟩
      (Child.nodup_serials (List.nodup_cons.mp hnodup).2 hmem)
      (fun w hw => hbelow w (List.mem_cons_of_mem _ (hsub hw))) hroot
      (fun hw => hinside (hsub (mem_serials_of_activity hw))) (hspares.of_runs ⟨entry, hmem⟩) hengine
    -- that the pool counts one task less is no matter
    have hfinished' : e.Informs branch.serials root { e' with pool := e'.pool.finish } :=
      ⟨hinforms.next, hinforms.alters⟩
    refine ⟨⟨hbranch'.blank, ?_, hbranch'.read⟩,
      hfinished'.mono (fun w hw => List.mem_cons_of_mem _ (hsub hw)) (.inl rfl)⟩
    refine toldBy_forking htold hnodup hbelow hinside hfinished' rfl ?_ fun _ _ heq => by cases heq
    rw [hcompleted]
    cases branch'.walk.failure <;> rfl

end Process

/-! ## Executors -/

namespace Executor

variable {start last x y : Executor} {past : List (Executor × Move)} {m : Move}

/-- The bulletin is right about all runs. -/
structure Informed (x : Executor) : Prop where
  blank : x.engine.bulletin.BlankFrom x.engine.nextSerial
  runs : ∀ run ∈ x.runs, run.root.ToldBy x.engine.bulletin run.root.serial ∧
    run.state.scope.completed.Perm (x.engine.bulletin.published run.root.serial)

theorem serial_lt (h : x.ledger.Numbered) {run : Run} (hrun : run ∈ x.runs) :
    ∀ w ∈ run.root.serials, w < x.engine.nextSerial := by
  intro w hw
  obtain ⟨live, hlive, rfl⟩ := List.mem_map.mp ((run.root.map_serial_lives none).symm ▸ hw)
  exact h.bounded live (List.mem_flatMap.mpr ⟨run, hrun, hlive⟩)

theorem Informed.move (h : x.Informed) (hnumbered : x.ledger.Numbered)
    (hspares : x.Spares {Scope.completedSlot}) (hmove : x.move m = some y) : y.Informed := by
  obtain ⟨hblank, hruns⟩ := h
  cases m with
  | step who =>
    obtain ⟨before, run, after, root, state, e', hsplit, hstep, rfl⟩ := exists_step hmove
    obtain ⟨site, hmoves⟩ := Process.moves_of_step hstep
    have hrun : run ∈ x.runs := by simp [hsplit]
    have hbelow := serial_lt hnumbered hrun
    have hown := nodup_of_mem hnumbered hrun
    obtain ⟨htold, hread⟩ := hruns run hrun
    obtain ⟨hroot, hinforms⟩ := hmoves.informed ⟨hblank, htold, hread⟩ hown hbelow
      (hbelow _ run.root.serial_mem_serials) (Process.serial_notMem hown) (hspares.runs run hrun)
      hspares.engine
    -- the other runs share no number with the one that has moved
    have hothers : ∀ own, own ∈ before ∨ own ∈ after → own.root.ToldBy e'.bulletin own.root.serial ∧
        own.state.scope.completed.Perm (e'.bulletin.published own.root.serial) := by
      intro own hown
      have hmem : own ∈ x.runs := hsplit ▸ mem_of_around hown run
      obtain ⟨htold, hread⟩ := hruns own hmem
      have hbelow' := serial_lt hnumbered hmem
      have hdisjoint : ∀ w ∈ own.root.serials, w ∉ run.root.serials :=
        fun w => not_mem_serials_of_other hnumbered hsplit hown
      have hserial := hdisjoint _ own.root.serial_mem_serials
      refine ⟨htold.informs hinforms hbelow' hdisjoint fun hw => ?_, ?_⟩
      · exact hdisjoint _ (Process.mem_serials_of_activity hw) run.root.serial_mem_serials
      · rw [hinforms.alters.published _ (hbelow' _ own.root.serial_mem_serials) hserial]
        · exact hread
        · exact fun heq => hserial (heq ▸ run.root.serial_mem_serials)
    refine ⟨hroot.blank, fun own hown => ?_⟩
    rcases mem_around.mp hown with rfl | hown
    · rw [← hmoves.serial] at hroot
      exact ⟨hroot.told, hroot.read⟩
    · exact hothers own hown
  | wait | beginShutdown =>
    cases hmove
    exact ⟨hblank, hruns⟩
  | launch request context =>
    cases hmove
    rcases x.launch_cases request context with
      ⟨outcome, plans, hlaunch⟩ | ⟨root, plans, hroot, hlaunch⟩
    · rw [hlaunch]
      exact ⟨hblank, hruns⟩
    · rw [hlaunch]
      refine ⟨hblank.mono (Nat.le_succ _), fun own hown => ?_⟩
      rcases List.mem_append.mp hown with hown | hown
      · exact hruns own hown
      · rw [List.mem_singleton.mp hown]
        have hhome := hblank.home x.engine.nextSerial le_rfl
        have hpublished : List.Perm [] (x.engine.bulletin.published x.engine.nextSerial) := by
          rw [hblank.published _ le_rfl]
        rcases hroot with ⟨plan, rfl⟩ | ⟨u, rfl⟩ <;>
          exact ⟨Process.toldBy_alone hhome trivial fun _ => id, hpublished⟩
  | settleShutdown =>
    cases hmove
    rcases x.settleShutdown_cases with ⟨shutdown, heq⟩ | ⟨-, heq⟩
    · rw [heq]
      exact ⟨hblank, hruns⟩
    · rw [heq]
      refine ⟨hblank, fun own hown => ?_⟩
      obtain ⟨run, hrun, rfl⟩ := List.mem_map.mp hown
      obtain ⟨htold, hread⟩ := hruns run hrun
      rw [← run.root.serial_cancelTasks] at htold hread
      exact ⟨htold.cancelTasks, hread⟩

/-- In every schedule the bulletin is right about all runs. -/
theorem History.informed (h : start.History past last) (hfits : start.Fits)
    (hnumbered : start.ledger.Numbered) (hspares : start.Spares {Scope.completedSlot})
    (hstart : start.Informed) : last.Informed := by
  induction h with
  | start => exact hstart
  | move hpast hmove ih =>
    exact ih.move (hpast.numbered hfits hnumbered) (hpast.spares hspares) hmove

theorem informed_build {config : Config} {registry : Registry} {listeners : Listeners}
    (h : build config registry listeners = .ok x) :
    x.Informed ∧ Journal.StartsNew x.ledger.journal := by
  obtain rfl := eq_of_build h
  refine ⟨⟨⟨fun _ _ => rfl, fun _ _ => rfl, fun _ _ => rfl⟩, nofun⟩, ?_⟩
  intro before e after entry branch hjournal
  exact absurd hjournal (by simp [ledger, Engine.ledger, Engine.start])

/-- When a group has joined, all walks of its run read the entries of its branches, each once, until
another group of the run joins. It does not matter where in the run the group was forked and in what
order its branches have ended, nor what other runs do, the flows that units of this run call
included. -/
theorem History.reads_last_joined {config : Config} {registry : Registry} {listeners : Listeners}
    {before between after : List JournalEntry} {i who task task' w : Nat} {anchor anchor' : String}
    {entries : List String} {site : Site} (hbuild : build config registry listeners = .ok start)
    (hunits : registry.Spares {Scope.completedSlot})
    (hlisteners : listeners.Spare {Scope.completedSlot}) (h : start.History past last)
    (hjournal : last.engine.journal.toList = before ++ ⟨task, w, .forked anchor entries⟩ ::
      between ++ ⟨task', w, .joined anchor' none⟩ :: after)
    (hgroup : ∀ e ∈ between, e.walk = w → ∀ anchor entries, e.occurrence ≠ .forked anchor entries)
    (hentries : entries ≠ [])
    (hlast : ∀ e ∈ after, ∀ anchor, e.occurrence = .joined anchor none →
      Journal.home last.engine.journal.toList e.walk ≠ Journal.home last.engine.journal.toList w)
    (hat : last.At i who site)
    (hrun : Journal.home last.engine.journal.toList site.process.serial =
      Journal.home last.engine.journal.toList w) :
    site.run.scope.completed.Perm entries := by
  obtain ⟨hfits, hsound⟩ := sound_build hbuild
  obtain ⟨hinformed, hnew⟩ := informed_build hbuild
  have hlastInformed := h.informed hfits hsound.toNumbered (spares_build hbuild hunits hlisteners)
    hinformed
  have hstartsNew : Journal.StartsNew last.engine.journal.toList :=
    h.startsNew hfits hsound.toNumbered hnew
  obtain ⟨run, hmem, hat⟩ := hat
  obtain ⟨htold, hread⟩ := hlastInformed.runs run (List.mem_of_getElem? hmem)
  have hforked : (Journal.bulletin (before ++ ⟨task, w, .forked anchor entries⟩ :: between)).forked w =
      entries := by
    rw [← List.singleton_append, ← List.append_assoc, Journal.forked_append hgroup,
      Journal.bulletin_concat]
    exact Function.update_self ..
  have hpublished := hstartsNew.published_eq hjournal (by rwa [hforked]) hlast
  rw [← hforked, ← hpublished, ← hrun]
  exact hat.read htold hread

/-- In one of two branches, a group of two has joined and the unit behind it is at work. -/
theorem History.reads_last_joined_branch : ∃ (last : Executor) (past : List (Executor × Move))
    (site : Site) (before between after : List JournalEntry),
    (doing [("a", .done), ("b", .done), ("c", .done), ("d", .done)]).History past last ∧
      last.At 0 1 site ∧ site.process.serial = 1 ∧ site.process.activity.unit? = some "c" ∧
      last.engine.journal.toList = before ++ ⟨1, 1, .forked "__fork__#0" ["a", "b"]⟩ ::
        between ++ ⟨1, 1, .joined "__fork__#0" none⟩ :: after ∧
      site.run.scope.completed.Perm ["a", "b"] := by
  let units : List (String × Behavior) := [("a", .done), ("b", .done), ("c", .done), ("d", .done)]
  let plan := (Node.compile? (.parallel [.sequence [.parallel [.unit "a", .unit "b"], .unit "c"],
    .unit "d"])).getD {}
  let moves : List Move := .launch (.plan plan) {} ::
    [0, 0, 0, 0, 1, 1, 1, 1, 4, 4, 4, 4, 4, 4, 2, 2, 3, 3, 3, 3, 3, 3, 1, 1, 1].map .step
  let last := ((doing units).follow moves).2
  obtain ⟨hsites, hjournal⟩ :
      (last.sites 0 1).map (fun site => (site.process.serial, site.process.activity.unit?)) =
        [(1, some "c")] ∧
      last.engine.journal.toList = [⟨0, 0, .forked "__fork__#0" ["a", "d"]⟩,
        ⟨0, 0, .branchStarted "a" 1⟩, ⟨0, 0, .branchStarted "d" 2⟩] ++
        ⟨1, 1, .forked "__fork__#0" ["a", "b"]⟩ ::
          [⟨1, 1, .branchStarted "a" 3⟩, ⟨1, 1, .branchStarted "b" 4⟩, ⟨4, 4, .unitStarted "b"⟩,
            ⟨4, 4, .unitEnded "b" none⟩, ⟨2, 2, .unitStarted "d"⟩, ⟨3, 3, .unitStarted "a"⟩,
            ⟨3, 3, .unitEnded "a" none⟩] ++
        ⟨1, 1, .joined "__fork__#0" none⟩ :: [⟨1, 1, .unitStarted "c"⟩] := by
    decide +kernel
  obtain ⟨site, hsite, heq⟩ := List.map_eq_singleton_iff.mp hsites
  obtain ⟨hserial, hunit⟩ : site.process.serial = 1 ∧ site.process.activity.unit? = some "c" := by
    simpa using heq
  have hat : last.At 0 1 site := at_of_mem_sites (hsite ▸ List.mem_singleton_self site)
  have h : (doing units).History _ last := history_follow _ moves
  have hunits : Registry.Spares {Scope.completedSlot}
      (units.foldl (fun r u => r.addUnit u.1 (.doing u.1 u.2)) {}) :=
    Registry.spares_foldl_doing (by simpa [units] using Behavior.Spares.done) nofun
  clear_value last
  have hread := History.reads_last_joined (build_doing units) hunits nofun h hjournal (by simp)
    (by simp) (by simp) hat (by rw [hserial])
  exact ⟨last, _, site, _, _, _, h, hat, hserial, hunit, hjournal, hread⟩

/-- Two branches fork a group each. The group of the second one joins while the unit behind the first
group is at work, and that unit reads what the second group has left. -/
theorem reads_of_other_group : ∃ (last : Executor) (past : List (Executor × Move)) (site : Site)
    (before between after : List JournalEntry),
    (doing [("a", .done), ("b", .done), ("c", .done), ("d", .done), ("e", .done),
        ("f", .done)]).History past last ∧
      last.engine.journal.toList = before ++ ⟨1, 1, .forked "__fork__#0" ["a", "b"]⟩ ::
        between ++ ⟨1, 1, .joined "__fork__#0" none⟩ :: after ∧
      Journal.own after 1 = [.unitStarted "c"] ∧ last.At 0 1 site ∧ site.process.serial = 1 ∧
      site.process.activity.unit? = some "c" ∧ site.run.scope.completed = ["d", "e"] ∧
      ¬ site.run.scope.completed.Perm ["a", "b"] := by
  let plan := (Node.compile? (.parallel [.sequence [.parallel [.unit "a", .unit "b"], .unit "c"],
    .sequence [.parallel [.unit "d", .unit "e"], .unit "f"]])).getD {}
  let moves : List Move := .launch (.plan plan) {} ::
    ([0, 0, 0, 0, 1, 1, 1, 1, 2, 2, 2, 2] ++ List.replicate 6 3 ++ List.replicate 6 4 ++ [1, 1, 1] ++
      List.replicate 6 5 ++ List.replicate 6 6 ++ [2]).map .step
  let units : List (String × Behavior) := [("a", .done), ("b", .done), ("c", .done), ("d", .done),
    ("e", .done), ("f", .done)]
  let last := ((doing units).follow moves).2
  obtain ⟨hsites, hjournal⟩ :
      (last.sites 0 1).map (fun site => (site.process.serial, site.process.activity.unit?,
          site.run.scope.completed)) = [(1, some "c", ["d", "e"])] ∧
      last.engine.journal.toList = [⟨0, 0, .forked "__fork__#0" ["a", "d"]⟩,
        ⟨0, 0, .branchStarted "a" 1⟩, ⟨0, 0, .branchStarted "d" 2⟩] ++
        ⟨1, 1, .forked "__fork__#0" ["a", "b"]⟩ ::
          [⟨1, 1, .branchStarted "a" 3⟩, ⟨1, 1, .branchStarted "b" 4⟩,
            ⟨2, 2, .forked "__fork__#0" ["d", "e"]⟩, ⟨2, 2, .branchStarted "d" 5⟩,
            ⟨2, 2, .branchStarted "e" 6⟩, ⟨3, 3, .unitStarted "a"⟩, ⟨3, 3, .unitEnded "a" none⟩,
            ⟨4, 4, .unitStarted "b"⟩, ⟨4, 4, .unitEnded "b" none⟩] ++
        ⟨1, 1, .joined "__fork__#0" none⟩ :: [⟨1, 1, .unitStarted "c"⟩, ⟨5, 5, .unitStarted "d"⟩,
          ⟨5, 5, .unitEnded "d" none⟩, ⟨6, 6, .unitStarted "e"⟩, ⟨6, 6, .unitEnded "e" none⟩,
          ⟨2, 2, .joined "__fork__#0" none⟩] := by
    decide +kernel
  obtain ⟨site, hsite, heq⟩ := List.map_eq_singleton_iff.mp hsites
  obtain ⟨hserial, hunit, hcompleted⟩ : site.process.serial = 1 ∧
      site.process.activity.unit? = some "c" ∧ site.run.scope.completed = ["d", "e"] := by
    simpa using heq
  have hat : last.At 0 1 site := at_of_mem_sites (hsite ▸ List.mem_singleton_self site)
  have h : (doing units).History _ last := history_follow _ moves
  have hother : ¬ site.run.scope.completed.Perm ["a", "b"] := by
    rw [hcompleted]
    decide
  clear_value last
  exact ⟨last, _, site, _, _, _, h, hjournal, by decide, hat, hserial, hunit, hcompleted, hother⟩

end Executor

end Workflow
