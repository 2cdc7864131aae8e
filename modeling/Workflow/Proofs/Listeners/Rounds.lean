import Workflow.Listeners

/-!
# Whom an event is told to

Listeners come and go at any time, also while an event is being told: other tasks register and clear
listeners, and so do the listeners that are called. A `Switchboard` is a table of listeners with
everything that happens at it. Telling an event is a `Round`; any number of them are under way side by
side, and one act of a round calls the next listener or carries the reaction of the one that was
called one step on.

* `Listeners.Holds` is what every registration and every clearing keeps: the table holds exactly what
  was registered since the last clearing, sorted by priority and, within one priority, by rank. Ranks go
  up also beyond a clearing, so that is the order of registration.
* `Round.Serves` is what every act keeps of a round: the calls that were made and those that are pending
  are together those that the table gave for the event when the round began.
* A round comes to an end in finitely many acts of its own, because a reaction is a finite tree
  (`Round.ends`). Whatever others do in between is nothing to it.

`Switchboard.announces` draws the conclusions for all histories. A round during which nothing else
happens leaves behind what `Listeners.announce` says.
-/

namespace Workflow

/-! ## Registered listeners -/

namespace Subscription

/-- Whether a listener is to be told an event. -/
def IsFor (s : Subscription) (event : Notice) : Prop :=
  s.moment = event.moment ∧ (s.audience = .any ∨ s.audience = .kind event.kind)

instance (s : Subscription) (event : Notice) : Decidable (s.IsFor event) :=
  inferInstanceAs (Decidable (_ ∧ _))

/-- The order of the calls. -/
def Precedes (a b : Subscription) : Prop :=
  a.priority < b.priority ∨ a.priority = b.priority ∧ a.rank < b.rank

end Subscription

namespace Listeners

/-- The calls that tell an event to some listeners, given in the order of their registration. -/
structure Answers (calls : List Subscription) (live : List Subscription) (event : Notice) :
    Prop where
  each_once : calls.Perm (live.filter (·.IsFor event))
  ascending : calls.Pairwise fun a b => a.priority ≤ b.priority
  /-- Listeners of one priority are called in the order of their registration. -/
  ties : ∀ priority, calls.filter (·.priority = priority) =
    (live.filter (·.IsFor event)).filter (·.priority = priority)

/-- The table holds these listeners, given in the order of their registration. -/
structure Holds (l : Listeners) (live : List Subscription) : Prop where
  perm : l.registered.Perm live
  sorted : l.registered.Pairwise Subscription.Precedes
  ranked : live.Pairwise fun a b => a.rank < b.rank
  below : ∀ s ∈ live, s.rank < l.nextRank

theorem holds_empty : Holds {} [] := ⟨.refl _, .nil, .nil, nofun⟩

theorem place_perm (r : Subscription) (registered : List Subscription) :
    (place r registered).Perm (r :: registered) := by
  induction registered with
  | nil => exact .refl _
  | cons other rest ih =>
    rw [place]
    split
    · exact .refl _
    · exact (ih.cons other).trans (.swap r other rest)

/-- The newest registration is put behind all of its priority. -/
theorem place_sorted {r : Subscription} {registered : List Subscription}
    (hnewest : ∀ s ∈ registered, s.rank < r.rank)
    (hsorted : registered.Pairwise Subscription.Precedes) :
    (place r registered).Pairwise Subscription.Precedes := by
  induction registered with
  | nil => exact List.pairwise_singleton _ _
  | cons other rest ih =>
    obtain ⟨hother, hrest⟩ := List.pairwise_cons.mp hsorted
    rw [place]
    split
    · next hlt =>
      refine List.pairwise_cons.mpr ⟨?_, hsorted⟩
      intro s hs
      left
      rcases List.mem_cons.mp hs with rfl | hs
      · exact hlt
      · rcases hother s hs with hle | ⟨heq, -⟩ <;> omega
    · next hle =>
      refine List.pairwise_cons.mpr ⟨?_, ih (fun s hs => hnewest s (by simp [hs])) hrest⟩
      intro s hs
      rcases List.mem_cons.mp ((place_perm r rest).mem_iff.mp hs) with rfl | hs
      · have := hnewest other (by simp)
        by_cases heq : other.priority = s.priority
        · exact .inr ⟨heq, this⟩
        · exact .inl (by omega)
      · exact hother s hs

variable {l : Listeners} {live : List Subscription}

theorem Holds.register (h : l.Holds live) (moment : Moment) (audience : Audience) (priority : Int)
    (listener : Notice → Reaction) :
    (l.register moment audience priority listener).Holds
      (live ++ [⟨moment, audience, priority, l.nextRank, listener⟩]) where
  perm := (place_perm _ _).trans ((h.perm.cons _).trans (List.perm_append_singleton _ _).symm)
  sorted := place_sorted (fun s hs => h.below s (h.perm.mem_iff.mp hs)) h.sorted
  ranked := by
    refine List.pairwise_append.mpr ⟨h.ranked, List.pairwise_singleton _ _, ?_⟩
    intro s hs newest hnewest
    rw [List.mem_singleton.mp hnewest]
    exact h.below s hs
  below := by
    intro s hs
    show s.rank < l.nextRank + 1
    rcases List.mem_append.mp hs with hs | hs
    · exact Nat.lt_succ_of_lt (h.below s hs)
    · rw [List.mem_singleton.mp hs]
      exact Nat.lt_succ_self _

theorem holds_clear (l : Listeners) : l.clear.Holds [] := ⟨.refl _, .nil, .nil, nofun⟩

theorem matching_eq (l : Listeners) (event : Notice) :
    l.matching event = l.registered.filter (·.IsFor event) := by
  refine List.filter_congr fun s _ => ?_
  cases haudience : s.audience with
  | any => simp [Subscription.IsFor, Audience.covers, haudience]
  | kind wanted => simp [Subscription.IsFor, Audience.covers, haudience]

/-- Of one priority, the table and the registrations since the last clearing list the same. -/
theorem Holds.filter_eq (h : l.Holds live) (p : Subscription → Bool) (priority : Int) :
    (l.registered.filter p).filter (·.priority = priority) =
      (live.filter p).filter (·.priority = priority) := by
  have hranked : ((l.registered.filter p).filter (·.priority = priority)).Pairwise
      fun a b => a.rank < b.rank := by
    refine List.Pairwise.imp_of_mem ?_ ((h.sorted.filter p).filter _)
    intro a b ha hb hprecedes
    have ha := of_decide_eq_true (List.mem_filter.mp ha).2
    have hb := of_decide_eq_true (List.mem_filter.mp hb).2
    rcases hprecedes with hlt | ⟨-, hlt⟩
    · omega
    · exact hlt
  refine ((h.perm.filter p).filter _).eq_of_pairwise ?_ hranked ((h.ranked.filter p).filter _)
  intro a b _ _ hab hba
  omega

theorem Holds.answers (h : l.Holds live) (event : Notice) :
    Answers (l.matching event) live event := by
  rw [matching_eq]
  refine ⟨h.perm.filter _, (h.sorted.imp ?_).filter _, h.filter_eq _⟩
  rintro a b (hlt | ⟨heq, -⟩) <;> omega

end Listeners

/-! ## Rounds of calls -/

/-- What is left of a reaction after one step of it; nothing is left of one that is over. -/
def Reaction.next? : Reaction → Scope → Option Reaction
  | .done, _ | .panic, _ => none
  | .access _ next, scope => some (next scope)
  | .note _ next, _ | .listen _ _ _ _ next, _ | .clearListeners next, _ => some next

/-- An event on its way to the listeners that it is told to. -/
structure Round where
  event : Notice
  /-- The calls that were made, the last of which may be under way. -/
  made : List Subscription := []
  /-- What the last call has yet to do. -/
  current : Reaction := .done
  pending : List Subscription

namespace Round

/-- One step of the last call, or the next call if that is over. A panic ends a call and no more. -/
def next (r : Round) (scope : Scope) : Round :=
  match r.current.next? scope with
  | some rest => { r with current := rest }
  | none =>
    match r.pending with
    | [] => r
    | s :: rest => { r with made := r.made ++ [s], current := s.listener r.event, pending := rest }

/-- The last call has returned or panicked, and no call is pending. -/
def IsOver (r : Round) : Prop := r.pending = [] ∧ (r.current = .done ∨ r.current = .panic)

/-- These are the calls of a round that tells an event. -/
structure Serves (r : Round) (event : Notice) (calls : List Subscription) : Prop where
  event : r.event = event
  calls : r.made ++ r.pending = calls

variable {r : Round} {event : Notice} {calls : List Subscription}

theorem next_of_some {scope : Scope} {rest : Reaction} (h : r.current.next? scope = some rest) :
    r.next scope = { r with current := rest } := by
  rw [next, h]

theorem Serves.next (h : r.Serves event calls) (scope : Scope) : (r.next scope).Serves event calls := by
  unfold Round.next
  split
  · exact ⟨h.event, h.calls⟩
  · split
    · exact h
    · next s rest hpending =>
      refine ⟨h.event, ?_⟩
      rw [← h.calls, hpending, List.append_assoc, List.singleton_append]

/-- A round that is over, or will be whatever its listeners find in the scope. -/
inductive Ends : Round → Prop where
  | ended {r : Round} (h : r.IsOver) : Ends r
  | next {r : Round} (h : ∀ scope, Ends (r.next scope)) : Ends r

/-- A round ends if it does when its last call is over. -/
theorem ends_of_current {made pending : List Subscription}
    (hover : ∀ current, (∀ scope, current.next? scope = none) →
      Ends ⟨event, made, current, pending⟩) (current : Reaction) :
    Ends ⟨event, made, current, pending⟩ := by
  induction current with
  | done => exact hover .done fun _ => rfl
  | panic => exact hover .panic fun _ => rfl
  | access change next ih => exact .next fun scope => ih scope
  | note text next ih => exact .next fun _ => ih
  | listen moment audience priority listener next _ ih => exact .next fun _ => ih
  | clearListeners next ih => exact .next fun _ => ih

/-- Every round comes to an end. -/
theorem ends (r : Round) : r.Ends := by
  obtain ⟨event, made, current, pending⟩ := r
  induction pending generalizing made current with
  | nil =>
    refine ends_of_current (fun current hover => .ended ⟨rfl, ?_⟩) current
    cases current with
    | done => exact .inl rfl
    | panic => exact .inr rfl
    | access | note | listen | clearListeners => cases hover ∅
  | cons s rest ih =>
    refine ends_of_current (fun current hover => .next fun scope => ?_) current
    rw [Round.next, hover scope]
    exact ih (made ++ [s]) (s.listener event)

end Round

/-! ## Everything that happens at a table of listeners -/

/-- A table of listeners with the rounds of calls that have begun. -/
structure Switchboard where
  listeners : Listeners := {}
  /-- What was registered since the last clearing, in order. -/
  live : List Subscription := []
  rounds : List Round := []

namespace Switchboard

inductive Act where
  | register (moment : Moment) (audience : Audience) (priority : Int)
      (listener : Notice → Reaction)
  | clear
  /-- A round begins. -/
  | announce (event : Notice)
  /-- A round makes its next step, and finds this scope. -/
  | proceed (round : Nat) (scope : Scope)

def register (b : Switchboard) (moment : Moment) (audience : Audience) (priority : Int)
    (listener : Notice → Reaction) : Switchboard :=
  { b with
    listeners := b.listeners.register moment audience priority listener
    live := b.live ++ [⟨moment, audience, priority, b.listeners.nextRank, listener⟩] }

def clear (b : Switchboard) : Switchboard := { b with listeners := b.listeners.clear, live := [] }

/-- What the first step of a reaction does to the table. -/
def heed (b : Switchboard) : Reaction → Switchboard
  | .listen moment audience priority listener _ => b.register moment audience priority listener
  | .clearListeners _ => b.clear
  | .done | .panic | .access .. | .note .. => b

def step (b : Switchboard) : Act → Switchboard
  | .register moment audience priority listener => b.register moment audience priority listener
  | .clear => b.clear
  | .announce event =>
    { b with rounds := b.rounds ++ [{ event := event, pending := b.listeners.matching event }] }
  | .proceed i scope =>
    match b.rounds[i]? with
    | none => b
    | some r => { b.heed r.current with rounds := b.rounds.set i (r.next scope) }

def run (b : Switchboard) (acts : List Act) : Switchboard := acts.foldl step b

variable {b : Switchboard} {event : Notice} {calls : List Subscription} {i : Nat} {r : Round}

theorem run_append (b : Switchboard) (acts more : List Act) :
    b.run (acts ++ more) = (b.run acts).run more :=
  List.foldl_append

theorem step_proceed (h : b.rounds[i]? = some r) (scope : Scope) :
    b.step (.proceed i scope) = { b.heed r.current with rounds := b.rounds.set i (r.next scope) } := by
  simp only [step, h]

/-! ### The table -/

/-- The table holds what was registered since the last clearing. -/
def Sound (b : Switchboard) : Prop := b.listeners.Holds b.live

theorem Sound.heed (h : b.Sound) (reaction : Reaction) : (b.heed reaction).Sound := by
  cases reaction with
  | listen moment audience priority listener next =>
    exact Listeners.Holds.register h moment audience priority listener
  | clearListeners next => exact Listeners.holds_clear _
  | done | panic | access | note => exact h

theorem Sound.step (h : b.Sound) (act : Act) : (b.step act).Sound := by
  cases act with
  | register moment audience priority listener =>
    exact Listeners.Holds.register h moment audience priority listener
  | clear => exact Listeners.holds_clear _
  | announce event => exact h
  | proceed i scope =>
    rcases hround : b.rounds[i]? with _ | r
    · simpa only [Switchboard.step, hround] using h
    · rw [step_proceed hround]
      exact h.heed r.current

theorem Sound.run (h : b.Sound) (acts : List Act) : (b.run acts).Sound := by
  induction acts generalizing b with
  | nil => exact h
  | cons act rest ih => exact ih (h.step act)

/-! ### The rounds -/

/-- An act of its own is the next step of a round, and no other act changes it. -/
theorem step_rounds (h : b.rounds[i]? = some r) (act : Act) :
    (∃ scope, act = .proceed i scope ∧ (b.step act).rounds[i]? = some (r.next scope)) ∨
      (∀ scope, act ≠ .proceed i scope) ∧ (b.step act).rounds[i]? = some r := by
  have hlt := (List.getElem?_eq_some_iff.mp h).1
  cases act with
  | register => exact .inr ⟨nofun, h⟩
  | clear => exact .inr ⟨nofun, h⟩
  | announce event =>
    refine .inr ⟨nofun, ?_⟩
    show (b.rounds ++ _)[i]? = _
    rwa [List.getElem?_append_left hlt]
  | proceed j scope =>
    by_cases heq : j = i
    · subst heq
      refine .inl ⟨scope, rfl, ?_⟩
      rw [step_proceed h]
      exact List.getElem?_set_self hlt
    · refine .inr ⟨fun _ hact => heq (by cases hact; rfl), ?_⟩
      rcases hround : b.rounds[j]? with _ | other
      · simpa only [step, hround] using h
      · rw [step_proceed hround]
        show (b.rounds.set j _)[i]? = _
        rwa [List.getElem?_set_ne heq]

/-- A round is at this place, and these are its calls. -/
def Serves (b : Switchboard) (i : Nat) (event : Notice) (calls : List Subscription) : Prop :=
  ∃ r, b.rounds[i]? = some r ∧ r.Serves event calls

theorem Serves.step (h : b.Serves i event calls) (act : Act) : (b.step act).Serves i event calls := by
  obtain ⟨r, hround, hserves⟩ := h
  rcases step_rounds hround act with ⟨scope, -, hnext⟩ | ⟨-, hsame⟩
  · exact ⟨_, hnext, hserves.next scope⟩
  · exact ⟨r, hsame, hserves⟩

theorem Serves.run (h : b.Serves i event calls) (acts : List Act) :
    (b.run acts).Serves i event calls := by
  induction acts generalizing b with
  | nil => exact h
  | cons act rest ih => exact ih (h.step act)

theorem serves_announce (b : Switchboard) (event : Notice) :
    (b.step (.announce event)).Serves b.rounds.length event (b.listeners.matching event) :=
  ⟨_, List.getElem?_concat_length, rfl, rfl⟩

/-- The first acts of a sequence of acts. -/
def firstActs (acts : Nat → Act) (n : Nat) : List Act := (List.range n).map acts

theorem run_firstActs_succ (b : Switchboard) (acts : Nat → Act) (n : Nat) :
    b.run (firstActs acts (n + 1)) = (b.run (firstActs acts n)).step (acts n) := by
  rw [firstActs, List.range_succ, List.map_append, run_append]
  rfl

/-- A round that is never neglected for good comes to its end, whatever else happens. -/
theorem exists_isOver (acts : Nat → Act) (hfair : ∀ n, ∃ m, n ≤ m ∧ ∃ scope, acts m = .proceed i scope)
    {n : Nat} (h : (b.run (firstActs acts n)).rounds[i]? = some r) (hends : r.Ends) :
    ∃ m last, (b.run (firstActs acts m)).rounds[i]? = some last ∧ last.IsOver := by
  induction hends generalizing n with
  | ended hover => exact ⟨n, _, h, hover⟩
  | @next r _ ih =>
    refine Classical.byContradiction fun hnever => ?_
    -- then it never makes its next step, and is the same at all times
    have hsame : ∀ k, (b.run (firstActs acts (n + k))).rounds[i]? = some r := by
      intro k
      induction k with
      | zero => exact h
      | succ k ihk =>
        rw [← Nat.add_assoc, run_firstActs_succ]
        rcases step_rounds ihk (acts (n + k)) with ⟨scope, -, hnext⟩ | ⟨-, hsame⟩
        · rw [← run_firstActs_succ] at hnext
          exact absurd (ih scope hnext) hnever
        · exact hsame
    obtain ⟨m, hle, scope, hact⟩ := hfair n
    obtain ⟨k, rfl⟩ := Nat.exists_eq_add_of_le hle
    rcases step_rounds (hsame k) (acts (n + k)) with ⟨scope, -, hnext⟩ | ⟨hother, -⟩
    · rw [← run_firstActs_succ] at hnext
      exact hnever (ih scope hnext)
    · exact hother scope hact

/-! ### A round by itself -/

/-- By acts of one round alone, which find these or those scopes. -/
def Alone (i : Nat) (b last : Switchboard) : Prop :=
  ∃ scopes : List Scope, last = b.run (scopes.map (.proceed i))

variable {middle last : Switchboard}

theorem Alone.refl (i : Nat) (b : Switchboard) : Alone i b b := ⟨[], rfl⟩

theorem Alone.head {scope : Scope} (h : Alone i (b.step (.proceed i scope)) last) :
    Alone i b last := by
  obtain ⟨scopes, rfl⟩ := h
  exact ⟨scope :: scopes, rfl⟩

theorem Alone.trans (hfirst : Alone i b middle) (hsecond : Alone i middle last) :
    Alone i b last := by
  obtain ⟨scopes, rfl⟩ := hfirst
  obtain ⟨more, rfl⟩ := hsecond
  exact ⟨scopes ++ more, by rw [List.map_append, run_append]⟩

variable {made pending : List Subscription} {reaction rest : Reaction}

theorem proceed_current (scope : Scope) (h : b.rounds[i]? = some ⟨event, made, reaction, pending⟩)
    (hrest : reaction.next? scope = some rest) :
    (b.step (.proceed i scope)).listeners = (b.heed reaction).listeners ∧
      (b.step (.proceed i scope)).rounds[i]? = some ⟨event, made, rest, pending⟩ := by
  rw [step_proceed h, Round.next_of_some hrest]
  exact ⟨rfl, List.getElem?_set_self (List.getElem?_eq_some_iff.mp h).1⟩

/-- A round that is left to itself ends its last call, and then the table is what
`Reaction.perform` says. -/
theorem exists_performs (reaction : Reaction) (b : Switchboard)
    (h : b.rounds[i]? = some ⟨event, made, reaction, pending⟩) (reception : Reception)
    (hlisteners : b.listeners = reception.listeners) :
    ∃ last current, Alone i b last ∧ last.listeners = (reaction.perform reception).listeners ∧
      last.rounds[i]? = some ⟨event, made, current, pending⟩ ∧
      (current = .done ∨ current = .panic) := by
  induction reaction generalizing b reception with
  | done => exact ⟨b, .done, .refl i b, hlisteners, h, .inl rfl⟩
  | panic => exact ⟨b, .panic, .refl i b, hlisteners, h, .inr rfl⟩
  | access change next ih =>
    obtain ⟨hnext, hround⟩ := proceed_current reception.scope h rfl
    obtain ⟨last, current, halone, hlast⟩ := ih reception.scope _ hround
      { reception with scope := change reception.scope } (hnext.trans hlisteners)
    exact ⟨last, current, halone.head, hlast⟩
  | note text next ih =>
    obtain ⟨hnext, hround⟩ := proceed_current reception.scope h rfl
    obtain ⟨last, current, halone, hlast⟩ := ih _ hround
      { reception with remarks := reception.remarks ++ [text] } (hnext.trans hlisteners)
    exact ⟨last, current, halone.head, hlast⟩
  | listen moment audience priority listener next _ ih =>
    obtain ⟨hnext, hround⟩ := proceed_current reception.scope h rfl
    obtain ⟨last, current, halone, hlast⟩ := ih _ hround
      { reception with
        listeners := reception.listeners.register moment audience priority listener }
      (hnext.trans (congrArg (·.register moment audience priority listener) hlisteners))
    exact ⟨last, current, halone.head, hlast⟩
  | clearListeners next ih =>
    obtain ⟨hnext, hround⟩ := proceed_current reception.scope h rfl
    obtain ⟨last, current, halone, hlast⟩ := ih _ hround
      { reception with listeners := reception.listeners.clear }
      (hnext.trans (congrArg Listeners.clear hlisteners))
    exact ⟨last, current, halone.head, hlast⟩

/-- A round that is left to itself between two calls makes all the calls that are pending. -/
theorem exists_calls (pending : List Subscription) (b : Switchboard)
    (h : b.rounds[i]? = some ⟨event, made, reaction, pending⟩)
    (hover : reaction = .done ∨ reaction = .panic) (reception : Reception)
    (hlisteners : b.listeners = reception.listeners) :
    ∃ last round, Alone i b last ∧ last.rounds[i]? = some round ∧ round.IsOver ∧
      last.listeners =
        (pending.foldl (fun r s => (s.listener event).perform r) reception).listeners := by
  induction pending generalizing b made reaction reception with
  | nil => exact ⟨b, _, .refl i b, h, ⟨rfl, hover⟩, hlisteners⟩
  | cons s rest ih =>
    have hnext : (b.step (.proceed i reception.scope)).listeners = reception.listeners ∧
        (b.step (.proceed i reception.scope)).rounds[i]? =
          some ⟨event, made ++ [s], s.listener event, rest⟩ := by
      rw [step_proceed h, ← hlisteners]
      rcases hover with rfl | rfl
      · exact ⟨rfl, List.getElem?_set_self (List.getElem?_eq_some_iff.mp h).1⟩
      · exact ⟨rfl, List.getElem?_set_self (List.getElem?_eq_some_iff.mp h).1⟩
    obtain ⟨middle, current, hcall, hmiddle, hround, hover⟩ :=
      exists_performs (s.listener event) _ hnext.2 reception hnext.1
    obtain ⟨last, round, hcalls, hlast⟩ := ih middle hround hover _ hmiddle
    exact ⟨last, round, (hcall.trans hcalls).head, hlast⟩

/-! ### Whom an event is told to -/

/-- Whatever was registered and cleared before, by whomever, and whatever happens while an event is
being told: the calls that tell it are those of the listeners that were registered when it began and
are to be told, each once, by priority and then by registration. They are made in this order, one
after another; a round that is over has made them all, and every round that is not neglected for good is
over at some time. If nothing else happens, the round leaves the table as `Listeners.announce` does. -/
theorem announces (past : List Act) (event : Notice) :
    let start := run {} past
    let begun := start.step (.announce event)
    let i := start.rounds.length
    ∃ calls, Listeners.Answers calls start.live event ∧
      (∀ acts, ∃ round, (begun.run acts).rounds[i]? = some round ∧ round.event = event ∧
        round.made <+: calls ∧ (round.IsOver → round.made = calls)) ∧
      (∀ acts : Nat → Act, (∀ n, ∃ m, n ≤ m ∧ ∃ scope, acts m = .proceed i scope) →
        ∃ m round, (begun.run (firstActs acts m)).rounds[i]? = some round ∧ round.IsOver) ∧
      ∀ scope, ∃ last round, Alone i begun last ∧ last.rounds[i]? = some round ∧ round.IsOver ∧
        last.listeners = (start.listeners.announce event scope).listeners := by
  intro start begun i
  have hempty : Sound {} := Listeners.holds_empty
  have hsound : start.Sound := hempty.run past
  have hserves := start.serves_announce event
  refine ⟨start.listeners.matching event, hsound.answers event, ?_, ?_, ?_⟩
  · intro acts
    obtain ⟨round, hround, hevent, hcalls⟩ := hserves.run acts
    refine ⟨round, hround, hevent, ⟨round.pending, hcalls⟩, ?_⟩
    rintro ⟨hpending, -⟩
    rw [← hcalls, hpending, List.append_nil]
  · intro acts hfair
    obtain ⟨round, hround, -⟩ := hserves
    exact exists_isOver acts hfair (n := 0) hround round.ends
  · intro scope
    exact exists_calls (start.listeners.matching event) begun List.getElem?_concat_length (.inl rfl)
      { listeners := start.listeners, scope := scope } rfl

end Switchboard

end Workflow
