import Mathlib.Data.List.Dedup
import Workflow.Plan.Cache
import Workflow.Proofs.Plan.WellFormed
import Workflow.Proofs.Table

/-!
# Plans that are kept

The cache is transparent: whoever asks for the plan of an expression gets what reading and compiling
it anew would give, whatever others do meanwhile.

A call for a plan takes three steps, which are those of `Plan.Cache.obtain` (`serve_obtain`): it looks
the expression up, compiles it and keeps the plan. Between them any other call may look up, keep or
empty the cache. `Desk` is a cache with all the calls for plans that are under way and a record of what
was handed out.

* `Desk.Effect` says once what an act can do to the cache and the record.
* `Desk.Sound` is what every act preserves.
* `Desk.transparent` draws the conclusions for all histories.
-/

namespace Workflow.Plan

/-! ## Faithful caches -/

namespace Cache

/-- The plans that are kept are those of their expressions. -/
def Faithful (c : Plan.Cache) : Prop :=
  ∀ text cached, c.get? text = some cached → Plan.ofExpression text = .ok cached.plan

theorem faithful_empty : Faithful {} := fun _ _ h => by cases h

variable {c : Plan.Cache} {text : String} {plan : Plan}

theorem keep_of_some {cached : Cached} (h : c.get? text = some cached) :
    c.keep text plan = (cached, c) := by
  simp only [keep, h]

theorem keep_of_none (h : c.get? text = none) :
    c.keep text plan =
      (⟨c.nextStamp, plan⟩, ⟨c.plans.insert text ⟨c.nextStamp, plan⟩, c.nextStamp + 1⟩) := by
  simp only [keep, h]

/-- Where there was nothing, the cache has the plan now, and what it had before. -/
theorem get?_keep (h : c.get? text = none) (other : String) :
    (c.keep text plan).2.get? other =
      if text = other then some ⟨c.nextStamp, plan⟩ else c.get? other := by
  rw [keep_of_none h]
  exact Table.get?_insert ..

theorem Faithful.keep (h : c.Faithful) (hplan : Plan.ofExpression text = .ok plan) :
    (c.keep text plan).2.Faithful := by
  cases hkept : c.get? text with
  | some cached =>
    rw [keep_of_some hkept]
    exact h
  | none =>
    intro other cached hother
    rw [get?_keep hkept] at hother
    split at hother
    · next heq =>
      cases hother
      rw [← heq]
      exact hplan
    · exact h other cached hother

/-- Obtaining a plan tells nothing of what was kept before. -/
theorem Faithful.obtain (h : c.Faithful) (text : String) :
    (c.obtain text).1.map Cached.plan = Plan.ofExpression text ∧ (c.obtain text).2.Faithful := by
  unfold Cache.obtain
  rcases hkept : c.get? text with _ | cached
  · rcases hplan : Plan.ofExpression text with error | plan
    · exact ⟨rfl, h⟩
    · refine ⟨?_, h.keep hplan⟩
      simp only [keep_of_none hkept]
      rfl
  · exact ⟨(h text cached hkept).symm, h⟩

end Cache

/-- What is read has a plan, so `Plan.ofExpression` is reading and compiling. -/
theorem ofExpression_eq_ok_iff {expression : String} {plan : Plan} :
    Plan.ofExpression expression = .ok plan ↔
      ∃ node, Expression.parse expression = .ok node ∧ node.compile? = some plan := by
  unfold Plan.ofExpression
  cases hparse : Expression.parse expression with
  | error error => simp
  | ok node =>
    obtain ⟨l, -, hcompile, -⟩ := (Expression.isNormal_of_parse hparse).exists_compile
    simp [hcompile]

theorem ofExpression_eq_error_iff {expression : String} {error : Expression.Refusal} :
    Plan.ofExpression expression = .error error ↔ Expression.parse expression = .error error := by
  unfold Plan.ofExpression
  cases Expression.parse expression <;> simp

/-! ## Calls, step by step -/

/-- How far a call for a plan has come. -/
inductive Inquiry where
  | asked
  /-- The expression was looked up and nothing was found. -/
  | missed
  | compiled (plan : Plan)
  | answered (answer : Except Expression.Refusal Cached)

/-- What happened at a cache. -/
inductive Entry where
  /-- A call found a plan. -/
  | hit (expression : String) (cached : Cached)
  /-- A call compiled a plan and kept it, or got the one that was kept meanwhile. -/
  | kept (expression : String) (cached : Cached)
  | refused (expression : String) (error : Expression.Refusal)
  /-- A plan was looked up only. -/
  | looked (expression : String) (found : Option Cached)
  | cleared

/-- The plan that an entry hands out, with its expression. -/
def Entry.handsOut : Entry → Option (String × Cached)
  | .hit expression cached | .kept expression cached => some (expression, cached)
  | .looked expression found => found.map fun cached => (expression, cached)
  | .refused .. | .cleared => none

/-- The next step of a call, with what is recorded of it. -/
def Cache.serve (c : Plan.Cache) (expression : String) :
    Inquiry → Inquiry × Plan.Cache × Option Entry
  | .asked =>
    match c.get? expression with
    | some cached => (.answered (.ok cached), c, some (.hit expression cached))
    | none => (.missed, c, none)
  | .missed =>
    match Plan.ofExpression expression with
    | .ok plan => (.compiled plan, c, none)
    | .error error => (.answered (.error error), c, some (.refused expression error))
  | .compiled plan =>
    let (cached, next) := c.keep expression plan
    (.answered (.ok cached), next, some (.kept expression cached))
  | .answered answer => (.answered answer, c, none)

/-- A step of a call, rule by rule: how far the call is then, the cache after it and what is recorded. -/
inductive Cache.Serves (c : Plan.Cache) (expression : String) :
    Inquiry → Inquiry → Plan.Cache → Option Entry → Prop where
  | hit {cached : Cached} (h : c.get? expression = some cached) :
    Serves c expression .asked (.answered (.ok cached)) c (some (.hit expression cached))
  | misses (h : c.get? expression = none) : Serves c expression .asked .missed c none
  | compiles {plan : Plan} (h : Plan.ofExpression expression = .ok plan) :
    Serves c expression .missed (.compiled plan) c none
  | refuses {error : Expression.Refusal} (h : Plan.ofExpression expression = .error error) :
    Serves c expression .missed (.answered (.error error)) c (some (.refused expression error))
  /-- Another call has kept a plan meanwhile. -/
  | finds {plan : Plan} {cached : Cached} (h : c.get? expression = some cached) :
    Serves c expression (.compiled plan) (.answered (.ok cached)) c (some (.kept expression cached))
  | keeps {plan : Plan} (h : c.get? expression = none) :
    Serves c expression (.compiled plan) (.answered (.ok ⟨c.nextStamp, plan⟩))
      (c.keep expression plan).2 (some (.kept expression ⟨c.nextStamp, plan⟩))
  | rests (answer : Except Expression.Refusal Cached) :
    Serves c expression (.answered answer) (.answered answer) c none

/-- The rules cover all that a call can do. -/
theorem Cache.serves (c : Plan.Cache) (expression : String) (q : Inquiry) :
    c.Serves expression q (c.serve expression q).1 (c.serve expression q).2.1
      (c.serve expression q).2.2 := by
  cases q with
  | asked =>
    cases hkept : c.get? expression with
    | some cached =>
      simp only [serve, hkept]
      exact .hit hkept
    | none =>
      simp only [serve, hkept]
      exact .misses hkept
  | missed =>
    cases hplan : Plan.ofExpression expression with
    | ok plan =>
      simp only [serve, hplan]
      exact .compiles hplan
    | error error =>
      simp only [serve, hplan]
      exact .refuses hplan
  | compiled plan =>
    cases hkept : c.get? expression with
    | some cached =>
      simp only [serve, keep_of_some hkept]
      exact .finds hkept
    | none =>
      have hcached : (c.keep expression plan).1 = ⟨c.nextStamp, plan⟩ := by rw [keep_of_none hkept]
      simp only [serve, hcached]
      exact .keeps hkept
  | answered answer => exact .rests answer

/-- Three steps without anything in between obtain the plan. -/
theorem Cache.serve_obtain (c : Plan.Cache) (expression : String) :
    let one := c.serve expression .asked
    let two := one.2.1.serve expression one.1
    let three := two.2.1.serve expression two.1
    three.1 = .answered (c.obtain expression).1 ∧ three.2.1 = (c.obtain expression).2 := by
  unfold Cache.obtain
  cases hkept : c.get? expression with
  | some cached => simp only [serve, hkept, and_self]
  | none => cases hplan : Plan.ofExpression expression <;> simp only [serve, hkept, hplan, and_self]

/-- How many steps a call still takes at most. -/
def Inquiry.left : Inquiry → Nat
  | .asked => 3
  | .missed => 2
  | .compiled _ => 1
  | .answered _ => 0

theorem Inquiry.left_le (q : Inquiry) : q.left ≤ 3 := by
  cases q <;> simp [left]

theorem Inquiry.answered_of_left {q : Inquiry} (h : q.left = 0) : ∃ answer, q = .answered answer := by
  cases q with
  | answered answer => exact ⟨answer, rfl⟩
  | asked | missed | compiled plan => simp [left] at h

theorem Cache.Serves.left_le {c cache : Plan.Cache} {expression : String} {q next : Inquiry}
    {entry : Option Entry} (h : c.Serves expression q next cache entry) : next.left ≤ q.left - 1 := by
  cases h <;> simp [Inquiry.left]

structure Caller where
  expression : String
  inquiry : Inquiry := .asked

/-- A cache and those who call for plans, numbered in the order of their calls. The record has the
latest entry first. -/
structure Desk where
  cache : Plan.Cache := {}
  callers : List Caller := []
  record : List Entry := []

inductive Act where
  /-- A call for a plan begins. -/
  | ask (expression : String)
  /-- A call takes its next step. -/
  | advance (caller : Nat)
  /-- A plan is looked up only. -/
  | look (expression : String)
  /-- The cache is emptied. -/
  | clear
  deriving Repr, DecidableEq

namespace Desk

def act (d : Desk) : Act → Desk
  | .ask expression => { d with callers := d.callers ++ [⟨expression, .asked⟩] }
  | .advance i =>
    match d.callers[i]? with
    | none => d
    | some caller =>
      let (inquiry, cache, entry) := d.cache.serve caller.expression caller.inquiry
      { cache, callers := d.callers.set i ⟨caller.expression, inquiry⟩,
        record := entry.toList ++ d.record }
  | .look expression =>
    { d with record := .looked expression (d.cache.get? expression) :: d.record }
  | .clear => { d with cache := d.cache.clear, record := .cleared :: d.record }

/-- The desk after some acts. -/
def after (d : Desk) (acts : List Act) : Desk := acts.foldl act d

variable {d d' : Desk}

/-! ## What an act can do -/

/-- What an act does to the cache and the record. -/
inductive Effect (d d' : Desk) : Prop where
  | silent (hcache : d'.cache = d.cache) (hrecord : d'.record = d.record)
  /-- What is handed out is what the cache has. -/
  | tells (entry : Entry) (hcache : d'.cache = d.cache) (hrecord : d'.record = entry :: d.record)
      (hentry : entry ≠ .cleared)
      (hout : ∀ expression cached, entry.handsOut = some (expression, cached) →
        d.cache.get? expression = some cached)
  /-- A plan of the expression is kept where there was none. -/
  | keeps (expression : String) (plan : Plan) (hnone : d.cache.get? expression = none)
      (hplan : Plan.ofExpression expression = .ok plan)
      (hcache : d'.cache = (d.cache.keep expression plan).2)
      (hrecord : d'.record = .kept expression ⟨d.cache.nextStamp, plan⟩ :: d.record)
  | clears (hcache : d'.cache = d.cache.clear) (hrecord : d'.record = .cleared :: d.record)

/-- Calls that have compiled a plan have compiled that of their expression. -/
def Honest (d : Desk) : Prop :=
  ∀ caller ∈ d.callers, ∀ plan, caller.inquiry = .compiled plan →
    Plan.ofExpression caller.expression = .ok plan

/-- A step of a call, if there is a call of that number. -/
theorem advance_cases (d : Desk) (i : Nat) :
    d.act (.advance i) = d ∨
      ∃ expression inquiry next cache entry, d.callers[i]? = some ⟨expression, inquiry⟩ ∧
        d.cache.Serves expression inquiry next cache entry ∧
        d.act (.advance i) =
          ⟨cache, d.callers.set i ⟨expression, next⟩, entry.toList ++ d.record⟩ := by
  cases hcaller : d.callers[i]? with
  | none => exact .inl (by simp only [Desk.act, hcaller])
  | some caller =>
    exact .inr ⟨_, _, _, _, _, rfl, d.cache.serves caller.expression caller.inquiry,
      by simp only [Desk.act, hcaller]⟩

theorem Honest.act (h : d.Honest) (a : Act) : (d.act a).Honest := by
  cases a with
  | look expression => exact h
  | clear => exact h
  | ask expression =>
    intro caller hcaller plan hplan
    rcases List.mem_append.mp hcaller with hold | hnew
    · exact h caller hold plan hplan
    · rw [List.mem_singleton.mp hnew] at hplan
      cases hplan
  | advance i =>
    rcases d.advance_cases i with heq | ⟨expression, inquiry, next, cache, entry, -, hserves, heq⟩
    · rwa [heq]
    · rw [heq]
      intro other hother plan hplan
      rcases List.mem_or_eq_of_mem_set hother with hold | rfl
      · exact h other hold plan hplan
      -- only a call that missed has compiled next
      cases hserves with
      | compiles hok =>
        cases hplan
        exact hok
      | hit | misses | refuses | finds | keeps | rests => cases hplan

theorem Honest.effect (h : d.Honest) (a : Act) : d.Effect (d.act a) := by
  cases a with
  | ask expression => exact .silent rfl rfl
  | clear => exact .clears rfl rfl
  | look expression =>
    refine .tells (.looked expression (d.cache.get? expression)) rfl rfl (by simp) ?_
    intro other cached hout
    simp only [Entry.handsOut, Option.map_eq_some_iff, Prod.mk.injEq] at hout
    obtain ⟨found, hfound, rfl, rfl⟩ := hout
    exact hfound
  | advance i =>
    rcases d.advance_cases i with heq | ⟨expression, inquiry, next, cache, entry, hcaller, hserves, heq⟩
    · exact .silent (by rw [heq]) (by rw [heq])
    · rw [heq]
      cases hserves with
      | misses | compiles | rests => exact .silent rfl rfl
      | refuses => exact .tells _ rfl rfl (by simp) nofun
      | hit hkept | finds hkept =>
        refine .tells _ rfl rfl (by simp) ?_
        rintro other cached ⟨⟩
        exact hkept
      | keeps hnone =>
        exact .keeps expression _ hnone (h _ (List.mem_of_getElem? hcaller) _ rfl) rfl rfl

end Desk

/-! ## Who gets the same plan -/

/-- How often the cache was emptied. -/
def clears : List Entry → Nat
  | [] => 0
  | .cleared :: rest => clears rest + 1
  | _ :: rest => clears rest

/-- A plan that was handed out, and how often the cache had been emptied before. -/
structure HandOut where
  clears : Nat
  expression : String
  cached : Cached

def handOuts : List Entry → List HandOut
  | [] => []
  | entry :: rest =>
    match entry.handsOut with
    | some (expression, cached) => ⟨clears rest, expression, cached⟩ :: handOuts rest
    | none => handOuts rest

theorem clears_cons {entry : Entry} (h : entry ≠ .cleared) (record : List Entry) :
    clears (entry :: record) = clears record := by
  cases entry with
  | cleared => exact absurd rfl h
  | hit | kept | refused | looked => rfl

theorem mem_handOuts_cons {entry : Entry} {record : List Entry} {h : HandOut} :
    h ∈ handOuts (entry :: record) ↔
      (entry.handsOut = some (h.expression, h.cached) ∧ h.clears = clears record) ∨
        h ∈ handOuts record := by
  obtain ⟨count, expression, cached⟩ := h
  rw [handOuts]
  split
  · next other found hout =>
    rw [List.mem_cons, hout]
    simp only [HandOut.mk.injEq, Option.some.injEq, Prod.mk.injEq]
    constructor
    · rintro (⟨rfl, rfl, rfl⟩ | hmem)
      · exact .inl ⟨⟨rfl, rfl⟩, rfl⟩
      · exact .inr hmem
    · rintro (⟨⟨rfl, rfl⟩, rfl⟩ | hmem)
      · exact .inl ⟨rfl, rfl, rfl⟩
      · exact .inr hmem
  · next hout => simp [hout]

theorem clears_le {record : List Entry} {h : HandOut} (hmem : h ∈ handOuts record) :
    h.clears ≤ clears record := by
  induction record with
  | nil => cases hmem
  | cons entry rest ih =>
    have hle : clears rest ≤ clears (entry :: rest) := by
      cases entry with
      | cleared => exact Nat.le_succ _
      | hit | kept | refused | looked => exact Nat.le_refl _
    rcases mem_handOuts_cons.mp hmem with ⟨-, hnow⟩ | hmem
    · exact hnow ▸ hle
    · exact (ih hmem).trans hle

/-- The stamps in a cache tell the plans that were handed out apart. -/
structure Shares (c : Plan.Cache) (record : List Entry) : Prop where
  /-- What was handed out since the cache was emptied last is in it. -/
  current : ∀ h ∈ handOuts record, h.clears = clears record →
    c.get? h.expression = some h.cached
  fresh : ∀ expression cached, c.get? expression = some cached → cached.stamp < c.nextStamp
  spent : ∀ h ∈ handOuts record, h.cached.stamp < c.nextStamp
  apart : ∀ expression cached, c.get? expression = some cached →
    ∀ other cached', c.get? other = some cached' → cached'.stamp = cached.stamp → other = expression
  /-- What was handed out before has another stamp than what is in the cache now. -/
  stamped : ∀ h ∈ handOuts record, ∀ expression cached, c.get? expression = some cached →
    cached.stamp = h.cached.stamp → h.clears = clears record ∧ h.expression = expression
  shared : ∀ h ∈ handOuts record, ∀ h' ∈ handOuts record,
    (h.clears = h'.clears → h.expression = h'.expression → h.cached = h'.cached) ∧
      (h.cached.stamp = h'.cached.stamp → h.clears = h'.clears ∧ h.expression = h'.expression)

namespace Shares

variable {c : Plan.Cache} {record : List Entry}

theorem empty : Shares {} [] where
  current _ hmem := by cases hmem
  fresh _ _ hkept := by cases hkept
  spent _ hmem := by cases hmem
  apart _ _ hkept := by cases hkept
  stamped _ hmem := by cases hmem
  shared _ hmem := by cases hmem

theorem clear (s : Shares c record) : Shares c.clear (.cleared :: record) where
  current h hmem hnow := by
    rcases mem_handOuts_cons.mp hmem with ⟨hout, -⟩ | hmem
    · cases hout
    · have hle := clears_le hmem
      rw [clears] at hnow
      omega
  fresh _ _ hkept := by cases hkept
  spent h hmem := by
    rcases mem_handOuts_cons.mp hmem with ⟨hout, -⟩ | hmem
    · cases hout
    · exact s.spent h hmem
  apart _ _ hkept := by cases hkept
  stamped _ _ _ _ hkept := by cases hkept
  shared h hmem h' hmem' := by
    rcases mem_handOuts_cons.mp hmem with ⟨hout, -⟩ | hmem
    · cases hout
    · rcases mem_handOuts_cons.mp hmem' with ⟨hout, -⟩ | hmem'
      · cases hout
      · exact s.shared h hmem h' hmem'

/-- A plan is kept where there was none, under a stamp that nothing has had yet. -/
theorem keep (s : Shares c record) {expression : String} (hnone : c.get? expression = none)
    (plan : Plan) : Shares (c.keep expression plan).2 record := by
  have hget := @Cache.get?_keep c expression plan hnone
  have hnext : (c.keep expression plan).2.nextStamp = c.nextStamp + 1 := by
    rw [Cache.keep_of_none hnone]
  -- an entry of the new cache is the new one or an old one
  have hcases : ∀ other cached, (c.keep expression plan).2.get? other = some cached →
      (other = expression ∧ cached.stamp = c.nextStamp) ∨ c.get? other = some cached := by
    intro other cached hother
    rw [hget] at hother
    split at hother
    · next heq =>
      cases hother
      exact .inl ⟨heq.symm, rfl⟩
    · exact .inr hother
  constructor
  case current =>
    intro h hmem hnow
    have hold := s.current h hmem hnow
    rw [hget, if_neg]
    · exact hold
    · rintro rfl
      rw [hnone] at hold
      cases hold
  case fresh =>
    intro other cached hother
    rcases hcases other cached hother with ⟨-, hstamp⟩ | hold
    · omega
    · have := s.fresh other cached hold
      omega
  case spent =>
    intro h hmem
    have := s.spent h hmem
    omega
  case apart =>
    intro one cached hone other cached' hother hstamp
    rcases hcases one cached hone with ⟨hnew, hstamp'⟩ | hold <;>
      rcases hcases other cached' hother with ⟨hnew', hstamp''⟩ | hold'
    · exact hnew'.trans hnew.symm
    · have := s.fresh other cached' hold'
      omega
    · have := s.fresh one cached hold
      omega
    · exact s.apart one cached hold other cached' hold' hstamp
  case stamped =>
    intro h hmem other cached hother hstamp
    rcases hcases other cached hother with ⟨-, hother⟩ | hother
    · have := s.spent h hmem
      omega
    · exact s.stamped h hmem other cached hother hstamp
  case shared =>
    exact s.shared

/-- What the cache has is handed out. -/
theorem tell (s : Shares c record) {entry : Entry} (hentry : entry ≠ .cleared)
    (hout : ∀ expression cached, entry.handsOut = some (expression, cached) →
      c.get? expression = some cached) : Shares c (entry :: record) := by
  have hclears := clears_cons hentry record
  -- a plan in the cache and an earlier one that was handed out
  have hpair : ∀ expression cached, c.get? expression = some cached → ∀ h ∈ handOuts record,
      (clears record = h.clears → expression = h.expression → cached = h.cached) ∧
        (cached.stamp = h.cached.stamp → clears record = h.clears ∧ expression = h.expression) := by
    intro expression cached hkept h hmem
    constructor
    · rintro hnow rfl
      have hcurrent := s.current h hmem hnow.symm
      exact Option.some.inj (hkept.symm.trans hcurrent)
    · intro hstamp
      obtain ⟨hnow, hsame⟩ := s.stamped h hmem expression cached hkept hstamp
      exact ⟨hnow.symm, hsame.symm⟩
  constructor
  case current =>
    intro h hmem hnow
    rcases mem_handOuts_cons.mp hmem with ⟨hnew, -⟩ | hmem
    · exact hout _ _ hnew
    · exact s.current h hmem (hclears ▸ hnow)
  case fresh =>
    exact s.fresh
  case spent =>
    intro h hmem
    rcases mem_handOuts_cons.mp hmem with ⟨hnew, -⟩ | hmem
    · exact s.fresh _ _ (hout _ _ hnew)
    · exact s.spent h hmem
  case apart =>
    exact s.apart
  case stamped =>
    intro h hmem expression cached hkept hstamp
    rw [hclears]
    rcases mem_handOuts_cons.mp hmem with ⟨hnew, hnow⟩ | hmem
    · exact ⟨hnow, (s.apart _ _ (hout _ _ hnew) expression cached hkept hstamp).symm⟩
    · exact s.stamped h hmem expression cached hkept hstamp
  case shared =>
    intro h hmem h' hmem'
    rcases mem_handOuts_cons.mp hmem with ⟨hnew, hnow⟩ | hmem <;>
      rcases mem_handOuts_cons.mp hmem' with ⟨hnew', hnow'⟩ | hmem'
    · obtain ⟨hexpression, hcached⟩ := Prod.mk.inj (Option.some.inj (hnew.symm.trans hnew'))
      exact ⟨fun _ _ => hcached, fun _ => ⟨hnow.trans hnow'.symm, hexpression⟩⟩
    · rw [hnow]
      exact hpair _ _ (hout _ _ hnew) h' hmem'
    · rw [hnow']
      obtain ⟨hsame, hstamp⟩ := hpair _ _ (hout _ _ hnew') h hmem
      exact ⟨fun hc he => (hsame hc.symm he.symm).symm,
        fun hs => (hstamp hs.symm).imp Eq.symm Eq.symm⟩
    · exact s.shared h hmem h' hmem'

end Shares

/-! ## How many plans there are -/

/-- The expressions whose plans were kept since the cache was emptied last. -/
def keptSince : List Entry → List String
  | [] => []
  | .cleared :: _ => []
  | .kept expression _ :: rest => expression :: keptSince rest
  | .hit .. :: rest | .refused .. :: rest | .looked .. :: rest => keptSince rest

/-- The cache has exactly the expressions that were kept, each of them once. -/
structure Counts (c : Plan.Cache) (record : List Entry) : Prop where
  kept : ∀ expression, expression ∈ keptSince record ↔ (c.get? expression).isSome
  nodup : c.plans.keys.Nodup

namespace Counts

variable {c : Plan.Cache} {record : List Entry}

theorem empty : Counts {} [] := ⟨by simp [keptSince, Cache.get?, Table.get?_empty], .nil⟩

theorem clear : Counts c.clear (.cleared :: record) :=
  ⟨by simp [keptSince, Cache.get?, Cache.clear], .nil⟩

theorem tell (n : Counts c record) {entry : Entry} (hentry : entry ≠ .cleared)
    (hout : ∀ expression cached, entry.handsOut = some (expression, cached) →
      c.get? expression = some cached) : Counts c (entry :: record) := by
  refine ⟨fun expression => ?_, n.nodup⟩
  cases entry with
  | cleared => exact absurd rfl hentry
  | hit | refused | looked => exact n.kept expression
  | kept other cached =>
    rw [keptSince, List.mem_cons, n.kept]
    refine or_iff_right_of_imp ?_
    rintro rfl
    rw [hout expression cached rfl]
    rfl

theorem keep (n : Counts c record) {expression : String} (hnone : c.get? expression = none)
    (plan : Plan) (cached : Cached) :
    Counts (c.keep expression plan).2 (.kept expression cached :: record) := by
  constructor
  · intro other
    rw [keptSince, List.mem_cons, n.kept, Cache.get?_keep hnone]
    split
    · next heq => simp [heq]
    · next hne => simp [Ne.symm hne]
  · rw [Cache.keep_of_none hnone]
    refine (Table.keys_insert_perm hnone _).nodup_iff.mpr (List.nodup_cons.mpr ⟨?_, n.nodup⟩)
    rw [← Table.isSome_get?_iff]
    simp [show c.plans.get? expression = none from hnone]

theorem size_eq (n : Counts c record) : c.size = (keptSince record).dedup.length := by
  have hperm : c.plans.keys.Perm (keptSince record).dedup := by
    refine (List.perm_ext_iff_of_nodup n.nodup (List.nodup_dedup _)).mpr fun expression => ?_
    rw [List.mem_dedup, n.kept, ← Table.isSome_get?_iff]
    rfl
  rw [← hperm.length_eq]
  exact (List.length_map ..).symm

end Counts

/-! ## All histories -/

namespace Desk

/-- What every act preserves. -/
structure Sound (d : Desk) : Prop where
  honest : d.Honest
  faithful : d.cache.Faithful
  answered : ∀ caller ∈ d.callers, ∀ answer, caller.inquiry = .answered answer →
    answer.map Cached.plan = Plan.ofExpression caller.expression
  /-- What a call is answered was handed out. -/
  told : ∀ caller ∈ d.callers, ∀ cached, caller.inquiry = .answered (.ok cached) →
    ∃ h ∈ handOuts d.record, h.expression = caller.expression ∧ h.cached = cached
  handed : ∀ h ∈ handOuts d.record, Plan.ofExpression h.expression = .ok h.cached.plan
  shares : Shares d.cache d.record
  counts : Counts d.cache d.record

theorem sound_empty : Sound {} where
  honest _ hcaller := by cases hcaller
  faithful := Cache.faithful_empty
  answered _ hcaller := by cases hcaller
  told _ hcaller := by cases hcaller
  handed _ hmem := by cases hmem
  shares := .empty
  counts := .empty

variable {d d' : Desk}

/-- The cache and the record after an act, with what was handed out before. -/
theorem Sound.effect (s : d.Sound) (e : d.Effect d') :
    d'.cache.Faithful ∧ (∀ h ∈ handOuts d'.record, Plan.ofExpression h.expression = .ok h.cached.plan) ∧
      Shares d'.cache d'.record ∧ Counts d'.cache d'.record := by
  cases e with
  | silent hcache hrecord =>
    rw [hcache, hrecord]
    exact ⟨s.faithful, s.handed, s.shares, s.counts⟩
  | tells entry hcache hrecord hentry hout =>
    rw [hcache, hrecord]
    refine ⟨s.faithful, fun h hmem => ?_, s.shares.tell hentry hout, s.counts.tell hentry hout⟩
    rcases mem_handOuts_cons.mp hmem with ⟨hnew, -⟩ | hmem
    · exact s.faithful _ _ (hout _ _ hnew)
    · exact s.handed h hmem
  | keeps expression plan hnone hplan hcache hrecord =>
    rw [hcache, hrecord]
    refine ⟨s.faithful.keep hplan, fun h hmem => ?_, (s.shares.keep hnone plan).tell (by simp) ?_,
      s.counts.keep hnone plan _⟩
    · rcases mem_handOuts_cons.mp hmem with ⟨hnew, -⟩ | hmem
      · obtain ⟨hexpression, hcached⟩ := Prod.mk.inj (Option.some.inj hnew)
        rw [← hexpression, ← hcached]
        exact hplan
      · exact s.handed h hmem
    · rintro other cached hnew
      obtain ⟨rfl, rfl⟩ := Prod.mk.inj (Option.some.inj hnew)
      rw [Cache.get?_keep hnone, if_pos rfl]
  | clears hcache hrecord =>
    rw [hcache, hrecord]
    refine ⟨(fun _ _ hkept => by cases hkept), fun h hmem => ?_, s.shares.clear, .clear⟩
    rcases mem_handOuts_cons.mp hmem with ⟨hnew, -⟩ | hmem
    · cases hnew
    · exact s.handed h hmem

/-- What a call is answered is what it must be, and an entry hands it out if it is a plan. -/
def Told (record : List Entry) (caller : Caller) : Prop :=
  ∀ answer, caller.inquiry = .answered answer →
    answer.map Cached.plan = Plan.ofExpression caller.expression ∧
      ∀ cached, answer = .ok cached →
        ∃ h ∈ handOuts record, h.expression = caller.expression ∧ h.cached = cached

theorem Told.append {record : List Entry} {caller : Caller} (h : Told record caller)
    (new : List Entry) : Told (new ++ record) caller := by
  induction new with
  | nil => exact h
  | cons entry rest ih =>
    intro answer hanswer
    obtain ⟨hplan, hout⟩ := ih answer hanswer
    refine ⟨hplan, fun cached hok => ?_⟩
    obtain ⟨handOut, hmem, hsame⟩ := hout cached hok
    exact ⟨handOut, mem_handOuts_cons.mpr (.inr hmem), hsame⟩

theorem Sound.told_all (s : d.Sound) : ∀ caller ∈ d.callers, Told d.record caller := by
  intro caller hcaller answer hanswer
  refine ⟨s.answered caller hcaller answer hanswer, ?_⟩
  rintro cached rfl
  exact s.told caller hcaller cached hanswer

/-- What a call is answered in its next step. -/
theorem Sound.serves (s : d.Sound) {expression : String} {inquiry next : Inquiry} {cache : Plan.Cache}
    {entry : Option Entry} (hcaller : ⟨expression, inquiry⟩ ∈ d.callers)
    (h : d.cache.Serves expression inquiry next cache entry) :
    Told (entry.toList ++ d.record) ⟨expression, next⟩ := by
  -- an entry that is new hands the plan out
  have hnew : ∀ (entry : Entry) (cached : Cached), entry.handsOut = some (expression, cached) →
      ∃ h ∈ handOuts (entry :: d.record), h.expression = expression ∧ h.cached = cached :=
    fun entry cached hout => ⟨⟨clears d.record, expression, cached⟩,
      mem_handOuts_cons.mpr (.inl ⟨hout, rfl⟩), rfl, rfl⟩
  intro answer hanswer
  cases h with
  | misses | compiles => cases hanswer
  | rests => exact s.told_all _ hcaller answer hanswer
  | refuses herror =>
    cases hanswer
    exact ⟨herror.symm, nofun⟩
  | hit hkept | finds hkept =>
    cases hanswer
    refine ⟨(s.faithful _ _ hkept).symm, ?_⟩
    rintro cached ⟨⟩
    exact hnew _ _ rfl
  | keeps =>
    cases hanswer
    refine ⟨(s.honest _ hcaller _ rfl).symm, ?_⟩
    rintro cached ⟨⟩
    exact hnew _ _ rfl

/-- After an act every call is answered what it must be. -/
theorem Sound.told_act (s : d.Sound) (a : Act) :
    ∀ caller ∈ (d.act a).callers, Told (d.act a).record caller := by
  have hold := s.told_all
  cases a with
  | ask expression =>
    intro caller hcaller answer hanswer
    rcases List.mem_append.mp hcaller with hmem | hnew
    · exact hold caller hmem answer hanswer
    · rw [List.mem_singleton.mp hnew] at hanswer
      cases hanswer
  | look expression => exact fun caller hcaller => (hold caller hcaller).append [_]
  | clear => exact fun caller hcaller => (hold caller hcaller).append [_]
  | advance i =>
    rcases d.advance_cases i with heq | ⟨expression, inquiry, next, cache, entry, hcaller, hserves, heq⟩
    · rwa [heq]
    · rw [heq]
      intro other hother
      rcases List.mem_or_eq_of_mem_set hother with hmem | rfl
      · exact (hold other hmem).append _
      · exact s.serves (List.mem_of_getElem? hcaller) hserves

theorem Sound.act (s : d.Sound) (a : Act) : (d.act a).Sound := by
  obtain ⟨hfaithful, hhanded, hshares, hcounts⟩ := s.effect (s.honest.effect a)
  have htold := s.told_act a
  exact {
    honest := s.honest.act a
    faithful := hfaithful
    answered := fun caller hcaller answer hanswer => (htold caller hcaller answer hanswer).1
    told := fun caller hcaller cached hanswer => (htold caller hcaller _ hanswer).2 cached rfl
    handed := hhanded
    shares := hshares
    counts := hcounts }

theorem Sound.after (s : d.Sound) (acts : List Act) : (d.after acts).Sound := by
  induction acts generalizing d with
  | nil => exact s
  | cons a rest ih => exact ih (s.act a)

/-! ## Calls come to an end -/

/-- An act takes a call on by the steps that it is the call's, and leaves its expression alone. -/
theorem left_act (d : Desk) (a : Act) {i : Nat} {caller : Caller} (h : d.callers[i]? = some caller) :
    ∃ inquiry, (d.act a).callers[i]? = some ⟨caller.expression, inquiry⟩ ∧
      inquiry.left ≤ caller.inquiry.left - [a].count (.advance i) := by
  cases a with
  | ask expression =>
    refine ⟨caller.inquiry, ?_, by simp⟩
    have hlt := (List.getElem?_eq_some_iff.mp h).1
    show (d.callers ++ _)[i]? = _
    rw [List.getElem?_append_left hlt, h]
  | look expression => exact ⟨caller.inquiry, h, by simp⟩
  | clear => exact ⟨caller.inquiry, h, by simp⟩
  | advance j =>
    by_cases hj : j = i
    · subst hj
      have hlt := (List.getElem?_eq_some_iff.mp h).1
      refine ⟨(d.cache.serve caller.expression caller.inquiry).1, ?_, ?_⟩
      · simp only [Desk.act, h]
        exact List.getElem?_set_self hlt
      · rw [List.count_singleton_self]
        exact (d.cache.serves caller.expression caller.inquiry).left_le
    · refine ⟨caller.inquiry, ?_, by simp [hj]⟩
      simp only [Desk.act]
      split
      · exact h
      · rw [List.getElem?_set_ne hj]
        exact h

theorem left_after (acts : List Act) : ∀ {d : Desk} {i : Nat} {caller : Caller},
    d.callers[i]? = some caller →
    ∃ inquiry, (d.after acts).callers[i]? = some ⟨caller.expression, inquiry⟩ ∧
      inquiry.left ≤ caller.inquiry.left - acts.count (.advance i) := by
  induction acts with
  | nil => exact fun {d i caller} h => ⟨caller.inquiry, h, by simp⟩
  | cons a rest ih =>
    intro d i caller h
    obtain ⟨inquiry, hnow, hleft⟩ := d.left_act a h
    obtain ⟨last, hlast, hle⟩ := ih hnow
    refine ⟨last, hlast, ?_⟩
    have hcount : (a :: rest).count (.advance i) = [a].count (.advance i) + rest.count (.advance i) := by
      rw [← List.count_append]
      rfl
    simp only at hle
    omega

/-! ## The cache is transparent -/

/-- What a call must be answered: the compiled node of the expression, or why it is refused. -/
def IsAnswer (expression : String) (answer : Except Expression.Refusal Cached) : Prop :=
  match Expression.parse expression with
  | .ok node => ∃ cached, answer = .ok cached ∧ node.compile? = some cached.plan
  | .error error => answer = .error error

theorem isAnswer_of_plan {expression : String} {answer : Except Expression.Refusal Cached}
    (h : answer.map Cached.plan = Plan.ofExpression expression) : IsAnswer expression answer := by
  unfold IsAnswer
  split
  · next node hparse =>
    cases answer with
    | ok cached =>
      obtain ⟨_, hnode, hcompile⟩ := ofExpression_eq_ok_iff.mp h.symm
      cases hparse.symm.trans hnode
      exact ⟨cached, rfl, hcompile⟩
    | error error =>
      have hrefused := ofExpression_eq_error_iff.mp h.symm
      rw [hparse] at hrefused
      cases hrefused
  · next error hparse =>
    rw [ofExpression_eq_error_iff.mpr hparse] at h
    cases answer with
    | ok cached => cases h
    | error other =>
      cases h
      rfl

/-- A step for an expression that is refused leaves the cache alone. -/
theorem Sound.cache_act (s : d.Sound) {i : Nat} {caller : Caller} {error : Expression.Refusal}
    (h : d.callers[i]? = some caller) (hparse : Expression.parse caller.expression = .error error) :
    (d.act (.advance i)).cache = d.cache := by
  rcases d.advance_cases i with heq | ⟨expression, inquiry, next, cache, entry, hcaller, hserves, heq⟩
  · rw [heq]
  · rw [heq]
    obtain rfl : caller = ⟨expression, inquiry⟩ := Option.some.inj (h.symm.trans hcaller)
    cases hserves with
    | hit | misses | compiles | refuses | finds | rests => rfl
    | keeps =>
      have hok := s.honest _ (List.mem_of_getElem? hcaller) _ rfl
      cases (ofExpression_eq_error_iff.mpr hparse).symm.trans hok

/-- The cache is transparent, however the steps of calls for plans, look-ups and emptyings of the cache
follow one another: a call that is answered is answered what its expression means, and three steps of
its own bring it to an answer; steps for a refused expression leave the cache alone; whatever is in the
cache or was handed out is the plan of its expression; two plans that were handed out for one expression
with the cache not emptied in between are the very same, and others bear different stamps; and the
cache has as many plans as different expressions had one kept since it was emptied last. -/
theorem transparent (acts : List Act) :
    let d := Desk.after {} acts
    (∀ caller ∈ d.callers, ∀ answer, caller.inquiry = .answered answer →
      IsAnswer caller.expression answer ∧ ∀ cached, answer = .ok cached →
        ∃ h ∈ handOuts d.record, h.expression = caller.expression ∧ h.cached = cached) ∧
    (∀ i caller, d.callers[i]? = some caller → ∀ more : List Act, 3 ≤ more.count (.advance i) →
      ∃ answer, (d.after more).callers[i]? = some ⟨caller.expression, .answered answer⟩) ∧
    (∀ i caller error, d.callers[i]? = some caller →
      Expression.parse caller.expression = .error error → (d.act (.advance i)).cache = d.cache) ∧
    (∀ expression cached, (d.cache.get? expression = some cached ∨
        ∃ h ∈ handOuts d.record, h.expression = expression ∧ h.cached = cached) →
      ∃ node, Expression.parse expression = .ok node ∧ node.compile? = some cached.plan) ∧
    (∀ h ∈ handOuts d.record, ∀ h' ∈ handOuts d.record,
      (h.expression = h'.expression → h.clears = h'.clears → h.cached = h'.cached) ∧
      (h.cached.stamp = h'.cached.stamp → h.expression = h'.expression ∧ h.clears = h'.clears)) ∧
    d.cache.size = (keptSince d.record).dedup.length := by
  intro d
  have s : d.Sound := sound_empty.after acts
  refine ⟨?_, ?_, ?_, ?_, ?_, s.counts.size_eq⟩
  · intro caller hcaller answer hanswer
    refine ⟨isAnswer_of_plan (s.answered caller hcaller answer hanswer), ?_⟩
    rintro cached rfl
    exact s.told caller hcaller cached hanswer
  -- each step of its own brings a call closer to its answer, and it is at most three away
  · intro i caller hcaller more hmore
    obtain ⟨inquiry, hlast, hle⟩ := left_after more hcaller
    have hleft := caller.inquiry.left_le
    obtain ⟨answer, rfl⟩ := Inquiry.answered_of_left (q := inquiry) (by omega)
    exact ⟨answer, hlast⟩
  · intro i caller error hcaller hparse
    exact s.cache_act hcaller hparse
  · rintro expression cached (hkept | ⟨h, hmem, rfl, rfl⟩)
    · exact ofExpression_eq_ok_iff.mp (s.faithful expression cached hkept)
    · exact ofExpression_eq_ok_iff.mp (s.handed h hmem)
  · intro h hmem h' hmem'
    obtain ⟨hsame, hstamp⟩ := s.shares.shared h hmem h' hmem'
    exact ⟨fun he hc => hsame hc he, fun hs => (hstamp hs).symm⟩

/-- Two calls both find nothing and compile. The cache is emptied after the second has kept its plan and
before the first has, so that theirs are different plans; a third call gets that of the first. -/
theorem transparent_race :
    let acts : List Act := [.ask "a", .ask "a", .advance 0, .advance 1, .advance 0, .advance 1,
      .advance 1, .clear, .advance 0, .ask "a", .advance 2]
    let d := Desk.after {} acts
    (handOuts d.record).map (fun h => (h.clears, h.expression, h.cached.stamp)) =
      [(1, "a", 1), (1, "a", 1), (0, "a", 0)] ∧ d.cache.size = 1 := by
  intro acts d
  obtain ⟨-, -, -, -, -, hsize⟩ := transparent acts
  have hkept : (keptSince d.record).dedup.length = 1 := by decide +kernel
  exact ⟨by decide +kernel, hsize.trans hkept⟩

end Desk

end Workflow.Plan
