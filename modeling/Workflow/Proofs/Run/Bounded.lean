import Workflow.Proofs.Run.Allowance

/-!
# What a run comes to

Every step of a run pays for itself, so that a run starts no more units than its plan allows
(`Executor.History.begun_le`), and its walks do not go back (`Executor.Takes.onward`). Both hold
whatever the units route to, as long as they leave nothing to be forked.

A unit that is begun is counted where a walk of the run begins it. So the flow in which a task moves is
to be known exactly: `Executor.flow_moves` says that the run in which a walk stands moves when the
walk does.
-/

namespace Workflow

/-! ## The flow that moves -/

namespace Process

variable {who task starts steps : Nat} {p p' q : Process} {run run' : RunState} {e e' : Engine}
  {site : Site} {f : Run}

/-- A walk in a flow that the unit of a walk runs has no walk around it that is not in the flow. -/
theorem At.walks_subset_of_pos (h : p.At who task run site) (hdepth : 0 < site.depth) :
    ∀ w ∈ site.walks, w ∈ p.activity.serials := by
  cases h with
  | here => exact absurd hdepth (Nat.lt_irrefl 0)
  | called h => exact h.walks_subset
  | inPlace h =>
    rw [Site.depth_within] at hdepth
    rw [Site.within_of_pos hdepth]
    exact h.walks_subset
  | child hmem h =>
    rw [Site.depth_within] at hdepth
    rw [Site.within_of_pos hdepth]
    exact fun w hw => Child.mem_serialsIn hmem (h.walks_subset w hw)

/-- The run in which a walk stands, outermost walk first, is the one around it. -/
theorem At.number_eq (h : p.At who task run site) (hnodup : p.serials.Nodup)
    (hnumber : site.walks.head? = some p.serial) : site.depth = 0 := by
  by_contra hdepth
  rw [p.serials_eq] at hnodup
  exact (List.nodup_cons.mp hnodup).1
    (h.walks_subset_of_pos (Nat.pos_of_ne_zero hdepth) _ (List.mem_of_head? hnumber))

theorem Has.nodup (h : p.Has q) (hnodup : p.serials.Nodup) : q.serials.Nodup := by
  induction h with
  | self => exact hnodup
  | @inside serial walk activity branch q hruns _ ih =>
    refine ih ?_
    have hinside := (List.nodup_cons.mp hnodup).2
    cases activity with
    | poised | queued | working | asleep => exact hruns.elim
    | calling | inPlace =>
      cases hruns
      exact hinside
    | forking =>
      obtain ⟨entry, hmem⟩ := hruns
      exact Child.nodup_serials hinside hmem

theorem serial_mem_of_subruns (hf : f ∈ p.subruns) : f.root.serial ∈ p.serials := by
  rw [p.serials_eq]
  exact List.mem_cons_of_mem _
    (mem_serials_of_subruns hf (List.mem_map.mpr ⟨_, f.root.mem_crew_self, rfl⟩))

/-- The number of a flow below a process is not that of the process. -/
theorem serial_ne_of_subruns (hf : f ∈ p.subruns) (hnodup : p.serials.Nodup) :
    f.root.serial ≠ p.serial := by
  intro heq
  rw [p.serials_eq] at hnodup
  refine (List.nodup_cons.mp hnodup).1 (heq ▸ mem_serials_of_subruns hf ?_)
  exact List.mem_map.mpr ⟨_, f.root.mem_crew_self, rfl⟩

/-- What is true of the flows below a process before a move is true of them afterwards: none of them has
the number of the process. -/
theorem Moves.serial_ne_of_subruns (h : p.Moves who site task run e p' run' e')
    (hnodup : p.serials.Nodup) (hbelow : ∀ w ∈ p.serials, w < e.nextSerial) (hf : f ∈ p'.subruns) :
    f.root.serial ≠ p.serial := by
  rcases h.subruns_cases hf with hold | hstart | ⟨g, hg, inner, task', e₁, hmoves, -⟩
  · exact Process.serial_ne_of_subruns hold hnodup
  · have hserial := hstart.1.crew f.root.mem_crew_self
    have hlt := hbelow _ p.serial_mem_serials
    omega
  · rw [hmoves.serial]
    exact Process.serial_ne_of_subruns hg hnodup

/-- The flow in which a walk does something moves, if it is one below the process. -/
theorem Moves.subrun_moves (h : p.Moves who site task run e p' run' e') (hnodup : p.serials.Nodup)
    (hbelow : ∀ w ∈ p.serials, w < e.nextSerial) (hf : f ∈ p'.subruns)
    (hnumber : site.walks.head? = some f.root.serial) :
    ∃ g ∈ p.subruns, ∃ (inner : Site) (task' : Nat) (e₁ : Engine),
      g.root.Moves who inner task' g.state e f.root f.state e₁ ∧ inner.depth = 0 ∧
      inner.process = site.process := by
  have hne := h.serial_ne_of_subruns hnodup hbelow hf
  -- The number that comes first at the site is that of the run in which the walk stands. So the run
  -- is the one that a unit has called here, or one further below, or it is none of this part.
  induction h with
  | here => exact absurd (Option.some.inj hnumber).symm hne
  | @called task serial walk job inner inner' run root root' next e e' site h _ ih =>
    have hroot : root.serials.Nodup := (List.nodup_cons.mp hnodup).2
    have hbelow' : ∀ w ∈ root.serials, w < e.nextSerial :=
      fun w hw => hbelow w (List.mem_cons_of_mem _ hw)
    rcases List.mem_cons.mp hf with rfl | hf
    · have hdepth := h.at.1.number_eq hroot (h.serial ▸ hnumber)
      exact ⟨⟨inner, root⟩, List.mem_cons_self, site, task, e', h, hdepth, rfl⟩
    · obtain ⟨g, hg, hmoves⟩ := ih hroot hbelow' hf hnumber (h.serial_ne_of_subruns hroot hbelow' hf)
      exact ⟨g, List.mem_cons_of_mem _ hg, hmoves⟩
  | returned => cases hf
  | @inPlace task serial walk anchor entry resume branch branch' run run' e e' site h _ ih =>
    by_cases hdepth : site.depth = 0
    · rw [Site.within, if_pos hdepth] at hnumber
      exact absurd (Option.some.inj hnumber).symm hne
    · rw [Site.within_of_pos (Nat.pos_of_ne_zero hdepth)] at hnumber ⊢
      have hbranch : branch.serials.Nodup := (List.nodup_cons.mp hnodup).2
      have hbelow' : ∀ w ∈ branch.serials, w < e.nextSerial :=
        fun w hw => hbelow w (List.mem_cons_of_mem _ hw)
      exact ih hbranch hbelow' hf hnumber (h.serial_ne_of_subruns hbranch hbelow' hf)
  | inPlaceEnded _ _ hclose =>
    subst hclose
    cases hf
  | @child task serial walk anchor entry resume toStart before after completed branch branch' run run'
      e e' site h _ _ ih =>
    by_cases hdepth : site.depth = 0
    · rw [Site.within, if_pos hdepth] at hnumber
      exact absurd (Option.some.inj hnumber).symm hne
    · rw [Site.within_of_pos (Nat.pos_of_ne_zero hdepth)] at hnumber ⊢
      have hinside := (List.nodup_cons.mp hnodup).2
      have hmem := mem_children before after entry branch
      have hbranch : branch.serials.Nodup := Child.nodup_serials hinside hmem
      have hbelow' : ∀ w ∈ branch.serials, w < e.nextSerial :=
        fun w hw => hbelow w (List.mem_cons_of_mem _ (Child.mem_serialsIn hmem hw))
      rcases subruns_forking.mp hf with hf | ⟨entry', q, hsibling, hf⟩
      · obtain ⟨g, hg, hmoves⟩ :=
          ih hbranch hbelow' hf hnumber (h.serial_ne_of_subruns hbranch hbelow' hf)
        exact ⟨g, subruns_forking.mpr (.inl hg), hmoves⟩
      · exact absurd (h.at.1.walks_subset _ (List.mem_of_head? hnumber))
          (notMem_serials_of_sibling hinside hsibling (serial_mem_of_subruns hf))
  | @childEnded task serial walk anchor entry resume toStart before after completed _ branch branch' run
      run' e e' site h _ _ _ ih =>
    by_cases hdepth : site.depth = 0
    · rw [Site.within, if_pos hdepth] at hnumber
      exact absurd (Option.some.inj hnumber).symm hne
    · rw [Site.within_of_pos (Nat.pos_of_ne_zero hdepth)] at hnumber
      have hinside := (List.nodup_cons.mp hnodup).2
      rcases subruns_forking.mp hf with hf | ⟨entry', q, hsibling, hf⟩
      · cases hf
      · exact absurd (h.at.1.walks_subset _ (List.mem_of_head? hnumber))
          (notMem_serials_of_sibling hinside hsibling (serial_mem_of_subruns hf))

/-- A walk that decides at a position, or begins the unit there, does so no more afterwards. -/
theorem Moves.passes (h : p.Moves who site task run e p' run' e') (haffords : p.Affords starts steps)
    (hscope : run.scope.Unforked) (hlisteners : e.listeners.Abide) (hnodup : p.serials.Nodup)
    (hbelow : ∀ w ∈ p.serials, w < e.nextSerial) (hdepth : site.depth = 0)
    (hrank : site.process.rank % 3 ≠ 2) (hq : q ∈ p'.crew) (hserial : q.serial = site.process.serial) :
    site.process.rank < q.rank := by
  -- The walk with that number is the one that has moved, which pays for its step. Another one with
  -- it would have been there before, or is new; neither can be.
  induction h generalizing starts steps with
  | @here serial walk activity run e s h =>
    rcases mem_crew.mp hq with rfl | ⟨branch, hbranch, hq⟩
    · exact (h.spends haffords hscope hlisteners).passes hrank
    · exfalso
      have hserial : q.serial = serial := hserial
      rcases h.runs_cases hbranch.runs with ⟨hold, -⟩ | ⟨plan, pooled, rfl⟩
      · have hin := serials_subset hold.runs ((has_of_crew hq).serials_subset q.serial_mem_serials)
        exact (List.nodup_cons.mp hnodup).1 (hserial ▸ hin)
      · obtain rfl := List.mem_singleton.mp hq
        have hlt := hbelow serial List.mem_cons_self
        have hnew : e.nextSerial = serial := hserial
        omega
  | called | returned => cases hdepth
  | inPlace | inPlaceEnded => exact haffords.2.elim
  | @child _ serial _ _ entry _ _ before after _ branch branch' _ _ _ _ site h _ _ ih =>
    rw [Site.process_within] at hrank hserial ⊢
    rw [Site.depth_within] at hdepth
    have hinside := (List.nodup_cons.mp hnodup).2
    have hmem := mem_children before after entry branch
    have hthere := h.at.1.has.serials_subset site.process.serial_mem_serials
    obtain ⟨-, own, left, inner, pace, -, hinner, -, -⟩ := haffords
    obtain ⟨n, t, _, _, hbranch, -⟩ := Child.affordIn_middle.mp hinner
    rcases mem_crew.mp hq with rfl | ⟨other, ⟨entry', hother⟩, hq⟩
    · have heq : serial = site.process.serial := hserial
      exact absurd (Child.mem_serialsIn hmem (heq ▸ hthere)) (List.nodup_cons.mp hnodup).1
    · have hin := hserial ▸ (has_of_crew hq).serials_subset q.serial_mem_serials
      rcases mem_around.mp hother with heq | hsibling
      · cases heq
        exact ih hbranch hscope hlisteners (Child.nodup_serials hinside hmem)
          (fun w hw => hbelow w (List.mem_cons_of_mem _ (Child.mem_serialsIn hmem hw))) hdepth hrank hq
          hserial
      · exact absurd hthere (notMem_serials_of_sibling hinside hsibling hin)
  | @childEnded _ serial _ _ entry _ _ before after _ _ branch branch' _ _ _ _ site h _ _ _ =>
    rw [Site.process_within] at hserial ⊢
    have hinside := (List.nodup_cons.mp hnodup).2
    have hmem := mem_children before after entry branch
    have hthere := h.at.1.has.serials_subset site.process.serial_mem_serials
    rcases mem_crew.mp hq with rfl | ⟨other, ⟨entry', hother⟩, hq⟩
    · have heq : serial = site.process.serial := hserial
      exact absurd (Child.mem_serialsIn hmem (heq ▸ hthere)) (List.nodup_cons.mp hnodup).1
    · have hin := hserial ▸ (has_of_crew hq).serials_subset q.serial_mem_serials
      have hsibling := (mem_around.mp hother).resolve_left nofun
      exact absurd hthere (notMem_serials_of_sibling hinside hsibling hin)

end Process

/-! ## Executors -/

theorem Run.AtStart.affords {f : Run} {serial : Nat} (h : f.AtStart serial)
    (hgrouped : f.root.walk.plan.Grouped) :
    f.root.Affords f.root.walk.plan.starts f.root.walk.plan.steps := by
  rcases h.root with ⟨plan, pooled, hroot⟩ | ⟨u, hroot⟩
  · rw [hroot] at hgrouped ⊢
    exact Process.affords_ofPlan hgrouped serial pooled
  · rw [hroot] at hgrouped ⊢
    exact Process.affords_ofUnit hgrouped serial

namespace Executor

variable {start last x y z : Executor} {past more : List (Executor × Move)} {m : Move} {f : Run}
  {number i who : Nat} {plan : Plan} {site : Site} {q r : Process}

/-- The run in which a walk does something is one that moves. -/
theorem flow_moves (hnumbered : x.ledger.Numbered) (hmove : x.move (.step who) = some y)
    (hat : x.At i who site) (hown : site.process.activity.IsOwn) (hf : f ∈ y.flows)
    (hnumber : site.walks.head? = some f.root.serial) :
    ∃ g ∈ x.flows, ∃ (inner : Site) (task : Nat) (e : Engine),
      g.root.Moves who inner task g.state x.engine f.root f.state e ∧ inner.depth = 0 ∧
      inner.process = site.process := by
  obtain ⟨before, run, after, root, state, e', hruns, hstep, rfl⟩ := exists_step hmove
  obtain ⟨moved, hmoves⟩ := Process.moves_of_step hstep
  have hin : run ∈ x.runs := by simp [hruns]
  have hindex : x.runs[before.length]? = some run := by simp [hruns]
  obtain ⟨rfl, rfl⟩ := hat.unique hnumbered hown (j := before.length) ⟨run, hindex, hmoves.at.1⟩
    hmoves.at.2
  have hhead := hmoves.at.1.walks_subset _ (List.mem_of_head? hnumber)
  have hnodup := nodup_of_mem hnumbered hin
  have hbelow := serial_lt hnumbered hin
  obtain ⟨own, hmem, hf⟩ := mem_flows.mp hf
  have hothers : own ∈ before ∨ own ∈ after → False := by
    intro hother
    have hserial : f.root.serial ∈ own.root.serials :=
      Run.mem_serials_of_flows hf (List.mem_map.mpr ⟨_, f.root.mem_crew_self, rfl⟩)
    exact not_mem_serials_of_other hnumbered hruns hother hserial hhead
  rcases mem_around.mp hmem with rfl | hother
  · rcases List.mem_cons.mp hf with rfl | hf
    · have hdepth := hmoves.at.1.number_eq hnodup (hmoves.serial ▸ hnumber)
      exact ⟨run, mem_flows.mpr ⟨run, hin, List.mem_cons_self⟩, _, _, _, hmoves, hdepth, rfl⟩
    · obtain ⟨g, hg, hmoves⟩ := hmoves.subrun_moves hnodup hbelow hf hnumber
      exact ⟨g, mem_flows.mpr ⟨run, hin, List.mem_cons_of_mem _ hg⟩, hmoves⟩
  · exact (hothers hother).elim

/-- What the bounds rely on, whatever units do: processes fit, and listeners leave the slots alone. -/
structure Orderly (x : Executor) : Prop where
  fits : x.Fits
  numbered : x.ledger.Numbered
  listeners : x.engine.listeners.Abide

/-- No unit has left anything to be forked. -/
def Unforked (x : Executor) : Prop := ∀ f ∈ x.flows, f.state.scope.Unforked

theorem Orderly.move (h : x.Orderly) (hmove : x.move m = some y) : y.Orderly :=
  ⟨h.fits.move hmove, numbered_move h.fits h.numbered hmove, abide_move hmove h.listeners⟩

theorem orderly_build {config : Config} {registry : Registry} {listeners : Listeners}
    (hbuild : build config registry listeners = .ok x) (hlisteners : listeners.Abide) :
    x.Orderly := by
  obtain ⟨hfits, hsound⟩ := sound_build hbuild
  obtain rfl := eq_of_build hbuild
  exact ⟨hfits, hsound.toNumbered, hlisteners⟩

theorem History.orderly (h : start.History past last) (hstart : start.Orderly) : last.Orderly :=
  h.invariant hstart fun _ _ _ _ hx hmove => hx.move hmove

/-- Units that keep to the law leave nothing to be forked. -/
theorem History.unforked {config : Config} {registry : Registry} {listeners : Listeners}
    (hbuild : build config registry listeners = .ok start) (hregistry : registry.Abides Law.unforked)
    (hlisteners : listeners.Abide) (h : start.History past last) : last.Unforked := by
  obtain ⟨hfits, -⟩ := sound_build hbuild
  have hall : last.Fits ∧ last.Abides Law.unforked ∧ last.Unforked := by
    refine h.invariant (P := fun x => x.Fits ∧ x.Abides Law.unforked ∧ x.Unforked)
      ⟨hfits, abides_build hbuild hregistry hlisteners, ?_⟩ ?_
    · rw [Unforked, flows_build hbuild]
      exact nofun
    · rintro x m y - ⟨hfits, habides, hunforked⟩ hmove
      exact ⟨hfits.move hmove, habides.move hmove, unforked_move hfits habides hmove hunforked⟩
  exact hall.2.2

/-! ### How many units a run begins -/

/-- Whether a walk of the run with this number begins to execute a unit by a move. -/
def begins (x : Executor) (m : Move) (number : Nat) : Bool :=
  (x.told Site.begins? m).any fun entry => entry.1 = number

/-- How many units the run with this number has begun to execute. -/
def begun (past : List (Executor × Move)) (number : Nat) : Nat :=
  past.countP fun e => e.1.begins e.2 number

/-- Who begins a unit is the walk that moves. -/
theorem exists_of_begins (h : x.begins m number = true) :
    ∃ i who site, m = .step who ∧ x.At i who site ∧ site.process.activity.IsOwn ∧
      site.walks.head? = some number ∧ site.begins?.toList.length = 1 := by
  obtain ⟨⟨told, u⟩, hmem, heq⟩ := List.any_eq_true.mp h
  obtain rfl : told = number := of_decide_eq_true heq
  cases m with
  | step who =>
    obtain ⟨i, -, hmem⟩ := List.mem_flatMap.mp hmem
    obtain ⟨site, hsite, htold⟩ := List.mem_filterMap.mp hmem
    obtain ⟨head, hhead, htold⟩ := Option.bind_eq_some_iff.mp htold
    obtain ⟨v, hread, heq⟩ := Option.map_eq_some_iff.mp htold
    cases heq
    refine ⟨i, who, site, rfl, at_of_mem_sites hsite, ?_, hhead, by rw [hread]; rfl⟩
    unfold Site.begins? Activity.begins? at hread
    split at hread
    · next hactivity =>
      rw [hactivity]
      trivial
    all_goals cases hread
  | wait | launch | beginShutdown | settleShutdown => cases hmem

/-- A walk of a run has a number that has been given out. -/
theorem number_lt (hnumbered : x.ledger.Numbered) (hat : x.At i who site)
    (hnumber : site.walks.head? = some number) : number < x.engine.nextSerial := by
  obtain ⟨run, hrun, hthere⟩ := hat
  exact serial_lt hnumbered (List.mem_of_getElem? hrun) _
    (hthere.walks_subset _ (List.mem_of_head? hnumber))

/-- Whatever a run of a plan has begun to execute, what it may still begin is within the bounds of the
plan. A run that has not been started has begun nothing. -/
theorem History.affords (h : start.History past last) (hflows : start.flows = [])
    (hstart : start.Orderly) (hunforked : ∀ x m, (x, m) ∈ past → x.Unforked)
    (hgrouped : plan.Grouped) :
    (∀ f ∈ last.flows, f.root.serial = number → f.root.walk.plan = plan → ∃ starts steps,
      f.root.Affords starts steps ∧ starts + begun past number ≤ plan.starts) ∧
    (last.engine.nextSerial ≤ number → begun past number = 0) := by
  -- by induction on the history: what a run begins by a move it pays for out of what it could begin
  -- before
  induction h with
  | start =>
    rw [hflows]
    exact ⟨nofun, fun _ => rfl⟩
  | @move past x y m hpast hmove ih =>
    obtain ⟨hruns, hnone⟩ := ih fun x m hin => hunforked x m (List.mem_append_left _ hin)
    have hx := hpast.orderly hstart
    have hforks := hunforked x m (List.mem_append_right _ List.mem_cons_self)
    have hbegun : begun (past ++ [(x, m)]) number =
        begun past number + if x.begins m number then 1 else 0 := by
      simp [begun, List.countP_append, List.countP_cons]
    refine ⟨fun f hf hserial hplan => ?_, fun hlater => ?_⟩
    · by_cases hbegins : x.begins m number = true
      · obtain ⟨i, who, site, rfl, hat, hown, hnumber, hone⟩ := exists_of_begins hbegins
        obtain ⟨g, hg, inner, task, e, hmoves, hdepth, hprocess⟩ :=
          flow_moves hx.numbered hmove hat hown hf (hserial ▸ hnumber)
        obtain ⟨run, hrun, hhas⟩ := has_root hg
        have hroot := (hx.fits run hrun).of_has hhas
        rw [hmoves.plan hroot] at hplan
        rw [hmoves.serial] at hserial
        obtain ⟨starts, steps, haffords, hle⟩ := hruns g hg hserial hplan
        obtain ⟨starts', steps', haffords', hpaid, -⟩ :=
          hmoves.spends haffords (hforks g hg) hx.listeners
        rw [if_pos hdepth, Site.begins?, hprocess] at hpaid
        rw [Site.begins?] at hone
        exact ⟨starts', steps', haffords', by rw [hbegun, if_pos hbegins]; omega⟩
      · rw [hbegun, if_neg hbegins, Nat.add_zero]
        rcases flow_cases hmove hf with hold | hstart |
          ⟨who, rfl, g, hg, site, task, e, i, depth, hmoves, -⟩ | ⟨g, hg, rfl⟩
        · exact hruns f hold hserial hplan
        -- a run that is new has begun nothing, as its number has not been given out before
        · have hnew : number = x.engine.nextSerial :=
            hserial.symm.trans (hstart.crew f.root.mem_crew_self)
          have haffords := hstart.affords (hplan ▸ hgrouped)
          rw [hplan] at haffords
          exact ⟨_, _, haffords, Nat.le_of_eq (by rw [hnone (Nat.le_of_eq hnew.symm), Nat.add_zero])⟩
        · obtain ⟨run, hrun, hhas⟩ := has_root hg
          rw [hmoves.plan ((hx.fits run hrun).of_has hhas)] at hplan
          rw [hmoves.serial] at hserial
          obtain ⟨starts, steps, haffords, hle⟩ := hruns g hg hserial hplan
          obtain ⟨starts', steps', haffords', hpaid, -⟩ :=
            hmoves.spends haffords (hforks g hg) hx.listeners
          exact ⟨starts', steps', haffords', by omega⟩
        · rw [Process.walk_cancelTasks] at hplan
          rw [Process.serial_cancelTasks] at hserial
          obtain ⟨starts, steps, haffords, hle⟩ := hruns g hg hserial hplan
          exact ⟨starts, steps, haffords.cancelTasks, hle⟩
    · have hearlier := Nat.le_trans (nextSerial_le hx.fits hmove) hlater
      rw [hbegun, hnone hearlier, if_neg]
      intro hbegins
      obtain ⟨i, who, site, -, hat, -, hnumber, -⟩ := exists_of_begins hbegins
      exact absurd (number_lt hx.numbered hat hnumber) (Nat.not_lt.mpr hearlier)

/-- A run begins to execute three units at most for each position of its plan. -/
theorem History.begun_le (h : start.History past last) (hflows : start.flows = [])
    (hstart : start.Orderly) (hunforked : ∀ x m, (x, m) ∈ past → x.Unforked)
    (hgrouped : plan.Grouped) (hf : f ∈ last.flows) (hplan : f.root.walk.plan = plan) :
    begun past f.root.serial ≤ 3 * plan.length := by
  obtain ⟨starts, steps, -, hle⟩ := (h.affords hflows hstart hunforked hgrouped).1 f hf rfl hplan
  unfold Plan.starts at hle
  omega

/-! ### The order in which a walk goes on -/

/-- A walk of the run with this number does something by a move. -/
def Takes (x : Executor) (m : Move) (number : Nat) (q : Process) : Prop :=
  ∃ i who site, m = .step who ∧ x.At i who site ∧ site.walks.head? = some number ∧
    site.process = q

/-- In the run with this number, the walk `w` has come past a rank. -/
structure Passed (x : Executor) (number w rank : Nat) : Prop where
  orderly : x.Orderly
  number_lt : number < x.engine.nextSerial
  walk_lt : w < x.engine.nextSerial
  runs : ∀ f ∈ x.flows, f.root.serial = number → (∃ starts steps, f.root.Affords starts steps) ∧
    ∀ q ∈ f.root.crew, q.serial = w → rank < q.rank

theorem Passed.move {w rank : Nat} (h : x.Passed number w rank) (hunforked : x.Unforked)
    (hmove : x.move m = some y) : y.Passed number w rank := by
  have hserials := nextSerial_le h.orderly.fits hmove
  refine ⟨h.orderly.move hmove, Nat.lt_of_lt_of_le h.number_lt hserials,
    Nat.lt_of_lt_of_le h.walk_lt hserials, fun f hf hserial => ?_⟩
  rcases flow_cases hmove hf with hold | hstart |
    ⟨who, rfl, g, hg, inner, task, e, i, depth, hmoves, -⟩ | ⟨g, hg, rfl⟩
  · exact h.runs f hold hserial
  · have hnew := hstart.crew f.root.mem_crew_self
    have hold := h.number_lt
    omega
  · rw [hmoves.serial] at hserial
    obtain ⟨⟨starts, steps, haffords⟩, hwalks⟩ := h.runs g hg hserial
    obtain ⟨starts', steps', haffords', -⟩ :=
      hmoves.spends haffords (hunforked g hg) h.orderly.listeners
    refine ⟨⟨starts', steps', haffords'⟩, fun q hq hsame => ?_⟩
    rcases hmoves.movesFrom hq with hold | hnew | ⟨r, hr, _, _, e₁, hmoved⟩
    · exact hwalks q hold hsame
    · have hold := h.walk_lt
      omega
    · obtain ⟨_, _, haffordsr⟩ := haffords.of_crew hr
      have hbefore : rank < r.rank := hwalks r hr (hmoved.serial.symm.trans hsame)
      exact Nat.lt_of_lt_of_le hbefore
        (hmoved.rank_le haffordsr (hunforked g hg) h.orderly.listeners)
  · rw [Process.serial_cancelTasks] at hserial
    obtain ⟨⟨starts, steps, haffords⟩, hwalks⟩ := h.runs g hg hserial
    refine ⟨⟨starts, steps, haffords.cancelTasks⟩, fun q hq hsame => ?_⟩
    obtain ⟨r, hr, rfl⟩ := Process.crew_cancelTasks hq
    rw [Process.serial_cancelTasks] at hsame
    rw [Process.rank_cancelTasks]
    exact hwalks r hr hsame

/-- The step in which a walk decides at a position, or begins the unit there, takes it past that. -/
theorem Takes.passed (h : x.Takes m f.root.serial q) (hx : x.Orderly) (hunforked : x.Unforked)
    (hf : f ∈ x.flows)
    {starts steps : Nat} (haffords : f.root.Affords starts steps) (hown : q.activity.IsOwn)
    (hrank : q.rank % 3 ≠ 2) (hmove : x.move m = some y) :
    y.Passed f.root.serial q.serial q.rank := by
  obtain ⟨i, who, site, rfl, hat, hnumber, rfl⟩ := h
  have hserials := nextSerial_le hx.fits hmove
  have hw : site.process.serial < x.engine.nextSerial := by
    obtain ⟨run, hrun, hthere⟩ := id hat
    exact serial_lt hx.numbered (List.mem_of_getElem? hrun) _
      (hthere.has.serials_subset site.process.serial_mem_serials)
  refine ⟨hx.move hmove, Nat.lt_of_lt_of_le (number_lt hx.numbered hat hnumber) hserials,
    Nat.lt_of_lt_of_le hw hserials, fun g hg hserial => ?_⟩
  obtain ⟨g₀, hg₀, inner, task, e, hmoves, hdepth, hprocess⟩ :=
    flow_moves hx.numbered hmove hat hown hg (hserial ▸ hnumber)
  rw [hmoves.serial] at hserial
  have hroot : g₀.root = f.root := (has_root hg₀).unique (has_root hf) hx.numbered hserial
  obtain ⟨run, hrun, hhas⟩ := has_root hg₀
  have hnodup : g₀.root.serials.Nodup :=
    hhas.nodup (nodup_of_mem hx.numbered hrun)
  have hbelow : ∀ w ∈ g₀.root.serials, w < x.engine.nextSerial :=
    fun w hw => serial_lt hx.numbered hrun w (hhas.serials_subset hw)
  have hthere : g₀.root.Affords starts steps := hroot ▸ haffords
  obtain ⟨starts', steps', haffords', -⟩ :=
    hmoves.spends hthere (hunforked g₀ hg₀) hx.listeners
  refine ⟨⟨starts', steps', haffords'⟩, fun r hr hsame => ?_⟩
  rw [← hprocess] at hrank hsame ⊢
  exact hmoves.passes hthere (hunforked g₀ hg₀) hx.listeners hnodup hbelow hdepth hrank hr hsame

/-- After a walk has decided at a position, or begun the unit there, it is past that for good. -/
theorem Takes.onward (htakes : x.Takes m f.root.serial q) (hx : x.Orderly) (hunforked : x.Unforked)
    (hf : f ∈ x.flows) {starts steps : Nat} (haffords : f.root.Affords starts steps)
    (hown : q.activity.IsOwn) (hrank : q.rank % 3 ≠ 2) (hmove : x.move m = some y)
    (h : y.History more z) (hlater : ∀ x m, (x, m) ∈ more → x.Unforked) {g : Run}
    (hg : g ∈ z.flows) (hserial : g.root.serial = f.root.serial) (hr : r ∈ g.root.crew)
    (hsame : r.serial = q.serial) : q.rank < r.rank := by
  have hpassed := h.invariant (P := fun z => z.Passed f.root.serial q.serial q.rank)
    (htakes.passed hx hunforked hf haffords hown hrank hmove)
    fun z m _ hin hz hmove => hz.move (hlater z m hin) hmove
  exact (hpassed.runs g hg hserial).2 r hr hsame

end Executor

end Workflow
