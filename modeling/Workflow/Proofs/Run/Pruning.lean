import Workflow.Proofs.Run.Alternatives

/-!
# What walks leave out

Whatever its units ask for, a walk through the plan of an expression skips arms of conditionals that
are behind it and nothing else (`Walk.Prunes`), and where it is at work it does not skip
(`Walk.PrunesAt`). Every decision of a walk keeps it like this and takes nothing back of what is skipped
(`Turn.Prunes`), so in every schedule a walk goes on skipping what it skips
(`Executor.History.keepsSkipping`) and is never at work there (`Process.Prunes.not_skips_workAt?`).
-/

namespace Workflow

/-! ## Decisions -/

/-- What is known of a walk that waits for the answer to a request. -/
def Walk.PrunesAt (w : Walk) (node : Node) : Resume → Prop
  | .unit | .scattered .. => w.Prunes node w.position ∧ ∃ u, w.AtUnit node u
  | .group stop => w.Prunes node w.position ∧
    ∃ nodes start, w.AtGroup node nodes start ∧ stop = start + Node.widthOf nodes
  -- behind a choice that no arm answers to, arms are skipped before the walk moves on
  | .detour .. | .detourFork | .alone =>
    w.Prunes node (w.position + 1) ∧ node.Reaches (w.position + 1)

def Intent.Prunes (w : Walk) (node : Node) : Intent → Prop
  | .advance => w.Prunes node w.position ∧ node.Reaches w.position
  | .execute _ resume => w.PrunesAt node resume
  | .fork _ branches resume => branches ≠ [] ∧ w.PrunesAt node resume
  | .finish => True

/-- A turn of a walk through the plan of a node. -/
structure Turn.Prunes (t : Turn) (w : Walk) (node : Node) : Prop where
  next : t.next.Prunes t.walk node
  plan : t.walk.plan = w.plan
  grows : w.skipped ⊆ t.walk.skipped

theorem Turn.Prunes.of_subset {t : Turn} {w w' : Walk} {node : Node} (h : t.Prunes w' node)
    (hplan : w'.plan = w.plan) (hsubset : w.skipped ⊆ w'.skipped) : t.Prunes w node :=
  ⟨h.next, h.plan.trans hplan, List.Subset.trans hsubset h.grows⟩

namespace Walk

variable {w w' : Walk} {node : Node} {reach reach' : Nat} {arms : Node.Arms} {u : String}
  {scope : Scope} {hasRun : String → Bool} {tolerant : Bool} {signal : Option String}
  {choice : Choice}

namespace Prunes

theorem moveTo (h : w.Prunes node reach) (hplan : w'.plan = w.plan)
    (hskipped : w'.skipped = w.skipped) (hle : reach ≤ reach') : w'.Prunes node reach' where
  normal := h.normal
  plan := hplan ▸ h.plan
  spans := fun span hmem => by
    obtain ⟨c, t, f, i, behind, hstands, harm, hreach⟩ := h.spans span (hskipped ▸ hmem)
    exact ⟨c, t, f, i, behind, hstands, harm, Nat.le_trans hreach hle⟩

/-- A choice stands where a condition ends, and is between the arms of that conditional. -/
theorem exists_conditional (h : w.Prunes node reach) (hend : w.AtEnd node arms)
    (hchoice : w.plan.choiceAt? w.position = some choice) :
    ∃ c t f i behind first second, Node.Stands (.conditional c t f) i behind node 0 none ∧
      i + c.width = w.position + 1 ∧ choice.arms.entries = [
        (false, ⟨second, ⟨w.position + 1 + t.width, w.position + 1 + t.width + f.width⟩⟩),
        (true, ⟨first, ⟨w.position + 1, w.position + 1 + t.width⟩⟩)] := by
  have harms := h.armsAt_of_atEnd hend
  obtain ⟨⟨work, j, -, hstands, hposition⟩, -⟩ := hend
  rcases arms with _ | ⟨t, f⟩
  · cases hchoice.symm.trans harms
  · obtain ⟨_, first, second, hat, -, -, hentries⟩ := harms
    cases hchoice.symm.trans hat
    rcases hstands.conditional_of_arms with ⟨c, i, behind, hcond, hlast⟩ | ⟨hnone, -⟩
    · exact ⟨c, t, f, i, behind, first, second, hcond, by omega, hentries⟩
    · cases hnone

/-- The groups of a plan have branches. -/
theorem branches_ne_nil {position : Nat} {group : Group Plan} (h : w.Prunes node reach)
    (hgroup : w.plan.groupAt? position = some group) : group.branches ≠ [] := by
  have htwo := ((h.normal.wellFormed h.plan).fits.groups _ (Table.mem_of_lookup hgroup)).two
  intro heq
  rw [heq] at htwo
  cases htwo

/-- Where a walk comes to and does not skip, a unit stands that no group begins with, or a group. -/
theorem exists_work (h : w.Prunes node w.position) (hreaches : node.Reaches w.position)
    (hunit : w.plan.unitAt? w.position = some u) (hopen : ¬ w.Skips w.position) :
    (w.AtUnit node u ∧ w.plan.groupAt? w.position = none) ∨
      ∃ nodes group, w.AtGroup node nodes w.position ∧ w.plan.groupAt? w.position = some group ∧
        group.span.stop = w.position + Node.widthOf nodes := by
  have hlength : w.plan.length = node.width := by rw [Plan.length, h.sequence, Node.width]
  rcases hreaches with hlast | ⟨work, arms, hwork, hstands⟩
  · have hlt : w.position < w.plan.length := (List.getElem?_eq_some_iff.mp hunit).1
    omega
  have hlays := h.lays.part hstands
  cases work with
  | sequence | conditional => exact hwork.elim
  | unit name =>
    obtain rfl : u = name := Option.some.inj (hunit.symm.trans (hlays.reads.head rfl))
    exact .inl ⟨⟨⟨arms, hstands⟩, hopen⟩, hlays.groupAt?_eq_none⟩
  | parallel nodes =>
    obtain ⟨group, hgroup, hjoins⟩ := hlays.joins
    exact .inr ⟨nodes, group, ⟨⟨arms, hstands⟩, hopen, .inl rfl⟩, hgroup, by rw [hjoins.span]⟩

/-- At the last position of its group, a walk is at an end. -/
theorem atEnd_of_atGroup {nodes : List Node} {start : Nat} (h : w.Prunes node w.position)
    (hgroup : w.AtGroup node nodes start) :
    w.position ≤ start + Node.widthOf nodes - 1 ∧ 0 < start + Node.widthOf nodes ∧
      ∃ arms, AtEnd { w with position := start + Node.widthOf nodes - 1 } node arms := by
  obtain ⟨⟨arms, hstands⟩, hopen, hnear⟩ := hgroup
  have hwidth := (hstands.normal h.normal).width_pos
  have hwork : Node.IsWork (.parallel nodes) := trivial
  have hopen : ∀ position, start ≤ position → position < start + (Node.parallel nodes).width →
      ¬ w.Skips position := fun _ hge hlt => h.not_skips_inside hwork hstands hopen hge hlt
  rw [Node.width_parallel] at hwidth hopen
  have hle : w.position ≤ start := by rcases hnear with hnear | hnear <;> omega
  refine ⟨by omega, by omega, arms, ⟨.parallel nodes, start, trivial, hstands, ?_⟩, ?_⟩
  · rw [Node.width_parallel]
    simp only
    omega
  · exact hopen _ (by simp only; omega) (by simp only; omega)

/-- Skipping arms that a choice at the position of the walk is between. -/
theorem skip (h : w.Prunes node w.position) (hend : w.AtEnd node arms)
    (hchoice : w.plan.choiceAt? w.position = some choice) (hplan : w'.plan = w.plan)
    (hskipped : ∀ span ∈ w'.skipped, span ∈ w.skipped ∨ ∃ arm ∈ choice.arms.values, arm.span = span) :
    w'.Prunes node (w.position + 1) where
  normal := h.normal
  plan := hplan ▸ h.plan
  spans := by
    intro span hmem
    rcases hskipped span hmem with hold | ⟨arm, harm, rfl⟩
    · obtain ⟨c, t, f, i, behind, hstands, harm, hreach⟩ := h.spans span hold
      exact ⟨c, t, f, i, behind, hstands, harm, Nat.le_succ_of_le hreach⟩
    · obtain ⟨c, t, f, i, behind, first, second, hcond, hlast, hentries⟩ :=
        h.exists_conditional hend hchoice
      refine ⟨c, t, f, i, behind, hcond, ?_, Nat.le_of_eq hlast⟩
      rw [Table.values, hentries] at harm
      rw [Node.IsArm, hlast]
      rcases List.mem_cons.mp harm with rfl | harm
      · exact .inr rfl
      · obtain rfl := List.mem_singleton.mp harm
        exact .inl rfl

theorem chooseArm (h : w.Prunes node w.position) (hend : w.AtEnd node arms)
    (hchoice : w.plan.choiceAt? w.position = some choice) (label : Label) :
    (w.chooseArm choice label).Prunes node (w.position + 1) := by
  refine h.skip hend hchoice rfl fun span hmem => ?_
  rcases List.mem_append.mp hmem with hmem | hmem
  · exact .inl hmem
  · obtain ⟨entry, hentry, rfl⟩ := List.mem_map.mp hmem
    exact .inr ⟨entry.2, List.mem_map.mpr ⟨entry, (List.mem_filter.mp hentry).1, rfl⟩, rfl⟩

theorem skipArms (h : w.Prunes node w.position) (hend : w.AtEnd node arms)
    (hchoice : w.plan.choiceAt? w.position = some choice) :
    (w.skipArms choice).Prunes node (w.position + 1) := by
  refine h.skip hend hchoice rfl fun span hmem => ?_
  rcases List.mem_append.mp hmem with hmem | hmem
  · exact .inl hmem
  · exact .inr (List.mem_map.mp hmem)

end Prunes

/-! ## Turns -/

theorem prunes_finish (w : Walk) (scope : Scope) : (w.finish scope).Prunes w node :=
  ⟨trivial, rfl, List.Subset.refl _⟩

theorem prunes_proceed (h : w.Prunes node (w.position + 1)) (hreaches : node.Reaches (w.position + 1))
    (scope : Scope) : (w.proceed scope).Prunes w node :=
  ⟨⟨h.moveTo rfl rfl (Nat.le_refl _), hreaches⟩, rfl, List.Subset.refl _⟩

theorem prunes_detour (h : w.Prunes node (w.position + 1)) (hreaches : node.Reaches (w.position + 1))
    (scope : Scope) (hasRun : String → Bool) (target : String) :
    (w.detour scope hasRun target).Prunes w node := by
  unfold detour
  split
  · exact prunes_proceed h hreaches scope
  · exact ⟨⟨h, hreaches⟩, rfl, List.Subset.refl _⟩

theorem subset_chooseArm (w : Walk) (choice : Choice) (label : Label) :
    w.skipped ⊆ (w.chooseArm choice label).skipped := List.subset_append_left _ _

theorem subset_skipArms (w : Walk) (choice : Choice) : w.skipped ⊆ (w.skipArms choice).skipped :=
  List.subset_append_left _ _

/-- Whatever value a walk goes on with at the end of a unit or a group. -/
theorem prunes_steer (h : w.Prunes node w.position) (hend : w.AtEnd node arms) (scope : Scope)
    (hasRun : String → Bool) (u : String) (signal : Option String) :
    (w.steer scope hasRun u signal).Prunes w node := by
  have hreaches := h.reaches_of_atEnd hend
  have hnext : w.Prunes node (w.position + 1) := h.moveTo rfl rfl (Nat.le_succ _)
  have hchosen : ∀ choice label, w.plan.choiceAt? w.position = some choice →
      ((w.chooseArm choice label).proceed scope).Prunes w node := fun choice label hchoice =>
    (prunes_proceed (w := w.chooseArm choice label) (h.chooseArm hend hchoice label) hreaches scope).of_subset
      rfl (subset_chooseArm w choice label)
  unfold steer
  split
  · exact prunes_proceed hnext hreaches scope
  · next choice hchoice => exact hchosen choice false hchoice
  · split
    · exact ⟨trivial, rfl, List.Subset.refl _⟩
    · split
      · next choice hchoice =>
        split
        · next label _ => exact hchosen choice label hchoice
        · exact (prunes_detour (w := w.skipArms choice) (h.skipArms hend hchoice) hreaches scope hasRun
            _).of_subset rfl (subset_skipArms w choice)
      · split
        · exact prunes_proceed hnext hreaches _
        · exact prunes_detour hnext hreaches scope hasRun _

/-- Without a value, a walk takes the `false` arm if there is a choice. -/
theorem steer_none (w : Walk) (scope : Scope) (hasRun : String → Bool) (u : String) :
    w.steer scope hasRun u none = w.fallThrough.proceed scope := by
  unfold steer fallThrough
  cases w.plan.choiceAt? w.position <;> rfl

theorem prunes_fallThrough (h : w.Prunes node w.position) (hend : w.AtEnd node arms) (scope : Scope) :
    (w.fallThrough.proceed scope).Prunes w node := by
  rw [← steer_none w scope (fun _ => false) ""]
  exact prunes_steer h hend scope _ _ _

theorem prunes_obey (h : w.Prunes node w.position) (hunit : w.AtUnit node u) (scope : Scope)
    (hasRun : String → Bool) (signal : Option String) (fork : Option (List String)) :
    (w.obey scope hasRun u signal fork).Prunes w node := by
  obtain ⟨arms, hend⟩ := hunit.atEnd
  have hforks : ∀ {group branches}, w.plan.groupAfter? w.position = some group → branches ≠ [] →
      (w.forkGroup scope group branches).Prunes w node := fun {group branches} hgroup hne => by
    obtain ⟨nodes, hat, hstop, -⟩ := h.atGroup_of_groupAfter? hunit hgroup
    exact ⟨⟨hne, h, nodes, _, hat, hstop⟩, rfl, List.Subset.refl _⟩
  have hchosen : ∀ {entries}, fork.filter (· ≠ []) = some entries →
      entries.map Branch.ofUnit ≠ [] := fun {entries} hfork => by
    have hne := (Option.filter_eq_some_iff.mp hfork).2
    simpa using hne
  unfold obey
  split
  · exact ⟨trivial, rfl, List.Subset.refl _⟩
  · split
    · next entries group hfork hgroup => exact hforks hgroup (hchosen hfork)
    · next group _ hgroup =>
      exact hforks hgroup (h.branches_ne_nil (Option.filter_eq_some_iff.mp hgroup).1)
    · next entries hfork _ => exact ⟨⟨hchosen hfork, h, u, hunit⟩, rfl, List.Subset.refl _⟩
    · exact prunes_steer h hend scope hasRun u signal

theorem prunes_advance (h : w.Prunes node w.position) (hreaches : node.Reaches w.position)
    (scope : Scope) (hasRun : String → Bool) : (w.advance scope hasRun).Prunes w node := by
  unfold advance
  rcases hunit : w.plan.unitAt? w.position with _ | unitId
  · exact prunes_finish w scope
  rcases hskip : w.skipEnd? w.position with _ | stop
  · rcases h.exists_work hreaches hunit (not_skips_of_skipEnd? hskip) with ⟨hat, hnone⟩ |
      ⟨nodes, group, hat, hgroup, hstop⟩
    · obtain ⟨arms, hend⟩ := hat.atEnd
      simp only [hnone]
      cases w.early.get? unitId with
      | none => exact ⟨⟨h, unitId, hat⟩, rfl, List.Subset.refl _⟩
      | some early =>
        have herased : Prunes { w with early := w.early.erase unitId } node w.position :=
          h.moveTo rfl rfl (Nat.le_refl _)
        cases early with
        | failed => exact (prunes_fallThrough herased hend scope).of_subset rfl (List.Subset.refl _)
        | forked => exact (prunes_obey herased hat _ hasRun _ _).of_subset rfl (List.Subset.refl _)
        | routed => exact (prunes_obey herased hat scope hasRun _ _).of_subset rfl (List.Subset.refl _)
    · simp only [hgroup]
      split
      · refine ⟨⟨h.moveTo rfl rfl (by simp only; omega), ?_⟩, rfl, List.Subset.refl _⟩
        obtain ⟨⟨arms, hstands⟩, -⟩ := hat
        show node.Reaches group.span.stop
        rw [hstop, ← Node.width_parallel]
        exact hstands.reaches h.normal
      · exact ⟨⟨h.branches_ne_nil hgroup, h, nodes, w.position, hat, hstop⟩, rfl, List.Subset.refl _⟩
  · obtain ⟨span, hmem, -, hlt, rfl⟩ := exists_of_skipEnd? hskip
    obtain ⟨c, t, f, i, behind, hcond, harm, -⟩ := h.spans span hmem
    exact ⟨⟨h.moveTo rfl rfl (Nat.le_of_lt hlt), h.reaches_of_arm hcond harm⟩, rfl,
      List.Subset.refl _⟩

theorem prunes_ownUnitDone (h : w.Prunes node w.position) (hunit : w.AtUnit node u) (scope : Scope)
    (hasRun : String → Bool) (tolerant : Bool) (result : Option Mishap) :
    (w.ownUnitDone scope hasRun tolerant result).Prunes w node := by
  obtain ⟨arms, hend⟩ := hunit.atEnd
  unfold ownUnitDone
  rw [h.unitAt?_of_atUnit hunit]
  rcases result with _ | f
  · exact prunes_obey h hunit _ hasRun _ _
  · have hadded : (w.addFailure f.failure).Prunes node w.position := h.moveTo rfl rfl (Nat.le_refl _)
    simp only
    split
    · exact (prunes_fallThrough hadded hend _).of_subset rfl (List.Subset.refl _)
    · exact ⟨trivial, rfl, List.Subset.refl _⟩

theorem prunes_detourDone (h : w.Prunes node (w.position + 1)) (hreaches : node.Reaches (w.position + 1))
    (scope : Scope) (tolerant : Bool) (u : String) (reached : Bool) (result : Option Mishap) :
    (w.detourDone scope tolerant u reached result).Prunes w node := by
  have hproceed : ∀ {w' : Walk} {scope : Scope}, w'.plan = w.plan → w'.skipped = w.skipped →
      w'.position = w.position → (w'.proceed scope).Prunes w node :=
    fun {w'} {scope} hplan hskipped hposition => by
    have hmoved : w'.Prunes node (w'.position + 1) :=
      h.moveTo hplan hskipped (Nat.le_of_eq (by rw [hposition]))
    exact (prunes_proceed hmoved (hposition ▸ hreaches) scope).of_subset hplan
      (hskipped ▸ List.Subset.refl _)
  unfold detourDone
  rcases result with _ | f
  · simp only
    split
    · exact ⟨trivial, rfl, List.Subset.refl _⟩
    · split
      · exact hproceed rfl rfl rfl
      · next entries hfork =>
        have hne := (Option.filter_eq_some_iff.mp hfork).2
        exact ⟨⟨by simpa using hne, h, hreaches⟩, rfl, List.Subset.refl _⟩
      · exact hproceed rfl rfl rfl
  · simp only
    split
    · split
      · exact hproceed rfl rfl rfl
      · exact hproceed rfl rfl rfl
    · exact ⟨trivial, rfl, List.Subset.refl _⟩

theorem prunes_unitDone {resume : Resume} (h : w.PrunesAt node resume) (scope : Scope)
    (hasRun : String → Bool) (tolerant : Bool) (u : String) (result : Option Mishap) :
    (w.unitDone scope hasRun tolerant u resume result).Prunes w node := by
  have halone : (w.aloneDone scope u result).Prunes w node := by
    unfold aloneDone
    rcases result with _ | f
    · simp only
      split <;> exact ⟨trivial, rfl, List.Subset.refl _⟩
    · exact ⟨trivial, rfl, List.Subset.refl _⟩
  unfold unitDone
  cases resume with
  | unit =>
    obtain ⟨h, v, hunit⟩ := h
    exact prunes_ownUnitDone h hunit scope hasRun tolerant result
  | detour v reached => exact prunes_detourDone h.1 h.2 scope tolerant u reached result
  | alone | group | scattered | detourFork => exact halone

theorem prunes_groupDone {nodes : List Node} {start : Nat} (h : w.Prunes node w.position)
    (hgroup : w.AtGroup node nodes start) (scope : Scope) (hasRun : String → Bool) (tolerant : Bool)
    (result : Option Failure) :
    (w.groupDone scope hasRun tolerant (start + Node.widthOf nodes) result).Prunes w node := by
  obtain ⟨hle, hpos, arms, hend⟩ := h.atEnd_of_atGroup hgroup
  have hreaches : node.Reaches (start + Node.widthOf nodes) := by
    obtain ⟨⟨arms, hstands⟩, -⟩ := hgroup
    rw [← Node.width_parallel]
    exact hstands.reaches h.normal
  have hpassed : ∀ {w' : Walk} {scope : Scope}, w'.plan = w.plan → w'.skipped = w.skipped →
      w'.position = start + Node.widthOf nodes → Turn.Prunes ⟨w', scope, .advance⟩ w node :=
    fun {w'} {scope} hplan hskipped hposition => by
    have hle : w.position ≤ w'.position := by omega
    exact ⟨⟨h.moveTo hplan hskipped hle, hposition ▸ hreaches⟩, hplan, fun span hmem => hskipped ▸ hmem⟩
  unfold groupDone
  rcases result with _ | failure
  · simp only
    split
    · next router _ _ =>
      have hmoved : Prunes { w with position := start + Node.widthOf nodes - 1 } node
          (start + Node.widthOf nodes - 1) := h.moveTo rfl rfl hle
      exact (prunes_steer hmoved hend _ hasRun router _).of_subset rfl (List.Subset.refl _)
    · exact hpassed rfl rfl rfl
  · simp only
    split
    · exact hpassed rfl rfl rfl
    · exact ⟨trivial, rfl, List.Subset.refl _⟩

theorem prunes_forkDone {resume : Resume} (h : w.PrunesAt node resume) (scope : Scope)
    (hasRun : String → Bool) (tolerant : Bool) (result : Option Failure) :
    (w.forkDone scope hasRun tolerant resume result).Prunes w node := by
  -- behind the fork of a detour, the walk goes on one position further
  have hdetour : w.Prunes node (w.position + 1) → node.Reaches (w.position + 1) →
      (w.detourForkDone scope tolerant result).Prunes w node := fun h hreaches => by
    unfold detourForkDone
    rcases result with _ | failure
    · exact prunes_proceed h hreaches scope
    · have hadded : (w.addFailure failure).Prunes node (w.position + 1) :=
        h.moveTo rfl rfl (Nat.le_refl _)
      simp only
      split
      · exact (prunes_proceed hadded hreaches scope).of_subset rfl (List.Subset.refl _)
      · exact ⟨trivial, rfl, List.Subset.refl _⟩
  unfold forkDone
  cases resume with
  | unit =>
    obtain ⟨h, u, hunit⟩ := h
    obtain ⟨arms, hend⟩ := hunit.atEnd
    exact hdetour (h.moveTo rfl rfl (Nat.le_succ _)) (h.reaches_of_atEnd hend)
  | detour | alone | detourFork => exact hdetour h.1 h.2
  | group stop =>
    obtain ⟨h, nodes, start, hgroup, rfl⟩ := h
    exact prunes_groupDone h hgroup scope hasRun tolerant result
  | scattered entries signal =>
    obtain ⟨h, u, hunit⟩ := h
    obtain ⟨arms, hend⟩ := hunit.atEnd
    unfold scatterDone
    rw [h.unitAt?_of_atUnit hunit]
    rcases result with _ | failure
    · have hearly : Prunes { w with early := (entries.filter (w.plan.sequence.drop
          (w.position + 1)).contains).foldl (fun done entry => done.insert entry .forked) w.early }
          node w.position := h.moveTo rfl rfl (Nat.le_refl _)
      exact (prunes_steer hearly hend scope hasRun u signal).of_subset rfl (List.Subset.refl _)
    · have hadded : (w.addFailure failure).Prunes node w.position := h.moveTo rfl rfl (Nat.le_refl _)
      simp only
      split
      · exact (prunes_steer hadded hend scope hasRun u signal).of_subset rfl (List.Subset.refl _)
      · exact ⟨trivial, rfl, List.Subset.refl _⟩

end Walk

/-! ## Processes -/

/-- Where the answer belongs that a walk waits for. -/
def Activity.resume? : Activity → Option Resume
  | .poised (.execute _ resume) | .poised (.fork _ _ resume) | .queued _ _ resume
  | .inPlace _ _ resume _ | .forking _ resume _ _ _ => some resume
  | .working job _ | .asleep job _ _ | .calling job _ _ _ => some job.resume
  | .poised .advance | .poised .finish => none

theorem Activity.resume?_of_fork? {activity : Activity} {resume : Resume}
    (h : activity.fork? = some resume) : activity.resume? = some resume := by
  cases activity with
  | poised next =>
    cases next with
    | fork => exact h
    | advance | execute | finish => cases h
  | inPlace | forking => exact h
  | queued | working | asleep | calling => cases h

def Activity.Prunes (w : Walk) (node : Node) : Activity → Prop
  | .poised next => next.Prunes w node
  | .queued _ _ resume | .inPlace _ _ resume _ | .forking _ resume _ _ _ => w.PrunesAt node resume
  | .working job _ | .asleep job _ _ | .calling job _ _ _ => w.PrunesAt node job.resume

theorem Activity.Prunes.of_resume? {w : Walk} {node : Node} {activity : Activity} {resume : Resume}
    (h : activity.Prunes w node) (hresume : activity.resume? = some resume) :
    w.PrunesAt node resume := by
  cases activity with
  | poised next =>
    cases next with
    | advance | finish => cases hresume
    | execute =>
      cases hresume
      exact h
    | fork =>
      cases hresume
      exact h.2
  | queued | working | asleep | calling | inPlace | forking =>
    cases hresume
    exact h

/-- What is known of a process, whatever node its plan is the plan of. -/
def Process.Prunes (q : Process) : Prop :=
  ∀ node : Node, node.IsNormal → node.compile? = some q.walk.plan → q.activity.Prunes q.walk node

/-- A position that a walk is at work on: that of its unit, or the last one of its group. -/
def Process.workAt? (q : Process) : Option Nat :=
  q.activity.resume?.bind fun
    | .unit | .scattered .. => some q.walk.position
    | .group stop => some (stop - 1)
    | .alone | .detour .. | .detourFork => none

/-- A walk is not at work on what it skips. -/
theorem Process.Prunes.not_skips_workAt? {q : Process} {node : Node} {position : Nat} (h : q.Prunes)
    (hnormal : node.IsNormal) (hplan : node.compile? = some q.walk.plan)
    (hwork : q.workAt? = some position) : ¬ q.walk.Skips position := by
  obtain ⟨resume, hresume, hposition⟩ := Option.bind_eq_some_iff.mp hwork
  have hprunes := (h node hnormal hplan).of_resume? hresume
  cases resume with
  | unit | scattered =>
    cases hposition
    obtain ⟨-, u, hunit⟩ := hprunes
    exact hunit.2
  | group stop =>
    cases hposition
    obtain ⟨hprunes, nodes, start, ⟨⟨arms, hstands⟩, hopen, -⟩, rfl⟩ := hprunes
    have hwidth := (hstands.normal hnormal).width_pos
    rw [Node.width_parallel] at hwidth
    have hwork : Node.IsWork (.parallel nodes) := trivial
    refine hprunes.not_skips_inside hwork hstands hopen (by omega) ?_
    rw [Node.width_parallel]
    omega
  | alone | detour | detourFork => cases hposition

theorem Process.IsStart.prunes {q : Process} {serial : Nat} (h : q.IsStart serial) : q.Prunes := by
  intro node hnormal hplan
  rcases h with ⟨plan, pooled, rfl⟩ | ⟨u, rfl⟩
  · exact ⟨⟨hnormal, hplan, nofun⟩, hnormal.reaches_zero⟩
  · refine ⟨⟨hnormal, hplan, nofun⟩, .inl ?_⟩
    have hleaves : [u] = node.leaves := hnormal.sequence_of_compile hplan
    rw [Node.width, ← hleaves]
    rfl

theorem Process.Prunes.cancelTasks {q : Process} (h : q.Prunes) : q.cancelTasks.Prunes := by
  obtain ⟨serial, walk, activity⟩ := q
  intro node hnormal hplan
  have hprunes := h node hnormal hplan
  cases activity <;> exact hprunes

/-- Whatever a walk does where it stands, it takes nothing back of what it skips. -/
theorem Scene.Steps.prunes {s s' : Scene} {task serial : Nat} {node : Node}
    (h : s.Steps task serial s') (hprunes : s.activity.Prunes s.walk node) :
    s'.activity.Prunes s'.walk node ∧ s.walk.skipped ⊆ s'.walk.skipped := by
  have hturn : ∀ {t : Turn}, t.Prunes s.walk node →
      (Activity.poised t.next).Prunes t.walk node ∧ s.walk.skipped ⊆ t.walk.skipped :=
    fun ht => ⟨ht.next, ht.grows⟩
  cases h with
  | advance h =>
    rw [h] at hprunes
    exact hturn (Walk.prunes_advance hprunes.1 hprunes.2 _ _)
  | missing h =>
    rw [h] at hprunes
    exact hturn (Walk.prunes_unitDone hprunes ..)
  | ends h | gaveUp h =>
    rw [h] at hprunes
    rw [endUnit_eq]
    exact hturn (Walk.prunes_unitDone hprunes ..)
  | forksNone h =>
    rw [h] at hprunes
    exact hturn (Walk.prunes_forkDone hprunes.2 ..)
  | joins h =>
    rw [h] at hprunes
    exact hturn (Walk.prunes_forkDone hprunes ..)
  | forksOne h | forks h =>
    rw [h] at hprunes
    exact ⟨hprunes.2, List.Subset.refl _⟩
  | queues h | begins h | granted h | does h | sleeps h | wakes h | opens h | runs h | tidies h | fails h
  | starts h | refuses h =>
    rw [h] at hprunes
    exact ⟨hprunes, List.Subset.refl _⟩

theorem Process.Moves.prunes {who task : Nat} {p p' : Process} {run run' : RunState} {e e' : Engine}
    {site : Site} {node : Node} (h : p.Moves who site task run e p' run' e')
    (hprunes : p.activity.Prunes p.walk node) :
    p'.activity.Prunes p'.walk node ∧ p.walk.skipped ⊆ p'.walk.skipped := by
  cases h with
  | here h => exact h.prunes hprunes
  | called | returned | inPlace | child | childEnded => exact ⟨hprunes, List.Subset.refl _⟩
  | @inPlaceEnded _ _ walk _ _ _ _ _ _ _ _ _ _ _ _ _ hclose =>
    subst hclose
    have ht := Walk.prunes_forkDone (w := walk) hprunes
    exact ⟨(ht ..).next, (ht ..).grows⟩

/-! ## Executors -/

namespace Executor

variable {start last x y : Executor} {past more : List (Executor × Move)} {m : Move} {q r : Process}
  {node : Node}

theorem prunes_move (hfits : x.Fits) (h : ∀ q, x.Has q → q.Prunes) (hmove : x.move m = some y) :
    ∀ q, y.Has q → q.Prunes := by
  intro q hq
  rcases stemsFrom hmove hq with hstart | hin | ⟨who, site, task, p, run, run', e', -, hp, hmoves⟩ |
    ⟨p, hp, rfl⟩
  · exact hstart.prunes
  · exact h q hin
  · intro node hnormal hplan
    obtain ⟨own, hown, hhas⟩ := id hp
    rw [hmoves.plan ((hfits own hown).of_has hhas)] at hplan
    exact (hmoves.prunes (h p hp node hnormal hplan)).1
  · exact (h p hp).cancelTasks

theorem History.prunes (h : start.History past last) (hfits : start.Fits)
    (hstart : ∀ q, start.Has q → q.Prunes) : ∀ q, last.Has q → q.Prunes := by
  induction h with
  | start => exact hstart
  | move h hmove ih => exact prunes_move (h.fits hfits) ih hmove

/-- A walk stays on its plan, and what it skips it goes on skipping. -/
theorem History.keepsSkipping (h : x.History more last) (hfits : x.Fits) (hnumbered : x.ledger.Numbered)
    (hprunes : ∀ q, x.Has q → q.Prunes) (hq : x.Has q) (hnormal : node.IsNormal)
    (hplan : node.compile? = some q.walk.plan) : q.serial < last.engine.nextSerial ∧
      ∀ r, last.Has r → r.serial = q.serial →
        r.walk.plan = q.walk.plan ∧ q.walk.skipped ⊆ r.walk.skipped := by
  induction h with
  | start =>
    obtain ⟨run, hrun, hhas⟩ := id hq
    refine ⟨serial_lt hnumbered hrun _ (hhas.serials_subset q.serial_mem_serials), fun r hr heq => ?_⟩
    rw [hr.unique hq hnumbered heq]
    exact ⟨rfl, List.Subset.refl _⟩
  | @move more v last m h hmove ih =>
    obtain ⟨hknown, hkeeps⟩ := ih
    have hv := h.fits hfits
    refine ⟨Nat.lt_of_lt_of_le hknown (nextSerial_le hv hmove), fun r hr heq => ?_⟩
    rcases stemsFrom hmove hr with hstart | hin | ⟨who, site, task, p, run, run', e', -, hp, hmoves⟩ |
      ⟨p, hp, rfl⟩
    · have hserial := hstart.serial
      omega
    · exact hkeeps r hin heq
    · obtain ⟨hsame, hsubset⟩ := hkeeps p hp (hmoves.serial ▸ heq)
      obtain ⟨own, hown, hhas⟩ := id hp
      have hmoved := hmoves.plan ((hv own hown).of_has hhas)
      have hpart := h.prunes hfits hprunes p hp node hnormal (hsame ▸ hplan)
      exact ⟨hmoved.trans hsame, List.Subset.trans hsubset (hmoves.prunes hpart).2⟩
    · rw [p.walk_cancelTasks]
      exact hkeeps p hp (p.serial_cancelTasks ▸ heq)

end Executor

end Workflow
