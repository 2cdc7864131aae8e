import Workflow.Proofs.Run.Standstill
import Workflow.Proofs.Run.Steps

/-!
# Progress of a process

`Process.step_pays` carries the step at one walk up the tree of walks: whichever task of a process
makes a step, the process pays some of its debt. A branch disturbs no other one, because no unit
occurs in two of them.

`Process.isFinished_of_standsStill` is the other half. A process that has not finished and stands
still holds no permit, and all that it waits for are permits; but then nobody holds one.
-/

namespace Workflow

variable {c : Contract} {run : RunState} {e : Engine}

/-! ## Steps pay -/

/-- After a step of a process, some of its debt has been paid. -/
def Process.Pays (c : Contract) (debt : Debt) (run : RunState) (e : Engine)
    (calls : Multiset Behavior.Rest) (p : Process) (run' : RunState) (e' : Engine) : Prop :=
  ∃ emitted less, Passes c debt.node.leaves emitted run e run' e' ∧
    p.Owes c run'.scope e'.nextSerial (debt.pay emitted less) ∧
    Descends (less, p.calls) (debt.effort, calls)

/-- After a step of a branch of a fork, some of its debt has been paid. -/
def Child.Pays (c : Contract) (above : Nat) (debt : Debt) (run : RunState) (e : Engine)
    (calls : Multiset Behavior.Rest) (child : Child) (run' : RunState) (e' : Engine) : Prop :=
  ∃ emitted less, Passes c debt.node.leaves emitted run e run' e' ∧
    child.Owes c run'.scope e'.nextSerial above (debt.pay emitted less) ∧
    Descends (less, child.calls) (debt.effort, calls)

/-- After a step within the branches of a fork, some of the debt of one of them has been paid. -/
def Child.PaysIn (c : Contract) (above : Nat) (debts : List Debt) (run : RunState) (e : Engine)
    (calls : Multiset Behavior.Rest) (children : List Child) (run' : RunState) (e' : Engine) :
    Prop :=
  ∃ before debt after emitted less, debts = before ++ debt :: after ∧
    Passes c debt.node.leaves emitted run e run' e' ∧
    Child.OweAll c run'.scope e'.nextSerial above children
      (before ++ debt.pay emitted less :: after) ∧
    Descends (less, Child.callsIn children) (debt.effort, calls)

/-- A branch pays when its process does, also when the process has finished by that. -/
theorem Child.pays_of_process {debt : Debt} {run' : RunState} {e' : Engine} (entry : String)
    {p p' : Process} {above : Nat}
    (habove : above < p'.serial) (h : p'.Pays c debt run e p.calls run' e') :
    if p'.isFinished then
      (Child.ended entry p'.walk.failure).Pays c above debt run e (Child.running entry p).calls run'
        { e' with pool := e'.pool.finish }
    else
      (Child.running entry p').Pays c above debt run e (Child.running entry p).calls run' e' := by
  obtain ⟨emitted, less, hpasses, howes, hdescends⟩ := h
  split
  · next hfinished =>
    obtain ⟨serial, walk, rfl⟩ := Process.exists_of_isFinished hfinished
    obtain ⟨-, hfollows, hruns, hsigned⟩ := howes
    exact ⟨emitted, less, hpasses.engine _ (hpasses.serves.of_eq rfl rfl rfl) (Nat.le_refl _),
      ⟨hfollows.failure, hruns, hsigned⟩, hdescends⟩
  · next hrunning =>
    rw [Bool.not_eq_true] at hrunning
    exact ⟨emitted, less, hpasses, ⟨hrunning, habove, howes⟩, hdescends⟩

/-- A walk whose branches pay pays. -/
theorem Scene.pays_of_children {debt : Debt} {run' : RunState} {e' : Engine} {walk : Walk}
    {anchor : String} {resume : Resume} {toStart : List (Branch Plan)} {children' : List Child}
    {completed ended : List String} {started : List Debt} {waiting : List Node} {serial : Nat}
    {calls : Multiset Behavior.Rest}
    (hfollows : walk.Follows c debt.node) (hruns : List.Forall₂ Branch.Runs toStart waiting)
    (hjoining : walk.Joining c debt (started ++ waiting.map (Debt.branch c.label)) resume)
    (h : Child.PaysIn c serial started run e calls children' run' e') :
    Scene.Pays c serial debt run e calls
      ⟨walk, .forking anchor resume toStart children' (completed ++ ended), run', e'⟩ := by
  obtain ⟨before, part, after, emitted, less, rfl, hpasses, hchildren, hdescends⟩ := h
  rw [List.append_assoc, List.cons_append] at hjoining
  obtain ⟨-, hsublist⟩ := hjoining.part hfollows (show part ∈ _ by simp)
  -- what one branch pays, the walk pays
  obtain ⟨hle, hpaid⟩ := hjoining.pay emitted less
  refine ⟨emitted, debt.effort - part.effort + less, hpasses.mono hsublist.subset, hfollows,
    ⟨before ++ part.pay emitted less :: after, waiting, hchildren, hruns, ?_⟩,
    hdescends.of_part hle⟩
  rw [List.append_assoc, List.cons_append]
  exact hpaid

mutual

/-- Whichever task of a process makes a step, the process pays. -/
theorem Process.step_pays {who task : Nat} {p p' : Process} {debt : Debt} {run' : RunState}
    {e' : Engine} (hserves : e.Serves c)
    (hview : run.view = c.view) (howes : p.Owes c run.scope e.nextSerial debt)
    (h : p.step who task run e = some (p', run', e')) :
    p'.serial = p.serial ∧ p'.Pays c debt run e p.calls run' e' := by
  obtain ⟨serial, walk, activity⟩ := p
  obtain ⟨hserial, hfollows, hactivity⟩ := howes
  rw [Process.step, Option.map_eq_some_iff] at h
  obtain ⟨s, hs, heq⟩ := h
  cases heq
  obtain ⟨emitted, less, hpasses, hfollows', howes', hdescends⟩ :=
    Activity.step_pays hserves hview hserial hfollows hactivity hs
  exact ⟨rfl, emitted, less, hpasses,
    ⟨Nat.lt_of_lt_of_le hserial hpasses.serials, hfollows', howes'⟩, hdescends⟩

theorem Activity.step_pays {who task serial : Nat} {walk : Walk} {activity : Activity} {s : Scene}
    {debt : Debt}
    (hserves : e.Serves c) (hview : run.view = c.view) (hserial : serial < e.nextSerial)
    (hfollows : walk.Follows c debt.node)
    (howes : activity.Owes c run.scope e.nextSerial serial walk debt)
    (h : activity.step who task serial walk run e = some s) :
    s.Pays c serial debt run e activity.calls := by
  cases activity with
  | calling | inPlace => exact howes.elim
  | forking anchor resume toStart children completed =>
    rw [Activity.step] at h
    split at h
    · exact Scene.pays_stepHere hserves hview hserial hfollows howes h
    · rw [Option.map_eq_some_iff] at h
      obtain ⟨⟨children', ended, run', e'⟩, hchildren, rfl⟩ := h
      obtain ⟨started, waiting, howes, hruns, hjoining⟩ := howes
      -- branches share no unit, so none of them touches the slots of another
      have hsublist := hjoining.sublist hfollows
      have hnodup := hsublist.nodup hfollows.nodup
      rw [List.map_append, Node.leavesOf_eq_flatMap, List.flatMap_append,
        ← Node.leavesOf_eq_flatMap] at hnodup
      have hkept : ∀ v ∈ Node.leavesOf (started.map Debt.node), v ∈ c.kept := fun v hv =>
        hfollows.kept v (hsublist.subset (mem_leavesOf_append hv))
      exact Scene.pays_of_children hfollows hruns hjoining
        (Child.stepIn_pays hserves hview hnodup.of_append_left hkept howes hchildren)
  | poised | queued | working | asleep =>
    rw [Activity.step] at h
    · split at h
      · exact Scene.pays_stepHere hserves hview hserial hfollows howes h
      · cases h
    all_goals simp

theorem Child.stepIn_pays {who above : Nat} {children children' : List Child} {debts : List Debt}
    {ended : List String} {run' : RunState} {e' : Engine} (hserves : e.Serves c)
    (hview : run.view = c.view)
    (hnodup : (Node.leavesOf (debts.map Debt.node)).Nodup)
    (hkept : ∀ v ∈ Node.leavesOf (debts.map Debt.node), v ∈ c.kept)
    (howes : Child.OweAll c run.scope e.nextSerial above children debts)
    (h : Child.stepIn who children run e = some (children', ended, run', e')) :
    Child.PaysIn c above debts run e (Child.callsIn children) children' run' e' := by
  cases children with
  | nil => cases h
  | cons child rest =>
    obtain ⟨debt, others, rfl, hchild, hrest⟩ := howes
    rw [List.map_cons, Node.leavesOf, List.nodup_append] at hnodup
    obtain ⟨-, hnodupRest, hdisjoint⟩ := hnodup
    rw [List.map_cons, Node.leavesOf] at hkept
    rw [Child.stepIn] at h
    split at h
    · next hstep =>
      -- the first branch made the step, and the others do not notice
      cases h
      obtain ⟨emitted, less, hpasses, howes', hdescends⟩ :=
        Child.step_pays hserves hview hchild hstep
      have hslots : ∀ v ∈ Node.leavesOf (others.map Debt.node),
          run'.scope.slots v = run.scope.slots v := fun v hv =>
        hpasses.slots v (hkept v (List.mem_append_right _ hv)) fun hmem => hdisjoint v hmem v hv rfl
      have hrest' := hrest.congr hslots hpasses.serials
      exact ⟨[], debt, others, emitted, less, rfl, hpasses, ⟨_, others, rfl, howes', hrest'⟩,
        hdescends.add_right _⟩
    · -- a later branch made the step, and the first one does not notice
      rw [Option.map_eq_some_iff] at h
      obtain ⟨⟨rest', ended', run', e'⟩, hstep, heq⟩ := h
      cases heq
      obtain ⟨before, part, after, emitted, less, rfl, hpasses, howes', hdescends⟩ :=
        Child.stepIn_pays hserves hview hnodupRest
          (fun v hv => hkept v (List.mem_append_right _ hv)) hrest hstep
      have hslots : ∀ v ∈ debt.node.leaves, run'.scope.slots v = run.scope.slots v := by
        intro v hv
        refine hpasses.slots v (hkept v (List.mem_append_left _ hv)) fun hmem => ?_
        refine hdisjoint v hv v ?_ rfl
        rw [Node.leavesOf_eq_flatMap]
        exact List.mem_flatMap.mpr ⟨part.node, by simp, hmem⟩
      have hchild' := hchild.congr hslots hpasses.serials
      exact ⟨debt :: before, part, after, emitted, less, rfl, hpasses,
        ⟨debt, _, rfl, hchild', howes'⟩, hdescends.add_left _⟩

theorem Child.step_pays {who above : Nat} {child child' : Child} {debt : Debt} {ended : List String}
    {run' : RunState} {e' : Engine}
    (hserves : e.Serves c) (hview : run.view = c.view)
    (howes : child.Owes c run.scope e.nextSerial above debt)
    (h : child.step who run e = some (child', ended, run', e')) :
    child'.Pays c above debt run e child.calls run' e' := by
  cases child with
  | refused | ended | cancelled => cases h
  | running entry process =>
    obtain ⟨-, habove, howes⟩ := howes
    rw [Child.step, Option.map_eq_some_iff] at h
    obtain ⟨⟨process', run', e'⟩, hstep, heq⟩ := h
    obtain ⟨hserial, hpays⟩ := Process.step_pays hserves hview howes hstep
    rw [← hserial] at habove
    have hchild := Child.pays_of_process entry habove hpays
    simp only at heq
    split at heq
    · next hfinished =>
      cases heq
      rwa [if_pos hfinished] at hchild
    · next hrunning =>
      cases heq
      rwa [if_neg hrunning] at hchild

end

/-! ## Waiting -/

mutual

/-- No unit of a process that owes a debt runs a flow, and branches have greater numbers than the
walks around them. -/
theorem Process.Owes.tiered {scope : Scope} {bound : Nat} {p : Process} {debt : Debt}
    {around : List Nat} (howes : p.Owes c scope bound debt) (haround : ∀ w ∈ around, w < p.serial) :
    p.Tiered around p.serial := by
  obtain ⟨serial, walk, activity⟩ := p
  obtain ⟨-, -, howes⟩ := howes
  refine ⟨fun hmem => Nat.lt_irrefl _ (haround serial hmem), ?_⟩
  cases activity with
  | poised | queued | working | asleep => trivial
  | calling | inPlace => exact howes.elim
  | forking anchor resume toStart children completed =>
    obtain ⟨started, waiting, hchildren, -, -⟩ := howes
    refine Child.OweAll.tiered hchildren fun w hw => ?_
    rcases List.mem_cons.mp hw with rfl | hw
    · exact Nat.le_refl _
    · exact Nat.le_of_lt (haround w hw)

theorem Child.OweAll.tiered {scope : Scope} {bound above : Nat} {children : List Child}
    {debts : List Debt} {around : List Nat} (howes : Child.OweAll c scope bound above children debts)
    (haround : ∀ w ∈ around, w ≤ above) : Child.TieredIn around children := by
  cases children with
  | nil => trivial
  | cons child rest =>
    obtain ⟨debt, others, rfl, hchild, hrest⟩ := howes
    refine ⟨?_, Child.OweAll.tiered hrest haround⟩
    cases child with
    -- an open pool refuses no branch, and no shutdown has given one up
    | refused | cancelled => exact hchild.elim
    | ended => trivial
    | running entry process =>
      obtain ⟨hrunning, habove, howes⟩ := hchild
      exact ⟨hrunning, Process.Owes.tiered howes fun w hw =>
        Nat.lt_of_le_of_lt (haround w hw) habove⟩

end

/-- No schedule is stuck before the end: a process that stands still while all permits of the pool
are accounted for has finished. -/
theorem Process.isFinished_of_standsStill {scope : Scope} {bound : Nat} {p : Process} {debt : Debt}
    (howes : p.Owes c scope bound debt) (hbalanced : e.pool.Balanced p.stakes)
    (hsize : 0 < e.pool.size) (hstill : p.StandsStill [] p.serial run e) : p.isFinished = true := by
  by_contra hrunning
  rw [Bool.not_eq_true] at hrunning
  have htiered : p.Tiered [] p.serial := howes.tiered fun w hw => by cases hw
  obtain ⟨hne, hwaits⟩ := Process.waits_of_standsStill htiered hrunning hstill
  exact hne (hbalanced.eq_nil hsize hwaits)

end Workflow
