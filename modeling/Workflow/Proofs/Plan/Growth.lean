import Std.Data.String.ToNat
import Workflow.Proofs.Plan.Groups

/-!
# What laying out a node adds

`Layout.Grows before after names cs gs` says how a layout has grown from `before` to
`after`: which units, choices and groups were appended, and what is known about their anchors.

The point of the relation is that it composes (`Grows.trans`), so the steps of a sequence need no
argument of their own. It carries three facts about anchors through every composition.

* A *joint* is a position where ways part or meet: the beginning or the end of an arm, or the end of
  a group. All joints that were added lie behind the position where the growth began, and none lies
  behind `firstAnchor` at its end.
* A group that was added and is anchored on a unit has that unit directly before it, not before
  `firstAnchor` at the beginning. So it begins at no joint that was there before, and none that was
  added either.
* A group without such a unit has a virtual anchor, whose number is new.

`IsNormal.laysOut` is the result: a normal node can be laid out, and then its leaves, `choicesFrom`
and `GroupsFrom` are what was added.
-/

namespace Workflow

/-! ## Joints -/

/-- A position where an arm begins or ends, or where a group ends. -/
def Joint (choices : List (Nat × Choice)) (groups : List (Nat × Group Plan)) (position : Nat) :
    Prop :=
  (∃ e ∈ choices, ∃ arm ∈ e.2.arms.values, position = arm.span.start ∨ position = arm.span.stop) ∨
    ∃ e ∈ groups, position = e.2.span.stop

theorem joint_append {choices choices' : List (Nat × Choice)}
    {groups groups' : List (Nat × Group Plan)} {position : Nat} :
    Joint (choices ++ choices') (groups ++ groups') position ↔
      Joint choices groups position ∨ Joint choices' groups' position := by
  simp only [Joint, List.mem_append, or_and_right, exists_or]
  exact or_or_or_comm

namespace Layout

/-- Everything put into a layout so far lies before its end. -/
structure Tidy (l : Layout) : Prop where
  firstAnchor : l.firstAnchor ≤ l.size
  choices : ∀ e ∈ l.plan.choices.entries, e.1 < l.size
  groups : ∀ e ∈ l.plan.groups.entries, e.1 < l.size

theorem tidy_empty : Tidy {} where
  firstAnchor := Nat.le_refl _
  choices := by rintro e ⟨⟩
  groups := by rintro e ⟨⟩

/-- How a layout has grown. -/
structure Grows (before after : Layout) (names : List String) (cs : List (Nat × Choice))
    (gs : List (Nat × Group Plan)) : Prop where
  sequence : after.plan.sequence = before.plan.sequence ++ names
  choices : after.plan.choices.entries = before.plan.choices.entries ++ cs
  groups : after.plan.groups.entries = before.plan.groups.entries ++ gs
  choices_within : ∀ e ∈ cs, before.size ≤ e.1 ∧ e.1 < after.size
  groups_within : ∀ e ∈ gs, before.size ≤ e.1 ∧ e.1 < after.size
  firstAnchor : before.firstAnchor ≤ before.size →
    before.firstAnchor ≤ after.firstAnchor ∧ after.firstAnchor ≤ after.size
  joints : ∀ x, Joint cs gs x → before.size < x ∧ x ≤ after.firstAnchor
  anchored : ∀ e ∈ gs, ∀ k, e.2.anchorAt = some k →
    k + 1 = e.1 ∧ before.firstAnchor ≤ k ∧ after.plan.sequence[k]? = some e.2.anchor ∧
      ¬ Joint cs gs e.1
  virtual_le : before.virtualAnchors ≤ after.virtualAnchors
  virtual : ∀ e ∈ gs, e.2.anchorAt = none → ∃ number, e.2.anchor = Anchor.virtual number ∧
    (number = 0 ↔ e.1 = 0) ∧
      (number ≠ 0 → before.virtualAnchors < number ∧ number ≤ after.virtualAnchors)
  distinct : gs.Pairwise fun a b =>
    a.2.anchorAt = none → b.2.anchorAt = none → a.2.anchor ≠ b.2.anchor

variable {before middle after : Layout} {names names' : List String}
  {cs cs' : List (Nat × Choice)} {gs gs' : List (Nat × Group Plan)}

theorem Grows.size (h : Grows before after names cs gs) :
    after.size = before.size + names.length := by
  unfold Layout.size
  rw [h.sequence, List.length_append]

/-- The first unit that was added stands where the growth began. -/
theorem Grows.head {name : String} (h : Grows before after names cs gs)
    (hname : names.head? = some name) : after.plan.sequence[before.size]? = some name := by
  rw [h.sequence, Layout.size, List.getElem?_append_right (Nat.le_refl _), Nat.sub_self,
    ← List.head?_eq_getElem?, hname]

/-- The last unit that was added stands at the end. -/
theorem Grows.last {name : String} (h : Grows before after names cs gs)
    (hname : names.getLast? = some name) : after.plan.sequence[after.size - 1]? = some name := by
  have hsize := h.size
  rw [List.getLast?_eq_getElem?] at hname
  have hlt := (List.getElem?_eq_some_iff.mp hname).1
  rw [h.sequence, List.getElem?_append_right (by rw [← Layout.size]; omega), ← hname]
  congr 1
  show after.size - 1 - before.size = names.length - 1
  omega

theorem Grows.tidy (h : Grows before after names cs gs) (hbefore : before.Tidy) :
    after.Tidy := by
  have hsize := h.size
  refine ⟨(h.firstAnchor hbefore.firstAnchor).2, ?_, ?_⟩
  · intro e he
    rw [h.choices, List.mem_append] at he
    rcases he with he | he
    · have := hbefore.choices e he
      omega
    · exact (h.choices_within e he).2
  · intro e he
    rw [h.groups, List.mem_append] at he
    rcases he with he | he
    · have := hbefore.groups e he
      omega
    · exact (h.groups_within e he).2

theorem Grows.refl (l : Layout) : Grows l l [] [] [] where
  sequence := by simp
  choices := by simp
  groups := by simp
  choices_within := by simp
  groups_within := by simp
  firstAnchor := fun h => ⟨Nat.le_refl _, h⟩
  joints := by simp [Joint]
  anchored := by simp
  virtual_le := Nat.le_refl _
  virtual := by simp
  distinct := .nil

theorem virtual_inj {m n : Nat} (h : Anchor.virtual m = Anchor.virtual n) : m = n := by
  have hlist := congrArg String.toList h
  simp only [Anchor.virtual, String.toList_append, List.append_cancel_left_eq] at hlist
  exact Nat.repr_injective (String.toList_inj.mp hlist)

theorem Grows.trans (hfirst : Grows before middle names cs gs)
    (hsecond : Grows middle after names' cs' gs') (hbefore : before.Tidy) :
    Grows before after (names ++ names') (cs ++ cs') (gs ++ gs') := by
  have hsize := hfirst.size
  have hsize' := hsecond.size
  obtain ⟨hanchor, hanchorLe⟩ := hfirst.firstAnchor hbefore.firstAnchor
  obtain ⟨hanchor', hanchorLe'⟩ := hsecond.firstAnchor hanchorLe
  constructor
  case sequence =>
    rw [hsecond.sequence, hfirst.sequence, List.append_assoc]
  case choices =>
    rw [hsecond.choices, hfirst.choices, List.append_assoc]
  case groups =>
    rw [hsecond.groups, hfirst.groups, List.append_assoc]
  case choices_within =>
    intro e he
    rcases List.mem_append.mp he with he | he
    · have := hfirst.choices_within e he
      omega
    · have := hsecond.choices_within e he
      omega
  case groups_within =>
    intro e he
    rcases List.mem_append.mp he with he | he
    · have := hfirst.groups_within e he
      omega
    · have := hsecond.groups_within e he
      omega
  case firstAnchor =>
    exact fun _ => ⟨Nat.le_trans hanchor hanchor', hanchorLe'⟩
  case joints =>
    intro x hx
    rcases joint_append.mp hx with hx | hx
    · have := hfirst.joints x hx
      omega
    · have := hsecond.joints x hx
      omega
  case anchored =>
    intro e he k hk
    rcases List.mem_append.mp he with he | he
    · obtain ⟨hnext, hle, hname, hjoint⟩ := hfirst.anchored e he k hk
      refine ⟨hnext, hle, ?_, ?_⟩
      · rw [hsecond.sequence, List.getElem?_append_left (List.getElem?_eq_some_iff.mp hname).1,
          hname]
      · -- joints that were added later lie behind every group that was there before
        intro hx
        rcases joint_append.mp hx with hx | hx
        · exact hjoint hx
        · have := hsecond.joints _ hx
          have := hfirst.groups_within e he
          omega
    · obtain ⟨hnext, hle, hname, hjoint⟩ := hsecond.anchored e he k hk
      refine ⟨hnext, by omega, hname, ?_⟩
      -- joints that were there before lie before every anchor that was taken later
      intro hx
      rcases joint_append.mp hx with hx | hx
      · have := hfirst.joints _ hx
        omega
      · exact hjoint hx
  case virtual_le =>
    exact Nat.le_trans hfirst.virtual_le hsecond.virtual_le
  case virtual =>
    intro e he hnone
    rcases List.mem_append.mp he with he | he
    · obtain ⟨number, hname, hzero, hrange⟩ := hfirst.virtual e he hnone
      refine ⟨number, hname, hzero, ?_⟩
      intro hne
      have := hrange hne
      have := hsecond.virtual_le
      omega
    · obtain ⟨number, hname, hzero, hrange⟩ := hsecond.virtual e he hnone
      refine ⟨number, hname, hzero, ?_⟩
      intro hne
      have := hrange hne
      have := hfirst.virtual_le
      omega
  case distinct =>
    refine List.pairwise_append.mpr ⟨hfirst.distinct, hsecond.distinct, ?_⟩
    intro a ha b hb hnoneA hnoneB heq
    obtain ⟨m, hm, hzeroA, hrangeA⟩ := hfirst.virtual a ha hnoneA
    obtain ⟨n, hn, hzeroB, hrangeB⟩ := hsecond.virtual b hb hnoneB
    have hsame : m = n := virtual_inj (by rw [← hm, ← hn, heq])
    have := hfirst.groups_within a ha
    have := hsecond.groups_within b hb
    -- number 0 is taken only at the beginning, and the others go up
    by_cases hm0 : m = 0
    · have := hzeroA.mp hm0
      have := hzeroB.mp (hsame ▸ hm0)
      omega
    · have := hrangeA hm0
      have := hrangeB (by omega)
      omega

/-! ## The steps of a layout -/

theorem grows_push (l : Layout) (name : String) : Grows l (l.push name) [name] [] [] where
  sequence := rfl
  choices := by simp [push]
  groups := by simp [push]
  choices_within := by simp
  groups_within := by simp
  firstAnchor := by
    intro hle
    refine ⟨Nat.le_refl _, Nat.le_trans hle ?_⟩
    simp [size, push]
  joints := by simp [Joint]
  anchored := by simp
  virtual_le := Nat.le_refl _
  virtual := by simp
  distinct := .nil

theorem grows_closeAnchors (l : Layout) : Grows l l.closeAnchors [] [] [] where
  sequence := by simp [closeAnchors]
  choices := by simp [closeAnchors]
  groups := by simp [closeAnchors]
  choices_within := by simp
  groups_within := by simp
  firstAnchor := fun hle => ⟨hle, Nat.le_refl _⟩
  joints := by simp [Joint]
  anchored := by simp
  virtual_le := Nat.le_refl _
  virtual := by simp
  distinct := .nil

theorem Tidy.closeAnchors {l : Layout} (h : l.Tidy) : l.closeAnchors.Tidy :=
  (grows_closeAnchors l).tidy h

/-- A conditional: its parts were laid out one after another, and then its choice was put at the
last position of the condition. -/
theorem Grows.closeConditional {l l1 l2 l3 : Layout} {nc nt nf : List String}
    {cc ct cf : List (Nat × Choice)} {gc gt gf : List (Nat × Group Plan)}
    (router first second : String) (hl : l.Tidy)
    (hcondition : Grows l l1 nc cc gc) (htrue : Grows l1.closeAnchors l2 nt ct gt)
    (hfalse : Grows l2.closeAnchors l3 nf cf gf)
    (hnc : 0 < nc.length) (hnt : 0 < nt.length) (hnf : 0 < nf.length)
    (hfree : ∀ e ∈ cc, e.1 + 1 < l1.size) :
    Grows l
      (l3.closeConditional (l1.size - 1) router (some ⟨first, ⟨l1.size, l2.size⟩⟩)
        (some ⟨second, ⟨l2.size, l3.size⟩⟩))
      (nc ++ (nt ++ nf))
      (cc ++ ([(l1.size - 1, ⟨router, ⟨[(false, ⟨second, ⟨l2.size, l3.size⟩⟩),
        (true, ⟨first, ⟨l1.size, l2.size⟩⟩)]⟩⟩)] ++ (ct ++ cf)))
      (gc ++ (gt ++ gf)) := by
  have hl1 := hcondition.tidy hl
  have hl2 := htrue.tidy hl1.closeAnchors
  have hl3 := hfalse.tidy hl2.closeAnchors
  -- apart from the choice, the three parts are one growth
  have hrest := ((grows_closeAnchors l1).trans (htrue.trans
    ((grows_closeAnchors l2).trans hfalse hl2) hl1.closeAnchors) hl1)
  have hall := hcondition.trans hrest hl
  simp only [List.nil_append] at hall
  have hsize1 := hcondition.size
  have hsize2 : l2.size = l1.size + nt.length := htrue.size
  have hsize3 : l3.size = l2.size + nf.length := hfalse.size
  have hjoints : ∀ x, Joint (cc ++ ([(l1.size - 1, ⟨router, ⟨[(false, ⟨second, ⟨l2.size, l3.size⟩⟩),
        (true, ⟨first, ⟨l1.size, l2.size⟩⟩)]⟩⟩)] ++ (ct ++ cf))) (gc ++ (gt ++ gf)) x →
      x = l1.size ∨ x = l2.size ∨ x = l3.size ∨ Joint (cc ++ (ct ++ cf)) (gc ++ (gt ++ gf)) x := by
    rintro x (⟨e, he, arm, harm, hx⟩ | hx)
    · simp only [List.mem_append, List.mem_singleton] at he
      rcases he with he | rfl | he
      · exact .inr (.inr (.inr (.inl ⟨e, by simp [he], arm, harm, hx⟩)))
      · simp only [Table.values, List.map_cons, List.map_nil, List.mem_cons, List.not_mem_nil,
          or_false] at harm
        rcases harm with rfl | rfl <;> simp only at hx <;> omega
      · exact .inr (.inr (.inr (.inl ⟨e, by simp [he], arm, harm, hx⟩)))
    · exact .inr (.inr (.inr (.inr hx)))
  constructor
  case sequence =>
    exact hall.sequence
  case choices =>
    show Table.place (l1.size - 1) _ l3.plan.choices.entries = _
    rw [hall.choices, ← List.append_assoc, Table.place_between, List.append_assoc]
    · rfl
    · intro e he
      rcases List.mem_append.mp he with he | he
      · have := hl.choices e he
        omega
      · have := hfree e he
        omega
    · intro e he
      rcases List.mem_append.mp he with he | he
      · have : l1.size ≤ e.1 := (htrue.choices_within e he).1
        omega
      · have : l2.size ≤ e.1 := (hfalse.choices_within e he).1
        omega
  case groups =>
    exact hall.groups
  case choices_within =>
    intro e he
    show l.size ≤ e.1 ∧ e.1 < l3.size
    simp only [List.mem_append, List.mem_singleton] at he
    rcases he with he | rfl | he
    · exact hall.choices_within e (by simp [he])
    · simp only
      omega
    · exact hall.choices_within e (by simp [he])
  case groups_within =>
    exact hall.groups_within
  case firstAnchor =>
    exact fun hle => ⟨by show l.firstAnchor ≤ l3.size; omega, Nat.le_refl _⟩
  case joints =>
    intro x hx
    show l.size < x ∧ x ≤ l3.size
    have := hl3.firstAnchor
    rcases hjoints x hx with rfl | rfl | rfl | hx
    · omega
    · omega
    · omega
    · have := hall.joints x hx
      omega
  case anchored =>
    intro e he k hk
    obtain ⟨hnext, hle, hname, hjoint⟩ := hall.anchored e he k hk
    refine ⟨hnext, hle, hname, fun hx => ?_⟩
    -- where an arm begins or ends, no group can be anchored on the unit before it
    have hapart : e.1 ≠ l1.size ∧ e.1 ≠ l2.size ∧ e.1 ≠ l3.size := by
      rcases List.mem_append.mp he with he | he
      · have := hcondition.groups_within e he
        omega
      · rcases List.mem_append.mp he with he | he
        · have : l1.size ≤ k := (htrue.anchored e he k hk).2.1
          have := (htrue.groups_within e he).2
          omega
        · have : l2.size ≤ k := (hfalse.anchored e he k hk).2.1
          have := (hfalse.groups_within e he).2
          omega
    rcases hjoints _ hx with hx | hx | hx | hx
    · exact hapart.1 hx
    · exact hapart.2.1 hx
    · exact hapart.2.2 hx
    · exact hjoint hx
  case virtual_le =>
    exact hall.virtual_le
  case virtual =>
    exact hall.virtual
  case distinct =>
    exact hall.distinct

/-- What becomes of a layout when an anchor is taken for a group at its end: the anchor is a unit directly
before the end, not before `firstAnchor`, or it is virtual with a new number. -/
structure Taken (l : Layout) (anchor : String) (anchorAt : Option Nat) (opened : Layout) : Prop where
  plan : opened.plan = l.plan
  firstAnchor : opened.firstAnchor = l.firstAnchor
  virtual_le : l.virtualAnchors ≤ opened.virtualAnchors
  unit : ∀ k, anchorAt = some k →
    k + 1 = l.size ∧ l.firstAnchor ≤ k ∧ l.plan.sequence[k]? = some anchor
  virtual : anchorAt = none → ∃ number, anchor = Anchor.virtual number ∧
    (number = 0 ↔ l.size = 0) ∧
      (number ≠ 0 → l.virtualAnchors < number ∧ number = opened.virtualAnchors)

theorem taken (l : Layout) : l.Taken l.takeAnchor.1 l.takeAnchor.2.1 l.takeAnchor.2.2 := by
  unfold takeAnchor
  split
  · next hzero =>
    exact ⟨rfl, rfl, Nat.le_refl _, nofun, fun _ => ⟨0, rfl, by simp [hzero], by simp⟩⟩
  · next hpos =>
    split
    · next unitId hname hle =>
      refine ⟨rfl, rfl, Nat.le_refl _, ?_, nofun⟩
      rintro k ⟨⟩
      exact ⟨by omega, of_decide_eq_true hle, hname⟩
    · exact ⟨rfl, rfl, Nat.le_succ _, nofun,
        fun _ => ⟨_, rfl, by omega, fun _ => ⟨Nat.lt_succ_self _, rfl⟩⟩⟩

theorem Taken.grows {l opened : Layout} {anchor : String} {anchorAt : Option Nat}
    (h : l.Taken anchor anchorAt opened) : Grows l opened [] [] [] where
  sequence := by simp [h.plan]
  choices := by simp [h.plan]
  groups := by simp [h.plan]
  choices_within := by simp
  groups_within := by simp
  firstAnchor := fun hle => by
    unfold size
    rw [h.firstAnchor, h.plan]
    exact ⟨Nat.le_refl _, hle⟩
  joints := by simp [Joint]
  anchored := by simp
  virtual_le := h.virtual_le
  virtual := by simp
  distinct := .nil

/-- A parallel node: its anchor was taken, its branches were laid out, and then its group was put at
the position where it began. -/
theorem Grows.closeGroup {l opened done : Layout} {names : List String}
    {cs : List (Nat × Choice)} {inner : List (Nat × Group Plan)} {anchor : String}
    {anchorAt : Option Nat} {branches : List (Branch Plan)} (hl : l.Tidy)
    (htaken : l.Taken anchor anchorAt opened) (hgrows : Grows opened done names cs inner)
    (hnames : 0 < names.length) (hascending : inner.Pairwise fun a b => a.1 < b.1)
    (hinner : ∀ e ∈ inner, ∀ k, e.2.anchorAt = some k → l.size ≤ k) :
    Grows l (done.addGroup ⟨anchor, anchorAt, ⟨l.size, done.size⟩, branches⟩).closeAnchors names cs
      ((l.size, ⟨anchor, anchorAt, ⟨l.size, done.size⟩, branches⟩) ::
        inner.filter fun e => e.1 ≠ l.size) := by
  have hplan := htaken.plan
  have hfirst := htaken.firstAnchor
  have hstart : opened.size = l.size := htaken.grows.size
  have hsize : done.size = l.size + names.length := by rw [hgrows.size, hstart]
  obtain ⟨hanchor, hanchorLe⟩ := hgrows.firstAnchor (by have := hl.firstAnchor; omega)
  -- a group that begins a branch at the same position is replaced by this one
  have hmem : ∀ e ∈ inner.filter (fun e => e.1 ≠ l.size), e ∈ inner ∧ l.size < e.1 := by
    intro e he
    obtain ⟨hmem, hne⟩ := List.mem_filter.mp he
    have := hgrows.groups_within e hmem
    simp only [ne_eq, decide_eq_true_eq] at hne
    exact ⟨hmem, by omega⟩
  have hjoints : ∀ x, Joint cs ((l.size, ⟨anchor, anchorAt, ⟨l.size, done.size⟩, branches⟩) ::
      inner.filter fun e => e.1 ≠ l.size) x → x = done.size ∨ Joint cs inner x := by
    rintro x (hx | ⟨e, he, hx⟩)
    · exact .inr (.inl hx)
    · rcases List.mem_cons.mp he with rfl | he
      · exact .inl hx
      · exact .inr (.inr ⟨e, (hmem e he).1, hx⟩)
  constructor
  case sequence =>
    show done.plan.sequence = _
    rw [hgrows.sequence, hplan]
  case choices =>
    show done.plan.choices.entries = _
    rw [hgrows.choices, hplan]
  case groups =>
    show Table.place l.size _ done.plan.groups.entries = _
    -- behind all groups that were there before, and before all that the branches have added
    rw [hgrows.groups, hplan, Table.place_append hl.groups, Table.place_least _ hascending]
    intro e he
    have := hgrows.groups_within e he
    omega
  case choices_within =>
    intro e he
    show l.size ≤ e.1 ∧ e.1 < done.size
    have := hgrows.choices_within e he
    omega
  case groups_within =>
    intro e he
    show l.size ≤ e.1 ∧ e.1 < done.size
    rcases List.mem_cons.mp he with rfl | he
    · simp only
      omega
    · obtain ⟨he, -⟩ := hmem e he
      have := hgrows.groups_within e he
      omega
  case firstAnchor =>
    exact fun hle => ⟨by show l.firstAnchor ≤ done.size; omega, Nat.le_refl _⟩
  case joints =>
    intro x hx
    show l.size < x ∧ x ≤ done.size
    rcases hjoints x hx with rfl | hx
    · omega
    · have := hgrows.joints x hx
      omega
  case anchored =>
    intro e he k hk
    rcases List.mem_cons.mp he with rfl | he
    · obtain ⟨hnext, hle, hname⟩ := htaken.unit k hk
      refine ⟨hnext, hle, ?_, ?_⟩
      · show done.plan.sequence[k]? = _
        rw [hgrows.sequence, hplan,
          List.getElem?_append_left (List.getElem?_eq_some_iff.mp hname).1, hname]
      · intro hx
        rcases hjoints _ hx with hx | hx
        · simp only at hx
          omega
        · have := hgrows.joints _ hx
          simp only at this
          omega
    · obtain ⟨he, hlt⟩ := hmem e he
      obtain ⟨hnext, -, hname, hjoint⟩ := hgrows.anchored e he k hk
      have := hinner e he k hk
      have := hl.firstAnchor
      refine ⟨hnext, by omega, hname, ?_⟩
      intro hx
      rcases hjoints _ hx with hx | hx
      · have := hgrows.groups_within e he
        omega
      · exact hjoint hx
  case virtual_le =>
    exact Nat.le_trans htaken.virtual_le hgrows.virtual_le
  case virtual =>
    intro e he hnone
    rcases List.mem_cons.mp he with rfl | he
    · obtain ⟨number, hname, hzero, hrange⟩ := htaken.virtual hnone
      refine ⟨number, hname, hzero, ?_⟩
      intro hne
      obtain ⟨hlt, rfl⟩ := hrange hne
      exact ⟨hlt, hgrows.virtual_le⟩
    · obtain ⟨he, -⟩ := hmem e he
      obtain ⟨number, hname, hzero, hrange⟩ := hgrows.virtual e he hnone
      refine ⟨number, hname, hzero, ?_⟩
      intro hne
      exact ⟨Nat.lt_of_le_of_lt htaken.virtual_le (hrange hne).1, (hrange hne).2⟩
  case distinct =>
    refine List.pairwise_cons.mpr ⟨?_, hgrows.distinct.filter _⟩
    intro e he hnoneOwn hnone heq
    obtain ⟨he, hlt⟩ := hmem e he
    obtain ⟨n, hn, hzero, hrange⟩ := hgrows.virtual e he hnone
    obtain ⟨m, hm, -, htakes⟩ := htaken.virtual hnoneOwn
    have hsame : m = n := virtual_inj (hm.symm.trans (heq.trans hn))
    have hne : n ≠ 0 := fun h0 => by
      have := hzero.mp h0
      omega
    have hlow := (hrange hne).1
    have := (htakes (by omega)).2
    omega

end Layout

/-! ## Laying out -/

namespace Node

open Layout (Tidy Grows)

/-- A node can be laid out anywhere, and this is what it adds. -/
def LaysOut (node : Node) : Prop :=
  ∀ l : Layout, l.Tidy → ∃ after groups, node.layOut l = some after ∧
    node.GroupsFrom l.size groups ∧
    Grows l after node.leaves (node.choicesFrom l.size) groups

/-- Steps that can be laid out one by one can be laid out one after another. -/
theorem exists_layOutSteps {steps : List Node} (h : ∀ step ∈ steps, step.LaysOut) (l : Layout)
    (hl : l.Tidy) :
    ∃ after groups, layOutSteps steps l = some after ∧ GroupsFromAll steps l.size groups ∧
      Grows l after (leavesOf steps) (choicesFromAll steps l.size) groups := by
  induction steps generalizing l with
  | nil => exact ⟨l, [], rfl, rfl, Grows.refl l⟩
  | cons step rest ih =>
    obtain ⟨next, groups, hstep, hgroups, hgrows⟩ := h step (by simp) l hl
    obtain ⟨after, more, hrest, hmore, hgrows'⟩ :=
      ih (fun s hs => h s (by simp [hs])) next (hgrows.tidy hl)
    rw [hgrows.size] at hmore hgrows'
    refine ⟨after, groups ++ more, ?_, ⟨groups, more, rfl, hgroups, hmore⟩,
      hgrows.trans hgrows' hl⟩
    rw [layOutSteps, hstep]
    exact hrest

/-- What a plan of its own is for a normal node: what the node adds to an empty layout. -/
theorem compile?_of_layOut {node : Node} {after : Layout} (h : node.layOut {} = some after) :
    node.compile? = some after.plan := by
  rw [compile?, h]
  rfl

/-- Branches that can be laid out one by one can be laid out one after another, each also as a plan
of its own. No group in them is anchored on a unit before them. -/
theorem exists_layOutBranches {branches : List Node}
    (hnormal : ∀ branch ∈ branches, branch.IsNormal)
    (h : ∀ branch ∈ branches, branch.LaysOut) (l : Layout) (hl : l.Tidy) :
    ∃ done compiled groups, layOutBranches branches l = some (done, compiled) ∧
      List.Forall₂ Branch.Runs compiled branches ∧ GroupsFromAll branches l.size groups ∧
      Grows l done (leavesOf branches) (choicesFromAll branches l.size) groups ∧
      ∀ e ∈ groups, ∀ k, e.2.anchorAt = some k → l.size ≤ k := by
  induction branches generalizing l with
  | nil => exact ⟨l, [], [], rfl, .nil, rfl, Grows.refl l, by simp⟩
  | cons branch rest ih =>
    have hbranch := hnormal branch (by simp)
    obtain ⟨next, groups, hlayOut, hgroups, hgrows⟩ :=
      h branch (by simp) l.closeAnchors hl.closeAnchors
    -- anchors are closed before each branch, so no group of a branch is anchored on a unit before
    -- it
    have hclosed := (l.grows_closeAnchors).trans hgrows hl
    simp only [List.nil_append] at hclosed
    obtain ⟨done, compiled, more, hrest, hruns, hmore, hgrows', hanchored⟩ :=
      ih (fun b hb => hnormal b (by simp [hb])) (fun b hb => h b (by simp [hb])) next
        (hclosed.tidy hl)
    have hnext : next.size = l.size + branch.width := hclosed.size
    -- the same branch laid out on its own, for the plan that a task of its own walks through
    obtain ⟨own, ownGroups, hown, -, -⟩ := h branch (by simp) {} Layout.tidy_empty
    obtain ⟨entry, others, hleaves⟩ := List.exists_cons_of_ne_nil hbranch.leaves_ne_nil
    have hentry := hclosed.head (by rw [hleaves]; rfl)
    rw [hnext] at hmore hgrows' hanchored
    refine ⟨done, ⟨entry, own.plan⟩ :: compiled, groups ++ more, ?_, ?_,
      ⟨groups, more, rfl, hgroups, hmore⟩, hclosed.trans hgrows' hl, ?_⟩
    · rw [layOutBranches, if_neg (by simp [hbranch.isEmpty_eq_false]), hlayOut]
      simp only [Option.bind_eq_bind, Option.bind_some, hentry, hown, hrest]
    · exact .cons ⟨by rw [hleaves]; rfl, compile?_of_layOut hown⟩ hruns
    · intro e he k hk
      rcases List.mem_append.mp he with he | he
      · exact (hgrows.anchored e he k hk).2.1
      · have := hanchored e he k hk
        omega

/-- Every normal node can be laid out. -/
theorem IsNormal.laysOut {node : Node} (h : node.IsNormal) : node.LaysOut := by
  induction h with
  | @unit name _ => exact fun l hl => ⟨l.push name, [], rfl, rfl, Layout.grows_push l name⟩
  | @sequence steps _ _ _ ih =>
    intro l hl
    obtain ⟨after, groups, hlayOut, hgroups, hgrows⟩ := exists_layOutSteps ih l hl
    exact ⟨after, groups, by rw [layOut, hlayOut], hgroups, hgrows⟩
  | @parallel branches htwo hbranches ih =>
    intro l hl
    have hnode := IsNormal.parallel htwo hbranches
    rcases htaken : l.takeAnchor with ⟨anchor, anchorAt, opened⟩
    -- taking an anchor adds nothing to the plan, at most the number of a virtual one is used up
    have htakes : l.Taken anchor anchorAt opened := by simpa only [htaken] using l.taken
    have hsize : opened.size = l.size := htakes.grows.size
    have htidy : opened.Tidy := htakes.grows.tidy hl
    obtain ⟨done, compiled, inner, hlayOut, hruns, hinner, hgrows, hanchored⟩ :=
      exists_layOutBranches hbranches ih opened htidy
    rw [hsize] at hinner hgrows hanchored
    have hdone : done.size = l.size + widthOf branches := by rw [hgrows.size, hsize]; rfl
    -- the groups inside stand behind the beginning of this one, so it can be put before them
    have hascending := (groupsFromAll_ascends
      (fun branch hmem => (hbranches branch hmem).groupsFrom_ascends) l.size inner hinner).ascending
    refine ⟨(done.addGroup ⟨anchor, anchorAt, ⟨l.size, done.size⟩, compiled⟩).closeAnchors, _,
      ?_, ?_, Grows.closeGroup hl htakes hgrows hnode.width_pos hascending hanchored⟩
    · rw [layOut, if_neg]
      · simp only [htaken, hlayOut]
        rfl
      · have := hnode.isEmpty_eq_false
        rw [isEmpty] at this
        simp [this]
    · exact ⟨_, inner, rfl, ⟨htwo, hbranches, by rw [hdone], hruns⟩, hinner⟩
  | @conditional c t f hc ht hf ihc iht ihf =>
    intro l hl
    obtain ⟨l1, gc, hlayC, hgc, hgrowsC⟩ := ihc l hl
    have hl1 := (hgrowsC.tidy hl).closeAnchors
    obtain ⟨l2, gt, hlayT, hgt, hgrowsT⟩ := iht l1.closeAnchors hl1
    have hl2 := (hgrowsT.tidy hl1).closeAnchors
    obtain ⟨l3, gf, hlayF, hgf, hgrowsF⟩ := ihf l2.closeAnchors hl2
    have hsize1 : l1.size = l.size + c.width := hgrowsC.size
    have hsize2 : l2.size = l1.size + t.width := hgrowsT.size
    have hsize3 : l3.size = l2.size + f.width := hgrowsF.size
    have hwidth := hc.width_pos
    obtain ⟨router, first, second, hrouter, hfirst, hsecond, hchoice⟩ :=
      exists_choice hc ht hf l.size
    have hunit1 := hgrowsC.last hrouter
    have hunit2 : l2.plan.sequence[l1.size]? = some first := hgrowsT.head hfirst
    have hunit3 : l3.plan.sequence[l2.size]? = some second := hgrowsF.head hsecond
    -- no choice inside the condition is at its last unit, which becomes the router
    have hfree : ∀ e ∈ c.choicesFrom l.size, e.1 + 1 < l1.size := by
      intro e he
      have := hc.choicesFrom_within _ e he
      omega
    have hgrows := Grows.closeConditional router first second hl hgrowsC hgrowsT hgrowsF hwidth
      ht.width_pos hf.width_pos hfree
    refine ⟨l3.closeConditional (l1.size - 1) router (some ⟨first, ⟨l1.size, l2.size⟩⟩)
      (some ⟨second, ⟨l2.size, l3.size⟩⟩), gc ++ (gt ++ gf), ?_,
      ⟨gc, gt, gf, rfl, hgc, ?_, ?_⟩, ?_⟩
    · rw [layOut, hlayC]
      simp only [Option.bind_eq_bind, Option.bind_some, hunit1]
      rw [decide_eq_true (by omega : l.size < l1.size)]
      simp only [hlayT, hlayF, Option.bind_some, Layout.arm?, hunit2, hunit3, Option.map_some]
    · rw [← hsize1]
      exact hgt
    · rw [← hsize1, ← hsize2]
      exact hgf
    · rw [leaves, List.append_assoc, choicesFrom, hchoice]
      have hstartT : l1.closeAnchors.size = l.size + c.width := hsize1
      have hstartF : l2.closeAnchors.size = l.size + c.width + t.width := by
        rw [← hsize1, ← hsize2]
        rfl
      rw [hstartT, hstartF] at hgrows
      simpa [hsize1, hsize2, hsize3] using hgrows

end Node

end Workflow
