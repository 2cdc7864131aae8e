import Workflow.Proofs.Config.Spelling

/-!
# Reading the variables

`Config.read` answers a configuration exactly if every variable is absent or denotes a value and the
pool is not empty (`Config.Describes`), and otherwise it reports the first variable in
`Config.Variable.order` that is wrong, an empty pool last (`Config.Faults`). Both sides are said
without reading anything; `read_cases` is the one place that goes through the settings in order.

A configuration that has been written down, in whatever spelling, is read back as it was
(`Config.Renders`).
-/

namespace Workflow.Config

section

variable {lookUp : String → Option String} {key : String} {config : Config} {α : Type} {default : α}
  {read : String → Except SettingFault α} {denotes : String → α → Prop}

/-! ## What the variables say -/

/-- What a variable comes to: the default if it is absent, and what its text denotes if not. -/
def Gives (lookUp : String → Option String) (key : String) (default : α)
    (denotes : String → α → Prop) (value : α) : Prop :=
  (lookUp key = none ∧ value = default) ∨ ∃ raw, lookUp key = some raw ∧ denotes raw value

/-- The variables say what this configuration holds. -/
structure Describes (lookUp : String → Option String) (config : Config) : Prop where
  grace : Gives lookUp Variable.grace ({} : Config).grace DenotesNumber config.grace
  enabled : Gives lookUp Variable.enabled ({} : Config).enabled DenotesSwitch config.enabled
  runHint : Gives lookUp Variable.runHint ({} : Config).runHint DenotesNumber config.runHint
  verbose : Gives lookUp Variable.verbose ({} : Config).verbose DenotesSwitch config.verbose
  poolSize : Gives lookUp Variable.poolSize ({} : Config).poolSize DenotesNumber config.poolSize
  poolSize_pos : 0 < config.poolSize

def IsNumber (raw : String) : Prop := ∃ n, DenotesNumber raw n

def IsSwitch (raw : String) : Prop := ∃ value, DenotesSwitch raw value

/-- The variables in the order in which faults are looked for, each with what makes a text of it well
formed. -/
def Variable.order : List (String × (String → Prop)) :=
  [(grace, IsNumber), (enabled, IsSwitch), (runHint, IsNumber), (verbose, IsSwitch),
    (poolSize, IsNumber)]

/-- A variable is absent or well formed. -/
def IsRight (lookUp : String → Option String) (v : String × (String → Prop)) : Prop :=
  ∀ raw, lookUp v.1 = some raw → v.2 raw

/-- The first of some variables that is wrong. -/
inductive FirstWrong (lookUp : String → Option String) :
    List (String × (String → Prop)) → String → Prop where
  | here {v : String × (String → Prop)} {rest : List (String × (String → Prop))}
      (hwrong : ¬ IsRight lookUp v) : FirstWrong lookUp (v :: rest) v.1
  | later {v : String × (String → Prop)} {rest : List (String × (String → Prop))} {key : String}
      (hright : IsRight lookUp v) (hrest : FirstWrong lookUp rest key) :
      FirstWrong lookUp (v :: rest) key

/-- All variables are absent or well formed. -/
def AllRight (lookUp : String → Option String) : Prop := ∀ v ∈ Variable.order, IsRight lookUp v

/-- The variables ask for a pool of no worker. -/
def AsksForEmptyPool (lookUp : String → Option String) : Prop :=
  Gives lookUp Variable.poolSize ({} : Config).poolSize DenotesNumber 0

/-- The variable that is to be reported: the first one that is wrong, or that of an empty pool when
all of them are right. -/
def Faults (lookUp : String → Option String) (key : String) : Prop :=
  FirstWrong lookUp Variable.order key ∨
    (AllRight lookUp ∧ AsksForEmptyPool lookUp ∧ key = Variable.poolSize)

/-! ## What they say is one thing -/

theorem allRight_iff : AllRight lookUp ↔ IsRight lookUp (Variable.grace, IsNumber) ∧
    IsRight lookUp (Variable.enabled, IsSwitch) ∧ IsRight lookUp (Variable.runHint, IsNumber) ∧
    IsRight lookUp (Variable.verbose, IsSwitch) ∧ IsRight lookUp (Variable.poolSize, IsNumber) := by
  simp only [AllRight, Variable.order, List.forall_mem_cons, List.not_mem_nil, IsEmpty.forall_iff,
    implies_true, and_true]

theorem FirstWrong.unique {vs : List (String × (String → Prop))} {key key' : String}
    (h : FirstWrong lookUp vs key) (h' : FirstWrong lookUp vs key') : key = key' := by
  induction h with
  | here hwrong =>
    cases h' with
    | here => rfl
    | later hright => exact absurd hright hwrong
  | later hright _ ih =>
    cases h' with
    | here hwrong => exact absurd hright hwrong
    | later _ hrest => exact ih hrest

theorem FirstWrong.not_allRight {vs : List (String × (String → Prop))}
    (h : FirstWrong lookUp vs key) : ¬ ∀ v ∈ vs, IsRight lookUp v := by
  intro hall
  induction h with
  | here hwrong => exact hwrong (hall _ (by simp))
  | later _ _ ih => exact ih fun v hv => hall v (by simp [hv])

theorem Faults.unique {key' : String} (h : Faults lookUp key) (h' : Faults lookUp key') :
    key = key' := by
  rcases h with hfirst | ⟨hall, -, rfl⟩
  · rcases h' with hfirst' | ⟨hall', -, -⟩
    · exact hfirst.unique hfirst'
    · exact absurd hall' hfirst.not_allRight
  · rcases h' with hfirst' | ⟨-, -, rfl⟩
    · exact absurd hall hfirst'.not_allRight
    · rfl

/-! ## Reading one variable -/

/-- A reader that is exact about texts is exact about variables. -/
theorem readOr_eq_ok_iff (hread : ∀ raw value, read raw = .ok value ↔ denotes raw value) {value : α} :
    readOr lookUp key default read = .ok value ↔ Gives lookUp key default denotes value := by
  unfold readOr Gives
  rcases lookUp key with _ | raw
  · simp [eq_comm]
  · simp only [← hread, reduceCtorEq, false_and, Option.some.injEq, exists_eq_left', false_or]
    rcases read raw with fault | value' <;> simp

theorem readOr_cases (lookUp : String → Option String) (key : String) (default : α)
    (hread : ∀ raw value, read raw = .ok value ↔ denotes raw value) :
    (∃ value, readOr lookUp key default read = .ok value ∧ Gives lookUp key default denotes value ∧
      IsRight lookUp (key, fun raw => ∃ value, denotes raw value)) ∨
    ∃ fault, readOr lookUp key default read = .error (.misconfigured key fault) ∧
      ¬ IsRight lookUp (key, fun raw => ∃ value, denotes raw value) := by
  rcases hlookUp : lookUp key with _ | raw
  · refine .inl ⟨default, by rw [readOr, hlookUp], .inl ⟨hlookUp, rfl⟩, fun raw hraw => ?_⟩
    cases hlookUp.symm.trans hraw
  · rcases hraw : read raw with fault | value
    · refine .inr ⟨fault, by rw [readOr, hlookUp]; simp only [hraw], fun hright => ?_⟩
      obtain ⟨value, hvalue⟩ := hright raw hlookUp
      cases hraw.symm.trans ((hread raw value).mpr hvalue)
    · have hvalue := (hread raw value).mp hraw
      refine .inl ⟨value, by rw [readOr, hlookUp]; simp only [hraw], .inr ⟨raw, hlookUp, hvalue⟩, ?_⟩
      intro raw' hraw'
      cases hlookUp.symm.trans hraw'
      exact ⟨value, hvalue⟩

/-- What a variable comes to is one thing, and then it is right. -/
theorem Gives.unique (hread : ∀ raw value, read raw = .ok value ↔ denotes raw value) {value value' : α}
    (h : Gives lookUp key default denotes value) (h' : Gives lookUp key default denotes value') :
    value = value' := by
  rw [← readOr_eq_ok_iff hread] at h h'
  exact Except.ok.inj (h.symm.trans h')

theorem Gives.isRight {value : α} (h : Gives lookUp key default denotes value) :
    IsRight lookUp (key, fun raw => ∃ value, denotes raw value) := by
  intro raw hraw
  rcases h with ⟨hnone, -⟩ | ⟨raw', hraw', hdenotes⟩
  · cases hnone.symm.trans hraw
  · cases hraw'.symm.trans hraw
    exact ⟨value, hdenotes⟩

end

/-! ## Reading all of them -/

/-- Reading answers what the variables say, or reports the variable that is at fault. -/
theorem read_cases (lookUp : String → Option String) :
    (∃ config, read lookUp = .ok config ∧ Describes lookUp config ∧ AllRight lookUp) ∨
      ∃ key fault, read lookUp = .error (.misconfigured key fault) ∧ Faults lookUp key := by
  simp only [read]
  -- the variables in the order of reading: each is right so far, or the first that is wrong is
  -- reported
  rcases readOr_cases lookUp Variable.grace ({} : Config).grace readNumber_eq_ok_iff with
    ⟨grace, hgrace, hgives₁, hright₁⟩ | ⟨fault, hgrace, hwrong⟩
  case inr => exact .inr ⟨_, fault, by rw [hgrace]; rfl, .inl (.here hwrong)⟩
  rcases readOr_cases lookUp Variable.enabled ({} : Config).enabled readSwitch_eq_ok_iff with
    ⟨enabled, henabled, hgives₂, hright₂⟩ | ⟨fault, henabled, hwrong⟩
  case inr =>
    exact .inr ⟨_, fault, by rw [hgrace, henabled]; rfl, .inl (.later hright₁ (.here hwrong))⟩
  rcases readOr_cases lookUp Variable.runHint ({} : Config).runHint readNumber_eq_ok_iff with
    ⟨hint, hhint, hgives₃, hright₃⟩ | ⟨fault, hhint, hwrong⟩
  case inr =>
    exact .inr ⟨_, fault, by rw [hgrace, henabled, hhint]; rfl,
      .inl (.later hright₁ (.later hright₂ (.here hwrong)))⟩
  rcases readOr_cases lookUp Variable.verbose ({} : Config).verbose readSwitch_eq_ok_iff with
    ⟨log, hlog, hgives₄, hright₄⟩ | ⟨fault, hlog, hwrong⟩
  case inr =>
    exact .inr ⟨_, fault, by rw [hgrace, henabled, hhint, hlog]; rfl,
      .inl (.later hright₁ (.later hright₂ (.later hright₃ (.here hwrong))))⟩
  rcases readOr_cases lookUp Variable.poolSize ({} : Config).poolSize readNumber_eq_ok_iff with
    ⟨size, hsize, hgives₅, hright₅⟩ | ⟨fault, hsize, hwrong⟩
  case inr =>
    exact .inr ⟨_, fault, by rw [hgrace, henabled, hhint, hlog, hsize]; rfl,
      .inl (.later hright₁ (.later hright₂ (.later hright₃ (.later hright₄ (.here hwrong)))))⟩
  have hall : AllRight lookUp := allRight_iff.mpr ⟨hright₁, hright₂, hright₃, hright₄, hright₅⟩
  rw [hgrace, henabled, hhint, hlog, hsize]
  -- the size of the pool is looked at once more when every variable is right
  by_cases hzero : size = 0
  · subst hzero
    exact .inr ⟨_, .emptyPool, rfl, .inr ⟨hall, hgives₅, rfl⟩⟩
  · refine .inl ⟨⟨enabled, hint, log, size, grace⟩, ?_,
      ⟨hgives₁, hgives₂, hgives₃, hgives₄, hgives₅, by simp only; omega⟩, hall⟩
    simp only [bind, Except.bind, if_neg hzero]

/-! ## Writing a configuration down -/

/-- A text is a number as it is written in decimal, with any zeros and perhaps a plus sign before it,
and with blanks around it. -/
def RendersNumber (raw : String) (n : Nat) : Prop :=
  ∃ sign zeros, (sign = [] ∨ sign = ['+']) ∧
    Text.Framed raw (sign ++ (List.replicate zeros '0' ++ (toString n).toList))

/-- The variables hold a configuration, each value in some spelling. -/
structure Renders (lookUp : String → Option String) (config : Config) : Prop where
  grace : ∃ raw, lookUp Variable.grace = some raw ∧ RendersNumber raw config.grace
  enabled : ∃ raw, lookUp Variable.enabled = some raw ∧ DenotesSwitch raw config.enabled
  runHint : ∃ raw, lookUp Variable.runHint = some raw ∧ RendersNumber raw config.runHint
  verbose : ∃ raw, lookUp Variable.verbose = some raw ∧ DenotesSwitch raw config.verbose
  poolSize : ∃ raw, lookUp Variable.poolSize = some raw ∧ RendersNumber raw config.poolSize

/-- The numbers of a configuration have 64 bits. -/
structure Fits (config : Config) : Prop where
  grace : config.grace < UInt64.size
  runHint : config.runHint < UInt64.size
  poolSize : config.poolSize < UInt64.size

theorem RendersNumber.denotes {raw : String} {n : Nat} (h : RendersNumber raw n) (hn : n < UInt64.size) :
    DenotesNumber raw n := by
  obtain ⟨sign, zeros, hsign, hframed⟩ := h
  have hdigits : (toString n).toList = Nat.toDigits 10 n := Nat.toList_repr
  rw [hdigits] at hframed
  exact ⟨_, hframed, Text.Numeral.denotes_toDigits hsign n zeros, hn⟩

/-- What a configuration was written down as describes it. -/
theorem Renders.describes {lookUp : String → Option String} {config : Config}
    (h : Renders lookUp config) (hfits : config.Fits) (hpos : 0 < config.poolSize) :
    Describes lookUp config where
  grace := .inr (h.grace.imp fun _ => And.imp_right fun hraw => hraw.denotes hfits.grace)
  enabled := .inr h.enabled
  runHint := .inr (h.runHint.imp fun _ => And.imp_right fun hraw => hraw.denotes hfits.runHint)
  verbose := .inr h.verbose
  poolSize := .inr (h.poolSize.imp fun _ => And.imp_right fun hraw => hraw.denotes hfits.poolSize)
  poolSize_pos := hpos

theorem Describes.unique {lookUp : String → Option String} {config config' : Config}
    (h : Describes lookUp config) (h' : Describes lookUp config') : config = config' := by
  obtain ⟨enabled, hint, log, size, grace⟩ := config
  obtain ⟨enabled', hint', log', size', grace'⟩ := config'
  rw [Config.mk.injEq]
  exact ⟨h.enabled.unique readSwitch_eq_ok_iff h'.enabled, h.runHint.unique readNumber_eq_ok_iff h'.runHint,
    h.verbose.unique readSwitch_eq_ok_iff h'.verbose, h.poolSize.unique readNumber_eq_ok_iff h'.poolSize,
    h.grace.unique readNumber_eq_ok_iff h'.grace⟩

/-- A configuration that the variables describe leaves no variable at fault. -/
theorem Describes.not_faults {lookUp : String → Option String} {config : Config} {key : String}
    (h : Describes lookUp config) : ¬ Faults lookUp key := by
  rintro (hfirst | ⟨-, hempty, -⟩)
  · exact hfirst.not_allRight (allRight_iff.mpr ⟨h.grace.isRight, h.enabled.isRight,
      h.runHint.isRight, h.verbose.isRight, h.poolSize.isRight⟩)
  · have hzero := h.poolSize.unique readNumber_eq_ok_iff hempty
    have := h.poolSize_pos
    omega

/-- Reading the variables is exact. It succeeds if each of them is absent or well formed and they ask
for no empty pool, and then every setting is what its variable denotes, or the default. Otherwise it
reports the first variable that is wrong in the order of reading, that of an empty pool last. So what
was written down, in any spelling, is read back. -/
theorem read_exact (lookUp : String → Option String) :
    (∀ config, read lookUp = .ok config ↔ Describes lookUp config) ∧
      ((∃ config, read lookUp = .ok config) ↔ AllRight lookUp ∧ ¬ AsksForEmptyPool lookUp) ∧
      (∀ failure, read lookUp = .error failure → ∃ key fault, failure = .misconfigured key fault) ∧
      (∀ key, (∃ fault, read lookUp = .error (.misconfigured key fault)) ↔ Faults lookUp key) ∧
      ∀ config, config.Fits → 0 < config.poolSize → Renders lookUp config →
        read lookUp = .ok config := by
  have hok : ∀ config, read lookUp = .ok config ↔ Describes lookUp config := by
    intro config
    rcases read_cases lookUp with ⟨config', hread, hdescribes, -⟩ | ⟨key, fault, hread, hfaults⟩
    · rw [hread, Except.ok.injEq]
      exact ⟨fun heq => heq ▸ hdescribes, fun h => hdescribes.unique h⟩
    · rw [hread]
      exact iff_of_false (fun heq => by cases heq) fun h => h.not_faults hfaults
  -- the rest weighs what reading answered against what it can answer: each set of variables either
  -- describes one configuration or has one at fault, never both
  refine ⟨hok, ?_, ?_, ?_, fun config hfits hpos h => (hok config).mpr (h.describes hfits hpos)⟩
  · constructor
    · rintro ⟨config, hread⟩
      have hdescribes := (hok config).mp hread
      rcases read_cases lookUp with ⟨_, _, _, hall⟩ | ⟨key, _, _, hfaults⟩
      · exact ⟨hall, fun hempty => hdescribes.not_faults (.inr ⟨hall, hempty, rfl⟩)⟩
      · exact absurd hfaults hdescribes.not_faults
    · rintro ⟨hall, hpos⟩
      rcases read_cases lookUp with ⟨config, hread, -⟩ | ⟨key, _, _, hfirst | ⟨-, hempty, -⟩⟩
      · exact ⟨config, hread⟩
      · exact absurd hall hfirst.not_allRight
      · exact absurd hempty hpos
  · intro failure hread
    rcases read_cases lookUp with ⟨config, hread', -⟩ | ⟨key, fault, hread', -⟩
    · cases hread.symm.trans hread'
    · cases hread.symm.trans hread'
      exact ⟨key, fault, rfl⟩
  · intro key
    rcases read_cases lookUp with ⟨config, hread, hdescribes, -⟩ | ⟨key', fault, hread, hfaults⟩
    · refine iff_of_false ?_ hdescribes.not_faults
      rintro ⟨fault, hfault⟩
      cases hread.symm.trans hfault
    · constructor
      · rintro ⟨fault', hfault⟩
        cases hread.symm.trans hfault
        exact hfaults
      · intro h
        rw [hfaults.unique h] at hread
        exact ⟨fault, hread⟩

/-- Blanks of several kinds, a plus sign and zeros, and switches in any case. -/
theorem read_exact_padded :
    read (fun key => [("FLOW_SHUTDOWN_GRACE_MS", "\u3000+00250\t"), ("FLOW_ENABLED", " oFF "),
        ("FLOW_SCOPE_POOL_HINT", "18446744073709551615"), ("FLOW_PRINT_EXECUTION_LOG", "Yes"),
        ("FLOW_WORKER_POOL_SIZE", "\n8")].lookup key) =
      .ok ⟨false, 18446744073709551615, true, 8, 250⟩ := by
  have hblank : ∀ {cs : List Char}, cs.all Text.isBlank = true → ∀ c ∈ cs, Text.isBlank c = true :=
    List.all_eq_true.mp
  have hsmall : ∀ {cs : List Char}, (cs.all fun c => !c.isUpper) = true → ∀ c ∈ cs, c.isUpper = false :=
    fun h c hc => by simpa using List.all_eq_true.mp h c hc
  refine (read_exact _).2.2.2.2 _ ⟨by decide, by decide, by decide⟩ (by decide) ⟨?_, ?_, ?_, ?_, ?_⟩
  case refine_1 =>
    exact ⟨_, rfl, ['+'], 2, .inr rfl, ['\u3000'], ['\t'], by decide +kernel, hblank rfl, hblank rfl⟩
  case refine_2 =>
    exact ⟨_, rfl, ['o', 'F', 'F'], "off", ⟨[' '], [' '], by decide +kernel, hblank rfl, hblank rfl⟩,
      by decide, (Text.spelledAs_iff (hsmall rfl)).mpr (by decide +kernel)⟩
  case refine_3 =>
    exact ⟨_, rfl, [], 0, .inl rfl, [], [], by decide +kernel, hblank rfl, hblank rfl⟩
  case refine_4 =>
    exact ⟨_, rfl, ['Y', 'e', 's'], "yes", ⟨[], [], by decide +kernel, hblank rfl, hblank rfl⟩,
      by decide, (Text.spelledAs_iff (hsmall rfl)).mpr (by decide +kernel)⟩
  case refine_5 =>
    exact ⟨_, rfl, [], 0, .inl rfl, ['\n'], [], by decide +kernel, hblank rfl, hblank rfl⟩

end Workflow.Config
