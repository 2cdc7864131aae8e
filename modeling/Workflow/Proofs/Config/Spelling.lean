import Mathlib.Data.List.Forall2
import Workflow.Config

/-!
# How settings are spelled

What the text of a variable denotes, said without reading it:

* `Text.Framed`: a text is some characters with blanks around them;
* `Text.Numeral.Denotes`: characters are a decimal numeral of a number, perhaps with a plus sign and
  zeros before it;
* `Text.SpelledAs`: characters are a word, each letter in either case.

`Config.readNumber` and `Config.readSwitch` accept exactly what denotes something in this sense, and
answer what it denotes (`Config.readNumber_eq_ok_iff`, `Config.readSwitch_eq_ok_iff`).
-/

namespace Workflow

namespace Text

/-! ## Blanks around a text -/

/-- A text is made of these characters with nothing but blanks before and behind them. -/
def Framed (raw : String) (cs : List Char) : Prop :=
  ∃ before after, raw.toList = before ++ cs ++ after ∧ (∀ c ∈ before, isBlank c = true) ∧
    ∀ c ∈ after, isBlank c = true

theorem framed_trimmed (raw : String) : Framed raw (trimmed raw) := by
  let cs := raw.toList.dropWhile isBlank
  refine ⟨raw.toList.takeWhile isBlank, (cs.reverse.takeWhile isBlank).reverse, ?_, ?_, ?_⟩
  · have hcs : trimmed raw ++ (cs.reverse.takeWhile isBlank).reverse = cs := by
      rw [trimmed, ← List.reverse_append, List.takeWhile_append_dropWhile, List.reverse_reverse]
    rw [List.append_assoc, hcs, List.takeWhile_append_dropWhile]
  · exact fun c hc => List.all_eq_true.mp List.all_takeWhile c hc
  · exact fun c hc => List.all_eq_true.mp List.all_takeWhile c (List.mem_reverse.mp hc)

theorem dropWhile_isBlank_append {before cs : List Char} (hbefore : ∀ c ∈ before, isBlank c = true)
    (hcs : ∀ c ∈ cs, isBlank c = false) : (before ++ cs).dropWhile isBlank = cs := by
  rw [List.dropWhile_append_of_pos hbefore]
  cases cs with
  | nil => rfl
  | cons c rest => rw [List.dropWhile_cons_of_neg (by simp [hcs c])]

/-- Trimming finds the characters between the blanks, if none of them is blank itself. -/
theorem Framed.trimmed_eq {raw : String} {cs : List Char} (h : Framed raw cs)
    (hcs : ∀ c ∈ cs, isBlank c = false) : trimmed raw = cs := by
  obtain ⟨before, after, hraw, hbefore, hafter⟩ := h
  cases cs with
  | nil =>
    have hall : ∀ c ∈ before ++ after, isBlank c = true := by
      intro c hc
      exact (List.mem_append.mp hc).elim (hbefore c) (hafter c)
    rw [trimmed, hraw, List.append_nil, ← List.append_nil (before ++ after),
      dropWhile_isBlank_append hall (by simp)]
    rfl
  | cons first rest =>
    -- the blanks behind are dropped from the other end
    have hfirst : (before ++ (first :: rest) ++ after).dropWhile isBlank = first :: rest ++ after := by
      rw [List.append_assoc, List.dropWhile_append_of_pos hbefore, List.cons_append,
        List.dropWhile_cons_of_neg (by simp [hcs first])]
    rw [trimmed, hraw, hfirst, List.reverse_append,
      dropWhile_isBlank_append (fun c hc => hafter c (List.mem_reverse.mp hc))
        (fun c hc => hcs c (List.mem_reverse.mp hc)), List.reverse_reverse]

/-! ## Numerals -/

theorem isBlank_of_isDigit {c : Char} (h : c.isDigit = true) : isBlank c = false := by
  have hle : 48 ≤ c.toNat ∧ c.toNat ≤ 57 := by
    rw [Char.isDigit, Bool.and_eq_true, decide_eq_true_eq, decide_eq_true_eq] at h
    exact ⟨UInt32.le_iff_toNat_le.mp h.1, UInt32.le_iff_toNat_le.mp h.2⟩
  simp only [isBlank, Bool.or_eq_false_iff, Bool.and_eq_false_iff, decide_eq_false_iff_not,
    beq_eq_false_iff_ne]
  omega

namespace Numeral

/-- The characters are a decimal numeral of a number, perhaps with a plus sign before it. Zeros at
its beginning do not matter. -/
def Denotes (cs : List Char) (n : Nat) : Prop :=
  ∃ ds, (cs = ds ∨ cs = '+' :: ds) ∧ ds ≠ [] ∧ (∀ c ∈ ds, c.isDigit = true) ∧
    Nat.ofDigitChars 10 ds 0 = n

theorem Denotes.not_isBlank {cs : List Char} {n : Nat} (h : Denotes cs n) :
    ∀ c ∈ cs, isBlank c = false := by
  obtain ⟨ds, hcs, -, hdigits, -⟩ := h
  have hds : ∀ c ∈ ds, isBlank c = false := fun c hc => isBlank_of_isDigit (hdigits c hc)
  rcases hcs with rfl | rfl
  · exact hds
  · intro c hc
    rcases List.mem_cons.mp hc with rfl | hc
    · decide
    · exact hds c hc

/-- What a number is written with denotes it, with any zeros and perhaps a plus sign before it. -/
theorem denotes_toDigits {sign : List Char} (hsign : sign = [] ∨ sign = ['+']) (n zeros : Nat) :
    Denotes (sign ++ (List.replicate zeros '0' ++ Nat.toDigits 10 n)) n := by
  refine ⟨List.replicate zeros '0' ++ Nat.toDigits 10 n, ?_, by simp [Nat.toDigits_ne_nil], ?_, ?_⟩
  · exact hsign.imp (fun h => by rw [h, List.nil_append]) (fun h => by rw [h]; rfl)
  · intro c hc
    rcases List.mem_append.mp hc with hc | hc
    · rw [List.eq_of_mem_replicate hc]
      rfl
    · exact Nat.isDigit_of_mem_toDigits (by omega) (by omega) hc
  · rw [Nat.ofDigitChars_append, Nat.ofDigitChars_replicate_zero, Nat.mul_zero,
      Nat.ofDigitChars_toDigits (by omega) (by omega)]

/-- Digits are read to the end as long as the number fits, and what is read before only grows. -/
theorem digits_eq_ok_iff {cs : List Char} {value n : Nat} (hvalue : value < limit) :
    digits value cs = .ok n ↔
      (∀ c ∈ cs, c.isDigit = true) ∧ Nat.ofDigitChars 10 cs value = n ∧ n < limit := by
  induction cs generalizing value with
  | nil =>
    simp only [digits, Except.ok.injEq, Nat.ofDigitChars_nil]
    constructor
    · rintro rfl
      exact ⟨by simp, rfl, hvalue⟩
    · exact fun h => h.2.1
  | cons c rest ih =>
    rw [digits, Nat.ofDigitChars_cons]
    split
    · next hdigit =>
      simp only
      split
      · next hnext =>
        rw [ih hnext]
        simp only [List.forall_mem_cons, hdigit, true_and]
      · next hnext =>
        simp only [reduceCtorEq, false_iff, not_and]
        rintro - rfl hlt
        -- the digits that follow do not make the number smaller
        rw [Nat.ofDigitChars_eq_ofDigitChars_zero] at hlt
        have hpos : 0 < 10 ^ rest.length := Nat.pow_pos (by omega)
        have := Nat.le_mul_of_pos_left (10 * value + (c.toNat - '0'.toNat)) hpos
        omega
    · next hdigit => simp [hdigit]

/-- A numeral is read exactly if it denotes a number that fits. -/
theorem read_eq_ok_iff {cs : List Char} {n : Nat} :
    read cs = .ok n ↔ Denotes cs n ∧ n < UInt64.size := by
  have hlimit : 0 < limit := by decide
  have hplus : '+'.isDigit = false := by decide
  unfold read
  split
  · simp [Denotes]
  · simp [Denotes, hplus]
  · next rest hrest =>
    rw [digits_eq_ok_iff hlimit]
    constructor
    · rintro ⟨hdigits, hvalue, hlt⟩
      exact ⟨⟨rest, .inr rfl, fun hnil => hrest hnil, hdigits, hvalue⟩, hlt⟩
    · rintro ⟨⟨ds, hds | hds, -, hdigits, hvalue⟩, hlt⟩
      · -- a sign is no digit
        rw [← hds] at hdigits
        exact absurd (hdigits '+' (by simp)) (by simp [hplus])
      · cases hds
        exact ⟨hdigits, hvalue, hlt⟩
  · next hnil _ hplus' =>
    rw [digits_eq_ok_iff hlimit]
    constructor
    · rintro ⟨hdigits, hvalue, hlt⟩
      exact ⟨⟨cs, .inl rfl, fun heq => hnil heq, hdigits, hvalue⟩, hlt⟩
    · rintro ⟨⟨ds, rfl | rfl, -, hdigits, hvalue⟩, hlt⟩
      · exact ⟨hdigits, hvalue, hlt⟩
      · exact absurd rfl (hplus' ds)

end Numeral

/-! ## Words -/

/-- The characters are those of a word, each letter in either case. -/
def SpelledAs (cs : List Char) (word : String) : Prop :=
  List.Forall₂ (fun c w => c = w ∨ c = w.toUpper) cs word.toList

theorem toNat_toLower (c : Char) :
    c.toLower.toNat = if 65 ≤ c.toNat ∧ c.toNat ≤ 90 then c.toNat + 32 else c.toNat := by
  unfold Char.toLower
  simp only [ge_iff_le, UInt32.le_iff_toNat_le]
  change Char.toNat (if h : 65 ≤ c.toNat ∧ c.toNat ≤ 90 then _ else _) = _
  split
  · show (c.val + _).toNat = c.toNat + 32
    rw [UInt32.toNat_add]
    show (c.toNat + 32) % 2 ^ 32 = _
    omega
  · rfl

theorem toNat_toUpper (c : Char) :
    c.toUpper.toNat = if 97 ≤ c.toNat ∧ c.toNat ≤ 122 then c.toNat - 32 else c.toNat := by
  unfold Char.toUpper
  simp only [UInt32.le_iff_toNat_le]
  change Char.toNat (if h : 97 ≤ c.toNat ∧ c.toNat ≤ 122 then _ else _) = _
  split
  · show (c.val + _).toNat = c.toNat - 32
    rw [UInt32.toNat_add]
    -- adding this number to a word of 32 bits takes 32 off it
    show (c.toNat + 4294967264) % 2 ^ 32 = _
    omega
  · rfl

/-- A character is in lower case that of a word, if it is that one in either case. -/
theorem toLower_eq_iff {c w : Char} (hw : w.isUpper = false) :
    c.toLower = w ↔ c = w ∨ c = w.toUpper := by
  have hlow : ¬ (65 ≤ w.toNat ∧ w.toNat ≤ 90) := by
    have hval : ¬ (65 ≤ w.val ∧ w.val ≤ 90) := of_decide_eq_false hw
    simp only [UInt32.le_iff_toNat_le] at hval
    exact hval
  rw [← Char.toNat_inj, ← Char.toNat_inj, ← Char.toNat_inj, toNat_toLower, toNat_toUpper]
  split <;> split <;> omega

/-- Spelling a word does not depend on the case of letters, so it can be checked in lower case. -/
theorem spelledAs_iff {cs : List Char} {word : String}
    (hword : ∀ w ∈ word.toList, w.isUpper = false) :
    SpelledAs cs word ↔ cs.map Char.toLower = word.toList := by
  unfold SpelledAs
  generalize word.toList = ws at hword
  induction cs generalizing ws with
  | nil => cases ws <;> simp
  | cons c rest ih =>
    cases ws with
    | nil => simp
    | cons w ws =>
      rw [List.forall₂_cons, List.map_cons, List.cons.injEq, toLower_eq_iff (hword w (by simp)),
        ih ws fun v hv => hword v (by simp [hv])]

theorem SpelledAs.not_isBlank {cs : List Char} {word : String} (h : SpelledAs cs word)
    (hword : ∀ w ∈ word.toList, isBlank w = false ∧ isBlank w.toUpper = false) :
    ∀ c ∈ cs, isBlank c = false := by
  unfold SpelledAs at h
  generalize word.toList = ws at h hword
  induction h with
  | nil => simp
  | @cons c w _ _ hc _ ih =>
    obtain ⟨hlower, hupper⟩ := hword w (by simp)
    refine List.forall_mem_cons.mpr ⟨?_, ih fun v hv => hword v (by simp [hv])⟩
    rcases hc with rfl | rfl
    · exact hlower
    · exact hupper

end Text

namespace Config

/-! ## Texts of settings -/

/-- A text denotes a number of 64 bits, with blanks around it allowed. -/
def DenotesNumber (raw : String) (n : Nat) : Prop :=
  ∃ cs, Text.Framed raw cs ∧ Text.Numeral.Denotes cs n ∧ n < UInt64.size

/-- The words for on and for off. -/
def words : Bool → List String
  | true => ["1", "true", "yes", "on"]
  | false => ["0", "false", "no", "off"]

/-- A text denotes that something is on or off, with blanks around it allowed. -/
def DenotesSwitch (raw : String) (value : Bool) : Prop :=
  ∃ cs word, Text.Framed raw cs ∧ word ∈ words value ∧ Text.SpelledAs cs word

theorem readNumber_eq_ok_iff (raw : String) (n : Nat) :
    readNumber raw = .ok n ↔ DenotesNumber raw n := by
  have hread : readNumber raw = .ok n ↔ Text.Numeral.read (Text.trimmed raw) = .ok n := by
    unfold readNumber
    split
    · next heq => rw [heq, Except.ok.injEq, Except.ok.injEq]
    · next heq => simp [heq]
  rw [hread, Text.Numeral.read_eq_ok_iff]
  constructor
  · rintro ⟨hdenotes, hlt⟩
    exact ⟨_, Text.framed_trimmed raw, hdenotes, hlt⟩
  · rintro ⟨cs, hframed, hdenotes, hlt⟩
    rw [hframed.trimmed_eq hdenotes.not_isBlank]
    exact ⟨hdenotes, hlt⟩

/-- The words of switches are in lower case, and no letter of them is blank in either case. -/
theorem plain_of_mem_words {word : String} {value : Bool} (h : word ∈ words value) :
    ∀ w ∈ word.toList, w.isUpper = false ∧ Text.isBlank w = false ∧
      Text.isBlank w.toUpper = false := by
  have hall : ∀ value, ∀ word ∈ words value, (word.toList.all fun w =>
      !w.isUpper && !Text.isBlank w && !Text.isBlank w.toUpper) = true := by decide +kernel
  intro w hw
  simpa [and_assoc] using List.all_eq_true.mp (hall value word h) w hw

theorem readSwitch_eq {raw : String} {value : Bool} {word : String}
    (hraw : (Text.trimmed raw).map Char.toLower = word.toList)
    (hword : word ∈ words value) : readSwitch raw = .ok value := by
  have hdisjoint : ∀ word ∈ words false, onWords.contains word = false := by decide
  unfold readSwitch
  rw [hraw, String.ofList_toList]
  cases value with
  | true =>
    have hon : onWords.contains word = true := List.contains_iff_mem.mpr hword
    simp only [hon, if_true]
  | false =>
    have hoff : offWords.contains word = true := List.contains_iff_mem.mpr hword
    simp only [hdisjoint word hword, hoff, Bool.false_eq_true, if_false, if_true]

theorem readSwitch_eq_ok_iff (raw : String) (value : Bool) :
    readSwitch raw = .ok value ↔ DenotesSwitch raw value := by
  constructor
  · intro h
    let word := String.ofList ((Text.trimmed raw).map Char.toLower)
    have hword : word ∈ words value := by
      unfold readSwitch at h
      simp only at h
      split at h
      · next hon =>
        cases h
        exact List.contains_iff_mem.mp hon
      · split at h
        · next hoff =>
          cases h
          exact List.contains_iff_mem.mp hoff
        · cases h
    have hlower := fun w hw => (plain_of_mem_words hword w hw).1
    exact ⟨_, word, Text.framed_trimmed raw, hword,
      (Text.spelledAs_iff hlower).mpr (String.toList_ofList).symm⟩
  · rintro ⟨cs, word, hframed, hword, hspelled⟩
    have hplain := plain_of_mem_words hword
    refine readSwitch_eq ?_ hword
    rw [hframed.trimmed_eq (hspelled.not_isBlank fun w hw => (hplain w hw).2)]
    exact (Text.spelledAs_iff fun w hw => (hplain w hw).1).mp hspelled

end Config

end Workflow
