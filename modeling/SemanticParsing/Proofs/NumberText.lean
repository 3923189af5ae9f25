import Mathlib.Data.List.TakeWhile
import SemanticParsing.Proofs.MeaningEquality
import SemanticParsing.Proofs.ShortestDecimal
/-! What is written for a number is read as that number. -/
namespace SemanticParsing.Decimal

def Digits (digits : List Char) : Prop :=
  ∀ c ∈ digits, c.isDigit

variable {digits whole fraction : List Char} {negative : Bool}

theorem digits_toDigits (n : Nat) : Digits (Nat.toDigits 10 n) :=
  fun _ => Nat.isDigit_of_mem_toDigits (by decide) (by decide)

theorem digits_zeros (n : Nat) : Digits (List.replicate n '0') := by
  intro c member
  rw [List.eq_of_mem_replicate member]
  decide

theorem Digits.append {more : List Char} (h : Digits digits) (h' : Digits more) :
    Digits (digits ++ more) :=
  fun c member => (List.mem_append.mp member).elim (h c) (h' c)

theorem digitsValue_eq (digits : List Char) :
    digitsValue digits = Nat.ofDigitChars 10 digits 0 := by
  rw [digitsValue, Nat.ofDigitChars_eq_foldl]

theorem digitsValue_toDigits (n : Nat) : digitsValue (Nat.toDigits 10 n) = n := by
  rw [digitsValue_eq, Nat.ofDigitChars_toDigits (by decide) (by decide)]

theorem digitsValue_append_zeros (digits : List Char) (n : Nat) :
    digitsValue (digits ++ List.replicate n '0') = digitsValue digits * 10 ^ n := by
  rw [digitsValue_eq, digitsValue_eq, Nat.ofDigitChars_append, Nat.ofDigitChars_replicate_zero,
    Nat.mul_comm]

theorem digitsValue_zeros_append (n : Nat) (digits : List Char) :
    digitsValue (List.replicate n '0' ++ digits) = digitsValue digits := by
  rw [digitsValue_eq, digitsValue_eq, Nat.ofDigitChars_append, Nat.ofDigitChars_replicate_zero,
    Nat.mul_zero]

def signed (negative : Bool) (text : List Char) : List Char :=
  if negative then '-' :: text else text

theorem takeSign_signed {c : Char} (text : List Char) (h : c.isDigit) (negative : Bool) :
    takeSign (signed negative (c :: text)) = (negative, c :: text) := by
  cases negative with
  | true => rfl
  | false =>
    have minus : c ≠ '-' := by rintro rfl; cases h
    have plus : c ≠ '+' := by rintro rfl; cases h
    simp [signed, takeSign, minus, plus]

theorem Digits.takeSign (h : Digits digits) (nonempty : digits ≠ []) (text : List Char)
    (negative : Bool) :
    takeSign (signed negative (digits ++ text)) = (negative, digits ++ text) := by
  cases digits with
  | nil => contradiction
  | cons c digits => exact takeSign_signed _ (h c List.mem_cons_self) negative

theorem Digits.all (h : Digits digits) : digits.all Char.isDigit :=
  List.all_eq_true.mpr h

def withSign (negative : Bool) (n : Nat) : Int :=
  if negative then -(n : Int) else n

theorem readInteger?_digits (h : Digits digits) (nonempty : digits ≠ []) (negative : Bool) :
    readInteger? (signed negative digits) = some (withSign negative (digitsValue digits)) := by
  have taken := h.takeSign nonempty [] negative
  rw [List.append_nil] at taken
  have first : digits.isEmpty = false := by simpa using nonempty
  simp [readInteger?, taken, first, h.all, withSign]

theorem readInteger?_point (h : Digits whole) (nonempty : whole ≠ []) (negative : Bool) :
    readInteger? (signed negative (whole ++ '.' :: fraction)) = none := by
  have taken := h.takeSign nonempty ('.' :: fraction) negative
  simp [readInteger?, taken]

theorem readScientific?_digits (h : Digits digits) (nonempty : digits ≠ []) :
    readScientific? digits = some ⟨digitsValue digits, 0⟩ := by
  have taken : digits.takeWhile Char.isDigit = digits := List.takeWhile_eq_self_iff.mpr h
  have dropped : digits.dropWhile Char.isDigit = [] := List.dropWhile_eq_nil_iff.mpr h
  have first : digits.isEmpty = false := by simpa using nonempty
  simp [readScientific?, taken, dropped, first, readExponent?]

theorem readScientific?_point (h : Digits whole) (nonempty : whole ≠ [])
    (h' : Digits fraction) :
    readScientific? (whole ++ '.' :: fraction) =
      some ⟨digitsValue (whole ++ fraction), -fraction.length⟩ := by
  have taken : (whole ++ '.' :: fraction).takeWhile Char.isDigit = whole := by
    rw [List.takeWhile_append_of_pos h]
    simp
  have dropped : (whole ++ '.' :: fraction).dropWhile Char.isDigit = '.' :: fraction := by
    rw [List.dropWhile_append_of_pos h]
    rfl
  have taken' : fraction.takeWhile Char.isDigit = fraction := List.takeWhile_eq_self_iff.mpr h'
  have dropped' : fraction.dropWhile Char.isDigit = [] := List.dropWhile_eq_nil_iff.mpr h'
  have first : whole.isEmpty = false := by simpa using nonempty
  simp [readScientific?, taken, dropped, taken', dropped', first, readExponent?]

theorem toList_integerText (n : Int) :
    (integerText n).toList = signed (n < 0) (Nat.toDigits 10 n.natAbs) := by
  rw [integerText]
  by_cases negative : n < 0 <;> simp [negative, signed, digitText]

theorem readInteger?_integerText (n : Int) : readInteger? (integerText n).toList = some n := by
  rw [toList_integerText, readInteger?_digits (digits_toDigits _) Nat.toDigits_ne_nil,
    digitsValue_toDigits, withSign, Option.some.injEq]
  by_cases negative : n < 0
  · rw [if_pos (decide_eq_true negative)]
    omega
  · rw [if_neg (by simpa using negative)]
    omega

/-- A spelling, without a sign, of the double of the given pattern. -/
inductive Spells (pattern : Nat) : List Char → Prop
  | whole {digits : List Char} (isDigits : Digits digits) (nonempty : digits ≠ [])
      (nearest : nearestPattern (digitsValue digits) 1 = pattern) : Spells pattern digits
  | point {whole fraction : List Char} (isDigits : Digits whole) (nonempty : whole ≠ [])
      (isDigits' : Digits fraction) (nonempty' : fraction ≠ [])
      (nearest :
        nearestPattern (digitsValue (whole ++ fraction)) (10 ^ fraction.length) = pattern) :
      Spells pattern (whole ++ '.' :: fraction)

variable {pattern : Nat} {text : List Char}

theorem readFloat?_signed (h : Spells pattern text) (negative : Bool) :
    readFloat? (signed negative text) = some (ofSignAndPattern negative pattern) := by
  cases h with
  | whole isDigits nonempty nearest =>
    have taken := isDigits.takeSign nonempty [] negative
    rw [List.append_nil] at taken
    simp [readFloat?, taken, readScientific?_digits isDigits nonempty, pattern_of_whole, nearest]
  | @point whole fraction isDigits nonempty isDigits' nonempty' nearest =>
    have taken := isDigits.takeSign nonempty ('.' :: fraction) negative
    obtain ⟨places, length⟩ := Nat.exists_eq_succ_of_ne_zero (List.length_pos_iff.mpr nonempty').ne'
    have exponent : -(fraction.length : Int) = .negSucc places := by rw [length]; rfl
    rw [length] at nearest
    simp [readFloat?, taken, readScientific?_point isDigits nonempty isDigits', exponent,
      pattern_of_places, nearest]

theorem positionalText_whole {s : Scientific} {zeros : Nat} (h : s.exponent = zeros) :
    (Layout.plain.positionalText s).toList =
      Nat.toDigits 10 s.digits ++ List.replicate zeros '0' := by
  obtain ⟨digits, exponent⟩ := s
  cases h
  simp [Layout.positionalText, Layout.plain, digitText]

theorem positionalText_point {s : Scientific} {places : Nat} (h : s.exponent = .negSucc places) :
    ∃ whole fraction, (Layout.plain.positionalText s).toList = whole ++ '.' :: fraction ∧
      whole ≠ [] ∧ fraction.length = places + 1 ∧ Digits whole ∧ Digits fraction ∧
      digitsValue (whole ++ fraction) = s.digits := by
  obtain ⟨n, exponent⟩ := s
  cases h
  have isDigits := digits_toDigits n
  have value := digitsValue_toDigits n
  have written : digitText n = String.ofList (Nat.toDigits 10 n) := rfl
  generalize Nat.toDigits 10 n = digits at isDigits value written
  by_cases inside : places + 1 < digits.length
  · refine ⟨digits.take (digits.length - (places + 1)), digits.drop (digits.length - (places + 1)),
      ?_, ?_, ?_, fun c member => isDigits c (List.mem_of_mem_take member),
      fun c member => isDigits c (List.mem_of_mem_drop member), ?_⟩
    · simp [Layout.positionalText, inside, written]
    · rw [← List.length_pos_iff, List.length_take]
      omega
    · rw [List.length_drop]
      omega
    · rw [List.take_append_drop, value]
  · refine ⟨['0'], List.replicate (places + 1 - digits.length) '0' ++ digits, ?_, by simp, ?_,
      digits_zeros 1, (digits_zeros _).append isDigits, ?_⟩
    · simp [Layout.positionalText, inside, written]
    · rw [List.length_append, List.length_replicate]
      omega
    · change digitsValue (List.replicate 1 '0' ++ _) = n
      rw [digitsValue_zeros_append, digitsValue_zeros_append, value]

theorem Magnitude.Canonical.pattern_eq_zero {m : Magnitude} (h : m.Canonical)
    (zero : m.significand = 0) : m.pattern = 0 := by
  have scale : m.scale = 0 := by
    by_contra positive
    have full := h.full (Nat.pos_of_ne_zero positive)
    rw [zero] at full
    exact absurd full (by decide)
  rw [Magnitude.pattern, zero, scale, Nat.zero_mul]

theorem nearestPattern_zero : nearestPattern 0 1 = 0 := by
  rw [← pattern_of_whole]
  rfl

theorem spells_magnitudeText {m : Magnitude} (canonical : m.Canonical)
    (finite : m.pattern < infinityPattern) :
    Spells m.pattern (Layout.plain.magnitudeText m).toList := by
  rw [Layout.magnitudeText]
  split_ifs with zero
  case pos =>
    rw [positionalText_whole (s := ⟨0, 0⟩) Int.ofNat_zero, canonical.pattern_eq_zero zero]
    refine .whole ((digits_toDigits _).append (digits_zeros _)) (by simp) ?_
    rw [digitsValue_append_zeros, digitsValue_toDigits]
    exact nearestPattern_zero
  case neg =>
    have nonzero := Nat.pos_of_ne_zero zero
    change Spells _ (Layout.plain.positionalText (shortest m)).toList
    cases exponent : (shortest m).exponent with
    | ofNat zeros =>
      rw [positionalText_whole exponent]
      refine .whole ((digits_toDigits _).append (digits_zeros _)) (by simp) ?_
      rw [digitsValue_append_zeros, digitsValue_toDigits,
        nearestPattern_of_whole canonical finite nonzero exponent]
    | negSucc places =>
      obtain ⟨whole, fraction, written, nonempty, length, isDigits, isDigits', value⟩ :=
        positionalText_point exponent
      rw [written]
      refine .point isDigits nonempty isDigits' (List.ne_nil_of_length_eq_add_one length) ?_
      rw [value, length]
      exact nearestPattern_of_places canonical finite nonzero exponent

theorem text_of_isFinite {x : Float} (h : x.isFinite) :
    ∃ spelling, Spells (magnitudePattern x) spelling ∧
      (Layout.plain.text x).toList = signed (isNegative x) spelling := by
  have finite := magnitudePattern_lt h
  have pattern := Magnitude.pattern_ofPattern (magnitudePattern x)
  refine ⟨(Layout.plain.magnitudeText (magnitude x)).toList, ?_, ?_⟩
  · have spells := spells_magnitudeText (Magnitude.ofPattern_canonical (magnitudePattern x))
      (by rw [pattern]; exact finite)
    rwa [pattern] at spells
  · simp only [Layout.text, Float.isNaN_eq_decide_eq_nan, ne_nan_of_isFinite h, finite.ne, if_false]
    cases isNegative x <;> simp [signed]

theorem beq_ofInteger {x : Float} (h : x.isFinite) {n : Nat}
    (nearest : nearestPattern n 1 = magnitudePattern x) :
    (x == ofInteger (withSign (isNegative x) n)) = true := by
  by_cases zero : n = 0
  case pos =>
    -- the text of minus zero is that of an integer that has no sign
    subst zero
    have integer : withSign (isNegative x) 0 = 0 := by cases isNegative x <;> rfl
    rw [integer]
    exact beq_ofInteger_zero (nearest.symm.trans nearestPattern_zero)
  case neg =>
    have positive : 0 < n := Nat.pos_of_ne_zero zero
    have sign : decide (withSign (isNegative x) n < 0) = isNegative x := by
      cases isNegative x <;> simp [withSign, positive]
    have absolute : (withSign (isNegative x) n).natAbs = n := by
      cases isNegative x <;> simp [withSign]
    rw [ofInteger, sign, absolute, nearest, ofSignAndPattern_self, beq_self_of_isFinite h]

theorem readFloat?_text {x : Float} (h : x.isFinite) :
    readFloat? (Layout.plain.text x).toList = some x := by
  obtain ⟨spelling, spells, written⟩ := text_of_isFinite h
  rw [written, readFloat?_signed spells, ofSignAndPattern_self]

theorem beq_of_readInteger?_text {x : Float} (h : x.isFinite) {n : Int}
    (read : readInteger? (Layout.plain.text x).toList = some n) : (x == ofInteger n) = true := by
  obtain ⟨spelling, spells, written⟩ := text_of_isFinite h
  rw [written] at read
  cases spells with
  | whole isDigits nonempty nearest =>
    rw [readInteger?_digits isDigits nonempty] at read
    cases read
    exact beq_ofInteger h nearest
  | point isDigits nonempty =>
    rw [readInteger?_point isDigits nonempty] at read
    cases read

def IsNumeral (c : Char) : Prop :=
  c.isDigit ∨ c = '.' ∨ c = '-'

theorem numeral_signed (h : ∀ c ∈ text, IsNumeral c) (negative : Bool) :
    ∀ c ∈ signed negative text, IsNumeral c := by
  cases negative with
  | false => exact h
  | true => exact List.forall_mem_cons.mpr ⟨.inr (.inr rfl), h⟩

theorem Digits.numeral (h : Digits digits) : ∀ c ∈ digits, IsNumeral c :=
  fun c member => .inl (h c member)

theorem Spells.numeral (h : Spells pattern text) : ∀ c ∈ text, IsNumeral c := by
  cases h with
  | whole isDigits => exact isDigits.numeral
  | point isDigits _ isDigits' =>
    rw [List.forall_mem_append, List.forall_mem_cons]
    exact ⟨isDigits.numeral, .inr (.inl rfl), isDigits'.numeral⟩

theorem Digits.exists_digit (h : Digits digits) (nonempty : digits ≠ []) :
    ∃ c ∈ digits, c.isDigit := by
  obtain ⟨c, member⟩ := List.exists_mem_of_ne_nil digits nonempty
  exact ⟨c, member, h c member⟩

theorem Spells.exists_digit (h : Spells pattern text) : ∃ c ∈ text, c.isDigit := by
  cases h with
  | whole isDigits nonempty => exact isDigits.exists_digit nonempty
  | point isDigits nonempty =>
    obtain ⟨c, member, isDigit⟩ := isDigits.exists_digit nonempty
    exact ⟨c, List.mem_append_left _ member, isDigit⟩

theorem mem_signed {c : Char} (h : c ∈ text) (negative : Bool) : c ∈ signed negative text := by
  cases negative with
  | false => exact h
  | true => exact List.mem_cons_of_mem _ h

theorem numeral_integerText (n : Int) : ∀ c ∈ (integerText n).toList, IsNumeral c := by
  rw [toList_integerText]
  exact numeral_signed (digits_toDigits _).numeral _

theorem numeral_text {x : Float} (h : x.isFinite) :
    ∀ c ∈ (Layout.plain.text x).toList, IsNumeral c := by
  obtain ⟨spelling, spells, written⟩ := text_of_isFinite h
  rw [written]
  exact numeral_signed spells.numeral _

theorem exists_digit_integerText (n : Int) : ∃ c ∈ (integerText n).toList, c.isDigit := by
  rw [toList_integerText]
  obtain ⟨c, member, isDigit⟩ := (digits_toDigits n.natAbs).exists_digit Nat.toDigits_ne_nil
  exact ⟨c, mem_signed member _, isDigit⟩

theorem exists_digit_text {x : Float} (h : x.isFinite) :
    ∃ c ∈ (Layout.plain.text x).toList, c.isDigit := by
  obtain ⟨spelling, spells, written⟩ := text_of_isFinite h
  obtain ⟨c, member, isDigit⟩ := spells.exists_digit
  rw [written]
  exact ⟨c, mem_signed member _, isDigit⟩

end SemanticParsing.Decimal
