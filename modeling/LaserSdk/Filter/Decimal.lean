import Mathlib.Data.List.TakeWhile
import LaserSdk.Filter.Coerce
import LaserSdk.Lib.Decimal
/-!
# Exact decimals are the numbers they write

A decimal text denotes a rational number. `ExactDecimal` keeps its digits
without the zeros that do not count, and its comparison of lengths and digits
is the comparison of those numbers.
-/

namespace LaserSdk.Filter

open LaserSdk.Lib

/-! ## What a text denotes -/

def AsciiDigits (bytes : List UInt8) : Prop := ∀ byte ∈ bytes, isAsciiDigit byte

inductive SignText : List UInt8 → Bool → Prop
  | none : SignText [] false
  | plus : SignText [43] false
  | minus : SignText [45] true

/-- `[+-]digits[.digits]` with its sign and the digits before and behind the point. -/
inductive DecimalText : List UInt8 → Bool → List UInt8 → List UInt8 → Prop
  | whole {sign negative integer} : SignText sign negative → AsciiDigits integer → integer ≠ [] →
      DecimalText (sign ++ integer) negative integer []
  | point {sign negative integer fraction} : SignText sign negative → AsciiDigits integer →
      AsciiDigits fraction → fraction ≠ [] →
      DecimalText (sign ++ (integer ++ 46 :: fraction)) negative integer fraction

def magnitude (integer fraction : List UInt8) : ℚ :=
  digitsValue integer + digitsValue fraction / 10 ^ fraction.length

def decimalNumber (negative : Bool) (integer fraction : List UInt8) : ℚ :=
  if negative then -magnitude integer fraction else magnitude integer fraction

/-- The number a text is a decimal of. -/
def Denotes (text : String) (number : ℚ) : Prop :=
  ∃ negative integer fraction, DecimalText (utf8Bytes text) negative integer fraction ∧
    number = decimalNumber negative integer fraction

/-! ## Digits as bytes -/

def byteDigit (byte : UInt8) : Nat := byte.toNat - 48

theorem isAsciiDigit_iff {byte : UInt8} : isAsciiDigit byte ↔ 48 ≤ byte.toNat ∧ byte.toNat ≤ 57 := by
  simp [isAsciiDigit, UInt8.le_iff_toNat_le]

theorem digitsValue_eq (bytes : List UInt8) : digitsValue bytes = decimalValue (bytes.map byteDigit) := by
  simp [digitsValue, decimalValue, List.foldl_map, byteDigit]

theorem AsciiDigits.digits {bytes : List UInt8} (h : AsciiDigits bytes) : Digits (bytes.map byteDigit) := by
  intro digit hmem
  obtain ⟨byte, hbyte, rfl⟩ := List.mem_map.1 hmem
  have := isAsciiDigit_iff.1 (h byte hbyte)
  unfold byteDigit
  omega

theorem AsciiDigits.tail {byte : UInt8} {bytes : List UInt8} (h : AsciiDigits (byte :: bytes)) :
    AsciiDigits bytes := fun b hb => h b (by simp [hb])

theorem compare_byteDigit {b c : UInt8} (hb : isAsciiDigit b) (hc : isAsciiDigit c) :
    compare b c = compare (byteDigit b) (byteDigit c) := by
  have hb := isAsciiDigit_iff.1 hb
  have hc := isAsciiDigit_iff.1 hc
  have hbc : compare b c = compare b.toNat c.toNat := by
    simp [compare, compareOfLessAndEq, UInt8.lt_iff_toNat_lt, ← UInt8.toNat_inj]
  rw [hbc]
  unfold byteDigit
  rcases lt_trichotomy b.toNat c.toNat with h | h | h
  · rw [Nat.compare_eq_lt.2 h, Nat.compare_eq_lt.2 (by omega)]
  · rw [Nat.compare_eq_eq.2 h, Nat.compare_eq_eq.2 (by omega)]
  · rw [Nat.compare_eq_gt.2 h, Nat.compare_eq_gt.2 (by omega)]

theorem compare_map_byteDigit {bytes bytes' : List UInt8} (h : AsciiDigits bytes) (h' : AsciiDigits bytes') :
    compare bytes bytes' = compare (bytes.map byteDigit) (bytes'.map byteDigit) := by
  induction bytes generalizing bytes' with
  | nil => cases bytes' <;> rfl
  | cons b bs ih =>
    cases bytes' with
    | nil => rfl
    | cons c cs =>
      rw [List.compare_cons_cons, compare_byteDigit (h b (by simp)) (h' c (by simp)), ih h.tail h'.tail,
        List.map_cons, List.map_cons, List.compare_cons_cons]

theorem magnitude_eq (integer fraction : List UInt8) :
    magnitude integer fraction =
      decimalValue (integer.map byteDigit) + decimalFraction (fraction.map byteDigit) := by
  simp [magnitude, decimalFraction, digitsValue_eq]

/-! ## What the parser keeps -/

namespace ExactDecimal

def number (decimal : ExactDecimal) : ℚ := decimalNumber decimal.negative decimal.integer decimal.fraction

/-- No zero that does not count, and no negative zero. -/
structure Normal (decimal : ExactDecimal) : Prop where
  integer : AsciiDigits decimal.integer
  fraction : AsciiDigits decimal.fraction
  leading : decimal.integer.head? ≠ some 48
  trailing : decimal.fraction.getLast? ≠ some 48
  zero : decimal.negative → 0 < magnitude decimal.integer decimal.fraction

end ExactDecimal

theorem AsciiDigits.subset {bytes kept : List UInt8} (h : AsciiDigits bytes) (hsub : ∀ byte ∈ kept, byte ∈ bytes) :
    AsciiDigits kept := fun byte hbyte => h byte (hsub byte hbyte)

theorem head?_dropWhile_zeros (bytes : List UInt8) : (bytes.dropWhile (· == 48)).head? ≠ some 48 := by
  induction bytes with
  | nil => simp
  | cons byte bytes ih =>
    by_cases hzero : byte = 48
    · simpa [hzero] using ih
    · simp [hzero]

theorem digitsValue_dropWhile_zeros (bytes : List UInt8) :
    digitsValue (bytes.dropWhile (· == 48)) = digitsValue bytes := by
  induction bytes with
  | nil => rfl
  | cons byte bytes ih =>
    by_cases hzero : byte = 48
    · rw [List.dropWhile_cons_of_pos (by simp [hzero]), ih, digitsValue_eq, digitsValue_eq, List.map_cons,
        decimalValue_cons, hzero]
      simp [byteDigit]
    · rw [List.dropWhile_cons_of_neg (by simp [hzero])]

theorem trimmed_append_zeros (bytes : List UInt8) :
    ∃ k, bytes = (bytes.reverse.dropWhile (· == 48)).reverse ++ List.replicate k 48 := by
  refine ⟨(bytes.reverse.takeWhile (· == 48)).length, ?_⟩
  have hzeros : (bytes.reverse.takeWhile (· == 48)).reverse =
      List.replicate (bytes.reverse.takeWhile (· == 48)).length 48 := by
    rw [List.eq_replicate_iff]
    refine ⟨by simp, ?_⟩
    intro byte hbyte
    simpa using List.mem_takeWhile_imp (List.mem_reverse.1 hbyte)
  rw [← hzeros, ← List.reverse_append, List.takeWhile_append_dropWhile, List.reverse_reverse]

/-- Zeros behind the last digit that counts do not change a fraction. -/
theorem magnitude_normalized (integer fraction : List UInt8) :
    magnitude (integer.dropWhile (· == 48)) (fraction.reverse.dropWhile (· == 48)).reverse =
      magnitude integer fraction := by
  obtain ⟨k, hfraction⟩ := trimmed_append_zeros fraction
  have hsame : decimalFraction (fraction.map byteDigit) =
      decimalFraction ((fraction.reverse.dropWhile (· == 48)).reverse.map byteDigit) := by
    conv_lhs => rw [hfraction]
    rw [List.map_append, List.map_replicate]
    exact decimalFraction_append_zeros _ k
  rw [magnitude_eq, magnitude_eq, ← digitsValue_eq, digitsValue_dropWhile_zeros, digitsValue_eq, hsame]

theorem magnitude_nonneg (integer fraction : List UInt8) : 0 ≤ magnitude integer fraction := by
  unfold magnitude
  positivity

theorem byteDigit_eq_zero {byte : UInt8} (h : isAsciiDigit byte) (hzero : byteDigit byte = 0) : byte = 48 := by
  have := isAsciiDigit_iff.1 h
  unfold byteDigit at hzero
  apply UInt8.toNat_inj.1
  simp
  omega

theorem head?_byteDigit {bytes : List UInt8} (h : AsciiDigits bytes) (hhead : bytes.head? ≠ some 48) :
    (bytes.map byteDigit).head? ≠ some 0 := by
  intro hzero
  cases bytes with
  | nil => simp at hzero
  | cons byte bytes =>
    simp only [List.map_cons, List.head?_cons, Option.some.injEq] at hzero
    exact hhead (by simp [byteDigit_eq_zero (h byte (by simp)) hzero])

theorem getLast?_byteDigit {bytes : List UInt8} (h : AsciiDigits bytes) (hlast : bytes.getLast? ≠ some 48) :
    (bytes.map byteDigit).getLast? ≠ some 0 := by
  rw [← List.head?_reverse, ← List.map_reverse]
  apply head?_byteDigit
  · exact h.subset fun byte hbyte => List.mem_reverse.1 hbyte
  · rwa [List.head?_reverse]

theorem magnitude_pos {integer fraction : List UInt8} (hinteger : AsciiDigits integer)
    (hfraction : AsciiDigits fraction) (hleading : integer.head? ≠ some 48)
    (htrailing : fraction.getLast? ≠ some 48) (hne : ¬ (integer = [] ∧ fraction = [])) :
    0 < magnitude integer fraction := by
  rw [magnitude_eq]
  have hnonneg := decimalFraction_nonneg (fraction.map byteDigit)
  cases hcase : integer with
  | cons byte bytes =>
    have hhead := head?_byteDigit hinteger hleading
    rw [hcase, List.map_cons, List.head?_cons, ne_eq, Option.some.injEq] at hhead
    have hpos : 0 < decimalValue ((byte :: bytes).map byteDigit) :=
      (Nat.pow_pos (by decide)).trans_le (pow_le_decimalValue hhead (bytes.map byteDigit))
    have hcast : (0 : ℚ) < (decimalValue ((byte :: bytes).map byteDigit) : ℚ) := by exact_mod_cast hpos
    linarith
  | nil =>
    have hsome : fraction ≠ [] := fun hnone => hne ⟨hcase, hnone⟩
    simpa using decimalFraction_pos (by simpa using hsome) (getLast?_byteDigit hfraction htrailing)

theorem normalized_normal (negative : Bool) {integer fraction : List UInt8} (hinteger : AsciiDigits integer)
    (hfraction : AsciiDigits fraction) : (ExactDecimal.normalized negative integer fraction).Normal := by
  have hinteger' : AsciiDigits (integer.dropWhile (· == 48)) :=
    hinteger.subset fun byte hbyte => (List.dropWhile_sublist _).subset hbyte
  have hfraction' : AsciiDigits (fraction.reverse.dropWhile (· == 48)).reverse := by
    apply hfraction.subset
    intro byte hbyte
    exact List.mem_reverse.1 ((List.dropWhile_sublist _).subset (List.mem_reverse.1 hbyte))
  have hleading := head?_dropWhile_zeros integer
  have htrailing : (fraction.reverse.dropWhile (· == 48)).reverse.getLast? ≠ some 48 := by
    rw [List.getLast?_reverse]
    exact head?_dropWhile_zeros _
  refine ⟨hinteger', hfraction', hleading, htrailing, ?_⟩
  intro hnegative
  refine magnitude_pos hinteger' hfraction' hleading htrailing ?_
  rintro ⟨hnone, hnone'⟩
  have hsign := (Bool.and_eq_true_iff.1 hnegative).2
  rw [show integer.dropWhile (· == 48) = [] from hnone,
    show (fraction.reverse.dropWhile (· == 48)).reverse = [] from hnone'] at hsign
  simp at hsign

/-- A negative zero is kept as zero. -/
theorem decimalNumber_zero (negative : Bool) (integer fraction : List UInt8) :
    decimalNumber (negative && !(integer.isEmpty && fraction.isEmpty)) integer fraction =
      decimalNumber negative integer fraction := by
  unfold decimalNumber
  by_cases hzero : integer = [] ∧ fraction = []
  · simp [hzero, magnitude, digitsValue]
  · have hsome : (integer.isEmpty && fraction.isEmpty) = false := by simpa using hzero
    simp [hsome]

theorem number_normalized (negative : Bool) (integer fraction : List UInt8) :
    (ExactDecimal.normalized negative integer fraction).number = decimalNumber negative integer fraction := by
  refine (decimalNumber_zero negative _ _).trans ?_
  unfold decimalNumber
  rw [magnitude_normalized]

/-! ## The order -/

namespace ExactDecimal

theorem compare_add_fraction {v w : Nat} {p q : ℚ} (hp : 0 ≤ p) (hp' : p < 1) (hq : 0 ≤ q) (hq' : q < 1) :
    compare ((v : ℚ) + p) (w + q) = (compare v w).then (compare p q) := by
  rcases lt_trichotomy v w with h | rfl | h
  · have hcast : (v : ℚ) + 1 ≤ w := by exact_mod_cast h
    rw [Nat.compare_eq_lt.2 h, compare_rat_lt (by linarith)]
    rfl
  · rw [Nat.compare_eq_eq.2 rfl, Ordering.eq_then]
    rcases lt_trichotomy p q with h | h | h
    · rw [compare_rat_lt h, compare_rat_lt (by linarith)]
    · rw [h, compare_eq_iff_eq.2 rfl, compare_eq_iff_eq.2 rfl]
    · rw [compare_rat_gt h, compare_rat_gt (by linarith)]
  · have hcast : (w : ℚ) + 1 ≤ v := by exact_mod_cast h
    rw [Nat.compare_eq_gt.2 h, compare_rat_gt (by linarith)]
    rfl

theorem magnitudeCmp_eq {left right : ExactDecimal} (hl : left.Normal) (hr : right.Normal) :
    left.magnitudeCmp right =
      compare (magnitude left.integer left.fraction) (magnitude right.integer right.fraction) := by
  have hinteger := compare_length_then hl.integer.digits hr.integer.digits
    (head?_byteDigit hl.integer hl.leading) (head?_byteDigit hr.integer hr.leading)
  have hfraction := compare_decimalFraction hl.fraction.digits hr.fraction.digits
    (getLast?_byteDigit hl.fraction hl.trailing) (getLast?_byteDigit hr.fraction hr.trailing)
  rw [List.length_map, List.length_map] at hinteger
  unfold magnitudeCmp
  rw [magnitude_eq, magnitude_eq, compare_add_fraction (decimalFraction_nonneg _)
    (decimalFraction_lt_one hl.fraction.digits) (decimalFraction_nonneg _)
    (decimalFraction_lt_one hr.fraction.digits), ← hinteger, ← hfraction,
    compare_map_byteDigit hl.integer hr.integer, compare_map_byteDigit hl.fraction hr.fraction, Ordering.then_assoc]

/-- The comparison of two decimals is that of their numbers. -/
theorem cmp_eq {left right : ExactDecimal} (hl : left.Normal) (hr : right.Normal) :
    left.cmp right = compare left.number right.number := by
  have hmag := magnitude_nonneg left.integer left.fraction
  have hmag' := magnitude_nonneg right.integer right.fraction
  unfold cmp number decimalNumber
  cases hneg : left.negative <;> cases hneg' : right.negative <;> simp only [Bool.false_eq_true, if_true, if_false]
  · exact magnitudeCmp_eq hl hr
  · have := hr.zero hneg'
    rw [compare_rat_gt (by linarith)]
  · have := hl.zero hneg
    rw [compare_rat_lt (by linarith)]
  · rw [magnitudeCmp_eq hr hl]
    obtain h | h | h := lt_trichotomy (magnitude left.integer left.fraction)
      (magnitude right.integer right.fraction)
    · rw [compare_rat_gt h, compare_rat_gt (by linarith)]
    · rw [h, compare_eq_iff_eq.2 rfl, compare_eq_iff_eq.2 rfl]
    · rw [compare_rat_lt h, compare_rat_lt (by linarith)]

theorem eq_of_magnitudeCmp {left right : ExactDecimal} (h : left.magnitudeCmp right = .eq) :
    left.integer = right.integer ∧ left.fraction = right.fraction := by
  unfold magnitudeCmp at h
  simp only [Ordering.then_eq_eq] at h
  exact ⟨Std.LawfulEqOrd.eq_of_compare h.2.1, Std.LawfulEqOrd.eq_of_compare h.2.2⟩

theorem eq_iff {left right : ExactDecimal} (hl : left.Normal) (hr : right.Normal) :
    left = right ↔ left.number = right.number := by
  constructor
  · rintro rfl
    rfl
  · intro h
    have hcmp := cmp_eq hl hr
    rw [compare_eq_iff_eq.2 h] at hcmp
    obtain ⟨negative, integer, fraction⟩ := left
    obtain ⟨negative', integer', fraction'⟩ := right
    cases negative <;> cases negative' <;> simp only [cmp] at hcmp
    · obtain ⟨hinteger, hfraction⟩ := eq_of_magnitudeCmp hcmp
      dsimp only at hinteger hfraction
      rw [hinteger, hfraction]
    · cases hcmp
    · cases hcmp
    · obtain ⟨hinteger, hfraction⟩ := eq_of_magnitudeCmp hcmp
      dsimp only at hinteger hfraction
      rw [hinteger, hfraction]

end ExactDecimal

/-! ## The parser -/

/-- The sign and the text after it. -/
def splitSign : List UInt8 → Bool × List UInt8
  | 45 :: rest => (true, rest)
  | 43 :: rest => (false, rest)
  | rest => (false, rest)

/-- The digits before and behind the point. -/
def splitPoint (unsigned : List UInt8) : List UInt8 × List UInt8 := (splitOnce 46 unsigned).getD (unsigned, [])

/-- What the parser asks of the two parts. -/
def Acceptable (unsigned : List UInt8) : Prop :=
  AsciiDigits (splitPoint unsigned).1 ∧ AsciiDigits (splitPoint unsigned).2 ∧
    ¬ ((splitPoint unsigned).1 = [] ∧ (splitPoint unsigned).2 = []) ∧
    ¬ (46 ∈ unsigned ∧ (splitPoint unsigned).2 = [])

/-- The parser after the sign. -/
def parseUnsigned (negative : Bool) (unsigned : List UInt8) : Option ExactDecimal :=
  let (integer, fraction) := splitPoint unsigned
  if integer = [] ∧ fraction = [] then none
  else if integer.length + fraction.length > maxDecimalDigits ∨ ¬ integer.all isAsciiDigit ∨
      ¬ fraction.all isAsciiDigit ∨ (46 ∈ unsigned ∧ fraction = []) then none
  else some (.normalized negative integer fraction)

theorem parseBytes_cons (byte : UInt8) (rest : List UInt8) :
    ExactDecimal.parseBytes (byte :: rest) =
      parseUnsigned (splitSign (byte :: rest)).1 (splitSign (byte :: rest)).2 := by
  by_cases hminus : byte = 45
  · subst hminus
    rfl
  · by_cases hplus : byte = 43
    · subst hplus
      rfl
    · have hsign : splitSign (byte :: rest) = (false, byte :: rest) := by
        unfold splitSign
        split <;> simp_all
      rw [hsign]
      unfold ExactDecimal.parseBytes
      split <;> simp_all [parseUnsigned, splitPoint]

theorem parseUnsigned_iff {negative : Bool} {unsigned : List UInt8} {decimal : ExactDecimal} :
    parseUnsigned negative unsigned = some decimal ↔
      Acceptable unsigned ∧
      (splitPoint unsigned).1.length + (splitPoint unsigned).2.length ≤ maxDecimalDigits ∧
      decimal = .normalized negative (splitPoint unsigned).1 (splitPoint unsigned).2 := by
  unfold parseUnsigned Acceptable AsciiDigits
  dsimp only
  split_ifs with hnone hbad
  · simp [hnone]
  · simp only [List.all_eq_true, gt_iff_lt] at hbad
    constructor
    · intro h
      cases h
    · rintro ⟨⟨hinteger, hfraction, -, hpoint⟩, hlength, -⟩
      rcases hbad with hbad | hbad | hbad | hbad
      · omega
      · exact absurd hinteger hbad
      · exact absurd hfraction hbad
      · exact absurd hbad hpoint
  · simp only [List.all_eq_true, not_or, not_not, gt_iff_lt, Nat.not_lt] at hbad
    obtain ⟨hlength, hinteger, hfraction, hpoint⟩ := hbad
    constructor
    · intro h
      exact ⟨⟨hinteger, hfraction, hnone, hpoint⟩, hlength, (Option.some.inj h).symm⟩
    · rintro ⟨-, -, rfl⟩
      rfl

theorem splitSign_append {sign : List UInt8} {negative : Bool} (h : SignText sign negative) {unsigned : List UInt8}
    (hunsigned : unsigned.head? ≠ some 45 ∧ unsigned.head? ≠ some 43) :
    splitSign (sign ++ unsigned) = (negative, unsigned) := by
  cases h with
  | plus => rfl
  | minus => rfl
  | none =>
    rw [List.nil_append]
    unfold splitSign
    split <;> simp_all

theorem exists_sign (bytes : List UInt8) :
    ∃ sign, SignText sign (splitSign bytes).1 ∧ bytes = sign ++ (splitSign bytes).2 := by
  unfold splitSign
  split
  · exact ⟨[45], .minus, rfl⟩
  · exact ⟨[43], .plus, rfl⟩
  · exact ⟨[], .none, rfl⟩

theorem AsciiDigits.not_mem {bytes : List UInt8} (h : AsciiDigits bytes) {byte : UInt8} (hbyte : ¬ isAsciiDigit byte) :
    byte ∉ bytes := fun hmem => hbyte (h byte hmem)

theorem splitOnce_digits {integer : List UInt8} (h : AsciiDigits integer) : splitOnce 46 integer = none := by
  cases hsplit : splitOnce 46 integer with
  | none => rfl
  | some parts =>
    obtain ⟨before, behind⟩ := parts
    obtain ⟨rfl, -⟩ := splitOnce_eq_some.1 hsplit
    exact absurd (by simp) (h.not_mem (by decide : ¬ isAsciiDigit 46))

/-- Neither a digit nor the point is a sign. -/
theorem head_not_sign {unsigned : List UInt8} (h : ∀ byte ∈ unsigned, isAsciiDigit byte ∨ byte = 46) :
    unsigned.head? ≠ some 45 ∧ unsigned.head? ≠ some 43 := by
  constructor
  all_goals
    intro hsign
    have := h _ (List.mem_of_mem_head? hsign)
    revert this
    decide

theorem DecimalText.digits {bytes integer fraction : List UInt8} {negative : Bool}
    (h : DecimalText bytes negative integer fraction) : AsciiDigits integer ∧ AsciiDigits fraction := by
  cases h with
  | whole _ hinteger _ => exact ⟨hinteger, by simp [AsciiDigits]⟩
  | point _ hinteger hfraction _ => exact ⟨hinteger, hfraction⟩

/-- What a decimal text is behind its sign. -/
theorem DecimalText.unsigned {bytes integer fraction : List UInt8} {negative : Bool}
    (h : DecimalText bytes negative integer fraction) :
    (integer ≠ [] ∧ fraction = [] ∧ splitSign bytes = (negative, integer)) ∨
      (fraction ≠ [] ∧ splitSign bytes = (negative, integer ++ 46 :: fraction)) := by
  cases h with
  | whole hsign hinteger hne =>
    exact .inl ⟨hne, rfl, splitSign_append hsign (head_not_sign fun byte hbyte => .inl (hinteger byte hbyte))⟩
  | point hsign hinteger hfraction hne =>
    refine .inr ⟨hne, splitSign_append hsign (head_not_sign fun byte hbyte => ?_)⟩
    rcases List.mem_append.1 hbyte with hbyte | hbyte
    · exact .inl (hinteger byte hbyte)
    · rcases List.mem_cons.1 hbyte with rfl | hbyte
      · exact .inr rfl
      · exact .inl (hfraction byte hbyte)

/-- The parser splits a decimal text into its parts. -/
theorem DecimalText.split {bytes integer fraction : List UInt8} {negative : Bool}
    (h : DecimalText bytes negative integer fraction) :
    bytes ≠ [] ∧ (splitSign bytes).1 = negative ∧ splitPoint (splitSign bytes).2 = (integer, fraction) ∧
      Acceptable (splitSign bytes).2 := by
  obtain ⟨hinteger, hfraction⟩ := h.digits
  rcases h.unsigned with ⟨hne, rfl, hsign⟩ | ⟨hne, hsign⟩
  · have hpoint : splitPoint integer = (integer, []) := by simp [splitPoint, splitOnce_digits hinteger]
    rw [hsign]
    refine ⟨?_, rfl, hpoint, ?_⟩
    · rintro rfl
      cases hsign
      exact hne rfl
    · unfold Acceptable
      rw [hpoint]
      refine ⟨hinteger, hfraction, by simp [hne], ?_⟩
      rintro ⟨hmem, -⟩
      exact hinteger.not_mem (by decide) hmem
  · have hpoint : splitPoint (integer ++ 46 :: fraction) = (integer, fraction) := by
      have hsplit : splitOnce 46 (integer ++ 46 :: fraction) = some (integer, fraction) :=
        splitOnce_eq_some.2 ⟨rfl, hinteger.not_mem (by decide)⟩
      simp [splitPoint, hsplit]
    rw [hsign]
    refine ⟨?_, rfl, hpoint, ?_⟩
    · rintro rfl
      simp [splitSign] at hsign
    · unfold Acceptable
      rw [hpoint]
      exact ⟨hinteger, hfraction, by simp [hne], by simp [hne]⟩

theorem decimalText_of_acceptable {bytes : List UInt8} (h : Acceptable (splitSign bytes).2) :
    DecimalText bytes (splitSign bytes).1 (splitPoint (splitSign bytes).2).1 (splitPoint (splitSign bytes).2).2 := by
  obtain ⟨sign, hsign, hbytes⟩ := exists_sign bytes
  generalize splitSign bytes = parts at hsign hbytes h
  obtain ⟨negative, unsigned⟩ := parts
  dsimp only at hsign hbytes h ⊢
  obtain ⟨hinteger, hfraction, hsome, hpoint⟩ := h
  rw [hbytes]
  cases hsplit : splitOnce 46 unsigned with
  | none =>
    have hparts : splitPoint unsigned = (unsigned, []) := by simp [splitPoint, hsplit]
    rw [hparts] at hinteger hsome ⊢
    exact .whole hsign hinteger (by simpa using hsome)
  | some parts =>
    obtain ⟨before, behind⟩ := parts
    have hparts : splitPoint unsigned = (before, behind) := by simp [splitPoint, hsplit]
    obtain ⟨hunsigned, -⟩ := splitOnce_eq_some.1 hsplit
    rw [hparts] at hinteger hfraction hpoint ⊢
    rw [hunsigned]
    exact .point hsign hinteger hfraction fun hnone => hpoint ⟨by simp [hunsigned], hnone⟩

/-- The parser accepts the decimal texts of at most 512 digits. -/
theorem parseBytes_iff {bytes : List UInt8} {decimal : ExactDecimal} :
    ExactDecimal.parseBytes bytes = some decimal ↔
      ∃ negative integer fraction, DecimalText bytes negative integer fraction ∧
        integer.length + fraction.length ≤ maxDecimalDigits ∧
        decimal = .normalized negative integer fraction := by
  constructor
  · intro h
    cases bytes with
    | nil => cases h
    | cons byte rest =>
      rw [parseBytes_cons, parseUnsigned_iff] at h
      obtain ⟨hacceptable, hlength, hdecimal⟩ := h
      exact ⟨_, _, _, decimalText_of_acceptable hacceptable, hlength, hdecimal⟩
  · rintro ⟨negative, integer, fraction, htext, hlength, hdecimal⟩
    obtain ⟨hne, hnegative, hparts, hacceptable⟩ := htext.split
    obtain ⟨byte, rest, rfl⟩ := List.exists_cons_of_ne_nil hne
    rw [parseBytes_cons, parseUnsigned_iff, hparts, hnegative]
    exact ⟨hacceptable, hlength, hdecimal⟩

theorem Denotes.unique {text : String} {number number' : ℚ} (h : Denotes text number) (h' : Denotes text number') :
    number = number' := by
  obtain ⟨negative, integer, fraction, htext, rfl⟩ := h
  obtain ⟨negative', integer', fraction', htext', rfl⟩ := h'
  obtain ⟨-, rfl, hparts, -⟩ := htext.split
  obtain ⟨-, rfl, hparts', -⟩ := htext'.split
  rw [hparts] at hparts'
  cases hparts'
  rfl

theorem parse_denotes {text : String} {decimal : ExactDecimal} (h : ExactDecimal.parse text = some decimal) :
    decimal.Normal ∧ Denotes text decimal.number := by
  obtain ⟨negative, integer, fraction, htext, -, rfl⟩ := parseBytes_iff.1 h
  obtain ⟨hinteger, hfraction⟩ := htext.digits
  exact ⟨normalized_normal negative hinteger hfraction, negative, integer, fraction, htext,
    number_normalized negative integer fraction⟩

/-! ## Integers -/

theorem utf8Bytes_nat (n : Nat) :
    utf8Bytes (toString n) = (Nat.toDigits 10 n).map fun c => UInt8.ofNat (48 + charDigit c) := by
  unfold utf8Bytes
  rw [Nat.toString_eq_ofList_toDigits, utf8_ofList, utf8_digits (isDigit_toDigits n)]

theorem asciiDigits_utf8Bytes_nat (n : Nat) : AsciiDigits (utf8Bytes (toString n)) := by
  rw [utf8Bytes_nat]
  intro byte hbyte
  obtain ⟨c, hc, rfl⟩ := List.mem_map.1 hbyte
  have hdigit := charDigit_lt (isDigit_toDigits n c hc)
  rw [isAsciiDigit_iff, UInt8.toNat_ofNat_of_lt' ((by omega : 48 + charDigit c < 58).trans (by decide))]
  omega

theorem utf8Bytes_neg (n : Nat) : utf8Bytes ("-" ++ toString n) = 45 :: utf8Bytes (toString n) := by
  have htext : "-" ++ toString n = String.ofList ('-' :: Nat.toDigits 10 n) := by
    rw [Nat.toString_eq_ofList_toDigits, ← String.toList_inj]
    simp
  unfold utf8Bytes
  rw [htext, Nat.toString_eq_ofList_toDigits, utf8_ofList, utf8_ofList]
  rfl

theorem parse_toString {n : Int} (hlow : -2 ^ 127 ≤ n) (hhigh : n < 2 ^ 127) :
    ExactDecimal.parse (toString n) = some (.fromInteger n) := by
  have hdigits := asciiDigits_utf8Bytes_nat n.natAbs
  have hne : utf8Bytes (toString n.natAbs) ≠ [] := by
    rw [utf8Bytes_nat]
    simp
  have hlength : (utf8Bytes (toString n.natAbs)).length + ([] : List UInt8).length ≤ maxDecimalDigits := by
    have hfits : n.natAbs < 10 ^ 39 := lt_of_le_of_lt (by omega : n.natAbs ≤ 2 ^ 127) (by decide)
    have hshort := (Nat.length_toDigits_le_iff (by decide) (by decide)).2 hfits
    rw [utf8Bytes_nat, List.length_map]
    exact hshort.trans (by decide)
  refine parseBytes_iff.2 ⟨n < 0, utf8Bytes (toString n.natAbs), [], ?_, hlength, rfl⟩
  cases n with
  | ofNat n =>
    have hsign : decide (Int.ofNat n < 0) = false := by simp
    rw [hsign]
    exact .whole .none hdigits hne
  | negSucc n =>
    have hsign : decide (Int.negSucc n < 0) = true := by simp [Int.negSucc_lt_zero]
    have htext : utf8Bytes (toString (Int.negSucc n)) = [45] ++ utf8Bytes (toString (Int.negSucc n).natAbs) :=
      utf8Bytes_neg (n + 1)
    rw [hsign, htext]
    exact .whole .minus hdigits hne

/-- Accepted texts denote one number each, compare and are equal as those
numbers do and are, and an integer is the decimal of its text. -/
theorem exactDecimal_rational :
    (∀ text decimal, ExactDecimal.parse text = some decimal → ∃! number, Denotes text number) ∧
    (∀ text text' decimal decimal' number number', ExactDecimal.parse text = some decimal →
      ExactDecimal.parse text' = some decimal' → Denotes text number → Denotes text' number' →
      decimal.cmp decimal' = compare number number' ∧ (decimal = decimal' ↔ number = number')) ∧
    ∀ n : Int, -2 ^ 127 ≤ n → n < 2 ^ 127 → ExactDecimal.parse (toString n) = some (.fromInteger n) := by
  refine ⟨?_, ?_, fun n => parse_toString⟩
  · intro text decimal h
    refine ⟨decimal.number, (parse_denotes h).2, ?_⟩
    intro number hnumber
    exact hnumber.unique (parse_denotes h).2
  · intro text text' decimal decimal' number number' h h' hnumber hnumber'
    obtain ⟨hnormal, hdenotes⟩ := parse_denotes h
    obtain ⟨hnormal', hdenotes'⟩ := parse_denotes h'
    rw [hnumber.unique hdenotes, hnumber'.unique hdenotes']
    exact ⟨ExactDecimal.cmp_eq hnormal hnormal', ExactDecimal.eq_iff hnormal hnormal'⟩

end LaserSdk.Filter
