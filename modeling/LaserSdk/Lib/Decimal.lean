import Mathlib.Algebra.Order.Field.Basic
import Mathlib.Algebra.Order.Field.Rat
import Mathlib.Data.List.Induction
import Mathlib.Tactic.FieldSimp
import Mathlib.Tactic.Linarith
import Mathlib.Tactic.Positivity
import Mathlib.Tactic.Ring
import LaserSdk.Lib.Utf8
/-!
# Decimal digits

A number is written as its decimal digits, the highest first. Two such lists
compare as their numbers do: place by place when they are equally long, by
their lengths first when neither starts with a zero, and as fractions place by
place when neither ends with one.
-/

namespace LaserSdk.Lib

def decimalValue (digits : List Nat) : Nat := digits.foldl (fun n digit => 10 * n + digit) 0

/-- The digits behind the point. -/
def decimalFraction (digits : List Nat) : ℚ := decimalValue digits / 10 ^ digits.length

def Digits (digits : List Nat) : Prop := ∀ digit ∈ digits, digit < 10

/-- Written without superfluous zeros in front. -/
def Canonical (digits : List Nat) : Prop := digits ≠ [] ∧ (1 < digits.length → digits.head? ≠ some 0)

@[simp] theorem decimalValue_nil : decimalValue [] = 0 := rfl

theorem decimalValue_append (ds es : List Nat) :
    decimalValue (ds ++ es) = decimalValue ds * 10 ^ es.length + decimalValue es := by
  induction es using List.reverseRecOn with
  | nil => simp
  | append_singleton es e ih =>
    have hsnoc (fs : List Nat) : decimalValue (fs ++ [e]) = 10 * decimalValue fs + e := by
      simp [decimalValue, List.foldl_append]
    rw [← List.append_assoc, hsnoc, hsnoc, ih, List.length_append, List.length_singleton, Nat.pow_succ]
    ring

theorem decimalValue_cons (d : Nat) (ds : List Nat) :
    decimalValue (d :: ds) = d * 10 ^ ds.length + decimalValue ds := by
  have := decimalValue_append [d] ds
  simpa [decimalValue] using this

theorem Digits.tail {d : Nat} {ds : List Nat} (h : Digits (d :: ds)) : Digits ds := fun e he =>
  h e (List.mem_cons_of_mem d he)

theorem Digits.head {d : Nat} {ds : List Nat} (h : Digits (d :: ds)) : d < 10 := h d List.mem_cons_self

theorem decimalValue_lt {ds : List Nat} (h : Digits ds) : decimalValue ds < 10 ^ ds.length := by
  induction ds with
  | nil => simp
  | cons d ds ih =>
    have hlow := ih h.tail
    have hhigh : (d + 1) * 10 ^ ds.length ≤ 10 * 10 ^ ds.length := Nat.mul_le_mul_right _ h.head
    rw [decimalValue_cons, List.length_cons, Nat.pow_succ, Nat.mul_comm _ 10]
    linarith

theorem pow_le_decimalValue {d : Nat} (hd : d ≠ 0) (ds : List Nat) : 10 ^ ds.length ≤ decimalValue (d :: ds) := by
  rw [decimalValue_cons]
  have : 1 * 10 ^ ds.length ≤ d * 10 ^ ds.length := Nat.mul_le_mul_right _ (Nat.pos_of_ne_zero hd)
  omega

/-! ## Whole numbers -/

theorem compare_head {d e : Nat} {k v w : Nat} (hv : v < k) (hw : w < k) :
    compare (d * k + v) (e * k + w) = (compare d e).then (compare v w) := by
  rcases lt_trichotomy d e with h | rfl | h
  · have hle : (d + 1) * k ≤ e * k := Nat.mul_le_mul_right _ h
    have : d * k + v < e * k + w := by linarith
    rw [Nat.compare_eq_lt.2 this, Nat.compare_eq_lt.2 h]
    rfl
  · rw [Nat.compare_eq_eq.2 (rfl : d = d)]
    rcases lt_trichotomy v w with h | rfl | h
    · rw [Nat.compare_eq_lt.2 h, Nat.compare_eq_lt.2 (Nat.add_lt_add_left h _)]
      rfl
    · simp
    · rw [Nat.compare_eq_gt.2 h, Nat.compare_eq_gt.2 (Nat.add_lt_add_left h _)]
      rfl
  · have hle : (e + 1) * k ≤ d * k := Nat.mul_le_mul_right _ h
    have : e * k + w < d * k + v := by linarith
    rw [Nat.compare_eq_gt.2 this, Nat.compare_eq_gt.2 h]
    rfl

/-- Equally long numbers compare place by place. -/
theorem compare_decimalValue {ds es : List Nat} (hd : Digits ds) (he : Digits es) (hlength : ds.length = es.length) :
    compare (decimalValue ds) (decimalValue es) = compare ds es := by
  induction ds generalizing es with
  | nil =>
    obtain rfl := List.length_eq_zero_iff.1 hlength.symm
    rfl
  | cons d ds ih =>
    cases es with
    | nil => simp at hlength
    | cons e es =>
      have hlength : ds.length = es.length := by simpa using hlength
      rw [decimalValue_cons, decimalValue_cons, ← hlength,
        compare_head (decimalValue_lt hd.tail) (hlength ▸ decimalValue_lt he.tail), ih hd.tail he.tail hlength,
        List.compare_cons_cons]

theorem decimalValue_lt_of_length_lt {d : Nat} {ds es : List Nat} (hd : d ≠ 0) (he : Digits es)
    (hlength : es.length < (d :: ds).length) : decimalValue es < decimalValue (d :: ds) := by
  have hle : 10 ^ es.length ≤ 10 ^ ds.length := Nat.pow_le_pow_right (by decide) (by simp at hlength; omega)
  exact (decimalValue_lt he).trans_le (hle.trans (pow_le_decimalValue hd ds))

/-- Numbers that start with no zero compare by length and then place by place. -/
theorem compare_length_then {ds es : List Nat} (hd : Digits ds) (he : Digits es) (hds : ds.head? ≠ some 0)
    (hes : es.head? ≠ some 0) :
    (compare ds.length es.length).then (compare ds es) = compare (decimalValue ds) (decimalValue es) := by
  rcases lt_trichotomy ds.length es.length with h | h | h
  · cases es with
    | nil => simp at h
    | cons e es =>
      have := decimalValue_lt_of_length_lt (by simpa using hes) hd h
      rw [Nat.compare_eq_lt.2 h, Nat.compare_eq_lt.2 this]
      rfl
  · rw [compare_decimalValue hd he h, Nat.compare_eq_eq.2 h]
    rfl
  · cases ds with
    | nil => simp at h
    | cons d ds =>
      have := decimalValue_lt_of_length_lt (by simpa using hds) he h
      rw [Nat.compare_eq_gt.2 h, Nat.compare_eq_gt.2 this]
      rfl

theorem decimalValue_inj_of_length {ds es : List Nat} (hd : Digits ds) (he : Digits es)
    (hlength : ds.length = es.length) (h : decimalValue ds = decimalValue es) : ds = es := by
  induction ds generalizing es with
  | nil => exact (List.length_eq_zero_iff.1 hlength.symm).symm
  | cons d ds ih =>
    cases es with
    | nil => simp at hlength
    | cons e es =>
      have hlength : ds.length = es.length := by simpa using hlength
      have hlow := decimalValue_lt hd.tail
      have hlow' : decimalValue es < 10 ^ ds.length := hlength ▸ decimalValue_lt he.tail
      have hcompare := compare_head (d := d) (e := e) hlow hlow'
      rw [decimalValue_cons, decimalValue_cons, ← hlength] at h
      rw [h, Nat.compare_eq_eq.2 rfl, eq_comm, Ordering.then_eq_eq, Nat.compare_eq_eq, Nat.compare_eq_eq] at hcompare
      rw [hcompare.1, ih hd.tail he.tail hlength hcompare.2]

/-- A number has one canonical form. -/
theorem Canonical.inj {ds es : List Nat} (hd : Digits ds) (he : Digits es) (hds : Canonical ds)
    (hes : Canonical es) (h : decimalValue ds = decimalValue es) : ds = es := by
  -- The longer of two canonical forms starts with a digit that counts.
  have hlonger {ds es : List Nat} (he : Digits es) (hds : Canonical ds) (hes : Canonical es)
      (hlt : es.length < ds.length) : decimalValue es < decimalValue ds := by
    cases ds with
    | nil => exact absurd rfl hds.1
    | cons d ds =>
      have hpos := List.length_pos_iff.2 hes.1
      have hhead := hds.2 (by omega)
      exact decimalValue_lt_of_length_lt (by simpa using hhead) he hlt
  rcases lt_trichotomy ds.length es.length with hlt | heq | hlt
  · have := hlonger hd hes hds hlt
    omega
  · exact decimalValue_inj_of_length hd he heq h
  · have := hlonger he hds hes hlt
    omega

/-! ## The text of a number -/

def charDigit (c : Char) : Nat := c.toNat - '0'.toNat

theorem foldl_charDigit (digits : List Char) :
    digits.foldl (fun n digit => 10 * n + (digit.toNat - '0'.toNat)) 0 = decimalValue (digits.map charDigit) := by
  simp [decimalValue, List.foldl_map, charDigit]

theorem charDigit_lt {c : Char} (h : c.isDigit) : charDigit c < 10 := by
  simp [Char.isDigit, UInt32.le_iff_toNat_le] at h
  simp [charDigit]
  omega

theorem charDigit_inj {c d : Char} (hc : c.isDigit) (hd : d.isDigit) (h : charDigit c = charDigit d) : c = d := by
  simp [Char.isDigit, UInt32.le_iff_toNat_le] at hc hd
  simp [charDigit] at h
  apply Char.toNat_inj.1
  omega

theorem digits_charDigit {digits : List Char} (h : ∀ c ∈ digits, c.isDigit) : Digits (digits.map charDigit) := by
  intro digit hmem
  obtain ⟨c, hc, rfl⟩ := List.mem_map.1 hmem
  exact charDigit_lt (h c hc)

theorem map_charDigit_inj {ds es : List Char} (hd : ∀ c ∈ ds, c.isDigit) (he : ∀ c ∈ es, c.isDigit)
    (h : ds.map charDigit = es.map charDigit) : ds = es := by
  induction ds generalizing es with
  | nil => simpa [eq_comm] using h
  | cons d ds ih =>
    cases es with
    | nil => simp at h
    | cons e es =>
      obtain ⟨hhead, htail⟩ := List.cons.inj h
      rw [charDigit_inj (hd d (by simp)) (he e (by simp)) hhead,
        ih (fun c hc => hd c (by simp [hc])) (fun c hc => he c (by simp [hc])) htail]

theorem decimalValue_toDigits (n : Nat) : decimalValue ((Nat.toDigits 10 n).map charDigit) = n := by
  rw [← foldl_charDigit]
  exact Nat.ofDigitChars_ten_toDigits

theorem isDigit_toDigits (n : Nat) : ∀ c ∈ Nat.toDigits 10 n, c.isDigit := fun _ hc =>
  Nat.isDigit_of_mem_toDigits (by decide) (by decide) hc

theorem canonical_toDigits (n : Nat) : Canonical ((Nat.toDigits 10 n).map charDigit) := by
  induction n using Nat.strong_induction_on with
  | _ n ih =>
    rw [Nat.toDigits_eq_if (by decide)]
    split_ifs with hlt
    · exact ⟨by simp, by simp⟩
    · obtain ⟨hne, hhead⟩ := ih (n / 10) (by omega)
      refine ⟨by simp, ?_⟩
      intro _
      rw [List.map_append, List.head?_append_of_ne_nil _ hne]
      -- A number of one digit here is not zero, since there are more digits to come.
      by_cases hone : 1 < ((Nat.toDigits 10 (n / 10)).map charDigit).length
      · exact hhead hone
      · have hvalue := decimalValue_toDigits (n / 10)
        match hdigits : (Nat.toDigits 10 (n / 10)).map charDigit with
        | [] => exact absurd hdigits hne
        | [d] =>
          rw [hdigits] at hvalue
          simp [decimalValue] at hvalue
          simp
          omega
        | d :: e :: ds => simp [hdigits] at hone

/-- The digits of a number are the one canonical text with its value. -/
theorem toDigits_decimalValue {digits : List Char} (hdigits : ∀ c ∈ digits, c.isDigit)
    (hcanonical : Canonical (digits.map charDigit)) :
    Nat.toDigits 10 (decimalValue (digits.map charDigit)) = digits := by
  apply map_charDigit_inj (isDigit_toDigits _) hdigits
  exact Canonical.inj (digits_charDigit (isDigit_toDigits _)) (digits_charDigit hdigits) (canonical_toDigits _)
    hcanonical (decimalValue_toDigits _)

theorem utf8EncodeChar_digit {c : Char} (h : c.isDigit) : String.utf8EncodeChar c = [UInt8.ofNat (48 + charDigit c)] := by
  simp [Char.isDigit, UInt32.le_iff_toNat_le] at h
  have hcode : 48 + charDigit c = c.toNat := by
    simp [charDigit]
    omega
  rw [hcode]
  simp [String.utf8EncodeChar]
  omega

theorem utf8_digits {digits : List Char} (h : ∀ c ∈ digits, c.isDigit) :
    digits.flatMap String.utf8EncodeChar = digits.map fun c => UInt8.ofNat (48 + charDigit c) := by
  induction digits with
  | nil => rfl
  | cons c digits ih =>
    rw [List.flatMap_cons, utf8EncodeChar_digit (h c (by simp)), ih fun d hd => h d (by simp [hd])]
    rfl

/-! ## Fractions -/

@[simp] theorem decimalFraction_nil : decimalFraction [] = 0 := by simp [decimalFraction]

theorem decimalFraction_cons (d : Nat) (ds : List Nat) :
    decimalFraction (d :: ds) = (d + decimalFraction ds) / 10 := by
  unfold decimalFraction
  rw [decimalValue_cons, List.length_cons]
  push_cast
  rw [pow_succ]
  field_simp

theorem decimalFraction_nonneg (ds : List Nat) : 0 ≤ decimalFraction ds := by
  unfold decimalFraction
  positivity

theorem decimalFraction_lt_one {ds : List Nat} (h : Digits ds) : decimalFraction ds < 1 := by
  unfold decimalFraction
  rw [div_lt_one (by positivity)]
  exact_mod_cast decimalValue_lt h

theorem decimalFraction_append_zeros (ds : List Nat) (k : Nat) :
    decimalFraction (ds ++ List.replicate k 0) = decimalFraction ds := by
  have hzeros : decimalValue (List.replicate k 0) = 0 := by
    induction k with
    | zero => rfl
    | succ k ih => rw [List.replicate_succ, decimalValue_cons, ih, Nat.zero_mul]
  unfold decimalFraction
  rw [decimalValue_append, hzeros, List.length_append, List.length_replicate, pow_add]
  push_cast
  field_simp
  ring

theorem decimalFraction_pos {ds : List Nat} (hne : ds ≠ []) (hlast : ds.getLast? ≠ some 0) :
    0 < decimalFraction ds := by
  obtain ⟨es, e, rfl⟩ := List.eq_nil_or_concat' ds |>.resolve_left hne
  have he : e ≠ 0 := by simpa using hlast
  have : 0 < decimalValue (es ++ [e]) := by
    rw [decimalValue_append]
    simp [decimalValue]
    omega
  unfold decimalFraction
  positivity

theorem compare_rat_lt {p q : ℚ} (h : p < q) : compare p q = .lt := compare_lt_iff_lt.2 h

theorem compare_rat_gt {p q : ℚ} (h : q < p) : compare p q = .gt := compare_gt_iff_gt.2 h

/-- Fractions that end with no zero compare place by place. -/
theorem compare_decimalFraction {ds es : List Nat} (hd : Digits ds) (he : Digits es)
    (hds : ds.getLast? ≠ some 0) (hes : es.getLast? ≠ some 0) :
    compare ds es = compare (decimalFraction ds) (decimalFraction es) := by
  induction ds generalizing es with
  | nil =>
    cases es with
    | nil => simp
    | cons e es =>
      rw [List.compare_nil_cons, decimalFraction_nil, compare_rat_lt]
      exact decimalFraction_pos (by simp) hes
  | cons d ds ih =>
    cases es with
    | nil =>
      rw [List.compare_cons_nil, decimalFraction_nil, compare_rat_gt]
      exact decimalFraction_pos (by simp) hds
    | cons e es =>
      rw [List.compare_cons_cons, decimalFraction_cons, decimalFraction_cons]
      have hlt := decimalFraction_lt_one hd.tail
      have hlt' := decimalFraction_lt_one he.tail
      have hge := decimalFraction_nonneg ds
      have hge' := decimalFraction_nonneg es
      rcases lt_trichotomy d e with h | rfl | h
      · have hcast : (d : ℚ) + 1 ≤ e := by exact_mod_cast h
        rw [Nat.compare_eq_lt.2 h, compare_rat_lt (by linarith)]
        rfl
      · have htail {f : Nat} {fs : List Nat} (h : (f :: fs).getLast? ≠ some 0) : fs.getLast? ≠ some 0 := by
          cases fs with
          | nil => simp
          | cons g gs => simpa [List.getLast?_cons_cons] using h
        rw [Nat.compare_eq_eq.2 rfl, Ordering.eq_then, ih hd.tail he.tail (htail hds) (htail hes)]
        rcases lt_trichotomy (decimalFraction ds) (decimalFraction es) with h | h | h
        · rw [compare_rat_lt h, compare_rat_lt (by linarith)]
        · rw [h, compare_eq_iff_eq.2 rfl, compare_eq_iff_eq.2 rfl]
        · rw [compare_rat_gt h, compare_rat_gt (by linarith)]
      · have hcast : (e : ℚ) + 1 ≤ d := by exact_mod_cast h
        rw [Nat.compare_eq_gt.2 h, compare_rat_gt (by linarith)]
        rfl

end LaserSdk.Lib
