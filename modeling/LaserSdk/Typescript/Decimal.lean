import LaserSdk.Lib.Utf16
import LaserSdk.Filter.Decimal
/-!
# Decimals in the TypeScript client

The TypeScript client reads a decimal from the units of a JavaScript string
with a regular expression, where the Rust client splits the bytes of UTF-8. We
prove that the two take the same texts and compare them alike.
-/

namespace LaserSdk.Typescript

open LaserSdk.Lib

/-! ## Digits -/

/-- `\d`. -/
def isDigit (unit : UInt16) : Bool := 48 ≤ unit && unit ≤ 57

/-- `BigInt` or `Number` of a text of digits. -/
def digitsNumber (digits : JsString) : Nat := digits.foldl (fun n unit => 10 * n + (unit.toNat - 48)) 0

/-- The optional sign `[+-]?` and the text behind it. -/
def splitSign : JsString → JsString × JsString
  | [] => ([], [])
  | unit :: rest => if unit = 43 ∨ unit = 45 then ([unit], rest) else ([], unit :: rest)

/-! ## Decimals -/

def maxDecimalDigits : Nat := 512

structure ExactDecimal where
  negative : Bool
  integer : JsString
  fraction : JsString
  deriving DecidableEq, Repr

/-- The groups of `/^([+-]?)(\d*)(?:\.(\d+))?$/`. Neither a sign nor the point is
a digit, so that no group can give back what it took. -/
def matchDecimal (text : JsString) : Option (JsString × JsString × JsString) :=
  let (sign, unsigned) := splitSign text
  let integer := unsigned.takeWhile isDigit
  match unsigned.dropWhile isDigit with
  | [] => some (sign, integer, [])
  | point :: fraction =>
    if point = 46 ∧ fraction ≠ [] ∧ fraction.all isDigit then some (sign, integer, fraction) else none

namespace ExactDecimal

def normalized (negative : Bool) (integer fraction : JsString) : ExactDecimal :=
  let trimmedInteger := integer.dropWhile (· == 48)
  let trimmedFraction := (fraction.reverse.dropWhile (· == 48)).reverse
  let zero := trimmedInteger.length == 0 && trimmedFraction.length == 0
  ⟨negative && !zero, trimmedInteger, trimmedFraction⟩

def parse (text : JsString) : Option ExactDecimal :=
  match matchDecimal text with
  | none => none
  | some (sign, integer, fraction) =>
    if integer.length = 0 ∧ fraction.length = 0 then none
    else if integer.length + fraction.length > maxDecimalDigits then none
    else some (normalized (sign == [45]) integer fraction)

def magnitude (left right : ExactDecimal) : Int :=
  if left.integer.length ≠ right.integer.length then
    if left.integer.length < right.integer.length then -1 else 1
  else if left.integer ≠ right.integer then if left.integer < right.integer then -1 else 1
  else if left.fraction ≠ right.fraction then if left.fraction < right.fraction then -1 else 1
  else 0

/-- `-1`, `0` or `1`, as the value is below, equal to or above the other. -/
def compare (left right : ExactDecimal) : Int :=
  if !left.negative && right.negative then 1
  else if left.negative && !right.negative then -1
  else if left.negative then -magnitude left right
  else magnitude left right

end ExactDecimal

/-! ## Bytes as units -/

section widen

variable (bytes : List UInt8)

theorem isDigit_toUInt16 (byte : UInt8) : isDigit byte.toUInt16 = Filter.isAsciiDigit byte := by
  simp [isDigit, Filter.isAsciiDigit, UInt16.le_iff_toNat_le, UInt8.le_iff_toNat_le]

theorem isDigit_comp_toUInt16 : isDigit ∘ UInt8.toUInt16 = Filter.isAsciiDigit := by
  funext byte
  exact isDigit_toUInt16 byte

theorem toUInt16_eq_iff {byte : UInt8} {unit : UInt16} (h : unit.toNat < 256) :
    byte.toUInt16 = unit ↔ byte = UInt8.ofNat unit.toNat := by
  rw [← UInt16.toNat_inj, ← UInt8.toNat_inj, UInt8.toNat_toUInt16, UInt8.toNat_ofNat', Nat.mod_eq_of_lt h]

@[simp] theorem length_widen : (widen bytes).length = bytes.length := List.length_map _

theorem widen_eq_nil : widen bytes = [] ↔ bytes = [] := List.map_eq_nil_iff

theorem all_isDigit_widen : (widen bytes).all isDigit = bytes.all Filter.isAsciiDigit := by
  rw [widen, List.all_map, isDigit_comp_toUInt16]

theorem takeWhile_widen : (widen bytes).takeWhile isDigit = widen (bytes.takeWhile Filter.isAsciiDigit) := by
  rw [widen, List.takeWhile_map, isDigit_comp_toUInt16]
  rfl

theorem dropWhile_widen : (widen bytes).dropWhile isDigit = widen (bytes.dropWhile Filter.isAsciiDigit) := by
  rw [widen, List.dropWhile_map, isDigit_comp_toUInt16]
  rfl

theorem slice_widen (start length : Nat) :
    ((widen bytes).drop start).take length = widen ((bytes.drop start).take length) := by
  simp [widen]

theorem digitsNumber_widen : digitsNumber (widen bytes) = Filter.digitsValue bytes := by
  simp [digitsNumber, Filter.digitsValue, widen, List.foldl_map]

end widen

/-! ## Reading decimals alike -/

/-- A decimal of the Rust client with its digits as units. -/
def ExactDecimal.widened (decimal : Filter.ExactDecimal) : ExactDecimal :=
  ⟨decimal.negative, widen decimal.integer, widen decimal.fraction⟩

theorem dropWhile_zeros_widen (bytes : List UInt8) :
    (widen bytes).dropWhile (· == 48) = widen (bytes.dropWhile (· == 48)) := by
  have hzero : (· == (48 : UInt16)) ∘ UInt8.toUInt16 = (· == (48 : UInt8)) := by
    funext byte
    rw [Function.comp_apply, Bool.eq_iff_iff, beq_iff_eq, beq_iff_eq, toUInt16_eq_iff (by decide)]
    rfl
  rw [widen, List.dropWhile_map, hzero]
  rfl

theorem widen_reverse (bytes : List UInt8) : (widen bytes).reverse = widen bytes.reverse := List.map_reverse.symm

theorem length_beq_zero {α : Type} (l : List α) : (l.length == 0) = l.isEmpty := by
  cases l <;> rfl

theorem normalized_widen (negative : Bool) (integer fraction : List UInt8) :
    ExactDecimal.normalized negative (widen integer) (widen fraction) =
      .widened (.normalized negative integer fraction) := by
  simp only [ExactDecimal.normalized, ExactDecimal.widened, Filter.ExactDecimal.normalized, widen_reverse,
    dropWhile_zeros_widen, length_widen, length_beq_zero]

theorem splitSign_widen (bytes : List UInt8) :
    ∃ sign, splitSign (widen bytes) = (sign, widen (Filter.splitSign bytes).2) ∧
      (sign == [45]) = (Filter.splitSign bytes).1 := by
  cases bytes with
  | nil => exact ⟨[], rfl, rfl⟩
  | cons byte rest =>
    by_cases hminus : byte = 45
    · subst hminus
      exact ⟨[45], rfl, rfl⟩
    · by_cases hplus : byte = 43
      · subst hplus
        exact ⟨[43], rfl, rfl⟩
      · have hbytes : Filter.splitSign (byte :: rest) = (false, byte :: rest) := by
          unfold Filter.splitSign
          split <;> simp_all
        have hsign : ¬ (byte.toUInt16 = 43 ∨ byte.toUInt16 = 45) := by
          rw [toUInt16_eq_iff (by decide), toUInt16_eq_iff (by decide), not_or]
          exact ⟨hplus, hminus⟩
        refine ⟨[], ?_, by rw [hbytes]; rfl⟩
        rw [hbytes]
        exact if_neg hsign

/-- The expression matches every decimal text. -/
theorem matchDecimal_of {bytes integer fraction : List UInt8} {negative : Bool}
    (h : Filter.DecimalText bytes negative integer fraction) :
    ∃ sign, matchDecimal (widen bytes) = some (sign, widen integer, widen fraction) ∧ (sign == [45]) = negative := by
  obtain ⟨sign, hsplit, hsign⟩ := splitSign_widen bytes
  obtain ⟨hinteger, hfraction⟩ := h.digits
  unfold matchDecimal
  rw [hsplit]
  simp only [takeWhile_widen, dropWhile_widen]
  rcases h.unsigned with ⟨-, rfl, hunsigned⟩ | ⟨hne, hunsigned⟩
  · rw [hunsigned] at hsign ⊢
    rw [List.takeWhile_eq_self_iff.2 hinteger, List.dropWhile_eq_nil_iff.2 hinteger]
    exact ⟨sign, rfl, hsign⟩
  · rw [hunsigned] at hsign ⊢
    have hpoint : Filter.isAsciiDigit 46 = false := rfl
    have htake : (integer ++ 46 :: fraction).takeWhile Filter.isAsciiDigit = integer := by
      rw [List.takeWhile_append_of_pos hinteger, List.takeWhile_cons_of_neg (by simp [hpoint]), List.append_nil]
    have hdrop : (integer ++ 46 :: fraction).dropWhile Filter.isAsciiDigit = 46 :: fraction := by
      rw [List.dropWhile_append_of_pos hinteger, List.dropWhile_cons_of_neg (by simp [hpoint])]
    have hall : (widen fraction).all isDigit = true := by
      rw [all_isDigit_widen]
      exact List.all_eq_true.2 hfraction
    refine ⟨sign, ?_, hsign⟩
    rw [htake, hdrop]
    exact if_pos ⟨rfl, (widen_eq_nil fraction).not.2 hne, hall⟩

/-- What the expression matches is a decimal text, or a sign alone. -/
theorem decimalText_of_match {bytes : List UInt8} {sign integer fraction : JsString}
    (h : matchDecimal (widen bytes) = some (sign, integer, fraction))
    (hsome : ¬ (integer.length = 0 ∧ fraction.length = 0)) :
    ∃ digits digits', integer = widen digits ∧ fraction = widen digits' ∧
      Filter.DecimalText bytes (sign == [45]) digits digits' := by
  obtain ⟨sign', hsplit, hnegative⟩ := splitSign_widen bytes
  obtain ⟨before, hbefore, hbytes⟩ := Filter.exists_sign bytes
  unfold matchDecimal at h
  rw [hsplit] at h
  simp only [takeWhile_widen, dropWhile_widen] at h
  have hparts := List.takeWhile_append_dropWhile (p := Filter.isAsciiDigit) (l := (Filter.splitSign bytes).2)
  have hdigits : Filter.AsciiDigits ((Filter.splitSign bytes).2.takeWhile Filter.isAsciiDigit) :=
    fun byte => List.mem_takeWhile_imp
  generalize (Filter.splitSign bytes).2.takeWhile Filter.isAsciiDigit = digits at h hparts hdigits
  generalize (Filter.splitSign bytes).2.dropWhile Filter.isAsciiDigit = rest at h hparts
  rw [← hnegative] at hbefore
  rw [← hparts] at hbytes
  cases rest with
  | nil =>
    cases h
    have hne : digits ≠ [] := by
      rintro rfl
      exact hsome ⟨rfl, rfl⟩
    rw [hbytes, List.append_nil]
    exact ⟨digits, [], rfl, rfl, .whole hbefore hdigits hne⟩
  | cons point rest =>
    simp only [widen, List.map_cons] at h
    split at h
    · rename_i hpoint
      obtain ⟨hpoint, hne, hall⟩ := hpoint
      cases h
      obtain rfl : point = 46 := (toUInt16_eq_iff (by decide)).1 hpoint
      have hall' : rest.all Filter.isAsciiDigit = true := by
        rw [← all_isDigit_widen]
        exact hall
      rw [hbytes]
      refine ⟨digits, rest, rfl, rfl, .point hbefore hdigits (List.all_eq_true.1 hall') ?_⟩
      rintro rfl
      exact hne rfl
    · cases h

/-- Both clients read the same decimals from bytes. -/
theorem parse_widen (bytes : List UInt8) :
    ExactDecimal.parse (widen bytes) = (Filter.ExactDecimal.parseBytes bytes).map .widened := by
  cases hparse : Filter.ExactDecimal.parseBytes bytes with
  | some decimal =>
    obtain ⟨negative, integer, fraction, htext, hlength, rfl⟩ := Filter.parseBytes_iff.1 hparse
    obtain ⟨sign, hmatch, hsign⟩ := matchDecimal_of htext
    have hsome : ¬ (integer.length = 0 ∧ fraction.length = 0) := by
      rcases htext.unsigned with ⟨hne, -, -⟩ | ⟨hne, -⟩ <;> simp [hne]
    have hfits : ¬ integer.length + fraction.length > maxDecimalDigits := Nat.not_lt.2 hlength
    unfold ExactDecimal.parse
    rw [hmatch]
    simp only [length_widen]
    rw [if_neg hsome, if_neg hfits, normalized_widen, hsign]
    rfl
  | none =>
    unfold ExactDecimal.parse
    split
    · rfl
    · rename_i sign integer fraction hmatch
      split_ifs with hnone hlong
      · rfl
      · rfl
      · obtain ⟨digits, digits', rfl, rfl, htext⟩ := decimalText_of_match hmatch hnone
        rw [length_widen, length_widen] at hlong
        have hsome := Filter.parseBytes_iff.2 ⟨_, _, _, htext, Nat.not_lt.1 hlong, rfl⟩
        exact nomatch hparse.symm.trans hsome

/-! ### Only ASCII is taken -/

theorem isDigit_ascii {unit : UInt16} (h : isDigit unit = true) : unit.toNat < 128 := by
  simp only [isDigit, Bool.and_eq_true, decide_eq_true_eq, UInt16.le_iff_toNat_le] at h
  have : (57 : UInt16).toNat = 57 := rfl
  omega

theorem splitSign_ascii (text : JsString) (h : ∀ unit ∈ (splitSign text).2, unit.toNat < 128) :
    ∀ unit ∈ text, unit.toNat < 128 := by
  cases text with
  | nil => simp
  | cons first rest =>
    by_cases hsign : first = 43 ∨ first = 45
    · have hsplit : splitSign (first :: rest) = ([first], rest) := if_pos hsign
      rw [hsplit] at h
      refine List.forall_mem_cons.2 ⟨?_, h⟩
      rcases hsign with rfl | rfl <;> decide
    · have hsplit : splitSign (first :: rest) = ([], first :: rest) := if_neg hsign
      rwa [hsplit] at h

theorem matchDecimal_ascii {text : JsString} {groups : JsString × JsString × JsString}
    (h : matchDecimal text = some groups) : ∀ unit ∈ text, unit.toNat < 128 := by
  apply splitSign_ascii
  unfold matchDecimal at h
  generalize splitSign text = parts at h
  obtain ⟨sign, unsigned⟩ := parts
  simp only at h
  rw [← List.takeWhile_append_dropWhile (p := isDigit) (l := unsigned)]
  intro unit hunit
  rcases List.mem_append.1 hunit with hunit | hunit
  · exact isDigit_ascii (List.mem_takeWhile_imp hunit)
  · split at h
    · rename_i hnone
      simp [hnone] at hunit
    · rename_i point fraction hrest
      rw [hrest] at hunit
      split at h
      · rename_i hpoint
        rcases List.mem_cons.1 hunit with rfl | hunit
        · rw [hpoint.1]
          decide
        · exact isDigit_ascii (List.all_eq_true.1 hpoint.2.2 unit hunit)
      · cases h

theorem parse_ascii {text : JsString} {decimal : ExactDecimal} (h : ExactDecimal.parse text = some decimal) :
    ∀ unit ∈ text, unit.toNat < 128 := by
  unfold ExactDecimal.parse at h
  split at h
  · cases h
  · rename_i hmatch
    exact matchDecimal_ascii hmatch

theorem digits_ascii {bytes : List UInt8} (h : Filter.AsciiDigits bytes) : ∀ byte ∈ bytes, byte.toNat < 128 := by
  intro byte hbyte
  have := Filter.isAsciiDigit_iff.1 (h byte hbyte)
  omega

theorem sign_ascii {sign : List UInt8} {negative : Bool} (h : Filter.SignText sign negative) :
    ∀ byte ∈ sign, byte.toNat < 128 := by
  cases h <;> simp

theorem decimalText_ascii {bytes integer fraction : List UInt8} {negative : Bool}
    (h : Filter.DecimalText bytes negative integer fraction) : ∀ byte ∈ bytes, byte.toNat < 128 := by
  obtain ⟨hinteger, hfraction⟩ := h.digits
  cases h with
  | whole hsign _ _ => exact List.forall_mem_append.2 ⟨sign_ascii hsign, digits_ascii hinteger⟩
  | point hsign _ _ _ =>
    refine List.forall_mem_append.2 ⟨sign_ascii hsign, List.forall_mem_append.2 ⟨digits_ascii hinteger, ?_⟩⟩
    exact List.forall_mem_cons.2 ⟨by decide, digits_ascii hfraction⟩

/-- Both clients read the same decimal from a text, or none. -/
theorem parse_utf16 (text : String) :
    ExactDecimal.parse (utf16 text.toList) = (Filter.ExactDecimal.parse text).map .widened := by
  refine read_ascii_alike (g := fun text => (Filter.ExactDecimal.parse text).map ExactDecimal.widened) ?_ ?_ ?_ text
  · intro units decimal h
    exact parse_ascii h
  · intro text decimal h
    obtain ⟨decimal', h', -⟩ := Option.map_eq_some_iff.1 h
    obtain ⟨negative, integer, fraction, htext, -, -⟩ := Filter.parseBytes_iff.1 h'
    exact decimalText_ascii htext
  · intro text
    exact parse_widen _

/-! ### The order -/

/-- The number JavaScript has for an ordering. -/
def ofOrdering : Ordering → Int
  | .lt => -1
  | .eq => 0
  | .gt => 1

theorem toUInt16_lt {byte byte' : UInt8} : byte.toUInt16 < byte'.toUInt16 ↔ byte < byte' := by
  rw [UInt16.lt_iff_toNat_lt, UInt8.lt_iff_toNat_lt, UInt8.toNat_toUInt16, UInt8.toNat_toUInt16]

theorem toUInt16_inj {byte byte' : UInt8} : byte.toUInt16 = byte'.toUInt16 ↔ byte = byte' := by
  rw [← UInt16.toNat_inj, ← UInt8.toNat_inj, UInt8.toNat_toUInt16, UInt8.toNat_toUInt16]

theorem widen_inj {bytes bytes' : List UInt8} : widen bytes = widen bytes' ↔ bytes = bytes' :=
  List.map_inj_right fun _ _ h => toUInt16_inj.1 h

theorem compare_eq_lt {bytes bytes' : List UInt8} :
    Ord.compare bytes bytes' = .lt ↔ widen bytes < widen bytes' := by
  induction bytes generalizing bytes' with
  | nil => cases bytes' <;> simp [widen]
  | cons byte bytes ih =>
    cases bytes' with
    | nil => simp [widen]
    | cons byte' bytes' =>
      have hbyte : Ord.compare byte byte' = compareOfLessAndEq byte byte' := rfl
      rw [List.compare_cons_cons, hbyte, compareOfLessAndEq]
      simp only [widen, List.map_cons, List.cons_lt_cons_iff, toUInt16_inj, toUInt16_lt] at ih ⊢
      by_cases hlt : byte < byte'
      · simp [hlt]
      · by_cases heq : byte = byte'
        · simp [heq, ih]
        · simp [hlt, heq]

/-- The comparison of the units of two texts is that of their bytes. -/
theorem ofOrdering_compare (bytes bytes' : List UInt8) :
    ofOrdering (Ord.compare bytes bytes') =
      if widen bytes = widen bytes' then 0 else if widen bytes < widen bytes' then -1 else 1 := by
  have hlt := @compare_eq_lt bytes bytes'
  have heq := @Std.LawfulEqOrd.compare_eq_iff_eq _ _ _ bytes bytes'
  rw [← widen_inj] at heq
  cases hcompare : Ord.compare bytes bytes' with
  | lt =>
    have hne : widen bytes ≠ widen bytes' := fun h => nomatch hcompare.symm.trans (heq.2 h)
    rw [if_neg hne, if_pos (hlt.1 hcompare)]
    rfl
  | eq =>
    rw [if_pos (heq.1 hcompare)]
    rfl
  | gt =>
    have hne : widen bytes ≠ widen bytes' := fun h => nomatch hcompare.symm.trans (heq.2 h)
    have hnlt : ¬ widen bytes < widen bytes' := fun h => nomatch hcompare.symm.trans (hlt.2 h)
    rw [if_neg hne, if_neg hnlt]
    rfl

theorem ofOrdering_then (first second : Ordering) :
    ofOrdering (first.then second) = if first = .eq then ofOrdering second else ofOrdering first := by
  cases first <;> rfl

theorem magnitude_widened (left right : Filter.ExactDecimal) :
    ExactDecimal.magnitude (.widened left) (.widened right) = ofOrdering (left.magnitudeCmp right) := by
  unfold ExactDecimal.magnitude Filter.ExactDecimal.magnitudeCmp
  rw [ofOrdering_then, ofOrdering_then, ofOrdering_compare, ofOrdering_compare]
  simp only [ExactDecimal.widened, length_widen, Std.LawfulEqOrd.compare_eq_iff_eq, ne_eq, widen_inj, ite_not]
  by_cases hlength : left.integer.length = right.integer.length
  · rw [if_pos hlength, if_pos hlength]
    by_cases hinteger : left.integer = right.integer
    · rw [if_pos hinteger, if_pos hinteger]
      rfl
    · rw [if_neg hinteger, if_neg hinteger, if_neg hinteger]
      rfl
  · rw [if_neg hlength, if_neg hlength]
    by_cases hlt : left.integer.length < right.integer.length
    · rw [if_pos hlt, Nat.compare_eq_lt.2 hlt]
      rfl
    · rw [if_neg hlt, Nat.compare_eq_gt.2 (by omega)]
      rfl

theorem ofOrdering_swap (order : Ordering) : ofOrdering order.swap = -ofOrdering order := by
  cases order <;> rfl

theorem magnitudeCmp_swap (left right : Filter.ExactDecimal) :
    (left.magnitudeCmp right).swap = right.magnitudeCmp left := by
  unfold Filter.ExactDecimal.magnitudeCmp
  rw [Ordering.swap_then, Ordering.swap_then, ← Std.OrientedOrd.eq_swap, ← Std.OrientedOrd.eq_swap,
    ← Std.OrientedOrd.eq_swap]

/-- Both clients compare two decimals alike. -/
theorem compare_widened (left right : Filter.ExactDecimal) :
    ExactDecimal.compare (.widened left) (.widened right) = ofOrdering (left.cmp right) := by
  unfold ExactDecimal.compare Filter.ExactDecimal.cmp
  rw [magnitude_widened, ← ofOrdering_swap, magnitudeCmp_swap]
  obtain ⟨negative, integer, fraction⟩ := left
  obtain ⟨negative', integer', fraction'⟩ := right
  cases negative <;> cases negative' <;> rfl

end LaserSdk.Typescript
