import LaserSdk.Lib.ShortestDecimal
import LaserSdk.Filter.ExactDouble
import LaserSdk.Typescript.Timestamp
/-!
# Numbers in the TypeScript client

The TypeScript client holds integers as big integers and doubles as numbers.
It finds the double equal to an integer by converting there and back, where the
Rust client counts bits, and it reads the digits of a double from its
exponential form, where the Rust client reads the plain one.
-/

namespace LaserSdk.Typescript

open LaserSdk.Lib
open LaserSdk.Filter (F64)

/-! ## Integers and doubles -/

/-- The exponent past the largest double. -/
def maxDoubleBits : Nat := 1024

/-- `Number(value)`. -/
def numberOf (value : Int) : F64 :=
  let magnitude := nearestDouble value.natAbs
  if magnitude < 2 ^ maxDoubleBits then .finite (if value < 0 then -magnitude else magnitude) 0
  else .infinite (value < 0)

/-- `BigInt(number)`, which throws when the number is no integer. -/
def bigIntOf : F64 → Option Int
  | .nan | .infinite _ => none
  | .finite mantissa exponent =>
    if 0 ≤ exponent then some (mantissa * 2 ^ exponent.toNat)
    else if (2 : Int) ^ (-exponent).toNat ∣ mantissa then some (mantissa / 2 ^ (-exponent).toNat)
    else none

def exactDouble (value : Int) : Option F64 :=
  let converted := numberOf value
  if converted.isFinite ∧ bigIntOf converted = some value then some converted else none

def compareBigInt (left right : Int) : Int := if left < right then -1 else if left > right then 1 else 0

/-- `<` and `>` are those of the doubles. -/
def compareDouble (left right : F64) : Option Int :=
  if left = .nan ∨ right = .nan then none
  else if left.partialCmp right = some .lt then some (-1)
  else if left.partialCmp right = some .gt then some 1
  else some 0

theorem compareBigInt_eq (left right : Int) : compareBigInt left right = ofOrdering (compare left right) := by
  unfold compareBigInt
  rcases Int.lt_trichotomy left right with hlt | rfl | hgt
  · rw [if_pos hlt, Int.compare_eq_lt.2 hlt]
    rfl
  · simp [ofOrdering]
  · rw [if_neg (by omega), if_pos hgt, Int.compare_eq_gt.2 hgt]
    rfl

theorem compareDouble_eq (left right : F64) : compareDouble left right = (left.partialCmp right).map ofOrdering := by
  unfold compareDouble
  by_cases hleft : left = .nan
  · rw [hleft]
    rfl
  · by_cases hright : right = .nan
    · rw [hright]
      cases left <;> rfl
    · have hsome : ∃ order, left.partialCmp right = some order := by
        cases left <;> cases right <;> simp_all [F64.partialCmp]
      obtain ⟨order, horder⟩ := hsome
      rw [if_neg (by simp [hleft, hright]), horder]
      cases order <;> rfl

theorem excess_eq (n : Nat) : excess n = Filter.significantBits n - 53 := by
  unfold excess Filter.significantBits
  split
  · rename_i hzero
    rw [hzero]
    rfl
  · rfl

theorem nearestDouble_eq_self {n : Nat} : nearestDouble n = n ↔ 2 ^ (Filter.significantBits n - 53) ∣ n := by
  rw [← excess_eq]
  constructor
  · intro h
    rw [← h]
    conv_lhs => rw [h]
    exact dvd_roundAt _ n
  · exact roundAt_of_dvd

/-- Both clients find the same double, for every integer of 128 bits. -/
theorem exactDouble_eq {value : Int} (h : value.natAbs < 2 ^ 128) : exactDouble value = Filter.exactDouble value := by
  have hbits := Filter.significantBits_le h
  have hrust : Filter.exactDouble value =
      if nearestDouble value.natAbs = value.natAbs then some (.finite value 0) else none := by
    rw [Filter.exactDouble]
    apply if_congr _ rfl rfl
    rw [nearestDouble_eq_self, ← @Filter.le_trailingZeros 128 _ _ (by omega)]
    omega
  have hbound : nearestDouble value.natAbs < 2 ^ maxDoubleBits :=
    calc nearestDouble value.natAbs ≤ 2 ^ (53 + excess value.natAbs) := nearestDouble_le _
      _ < 2 ^ maxDoubleBits := Nat.pow_lt_pow_right (by omega) (by rw [excess_eq, maxDoubleBits]; omega)
  have hnumber : numberOf value =
      .finite (if value < 0 then -(nearestDouble value.natAbs : Int) else nearestDouble value.natAbs) 0 := by
    unfold numberOf
    dsimp only
    rw [if_pos hbound]
  rw [hrust, exactDouble, hnumber]
  by_cases hexact : nearestDouble value.natAbs = value.natAbs
  · have hvalue : (if value < 0 then -(nearestDouble value.natAbs : Int) else nearestDouble value.natAbs) = value := by
      rw [hexact]
      split <;> omega
    rw [hvalue, if_pos hexact]
    simp [F64.isFinite, bigIntOf]
  · have hvalue : (if value < 0 then -(nearestDouble value.natAbs : Int) else nearestDouble value.natAbs) ≠ value := by
      split <;> omega
    rw [if_neg hexact, if_neg]
    simpa [F64.isFinite, bigIntOf] using hvalue

/-! ## Decimals -/

namespace ExactDecimal

def fromInteger (value : Int) : ExactDecimal := normalized (value < 0) (utf16 (toString value.natAbs).toList) []

/-- The digits before and behind the point, `Number(exponentText)` digits from
the first. -/
def placePoint (digits : JsString) (exponent : Option Int) : JsString × JsString :=
  match exponent with
  -- not a number: no comparison holds and a slice up to it is empty
  | none => ([], digits)
  | some exponent =>
    let point := exponent + 1
    if point ≤ 0 then ([], List.replicate (-point).toNat 48 ++ digits)
    else if point ≥ digits.length then (digits ++ List.replicate (point - digits.length).toNat 48, [])
    else (digits.take point.toNat, digits.drop point.toNat)

/-- The decimal of a finite double, where `toExponential` writes a positive one
with one digit before the point. -/
def fromF64 (toExponential : F64 → JsString) (value : F64) : Option ExactDecimal :=
  match value with
  | .nan | .infinite _ => none
  | .finite mantissa exponent =>
    if mantissa = 0 then some (normalized false [] [])
    else
      let text := toExponential (.finite mantissa.natAbs exponent)
      -- `split("e")`
      let exponentText := match text.dropWhile (· != 101) with
        | [] => [48]
        | _ :: rest => rest.takeWhile (· != 101)
      -- `replace(".", "")` drops the first point only
      let digits := (text.takeWhile (· != 101)).erase 46
      let parts := placePoint digits (matchInteger exponentText)
      some (normalized (mantissa < 0) parts.1 parts.2)

end ExactDecimal

theorem fromInteger_eq (value : Int) : ExactDecimal.fromInteger value = .widened (.fromInteger value) := by
  have hdigits : utf16 (toString value.natAbs).toList = widen (Filter.utf8Bytes (toString value.natAbs)) := by
    rw [Filter.utf8Bytes, utf8_toList]
    apply utf16_widen
    apply ascii_of_bytes
    rw [← utf8_toList]
    exact digits_ascii (Filter.asciiDigits_utf8Bytes_nat _)
  rw [ExactDecimal.fromInteger, hdigits]
  exact normalized_widen _ _ []

/-- The doubles. -/
def IsDouble : F64 → Prop
  | .nan | .infinite _ => True
  | .finite mantissa exponent => mantissa.natAbs < 2 ^ 53 ∧ -1074 ≤ exponent ∧ exponent ≤ 971

/-- `d.ddde±x`. -/
def exponentialForm (digits : List UInt8) (exponent : Int) : List UInt8 :=
  digits.take 1 ++ (if digits.length > 1 then 46 :: digits.drop 1 else []) ++
    101 :: (if exponent < 0 then 45 else 43) :: Filter.utf8Bytes (toString exponent.natAbs)

/-- The same number without an exponent. -/
def plainForm (digits : List UInt8) (exponent : Int) : List UInt8 :=
  let point := exponent + 1
  if point ≤ 0 then 48 :: 46 :: (List.replicate (-point).toNat 48 ++ digits)
  else if point ≥ digits.length then digits ++ List.replicate (point - digits.length).toNat 48
  else digits.take point.toNat ++ 46 :: digits.drop point.toNat

/-- What the two languages document about the text of a double: the shortest
digits that read back as it, without an exponent in Rust and with one in
`toExponential`. -/
structure SameDigits (doubleText : F64 → String) (toExponential : F64 → JsString) : Prop where
  zero : ∀ exponent, Filter.utf8Bytes (doubleText (.finite 0 exponent)) ∈ [[48], [45, 48]]
  nonzero : ∀ mantissa exponent, mantissa ≠ 0 → IsDouble (.finite mantissa exponent) →
    ∃ digits power, Filter.AsciiDigits digits ∧ digits ≠ [] ∧ digits.length ≤ 17 ∧ power.natAbs ≤ 324 ∧
      toExponential (.finite mantissa.natAbs exponent) = widen (exponentialForm digits power) ∧
      Filter.utf8Bytes (doubleText (.finite mantissa exponent)) =
        (if mantissa < 0 then [45] else []) ++ plainForm digits power

/-! ### Reading doubles alike -/

section

variable {digits : List UInt8}

/-- The form without its exponent, up to the `e`. -/
def mantissaForm (digits : List UInt8) : List UInt8 :=
  digits.take 1 ++ (if digits.length > 1 then 46 :: digits.drop 1 else [])

theorem mantissaForm_ne_e (hdigits : Filter.AsciiDigits digits) : ∀ byte ∈ mantissaForm digits, byte ≠ 101 := by
  intro byte hbyte
  have hcases : byte ∈ digits ∨ byte = 46 := by
    rcases List.mem_append.1 hbyte with hfirst | hrest
    · exact .inl (List.mem_of_mem_take hfirst)
    · split at hrest
      · rcases List.mem_cons.1 hrest with hpoint | hmore
        · exact .inr hpoint
        · exact .inl (List.mem_of_mem_drop hmore)
      · exact nomatch hrest
  rintro rfl
  rcases hcases with hdigit | hpoint
  · exact nomatch hdigits 101 hdigit
  · exact nomatch hpoint

theorem erase_mantissaForm (hdigits : Filter.AsciiDigits digits) :
    (widen (mantissaForm digits)).erase 46 = widen digits := by
  cases digits with
  | nil => rfl
  | cons first rest =>
    have hfirst : first.toUInt16 ≠ 46 := by
      rw [ne_eq, toUInt16_eq_iff (by decide)]
      rintro rfl
      exact nomatch hdigits _ (List.mem_cons_self)
    cases rest with
    | nil => simp [mantissaForm, widen, hfirst]
    | cons second rest => simp [mantissaForm, widen, hfirst]

theorem exponential_split (hdigits : Filter.AsciiDigits digits) (power : Int) :
    (widen (exponentialForm digits power)).takeWhile (· != 101) = widen (mantissaForm digits) ∧
      (widen (exponentialForm digits power)).dropWhile (· != 101) =
        101 :: widen ((if power < 0 then 45 else 43) :: Filter.utf8Bytes (toString power.natAbs)) := by
  have hform : widen (exponentialForm digits power) = widen (mantissaForm digits) ++
      101 :: widen ((if power < 0 then 45 else 43) :: Filter.utf8Bytes (toString power.natAbs)) := by
    simp only [exponentialForm, mantissaForm, widen, List.map_append, List.map_cons]
    rfl
  have hmantissa : ∀ unit ∈ widen (mantissaForm digits), (unit != 101) = true := by
    intro unit hunit
    obtain ⟨byte, hbyte, rfl⟩ := List.mem_map.1 hunit
    rw [bne_iff_ne, ne_eq, toUInt16_eq_iff (by decide)]
    exact mantissaForm_ne_e hdigits byte hbyte
  rw [hform, List.takeWhile_append_of_pos hmantissa, List.dropWhile_append_of_pos hmantissa]
  simp

theorem digitsValue_utf8Bytes_nat (n : Nat) : Filter.digitsValue (Filter.utf8Bytes (toString n)) = n := by
  have hdigits : (Filter.utf8Bytes (toString n)).map Filter.byteDigit = (Nat.toDigits 10 n).map charDigit := by
    rw [Filter.utf8Bytes_nat, List.map_map]
    apply List.map_congr_left
    intro c hc
    have hdigit := charDigit_lt (isDigit_toDigits n c hc)
    rw [Function.comp_apply, Filter.byteDigit, UInt8.toNat_ofNat_of_lt' ((by omega : 48 + charDigit c < 58).trans (by decide))]
    omega
  rw [Filter.digitsValue_eq, hdigits, decimalValue_toDigits]

theorem matchInteger_power (power : Int) :
    matchInteger ((widen ((if power < 0 then 45 else 43) :: Filter.utf8Bytes (toString power.natAbs))).takeWhile (· != 101)) =
      some power := by
  have hdigits := Filter.asciiDigits_utf8Bytes_nat power.natAbs
  have hne : Filter.utf8Bytes (toString power.natAbs) ≠ [] := by
    rw [Filter.utf8Bytes_nat]
    simp
  have hall : (Filter.utf8Bytes (toString power.natAbs)).all Filter.isAsciiDigit = true := List.all_eq_true.2 hdigits
  have hvalue := digitsValue_utf8Bytes_nat power.natAbs
  have hwhole (sign : UInt8) (hsign : sign ≠ 101) :
      (widen (sign :: Filter.utf8Bytes (toString power.natAbs))).takeWhile (· != 101) =
        widen (sign :: Filter.utf8Bytes (toString power.natAbs)) := by
    rw [List.takeWhile_eq_self_iff]
    intro unit hunit
    obtain ⟨byte, hbyte, rfl⟩ := List.mem_map.1 hunit
    rw [bne_iff_ne, ne_eq, toUInt16_eq_iff (by decide)]
    rintro rfl
    rcases List.mem_cons.1 hbyte with heq | hdigit
    · exact hsign heq.symm
    · exact nomatch hdigits _ hdigit
  rw [hwhole _ (by split <;> decide), matchInteger_widen]
  by_cases hnegative : power < 0
  · rw [if_pos hnegative]
    show signedDigits true (Filter.utf8Bytes (toString power.natAbs)) = some power
    rw [signedDigits, if_pos ⟨hne, hall⟩, hvalue, if_pos rfl]
    exact congrArg some (by omega)
  · rw [if_neg hnegative]
    show signedDigits false (Filter.utf8Bytes (toString power.natAbs)) = some power
    rw [signedDigits, if_pos ⟨hne, hall⟩, hvalue, if_neg Bool.false_ne_true]
    exact congrArg some (by omega)

/-- The digits around the point, as bytes. -/
def placed (digits : List UInt8) (power : Int) : List UInt8 × List UInt8 :=
  if power + 1 ≤ 0 then ([], List.replicate (-(power + 1)).toNat 48 ++ digits)
  else if power + 1 ≥ digits.length then (digits ++ List.replicate (power + 1 - digits.length).toNat 48, [])
  else (digits.take (power + 1).toNat, digits.drop (power + 1).toNat)

theorem placePoint_widen (digits : List UInt8) (power : Int) :
    ExactDecimal.placePoint (widen digits) (some power) = (widen (placed digits power).1, widen (placed digits power).2) := by
  unfold ExactDecimal.placePoint placed
  dsimp only
  rw [length_widen]
  split_ifs <;> simp [widen]

/-- The plain form is a decimal text with the same digits around the point, up
to a zero in front. -/
theorem parseBytes_plainForm (hdigits : Filter.AsciiDigits digits) (hne : digits ≠ []) (hshort : digits.length ≤ 17)
    {power : Int} (hpower : power.natAbs ≤ 324) {sign : List UInt8} {negative : Bool} (hsign : Filter.SignText sign negative) :
    Filter.ExactDecimal.parseBytes (sign ++ plainForm digits power) =
      some (.normalized negative (placed digits power).1 (placed digits power).2) := by
  have hzeros (n : Nat) : Filter.AsciiDigits (List.replicate n 48) := by
    intro byte hbyte
    rw [List.eq_of_mem_replicate hbyte]
    rfl
  have happend {bytes rest : List UInt8} (h : Filter.AsciiDigits bytes) (h' : Filter.AsciiDigits rest) :
      Filter.AsciiDigits (bytes ++ rest) := fun byte hbyte => (List.mem_append.1 hbyte).elim (h byte) (h' byte)
  unfold plainForm placed
  dsimp only
  split
  · refine Filter.parseBytes_iff.2 ⟨negative, [48], _, .point hsign (hzeros 1) (happend (hzeros _) hdigits) ?_, ?_, rfl⟩
    · simp [hne]
    · simp [Filter.maxDecimalDigits]
      omega
  · split
    · refine Filter.parseBytes_iff.2 ⟨negative, _, [], .whole hsign (happend hdigits (hzeros _)) ?_, ?_, rfl⟩
      · simp [hne]
      · simp [Filter.maxDecimalDigits]
        omega
    · refine Filter.parseBytes_iff.2 ⟨negative, _, _, .point hsign (hdigits.subset fun _ => List.mem_of_mem_take)
        (hdigits.subset fun _ => List.mem_of_mem_drop) ?_, ?_, rfl⟩
      · rw [ne_eq, List.drop_eq_nil_iff]
        omega
      · rw [List.length_take, List.length_drop, Filter.maxDecimalDigits]
        omega

end

/-- Both clients read the same decimal from a double. -/
theorem fromF64_eq {doubleText : F64 → String} {toExponential : F64 → JsString} (hsame : SameDigits doubleText toExponential)
    {value : F64} (hdouble : IsDouble value) :
    ExactDecimal.fromF64 toExponential value =
      (if value.isFinite then Filter.ExactDecimal.parse (doubleText value) else none).map .widened := by
  cases value with
  | nan => rfl
  | infinite negative => rfl
  | finite mantissa exponent =>
    rw [ExactDecimal.fromF64, F64.isFinite, if_pos rfl, Filter.ExactDecimal.parse]
    by_cases hzero : mantissa = 0
    · subst hzero
      have htext := hsame.zero exponent
      simp only [List.mem_cons, List.not_mem_nil, or_false] at htext
      rcases htext with htext | htext <;>
      · rw [htext]
        rfl
    · obtain ⟨digits, power, hdigits, hne, hshort, hpower, hjs, hrust⟩ := hsame.nonzero mantissa exponent hzero hdouble
      obtain ⟨hmantissa, hrest⟩ := exponential_split hdigits power
      have hsign : Filter.SignText (if mantissa < 0 then [45] else []) (decide (mantissa < 0)) := by
        by_cases hnegative : mantissa < 0
        · rw [if_pos hnegative, decide_eq_true hnegative]
          exact .minus
        · rw [if_neg hnegative, decide_eq_false hnegative]
          exact .none
      rw [if_neg hzero, hrust, parseBytes_plainForm hdigits hne hshort hpower hsign]
      dsimp only
      rw [hjs, hmantissa, hrest, erase_mantissaForm hdigits, matchInteger_power, placePoint_widen, normalized_widen]
      rfl

end LaserSdk.Typescript
