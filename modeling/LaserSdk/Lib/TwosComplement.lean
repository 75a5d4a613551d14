import Mathlib.Algebra.Order.Ring.Int
import Mathlib.Tactic.Linarith
import Mathlib.Tactic.Ring
import LaserSdk.Lib.Bytes
/-!
# Two's complement

Bytes with the highest first are read as a number, or with the sign of the
highest bit. Without a superfluous first byte the bytes of a signed number are
unique.
-/

namespace LaserSdk.Lib

def beNat (bytes : List UInt8) : Nat := bytes.foldl (fun value byte => value * 256 + byte.toNat) 0

theorem foldl_beNat (value : Nat) (bytes : List UInt8) :
    bytes.foldl (fun value byte => value * 256 + byte.toNat) value = value * 256 ^ bytes.length + beNat bytes := by
  induction bytes generalizing value with
  | nil => simp [beNat]
  | cons byte bytes ih =>
    rw [beNat, List.foldl_cons, List.foldl_cons, ih, ih, List.length_cons]
    ring

theorem beNat_cons (byte : UInt8) (bytes : List UInt8) :
    beNat (byte :: bytes) = byte.toNat * 256 ^ bytes.length + beNat bytes := by
  rw [beNat, List.foldl_cons, foldl_beNat]
  ring

theorem beNat_append (bytes rest : List UInt8) : beNat (bytes ++ rest) = beNat bytes * 256 ^ rest.length + beNat rest := by
  rw [beNat, List.foldl_append, foldl_beNat]
  rfl

theorem beNat_lt (bytes : List UInt8) : beNat bytes < 256 ^ bytes.length := by
  induction bytes with
  | nil => simp [beNat]
  | cons byte bytes ih =>
    have hbyte := byte.toNat_lt
    have hhigh : (byte.toNat + 1) * 256 ^ bytes.length ≤ 256 * 256 ^ bytes.length := Nat.mul_le_mul_right _ (by omega)
    rw [beNat_cons, List.length_cons, Nat.pow_succ]
    linarith

theorem beNat_inj {a b : List UInt8} (hlen : a.length = b.length) (h : beNat a = beNat b) : a = b := by
  induction a generalizing b with
  | nil => exact (List.length_eq_zero_iff.1 hlen.symm).symm
  | cons x a ih =>
    cases b with
    | nil => cases hlen
    | cons y b =>
      have hlen' : a.length = b.length := Nat.succ.inj hlen
      rw [beNat_cons, beNat_cons, hlen'] at h
      have ha := beNat_lt a
      have hb := beNat_lt b
      rw [hlen'] at ha
      have hdiv (q r : Nat) (hr : r < 256 ^ b.length) : (q * 256 ^ b.length + r) / 256 ^ b.length = q := by
        rw [Nat.mul_comm, Nat.mul_add_div (by positivity), Nat.div_eq_of_lt hr, Nat.add_zero]
      have hhead : x.toNat = y.toNat := by
        rw [← hdiv x.toNat _ ha, h, hdiv y.toNat _ hb]
      rw [UInt8.toNat_inj.1 hhead, ih hlen' (by rw [hhead] at h; omega)]

theorem beNat_replicate_zero (count : Nat) : beNat (List.replicate count 0) = 0 := by
  induction count with
  | zero => rfl
  | succ count ih => rw [List.replicate_succ, beNat_cons, ih]; simp

theorem beNat_replicate_max (count : Nat) : beNat (List.replicate count 255) + 1 = 256 ^ count := by
  induction count with
  | zero => rfl
  | succ count ih =>
    rw [List.replicate_succ, beNat_cons, List.length_replicate, Nat.add_assoc, ih, Nat.pow_succ]
    show 255 * 256 ^ count + 256 ^ count = 256 ^ count * 256
    ring

/-! ## Signed numbers -/

/-- The sign of the highest bit. -/
def isNegative (bytes : List UInt8) : Bool := decide (128 ≤ (bytes.headD 0).toNat)

def signedValue (bytes : List UInt8) : Int :=
  if isNegative bytes then (beNat bytes : Int) - 256 ^ bytes.length else beNat bytes

theorem signedValue_negative {byte : UInt8} (h : 128 ≤ byte.toNat) (rest : List UInt8) :
    signedValue (byte :: rest) = (beNat (byte :: rest) : Int) - 256 ^ (rest.length + 1) :=
  if_pos (decide_eq_true h)

theorem signedValue_nonnegative {byte : UInt8} (h : ¬ 128 ≤ byte.toNat) (rest : List UInt8) :
    signedValue (byte :: rest) = beNat (byte :: rest) :=
  if_neg fun hsign => h (of_decide_eq_true hsign)

/-- The first byte only repeats the sign of the second. -/
def Padded : List UInt8 → Prop
  | first :: second :: _ => (first.toNat = 0 ∧ second.toNat < 128) ∨ (first.toNat = 255 ∧ 128 ≤ second.toNat)
  | _ => False

/-- What one byte more than `rest` holds. -/
theorem signedValue_range (byte : UInt8) (rest : List UInt8) :
    -(128 * 256 ^ rest.length) ≤ signedValue (byte :: rest) ∧ signedValue (byte :: rest) < 128 * 256 ^ rest.length := by
  have hbyte := byte.toNat_lt
  have hrest := beNat_lt rest
  have hcast : (beNat (byte :: rest) : Int) = byte.toNat * 256 ^ rest.length + beNat rest := by
    rw [beNat_cons]
    push_cast
    rfl
  have hrest' : (beNat rest : Int) < 256 ^ rest.length := by exact_mod_cast hrest
  have hlow : (0 : Int) ≤ beNat rest := Int.natCast_nonneg _
  have hpow : (0 : Int) < 256 ^ rest.length := by positivity
  by_cases hsign : 128 ≤ byte.toNat
  · rw [signedValue_negative hsign, hcast, pow_succ]
    have hhigh : (128 : Int) ≤ byte.toNat := by omega
    have hmost : (byte.toNat : Int) ≤ 255 := by omega
    constructor <;> nlinarith
  · rw [signedValue_nonnegative hsign, hcast]
    have hmost : (byte.toNat : Int) ≤ 127 := by omega
    constructor <;> nlinarith

/-- Without padding a number needs its first byte. -/
theorem signedValue_needs {first second : UInt8} {rest : List UInt8} (h : ¬ Padded (first :: second :: rest)) :
    signedValue (first :: second :: rest) < -(128 * 256 ^ rest.length) ∨
      128 * 256 ^ rest.length ≤ signedValue (first :: second :: rest) := by
  have hfirst := first.toNat_lt
  have hsecond := second.toNat_lt
  have hrest := beNat_lt rest
  have hrest' : (beNat rest : Int) < 256 ^ rest.length := by exact_mod_cast hrest
  have hlow : (0 : Int) ≤ beNat rest := Int.natCast_nonneg _
  have hpow : (0 : Int) < 256 ^ rest.length := by positivity
  have hcast : (beNat (first :: second :: rest) : Int) =
      (first.toNat * 256 + second.toNat) * 256 ^ rest.length + beNat rest := by
    rw [beNat_cons, beNat_cons, List.length_cons, Nat.pow_succ]
    push_cast
    ring
  have hunpadded : ¬ ((first.toNat = 0 ∧ second.toNat < 128) ∨ (first.toNat = 255 ∧ 128 ≤ second.toNat)) := h
  by_cases hsign : 128 ≤ first.toNat
  · left
    rw [signedValue_negative hsign, hcast, List.length_cons, pow_succ, pow_succ]
    have hhead : (first.toNat * 256 + second.toNat : Int) < 255 * 256 + 128 := by omega
    have hmul : ((first.toNat * 256 + second.toNat : Int) + 1) * 256 ^ rest.length ≤
        (255 * 256 + 128) * 256 ^ rest.length := by
      apply mul_le_mul_of_nonneg_right _ (le_of_lt hpow)
      omega
    linarith
  · right
    rw [signedValue_nonnegative hsign, hcast]
    have hhead : (128 : Int) ≤ first.toNat * 256 + second.toNat := by omega
    have hmul : (128 : Int) * 256 ^ rest.length ≤ (first.toNat * 256 + second.toNat) * 256 ^ rest.length :=
      mul_le_mul_of_nonneg_right hhead (le_of_lt hpow)
    linarith

theorem length_le_of_signedValue {a b : List UInt8} (ha : a ≠ []) (hb : ¬ Padded b) (h : signedValue a = signedValue b) :
    b.length ≤ a.length := by
  by_contra hlonger
  obtain ⟨byte, rest, rfl⟩ := List.exists_cons_of_ne_nil ha
  match b, hb with
  | [], _ => simp at hlonger
  | [_], _ => simp at hlonger
  | first :: second :: tail, hb =>
    have hwider : (256 : Int) ^ rest.length ≤ 256 ^ tail.length := by
      apply pow_le_pow_right₀ (by norm_num)
      simp only [List.length_cons] at hlonger
      omega
    obtain ⟨hlow, hhigh⟩ := signedValue_range byte rest
    rw [h] at hlow hhigh
    rcases signedValue_needs hb with hbelow | habove
    · linarith
    · linarith

/-- The bytes of a number without padding are unique. -/
theorem signedValue_inj {a b : List UInt8} (ha : a ≠ []) (hb : b ≠ []) (hpa : ¬ Padded a) (hpb : ¬ Padded b)
    (h : signedValue a = signedValue b) : a = b := by
  have hlen : a.length = b.length :=
    Nat.le_antisymm (length_le_of_signedValue hb hpa h.symm) (length_le_of_signedValue ha hpb h)
  have hla := beNat_lt a
  have hlb := beNat_lt b
  apply beNat_inj hlen
  rw [hlen] at hla
  have hla' : (beNat a : Int) < 256 ^ b.length := by exact_mod_cast hla
  have hlb' : (beNat b : Int) < 256 ^ b.length := by exact_mod_cast hlb
  unfold signedValue at h
  rw [hlen] at h
  split at h <;> split at h <;> omega

end LaserSdk.Lib
