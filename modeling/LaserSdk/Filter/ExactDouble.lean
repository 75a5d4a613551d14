import Mathlib.Data.Nat.Log
import Mathlib.Tactic.Ring
import LaserSdk.Filter.Value
/-!
# Exact doubles

An integer is compared with a double only when a double equals it. The code
decides this from the bits of the magnitude: at most 53 of them lie between the
highest and the lowest one.
-/

namespace LaserSdk.Filter

/-- The integers that a double of 53 bits holds without rounding. -/
def Representable (value : Int) : Prop := ∃ m e : Nat, value.natAbs = m * 2 ^ e ∧ m < 2 ^ 53

theorem two_pow_succ_dvd_iff (n k : Nat) : 2 ^ (k + 1) ∣ n ↔ n % 2 = 0 ∧ 2 ^ k ∣ n / 2 := by
  constructor
  · rintro ⟨q, rfl⟩
    have hdouble : 2 ^ (k + 1) * q = 2 * (2 ^ k * q) := by ring
    rw [hdouble, Nat.mul_mod_right, Nat.mul_div_cancel_left _ (by omega)]
    exact ⟨rfl, q, rfl⟩
  · rintro ⟨heven, q, hq⟩
    refine ⟨q, ?_⟩
    have hdouble : 2 ^ (k + 1) * q = 2 * (2 ^ k * q) := by ring
    omega

/-- The zero bits at the end are the powers of two that divide. -/
theorem le_trailingZeros {width k : Nat} (n : Nat) (hk : k ≤ width) : k ≤ trailingZeros width n ↔ 2 ^ k ∣ n := by
  induction width generalizing k n with
  | zero =>
    obtain rfl : k = 0 := by omega
    simp [trailingZeros]
  | succ width ih =>
    cases k with
    | zero => simp
    | succ k =>
      rw [two_pow_succ_dvd_iff, ← ih (n / 2) (by omega), trailingZeros]
      split <;> omega

theorem lt_two_pow_significantBits (n : Nat) : n < 2 ^ significantBits n := by
  unfold significantBits
  split
  · omega
  · exact Nat.lt_log2_self

theorem two_pow_le_of_significantBits {n : Nat} (h : 0 < significantBits n) : 2 ^ (significantBits n - 1) ≤ n := by
  unfold significantBits at h ⊢
  split at h
  · omega
  · rename_i hn
    rw [if_neg hn, Nat.add_sub_cancel]
    exact Nat.log2_self_le hn

theorem significantBits_le {n width : Nat} (h : n < 2 ^ width) : significantBits n ≤ width := by
  by_contra hlong
  have hlow := two_pow_le_of_significantBits (n := n) (by omega)
  have hgrow : 2 ^ width ≤ 2 ^ (significantBits n - 1) := Nat.pow_le_pow_right (by omega) (by omega)
  omega

/-- All but the 53 highest bits are zero exactly when 53 bits hold the number. -/
theorem dvd_iff_representable {n : Nat} :
    2 ^ (significantBits n - 53) ∣ n ↔ ∃ m e : Nat, n = m * 2 ^ e ∧ m < 2 ^ 53 := by
  constructor
  · rintro ⟨m, hm⟩
    refine ⟨m, significantBits n - 53, hm.trans (Nat.mul_comm _ _), ?_⟩
    have hlt := lt_two_pow_significantBits n
    by_contra hbig
    have hsplit : 2 ^ significantBits n ≤ 2 ^ (significantBits n - 53) * 2 ^ 53 := by
      rw [← Nat.pow_add]
      exact Nat.pow_le_pow_right (by omega) (by omega)
    have hmul := Nat.mul_le_mul_left (2 ^ (significantBits n - 53)) (Nat.not_lt.1 hbig)
    omega
  · rintro ⟨m, e, rfl, hm⟩
    refine Dvd.dvd.mul_left (Nat.pow_dvd_pow 2 ?_) m
    by_contra hshort
    -- a mantissa below `2 ^ 53` leaves no room for a higher bit
    have hlow := two_pow_le_of_significantBits (n := m * 2 ^ e) (by omega)
    have hhigh : m * 2 ^ e < 2 ^ 53 * 2 ^ e := Nat.mul_lt_mul_of_pos_right hm (Nat.two_pow_pos e)
    have hgrow : 2 ^ (53 + e) ≤ 2 ^ (significantBits (m * 2 ^ e) - 1) := Nat.pow_le_pow_right (by omega) (by omega)
    rw [Nat.pow_add] at hgrow
    omega

theorem exactDouble_isSome {value : Int} (h : value.natAbs < 2 ^ 128) :
    (exactDouble value).isSome = true ↔ Representable value := by
  have hbits := significantBits_le h
  rw [Representable, ← dvd_iff_representable, ← @le_trailingZeros 128 _ _ (by omega)]
  unfold exactDouble
  dsimp only
  split <;> simp <;> omega

/-- Of every `i128`, the code makes a double exactly when one equals it. -/
theorem exactDouble_iff_representable (value : BitVec 128) :
    (exactDouble value.toInt).isSome = true ↔ ∃ m e : Nat, value.toInt.natAbs = m * 2 ^ e ∧ m < 2 ^ 53 := by
  apply exactDouble_isSome
  have hlow := BitVec.le_toInt value
  have hhigh := BitVec.toInt_lt (x := value)
  omega

end LaserSdk.Filter
