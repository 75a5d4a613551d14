import Mathlib.Data.Nat.Log
import Mathlib.Tactic.Ring
/-!
# Doubles and their shortest decimals

An integer of more than 53 bits is rounded to the nearest double. Of the
integers that round to a double, the shortest decimal is the one with the
fewest digits before its last zeros that lies closest to the double. There is
only one.
-/

namespace LaserSdk.Lib

/-! ## The nearest double -/

/-- The multiple of a power of two nearest to a number, a tie going to the even
one. -/
def roundAt (e n : Nat) : Nat :=
  if 2 * (n % 2 ^ e) > 2 ^ e ∨ (2 * (n % 2 ^ e) = 2 ^ e ∧ n / 2 ^ e % 2 = 1) then (n / 2 ^ e + 1) * 2 ^ e
  else n / 2 ^ e * 2 ^ e

/-- The bits of a number beyond 53. -/
def excess (n : Nat) : Nat := n.log2 + 1 - 53

def nearestDouble (n : Nat) : Nat := roundAt (excess n) n

theorem roundAt_of_dvd {e n : Nat} (h : 2 ^ e ∣ n) : roundAt e n = n := by
  have hpos : 0 < 2 ^ e := Nat.two_pow_pos e
  unfold roundAt
  rw [Nat.mod_eq_zero_of_dvd h, if_neg (by omega), Nat.div_mul_cancel h]

theorem roundAt_mono (e : Nat) {m n : Nat} (h : m ≤ n) : roundAt e m ≤ roundAt e n := by
  have hquotient : m / 2 ^ e ≤ n / 2 ^ e := Nat.div_le_div_right h
  have hm := Nat.div_add_mod m (2 ^ e)
  have hn := Nat.div_add_mod n (2 ^ e)
  unfold roundAt
  generalize hp : 2 ^ e = p at *
  generalize m / p = q at *
  generalize n / p = r at *
  rcases Nat.lt_or_ge q r with hlt | hge
  · have hstep : (q + 1) * p ≤ r * p := Nat.mul_le_mul_right p hlt
    have hsmall : q * p ≤ (q + 1) * p := Nat.mul_le_mul_right p (by omega)
    have hlarge : r * p ≤ (r + 1) * p := Nat.mul_le_mul_right p (by omega)
    split_ifs <;> omega
  · obtain rfl : q = r := by omega
    have hrest : m % p ≤ n % p := by omega
    have hsmall : q * p ≤ (q + 1) * p := Nat.mul_le_mul_right p (by omega)
    split_ifs <;> omega

theorem le_roundAt (e n : Nat) : n / 2 ^ e * 2 ^ e ≤ roundAt e n := by
  unfold roundAt
  have hstep : n / 2 ^ e * 2 ^ e ≤ (n / 2 ^ e + 1) * 2 ^ e := Nat.mul_le_mul_right _ (by omega)
  split_ifs <;> omega

theorem roundAt_le (e n : Nat) : roundAt e n ≤ (n / 2 ^ e + 1) * 2 ^ e := by
  unfold roundAt
  have hstep : n / 2 ^ e * 2 ^ e ≤ (n / 2 ^ e + 1) * 2 ^ e := Nat.mul_le_mul_right _ (by omega)
  split_ifs <;> omega

theorem dvd_roundAt (e n : Nat) : 2 ^ e ∣ roundAt e n := by
  unfold roundAt
  split_ifs <;> exact Nat.dvd_mul_left _ _

theorem lt_excess (n : Nat) : n < 2 ^ (53 + excess n) := by
  have hlog : n < 2 ^ (n.log2 + 1) := Nat.lt_log2_self
  exact hlog.trans_le (Nat.pow_le_pow_right (by omega) (by unfold excess; omega))

theorem excess_le {n : Nat} (h : 0 < excess n) : 2 ^ (52 + excess n) ≤ n := by
  unfold excess at h ⊢
  have hne : n ≠ 0 := by
    rintro rfl
    simp at h
  have hlog := Nat.log2_self_le hne
  have hexponent : 52 + (n.log2 + 1 - 53) = n.log2 := by omega
  rwa [hexponent]

theorem nearestDouble_le (n : Nat) : nearestDouble n ≤ 2 ^ (53 + excess n) := by
  have hquotient : n / 2 ^ excess n < 2 ^ 53 := by
    rw [Nat.div_lt_iff_lt_mul (Nat.two_pow_pos _), ← Nat.pow_add]
    exact lt_excess n
  calc nearestDouble n ≤ (n / 2 ^ excess n + 1) * 2 ^ excess n := roundAt_le _ n
    _ ≤ 2 ^ 53 * 2 ^ excess n := Nat.mul_le_mul_right _ hquotient
    _ = 2 ^ (53 + excess n) := (Nat.pow_add 2 53 _).symm

theorem le_nearestDouble {n : Nat} (h : 0 < excess n) : 2 ^ (52 + excess n) ≤ nearestDouble n := by
  have hquotient : 2 ^ 52 ≤ n / 2 ^ excess n := by
    rw [Nat.le_div_iff_mul_le (Nat.two_pow_pos _), ← Nat.pow_add]
    exact excess_le h
  calc 2 ^ (52 + excess n) = 2 ^ 52 * 2 ^ excess n := Nat.pow_add 2 52 _
    _ ≤ n / 2 ^ excess n * 2 ^ excess n := Nat.mul_le_mul_right _ hquotient
    _ ≤ nearestDouble n := le_roundAt _ n

theorem nearestDouble_of_excess {n : Nat} (h : excess n = 0) : nearestDouble n = n := by
  rw [nearestDouble, h]
  exact roundAt_of_dvd (Nat.one_dvd n)

theorem excess_mono {m n : Nat} (h : m ≤ n) : excess m ≤ excess n := by
  by_contra hlt
  have hlow := excess_le (show 0 < excess m by omega)
  have hhigh := lt_excess n
  have hgrow : 2 ^ (53 + excess n) ≤ 2 ^ (52 + excess m) := Nat.pow_le_pow_right (by omega) (by omega)
  omega

theorem nearestDouble_mono {m n : Nat} (h : m ≤ n) : nearestDouble m ≤ nearestDouble n := by
  rcases Nat.eq_or_lt_of_le (excess_mono h) with heq | hlt
  · rw [nearestDouble, nearestDouble, heq]
    exact roundAt_mono _ h
  · calc nearestDouble m ≤ 2 ^ (53 + excess m) := nearestDouble_le m
      _ ≤ 2 ^ (52 + excess n) := Nat.pow_le_pow_right (by omega) (by omega)
      _ ≤ nearestDouble n := le_nearestDouble (by omega)

/-- Integers of at most 53 bits are doubles, and nothing else rounds to them. -/
theorem eq_of_nearestDouble_lt {m n : Nat} (hn : n < 2 ^ 53) (h : nearestDouble m = n) : m = n := by
  rcases Nat.eq_zero_or_pos (excess m) with hzero | hpos
  · rw [← h, nearestDouble_of_excess hzero]
  · have hlow := le_nearestDouble hpos
    have hgrow : 2 ^ 53 ≤ 2 ^ (52 + excess m) := Nat.pow_le_pow_right (by omega) (by omega)
    omega

theorem nearestDouble_of_lt {n : Nat} (h : n < 2 ^ 53) : nearestDouble n = n := by
  apply nearestDouble_of_excess
  by_contra hpos
  have hlow := excess_le (show 0 < excess n by omega)
  have hgrow : 2 ^ 53 ≤ 2 ^ (52 + excess n) := Nat.pow_le_pow_right (by omega) (by omega)
  omega

/-! ## The shortest decimal -/

/-- An integer written with so many digits before its last zeros. -/
def FitsDigits (k n : Nat) : Prop := ∃ digits zeros, n = digits * 10 ^ zeros ∧ digits < 10 ^ k

def distance (m n : Nat) : Nat := (m - n) + (n - m)

/-- The integer ECMAScript writes for a double: one with the fewest digits that
rounds to it, of these the closest to it, and of two such the even one. -/
structure Shortest (double n : Nat) : Prop where
  rounds : nearestDouble n = double
  fewest : ∀ m k, nearestDouble m = double → FitsDigits k m → FitsDigits k n
  closest : ∀ m, nearestDouble m = double → (∀ k, FitsDigits k n → FitsDigits k m) →
    distance n double ≤ distance m double
  even : ∀ m, nearestDouble m = double → (∀ k, FitsDigits k n → FitsDigits k m) →
    distance n double = distance m double → m ≠ n →
    ∃ digits zeros, n = digits * 10 ^ zeros ∧ ¬ 10 ∣ digits ∧ digits % 2 = 0

theorem fitsDigits_iff {digits : Nat} (h : ¬ 10 ∣ digits) (zeros k : Nat) :
    FitsDigits k (digits * 10 ^ zeros) ↔ digits < 10 ^ k := by
  constructor
  · rintro ⟨digits', zeros', heq, hlt⟩
    rcases Nat.lt_or_ge zeros zeros' with hgt | hle
    · obtain ⟨more, rfl⟩ := Nat.exists_eq_add_of_lt hgt
      have hdigits : digits = digits' * 10 ^ more * 10 := by
        apply Nat.eq_of_mul_eq_mul_right (Nat.pow_pos (n := zeros) (show 0 < 10 by omega))
        rw [heq]
        ring
      exact absurd ⟨_, hdigits.trans (Nat.mul_comm _ _)⟩ h
    · obtain ⟨more, rfl⟩ := Nat.exists_eq_add_of_le hle
      have hdigits : digits * 10 ^ more = digits' := by
        apply Nat.eq_of_mul_eq_mul_right (Nat.pow_pos (n := zeros') (show 0 < 10 by omega))
        rw [← heq, Nat.pow_add]
        ring
      have hgrow : digits ≤ digits * 10 ^ more := Nat.le_mul_of_pos_right _ (Nat.pow_pos (by omega))
      omega
  · intro hlt
    exact ⟨digits, zeros, rfl, hlt⟩

/-- Between as many digits with fewer and with more zeros lies a power of ten. -/
theorem power_between {s t y z : Nat} (hs : s ≠ 0) (hsame : ∀ k, s < 10 ^ k ↔ t < 10 ^ k) (hzeros : z < y) :
    ∃ p, s * 10 ^ z < 10 ^ p ∧ 10 ^ p ≤ t * 10 ^ y := by
  have hup : s < 10 ^ (Nat.log 10 s + 1) := Nat.lt_pow_succ_log_self (by omega) s
  have hdown : 10 ^ Nat.log 10 s ≤ t := by
    rw [← Nat.not_lt, ← hsame, Nat.not_lt]
    exact Nat.pow_log_le_self 10 hs
  generalize Nat.log 10 s = k at hup hdown
  refine ⟨k + 1 + z, ?_, ?_⟩
  · rw [Nat.pow_add]
    exact Nat.mul_lt_mul_of_pos_right hup (Nat.pow_pos (by omega))
  · calc 10 ^ (k + 1 + z) ≤ 10 ^ (k + y) := Nat.pow_le_pow_right (by omega) (by omega)
      _ = 10 ^ k * 10 ^ y := Nat.pow_add 10 k y
      _ ≤ t * 10 ^ y := Nat.mul_le_mul_right _ hdown

/-- The digits of a power of ten. -/
theorem digits_of_pow {digits zeros p : Nat} (hdigits : ¬ 10 ∣ digits) (h : 10 ^ p = digits * 10 ^ zeros) : digits = 1 := by
  rcases Nat.lt_or_ge zeros p with hlt | hge
  · obtain ⟨more, rfl⟩ := Nat.exists_eq_add_of_lt hlt
    have hpower : 10 ^ (more + 1) = digits := by
      apply Nat.eq_of_mul_eq_mul_right (Nat.pow_pos (n := zeros) (show 0 < 10 by omega))
      rw [← h]
      ring
    exact absurd ⟨10 ^ more, by rw [← hpower, Nat.pow_succ, Nat.mul_comm]⟩ hdigits
  · have hle : digits * 10 ^ zeros ≤ 1 * 10 ^ zeros := by
      rw [← h, Nat.one_mul]
      exact Nat.pow_le_pow_right (by omega) hge
    have hone : digits ≤ 1 := Nat.le_of_mul_le_mul_right hle (Nat.pow_pos (by omega))
    have hzero : digits ≠ 0 := by
      rintro rfl
      exact hdigits ⟨0, rfl⟩
    omega

/-- Two shortest decimals do not lie on both sides of a double. -/
theorem Shortest.not_lt {double m n : Nat} (hm : Shortest double m) (hn : Shortest double n) : ¬ m < n := by
  intro hlt
  have hfits (k : Nat) : FitsDigits k m ↔ FitsDigits k n := ⟨hn.fewest m k hm.rounds, hm.fewest n k hn.rounds⟩
  have hdistance : distance m double = distance n double :=
    Nat.le_antisymm (hm.closest n hn.rounds fun k => (hfits k).1) (hn.closest m hm.rounds fun k => (hfits k).2)
  obtain ⟨s, z, hms, hs, hseven⟩ := hm.even n hn.rounds (fun k => (hfits k).1) hdistance (by omega)
  obtain ⟨t, y, hnt, ht, hteven⟩ := hn.even m hm.rounds (fun k => (hfits k).2) hdistance.symm (by omega)
  have hsame (k : Nat) : s < 10 ^ k ↔ t < 10 ^ k := by
    rw [← fitsDigits_iff hs z, ← fitsDigits_iff ht y, ← hms, ← hnt, hfits]
  have hmiddle : double + double = m + n ∧ m < double := by
    unfold distance at hdistance
    omega
  -- Nothing with as few digits lies strictly between the two.
  have hnone (p : Nat) (hlow : m < p) (hhigh : p < n) (hdigits : ∀ k, FitsDigits k m → FitsDigits k p) : False := by
    have hrounds : nearestDouble p = double := by
      apply Nat.le_antisymm
      · rw [← hn.rounds]
        exact nearestDouble_mono (by omega)
      · rw [← hm.rounds]
        exact nearestDouble_mono (by omega)
    have hclosest := hm.closest p hrounds hdigits
    unfold distance at hclosest
    omega
  have hpos : s ≠ 0 ∧ t ≠ 0 := by
    constructor
    · rintro rfl
      exact hs ⟨0, rfl⟩
    · rintro rfl
      exact ht ⟨0, rfl⟩
  rcases Nat.lt_trichotomy z y with hzy | rfl | hzy
  · -- A power of ten follows the first, and can only be the second.
    obtain ⟨p, hlow, hhigh⟩ := power_between hpos.1 hsame hzy
    rw [← hms] at hlow
    rw [← hnt] at hhigh
    rcases Nat.eq_or_lt_of_le hhigh with heq | hbelow
    · have hone := digits_of_pow ht (heq.trans hnt)
      omega
    · refine hnone (10 ^ p) hlow hbelow ?_
      intro k hk
      rw [hms, fitsDigits_iff hs] at hk
      exact ⟨1, p, (Nat.one_mul _).symm, by omega⟩
  · -- The double itself is as short.
    have hdouble : double = (s + t) / 2 * 10 ^ z := by
      have hhalf : (s + t) / 2 + (s + t) / 2 = s + t := by omega
      have : double + double = (s + t) / 2 * 10 ^ z + (s + t) / 2 * 10 ^ z := by
        rw [← Nat.add_mul, hhalf, Nat.add_mul, ← hms, ← hnt]
        exact hmiddle.1
      omega
    refine hnone double hmiddle.2 (by omega) ?_
    intro k hk
    rw [hms, fitsDigits_iff hs] at hk
    have hk' := (hsame k).1 hk
    exact ⟨_, z, hdouble, by omega⟩
  · -- More zeros behind as many digits make a larger number.
    obtain ⟨p, hlow, hhigh⟩ := power_between hpos.2 (fun k => (hsame k).symm) hzy
    omega

theorem Shortest.unique {double m n : Nat} (hm : Shortest double m) (hn : Shortest double n) : m = n :=
  Nat.le_antisymm (Nat.not_lt.1 (hn.not_lt hm)) (Nat.not_lt.1 (hm.not_lt hn))

/-- Integers of at most 53 bits are written with all their digits. -/
theorem shortest_of_lt {n : Nat} (h : n < 2 ^ 53) : Shortest (nearestDouble n) n := by
  rw [nearestDouble_of_lt h]
  refine ⟨nearestDouble_of_lt h, ?_, ?_, ?_⟩
  · intro m k hm hfits
    rwa [← eq_of_nearestDouble_lt h hm]
  · intro m hm _
    rw [eq_of_nearestDouble_lt h hm]
  · intro m hm _ _ hne
    exact absurd (eq_of_nearestDouble_lt h hm) hne

end LaserSdk.Lib
