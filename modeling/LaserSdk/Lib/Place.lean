import Mathlib.Algebra.Order.Ring.Nat
import Mathlib.Data.List.Induction
import Mathlib.Data.List.Lex
import Mathlib.Tactic.Linarith
import Mathlib.Tactic.Ring
/-!
# Numbers of a fixed width

A number is written in base `b` with a fixed number of digits, the highest
first. Writing and reading are inverse to each other, and numbers of one width
compare as their digits do from the left.
-/

namespace LaserSdk.Lib

variable {b : Nat}

def placeValue (b : Nat) (digits : List Nat) : Nat := digits.foldl (fun n digit => b * n + digit) 0

/-- The lowest `width` digits of `n`. -/
def placeDigits (b : Nat) : Nat → Nat → List Nat
  | 0, _ => []
  | width + 1, n => placeDigits b width (n / b) ++ [n % b]

@[simp] theorem placeValue_nil : placeValue b [] = 0 := rfl

@[simp] theorem placeValue_snoc (digits : List Nat) (digit : Nat) :
    placeValue b (digits ++ [digit]) = b * placeValue b digits + digit := by
  simp [placeValue, List.foldl_append]

@[simp] theorem length_placeDigits (width n : Nat) : (placeDigits b width n).length = width := by
  induction width generalizing n with
  | zero => rfl
  | succ width ih => simp [placeDigits, ih]

theorem placeDigits_lt (hb : 0 < b) (width n : Nat) : ∀ digit ∈ placeDigits b width n, digit < b := by
  induction width generalizing n with
  | zero => simp [placeDigits]
  | succ width ih =>
    intro digit hdigit
    rcases List.mem_append.1 hdigit with hhigh | hlow
    · exact ih _ digit hhigh
    · rw [List.mem_singleton.1 hlow]
      exact Nat.mod_lt n hb

theorem placeValue_placeDigits (width n : Nat) : placeValue b (placeDigits b width n) = n % b ^ width := by
  induction width generalizing n with
  | zero => simp [placeDigits, Nat.mod_one]
  | succ width ih => rw [placeDigits, placeValue_snoc, ih, Nat.pow_succ', Nat.mod_mul, Nat.add_comm]

/-- Digits are read back from their number. -/
theorem placeDigits_placeValue {digits : List Nat} (h : ∀ digit ∈ digits, digit < b) :
    placeDigits b digits.length (placeValue b digits) = digits := by
  induction digits using List.reverseRecOn with
  | nil => rfl
  | append_singleton digits digit ih =>
    have hdigit : digit < b := h digit (by simp)
    have hrest := ih fun other hother => h other (List.mem_append_left _ hother)
    have hquotient : (b * placeValue b digits + digit) / b = placeValue b digits := by
      rw [Nat.mul_add_div (by omega), Nat.div_eq_of_lt hdigit, Nat.add_zero]
    have hremainder : (b * placeValue b digits + digit) % b = digit := by
      rw [Nat.mul_add_mod, Nat.mod_eq_of_lt hdigit]
    rw [List.length_append, List.length_singleton, placeDigits, placeValue_snoc, hquotient, hremainder, hrest]

theorem placeValue_lt {digits : List Nat} (h : ∀ digit ∈ digits, digit < b) : placeValue b digits < b ^ digits.length := by
  induction digits using List.reverseRecOn with
  | nil => simp
  | append_singleton digits digit ih =>
    have hdigit : digit < b := h digit (by simp)
    have hrest := ih fun other hother => h other (List.mem_append_left _ hother)
    have hstep : b * (placeValue b digits + 1) ≤ b * b ^ digits.length := Nat.mul_le_mul_left _ hrest
    rw [placeValue_snoc, List.length_append, List.length_singleton, Nat.pow_succ']
    linarith

theorem placeValue_cons (digit : Nat) (digits : List Nat) :
    placeValue b (digit :: digits) = digit * b ^ digits.length + placeValue b digits := by
  induction digits using List.reverseRecOn with
  | nil => simp [placeValue]
  | append_singleton digits last ih =>
    rw [← List.cons_append, placeValue_snoc, ih, placeValue_snoc, List.length_append, List.length_singleton,
      Nat.pow_succ']
    ring

/-- Numbers of one width compare from the left. -/
theorem lt_iff_placeValue_lt {ds es : List Nat} (hd : ∀ digit ∈ ds, digit < b) (he : ∀ digit ∈ es, digit < b)
    (hlength : ds.length = es.length) : ds < es ↔ placeValue b ds < placeValue b es := by
  induction ds generalizing es with
  | nil =>
    rw [List.length_eq_zero_iff.1 hlength.symm]
    simp
  | cons d ds ih =>
    cases es with
    | nil => cases hlength
    | cons e es =>
      have hrest := ih (fun x hx => hd x (List.mem_cons_of_mem _ hx)) (fun x hx => he x (List.mem_cons_of_mem _ hx))
        (Nat.succ.inj hlength)
      have hlow := placeValue_lt fun x hx => hd x (List.mem_cons_of_mem _ hx)
      have hlow' := placeValue_lt fun x hx => he x (List.mem_cons_of_mem _ hx)
      rw [← Nat.succ.inj hlength] at hlow'
      rw [List.cons_lt_cons_iff, placeValue_cons, placeValue_cons, ← Nat.succ.inj hlength, hrest]
      rcases Nat.lt_trichotomy d e with hlt | rfl | hgt
      · have hstep : (d + 1) * b ^ ds.length ≤ e * b ^ ds.length := Nat.mul_le_mul_right _ hlt
        exact iff_of_true (.inl hlt) (by linarith)
      · simp
      · have hstep : (e + 1) * b ^ ds.length ≤ d * b ^ ds.length := Nat.mul_le_mul_right _ hgt
        refine iff_of_false ?_ (by linarith)
        rintro (h | ⟨h, -⟩) <;> omega

/-- Letters in the order of the digits keep the order. -/
theorem map_lt_map_iff {α : Type} [LT α] {f : Nat → α} (hf : ∀ d < b, ∀ e < b, (f d < f e ↔ d < e)) {ds es : List Nat}
    (hd : ∀ digit ∈ ds, digit < b) (he : ∀ digit ∈ es, digit < b) : ds.map f < es.map f ↔ ds < es := by
  induction ds generalizing es with
  | nil => cases es <;> simp
  | cons d ds ih =>
    cases es with
    | nil => simp
    | cons e es =>
      obtain ⟨hd, hds⟩ := List.forall_mem_cons.1 hd
      obtain ⟨he, hes⟩ := List.forall_mem_cons.1 he
      have hlt := hf d hd e he
      have hgt := hf e he d hd
      have heq : f d = f e ↔ d = e := by
        refine ⟨fun h => ?_, fun h => by rw [h]⟩
        rw [h] at hlt hgt
        have hboth := hlt.symm.trans hgt
        omega
      rw [List.map_cons, List.map_cons, List.cons_lt_cons_iff, List.cons_lt_cons_iff, hlt, heq, ih hds hes]

end LaserSdk.Lib
