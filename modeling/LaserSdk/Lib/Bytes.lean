import Mathlib.Algebra.Order.Group.Nat
import Mathlib.Tactic.Common
/-!
# Self-delimiting writers

A writer relates a value to what it writes for it. It is self-delimiting when
the value and the rest can both be read back from what it wrote with anything
after it. Writers that end where they do by their own content can follow each
other without a separator.
-/

namespace LaserSdk.Lib

variable {α β : Type}

/-- What is written for a value tells the value and where it ends. -/
def SelfDelimiting (writes : α → List β → Prop) : Prop :=
  ∀ a b x y, writes a x → writes b y → ∀ r s, x ++ r = y ++ s → a = b ∧ r = s

theorem SelfDelimiting.injective {writes : α → List β → Prop} (h : SelfDelimiting writes) {a b : α} {x : List β}
    (ha : writes a x) (hb : writes b x) : a = b :=
  (h a b x x ha hb [] [] rfl).1

/-- Values written apart from each other with one length. -/
theorem SelfDelimiting.of_length {writes : α → List β → Prop} (hinj : ∀ a b x, writes a x → writes b x → a = b)
    (hlen : ∀ a b x y, writes a x → writes b y → x.length = y.length) : SelfDelimiting writes := by
  intro a b x y ha hb r s h
  obtain ⟨rfl, hrest⟩ := List.append_inj h (hlen a b x y ha hb)
  exact ⟨hinj a b x ha hb, hrest⟩

/-! ## Big-endian numbers -/

/-- The lowest `width` bytes of `n`, the highest first. -/
def beBytes : Nat → Nat → List UInt8
  | 0, _ => []
  | width + 1, n => UInt8.ofNat (n / 256 ^ width) :: beBytes width n

@[simp] theorem length_beBytes (width n : Nat) : (beBytes width n).length = width := by
  induction width with
  | zero => rfl
  | succ width ih => simp [beBytes, ih]

theorem beBytes_mod {width n m : Nat} (h : beBytes width n = beBytes width m) : n % 256 ^ width = m % 256 ^ width := by
  induction width with
  | zero => simp [Nat.mod_one]
  | succ width ih =>
    obtain ⟨hhead, htail⟩ := List.cons.inj h
    have hdigit : n / 256 ^ width % 256 = m / 256 ^ width % 256 := by
      simpa using congrArg UInt8.toNat hhead
    rw [Nat.pow_succ, Nat.mod_mul, Nat.mod_mul, ih htail, hdigit]

theorem beBytes_inj {width n m : Nat} (hn : n < 256 ^ width) (hm : m < 256 ^ width) (h : beBytes width n = beBytes width m) :
    n = m := by
  have hmod := beBytes_mod h
  rwa [Nat.mod_eq_of_lt hn, Nat.mod_eq_of_lt hm] at hmod

/-- A number of a fixed width. -/
theorem beBytes_selfDelimiting (width : Nat) : SelfDelimiting fun n x => n < 256 ^ width ∧ x = beBytes width n := by
  refine .of_length ?_ ?_
  · rintro n m x ⟨hn, rfl⟩ ⟨hm, h⟩
    exact beBytes_inj hn hm h
  · rintro n m x y ⟨-, rfl⟩ ⟨-, rfl⟩
    simp

/-- Bytes after their own number, of a fixed width. -/
theorem sized_selfDelimiting (width : Nat) :
    SelfDelimiting fun bytes x => bytes.length < 256 ^ width ∧ x = beBytes width bytes.length ++ bytes := by
  rintro a b x y ⟨ha, rfl⟩ ⟨hb, rfl⟩ r s h
  simp only [List.append_assoc] at h
  obtain ⟨hlen, hrest⟩ := beBytes_selfDelimiting width _ _ _ _ ⟨ha, rfl⟩ ⟨hb, rfl⟩ _ _ h
  exact List.append_inj hrest hlen

end LaserSdk.Lib
