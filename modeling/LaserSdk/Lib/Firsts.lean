import Mathlib.Data.List.Nodup
/-!
# First occurrences

A log that takes the start of a batch again and again holds repeats. What
`List.eraseDups` keeps, the first occurrence of each element, grows through
the batch in order.
-/

namespace LaserSdk.Lib

variable {α : Type} [DecidableEq α]

theorem eraseDups_of_nodup {l : List α} (h : l.Nodup) : l.eraseDups = l := by
  induction l with
  | nil => rfl
  | cons a rest ih =>
    obtain ⟨hnew, hrest⟩ := List.nodup_cons.1 h
    rw [List.eraseDups_cons, List.filter_eq_self.2, ih hrest]
    intro b hb
    have hne : b ≠ a := fun heq => hnew (heq ▸ hb)
    simp [hne]

/-- Of the first `m` elements, those not among the first `k`. -/
theorem filter_take_drop {l : List α} (h : l.Nodup) (k m : Nat) :
    (l.take m).filter (fun x => decide (x ∉ l.take k)) = (l.take m).drop k := by
  have hsplit : l.take m = l.take (min k m) ++ (l.take m).drop k := by
    rw [← List.take_take, List.take_append_drop]
  conv_lhs => rw [hsplit]
  rw [List.filter_append, List.filter_eq_nil_iff.2, List.filter_eq_self.2, List.nil_append]
  · intro x hx
    rw [decide_eq_true_iff]
    intro hearly
    rw [List.drop_take] at hx
    exact (List.disjoint_take_drop h (Nat.le_refl k)) hearly (List.mem_of_mem_take hx)
  · intro x hx
    rw [Nat.min_comm, ← List.take_take] at hx
    simpa using List.mem_of_mem_take hx

/-- A log that holds the first `k` elements of a batch, beside others, and
takes its first `m` holds the first `max k m`. -/
theorem eraseDups_append_take {log seen batch : List α} {k : Nat} (hlog : log.eraseDups = seen ++ batch.take k)
    (h : (seen ++ batch).Nodup) (m : Nat) : (log ++ batch.take m).eraseDups = seen ++ batch.take (max k m) := by
  obtain ⟨_, hbatch, hdisjoint⟩ := List.nodup_append'.1 h
  have hnew : (batch.take m).removeAll log = (batch.take m).drop k := by
    rw [← filter_take_drop hbatch, List.removeAll]
    apply List.filter_congr
    intro x hx
    have hmem : x ∈ log ↔ x ∈ batch.take k := by
      rw [← List.mem_eraseDups, hlog, List.mem_append]
      exact or_iff_right fun hseen => hdisjoint hseen (List.mem_of_mem_take hx)
    simp [hmem]
  rw [List.eraseDups_append, hnew, hlog, eraseDups_of_nodup ((hbatch.sublist (List.take_sublist _ _)).sublist
    (List.drop_sublist _ _)), List.append_assoc]
  congr 1
  rcases Nat.le_total k m with hle | hle
  · have htake : batch.take k = (batch.take m).take k := by rw [List.take_take, Nat.min_eq_left hle]
    rw [Nat.max_eq_right hle, htake, List.take_append_drop]
  · have hnil : (batch.take m).drop k = [] := by
      apply List.drop_of_length_le
      rw [List.length_take]
      omega
    rw [Nat.max_eq_left hle, hnil, List.append_nil]

end LaserSdk.Lib
