import Mathlib.Data.List.Nodup
/-!
# A bounded window of keys

The newest keys seen, oldest first, each with a tag its inserter leaves. A
key the window holds is not taken again. A full window gives up its oldest
key. No decision reads the tag: it is there to say, in a proof, whom a key
came from.
-/

namespace LaserSdk.Lib

structure Window (κ τ : Type) where
  capacity : Nat
  order : List (κ × τ)
  pos : 0 < capacity
  fits : order.length ≤ capacity
  distinct : (order.map (·.1)).Nodup

namespace Window

variable {κ τ : Type}

/-- A window that remembers at least one key. -/
def new (capacity : Nat) : Window κ τ where
  capacity := max capacity 1
  order := []
  pos := by omega
  fits := by simp
  distinct := by simp

/-- What is left of the window once there is room for one more key. -/
def room (w : Window κ τ) : List (κ × τ) := if w.capacity ≤ w.order.length then w.order.tail else w.order

theorem room_sublist (w : Window κ τ) : w.room.Sublist w.order := by
  unfold room
  split
  · exact List.tail_sublist _
  · exact List.Sublist.refl _

theorem room_length (w : Window κ τ) : w.room.length + 1 ≤ w.capacity := by
  have := w.pos
  have := w.fits
  unfold room
  split
  · rw [List.length_tail]
    omega
  · omega

variable [DecidableEq κ]

/-- The tag a key was inserted with. -/
def holder (w : Window κ τ) (key : κ) : Option τ := w.order.lookup key

/-- Whether the key was new, and the window that holds it. -/
def insert (w : Window κ τ) (key : κ) (tag : τ) : Bool × Window κ τ :=
  if h : key ∈ w.order.map (·.1) then (false, w)
  else (true,
    { capacity := w.capacity
      order := w.room ++ [(key, tag)]
      pos := w.pos
      fits := by simpa using w.room_length
      distinct := by
        have hroom : (w.room.map (·.1)).Sublist (w.order.map (·.1)) := w.room_sublist.map _
        rw [List.map_append, List.map_singleton, ← List.concat_eq_append]
        exact (hroom.nodup w.distinct).concat fun hmem => h (hroom.mem hmem) })

theorem mem_of_holder {w : Window κ τ} {key : κ} {tag : τ} (h : w.holder key = some tag) :
    (key, tag) ∈ w.order := by
  obtain ⟨before, after, horder, _⟩ := List.lookup_eq_some_iff.1 h
  rw [horder]
  exact List.mem_append_right _ List.mem_cons_self

theorem holder_eq_none_iff (w : Window κ τ) (key : κ) : w.holder key = none ↔ key ∉ w.order.map (·.1) := by
  rw [holder, List.lookup_eq_none_iff]
  simp only [List.mem_map, Prod.exists, exists_and_right, exists_eq_right, not_exists, Prod.forall, bne_iff_ne, ne_eq]
  constructor
  · intro h tag hmem
    exact h key tag hmem rfl
  · rintro h k tag hmem rfl
    exact h tag hmem

/-- A key is new exactly when the window holds no tag for it. -/
theorem insert_fst (w : Window κ τ) (key : κ) (tag : τ) : (w.insert key tag).1 = (w.holder key).isNone := by
  unfold insert
  split
  next h =>
    cases hholder : w.holder key with
    | none => exact absurd h ((holder_eq_none_iff w key).1 hholder)
    | some tag => rfl
  next h => rw [(holder_eq_none_iff w key).2 h]; rfl

/-- What holds of every entry and of the new one holds after an insertion. -/
theorem forall_insert {P : κ → τ → Prop} {w : Window κ τ} {key : κ} {tag : τ}
    (hw : ∀ k t, (k, t) ∈ w.order → P k t) (hnew : P key tag) :
    ∀ k t, (k, t) ∈ (w.insert key tag).2.order → P k t := by
  intro k t hmem
  unfold insert at hmem
  split at hmem
  next => exact hw k t hmem
  next =>
    rcases List.mem_append.1 hmem with hold | hadded
    · exact hw k t (w.room_sublist.mem hold)
    · cases List.mem_singleton.1 hadded
      exact hnew

end Window

end LaserSdk.Lib
