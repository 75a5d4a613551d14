import Mathlib.Data.List.Sort
/-!
# Maps as sorted lists

A finite map is the list of its entries in the order of their keys, so that
maps with the same entries are equal. Insertion replaces the value of a key
the map holds.
-/

namespace LaserSdk.Lib

theorem mem_of_lookup {κ β : Type} [BEq κ] [LawfulBEq κ] {l : List (κ × β)} {k : κ} {v : β} (h : l.lookup k = some v) :
    (k, v) ∈ l := by
  obtain ⟨before, after, heq, _⟩ := List.lookup_eq_some_iff.1 h
  rw [heq]
  exact List.mem_append_right _ List.mem_cons_self

variable {κ β : Type} [LinearOrder κ]

def SortedKeys (l : List (κ × β)) : Prop := l.Pairwise fun x y => x.1 < y.1

def insertKey (k : κ) (v : β) : List (κ × β) → List (κ × β)
  | [] => [(k, v)]
  | (k', v') :: rest =>
    if k < k' then (k, v) :: (k', v') :: rest
    else if k = k' then (k, v) :: rest
    else (k', v') :: insertKey k v rest

def eraseKey (k : κ) (l : List (κ × β)) : List (κ × β) := l.filter fun x => decide (x.1 ≠ k)

theorem mem_insertKey {k : κ} {v : β} {l : List (κ × β)} {x : κ × β} (h : x ∈ insertKey k v l) : x = (k, v) ∨ x ∈ l := by
  induction l with
  | nil => exact .inl (List.mem_singleton.1 h)
  | cons y rest ih =>
    unfold insertKey at h
    split at h
    · rcases List.mem_cons.1 h with rfl | hmem
      · exact .inl rfl
      · exact .inr hmem
    · split at h
      · rcases List.mem_cons.1 h with rfl | hmem
        · exact .inl rfl
        · exact .inr (List.mem_cons_of_mem _ hmem)
      · rcases List.mem_cons.1 h with rfl | hmem
        · exact .inr List.mem_cons_self
        · exact (ih hmem).imp_right (List.mem_cons_of_mem _)

theorem SortedKeys.insertKey {l : List (κ × β)} (h : SortedKeys l) (k : κ) (v : β) : SortedKeys (insertKey k v l) := by
  induction l with
  | nil => exact List.pairwise_singleton _ _
  | cons y rest ih =>
    obtain ⟨hfirst, hrest⟩ := List.pairwise_cons.1 h
    unfold Lib.insertKey
    split
    next hlt =>
      refine List.pairwise_cons.2 ⟨fun x hx => ?_, h⟩
      rcases List.mem_cons.1 hx with rfl | hx
      · exact hlt
      · exact lt_trans hlt (hfirst x hx)
    next hle =>
      split
      next heq =>
        refine List.pairwise_cons.2 ⟨fun x hx => ?_, hrest⟩
        rw [heq]
        exact hfirst x hx
      next hne =>
        refine List.pairwise_cons.2 ⟨fun x hx => ?_, ih hrest⟩
        rcases mem_insertKey hx with rfl | hx
        · exact lt_of_le_of_ne (not_lt.1 hle) (Ne.symm hne)
        · exact hfirst x hx

theorem SortedKeys.eraseKey {l : List (κ × β)} (h : SortedKeys l) (k : κ) : SortedKeys (eraseKey k l) :=
  h.sublist List.filter_sublist

theorem SortedKeys.nodup {l : List (κ × β)} (h : SortedKeys l) : l.Nodup := by
  refine List.Pairwise.imp ?_ h
  rintro x y hlt rfl
  exact lt_irrefl _ hlt

/-- Sorted maps of one size are equal when one holds the entries of the
other. -/
theorem SortedKeys.eq_of_subset {l r : List (κ × β)} (hl : SortedKeys l) (hr : SortedKeys r) (hlength : l.length = r.length)
    (hsubset : l ⊆ r) : l = r := by
  have hnodup : l.Nodup := hl.nodup
  have hperm : l.Perm r := (List.subperm_of_subset hnodup hsubset).perm_of_length_le (Nat.le_of_eq hlength.symm)
  refine hperm.eq_of_pairwise (fun x y _ _ hxy hyx => ?_) hl hr
  exact absurd hyx (lt_asymm hxy)

theorem SortedKeys.lookup_of_mem {l : List (κ × β)} (h : SortedKeys l) {x : κ × β} (hx : x ∈ l) :
    l.lookup x.1 = some x.2 := by
  induction l with
  | nil => cases hx
  | cons y rest ih =>
    obtain ⟨hfirst, hrest⟩ := List.pairwise_cons.1 h
    rcases List.mem_cons.1 hx with rfl | hmem
    · rw [List.lookup_cons, beq_self_eq_true]
    · have hne : (x.1 == y.1) = false := beq_eq_false_iff_ne.2 (ne_of_gt (hfirst x hmem))
      rw [List.lookup_cons, hne]
      exact ih hrest hmem

@[simp] theorem lookup_insertKey (k : κ) (v : β) (l : List (κ × β)) : (insertKey k v l).lookup k = some v := by
  induction l with
  | nil => simp [insertKey]
  | cons y rest ih =>
    unfold insertKey
    split
    · simp
    · split
      · simp
      next hne =>
        rw [List.lookup_cons, beq_eq_false_iff_ne.2 hne]
        exact ih

theorem lookup_insertKey_ne {k k' : κ} (h : k' ≠ k) (v : β) (l : List (κ × β)) :
    (insertKey k v l).lookup k' = l.lookup k' := by
  induction l with
  | nil => simp [insertKey, List.lookup_cons, beq_eq_false_iff_ne.2 h]
  | cons y rest ih =>
    unfold insertKey
    split
    · rw [List.lookup_cons, beq_eq_false_iff_ne.2 h]
    · split
      next heq => rw [List.lookup_cons, List.lookup_cons, ← heq, beq_eq_false_iff_ne.2 h]
      next => rw [List.lookup_cons, List.lookup_cons, ih]

@[simp] theorem insertKey_insertKey (k : κ) (v w : β) (l : List (κ × β)) :
    insertKey k v (insertKey k w l) = insertKey k v l := by
  induction l with
  | nil => simp [insertKey]
  | cons y rest ih =>
    by_cases hlt : k < y.1
    · simp [insertKey, hlt]
    · by_cases heq : k = y.1
      · simp [insertKey, heq]
      · simp [insertKey, hlt, heq, ih]

theorem lookup_eraseKey (k k' : κ) (l : List (κ × β)) :
    (eraseKey k l).lookup k' = if k' = k then none else l.lookup k' := by
  induction l with
  | nil => simp [eraseKey]
  | cons y rest ih =>
    obtain ⟨key, value⟩ := y
    unfold eraseKey at ih ⊢
    by_cases hkey : key = k
    · subst hkey
      rw [List.filter_cons, if_neg (by simp), ih]
      by_cases h : k' = key
      · simp [h]
      · rw [if_neg h, if_neg h, List.lookup_cons, beq_eq_false_iff_ne.2 h]
    · rw [List.filter_cons, if_pos (by simpa using hkey), List.lookup_cons, List.lookup_cons, ih]
      by_cases h : k' = key
      · simp [h, hkey]
      · rw [beq_eq_false_iff_ne.2 h]

/-- A sorted map is its lookups. -/
theorem SortedKeys.ext {l r : List (κ × β)} (hl : SortedKeys l) (hr : SortedKeys r)
    (h : ∀ k, l.lookup k = r.lookup k) : l = r := by
  have hmem : ∀ x, x ∈ l ↔ x ∈ r := by
    intro x
    constructor
    · intro hx
      exact mem_of_lookup ((h x.1).symm.trans (hl.lookup_of_mem hx))
    · intro hx
      exact mem_of_lookup ((h x.1).trans (hr.lookup_of_mem hx))
  have hperm : l.Perm r := (List.perm_ext_iff_of_nodup hl.nodup hr.nodup).2 hmem
  refine hperm.eq_of_pairwise (fun x y _ _ hxy hyx => ?_) hl hr
  exact absurd hyx (lt_asymm hxy)

/-! ## Items as a map

The items of a list stand for a map from their keys to what they mean. Keys
need no order of their own. -/

section

variable {α κ β : Type} [DecidableEq κ] {key : α → κ} {meaning : α → β}

theorem lookup_item {l : List α} (hnodup : (l.map key).Nodup) {a : α} (ha : a ∈ l) :
    (l.map fun item => (key item, meaning item)).lookup (key a) = some (meaning a) := by
  induction l with
  | nil => cases ha
  | cons first rest ih =>
    obtain ⟨hfirst, hrest⟩ := List.nodup_cons.1 hnodup
    rw [List.map_cons, List.lookup_cons]
    rcases List.mem_cons.1 ha with rfl | hmem
    · simp
    · have hne : (key a == key first) = false := by
        rw [beq_eq_false_iff_ne]
        intro heq
        exact hfirst (heq ▸ List.mem_map_of_mem hmem)
      rw [hne]
      exact ih hrest hmem

theorem item_of_lookup {l : List α} {k : κ} {m : β} (h : (l.map fun item => (key item, meaning item)).lookup k = some m) :
    ∃ a ∈ l, key a = k ∧ meaning a = m := by
  obtain ⟨before, after, heq, -⟩ := List.lookup_eq_some_iff.1 h
  have hmem : (k, m) ∈ l.map fun item => (key item, meaning item) := by
    rw [heq]
    exact List.mem_append_right _ List.mem_cons_self
  obtain ⟨a, ha, hpair⟩ := List.mem_map.1 hmem
  exact ⟨a, ha, congrArg Prod.fst hpair, congrArg Prod.snd hpair⟩

/-- Two lists in one strict order that stand for the same map are equal, where
key and meaning tell an item. -/
theorem eq_of_lookup {order : α → α → Prop} (hasymm : ∀ a b, order a b → ¬ order b a) {l r : List α}
    (hl : l.Pairwise order) (hr : r.Pairwise order) (hkl : (l.map key).Nodup) (hkr : (r.map key).Nodup)
    (htell : ∀ a ∈ l, ∀ b ∈ r, key a = key b → meaning a = meaning b → a = b)
    (h : ∀ k, (l.map fun item => (key item, meaning item)).lookup k = (r.map fun item => (key item, meaning item)).lookup k) :
    l = r := by
  have hmem : ∀ x, x ∈ l ↔ x ∈ r := by
    intro x
    constructor
    · intro hx
      obtain ⟨b, hb, hkey, hmeaning⟩ := item_of_lookup ((h (key x)).symm.trans (lookup_item hkl hx))
      rwa [htell x hx b hb hkey.symm hmeaning.symm]
    · intro hx
      obtain ⟨a, ha, hkey, hmeaning⟩ := item_of_lookup ((h (key x)).trans (lookup_item hkr hx))
      rwa [← htell a ha x hx hkey hmeaning]
  have hperm : l.Perm r := (List.perm_ext_iff_of_nodup (List.Nodup.of_map _ hkl) (List.Nodup.of_map _ hkr)).2 hmem
  exact hperm.eq_of_pairwise (fun a b _ _ hab hba => absurd hba (hasymm a b hab)) hl hr

end

end LaserSdk.Lib
