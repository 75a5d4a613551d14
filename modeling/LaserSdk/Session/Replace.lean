import LaserSdk.Patch.Rfc
/-!
# Replacing a document

`replace` turns the wish for another document into a patch: it removes the
keys the next document drops and adds every key it holds. The patch is read
and applied as RFC 6902 has it, whatever the crate leaves of a removed root.
-/

namespace LaserSdk.Session.Replace

open Lib Patch

variable {ν : Type}

/-- An object: a map, in the order of its keys. -/
structure JsonObject (ν : Type) where
  members : List (String × Json ν)
  sorted : SortedKeys members

/-! ## The patch -/

/-- `str::replace` of a character. -/
def replaceChar (character : Char) (replacement : List Char) (text : List Char) : List Char :=
  text.flatMap fun c => if c = character then replacement else [c]

def pointer (key : String) : String :=
  String.ofList ('/' :: replaceChar '/' ['~', '1'] (replaceChar '~' ['~', '0'] key.toList))

/-- The keys the next object drops. -/
def dropped (current next : JsonObject ν) : List String :=
  (current.members.map (·.1)).filter fun key => (next.members.lookup key).isNone

def removeOperation (key : String) : Json ν := .object [("op", .string "remove"), ("path", .string (pointer key))]

def addOperation (member : String × Json ν) : Json ν :=
  .object [("op", .string "add"), ("path", .string (pointer member.1)), ("value", member.2)]

/-- The operations as JSON, which `from_value` reads as a patch. -/
def replacePatch (current next : JsonObject ν) : Json ν :=
  .array ((dropped current next).map removeOperation ++ next.members.map addOperation)

/-! ## Pointers -/

theorem replaceChar_escape (key : List Char) : replaceChar '/' ['~', '1'] (replaceChar '~' ['~', '0'] key) = escape key := by
  induction key with
  | nil => rfl
  | cons c rest ih =>
    unfold replaceChar at ih ⊢
    rw [List.flatMap_cons, List.flatMap_append, ih, escape]
    by_cases htilde : c = '~'
    · simp [htilde]
    · by_cases hslash : c = '/'
      · simp [hslash]
      · simp [htilde, hslash]

theorem slash_not_mem_escape (key : List Char) : '/' ∉ escape key := by
  induction key with
  | nil => simp [escape]
  | cons c rest ih =>
    unfold escape
    split
    · simpa using ih
    next htilde =>
      split
      · simpa using ih
      next hslash => simpa using ⟨Ne.symm hslash, ih⟩

theorem unescape_escape (key : List Char) : unescape (escape key) = some key := by
  induction key with
  | nil => rfl
  | cons c rest ih =>
    rw [escape]
    by_cases htilde : c = '~'
    · rw [if_pos htilde, unescape, if_pos rfl, ih, htilde]
      rfl
    · rw [if_neg htilde]
      by_cases hslash : c = '/'
      · rw [if_pos hslash, unescape, if_pos rfl, ih, hslash]
        rfl
      · rw [if_neg hslash, unescape_cons htilde, ih]
        rfl

/-- A text without slashes is one part. -/
theorem segments_of_no_slash {text : List Char} (h : '/' ∉ text) : segments text = [text] := by
  induction text with
  | nil => rfl
  | cons c rest ih =>
    rw [List.mem_cons, not_or] at h
    rw [segments, if_neg (Ne.symm h.1), ih h.2]

/-- The pointer to a key has the key as its only token. -/
theorem parsePointer_pointer (key : String) : parsePointer (pointer key) = some [key] := by
  rw [pointer, replaceChar_escape, parsePointer, String.toList_ofList]
  show parseSegments (segments (escape key.toList)) = _
  rw [segments_of_no_slash (slash_not_mem_escape _), parseSegments, unescape_escape]
  simp [parseSegments]

/-! ## Reading it -/

theorem decode_removeOperation (key : String) : decodeOperation (removeOperation key : Json ν) = some (.remove [key]) := by
  simp [decodeOperation, removeOperation, decodePath, List.lookup_cons, parsePointer_pointer]

theorem decode_addOperation (member : String × Json ν) : decodeOperation (addOperation member) = some (.add [member.1] member.2) := by
  simp [decodeOperation, addOperation, decodePath, List.lookup_cons, parsePointer_pointer]

theorem decodeOperations_map {α : Type} {raw : α → Json ν} {operation : α → Operation ν}
    (h : ∀ entry, decodeOperation (raw entry) = some (operation entry)) {raws : List (Json ν)}
    {operations : List (Operation ν)} (hrest : decodeOperations raws = some operations) (entries : List α) :
    decodeOperations (entries.map raw ++ raws) = some (entries.map operation ++ operations) := by
  induction entries with
  | nil => exact hrest
  | cons entry entries ih => simp only [List.map_cons, List.cons_append, decodeOperations, h, ih]

def replaceOperations (current next : JsonObject ν) : List (Operation ν) :=
  (dropped current next).map (fun key => .remove [key]) ++ next.members.map fun member => .add [member.1] member.2

theorem decode_replacePatch (current next : JsonObject ν) :
    decodePatch (replacePatch current next) = some (replaceOperations current next) := by
  have hnone : decodeOperations ([] : List (Json ν)) = some [] := rfl
  have hadds := decodeOperations_map decode_addOperation hnone next.members
  rw [List.append_nil, List.append_nil] at hadds
  exact decodeOperations_map decode_removeOperation hadds (dropped current next)

/-! ## Applying it -/

theorem lookup_isSome_of_mem {members : List (String × Json ν)} (h : SortedKeys members) {key : String}
    (hkey : key ∈ members.map (·.1)) : (members.lookup key).isSome = true := by
  obtain ⟨member, hmember, rfl⟩ := List.mem_map.1 hkey
  rw [h.lookup_of_mem hmember]
  rfl

theorem dropped_nodup (current next : JsonObject ν) : (dropped current next).Nodup := by
  refine List.Nodup.filter _ ?_
  exact (List.pairwise_map.2 current.sorted).imp fun hlt => ne_of_lt hlt

variable [DecidableEq ν] (crate : Crate ν)

theorem apply_add (members : List (String × Json ν)) (key : String) (value : Json ν) :
    applyOperation crate (.object members) (.add [key] value) = some (.object (insertKey key value members)) := by
  simp [applyOperation, addAt, atParent, addChild]

theorem apply_remove {members : List (String × Json ν)} {key : String} {value : Json ν}
    (h : members.lookup key = some value) :
    applyOperation crate (.object members) (.remove [key]) = some (.object (eraseKey key members)) := by
  simp [applyOperation, removeAt, atParent, removeChild, h]

/-- Removing keys that are there, each once. -/
theorem apply_removes {members : List (String × Json ν)} (hsorted : SortedKeys members) {keys : List String}
    (hnodup : keys.Nodup) (hpresent : ∀ key ∈ keys, (members.lookup key).isSome = true) :
    ∃ left, patch crate (.object members) (keys.map fun key => .remove [key]) = some (.object left) ∧
      SortedKeys left ∧ ∀ key, left.lookup key = if key ∈ keys then none else members.lookup key := by
  induction keys generalizing members with
  | nil => exact ⟨members, rfl, hsorted, fun key => by simp⟩
  | cons first rest ih =>
    obtain ⟨hfirst, hrest⟩ := List.nodup_cons.1 hnodup
    obtain ⟨value, hvalue⟩ := Option.isSome_iff_exists.1 (hpresent first (List.mem_cons_self ..))
    have hkept : ∀ key ∈ rest, ((eraseKey first members).lookup key).isSome = true := by
      intro key hkey
      have hne : key ≠ first := fun heq => hfirst (heq ▸ hkey)
      rw [lookup_eraseKey, if_neg hne]
      exact hpresent key (List.mem_cons_of_mem _ hkey)
    obtain ⟨left, hleft, hsortedLeft, hlookup⟩ := ih (hsorted.eraseKey first) hrest hkept
    refine ⟨left, ?_, hsortedLeft, fun key => ?_⟩
    · rw [patch, List.map_cons, List.foldlM_cons, apply_remove crate hvalue]
      exact hleft
    · rw [hlookup, lookup_eraseKey]
      by_cases heq : key = first
      · simp [heq]
      · simp [heq]

/-- Adding members, each once. -/
theorem apply_adds {members added : List (String × Json ν)} (hsorted : SortedKeys members) (hadded : SortedKeys added) :
    ∃ all, patch crate (.object members) (added.map fun member => .add [member.1] member.2) = some (.object all) ∧
      SortedKeys all ∧ ∀ key, all.lookup key = (added.lookup key).or (members.lookup key) := by
  induction added generalizing members with
  | nil => exact ⟨members, rfl, hsorted, fun key => by simp⟩
  | cons first rest ih =>
    obtain ⟨hfirst, hrest⟩ := List.pairwise_cons.1 hadded
    obtain ⟨all, hall, hsortedAll, hlookup⟩ := ih (hsorted.insertKey first.1 first.2) hrest
    refine ⟨all, ?_, hsortedAll, fun key => ?_⟩
    · rw [patch, List.map_cons, List.foldlM_cons, apply_add]
      exact hall
    · rw [hlookup, List.lookup_cons]
      by_cases heq : key = first.1
      · -- No later member has this key.
        have hnone : rest.lookup key = none := by
          refine List.lookup_eq_none_iff.2 fun member hmember => bne_iff_ne.2 ?_
          rw [heq]
          exact ne_of_lt (hfirst member hmember)
        rw [hnone, heq]
        simp
      · rw [lookup_insertKey_ne heq, beq_eq_false_iff_ne.2 heq]

theorem apply_replaceOperations (current next : JsonObject ν) :
    patch crate (.object current.members) (replaceOperations current next) = some (.object next.members) := by
  obtain ⟨left, hleft, hsortedLeft, hkept⟩ := apply_removes crate current.sorted (dropped_nodup current next) fun key hkey =>
    lookup_isSome_of_mem current.sorted (List.mem_filter.1 hkey).1
  obtain ⟨all, hall, hsortedAll, hadded⟩ := apply_adds crate hsortedLeft next.sorted
  have hnext : all = next.members := by
    refine hsortedAll.ext next.sorted fun key => ?_
    rw [hadded, hkept]
    cases hlookup : next.members.lookup key with
    | some value => rfl
    | none =>
      -- A key of the current object that the next one lacks was dropped.
      rw [Option.none_or]
      split
      · rfl
      next hstays =>
        refine List.lookup_eq_none_iff.2 fun member hmember => bne_iff_ne.2 fun heq => hstays ?_
        exact List.mem_filter.2 ⟨List.mem_map.2 ⟨member, hmember, heq.symm⟩, by rw [hlookup]; rfl⟩
  rw [replaceOperations, patch, List.foldlM_append]
  show (patch crate _ ((dropped current next).map fun key => .remove [key])).bind _ = _
  rw [hleft]
  rw [hnext] at hall
  exact hall

/-- The patch is well formed and takes every object to the next one. -/
theorem replace_yields_next (current next : JsonObject ν) :
    (decodePatch (replacePatch current next)).bind (patch crate (.object current.members)) = some (.object next.members) := by
  rw [decode_replacePatch, Option.bind_some]
  exact apply_replaceOperations crate current next

end LaserSdk.Session.Replace
