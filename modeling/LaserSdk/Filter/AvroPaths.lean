import LaserSdk.Filter.Avro
import LaserSdk.Filter.Prune
/-!
# What filters read of an Avro value

A path resolves in the value converted for a set of paths as it does in the
value converted whole, and the two conversions succeed together: the pass
before the decoder has left nothing that one of them could refuse.
-/

namespace LaserSdk.Filter

open Lib

/-! ## What the pass leaves -/

mutual

/-- Every number is finite and every kind is physical. -/
def Avro.Plain : Avro → Prop
  | .float value | .double value => value.isFinite = true
  | .union _ value => value.Plain
  | .record fields | .map fields => PlainFields fields
  | .array values => PlainItems values
  | .logical => False
  | _ => True

def PlainFields : List (String × Avro) → Prop
  | [] => True
  | (_, value) :: rest => value.Plain ∧ PlainFields rest

def PlainItems : List Avro → Prop
  | [] => True
  | value :: rest => value.Plain ∧ PlainItems rest

end

mutual

/-- The conversion where nothing is refused. -/
def convert (paths : PathTrie) : Avro → Value
  | .null | .logical => .null
  | .boolean value => .bool value
  | .int value | .long value => .number (.integer value)
  | .float value | .double value => .number (.float value)
  | .string text | .enum _ text => .string text
  | .bytes bytes | .fixed _ bytes => bytesValue bytes
  | .union _ value => convert paths value
  | .record fields | .map fields => .object (convertFields paths [] fields)
  | .array values => .array (convertItems paths 0 [] values)

def convertFields (paths : PathTrie) (object : List (String × Value)) : List (String × Avro) → List (String × Value)
  | [] => object
  | (key, value) :: rest =>
    match paths.selected key with
    | some child => convertFields paths (mapInsert object key (convert child value)) rest
    | none => convertFields paths object rest

def convertItems (paths : PathTrie) (index : Nat) (kept : List Value) : List Avro → List Value
  | [] => kept
  | value :: rest =>
    match paths.selectedAt index with
    | some child => convertItems paths (index + 1) (resize kept index .null ++ [convert child value]) rest
    | none => convertItems paths (index + 1) kept rest

end

mutual

theorem avroValue_plain (paths : PathTrie) : (value : Avro) → value.Plain → avroValue paths value = .ok (convert paths value)
  | .null, _ | .boolean _, _ | .int _, _ | .long _, _ | .string _, _ | .enum _ _, _ | .bytes _, _ | .fixed _ _, _ => by
    simp [avroValue, convert]
  | .float value, h | .double value, h => by
    rw [Avro.Plain] at h
    simp [avroValue, convert, number, h]
  | .union _ value, h => by
    rw [Avro.Plain] at h
    rw [avroValue, convert, avroValue_plain paths value h]
  | .record fields, h | .map fields, h => by
    rw [Avro.Plain] at h
    rw [avroValue, convert, avroFields_plain paths [] fields h]
    rfl
  | .array values, h => by
    rw [Avro.Plain] at h
    rw [avroValue, convert, avroItems_plain paths 0 [] values h]
    rfl
  | .logical, h => by simp [Avro.Plain] at h

theorem avroFields_plain (paths : PathTrie) (object : List (String × Value)) : (fields : List (String × Avro)) →
    PlainFields fields → avroFields paths object fields = .ok (convertFields paths object fields)
  | [], _ => by simp [avroFields, convertFields]
  | (key, value) :: rest, h => by
    rw [PlainFields] at h
    rw [avroFields, convertFields]
    cases paths.selected key with
    | none => exact avroFields_plain paths object rest h.2
    | some child =>
      simp only [avroValue_plain child value h.1, ok_bind]
      exact avroFields_plain paths _ rest h.2

theorem avroItems_plain (paths : PathTrie) (index : Nat) (kept : List Value) : (values : List Avro) →
    PlainItems values → avroItems paths index kept values = .ok (convertItems paths index kept values)
  | [], _ => by simp [avroItems, convertItems]
  | value :: rest, h => by
    rw [PlainItems] at h
    rw [avroItems, convertItems]
    cases paths.selectedAt index with
    | none => exact avroItems_plain paths _ kept rest h.2
    | some child =>
      simp only [avroValue_plain child value h.1, ok_bind]
      exact avroItems_plain paths _ _ rest h.2

end

/-! ## Members and items -/

/-- A member that two tries select holds in both objects what the same field
gave. -/
theorem lookup_convertFields {paths other child below : PathTrie} {key : String} (hchild : paths.selected key = some child)
    (hbelow : other.selected key = some below) (fields : List (String × Avro)) (pruned built : List (String × Value))
    (h : ∃ held : Option Avro, pruned.lookup key = held.map (convert child) ∧ built.lookup key = held.map (convert below)) :
    ∃ held : Option Avro, (convertFields paths pruned fields).lookup key = held.map (convert child) ∧
      (convertFields other built fields).lookup key = held.map (convert below) := by
  induction fields generalizing pruned built with
  | nil => simpa [convertFields] using h
  | cons field rest ih =>
    obtain ⟨name, value⟩ := field
    by_cases hname : key = name
    · subst hname
      simp only [convertFields, hchild, hbelow]
      refine ih _ _ ⟨some value, ?_, ?_⟩ <;> simp [lookup_mapInsert]
    · have hskip : ∀ (object : List (String × Value)) (value : Value),
          (mapInsert object name value).lookup key = object.lookup key := by
        intro object value
        simp [lookup_mapInsert, hname]
      rw [convertFields, convertFields]
      cases paths.selected name <;> cases other.selected name <;> exact ih _ _ (by simpa only [hskip] using h)

theorem convertItems_settled (paths : PathTrie) (values : List Avro) {index : Nat} {kept : List Value} {i : Nat}
    (hi : i < index) (hkept : i < kept.length) : (convertItems paths index kept values)[i]? = kept[i]? := by
  induction values generalizing index kept with
  | nil => simp [convertItems]
  | cons value rest ih =>
    rw [convertItems]
    cases paths.selectedAt index with
    | none => exact ih (by omega) hkept
    | some child =>
      simp only
      rw [ih (by omega) (by rw [length_resize_append]; omega)]
      simp only [resize]
      rw [List.getElem?_append_left (by simp; omega), List.getElem?_append_left (by simp; omega),
        List.getElem?_take_of_lt hi]

/-- An item that the trie selects stands at its position. -/
theorem convertItems_get {paths child : PathTrie} {i : Nat} (hchild : paths.selectedAt i = some child) (values : List Avro)
    {index : Nat} {kept : List Value} (hi : index ≤ i) (hkept : kept.length ≤ index) :
    (convertItems paths index kept values)[i]? = values[i - index]?.map (convert child) := by
  induction values generalizing index kept with
  | nil =>
    rw [convertItems, List.getElem?_eq_none (by omega)]
    simp
  | cons value rest ih =>
    rcases Nat.eq_or_lt_of_le hi with rfl | hlt
    · have hlast : (resize kept index .null ++ [convert child value])[index]? = some (convert child value) := by
        rw [List.getElem?_append_right (by simp [resize]; omega)]
        simp [resize, show kept.length + (index - kept.length) = index by omega, hkept]
      rw [convertItems, hchild]
      simp only [Nat.sub_self, List.getElem?_cons_zero, Option.map_some]
      rw [convertItems_settled paths rest (by omega) (by rw [length_resize_append]; omega), hlast]
    · rw [show i - index = (i - (index + 1)) + 1 by omega, List.getElem?_cons_succ, convertItems]
      cases paths.selectedAt index with
      | none => exact ih (by omega) (by omega)
      | some other => exact ih (by omega) (Nat.le_of_eq (length_resize_append ..))

/-! ## Paths -/

/-- The value in a union. -/
def Avro.unwrap : Avro → Avro
  | .union _ value => value.unwrap
  | value => value

theorem convert_unwrap (paths : PathTrie) : (value : Avro) → convert paths value = convert paths value.unwrap
  | .union _ value => by
    rw [convert, Avro.unwrap]
    exact convert_unwrap paths value
  | .null | .boolean _ | .int _ | .long _ | .float _ | .double _ | .string _ | .enum _ _ | .bytes _ | .fixed _ _ | .record _
  | .map _ | .array _ | .logical => by simp [Avro.unwrap]

theorem unwrap_ne_union {index : Nat} {inner : Avro} : (value : Avro) → value.unwrap ≠ .union index inner
  | .union _ value => by
    rw [Avro.unwrap]
    exact unwrap_ne_union value
  | .null | .boolean _ | .int _ | .long _ | .float _ | .double _ | .string _ | .enum _ _ | .bytes _ | .fixed _ _ | .record _
  | .map _ | .array _ | .logical => by simp [Avro.unwrap]

namespace PathTrie

theorem selected_whole {paths : PathTrie} (h : paths.whole = true) (key : String) : paths.selected key = some .everything :=
  if_pos h

theorem selectedAt_whole {paths : PathTrie} (h : paths.whole = true) (index : Nat) :
    paths.selectedAt index = some .everything :=
  if_pos h

theorem Covers.selected {paths : PathTrie} {key : String} {rest : List PathSegment} (h : paths.Covers (.key key :: rest)) :
    ∃ child, paths.selected key = some child ∧ child.Covers rest := by
  cases hwhole : paths.whole with
  | true => exact ⟨.everything, selected_whole hwhole key, covers_of_whole rfl rest⟩
  | false =>
    obtain ⟨child, hchild, hbelow⟩ := h.resolve_left (by simp [hwhole])
    refine ⟨child, ?_, hbelow⟩
    rw [PathTrie.selected, hwhole, if_neg (by simp)]
    exact hchild

theorem Covers.selectedAt {paths : PathTrie} {index : UInt32} {rest : List PathSegment}
    (h : paths.Covers (.index index :: rest)) : ∃ child, paths.selectedAt index.toNat = some child ∧ child.Covers rest := by
  cases hwhole : paths.whole with
  | true => exact ⟨.everything, selectedAt_whole hwhole _, covers_of_whole rfl rest⟩
  | false =>
    obtain ⟨child, hchild, hbelow⟩ := h.resolve_left (by simp [hwhole])
    have hlt : index.toNat < 2 ^ 32 := index.toNat_lt
    refine ⟨child, ?_, hbelow⟩
    rw [PathTrie.selectedAt, hwhole, if_neg (by simp), if_pos hlt, UInt32.ofNat_toNat]
    exact hchild

end PathTrie

theorem convertFields_congr {paths other : PathTrie} (h : ∀ key, paths.selected key = other.selected key)
    (fields : List (String × Avro)) (object : List (String × Value)) :
    convertFields paths object fields = convertFields other object fields := by
  induction fields generalizing object with
  | nil => simp [convertFields]
  | cons field rest ih =>
    obtain ⟨key, value⟩ := field
    rw [convertFields, convertFields, h key]
    cases other.selected key with
    | none => exact ih object
    | some child => exact ih _

theorem convertItems_congr {paths other : PathTrie} (h : ∀ index, paths.selectedAt index = other.selectedAt index)
    (values : List Avro) (index : Nat) (kept : List Value) :
    convertItems paths index kept values = convertItems other index kept values := by
  induction values generalizing index kept with
  | nil => simp [convertItems]
  | cons value rest ih =>
    rw [convertItems, convertItems, h index]
    cases other.selectedAt index with
    | none => exact ih _ kept
    | some child => exact ih _ _

theorem convert_whole {paths : PathTrie} (h : paths.whole = true) (value : Avro) :
    convert paths value = convert .everything value := by
  have hkeys : ∀ key, paths.selected key = PathTrie.everything.selected key := fun key => by
    rw [PathTrie.selected_whole h, PathTrie.selected_whole rfl]
  have hindices : ∀ index, paths.selectedAt index = PathTrie.everything.selectedAt index := fun index => by
    rw [PathTrie.selectedAt_whole h, PathTrie.selectedAt_whole rfl]
  rw [convert_unwrap paths, convert_unwrap .everything]
  cases hvalue : value.unwrap with
  | union index inner => exact absurd hvalue (unwrap_ne_union value)
  | record fields => simp only [convert, convertFields_congr hkeys]
  | map fields => simp only [convert, convertFields_congr hkeys]
  | array values => simp only [convert, convertItems_congr hindices]
  | _ => simp [convert]

/-- A covered path resolves as it does in the whole value. -/
theorem resolve_convert {paths : PathTrie} {path : List PathSegment} {value : Avro} (hcovers : paths.Covers path) :
    resolveSegments (convert paths value) path = resolveSegments (convert .everything value) path := by
  induction path generalizing paths value with
  | nil => rw [convert_whole hcovers]
  | cons segment rest ih =>
    rw [convert_unwrap paths, convert_unwrap .everything]
    cases segment with
    | key key =>
      obtain ⟨child, hchild, hbelow⟩ := hcovers.selected
      have hobject : ∀ fields, resolveSegments (.object (convertFields paths [] fields)) (.key key :: rest) =
          resolveSegments (.object (convertFields .everything [] fields)) (.key key :: rest) := by
        intro fields
        obtain ⟨held, hpruned, hbuilt⟩ := @lookup_convertFields paths .everything child .everything key hchild
          (PathTrie.selected_whole rfl key) fields [] [] ⟨none, rfl, rfl⟩
        simp only [resolveSegments, hpruned, hbuilt]
        cases held with
        | none => rfl
        | some held => exact ih hbelow
      cases hvalue : value.unwrap with
      | union index inner => exact absurd hvalue (unwrap_ne_union value)
      | record fields => simpa only [convert] using hobject fields
      | map fields => simpa only [convert] using hobject fields
      | array values => simp [convert, resolveSegments]
      | _ => simp [convert]
    | index i =>
      obtain ⟨child, hchild, hbelow⟩ := hcovers.selectedAt
      cases hvalue : value.unwrap with
      | union index inner => exact absurd hvalue (unwrap_ne_union value)
      | record fields => simp [convert, resolveSegments]
      | map fields => simp [convert, resolveSegments]
      | array values =>
        have hpruned := @convertItems_get paths child i.toNat hchild values 0 [] (Nat.zero_le _) (Nat.le_refl _)
        have hbuilt := @convertItems_get .everything .everything i.toNat (PathTrie.selectedAt_whole rfl _) values 0 []
          (Nat.zero_le _) (Nat.le_refl _)
        simp only [convert, resolveSegments, hpruned, hbuilt]
        cases values[i.toNat - 0]? with
        | none => rfl
        | some item => exact ih hbelow
      | _ => simp [convert]

/-! ## A set of paths -/

/-- The trie of a set of paths. -/
def PathTrie.ofPaths (read : List FieldPath) : PathTrie := read.foldl PathTrie.insert .empty

theorem covers_foldl {read : List FieldPath} {paths : PathTrie} {path : List PathSegment} (h : paths.Covers path) :
    (read.foldl PathTrie.insert paths).Covers path := by
  induction read generalizing paths with
  | nil => exact h
  | cons other rest ih => exact ih (PathTrie.covers_insert_mono h other.segments)

theorem covers_ofPaths {read : List FieldPath} {path : FieldPath} (h : path ∈ read) :
    (PathTrie.ofPaths read).Covers path.segments := by
  obtain ⟨before, after, rfl⟩ := List.append_of_mem h
  rw [PathTrie.ofPaths, List.foldl_append, List.foldl_cons]
  exact covers_foldl (PathTrie.covers_insert_self _ path.segments)

section

variable {readValue : List UInt8 → Option Avro} {names : String → Option AvroSchema}

theorem decodeAvroPaths_ok {schema : AvroSchema} {payload : List UInt8} {limits : DecodeLimits} {paths : PathTrie}
    {value : Value} :
    decodeAvroPaths readValue names schema payload limits paths = .ok value ↔
      payload.length ≤ limits.maxPayloadBytes ∧ Input.scanAvro limits names schema payload = .ok () ∧
        ∃ decoded, readValue payload = some decoded ∧ avroValue paths decoded = .ok value := by
  simp only [decodeAvroPaths, bind_ok, refuseIf_ok, Nat.not_lt]
  constructor
  · rintro ⟨-, hfits, ⟨⟩, hscan, hvalue⟩
    cases hread : readValue payload with
    | none => simp [hread] at hvalue
    | some decoded => exact ⟨hfits, hscan, decoded, rfl, by simpa [hread] using hvalue⟩
  · rintro ⟨hfits, hscan, decoded, hread, hvalue⟩
    exact ⟨(), hfits, (), hscan, by simpa [hread] using hvalue⟩

/-- With the values the pass lets through, each path resolves in the pruned
value as it does in the whole one, and both are there or neither is. -/
theorem avro_paths_agree {schema : AvroSchema} {payload : List UInt8} {limits : DecodeLimits} (read : List FieldPath)
    (hreader : ∀ decoded, Input.scanAvro limits names schema payload = .ok () → readValue payload = some decoded →
      decoded.Plain) :
    ((∃ pruned, decodeAvroPaths readValue names schema payload limits (.ofPaths read) = .ok pruned) ↔
      ∃ whole, decodeAvroPaths readValue names schema payload limits .everything = .ok whole) ∧
    ∀ pruned whole, decodeAvroPaths readValue names schema payload limits (.ofPaths read) = .ok pruned →
      decodeAvroPaths readValue names schema payload limits .everything = .ok whole →
      ∀ path ∈ read, resolve pruned path = resolve whole path := by
  simp only [decodeAvroPaths_ok]
  constructor
  · constructor
    · rintro ⟨pruned, hfits, hscan, decoded, hread, -⟩
      exact ⟨_, hfits, hscan, decoded, hread, avroValue_plain _ decoded (hreader decoded hscan hread)⟩
    · rintro ⟨whole, hfits, hscan, decoded, hread, -⟩
      exact ⟨_, hfits, hscan, decoded, hread, avroValue_plain _ decoded (hreader decoded hscan hread)⟩
  · rintro pruned whole ⟨-, hscan, decoded, hread, hpruned⟩ ⟨-, -, other, hother, hwhole⟩ path hpath
    have hplain := hreader decoded hscan hread
    obtain rfl : decoded = other := Option.some.inj (hread.symm.trans hother)
    rw [avroValue_plain _ decoded hplain] at hpruned hwhole
    cases hpruned
    cases hwhole
    exact resolve_convert (covers_ofPaths hpath)

end

/-- An order: a name, and nothing or a list of amounts. -/
def orderSchema : AvroSchema := .record [("name", .sized), ("amounts", .union [.null, .array .double])]

/-- An order with the name `a` and the amount one. -/
def orderBytes : List UInt8 := [2, 97, 2, 2, 0, 0, 0, 0, 0, 0, 240, 63, 0]

def readOrder (payload : List UInt8) : Option Avro :=
  if payload = orderBytes then
    some (.record [("name", .string "a"), ("amounts", .union 1 (.array [.double (.finite 1 0)]))])
  else none

def firstAmount : FieldPath := ⟨[.key "amounts", .index 0]⟩

theorem first_amount_agrees :
    ∃ pruned whole, decodeAvroPaths readOrder (fun _ => none) orderSchema orderBytes ⟨64, 4⟩ (.ofPaths [firstAmount]) = .ok pruned ∧
      decodeAvroPaths readOrder (fun _ => none) orderSchema orderBytes ⟨64, 4⟩ .everything = .ok whole ∧
      resolve pruned firstAmount = resolve whole firstAmount ∧
      resolve whole firstAmount = some (.number (.float (.finite 1 0))) := by
  have hreader : ∀ decoded, Input.scanAvro ⟨64, 4⟩ (fun _ => none) orderSchema orderBytes = .ok () →
      readOrder orderBytes = some decoded → decoded.Plain := by
    intro decoded _ hread
    cases hread
    simp [Avro.Plain, PlainFields, PlainItems, F64.isFinite]
  have hagree := avro_paths_agree [firstAmount] hreader
  refine ⟨_, _, rfl, rfl, ?_, rfl⟩
  exact hagree.2 _ _ rfl rfl firstAmount (by simp)

end LaserSdk.Filter
