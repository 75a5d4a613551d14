import LaserSdk.Filter.Depth
import LaserSdk.Filter.Input
/-!
# One value in JSON and in CBOR

The JSON scan counts containers, the CBOR pass counts the containers around
each item. The two differ on the innermost containers when these are empty: so
one value is too deep as JSON and is decoded from CBOR.
-/

namespace LaserSdk.Filter

open Lib

/-! ## Values and their depth -/

mutual

/-- How deep containers are nested. -/
def Value.nesting : Value → Nat
  | .array items => itemsNesting items + 1
  | .object fields => fieldsNesting fields + 1
  | _ => 0

def itemsNesting : List Value → Nat
  | [] => 0
  | item :: rest => max item.nesting (itemsNesting rest)

def fieldsNesting : List (String × Value) → Nat
  | [] => 0
  | (_, value) :: rest => max value.nesting (fieldsNesting rest)

end

mutual

/-- The containers around the innermost item. An empty container has none. -/
def Value.itemDepth : Value → Nat
  | .array items => itemsDepth items
  | .object fields => fieldsDepth fields
  | _ => 0

def itemsDepth : List Value → Nat
  | [] => 0
  | item :: rest => max (item.itemDepth + 1) (itemsDepth rest)

def fieldsDepth : List (String × Value) → Nat
  | [] => 0
  | (_, value) :: rest => max (value.itemDepth + 1) (fieldsDepth rest)

end

mutual

/-- The two depths differ by at most the innermost container. -/
theorem Value.itemDepth_le : (value : Value) → value.itemDepth ≤ value.nesting ∧ value.nesting ≤ value.itemDepth + 1
  | .null | .bool _ | .number _ | .string _ => by simp [Value.itemDepth, Value.nesting]
  | .array items => by
    have hitems := itemsDepth_le items
    rw [Value.itemDepth, Value.nesting]
    omega
  | .object fields => by
    have hfields := fieldsDepth_le fields
    rw [Value.itemDepth, Value.nesting]
    omega

theorem itemsDepth_le : (items : List Value) → itemsDepth items ≤ itemsNesting items + 1 ∧ itemsNesting items ≤ itemsDepth items
  | [] => by simp [itemsDepth, itemsNesting]
  | item :: rest => by
    have hitem := Value.itemDepth_le item
    have hrest := itemsDepth_le rest
    rw [itemsDepth, itemsNesting]
    omega

theorem fieldsDepth_le : (fields : List (String × Value)) →
    fieldsDepth fields ≤ fieldsNesting fields + 1 ∧ fieldsNesting fields ≤ fieldsDepth fields
  | [] => by simp [fieldsDepth, fieldsNesting]
  | (_, value) :: rest => by
    have hvalue := Value.itemDepth_le value
    have hrest := fieldsDepth_le rest
    rw [fieldsDepth, fieldsNesting]
    omega

end

/-! ## Its JSON texts -/

mutual

/-- A tree that writes a value: the same containers around atoms of the same
kind. -/
def Shows : JsonText.Tree → Value → Prop
  | .atom .null, .null => True
  | .atom (.bool shown), .bool value => shown = value
  | .atom (.number _), .number _ => True
  | .atom (.string _), .string _ => True
  | .array trees, .array items => ShowsItems trees items
  | .object members, .object fields => ShowsFields members fields
  | _, _ => False

def ShowsItems : List JsonText.Tree → List Value → Prop
  | [], [] => True
  | tree :: trees, item :: items => Shows tree item ∧ ShowsItems trees items
  | _, _ => False

def ShowsFields : List (List JsonText.Piece × JsonText.Tree) → List (String × Value) → Prop
  | [], [] => True
  | (_, tree) :: members, (_, value) :: fields => Shows tree value ∧ ShowsFields members fields
  | _, _ => False

end

mutual

theorem Shows.nesting : {tree : JsonText.Tree} → {value : Value} → Shows tree value → tree.nesting = value.nesting
  | .atom _, .null, _ | .atom _, .bool _, _ | .atom _, .number _, _ | .atom _, .string _, _ => by
    simp [JsonText.Tree.nesting, Value.nesting]
  | .atom atom, .array _, h | .atom atom, .object _, h => by cases atom <;> simp [Shows] at h
  | .array trees, .array items, h => by
    rw [Shows] at h
    rw [JsonText.Tree.nesting, Value.nesting, ShowsItems.nesting h]
  | .object members, .object fields, h => by
    rw [Shows] at h
    rw [JsonText.Tree.nesting, Value.nesting, ShowsFields.nesting h]

theorem ShowsItems.nesting : {trees : List JsonText.Tree} → {items : List Value} → ShowsItems trees items →
    JsonText.nestingItems trees = itemsNesting items
  | [], [], _ => by simp [JsonText.nestingItems, itemsNesting]
  | tree :: trees, item :: items, h => by
    rw [ShowsItems] at h
    rw [JsonText.nestingItems, itemsNesting, Shows.nesting h.1, ShowsItems.nesting h.2]

theorem ShowsFields.nesting : {members : List (List JsonText.Piece × JsonText.Tree)} → {fields : List (String × Value)} →
    ShowsFields members fields → JsonText.nestingMembers members = fieldsNesting fields
  | [], [], _ => by simp [JsonText.nestingMembers, fieldsNesting]
  | (_, tree) :: members, (_, value) :: fields, h => by
    rw [ShowsFields] at h
    rw [JsonText.nestingMembers, fieldsNesting, Shows.nesting h.1, ShowsFields.nesting h.2]

end

/-! ## Its CBOR encodings -/

/-- A head of a major type with an argument, in any of the widths that hold
it. -/
inductive Head (major : Nat) : (argument : Nat) → List UInt8 → Prop
  | short {argument : Nat} (h : argument < 24) : Head major argument [.ofNat (major * 32 + argument)]
  | long {width : Nat} (hwidth : width ≤ 3) {bytes : List UInt8} (hbytes : bytes.length = 2 ^ width) :
    Head major (Input.bigEndian bytes) (.ofNat (major * 32 + (24 + width)) :: bytes)

mutual

/-- A definite-length encoding of a value. A float takes two, four or eight
bytes. -/
inductive Encodes : Value → List UInt8 → Prop
  | null : Encodes .null [246]
  | bool (value : Bool) : Encodes (.bool value) [if value then 245 else 244]
  | unsigned {value : Nat} {head : List UInt8} (hhead : Head 0 value head) : Encodes (.number (.integer value)) head
  | negative {value : Nat} {head : List UInt8} (hhead : Head 1 value head) (hvalue : value < 2 ^ 63) :
    Encodes (.number (.integer (-1 - value))) head
  | float {value : F64} (hfinite : value.isFinite = true) {width : Nat} (hwidth : 1 ≤ width ∧ width ≤ 3) {bytes : List UInt8}
    (hbytes : bytes.length = 2 ^ width) : Encodes (.number (.float value)) (.ofNat (7 * 32 + (24 + width)) :: bytes)
  | string {text : String} {head : List UInt8} (hhead : Head 3 text.toUTF8.toList.length head) :
    Encodes (.string text) (head ++ text.toUTF8.toList)
  | array {items : List Value} {head body : List UInt8} (hhead : Head 4 items.length head) (hbody : EncodesItems items body) :
    Encodes (.array items) (head ++ body)
  | object {fields : List (String × Value)} {head body : List UInt8} (hhead : Head 5 fields.length head)
    (hbody : EncodesFields fields body) : Encodes (.object fields) (head ++ body)

inductive EncodesItems : List Value → List UInt8 → Prop
  | nil : EncodesItems [] []
  | cons {item : Value} {items : List Value} {bytes body : List UInt8} (hitem : Encodes item bytes)
    (hitems : EncodesItems items body) : EncodesItems (item :: items) (bytes ++ body)

inductive EncodesFields : List (String × Value) → List UInt8 → Prop
  | nil : EncodesFields [] []
  | cons {key : String} {value : Value} {fields : List (String × Value)} {name bytes body : List UInt8}
    (hkey : Encodes (.string key) name) (hvalue : Encodes value bytes) (hfields : EncodesFields fields body) :
    EncodesFields ((key, value) :: fields) (name ++ (bytes ++ body))

end

/-! ## The pass over an encoding -/

/-- What the pass does with bytes that encode something `deep`: it takes them,
with a value left for each byte after them, or it finds them too deep. -/
def Passes (limits : DecodeLimits) (depth deep : Nat) (rest : List UInt8) (result : Except FaultReason Input) : Prop :=
  if depth + deep ≤ limits.depth then ∃ remaining, rest.length ≤ remaining ∧ result = .ok ⟨rest, remaining⟩
  else result = .error .tooDeep

theorem Head.length_pos {major argument : Nat} {head : List UInt8} (h : Head major argument head) : 1 ≤ head.length := by
  cases h <;> simp

theorem take_append (bytes rest : List UInt8) (remaining : Nat) :
    (Input.mk (bytes ++ rest) remaining).take bytes.length = .ok (bytes, ⟨rest, remaining⟩) := by
  simp [Input.take]

theorem visit_within {limits : DecodeLimits} {depth : Nat} (h : depth ≤ limits.depth) (bytes : List UInt8) (remaining : Nat) :
    (Input.mk bytes (remaining + 1)).visit limits depth = .ok ⟨bytes, remaining⟩ := by
  simp [Input.visit, Nat.not_lt.2 h]

theorem visit_beyond {limits : DecodeLimits} {depth : Nat} (h : limits.depth < depth) (input : Input) :
    input.visit limits depth = .error .tooDeep := if_pos h

/-- What follows a head. -/
def afterHead (limits : DecodeLimits) (fuel depth major argument : Nat) (input : Input) : Except FaultReason Input :=
  if major = 2 ∨ major = 3 then do
    let (_, input) ← input.take argument
    return input
  else if major = 4 ∨ major = 5 then do
    let count := argument * (if major = 5 then 2 else 1)
    refuseIf (count ≥ 2 ^ 64) .malformed
    refuseIf (count > input.bytes.length) .malformed
    Input.times count (Input.cbor limits fuel (depth + 1)) input
  else return input

theorem cbor_head {limits : DecodeLimits} {fuel depth remaining argument : Nat} {byte : UInt8} {rest : List UInt8}
    {input : Input}
    (hdepth : depth ≤ limits.depth) (hknown : ¬ (byte.toNat / 32 = 6 ∨ byte.toNat % 32 = 31))
    (hargument : (Input.mk rest remaining).argument (byte.toNat % 32) = .ok (argument, input)) :
    Input.cbor limits (fuel + 1) depth ⟨byte :: rest, remaining + 1⟩ =
      afterHead limits fuel depth (byte.toNat / 32) argument input := by
  have htake := take_append [byte] rest remaining
  rw [List.singleton_append, List.length_singleton] at htake
  have hrefuse : refuseIf (byte.toNat / 32 = 6 ∨ byte.toNat % 32 = 31) FaultReason.malformed = .ok () := refuseIf_ok.2 hknown
  unfold Input.cbor
  rw [visit_within hdepth, ok_bind, htake, ok_bind]
  show (refuseIf (byte.toNat / 32 = 6 ∨ byte.toNat % 32 = 31) FaultReason.malformed >>= _) = _
  rw [hrefuse, ok_bind]
  show ((Input.mk rest remaining).argument (byte.toNat % 32) >>= _) = _
  rw [hargument]
  rfl

theorem headByte {major info : Nat} (hmajor : major < 8) (hinfo : info < 32) :
    (UInt8.ofNat (major * 32 + info)).toNat / 32 = major ∧ (UInt8.ofNat (major * 32 + info)).toNat % 32 = info := by
  rw [UInt8.toNat_ofNat']
  omega

/-- A head is read back as its major type and argument. -/
theorem Head.read {major argument : Nat} {head : List UInt8} (h : Head major argument head) (hmajor : major < 8)
    (hnotTag : major ≠ 6) {limits : DecodeLimits} {fuel depth remaining : Nat} (hdepth : depth ≤ limits.depth)
    (rest : List UInt8) :
    Input.cbor limits (fuel + 1) depth ⟨head ++ rest, remaining + 1⟩ =
      afterHead limits fuel depth major argument ⟨rest, remaining⟩ := by
  cases h with
  | short hshort =>
    obtain ⟨hdiv, hmod⟩ := @headByte major argument hmajor (by omega)
    have hread := @cbor_head limits fuel depth remaining argument (.ofNat (major * 32 + argument)) rest ⟨rest, remaining⟩ hdepth
    rw [hdiv, hmod] at hread
    refine hread (by omega) ?_
    rw [Input.argument, if_neg (by omega)]
  | @long width hwidth bytes hbytes =>
    obtain ⟨hdiv, hmod⟩ := @headByte major (24 + width) hmajor (by omega)
    have hread := @cbor_head limits fuel depth remaining (Input.bigEndian bytes) (.ofNat (major * 32 + (24 + width)))
      (bytes ++ rest) ⟨rest, remaining⟩ hdepth
    rw [hdiv, hmod] at hread
    refine hread (by omega) ?_
    rw [Input.argument, if_pos (by omega), refuseIf, if_neg (by omega), Nat.add_sub_cancel_left, ← hbytes, ok_bind,
      take_append]
    rfl

/-- Every encoding starts with a head. -/
theorem Encodes.length_pos {value : Value} {bytes : List UInt8} (h : Encodes value bytes) : 1 ≤ bytes.length := by
  cases h with
  | null => simp
  | bool value => simp
  | unsigned hhead => exact hhead.length_pos
  | negative hhead => exact hhead.length_pos
  | float => simp
  | string hhead | array hhead | object hhead =>
    have := hhead.length_pos
    rw [List.length_append]
    omega

theorem EncodesItems.length_le {items : List Value} {body : List UInt8} (h : EncodesItems items body) :
    items.length ≤ body.length := by
  match h with
  | .nil => simp
  | .cons hitem hitems =>
    have hone := hitem.length_pos
    have hrest := EncodesItems.length_le hitems
    rw [List.length_cons, List.length_append]
    omega

theorem EncodesFields.length_le {fields : List (String × Value)} {body : List UInt8} (h : EncodesFields fields body) :
    fields.length * 2 ≤ body.length := by
  match h with
  | .nil => simp
  | .cons hkey hvalue hfields =>
    have hname := hkey.length_pos
    have hone := hvalue.length_pos
    have hrest := EncodesFields.length_le hfields
    rw [List.length_cons, List.length_append, List.length_append]
    omega

theorem passes_ok {limits : DecodeLimits} {depth remaining : Nat} {rest : List UInt8} (hdepth : depth ≤ limits.depth)
    (hroom : rest.length ≤ remaining) : Passes limits depth 0 rest (.ok ⟨rest, remaining⟩) := by
  unfold Passes
  rw [if_pos (by omega)]
  exact ⟨remaining, hroom, rfl⟩

theorem passes_tooDeep {limits : DecodeLimits} {depth deep : Nat} {rest : List UInt8} (h : limits.depth < depth + deep) :
    Passes limits depth deep rest (.error .tooDeep) := by
  unfold Passes
  rw [if_neg (by omega)]

/-- A part that passes and is followed by another. -/
theorem Passes.bind {limits : DecodeLimits} {depth deep more : Nat} {middle rest : List UInt8}
    {result : Except FaultReason Input} {next : Input → Except FaultReason Input}
    (hfirst : Passes limits (depth + 1) deep middle result)
    (hnext : ∀ remaining, middle.length ≤ remaining → Passes limits depth more rest (next ⟨middle, remaining⟩)) :
    Passes limits depth (max (deep + 1) more) rest (result >>= next) := by
  unfold Passes at hfirst
  by_cases hdeep : depth + 1 + deep ≤ limits.depth
  · rw [if_pos hdeep] at hfirst
    obtain ⟨remaining, hroom, rfl⟩ := hfirst
    have hrest := hnext remaining hroom
    unfold Passes at hrest ⊢
    by_cases hmore : depth + more ≤ limits.depth
    · rw [if_pos hmore] at hrest
      rwa [if_pos (by omega)]
    · rw [if_neg hmore] at hrest
      rwa [if_neg (by omega)]
  · rw [if_neg hdeep] at hfirst
    rw [hfirst, error_bind]
    exact passes_tooDeep (by omega)

/-- Where the pass stands: with fuel for the depth that is left and a value for
each byte. -/
structure Ready (limits : DecodeLimits) (fuel depth : Nat) (bytes : List UInt8) (remaining : Nat) : Prop where
  fuel_le : limits.depth + 2 ≤ fuel + depth
  room : bytes.length ≤ remaining
  size : bytes.length < 2 ^ 64

theorem Ready.drop {limits : DecodeLimits} {fuel depth remaining : Nat} {bytes rest : List UInt8}
    (h : Ready limits fuel depth (bytes ++ rest) remaining) {left : Nat} (hroom : rest.length ≤ left) :
    Ready limits fuel depth rest left := by
  refine ⟨h.fuel_le, hroom, ?_⟩
  have := h.size
  rw [List.length_append] at this
  omega

/-- An item passes if what follows its head does. -/
theorem Head.passes {major argument deep : Nat} {head body rest : List UInt8} (h : Head major argument head) (hmajor : major < 8)
    (hnotTag : major ≠ 6) {limits : DecodeLimits} {fuel depth remaining : Nat}
    (hready : Ready limits fuel depth (head ++ (body ++ rest)) remaining) (hdepth : depth ≤ limits.depth + 1)
    (hafter : depth ≤ limits.depth → ∀ fuel remaining, Ready limits fuel (depth + 1) (body ++ rest) remaining →
      Passes limits depth deep rest (afterHead limits fuel depth major argument ⟨body ++ rest, remaining⟩)) :
    Passes limits depth deep rest (Input.cbor limits fuel depth ⟨head ++ (body ++ rest), remaining⟩) := by
  have hpos := h.length_pos
  obtain ⟨hfuel, hroom, hsize⟩ := hready
  rw [List.length_append] at hroom hsize
  obtain ⟨fuel, rfl⟩ : ∃ left, fuel = left + 1 := ⟨fuel - 1, by omega⟩
  obtain ⟨remaining, rfl⟩ : ∃ left, remaining = left + 1 := ⟨remaining - 1, by omega⟩
  by_cases hwithin : depth ≤ limits.depth
  · rw [h.read hmajor hnotTag hwithin]
    exact hafter hwithin fuel remaining ⟨by omega, by omega, by omega⟩
  · unfold Input.cbor
    rw [visit_beyond (by omega), error_bind]
    exact passes_tooDeep (by omega)

/-- An item that is its head. -/
theorem Head.passes_scalar {major argument : Nat} {head rest : List UInt8} (h : Head major argument head)
    (hmajor : major < 2 ∨ major = 7) {limits : DecodeLimits} {fuel depth remaining : Nat}
    (hready : Ready limits fuel depth (head ++ rest) remaining) (hdepth : depth ≤ limits.depth + 1) :
    Passes limits depth 0 rest (Input.cbor limits fuel depth ⟨head ++ rest, remaining⟩) := by
  refine @Head.passes major argument 0 head [] rest h (by omega) (by omega) limits fuel depth remaining hready hdepth
    fun hwithin fuel remaining hready => ?_
  rw [afterHead, if_neg (by omega), if_neg (by omega)]
  exact passes_ok hwithin hready.room

/-- A container whose items have a byte each is walked through. -/
theorem afterHead_container {limits : DecodeLimits} {fuel depth major argument : Nat} {input : Input}
    (hmajor : major = 4 ∨ major = 5) (hcount : argument * (if major = 5 then 2 else 1) ≤ input.bytes.length)
    (hsize : input.bytes.length < 2 ^ 64) :
    afterHead limits fuel depth major argument input =
      Input.times (argument * (if major = 5 then 2 else 1)) (Input.cbor limits fuel (depth + 1)) input := by
  rw [afterHead, if_neg (by omega), if_pos hmajor]
  simp only [refuseIf]
  rw [if_neg (Nat.not_le.2 (Nat.lt_of_le_of_lt hcount hsize)), if_neg (Nat.not_lt.2 hcount)]
  rfl

theorem string_passes {text : List UInt8} {head rest : List UInt8} (h : Head 3 text.length head)
    {limits : DecodeLimits} {fuel depth remaining : Nat} (hready : Ready limits fuel depth (head ++ text ++ rest) remaining)
    (hdepth : depth ≤ limits.depth + 1) :
    Passes limits depth 0 rest (Input.cbor limits fuel depth ⟨head ++ text ++ rest, remaining⟩) := by
  rw [List.append_assoc] at hready ⊢
  refine h.passes (by decide) (by decide) hready hdepth fun hwithin fuel remaining hready => ?_
  rw [afterHead, if_pos (by decide), take_append]
  exact passes_ok hwithin (hready.drop (Nat.le_trans (by simp) hready.room)).room

mutual

/-- The pass over an encoding goes as deep as its innermost item. -/
theorem Encodes.passes {value : Value} {bytes : List UInt8} {limits : DecodeLimits} {fuel depth remaining : Nat}
    {rest : List UInt8} (hready : Ready limits fuel depth (bytes ++ rest) remaining) (hdepth : depth ≤ limits.depth + 1) :
    Encodes value bytes → Passes limits depth value.itemDepth rest (Input.cbor limits fuel depth ⟨bytes ++ rest, remaining⟩)
  | .null => by
    have hhead : Head 7 22 [246] := .short (by decide)
    simpa only [Value.itemDepth] using hhead.passes_scalar (.inr rfl) hready hdepth
  | .bool value => by
    have hhead : ∃ argument, Head 7 argument [if value then 245 else 244] := by
      cases value with
      | true => exact ⟨21, .short (by decide)⟩
      | false => exact ⟨20, .short (by decide)⟩
    obtain ⟨argument, hhead⟩ := hhead
    simpa only [Value.itemDepth] using hhead.passes_scalar (.inr rfl) hready hdepth
  | .unsigned hhead => by simpa only [Value.itemDepth] using hhead.passes_scalar (.inl (by decide)) hready hdepth
  | .negative hhead _ => by simpa only [Value.itemDepth] using hhead.passes_scalar (.inl (by decide)) hready hdepth
  | .float _ hwidth hbytes => by
    have hhead := @Head.long 7 _ hwidth.2 _ hbytes
    simpa only [Value.itemDepth] using hhead.passes_scalar (.inr rfl) hready hdepth
  | .string hhead => by simpa only [Value.itemDepth] using string_passes hhead hready hdepth
  | .array hhead hbody => by
    rw [List.append_assoc] at hready ⊢
    refine hhead.passes (by decide) (by decide) hready hdepth fun hwithin fuel remaining hready => ?_
    rw [afterHead_container (by decide) (Nat.le_trans (by simpa using hbody.length_le) (by simp)) hready.size, if_neg (by decide),
      Nat.mul_one, Value.itemDepth]
    exact EncodesItems.passes hready hwithin hbody
  | .object hhead hbody => by
    rw [List.append_assoc] at hready ⊢
    refine hhead.passes (by decide) (by decide) hready hdepth fun hwithin fuel remaining hready => ?_
    rw [afterHead_container (by decide) (Nat.le_trans (by simpa using hbody.length_le) (by simp)) hready.size, if_pos rfl,
      Value.itemDepth]
    exact EncodesFields.passes hready hwithin hbody

theorem EncodesItems.passes {items : List Value} {body : List UInt8} {limits : DecodeLimits} {fuel depth remaining : Nat}
    {rest : List UInt8} (hready : Ready limits fuel (depth + 1) (body ++ rest) remaining) (hdepth : depth ≤ limits.depth) :
    EncodesItems items body → Passes limits depth (itemsDepth items) rest
      (Input.times items.length (Input.cbor limits fuel (depth + 1)) ⟨body ++ rest, remaining⟩)
  | .nil => by
    rw [itemsDepth]
    exact passes_ok hdepth hready.room
  | .cons hitem hitems => by
    rw [List.append_assoc] at hready ⊢
    rw [itemsDepth]
    refine Passes.bind (Encodes.passes hready (by omega) hitem) fun remaining hroom => ?_
    exact EncodesItems.passes (hready.drop hroom) hdepth hitems

theorem EncodesFields.passes {fields : List (String × Value)} {body : List UInt8} {limits : DecodeLimits}
    {fuel depth remaining : Nat} {rest : List UInt8} (hready : Ready limits fuel (depth + 1) (body ++ rest) remaining)
    (hdepth : depth ≤ limits.depth) :
    EncodesFields fields body → Passes limits depth (fieldsDepth fields) rest
      (Input.times (fields.length * 2) (Input.cbor limits fuel (depth + 1)) ⟨body ++ rest, remaining⟩)
  | .nil => by
    rw [fieldsDepth]
    exact passes_ok hdepth hready.room
  | @EncodesFields.cons key value fields name bytes body hkey hvalue hfields => by
    rw [List.append_assoc, List.append_assoc] at hready ⊢
    -- The key is an item of its own, no deeper than the value.
    have hdeep : fieldsDepth ((key, value) :: fields) = max (0 + 1) (max (value.itemDepth + 1) (fieldsDepth fields)) := by
      rw [fieldsDepth]
      omega
    rw [hdeep, List.length_cons, Nat.succ_mul]
    have hname := Encodes.passes hready (by omega) hkey
    simp only [Value.itemDepth] at hname
    refine Passes.bind hname fun remaining hroom => ?_
    have hready := hready.drop hroom
    refine Passes.bind (Encodes.passes hready (by omega) hvalue) fun remaining hroom => ?_
    exact EncodesFields.passes (hready.drop hroom) hdepth hfields

end

/-! ## Both decoders -/

/-- The reader of the CBOR crate decodes an encoding that its recursion limit
allows. -/
theorem decodeCbor_encoding {fromReader : List UInt8 → Nat → Except CborError (Value × List UInt8)} {value : Value}
    {payload : List UInt8} {limits : DecodeLimits} (hencodes : Encodes value payload)
    (hfits : payload.length ≤ limits.maxPayloadBytes) (husize : limits.maxPayloadBytes < 2 ^ 64)
    (hreader : value.nesting ≤ limits.depth + 2 → fromReader payload (limits.depth + 2) = .ok (value, [])) :
    decodeCbor fromReader payload limits = if value.itemDepth ≤ limits.depth then .ok value else .error .tooDeep := by
  have hready : Ready limits (limits.depth + 2) 0 (payload ++ []) (max limits.maxPayloadBytes 1) := by
    refine ⟨Nat.le_refl _, ?_, ?_⟩ <;> rw [List.append_nil] <;> omega
  have hpasses := hencodes.passes hready (Nat.zero_le _)
  rw [List.append_nil, Passes, Nat.zero_add] at hpasses
  unfold decodeCbor
  rw [refuseIf, if_neg (Nat.not_lt.2 hfits), ok_bind, Input.new]
  by_cases hdeep : value.itemDepth ≤ limits.depth
  · rw [if_pos hdeep] at hpasses ⊢
    obtain ⟨remaining, -, hscan⟩ := hpasses
    have hnesting := value.itemDepth_le.2
    rw [hscan, ok_bind, hreader (by omega)]
    rfl
  · rw [if_neg hdeep] at hpasses ⊢
    rw [hpasses, error_bind]

/-- The tokenizer of the JSON crate reads a text of the value that its own
limit allows. -/
theorem decodeJson_text {tokenize : List UInt8 → Option Raw} {value : Value} {text : JsonText.Text} {limits : DecodeLimits}
    (hshows : Shows text.tree value) (hfits : text.bytes.length ≤ limits.maxPayloadBytes)
    (htokenize : value.nesting ≤ maxFilterParseDepth → ∃ raw, tokenize text.bytes = some raw ∧ build raw = value) :
    decodeJson tokenize text.bytes limits = if value.nesting ≤ limits.depth then .ok value else .error .tooDeep := by
  have hscan := @jsonDepthWithin_text limits.depth text
  rw [hshows.nesting] at hscan
  unfold decodeJson decodeJsonPaths
  rw [if_neg (Nat.not_lt.2 hfits), show min limits.maxDepth maxFilterParseDepth = limits.depth from rfl]
  by_cases hdeep : value.nesting ≤ limits.depth
  · obtain ⟨raw, hraw, hbuild⟩ := htokenize (Nat.le_trans hdeep (Nat.min_le_right ..))
    rw [if_neg (not_not.2 (hscan.2 hdeep)), if_pos hdeep, hraw]
    show Except.ok (prune .everything raw) = _
    rw [prune_whole rfl, hbuild]
  · rw [if_pos (mt hscan.1 hdeep), if_neg hdeep]

/-- Both decoders return the value, or both find it too deep, unless the value
nests one container more than the limit and the innermost are empty. -/
theorem json_and_cbor_agree_iff {tokenize : List UInt8 → Option Raw}
    {fromReader : List UInt8 → Nat → Except CborError (Value × List UInt8)} {value : Value} {text : JsonText.Text}
    {payload : List UInt8} {limits : DecodeLimits} (hshows : Shows text.tree value) (hencodes : Encodes value payload)
    (hfits : text.bytes.length ≤ limits.maxPayloadBytes ∧ payload.length ≤ limits.maxPayloadBytes)
    (husize : limits.maxPayloadBytes < 2 ^ 64)
    (htokenize : value.nesting ≤ maxFilterParseDepth → ∃ raw, tokenize text.bytes = some raw ∧ build raw = value)
    (hreader : value.nesting ≤ limits.depth + 2 → fromReader payload (limits.depth + 2) = .ok (value, [])) :
    (decodeJson tokenize text.bytes limits = .ok value ∧ decodeCbor fromReader payload limits = .ok value ∨
      decodeJson tokenize text.bytes limits = .error .tooDeep ∧ decodeCbor fromReader payload limits = .error .tooDeep) ↔
      ¬ (value.nesting = limits.depth + 1 ∧ value.itemDepth = limits.depth) := by
  have hdepths := value.itemDepth_le
  rw [decodeJson_text hshows hfits.1 htokenize, decodeCbor_encoding hencodes hfits.2 husize hreader]
  by_cases hjson : value.nesting ≤ limits.depth
  · have hcbor : value.itemDepth ≤ limits.depth := Nat.le_trans hdepths.1 hjson
    rw [if_pos hjson, if_pos hcbor]
    exact iff_of_true (.inl ⟨rfl, rfl⟩) (by omega)
  · rw [if_neg hjson]
    by_cases hcbor : value.itemDepth ≤ limits.depth
    · rw [if_pos hcbor]
      refine iff_of_false ?_ (not_not.2 (by omega))
      rintro (⟨h, -⟩ | ⟨-, h⟩) <;> cases h
    · rw [if_neg hcbor]
      exact iff_of_true (.inr ⟨rfl, rfl⟩) (by omega)

/-- Two lists, one in the other. -/
def nestedLists (inner : List Value) : Value := .array [.array inner]

def nestedText (inner : List JsonText.Tree) : JsonText.Text := ⟨.array [.array inner], fun _ => []⟩

/-- A tokenizer and a reader that know one payload. -/
def tokenizeOnly (payload : List UInt8) (raw : Raw) (bytes : List UInt8) : Option Raw := if bytes = payload then some raw else none

def readOnly (payload : List UInt8) (value : Value) (bytes : List UInt8) (_ : Nat) : Except CborError (Value × List UInt8) :=
  if bytes = payload then .ok (value, []) else .error .other

theorem nested_one_agrees :
    decodeJson (tokenizeOnly [91, 91, 49, 93, 93] (.array [.array [.integer 1]]))
        (nestedText [.atom (.number ⟨false, ⟨1, []⟩, none, none, by decide⟩)]).bytes ⟨64, 1⟩ = .error .tooDeep ∧
      decodeCbor (readOnly [129, 129, 1] (nestedLists [.number (.integer 1)])) [129, 129, 1] ⟨64, 1⟩ = .error .tooDeep := by
  have hagree := @json_and_cbor_agree_iff (tokenizeOnly [91, 91, 49, 93, 93] (.array [.array [.integer 1]]))
    (readOnly [129, 129, 1] (nestedLists [.number (.integer 1)])) (nestedLists [.number (.integer 1)])
    (nestedText [.atom (.number ⟨false, ⟨1, []⟩, none, none, by decide⟩)]) [129, 129, 1] ⟨64, 1⟩
    (by simp [nestedText, nestedLists, Shows, ShowsItems])
    (.array (.short (by decide)) (.cons (.array (.short (by decide)) (.cons (.unsigned (.short (by decide))) .nil)) .nil))
    (by decide) (by decide) (fun _ => ⟨_, rfl, rfl⟩) fun _ => rfl
  have hsame := hagree.2 (by decide)
  rcases hsame with ⟨hjson, -⟩ | hdeep
  · cases hjson
  · exact hdeep

/-- An empty list in a list is too deep for a limit of one as JSON, and is
decoded from CBOR. -/
theorem nested_empty_disagrees :
    Shows (nestedText []).tree (nestedLists []) ∧ Encodes (nestedLists []) [129, 128] ∧
    decodeJson (tokenizeOnly [91, 91, 93, 93] (.array [.array []])) (nestedText []).bytes ⟨64, 1⟩ = .error .tooDeep ∧
    decodeCbor (readOnly [129, 128] (nestedLists [])) [129, 128] ⟨64, 1⟩ = .ok (nestedLists []) := by
  refine ⟨by simp [nestedText, nestedLists, Shows, ShowsItems], ?_, rfl, rfl⟩
  exact .array (.short (by decide)) (.cons (.array (.short (by decide)) .nil) .nil)

end LaserSdk.Filter
