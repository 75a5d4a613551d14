import LaserSdk.Lib.Trace
import LaserSdk.Filter.Avro
/-!
# The values a pass visits

The passes over Avro, CBOR and Protobuf count the values they visit against
one budget, and stop at a depth. The same passes are written here with a log of
the depths they visit, and with an outcome of its own for a recursion that the
model cut short. No pass is cut short, and the budget bounds the log.
-/

namespace LaserSdk.Filter

open Lib Traced

/-! ## Protobuf -/

section

-- The message type a field of a message type holds, if it holds one. The
-- descriptors are those of the Protobuf crate.
variable {Descriptor : Type} (messages : Descriptor → Nat → Option Descriptor) (limits : DecodeLimits)

namespace Input

/-- What follows a key with this field number and wire type. A nested message
is read from its own bytes, with the values that are left. -/
def protobufField (message : Descriptor → Input → Except FaultReason Input) (nested : Nat → Option Descriptor)
    (field wireType : Nat) (input : Input) : Except FaultReason Input :=
  match wireType with
  | 0 => do
    let (_, input) ← input.varint 10 0 0
    return input
  | 1 => do
    let (_, input) ← input.take 8
    return input
  | 2 => do
    let (count, input) ← input.varint 10 0 0
    let (data, input) ← input.take count
    match nested field with
    | some descriptor => do
      let child ← message descriptor ⟨data, input.remainingValues⟩
      return { input with remainingValues := child.remainingValues }
    | none => return input
  | 5 => do
    let (_, input) ← input.take 4
    return input
  | _ => .error .malformed

/-- A field number: one of 29 bits and not zero. -/
def fieldNumber (key : Nat) : Except FaultReason Nat := do
  refuseIf (key / 8 ≥ 2 ^ 32) .malformed
  refuseIf (key / 8 = 0 ∨ key / 8 > 0x1fffffff) .malformed
  return key / 8

/-- The fields until the bytes end. Each takes a byte. -/
def protobufFields (message : Descriptor → Input → Except FaultReason Input) (nested : Nat → Option Descriptor)
    (fuel : Nat) (input : Input) : Except FaultReason Input :=
  if input.bytes = [] then .ok input
  else
    match fuel with
    | 0 => .error .malformed
    | fuel + 1 => do
      let (key, input) ← input.varint 10 0 0
      let field ← fieldNumber key
      let input ← protobufField message nested field (key % 8) input
      protobufFields message nested fuel input

/-- One message. The fuel covers the depth. -/
def protobuf (fuel : Nat) (descriptor : Descriptor) (depth : Nat) (input : Input) : Except FaultReason Input :=
  match fuel with
  | 0 => .error .tooDeep
  | fuel + 1 => do
    let input ← input.visit limits depth
    protobufFields (fun nested => protobuf fuel nested (depth + 1)) (messages descriptor) input.bytes.length input

end Input

end

/-! ## The passes with their log -/

/-- A pass that logs the depth of each value it visits. Its error is a fault,
or nothing when the fuel is spent. -/
abbrev LoggedPass (α : Type) := Traced Nat (Option FaultReason) α

/-- A step that visits nothing. -/
def plainly {α : Type} (result : Except FaultReason α) : LoggedPass α := call (result.mapError some)

def outOfFuel {α : Type} : LoggedPass α := fail none

namespace Input

def visitLogged (limits : DecodeLimits) (input : Input) (depth : Nat) : LoggedPass Input := do
  let input ← plainly (input.visit limits depth)
  emit depth
  return input

def timesLogged (count : Nat) (step : Input → LoggedPass Input) (input : Input) : LoggedPass Input :=
  match count with
  | 0 => pure input
  | count + 1 => do
    let input ← step input
    timesLogged count step input

def eachLogged {α : Type} (step : α → Input → LoggedPass Input) : List α → Input → LoggedPass Input
  | [], input => pure input
  | item :: rest, input => do
    let input ← step item input
    eachLogged step rest input

def cborLogged (limits : DecodeLimits) (fuel depth : Nat) (input : Input) : LoggedPass Input :=
  match fuel with
  | 0 => outOfFuel
  | fuel + 1 => do
    let input ← input.visitLogged limits depth
    let (head, input) ← plainly (input.take 1)
    let major := (head.headD 0).toNat / 32
    let info := (head.headD 0).toNat % 32
    plainly (refuseIf (major = 6 ∨ info = 31) .malformed)
    let (value, input) ← plainly (input.argument info)
    if major = 2 ∨ major = 3 then do
      let (_, input) ← plainly (input.take value)
      return input
    else if major = 4 ∨ major = 5 then do
      let count := value * (if major = 5 then 2 else 1)
      plainly (refuseIf (count ≥ 2 ^ 64) .malformed)
      plainly (refuseIf (count > input.bytes.length) .malformed)
      timesLogged count (cborLogged limits fuel (depth + 1)) input
    else return input

def blocksLogged (item : Input → LoggedPass Input) (keyed : Bool) (fuel : Nat) (input : Input) : LoggedPass Input :=
  match fuel with
  | 0 => outOfFuel
  | fuel + 1 => do
    let (count, input) ← plainly input.long
    if count = 0 then return input
    let (blockEnd, input) ← plainly (input.blockEnd count)
    plainly (refuseIf (count = -2 ^ 63) .tooLarge)
    plainly (refuseIf (count.natAbs > input.remainingValues) .tooLarge)
    let step := fun input : Input => if keyed then plainly input.sized >>= item else item input
    let input ← timesLogged count.natAbs step input
    plainly (refuseIf (∃ left ∈ blockEnd, input.bytes.length ≠ left) .malformed)
    blocksLogged item keyed fuel input

section

variable (limits : DecodeLimits) (names : String → Option AvroSchema)

def avroLogged (fuel : Nat) (schema : AvroSchema) (depth : Nat) (input : Input) : LoggedPass Input :=
  match fuel with
  | 0 => outOfFuel
  | fuel + 1 => do
    let input ← input.visitLogged limits depth
    match schema with
    | .null => return input
    | .boolean => do
      let (bytes, input) ← plainly (input.take 1)
      plainly (refuseIf ((bytes.headD 0).toNat > 1) .malformed)
      return input
    | .number => do
      let (_, input) ← plainly input.long
      return input
    | .float => do
      let (bytes, input) ← plainly (input.take 4)
      plainly (refuseIf (finiteFloat bytes = false) .malformed)
      return input
    | .double => do
      let (bytes, input) ← plainly (input.take 8)
      plainly (refuseIf (finiteDouble bytes = false) .malformed)
      return input
    | .sized => plainly input.sized
    | .fixed size => do
      let (_, input) ← plainly (input.take size)
      return input
    | .union variants => do
      let (value, input) ← plainly input.long
      let index ← plainly (size value)
      match variants[index]? with
      | some variant => avroLogged fuel variant (depth + 1) input
      | none => plainly (.error .malformed)
    | .record fields => eachLogged (fun field => avroLogged fuel field.2 (depth + 1)) fields input
    | .ref name =>
      match names name with
      | some schema => avroLogged fuel schema depth input
      | none => plainly (.error .malformed)
    | .array items => blocksLogged (avroLogged fuel items (depth + 1)) false (input.bytes.length + 1) input
    | .map types => blocksLogged (avroLogged fuel types (depth + 1)) true (input.bytes.length + 1) input

def scanAvroLogged (schema : AvroSchema) (payload : List UInt8) : LoggedPass Unit := do
  let input := new payload limits
  let input ← avroLogged limits names (input.remainingValues + 1) schema 0 input
  plainly input.finish

end

section

variable {Descriptor : Type} (messages : Descriptor → Nat → Option Descriptor) (limits : DecodeLimits)

def protobufFieldLogged (message : Descriptor → Input → LoggedPass Input) (nested : Nat → Option Descriptor)
    (field wireType : Nat) (input : Input) : LoggedPass Input :=
  match wireType with
  | 0 => do
    let (_, input) ← plainly (input.varint 10 0 0)
    return input
  | 1 => do
    let (_, input) ← plainly (input.take 8)
    return input
  | 2 => do
    let (count, input) ← plainly (input.varint 10 0 0)
    let (data, input) ← plainly (input.take count)
    match nested field with
    | some descriptor => do
      let child ← message descriptor ⟨data, input.remainingValues⟩
      return { input with remainingValues := child.remainingValues }
    | none => return input
  | 5 => do
    let (_, input) ← plainly (input.take 4)
    return input
  | _ => plainly (.error .malformed)

def protobufFieldsLogged (message : Descriptor → Input → LoggedPass Input) (nested : Nat → Option Descriptor)
    (fuel : Nat) (input : Input) : LoggedPass Input :=
  if input.bytes = [] then pure input
  else
    match fuel with
    | 0 => outOfFuel
    | fuel + 1 => do
      let (key, input) ← plainly (input.varint 10 0 0)
      let field ← plainly (fieldNumber key)
      let input ← protobufFieldLogged message nested field (key % 8) input
      protobufFieldsLogged message nested fuel input

def protobufLogged (fuel : Nat) (descriptor : Descriptor) (depth : Nat) (input : Input) : LoggedPass Input :=
  match fuel with
  | 0 => outOfFuel
  | fuel + 1 => do
    let input ← input.visitLogged limits depth
    protobufFieldsLogged (fun nested => protobufLogged fuel nested (depth + 1)) (messages descriptor)
      input.bytes.length input

end

end Input

/-! ## What a pass spends -/

/-- The input has the same values to come and no more bytes. -/
def Keeps (before after : Input) : Prop :=
  after.remainingValues = before.remainingValues ∧ after.bytes.length ≤ before.bytes.length

/-- A pass with a log does what the pass does, logs depths within the limit,
and logs one for each value it takes from the budget. -/
structure Meters (limit : Nat) (before : Input) (logged : LoggedPass Input) (result : Except FaultReason Input) : Prop where
  agrees : logged.result = result.mapError some
  depths : logged.Emits (· ≤ limit)
  spent : logged.trace.length ≤ before.remainingValues
  returns : ∀ after, result = .ok after →
    logged.trace.length + after.remainingValues = before.remainingValues ∧
      after.bytes.length ≤ before.bytes.length

namespace Meters

variable {limit : Nat} {before : Input}

theorem pure {after : Input} (h : Keeps before after) :
    Meters limit before (Pure.pure after) (Pure.pure after) where
  agrees := rfl
  depths := emits_pure after
  spent := Nat.zero_le _
  returns := by
    rintro _ ⟨⟩
    exact ⟨by simpa using h.1, h.2⟩

theorem plainly {result : Except FaultReason Input} (h : ∀ after, result = .ok after → Keeps before after) :
    Meters limit before (plainly result) result where
  agrees := rfl
  depths := emits_call _
  spent := Nat.zero_le _
  returns after hafter := ⟨by simpa [Filter.plainly] using (h after hafter).1, (h after hafter).2⟩

theorem bind {first : LoggedPass Input} {plain : Except FaultReason Input} {next : Input → LoggedPass Input}
    {plainNext : Input → Except FaultReason Input} (h : Meters limit before first plain)
    (hnext : ∀ middle, plain = .ok middle → Meters limit middle (next middle) (plainNext middle)) :
    Meters limit before (first >>= next) (plain >>= plainNext) := by
  cases hplain : plain with
  | error fault =>
    have hfirst : first.result = .error (some fault) := by rw [h.agrees, hplain]; rfl
    rw [bind_of_error hfirst]
    exact ⟨rfl, h.depths, h.spent, by rintro _ ⟨⟩⟩
  | ok middle =>
    have hfirst : first.result = .ok middle := by rw [h.agrees, hplain]; rfl
    have hrest := hnext middle hplain
    obtain ⟨hspent, hbytes⟩ := h.returns middle hplain
    rw [bind_of_ok hfirst, ok_bind]
    refine ⟨hrest.agrees, ?_, ?_, ?_⟩
    · intro depth hmem
      rcases List.mem_append.1 hmem with hmem | hmem
      · exact h.depths depth hmem
      · exact hrest.depths depth hmem
    · have := hrest.spent
      simp only [List.length_append]
      omega
    · intro after hafter
      obtain ⟨hspent', hbytes'⟩ := hrest.returns after hafter
      simp only [List.length_append]
      omega

/-- A step that only reads, and what follows it. -/
theorem step {α : Type} {result : Except FaultReason α} {next : α → LoggedPass Input}
    {plainNext : α → Except FaultReason Input} (input : α → Input)
    (hkeeps : ∀ a, result = .ok a → Keeps before (input a))
    (hnext : ∀ a, result = .ok a → Meters limit (input a) (next a) (plainNext a)) :
    Meters limit before (Filter.plainly result >>= next) (result >>= plainNext) := by
  cases hresult : result with
  | error fault => exact ⟨rfl, emits_call _, Nat.zero_le _, by rintro _ ⟨⟩⟩
  | ok a =>
    have hrest := hnext a hresult
    obtain ⟨hvalues, hbytes⟩ := hkeeps a hresult
    refine ⟨hrest.agrees, hrest.depths, ?_, ?_⟩
    · exact hvalues ▸ hrest.spent
    · intro after hafter
      obtain ⟨hspent, hbytes'⟩ := hrest.returns after hafter
      exact ⟨hvalues ▸ hspent, Nat.le_trans hbytes' hbytes⟩

theorem check {p : Prop} [Decidable p] {fault : FaultReason} {next : Unit → LoggedPass Input}
    {plainNext : Unit → Except FaultReason Input}
    (hnext : Meters limit before (next ()) (plainNext ())) :
    Meters limit before (Filter.plainly (refuseIf p fault) >>= next) (refuseIf p fault >>= plainNext) :=
  step (fun _ => before) (fun _ _ => ⟨rfl, Nat.le_refl _⟩) fun _ _ => hnext

/-- A child spends from the budget of its parent, and reads bytes of its own. -/
theorem child {data : List UInt8} {logged : LoggedPass Input} {result : Except FaultReason Input}
    (h : Meters limit ⟨data, before.remainingValues⟩ logged result) :
    Meters limit before (logged >>= fun after => Pure.pure { before with remainingValues := after.remainingValues })
      (result >>= fun after => Pure.pure { before with remainingValues := after.remainingValues }) := by
  refine ⟨?_, ?_, ?_, ?_⟩
  · rw [map_result, h.agrees]
    cases result <;> rfl
  · intro depth hmem
    rw [map_trace] at hmem
    exact h.depths depth hmem
  · rw [map_trace]
    exact h.spent
  · intro after hafter
    simp only [bind_ok, pure_ok] at hafter
    obtain ⟨middle, hmiddle, rfl⟩ := hafter
    rw [map_trace]
    exact ⟨(h.returns middle hmiddle).1, Nat.le_refl _⟩

theorem fault {fault : FaultReason} : Meters limit before (Filter.plainly (.error fault)) (.error fault) :=
  plainly (by rintro _ ⟨⟩)

end Meters

namespace Input

theorem visit_ok {limits : DecodeLimits} {input after : Input} {depth : Nat} (h : input.visit limits depth = .ok after) :
    depth ≤ limits.depth ∧ after.remainingValues + 1 = input.remainingValues ∧ after.bytes = input.bytes := by
  unfold visit at h
  split_ifs at h with hdeep hlarge
  cases h
  exact ⟨by omega, by dsimp only; omega, rfl⟩

theorem visit_meters (limits : DecodeLimits) (input : Input) (depth : Nat) :
    Meters limits.depth input (input.visitLogged limits depth) (input.visit limits depth) := by
  cases hvisit : input.visit limits depth with
  | error fault =>
    unfold visitLogged
    rw [hvisit]
    exact ⟨rfl, emits_call _, Nat.zero_le _, by rintro _ ⟨⟩⟩
  | ok after =>
    obtain ⟨hdepth, hvalues, hbytes⟩ := visit_ok hvisit
    unfold visitLogged
    rw [hvisit]
    have hlog : (plainly (.ok after) >>= fun input => emit depth >>= fun _ => Pure.pure input :
        LoggedPass Input).trace = [depth] := rfl
    refine ⟨rfl, ?_, ?_, ?_⟩
    · intro d hd
      rw [hlog, List.mem_singleton] at hd
      omega
    · rw [hlog, List.length_singleton]
      omega
    · rintro _ ⟨⟩
      rw [hlog, List.length_singleton, hbytes]
      omega

theorem take_ok {input : Input} {count : Nat} {out : List UInt8 × Input} (h : input.take count = .ok out) :
    Keeps input out.2 ∧ out.2.bytes.length + count = input.bytes.length := by
  unfold take at h
  split_ifs at h with hlength
  cases h
  refine ⟨⟨rfl, ?_⟩, ?_⟩
  · simp
  · simp only [List.length_drop]
    omega

/-- A number takes at least one byte. -/
theorem varint_ok {left shift result : Nat} {input : Input} {out : Nat × Input}
    (h : input.varint left shift result = .ok out) :
    Keeps input out.2 ∧ out.2.bytes.length < input.bytes.length := by
  induction left generalizing shift result input with
  | zero => cases h
  | succ left ih =>
    simp only [varint, bind_ok] at h
    obtain ⟨taken, htake, _, -, h⟩ := h
    obtain ⟨hkeeps, hlength⟩ := take_ok htake
    split_ifs at h with hlast
    · cases h
      exact ⟨hkeeps, by dsimp only; omega⟩
    · obtain ⟨hkeeps', hlength'⟩ := ih h
      exact ⟨⟨hkeeps'.1.trans hkeeps.1, by omega⟩, by omega⟩

theorem long_ok {input : Input} {out : Int × Input} (h : input.long = .ok out) :
    Keeps input out.2 ∧ out.2.bytes.length < input.bytes.length := by
  simp only [long, bind_ok, pure_ok] at h
  obtain ⟨raw, hraw, rfl⟩ := h
  exact varint_ok hraw

theorem sized_ok {input after : Input} (h : input.sized = .ok after) : Keeps input after := by
  simp only [sized, bind_ok, pure_ok] at h
  obtain ⟨value, hvalue, count, -, taken, htaken, rfl⟩ := h
  obtain ⟨⟨hvalues, hbytes⟩, -⟩ := long_ok hvalue
  obtain ⟨⟨hvalues', hbytes'⟩, -⟩ := take_ok htaken
  exact ⟨hvalues'.trans hvalues, Nat.le_trans hbytes' hbytes⟩

theorem blockEnd_ok {count : Int} {input : Input} {out : Option Nat × Input} (h : input.blockEnd count = .ok out) :
    Keeps input out.2 := by
  unfold blockEnd at h
  split_ifs at h with hcount
  · simp only [bind_ok, pure_ok] at h
    obtain ⟨value, hvalue, _, -, _, -, rfl⟩ := h
    exact (long_ok hvalue).1
  · cases h
    exact ⟨rfl, Nat.le_refl _⟩

theorem argument_ok {input : Input} {info : Nat} {out : Nat × Input} (h : input.argument info = .ok out) :
    Keeps input out.2 := by
  unfold argument at h
  split_ifs at h with hinfo
  · simp only [bind_ok, pure_ok] at h
    obtain ⟨_, -, taken, htaken, rfl⟩ := h
    exact (take_ok htaken).1
  · cases h
    exact ⟨rfl, Nat.le_refl _⟩

/-! ## The loops -/

theorem times_meters {limit : Nat} {logged : Input → LoggedPass Input} {step : Input → Except FaultReason Input}
    (count : Nat) (input : Input)
    (h : ∀ next : Input, next.remainingValues ≤ input.remainingValues → Meters limit next (logged next) (step next)) :
    Meters limit input (timesLogged count logged input) (times count step input) := by
  induction count generalizing input with
  | zero => exact .pure ⟨rfl, Nat.le_refl _⟩
  | succ count ih =>
    simp only [timesLogged, times]
    have hfirst := h input (Nat.le_refl _)
    refine hfirst.bind fun middle hmiddle => ih middle fun next hnext => ?_
    have := (hfirst.returns middle hmiddle).1
    exact h next (by omega)

theorem each_meters {α : Type} {limit : Nat} {logged : α → Input → LoggedPass Input}
    {step : α → Input → Except FaultReason Input} (items : List α) (input : Input)
    (h : ∀ item (next : Input), next.remainingValues ≤ input.remainingValues →
      Meters limit next (logged item next) (step item next)) :
    Meters limit input (eachLogged logged items input) (each step items input) := by
  induction items generalizing input with
  | nil => exact .pure ⟨rfl, Nat.le_refl _⟩
  | cons item items ih =>
    simp only [eachLogged, each]
    have hfirst := h item input (Nat.le_refl _)
    refine hfirst.bind fun middle hmiddle => ih middle fun item next hnext => ?_
    have := (hfirst.returns middle hmiddle).1
    exact h item next (by omega)

/-- Every block takes a byte for its count, so the bytes bound the blocks. -/
theorem blocks_meters {limit : Nat} {logged : Input → LoggedPass Input} {item : Input → Except FaultReason Input}
    (keyed : Bool) (fuel : Nat) (input : Input) (hfuel : input.bytes.length < fuel)
    (h : ∀ next : Input, next.remainingValues ≤ input.remainingValues → Meters limit next (logged next) (item next)) :
    Meters limit input (blocksLogged logged keyed fuel input) (blocks item keyed fuel input) := by
  induction fuel generalizing input with
  | zero => omega
  | succ fuel ih =>
    simp only [blocksLogged, blocks]
    refine .step (·.2) (fun out hout => (long_ok hout).1) fun count hcount => ?_
    obtain ⟨⟨hvalues, -⟩, hlonger⟩ := long_ok hcount
    by_cases hzero : count.1 = 0
    · rw [if_pos hzero, if_pos hzero]
      exact .pure ⟨rfl, Nat.le_refl _⟩
    · rw [if_neg hzero, if_neg hzero]
      refine .step (·.2) (fun out hout => blockEnd_ok hout) fun ending hending => ?_
      obtain ⟨hvalues', hbytes'⟩ := blockEnd_ok hending
      refine .check (.check ?_)
      have hitem (next : Input) (hnext : next.remainingValues ≤ ending.2.remainingValues) :
          Meters limit next (if keyed then plainly next.sized >>= logged else logged next)
            (if keyed then next.sized >>= item else item next) := by
        cases keyed with
        | false => exact h next (by omega)
        | true =>
          refine .step id (fun after hafter => sized_ok hafter) fun after hafter => ?_
          have := (sized_ok hafter).1
          exact h after (by omega)
      have hitems := times_meters count.1.natAbs ending.2 hitem
      refine hitems.bind fun middle hmiddle => .check ?_
      obtain ⟨hspent, hbytes''⟩ := hitems.returns middle hmiddle
      exact ih middle (by omega) fun next hnext => h next (by omega)

/-! ## The passes -/

/-- A visit goes before each recursion, so the values left bound it. -/
theorem avro_meters (limits : DecodeLimits) (names : String → Option AvroSchema) (fuel : Nat) (schema : AvroSchema)
    (depth : Nat) (input : Input) (hfuel : input.remainingValues < fuel) :
    Meters limits.depth input (avroLogged limits names fuel schema depth input)
      (avro limits names fuel schema depth input) := by
  induction fuel generalizing schema depth input with
  | zero => omega
  | succ fuel ih =>
    simp only [avroLogged, avro]
    refine (visit_meters limits input depth).bind fun visited hvisited => ?_
    obtain ⟨-, hvalues, -⟩ := visit_ok hvisited
    have hkept : Meters limits.depth visited (pure visited) (pure visited) := .pure ⟨rfl, Nat.le_refl _⟩
    have hrec (schema : AvroSchema) (depth : Nat) (next : Input)
        (hnext : next.remainingValues ≤ visited.remainingValues) := ih schema depth next (by omega)
    cases schema with
    | null => exact hkept
    | boolean =>
      refine .step (·.2) (fun out hout => (take_ok hout).1) fun out _ => .check ?_
      exact .pure ⟨rfl, Nat.le_refl _⟩
    | number =>
      refine .step (·.2) (fun out hout => (long_ok hout).1) fun out _ => ?_
      exact .pure ⟨rfl, Nat.le_refl _⟩
    | float =>
      refine .step (·.2) (fun out hout => (take_ok hout).1) fun out _ => .check ?_
      exact .pure ⟨rfl, Nat.le_refl _⟩
    | double =>
      refine .step (·.2) (fun out hout => (take_ok hout).1) fun out _ => .check ?_
      exact .pure ⟨rfl, Nat.le_refl _⟩
    | sized => exact .plainly fun after hafter => sized_ok hafter
    | fixed size =>
      refine .step (·.2) (fun out hout => (take_ok hout).1) fun out _ => ?_
      exact .pure ⟨rfl, Nat.le_refl _⟩
    | union variants =>
      refine .step (·.2) (fun out hout => (long_ok hout).1) fun value hvalue => ?_
      have := (long_ok hvalue).1.1
      refine .step (fun _ => value.2) (fun _ _ => ⟨rfl, Nat.le_refl _⟩) fun index _ => ?_
      cases variants[index]? with
      | none => exact .fault
      | some variant => exact hrec variant (depth + 1) value.2 (by omega)
    | record fields =>
      exact each_meters fields visited fun field next hnext => hrec field.2 (depth + 1) next hnext
    | ref name =>
      dsimp only
      cases names name with
      | none => exact .fault
      | some schema => exact hrec schema depth visited (Nat.le_refl _)
    | array items => exact blocks_meters false _ visited (by omega) fun next hnext => hrec items (depth + 1) next hnext
    | map types => exact blocks_meters true _ visited (by omega) fun next hnext => hrec types (depth + 1) next hnext

/-- A visit fails before the fuel is spent. -/
theorem cbor_meters (limits : DecodeLimits) (fuel depth : Nat) (input : Input) (hdepth : depth ≤ limits.depth + 1)
    (hfuel : limits.depth + 2 ≤ depth + fuel) :
    Meters limits.depth input (cborLogged limits fuel depth input) (cbor limits fuel depth input) := by
  induction fuel generalizing depth input with
  | zero => omega
  | succ fuel ih =>
    simp only [cborLogged, cbor]
    refine (visit_meters limits input depth).bind fun visited hvisited => ?_
    have hwithin := (visit_ok hvisited).1
    refine .step (·.2) (fun out hout => (take_ok hout).1) fun head _ => .check ?_
    refine .step (·.2) (fun out hout => argument_ok hout) fun argument _ => ?_
    by_cases htext : (head.1.headD 0).toNat / 32 = 2 ∨ (head.1.headD 0).toNat / 32 = 3
    · rw [if_pos htext, if_pos htext]
      refine .step (·.2) (fun out hout => (take_ok hout).1) fun out _ => ?_
      exact .pure ⟨rfl, Nat.le_refl _⟩
    · rw [if_neg htext, if_neg htext]
      by_cases hcontainer : (head.1.headD 0).toNat / 32 = 4 ∨ (head.1.headD 0).toNat / 32 = 5
      · rw [if_pos hcontainer, if_pos hcontainer]
        refine .check (.check ?_)
        exact times_meters _ _ fun next _ => ih (depth + 1) next (by omega) (by omega)
      · rw [if_neg hcontainer, if_neg hcontainer]
        exact .pure ⟨rfl, Nat.le_refl _⟩

section

variable {Descriptor : Type} (messages : Descriptor → Nat → Option Descriptor) (limits : DecodeLimits)

theorem protobufField_meters {limit : Nat} {logged : Descriptor → Input → LoggedPass Input}
    {message : Descriptor → Input → Except FaultReason Input} (nested : Nat → Option Descriptor)
    (field wireType : Nat) (input : Input)
    (h : ∀ descriptor next, Meters limit next (logged descriptor next) (message descriptor next)) :
    Meters limit input (protobufFieldLogged logged nested field wireType input)
      (protobufField message nested field wireType input) := by
  unfold protobufFieldLogged protobufField
  split
  · refine .step (·.2) (fun out hout => (varint_ok hout).1) fun out _ => ?_
    exact .pure ⟨rfl, Nat.le_refl _⟩
  · refine .step (·.2) (fun out hout => (take_ok hout).1) fun out _ => ?_
    exact .pure ⟨rfl, Nat.le_refl _⟩
  · refine .step (·.2) (fun out hout => (varint_ok hout).1) fun count _ => ?_
    refine .step (·.2) (fun out hout => (take_ok hout).1) ?_
    rintro ⟨data, rest⟩ -
    cases nested field with
    | none => exact .pure ⟨rfl, Nat.le_refl _⟩
    | some descriptor => exact (h descriptor ⟨data, rest.remainingValues⟩).child
  · refine .step (·.2) (fun out hout => (take_ok hout).1) fun out _ => ?_
    exact .pure ⟨rfl, Nat.le_refl _⟩
  · exact .fault

theorem protobufFields_meters {limit : Nat} {logged : Descriptor → Input → LoggedPass Input}
    {message : Descriptor → Input → Except FaultReason Input} (nested : Nat → Option Descriptor)
    (fuel : Nat) (input : Input) (hfuel : input.bytes.length ≤ fuel)
    (h : ∀ descriptor next, Meters limit next (logged descriptor next) (message descriptor next)) :
    Meters limit input (protobufFieldsLogged logged nested fuel input)
      (protobufFields message nested fuel input) := by
  induction fuel generalizing input with
  | zero =>
    have hempty : input.bytes = [] := List.eq_nil_of_length_eq_zero (by omega)
    unfold protobufFieldsLogged protobufFields
    rw [if_pos hempty, if_pos hempty]
    exact .pure ⟨rfl, Nat.le_refl _⟩
  | succ fuel ih =>
    unfold protobufFieldsLogged protobufFields
    by_cases hempty : input.bytes = []
    · rw [if_pos hempty, if_pos hempty]
      exact .pure ⟨rfl, Nat.le_refl _⟩
    · rw [if_neg hempty, if_neg hempty]
      refine .step (·.2) (fun out hout => (varint_ok hout).1) fun key hkey => ?_
      have hshorter := (varint_ok hkey).2
      refine .step (fun _ => key.2) (fun _ _ => ⟨rfl, Nat.le_refl _⟩) fun field _ => ?_
      have hfield := protobufField_meters nested field (key.1 % 8) key.2 h
      refine hfield.bind fun middle hmiddle => ih middle ?_
      have := (hfield.returns middle hmiddle).2
      omega

theorem protobuf_meters (fuel : Nat) (descriptor : Descriptor) (depth : Nat) (input : Input)
    (hdepth : depth ≤ limits.depth + 1) (hfuel : limits.depth + 2 ≤ depth + fuel) :
    Meters limits.depth input (protobufLogged messages limits fuel descriptor depth input)
      (protobuf messages limits fuel descriptor depth input) := by
  induction fuel generalizing descriptor depth input with
  | zero => omega
  | succ fuel ih =>
    simp only [protobufLogged, protobuf]
    refine (visit_meters limits input depth).bind fun visited hvisited => ?_
    have hwithin := (visit_ok hvisited).1
    exact protobufFields_meters (messages descriptor) _ visited (Nat.le_refl _) fun nested next =>
      ih nested (depth + 1) next (by omega) (by omega)

end

end Input

/-! ## The bounds -/

/-- What a payload's pass may do: end, visit no more values than the budget
has, and when it succeeds have gone no deeper than the limits let it. -/
structure Bounded {α : Type} (limits : DecodeLimits) (logged : LoggedPass α) (result : Except FaultReason α) : Prop where
  ends : logged.result ≠ .error none
  agrees : logged.result = result.mapError some
  visits : logged.trace.length ≤ max limits.maxPayloadBytes 1
  depths : ∀ a, result = .ok a → ∀ depth ∈ logged.trace, depth ≤ min limits.maxDepth maxFilterParseDepth

theorem mapError_ne_none {α : Type} (result : Except FaultReason α) : result.mapError some ≠ .error none := by
  cases result with
  | error fault => simp [Except.mapError]
  | ok a => simp [Except.mapError]

theorem Meters.bounded {limits : DecodeLimits} {payload : List UInt8} {logged : LoggedPass Input}
    {result : Except FaultReason Input} (h : Meters limits.depth (.new payload limits) logged result) :
    Bounded limits logged result where
  ends := by
    rw [h.agrees]
    exact mapError_ne_none result
  agrees := h.agrees
  visits := h.spent
  depths _ _ := h.depths

/-- A last check visits nothing. -/
theorem Bounded.then {α β : Type} {limits : DecodeLimits} {logged : LoggedPass α} {result : Except FaultReason α}
    (h : Bounded limits logged result) (check : α → Except FaultReason β) :
    Bounded limits (logged >>= fun a => plainly (check a)) (result >>= check) := by
  cases hresult : result with
  | error fault =>
    have hlogged : logged.result = .error (some fault) := by rw [h.agrees, hresult]; rfl
    rw [bind_of_error hlogged]
    exact ⟨by simp, rfl, h.visits, by rintro _ ⟨⟩⟩
  | ok a =>
    have hlogged : logged.result = .ok a := by rw [h.agrees, hresult]; rfl
    rw [bind_of_ok hlogged, ok_bind]
    have htrace : logged.trace ++ (plainly (check a)).trace = logged.trace := List.append_nil _
    rw [htrace]
    exact ⟨mapError_ne_none _, rfl, h.visits, fun _ _ => h.depths a hresult⟩

/-- Every pass ends, whatever the schema, the bytes and the limits, within the
budget of values and the depth. -/
theorem passes_bounded (limits : DecodeLimits) (payload : List UInt8) :
    (∀ names schema,
      Bounded limits (Input.scanAvroLogged limits names schema payload) (Input.scanAvro limits names schema payload)) ∧
    Bounded limits ((Input.new payload limits).cborLogged limits (limits.depth + 2) 0)
      ((Input.new payload limits).cbor limits (limits.depth + 2) 0) ∧
    ∀ (Descriptor : Type) (messages : Descriptor → Nat → Option Descriptor) (descriptor : Descriptor),
      Bounded limits ((Input.new payload limits).protobufLogged messages limits (limits.depth + 2) descriptor 0)
        ((Input.new payload limits).protobuf messages limits (limits.depth + 2) descriptor 0) := by
  refine ⟨?_, ?_, ?_⟩
  · intro names schema
    have hpass := Input.avro_meters limits names ((Input.new payload limits).remainingValues + 1) schema 0
      (.new payload limits) (Nat.lt_succ_self _)
    exact hpass.bounded.then Input.finish
  · exact (Input.cbor_meters limits _ 0 _ (by omega) (by omega)).bounded
  · intro Descriptor messages descriptor
    exact (Input.protobuf_meters messages limits _ descriptor 0 _ (by omega) (by omega)).bounded

end LaserSdk.Filter
