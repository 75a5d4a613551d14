import LaserSdk.Filter.Explain
import LaserSdk.Filter.Visits
import LaserSdk.Lib.Utf8
/-!
# Decoding only the headers a filter needs

The headers of a record arrive as one block of bytes. A filter without header
predicates reads at most the content type, and a pass of its own finds that
entry without decoding the others. We prove that the reduced headers and the
full ones lead to the same verdict and fault.
-/

namespace LaserSdk.Filter

open Lib

/-! ## Floats from their bits -/

/-- A float of the IEEE format with these widths. -/
def F64.ofBits (exponentBits fractionBits bits : Nat) : F64 :=
  let negative := bits / 2 ^ (exponentBits + fractionBits) % 2 = 1
  let exponent := bits / 2 ^ fractionBits % 2 ^ exponentBits
  let fraction := bits % 2 ^ fractionBits
  let bias : Int := 2 ^ (exponentBits - 1) - 1
  let signed : Nat → Int := fun magnitude => if negative then -magnitude else magnitude
  if exponent = 2 ^ exponentBits - 1 then if fraction = 0 then .infinite negative else .nan
  else if exponent = 0 then .finite (signed fraction) (1 - bias - fractionBits)
  else .finite (signed (2 ^ fractionBits + fraction)) (exponent - bias - fractionBits)

namespace Headers

/-! ## The block -/

/-- `bytes.get(start..stop)`. -/
def slice (bytes : List UInt8) (start stop : Nat) : Option (List UInt8) :=
  if stop ≤ bytes.length then some ((bytes.take stop).drop start) else none

/-- A kind, the length of the value in four bytes, and the value. Returns the
bytes after it. -/
def field (bytes : List UInt8) : Option ((Nat × List UInt8) × List UInt8) := do
  let kind ← bytes.head?
  let length := Input.littleEndian (← slice bytes 1 5)
  guard (kind.toNat ≠ 0 ∧ 1 ≤ length ∧ length ≤ 255)
  let value ← slice bytes 5 (5 + length)
  return ((kind.toNat, value), bytes.drop (5 + length))

/-- A key and its value. -/
def entry (bytes : List UInt8) : Option ((Nat × List UInt8) × (Nat × List UInt8) × List UInt8) := do
  let (key, bytes) ← field bytes
  let (value, bytes) ← field bytes
  return (key, value, bytes)

theorem field_shortens {bytes rest : List UInt8} {kind : Nat} {value : List UInt8}
    (h : field bytes = some ((kind, value), rest)) : rest.length < bytes.length := by
  simp only [field, Option.bind_eq_bind, Option.bind_eq_some_iff, Option.pure_def, Option.some.injEq, Prod.mk.injEq] at h
  obtain ⟨first, hfirst, -, -, -, -, -, -, -, rfl⟩ := h
  have hpos := List.length_pos_of_mem (List.mem_of_mem_head? hfirst)
  rw [List.length_drop]
  omega

theorem entry_shortens {bytes rest : List UInt8} {key value : Nat × List UInt8}
    (h : entry bytes = some (key, value, rest)) : rest.length < bytes.length := by
  simp only [entry, Option.bind_eq_bind, Option.bind_eq_some_iff, Option.pure_def, Option.some.injEq, Prod.mk.injEq] at h
  obtain ⟨⟨_, middle⟩, hkey, ⟨_, last⟩, hvalue, -, -, rfl⟩ := h
  exact Nat.lt_trans (field_shortens hvalue) (field_shortens hkey)

/-! ## Values -/

def utf8 (bytes : List UInt8) : Option String := String.fromUTF8? ⟨bytes.toArray⟩

/-- `from_le_bytes` of an unsigned integer of so many bytes. -/
def unsigned (width : Nat) (value : List UInt8) : Option Nat :=
  if value.length = width then some (Input.littleEndian value) else none

/-- The same for a signed one, in two's complement. -/
def signed (width : Nat) (value : List UInt8) : Option Int :=
  (unsigned width value).map fun bits => if bits < 2 ^ (8 * width - 1) then bits else bits - 2 ^ (8 * width)

/-- The value of a kind. An unknown kind keeps its bytes. -/
def scalar (kind : Nat) (value : List UInt8) : Option HeaderValue :=
  match kind with
  | 2 => (utf8 value).map .string
  | 3 =>
    match value with
    | [0] => some (.bool false)
    | [1] => some (.bool true)
    | _ => none
  | 4 => (signed 1 value).map .int
  | 5 => (signed 2 value).map .int
  | 6 => (signed 4 value).map .int
  | 7 => (signed 8 value).map .int
  -- 128-bit integers compare as raw bytes, but only at their width.
  | 8 | 13 => if value.length ≠ 16 then none else some (.raw value)
  | 9 => (unsigned 1 value).map .uint
  | 10 => (unsigned 2 value).map .uint
  | 11 => (unsigned 4 value).map .uint
  | 12 => (unsigned 8 value).map .uint
  | 14 => (unsigned 4 value).map fun bits => .float (.ofBits 8 23 bits)
  | 15 => (unsigned 8 value).map fun bits => .float (.ofBits 11 52 bits)
  | _ => some (.raw value)

/-! ## Decoding -/

/-- The entries from here on, behind those before. A key that is not text is
stepped over with its value. -/
def decodeLoop (bytes : List UInt8) (headers : List Header) : Option (List Header) :=
  if bytes = [] then some headers
  else
    match _ : entry bytes with
    | none => none
    | some (key, value, rest) =>
      if key.1 ≠ 2 then decodeLoop rest headers
      else do
        let name ← utf8 key.2
        let value ← scalar value.1 value.2
        decodeLoop rest (headers ++ [⟨name, value⟩])
termination_by bytes.length
decreasing_by all_goals exact entry_shortens ‹_›

def decode (bytes : List UInt8) : Option (List Header) := decodeLoop bytes []

/-- Only an integer names a codec. -/
def declared : HeaderValue → Option Header
  | .uint code => some ⟨contentTypeKey, .uint code⟩
  | .int code => some ⟨contentTypeKey, .int code⟩
  | _ => none

/-- The content type among the entries from here on, or the one found before. -/
def contentTypeLoop (bytes : List UInt8) (found : Option Header) : Option (Option Header) :=
  if bytes = [] then some found
  else
    match _ : entry bytes with
    | none => none
    | some (key, value, rest) =>
      if key.1 = 2 ∧ key.2 = utf8Bytes contentTypeKey then do
        let value ← scalar value.1 value.2
        contentTypeLoop rest (declared value)
      else contentTypeLoop rest found
termination_by bytes.length
decreasing_by all_goals exact entry_shortens ‹_›

def contentTypeOne (bytes : List UInt8) : Option (Option Header) := contentTypeLoop bytes none

end Headers

inductive HeaderNeed where
  | none
  | contentType
  | all
  deriving DecidableEq, Repr

inductive DecodedHeaders where
  | empty
  | contentType (header : Option Header)
  | all (headers : List Header)
  deriving DecidableEq, Repr

def DecodedHeaders.toList : DecodedHeaders → List Header
  | .empty => []
  | .contentType header => header.toList
  | .all headers => headers

def decodeFor (need : HeaderNeed) (bytes : List UInt8) : Option DecodedHeaders :=
  match need with
  | .none => some .empty
  | .contentType => (Headers.contentTypeOne bytes).map .contentType
  | .all => (Headers.decode bytes).map .all

def CompiledFilter.readsHeaders (compiled : CompiledFilter) : Bool :=
  compiled.filter.expr.readsHeaders || !compiled.filter.schemaRefs.isEmpty

/-- The headers to decode before evaluating. -/
def CompiledFilter.headerNeed (compiled : CompiledFilter) : HeaderNeed :=
  if compiled.readsHeaders then .all
  else if compiled.root.readsPayload then .contentType
  else .none

/-! ## The decoders of the payload -/

def schemaIdKey : String := "agdx.sid"

/-- The last schema id, if it is an unsigned one of 32 bits. -/
def schemaId (headers : List Header) : Option Nat := do
  let header ← findHeader headers schemaIdKey
  match header.value with
  | .uint id => if id < 2 ^ 32 then some id else none
  | _ => none

/-- A writer schema ready to decode: for Avro its reader, for Protobuf the
message type and the decoding of its message to a value. -/
inductive WriterSchema (Descriptor : Type) where
  | avro (schema : AvroSchema) (names : String → Option AvroSchema) (readValue : List UInt8 → Option Avro)
  | protobuf (descriptor : Descriptor) (decode : List UInt8 → Except FaultReason Value)

structure PayloadDecoders (Descriptor : Type) where
  /-- The nested message types, by field number. -/
  messages : Descriptor → Nat → Option Descriptor
  schemas : List (Nat × WriterSchema Descriptor)

section

variable {Descriptor : Type} (tokenize : List UInt8 → Option Raw)
  (fromReader : List UInt8 → Nat → Except CborError (Value × List UInt8)) (prepared : PayloadDecoders Descriptor)

/-- A CBOR payload describes itself. The other codecs look up the schema that
the headers name. -/
def PayloadDecoders.decodePaths (codec : FilterCodec) (record : FilterRecord) (limits : DecodeLimits) (paths : PathTrie) :
    Except FaultReason Value := do
  refuseIf (record.payload.length > limits.maxPayloadBytes) .tooLarge
  if codec = .cbor then decodeCbor fromReader record.payload limits
  else
    match schemaId record.headers with
    | none => .error .missingSchema
    | some id =>
      match prepared.schemas.lookup id with
      | none => .error .schemaNotAllowed
      | some (.avro schema names readValue) =>
        if codec = .avro then decodeAvroPaths readValue names schema record.payload limits paths
        else .error .schemaMismatch
      | some (.protobuf descriptor decode) =>
        if codec = .protobuf then do
          let _ ← (Input.new record.payload limits).protobuf prepared.messages limits (limits.depth + 2) descriptor 0
          decode record.payload
        else .error .schemaMismatch

def PayloadDecoders.decoders : Decoders where
  tokenize := tokenize
  decodePaths := prepared.decodePaths fromReader

end

/-! ## The content type -/

namespace Headers

theorem findHeader_append (headers : List Header) (last : Header) (key : String) :
    findHeader (headers ++ [last]) key = if last.key = key then some last else findHeader headers key := by
  rw [findHeader, List.reverse_append, List.reverse_singleton, List.singleton_append, List.find?_cons]
  by_cases h : last.key = key
  · simp [h]
  · simp [h, beq_false_of_ne h, findHeader]

/-- What the pass for the content type keeps of all headers. -/
def contentTypeOf (headers : List Header) : Option Header :=
  (findHeader headers contentTypeKey).bind fun header => declared header.value

theorem contentTypeOf_append (headers : List Header) (last : Header) :
    contentTypeOf (headers ++ [last]) = if last.key = contentTypeKey then declared last.value else contentTypeOf headers := by
  rw [contentTypeOf, findHeader_append]
  split <;> rfl

theorem utf8Bytes_utf8 {bytes : List UInt8} {text : String} (h : utf8 bytes = some text) : utf8Bytes text = bytes := by
  simp only [utf8, String.fromUTF8?] at h
  split at h
  · cases h
    exact toList_eq_data _
  · cases h

/-- A text key is the content type's exactly if its bytes are. -/
theorem utf8_eq_contentTypeKey {bytes : List UInt8} {name : String} (h : utf8 bytes = some name) :
    name = contentTypeKey ↔ bytes = utf8Bytes contentTypeKey := by
  rw [← utf8Bytes_utf8 h]
  exact ⟨congrArg utf8Bytes, ext_utf8⟩

theorem decodeLoop_entry {bytes rest : List UInt8} {key value : Nat × List UInt8}
    (h : entry bytes = some (key, value, rest)) (headers : List Header) :
    decodeLoop bytes headers =
      if key.1 ≠ 2 then decodeLoop rest headers
      else (utf8 key.2).bind fun name => (scalar value.1 value.2).bind fun value =>
        decodeLoop rest (headers ++ [⟨name, value⟩]) := by
  have hne : bytes ≠ [] := by
    rintro rfl
    cases h
  rw [decodeLoop, if_neg hne]
  split
  · simp_all
  · rename_i hentry
    cases h.symm.trans hentry
    rfl

theorem contentTypeLoop_entry {bytes rest : List UInt8} {key value : Nat × List UInt8}
    (h : entry bytes = some (key, value, rest)) (found : Option Header) :
    contentTypeLoop bytes found =
      if key.1 = 2 ∧ key.2 = utf8Bytes contentTypeKey then
        (scalar value.1 value.2).bind fun value => contentTypeLoop rest (declared value)
      else contentTypeLoop rest found := by
  have hne : bytes ≠ [] := by
    rintro rfl
    cases h
  rw [contentTypeLoop, if_neg hne]
  split
  · simp_all
  · rename_i hentry
    cases h.symm.trans hentry
    rfl

/-- The two passes go through the same entries, and at each of them the found
content type is that of the headers decoded so far. -/
theorem contentTypeLoop_of_decodeLoop {bytes : List UInt8} {before headers : List Header}
    (h : decodeLoop bytes before = some headers) :
    contentTypeLoop bytes (contentTypeOf before) = some (contentTypeOf headers) := by
  induction bytes, before using decodeLoop.induct with
  | case1 before =>
    rw [decodeLoop, if_pos rfl] at h
    cases h
    rw [contentTypeLoop, if_pos rfl]
  | case2 bytes before hne hentry =>
    rw [decodeLoop, if_neg hne] at h
    split at h
    · cases h
    · simp_all
  | case3 bytes before hne key value rest hentry hkind ih =>
    rw [decodeLoop_entry hentry, if_pos hkind] at h
    rw [contentTypeLoop_entry hentry, if_neg (mt And.left hkind)]
    exact ih h
  | case4 bytes before hne key value rest hentry hkind ih =>
    rw [decodeLoop_entry hentry, if_neg hkind] at h
    simp only [Option.bind_eq_some_iff] at h
    obtain ⟨name, hname, held, hheld, hrest⟩ := h
    have hfound := ih name held hrest
    rw [contentTypeOf_append] at hfound
    rw [contentTypeLoop_entry hentry, hheld]
    rw [not_not] at hkind
    by_cases hkey : name = contentTypeKey
    · rw [if_pos hkey] at hfound
      rw [if_pos ⟨hkind, (utf8_eq_contentTypeKey hname).1 hkey⟩]
      exact hfound
    · rw [if_neg hkey] at hfound
      rw [if_neg fun h => hkey ((utf8_eq_contentTypeKey hname).2 h.2)]
      exact hfound

theorem findHeader_contentTypeOf (headers : List Header) :
    findHeader (contentTypeOf headers).toList contentTypeKey = contentTypeOf headers := by
  rw [contentTypeOf]
  cases findHeader headers contentTypeKey with
  | none => rfl
  | some header =>
    show findHeader (declared header.value).toList contentTypeKey = declared header.value
    cases header.value <;> rfl

end Headers

/-- Whether the codec is foreign depends on the kept content type alone. -/
theorem declaresForeignCodec_contentTypeOf (codec : FilterCodec) (headers : List Header) :
    declaresForeignCodec codec (Headers.contentTypeOf headers).toList = declaresForeignCodec codec headers := by
  rw [declaresForeignCodec, declaresForeignCodec, Headers.findHeader_contentTypeOf, Headers.contentTypeOf]
  cases findHeader headers contentTypeKey with
  | none => rfl
  | some header =>
    obtain ⟨key, value⟩ := header
    cases value <;> rfl

/-! ## Nodes that read no headers -/

mutual

def Node.readsHeaders : Node → Bool
  | .all children | .any children => anyNodeReadsHeaders children
  | .not child => child.readsHeaders
  | .header _ _ _ | .headerText _ _ => true
  | .compare _ _ _ | .coerced _ _ _ _ | .present _ | .absent _ | .text _ _ => false

def anyNodeReadsHeaders : List Node → Bool
  | [] => false
  | child :: rest => child.readsHeaders || anyNodeReadsHeaders rest

end

mutual

theorem readsHeaders_compile {host : Host} : {expr : FilterExpr} → {node : Node} → compileNode host expr = .ok node →
    node.readsHeaders = expr.readsHeaders
  | .all children, node, h => by
    obtain ⟨nodes, hnodes, rfl⟩ := map_ok.1 h
    exact anyReadsHeaders_compile hnodes
  | .any children, node, h => by
    obtain ⟨nodes, hnodes, rfl⟩ := map_ok.1 h
    exact anyReadsHeaders_compile hnodes
  | .not child, node, h => by
    obtain ⟨inner, hinner, rfl⟩ := map_ok.1 h
    have hchild := readsHeaders_compile hinner
    exact hchild
  | .pred predicate, node, h => by
    simp only [compileNode, bind_ok, pure_ok] at h
    obtain ⟨path, -, literal, -, rfl⟩ := h
    rfl
  | .predAs coerced, node, h => by
    simp only [compileNode, bind_ok, pure_ok] at h
    obtain ⟨path, -, literal, -, rfl⟩ := h
    rfl
  | .present path, node, h => by
    cases h
    rfl
  | .absent path, node, h => by
    cases h
    rfl
  | .text predicate, node, h => by
    simp only [compileNode, bind_ok, pure_ok] at h
    obtain ⟨path, -, matcher, -, rfl⟩ := h
    rfl
  | .header predicate, node, h => by
    obtain ⟨literal, -, rfl⟩ := map_ok.1 h
    rfl
  | .headerText predicate, node, h => by
    obtain ⟨matcher, -, rfl⟩ := map_ok.1 h
    rfl

theorem anyReadsHeaders_compile {host : Host} : {exprs : List FilterExpr} → {nodes : List Node} →
    compileNodes host exprs = .ok nodes → anyNodeReadsHeaders nodes = anyReadsHeaders exprs
  | [], nodes, h => by
    cases h
    rfl
  | expr :: rest, nodes, h => by
    simp only [compileNodes, bind_ok, pure_ok] at h
    obtain ⟨node, hnode, nodes, hnodes, rfl⟩ := h
    rw [anyNodeReadsHeaders, anyReadsHeaders, readsHeaders_compile hnode, anyReadsHeaders_compile hnodes]

end

mutual

/-- A node that reads no headers is judged the same under other headers, if
the payload is the same wherever it is read. -/
theorem truth_headers {left right : Context} (hhost : left.host = right.host) : (node : Node) → (mismatched : Bool) →
    node.readsHeaders = false → (node.readsPayload = true → left.payload = right.payload) →
    left.truth mismatched node = right.truth mismatched node
  | .all children, mismatched, h, hpayload => by
    have hpass := fun reads unknown mismatched =>
      pass_headers hhost children reads .noMatch unknown mismatched h hpayload
    simp only [Context.truth, hpass]
  | .any children, mismatched, h, hpayload => by
    have hpass := fun reads unknown mismatched =>
      pass_headers hhost children reads .isMatch unknown mismatched h hpayload
    simp only [Context.truth, hpass]
  | .not child, mismatched, h, hpayload => by
    have hchild := truth_headers hhost child mismatched h hpayload
    simp only [Context.truth, hchild]
  | .header _ _ _, _, h, _ | .headerText _ _, _, h, _ => nomatch h
  | .compare _ _ _, _, _, hpayload | .coerced _ _ _ _, _, _, hpayload | .present _, _, _, hpayload
  | .absent _, _, _, hpayload | .text _ _, _, _, hpayload => by
    simp only [Context.truth, Context.payloadTruth, hpayload rfl, hhost]

theorem pass_headers {left right : Context} (hhost : left.host = right.host) : (children : List Node) → (reads : Bool) →
    (decisive : Truth) → (unknown mismatched : Bool) → anyNodeReadsHeaders children = false →
    (anyNodeReadsPayload children = true → left.payload = right.payload) →
    left.pass reads decisive unknown mismatched children = right.pass reads decisive unknown mismatched children
  | [], _, _, _, _, _, _ => by simp only [Context.pass]
  | child :: rest, reads, decisive, unknown, mismatched, h, hpayload => by
    rw [anyNodeReadsHeaders, Bool.or_eq_false_iff] at h
    rw [anyNodeReadsPayload, Bool.or_eq_true] at hpayload
    have hchild := truth_headers hhost child mismatched h.1 fun hreads => hpayload (.inl hreads)
    have hrest := fun unknown mismatched => pass_headers hhost rest reads decisive unknown mismatched h.2
      fun hreads => hpayload (.inr hreads)
    simp only [Context.pass, hchild, hrest]

end

/-! ## The reduced headers suffice -/

/-- Other headers give the same verdict to a filter that reads none, if the
payload is decoded to the same. -/
theorem evaluateWithFault_headers {compiled : CompiledFilter} {payload : List UInt8} {left right : List Header}
    {limits : DecodeLimits} (h : compiled.root.readsHeaders = false)
    (hpayload : compiled.root.readsPayload = true →
      decodePayload compiled.decoders compiled.filter.codec ⟨payload, left⟩ limits compiled.paths =
        decodePayload compiled.decoders compiled.filter.codec ⟨payload, right⟩ limits compiled.paths) :
    compiled.evaluateWithFault ⟨payload, left⟩ limits = compiled.evaluateWithFault ⟨payload, right⟩ limits := by
  have htruth := @truth_headers (compiled.context ⟨payload, left⟩ limits) (compiled.context ⟨payload, right⟩ limits) rfl
    compiled.root false h hpayload
  rw [CompiledFilter.evaluateWithFault, CompiledFilter.evaluateWithFault, htruth]

/-- A filter with a payload codec and no schemas decodes JSON or CBOR. -/
theorem codec_of_valid {host : Host} {encodedBytes : ConsumerFilter → Nat} {filter : ConsumerFilter} {u : Unit}
    (h : filter.validate host encodedBytes = .ok u) (hrefs : filter.schemaRefs.isEmpty = true) :
    filter.codec ≠ .avro ∧ filter.codec ≠ .protobuf := by
  simp only [ConsumerFilter.validate, bind_ok, refuseIf_ok] at h
  obtain ⟨-, -, -, -, -, hcodec, -⟩ := h
  simpa [hrefs] using hcodec

section

variable {Descriptor : Type} {tokenize : List UInt8 → Option Raw}
  {fromReader : List UInt8 → Nat → Except CborError (Value × List UInt8)} {prepared : PayloadDecoders Descriptor}

/-- Without schemas the payload is decoded from the content type and the bytes
alone. -/
theorem decodePayload_contentTypeOf {codec : FilterCodec} (h : codec ≠ .avro ∧ codec ≠ .protobuf) (payload : List UInt8)
    (headers : List Header) (limits : DecodeLimits) (paths : PathTrie) :
    decodePayload (prepared.decoders tokenize fromReader) codec ⟨payload, (Headers.contentTypeOf headers).toList⟩ limits paths =
      decodePayload (prepared.decoders tokenize fromReader) codec ⟨payload, headers⟩ limits paths := by
  simp only [decodePayload, declaresForeignCodec_contentTypeOf]
  cases codec with
  | avro => exact absurd rfl h.1
  | protobuf => exact absurd rfl h.2
  | json | cbor | headersOnly | unknown => rfl

/-- The headers a filter needs are there whenever the block decodes, and the
record is judged by them as by all headers. -/
theorem needed_headers_suffice {host : Host} {encodedBytes : ConsumerFilter → Nat} {filter : ConsumerFilter}
    {compiled : CompiledFilter} {bytes : List UInt8} {headers : List Header}
    (hcompile : CompiledFilter.compile host encodedBytes (prepared.decoders tokenize fromReader) filter = .ok compiled)
    (hdecode : Headers.decode bytes = some headers) :
    ∃ decoded, decodeFor compiled.headerNeed bytes = some decoded ∧ ∀ payload limits,
      compiled.evaluateWithFault ⟨payload, decoded.toList⟩ limits = compiled.evaluateWithFault ⟨payload, headers⟩ limits := by
  obtain ⟨-, hroot, -, rfl, hdecoders⟩ := compile_parts hcompile
  obtain ⟨u, hvalid, -⟩ := bind_ok.1 hcompile
  unfold CompiledFilter.headerNeed
  by_cases hreads : compiled.readsHeaders = true
  · refine ⟨.all headers, ?_, fun payload limits => rfl⟩
    rw [if_pos hreads, decodeFor, hdecode]
    rfl
  · rw [if_neg hreads]
    simp only [CompiledFilter.readsHeaders, Bool.or_eq_true, Bool.not_eq_true', not_or, Bool.not_eq_true,
      Bool.not_eq_false] at hreads
    have hnoHeaders := (readsHeaders_compile hroot).trans hreads.1
    by_cases hpayload : compiled.root.readsPayload = true
    · refine ⟨.contentType (Headers.contentTypeOf headers), ?_,
        fun payload limits => evaluateWithFault_headers hnoHeaders fun _ => ?_⟩
      · rw [if_pos hpayload, decodeFor, Headers.contentTypeOne]
        exact congrArg (Option.map _) (Headers.contentTypeLoop_of_decodeLoop hdecode)
      · rw [hdecoders]
        exact decodePayload_contentTypeOf (codec_of_valid hvalid hreads.2) payload headers limits compiled.paths
    · refine ⟨.empty, ?_, fun payload limits => evaluateWithFault_headers hnoHeaders fun h => absurd h hpayload⟩
      rw [if_neg hpayload, decodeFor]

end

/-- An entry that declares a content type in one byte. -/
def declares (code : UInt8) : List UInt8 := [2, 7, 0, 0, 0, 97, 103, 100, 120, 46, 99, 116, 9, 1, 0, 0, 0, code]

theorem decodeLoop_declares (code : UInt8) (rest : List UInt8) (headers : List Header) :
    Headers.decodeLoop (declares code ++ rest) headers =
      Headers.decodeLoop rest (headers ++ [⟨contentTypeKey, .uint code.toNat⟩]) := by
  have hentry : Headers.entry (declares code ++ rest) =
      some ((2, [97, 103, 100, 120, 46, 99, 116]), (9, [code]), rest) := by
    simp [Headers.entry, Headers.field, Headers.slice, declares, Input.littleEndian, guard]
  have hname : Headers.utf8 [97, 103, 100, 120, 46, 99, 116] = some contentTypeKey := by decide +kernel
  rw [Headers.decodeLoop_entry hentry, hname]
  simp [Headers.scalar, Headers.unsigned, Input.littleEndian]

def noSchemas : PayloadDecoders Unit := ⟨fun _ _ => none, []⟩

theorem needed_headers_suffice_repeated : ∃ compiled decoded,
    CompiledFilter.compile plainHost (fun _ => 140)
        (noSchemas.decoders (fun _ => none) fun _ _ => .error .other) (equalsOne "a") = .ok compiled ∧
      Headers.decode (declares 1 ++ declares 3) = some [⟨contentTypeKey, .uint 1⟩, ⟨contentTypeKey, .uint 3⟩] ∧
      decodeFor compiled.headerNeed (declares 1 ++ declares 3) = some decoded ∧
      compiled.evaluateWithFault ⟨[120], decoded.toList⟩ ⟨100, 64⟩ = (.rejected, some .foreignCodec) := by
  have hvalid : (equalsOne "a").validate plainHost (fun _ => 140) = .ok () := by decide +kernel
  have hcompile := compile_equalsOne parse_field_a hvalid (noSchemas.decoders (fun _ => none) fun _ _ => .error .other)
  have hdecode : Headers.decode (declares 1 ++ declares 3) =
      some [⟨contentTypeKey, .uint 1⟩, ⟨contentTypeKey, .uint 3⟩] := by
    rw [Headers.decode, decodeLoop_declares, ← List.append_nil (declares 3), decodeLoop_declares, Headers.decodeLoop,
      if_pos rfl]
    rfl
  obtain ⟨decoded, hdecoded, hsame⟩ := needed_headers_suffice hcompile hdecode
  refine ⟨_, decoded, hcompile, hdecode, hdecoded, ?_⟩
  rw [hsame]
  rfl

end LaserSdk.Filter
