import Mathlib.Data.List.Induction
import LaserSdk.Sign.Envelope
/-!
# The key registry

A registry keeps the last record enrolled under each key id. An envelope is
accepted when the key its signature names is enrolled, not revoked, inside its
window, and checks over the signing input rebuilt from the envelope and the
context. With signatures that cannot be forged, what is accepted was signed,
field for field and in the context observed on the record.
-/

namespace LaserSdk.Sign

open LaserSdk.Lib

inductive KeyKind where
  | agent
  | operator
  deriving DecidableEq, Repr

structure VerifiedPrincipal where
  principal : String
  kind : KeyKind
  deriving DecidableEq, Repr

/-- An enrolled key with its lifecycle, in epoch micros. -/
structure KeyRecord where
  principal : String
  verifying : Bytes
  kind : KeyKind
  validFromMicros : Nat
  validToMicros : Option Nat
  revoked : Bool
  deriving DecidableEq, Repr

/-- SHA-256 and the Ed25519 check of a key, a message and a signature. -/
structure Crypto where
  sha256 : Bytes → Bytes
  verify : Bytes → Bytes → Bytes → Bool

/-- The first bytes of the key's SHA-256. -/
def keyIdOf (crypto : Crypto) (verifying : Bytes) : Bytes := (crypto.sha256 verifying).take keyIdBytes

namespace KeyRecord

def new (principal : String) (verifying : Bytes) (kind : KeyKind) : KeyRecord :=
  ⟨principal, verifying, kind, 0, none, false⟩

def agent (principal : String) (verifying : Bytes) : KeyRecord := .new principal verifying .agent

def operator (principal : String) (verifying : Bytes) : KeyRecord := .new principal verifying .operator

end KeyRecord

/-- The records by key id. -/
structure KeyRegistry where
  keys : List (Bytes × KeyRecord)

namespace KeyRegistry

section

variable (crypto : Crypto) (codec : Codec)

def new : KeyRegistry := ⟨[]⟩

/-- A later record under the same key id replaces the earlier one. -/
def enrollRecord (registry : KeyRegistry) (record : KeyRecord) : KeyRegistry :=
  let keyId := keyIdOf crypto record.verifying
  ⟨(keyId, record) :: registry.keys.filter (·.1 != keyId)⟩

def enroll (registry : KeyRegistry) (principal : String) (verifying : Bytes) : KeyRegistry :=
  registry.enrollRecord crypto (.agent principal verifying)

def enrollOperator (registry : KeyRegistry) (principal : String) (verifying : Bytes) : KeyRegistry :=
  registry.enrollRecord crypto (.operator principal verifying)

/-- The window, when the caller has a clock. -/
def checkWindow (record : KeyRecord) : Option Nat → Except LaserError Unit
  | none => return ()
  | some now => do
    refuseIf (now < record.validFromMicros) (.signature "signing key is not yet valid")
    refuseIf (record.validToMicros.any (· ≤ now)) (.signature "signing key has expired")

def check (registry : KeyRegistry) (envelope : AgentEnvelope) (atMicros : Option Nat) :
    Except LaserError VerifiedPrincipal := do
  let signature ← envelope.signature.elim (.error (.signature "envelope is not signed")) .ok
  refuseIf (signature.scheme ≠ signatureSchemeEd25519) (.signature s!"unsupported signature scheme {signature.scheme}")
  let record ← (registry.keys.lookup signature.keyId).elim (.error (.signature "signing key is not enrolled")) .ok
  refuseIf (record.revoked = true) (.signature "signing key is revoked")
  checkWindow record atMicros
  refuseIf (signature.bytes.length ≠ signatureBytes) (.signature "malformed Ed25519 signature")
  let input ← signingInput codec envelope signature.context
  refuseIf (crypto.verify record.verifying input signature.bytes = false) (.signature "signature verification failed")
  return ⟨record.principal, record.kind⟩

def verify (registry : KeyRegistry) (envelope : AgentEnvelope) : Except LaserError String := do
  let verified ← registry.check crypto codec envelope none
  return verified.principal

def verifyAt (registry : KeyRegistry) (envelope : AgentEnvelope) (atMicros : Nat) : Except LaserError VerifiedPrincipal :=
  registry.check crypto codec envelope (some atMicros)

def verifyObservedAt (registry : KeyRegistry) (envelope : AgentEnvelope) (observed : SignatureContext) (atMicros : Nat) :
    Except LaserError VerifiedPrincipal := do
  let signed ← (envelope.signature.bind (·.context)).elim
    (.error (.signature "signature does not bind record headers")) .ok
  refuseIf (signed ≠ observed) (.signature "signature context differs from record headers")
  registry.check crypto codec envelope (some atMicros)

/-- The registry after the records were enrolled in this order. -/
def enrolled (records : List KeyRecord) : KeyRegistry := records.foldl (·.enrollRecord crypto) new

end

/-! ## What a registry answers -/

section

variable {crypto : Crypto} {codec : Codec}

theorem elim_ok {α : Type} {x : Option α} {e : LaserError} {a : α} : x.elim (.error e) Except.ok = .ok a ↔ x = some a := by
  cases x <;> simp

theorem lookup_enrollRecord (registry : KeyRegistry) (record : KeyRecord) (keyId : Bytes) :
    (registry.enrollRecord crypto record).keys.lookup keyId =
      if keyIdOf crypto record.verifying = keyId then some record else registry.keys.lookup keyId := by
  by_cases hid : keyIdOf crypto record.verifying = keyId
  · simp [enrollRecord, hid]
  · have hne : (keyId == keyIdOf crypto record.verifying) = false := beq_false_of_ne (Ne.symm hid)
    simp only [enrollRecord, List.lookup_cons, hne, hid, if_false]
    -- The filter drops other ids only.
    induction registry.keys with
    | nil => rfl
    | cons entry rest ih =>
      obtain ⟨id, other⟩ := entry
      by_cases hsame : keyId = id
      · subst hsame
        simp [Ne.symm hid]
      · by_cases hkept : id = keyIdOf crypto record.verifying
        · simp [List.lookup_cons, hkept, ← ih, hne]
        · simp [List.lookup_cons, beq_false_of_ne hsame, hkept, ih]

/-- The record found under a key id is the last one enrolled with it. -/
theorem lookup_enrolled (records : List KeyRecord) (keyId : Bytes) :
    (enrolled crypto records).keys.lookup keyId =
      records.reverse.find? (fun record => keyIdOf crypto record.verifying == keyId) := by
  induction records using List.reverseRecOn with
  | nil => rfl
  | append_singleton records record ih =>
    rw [enrolled, List.foldl_append, List.foldl_cons, List.foldl_nil, ← enrolled, lookup_enrollRecord, ih,
      List.reverse_append, List.reverse_singleton, List.singleton_append, List.find?_cons]
    by_cases hid : keyIdOf crypto record.verifying = keyId
    · simp [hid]
    · simp [hid, beq_false_of_ne hid]

/-- What an accepted envelope went through. -/
theorem check_ok {registry : KeyRegistry} {envelope : AgentEnvelope} {atMicros : Option Nat} {verified : VerifiedPrincipal}
    (h : registry.check crypto codec envelope atMicros = .ok verified) :
    ∃ signature record input, envelope.signature = some signature ∧ registry.keys.lookup signature.keyId = some record ∧
      record.revoked = false ∧ checkWindow record atMicros = .ok () ∧ signingInput codec envelope signature.context = .ok input ∧
      crypto.verify record.verifying input signature.bytes = true ∧ verified = ⟨record.principal, record.kind⟩ := by
  simp only [check, bind_ok, elim_ok, refuseIf_ok, pure_ok, exists_const, Bool.not_eq_true, Bool.not_eq_false] at h
  obtain ⟨signature, hsigned, -, record, hrecord, hrevoked, _, hwindow, -, input, hinput, hverify, rfl⟩ := h
  exact ⟨signature, record, input, hsigned, hrecord, hrevoked, hwindow, hinput, hverify, rfl⟩

theorem checkWindow_ok {record : KeyRecord} {now : Nat} {u : Unit} : checkWindow record (some now) = .ok u ↔
    record.validFromMicros ≤ now ∧ ∀ stop ∈ record.validToMicros, now < stop := by
  simp only [checkWindow, bind_ok, refuseIf_ok, exists_const, Nat.not_lt, Bool.not_eq_true, Option.any_eq_false,
    decide_eq_false_iff_not, Nat.not_le, Option.mem_def]

theorem verifyObservedAt_ok {registry : KeyRegistry} {envelope : AgentEnvelope} {observed : SignatureContext} {now : Nat}
    {verified : VerifiedPrincipal} (h : registry.verifyObservedAt crypto codec envelope observed now = .ok verified) :
    envelope.signature.bind (·.context) = some observed ∧ registry.check crypto codec envelope (some now) = .ok verified := by
  simp only [verifyObservedAt, bind_ok, elim_ok, refuseIf_ok, exists_const, Decidable.not_not] at h
  obtain ⟨signed, hsigned, rfl, hcheck⟩ := h
  exact ⟨hsigned, hcheck⟩

end

/-- The holders of the keys of a registry that could have signed a record at
`now`: the last record enrolled under its key id, not revoked, in its window. -/
structure Current (crypto : Crypto) (records : List KeyRecord) (now : Nat) (record : KeyRecord) : Prop where
  enrolled : records.reverse.find? (fun other => keyIdOf crypto other.verifying == keyIdOf crypto record.verifying) = some record
  unrevoked : record.revoked = false
  started : record.validFromMicros ≤ now
  unexpired : ∀ stop ∈ record.validToMicros, now < stop

/-! ## Main theorem -/

/-- One signing input belongs to one envelope content and one context. So when
no signature can be forged, an accepted record was signed as it is, in the
context observed, by the holder of a key that was current. -/
theorem accepted_as_signed (crypto : Crypto) (codec : Codec) (signed : Bytes → SigningAct → Prop) (hitems : codec.Items)
    (hunforged : ∀ key input signature, crypto.verify key input signature = true →
      ∃ act, signed key act ∧ act.input codec = .ok input) :
    (∀ e₁ e₂ c₁ c₂ x, signingInput codec e₁ c₁ = .ok x → signingInput codec e₂ c₂ = .ok x → e₁.bare = e₂.bare ∧ c₁ = c₂) ∧
      ∀ records envelope observed now verified,
        (enrolled crypto records).verifyObservedAt crypto codec envelope observed now = .ok verified →
        ∃ record, Current crypto records now record ∧ verified = ⟨record.principal, record.kind⟩ ∧
          ∃ content, signed record.verifying (.envelope content (some observed)) ∧ content.bare = envelope.bare := by
  refine ⟨fun e₁ e₂ c₁ c₂ x h₁ h₂ => signingInput_inj hitems h₁ h₂, fun records envelope observed now verified h => ?_⟩
  obtain ⟨hobserved, hcheck⟩ := verifyObservedAt_ok h
  obtain ⟨signature, record, input, hsigned, hrecord, hrevoked, hwindow, hinput, hverify, rfl⟩ := check_ok hcheck
  obtain ⟨hstarted, hopen⟩ := checkWindow_ok.1 hwindow
  rw [lookup_enrolled] at hrecord
  have hid : keyIdOf crypto record.verifying = signature.keyId := by simpa using List.find?_some hrecord
  have hcontext : signature.context = some observed := by simpa [hsigned] using hobserved
  obtain ⟨act, hact, hinput'⟩ := hunforged _ _ _ hverify
  rw [hcontext] at hinput
  obtain ⟨content, rfl, hbare⟩ := act_of_input hitems hinput' hinput
  exact ⟨record, ⟨hid ▸ hrecord, hrevoked, hstarted, hopen⟩, rfl, content, hact, hbare⟩

/-- An event of the planner, with its CBOR item. -/
def plannerEvent : AgentEnvelope :=
  ⟨.event, none, 2, none, none, "planner", none, none, none, none, none, none, none, none, false, none, none, none, none, none,
    none, 0, [], none⟩

def plannerItem : Bytes :=
  [163, 100, 107, 105, 110, 100, 101, 101, 118, 101, 110, 116, 108, 99, 111, 110, 118, 101, 114, 115, 97, 116, 105, 111, 110, 80,
    0, 0, 0, 0, 0, 0, 0, 0, 0, 0, 0, 0, 0, 0, 0, 2, 102, 115, 111, 117, 114, 99, 101, 103, 112, 108, 97, 110, 110, 101, 114]

/-- A JSON body of wire version 1, with its CBOR item. -/
def jsonContext : SignatureContext := ⟨some 1, some 1⟩

def jsonContextItem : Bytes :=
  [162, 108, 99, 111, 110, 116, 101, 110, 116, 95, 116, 121, 112, 101, 1, 109, 97, 103, 101, 110, 116, 95, 118, 101, 114, 115,
    105, 111, 110, 1]

/-- The encoder on the planner's event and its context. -/
def plannerCodec : Codec where
  envelope
    | ⟨.event, none, 2, none, none, "planner", none, none, none, none, none, none, none, none, false, none, none, none, none,
        none, none, 0, [], none⟩ => .ok plannerItem
    | _ => .error "another envelope"
  context
    | ⟨some 1, some 1⟩ => .ok jsonContextItem
    | _ => .error "another context"

/-- The key of the seed of 32 bytes 7, and its signature of the event. -/
def plannerKey : Bytes :=
  [234, 74, 108, 99, 226, 156, 82, 10, 190, 245, 80, 123, 19, 46, 197, 249, 149, 71, 118, 174, 190, 190, 123, 146, 66, 30, 234,
    105, 20, 70, 210, 44]

def plannerSignature : Bytes :=
  [155, 99, 110, 81, 14, 76, 15, 188, 94, 160, 24, 74, 15, 11, 235, 106, 6, 241, 153, 222, 42, 104, 254, 170, 121, 130, 217, 86,
    50, 147, 10, 225, 142, 92, 34, 205, 205, 174, 247, 210, 88, 202, 85, 123, 78, 30, 132, 63, 36, 238, 203, 93, 140, 210, 93,
    148, 46, 217, 210, 161, 40, 242, 92, 11]

def plannerCrypto : Crypto where
  sha256 _ := [254, 129, 44, 18, 243, 171, 76, 230, 172, 93, 182, 154, 195, 82, 249, 6, 203, 27, 17, 239, 67, 251, 51, 226, 82,
    239, 127, 245, 82, 38, 56, 137]
  verify key input signature :=
    key == plannerKey && input == signatureDomain ++ (jsonContextItem ++ plannerItem) && signature == plannerSignature

theorem plannerCodec_envelope {envelope : AgentEnvelope} {x : Bytes} (h : plannerCodec.envelope envelope = .ok x) :
    envelope = plannerEvent ∧ x = plannerItem := by
  simp only [plannerCodec] at h
  split at h
  · exact ⟨rfl, (Except.ok.inj h).symm⟩
  · cases h

theorem plannerCodec_context {context : SignatureContext} {x : Bytes} (h : plannerCodec.context context = .ok x) :
    context = jsonContext ∧ x = jsonContextItem := by
  simp only [plannerCodec] at h
  split at h
  · exact ⟨rfl, (Except.ok.inj h).symm⟩
  · cases h

theorem plannerCodec_item {item : Bytes} (h : plannerCodec.Item item) : item = plannerItem ∨ item = jsonContextItem := by
  rcases h with ⟨envelope, h⟩ | ⟨context, h⟩
  · exact .inl (plannerCodec_envelope h).2
  · exact .inr (plannerCodec_context h).2

theorem plannerCodec_items : plannerCodec.Items where
  selfDelimiting := by
    rintro a b x y ⟨ha, rfl⟩ ⟨hb, rfl⟩ r s h
    rcases plannerCodec_item ha with rfl | rfl <;> rcases plannerCodec_item hb with rfl | rfl
    · exact ⟨rfl, List.append_cancel_left h⟩
    · simp [plannerItem, jsonContextItem] at h
    · simp [plannerItem, jsonContextItem] at h
    · exact ⟨rfl, List.append_cancel_left h⟩
  nonempty item h := by rcases plannerCodec_item h with rfl | rfl <;> simp [plannerItem, jsonContextItem]
  envelope_inj a b x ha hb := (plannerCodec_envelope ha).1.trans (plannerCodec_envelope hb).1.symm
  context_inj a b x ha hb := (plannerCodec_context ha).1.trans (plannerCodec_context hb).1.symm

/-- The planner's event as it stands on the log. -/
def plannerSigned : AgentEnvelope :=
  { plannerEvent with signature := some ⟨signatureSchemeEd25519, keyIdOf plannerCrypto plannerKey, plannerSignature,
      some jsonContext⟩ }

/-- The planner signed its event once. -/
def plannerActs (key : Bytes) (act : SigningAct) : Prop :=
  key = plannerKey ∧ act = .envelope plannerEvent (some jsonContext)

/-- The planner's record, enrolled and signed once. -/
theorem planner_accepted_as_signed :
    (enrolled plannerCrypto [.agent "user-42" plannerKey]).verifyObservedAt plannerCrypto plannerCodec plannerSigned
        jsonContext 10 = .ok ⟨"user-42", .agent⟩ ∧
      ∃ record, Current plannerCrypto [.agent "user-42" plannerKey] 10 record ∧
        record.verifying = plannerKey ∧ plannerEvent.bare = plannerSigned.bare := by
  have haccepted : (enrolled plannerCrypto [.agent "user-42" plannerKey]).verifyObservedAt plannerCrypto plannerCodec
      plannerSigned jsonContext 10 = .ok ⟨"user-42", .agent⟩ := by decide +kernel
  have hunforged : ∀ key input signature, plannerCrypto.verify key input signature = true →
      ∃ act, plannerActs key act ∧ act.input plannerCodec = .ok input := by
    intro key input signature h
    simp only [plannerCrypto, Bool.and_eq_true, beq_iff_eq] at h
    obtain ⟨⟨hkey, hinput⟩, -⟩ := h
    exact ⟨_, ⟨hkey, rfl⟩, hinput ▸ rfl⟩
  obtain ⟨record, hcurrent, -, content, ⟨hkey, hcontent⟩, hbare⟩ :=
    (accepted_as_signed plannerCrypto plannerCodec plannerActs plannerCodec_items hunforged).2 _ _ _ _ _ haccepted
  obtain ⟨rfl, -⟩ := SigningAct.envelope.inj hcontent
  exact ⟨haccepted, record, hcurrent, hkey, hbare⟩

end KeyRegistry

end LaserSdk.Sign
