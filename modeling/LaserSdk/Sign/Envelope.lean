import LaserSdk.Lib.Bytes
import LaserSdk.Lib.Checks
/-!
# Signed envelopes

An agent signs the canonical bytes of its envelope, with the signature cleared
and the interpretation context before it, under one domain. The same key signs
A2A cards. The encoder of envelopes and contexts, SHA-256 and the Ed25519 check
are parameters.
-/

namespace LaserSdk.Sign

open LaserSdk.Lib

abbrev Bytes := List UInt8

inductive LaserError where
  | codec (message : String)
  | signature (message : String)
  deriving DecidableEq, Repr

/-! ## The envelope -/

inductive AgentKind where
  | command
  | response
  | event
  | chunk
  | status
  | error
  deriving DecidableEq, Repr

inductive TaskState where
  | submitted
  | working
  | inputRequired
  | completed
  | canceled
  | failed
  | rejected
  | authRequired
  | unknown
  | paused
  | unrecognized (code : UInt8)
  deriving DecidableEq, Repr

structure LogPosition where
  streamId : UInt32
  topicId : UInt32
  partitionId : UInt32
  offset : UInt64
  deriving DecidableEq, Repr

structure TokenUsage where
  inputTokens : UInt64
  outputTokens : UInt64
  reasoningOutputTokens : Option UInt64
  cacheReadInputTokens : Option UInt64
  cacheCreationInputTokens : Option UInt64
  costMicros : Option UInt64
  deriving DecidableEq, Repr

/-- A scalar of the metadata slot. A float is its bits. -/
inductive Value where
  | str (value : String)
  | int (value : Int)
  | uint (value : UInt64)
  | float (bits : UInt64)
  | bool (value : Bool)
  | null
  | list (values : List Value)

structure SignatureContext where
  contentType : Option UInt8
  agentVersion : Option UInt32
  deriving DecidableEq, Repr

structure Signature where
  scheme : UInt8
  keyId : Bytes
  bytes : Bytes
  context : Option SignatureContext
  deriving DecidableEq, Repr

/-- Ids are their `u128` values. -/
structure AgentEnvelope where
  kind : AgentKind
  record : Option Nat
  conversation : Nat
  parent : Option Nat
  root : Option Nat
  source : String
  target : Option String
  cause : Option Nat
  causeAt : Option LogPosition
  correlation : Option Nat
  channel : Option Nat
  idempotencyKey : Option String
  deadlineMicros : Option UInt64
  sequence : Option UInt64
  last : Bool
  finishReason : Option String
  taskState : Option TaskState
  operation : Option String
  tool : Option String
  usage : Option TokenUsage
  metadata : Option (List (String × Value))
  mustUnderstand : UInt64
  body : Bytes
  signature : Option Signature

/-- Every field but the signature. -/
def AgentEnvelope.bare (envelope : AgentEnvelope) : AgentEnvelope := { envelope with signature := none }

/-! ## What is signed -/

/-- `encode_named` on the two types a signature covers. -/
structure Codec where
  envelope : AgentEnvelope → Except String Bytes
  context : SignatureContext → Except String Bytes

/-- `agdx.signature.v1`. -/
def signatureDomain : Bytes := [97, 103, 100, 120, 46, 115, 105, 103, 110, 97, 116, 117, 114, 101, 46, 118, 49]

def signatureSchemeEd25519 : UInt8 := 1

def keyIdBytes : Nat := 8

def signatureBytes : Nat := 64

def contextBytes (codec : Codec) : Option SignatureContext → Except LaserError Bytes
  | some context => (codec.context context).mapError fun error => .codec s!"sign context encode: {error}"
  | none => return []

def signingInput (codec : Codec) (envelope : AgentEnvelope) (context : Option SignatureContext) : Except LaserError Bytes := do
  let body ← (codec.envelope envelope.bare).mapError fun error => .codec s!"sign encode: {error}"
  let context ← contextBytes codec context
  return signatureDomain ++ (context ++ body)

/-- Unpadded base64url. -/
def base64Alphabet : Bytes :=
  (List.range 26).map (fun i => UInt8.ofNat (65 + i)) ++ (List.range 26).map (fun i => UInt8.ofNat (97 + i)) ++
    (List.range 10).map (fun i => UInt8.ofNat (48 + i)) ++ [45, 95]

def base64Digit (index : Nat) (place : Nat) : UInt8 := base64Alphabet.getD (index / 64 ^ place % 64) 0

def base64url : Bytes → Bytes
  | [] => []
  | [a] =>
    let index := a.toNat * 65536
    [base64Digit index 3, base64Digit index 2]
  | [a, b] =>
    let index := a.toNat * 65536 + b.toNat * 256
    [base64Digit index 3, base64Digit index 2, base64Digit index 1]
  | a :: b :: c :: rest =>
    let index := a.toNat * 65536 + b.toNat * 256 + c.toNat
    base64Digit index 3 :: base64Digit index 2 :: base64Digit index 1 :: base64Digit index 0 :: base64url rest

/-- The protected header `{"alg":"EdDSA"}`. -/
def cardHeader : Bytes := [123, 34, 97, 108, 103, 34, 58, 34, 69, 100, 68, 83, 65, 34, 125]

/-- What a card signature covers: the header, a dot and the card's canonical
bytes. -/
def jwsSigningInput (payload : Bytes) : Bytes := base64url cardHeader ++ 46 :: base64url payload

/-- What the holder of a key can be asked to sign. -/
inductive SigningAct where
  /-- `sign` and `sign_with_context`. -/
  | envelope (signed : AgentEnvelope) (context : Option SignatureContext)
  /-- `sign_card_value`, with the card's canonical bytes. -/
  | card (payload : Bytes)

def SigningAct.input (codec : Codec) : SigningAct → Except LaserError Bytes
  | .envelope signed context => signingInput codec signed context
  | .card payload => return jwsSigningInput payload

/-! ## One input, one record -/

/-- The bytes of some envelope or context. -/
def Codec.Item (codec : Codec) (item : Bytes) : Prop :=
  (∃ envelope, codec.envelope envelope = .ok item) ∨ ∃ context, codec.context context = .ok item

/-- What `encode_named` writes: one item, at least one byte long, that tells
where it ends, and a different one for each value. -/
structure Codec.Items (codec : Codec) : Prop where
  selfDelimiting : SelfDelimiting fun item x => codec.Item item ∧ x = item
  nonempty : ∀ item, codec.Item item → item ≠ []
  envelope_inj : ∀ a b x, codec.envelope a = .ok x → codec.envelope b = .ok x → a = b
  context_inj : ∀ a b x, codec.context a = .ok x → codec.context b = .ok x → a = b

theorem mapError_ok {ε ε' α : Type} {x : Except ε α} {f : ε → ε'} {a : α} : x.mapError f = .ok a ↔ x = .ok a := by
  cases x <;> simp [Except.mapError]

theorem signingInput_ok {codec : Codec} {envelope : AgentEnvelope} {context : Option SignatureContext} {x : Bytes} :
    signingInput codec envelope context = .ok x ↔ ∃ body, codec.envelope envelope.bare = .ok body ∧
      ∃ c, contextBytes codec context = .ok c ∧ x = signatureDomain ++ (c ++ body) := by
  simp only [signingInput, bind_ok, mapError_ok, pure_ok, eq_comm (a := x)]

section

variable {codec : Codec} (hitems : codec.Items)

include hitems

theorem items_end {a b r s : Bytes} (ha : codec.Item a) (hb : codec.Item b) (h : a ++ r = b ++ s) : a = b ∧ r = s :=
  hitems.selfDelimiting a b a b ⟨ha, rfl⟩ ⟨hb, rfl⟩ r s h

/-- No two items are one. -/
theorem two_items_ne {a b c : Bytes} (ha : codec.Item a) (hb : codec.Item b) (hc : codec.Item c) : a ++ b ≠ c := by
  intro h
  rw [← List.append_nil c] at h
  obtain ⟨-, hnil⟩ := items_end hitems ha hc h
  exact hitems.nonempty b hb hnil

/-- The two layouts are never confused: with or without a context, the input
gives the record back. -/
theorem signingInput_inj {e₁ e₂ : AgentEnvelope} {c₁ c₂ : Option SignatureContext} {x : Bytes}
    (h₁ : signingInput codec e₁ c₁ = .ok x) (h₂ : signingInput codec e₂ c₂ = .ok x) : e₁.bare = e₂.bare ∧ c₁ = c₂ := by
  obtain ⟨body₁, hbody₁, b₁, hb₁, rfl⟩ := signingInput_ok.1 h₁
  obtain ⟨body₂, hbody₂, b₂, hb₂, h⟩ := signingInput_ok.1 h₂
  have hrest : b₁ ++ body₁ = b₂ ++ body₂ := List.append_cancel_left h
  have hitem₁ : codec.Item body₁ := .inl ⟨_, hbody₁⟩
  have hitem₂ : codec.Item body₂ := .inl ⟨_, hbody₂⟩
  cases c₁ with
  | none =>
    obtain rfl := pure_ok.1 hb₁
    cases c₂ with
    | none =>
      obtain rfl := pure_ok.1 hb₂
      exact ⟨hitems.envelope_inj _ _ _ hbody₁ ((show body₁ = body₂ from hrest) ▸ hbody₂), rfl⟩
    | some context₂ =>
      have hcontext : codec.Item b₂ := .inr ⟨_, mapError_ok.1 hb₂⟩
      exact absurd hrest.symm (two_items_ne hitems hcontext hitem₂ hitem₁)
  | some context₁ =>
    have hcontext₁ : codec.Item b₁ := .inr ⟨_, mapError_ok.1 hb₁⟩
    cases c₂ with
    | none =>
      obtain rfl := pure_ok.1 hb₂
      exact absurd hrest (two_items_ne hitems hcontext₁ hitem₁ hitem₂)
    | some context₂ =>
      have hcontext₂ : codec.Item b₂ := .inr ⟨_, mapError_ok.1 hb₂⟩
      obtain ⟨rfl, rfl⟩ := items_end hitems hcontext₁ hcontext₂ hrest
      exact ⟨hitems.envelope_inj _ _ _ hbody₁ hbody₂,
        congrArg some (hitems.context_inj _ _ _ (mapError_ok.1 hb₁) (mapError_ok.1 hb₂))⟩

omit hitems in
/-- A card signature is over text that starts with its header, which the
domain does not. -/
theorem card_input_ne {payload : Bytes} {envelope : AgentEnvelope} {context : Option SignatureContext} :
    signingInput codec envelope context ≠ .ok (jwsSigningInput payload) := by
  intro h
  obtain ⟨body, -, c, -, h⟩ := signingInput_ok.1 h
  have hheader : (base64url cardHeader).head? = some 101 := by decide +kernel
  have hfirst : (jwsSigningInput payload).head? = some 101 := by
    rw [jwsSigningInput, List.head?_append, hheader]
    rfl
  rw [h] at hfirst
  exact absurd hfirst (by simp [signatureDomain])

/-- An act with the input of an envelope signs that envelope, in that context. -/
theorem act_of_input {act : SigningAct} {envelope : AgentEnvelope} {context : Option SignatureContext} {x : Bytes}
    (hact : act.input codec = .ok x) (h : signingInput codec envelope context = .ok x) :
    ∃ signed, act = .envelope signed context ∧ signed.bare = envelope.bare := by
  cases act with
  | envelope signed context' =>
    obtain ⟨hbare, rfl⟩ := signingInput_inj hitems hact h
    exact ⟨signed, rfl, hbare⟩
  | card payload =>
    obtain rfl := pure_ok.1 hact
    exact absurd h card_input_ne

end

end LaserSdk.Sign
