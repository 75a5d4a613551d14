import LaserSdk.Lib.Chain
import LaserSdk.Lib.Sorted
/-!
# Policy evidence

One record for each decision of a governor, appended to the audit topic. A
record carries the digest of its own encoding and the digest of the decision
before it in the conversation, and a reader verifies the chain of both.

The encoding and the hash are the libraries'.
-/

namespace LaserSdk.Govern

open Lib

structure PolicyRef where
  packId : String
  packVersion : String
  ruleIds : List String
  deriving DecidableEq, Repr

structure PolicyEvidence where
  decisionId : String
  decision : String
  mode : String
  kind : String
  stream : String
  topic : String
  source : Option String
  target : Option String
  conversation : Option String
  correlation : Option String
  operation : Option String
  tool : Option String
  onBehalfOf : Option String
  reason : Option String
  approvedScope : Option String
  policy : Option PolicyRef
  /-- The bits of the estimate. -/
  riskScore : Option UInt64
  receiptDigest : String
  previousDigest : Option String
  outcome : String
  atMicros : Nat
  deriving DecidableEq, Repr

variable {Bytes Failure : Type} (encode : PolicyEvidence → Except Failure Bytes) (hash : Bytes → String)

/-- The record its digest is computed over. -/
def PolicyEvidence.unsealed (e : PolicyEvidence) : PolicyEvidence := { e with receiptDigest := "" }

def PolicyEvidence.seal (e : PolicyEvidence) : Except Failure PolicyEvidence := do
  let canonical ← encode e.unsealed
  return { e with receiptDigest := hash canonical }

/-- The loop of `verifyEvidenceChain` after a record with digest `previous`. -/
def verifyFrom (previous : Option String) : List PolicyEvidence → Bool
  | [] => true
  | item :: rest =>
    if item.previousDigest ≠ previous then false
    else
      match item.seal encode hash with
      | .ok resealed => if resealed.receiptDigest = item.receiptDigest then verifyFrom (some item.receiptDigest) rest else false
      | .error _ => false

def verifyEvidenceChain (evidence : List PolicyEvidence) : Bool := verifyFrom encode hash none evidence

/-! ## What a verified chain is -/

/-- The record reproduces its own digest. -/
def PolicyEvidence.Sealed (e : PolicyEvidence) : Prop :=
  ∃ canonical, encode e.unsealed = .ok canonical ∧ hash canonical = e.receiptDigest

variable {encode hash}

theorem verifyFrom_cons {previous : Option String} {item : PolicyEvidence} {rest : List PolicyEvidence} :
    verifyFrom encode hash previous (item :: rest) = true ↔
      item.previousDigest = previous ∧ item.Sealed encode hash ∧ verifyFrom encode hash (some item.receiptDigest) rest = true := by
  rw [verifyFrom]
  by_cases hprevious : item.previousDigest = previous
  · cases hencode : encode item.unsealed with
    | error failure => simp [hprevious, PolicyEvidence.seal, PolicyEvidence.Sealed, hencode, bind, Except.bind]
    | ok canonical =>
      simp [hprevious, PolicyEvidence.seal, PolicyEvidence.Sealed, hencode, bind, Except.bind, pure, Except.pure]
  · simp [hprevious]

theorem verifyFrom_iff {previous : Option String} {l : List PolicyEvidence} :
    verifyFrom encode hash previous l = true ↔
      Chained PolicyEvidence.previousDigest PolicyEvidence.receiptDigest previous l ∧ ∀ e ∈ l, e.Sealed encode hash := by
  induction l generalizing previous with
  | nil => simp [verifyFrom, Chained]
  | cons e l ih =>
    rw [verifyFrom_cons, ih, Chained, List.forall_mem_cons]
    constructor
    · rintro ⟨hprevious, hsealed, hchain, hrest⟩
      exact ⟨⟨hprevious, hchain⟩, hsealed, hrest⟩
    · rintro ⟨⟨hprevious, hchain⟩, hsealed, hrest⟩
      exact ⟨hprevious, hsealed, hchain, hrest⟩

/-- No two records have one encoding. -/
def InjectiveEncoding (encode : PolicyEvidence → Except Failure Bytes) : Prop :=
  ∀ a b canonical, encode a = .ok canonical → encode b = .ok canonical → a = b

/-- The digest of a sealed record determines the rest of it. -/
theorem unsealed_of_digest (hencode : InjectiveEncoding encode) (hhash : Function.Injective hash) {a b : PolicyEvidence}
    (ha : a.Sealed encode hash) (hb : b.Sealed encode hash) (hdigest : a.receiptDigest = b.receiptDigest) :
    a.unsealed = b.unsealed := by
  obtain ⟨x, hx, hax⟩ := ha
  obtain ⟨y, hy, hby⟩ := hb
  have hxy : x = y := hhash (hax.trans (hdigest.trans hby.symm))
  exact hencode _ _ y (hxy ▸ hx) hy

theorem eq_of_unsealed {a b : PolicyEvidence} (h : a.unsealed = b.unsealed) (hdigest : a.receiptDigest = b.receiptDigest) :
    a = b := by
  have hself : ∀ e : PolicyEvidence, e = { e.unsealed with receiptDigest := e.receiptDigest } := fun _ => rfl
  rw [hself a, hself b, h, hdigest]

/-! ## Tampering -/

/-- One field of the record is changed. -/
inductive FieldEdit (r : PolicyEvidence) : PolicyEvidence → Prop
  | decisionId (v : String) (h : v ≠ r.decisionId) : FieldEdit r { r with decisionId := v }
  | decision (v : String) (h : v ≠ r.decision) : FieldEdit r { r with decision := v }
  | mode (v : String) (h : v ≠ r.mode) : FieldEdit r { r with mode := v }
  | kind (v : String) (h : v ≠ r.kind) : FieldEdit r { r with kind := v }
  | stream (v : String) (h : v ≠ r.stream) : FieldEdit r { r with stream := v }
  | topic (v : String) (h : v ≠ r.topic) : FieldEdit r { r with topic := v }
  | source (v : Option String) (h : v ≠ r.source) : FieldEdit r { r with source := v }
  | target (v : Option String) (h : v ≠ r.target) : FieldEdit r { r with target := v }
  | conversation (v : Option String) (h : v ≠ r.conversation) : FieldEdit r { r with conversation := v }
  | correlation (v : Option String) (h : v ≠ r.correlation) : FieldEdit r { r with correlation := v }
  | operation (v : Option String) (h : v ≠ r.operation) : FieldEdit r { r with operation := v }
  | tool (v : Option String) (h : v ≠ r.tool) : FieldEdit r { r with tool := v }
  | onBehalfOf (v : Option String) (h : v ≠ r.onBehalfOf) : FieldEdit r { r with onBehalfOf := v }
  | reason (v : Option String) (h : v ≠ r.reason) : FieldEdit r { r with reason := v }
  | approvedScope (v : Option String) (h : v ≠ r.approvedScope) : FieldEdit r { r with approvedScope := v }
  | policy (v : Option PolicyRef) (h : v ≠ r.policy) : FieldEdit r { r with policy := v }
  | riskScore (v : Option UInt64) (h : v ≠ r.riskScore) : FieldEdit r { r with riskScore := v }
  | receiptDigest (v : String) (h : v ≠ r.receiptDigest) : FieldEdit r { r with receiptDigest := v }
  | previousDigest (v : Option String) (h : v ≠ r.previousDigest) : FieldEdit r { r with previousDigest := v }
  | outcome (v : String) (h : v ≠ r.outcome) : FieldEdit r { r with outcome := v }
  | atMicros (v : Nat) (h : v ≠ r.atMicros) : FieldEdit r { r with atMicros := v }

inductive Tampered (l : List PolicyEvidence) : List PolicyEvidence → Prop
  | deleted {l'} (hsub : l'.Sublist l) (hleft : l' ≠ []) (hdeleted : l' ≠ l) : Tampered l l'
  | permuted {l'} (hperm : l'.Perm l) (hmoved : l' ≠ l) : Tampered l l'
  | edited {before r r' after} (hsplit : l = before ++ r :: after) (hedit : FieldEdit r r') :
    Tampered l (before ++ r' :: after)

/-- An edit leaves the digest or all that the digest covers. -/
theorem FieldEdit.digest_or_rest {r r' : PolicyEvidence} (h : FieldEdit r r') :
    r'.receiptDigest = r.receiptDigest ∧ r'.unsealed ≠ r.unsealed ∨
      r'.receiptDigest ≠ r.receiptDigest ∧ r'.unsealed = r.unsealed := by
  -- The digest is the one field it does not cover.
  cases h
  case receiptDigest v hne => exact .inr ⟨hne, rfl⟩
  all_goals
    rename_i v hne
    refine .inl ⟨rfl, fun heq => hne ?_⟩
    injection heq

/-- An edited record does not reproduce its digest. -/
theorem FieldEdit.not_sealed (hencode : InjectiveEncoding encode) (hhash : Function.Injective hash) {r r' : PolicyEvidence}
    (h : FieldEdit r r') (hr : r.Sealed encode hash) : ¬ r'.Sealed encode hash := by
  intro hr'
  rcases h.digest_or_rest with ⟨hdigest, hrest⟩ | ⟨hdigest, hrest⟩
  · exact hrest (unsealed_of_digest hencode hhash hr' hr hdigest)
  · obtain ⟨x, hx, hrx⟩ := hr
    obtain ⟨y, hy, hry⟩ := hr'
    rw [hrest, hx] at hy
    obtain rfl := Except.ok.inj hy
    exact hdigest (hry.symm.trans hrx)

/-- A chain of some records of another is an initial part of it. -/
theorem verified_initial (hencode : InjectiveEncoding encode) (hhash : Function.Injective hash)
    {l l' : List PolicyEvidence} (hl : verifyEvidenceChain encode hash l = true)
    (hl' : verifyEvidenceChain encode hash l' = true) (hsub : l' ⊆ l) : l' <+: l := by
  obtain ⟨hchain, hsealed⟩ := verifyFrom_iff.1 hl
  obtain ⟨hchain', -⟩ := verifyFrom_iff.1 hl'
  refine hchain.initial_of_subset hchain' hsub ?_ (fun _ _ => nofun)
  intro x hx y hy hdigest
  exact eq_of_unsealed (unsealed_of_digest hencode hhash (hsealed x hx) (hsealed y hy) hdigest) hdigest

theorem verified_of_initial {l l' : List PolicyEvidence} (hl : verifyEvidenceChain encode hash l = true)
    (hinitial : l' <+: l) : verifyEvidenceChain encode hash l' = true := by
  obtain ⟨hchain, hsealed⟩ := verifyFrom_iff.1 hl
  exact verifyFrom_iff.2 ⟨hchain.of_initial hinitial, fun e he => hsealed e (hinitial.subset he)⟩

/-- A tampered chain is rejected unless only its last records are gone. -/
theorem tampered_rejected_iff {Bytes Failure : Type} {encode : PolicyEvidence → Except Failure Bytes} {hash : Bytes → String}
    (hencode : InjectiveEncoding encode) (hhash : Function.Injective hash) {l l' : List PolicyEvidence}
    (hl : verifyEvidenceChain encode hash l = true) (h : Tampered l l') :
    verifyEvidenceChain encode hash l' = false ↔ ¬ l' <+: l := by
  constructor
  · intro hrejected hinitial
    rw [verified_of_initial hl hinitial] at hrejected
    exact absurd hrejected (by decide)
  · intro hnot
    rw [← Bool.not_eq_true]
    intro hl'
    cases h with
    -- A deletion and a permutation bring in no record: what still verifies is an initial part.
    | deleted hsub _ _ => exact hnot (verified_initial hencode hhash hl hl' hsub.subset)
    | permuted hperm _ => exact hnot (verified_initial hencode hhash hl hl' hperm.subset)
    | @edited before r r' after hsplit hedit =>
      have hr : r.Sealed encode hash := (verifyFrom_iff.1 hl).2 r (by simp [hsplit])
      exact hedit.not_sealed hencode hhash hr ((verifyFrom_iff.1 hl').2 r' (by simp))

/-! ## Two decisions -/

def ascii (text : String) : List UInt8 := text.toList.map fun c => UInt8.ofNat c.toNat

def firstBytes : List UInt8 :=
  0xA9 :: ascii "kdecision_idb01hdecisiongobservedmodegenforcedkinddsendfstreamelaseretopicdjobs" ++
    ascii "nreceipt_digest`goutcomeheffectediat_micros" ++ [1]

def firstDigest : String := "d908e758b447d05384375331221e769373116519861f13f86e3205969c527e7b"

def secondBytes : List UInt8 :=
  0xAA :: ascii "kdecision_idb02hdecisiongobservedmodegenforcedkinddsendfstreamelaseretopicdjobs" ++
    ascii "nreceipt_digest`oprevious_digestx@d908e758b447d05384375331221e769373116519861f13f86e3205969c527e7b" ++
    ascii "goutcomeheffectediat_micros" ++ [2]

def secondDigest : String := "f76007f2172cb372ab4e2fa6c83468f94ae0dc1f3e85e92564c937327590eb11"

def firstDecision : PolicyEvidence :=
  ⟨"01", "observe", "enforce", "send", "laser", "jobs", none, none, none, none, none, none, none, none, none, none, none,
    firstDigest, none, "effected", 1⟩

def secondDecision : PolicyEvidence :=
  ⟨"02", "observe", "enforce", "send", "laser", "jobs", none, none, none, none, none, none, none, none, none, none, none,
    secondDigest, some firstDigest, "effected", 2⟩

/-- The second decision with an edited reason. -/
def editedDecision : PolicyEvidence := { secondDecision with reason := some "edited" }

def editedBytes : List UInt8 :=
  0xAB :: ascii "kdecision_idb02hdecisiongobservedmodegenforcedkinddsendfstreamelaseretopicdjobs" ++
    ascii "freasonfedited" ++
    ascii "nreceipt_digest`oprevious_digestx@d908e758b447d05384375331221e769373116519861f13f86e3205969c527e7b" ++
    ascii "goutcomeheffectediat_micros" ++ [2]

def editedDigest : String := "c8151192ade5713ea31278b644718aab0760d6f8e084fcbc339dc1808e730550"

def encodings : List (PolicyEvidence × List UInt8) :=
  [(firstDecision.unsealed, firstBytes), (secondDecision.unsealed, secondBytes), (editedDecision.unsealed, editedBytes)]

/-- The CBOR of the records. -/
def encodeKnown (e : PolicyEvidence) : Except Unit (List UInt8) := (encodings.lookup e).elim (.error ()) .ok

def digests : List (List UInt8 × String) :=
  [(firstBytes, firstDigest), (secondBytes, secondDigest), (editedBytes, editedDigest)]

/-- BLAKE3 at their encodings, and some text no digest is elsewhere. -/
def hashKnown (bytes : List UInt8) : String :=
  (digests.lookup bytes).getD (.ofList ('x' :: bytes.map fun byte => Char.ofNat byte.toNat))

theorem encodeKnown_ok {e : PolicyEvidence} {bytes : List UInt8} (h : encodeKnown e = .ok bytes) : (e, bytes) ∈ encodings := by
  unfold encodeKnown at h
  cases hlookup : encodings.lookup e with
  | none =>
    rw [hlookup] at h
    cases h
  | some found =>
    rw [hlookup] at h
    cases h
    exact mem_of_lookup hlookup

theorem encodeKnown_injective : InjectiveEncoding encodeKnown := by
  have hdistinct : (encodings.map (·.2)).Nodup := by simp [encodings, firstBytes, secondBytes, editedBytes]
  intro a b canonical ha hb
  have hpair := List.inj_on_of_nodup_map hdistinct (encodeKnown_ok ha) (encodeKnown_ok hb) rfl
  exact congrArg Prod.fst hpair

theorem byteChar_injective : Function.Injective fun byte : UInt8 => Char.ofNat byte.toNat := by
  have hnat : ∀ byte : UInt8, (Char.ofNat byte.toNat).toNat = byte.toNat := by
    intro byte
    have hlt := byte.toNat_lt
    rw [Char.ofNat, dif_pos (by left; omega)]
    rfl
  intro a b h
  have := congrArg Char.toNat h
  simp only [hnat] at this
  exact UInt8.toNat_inj.1 this

theorem hashKnown_injective : Function.Injective hashKnown := by
  have hdistinct : (digests.map (·.2)).Nodup := by decide
  have hother : ∀ pair ∈ digests, ∀ rest, pair.2 ≠ String.ofList ('x' :: rest) := by
    intro pair hpair rest heq
    have hhead : ∀ pair ∈ digests, pair.2.toList.head? ≠ some 'x' := by decide +kernel
    refine hhead pair hpair ?_
    rw [heq, String.toList_ofList]
    rfl
  intro a b h
  unfold hashKnown at h
  cases ha : digests.lookup a with
  | some digest =>
    cases hb : digests.lookup b with
    | some other =>
      rw [ha, hb] at h
      have hpair := List.inj_on_of_nodup_map hdistinct (mem_of_lookup ha) (mem_of_lookup hb) h
      exact congrArg Prod.fst hpair
    | none =>
      rw [ha, hb] at h
      exact absurd h (hother _ (mem_of_lookup ha) _)
  | none =>
    cases hb : digests.lookup b with
    | some other =>
      rw [ha, hb] at h
      exact absurd h.symm (hother _ (mem_of_lookup hb) _)
    | none =>
      rw [ha, hb] at h
      have htail := (List.cons.inj (String.ofList_injective h)).2
      exact byteChar_injective.list_map htail

theorem two_decisions_verified : verifyEvidenceChain encodeKnown hashKnown [firstDecision, secondDecision] = true := by
  decide +kernel

/-- The second decision alone, the two swapped and an edited reason are
rejected. -/
theorem two_decisions_tampered :
    verifyEvidenceChain encodeKnown hashKnown [secondDecision] = false ∧
    verifyEvidenceChain encodeKnown hashKnown [secondDecision, firstDecision] = false ∧
    verifyEvidenceChain encodeKnown hashKnown [firstDecision, editedDecision] = false := by
  refine ⟨?_, ?_, ?_⟩
  · refine (tampered_rejected_iff encodeKnown_injective hashKnown_injective two_decisions_verified ?_).2 (by decide)
    exact .deleted (by decide) (by decide) (by decide)
  · refine (tampered_rejected_iff encodeKnown_injective hashKnown_injective two_decisions_verified ?_).2 (by decide)
    exact .permuted (.swap ..) (by decide)
  · refine (tampered_rejected_iff encodeKnown_injective hashKnown_injective two_decisions_verified ?_).2 (by decide)
    exact @Tampered.edited _ [firstDecision] _ _ [] rfl (.reason _ (by decide))

/-- Without its last decision the chain is still accepted. -/
theorem dropped_tail_accepted : InjectiveEncoding encodeKnown ∧ Function.Injective hashKnown ∧
    [firstDecision, secondDecision].Nodup ∧ verifyEvidenceChain encodeKnown hashKnown [firstDecision, secondDecision] = true ∧
    Tampered [firstDecision, secondDecision] [firstDecision] ∧
    verifyEvidenceChain encodeKnown hashKnown [firstDecision] = true :=
  ⟨encodeKnown_injective, hashKnown_injective, by decide, two_decisions_verified, .deleted (by decide) (by decide) (by decide),
    verified_of_initial two_decisions_verified ⟨[secondDecision], rfl⟩⟩

end LaserSdk.Govern
