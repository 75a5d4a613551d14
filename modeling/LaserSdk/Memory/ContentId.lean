import LaserSdk.Lib.Text
import LaserSdk.Lib.Utf8
import LaserSdk.Registry.Quarantine
/-!
# Content-addressed memory ids

A memory remembered without a fresh id is named by the hash of its owner, kind
and body, the owner's strings each ended by a zero byte. We prove that the
bytes hashed tell owners apart exactly as long as no string of theirs may hold
a zero character.
-/

namespace LaserSdk.Memory

open Lib Registry

/-! ## The hash -/

def fnvOffset : UInt64 := 0xcbf29ce484222325

def fnvPrime : UInt64 := 0x00000100000001b3

def fnv1a (salt : UInt8) (segments : List (List UInt8)) : UInt64 :=
  let hash := (fnvOffset ^^^ salt.toUInt64) * fnvPrime
  segments.foldl (fun hash segment => segment.foldl (fun hash byte => (hash ^^^ byte.toUInt64) * fnvPrime) hash) hash

def contentId (segments : List (List UInt8)) : BitVec 128 :=
  ((fnv1a 0x4d segments).toBitVec.setWidth 128 <<< 64) ||| (fnv1a 0xc7 segments).toBitVec.setWidth 128

/-- Only the concatenation is hashed. -/
theorem contentId_flatten (segments : List (List UInt8)) : contentId segments = contentId [segments.flatten] := by
  simp [contentId, fnv1a, List.foldl_flatten]

/-! ## Memory ids -/

inductive MemoryKind where
  | fact
  | message
  | summary
  | entity
  | feedback
  | procedure
  deriving DecidableEq, Repr

def MemoryKind.code : MemoryKind → UInt8
  | .fact => 1
  | .message => 2
  | .summary => 3
  | .entity => 4
  | .feedback => 5
  | .procedure => 6

theorem MemoryKind.code_injective : ∀ {a b : MemoryKind}, a.code = b.code → a = b := by
  intro a b h
  cases a <;> cases b <;> first | rfl | cases h

/-- The identity layers a memory is stored or recalled under. -/
structure MemoryScope where
  stream : Option String
  user : Option String
  agent : Option AgentId
  conversation : Option Nat
  app : Option String
  deriving DecidableEq

def asBytes (text : String) : List UInt8 := text.toUTF8.toList

/-- The segments of a memory id, in the order every client hashes. -/
def MemoryScope.segments (owner : MemoryScope) (kind : MemoryKind) (body : List UInt8) : List (List UInt8) :=
  [asBytes (owner.stream.getD ""), [0], asBytes ((owner.agent.map AgentId.name).getD ""), [0],
    asBytes (owner.user.getD ""), [0], asBytes (owner.app.getD ""), [0], [kind.code], body]

/-- `MemoryId::content`. -/
def content (owner : MemoryScope) (kind : MemoryKind) (body : List UInt8) : BitVec 128 :=
  contentId (owner.segments kind body)

example : content ⟨none, some "alice", none, none, none⟩ .procedure [0x78] = 0x6e346508cded5d2e90e9927476247480 := by
  decide +kernel

/-! ## Owners -/

/-- A string is given and not empty, and holds only some characters. -/
def GivenOver (allowed : Char → Prop) (text : Option String) : Prop :=
  ∃ s, text = some s ∧ s ≠ "" ∧ ∀ c ∈ s.toList, allowed c

/-- All four strings of an owner are given. The agent's name has rules of its
own, so it is any agent's. -/
structure MemoryScope.OwnsOver (allowed : Char → Prop) (owner : MemoryScope) : Prop where
  stream : GivenOver allowed owner.stream
  agent : owner.agent.isSome
  user : GivenOver allowed owner.user
  app : GivenOver allowed owner.app

/-- The hash does not collide on two contents. It hashes the concatenation, so
no more can be asked of it. -/
def CollisionFree (left right : List (List UInt8)) : Prop :=
  contentId left = contentId right → left.flatten = right.flatten

/-- Contents of owners over some characters share an id only if they are one
content of one owner. -/
def Separated (allowed : Char → Prop) : Prop :=
  ∀ (owner owner' : MemoryScope) (kind kind' : MemoryKind) (body body' : List UInt8),
    owner.OwnsOver allowed → owner'.OwnsOver allowed →
    CollisionFree (owner.segments kind body) (owner'.segments kind' body') →
    content owner kind body = content owner' kind' body' →
      owner.stream = owner'.stream ∧ owner.agent = owner'.agent ∧ owner.user = owner'.user ∧
        owner.app = owner'.app ∧ kind = kind' ∧ body = body'

theorem asBytes_ofList (chars : List Char) : asBytes (String.ofList chars) = chars.flatMap String.utf8EncodeChar :=
  utf8_ofList chars

theorem zero_notMem_asBytes {text : String} (h : '\x00' ∉ text.toList) : 0 ∉ asBytes text := by
  intro hzero
  rw [← @String.ofList_toList text, asBytes_ofList, List.mem_flatMap] at hzero
  obtain ⟨c, hc, hbyte⟩ := hzero
  have hcode : c.toNat = 0 := by
    rcases utf8_byte hbyte with heq | hle
    · exact heq.symm
    · exact absurd hle (by decide)
  have hchar : c = '\x00' := by
    rw [← Char.ofNat_toNat c, hcode]
  exact h (hchar ▸ hc)

/-- An agent's name has no control character. -/
theorem zero_notMem_name (agent : AgentId) : '\x00' ∉ agent.name.toList := by
  intro hzero
  have hvalid := agent.valid
  unfold validateId at hvalid
  split at hvalid
  · cases hvalid
  · split at hvalid
    · cases hvalid
    · split at hvalid
      · cases hvalid
      · rename_i hnone
        exact absurd (List.find?_eq_none.1 hnone _ hzero) (by decide)

theorem split_zero {a a' b b' : List UInt8} (ha : 0 ∉ a) (ha' : 0 ∉ a') (h : a ++ 0 :: b = a' ++ 0 :: b') :
    a = a' ∧ b = b' := by
  obtain rfl := split_unique ha ha' h
  exact ⟨rfl, List.cons.inj (List.append_cancel_left h) |>.2⟩

theorem GivenOver.eq_of_bytes {allowed : Char → Prop} {text text' : Option String} (h : GivenOver allowed text)
    (h' : GivenOver allowed text') (hbytes : asBytes (text.getD "") = asBytes (text'.getD "")) : text = text' := by
  obtain ⟨s, rfl, -, -⟩ := h
  obtain ⟨s', rfl, -, -⟩ := h'
  exact congrArg some (ext_utf8 hbytes)

theorem GivenOver.zero_notMem {allowed : Char → Prop} {text : Option String} (hzero : ¬ allowed '\x00')
    (h : GivenOver allowed text) : 0 ∉ asBytes (text.getD "") := by
  obtain ⟨s, rfl, -, hchars⟩ := h
  exact zero_notMem_asBytes fun hmem => hzero (hchars _ hmem)

/-- The bytes hashed have one reading when no string holds the separator. -/
theorem segments_unique {allowed : Char → Prop} (hzero : ¬ allowed '\x00') {owner owner' : MemoryScope}
    {kind kind' : MemoryKind} {body body' : List UInt8} (h : owner.OwnsOver allowed) (h' : owner'.OwnsOver allowed)
    (hsame : (owner.segments kind body).flatten = (owner'.segments kind' body').flatten) :
    owner.stream = owner'.stream ∧ owner.agent = owner'.agent ∧ owner.user = owner'.user ∧
      owner.app = owner'.app ∧ kind = kind' ∧ body = body' := by
  obtain ⟨agent, hagent⟩ := Option.isSome_iff_exists.1 h.agent
  obtain ⟨agent', hagent'⟩ := Option.isSome_iff_exists.1 h'.agent
  simp only [MemoryScope.segments, List.flatten_cons, List.flatten_nil, List.append_nil, List.singleton_append,
    hagent, hagent', Option.map_some, Option.getD_some] at hsame
  obtain ⟨hstream, hsame⟩ := split_zero (h.stream.zero_notMem hzero) (h'.stream.zero_notMem hzero) hsame
  obtain ⟨hname, hsame⟩ := split_zero (zero_notMem_asBytes (zero_notMem_name agent))
    (zero_notMem_asBytes (zero_notMem_name agent')) hsame
  obtain ⟨huser, hsame⟩ := split_zero (h.user.zero_notMem hzero) (h'.user.zero_notMem hzero) hsame
  obtain ⟨happ, hsame⟩ := split_zero (h.app.zero_notMem hzero) (h'.app.zero_notMem hzero) hsame
  obtain ⟨hkind, hbody⟩ := List.cons.inj hsame
  refine ⟨h.stream.eq_of_bytes h'.stream hstream, ?_, h.user.eq_of_bytes h'.user huser,
    h.app.eq_of_bytes h'.app happ, MemoryKind.code_injective hkind, hbody⟩
  have hagents : agent = agent' := by
    cases agent
    cases agent'
    congr
    exact ext_utf8 hname
  rw [hagent, hagent', hagents]

/-- An owner of the agent `a`. -/
def ownerOf (stream user app : String) : MemoryScope := ⟨some stream, some user, some ⟨"a", by decide⟩, none, some app⟩

theorem ownerOf_ownsOver {allowed : Char → Prop} {stream user app : String} (hstream : stream ≠ "") (huser : user ≠ "")
    (happ : app ≠ "") (h : ∀ c ∈ stream.toList ++ user.toList ++ app.toList, allowed c) :
    (ownerOf stream user app).OwnsOver allowed := by
  simp only [List.mem_append] at h
  exact ⟨⟨stream, rfl, hstream, fun c hc => h c (.inl (.inl hc))⟩, rfl, ⟨user, rfl, huser, fun c hc => h c (.inl (.inr hc))⟩,
    ⟨app, rfl, happ, fun c hc => h c (.inr hc)⟩⟩

/-- Owners whose bytes join to the same, and so share every id. -/
theorem not_separated {allowed : Char → Prop} {stream user user' app app' : String}
    (howns : (ownerOf stream user app).OwnsOver allowed) (howns' : (ownerOf stream user' app').OwnsOver allowed)
    (hbytes : asBytes user ++ 0 :: asBytes app = asBytes user' ++ 0 :: asBytes app') (hne : user ≠ user') :
    ¬ Separated allowed := by
  intro hseparated
  have hjoin : ∀ user app : String, ((ownerOf stream user app).segments .fact []).flatten =
      asBytes stream ++ 0 :: asBytes "a" ++ 0 :: (asBytes user ++ 0 :: asBytes app) ++ [0, MemoryKind.fact.code] := by
    intro user app
    simp [MemoryScope.segments, ownerOf]
  have hsame : ((ownerOf stream user app).segments .fact []).flatten =
      ((ownerOf stream user' app').segments .fact []).flatten := by
    rw [hjoin, hjoin, hbytes]
  have hid : content (ownerOf stream user app) .fact [] = content (ownerOf stream user' app') .fact [] := by
    rw [content, content, contentId_flatten, hsame, ← contentId_flatten]
  obtain ⟨-, -, huser, -⟩ := hseparated _ _ _ _ _ _ howns howns' (fun _ => hsame) hid
  exact hne (Option.some.inj huser)

/-- Ids tell the contents of owners apart exactly when no owner's string may
hold a zero character. -/
theorem contents_separated_iff (allowed : Char → Prop) : Separated allowed ↔ ¬ allowed '\x00' := by
  constructor
  · intro hseparated hzero
    have howns : ∀ user app : String, user ≠ "" → app ≠ "" → (∀ c ∈ user.toList ++ app.toList, c = '\x00') →
        (ownerOf "\x00" user app).OwnsOver allowed := by
      intro user app huser happ hchars
      refine ownerOf_ownsOver (by decide) huser happ fun c hc => ?_
      have hc : c = '\x00' := by
        rcases List.mem_cons.1 hc with hc | hc
        · exact hc
        · exact hchars c hc
      exact hc ▸ hzero
    have hone : asBytes "\x00" = [0] := asBytes_ofList ['\x00']
    have htwo : asBytes "\x00\x00" = [0, 0] := asBytes_ofList ['\x00', '\x00']
    refine not_separated (howns "\x00" "\x00\x00" (by decide) (by decide) (by simp))
      (howns "\x00\x00" "\x00" (by decide) (by decide) (by simp)) ?_ (by decide) hseparated
    rw [hone, htwo]
    rfl
  · intro hzero owner owner' kind kind' body body' howns howns' hfree hid
    exact segments_unique hzero howns howns' (hfree hid)

/-- The user `u` of the application `v, w` is the user `u, v` of the
application `w`, where the commas are zero characters. -/
theorem users_share_id : ¬ Separated fun _ => True := by
  apply @not_separated _ "s" "u\x00v" "u" "w" "v\x00w"
  · exact ownerOf_ownsOver (by decide) (by decide) (by decide) fun _ _ => trivial
  · exact ownerOf_ownsOver (by decide) (by decide) (by decide) fun _ _ => trivial
  · have huser : asBytes "u\x00v" = [117, 0, 118] := asBytes_ofList ['u', '\x00', 'v']
    have happ : asBytes "v\x00w" = [118, 0, 119] := asBytes_ofList ['v', '\x00', 'w']
    rw [huser, happ, show asBytes "u" = [117] from asBytes_ofList ['u'], show asBytes "w" = [119] from asBytes_ofList ['w']]
    rfl
  · decide

end LaserSdk.Memory
