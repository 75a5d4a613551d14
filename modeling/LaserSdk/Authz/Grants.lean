import LaserSdk.Lib.Text
/-!
# Grants and tenancy

A role is a list of grants. A request is permitted when some allow grant
matches it and no deny grant does. `grantsStream` names the one stream a role
stays inside, and `grantSpansStreams` says which grants a stream tenancy
refuses. Names are lists of characters, so a pattern may be any string.
-/

namespace LaserSdk.Authz

open LaserSdk.Lib

abbrev Name := List Char

inductive Effect where
  | allow
  | deny
  deriving DecidableEq, Repr

inductive Feature where
  | kv | memory | projection | fork | graph | query | agent | workflow | destination | checkpoint | authz
  | kvLease | kvFence | filter | session | unrecognized
  deriving DecidableEq, Repr

inductive Action where
  | read | write | delete | admin | unrecognized
  deriving DecidableEq, Repr

inductive ResourceKind where
  | all
  | literal
  | prefixed
  deriving DecidableEq, Repr

structure ResourcePattern where
  kind : ResourceKind
  value : Name
  deriving DecidableEq, Repr

structure Grant where
  effect : Effect
  feature : Feature
  action : Action
  resource : ResourcePattern
  deriving DecidableEq, Repr

def streamResourcePrefix : Name := "stream:".toList

/-- The resource name of `stream` itself. -/
def streamResource (stream : Name) : Name := streamResourcePrefix ++ stream

/-- The name of the resource `loc` inside `stream`. A name that is already
scoped is returned unchanged. -/
def scopedResource (stream loc : Name) : Name :=
  if streamResourcePrefix <+: loc then loc else streamResourcePrefix ++ stream ++ '/' :: loc

/-- The stream and the local part of a scoped resource name. -/
def splitScopedResource (name : Name) : Option (Name × Name) := do
  let rest ← stripPrefix streamResourcePrefix name
  let (stream, loc) ← splitOnce '/' rest
  if stream ≠ [] ∧ loc ≠ [] then some (stream, loc) else none

/-- The name, when it can be a stream's. -/
def streamName (stream : Name) : Option Name := if stream ≠ [] ∧ '/' ∉ stream then some stream else none

/-- The one stream a prefix stays inside, if any. -/
def prefixStream (value : Name) : Option Name :=
  match splitScopedResource value with
  | some (stream, _) => some stream
  | none => ((stripPrefix streamResourcePrefix value).bind (stripSuffix '/')).bind streamName

/-- The one stream a literal name lies in, if any. -/
def literalStream (value : Name) : Option Name :=
  (((splitScopedResource value).map (·.1)).or (stripPrefix streamResourcePrefix value)).bind streamName

/-- Whether an allow grant reaches resources in more than one stream. -/
def grantSpansStreams (grant : Grant) : Bool :=
  if grant.effect = .deny then false
  else match grant.resource.kind with
    | .literal => false
    | .prefixed => (prefixStream grant.resource.value).isNone
    | .all => true

def patternStream (resource : ResourcePattern) : Option Name :=
  match resource.kind with
  | .literal => literalStream resource.value
  | .prefixed => prefixStream resource.value
  | .all => none

/-- The one stream every allow grant of a role stays inside. -/
def grantsStream (grants : List Grant) : Option Name :=
  match (grants.filter (·.effect = .allow)).map (fun grant => patternStream grant.resource) with
  | some first :: streams => if streams.all (· = some first) then some first else none
  | _ => none

/-- Whether a request's resource matches. An unkeyed request matches only a
whole-feature pattern. -/
def ResourcePattern.matches (pattern : ResourcePattern) (resource : Option Name) : Bool :=
  match pattern.kind, resource with
  | .all, _ => true
  | .literal, some r => r == pattern.value
  | .prefixed, some r => pattern.value.isPrefixOf r
  | _, none => false

def Grant.applies (grant : Grant) (feature : Feature) (action : Action) (resource : Option Name) : Bool :=
  grant.feature == feature && grant.action == action && grant.resource.matches resource

/-- The loop over the grants: a matching deny ends it, a matching allow is
remembered. -/
def grantsAllowFrom (feature : Feature) (action : Action) (resource : Option Name) : Bool → List Grant → Bool
  | allowed, [] => allowed
  | allowed, grant :: rest =>
    if grant.applies feature action resource then
      match grant.effect with
      | .deny => false
      | .allow => grantsAllowFrom feature action resource true rest
    else grantsAllowFrom feature action resource allowed rest

def grantsAllow (grants : List Grant) (feature : Feature) (action : Action) (resource : Option Name) : Bool :=
  grantsAllowFrom feature action resource false grants

/-- An agent acting for a user needs both its own grants and the user's. -/
def delegatedAllow (agent user : List Grant) (feature : Feature) (action : Action) (resource : Option Name) : Bool :=
  grantsAllow agent feature action resource && grantsAllow user feature action resource

/-! ## What the loop decides -/

theorem grantsAllowFrom_iff {feature : Feature} {action : Action} {resource : Option Name} {allowed : Bool}
    {grants : List Grant} : grantsAllowFrom feature action resource allowed grants = true ↔
      (∀ g ∈ grants, g.applies feature action resource = true → g.effect = .allow) ∧
        (allowed = true ∨ ∃ g ∈ grants, g.applies feature action resource = true) := by
  induction grants generalizing allowed with
  | nil => simp [grantsAllowFrom]
  | cons g rest ih =>
    unfold grantsAllowFrom
    by_cases hg : g.applies feature action resource = true
    · cases he : g.effect with
      | allow => simp [hg, he, ih]
      | deny => simp [hg, he]
    · simp only [hg, Bool.false_eq_true, if_false, ih]
      simp [hg]

/-- A request is permitted exactly when an allow grant matches it and no deny
grant does. -/
theorem grantsAllow_iff {grants : List Grant} {feature : Feature} {action : Action} {resource : Option Name} :
    grantsAllow grants feature action resource = true ↔
      (∃ g ∈ grants, g.effect = .allow ∧ g.applies feature action resource = true) ∧
        ∀ g ∈ grants, g.applies feature action resource = true → g.effect = .allow := by
  simp only [grantsAllow, grantsAllowFrom_iff, Bool.false_eq_true, false_or]
  constructor
  · rintro ⟨hall, g, hg, ha⟩
    exact ⟨⟨g, hg, hall g hg ha, ha⟩, hall⟩
  · rintro ⟨⟨g, hg, -, ha⟩, hall⟩
    exact ⟨hall, g, hg, ha⟩

/-! ## Streams -/

/-- `r` is the stream `s` itself or a resource inside it. -/
structure LiesIn (s r : Name) : Prop where
  nonempty : s ≠ []
  noSlash : '/' ∉ s
  inside : r = streamResource s ∨ streamResource s ++ ['/'] <+: r

theorem streamName_eq_some {s t : Name} : streamName s = some t ↔ s = t ∧ s ≠ [] ∧ '/' ∉ s := by
  unfold streamName
  split
  · rename_i h; simp [h]
  · rename_i h; simp only [reduceCtorEq, false_iff]; rintro ⟨-, h'⟩; exact h h'

theorem splitScopedResource_eq_some {name stream loc : Name} : splitScopedResource name = some (stream, loc) ↔
    name = streamResource stream ++ '/' :: loc ∧ '/' ∉ stream ∧ stream ≠ [] ∧ loc ≠ [] := by
  unfold splitScopedResource streamResource
  simp only [Option.bind_eq_bind, Option.bind_eq_some_iff, stripPrefix_eq_some, Prod.exists, splitOnce_eq_some]
  constructor
  · rintro ⟨rest, rfl, a, b, ⟨rfl, hn⟩, h⟩
    split at h
    · rename_i hne
      simp only [Option.some.injEq, Prod.mk.injEq] at h
      obtain ⟨rfl, rfl⟩ := h
      exact ⟨by simp, hn, hne⟩
    · cases h
  · rintro ⟨rfl, hn, hs, hl⟩
    exact ⟨stream ++ '/' :: loc, by simp, stream, loc, ⟨rfl, hn⟩, by simp [hs, hl]⟩

/-- Every name under a prefix with a stream lies in that stream. -/
theorem prefixStream_sound {value s : Name} (h : prefixStream value = some s) :
    s ≠ [] ∧ '/' ∉ s ∧ streamResource s ++ ['/'] <+: value := by
  unfold prefixStream at h
  split at h
  · rename_i stream loc hs
    simp only [Option.some.injEq] at h
    subst h
    obtain ⟨rfl, hn, hne, -⟩ := splitScopedResource_eq_some.1 hs
    exact ⟨hne, hn, loc, by simp⟩
  · obtain ⟨rest, hrest, hname⟩ := Option.bind_eq_some_iff.1 h
    obtain ⟨full, hfull, hslash⟩ := Option.bind_eq_some_iff.1 hrest
    rw [stripPrefix_eq_some] at hfull
    rw [stripSuffix_eq_some] at hslash
    obtain ⟨rfl, hne, hn⟩ := streamName_eq_some.1 hname
    subst hslash
    exact ⟨hne, hn, [], by simp [hfull, streamResource]⟩

theorem literalStream_sound {value s : Name} (h : literalStream value = some s) : LiesIn s value := by
  unfold literalStream at h
  obtain ⟨rest, hrest, hname⟩ := Option.bind_eq_some_iff.1 h
  obtain ⟨rfl, hne, hn⟩ := streamName_eq_some.1 hname
  refine ⟨hne, hn, ?_⟩
  rcases Option.or_eq_some_iff.1 hrest with hmap | ⟨-, hs⟩
  · obtain ⟨⟨stream, loc⟩, hsplit, rfl⟩ := Option.map_eq_some_iff.1 hmap
    obtain ⟨rfl, -⟩ := splitScopedResource_eq_some.1 hsplit
    exact .inr ⟨loc, by simp⟩
  · exact .inl (stripPrefix_eq_some.1 hs)

/-- A pattern with a stream matches only keyed requests inside it. -/
theorem patternStream_sound {pattern : ResourcePattern} {s : Name} (h : patternStream pattern = some s)
    {resource : Option Name} (hm : pattern.matches resource = true) : ∃ r, resource = some r ∧ LiesIn s r := by
  obtain ⟨kind, value⟩ := pattern
  cases resource with
  | none => cases kind <;> simp_all [ResourcePattern.matches, patternStream]
  | some r =>
    refine ⟨r, rfl, ?_⟩
    cases kind with
    | all => simp [patternStream] at h
    | literal =>
      obtain rfl : r = value := by simpa [ResourcePattern.matches] using hm
      exact literalStream_sound h
    | prefixed =>
      obtain ⟨hne, hn, hp⟩ := prefixStream_sound h
      have hr : value <+: r := by simpa [ResourcePattern.matches] using hm
      exact ⟨hne, hn, .inr (hp.trans hr)⟩

theorem patternStream_name {pattern : ResourcePattern} {s : Name} (h : patternStream pattern = some s) :
    s ≠ [] ∧ '/' ∉ s := by
  unfold patternStream at h
  split at h
  · exact ⟨(literalStream_sound h).nonempty, (literalStream_sound h).noSlash⟩
  · exact ⟨(prefixStream_sound h).1, (prefixStream_sound h).2.1⟩
  · cases h

/-- The stream of a role is the stream of each of its allow grants, and the
role has one. -/
theorem grantsStream_eq_some {grants : List Grant} {s : Name} (h : grantsStream grants = some s) :
    (∃ g ∈ grants, g.effect = .allow ∧ patternStream g.resource = some s) ∧
      ∀ g ∈ grants, g.effect = .allow → patternStream g.resource = some s := by
  unfold grantsStream at h
  split at h
  · rename_i first streams heq
    split at h
    · rename_i hall
      simp only [Option.some.injEq] at h
      subst h
      have hs : ∀ x ∈ (grants.filter (·.effect = .allow)).map (fun g => patternStream g.resource), x = some first := by
        rw [heq]
        intro x hx
        rcases List.mem_cons.1 hx with rfl | hx
        · rfl
        · simpa using List.all_eq_true.1 hall x hx
      have hmem : some first ∈ (grants.filter (·.effect = .allow)).map (fun g => patternStream g.resource) := by
        rw [heq]; exact List.mem_cons_self
      refine ⟨?_, fun g hg he => hs _ (List.mem_map.2 ⟨g, List.mem_filter.2 ⟨hg, by simp [he]⟩, rfl⟩)⟩
      obtain ⟨g, hg, hgs⟩ := List.mem_map.1 hmem
      obtain ⟨hg, he⟩ := List.mem_filter.1 hg
      exact ⟨g, hg, by simpa using he, hgs⟩
    · cases h
  · cases h

/-- A resource lies in at most one stream. -/
theorem LiesIn.unique {s s' r : Name} (h : LiesIn s r) (h' : LiesIn s' r) : s = s' := by
  -- A resource is its stream's name followed by nothing, or by a slash.
  have cut : ∀ {t}, LiesIn t r → streamResource t ++ ['/'] <+: r ++ ['/'] := by
    intro t ht
    rcases ht.inside with rfl | hp
    · exact List.prefix_rfl
    · exact hp.trans (List.prefix_append _ _)
  obtain ⟨b, hb⟩ := cut h
  obtain ⟨b', hb'⟩ := cut h'
  have he : s ++ '/' :: b = s' ++ '/' :: b' := by simpa [streamResource] using hb.trans hb'.symm
  exact split_unique h.noSlash h'.noSlash he

/-- What a role with a stream permits is keyed and inside the stream. -/
theorem grantsAllow_in_stream {grants : List Grant} {s : Name} (h : grantsStream grants = some s)
    {feature : Feature} {action : Action} {resource : Option Name}
    (ha : grantsAllow grants feature action resource = true) : ∃ r, resource = some r ∧ LiesIn s r := by
  obtain ⟨-, hall⟩ := grantsStream_eq_some h
  obtain ⟨⟨g, hg, he, happ⟩, -⟩ := grantsAllow_iff.1 ha
  simp only [Grant.applies, Bool.and_eq_true] at happ
  exact patternStream_sound (hall g hg he) happ.2

/-- Scoping puts an unscoped name inside the stream, and a second scoping
changes nothing, whatever stream it names. -/
theorem scopedResource_liesIn {stream loc : Name} (hne : stream ≠ []) (hn : '/' ∉ stream)
    (hloc : ¬ streamResourcePrefix <+: loc) : LiesIn stream (scopedResource stream loc) ∧
      ∀ other, scopedResource other (scopedResource stream loc) = scopedResource stream loc := by
  unfold scopedResource
  simp only [hloc, if_false]
  refine ⟨⟨hne, hn, .inr ⟨loc, by simp [streamResource]⟩⟩, fun other => if_pos ?_⟩
  exact (List.prefix_append _ _).trans (List.prefix_append _ _)

/-! ## Main theorem -/

/-- A role with a stream permits only keyed requests inside that stream, and a
grant that does not span streams matches no two resources in different ones. -/
theorem tenancy_sound (grants : List Grant) :
    (∀ s, grantsStream grants = some s → s ≠ [] ∧ '/' ∉ s ∧
      ∀ feature action resource, grantsAllow grants feature action resource = true →
        ∃ r, resource = some r ∧ (r = streamResource s ∨ streamResource s ++ ['/'] <+: r)) ∧
    ∀ g : Grant, g.effect = .allow → grantSpansStreams g = false →
      ∀ r r', g.resource.matches (some r) = true → g.resource.matches (some r') = true →
        ∀ s s', LiesIn s r → LiesIn s' r' → s = s' := by
  refine ⟨fun s h => ?_, fun g he hspan r r' hm hm' s s' hs hs' => ?_⟩
  · obtain ⟨⟨g, -, -, hg⟩, -⟩ := grantsStream_eq_some h
    refine ⟨(patternStream_name hg).1, (patternStream_name hg).2, fun feature action resource ha => ?_⟩
    obtain ⟨r, hr, hin⟩ := grantsAllow_in_stream h ha
    exact ⟨r, hr, hin.inside⟩
  · obtain ⟨effect, feature, action, kind, value⟩ := g
    simp only at he
    subst he
    cases kind with
    | all => simp [grantSpansStreams] at hspan
    | literal =>
      simp only [ResourcePattern.matches, beq_iff_eq] at hm hm'
      subst hm hm'
      exact hs.unique hs'
    | prefixed =>
      cases hp : prefixStream value with
      | none => simp [grantSpansStreams, hp] at hspan
      | some t =>
        obtain ⟨_, hr, hin⟩ := @patternStream_sound ⟨.prefixed, value⟩ t hp _ hm
        obtain ⟨_, hr', hin'⟩ := @patternStream_sound ⟨.prefixed, value⟩ t hp _ hm'
        obtain rfl := Option.some.inj hr
        obtain rfl := Option.some.inj hr'
        exact (hs.unique hin).trans (hin'.unique hs')

/-- A tenant's role: everything in one stream but its secret. -/
def tenantRole : List Grant :=
  [⟨.deny, .kv, .read, .literal, "stream:a/secret".toList⟩, ⟨.allow, .kv, .read, .prefixed, "stream:a/".toList⟩]

theorem tenancy_sound_role : grantsStream tenantRole = some ['a'] ∧
    grantsAllow tenantRole .kv .read (some "stream:a/x".toList) = true ∧
    ∃ r, some "stream:a/x".toList = some r ∧ (r = streamResource ['a'] ∨ streamResource ['a'] ++ ['/'] <+: r) :=
  ⟨by decide, by decide, ((tenancy_sound tenantRole).1 ['a'] (by decide)).2.2 .kv .read _ (by decide)⟩

/-- An agent confined to a stream stays in it whoever it acts for. -/
theorem delegatedAllow_in_stream {agent user : List Grant} {s : Name} (h : grantsStream agent = some s)
    {feature : Feature} {action : Action} {resource : Option Name}
    (ha : delegatedAllow agent user feature action resource = true) : ∃ r, resource = some r ∧ LiesIn s r := by
  simp only [delegatedAllow, Bool.and_eq_true] at ha
  exact grantsAllow_in_stream h ha.1

end LaserSdk.Authz
