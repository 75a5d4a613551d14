import LaserSdk.Filter.Prune
/-!
# The last index of an array

The pruning visitor counts the positions of an array in 32 bits. From the last
index on, each element takes the place of the one before it. So a filter judges
the pruned payload as the whole one in which the last element of such an array
stands at the last index. It can tell the two apart only where it reads the
payload and a path steps through that index of a longer array, outside what the
trie keeps whole.
-/

namespace LaserSdk.Filter

open Lib

/-! ## Counting past the end -/

theorem pruneItems_saturates (paths : PathTrie) (items rest : List Raw) {index : UInt32} (kept : List Value)
    (h : 4294967295 ≤ index.toNat + items.length) :
    ∃ before, pruneItems paths index kept (items ++ rest) = pruneItems paths 4294967295 before rest := by
  induction items generalizing index kept with
  | nil =>
    have hlt := index.toNat_lt
    rw [List.length_nil] at h
    have hindex : index = 4294967295 := by
      apply UInt32.toNat_inj.1
      rw [toNat_lastIndex]
      omega
    exact ⟨kept, by rw [hindex, List.nil_append]⟩
  | cons item items ih =>
    have hnext : 4294967295 ≤ (nextIndex index).toNat + items.length := by
      by_cases hmax : index = 4294967295
      · rw [nextIndex, if_pos hmax, hmax, toNat_lastIndex]
        omega
      · rw [List.length_cons] at h
        rw [toNat_nextIndex hmax]
        omega
    rw [List.cons_append, pruneItems]
    cases paths.index index with
    | none => exact ih kept hnext
    | some child => exact ih _ hnext

/-- Every element from the last index on replaces the one before it. -/
theorem pruneItems_last {paths child : PathTrie} (hchild : paths.index 4294967295 = some child) (items : List Raw)
    (item : Raw) (h : 4294967295 ≤ items.length) :
    (pruneItems paths 0 [] (items ++ [item]))[4294967295]? = some (prune child item) := by
  obtain ⟨kept, hkept⟩ := @pruneItems_saturates paths items [item] 0 [] (by omega)
  rw [hkept, pruneItems, hchild]
  simp only [pruneItems]
  have hlength : (resize kept (4294967295 : UInt32).toNat .null).length = 4294967295 := by
    rw [toNat_lastIndex, resize, List.length_append, List.length_take, List.length_replicate]
    omega
  rw [List.getElem?_append_right (Nat.le_of_eq hlength), hlength]
  rfl

/-- The element that pruning keeps under an index, in an array of this length. -/
def keptAt (index : UInt32) (length : Nat) : Nat :=
  if index = 4294967295 then max 4294967295 (length - 1) else index.toNat

theorem pruneItems_kept {paths child : PathTrie} {i : UInt32} (hchild : paths.index i = some child) (items : List Raw) :
    (pruneItems paths 0 [] items)[i.toNat]? = items[keptAt i items.length]?.map (prune child) := by
  by_cases hlong : i = 4294967295 ∧ 4294967296 < items.length
  · obtain ⟨rfl, hlength⟩ := hlong
    obtain ⟨first, last, rfl⟩ : ∃ first last, items = first ++ [last] :=
      ⟨_, _, (List.dropLast_append_getLast (List.ne_nil_of_length_pos (by omega))).symm⟩
    rw [List.length_append, List.length_singleton] at hlength
    have hkept : keptAt 4294967295 (first ++ [last]).length = first.length := by
      rw [keptAt, if_pos rfl, List.length_append, List.length_singleton]
      omega
    rw [hkept, List.getElem?_append_right (Nat.le_refl _), Nat.sub_self]
    exact pruneItems_last hchild first last (by omega)
  · have hfits : i ≠ 4294967295 ∨ (0 : UInt32).toNat + items.length ≤ 4294967296 := by
      refine or_iff_not_imp_left.2 fun hlast => ?_
      have hshort : ¬4294967296 < items.length := fun h => hlong ⟨not_not.1 hlast, h⟩
      simpa using hshort
    have hget : (pruneItems paths 0 [] items)[i.toNat]? = items[i.toNat]?.map (prune child) :=
      pruneItems_get hchild items (Nat.zero_le _) (Nat.zero_le _) hfits
    rw [hget, keptAt]
    split
    · rename_i hlast
      subst hlast
      have hlength : items.length ≤ 4294967296 := Nat.not_lt.1 fun h => hlong ⟨rfl, h⟩
      rw [show max 4294967295 (items.length - 1) = (4294967295 : UInt32).toNat by
        rw [toNat_lastIndex]
        omega]
    · rfl

/-! ## The payload as pruning reads it -/

/-- The last element at the last index, where the trie keeps that index. -/
def settleLast (paths : PathTrie) (items : List Value) : List Value :=
  if (paths.index 4294967295).isSome then items.set 4294967295 (items.getLastD .null) else items

mutual

/-- The payload with the last element of every array that the trie reads past
its last index put at that index. -/
def moveLast (paths : PathTrie) : Value → Value
  | .array items => if paths.whole then .array items else .array (settleLast paths (moveItems paths 0 items))
  | .object fields => if paths.whole then .object fields else .object (moveFields paths fields)
  | .null => .null
  | .bool value => .bool value
  | .number number => .number number
  | .string text => .string text

def moveItems (paths : PathTrie) (index : UInt32) : List Value → List Value
  | [] => []
  | item :: rest =>
    match paths.index index with
    | some child => moveLast child item :: moveItems paths (nextIndex index) rest
    | none => item :: moveItems paths (nextIndex index) rest

def moveFields (paths : PathTrie) : List (String × Value) → List (String × Value)
  | [] => []
  | (key, value) :: rest =>
    match paths.child key with
    | some child => (key, moveLast child value) :: moveFields paths rest
    | none => (key, value) :: moveFields paths rest

end

/-- What happens to the value under a child of the trie. -/
def moveUnder (child : Option PathTrie) (value : Value) : Value :=
  match child with
  | some child => moveLast child value
  | none => value

theorem moveLast_whole {paths : PathTrie} (h : paths.whole = true) (value : Value) : moveLast paths value = value := by
  cases value <;> simp [moveLast, h]

theorem lookup_moveFields (paths : PathTrie) (fields : List (String × Value)) (key : String) :
    (moveFields paths fields).lookup key = (fields.lookup key).map (moveUnder (paths.child key)) := by
  induction fields with
  | nil => rfl
  | cons field rest ih =>
    obtain ⟨name, value⟩ := field
    have hcons : moveFields paths ((name, value) :: rest) =
        (name, moveUnder (paths.child name) value) :: moveFields paths rest := by
      rw [moveFields]
      cases paths.child name <;> rfl
    rw [hcons, List.lookup_cons, List.lookup_cons, ih]
    by_cases h : key = name
    · subst h
      simp
    · simp [beq_false_of_ne h]

theorem length_moveItems (paths : PathTrie) (items : List Value) (index : UInt32) :
    (moveItems paths index items).length = items.length := by
  induction items generalizing index with
  | nil => rfl
  | cons item rest ih =>
    rw [moveItems]
    cases paths.index index <;> simp [ih]

theorem getElem_moveItems (paths : PathTrie) (items : List Value) (index : UInt32) (n : Nat) :
    (moveItems paths index items)[n]? = items[n]?.map (moveUnder (paths.index (nextIndex^[n] index))) := by
  induction items generalizing index n with
  | nil => simp [moveItems]
  | cons item rest ih =>
    have hcons : moveItems paths index (item :: rest) =
        moveUnder (paths.index index) item :: moveItems paths (nextIndex index) rest := by
      rw [moveItems]
      cases paths.index index <;> rfl
    rw [hcons]
    cases n with
    | zero => simp
    | succ n => simpa using ih (nextIndex index) n

theorem toNat_iterate_nextIndex (index : UInt32) (n : Nat) :
    (nextIndex^[n] index).toNat = min (index.toNat + n) 4294967295 := by
  induction n generalizing index with
  | zero =>
    have := index.toNat_lt
    simp only [Function.iterate_zero, id_eq]
    omega
  | succ n ih =>
    rw [Function.iterate_succ_apply, ih]
    by_cases h : index = 4294967295
    · rw [nextIndex, if_pos h, h, toNat_lastIndex]
      omega
    · rw [toNat_nextIndex h]
      omega

theorem getElem_settleLast (paths : PathTrie) (items : List Value) (i : UInt32) (h : (paths.index i).isSome) :
    (settleLast paths items)[i.toNat]? = items[keptAt i items.length]? := by
  unfold settleLast keptAt
  by_cases hlast : i = 4294967295
  · subst hlast
    rw [if_pos h, if_pos rfl, toNat_lastIndex]
    by_cases hlength : 4294967295 < items.length
    · rw [List.getElem?_set_self hlength, Nat.max_eq_right (by omega), ← List.getLast?_eq_getElem?, List.getLastD_eq_getLast?]
      cases hempty : items.getLast? with
      | none => simp [List.getLast?_eq_none_iff.1 hempty] at hlength
      | some last => rfl
    · rw [List.getElem?_eq_none (by simpa using hlength), List.getElem?_eq_none (by omega)]
  · have hne : 4294967295 ≠ i.toNat := fun hn => hlast (UInt32.toNat_inj.1 hn.symm)
    rw [if_neg hlast]
    split
    · rw [List.getElem?_set_ne hne]
    · rfl

/-- What stands under an index of the trie. -/
theorem getElem_moved {paths child : PathTrie} {i : UInt32} (hchild : paths.index i = some child) (items : List Value) :
    (settleLast paths (moveItems paths 0 items))[i.toNat]? = items[keptAt i items.length]?.map (moveLast child) := by
  rw [getElem_settleLast paths _ i (by rw [hchild]; rfl), length_moveItems, getElem_moveItems]
  by_cases hin : keptAt i items.length < items.length
  · have hindex : nextIndex^[keptAt i items.length] 0 = i := by
      apply UInt32.toNat_inj.1
      have hi := i.toNat_lt
      rw [toNat_iterate_nextIndex, show (0 : UInt32).toNat = 0 from rfl, keptAt]
      split
      · rename_i hlast
        rw [hlast, toNat_lastIndex]
        omega
      · omega
    rw [hindex, hchild]
    rfl
  · rw [List.getElem?_eq_none (Nat.not_lt.1 hin)]
    rfl

theorem length_buildItems (items : List Raw) : (buildItems items).length = items.length := by
  induction items with
  | nil => rfl
  | cons item rest ih => simp [buildItems, ih]

/-- A covered path resolves in the pruned value as in the moved one. -/
theorem resolve_moveLast {paths : PathTrie} {path : List PathSegment} {raw : Raw} (hcovers : paths.Covers path) :
    resolveSegments (prune paths raw) path = resolveSegments (moveLast paths (build raw)) path := by
  induction path generalizing paths raw with
  | nil => rw [prune_whole hcovers, moveLast_whole hcovers]
  | cons segment rest ih =>
    cases hwhole : paths.whole with
    | true => rw [prune_whole hwhole, moveLast_whole hwhole]
    | false =>
      obtain ⟨child, hchild, hbelow⟩ := hcovers.resolve_left (by simp [hwhole])
      cases segment with
      | key key =>
        cases raw with
        | object entries =>
          obtain ⟨held, hpruned, hbuilt⟩ := lookup_pruneEntries hchild entries [] [] ⟨none, rfl, rfl⟩
          have hchild : paths.child key = some child := hchild
          simp only [prune, build, moveLast, hwhole, Bool.false_eq_true, if_false, resolveSegments, lookup_moveFields, hpruned,
            hbuilt, hchild]
          cases held with
          | none => rfl
          | some held => exact ih hbelow
        | string text => simp [prune, hwhole, build, moveLast, resolveSegments]
        | array items => simp [prune, hwhole, build, moveLast, resolveSegments]
        | float value =>
          simp only [prune, build, numberValue]
          split <;> rfl
        | _ => rfl
      | index i =>
        cases raw with
        | array items =>
          have hmoved := getElem_moved hchild (buildItems items)
          rw [length_buildItems, getElem_buildItems] at hmoved
          simp only [prune, build, moveLast, hwhole, Bool.false_eq_true, if_false, resolveSegments, pruneItems_kept hchild,
            hmoved]
          cases items[keptAt i items.length]? with
          | none => rfl
          | some item => exact ih hbelow
        | string text => simp [prune, hwhole, build, moveLast, resolveSegments]
        | object entries => simp [prune, hwhole, build, moveLast, resolveSegments]
        | float value =>
          simp only [prune, build, numberValue]
          split <;> rfl
        | _ => rfl

/-! ## Paths that stay -/

/-- A path steps through the last index of an array that is longer, outside
what the trie keeps whole. -/
def Overruns (paths : PathTrie) (value : Value) (path : List PathSegment) : Prop :=
  ∃ before rest items, path = before ++ .index 4294967295 :: rest ∧ ¬paths.Covers before ∧
    resolveSegments value before = some (.array items) ∧ 4294967296 < items.length

theorem Overruns.step {paths child : PathTrie} {value inner : Value} {segment : PathSegment} {rest : List PathSegment}
    (hwhole : paths.whole = false) (hchild : paths.step segment = some child)
    (hinner : ∀ path, resolveSegments value (segment :: path) = resolveSegments inner path) (h : Overruns child inner rest) :
    Overruns paths value (segment :: rest) := by
  obtain ⟨before, after, items, hpath, hcovers, hitems, hlength⟩ := h
  refine ⟨segment :: before, after, items, by rw [hpath]; rfl, ?_, by rw [hinner, hitems], hlength⟩
  rintro (hkept | ⟨other, hother, hbelow⟩)
  · rw [hwhole] at hkept
    cases hkept
  · rw [hchild] at hother
    cases hother
    exact hcovers hbelow

/-- Elsewhere a covered path resolves to what it did before. -/
theorem resolve_unmoved {paths : PathTrie} {value : Value} {path : List PathSegment} (hcovers : paths.Covers path)
    (h : ¬Overruns paths value path) : resolveSegments (moveLast paths value) path = resolveSegments value path := by
  induction path generalizing paths value with
  | nil => rw [moveLast_whole hcovers]
  | cons segment rest ih =>
    cases hwhole : paths.whole with
    | true => rw [moveLast_whole hwhole]
    | false =>
      obtain ⟨child, hchild, hbelow⟩ := hcovers.resolve_left (by simp [hwhole])
      cases segment with
      | key key =>
        cases value with
        | object fields =>
          have hkey : paths.child key = some child := hchild
          simp only [moveLast, hwhole, Bool.false_eq_true, if_false, resolveSegments, lookup_moveFields, hkey]
          cases hheld : fields.lookup key with
          | none => rfl
          | some held =>
            refine ih hbelow fun hover => h (hover.step hwhole hchild fun path => ?_)
            rw [resolveSegments, hheld, Option.bind_some]
        | array items => simp [moveLast, hwhole, resolveSegments]
        | _ => rfl
      | index i =>
        cases value with
        | array items =>
          have hkept : items[keptAt i items.length]? = items[i.toNat]? := by
            unfold keptAt
            split
            · rename_i hlast
              subst hlast
              -- The array ends at the last index at the latest.
              have hlength : items.length ≤ 4294967296 := by
                refine Nat.not_lt.1 fun hlong => h ⟨[], rest, items, rfl, ?_, rfl, hlong⟩
                simp [PathTrie.Covers, hwhole]
              rw [toNat_lastIndex, Nat.max_eq_left (by omega)]
            · rfl
          simp only [moveLast, hwhole, Bool.false_eq_true, if_false, resolveSegments, getElem_moved hchild, hkept]
          cases hitem : items[i.toNat]? with
          | none => rfl
          | some item =>
            refine ih hbelow fun hover => h (hover.step hwhole hchild fun path => ?_)
            rw [resolveSegments, hitem, Option.bind_some]
        | object fields => simp [moveLast, hwhole, resolveSegments]
        | _ => rfl

/-- No step of the path is the last index of an array with elements past it. -/
def Addressable (value : Value) (path : List PathSegment) : Prop :=
  ∀ before rest items, path = before ++ .index 4294967295 :: rest →
    resolveSegments value before = some (.array items) → items.length ≤ 4294967296

/-- A covered path resolves in the pruned value as it does in the whole one. -/
theorem resolve_prune {paths : PathTrie} {path : List PathSegment} {raw : Raw} (hcovers : paths.Covers path)
    (haddr : Addressable (build raw) path) : resolveSegments (prune paths raw) path = resolveSegments (build raw) path := by
  rw [resolve_moveLast hcovers]
  refine resolve_unmoved hcovers ?_
  rintro ⟨before, rest, items, hpath, -, hitems, hlength⟩
  exact Nat.not_lt.2 (haddr before rest items hpath hitems) hlength

/-! ## Filters that do not read the payload -/

/-- The evaluation ends before it asks for the payload: it finds a truth over
one that cannot be decoded. -/
def Unread (host : Host) (headers : List Header) (node : Node) : Prop :=
  ∃ truth flag, (Context.mk host headers (.error .malformed)).truth false node = (.ok truth, flag)

section

variable {host : Host} {headers : List Header} {reason : FaultReason} (payload : Except FaultReason Value)

theorem joinPasses_unread {decisive otherwise truth : Truth} {flag : Bool} {first other : Except FaultReason Pass × Bool}
    {second next : Bool → Bool → Except FaultReason Pass × Bool}
    (hfirst : ∀ pass flag, first = (.ok pass, flag) → other = (.ok pass, flag))
    (hsecond : ∀ unknown mismatched pass flag, second unknown mismatched = (.ok pass, flag) →
      next unknown mismatched = (.ok pass, flag))
    (h : joinPasses decisive otherwise first second = (.ok truth, flag)) :
    joinPasses decisive otherwise other next = (.ok truth, flag) := by
  obtain ⟨result, mismatched⟩ := first
  cases result with
  | error reason => cases h
  | ok pass =>
    rw [hfirst pass mismatched rfl]
    cases pass with
    | decided => exact h
    | running unknown =>
      simp only [joinPasses] at h ⊢
      rcases hlast : second unknown mismatched with ⟨result, flag'⟩
      rw [hlast] at h
      cases result with
      | error reason => cases h
      | ok pass =>
        rw [hsecond _ _ pass flag' hlast]
        exact h

theorem stepPass_unread {decisive : Truth} {unknown flag : Bool} {pass : Pass} {child other : Except FaultReason Truth × Bool}
    {second next : Bool → Bool → Except FaultReason Pass × Bool}
    (hchild : ∀ truth flag, child = (.ok truth, flag) → other = (.ok truth, flag))
    (hnext : ∀ unknown mismatched, second unknown mismatched = (.ok pass, flag) → next unknown mismatched = (.ok pass, flag))
    (h : stepPass decisive unknown child second = (.ok pass, flag)) :
    stepPass decisive unknown other next = (.ok pass, flag) := by
  obtain ⟨result, mismatched⟩ := child
  cases result with
  | error reason => cases h
  | ok truth =>
    rw [hchild truth mismatched rfl]
    simp only [stepPass] at h ⊢
    split at h
    · rename_i hdecisive
      rw [if_pos hdecisive, h]
    · rename_i hdecisive
      rw [if_neg hdecisive]
      exact hnext _ _ h

mutual

/-- A truth found over a faulty payload is found over every payload. -/
theorem truth_unread : (node : Node) → {mismatched flag : Bool} → {truth : Truth} →
    (Context.mk host headers (.error reason)).truth mismatched node = (.ok truth, flag) →
    (Context.mk host headers payload).truth mismatched node = (.ok truth, flag)
  | .all children, _, _, _, h =>
    joinPasses_unread (fun _ _ => pass_unread children) (fun _ _ _ _ => pass_unread children) h
  | .any children, _, _, _, h =>
    joinPasses_unread (fun _ _ => pass_unread children) (fun _ _ _ _ => pass_unread children) h
  | .not child, mismatched, flag, truth, h => by
    simp only [Context.truth] at h ⊢
    rcases hchild : (Context.mk host headers (.error reason)).truth mismatched child with ⟨result, flag'⟩
    rw [hchild] at h
    cases result with
    | error reason => cases h
    | ok inner =>
      rw [truth_unread child hchild]
      exact h
  | .header _ _ _, _, _, _, h => h
  | .headerText _ _, _, _, _, h => h
  | .compare _ _ _, _, _, _, h => by cases h
  | .coerced _ _ _ _, _, _, _, h => by cases h
  | .text _ _, _, _, _, h => by cases h
  | .present _, _, _, _, h => by cases h
  | .absent _, _, _, _, h => by cases h

theorem pass_unread : (children : List Node) → {reads : Bool} → {decisive : Truth} → {unknown mismatched flag : Bool} →
    {pass : Pass} → (Context.mk host headers (.error reason)).pass reads decisive unknown mismatched children = (.ok pass, flag) →
    (Context.mk host headers payload).pass reads decisive unknown mismatched children = (.ok pass, flag)
  | [], _, _, _, _, _, _, h => h
  | child :: rest, reads, decisive, unknown, mismatched, flag, pass, h => by
    rw [Context.pass] at h ⊢
    split at h
    · rename_i hreads
      rw [if_pos hreads]
      exact stepPass_unread (fun _ _ => truth_unread child) (fun _ _ => pass_unread rest) h
    · rename_i hreads
      rw [if_neg hreads]
      exact pass_unread rest h

end

end

/-! ## Judging the pruned payload -/

/-- The pruned decode fails with the whole one. Both payloads give the same
truth and the same flag exactly when the filter cannot tell the whole payload
from the moved one, which it can only where it reads the payload and one of its
paths overruns an array. -/
theorem pruned_judges_whole {host : Host} {encodedBytes : ConsumerFilter → Nat} {decoders : Decoders}
    {filter : ConsumerFilter} {compiled : CompiledFilter}
    (hcompile : CompiledFilter.compile host encodedBytes decoders filter = .ok compiled)
    (payload : List UInt8) (limits : DecodeLimits) :
    (decodeJsonPaths decoders.tokenize payload limits compiled.paths).map (fun _ => ()) =
        (decodeJson decoders.tokenize payload limits).map (fun _ => ()) ∧
      ∀ headers : List Header,
        (Context.mk host headers (decodeJsonPaths decoders.tokenize payload limits compiled.paths)).truth false compiled.root =
            (Context.mk host headers (decodeJson decoders.tokenize payload limits)).truth false compiled.root ↔
          ∀ whole, decodeJson decoders.tokenize payload limits = .ok whole →
            (∃ path ∈ compiled.root.paths, Overruns compiled.paths whole path.segments) →
            ¬Unread host headers compiled.root →
            (Context.mk host headers (.ok (moveLast compiled.paths whole))).truth false compiled.root =
              (Context.mk host headers (.ok whole)).truth false compiled.root := by
  refine ⟨decodeJsonPaths_accepts _ _ _ _, fun headers => ?_⟩
  obtain ⟨hpaths, hroot, -⟩ := compile_parts hcompile
  have hcovers := (collectPaths_extends hroot hpaths).2
  unfold decodeJson decodeJsonPaths
  split
  · simp
  · split
    · simp
    · cases htokens : decoders.tokenize payload with
      | none => simp
      | some raw =>
        have hwhole : prune .everything raw = build raw := prune_whole rfl raw
        have hpruned : (Context.mk host headers (.ok (prune compiled.paths raw))).truth false compiled.root =
            (Context.mk host headers (.ok (moveLast compiled.paths (build raw)))).truth false compiled.root :=
          truth_congr host headers compiled.root false fun path hpath => resolve_moveLast (hcovers path hpath)
        simp only [hwhole, hpruned, Except.ok.injEq, forall_eq']
        refine ⟨fun h _ _ => h, fun h => ?_⟩
        by_cases hread : Unread host headers compiled.root
        · obtain ⟨truth, flag, hfound⟩ := hread
          rw [truth_unread _ compiled.root hfound, truth_unread _ compiled.root hfound]
        · by_cases hover : ∃ path ∈ compiled.root.paths, Overruns compiled.paths (build raw) path.segments
          · exact h hover hread
          · refine truth_congr host headers compiled.root false fun path hpath => ?_
            exact resolve_unmoved (hcovers path hpath) fun h => hover ⟨path, hpath, h⟩

/-! ### A misread element -/

/-- `[1,1,...,1,2]` with `n` ones. -/
def onesThenTwo (n : Nat) : Raw := .array (List.replicate n (.integer 1) ++ [.integer 2])

def onesThenTwoBytes (n : Nat) : List UInt8 := 91 :: ((List.replicate n [49, 44]).flatten ++ [50, 93])

theorem depthWithin_ones (n depth : Nat) (rest : List UInt8) :
    depthWithin 64 depth ((List.replicate n [49, 44]).flatten ++ rest) = depthWithin 64 depth rest := by
  induction n with
  | zero => rfl
  | succ n ih => simpa [List.replicate_succ, depthWithin] using ih

theorem depthWithin_onesThenTwo (n : Nat) : jsonDepthWithin (onesThenTwoBytes n) 64 = true := by
  unfold jsonDepthWithin onesThenTwoBytes
  rw [depthWithin]
  simp [depthWithin_ones, depthWithin]

theorem decode_onesThenTwo (n : Nat) (paths : PathTrie) :
    decodeJsonPaths (oneDocument (onesThenTwoBytes n) (onesThenTwo n)).tokenize (onesThenTwoBytes n)
      ⟨(onesThenTwoBytes n).length, 64⟩ paths = .ok (prune paths (onesThenTwo n)) := by
  have hdepth : jsonDepthWithin (onesThenTwoBytes n) (min 64 maxFilterParseDepth) = true := depthWithin_onesThenTwo n
  simp [decodeJsonPaths, hdepth, oneDocument]

theorem resolve_pruned_onesThenTwo {n : Nat} (h : 4294967295 < n) :
    resolve (prune (PathTrie.empty.insert ⟨[.index 4294967295]⟩) (onesThenTwo n)) ⟨[.index 4294967295]⟩ =
      some (.number (.integer 2)) := by
  have hchild : (PathTrie.empty.insert ⟨[.index 4294967295]⟩).index 4294967295 = some .everything := rfl
  have hwhole : (PathTrie.empty.insert ⟨[.index 4294967295]⟩).whole = false := rfl
  have hlast := pruneItems_last hchild (List.replicate n (.integer 1)) (.integer 2) (by rw [List.length_replicate]; omega)
  rw [onesThenTwo, prune, hwhole, if_neg Bool.false_ne_true, resolve, resolveSegments]
  exact congrArg (Option.bind · _) hlast

theorem resolve_whole_onesThenTwo {n : Nat} (h : 4294967295 < n) :
    resolve (prune .everything (onesThenTwo n)) ⟨[.index 4294967295]⟩ = some (.number (.integer 1)) := by
  have hitem : (List.replicate n (Raw.integer 1) ++ [.integer 2])[4294967295]? = some (.integer 1) := by
    rw [List.getElem?_append_left (by rw [List.length_replicate]; exact h), List.getElem?_replicate, if_pos h]
  have hbuilt := getElem_buildItems (List.replicate n (Raw.integer 1) ++ [.integer 2]) 4294967295
  rw [hitem] at hbuilt
  rw [prune_whole rfl, onesThenTwo, build, resolve, resolveSegments]
  exact congrArg (Option.bind · _) hbuilt

theorem last_index_misread {n : Nat} (h : 4294967295 < n) : ∃ compiled,
    CompiledFilter.compile plainHost (fun _ => 151) (oneDocument (onesThenTwoBytes n) (onesThenTwo n))
        (equalsOne "[4294967295]") = .ok compiled ∧
      (Context.mk plainHost [] (decodeJsonPaths compiled.decoders.tokenize (onesThenTwoBytes n)
          ⟨(onesThenTwoBytes n).length, 64⟩ compiled.paths)).truth false compiled.root = (.ok .noMatch, false) ∧
      (Context.mk plainHost [] (decodeJson compiled.decoders.tokenize (onesThenTwoBytes n)
          ⟨(onesThenTwoBytes n).length, 64⟩)).truth false compiled.root = (.ok .isMatch, false) := by
  have hparse : FieldPath.parse "[4294967295]" = .ok ⟨[.index 4294967295]⟩ := by decide +kernel
  have hvalid : (equalsOne "[4294967295]").validate plainHost (fun _ => 151) = .ok () := by decide +kernel
  refine ⟨_, compile_equalsOne hparse hvalid _, ?_, ?_⟩
  · rw [decode_onesThenTwo]
    simp only [Context.truth, Context.payloadTruth, resolve_pruned_onesThenTwo h]
    rfl
  · rw [decodeJson, decode_onesThenTwo]
    simp only [Context.truth, Context.payloadTruth, resolve_whole_onesThenTwo h]
    rfl

/-- Over an array of 2^32 ones and a two, `[4294967295] = 1` holds of the whole
payload and not of the pruned one. -/
theorem last_index_mistaken : ∃ compiled,
    CompiledFilter.compile plainHost (fun _ => 151)
        (oneDocument (onesThenTwoBytes 4294967296) (onesThenTwo 4294967296)) (equalsOne "[4294967295]") = .ok compiled ∧
      (Context.mk plainHost [] (decodeJsonPaths compiled.decoders.tokenize (onesThenTwoBytes 4294967296)
          ⟨(onesThenTwoBytes 4294967296).length, 64⟩ compiled.paths)).truth false compiled.root = (.ok .noMatch, false) ∧
      (Context.mk plainHost [] (decodeJson compiled.decoders.tokenize (onesThenTwoBytes 4294967296)
          ⟨(onesThenTwoBytes 4294967296).length, 64⟩)).truth false compiled.root = (.ok .isMatch, false) :=
  last_index_misread (by decide)

/-! ### An array kept whole -/

/-- `{"a":[1,1,...,1,2]}` with `n` ones. -/
def onesUnder (n : Nat) : Raw := .object [("a", onesThenTwo n)]

def onesUnderBytes (n : Nat) : List UInt8 := [123, 34, 97, 34, 58] ++ onesThenTwoBytes n ++ [125]

/-- `a` exists or its last index is one. -/
def heldOrOne : ConsumerFilter := .new (.any [.present ⟨[.key "a"]⟩, .pred ⟨"a[4294967295]", .eq, .long 1⟩]) .json

theorem decode_onesUnder (n : Nat) :
    decodeJson (oneDocument (onesUnderBytes n) (onesUnder n)).tokenize (onesUnderBytes n) ⟨(onesUnderBytes n).length, 64⟩ =
      .ok (build (onesUnder n)) := by
  have hdepth : jsonDepthWithin (onesUnderBytes n) (min 64 maxFilterParseDepth) = true := by
    show jsonDepthWithin (onesUnderBytes n) 64 = true
    unfold jsonDepthWithin onesUnderBytes onesThenTwoBytes
    simp [depthWithin, stringWithin, depthWithin_ones]
  simp [decodeJson, decodeJsonPaths, hdepth, oneDocument, prune_whole (show PathTrie.everything.whole = true from rfl)]

def heldOrOneNode : Node :=
  .any [.present ⟨[.key "a"]⟩, .compare ⟨[.key "a", .index 4294967295]⟩ .eq (.int 1)]

def heldOrOnePaths : PathTrie := .node false [] [("a", .everything)]

theorem compile_heldOrOne (decoders : Decoders) : CompiledFilter.compile plainHost (fun _ => 178) decoders heldOrOne =
    .ok ⟨plainHost, heldOrOne, heldOrOneNode, heldOrOnePaths, decoders⟩ := by
  have hparse : FieldPath.parse "a[4294967295]" = .ok ⟨[.key "a", .index 4294967295]⟩ := by decide +kernel
  refine compile_ok (by decide +kernel) ?_ ?_ decoders
  · simp only [heldOrOne, ConsumerFilter.new, collectPaths, collectPathsAll, hparse]
    rfl
  · simp only [heldOrOne, ConsumerFilter.new, compileNode, compileNodes, compileLiteral, hparse]
    rfl

/-- The array stands under `a`, which the trie keeps whole. -/
theorem heldOrOne_within (value : Value) : ¬∃ path ∈ heldOrOneNode.paths, Overruns heldOrOnePaths value path.segments := by
  rintro ⟨path, hpath, before, rest, items, hsplit, hkept, -⟩
  have hpaths : path.segments = [.key "a"] ∨ path.segments = [.key "a", .index 4294967295] := by
    rcases List.mem_pair.1 hpath with rfl | rfl
    · exact .inl rfl
    · exact .inr rfl
  cases before with
  | nil =>
    rw [List.nil_append] at hsplit
    rcases hpaths with heq | heq
    · simp [heq] at hsplit
    · simp [heq] at hsplit
  | cons segment before =>
    have hsegment : segment = .key "a" := by
      rcases hpaths with heq | heq
      · rw [heq, List.cons_append] at hsplit
        exact (List.cons.inj hsplit).1.symm
      · rw [heq, List.cons_append] at hsplit
        exact (List.cons.inj hsplit).1.symm
    subst hsegment
    exact hkept (.inr ⟨.everything, rfl, PathTrie.covers_of_whole rfl before⟩)

theorem pruned_judges_kept_whole : ∃ compiled,
    CompiledFilter.compile plainHost (fun _ => 178) (oneDocument (onesUnderBytes 4294967296) (onesUnder 4294967296)) heldOrOne =
        .ok compiled ∧
      decodeJson (oneDocument (onesUnderBytes 4294967296) (onesUnder 4294967296)).tokenize (onesUnderBytes 4294967296)
          ⟨(onesUnderBytes 4294967296).length, 64⟩ = .ok (build (onesUnder 4294967296)) ∧
      (Context.mk plainHost [] (decodeJsonPaths (oneDocument (onesUnderBytes 4294967296) (onesUnder 4294967296)).tokenize
          (onesUnderBytes 4294967296) ⟨(onesUnderBytes 4294967296).length, 64⟩ compiled.paths)).truth false compiled.root =
        (Context.mk plainHost [] (decodeJson (oneDocument (onesUnderBytes 4294967296) (onesUnder 4294967296)).tokenize
          (onesUnderBytes 4294967296) ⟨(onesUnderBytes 4294967296).length, 64⟩)).truth false compiled.root := by
  have hcompile := compile_heldOrOne (oneDocument (onesUnderBytes 4294967296) (onesUnder 4294967296))
  refine ⟨_, hcompile, decode_onesUnder _, ?_⟩
  refine ((pruned_judges_whole hcompile _ _).2 []).2 fun whole _ hover _ => ?_
  exact absurd hover (heldOrOne_within whole)

end LaserSdk.Filter
