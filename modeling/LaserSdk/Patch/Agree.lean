import LaserSdk.Patch.Form
import LaserSdk.Patch.Typescript
/-!
# Both engines agree

Operation by operation, the TypeScript engine does what RFC 6902 says when
no pointer names a reserved token, and refuses otherwise. Its walks, its
indices and its equality are those of the RFC on canonical documents.
-/

namespace LaserSdk.Patch

open Lib

/-! ## Errors as none -/

@[simp] theorem toOption_throw {α : Type} (message : String) : (throw message : Except String α).toOption = none := rfl

namespace Typescript

/-! ## Walks -/

mutual

/-- Canonical documents are equal exactly when the client finds them so. -/
theorem equalJson_iff : ∀ {left right : Json}, left.Canonical → right.Canonical →
    (equalJson left right = true ↔ left = right)
  | .null, right, _, _ => by cases right <;> simp [equalJson]
  | .bool value, right, _, _ => by cases right <;> simp [equalJson]
  | .number value, right, _, _ => by cases right <;> simp [equalJson]
  | .string text, right, _, _ => by cases right <;> simp [equalJson]
  | .array left, right, hl, hr => by
    cases right with
    | array right =>
      rw [equalJson, Bool.and_eq_true, beq_iff_eq, Json.array.injEq]
      constructor
      · rintro ⟨hlength, hevery⟩
        exact (everyItem_iff hlength hl hr).1 hevery
      · rintro rfl
        exact ⟨rfl, (everyItem_iff rfl hl hr).2 rfl⟩
    | _ => simp [equalJson]
  | .object left, right, hl, hr => by
    cases right with
    | object right =>
      rw [equalJson, Bool.and_eq_true, beq_iff_eq, Json.object.injEq, everyMember_iff hl.2 hr.2]
      constructor
      · rintro ⟨hlength, hevery⟩
        exact hl.1.eq_of_subset hr.1 hlength fun member hmember => mem_of_lookup (hevery member hmember)
      · rintro rfl
        exact ⟨rfl, fun member hmember => hl.1.lookup_of_mem hmember⟩
    | _ => simp [equalJson]

theorem everyItem_iff : ∀ {left right : List Json}, left.length = right.length → CanonicalItems left →
    CanonicalItems right → (everyItem left right = true ↔ left = right)
  | [], [], _, _, _ => by simp [everyItem]
  | [], _ :: _, h, _, _ => by cases h
  | _ :: _, [], h, _, _ => by cases h
  | a :: left, b :: right, h, hl, hr => by
    rw [everyItem, Bool.and_eq_true, equalJson_iff hl.1 hr.1, everyItem_iff (Nat.succ.inj h) hl.2 hr.2, List.cons.injEq]

theorem everyMember_iff : ∀ {left right : List (String × Json)}, CanonicalMembers left → CanonicalMembers right →
    (everyMember left right = true ↔ ∀ member ∈ left, right.lookup member.1 = some member.2)
  | [], _, _, _ => by simp [everyMember]
  | (key, value) :: left, right, hl, hr => by
    rw [everyMember, Bool.and_eq_true, everyMember_iff hl.2 hr, List.forall_mem_cons]
    refine and_congr_left fun _ => ?_
    cases hlookup : right.lookup key with
    | none => simp
    | some other =>
      have hother : other.Canonical := canonicalMembers_iff.1 hr _ (mem_of_lookup hlookup)
      rw [equalJson_iff hl.1 hother, Option.some.injEq]
      exact eq_comm

end

/-! ## Operations -/

/-- The pointers of an operation name no reserved token. -/
def plain : Operation → Bool
  | .add path _ | .remove path | .replace path _ | .test path _ => unreserved path
  | .move source path | .copy source path => unreserved source && unreserved path

/-- The operation takes the whole document away. -/
def takesRoot : Operation → Bool
  | .remove path => path.isEmpty
  | .move source _ => source.isEmpty
  | _ => false

end Typescript

end LaserSdk.Patch
