import Mathlib.Data.List.Induction
/-!
# Runs of a step relation

A component is a step relation on its state: `step s a s'` says that action
`a` can take `s` to `s'`. A `Run` is a finite sequence of such actions from a
fixed start, whatever order the environment picked them in. A theorem about
every `Run` holds for every interleaving, which is how the properties over
whole histories are stated.
-/

namespace LaserSdk.Lib

variable {S A : Type}

/-- The states `step` can reach from `init`, with the actions taken. -/
inductive Run (step : S → A → S → Prop) (init : S) : List A → S → Prop
  | nil : Run step init [] init
  | snoc {as s a s'} : Run step init as s → step s a s' → Run step init (as ++ [a]) s'

variable {step : S → A → S → Prop} {init : S}

/-- An invariant that holds at the start and is kept by every step holds in
every state a run reaches. -/
theorem Run.inv (I : S → Prop) (h0 : I init) (hs : ∀ s a s', I s → step s a s' → I s')
    {as : List A} {s : S} (h : Run step init as s) : I s := by
  induction h with
  | nil => exact h0
  | snoc _ hstep ih => exact hs _ _ _ ih hstep

/-- An invariant that the actions of a run keep. -/
theorem Run.inv_of_mem (I : S → Prop) (h0 : I init) {as : List A} {s : S} (h : Run step init as s)
    (hs : ∀ s s', ∀ a ∈ as, I s → step s a s' → I s') : I s := by
  induction h with
  | nil => exact h0
  | snoc _ hstep ih =>
    refine hs _ _ _ (List.mem_append_right _ List.mem_cons_self) (ih fun s s' a ha => ?_) hstep
    exact hs s s' a (List.mem_append_left _ ha)

theorem Run.append_iff {as bs : List A} {s : S} :
    Run step init (as ++ bs) s ↔ ∃ mid, Run step init as mid ∧ Run step mid bs s := by
  constructor
  · intro h
    induction bs using List.reverseRecOn generalizing s with
    | nil =>
      rw [List.append_nil] at h
      exact ⟨s, h, .nil⟩
    | append_singleton bs b ih =>
      rw [← List.append_assoc] at h
      generalize hall : as ++ bs ++ [b] = all at h
      cases h with
      | nil => simp at hall
      | snoc hrun hstep =>
        obtain ⟨rfl, hb⟩ := List.append_inj' hall rfl
        cases hb
        obtain ⟨mid, hfirst, hrest⟩ := ih hrun
        exact ⟨mid, hfirst, hrest.snoc hstep⟩
  · rintro ⟨mid, hfirst, hrest⟩
    induction hrest with
    | nil => rwa [List.append_nil]
    | snoc _ hstep ih =>
      rw [← List.append_assoc]
      exact ih.snoc hstep

theorem Run.nil_iff {s : S} : Run step init [] s ↔ s = init := by
  constructor
  · intro h
    generalize hempty : [] = as at h
    cases h with
    | nil => rfl
    | snoc => simp at hempty
  · rintro rfl
    exact .nil

theorem Run.cons_iff {a : A} {as : List A} {s : S} :
    Run step init (a :: as) s ↔ ∃ mid, step init a mid ∧ Run step mid as s := by
  rw [← List.singleton_append, Run.append_iff]
  refine exists_congr fun mid => and_congr_left fun _ => ?_
  constructor
  · intro h
    generalize hall : [a] = all at h
    cases h with
    | nil => cases hall
    | @snoc before _ _ _ hrun hstep =>
      cases before with
      | nil =>
        cases hall
        cases Run.nil_iff.1 hrun
        exact hstep
      | cons => simp at hall
  · exact fun hstep => Run.snoc .nil hstep

/-- A run whose steps all meet a second relation is a run of that relation. -/
theorem Run.mono {step' : S → A → S → Prop} (hs : ∀ s a s', step s a s' → step' s a s') {as : List A} {s : S}
    (h : Run step init as s) : Run step' init as s := by
  induction h with
  | nil => exact .nil
  | snoc _ hstep ih => exact ih.snoc (hs _ _ _ hstep)

/-- A component that computes its next state runs through a fold. -/
theorem Run.foldl (next : S → A → S) (as : List A) :
    Run (fun s a s' => next s a = s') init as (as.foldl next init) := by
  induction as using List.reverseRecOn with
  | nil => exact .nil
  | append_singleton as a ih =>
    rw [List.foldl_append]
    exact .snoc ih rfl

theorem Run.foldlM_iff {next : S → A → Option S} {as : List A} {s : S} :
    Run (fun s a s' => next s a = some s') init as s ↔ as.foldlM next init = some s := by
  induction as generalizing init with
  | nil =>
    rw [Run.nil_iff, List.foldlM_nil]
    exact ⟨fun h => congrArg some h.symm, fun h => (Option.some.inj h).symm⟩
  | cons a as ih =>
    rw [Run.cons_iff, List.foldlM_cons, Option.bind_eq_bind, Option.bind_eq_some_iff]
    exact exists_congr fun mid => and_congr_right fun _ => ih

end LaserSdk.Lib
