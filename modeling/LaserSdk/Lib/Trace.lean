import Mathlib.Tactic.Common
/-!
# Computations with effects

A computation leaves a trace of effects and ends with a value or an error. An
error ends it, and the effects before it stand. A computation that is cut off
leaves a part of its trace.
-/

namespace LaserSdk.Lib

structure Traced (ε σ α : Type) where
  trace : List ε
  result : Except σ α

namespace Traced

variable {ε σ α β : Type}

instance : Monad (Traced ε σ) where
  pure a := ⟨[], .ok a⟩
  bind x f :=
    match x.result with
    | .error e => ⟨x.trace, .error e⟩
    | .ok a => ⟨x.trace ++ (f a).trace, (f a).result⟩

def emit (event : ε) : Traced ε σ Unit := ⟨[event], .ok ()⟩

def fail (e : σ) : Traced ε σ α := ⟨[], .error e⟩

def failIf (p : Prop) [Decidable p] (e : σ) : Traced ε σ Unit := if p then fail e else pure ()

/-- A call without effects here. -/
def call (result : Except σ α) : Traced ε σ α := ⟨[], result⟩

@[simp] theorem pure_trace (a : α) : (pure a : Traced ε σ α).trace = [] := rfl

@[simp] theorem pure_result (a : α) : (pure a : Traced ε σ α).result = .ok a := rfl

@[simp] theorem emit_trace (event : ε) : (emit event : Traced ε σ Unit).trace = [event] := rfl

@[simp] theorem emit_result (event : ε) : (emit event : Traced ε σ Unit).result = .ok () := rfl

@[simp] theorem fail_trace (e : σ) : (fail e : Traced ε σ α).trace = [] := rfl

@[simp] theorem fail_result (e : σ) : (fail e : Traced ε σ α).result = .error e := rfl

@[simp] theorem call_trace (result : Except σ α) : (call result : Traced ε σ α).trace = [] := rfl

@[simp] theorem call_result (result : Except σ α) : (call result : Traced ε σ α).result = result := rfl

@[simp] theorem mk_ok_bind (trace : List ε) (a : α) (f : α → Traced ε σ β) :
    (⟨trace, .ok a⟩ : Traced ε σ α) >>= f = ⟨trace ++ (f a).trace, (f a).result⟩ := rfl

@[simp] theorem mk_error_bind (trace : List ε) (e : σ) (f : α → Traced ε σ β) :
    (⟨trace, .error e⟩ : Traced ε σ α) >>= f = ⟨trace, .error e⟩ := rfl

theorem bind_of_ok {x : Traced ε σ α} {a : α} (h : x.result = .ok a) (f : α → Traced ε σ β) :
    x >>= f = ⟨x.trace ++ (f a).trace, (f a).result⟩ := by
  simp only [bind, h]

theorem bind_of_error {x : Traced ε σ α} {e : σ} (h : x.result = .error e) (f : α → Traced ε σ β) :
    x >>= f = ⟨x.trace, .error e⟩ := by
  simp only [bind, h]

@[simp] theorem map_trace (x : Traced ε σ α) (f : α → β) : (x >>= fun a => pure (f a)).trace = x.trace := by
  cases h : x.result with
  | error e => rw [bind_of_error h]
  | ok a => simp [bind_of_ok h]

@[simp] theorem map_result (x : Traced ε σ α) (f : α → β) : (x >>= fun a => pure (f a)).result = x.result.map f := by
  cases h : x.result with
  | error e => rw [bind_of_error h]; rfl
  | ok a => rw [bind_of_ok h]; rfl

/-- Every way a sequence can end. -/
theorem bind_ends {motive : Traced ε σ β → Prop} {x : Traced ε σ α} {f : α → Traced ε σ β}
    (herror : ∀ e, x.result = .error e → motive ⟨x.trace, .error e⟩)
    (hok : ∀ a, x.result = .ok a → motive ⟨x.trace ++ (f a).trace, (f a).result⟩) : motive (x >>= f) := by
  cases h : x.result with
  | error e => exact bind_of_error h f ▸ herror e h
  | ok a => exact bind_of_ok h f ▸ hok a h

/-- All effects satisfy `p`. -/
def Emits (x : Traced ε σ α) (p : ε → Prop) : Prop := ∀ event ∈ x.trace, p event

variable {p : ε → Prop}

@[simp] theorem emits_pure (a : α) : (pure a : Traced ε σ α).Emits p := nofun

@[simp] theorem emits_fail (e : σ) : (fail e : Traced ε σ α).Emits p := nofun

@[simp] theorem emits_call (result : Except σ α) : (call result : Traced ε σ α).Emits p := nofun

@[simp] theorem emits_failIf {q : Prop} [Decidable q] {e : σ} : (failIf q e : Traced ε σ Unit).Emits p := by
  unfold failIf
  split
  · exact emits_fail e
  · exact emits_pure ()

theorem emits_emit {event : ε} (h : p event) : (emit event : Traced ε σ Unit).Emits p := by
  intro other hmem
  obtain rfl := List.mem_singleton.1 hmem
  exact h

theorem emits_bind {x : Traced ε σ α} {f : α → Traced ε σ β} (hx : x.Emits p)
    (hf : ∀ a, x.result = .ok a → (f a).Emits p) : (x >>= f).Emits p := by
  refine bind_ends (motive := fun y => y.Emits p) (fun e _ => hx) fun a ha event hmem => ?_
  rcases List.mem_append.1 hmem with hmem | hmem
  · exact hx event hmem
  · exact hf a ha event hmem

theorem emits_take {x : Traced ε σ α} (h : x.Emits p) (n : Nat) : ∀ event ∈ x.trace.take n, p event :=
  fun event hmem => h event (List.mem_of_mem_take hmem)

/-- A sequence that returns went through both its parts. -/
theorem bind_returns {x : Traced ε σ α} {f : α → Traced ε σ β} {b : β} (h : (x >>= f).result = .ok b) :
    ∃ a, x.result = .ok a ∧ (f a).result = .ok b ∧ (x >>= f).trace = x.trace ++ (f a).trace := by
  cases hx : x.result with
  | error e => rw [bind_of_error hx] at h; cases h
  | ok a =>
    rw [bind_of_ok hx] at h ⊢
    exact ⟨a, rfl, h, rfl⟩

end Traced

end LaserSdk.Lib
