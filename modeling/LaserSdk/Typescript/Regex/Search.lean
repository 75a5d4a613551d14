import LaserSdk.Typescript.Regex.Parse
/-!
# The search of a compiled pattern

The search follows all runs of a program at once, one character at a time. A
depth first walk follows the moves without a character and marks where it has
been, so that it ends in programs that go round without a move. We prove that
the search finds a match exactly when the pattern has one somewhere in the text.
-/

namespace LaserSdk.Typescript.Regex

open LaserSdk.Lib

structure RustRegex where
  program : List Inst
  atoms : List AtomMatcher

section Run

variable (host : RegexHost) (text : List Nat) (program : List Inst) (atoms : List AtomMatcher)

/-- What the switch of `add` pushes on the stack, the next place first. -/
def pushed (inst : Inst) (pc i : Nat) : List Nat :=
  match inst with
  | .look look => if holds host text look i then [pc + 1] else []
  | .jmp x => x.toList
  | .split x y => x :: y.toList
  | .char _ => []
  | .match => []

/-- A mark that is set makes fewer places unmarked. -/
theorem countP_set_lt {n : Nat} (marks : Vector Nat n) {pc generation : Nat} (h : pc < n)
    (hmark : marks[pc] ≠ generation) :
    (marks.set pc generation h).toList.countP (· != generation) < marks.toList.countP (· != generation) := by
  have hmem : marks[pc] ∈ marks.toList := by simp
  have hpos : 0 < marks.toList.countP (· != generation) :=
    List.countP_pos_iff.2 ⟨marks[pc], hmem, by simpa using hmark⟩
  rw [Vector.toList_set, List.countP_set (by simpa using h), Vector.getElem_toList]
  simp only [bne_iff_ne, ne_eq, hmark, not_false_eq_true, if_true, not_true_eq_false, if_false]
  omega

/-- Nothing on reaching the match, else the marks and the queued places. -/
def add (generation i : Nat) (marks : Vector Nat program.length) (list : List Nat) :
    (stack : List Nat) → Option (Vector Nat program.length × List Nat)
  | [] => some (marks, list)
  | pc :: stack =>
    if h : pc < program.length then
      if hmark : marks[pc] = generation then add generation i marks list stack
      else
        match program[pc] with
        | .match => none
        | .char _ => add generation i (marks.set pc generation) (list ++ [pc]) stack
        | inst => add generation i (marks.set pc generation) list (pushed host text inst pc i ++ stack)
    else add generation i marks list stack
  termination_by stack => (marks.toList.countP (· != generation), stack.length)
  decreasing_by
    · exact Prod.Lex.right _ (Nat.lt_succ_self _)
    · exact Prod.Lex.left _ _ (countP_set_lt marks h hmark)
    · exact Prod.Lex.left _ _ (countP_set_lt marks h hmark)
    · exact Prod.Lex.right _ (Nat.lt_succ_self _)

/-- The atom of a queued place. -/
def atomAt (pc : Nat) : Option AtomMatcher :=
  match program[pc]? with
  | some (.char atom) => atoms[atom]?
  | _ => none

/-- The loop over the queued places. -/
def advance (generation i point : Nat) (marks : Vector Nat program.length) (next : List Nat) :
    (current : List Nat) → Option (Vector Nat program.length × List Nat)
  | [] => some (marks, next)
  | pc :: current =>
    if (atomAt program atoms pc).any (·.test point) then
      match add host text program generation (i + 1) marks next [pc + 1] with
      | none => none
      | some (marks, next) => advance generation i point marks next current
    else advance generation i point marks next current

/-- The loop over the text, of which `rest` is left at `i`. -/
def search (i generation : Nat) (marks : Vector Nat program.length) (current : List Nat) : (rest : List Nat) → Bool
  | [] =>
    match add host text program generation i marks current [0] with
    | none => true
    | some _ => false
  | point :: rest =>
    match add host text program generation i marks current [0] with
    | none => true
    | some (marks, current) =>
      match advance host text program atoms (generation + 1) i point marks [] current with
      | none => true
      | some (marks, next) => search (i + 1) (generation + 1) marks next rest

end Run

def RustRegex.matches (host : RegexHost) (regex : RustRegex) (value : JsString) : Bool :=
  let text := codePoints value
  search host text regex.program regex.atoms 0 1 (Vector.replicate _ 0) [] text

/-! ## The moves of the machine -/

section Moves

variable {host : RegexHost} {text : List Nat} {program : List Inst} {atoms : List AtomMatcher}

theorem step_pushed {pc i next : Nat} (h : pc < program.length)
    (hnext : next ∈ pushed host text program[pc] pc i) : (machine host text program atoms).step pc i next i := by
  simp only [machine, List.getElem?_eq_getElem h]
  cases hinst : program[pc] with
  | char atom => simp [pushed, hinst] at hnext
  | look look =>
    simp only [pushed, hinst] at hnext
    split at hnext
    · rename_i hholds
      simpa [hholds] using hnext
    · cases hnext
  | split x y =>
    simp only [pushed, hinst, List.mem_cons, Option.mem_toList] at hnext
    exact ⟨hnext, trivial⟩
  | jmp x =>
    simp only [pushed, hinst, Option.mem_toList] at hnext
    exact ⟨hnext, trivial⟩
  | «match» => simp [pushed, hinst] at hnext

/-- A character that the queued place takes. -/
def Takes (text : List Nat) (program : List Inst) (atoms : List AtomMatcher) (pc i : Nat) : Prop :=
  ∃ atom matcher point, program[pc]? = some (.char atom) ∧ atoms[atom]? = some matcher ∧ text[i]? = some point ∧
    matcher.test point = true

theorem step_takes {pc i : Nat} (h : Takes text program atoms pc i) :
    (machine host text program atoms).step pc i (pc + 1) (i + 1) := by
  obtain ⟨atom, matcher, point, hpc, hatom, hpoint, htest⟩ := h
  simp only [machine, hpc]
  exact ⟨trivial, trivial, matcher, point, hatom, hpoint, htest⟩

/-- All that an accepted run can do first. -/
theorem acceptsIn_cases {n pc i : Nat} (haccepts : (machine host text program atoms).AcceptsIn n pc i) :
    ∃ h : pc < program.length, program[pc] = .match ∨
      (∃ m next, n = m + 1 ∧ next ∈ pushed host text program[pc] pc i ∧
        (machine host text program atoms).AcceptsIn m next i) ∨
      (∃ m, n = m + 1 ∧ Takes text program atoms pc i ∧
        (machine host text program atoms).AcceptsIn m (pc + 1) (i + 1)) := by
  cases haccepts with
  | final hfinal =>
    obtain ⟨h, hinst⟩ := List.getElem?_eq_some_iff.1 hfinal
    exact ⟨h, .inl hinst⟩
  | @step m _ next _ j hstep hrest =>
    cases hpc : program[pc]? with
    | none => simp [machine, hpc] at hstep
    | some inst =>
      obtain ⟨h, hinst⟩ := List.getElem?_eq_some_iff.1 hpc
      refine ⟨h, .inr ?_⟩
      simp only [machine, hpc] at hstep
      cases inst with
      | char atom =>
        obtain ⟨rfl, rfl, matcher, point, hatom, hpoint, htest⟩ := hstep
        exact .inr ⟨m, rfl, ⟨atom, matcher, point, hpc, hatom, hpoint, htest⟩, hrest⟩
      | look look =>
        obtain ⟨rfl, hholds, rfl⟩ := hstep
        exact .inl ⟨m, pc + 1, rfl, by simp [pushed, hinst, hholds], hrest⟩
      | split x y =>
        obtain ⟨hnext, rfl⟩ := hstep
        exact .inl ⟨m, next, rfl, by simpa [pushed, hinst] using hnext, hrest⟩
      | jmp x =>
        obtain ⟨hnext, rfl⟩ := hstep
        exact .inl ⟨m, next, rfl, by simpa [pushed, hinst] using hnext, hrest⟩
      | «match» => exact hstep.elim

end Moves

/-! ## The walk without a character -/

/-- Every marked place is in the program and not its end, its moves lead to
the stack, to marked places or nowhere, and it is queued if it takes a
character. -/
def Settled (host : RegexHost) (text : List Nat) (program : List Inst) (generation i : Nat)
    (marks : Vector Nat program.length) (list stack : List Nat) : Prop :=
  ∀ pc (h : pc < program.length), marks[pc] = generation →
    program[pc] ≠ .match ∧ (∀ atom, program[pc] = .char atom → pc ∈ list) ∧
      ∀ next ∈ pushed host text program[pc] pc i,
        next ∈ stack ∨ ∀ h : next < program.length, marks[next] = generation

section Walk

variable {host : RegexHost} {text : List Nat} {program : List Inst} {atoms : List AtomMatcher} {generation i : Nat}
  {marks marks' : Vector Nat program.length} {list list' stack : List Nat}

/-- A place that needs no visit is taken from the stack. -/
theorem Settled.pop {pc : Nat} (h : Settled host text program generation i marks list (pc :: stack))
    (hpc : ∀ h : pc < program.length, marks[pc] = generation) :
    Settled host text program generation i marks list stack := by
  intro place hplace hmark
  obtain ⟨hmatch, hchar, hpushed⟩ := h place hplace hmark
  refine ⟨hmatch, hchar, ?_⟩
  intro next hnext
  rcases hpushed next hnext with hmem | hmarked
  · rcases List.mem_cons.1 hmem with rfl | hmem
    · exact .inr hpc
    · exact .inl hmem
  · exact .inr hmarked

theorem Settled.push {pc : Nat} (h : Settled host text program generation i marks list []) :
    Settled host text program generation i marks list [pc] := by
  intro place hplace hmark
  obtain ⟨hmatch, hchar, hpushed⟩ := h place hplace hmark
  refine ⟨hmatch, hchar, fun next hnext => .inr ?_⟩
  rcases hpushed next hnext with hmem | hmarked
  · cases hmem
  · exact hmarked

theorem mark_set {pc place : Nat} (hpc : pc < program.length) (hplace : place < program.length)
    (h : place = pc ∨ marks[place] = generation) : (marks.set pc generation)[place] = generation := by
  rw [Vector.getElem_set]
  split
  · rfl
  · rename_i hne
    rcases h with rfl | hmark
    · exact absurd rfl hne
    · exact hmark

/-- A visit marks the place and pushes its moves. -/
theorem Settled.visit {pc : Nat} (h : Settled host text program generation i marks list (pc :: stack))
    (hpc : pc < program.length) (hmatch : program[pc] ≠ .match) (hlist : list ⊆ list')
    (hchar : ∀ atom, program[pc] = .char atom → pc ∈ list') :
    Settled host text program generation i (marks.set pc generation) list'
      (pushed host text program[pc] pc i ++ stack) := by
  intro place hplace hmark
  by_cases heq : place = pc
  · subst heq
    refine ⟨hmatch, hchar, ?_⟩
    intro next hnext
    exact .inl (List.mem_append_left _ hnext)
  · rw [Vector.getElem_set_ne hpc hplace (Ne.symm heq)] at hmark
    obtain ⟨hmatch, hqueued, hpushed⟩ := h place hplace hmark
    refine ⟨hmatch, fun atom hatom => hlist (hqueued atom hatom), ?_⟩
    intro next hnext
    rcases hpushed next hnext with hmem | hmarked
    · rcases List.mem_cons.1 hmem with rfl | hmem
      · exact .inr fun hnext => mark_set hpc hnext (.inl rfl)
      · exact .inl (List.mem_append_right _ hmem)
    · exact .inr fun hnext => mark_set hpc hnext (.inr (hmarked hnext))

/-- A walk that ends has marked all that it can reach from its stack, and keeps
the marks it found. -/
theorem add_some (h : add host text program generation i marks list stack = some (marks', list'))
    (hsettled : Settled host text program generation i marks list stack) :
    Settled host text program generation i marks' list' [] ∧
      (∀ pc (hpc : pc < program.length), marks[pc] = generation → marks'[pc] = generation) ∧
      ∀ pc ∈ stack, ∀ hpc : pc < program.length, marks'[pc] = generation := by
  fun_induction add with
  | case1 marks list =>
    cases h
    exact ⟨hsettled, fun _ _ hmark => hmark, fun _ hmem => absurd hmem List.not_mem_nil⟩
  | case2 marks list pc stack hpc hmark ih =>
    obtain ⟨hend, hmarks, hstack⟩ := ih h (hsettled.pop fun _ => hmark)
    refine ⟨hend, hmarks, ?_⟩
    intro place hmem hplace
    rcases List.mem_cons.1 hmem with rfl | hmem
    · exact hmarks place hplace hmark
    · exact hstack place hmem hplace
  | case3 => cases h
  | case4 marks list pc stack hpc hmark atom hinst ih =>
    have hvisit : Settled host text program generation i (marks.set pc generation) (list ++ [pc])
        (pushed host text program[pc] pc i ++ stack) :=
      hsettled.visit hpc (by simp [hinst]) (List.subset_append_left _ _) (by simp)
    simp only [hinst, pushed, List.nil_append] at hvisit
    obtain ⟨hend, hmarks, hstack⟩ := ih h hvisit
    refine ⟨hend, fun place hplace hmark => hmarks place hplace (mark_set hpc hplace (.inr hmark)), ?_⟩
    intro place hmem hplace
    rcases List.mem_cons.1 hmem with rfl | hmem
    · exact hmarks place hplace (mark_set hpc hplace (.inl rfl))
    · exact hstack place hmem hplace
  | case5 marks list pc stack hpc hmark hmatch hchar ih =>
    have hvisit := hsettled.visit hpc hmatch (List.Subset.refl list) fun atom hatom => absurd hatom (hchar atom)
    obtain ⟨hend, hmarks, hstack⟩ := ih h hvisit
    refine ⟨hend, fun place hplace hmark => hmarks place hplace (mark_set hpc hplace (.inr hmark)), ?_⟩
    intro place hmem hplace
    rcases List.mem_cons.1 hmem with rfl | hmem
    · exact hmarks place hplace (mark_set hpc hplace (.inl rfl))
    · exact hstack place (List.mem_append_right _ hmem) hplace
  | case6 marks list pc stack hpc ih =>
    obtain ⟨hend, hmarks, hstack⟩ := ih h (hsettled.pop fun h => absurd h hpc)
    refine ⟨hend, hmarks, ?_⟩
    intro place hmem hplace
    rcases List.mem_cons.1 hmem with rfl | hmem
    · exact absurd hplace hpc
    · exact hstack place hmem hplace

/-- A walk that reaches the end has found a run from its stack. -/
theorem add_none (h : add host text program generation i marks list stack = none) :
    ∃ pc ∈ stack, (machine host text program atoms).Accepts pc i := by
  fun_induction add with
  | case1 => cases h
  | case2 marks list pc stack hpc hmark ih =>
    obtain ⟨found, hmem, haccepts⟩ := ih h
    exact ⟨found, List.mem_cons_of_mem pc hmem, haccepts⟩
  | case3 marks list pc stack hpc hmark hinst =>
    refine ⟨pc, List.mem_cons_self, 0, .final ?_⟩
    exact List.getElem?_eq_some_iff.2 ⟨hpc, hinst⟩
  | case4 marks list pc stack hpc hmark atom hinst ih =>
    obtain ⟨found, hmem, haccepts⟩ := ih h
    exact ⟨found, List.mem_cons_of_mem pc hmem, haccepts⟩
  | case5 marks list pc stack hpc hmark hmatch hchar ih =>
    obtain ⟨found, hmem, haccepts⟩ := ih h
    rcases List.mem_append.1 hmem with hmem | hmem
    · exact ⟨pc, List.mem_cons_self, .step (step_pushed hpc hmem) haccepts⟩
    · exact ⟨found, List.mem_cons_of_mem pc hmem, haccepts⟩
  | case6 marks list pc stack hpc ih =>
    obtain ⟨found, hmem, haccepts⟩ := ih h
    exact ⟨found, List.mem_cons_of_mem pc hmem, haccepts⟩

/-- What a walk queues leads back to its stack. -/
theorem add_queued (h : add host text program generation i marks list stack = some (marks', list')) :
    ∀ pc ∈ list', pc ∈ list ∨ ∃ start ∈ stack, (machine host text program atoms).Accepts pc i →
      (machine host text program atoms).Accepts start i := by
  fun_induction add with
  | case1 marks list =>
    cases h
    exact fun pc hmem => .inl hmem
  | case2 marks list pc stack hpc hmark ih =>
    intro place hmem
    exact (ih h place hmem).imp_right fun ⟨start, hstart, hback⟩ => ⟨start, List.mem_cons_of_mem pc hstart, hback⟩
  | case3 => cases h
  | case4 marks list pc stack hpc hmark atom hinst ih =>
    intro place hmem
    rcases ih h place hmem with hmem | ⟨start, hstart, hback⟩
    · rcases List.mem_append.1 hmem with hmem | hmem
      · exact .inl hmem
      · obtain rfl := List.mem_singleton.1 hmem
        exact .inr ⟨place, List.mem_cons_self, id⟩
    · exact .inr ⟨start, List.mem_cons_of_mem pc hstart, hback⟩
  | case5 marks list pc stack hpc hmark hmatch hchar ih =>
    intro place hmem
    rcases ih h place hmem with hmem | ⟨start, hstart, hback⟩
    · exact .inl hmem
    · rcases List.mem_append.1 hstart with hpushed | hstart
      · exact .inr ⟨pc, List.mem_cons_self, fun haccepts => .step (step_pushed hpc hpushed) (hback haccepts)⟩
      · exact .inr ⟨start, List.mem_cons_of_mem pc hstart, hback⟩
  | case6 marks list pc stack hpc ih =>
    intro place hmem
    exact (ih h place hmem).imp_right fun ⟨start, hstart, hback⟩ => ⟨start, List.mem_cons_of_mem pc hstart, hback⟩

/-- A walk sets no other mark than its own. -/
theorem add_marks (h : add host text program generation i marks list stack = some (marks', list')) :
    ∀ pc (hpc : pc < program.length), marks'[pc] = marks[pc] ∨ marks'[pc] = generation := by
  fun_induction add with
  | case1 marks list =>
    cases h
    exact fun _ _ => .inl rfl
  | case2 marks list pc stack hpc hmark ih => exact ih h
  | case3 => cases h
  | case4 marks list pc stack hpc hmark atom hinst ih =>
    intro place hplace
    rcases ih h place hplace with hsame | hmark
    · rw [Vector.getElem_set] at hsame
      split at hsame
      · exact .inr hsame
      · exact .inl hsame
    · exact .inr hmark
  | case5 marks list pc stack hpc hmark hmatch hchar ih =>
    intro place hplace
    rcases ih h place hplace with hsame | hmark
    · rw [Vector.getElem_set] at hsame
      split at hsame
      · exact .inr hsame
      · exact .inl hsame
    · exact .inr hmark
  | case6 marks list pc stack hpc ih => exact ih h

/-- In marks that are settled, a run that is accepted takes a character from a
queued place. -/
theorem Settled.takes (h : Settled host text program generation i marks list []) {n pc : Nat}
    (haccepts : (machine host text program atoms).AcceptsIn n pc i)
    (hmark : ∀ hpc : pc < program.length, marks[pc] = generation) :
    ∃ queued ∈ list, Takes text program atoms queued i ∧
      (machine host text program atoms).Accepts (queued + 1) (i + 1) := by
  induction n generalizing pc with
  | zero =>
    obtain ⟨hpc, hinst | ⟨m, _, hm, _⟩ | ⟨m, hm, _⟩⟩ := acceptsIn_cases haccepts
    · exact absurd hinst (h pc hpc (hmark hpc)).1
    · cases hm
    · cases hm
  | succ n ih =>
    obtain ⟨hpc, hinst | ⟨m, next, hm, hnext, hrest⟩ | ⟨m, hm, htakes, hrest⟩⟩ := acceptsIn_cases haccepts
    · exact absurd hinst (h pc hpc (hmark hpc)).1
    · cases hm
      rcases (h pc hpc (hmark hpc)).2.2 next hnext with hmem | hmarked
      · cases hmem
      · exact ih hrest hmarked
    · cases hm
      obtain ⟨atom, _, _, hchar, _⟩ := id htakes
      have hqueued := (h pc hpc (hmark hpc)).2.1 atom (List.getElem?_eq_some_iff.1 hchar).2
      exact ⟨pc, hqueued, htakes, n, hrest⟩

end Walk

/-! ## The search -/

section Search

variable {host : RegexHost} {text : List Nat} {program : List Inst} {atoms : List AtomMatcher} {generation i : Nat}
  {marks marks' : Vector Nat program.length} {next next' current : List Nat}

theorem takes_iff {pc point : Nat} (hpoint : text[i]? = some point) :
    (atomAt program atoms pc).any (·.test point) = true ↔ Takes text program atoms pc i := by
  unfold Takes atomAt
  cases hpc : program[pc]? with
  | none => simp
  | some inst =>
    cases inst with
    | char atom =>
      cases hatom : atoms[atom]? with
      | none => simp [hatom]
      | some matcher => simp [hatom, hpoint]
    | look look => simp
    | split x y => simp
    | jmp x => simp
    | «match» => simp

theorem advance_none {point : Nat} (hpoint : text[i]? = some point)
    (h : advance host text program atoms generation i point marks next current = none) :
    ∃ pc ∈ current, (machine host text program atoms).Accepts pc i := by
  induction current generalizing marks next with
  | nil => cases h
  | cons pc current ih =>
    simp only [advance] at h
    split at h
    · rename_i htakes
      split at h
      · rename_i hadd
        obtain ⟨start, hstart, haccepts⟩ := add_none hadd
        obtain rfl := List.mem_singleton.1 hstart
        exact ⟨pc, List.mem_cons_self, .step (step_takes ((takes_iff hpoint).1 htakes)) haccepts⟩
      · obtain ⟨found, hmem, haccepts⟩ := ih h
        exact ⟨found, List.mem_cons_of_mem pc hmem, haccepts⟩
    · obtain ⟨found, hmem, haccepts⟩ := ih h
      exact ⟨found, List.mem_cons_of_mem pc hmem, haccepts⟩

/-- Behind a character, every queued place that takes it has its next place
marked, and what is queued there leads back. -/
theorem advance_some {point : Nat} (hpoint : text[i]? = some point)
    (h : advance host text program atoms generation i point marks next current = some (marks', next'))
    (hsettled : Settled host text program generation (i + 1) marks next []) :
    Settled host text program generation (i + 1) marks' next' [] ∧
      (∀ pc (hpc : pc < program.length), marks[pc] = generation → marks'[pc] = generation) ∧
      ∀ pc ∈ current, Takes text program atoms pc i → ∀ hpc : pc + 1 < program.length, marks'[pc + 1] = generation := by
  induction current generalizing marks next with
  | nil =>
    cases h
    exact ⟨hsettled, fun _ _ hmark => hmark, fun _ hmem => absurd hmem List.not_mem_nil⟩
  | cons pc current ih =>
    simp only [advance] at h
    split at h
    · split at h
      · cases h
      · rename_i marks₁ next₁ hadd
        obtain ⟨hsettled₁, hkept₁, hmarked₁⟩ := add_some hadd hsettled.push
        obtain ⟨hend, hkept, hmarked⟩ := ih h hsettled₁
        refine ⟨hend, fun place hplace hmark => hkept place hplace (hkept₁ place hplace hmark), ?_⟩
        intro place hmem htakes hplace
        rcases List.mem_cons.1 hmem with rfl | hmem
        · exact hkept _ hplace (hmarked₁ _ (List.mem_singleton_self _) hplace)
        · exact hmarked place hmem htakes hplace
    · rename_i hnot
      obtain ⟨hend, hkept, hmarked⟩ := ih h hsettled
      refine ⟨hend, hkept, ?_⟩
      intro place hmem htakes
      rcases List.mem_cons.1 hmem with rfl | hmem
      · exact absurd ((takes_iff hpoint).2 htakes) hnot
      · exact hmarked place hmem htakes

theorem advance_queued {point : Nat} (hpoint : text[i]? = some point)
    (h : advance host text program atoms generation i point marks next current = some (marks', next')) :
    ∀ queued ∈ next', queued ∈ next ∨ ∃ pc ∈ current, (machine host text program atoms).Accepts queued (i + 1) →
      (machine host text program atoms).Accepts pc i := by
  induction current generalizing marks next with
  | nil =>
    cases h
    exact fun queued hmem => .inl hmem
  | cons pc current ih =>
    intro queued hqueued
    simp only [advance] at h
    split at h
    · rename_i htakes
      split at h
      · cases h
      · rename_i hadd
        rcases ih h queued hqueued with hmem | ⟨found, hfound, hback⟩
        · rcases add_queued hadd queued hmem with hmem | ⟨start, hstart, hback⟩
          · exact .inl hmem
          · obtain rfl := List.mem_singleton.1 hstart
            exact .inr ⟨pc, List.mem_cons_self, fun haccepts => .step (step_takes ((takes_iff hpoint).1 htakes)) (hback haccepts)⟩
        · exact .inr ⟨found, List.mem_cons_of_mem pc hfound, hback⟩
    · rcases ih h queued hqueued with hmem | ⟨found, hfound, hback⟩
      · exact .inl hmem
      · exact .inr ⟨found, List.mem_cons_of_mem pc hfound, hback⟩

theorem advance_marks {point : Nat}
    (h : advance host text program atoms generation i point marks next current = some (marks', next')) :
    ∀ pc (hpc : pc < program.length), marks'[pc] = marks[pc] ∨ marks'[pc] = generation := by
  induction current generalizing marks next with
  | nil =>
    cases h
    exact fun _ _ => .inl rfl
  | cons pc current ih =>
    simp only [advance] at h
    split at h
    · split at h
      · cases h
      · rename_i hadd
        intro place hplace
        rcases ih h place hplace with hsame | hmark
        · rw [hsame]
          exact add_marks hadd place hplace
        · exact .inr hmark
    · exact ih h

/-- A search that succeeds has found a run, from a queued place or from the
start of the program at some place of the text. -/
theorem search_sound {rest : List Nat} (hrest : rest = text.drop i) (hi : i ≤ text.length)
    (h : search host text program atoms i generation marks current rest = true) :
    (∃ pc ∈ current, (machine host text program atoms).Accepts pc i) ∨
      ∃ start, i ≤ start ∧ start ≤ text.length ∧ (machine host text program atoms).Accepts 0 start := by
  induction rest generalizing i generation marks current with
  | nil =>
    simp only [search] at h
    split at h
    · rename_i hadd
      obtain ⟨start, hstart, haccepts⟩ := add_none hadd
      obtain rfl := List.mem_singleton.1 hstart
      exact .inr ⟨i, Nat.le_refl i, hi, haccepts⟩
    · cases h
  | cons point rest ih =>
    have hlt : i < text.length := by
      have hlength := congrArg List.length hrest
      simp at hlength
      omega
    rw [List.drop_eq_getElem_cons hlt] at hrest
    obtain ⟨rfl, hbehind⟩ := List.cons_eq_cons.1 hrest
    have hpoint : text[i]? = some text[i] := List.getElem?_eq_getElem hlt
    simp only [search] at h
    split at h
    · rename_i hadd
      obtain ⟨start, hstart, haccepts⟩ := add_none hadd
      obtain rfl := List.mem_singleton.1 hstart
      exact .inr ⟨i, Nat.le_refl i, hi, haccepts⟩
    · rename_i marks₁ current₁ hadd
      -- A run from a queued place was queued before, or started here.
      have hback : (∃ pc ∈ current₁, (machine host text program atoms).Accepts pc i) →
          (∃ pc ∈ current, (machine host text program atoms).Accepts pc i) ∨
            ∃ start, i ≤ start ∧ start ≤ text.length ∧ (machine host text program atoms).Accepts 0 start := by
        rintro ⟨pc, hmem, haccepts⟩
        rcases add_queued hadd pc hmem with hmem | ⟨start, hstart, hback⟩
        · exact .inl ⟨pc, hmem, haccepts⟩
        · obtain rfl := List.mem_singleton.1 hstart
          exact .inr ⟨i, Nat.le_refl i, hi, hback haccepts⟩
      split at h
      · rename_i hadvance
        exact hback (advance_none hpoint hadvance)
      · rename_i marks₂ next₂ hadvance
        rcases ih hbehind hlt h with ⟨queued, hmem, haccepts⟩ | ⟨start, hle, hstart, haccepts⟩
        · rcases advance_queued hpoint hadvance queued hmem with hnone | ⟨pc, hpc, hback'⟩
          · cases hnone
          · exact hback ⟨pc, hpc, hback' haccepts⟩
        · exact .inr ⟨start, Nat.le_of_succ_le hle, hstart, haccepts⟩

/-- A search that fails leaves no run: none from a marked place, and none from
the start of the program. -/
theorem search_complete {rest : List Nat} (hrest : rest = text.drop i) (hi : i ≤ text.length)
    (h : search host text program atoms i generation marks current rest = false)
    (hsettled : Settled host text program generation i marks current [])
    (hmarks : ∀ pc (hpc : pc < program.length), marks[pc] ≤ generation) :
    (∀ pc, (∀ hpc : pc < program.length, marks[pc] = generation) → ¬ (machine host text program atoms).Accepts pc i) ∧
      ∀ start, i ≤ start → start ≤ text.length → ¬ (machine host text program atoms).Accepts 0 start := by
  induction rest generalizing i generation marks current with
  | nil =>
    have hend : i = text.length := Nat.le_antisymm hi (List.drop_eq_nil_iff.1 hrest.symm)
    simp only [search] at h
    split at h
    · cases h
    · rename_i result hadd
      obtain ⟨marks₁, current₁⟩ := result
      obtain ⟨hsettled₁, hkept, hstart⟩ := add_some hadd hsettled.push
      have hnone : ∀ pc, (∀ hpc : pc < program.length, marks₁[pc] = generation) →
          ¬ (machine host text program atoms).Accepts pc i := by
        rintro pc hmark ⟨n, haccepts⟩
        obtain ⟨_, _, ⟨_, _, _, _, _, hpoint, _⟩, _⟩ := hsettled₁.takes haccepts hmark
        have hlt := (List.getElem?_eq_some_iff.1 hpoint).1
        omega
      refine ⟨fun pc hmark => hnone pc fun hpc => hkept pc hpc (hmark hpc), ?_⟩
      intro start hle hlength
      obtain rfl : start = i := by omega
      exact hnone 0 (hstart 0 (List.mem_singleton_self 0))
  | cons point rest ih =>
    have hlt : i < text.length := by
      have hlength := congrArg List.length hrest
      simp at hlength
      omega
    rw [List.drop_eq_getElem_cons hlt] at hrest
    obtain ⟨rfl, hbehind⟩ := List.cons_eq_cons.1 hrest
    have hpoint : text[i]? = some text[i] := List.getElem?_eq_getElem hlt
    simp only [search] at h
    split at h
    · cases h
    · rename_i marks₁ current₁ hadd
      split at h
      · cases h
      · rename_i marks₂ next₂ hadvance
        obtain ⟨hsettled₁, hkept, hstart⟩ := add_some hadd hsettled.push
        have hmarks₁ : ∀ pc (hpc : pc < program.length), marks₁[pc] ≤ generation := by
          intro pc hpc
          rcases add_marks hadd pc hpc with hsame | hmark
          · exact hsame ▸ hmarks pc hpc
          · exact Nat.le_of_eq hmark
        -- No place is marked for the next character yet.
        have hfresh : Settled host text program (generation + 1) (i + 1) marks₁ [] [] := by
          intro pc hpc hmark
          have := hmarks₁ pc hpc
          omega
        obtain ⟨hsettled₂, _, hmarked⟩ := advance_some hpoint hadvance hfresh
        have hmarks₂ : ∀ pc (hpc : pc < program.length), marks₂[pc] ≤ generation + 1 := by
          intro pc hpc
          rcases advance_marks hadvance pc hpc with hsame | hmark
          · exact hsame ▸ Nat.le_succ_of_le (hmarks₁ pc hpc)
          · exact Nat.le_of_eq hmark
        obtain ⟨hlater, hstarts⟩ := ih hbehind hlt h hsettled₂ hmarks₂
        have hnone : ∀ pc, (∀ hpc : pc < program.length, marks₁[pc] = generation) →
            ¬ (machine host text program atoms).Accepts pc i := by
          rintro pc hmark ⟨n, haccepts⟩
          obtain ⟨queued, hmem, htakes, hrest⟩ := hsettled₁.takes haccepts hmark
          exact hlater (queued + 1) (hmarked queued hmem htakes) hrest
        refine ⟨fun pc hmark => hnone pc fun hpc => hkept pc hpc (hmark hpc), ?_⟩
        intro start hle hlength
        rcases Nat.eq_or_lt_of_le hle with rfl | hlater
        · exact hnone 0 (hstart 0 (List.mem_singleton_self 0))
        · exact hstarts start hlater hlength

end Search

/-! ## Patterns -/

/-- The loop of `unportableRegexConstruct`. -/
def unportableFrom (inClass : Bool) : List Nat → Option String
  | [] => none
  | point :: rest =>
    if point = '\\'.toNat then
      match rest with
      | [] => none
      | escaped :: behind =>
        if '1'.toNat ≤ escaped ∧ escaped ≤ '9'.toNat then some "backreferences"
        else if escaped = 'k'.toNat then some "named backreferences"
        else unportableFrom inClass behind
    else if point = '['.toNat then unportableFrom true rest
    else if point = ']'.toNat then unportableFrom false rest
    else if point = '('.toNat ∧ !inClass ∧ rest.head? = some '?'.toNat then
      match rest with
      | [] => none
      | _ :: behind =>
        if behind.head? ≠ some ':'.toNat then some "groups starting with (? other than (?:"
        else unportableFrom inClass behind
    else unportableFrom inClass rest

def unportableRegexConstruct (pattern : JsString) : Option String := unportableFrom false (codePoints pattern)

def nestLimit : Nat := 64

def baseCost : Nat := 200

def RustRegex.compile (host : RegexHost) (tables : UnicodeTables) (pattern : JsString) (caseInsensitive : Bool) :
    Except JsString RustRegex :=
  match unportableRegexConstruct pattern with
  | some construct => .error (jsText s!"regex {construct} is not supported, write the pattern without it")
  | none => do
    let root ← parse host tables caseInsensitive pattern
    if depth root > nestLimit then .error (invalid s!"exceeds the nest limit of {nestLimit}")
    else if cost root + baseCost > sizeLimit then .error exceedsSize
    else do
      let c ← emit host caseInsensitive root ⟨[], []⟩
      let c ← c.push .match
      .ok ⟨c.program, c.atoms⟩

/-- The compiled program accepts from a place where the tree spans some of the
text. -/
theorem program_accepts {host : RegexHost} {caseInsensitive : Bool} {text : List Nat} {root : Node} {c c' : Compiler}
    (hroot : WellFormed root) (hemit : emit host caseInsensitive root ⟨[], []⟩ = .ok c)
    (hpush : c.push .match = .ok c') (i : Nat) :
    (machine host text c'.program c'.atoms).Accepts 0 i ↔ ∃ j, Spans host caseInsensitive text root i j := by
  have hemitted : Emitted host text (Spans host caseInsensitive text root) ⟨[], []⟩ c := emit_does root hroot _ _ hemit
  obtain rfl := push_ok hpush
  have hshows : Shows (c.program ++ [.match]) c.program 0 c.program.length := by
    intro pc _ hpc
    exact List.getElem?_append_left hpc
  have hdoes := hemitted.does (c.program ++ [.match]) c.atoms hshows List.prefix_rfl
  have hend : ∀ j, (machine host text (c.program ++ [.match]) c.atoms).Accepts c.program.length j :=
    fun j => ⟨0, .final (by simp [machine])⟩
  rw [show (0 : Nat) = ([] : List Inst).length from rfl, hdoes.accepts_iff]
  simp [hend]

/-- The search decides the language of the tree that the parser builds. -/
theorem matches_iff_isMatch {host : RegexHost} {tables : UnicodeTables} {pattern : JsString} {caseInsensitive : Bool}
    {regex : RustRegex} (h : RustRegex.compile host tables pattern caseInsensitive = .ok regex) (value : JsString) :
    ∃ root, parse host tables caseInsensitive pattern = .ok root ∧
      (regex.matches host value = true ↔ IsMatch host caseInsensitive (codePoints value) root) := by
  unfold RustRegex.compile at h
  split at h
  · cases h
  simp only [bind_ok] at h
  obtain ⟨root, hparse, h⟩ := h
  refine ⟨root, hparse, ?_⟩
  split_ifs at h
  simp only [bind_ok] at h
  obtain ⟨c, hemit, c', hpush, hresult⟩ := h
  cases hresult
  have haccepts : ∀ i, (machine host (codePoints value) c'.program c'.atoms).Accepts 0 i ↔
      ∃ j, Spans host caseInsensitive (codePoints value) root i j :=
    program_accepts (wellFormed_parse hparse) hemit hpush
  have hstart : Settled host (codePoints value) c'.program 1 0 (Vector.replicate _ 0) [] [] := by
    intro pc hpc hmark
    simp at hmark
  constructor
  · intro hmatches
    rcases search_sound (List.drop_zero).symm (Nat.zero_le _) hmatches with ⟨_, hmem, _⟩ | ⟨start, _, hle, hstart⟩
    · cases hmem
    · obtain ⟨j, hspans⟩ := (haccepts start).1 hstart
      obtain ⟨hforward, hend⟩ := spans_forward root start j hspans
      exact ⟨start, j, hforward, hend hle, hspans⟩
  · rintro ⟨i, j, hforward, hend, hspans⟩
    by_contra hmatches
    have hnone := search_complete (List.drop_zero).symm (Nat.zero_le _) (Bool.not_eq_true _ ▸ hmatches) hstart (by simp)
    exact hnone.2 i (Nat.zero_le i) (Nat.le_trans hforward hend) ((haccepts i).2 ⟨j, hspans⟩)

/-- A runtime whose words are letters. -/
def plainHost : RegexHost where
  regExp := fun _ _ => none
  word := isLetterPoint
  whiteSpace := fun point => point == 32

def noTables : UnicodeTables where
  names := fun _ => none
  categories := fun _ => none
  scripts := fun _ => none
  binary := fun _ => false

/-- The tree of `(a|b?)+$`, whose repeat has a body that can be empty. -/
def groupedRoot : Node :=
  .concat [.repeat 1 none (.group (.alt [literal false 97, .repeat 0 (some 1) (literal false 98)])), .look .finish]

theorem parse_grouped : parse plainHost noTables false (jsText "(a|b?)+$") = .ok groupedRoot := by
  have hpoints : codePoints (jsText "(a|b?)+$") = [40, 97, 124, 98, 63, 41, 43, 36] := rfl
  rw [parse, hpoints]
  simp [parseLoop, groupStart, parsePrimitive, repeatOperator, repeatLast, skipLazy, finish, intoConcat, groupedRoot]

theorem compile_grouped : ∃ regex, RustRegex.compile plainHost noTables (jsText "(a|b?)+$") false = .ok regex := by
  have hportable : unportableRegexConstruct (jsText "(a|b?)+$") = none := by
    have hpoints : codePoints (jsText "(a|b?)+$") = [40, 97, 124, 98, 63, 41, 43, 36] := rfl
    rw [unportableRegexConstruct, hpoints]
    simp [unportableFrom]
  have hdepth : ¬ depth groupedRoot > nestLimit := by decide
  have hcost : ¬ cost groupedRoot + baseCost > sizeLimit := by decide
  obtain ⟨c, hemit, hlength⟩ : ∃ c, emit plainHost false groupedRoot ⟨[], []⟩ = .ok c ∧ c.program.length < maxInstructions :=
    ⟨_, rfl, by decide⟩
  simp [RustRegex.compile, hportable, parse_grouped, ok_bind, hdepth, hcost, hemit, Compiler.push, Nat.not_le.2 hlength]

theorem matches_grouped : ∃ regex, RustRegex.compile plainHost noTables (jsText "(a|b?)+$") false = .ok regex ∧
    regex.matches plainHost (jsText "xab") = true := by
  obtain ⟨regex, hcompile⟩ := compile_grouped
  obtain ⟨root, hparse, hmatches⟩ := matches_iff_isMatch hcompile (jsText "xab")
  refine ⟨regex, hcompile, hmatches.2 ?_⟩
  rw [parse_grouped] at hparse
  cases hparse
  have htext : codePoints (jsText "xab") = [120, 97, 98] := rfl
  rw [htext]
  refine ⟨1, 3, by decide, by decide, 3, ⟨2, by decide, by simp, 2, ?_, 3, ?_, rfl⟩, 3, ⟨rfl, rfl⟩, rfl⟩
  · exact .inl ⟨rfl, 97, rfl, rfl⟩
  · exact .inr (.inl ⟨1, by decide, by simp, 3, ⟨rfl, 98, rfl, rfl⟩, rfl⟩)

end LaserSdk.Typescript.Regex
