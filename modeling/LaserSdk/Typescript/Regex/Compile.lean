import LaserSdk.Lib.Checks
import LaserSdk.Typescript.Path
import LaserSdk.Typescript.Regex.Syntax
/-!
# Programs of patterns

A pattern is compiled to a program for a machine that follows all its runs at
once. A split whose second target is not known yet is written first and patched
behind its body. We prove that what is emitted for a node, wherever it stands,
moves over the text as the node spans it.
-/

namespace LaserSdk.Typescript.Regex

open LaserSdk.Lib

/-- A target that is still open is the source's `-1`. -/
inductive Inst where
  | char (atom : Nat)
  | look (look : Look)
  | split (x : Nat) (y : Option Nat)
  | jmp (x : Option Nat)
  | match
  deriving DecidableEq, Repr

def sizeLimit : Nat := 262144

def maxInstructions : Nat := 65536

def invalid (reason : String) : JsString := jsText s!"invalid regex: {reason}"

def exceedsSize : JsString := invalid s!"compiled regex exceeds size limit of {sizeLimit} bytes"

/-! ## Atoms -/

structure AtomMatcher where
  literal : Option Nat
  regex : Option (Nat → Bool)

section Compiler

variable (host : RegexHost) (caseInsensitive : Bool)

def AtomMatcher.new (atom : Atom) : Except JsString AtomMatcher :=
  match atom.literal with
  | some literal => .ok ⟨some literal, none⟩
  | none =>
    match host.regExp atom.source caseInsensitive with
    | some test => .ok ⟨none, some test⟩
    | none => .error (invalid "a character class is not supported by this JavaScript runtime")

def AtomMatcher.test (matcher : AtomMatcher) (point : Nat) : Bool :=
  match matcher.literal with
  | some literal => point == literal
  | none =>
    match matcher.regex with
    | none => false
    | some test => test point

/-! ## The compiler -/

structure Compiler where
  program : List Inst
  atoms : List AtomMatcher

def Compiler.push (inst : Inst) (c : Compiler) : Except JsString Compiler :=
  if c.program.length ≥ maxInstructions then .error exceedsSize
  else .ok { c with program := c.program ++ [inst] }

/-- The field that a patch writes: `y` of a split, `x` of a jump. -/
def Inst.withTarget (target : Nat) : Inst → Inst
  | .split x _ => .split x (some target)
  | .jmp _ => .jmp (some target)
  | inst => inst

def Compiler.patch (c : Compiler) (place target : Nat) : Compiler :=
  { c with program := c.program.modify place (·.withTarget target) }

/-- The loops that patch a list of places. -/
def Compiler.patchAll (c : Compiler) (places : List Nat) (target : Nat) : Compiler :=
  places.foldl (fun c place => c.patch place target) c

/-- A loop that emits so many times. -/
def emitTimes (emitChild : Compiler → Except JsString Compiler) : Nat → Compiler → Except JsString Compiler
  | 0, c => .ok c
  | times + 1, c => do
    let c ← emitChild c
    emitTimes emitChild times c

/-- The loop behind the counted copies, with the splits it leaves open. -/
def emitSplits (emitChild : Compiler → Except JsString Compiler) :
    Nat → Compiler → Except JsString (Compiler × List Nat)
  | 0, c => .ok (c, [])
  | times + 1, c => do
    let split := c.program.length
    let c ← c.push (.split (c.program.length + 1) none)
    let c ← emitChild c
    let (c, splits) ← emitSplits emitChild times c
    .ok (c, split :: splits)

def optional (emitChild : Compiler → Except JsString Compiler) (c : Compiler) : Except JsString Compiler := do
  let split := c.program.length
  let c ← c.push (.split (c.program.length + 1) none)
  let c ← emitChild c
  .ok (c.patch split c.program.length)

def emitLoop (emitChild : Compiler → Except JsString Compiler) (c : Compiler) : Except JsString Compiler := do
  let loop := c.program.length
  let c ← c.push (.split (c.program.length + 1) none)
  let c ← emitChild c
  let c ← c.push (.jmp (some loop))
  .ok (c.patch loop c.program.length)

mutual

def emit : Node → Compiler → Except JsString Compiler
  | .empty, c => .ok c
  | .atom atom, c => do
    let matcher ← AtomMatcher.new host caseInsensitive atom
    Compiler.push (.char c.atoms.length) { c with atoms := c.atoms ++ [matcher] }
  | .look look, c => c.push (.look look)
  | .concat items, c => emitAll items c
  | .group child, c => emit child c
  | .alt items, c => do
    let (c, exits) ← emitAlternates items c
    .ok (c.patchAll exits c.program.length)
  | .repeat min max child, c =>
    if zeroWidth child then
      if max = some 0 then .ok c
      else if min > 0 then emit child c
      else optional (emit child) c
    else do
      let c ← emitTimes (emit child) min c
      match max with
      | none => emitLoop (emit child) c
      | some max =>
        let (c, splits) ← emitSplits (emit child) (max - min) c
        .ok (c.patchAll splits c.program.length)

def emitAll : List Node → Compiler → Except JsString Compiler
  | [], c => .ok c
  | item :: items, c => do
    let c ← emit item c
    emitAll items c

/-- The loop over the alternatives, with the exits it leaves open. -/
def emitAlternates : List Node → Compiler → Except JsString (Compiler × List Nat)
  | [], c => .ok (c, [])
  | [item], c => do
    let c ← emit item c
    .ok (c, [])
  | item :: next :: items, c => do
    let split := c.program.length
    let c ← c.push (.split (c.program.length + 1) none)
    let c ← emit item c
    let exit := c.program.length
    let c ← c.push (.jmp none)
    let c := c.patch split c.program.length
    let (c, exits) ← emitAlternates (next :: items) c
    .ok (c, exit :: exits)

end

end Compiler

/-! ## The machine of a program -/

/-- The steps a program allows over a text. -/
def machine (host : RegexHost) (text : List Nat) (program : List Inst) (atoms : List AtomMatcher) : Machine Nat Nat where
  step pc i next j :=
    match program[pc]? with
    | some (.char atom) =>
      next = pc + 1 ∧ j = i + 1 ∧ ∃ matcher point, atoms[atom]? = some matcher ∧ text[i]? = some point ∧ matcher.test point = true
    | some (.look look) => next = pc + 1 ∧ holds host text look i = true ∧ i = j
    | some (.split x y) => (next = x ∨ y = some next) ∧ i = j
    | some (.jmp x) => x = some next ∧ i = j
    | some .match => False
    | none => False
  final pc := program[pc]? = some .match

/-! ## What is written stays -/

/-- Between two places, one program shows the instructions of another. -/
def Shows (shown program : List Inst) (lo hi : Nat) : Prop := ∀ pc, lo ≤ pc → pc < hi → shown[pc]? = program[pc]?

theorem Shows.mono {shown program : List Inst} {lo lo' hi hi' : Nat} (h : Shows shown program lo hi) (hlo : lo ≤ lo')
    (hhi : hi' ≤ hi) : Shows shown program lo' hi' := by
  intro pc h1 h2
  exact h pc (Nat.le_trans hlo h1) (Nat.lt_of_lt_of_le h2 hhi)

theorem Shows.trans {shown middle program : List Inst} {lo hi : Nat} (h : Shows shown middle lo hi)
    (h' : Shows middle program lo hi) : Shows shown program lo hi := by
  intro pc h1 h2
  exact (h pc h1 h2).trans (h' pc h1 h2)

theorem getElem?_patch (c : Compiler) (place target pc : Nat) :
    (c.patch place target).program[pc]? =
      if pc = place then (c.program[pc]?).map (·.withTarget target) else c.program[pc]? := by
  simp only [Compiler.patch, List.getElem?_modify]
  by_cases h : pc = place
  · simp [h]
  · simp [h, Ne.symm h]

@[simp] theorem length_patch (c : Compiler) (place target : Nat) :
    (c.patch place target).program.length = c.program.length := by
  simp [Compiler.patch]

@[simp] theorem atoms_patch (c : Compiler) (place target : Nat) : (c.patch place target).atoms = c.atoms := rfl

@[simp] theorem length_patchAll (c : Compiler) (places : List Nat) (target : Nat) :
    (c.patchAll places target).program.length = c.program.length := by
  induction places generalizing c with
  | nil => rfl
  | cons place places ih =>
    simp only [Compiler.patchAll, List.foldl_cons] at ih ⊢
    rw [ih, length_patch]

@[simp] theorem atoms_patchAll (c : Compiler) (places : List Nat) (target : Nat) :
    (c.patchAll places target).atoms = c.atoms := by
  induction places generalizing c with
  | nil => rfl
  | cons place places ih =>
    simp only [Compiler.patchAll, List.foldl_cons] at ih ⊢
    rw [ih, atoms_patch]

theorem withTarget_withTarget (inst : Inst) (target : Nat) :
    (inst.withTarget target).withTarget target = inst.withTarget target := by
  cases inst <;> rfl

theorem getElem?_patchAll (c : Compiler) (places : List Nat) (target pc : Nat) :
    (c.patchAll places target).program[pc]? =
      if pc ∈ places then (c.program[pc]?).map (·.withTarget target) else c.program[pc]? := by
  induction places generalizing c with
  | nil => simp [Compiler.patchAll]
  | cons place places ih =>
    simp only [Compiler.patchAll, List.foldl_cons] at ih ⊢
    rw [ih, getElem?_patch]
    by_cases h : pc = place
    · -- A place that is listed twice is patched to the same target again.
      subst h
      by_cases h' : pc ∈ places
      · simp [h', Function.comp_def, withTarget_withTarget]
      · simp [h']
    · simp [h]

theorem shows_patch {c : Compiler} {place target lo hi : Nat} (h : place < lo ∨ hi ≤ place) :
    Shows (c.patch place target).program c.program lo hi := by
  intro pc h1 h2
  rw [getElem?_patch, if_neg (by omega)]

theorem shows_patchAll {c : Compiler} {places : List Nat} {target lo hi : Nat}
    (h : ∀ place ∈ places, place < lo ∨ hi ≤ place) : Shows (c.patchAll places target).program c.program lo hi := by
  intro pc h1 h2
  rw [getElem?_patchAll, if_neg]
  intro hmem
  have := h pc hmem
  omega

theorem push_ok {inst : Inst} {c c' : Compiler} (h : c.push inst = .ok c') :
    c' = { c with program := c.program ++ [inst] } := by
  simp only [Compiler.push] at h
  split at h
  · cases h
  · cases h
    rfl

theorem AtomMatcher.test_iff {host : RegexHost} {caseInsensitive : Bool} {atom : Atom} {matcher : AtomMatcher}
    (h : AtomMatcher.new host caseInsensitive atom = .ok matcher) (point : Nat) :
    matcher.test point = true ↔ atom.holdsOf host caseInsensitive point := by
  unfold AtomMatcher.new at h
  unfold Atom.holdsOf
  cases hliteral : atom.literal with
  | some literal =>
    rw [hliteral] at h
    cases h
    simp [AtomMatcher.test]
  | none =>
    rw [hliteral] at h
    cases hregex : host.regExp atom.source caseInsensitive with
    | none => simp [hregex] at h
    | some test =>
      simp only [hregex] at h
      cases h
      simp [AtomMatcher.test]

/-! ## Fragments of a program -/

section Fragments

variable {host : RegexHost} {caseInsensitive : Bool} {text : List Nat} {program : List Inst} {atoms : List AtomMatcher}

theorem machine_char {pc atom : Nat} {matcher : AtomMatcher} (hpc : program[pc]? = some (.char atom))
    (hatom : atoms[atom]? = some matcher) :
    (machine host text program atoms).Does pc (pc + 1)
      fun i j => j = i + 1 ∧ ∃ point, text[i]? = some point ∧ matcher.test point = true := by
  apply Machine.Does.single
  · simp [machine, hpc]
  · intro i next j
    simp [machine, hpc, hatom]

theorem machine_look {pc : Nat} {look : Look} (hpc : program[pc]? = some (.look look)) :
    (machine host text program atoms).Does pc (pc + 1) fun i j => holds host text look i = true ∧ i = j := by
  apply Machine.Does.single
  · simp [machine, hpc]
  · intro i next j
    simp [machine, hpc]

theorem machine_jmp {pc x : Nat} (hpc : program[pc]? = some (.jmp (some x))) :
    (machine host text program atoms).Does pc x Eq := by
  apply Machine.Does.single
  · simp [machine, hpc]
  · intro i next j
    simp only [machine, hpc, Option.some.injEq, @eq_comm _ x next]

theorem machine_split {pc x y : Nat} (hpc : program[pc]? = some (.split x (some y))) :
    (machine host text program atoms).Branches pc x y := by
  constructor
  · simp [machine, hpc]
  · intro i next j
    simp only [machine, hpc, Option.some.injEq, @eq_comm _ y next]

end Fragments

/-! ## What is emitted -/

/-- Between two states of the compiler, code is written that moves as the
relation says, in every program that shows it. -/
structure Emitted (host : RegexHost) (text : List Nat) (R : Nat → Nat → Prop) (c c' : Compiler) : Prop where
  length : c.program.length ≤ c'.program.length
  before : Shows c'.program c.program 0 c.program.length
  atoms : c.atoms <+: c'.atoms
  does : ∀ program atoms, Shows program c'.program c.program.length c'.program.length → c'.atoms <+: atoms →
    (machine host text program atoms).Does c.program.length c'.program.length R

section Emitted

variable {host : RegexHost} {caseInsensitive : Bool} {text : List Nat} {R S : Nat → Nat → Prop}
  {emitChild : Compiler → Except JsString Compiler} {c c' : Compiler}

theorem Emitted.refl : Emitted host text Eq c c where
  length := Nat.le_refl _
  before := fun _ _ _ => rfl
  atoms := List.prefix_rfl
  does := fun _ _ _ _ => .skip

theorem Emitted.congr (h : Emitted host text R c c') (hRS : ∀ i j, R i j ↔ S i j) : Emitted host text S c c' where
  length := h.length
  before := h.before
  atoms := h.atoms
  does program atoms hshows hatoms := (h.does program atoms hshows hatoms).congr hRS

theorem Emitted.trans {c₁ : Compiler} (h : Emitted host text R c c₁) (h' : Emitted host text S c₁ c') :
    Emitted host text (Relation.Comp R S) c c' where
  length := Nat.le_trans h.length h'.length
  before := (h'.before.mono (Nat.le_refl 0) h.length).trans h.before
  atoms := h.atoms.trans h'.atoms
  does program atoms hshows hatoms := by
    have hfirst : Shows program c₁.program c.program.length c₁.program.length :=
      (hshows.mono (Nat.le_refl _) h'.length).trans (h'.before.mono (Nat.zero_le _) (Nat.le_refl _))
    have hsecond := hshows.mono h.length (Nat.le_refl _)
    exact (h.does program atoms hfirst (h'.atoms.trans hatoms)).comp (h'.does program atoms hsecond hatoms)

/-- One instruction. -/
theorem emitted_push {inst : Inst} {matchers : List AtomMatcher} (hpush : Compiler.push inst { c with atoms := matchers } = .ok c')
    (hatoms : c.atoms <+: matchers)
    (hdoes : ∀ program atoms, program[c.program.length]? = some inst → matchers <+: atoms →
      (machine host text program atoms).Does c.program.length (c.program.length + 1) R) : Emitted host text R c c' := by
  obtain rfl := push_ok hpush
  refine ⟨by simp, ?_, hatoms, ?_⟩
  · intro pc _ hpc
    simp [List.getElem?_append_left hpc]
  · intro program atoms hshows hprefix
    have hinst := hshows c.program.length (Nat.le_refl _) (by simp)
    simp only [List.length_append, List.length_cons, List.length_nil]
    apply hdoes program atoms _ hprefix
    rw [hinst]
    simp

theorem emitted_times (hchild : ∀ c c', emitChild c = .ok c' → Emitted host text R c c') (times : Nat)
    (h : emitTimes emitChild times c = .ok c') : Emitted host text (Iter R times) c c' := by
  induction times generalizing c with
  | zero =>
    cases h
    exact .refl
  | succ times ih =>
    simp only [emitTimes, bind_ok] at h
    obtain ⟨c₁, hfirst, hrest⟩ := h
    exact (hchild c c₁ hfirst).trans (ih hrest)

/-- A split that is written before its body: it stands in front of the body,
and nothing before it has changed. -/
theorem opened {c₁ c₂ : Compiler} (hpush : c.push (.split (c.program.length + 1) none) = .ok c₁)
    (hbody : Emitted host text R c₁ c₂) :
    c₁.program.length = c.program.length + 1 ∧ c.program.length + 1 ≤ c₂.program.length ∧ c.atoms <+: c₂.atoms ∧
      Shows c₂.program c.program 0 c.program.length ∧
      c₂.program[c.program.length]? = some (.split (c.program.length + 1) none) := by
  obtain rfl := push_ok hpush
  have hlength := hbody.length
  simp only [List.length_append, List.length_cons, List.length_nil] at hlength
  refine ⟨by simp, hlength, hbody.atoms, ?_, ?_⟩
  · intro pc h1 h2
    have h := hbody.before pc h1 (by simp; omega)
    rw [h]
    simp [List.getElem?_append_left h2]
  · rw [hbody.before c.program.length (Nat.zero_le _) (by simp)]
    simp

theorem emitted_optional (hchild : ∀ c c', emitChild c = .ok c' → Emitted host text R c c')
    (h : optional emitChild c = .ok c') : Emitted host text (fun i j => R i j ∨ i = j) c c' := by
  simp only [optional, bind_ok] at h
  obtain ⟨c₁, hpush, c₂, hbody, hpatch⟩ := h
  cases hpatch
  have hchild := hchild c₁ c₂ hbody
  obtain ⟨hlength₁, hlength₂, hatoms, hbefore, hsplit⟩ := opened hpush hchild
  refine ⟨by rw [length_patch]; omega, (shows_patch (.inr (Nat.le_refl _))).trans hbefore, hatoms, ?_⟩
  intro program atoms hshows hprefix
  rw [length_patch] at hshows ⊢
  have hbranch : program[c.program.length]? = some (.split (c.program.length + 1) (some c₂.program.length)) := by
    rw [hshows _ (Nat.le_refl _) hlength₂, getElem?_patch, if_pos rfl, hsplit]
    rfl
  have hshown : Shows program c₂.program c₁.program.length c₂.program.length := by
    rw [hlength₁]
    exact (hshows.mono (Nat.le_succ _) (Nat.le_refl _)).trans (shows_patch (.inl (Nat.lt_succ_self _)))
  have hdoes := hchild.does program atoms hshown hprefix
  rw [hlength₁] at hdoes
  exact .branch (machine_split hbranch) hdoes .skip

theorem emitted_loop (hchild : ∀ c c', emitChild c = .ok c' → Emitted host text R c c')
    (h : emitLoop emitChild c = .ok c') : Emitted host text (Relation.ReflTransGen R) c c' := by
  simp only [emitLoop, bind_ok] at h
  obtain ⟨c₁, hpush, c₂, hbody, c₃, hback, hpatch⟩ := h
  cases hpatch
  have hchild := hchild c₁ c₂ hbody
  obtain ⟨hlength₁, hlength₂, hatoms, hbefore, hsplit⟩ := opened hpush hchild
  obtain rfl := push_ok hback
  have hkept : Shows (c₂.program ++ [.jmp (some c.program.length)]) c₂.program 0 c₂.program.length := by
    intro pc _ hpc
    exact List.getElem?_append_left hpc
  have hlength : (c₂.program ++ [Inst.jmp (some c.program.length)]).length = c₂.program.length + 1 := by simp
  refine ⟨by rw [length_patch, hlength]; omega, ?_, hatoms, ?_⟩
  · exact ((shows_patch (.inr (Nat.le_refl _))).trans (hkept.mono (Nat.le_refl 0) (by omega))).trans hbefore
  intro program atoms hshows hprefix
  rw [length_patch] at hshows ⊢
  simp only [hlength] at hshows ⊢
  have hbranch : program[c.program.length]? = some (.split (c.program.length + 1) (some (c₂.program.length + 1))) := by
    rw [hshows _ (Nat.le_refl _) (by omega), getElem?_patch, if_pos rfl]
    simp only [hkept c.program.length (Nat.zero_le _) (by omega), hsplit]
    rfl
  have hjmp : program[c₂.program.length]? = some (.jmp (some c.program.length)) := by
    rw [hshows _ (by omega) (by omega), getElem?_patch, if_neg (by omega)]
    simp
  have hshown : Shows program c₂.program c₁.program.length c₂.program.length := by
    rw [hlength₁]
    refine ((hshows.mono (Nat.le_succ _) (Nat.le_succ _)).trans (shows_patch (.inl (Nat.lt_succ_self _)))).trans ?_
    exact hkept.mono (Nat.zero_le _) (Nat.le_refl _)
  have hdoes := hchild.does program atoms hshown hprefix
  rw [hlength₁] at hdoes
  apply Machine.Does.loop (machine_split hbranch)
  apply (hdoes.comp (machine_jmp hjmp)).congr
  intro i j
  rw [Relation.comp_eq]

theorem shows_patchAll_cons {place target lo hi : Nat} {places : List Nat} (h : place < lo ∨ hi ≤ place) :
    Shows (c.patchAll (place :: places) target).program (c.patchAll places target).program lo hi := by
  intro pc h1 h2
  have hne : pc ≠ place := by omega
  simp [getElem?_patchAll, hne]

/-- A fragment with open places behind its start: what was there before it is
still shown when the places are not patched. -/
theorem Emitted.before_open {places : List Nat} {target : Nat} (h : Emitted host text R c (c'.patchAll places target))
    (hplaces : ∀ place ∈ places, c.program.length ≤ place) : Shows c'.program c.program 0 c.program.length := by
  intro pc h1 h2
  have hopen : Shows (c'.patchAll places target).program c'.program 0 c.program.length :=
    shows_patchAll fun place hplace => .inr (hplaces place hplace)
  rw [← h.before pc h1 h2]
  exact (hopen pc h1 h2).symm

theorem emitted_splits (hchild : ∀ c c', emitChild c = .ok c' → Emitted host text R c c') (times : Nat)
    {splits : List Nat} (h : emitSplits emitChild times c = .ok (c', splits)) :
    (∀ split ∈ splits, c.program.length ≤ split) ∧
      Emitted host text (UpTo R times) c (c'.patchAll splits c'.program.length) := by
  induction times generalizing c splits with
  | zero =>
    cases h
    exact ⟨fun _ hmem => absurd hmem List.not_mem_nil, .refl⟩
  | succ times ih =>
    simp only [emitSplits, bind_ok] at h
    obtain ⟨c₁, hpush, c₂, hbody, ⟨c₃, later⟩, hrest, hresult⟩ := h
    cases hresult
    have hchild := hchild c₁ c₂ hbody
    obtain ⟨hlength₁, hlength₂, hatoms, hbefore, hsplit⟩ := opened hpush hchild
    obtain ⟨hlater, hrest⟩ := ih hrest
    have hopen := hrest.before_open hlater
    have hlength := hrest.length
    rw [length_patchAll] at hlength
    have hplaces : ∀ split ∈ c.program.length :: later, c.program.length ≤ split := by
      intro split hmem
      rcases List.mem_cons.1 hmem with rfl | hmem
      · exact Nat.le_refl _
      · have := hlater split hmem
        omega
    refine ⟨hplaces, ⟨by rw [length_patchAll]; omega, ?_, ?_, ?_⟩⟩
    · have hkept := hopen.mono (Nat.le_refl 0) (show c.program.length ≤ c₂.program.length by omega)
      exact ((shows_patchAll fun place hplace => .inr (hplaces place hplace)).trans hkept).trans hbefore
    · rw [atoms_patchAll]
      exact hatoms.trans (by simpa using hrest.atoms)
    · intro program atoms hshows hprefix
      rw [length_patchAll] at hshows ⊢
      rw [atoms_patchAll] at hprefix
      have hbranch : program[c.program.length]? = some (.split (c.program.length + 1) (some c₃.program.length)) := by
        rw [hshows _ (Nat.le_refl _) (by omega), getElem?_patchAll, if_pos List.mem_cons_self,
          hopen _ (Nat.zero_le _) hlength₂, hsplit]
        rfl
      have hshown : Shows program c₂.program c₁.program.length c₂.program.length := by
        rw [hlength₁]
        refine ((hshows.mono (Nat.le_succ _) hlength).trans (shows_patchAll ?_)).trans
          (hopen.mono (Nat.zero_le _) (Nat.le_refl _))
        intro place hplace
        rcases List.mem_cons.1 hplace with rfl | hplace
        · exact .inl (Nat.lt_succ_self _)
        · exact .inr (hlater place hplace)
      have hdoes := hchild.does program atoms hshown (hrest.atoms.trans (by simpa using hprefix))
      have hafter := hrest.does program atoms
        (by rw [length_patchAll]; exact (hshows.mono (by omega) (Nat.le_refl _)).trans (shows_patchAll_cons (.inl (by omega))))
        (by simpa using hprefix)
      rw [hlength₁] at hdoes
      rw [length_patchAll] at hafter
      exact .branch (machine_split hbranch) (hdoes.comp hafter) .skip

end Emitted

/-- A repeat, from what its child does. -/
theorem emitted_repeat {host : RegexHost} {caseInsensitive : Bool} {text : List Nat} {min : Nat} {max : Option Nat}
    {child : Node} {c c' : Compiler} (hrange : ∀ most, max = some most → min ≤ most)
    (hchild : ∀ c c', emit host caseInsensitive child c = .ok c' →
      Emitted host text (Spans host caseInsensitive text child) c c')
    (h : emit host caseInsensitive (.repeat min max child) c = .ok c') :
    Emitted host text (Spans host caseInsensitive text (.repeat min max child)) c c' := by
  rw [emit] at h
  split_ifs at h with hzero hnone hmin
  · cases h
    subst hnone
    exact Emitted.refl.congr fun i j => (spans_repeat_none (hrange 0 rfl) i j).symm
  · exact (hchild c c' h).congr fun i j => (spans_repeat_still hzero hmin hrange i j).symm
  · -- None are asked for, so that the test of the child decides nothing.
    obtain rfl := Nat.eq_zero_of_not_pos hmin
    apply (emitted_optional hchild h).congr
    intro i j
    rw [spans_repeat_none_still hzero]
    constructor
    · rintro (hspan | rfl)
      · exact spans_still child hzero i j hspan
      · rfl
    · exact .inr
  · simp only [bind_ok] at h
    obtain ⟨c₁, htimes, hrest⟩ := h
    have htimes := emitted_times hchild min htimes
    cases max with
    | none =>
      apply (htimes.trans (emitted_loop hchild hrest)).congr
      exact fun i j => (spans_repeat_unbounded i j).symm
    | some max =>
      simp only [bind_ok] at hrest
      obtain ⟨⟨c₂, splits⟩, hsplits, hpatch⟩ := hrest
      cases hpatch
      apply (htimes.trans (emitted_splits hchild (max - min) hsplits).2).congr
      exact fun i j => (spans_repeat_bounded (hrange max rfl) i j).symm

/-- One alternative before others: a split leads to it or to the others, and it
leaves by an exit that is still open. -/
theorem emitted_alternate {host : RegexHost} {text : List Nat} {R S : Nat → Nat → Prop} {c c₁ c₂ c₃ c' : Compiler}
    {exits : List Nat} (hpush : c.push (.split (c.program.length + 1) none) = .ok c₁) (hitem : Emitted host text R c₁ c₂)
    (hjmp : c₂.push (.jmp none) = .ok c₃) (hexits : ∀ exit ∈ exits, c₃.program.length ≤ exit)
    (hrest : Emitted host text S (c₃.patch c.program.length c₃.program.length) (c'.patchAll exits c'.program.length)) :
    Emitted host text (fun i j => R i j ∨ S i j) c (c'.patchAll (c₂.program.length :: exits) c'.program.length) := by
  obtain ⟨hlength₁, hlength₂, hatoms, hbefore, hsplit⟩ := opened hpush hitem
  obtain rfl := push_ok hjmp
  have hlength : (c₂.program ++ [Inst.jmp none]).length = c₂.program.length + 1 := by simp
  have hkept : Shows (c₂.program ++ [.jmp none]) c₂.program 0 c₂.program.length := by
    intro pc _ hpc
    exact List.getElem?_append_left hpc
  have hopen := hrest.before_open (by simpa using hexits)
  have hend := hrest.length
  simp only [length_patch, length_patchAll, hlength] at hopen hend hexits hrest
  have hplaces : ∀ exit ∈ c₂.program.length :: exits, c₂.program.length ≤ exit := by
    intro exit hmem
    rcases List.mem_cons.1 hmem with rfl | hmem
    · exact Nat.le_refl _
    · have := hexits exit hmem
      omega
  -- Behind the split and before the exit, all is as it was written.
  have hbody : ∀ lo, Shows (c'.patchAll (c₂.program.length :: exits) c'.program.length).program
      (Compiler.patch ⟨c₂.program ++ [.jmp none], c₂.atoms⟩ c.program.length (c₂.program.length + 1)).program
      lo c₂.program.length := by
    intro lo
    refine Shows.trans (shows_patchAll fun place hplace => .inr (hplaces place hplace)) ?_
    exact hopen.mono (Nat.zero_le _) (Nat.le_succ _)
  refine ⟨by rw [length_patchAll]; omega, ?_, ?_, ?_⟩
  · refine ((hbody 0).mono (Nat.le_refl 0) (by omega)).trans ?_
    refine (shows_patch (.inr (Nat.le_refl _))).trans ?_
    exact (hkept.mono (Nat.le_refl 0) (by omega)).trans hbefore
  · rw [atoms_patchAll]
    exact hatoms.trans (by simpa using hrest.atoms)
  · intro program atoms hshows hprefix
    rw [length_patchAll] at hshows ⊢
    rw [atoms_patchAll] at hprefix
    have hbranch : program[c.program.length]? = some (.split (c.program.length + 1) (some (c₂.program.length + 1))) := by
      rw [hshows _ (Nat.le_refl _) (by omega), hbody 0 _ (Nat.zero_le _) (by omega), getElem?_patch, if_pos rfl]
      simp only [hkept c.program.length (Nat.zero_le _) (by omega), hsplit]
      rfl
    have hexit : program[c₂.program.length]? = some (.jmp (some c'.program.length)) := by
      rw [hshows _ (by omega) (by omega), getElem?_patchAll, if_pos List.mem_cons_self,
        hopen _ (Nat.zero_le _) (Nat.lt_succ_self _), getElem?_patch, if_neg (by omega)]
      simp [Inst.withTarget]
    have hshown : Shows program c₂.program c₁.program.length c₂.program.length := by
      rw [hlength₁]
      refine ((hshows.mono (Nat.le_succ _) (by omega)).trans (hbody _)).trans ?_
      exact (shows_patch (.inl (Nat.lt_succ_self _))).trans (hkept.mono (Nat.zero_le _) (Nat.le_refl _))
    have hatoms₂ : c₂.atoms <+: atoms := hrest.atoms.trans (by simpa using hprefix)
    have hdoes := hitem.does program atoms hshown hatoms₂
    have hshownAfter : Shows program (c'.patchAll exits c'.program.length).program (c₂.program.length + 1) c'.program.length := by
      have hpart := hshows.mono (show c.program.length ≤ c₂.program.length + 1 by omega) (Nat.le_refl _)
      exact hpart.trans (shows_patchAll_cons (.inl (Nat.lt_succ_self _)))
    have hafter := hrest.does program atoms (by simpa using hshownAfter) (by simpa using hprefix)
    rw [hlength₁] at hdoes
    simp only [length_patch, length_patchAll, hlength] at hafter
    refine .branch (machine_split hbranch) ?_ hafter
    apply (hdoes.comp (machine_jmp hexit)).congr
    intro i j
    rw [Relation.comp_eq]

mutual

/-- What the compiler emits for a node moves as the node spans the text. -/
theorem emit_does {host : RegexHost} {caseInsensitive : Bool} {text : List Nat} :
    ∀ (node : Node), WellFormed node → ∀ c c', emit host caseInsensitive node c = .ok c' →
      Emitted host text (Spans host caseInsensitive text node) c c'
  | .empty, _, c, c', h => by
    cases h
    exact .refl
  | .atom atom, _, c, c', h => by
    simp only [emit, bind_ok] at h
    obtain ⟨matcher, hmatcher, hpush⟩ := h
    apply emitted_push hpush (List.prefix_append _ _)
    intro program atoms hpc hprefix
    have hatom : atoms[c.atoms.length]? = some matcher := by
      obtain ⟨later, rfl⟩ := hprefix
      simp
    apply (machine_char hpc hatom).congr
    intro i j
    simp only [AtomMatcher.test_iff hmatcher, Spans]
  | .look look, _, c, c', h => by
    apply emitted_push h List.prefix_rfl
    intro program atoms hpc _
    exact machine_look hpc
  | .concat items, hnode, c, c', h => emitAll_does items hnode c c' h
  | .group child, hnode, c, c', h => emit_does child hnode c c' h
  | .alt items, hnode, c, c', h => by
    simp only [emit, bind_ok] at h
    obtain ⟨⟨c₁, exits⟩, halternates, hpatch⟩ := h
    cases hpatch
    exact (emitAlternates_does items hnode.1 hnode.2 c c₁ exits halternates).2
  | .repeat min max child, hnode, c, c', h => by
    exact emitted_repeat hnode.1 (emit_does child hnode.2) h

theorem emitAll_does {host : RegexHost} {caseInsensitive : Bool} {text : List Nat} :
    ∀ (items : List Node), WellFormedAll items → ∀ c c', emitAll host caseInsensitive items c = .ok c' →
      Emitted host text (SpansAll host caseInsensitive text items) c c'
  | [], _, c, c', h => by
    cases h
    exact .refl
  | item :: items, hitems, c, c', h => by
    simp only [emitAll, bind_ok] at h
    obtain ⟨c₁, hitem, hrest⟩ := h
    exact (emit_does item hitems.1 c c₁ hitem).trans (emitAll_does items hitems.2 c₁ c' hrest)

theorem emitAlternates_does {host : RegexHost} {caseInsensitive : Bool} {text : List Nat} :
    ∀ (items : List Node), items ≠ [] → WellFormedAll items → ∀ c c' exits,
      emitAlternates host caseInsensitive items c = .ok (c', exits) →
      (∀ exit ∈ exits, c.program.length ≤ exit) ∧
        Emitted host text (SpansAny host caseInsensitive text items) c (c'.patchAll exits c'.program.length)
  | [], hne, _, _, _, _, _ => absurd rfl hne
  | [item], _, hitems, c, c', exits, h => by
    simp only [emitAlternates, bind_ok] at h
    obtain ⟨c₁, hitem, hresult⟩ := h
    cases hresult
    refine ⟨fun _ hmem => absurd hmem List.not_mem_nil, ?_⟩
    apply (emit_does item hitems.1 c c' hitem).congr
    intro i j
    simp [SpansAny]
  | item :: next :: items, _, hitems, c, c', exits, h => by
    simp only [emitAlternates, bind_ok] at h
    obtain ⟨c₁, hpush, c₂, hitem, c₃, hjmp, ⟨c₄, later⟩, hrest, hresult⟩ := h
    cases hresult
    have hitem : Emitted host text (Spans host caseInsensitive text item) c₁ c₂ := emit_does item hitems.1 c₁ c₂ hitem
    obtain ⟨hlater, hrest⟩ := emitAlternates_does (next :: items) (List.cons_ne_nil _ _) hitems.2 _ _ _ hrest
    rw [length_patch] at hlater
    refine ⟨?_, emitted_alternate hpush hitem hjmp hlater hrest⟩
    have hlength := (opened hpush hitem).2.1
    have hlength₃ : c₃.program.length = c₂.program.length + 1 := by
      rw [push_ok hjmp]
      simp
    intro exit hmem
    rcases List.mem_cons.1 hmem with rfl | hmem
    · omega
    · have := hlater exit hmem
      omega

end

end LaserSdk.Typescript.Regex
