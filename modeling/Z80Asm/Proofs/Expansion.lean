import Mathlib.Data.List.Infix
import Mathlib.Tactic.Common
import Z80Asm.Macro

/-!
# Uses of macros

Expansion goes through lines one by one, and through the lines of a use before it goes on.  The uses that
it expands are collected in the order in which they begin (`uses`), and a run is the expansion together
with them (`Runs`), so that what holds of runs is shown line by line.
-/

namespace Z80Asm

open List

variable {st st₁ : Expansion} {line : Line} {m : Macro} {label : Option Token} {args : List Token} {s : Settings}
  {macros : Std.TreeMap Text Macro} {Q : Macro → Prop} {R : Line → Prop} {rest : List Line} {name : Text}

deriving instance DecidableEq for Macro

namespace Macro

/-! ## What is done with a line -/

inductive Task where
  | keep
  | define (label : Option Token) (args : List Token)
  /-- It ends a definition, and none is open. -/
  | lonely
  | use (label : Option Token) (m : Macro) (args : List Token)

def task (macros : Std.TreeMap Text Macro) (line : Line) : Task :=
  if line.fault.isSome || line.script.isSome then .keep
  else match Token.splitLabel line.tokens with
    | (_, []) => .keep
    | (label, head :: args) =>
      if head.isDirective .define then .define label args
      else if head.isDirective .endm then .lonely
      else match head.word?.bind (macros[·]?) with
        | some m => .use label m args
        | none => .keep

structure Use where
  number : Nat
  definition : Macro
  args : List (List Token)
  pos : Pos
  deriving DecidableEq

def Use.copy (dialect : Dialect) (u : Use) (line : Line) : Line :=
  substituteLine dialect u.pos (u.definition.params.zip u.args) u.definition.name u.number line

def Use.lines (dialect : Dialect) (u : Use) : List Line := u.definition.body.map (u.copy dialect)

def pushLabel (st : Expansion) (line : Line) : Option Token → Expansion
  | some label => st.push (labelLine line label)
  | none => st

/-- The use of a macro in a line, if its arguments are as many as the parameters, and the state in which
    its lines are expanded. -/
def use? (st : Expansion) (line : Line) : Option (Use × Expansion) :=
  match task st.macros line with
  | .use label m args =>
    if (Token.splitArgs args).length = m.params.length then
      some (⟨st.uses + 1, m, Token.splitArgs args, line.pos⟩,
        { pushLabel st line label with uses := st.uses + 1 })
    else none
  | _ => none

/-- The state after a line that is no use, or one that is not expanded because it is too deep or has wrong
    arguments; and how many of the lines after it belong to it. -/
def settle (s : Settings) (deep : Bool) (line : Line) (rest : List Line) (st : Expansion) :
    Expansion × Nat :=
  match task st.macros line with
  | .keep => (st.push line, 0)
  | .define label args => define s line label args rest st
  | .lonely => (st.fail line.pos (.plain .endmLonely), 0)
  | .use label m args =>
    let fault := if deep then .inMacro m.name (.plain .macroNesting)
      else .macroArgs m.name m.params.length (Token.splitArgs args).length
    ((pushLabel st line label).fail line.pos fault, 0)

theorem expandLines_cons (s : Settings) (expand : Option (List Line → Expansion → Expansion))
    (line : Line) (rest : List Line) (st : Expansion) :
    expandLines s expand 0 (line :: rest) st =
      match task st.macros line with
      | .keep => expandLines s expand 0 rest (st.push line)
      | .define label args =>
        expandLines s expand (define s line label args rest st).2 rest (define s line label args rest st).1
      | .lonely => expandLines s expand 0 rest (st.fail line.pos (.plain .endmLonely))
      | .use label m args => expandLines s expand 0 rest (invoke s expand line label m args st) := by
  rw [expandLines, task]
  split
  · rfl
  · rcases Token.splitLabel line.tokens with ⟨label, _ | ⟨head, args⟩⟩
    · rfl
    · dsimp only
      split
      · rfl
      · split
        · rfl
        · cases head.word?.bind (st.macros[·]?) <;> rfl

theorem use?_eq_some {u : Use} (h : use? st line = some (u, st₁)) :
    ∃ label m args, task st.macros line = .use label m args ∧
      (Token.splitArgs args).length = m.params.length ∧
      u = ⟨st.uses + 1, m, Token.splitArgs args, line.pos⟩ ∧
      st₁ = { pushLabel st line label with uses := st.uses + 1 } := by
  unfold use? at h
  split at h
  next label m args isUse =>
    split at h
    next fits =>
      cases h
      exact ⟨label, m, args, isUse, fits, rfl, rfl⟩
    · cases h
  · cases h

theorem expandLines_keep (s : Settings) (expand : Option (List Line → Expansion → Expansion)) {lines : List Line}
    (kept : ∀ ln ∈ lines, task st.macros ln = .keep) (rest : List Line) :
    expandLines s expand 0 (lines ++ rest) st =
      expandLines s expand 0 rest { st with lines := st.lines ++ lines.toArray } := by
  induction lines generalizing st with
  | nil => simp
  | cons ln lines ih =>
    rw [forall_mem_cons] at kept
    have next : ∀ ln' ∈ lines, task (st.push ln).macros ln' = .keep := kept.2
    rw [cons_append, expandLines_cons, kept.1]
    dsimp only
    rw [ih next]
    simp [Expansion.push]

/-- A line that starts neither with a directive of macros nor with a macro is nothing to expansion. -/
theorem task_keep (define : Token.bodyIs .define line.tokens = false) (endm : Token.bodyIs .endm line.tokens = false)
    (unknown : ∀ tok ∈ (Token.body line.tokens).head?, ∀ name ∈ tok.word?, name ∉ macros) :
    task macros line = .keep := by
  unfold task
  rw [Token.bodyIs, Token.body] at define endm
  rw [Token.body] at unknown
  split
  · rfl
  generalize Token.splitLabel line.tokens = parts at define endm unknown
  rcases parts with ⟨label, _ | ⟨head, args⟩⟩
  · rfl
  · have noMacro : head.word?.bind (macros[·]?) = none := by
      cases isWord : head.word? with
      | none => rfl
      | some word => exact Std.TreeMap.getElem?_eq_none (unknown head rfl word isWord)
    simp only [head?_cons, Option.any_some] at define endm
    simp [define, endm, noMacro]

theorem task_use (h : task macros line = .use label m args) : ∃ name : Text, macros[name]? = some m := by
  unfold task at h
  split at h
  · cases h
  split at h
  · cases h
  next head _ _ =>
    split at h
    · cases h
    split at h
    · cases h
    split at h
    next found =>
      cases h
      obtain ⟨name, -, found⟩ := Option.bind_eq_some_iff.1 found
      exact ⟨name, found⟩
    · cases h

theorem uses_pushLabel (st : Expansion) (line : Line) (label : Option Token) :
    (pushLabel st line label).uses = st.uses := by cases label <;> rfl

theorem macros_pushLabel (st : Expansion) (line : Line) (label : Option Token) :
    (pushLabel st line label).macros = st.macros := by cases label <;> rfl

theorem expandLines_use {expand : List Line → Expansion → Expansion} {u : Use} (h : use? st line = some (u, st₁))
    (rest : List Line) :
    expandLines s (some expand) 0 (line :: rest) st =
      expandLines s (some expand) 0 rest (expand (u.lines s.dialect) st₁) := by
  obtain ⟨label, m, args, isUse, fits, rfl, rfl⟩ := use?_eq_some h
  rw [expandLines_cons, isUse]
  simp only [invoke, ne_eq, fits, not_true, if_false]
  cases label <;> rfl

theorem expandLines_settle {expand : Option (List Line → Expansion → Expansion)}
    (h : expand = none ∨ use? st line = none) (rest : List Line) :
    expandLines s expand 0 (line :: rest) st =
      expandLines s expand (settle s expand.isNone line rest st).2 rest (settle s expand.isNone line rest st).1 := by
  rw [expandLines_cons, settle]
  cases isTask : task st.macros line with
  | keep | define | lonely => rfl
  | use label m args =>
    cases expand with
    | none => cases label <;> rfl
    | some expand =>
      have refused : (Token.splitArgs args).length ≠ m.params.length := by
        simpa [use?, isTask] using h
      simp only [invoke, ne_eq, refused, not_false_iff, if_true, Option.isNone_some]
      cases label <;> rfl

/-! ## Runs -/

/-- The uses that are expanded in lines, where `inner` are those in the lines of a use. -/
def usesIn (s : Settings) (depth : Nat) (inner : List Line → Expansion → List Use) :
    Nat → List Line → Expansion → List Use
  | _, [], _ => []
  | skip + 1, _ :: rest, st => usesIn s depth inner skip rest st
  | 0, line :: rest, st =>
    match use? st line with
    | some (u, st₁) =>
      u :: (inner (u.lines s.dialect) st₁ ++
        usesIn s depth inner 0 rest (expand s depth (u.lines s.dialect) st₁))
    | none =>
      let (st, size) := settle s false line rest st
      usesIn s depth inner size rest st

def uses (s : Settings) : Nat → List Line → Expansion → List Use
  | 0, _, _ => []
  | depth + 1, lines, st => usesIn s depth (uses s depth) 0 lines st

/-- Expansion of lines, to a depth, from a state with uses to a state. -/
inductive Runs (s : Settings) : Nat → List Line → Expansion → List Use → Expansion → Prop
  | done (depth : Nat) (st : Expansion) : Runs s depth [] st [] st
  | line {depth : Nat} {line : Line} {rest : List Line} {st st₁ st₂ : Expansion} {size : Nat}
      {us : List Use} (noUse : depth = 0 ∨ use? st line = none)
      (settled : settle s (depth = 0) line rest st = (st₁, size))
      (behind : Runs s depth (rest.drop size) st₁ us st₂) : Runs s depth (line :: rest) st us st₂
  | use {depth : Nat} {line : Line} {rest : List Line} {st st₁ st₂ st₃ : Expansion} {u : Use}
      {us us' : List Use} (isUse : use? st line = some (u, st₁))
      (inside : Runs s depth (u.lines s.dialect) st₁ us st₂)
      (behind : Runs s (depth + 1) rest st₂ us' st₃) :
      Runs s (depth + 1) (line :: rest) st (u :: (us ++ us')) st₃

theorem runs_expand (s : Settings) (depth : Nat) (lines : List Line) (st : Expansion) :
    Runs s depth lines st (uses s depth lines st) (expand s depth lines st) := by
  induction depth generalizing lines st with
  | zero =>
    suffices ∀ skip, Runs s 0 (lines.drop skip) st [] (expandLines s none skip lines st) from this 0
    intro skip
    induction lines generalizing skip st with
    | nil => simpa [expandLines] using Runs.done 0 st
    | cons line rest ih =>
      cases skip with
      | succ skip => exact ih st skip
      | zero =>
        rw [expandLines_settle (.inl rfl)]
        exact .line (.inl rfl) rfl (ih _ _)
  | succ depth inner =>
    suffices ∀ skip, Runs s (depth + 1) (lines.drop skip) st (usesIn s depth (uses s depth) skip lines st)
      (expandLines s (some (expand s depth)) skip lines st) from this 0
    intro skip
    induction lines generalizing skip st with
    | nil => simpa [expandLines, usesIn] using Runs.done (depth + 1) st
    | cons line rest ih =>
      cases skip with
      | succ skip => exact ih st skip
      | zero =>
        rw [usesIn]
        cases isUse : use? st line with
        | none =>
          rw [expandLines_settle (.inr isUse)]
          exact .line (.inr isUse) rfl (ih _ _)
        | some entered =>
          rw [expandLines_use isUse]
          exact .use isUse (inner _ _) (ih _ 0)

/-! ### What a line leaves as it is -/

theorem bodyLines_initial (nest : Nat) (lines : List Line) : (bodyLines nest lines).1 <+: lines := by
  fun_induction bodyLines nest lines with
  | case1 | case2 => exact nil_prefix
  | case3 line rest _ nest body closed taken ih | case4 nest line rest _ body closed taken ih =>
    rw [taken] at ih
    exact (prefix_cons_inj line).2 ih

def failAll (st : Expansion) (pos : Pos) (faults : List Fault) : Expansion :=
  { st with diagnostics := st.diagnostics ++ (faults.map (.of .error pos 1 ·)).toArray }

@[simp] theorem macros_failAll (st : Expansion) (pos : Pos) (faults : List Fault) :
    (failAll st pos faults).macros = st.macros := rfl

def recorded? (label : Option Token) (args : List Token) (body : List Line) : Option Macro :=
  (heading label args).1.map fun name =>
    { name, params := (Token.splitArgs (heading label args).2.1).filterMap Token.singleWord?, body }

/-- What is wrong with a definition, which is closed or not, beside a name that is taken. -/
def definitionFaults (dialect : Dialect) (label : Option Token) (args : List Token) (closed : Bool) :
    List Fault :=
  let (name, args, wordForm) := heading label args
  let groups := Token.splitArgs args
  let compass := wordForm || (groups.filterMap Token.singleWord?).any (·.head? == some '@'.toUInt8)
  (if closed then [] else [.inMacro (name.getD []) (.plain .macroLonely)]) ++
    (headingFault? dialect name groups compass).toList

/-- A definition reports what is wrong with it, and is recorded unless it has no name or its name is
    taken. -/
theorem define_eq (s : Settings) (line : Line) (label : Option Token) (args : List Token)
    (after : List Line) (st : Expansion) :
    define s line label args after st =
      (let reported := failAll st line.pos (definitionFaults s.dialect label args (bodyLines 0 after).2)
       match recorded? label args (bodyLines 0 after).1 with
       | none => reported
       | some m =>
         if st.macros.contains m.name then reported.fail line.pos (.inMacro m.name (.plain .macroDuplicate))
         else { reported with macros := st.macros.insert m.name m },
       (bodyLines 0 after).1.length + 1) := by
  have reported (closed : Bool) (fault : Fault) (fault? : Option Fault) :
      (if closed then st else st.fail line.pos fault).failWith line.pos fault? =
        failAll st line.pos ((if closed then [] else [fault]) ++ fault?.toList) := by
    cases closed <;> cases fault? <;>
      simp [failAll, Expansion.failWith, Expansion.fail, ← Array.toList_inj]
  unfold define recorded? definitionFaults
  rcases heading label args with ⟨_ | name, args, wordForm⟩
  · simp only [reported]
    rfl
  · simp only [reported, macros_failAll, Option.map_some]
    split <;> rfl

theorem define_macros (s : Settings) (line : Line) (label : Option Token) (args : List Token)
    (after : List Line) (st : Expansion) :
    (define s line label args after st).1.uses = st.uses ∧
      ((define s line label args after st).1.macros = st.macros ∨
        ∃ m, m.name ∉ st.macros ∧ m.body = (bodyLines 0 after).1 ∧
          (define s line label args after st).1.macros = st.macros.insert m.name m) := by
  rw [define_eq]
  cases isMacro : recorded? label args (bodyLines 0 after).1 with
  | none => exact ⟨rfl, .inl rfl⟩
  | some m =>
    dsimp only
    split
    · exact ⟨rfl, .inl rfl⟩
    next new =>
      obtain ⟨name, -, rfl⟩ := Option.map_eq_some_iff.1 isMacro
      rw [Std.TreeMap.contains_iff_mem] at new
      exact ⟨rfl, .inr ⟨_, new, rfl, rfl⟩⟩

theorem settle_macros {deep : Bool} {size : Nat} (h : settle s deep line rest st = (st₁, size)) :
    st₁.uses = st.uses ∧ (st₁.macros = st.macros ∨
      ∃ m, m.name ∉ st.macros ∧ m.body = (bodyLines 0 rest).1 ∧ st₁.macros = st.macros.insert m.name m) := by
  unfold settle at h
  split at h
  · cases h
    exact ⟨rfl, .inl rfl⟩
  next label args _ =>
    have recorded := define_macros s line label args rest st
    rw [h] at recorded
    exact recorded
  · cases h
    exact ⟨rfl, .inl rfl⟩
  next label m args _ =>
    cases h
    exact ⟨uses_pushLabel st line label, .inl (macros_pushLabel st line label)⟩

def StandsIn (m : Macro) (pieces : List Line → Prop) : Prop := ∃ piece, pieces piece ∧ m.body <:+: piece

namespace Runs
variable {depth : Nat} {lines : List Line} {st' : Expansion} {us : List Use}

theorem numbers (h : Runs s depth lines st us st') :
    us.map (·.number) = range' (st.uses + 1) us.length ∧ st'.uses = st.uses + us.length := by
  induction h with
  | done => exact ⟨rfl, rfl⟩
  | line _ settled _ ih => exact (settle_macros settled).1 ▸ ih
  | @use depth line rest st st₁ st₂ st₃ u us us' isUse _ _ inside behind =>
    obtain ⟨label, m, args, _, _, rfl, rfl⟩ := use?_eq_some isUse
    refine ⟨?_, ?_⟩
    · have next : st₂.uses + 1 = st.uses + 1 + 1 + us.length := by
        rw [inside.2]
        dsimp only
        omega
      rw [map_cons, map_append, inside.1, behind.1, next, range'_append_1, length_cons, length_append, range'_succ]
    · rw [behind.2, inside.2, length_cons, length_append]
      dsimp only
      omega

theorem macros_subset (h : Runs s depth lines st us st') (known : st.macros[name]? = some m) :
    st'.macros[name]? = some m := by
  induction h with
  | done => exact known
  | line _ settled _ ih =>
    refine ih ?_
    rcases (settle_macros settled).2 with same | ⟨m', new, -, recorded⟩
    · rw [same, known]
    · have apart : m'.name ≠ name := by
        rintro rfl
        rw [Std.TreeMap.getElem?_eq_none new] at known
        cases known
      rw [recorded, Std.TreeMap.getElem?_insert]
      simpa [apart] using known
  | use isUse _ _ inside behind =>
    obtain ⟨label, m, args, _, _, rfl, rfl⟩ := use?_eq_some isUse
    rw [← macros_pushLabel _ _ label] at known
    exact behind (inside known)

end Runs

/-! ### What expansions keep -/

theorem task_use_split (h : task macros line = .use label m args) :
    ∃ head, Token.splitLabel line.tokens = (label, head :: args) := by
  unfold task at h
  split at h
  · cases h
  split at h
  · cases h
  next label' head args' split' =>
    split at h
    · cases h
    split at h
    · cases h
    split at h
    · cases h
      exact ⟨head, split'⟩
    · cases h

theorem define_lines (s : Settings) (line : Line) (label : Option Token) (args : List Token)
    (after : List Line) (st : Expansion) : (define s line label args after st).1.lines = st.lines := by
  rw [define_eq]
  cases recorded? label args (bodyLines 0 after).1 with
  | none => rfl
  | some m =>
    dsimp only
    split <;> rfl

theorem define_recorded {after : List Line} (found : (define s line label args after st).1.macros[name]? = some m) :
    st.macros[name]? = some m ∨ recorded? label args (bodyLines 0 after).1 = some m := by
  rw [define_eq] at found
  cases isMacro : recorded? label args (bodyLines 0 after).1 with
  | none =>
    rw [isMacro] at found
    exact .inl found
  | some m' =>
    rw [isMacro] at found
    dsimp only at found
    split at found
    · exact .inl found
    · rw [Std.TreeMap.getElem?_insert] at found
      split at found
      · exact .inr found
      · exact .inl found

theorem recorded?_initial (h : m ∈ recorded? label args (bodyLines 0 rest).1) : m.body <+: rest := by
  obtain ⟨name, -, rfl⟩ := Option.map_eq_some_iff.1 h
  exact bodyLines_initial 0 rest

theorem recorded?_name {body : List Line} (h : m ∈ recorded? label args body) : m.name ∈ (heading label args).1 := by
  obtain ⟨name, isName, rfl⟩ := Option.map_eq_some_iff.1 h
  exact isName

end Macro

/-- `Q` holds of the macros of a state, and `R` of its lines. -/
structure Expansion.Holds (Q : Macro → Prop) (R : Line → Prop) (st : Expansion) : Prop where
  macros : ∀ (name : Text) (m : Macro), st.macros[name]? = some m → Q m
  lines : ∀ ln ∈ st.lines.toList, R ln

theorem Expansion.Holds.empty : Expansion.Holds Q R {} := ⟨by simp, by simp⟩

theorem Expansion.Holds.push (h : st.Holds Q R) {ln : Line} (here : R ln) : (st.push ln).Holds Q R := by
  refine ⟨h.macros, ?_⟩
  rw [Expansion.push, Array.toList_push, forall_mem_append, forall_mem_singleton]
  exact ⟨h.lines, here⟩

namespace Macro

/-- What holds of lines and of those behind them (`L`) holds of the lines of uses in them, if `Q` holds of the macros;
    it makes `Q` hold of what is defined there, and `R` of what comes out. -/
structure Keeps (s : Settings) (us : List Use) (L : List Line → Prop) (Q : Macro → Prop) (R : Line → Prop) : Prop where
  behind : ∀ {ln rest} n, L (ln :: rest) → L (rest.drop n)
  define : ∀ {macros ln rest label args}, L (ln :: rest) → task macros ln = .define label args →
    ∀ m ∈ recorded? label args (bodyLines 0 rest).1, Q m
  line : ∀ {ln rest}, L (ln :: rest) → R ln
  label : ∀ {ln rest label}, L (ln :: rest) → (Token.splitLabel ln.tokens).1 = some label → R (labelLine ln label)
  use : ∀ u ∈ us, ∀ {st ln rest st₁}, use? st ln = some (u, st₁) → L (ln :: rest) → Q u.definition →
    L (u.lines s.dialect)

namespace Keeps
variable {us : List Use} {L : List Line → Prop} {ln : Line}

theorem mono (k : Keeps s us L Q R) {fewer : List Use} (subset : fewer ⊆ us) : Keeps s fewer L Q R :=
  { k with use := fun u mem => k.use u (subset mem) }

theorem pushLabel (k : Keeps s us L Q R) (here : L (ln :: rest)) (h : st.Holds Q R)
    (isTask : task st.macros ln = .use label m args) : (pushLabel st ln label).Holds Q R := by
  cases label with
  | none => exact h
  | some label =>
    obtain ⟨head, split⟩ := task_use_split isTask
    exact h.push (k.label here (congrArg Prod.fst split))

theorem settle (k : Keeps s us L Q R) (here : L (ln :: rest)) (h : st.Holds Q R) (deep : Bool) :
    (settle s deep ln rest st).1.Holds Q R := by
  unfold Macro.settle
  cases isTask : task st.macros ln with
  | keep => exact h.push (k.line here)
  | lonely => exact ⟨h.macros, h.lines⟩
  | use label m args =>
    have labelled := k.pushLabel here h isTask
    exact ⟨labelled.macros, labelled.lines⟩
  | define label args =>
    refine ⟨fun name m found => ?_, by rw [define_lines]; exact h.lines⟩
    exact (define_recorded found).elim (h.macros name m) (k.define here isTask m)

end Keeps

/-- **What lines and macros keep holds of all uses**, of all macros and of all lines that come out. -/
theorem Runs.keeps {depth : Nat} {lines : List Line} {st' : Expansion} {us : List Use} {L : List Line → Prop}
    (run : Runs s depth lines st us st') (k : Keeps s us L Q R) (source : L lines) (h : st.Holds Q R) :
    (∀ u ∈ us, Q u.definition) ∧ st'.Holds Q R := by
  induction run with
  | done => exact ⟨by simp, h⟩
  | @line depth ln rest st st₁ st₂ size us _ settled _ ih =>
    have next := k.settle source h (depth = 0)
    rw [settled] at next
    exact ih k (k.behind size source) next
  | @use depth ln rest st st₁ st₂ st₃ u us us' isUse _ _ insideIH behindIH =>
    have inUses := k.use u mem_cons_self isUse source
    obtain ⟨label, m, args, isTask, _, rfl, rfl⟩ := use?_eq_some isUse
    obtain ⟨name, found⟩ := task_use isTask
    have known : Q m := h.macros name m found
    have labelled := k.pushLabel source h isTask
    obtain ⟨inside, between⟩ := insideIH (k.mono (by simp)) (inUses known) ⟨labelled.macros, labelled.lines⟩
    obtain ⟨behind, ends⟩ := behindIH (k.mono (by simp)) (by simpa using k.behind 0 source) between
    rw [forall_mem_cons, forall_mem_append]
    exact ⟨⟨known, inside, behind⟩, ends⟩

end Macro

end Z80Asm
