import Z80Asm.Proofs.Expansion
import Z80Asm.Proofs.PlacedLines

/-!
# Lines in place of lines

Some lines of a source are taken out, and other lines are put in their place.  As long as all of these are
instructions, macros are defined and used as before, and in the bodies of macros and the lines of uses too
the one kind of lines stands in place of the other.
-/

namespace Z80Asm

open Std.TreeMap

variable {lines lns : List Line} {st₂ : Expansion} {us : List Use} {depth : Nat} {ln ln' : Line} {u u' : Use}

/-- A line that is only passed on, because its body starts with a mnemonic, and with no macro that is
    `known`. -/
structure Line.Inert (known : Text → Prop) (ln : Line) : Prop where
  fault : ln.fault = none
  script : ln.script = none
  head : ∃ tok ∈ (Token.body ln.tokens).head?, ∃ text m, tok.lexeme = .word text (.mnemonic m) ∧ ¬known text

/-- Lines in place of others.  A line is kept, though moved, or lines stand in its place that `P` allows. -/
inductive Pieces (P : Line → List Line → Prop) : List Line → List Line → Prop
  | nil : Pieces P [] []
  | keep {ln ln' : Line} (moved : ln.Moved ln') {rest rest' : List Line} (others : Pieces P rest rest') :
      Pieces P (ln :: rest) (ln' :: rest')
  | replace {ln : Line} {lns : List Line} (h : P ln lns) {rest rest' : List Line}
      (others : Pieces P rest rest') : Pieces P (ln :: rest) (lns ++ rest')

/-- The lines that are replaced, and those in their place, are only passed on. -/
def AllInert (known : Text → Prop) (P : Line → List Line → Prop) : Prop :=
  ∀ ⦃ln lns⦄, P ln lns → ln.Inert known ∧ ∀ ln' ∈ lns, ln'.Inert known

theorem Pieces.append {P : Line → List Line → Prop} {as as' bs bs' : List Line} (first : Pieces P as as')
    (second : Pieces P bs bs') : Pieces P (as ++ bs) (as' ++ bs') := by
  induction first with
  | nil => exact second
  | keep moved _ ih => exact .keep moved ih
  | replace h _ ih =>
    rw [List.append_assoc]
    exact .replace h ih

theorem Line.Inert.bodyIs {known : Text → Prop} (h : ln.Inert known) (d : Directive) :
    Token.bodyIs d ln.tokens = false := by
  obtain ⟨tok, isHead, text, m, lexeme, -⟩ := h.head
  rw [Token.bodyIs, Option.mem_def.1 isHead]
  simp [Token.isDirective, lexeme]

/-- A macro with the same name and parameters, and with lines in place of lines of its body. -/
structure Macro.Alike (P : Line → List Line → Prop) (m m' : Macro) : Prop where
  name : m'.name = m.name
  params : m'.params = m.params
  body : Pieces P m.body m'.body

structure Expansion.Alike (P : Line → List Line → Prop) (st st' : Expansion) : Prop where
  macros : ∀ name : Text, Option.Rel (Macro.Alike P) st.macros[name]? st'.macros[name]?
  uses : st'.uses = st.uses
  lines : Pieces P st.lines.toList st'.lines.toList
  diagnostics : Diagnostics.severities st'.diagnostics.toList = Diagnostics.severities st.diagnostics.toList

namespace Expansion.Alike
variable {P : Line → List Line → Prop} {st st' : Expansion}

section
variable (h : st.Alike P st')
include h

theorem push (moved : ln.Moved ln') : (st.push ln).Alike P (st'.push ln') :=
  { h with
    lines := by simpa [Expansion.push] using h.lines.append (.keep moved .nil) }

theorem pushAll (replaced : P ln lns) : (st.push ln).Alike P { st' with lines := st'.lines ++ lns.toArray } :=
  { h with
    lines := by simpa [Expansion.push] using h.lines.append (.replace replaced .nil) }

theorem fail (pos pos' : Pos) (fault fault' : Fault) : (st.fail pos fault).Alike P (st'.fail pos' fault') :=
  { h with
    diagnostics := by simpa [Expansion.fail, Diagnostics.severities, Diagnostic.of] using h.diagnostics }

theorem failAll (pos pos' : Pos) (faults : List Fault) :
    (Macro.failAll st pos faults).Alike P (Macro.failAll st' pos' faults) :=
  { h with
    diagnostics := by
      simpa [Macro.failAll, Diagnostics.severities, Diagnostic.of, Function.comp_def] using h.diagnostics }

theorem pushLabel (moved : ln.Moved ln') (label : Option Token) :
    (Macro.pushLabel st ln label).Alike P (Macro.pushLabel st' ln' label) := by
  cases label with
  | none => exact h
  | some label => exact h.push ⟨moved.file, rfl, rfl, rfl⟩

theorem insert {m m' : Macro} (alike : m.Alike P m') :
    Expansion.Alike P { st with macros := st.macros.insert m.name m }
      { st' with macros := st'.macros.insert m'.name m' } :=
  { h with
    macros := fun name => by
      simp only [getElem?_insert, alike.name]
      split
      · exact .some alike
      · exact h.macros name }

theorem contains (name : Text) : st'.macros.contains name = st.macros.contains name := by
  have same := h.macros name
  rw [contains_eq_isSome_getElem?, contains_eq_isSome_getElem?]
  generalize st.macros[name]? = x, st'.macros[name]? = y at same
  cases same <;> rfl

end

end Expansion.Alike

namespace Macro
variable {P : Line → List Line → Prop} {known : Text → Prop} {s : Settings} {st st' : Expansion}
  {rest rest' : List Line}

/-! ## Definitions -/

theorem bodyLines_cons (nest : Nat) (ln : Line) (rest : List Line) :
    bodyLines nest (ln :: rest) =
      if Token.bodyIs .endm ln.tokens then
        match nest with
        | 0 => ([], true)
        | nest + 1 => (ln :: (bodyLines nest rest).1, (bodyLines nest rest).2)
      else
        let inner := bodyLines (if Token.bodyIs .define ln.tokens then nest + 1 else nest) rest
        (ln :: inner.1, inner.2) := by
  cases nest <;> rfl

theorem bodyLines_inert (inert : ∀ ln ∈ lns, ln.Inert known) (nest : Nat) (rest : List Line) :
    bodyLines nest (lns ++ rest) = (lns ++ (bodyLines nest rest).1, (bodyLines nest rest).2) := by
  induction lns with
  | nil => rfl
  | cons ln lns ih =>
    rw [List.forall_mem_cons] at inert
    rw [List.cons_append, bodyLines_cons, inert.1.bodyIs, inert.1.bodyIs]
    simp [ih inert.2]

theorem bodyLines_pieces (inert : AllInert known P) (h : Pieces P rest rest') (nest : Nat) :
    Pieces P (bodyLines nest rest).1 (bodyLines nest rest').1 ∧
      (bodyLines nest rest').2 = (bodyLines nest rest).2 ∧
      Pieces P (rest.drop ((bodyLines nest rest).1.length + 1)) (rest'.drop ((bodyLines nest rest').1.length + 1)) := by
  induction h generalizing nest with
  | nil => exact ⟨.nil, rfl, .nil⟩
  | @keep ln ln' moved rest rest' others ih =>
    rw [bodyLines_cons, bodyLines_cons, moved.tokens]
    split
    · cases nest with
      | zero => exact ⟨.nil, rfl, others⟩
      | succ nest =>
        obtain ⟨body, closed, after⟩ := ih nest
        exact ⟨.keep moved body, closed, after⟩
    · obtain ⟨body, closed, after⟩ := ih (if Token.bodyIs .define ln.tokens then nest + 1 else nest)
      exact ⟨.keep moved body, closed, after⟩
  | @replace ln lns h rest rest' others ih =>
    have ⟨inert₁, inert₂⟩ := inert h
    obtain ⟨body, closed, after⟩ := ih nest
    have one : bodyLines nest (ln :: rest) = (ln :: (bodyLines nest rest).1, (bodyLines nest rest).2) :=
      bodyLines_inert (List.forall_mem_singleton.2 inert₁) nest rest
    rw [one, bodyLines_inert inert₂]
    refine ⟨.replace h body, closed, ?_⟩
    rw [List.length_append, Nat.add_assoc, List.drop_length_add_append, List.length_cons, List.drop_succ_cons]
    exact after

/-! ## What a line does -/

/-- The same task, with a macro in place of another. -/
inductive Task.Alike (P : Line → List Line → Prop) : Task → Task → Prop
  | keep : Alike P .keep .keep
  | define (label : Option Token) (args : List Token) : Alike P (.define label args) (.define label args)
  | lonely : Alike P .lonely .lonely
  | use (label : Option Token) {m m' : Macro} (alike : m.Alike P m') (args : List Token) :
      Alike P (.use label m args) (.use label m' args)

theorem task_alike (alike : st.Alike P st') (moved : ln.Moved ln') :
    Task.Alike P (task st.macros ln) (task st'.macros ln') := by
  unfold task
  rw [moved.fault, moved.script, moved.tokens]
  split
  · exact .keep
  rcases Token.splitLabel ln.tokens with ⟨label, _ | ⟨head, args⟩⟩
  · exact .keep
  dsimp only
  split
  · exact .define label args
  split
  · exact .lonely
  cases head.word? with
  | none => exact .keep
  | some word =>
    have same := alike.macros word
    rw [Option.bind_some, Option.bind_some]
    generalize st.macros[word]? = x, st'.macros[word]? = y at same
    cases same with
    | none => exact .keep
    | some alike => exact .use label alike args

theorem task_inert {macros : Std.TreeMap Text Macro} (inert : ln.Inert known)
    (names : ∀ name ∈ macros, known name) : task macros ln = .keep := by
  refine task_keep (inert.bodyIs _) (inert.bodyIs _) fun tok isHead name isWord mem => ?_
  obtain ⟨tok', isHead', text, m, lexeme, unknown⟩ := inert.head
  obtain rfl : tok' = tok := Option.mem_unique isHead' isHead
  obtain rfl : text = name := by simpa [Token.word?, lexeme] using isWord
  exact unknown (names text mem)

/-- The same use, of a macro in place of another. -/
structure Use.Alike (P : Line → List Line → Prop) (u u' : Use) : Prop where
  number : u'.number = u.number
  definition : u.definition.Alike P u'.definition
  args : u'.args = u.args
  file : u'.pos.file = u.pos.file

theorem use?_alike (alike : st.Alike P st') (moved : ln.Moved ln') :
    Option.Rel (fun x x' => x.1.Alike P x'.1 ∧ x.2.Alike P x'.2) (use? st ln) (use? st' ln') := by
  have same := task_alike alike moved
  unfold use?
  generalize task st.macros ln = x, task st'.macros ln' = y at same
  cases same with
  | keep | define | lonely => exact .none
  | use label macros args =>
    dsimp only
    rw [macros.params]
    split
    · have labelled := alike.pushLabel moved label
      refine .some ⟨⟨by rw [alike.uses], macros, rfl, moved.file⟩, ?_⟩
      exact { labelled with uses := by rw [alike.uses] }
    · exact .none

/-- A line that is no use does the same, and as many lines belong to it, if lines after it are
    replaced. -/
theorem settle_alike (inert : AllInert known P) (alike : st.Alike P st') (moved : ln.Moved ln')
    (after : Pieces P rest rest') (deep : Bool) :
    (settle s deep ln rest st).1.Alike P (settle s deep ln' rest' st').1 ∧
      Pieces P (rest.drop (settle s deep ln rest st).2) (rest'.drop (settle s deep ln' rest' st').2) := by
  have same := task_alike alike moved
  unfold settle
  generalize task st.macros ln = x, task st'.macros ln' = y at same
  cases same with
  | keep => exact ⟨alike.push moved, after⟩
  | lonely => exact ⟨alike.fail .., after⟩
  | use label macros args => exact ⟨(alike.pushLabel moved label).fail .., after⟩
  | define label args =>
    obtain ⟨body, closed, behind⟩ := bodyLines_pieces inert after 0
    dsimp only
    rw [define_eq, define_eq, closed]
    refine ⟨?_, behind⟩
    dsimp only
    have reported := alike.failAll ln.pos ln'.pos (definitionFaults s.dialect label args (bodyLines 0 rest).2)
    unfold recorded?
    cases (heading label args).1 with
    | none => exact reported
    | some name =>
      rw [Option.map_some, Option.map_some]
      dsimp only
      rw [alike.contains]
      split
      · exact reported.fail ..
      · have recorded : Macro.Alike P
            ⟨name, (Token.splitArgs (heading label args).2.1).filterMap Token.singleWord?, (bodyLines 0 rest).1⟩
            ⟨name, (Token.splitArgs (heading label args).2.1).filterMap Token.singleWord?,
              (bodyLines 0 rest').1⟩ := ⟨rfl, rfl, body⟩
        exact reported.insert recorded

/-! ## Runs -/

/-- A use makes lines that stand in place of the copy of a line, from lines that stand in its place. -/
def Use.Carries (dialect : Dialect) (P : Line → List Line → Prop) (u : Use) : Prop :=
  ∀ ⦃u' : Use⦄, u.Alike P u' → ∀ ln ∈ u.definition.body, ∀ lns, P ln lns →
    P (u.copy dialect ln) (lns.map (u'.copy dialect))

theorem copy_moved (alike : u.Alike P u') (dialect : Dialect) (moved : ln.Moved ln') :
    (u.copy dialect ln).Moved (u'.copy dialect ln') where
  file := alike.file
  tokens := by
    simp only [Use.copy, substituteLine, moved.tokens, alike.number, alike.definition.name,
      alike.definition.params, alike.args]
  fault := moved.fault
  script := moved.script

theorem lines_pieces (alike : u.Alike P u') {dialect : Dialect} (carries : u.Carries dialect P) :
    Pieces P (u.lines dialect) (u'.lines dialect) := by
  have carries := carries alike
  have pieces := alike.definition.body
  unfold Use.lines
  generalize u.definition.body = body, u'.definition.body = body' at carries pieces
  induction pieces with
  | nil => exact .nil
  | keep moved _ ih =>
    exact .keep (copy_moved alike dialect moved) (ih fun ln mem => carries ln (List.mem_cons_of_mem _ mem))
  | replace h _ ih =>
    rw [List.map_append]
    exact .replace (carries _ List.mem_cons_self _ h) (ih fun ln mem => carries ln (List.mem_cons_of_mem _ mem))

theorem Runs.names_subset (h : Runs s depth lines st us st₂) (names : ∀ name ∈ st₂.macros, known name) :
    ∀ name ∈ st.macros, known name := by
  intro name mem
  have found := h.macros_subset (getElem?_eq_some_getElem mem)
  exact names name (mem_iff_isSome_getElem?.2 (by rw [found]; rfl))

theorem Runs.inert (inert : ∀ ln ∈ lns, ln.Inert known) (names : ∀ name ∈ st.macros, known name)
    (h : Runs s depth rest { st with lines := st.lines ++ lns.toArray } us st₂) :
    Runs s depth (lns ++ rest) st us st₂ := by
  induction lns generalizing st with
  | nil => simpa using h
  | cons ln lns ih =>
    rw [List.forall_mem_cons] at inert
    have task := task_inert inert.1 names
    have noUse : use? st ln = none := by rw [use?, task]
    have settled : settle s (depth = 0) ln (lns ++ rest) st = (st.push ln, 0) := by rw [settle, task]
    refine .line (.inr noUse) settled (ih inert.2 names ?_)
    simpa [Expansion.push] using h

/-- **An expansion runs alike if lines are replaced by lines that are only passed on.** -/
theorem Runs.pieces {lines lines' : List Line}
    (h : Runs s depth lines st us st₂) (inert : AllInert known P) (carries : ∀ u ∈ us, u.Carries s.dialect P)
    (names : ∀ name ∈ st₂.macros, known name) (pieces : Pieces P lines lines') (alike : st.Alike P st') :
    ∃ us' st₂', Runs s depth lines' st' us' st₂' ∧ st₂.Alike P st₂' := by
  induction h generalizing lines' st' with
  | done depth st =>
    cases pieces
    exact ⟨[], st', .done depth st', alike⟩
  | @line depth ln rest st st₁ st₂ size us noUse settled behind ih =>
    cases pieces with
    | @keep _ ln' moved _ rest' others =>
      obtain ⟨alike₁, after⟩ := settle_alike (s := s) inert alike moved others (depth = 0)
      rw [settled] at alike₁ after
      obtain ⟨us', st₂', run, alike₂⟩ := ih carries names after alike₁
      refine ⟨us', st₂', .line ?_ rfl run, alike₂⟩
      refine noUse.imp_right fun noUse => ?_
      have same := use?_alike alike moved
      rw [noUse] at same
      generalize use? st' ln' = x at same
      cases same
      rfl
    | @replace _ lns h _ rest' others =>
      have ⟨inert₁, inert₂⟩ := inert h
      have names₀ := (Runs.line noUse settled behind).names_subset names
      have settled' : settle s (depth = 0) ln rest st = (st.push ln, 0) := by
        rw [settle, task_inert inert₁ names₀]
      rw [settled'] at settled
      cases settled
      obtain ⟨us', st₂', run, alike₂⟩ := ih carries names others (alike.pushAll h)
      refine ⟨us', st₂', .inert inert₂ (fun name mem => names₀ name ?_) run, alike₂⟩
      rw [← contains_iff_mem, ← alike.contains, contains_iff_mem]
      exact mem
  | @use depth ln rest st st₁ st₂ st₃ u us us' isUse inside behind inside_ih behind_ih =>
    rw [List.forall_mem_cons, List.forall_mem_append] at carries
    have names₂ := behind.names_subset names
    cases pieces with
    | @keep _ ln' moved _ rest' others =>
      have same := use?_alike alike moved
      rw [isUse] at same
      generalize isUse' : use? st' ln' = x at same
      cases same with
      | @some _ entered same =>
        obtain ⟨us₁, st₂', inner, alike₂⟩ := inside_ih carries.2.1 names₂ (lines_pieces same.1 carries.1) same.2
        obtain ⟨us₂, st₃', outer, alike₃⟩ := behind_ih carries.2.2 names others alike₂
        exact ⟨_, st₃', .use isUse' inner outer, alike₃⟩
    | replace h others =>
      have task := task_inert (inert h).1 ((Runs.use isUse inside behind).names_subset names)
      rw [use?, task] at isUse
      cases isUse

theorem expandLines_drop (expand : Option (List Line → Expansion → Expansion)) (skip : Nat) (lines : List Line)
    (st : Expansion) : expandLines s expand skip lines st = expandLines s expand 0 (lines.drop skip) st := by
  induction lines generalizing skip with
  | nil => simp [expandLines]
  | cons ln rest ih =>
    cases skip with
    | zero => rfl
    | succ skip => exact ih skip

theorem Runs.expand_eq (h : Runs s depth lines st us st₂) : expand s depth lines st = st₂ := by
  induction h with
  | done depth st => cases depth <;> rfl
  | @line depth ln rest st st₁ st₂ size us noUse settled _ ih =>
    cases depth with
    | zero =>
      rw [expand, expandLines_settle (.inl rfl), Option.isNone_none, expandLines_drop]
      rw [decide_eq_true rfl] at settled
      rw [settled]
      exact ih
    | succ depth =>
      rw [expand, expandLines_settle (noUse.imp_left nofun), Option.isNone_some, expandLines_drop]
      rw [decide_eq_false (Nat.succ_ne_zero depth)] at settled
      rw [settled]
      exact ih
  | use isUse _ _ inside behind =>
    rw [expand, expandLines_use isUse, inside]
    exact behind

theorem Runs.reading (h : Runs s depth lines st us st₂) (read : Text → Except Fault Text) :
    Runs (s.reading read) depth lines st us st₂ := by
  induction h with
  | done depth st => exact .done depth st
  | line noUse settled _ ih => exact .line noUse settled ih
  | use isUse _ _ inside behind => exact .use isUse inside behind

/-- **Expansion of lines in place of others.** -/
theorem expand_pieces {lines lines' : List Line} (read : Text → Except Fault Text)
    (inert : AllInert known P) (carries : ∀ u ∈ uses s depth lines st, u.Carries s.dialect P)
    (names : ∀ name ∈ (expand s depth lines st).macros, known name) (pieces : Pieces P lines lines')
    (alike : st.Alike P st') :
    (expand s depth lines st).Alike P (expand (s.reading read) depth lines' st') := by
  obtain ⟨us', st₂', run, alike₂⟩ := (runs_expand s depth lines st).pieces inert carries names pieces alike
  rw [(run.reading read).expand_eq]
  exact alike₂

end Macro

end Z80Asm
