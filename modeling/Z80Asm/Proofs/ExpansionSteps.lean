import Mathlib.Logic.Relation
import Z80Asm.Proofs.LocalNames
import Z80Asm.Proofs.Reports

/-!
# Expansion step by step

Expansion as a machine: it takes the next line of the innermost use, with the uses around it on a stack, or goes back to
what stands behind a use.  Whatever macros do to each other, the machine comes to an end, and its last state is what
expansion gives.  What a step puts out and reports is said once, and what a whole expansion does follows by induction
over its steps.
-/

namespace Z80Asm

open Expansion List

variable {lines source : List Line} {line ln : Line} {s : Settings} {around : List (Use × List Line)}

/-- A use inside too many others has been reported. -/
def Expansion.TooDeep (st : Expansion) : Prop :=
  ∃ d ∈ st.diagnostics.toList, ∃ fault ∈ d.fault, fault.cause? = some .macroNesting

namespace Macro

/-- What a line puts out by itself: the line, or the label of a use in it. -/
def out? (macros : Std.TreeMap Text Macro) (line : Line) : Option Line :=
  match task macros line with
  | .keep => some line
  | .use label _ _ => label.map (labelLine line)
  | _ => none

def IsUse (macros : Std.TreeMap Text Macro) (line : Line) : Prop :=
  ∃ label m args, task macros line = .use label m args

/-- A line that expansion leaves to others, or that starts with none of the words that it acts on. -/
def IsPlain (macros : Std.TreeMap Text Macro) (line : Line) : Prop :=
  line.fault = none → line.script = none →
    Token.bodyIs .define line.tokens = false ∧ Token.bodyIs .endm line.tokens = false ∧
      ∀ head ∈ (Token.body line.tokens).head?, ∀ name ∈ head.word?, name ∉ macros

/-- What is left to expand: lines of the innermost use, and the uses around them, innermost first, each with the lines
    behind it. -/
structure Config where
  lines : List Line
  around : List (Use × List Line)
  state : Expansion

/-- The lines are the last ones of the source or of the innermost use of a chain, in which each use is that of a line of
    the next one, or of the source. -/
inductive Nested (s : Settings) (source : List Line) : List (Use × List Line) → List Line → Prop
  | source {lines : List Line} (last : lines <:+ source) : Nested s source [] lines
  | use {st st₁ : Expansion} {line : Line} {u : Use} {behind lines : List Line} {around : List (Use × List Line)}
      (outside : Nested s source around (line :: behind)) (isUse : use? st line = some (u, st₁))
      (last : lines <:+ u.lines s.dialect) : Nested s source ((u, behind) :: around) lines

theorem Nested.drop (h : Nested s source around lines) (n : Nat) : Nested s source around (lines.drop n) := by
  cases h with
  | source last => exact .source ((drop_suffix n _).trans last)
  | use outside isUse last => exact .use outside isUse ((drop_suffix n _).trans last)

namespace Config

/-- No further use may be expanded. -/
def full (c : Config) : Bool := c.around.length = depthLimit

def next (s : Settings) (c : Config) : Option Config :=
  match c.lines, c.around with
  | [], [] => none
  | [], (_, behind) :: around => some { c with lines := behind, around }
  | line :: rest, around =>
    match c.full, use? c.state line with
    | false, some (u, state) => some { lines := u.lines s.dialect, around := (u, rest) :: around, state }
    | _, _ =>
      let (state, size) := settle s c.full line rest c.state
      some { lines := rest.drop size, around, state }

abbrev Steps (s : Settings) : Config → Config → Prop := Relation.ReflTransGen fun c c' => c.next s = some c'

variable {c c' : Config}

/-- What a step can do: go back behind a use, enter a use where another one fits in, or settle a line. -/
theorem next_cases (h : c.next s = some c') :
    (c.lines = [] ∧ c'.state = c.state ∧ ∃ u, c.around = (u, c'.lines) :: c'.around) ∨
    ∃ line rest, c.lines = line :: rest ∧
      ((∃ u st, c.full = false ∧ use? c.state line = some (u, st) ∧
          c' = ⟨u.lines s.dialect, (u, rest) :: c.around, st⟩) ∨
        ∃ size, c' = ⟨rest.drop size, c.around, (settle s c.full line rest c.state).1⟩) := by
  obtain ⟨lines, around, st⟩ := c
  cases lines with
  | nil =>
    cases around with
    | nil => cases h
    | cons top around =>
      cases h
      exact .inl ⟨rfl, rfl, _, rfl⟩
  | cons line rest =>
    refine .inr ⟨line, rest, rfl, ?_⟩
    simp only [next] at h
    split at h
    next u st₁ room isUse =>
      cases h
      exact .inl ⟨u, st₁, room, isUse, rfl⟩
    · cases h
      exact .inr ⟨_, rfl⟩

end Config

/-! ## The machine ends -/

theorem Runs.steps {depth : Nat} {st st' : Expansion} {us : List Use} (run : Runs s depth lines st us st')
    (inside : around.length + depth = depthLimit) : Config.Steps s ⟨lines, around, st⟩ ⟨[], around, st'⟩ := by
  induction run generalizing around with
  | done => exact .refl
  | @line depth line rest st st₁ st₂ size us noUse settled _ ih =>
    have full : Config.full ⟨line :: rest, around, st⟩ = decide (depth = 0) := by
      simp only [Config.full, decide_eq_decide]
      omega
    refine .head ?_ (ih inside)
    simp only [Config.next, full, settled]
    rcases noUse with rfl | noUse
    · rfl
    · rw [noUse]
      cases decide (depth = 0) <;> rfl
  | @use depth line rest st st₁ st₂ st₃ u us us' isUse _ _ insideIH behindIH =>
    have room : Config.full ⟨line :: rest, around, st⟩ = false := by
      simp only [Config.full, decide_eq_false_iff_not]
      omega
    refine .head (b := ⟨u.lines s.dialect, (u, rest) :: around, st₁⟩) ?_ ?_
    · simp only [Config.next, room, isUse]
    · have within : ((u, rest) :: around).length + depth = depthLimit := by
        rw [length_cons]
        omega
      exact (insideIH within).trans (.head rfl (behindIH inside))

/-! ## What a step does -/

theorem lines_settle (s : Settings) (deep : Bool) (line : Line) (rest : List Line) (st : Expansion) :
    (settle s deep line rest st).1.lines.toList = st.lines.toList ++ (out? st.macros line).toList := by
  unfold out? settle
  cases task st.macros line with
  | keep => simp [push]
  | define label args => simp [define_lines]
  | lonely => simp [fail]
  | use label m args => cases label <;> simp [fail, pushLabel, push]

theorem lines_use {st st₁ : Expansion} {u : Use} (h : use? st line = some (u, st₁)) :
    st₁.lines.toList = st.lines.toList ++ (out? st.macros line).toList := by
  obtain ⟨label, m, args, isUse, -, -, rfl⟩ := use?_eq_some h
  unfold out?
  rw [isUse]
  cases label <;> simp [pushLabel, push]

theorem tooDeep_fail (st : Expansion) (pos : Pos) (fault : Fault) :
    (st.fail pos fault).TooDeep ↔ st.TooDeep ∨ fault.cause? = some .macroNesting := by
  simp [TooDeep, fail, Diagnostic.of, or_and_right, exists_or]

theorem tooDeep_define (s : Settings) (line : Line) (label : Option Token) (args : List Token)
    (after : List Line) (st : Expansion) : (define s line label args after st).1.TooDeep ↔ st.TooDeep := by
  have reported : (failAll st line.pos (definitionFaults s.dialect label args (bodyLines 0 after).2)).TooDeep ↔
      st.TooDeep := by
    simp only [TooDeep, failAll, Array.toList_append, mem_append, List.mem_map, or_and_right, exists_or]
    refine or_iff_left ?_
    rintro ⟨_, ⟨fault, mem, rfl⟩, _, ⟨⟩, deep⟩
    exact absurd (deep ▸ definitionFaults_cause mem) (by decide)
  rw [define_eq]
  dsimp only
  split
  · exact reported
  split
  · rw [tooDeep_fail, reported]
    simp [Fault.cause?]
  · exact reported

theorem tooDeep_settle (s : Settings) (deep : Bool) (line : Line) (rest : List Line) (st : Expansion) :
    (settle s deep line rest st).1.TooDeep ↔ st.TooDeep ∨ deep = true ∧ IsUse st.macros line := by
  unfold settle IsUse
  cases isTask : task st.macros line with
  | keep => simp [push, TooDeep]
  | define label args => simp [tooDeep_define]
  | lonely => simp [tooDeep_fail, Fault.cause?]
  | use label m args =>
    have same : (pushLabel st line label).TooDeep ↔ st.TooDeep := by cases label <;> rfl
    cases deep <;> simp [tooDeep_fail, Fault.cause?, same]

theorem out?_isPlain {macros : Std.TreeMap Text Macro} (h : out? macros line = some ln) : IsPlain macros ln := by
  intro noFault noScript
  unfold out? at h
  split at h
  next kept =>
    cases h
    simp only [task, noFault, noScript, Option.isSome_none, Bool.or_self, Bool.false_eq_true, if_false] at kept
    unfold Token.bodyIs Token.body
    generalize Token.splitLabel line.tokens = parts at kept
    obtain ⟨label, _ | ⟨head, args⟩⟩ := parts
    · simp
    · simp only [head?_cons, Option.any_some]
      cases define : head.isDirective .define <;> cases endm : head.isDirective .endm <;>
        cases known : head.word?.bind (macros[·]?) <;> simp only [define, endm, known] at kept <;> try cases kept
      refine ⟨rfl, rfl, fun head' here name isName known' => ?_⟩
      cases here
      rw [isName, Option.bind_some, Std.TreeMap.getElem?_eq_some_getElem known'] at known
      cases known
  next label m args isUse =>
    obtain ⟨label, rfl, rfl⟩ := Option.map_eq_some_iff.1 h
    obtain ⟨head, split⟩ := task_use_split isUse
    obtain ⟨-, word⟩ := (Token.splitLabel_subset split).1 label rfl
    have isWord : ({ label with col := 1 } : Token).isWord = true := by
      unfold Token.isWord
      rw [show ({ label with col := 1 } : Token).word? = label.word? from rfl, word]
      rfl
    have bare : Token.body (labelLine line label).tokens = [] := by
      simp [labelLine, Token.body, Token.splitLabel, isWord, Token.isSign]
    simp [Token.bodyIs, bare]
  · cases h

namespace Config
variable {c c' : Config}

theorem next_lines (h : c.next s = some c') :
    c'.state.lines.toList = c.state.lines.toList ++ (c.lines.head?.bind (out? c.state.macros)).toList := by
  rcases next_cases h with ⟨none, same, -⟩ | ⟨line, rest, here, ⟨u, st, -, isUse, rfl⟩ | ⟨size, rfl⟩⟩
  · simp [none, same]
  · simpa [here] using lines_use isUse
  · simpa [here] using lines_settle s _ line rest c.state

theorem next_tooDeep (h : c.next s = some c') :
    c'.state.TooDeep ↔ c.state.TooDeep ∨ c.full = true ∧ ∃ line ∈ c.lines.head?, IsUse c.state.macros line := by
  rcases next_cases h with ⟨none, same, -⟩ | ⟨line, rest, here, ⟨u, st, room, isUse, rfl⟩ | ⟨size, rfl⟩⟩
  · simp [none, same]
  · obtain ⟨label, m, args, -, -, -, rfl⟩ := use?_eq_some isUse
    simp only [room, Bool.false_eq_true, false_and, or_false]
    cases label <;> rfl
  · simpa [here] using tooDeep_settle s _ line rest c.state

/-- The lines left stand in a chain of uses that is not too long. -/
def Sound (s : Settings) (source : List Line) (c : Config) : Prop :=
  Nested s source c.around c.lines ∧ c.around.length ≤ depthLimit

theorem Sound.next (sound : c.Sound s source) (h : c.next s = some c') : c'.Sound s source := by
  obtain ⟨nested, le⟩ := sound
  rcases next_cases h with ⟨none, -, u, around⟩ | ⟨line, rest, here, ⟨u, st, room, isUse, rfl⟩ | ⟨size, rfl⟩⟩
  · rw [around] at nested le
    cases nested with
    | use outside => exact ⟨outside.drop 1, Nat.le_of_succ_le le⟩
  · rw [here] at nested
    have := of_decide_eq_false room
    exact ⟨.use nested isUse (suffix_refl _), by rw [length_cons]; omega⟩
  · rw [here] at nested
    exact ⟨nested.drop (size + 1), le⟩

theorem Steps.sound (run : Steps s c c') (sound : c.Sound s source) : c'.Sound s source := by
  induction run with
  | refl => exact sound
  | tail _ step ih => exact ih.next step

theorem Steps.out (run : Steps s c c') {i : Nat} (new : c.state.lines.size ≤ i)
    (found : c'.state.lines.toList[i]? = some ln) :
    ∃ c₁, Steps s c c₁ ∧ c₁.state.lines.size = i ∧ c₁.lines.head?.bind (out? c₁.state.macros) = some ln := by
  induction run with
  | refl => simp [new] at found
  | @tail c₁ c₂ run step ih =>
    rw [next_lines step] at found
    by_cases before : i < c₁.state.lines.toList.length
    · rw [getElem?_append_left before] at found
      exact ih found
    · rw [getElem?_append_right (by omega)] at found
      obtain ⟨here, only⟩ : c₁.lines.head?.bind (out? c₁.state.macros) = some ln ∧
          i - c₁.state.lines.toList.length = 0 := by
        cases isOut : c₁.lines.head?.bind (out? c₁.state.macros) with
        | none => simp [isOut] at found
        | some ln' =>
          rw [isOut, Option.toList_some, getElem?_singleton] at found
          split at found
          next zero => exact ⟨found, zero⟩
          · cases found
      exact ⟨c₁, run, by simp only [Array.length_toList] at *; omega, here⟩

theorem Steps.tooDeep_iff (run : Steps s c c') (ends : c'.lines = [] ∧ c'.around = []) (fresh : ¬ c.state.TooDeep) :
    c'.state.TooDeep ↔ ∃ c₁, Steps s c c₁ ∧ c₁.full = true ∧ ∃ line ∈ c₁.lines.head?, IsUse c₁.state.macros line := by
  have right : Relator.RightUnique fun a b : Config => a.next s = some b :=
    fun _ _ _ h h' => Option.some.inj (h.symm.trans h')
  constructor
  · intro deep
    clear ends
    induction run with
    | refl => exact absurd deep fresh
    | @tail c₁ c₂ run step ih =>
      rcases (next_tooDeep step).1 deep with before | here
      · exact ih before
      · exact ⟨c₁, run, here⟩
  · rintro ⟨c₁, before, full, line, here, isUse⟩
    have kept {a b : Config} (run : Steps s a b) (deep : a.state.TooDeep) : b.state.TooDeep := by
      induction run with
      | refl => exact deep
      | tail _ step ih => exact (next_tooDeep step).2 (.inl ih)
    rcases Relation.ReflTransGen.total_of_right_unique right before run with after | back
    · rcases Relation.ReflTransGen.cases_head after with rfl | ⟨c₂, step, after⟩
      · simp [ends] at here
      · exact kept after ((next_tooDeep step).2 (.inr ⟨full, line, here, isUse⟩))
    · rcases Relation.ReflTransGen.cases_head back with rfl | ⟨c₂, step, -⟩
      · simp [ends] at here
      · simp [next, ends] at step

end Config

/-- **Expansion ends, whatever macros do to each other, and leaves nothing to expand.**  Each line that comes out was
    put out inside of at most 64 uses, and started neither with a directive of macros nor with a macro of that time.  A
    use inside of too many others is reported exactly if there is one inside of 64. -/
theorem expand_normal_form (s : Settings) (lines : List Line) :
    Config.Steps s ⟨lines, [], {}⟩ ⟨[], [], expand s depthLimit lines {}⟩ ∧
    (∀ (i : Nat) (ln : Line), (expand s depthLimit lines {}).lines.toList[i]? = some ln →
      ∃ c, Config.Steps s ⟨lines, [], {}⟩ c ∧ c.state.lines.size = i ∧ Nested s lines c.around c.lines ∧
        c.around.length ≤ 64 ∧ c.lines.head?.bind (out? c.state.macros) = some ln ∧ IsPlain c.state.macros ln) ∧
    ((expand s depthLimit lines {}).TooDeep ↔ ∃ c, Config.Steps s ⟨lines, [], {}⟩ c ∧ c.around.length = 64 ∧
      ∃ line ∈ c.lines.head?, IsUse c.state.macros line) := by
  have run : Config.Steps s ⟨lines, [], {}⟩ ⟨[], [], expand s depthLimit lines {}⟩ :=
    (runs_expand s depthLimit lines {}).steps (by simp)
  refine ⟨run, fun i ln found => ?_, ?_⟩
  · obtain ⟨c, before, size, out⟩ := run.out (by simp) found
    obtain ⟨nested, le⟩ := before.sound ⟨.source (List.suffix_refl _), by simp⟩
    obtain ⟨line, -, isOut⟩ := Option.bind_eq_some_iff.1 out
    exact ⟨c, before, size, nested, le, out, out?_isPlain isOut⟩
  · refine (run.tooDeep_iff ⟨rfl, rfl⟩ (by simp [Expansion.TooDeep])).trans ?_
    exact exists_congr fun c => and_congr_right fun _ => and_congr_left fun _ => decide_eq_true_iff

/-- A macro that uses itself. -/
theorem expand_normal_form_recursive :
    let lines := Assembly.loadedOf .bare (bytes "a.asm") (bytes "m macro\n m\n endm\n m\n")
    ∃ c, Config.Steps .bare ⟨lines, [], {}⟩ c ∧ c.around.length = 64 ∧
      ∃ line ∈ c.lines.head?, IsUse c.state.macros line := by
  intro lines
  refine (expand_normal_form .bare lines).2.2.1 ?_
  have deep : (expand .bare depthLimit lines {}).diagnostics.toList.any
      (fun d => d.fault.any (·.cause? = some .macroNesting)) = true := by decide +kernel
  obtain ⟨d, mem, nesting⟩ := List.any_eq_true.1 deep
  exact ⟨d, mem, by simpa [Option.any_eq_true] using nesting⟩

end Macro

end Z80Asm
