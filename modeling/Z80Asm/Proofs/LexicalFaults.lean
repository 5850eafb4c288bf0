import Z80Asm.Proofs.CompassWords

/-!
# Lexical faults

A line with a lexical fault goes through the expansion as it is and becomes the report of the fault, which is made
where the line is reached.  Definitions are an exception: their lines are looked at for `endm` only, whatever is wrong
with them.
-/

namespace Z80Asm

open List

variable {lines : List Line} {nest : Nat}

/-! ## Lines of definitions -/

namespace Macro

/-- A definition outside of other ones: the lines before it, its heading, its body, the line that ends it and the lines
    behind it. -/
structure IsDefinition (before : List Line) (heading : Line) (body : List Line) (last : Line) (after : List Line) :
    Prop where
  outside : definitionsEnd 0 before = true
  starts : heading.StartsDefinition
  body : bodyLines 0 (body ++ last :: after) = (body, true)

/-- The line stands in the body of a definition, between its heading and the line that ends it. -/
def IsInBody (before : List Line) (ln : Line) (after : List Line) : Prop :=
  ∃ front heading upper lower last rest, before = front ++ heading :: upper ∧ after = lower ++ last :: rest ∧
    IsDefinition front heading (upper ++ ln :: lower) last rest

def EndsDefinition (before : List Line) (ln : Line) (after : List Line) : Prop :=
  ∃ front heading body, before = front ++ heading :: body ∧ IsDefinition front heading body ln after

theorem bodyLines_append_of_open (opened : lines.length ≤ (bodyLines nest lines).1.length) (more : List Line) :
    ∃ nest', bodyLines nest (lines ++ more) = (lines ++ (bodyLines nest' more).1, (bodyLines nest' more).2) := by
  induction lines generalizing nest with
  | nil => exact ⟨nest, rfl⟩
  | cons ln rest ih =>
    rw [bodyLines_cons] at opened
    rw [cons_append, bodyLines_cons]
    split at opened
    next closes =>
      rw [if_pos closes]
      cases nest with
      | zero => cases opened
      | succ nest =>
        obtain ⟨nest', same⟩ := ih (Nat.le_of_succ_le_succ opened)
        exact ⟨nest', by simp [same]⟩
    next inside =>
      rw [if_neg inside]
      obtain ⟨nest', same⟩ := ih (Nat.le_of_succ_le_succ opened)
      exact ⟨nest', by simp [same]⟩

theorem exists_last_of_bodyLines (closed : (bodyLines nest lines).2 = true) :
    ∃ last rest, lines = (bodyLines nest lines).1 ++ last :: rest := by
  induction lines generalizing nest with
  | nil => cases closed
  | cons ln rest ih =>
    rw [bodyLines_cons] at closed ⊢
    split at closed
    next closes =>
      rw [if_pos closes]
      cases nest with
      | zero => exact ⟨ln, rest, rfl⟩
      | succ nest =>
        obtain ⟨last, behind, same⟩ := ih closed
        exact ⟨last, behind, congrArg (ln :: ·) same⟩
    next inside =>
      rw [if_neg inside]
      obtain ⟨last, behind, same⟩ := ih closed
      exact ⟨last, behind, congrArg (ln :: ·) same⟩

theorem exists_open_definition {skip : Nat} (opened : definitionsEnd skip lines = false) :
    lines.length < skip ∨ ∃ front heading rest, lines = front ++ heading :: rest ∧ definitionsEnd skip front = true ∧
      heading.StartsDefinition ∧ rest.length ≤ (bodyLines 0 rest).1.length := by
  induction lines generalizing skip with
  | nil =>
    cases skip with
    | zero => cases opened
    | succ skip => exact .inl (Nat.succ_pos skip)
  | cons ln lines ih =>
    cases skip with
    | succ skip =>
      rcases ih opened with short | ⟨front, heading, rest, rfl, outside, found⟩
      · exact .inl (Nat.succ_lt_succ short)
      · exact .inr ⟨ln :: front, heading, rest, rfl, outside, found⟩
    | zero =>
      right
      rw [definitionsEnd] at opened
      by_cases starts : ln.StartsDefinition
      · rw [if_pos starts] at opened
        rcases ih opened with short | ⟨front, heading, rest, rfl, outside, found⟩
        · exact ⟨[], ln, lines, rfl, rfl, starts, Nat.le_of_lt_succ short⟩
        · refine ⟨ln :: front, heading, rest, rfl, ?_, found⟩
          -- the body ends in the lines before the heading, so that it is the same there
          have ends : (bodyLines 0 front).1.length < front.length := by
            by_contra open'
            obtain ⟨nest, same⟩ := bodyLines_append_of_open (Nat.le_of_not_lt open') (heading :: rest)
            have size := le_of_definitionsEnd outside
            rw [same, length_append] at size
            omega
          rw [bodyLines_append ends] at outside
          rwa [definitionsEnd, if_pos starts]
      · rw [if_neg starts] at opened
        rcases ih opened with short | ⟨front, heading, rest, rfl, outside, found⟩
        · cases short
        · exact ⟨ln :: front, heading, rest, rfl, by rwa [definitionsEnd, if_neg starts], found⟩

/-- **A line stands outside of definitions, or it is one of a definition**, if every definition ends. -/
theorem line_cases {before after : List Line} {ln : Line}
    (closed : ∀ front heading rest, before ++ ln :: after = front ++ heading :: rest → definitionsEnd 0 front = true →
      heading.StartsDefinition → (bodyLines 0 rest).2 = true) :
    IsInBody before ln after ∨ EndsDefinition before ln after ∨ definitionsEnd 0 before = true := by
  cases ends : definitionsEnd 0 before with
  | true => exact .inr (.inr rfl)
  | false =>
    obtain ⟨front, heading, body, rfl, outside, starts, opened⟩ := (exists_open_definition ends).resolve_left (by simp)
    have whole := closed front heading (body ++ ln :: after) (by simp) outside starts
    obtain ⟨nest, goesOn⟩ := bodyLines_append_of_open opened (ln :: after)
    rw [goesOn] at whole
    obtain ⟨last, rest, same⟩ := exists_last_of_bodyLines whole
    -- the line is the first one behind the lines of the body so far
    cases upTo : (bodyLines nest (ln :: after)).1 with
    | nil =>
      rw [upTo] at same goesOn
      rw [whole, append_nil] at goesOn
      exact .inr (.inl ⟨front, heading, body, rfl, outside, starts, goesOn⟩)
    | cons first lower =>
      rw [upTo] at same goesOn
      obtain ⟨rfl, rfl⟩ := List.cons.inj same
      rw [whole] at goesOn
      exact .inl ⟨front, heading, body, lower, last, rest, rfl, rfl, outside, starts, by simpa using goesOn⟩

end Macro

/-! ## Branches that are not executed -/

namespace Statement

mutual

def branches : Statement → List (List Statement)
  | .act _ _ => []
  | .choose _ _ yes no => yes :: branchesAll yes ++ no :: branchesAll no
  | .repeated _ _ body => body :: branchesAll body

def branchesAll : List Statement → List (List Statement)
  | [] => []
  | st :: rest => st.branches ++ branchesAll rest

end

theorem exists_branch_of_act {node : Node} {action : Action} :
    ∀ program, .act node action ∈ flattenAll program →
      .act node action ∈ program ∨ ∃ branch ∈ branchesAll program, .act node action ∈ branch := by
  refine (tree_induction
    (P := fun st => .act node action ∈ st.flatten →
      st = .act node action ∨ ∃ branch ∈ st.branches, .act node action ∈ branch)
    (fun node' action' mem => ?_) (fun node' test yes no yes_ih no_ih mem => ?_) (fun node' count body ih mem => ?_)
    (fun mem => nomatch mem) (fun st rest st_ih ih mem => ?_)).2
  · cases mem_singleton.1 mem
    exact .inl rfl
  · right
    rcases mem_append.1 ((mem_cons.1 mem).resolve_left (by simp)) with mem | mem
    · rcases yes_ih mem with here | ⟨branch, inside, found⟩
      · exact ⟨yes, by simp [branches], here⟩
      · exact ⟨branch, by simp [branches, inside], found⟩
    · rcases no_ih mem with here | ⟨branch, inside, found⟩
      · exact ⟨no, by simp [branches], here⟩
      · exact ⟨branch, by simp [branches, inside], found⟩
  · rcases ih ((mem_cons.1 mem).resolve_left (by simp)) with here | ⟨branch, inside, found⟩
    · exact .inr ⟨body, by simp [branches], here⟩
    · exact .inr ⟨branch, by simp [branches, inside], found⟩
  · rcases mem_append.1 mem with mem | mem
    · rcases st_ih mem with rfl | ⟨branch, inside, found⟩
      · exact .inl mem_cons_self
      · exact .inr ⟨branch, mem_append_left _ inside, found⟩
    · rcases ih mem with here | ⟨branch, inside, found⟩
      · exact .inl (mem_cons_of_mem _ here)
      · exact .inr ⟨branch, mem_append_right _ inside, found⟩

end Statement

/-- What the execution of a block goes into: a branch, or a body that is repeated at least once. -/
def Visit.entered? (p : Pass) (v : Visit) : Option (List Statement) :=
  match v.statement with
  | .act _ _ => none
  | .choose node test yes no => some (if ((v.walk.enter p node).test p node test).1 then yes else no)
  | .repeated node count body =>
    let n := ((v.walk.enter p node).eval p node count).1
    if (Cpu.misfit? n 0 repeatLimit true).isNone ∧ n.toInt.toNat ≠ 0 then some body else none

/-- The statements of a branch that is entered are executed, unless there is an error before. -/
theorem Walk.clean_entered {p : Pass} {program branch : List Statement} {w : Walk} (clean : (steps p program w).Clean)
    {v : Visit} (visited : v ∈ visits p program w) (entered : v.entered? p = some branch) :
    ∃ u, (steps p branch u).Clean := by
  have done := (between_of_mem_visits p program w v visited).after.clean clean
  have measured {w : Walk} {start : Nat} (clean : (w.measure start).Clean) : w.Clean :=
    (Move.measure start : Move p w _).moves.clean clean
  unfold Visit.entered? at entered
  rcases v with ⟨st, w⟩
  cases st with
  | act => cases entered
  | choose node test yes no =>
    cases entered
    rw [step_choose] at done
    exact ⟨_, measured done⟩
  | repeated node count body =>
    rw [step_repeated] at done
    have rounds := measured done
    dsimp only at entered
    split at entered
    next repeats =>
      cases entered
      rw [Option.isNone_iff_eq_none] at repeats
      rw [repeats.1] at rounds
      obtain ⟨n, more⟩ := Nat.exists_eq_succ_of_ne_zero repeats.2
      rw [more] at rounds
      exact ⟨_, (times_moves (steps_moves p _) n _).clean rounds⟩
    · cases entered

namespace Assembly

open Macro

section
variable {s : Settings} {cancelled : Nat → Bool} {file data : Text} {r : Result}
  (run : assembleText s cancelled file data = .finished r) (stable : r.state = .stable)
include run stable

theorem closed_of_stable {front rest : List Line} {heading : Line}
    (loaded : loadedOf s file data = front ++ heading :: rest) (outside : definitionsEnd 0 front = true)
    (starts : heading.StartsDefinition) : (bodyLines 0 rest).2 = true := by
  have split : expansionOf s file data = _ :=
    (congrArg (expand s depthLimit · {}) loaded).trans (expand_behind outside _ _)
  generalize expand s depthLimit front {} = st at split
  obtain ⟨label, args, isTask⟩ := (startsDefinition_iff st.emptied.macros heading).1 starts
  by_contra opened
  obtain ⟨fault, wrong⟩ : ∃ fault, fault ∈ definitionFaults s.dialect label args (bodyLines 0 rest).2 :=
    ⟨_, mem_append_left _ (by rw [if_neg opened]; exact mem_singleton_self _)⟩
  have reported := mem_define_diagnostics wrong heading st.emptied
  have kept : .of .error heading.pos 1 fault ∈ (expansionOf s file data).diagnostics.toList := by
    rw [split, expand_cons_of_noUse (by rw [use?, isTask]), settle, isTask, Expansion.after, Array.toList_append]
    exact mem_append_right _ (diagnostics_subset_expand _ _ reported)
  exact Bool.noConfusion ((stable_reports run stable).2 _ (mem_append_left _ (mem_append_right _ kept)))

theorem mem_flatten_of_fault {before after : List Line} {ln : Line} {fault : Fault}
    (loaded : loadedOf s file data = before ++ ln :: after) (faulty : ln.fault = some fault)
    (outside : definitionsEnd 0 before = true) :
    .act { seq := (expand s depthLimit before {}).lines.size + 1, pos := ln.pos, text := ln.text } (.bad fault) ∈
      Statement.flattenAll (programOf s file data) := by
  have split : expansionOf s file data = _ :=
    (congrArg (expand s depthLimit · {}) loaded).trans (expand_behind outside _ _)
  generalize expand s depthLimit before {} = st at split
  have isTask : task st.emptied.macros ln = .keep := by simp [task, faulty]
  have pushed : st.emptied.push ln = st.emptied.after #[ln] #[] := rfl
  obtain ⟨more, lines⟩ : ∃ more, (expansionOf s file data).lines.toList = st.lines.toList ++ ln :: more := by
    rw [split, expand_cons_of_noUse (by rw [use?, isTask]), settle, isTask, pushed, expand_after]
    exact ⟨(expand s depthLimit after st.emptied).lines.toList, by simp [Expansion.after]⟩
  have whole := (stable_reports run stable).1
  change _ ∈ Statement.flattenAll (Program.build s (expansionOf s file data).lines.toList).program
  rw [(Program.build_blocks s _ whole).1, lines, Program.allEdits_append, Program.allEdits, Program.edits, faulty]
  simp [Edit.added?, Program.badEdit]

end

/-- No statement of the branch is executed in the pass: no block goes into it. -/
def IsIdle (s : Settings) (program : List Statement) (n : Nat) (branch : List Statement) : Prop :=
  ∀ v ∈ visitsOf s program (passOf s program n), v.entered? (passOf s program n) ≠ some branch

/-- **Where a lexical fault is not reported.**  If a source is stable, a line of it with a fault stands in the body of a
    definition, ends a definition, or has its report in a branch that is not executed in the last pass. -/
theorem lexical_fault_unreported {s : Settings} {cancelled : Nat → Bool} {file data : Text} {r : Result}
    (run : assembleText s cancelled file data = .finished r) (stable : r.state = .stable) {before after : List Line}
    {ln : Line} {fault : Fault} (loaded : loadedOf s file data = before ++ ln :: after) (faulty : ln.fault = some fault) :
    IsInBody before ln after ∨ EndsDefinition before ln after ∨
      definitionsEnd 0 before = true ∧ ∃ branch ∈ Statement.branchesAll (programOf s file data),
        .act { seq := (expand s depthLimit before {}).lines.size + 1, pos := ln.pos, text := ln.text } (.bad fault) ∈
          branch ∧
        IsIdle s (programOf s file data) r.passes branch := by
  have closed : ∀ front heading rest, before ++ ln :: after = front ++ heading :: rest →
      definitionsEnd 0 front = true → heading.StartsDefinition → (bodyLines 0 rest).2 = true :=
    fun front heading rest eq => closed_of_stable run stable (loaded.trans eq)
  refine (line_cases closed).imp_right (Or.imp_right fun outside => ⟨outside, ?_⟩)
  have clean := (stable_converged run stable).clean
  have notClean {branch : List Statement} {node : Node} (mem : .act node (.bad fault) ∈ branch) (p : Pass) (w : Walk) :
      ¬ (Walk.steps p branch w).Clean := by
    intro clean
    obtain ⟨u, fine⟩ := Walk.clean_steps_mem clean mem
    exact Walk.not_clean_fail _ _ _ _ ((Walk.list_clean _ _ _ _ _).1 fine)
  obtain ⟨branch, isBranch, mem⟩ := (Statement.exists_branch_of_act _
    (mem_flatten_of_fault run stable loaded faulty outside)).resolve_left (fun mem => notClean mem _ _ clean)
  refine ⟨branch, isBranch, mem, fun v visited entered => ?_⟩
  obtain ⟨u, fine⟩ := Walk.clean_entered clean visited entered
  exact notClean mem _ u fine

/-- A source with a string that does not end, in a branch that is executed in the first pass only. -/
def passingSource : Text := bytes " if later\n else\n db \"a\n endif\nlater equ 1\n"

theorem lexical_fault_unreported_passing : ∃ r,
    assembleText .bare neverCancelled (bytes "a.asm") passingSource = .finished r ∧ r.state = .stable ∧
      ∃ branch ∈ Statement.branchesAll (programOf .bare (bytes "a.asm") passingSource),
        .act { seq := 3, pos := ⟨bytes "a.asm", 3⟩, text := bytes " db \"a" } (.bad (.plain .stringLonely)) ∈ branch ∧
          IsIdle .bare (programOf .bare (bytes "a.asm") passingSource) r.passes branch := by
  have loaded : loadedOf .bare (bytes "a.asm") passingSource =
      (loadedOf .bare (bytes "a.asm") passingSource).take 2 ++ Source.lineAt .native (bytes "a.asm") 3 (bytes " db \"a") ::
        (loadedOf .bare (bytes "a.asm") passingSource).drop 3 := by decide +kernel
  have plain : ∀ ln ∈ (loadedOf .bare (bytes "a.asm") passingSource).take 2, ¬ ln.StartsDefinition := by decide +kernel
  obtain ⟨r, run, stable⟩ := Outcome.exists_of_any (by decide +kernel :
    (assembleText .bare neverCancelled (bytes "a.asm") passingSource).any (·.state == .stable) = true)
  refine ⟨r, run, eq_of_beq stable, ?_⟩
  have faulty : (Source.lineAt .native (bytes "a.asm") 3 (bytes " db \"a")).fault = some (.plain .stringLonely) := by
    decide +kernel
  have number : (expand .bare depthLimit ((loadedOf .bare (bytes "a.asm") passingSource).take 2) {}).lines.size = 2 := by
    decide +kernel
  rcases lexical_fault_unreported run (eq_of_beq stable) loaded faulty with
    ⟨front, heading, upper, _, _, _, before, -, definition⟩ | ⟨front, heading, body, before, definition⟩ | ⟨-, found⟩
  · exact absurd definition.starts (plain heading (by simp [before]))
  · exact absurd definition.starts (plain heading (by simp [before]))
  · rwa [number] at found

/-- A source with a string that does not end, behind the word that ends a definition. -/
def lostSource : Text := bytes "m macro\n nop\n endm \"abc\n m\n"

/-- **A lexical fault may be lost**: the source is stable, although the line that ends its definition, behind a body of
    one line, has a fault, and there are no branches. -/
theorem lexical_fault_lost :
    (assembleText .bare neverCancelled (bytes "a.asm") lostSource).any (·.state == .stable) = true ∧
      (loadedOf .bare (bytes "a.asm") lostSource)[0]?.any (fun ln => decide ln.StartsDefinition) = true ∧
      (bodyLines 0 ((loadedOf .bare (bytes "a.asm") lostSource).drop 1)).1.length = 1 ∧
      (loadedOf .bare (bytes "a.asm") lostSource)[2]?.any (·.fault.isSome) = true ∧
      (Statement.branchesAll (programOf .bare (bytes "a.asm") lostSource)).isEmpty = true := by
  decide +kernel

end Assembly

end Z80Asm
