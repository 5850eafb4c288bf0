import Z80Asm.Command
import Z80Asm.Proofs.Passes

/-!
# How runs end

A run ends in one of a few ways: a file is missing, it is called off, there are too many symbols, or its
last pass is done, with errors or without.  The result tells this several times over: by its state, by
its diagnostics, by its fault, by whether there is code, and by the exit code of the command.  All of
these agree.
-/

namespace Z80Asm

open Source List Command

/-! ## Runs without a result -/

/-- The statement asks for a part of a binary file that seems to lie inside of the file, because its end
    wraps around to before its start. -/
def Visit.SlicesOutside (p : Pass) (v : Visit) : Prop :=
  match v.statement with
  | .act node (.incbin _ data offset length) =>
    let (start, w) := (v.walk.defineLabel p node).evalOption p node 0 offset
    let (size, _) := w.evalOption p node (data.length.toInt64 - start) length
    0 ≤ start ∧ start ≤ data.length.toInt64 ∧ 0 ≤ size ∧ start + size < start
  | _ => False

namespace Walk

def Broken (w : Walk) : Prop := w.stop = some .outOfBounds

section
variable {w : Walk} {p : Pass} {node : Node}

theorem Broken.of_eval {e : Expr} (h : (w.eval p node e).2.Broken) : w.Broken := by
  rwa [Broken, eval_stop] at h

theorem Broken.invariant (w : Walk) (p : Pass) (node : Node) : Invariant (fun v => v.Broken → w.Broken) p node :=
  ⟨fun _ h => h, fun _ _ h => h, fun _ h broken => h broken.of_eval⟩

theorem Broken.of_define {name : Text} {value : Int64} {scope : Scope}
    (h : (w.define p node name value scope).Broken) : w.Broken := by
  rcases w.define_cases p node name value scope with ⟨_, _, e⟩ | e | ⟨_, e⟩ <;> rw [e] at h
  · simpa [Broken] using h
  · cases h
  · simpa [Broken, fail, report] using h

theorem Broken.of_defineLabel (h : (w.defineLabel p node).Broken) : w.Broken := by
  unfold defineLabel at h
  split at h
  · exact of_define h
  · exact h

theorem Broken.of_list {address : Int64} {start : Nat} (h : (w.list p node address start).Broken) : w.Broken := by
  unfold list at h
  split at h <;> exact h

theorem Broken.of_foldl {α : Type} {f : Walk → α → Walk} (step : ∀ w a, (f w a).Broken → w.Broken)
    {as : List α} (h : (as.foldl f w).Broken) : w.Broken := by
  induction as generalizing w with
  | nil => exact h
  | cons a as ih => exact step w a (ih h)

theorem Broken.of_runScript {source : Text} (h : (w.runScript p node source).Broken) : w.Broken := by
  simp only [runScript] at h
  split at h
  · exact h
  · refine of_foldl (w := w.emit _) (fun w constant broken => ?_) h
    simp only [defineScripted] at broken
    split at broken
    · exact of_define broken
    · exact broken

/-- An action breaks off at a part of a file whose end wraps around. -/
theorem Broken.of_act {action : Action} (h : ((w.defineLabel p node).act p node action).Broken) :
    w.Broken ∨ Visit.SlicesOutside p ⟨.act node action, w⟩ := by
  have read := invariant (w.defineLabel p node) p node
  cases action with
  | equate name value assigned => exact .inl (of_defineLabel (of_eval (of_define h)))
  | script source => exact .inl (of_defineLabel (of_runScript h))
  | incbin name data offset length =>
    have asked := read.evalOption (read.evalOption id 0 offset)
      (data.length.toInt64 - ((w.defineLabel p node).evalOption p node 0 offset).1) length
    simp only [act, emitPart] at h
    split at h
    · exact .inl (of_defineLabel (asked h))
    next inside =>
      split at h
      next wraps =>
        simp only [Bool.or_eq_true, decide_eq_true_eq, not_or, Int64.not_lt] at inside
        exact .inr ⟨inside.1.1.1, inside.1.1.2, inside.1.2, wraps⟩
      next => exact .inl (of_defineLabel (asked h))
  | _ => exact .inl (of_defineLabel (read.act id rfl (fun _ _ _ h => h) (by simp) h))

end

/-- **A walk breaks off only at a part of a file whose end wraps around.** -/
theorem exists_slicesOutside {p : Pass} {program : List Statement} {w : Walk} (going : w.stop = none)
    (broken : (steps p program w).Broken) : ∃ v ∈ visits p program w, v.SlicesOutside p := by
  have visited := exists_visit_of_steps (p := p) (P := Broken) (Q := Visit.SlicesOutside p)
    (fun node action w h => (Broken.of_list (w := (w.defineLabel p node).act p node action) h).of_act)
    (fun _ _ h => .inl (Broken.of_list (Broken.of_defineLabel h))) (fun node e w h => Broken.of_eval h)
    (fun _ _ _ h => h) (fun _ _ h => h) program w broken
  rcases visited with now | found
  · rw [Broken, going] at now; cases now
  · exact found

end Walk

/-! ## Coherent results -/

namespace Result

/-- The run ended with a fault that comes down to a cause. -/
def EndedBy (r : Result) (cause : Cause) : Prop :=
  ∃ fault, r.fault = some fault ∧ fault.cause? = some cause

def exitCode (r : Result) : Nat := (Command.Exit.ofFault r.fault).code

/-- The parts of a result agree with each other; `found` is what was reported before the passes. -/
structure Coherent (s : Settings) (found : Diagnostics) (r : Result) : Prop where
  ended : r.state ≠ .scanning
  passes_le : r.passes ≤ s.passLimit
  fault_iff : r.fault = none ↔ r.state = .stable
  errors_iff : r.diagnostics.errors = 0 ↔ r.state = .stable
  exceeded_iff : r.state = .resourceExceeded ↔ r.EndedBy .resourceLimit ∨ r.EndedBy .cancelled
  fatal_iff : r.diagnostics.fatal?.isSome = true ↔
    r.EndedBy .fileAccess ∨ r.EndedBy .resourceLimit ∨ r.EndedBy .cancelled
  code : r.diagnostics.fatal?.isSome = true → r.code = #[]
  /-- Every other run with a fault is one with errors in the source. -/
  compiled : r.fault ≠ none → r.diagnostics.fatal? = none → r.EndedBy .compile
  exit_stable : r.state = .stable → r.exitCode = 0
  exit_exceeded : r.state = .resourceExceeded → r.exitCode = 3
  exit_fileAccess : r.EndedBy .fileAccess → r.exitCode = 2
  exit_compile : r.EndedBy .compile → r.exitCode = 1
  /-- What the passes have added and is not fatal is of the last pass. -/
  reports : ∃ late, r.diagnostics = found ++ late ∧
    ∀ d ∈ late, d.isFatal = false → d.pass = r.passes

variable {s : Settings} {found : Diagnostics} {r : Result}

theorem endedBy_iff {fault : Fault} {cause : Cause} (h : r.fault = some fault) :
    r.EndedBy cause ↔ fault.cause? = some cause := by simp [EndedBy, h]

theorem isSome_fatal?_iff {ds : Diagnostics} : ds.fatal?.isSome = true ↔ ∃ d ∈ ds, d.isFatal = true := by
  simp [Diagnostics.fatal?, find?_isSome]

theorem errors_eq_zero_iff {ds : Diagnostics} : ds.errors = 0 ↔ ∀ d ∈ ds, d.isError = false := by
  simp [Diagnostics.errors, countP_eq_zero]

theorem isError_of_isFatal {d : Diagnostic} (h : d.isFatal = true) : d.isError = true := by
  simp only [Diagnostic.isFatal, beq_iff_eq] at h
  simp [Diagnostic.isError, h]

theorem Coherent.of_fatal {fault : Fault} (ends : r.fault = some fault)
    (cause : fault.cause? = some .fileAccess ∨ fault.cause? = some .resourceLimit ∨ fault.cause? = some .cancelled)
    (fatal : ∃ d ∈ r.diagnostics, d.isFatal = true) (passes : r.passes ≤ s.passLimit)
    (code : r.code = #[]) (reports : ∃ late, r.diagnostics = found ++ late ∧
      ∀ d ∈ late, d.isFatal = false → d.pass = r.passes) : r.Coherent s found := by
  have some_fatal : r.diagnostics.fatal?.isSome = true := isSome_fatal?_iff.2 fatal
  have errors : r.diagnostics.errors ≠ 0 := by
    obtain ⟨d, hd, isFatal⟩ := fatal
    intro none
    have := errors_eq_zero_iff.1 none d hd
    rw [isError_of_isFatal isFatal] at this
    cases this
  have state : r.state = if fault.exceedsResources then .resourceExceeded else .syntaxFailed := by
    simp [Result.state, State.ofFault, ends]
  have unstable : r.state ≠ .stable := by rw [state]; split <;> simp
  constructor
  · rw [state]; split <;> simp
  · exact passes
  · simp [ends, unstable]
  · simp [errors, unstable]
  · rw [endedBy_iff ends, endedBy_iff ends, state]
    split <;> simp_all [Fault.exceedsResources]
  · simp only [endedBy_iff ends, some_fatal, cause]
  · exact fun _ => code
  · intro _ none; simp [none] at some_fatal
  · exact fun stable => absurd stable unstable
  · intro exceeded
    rw [state] at exceeded
    rcases cause with cause | cause | cause <;>
      simp_all [Fault.exceedsResources, exitCode, Exit.ofFault, Exit.code]
  · intro access
    simp [exitCode, Exit.ofFault, ends, (endedBy_iff ends).1 access, Exit.code]
  · intro compile
    rw [endedBy_iff ends] at compile
    simp [compile] at cause
  · exact reports

theorem Coherent.of_compiled (ends : r.fault = Assembly.compileFault? r.diagnostics)
    (mild : ∀ d ∈ r.diagnostics, d.isFatal = false) (passes : r.passes ≤ s.passLimit)
    (reports : ∃ late, r.diagnostics = found ++ late ∧
      ∀ d ∈ late, d.isFatal = false → d.pass = r.passes) : r.Coherent s found := by
  have no_fatal : r.diagnostics.fatal? = none := by
    simpa [Diagnostics.fatal?, find?_eq_none] using mild
  by_cases clean : r.diagnostics.errors = 0
  · have none : r.fault = none := by rw [ends, Assembly.compileFault?, if_pos clean]
    have stable : r.state = .stable := by rw [Result.state, none]; rfl
    constructor <;> simp [EndedBy, none, stable, clean, no_fatal, passes, exitCode, Exit.ofFault, Exit.code, reports]
  · obtain ⟨note, fault⟩ : ∃ note, r.fault = some (.about .compile note) :=
      ⟨_, by rw [ends, Assembly.compileFault?, if_neg clean]⟩
    have failed : r.state = .syntaxFailed := by rw [Result.state, fault]; rfl
    constructor <;> simp [EndedBy, fault, failed, clean, no_fatal, passes, exitCode, Exit.ofFault,
      Exit.code, reports, Fault.about, Fault.cause?]

end Result

namespace Assembly

/-! ## Before the passes -/

def earlyFault? (s : Settings) (file data : Text) : Option Fault :=
  let loaded := Source.load s Source.includeLimit file data {}
  let expanded := Macro.expand s Macro.depthLimit loaded.lines.toList {}
  loaded.fatal.or (Program.build s expanded.lines.toList).fatal

/-- What is reported about a text before the passes, by the stages that the run goes through. -/
def stageReports (s : Settings) (file data : Text) : Diagnostics :=
  let loaded := Source.load s Source.includeLimit file data {}
  if loaded.fatal.isSome then loaded.diagnostics.toList else reports s file data

def assembleRead (s : Settings) (cancelled : Nat → Bool) (file : Text) : Except Fault Text → Outcome
  | .ok data => assembleText s cancelled file data
  | .error fault => unreadable file fault

def readReports (s : Settings) (file : Text) : Except Fault Text → Diagnostics
  | .ok data => stageReports s file data
  | .error _ => []

variable (s : Settings) (cancelled : Nat → Bool) (file data : Text)

theorem assembleFile_eq : assembleFile s cancelled file = assembleRead s cancelled file (s.read file) := by
  unfold assembleFile
  split <;> simp [assembleRead, *]

/-- A run over a text ends before its passes, or resolves the program of the text. -/
theorem assembleText_eq : assembleText s cancelled file data =
    match earlyFault? s file data with
    | some fault => .finished { diagnostics := stageReports s file data, fault := some fault }
    | none => resolve s cancelled (programOf s file data) (stageReports s file data) (s.passLimit - 1) 1
        (table s (programOf s file data) 0) (sizesOf s (programOf s file data) 0) := by
  simp only [assembleText, earlyFault?, stageReports, reports]
  cases (load s includeLimit file data {}).fatal with
  | some fault => rfl
  | none =>
    simp only [Option.none_or, Option.isSome_none, Bool.false_eq_true, if_false]
    cases (Program.build s (Macro.expand s Macro.depthLimit
      (load s includeLimit file data {}).lines.toList {}).lines.toList).fatal with
    | some fault => rfl
    | none => rfl

/-- A fatal report has been made before the passes exactly if the run ends there, for want of a file. -/
theorem stageReports_fatal :
    ((∃ d ∈ stageReports s file data, d.isFatal = true) ↔ (earlyFault? s file data).isSome = true) ∧
      ∀ fault ∈ earlyFault? s file data, fault.cause? = some .fileAccess := by
  obtain ⟨-, load_fatal, load_access⟩ :=
    (load_steps (fun _ => id) includeLimit file data {}).wellKept WellKept.empty
  obtain ⟨-, expand_fatal, -⟩ := Macro.expand_reports s Macro.depthLimit
    (load s includeLimit file data {}).lines.toList {} WellKept.empty
  obtain ⟨-, build_fatal, build_access⟩ := Program.build_reports s (Macro.expand s Macro.depthLimit
    (load s includeLimit file data {}).lines.toList {}).lines.toList
  simp only [Loading.journal] at load_fatal load_access
  simp only [Expansion.journal, Option.isSome_none, Bool.false_eq_true, iff_false] at expand_fatal
  simp only [Building.journal] at build_fatal build_access
  simp only [stageReports, earlyFault?, reports]
  cases early : (load s includeLimit file data {}).fatal with
  | some fault =>
    rw [early] at load_fatal load_access
    exact ⟨load_fatal, load_access⟩
  | none =>
    simp only [early, Option.isSome_none, Bool.false_eq_true, iff_false] at load_fatal
    simp only [Option.isSome_none, Bool.false_eq_true, if_false, Option.none_or]
    refine ⟨?_, build_access⟩
    simp only [mem_append, or_and_right, exists_or, load_fatal, expand_fatal, build_fatal, false_or]

/-! ## The end of the passes -/

section
variable {s cancelled}
variable {program : List Statement} {found : Diagnostics} {last n : Nat} {r : Result}

/-- How a run ends at a pass, its result is coherent if nothing fatal was reported before. -/
theorem Ending.coherent (mild : ∀ d ∈ found, d.isFatal = false) (le : n ≤ s.passLimit)
    (ends : Ending s program cancelled found last n (.finished r)) : r.Coherent s found := by
  have walk_reports : ∀ d ∈ (walked s program n).diagnostics.toList, d.pass = n ∧ d.isFatal = false := by
    intro d hd
    rcases (Walk.steps_moves (passOf s program n) program _).reports d hd with start | late
    · simp at start
    · exact late
  have unstable_reports : ∀ changed, ∀ d ∈ unstable n (table s program n) changed, d.pass = n ∧ d.isFatal = false := by
    intro changed d hd
    unfold unstable at hd
    split at hd
    · rw [mem_singleton.1 hd]; exact ⟨rfl, rfl⟩
    · obtain ⟨name, -, rfl⟩ := List.mem_map.1 hd; exact ⟨rfl, rfl⟩
  cases ends with
  | cancelled h =>
    refine .of_fatal rfl (.inr (.inr rfl)) ⟨_, mem_append_right _ mem_cons_self, rfl⟩ ?_ rfl ⟨_, rfl, ?_⟩
    · simp only [aborted]; omega
    · intro d hd fatal
      rw [mem_singleton.1 hd] at fatal
      cases fatal
  | limit h =>
    obtain ⟨pos, limit, rfl⟩ := (Walk.steps_moves _ _ _).stop_limit rfl h
    exact .of_fatal rfl (.inr (.inl rfl)) ⟨_, mem_append_right _ mem_cons_self, rfl⟩ le rfl
      ⟨_, rfl, fun d hd _ => by rw [mem_singleton.1 hd]; rfl⟩
  | settled going h =>
    refine .of_compiled rfl ?_ le ⟨_, rfl, fun d hd _ => (walk_reports d hd).1⟩
    intro d hd
    rcases mem_append.1 hd with hd | hd
    · exact mild d hd
    · exact (walk_reports d hd).2
  | exhausted going h full =>
    have late : ∀ d ∈ (walked s program n).diagnostics.toList ++ unstable n (table s program n)
        ((table s program n).diff (table s program (n - 1))), d.pass = n ∧ d.isFatal = false := by
      intro d hd
      rcases mem_append.1 hd with hd | hd
      · exact walk_reports d hd
      · exact unstable_reports _ d hd
    refine .of_compiled rfl ?_ le ⟨_, append_assoc _ _ _, fun d hd _ => (late d hd).1⟩
    intro d hd
    rw [final, append_assoc] at hd
    rcases mem_append.1 hd with hd | hd
    · exact mild d hd
    · exact (late d hd).2

end

/-- **Every run has a coherent result**, whatever was read of its file, except that it may break off in a
    pass, at an `incbin` whose part wraps around. -/
theorem every_result_coherent :
    assembleFile s cancelled file = assembleRead s cancelled file (s.read file) ∧
    ∀ read : Except Fault Text,
      (∃ r, assembleRead s cancelled file read = .finished r ∧ r.Coherent s (readReports s file read)) ∨
      (assembleRead s cancelled file read = .outOfBounds ∧ ∃ data n, read = .ok data ∧ 0 < n ∧
        n ≤ s.passLimit ∧ ∃ v ∈ visitsOf s (programOf s file data) (passOf s (programOf s file data) n),
          v.SlicesOutside (passOf s (programOf s file data) n)) := by
  refine ⟨assembleFile_eq s cancelled file, fun read => ?_⟩
  cases read with
  | error fault =>
    refine .inl ⟨_, rfl, .of_fatal rfl (.inl rfl) ⟨_, List.mem_cons_self, rfl⟩ (Nat.zero_le _) rfl ?_⟩
    refine ⟨_, rfl, fun d hd fatal => ?_⟩
    rw [List.mem_singleton.1 hd] at fatal
    cases fatal
  | ok data =>
    obtain ⟨fatal_iff, access⟩ := stageReports_fatal s file data
    simp only [assembleRead, readReports]
    rw [assembleText_eq]
    cases early : earlyFault? s file data with
    | some fault =>
      rw [early] at fatal_iff access
      exact .inl ⟨_, rfl, .of_fatal rfl (.inl (access fault rfl)) (fatal_iff.2 rfl) (Nat.zero_le _) rfl
        ⟨[], by simp, by simp⟩⟩
    | none =>
      have mild : ∀ d ∈ stageReports s file data, d.isFatal = false := by
        simpa [early] using fatal_iff
      have room := s.passLimit_pos
      obtain ⟨n, pos, le, -, ends⟩ := resolve_ending s (programOf s file data) cancelled
        (stageReports s file data) (s.passLimit - 1) 0
      dsimp only
      generalize resolve s cancelled (programOf s file data) _ _ _ _ _ = outcome at ends
      cases outcome with
      | finished r => exact .inl ⟨r, rfl, ends.coherent mild (by omega)⟩
      | outOfBounds =>
        refine .inr ⟨rfl, data, n, rfl, pos, by omega, ?_⟩
        cases ends with
        | outOfBounds broken => exact Walk.exists_slicesOutside rfl broken

end Assembly

end Z80Asm
