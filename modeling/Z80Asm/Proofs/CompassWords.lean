import Z80Asm.Proofs.SkippedRows
import Z80Asm.Proofs.SymbolFile

/-!
# Words of the Compass dialect

The native dialect refuses a word with an `@` where a line is added to the program, and the two Compass forms of a
definition where the definition is recorded.  A line that ends its way before that point is not looked at.
-/

namespace Z80Asm

open List

variable {after before : List Line} {ln : Line} {data file : Text} {label : Option Token} {args : List Token}
  {s : Settings} {cancelled : Nat → Bool} {r : Result}

/-- The line is added to a program as one with a word of the Compass dialect. -/
def Line.isForeign (ln : Line) : Bool := ln.script.isNone && (Token.compassWord? ln.tokens).isSome

/-! ## The report in the program -/

namespace Building

theorem root_subset_edit (st : Building) (e : Edit) : st.root ⊆ (st.edit e).root := by
  have added (st : Building) (x : Statement) : st.root ⊆ (st.add x).root := by
    unfold add
    split
    · exact subset_cons_self _ _
    · exact Subset.refl _
  have left (pos : Pos) (repeated : Bool) (lonely : Cause) : st.root ⊆ (st.leave pos repeated lonely).root := by
    unfold leave
    split
    next block rest _ =>
      split
      · exact added { st with blocks := rest } block.close
      · exact Subset.refl _
    · exact Subset.refl _
  cases e with
  | act node action => exact added st _
  | choose | repeated | fail | abort => exact Subset.refl _
  | divide pos =>
    rw [edit, divide]
    split <;> exact Subset.refl _
  | close pos repeated => cases repeated <;> exact left _ _ _

theorem root_subset_editAll (st : Building) (es : List Edit) : st.root ⊆ (st.editAll es).root := by
  induction es generalizing st with
  | nil => exact Subset.refl _
  | cons e es ih => exact Subset.trans (st.root_subset_edit e) (ih _)

end Building

namespace Program

theorem root_subset_closeAll (root : List Statement) (inner : Option Statement) (blocks : List Block) :
    root ⊆ closeAll root inner blocks := by
  induction blocks generalizing inner with
  | nil => exact subset_append_right _ _
  | cons block rest ih => exact ih _

/-- **A line with a word of the Compass dialect adds a report**, and nothing else. -/
theorem edits_foreign (native : s.dialect = .native) (foreign : ln.isForeign = true) (owner : Text) (seq : Nat) :
    ∃ node fault, edits s owner seq ln = [badEdit node fault] := by
  rw [Line.isForeign, Bool.and_eq_true, Option.isNone_iff_eq_none, Option.isSome_iff_exists] at foreign
  obtain ⟨noScript, word, isWord⟩ := foreign
  have becomes := edits_becomes s owner seq ln
  generalize edits s owner seq ln = es at becomes
  cases becomes with
  | lexical | label | foreign => exact ⟨_, _, rfl⟩
  | script _ isScript => cases noScript.symm.trans isScript
  | body _ _ noWord => cases isWord.symm.trans (noWord native)

/-- **Outside of blocks the report is a statement of the program itself.** -/
theorem mem_program_of_foreign (native : s.dialect = .native) (foreign : ln.isForeign = true)
    (outside : (lines s before {}).blocks = []) (whole : (build s (before ++ ln :: after)).fatal = none) :
    ∃ node fault, .act node (.bad fault) ∈ (build s (before ++ ln :: after)).program := by
  obtain ⟨built, finished⟩ := build_whole whole
  have front := going_of_append built
  rw [lines_append rfl, if_neg (by simp [front])] at built finished
  obtain ⟨node, fault, added⟩ := edits_foreign native foreign (lines s before {}).owner ((lines s before {}).seq + 1)
  refine ⟨node, fault, ?_⟩
  rw [finished, Building.program, mem_reverse, finish_root]
  refine root_subset_closeAll _ _ _ ?_
  rw [lines_eq _ _ built, allEdits, added, Building.editAll_append]
  refine Building.root_subset_editAll _ _ ?_
  simp [badEdit, Building.edit, Building.act, Building.add, outside]

end Program

/-! ## What is looked at -/

namespace Macro

/-- A definition has a Compass form: its name stands behind the word `macro`, or a parameter has an `@` in front. -/
def hasCompassForm (label : Option Token) (args : List Token) : Bool :=
  label.isNone || ((Token.splitArgs args).filterMap Token.singleWord?).any (·.head? == some '@'.toUInt8)

/-- A line that comes behind lines which are expanded to `st`, and that is looked at for words of the Compass dialect.
    A line that goes on is, unless it starts a script, and so is a definition that has a Compass form.  Of a use, only
    the lines are that come in its place. -/
def isNoticed (s : Settings) (st : Expansion) (ln : Line) : Bool :=
  match task st.macros ln with
  | .keep => ln.script.isNone
  | .define label args => hasCompassForm label args
  | .lonely => true
  | .use _ _ _ =>
    let copies := (expand s depthLimit [ln] st.emptied).lines.toList
    (List.range copies.length).any fun i => copies[i]?.any Line.isForeign &&
      (Program.lines s (st.lines.toList ++ copies.take i) {}).blocks.isEmpty

theorem definitionFaults_ne_nil (form : hasCompassForm label args = true) (closed : Bool) :
    definitionFaults .native label args closed ≠ [] := by
  have reported : ∀ (name : Option Text) (params : List (List Token)) (form : Bool), name = none ∨ form = true →
      (headingFault? .native name params form).isSome = true := by
    intro name params form h
    unfold headingFault?
    split
    · rfl
    next named =>
      split
      · rfl
      · rcases h with rfl | rfl
        · simp at named
        · rfl
  unfold definitionFaults
  dsimp only
  refine append_ne_nil_of_right_ne_nil _ ?_
  rw [ne_eq, Option.toList_eq_nil_iff, ← ne_eq, Option.ne_none_iff_isSome]
  refine reported _ _ _ ?_
  cases label with
  | some label =>
    right
    simpa [heading, hasCompassForm] using form
  | none =>
    cases args with
    | nil => exact .inl rfl
    | cons first rest =>
      cases isWord : first.word? with
      | none => left; simp [heading, isWord]
      | some name => right; simp [heading, isWord]

variable {depth : Nat}

theorem expand_behind (ends : definitionsEnd 0 before = true) (rest : List Line) (st : Expansion) :
    expand s depth (before ++ rest) st =
      (expand s depth rest (expand s depth before st).emptied).after (expand s depth before st).lines
        (expand s depth before st).diagnostics := by
  rw [expand_append ends, ← expand_after]
  simp [Expansion.after, Expansion.emptied]

theorem diagnostics_subset_expand (lines : List Line) (st : Expansion) :
    st.diagnostics.toList ⊆ (expand s depth lines st).diagnostics.toList := by
  have same : st = st.emptied.after st.lines st.diagnostics := by simp [Expansion.after, Expansion.emptied]
  rw [same, expand_after]
  simp [Expansion.after, Expansion.emptied]

theorem expand_cons_of_noUse {st : Expansion} (noUse : use? st ln = none) (rest : List Line) :
    expand s depth (ln :: rest) st =
      expand s depth (rest.drop (settle s (depth = 0) ln rest st).2) (settle s (depth = 0) ln rest st).1 :=
  (Runs.line (.inr noUse) rfl (runs_expand s depth _ _)).expand_eq

theorem mem_define_diagnostics {rest : List Line} {fault : Fault}
    (wrong : fault ∈ definitionFaults s.dialect label args (bodyLines 0 rest).2) (ln : Line) (st : Expansion) :
    Diagnostic.of .error ln.pos 1 fault ∈ (define s ln label args rest st).1.diagnostics.toList := by
  have reported : Diagnostic.of .error ln.pos 1 fault ∈ (failAll st ln.pos
      (definitionFaults s.dialect label args (bodyLines 0 rest).2)).diagnostics.toList := by
    simp only [failAll, Array.toList_append, mem_append, List.mem_map]
    exact .inr ⟨fault, wrong, rfl⟩
  rw [define_eq]
  dsimp only
  split
  · exact reported
  · split
    · simp only [Expansion.fail, Array.toList_push]
      exact mem_append_left _ reported
    · exact reported

end Macro

namespace Assembly

open Macro

theorem stable_reports (run : assembleText s cancelled file data = .finished r) (stable : r.state = .stable) :
    (Program.build s (expansionOf s file data).lines.toList).fatal = none ∧
      ∀ d ∈ reports s file data, d.isError = false := by
  have fine := Result.fault_eq_none stable
  constructor
  · rw [assembleText_stages] at run
    split at run
    · cases run
      cases fine
    split at run
    · cases run
      cases fine
    next built => exact built
  · rcases finished_cases run with ⟨found, fault, rfl⟩ | ⟨n, -, -, ends⟩
    · cases fine
    · obtain ⟨-, -, clean, -⟩ := ends.of_stable stable
      exact fun d mem => clean d (mem_append_left _ mem)

/-- **A stable program has no foreign line outside of blocks.** -/
theorem not_foreign_of_stable (native : s.dialect = .native) (run : assembleText s cancelled file data = .finished r)
    (stable : r.state = .stable) (lines : (expansionOf s file data).lines.toList = before ++ ln :: after)
    (outside : (Program.lines s before {}).blocks = []) : ln.isForeign = false := by
  by_contra foreign
  rw [Bool.not_eq_false] at foreign
  have whole := (stable_reports run stable).1
  rw [lines] at whole
  obtain ⟨node, fault, isBad⟩ := Program.mem_program_of_foreign native foreign outside whole
  rw [← lines] at isBad
  obtain ⟨u, fine⟩ := Walk.clean_steps_mem (stable_converged run stable).clean isBad
  exact Walk.not_clean_fail _ _ _ _ ((Walk.list_clean _ _ _ _ _).1 fine)

/-- **Words of the Compass dialect are refused by the native one**: a source is not stable if it has a line with such
    a word outside of definitions, scripts and blocks, and the line is one that is looked at. -/
theorem compass_word_refused {s : Settings} (native : s.dialect = .native) {cancelled : Nat → Bool} {file data : Text}
    {before after : List Line} {ln : Line} (loaded : loadedOf s file data = before ++ ln :: after)
    (found : (Token.compassWord? ln.tokens).isSome = true) (outside : definitionsEnd 0 before = true)
    (unblocked : (Program.lines s (expand s depthLimit before {}).lines.toList {}).blocks = [])
    (noticed : isNoticed s (expand s depthLimit before {}) ln = true) {r : Result}
    (run : assembleText s cancelled file data = .finished r) : r.state ≠ .stable := by
  intro stable
  have split : expansionOf s file data = _ :=
    (congrArg (expand s depthLimit · {}) loaded).trans (expand_behind outside _ _)
  generalize expand s depthLimit before {} = front at unblocked noticed split
  have known : front.emptied.macros = front.macros := rfl
  -- an error that the line reports by itself is one of the reports
  have silent (noUse : use? front.emptied ln = none) :
      ∀ d ∈ (settle s (depthLimit = 0) ln after front.emptied).1.diagnostics.toList, d.isError = false := by
    intro d mem
    refine (stable_reports run stable).2 d (List.mem_append_left _ (List.mem_append_right _ ?_))
    change d ∈ (expansionOf s file data).diagnostics.toList
    rw [split, expand_cons_of_noUse noUse, Expansion.after, Array.toList_append]
    exact List.mem_append_right _ (diagnostics_subset_expand _ _ mem)
  -- what comes in place of the line is added behind the lines before it
  have accepted (single : ∀ label args, task front.macros ln ≠ .define label args) (pre : List Line) (copy : Line)
      (post : List Line) (made : (expand s depthLimit [ln] front.emptied).lines.toList = pre ++ copy :: post)
      (outside : (Program.lines s (front.lines.toList ++ pre) {}).blocks = []) : copy.isForeign = false := by
    have ends : definitionsEnd 0 [ln] = true := by
      rw [definitionsEnd, if_neg (by simpa [startsDefinition_iff front.macros] using single)]
      rfl
    have lines : (expansionOf s file data).lines.toList = (front.lines.toList ++ pre) ++ copy :: (post ++
        (expand s depthLimit after (expand s depthLimit [ln] front.emptied).emptied).lines.toList) := by
      rw [split, ← List.singleton_append, expand_behind ends]
      simp only [Expansion.after, Array.toList_append, made, List.append_assoc, List.cons_append]
    exact not_foreign_of_stable native run stable lines outside
  rw [isNoticed] at noticed
  cases isTask : task front.macros ln with
  | keep =>
    rw [isTask] at noticed
    have alone : (expand s depthLimit [ln] front.emptied).lines.toList = [] ++ ln :: [] := by
      rw [expand_cons_of_noUse (by rw [use?, known, isTask]), settle, known, isTask]
      rfl
    have native := accepted (by simp [isTask]) [] ln [] alone (by simpa using unblocked)
    simp only [Line.isForeign, noticed, found] at native
    cases native
  | define label args =>
    rw [isTask] at noticed
    have quiet := silent (by rw [use?, known, isTask])
    rw [settle, known, isTask] at quiet
    obtain ⟨fault, wrong⟩ := List.exists_mem_of_ne_nil _ (definitionFaults_ne_nil noticed (bodyLines 0 after).2)
    rw [← native] at wrong
    exact Bool.noConfusion (quiet _ (mem_define_diagnostics wrong ln front.emptied))
  | lonely =>
    have quiet := silent (by rw [use?, known, isTask])
    rw [settle, known, isTask] at quiet
    exact Bool.noConfusion (quiet (.of .error ln.pos 1 (.plain .endmLonely)) (by simp [Expansion.fail]))
  | use label m args =>
    rw [isTask] at noticed
    obtain ⟨i, -, here⟩ := List.any_eq_true.1 noticed
    rw [Bool.and_eq_true, List.isEmpty_iff, Option.any_eq_true] at here
    obtain ⟨⟨copy, isCopy, foreign⟩, outside⟩ := here
    obtain ⟨inside, rfl⟩ := List.getElem?_eq_some_iff.1 isCopy
    have cut := List.take_append_drop i (expand s depthLimit [ln] front.emptied).lines.toList
    rw [List.drop_eq_getElem_cons inside] at cut
    rw [accepted (by simp [isTask]) _ _ _ cut.symm outside] at foreign
    cases foreign

/-- A source that hands a word of the Compass dialect over to a macro, behind a block. -/
def handedSource : Text := bytes "m macro p\n db 1\n db p\n endm\n if 0\n endif\n m @x\n"

theorem compass_word_refused_handed : ∃ r,
    assembleText .bare neverCancelled (bytes "a.asm") handedSource = .finished r ∧ r.state ≠ .stable := by
  have loaded : loadedOf .bare (bytes "a.asm") handedSource = (loadedOf .bare (bytes "a.asm") handedSource).take 6 ++
      Source.lineAt .native (bytes "a.asm") 7 (bytes " m @x") :: [] := by decide +kernel
  obtain ⟨r, run, -⟩ := Outcome.exists_of_any
    (by decide +kernel : (assembleText .bare neverCancelled (bytes "a.asm") handedSource).any (fun _ => true) = true)
  exact ⟨r, run, compass_word_refused rfl loaded (by decide +kernel) (by decide +kernel)
    (List.isEmpty_iff.1 (by decide +kernel)) (by decide +kernel) run⟩

/-- Sources that are taken, and the number of a line with a word of the Compass dialect: the name and a parameter of a
    definition, an argument of a use, and the heading of a script. -/
def unseenSources : List (Nat × Text) :=
  [(0, bytes "@m macro\n nop\n endm\n @m\n"), (0, bytes "m macro a@b\n nop\n endm\n m 1\n"),
    (3, bytes "m macro a\n nop\n endm\n m @x\n"), (0, bytes " script @x\n endscript\n")]

/-- **Words of the Compass dialect may go unseen**: each of the sources is stable, although its line stands outside of
    definitions, scripts and blocks. -/
theorem compass_word_unseen : unseenSources.all (fun (n, source) =>
    (assembleText .bare neverCancelled (bytes "a.asm") source).any (·.state == .stable) &&
      (loadedOf .bare (bytes "a.asm") source)[n]?.any (fun ln => (Token.compassWord? ln.tokens).isSome) &&
      definitionsEnd 0 ((loadedOf .bare (bytes "a.asm") source).take n) &&
      (Program.lines .bare (expand .bare depthLimit ((loadedOf .bare (bytes "a.asm") source).take n)
        {}).lines.toList {}).blocks.isEmpty) = true := by
  decide +kernel

end Assembly

end Z80Asm
