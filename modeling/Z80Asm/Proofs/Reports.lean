import Mathlib.Logic.Relation
import Z80Asm.Proofs.Blocks
import Z80Asm.Proofs.Expansion

/-!
# Reports about the source

What is reported before the passes is about the source alone (`SourceReport`): an error in it, or a file
that cannot be found.  The three stages add reports of these kinds only, and end early exactly where they
report a missing file (`WellKept`).
-/

namespace Z80Asm

open List

variable {dialect : Dialect} {fault : Fault} {cause : Cause}

/-- The fault does not come down to symbols that never settle, which only passes can find. -/
def Fault.IsOrdinary (fault : Fault) : Prop := fault.cause? ≠ some .unstable

namespace Fault.IsOrdinary

theorem plain (h : cause ≠ .unstable) : (Fault.plain cause).IsOrdinary := fun e => h (Option.some.inj e)

theorem about (h : cause ≠ .unstable) (note : Text) :
    (Fault.about cause note).IsOrdinary := fun e => h (Option.some.inj e)

theorem inMacro (h : cause ≠ .unstable) (name : Text) :
    (Fault.inMacro name (.plain cause)).IsOrdinary := fun e => h (Option.some.inj e)

end Fault.IsOrdinary

inductive SourceReport : Diagnostic → Prop
  | error (pos : Pos) {fault : Fault} (h : fault.IsOrdinary) :
      SourceReport (.of .error pos 1 fault)
  | missingFile (pos : Pos) (name : Text) (reason : Fault) :
      SourceReport (.of .fatal pos 1 (.file name reason))

/-- What a stage has reported, and the fault that ended it early, if one did. -/
structure Journal where
  diagnostics : Array Diagnostic
  fatal : Option Fault := none

def Loading.journal (st : Loading) : Journal := { diagnostics := st.diagnostics, fatal := st.fatal }

def Expansion.journal (st : Expansion) : Journal := { diagnostics := st.diagnostics }

def Building.journal (st : Building) : Journal := { diagnostics := st.diagnostics, fatal := st.fatal }

/-- The reports are about the source, and one of them is fatal exactly if the stage has ended, which is
    then for want of a file. -/
structure WellKept (j : Journal) : Prop where
  source : ∀ d ∈ j.diagnostics.toList, SourceReport d
  fatal_iff : (∃ d ∈ j.diagnostics.toList, d.isFatal = true) ↔ j.fatal.isSome = true
  access : ∀ fault ∈ j.fatal, fault.cause? = some .fileAccess

theorem mem_toList_push {ds : Array Diagnostic} {d e : Diagnostic} :
    e ∈ (ds.push d).toList ↔ e ∈ ds.toList ∨ e = d := by simp

namespace WellKept
variable {j : Journal}

theorem empty : WellKept { diagnostics := #[] } := ⟨by simp, by simp, by simp⟩

theorem pushError (h : WellKept j) (pos : Pos) (ordinary : fault.IsOrdinary) :
    WellKept { j with diagnostics := j.diagnostics.push (.of .error pos 1 fault) } where
  source e he := by
    rcases mem_toList_push.1 he with he | rfl
    · exact h.source e he
    · exact .error pos ordinary
  fatal_iff := by
    rw [← h.fatal_iff]
    constructor
    · rintro ⟨e, he, fatal⟩
      rcases mem_toList_push.1 he with he | rfl
      · exact ⟨e, he, fatal⟩
      · cases fatal
    · rintro ⟨e, he, fatal⟩
      exact ⟨e, mem_toList_push.2 (.inl he), fatal⟩
  access := h.access

theorem pushFatal (h : WellKept j) (pos : Pos) (name : Text) (reason : Fault) :
    WellKept { diagnostics := j.diagnostics.push (.of .fatal pos 1 (.file name reason))
               fatal := some (.file name reason) } where
  source e he := by
    rcases mem_toList_push.1 he with he | rfl
    · exact h.source e he
    · exact .missingFile pos name reason
  fatal_iff := ⟨fun _ => rfl, fun _ => ⟨_, mem_toList_push.2 (.inr rfl), rfl⟩⟩
  access := by rintro _ ⟨⟩; rfl

end WellKept

/-! ## Loading -/

structure Line.IsRow (dialect : Dialect) (ln : Line) : Prop where
  tokens : ln.tokens = (lex dialect ln.text).tokens
  fault : ln.fault = (lex dialect ln.text).fault
  unbroken : 0x0A ∉ ln.text
  numbered : 0 < ln.pos.line

namespace Text

theorem not_mem_splitAtByte {separator : UInt8} {t part : Text} (mem : part ∈ splitAtByte separator t) :
    separator ∉ part := by
  induction t generalizing part with
  | nil =>
    obtain rfl := mem_singleton.1 mem
    exact not_mem_nil
  | cons b rest ih =>
    rw [splitAtByte] at mem
    by_cases here : b = separator
    · rw [if_pos here] at mem
      rcases mem_cons.1 mem with rfl | mem
      · exact not_mem_nil
      · exact ih mem
    · rw [if_neg here] at mem
      cases parts : splitAtByte separator rest with
      | nil =>
        rw [parts] at mem
        obtain rfl := mem_singleton.1 mem
        simpa using Ne.symm here
      | cons first more =>
        rw [parts] at mem ih
        rcases mem_cons.1 mem with rfl | mem
        · simpa [Ne.symm here] using ih mem_cons_self
        · exact ih (mem_cons_of_mem _ mem)

theorem not_mem_lines {t row : Text} (mem : row ∈ lines t) : 0x0A ∉ row := by
  unfold lines at mem
  dsimp only at mem
  split at mem
  · exact not_mem_splitAtByte (mem_of_mem_dropLast mem)
  · exact not_mem_splitAtByte mem

end Text

/-- What loading does to its state: it adds a line that `P` holds of, reports what is wrong, or ends. -/
inductive Loading.Step (P : Line → Prop) (st : Loading) : Loading → Prop
  | push {ln : Line} (h : P ln) : Step P st (st.push ln)
  | fail (pos : Pos) {fault : Fault} (ordinary : fault.IsOrdinary) : Step P st (st.fail pos fault)
  | abort (pos : Pos) (name : Text) (reason : Fault) : Step P st (st.abort pos (.file name reason))

abbrev Loading.Steps (P : Line → Prop) : Loading → Loading → Prop := Relation.ReflTransGen (Step P)

namespace Loading.Steps
variable {P : Line → Prop} {st st' : Loading}

theorem isPrefix (h : Steps P st st') : st.lines.toList <+: st'.lines.toList := by
  induction h with
  | refl => exact prefix_rfl
  | tail _ step ih =>
    refine ih.trans ?_
    cases step with
    | push => simp [push]
    | fail | abort => exact prefix_rfl

theorem forall_mem (h : Steps P st st') (all : ∀ ln ∈ st.lines.toList, P ln) : ∀ ln ∈ st'.lines.toList, P ln := by
  induction h with
  | refl => exact all
  | tail _ step ih =>
    cases step with
    | push h => simpa [push, or_imp, forall_and] using ⟨by simpa using ih, h⟩
    | fail | abort => exact ih

theorem wellKept (h : Steps P st st') (kept : WellKept st.journal) : WellKept st'.journal := by
  induction h with
  | refl => exact kept
  | tail _ step ih =>
    cases step with
    | push => exact ih
    | fail pos ordinary => exact ih.pushError pos ordinary
    | abort pos name reason => exact ih.pushFatal pos name reason

end Loading.Steps

namespace Source
variable {P : Line → Prop} {s : Settings}

theorem insertFile_steps {load : Option (Text → Text → Loading → Loading)}
    (loads : ∀ f ∈ load, ∀ path data st, Loading.Steps P st (f path data st)) (pos : Pos) (args : List Token)
    (st : Loading) : Loading.Steps P st (insertFile s load pos args st) := by
  simp only [insertFile]
  split
  · exact .single (.fail pos (.plain (by decide)))
  split
  · exact .single (.fail pos (.about (by decide) _))
  split
  · exact .single (.fail pos (.about (by decide) _))
  next load =>
    split
    next fault missing =>
      obtain ⟨reason, rfl⟩ := Settings.find_error missing
      exact .single (.abort pos _ reason)
    next path data _ => exact loads load rfl path data st

theorem loadRows_steps {file : Text} {insert : Pos → List Token → Loading → Loading}
    (inserts : ∀ pos args st, Loading.Steps P st (insert pos args st)) (n skip : Nat) (rows : List Text) (st : Loading)
    (each : ∀ ln : Line, ln.tokens = (lex s.dialect ln.text).tokens → ln.fault = (lex s.dialect ln.text).fault →
      ln.text ∈ rows → (n : Int) ≤ ln.pos.line → P ln) :
    Loading.Steps P st (loadRows s file insert n skip rows st) := by
  induction rows generalizing n skip st with
  | nil => simpa only [loadRows] using .refl
  | cons row rest ih =>
    have next (skip : Nat) (st : Loading) : Loading.Steps P st (loadRows s file insert (n + 1) skip rest st) :=
      ih _ _ _ fun ln tokens fault mem line => each ln tokens fault (mem_cons_of_mem _ mem) (by omega)
    have pushed (st : Loading) (script : Option Text) : Loading.Step P st (st.push
        { pos := { file, line := n }, text := row, tokens := (lex s.dialect row).tokens
          fault := (lex s.dialect row).fault, script }) := .push (each _ rfl rfl mem_cons_self (Int.le_refl _))
    cases skip with
    | succ skip => exact next skip st
    | zero =>
      simp only [loadRows]
      split
      · exact .head (pushed _ _) (next _ _)
      split
      · have inserted := (inserts { file, line := n } ((Token.body (lex s.dialect row).tokens).drop 1) _).head
          (pushed st none)
        split
        · exact inserted
        · exact inserted.trans (next _ _)
      split
      · exact .single (pushed _ _)
      split
      · -- only a script without an end is reported
        refine .trans ?_ (.head (pushed _ _) (next _ _))
        split
        · exact .refl
        · exact .single (.fail _ (.plain (by decide)))
      · exact .head (pushed _ _) (next _ _)

/-- **Loading adds rows of files**, and reports what is wrong with them. -/
theorem load_steps (each : ∀ ln : Line, ln.IsRow s.dialect → P ln) (depth : Nat) (file data : Text) (st : Loading) :
    Loading.Steps P st (load s depth file data st) := by
  have rows (data : Text) (ln : Line) (tokens : ln.tokens = (lex s.dialect ln.text).tokens)
      (fault : ln.fault = (lex s.dialect ln.text).fault) (mem : ln.text ∈ Text.lines data)
      (line : ((1 : Nat) : Int) ≤ ln.pos.line) : P ln := each ln ⟨tokens, fault, Text.not_mem_lines mem, by omega⟩
  induction depth generalizing file data st with
  | zero => exact loadRows_steps (insertFile_steps (by simp)) _ _ _ _ (rows data)
  | succ depth ih =>
    refine loadRows_steps (insertFile_steps ?_) _ _ _ _ (rows data)
    rintro _ ⟨⟩
    exact ih

end Source

/-! ## Expansion -/

namespace Macro

theorem headingFault?_cause {name : Option Text} {params : List (List Token)} {compass : Bool}
    (h : headingFault? dialect name params compass = some fault) :
    fault.cause? = some .macroSyntax ∨ fault.cause? = some .compassOnly := by
  unfold headingFault? at h
  split at h
  · cases h; exact .inl rfl
  split at h
  · cases h; exact .inl rfl
  split at h
  · cases h; exact .inr rfl
  · cases h

theorem definitionFaults_cause {label : Option Token} {args : List Token} {closed : Bool}
    (mem : fault ∈ definitionFaults dialect label args closed) :
    fault.cause? ∈ [some .macroLonely, some .macroSyntax, some .compassOnly] := by
  rcases mem_append.1 mem with lonely | wrong
  · split at lonely
    · cases lonely
    · cases mem_singleton.1 lonely
      exact mem_cons_self
  · rcases headingFault?_cause (Option.mem_toList.1 wrong) with e | e <;> simp [e]

theorem failAll_reports {st : Expansion} (h : WellKept st.journal) (pos : Pos) {faults : List Fault}
    (ordinary : ∀ fault ∈ faults, fault.IsOrdinary) : WellKept (failAll st pos faults).journal := by
  induction faults generalizing st with
  | nil => simpa [failAll] using h
  | cons fault faults ih =>
    rw [forall_mem_cons] at ordinary
    have rest : failAll st pos (fault :: faults) = failAll (st.fail pos fault) pos faults := by
      simp [failAll, Expansion.fail]
    rw [rest]
    exact ih (h.pushError pos ordinary.1) ordinary.2

theorem settle_reports (s : Settings) (deep : Bool) (line : Line) (rest : List Line) {st : Expansion}
    (h : WellKept st.journal) : WellKept (settle s deep line rest st).1.journal := by
  unfold settle
  cases task st.macros line with
  | keep => exact h
  | lonely => exact h.pushError _ (.plain (by decide))
  | use label m args =>
    have labelled : WellKept (pushLabel st line label).journal := by cases label <;> exact h
    cases deep <;> exact labelled.pushError _ (by simp [Fault.IsOrdinary, Fault.cause?])
  | define label args =>
    have ordinary : ∀ fault ∈ definitionFaults s.dialect label args (bodyLines 0 rest).2, fault.IsOrdinary :=
      fun fault mem e => absurd (e ▸ definitionFaults_cause mem) (by decide)
    have reported := failAll_reports h line.pos ordinary
    dsimp only
    rw [define_eq]
    dsimp only
    split
    · exact reported
    split
    · exact reported.pushError _ (.inMacro (by decide) _)
    · exact reported

theorem Runs.reports {s : Settings} {depth : Nat} {lines : List Line} {st st' : Expansion} {us : List Use}
    (run : Runs s depth lines st us st') (h : WellKept st.journal) : WellKept st'.journal := by
  induction run with
  | done => exact h
  | @line depth line rest st st₁ st₂ size us _ settled _ ih =>
    have next := settle_reports s (depth = 0) line rest h
    rw [settled] at next
    exact ih next
  | use isUse _ _ inside behind =>
    obtain ⟨label, m, args, -, -, -, rfl⟩ := use?_eq_some isUse
    refine behind (inside ?_)
    cases label <;> exact h

theorem expand_reports (s : Settings) (depth : Nat) (lines : List Line) (st : Expansion) (h : WellKept st.journal) :
    WellKept (expand s depth lines st).journal :=
  (runs_expand s depth lines st).reports h

end Macro

/-! ## Building -/

namespace Building
variable {st : Building}

theorem add_journal (st : Building) (statement : Statement) : (st.add statement).journal = st.journal := by
  unfold add; split <;> rfl

theorem leave_reports (h : WellKept st.journal) (pos : Pos) (repeated : Bool) {lonely : Cause}
    (about : lonely ≠ .unstable) : WellKept (st.leave pos repeated lonely).journal := by
  unfold leave
  split
  · split
    · rw [add_journal]; exact h
    · exact h.pushError pos (.plain about)
  · exact h.pushError pos (.plain about)

/-- An edit reports what is wrong with its line, or that it does not fit the blocks. -/
theorem edit_reports (h : WellKept st.journal) {e : Edit} (sound : e.Sound) : WellKept (st.edit e).journal := by
  cases e with
  | act node action => exact (add_journal st _).symm ▸ h
  | choose | repeated => exact h
  | divide pos =>
    unfold edit divide
    dsimp only
    split
    · exact h
    all_goals exact h.pushError pos (.plain (by decide))
  | close pos repeated => cases repeated <;> exact leave_reports h pos _ (by decide)
  | fail pos fault =>
    have apart : .unstable ∉ Cause.ofLines := by decide
    obtain ⟨cause, known, comesDown⟩ := sound
    refine h.pushError pos fun unstable => apart ?_
    rwa [Option.some_inj.1 (comesDown.symm.trans unstable)] at known
  | abort pos fault =>
    obtain ⟨name, reason, rfl⟩ := sound
    exact h.pushFatal pos name reason

theorem editAll_reports {es : List Edit} (sound : ∀ e ∈ es, e.Sound) (h : WellKept st.journal) :
    WellKept (st.editAll es).journal :=
  foldlRecOn (motive := fun st => WellKept st.journal) es edit h fun _ kept e mem => edit_reports kept (sound e mem)

end Building

namespace Program
variable {s : Settings} {st : Building}

theorem line_reports (ln : Line) (h : WellKept st.journal) : WellKept (line s st ln).journal := by
  rw [line_eq]
  exact Building.editAll_reports (edits_spells s _ _ ln).sound h

theorem lines_reports : ∀ (ls : List Line) (st : Building), WellKept st.journal → WellKept (lines s ls st).journal
  | [], _, h => h
  | ln :: rest, st, h => by
    simp only [lines]
    split
    · exact line_reports ln h
    · exact lines_reports rest _ (line_reports ln h)

theorem finish_reports (h : WellKept st.journal) : WellKept (finish st).journal := by
  have lonely : ∀ (blocks : List Block) (st : Building), WellKept st.journal →
      WellKept (blocks.foldl (fun st block => st.fail block.pos block.lonely) st).journal := by
    intro blocks
    induction blocks with
    | nil => exact fun _ h => h
    | cons block rest ih =>
      intro st h
      refine ih _ (h.pushError _ ?_)
      cases block <;> exact .plain (by decide)
  exact lonely _ st h

theorem build_reports (s : Settings) (ls : List Line) : WellKept (build s ls).journal := by
  have built := lines_reports (s := s) ls {} WellKept.empty
  simp only [build]
  split
  · exact built
  · exact finish_reports built

end Program

end Z80Asm
