import Z80Asm.Proofs.UnrolledLines

/-!
# Sources with repetitions written out

Rows between ` rept` with a number and ` endr` may be written out that many times.
-/

namespace Z80Asm

open Source Diagnostics List

namespace Source

theorem linesAt_moved (dialect : Dialect) (file : Text) (n n' : Nat) (rows : List Text) :
    Pieces (fun _ _ => False) (linesAt dialect file n rows) (linesAt dialect file n' rows) := by
  induction rows generalizing n n' with
  | nil => exact .nil
  | cons row rows ih =>
    have moved : (lineAt dialect file n row).Moved (lineAt dialect file n' row) := ⟨rfl, rfl, rfl, rfl⟩
    exact .keep moved (ih _ _)

theorem exists_copies (dialect : Dialect) (file : Text) (n k : Nat) (rows : List Text) :
    ∃ copies : List (List Line), copies.length = k ∧
      linesAt dialect file n (List.replicate k rows).flatten = copies.flatten ∧
      ∀ copy ∈ copies, ∃ n', copy = linesAt dialect file n' rows := by
  induction k generalizing n with
  | zero => exact ⟨[], rfl, rfl, fun _ mem => nomatch mem⟩
  | succ k ih =>
    obtain ⟨copies, length, lines, each⟩ := ih (n + rows.length)
    refine ⟨linesAt dialect file n rows :: copies, by rw [length_cons, length], ?_, ?_⟩
    · rw [replicate_succ, flatten_cons, linesAt_append, lines, flatten_cons]
    · exact forall_mem_cons.2 ⟨⟨n, rfl⟩, each⟩

end Source

namespace Program
variable {s : Settings} {ls ls' : List Line}

theorem Repeatable.moved (h : Repeatable s ls) (pieces : Pieces (fun _ _ => False) ls ls') : Repeatable s ls' := by
  have same : BuiltAlike False s s ls ls' := .of_moved pieces
  obtain ⟨T, -, -, built⟩ := same.build
  refine ⟨fun ln' mem => ?_, fun ln' mem => ?_, built.fatal.trans h.whole, ?_, ?_⟩
  · obtain ⟨ln, known, moved⟩ := pieces.exists_moved ln' mem
    rw [moved.tokens]
    exact h.locals ln known
  · obtain ⟨ln, known, moved⟩ := pieces.exists_moved ln' mem
    rw [moved.tokens]
    exact h.tests ln known
  · have none := built.diagnostics
    simpa [h.quiet, severities] using none
  · intro none
    have program := built.root.reverse
    rw [Building.program] at none
    rw [none] at program
    cases filled : (build s ls).root.reverse with
    | nil => exact h.filled filled
    | cons =>
      rw [filled] at program
      cases program

end Program

namespace Assembly

open Program

/-- A source `data'` in which a repetition of the source `data` is written out: behind the rows of `front`, the
    rows between `first` and `last` stand `n` times, and then both go on with the rows `rest`. -/
structure Unrolls (s : Settings) (file front data data' first last : Text) (n : Nat) (rows rest : List Text) :
    Prop where
  rolled : Text.lines data = Text.lines front ++ (first :: (rows ++ [last]) ++ rest)
  unrolled : Text.lines data' = Text.lines front ++ ((List.replicate n rows).flatten ++ rest)
  /-- The repetition does not start inside of a script, nor inside of a definition of a macro. -/
  scripts : Source.scriptsEnd s.dialect 0 (Text.lines front) = true
  definitions : Macro.definitionsEnd 0 (loadedOf s file front) = true
  opens : ∃ number, (Source.lineAt s.dialect file 1 first).Directs .rept [.number number (.ofNat n)]
  closes : (Source.lineAt s.dialect file 1 last).Directs .endr []
  least : 0 < n
  most : n ≤ 65536
  /-- The rows in between load nothing, are no end and no script, and define no macro. -/
  plain : ∀ row ∈ rows, ∀ d ∈ [Directive.insert, .finish, .script, .define, .endm],
    Token.bodyIs d (lex s.dialect row).tokens = false
  names : ∀ row ∈ first :: (rows ++ [last]), ∀ tok ∈ (Token.body (lex s.dialect row).tokens).head?,
    tok.text ∉ (expansionOf s file front).macros
  repeatable : Repeatable s (Source.linesAt s.dialect file 1 rows)

/-- Both sources are loaded and expanded in the same way, and built to programs of which one has the body of a
    repetition written out. -/
structure StagesUnrolled (s : Settings) (file data data' : Text) (n : Nat) : Prop where
  fatal : (Source.load s Source.includeLimit file data' {}).fatal =
    (Source.load s Source.includeLimit file data {}).fatal
  loaded : Diagnostics.severities (Source.load s Source.includeLimit file data' {}).diagnostics.toList =
    Diagnostics.severities (Source.load s Source.includeLimit file data {}).diagnostics.toList
  expanded : Diagnostics.severities (expansionOf s file data').diagnostics.toList =
    Diagnostics.severities (expansionOf s file data).diagnostics.toList
  ended : (build s (expansionOf s file data').lines.toList).fatal = (build s (expansionOf s file data).lines.toList).fatal
  built : Diagnostics.severities (build s (expansionOf s file data').lines.toList).diagnostics.toList =
    Diagnostics.severities (build s (expansionOf s file data).lines.toList).diagnostics.toList
  program : (build s (expansionOf s file data).lines.toList).fatal = none →
    Statement.Unrolled (.ofNat n) n (programOf s file data) (programOf s file data')

/-- **Sources that are built so are assembled to the same result.** -/
theorem StagesUnrolled.ends {s : Settings} {file data data' : Text} {n : Nat} (h : StagesUnrolled s file data data' n)
    (least : 0 < n) (most : n ≤ 65536) :
    (LaterTurnsSettle s (programOf s file data) →
        Outcome.Close (assembleText s neverCancelled file data) (assembleText s neverCancelled file data')) ∧
      (TurnsKept s (programOf s file data) →
        Outcome.Same (assembleText s neverCancelled file data) (assembleText s neverCancelled file data')) := by
  have found : (reports s file data').severities = (reports s file data).severities :=
    severities_append (severities_append h.loaded h.expanded) h.built
  have times : (Int64.ofNat n).toInt = n := Int64.toInt_ofNat_of_lt (by omega)
  have fits : Cpu.misfit? (.ofNat n) 0 repeatLimit true = none := by
    have limit : repeatLimit.toInt = 65536 := rfl
    simp only [Cpu.misfit?, Int64.lt_iff_toInt_lt, times, limit, Int64.toInt_zero]
    rw [if_neg]
    simp only [Bool.or_eq_true, decide_eq_true_eq]
    omega
  have both {o o' : Outcome} (same : o.Same o') : (LaterTurnsSettle s (programOf s file data) → o.Close o') ∧
      (TurnsKept s (programOf s file data) → o.Same o') := ⟨fun _ => same.close, fun _ => same⟩
  rw [assembleText_stages, assembleText_stages, h.fatal, h.ended]
  cases (load s includeLimit file data {}).fatal with
  | some fault => exact both (.finished (.of_placed (S := .same) rfl rfl rfl .none h.loaded))
  | none =>
    cases ended : (build s (expansionOf s file data).lines.toList).fatal with
    | some fault => exact both (.finished (.of_placed (S := .same) rfl rfl rfl .none found))
    | none => exact passesOver_unrolled (h.program ended) least fits (by simp [times]) found

namespace Unrolls
variable {s : Settings} {file front data data' first last : Text} {n : Nat} {rows rest : List Text}
  (h : Unrolls s file front data data' first last n rows rest)
include h

/-- Neither the repetition nor its copies load anything, define a macro or use one. -/
theorem passedOn : ∀ row ∈ first :: (rows ++ [last]), rowTask s.dialect row = .line ∧
    ∀ n, Macro.task (expansionOf s file front).macros (lineAt s.dialect file n row) = .keep := by
  obtain ⟨number, opens⟩ := h.opens
  have plain : ∀ row ∈ first :: (rows ++ [last]), ∀ d ∈ [Directive.insert, .finish, .script, .define, .endm],
      Token.bodyIs d (lex s.dialect row).tokens = false := by
    refine forall_mem_cons.2 ⟨fun d mem => ?_, forall_mem_append.2 ⟨h.plain, ?_⟩⟩
    · exact bodyIs_of_directs opens (by simp) (by rintro rfl; simp at mem)
    · refine forall_mem_singleton.2 fun d mem => ?_
      exact bodyIs_of_directs h.closes (by simp) (by rintro rfl; simp at mem)
  intro row mem
  refine ⟨?_, fun n => Macro.task_keep (plain row mem _ (by simp)) (plain row mem _ (by simp)) ?_⟩
  · simp [rowTask, plain row mem]
  · intro tok isHead name isWord
    rw [← Token.text_of_word? isWord]
    exact h.names row mem tok isHead

/-- Both sources are built to programs of which one has the body of the repetition written out, if they are loaded
    and expanded so. -/
theorem built (n₀ : Nat) {c c' : Expansion} (alike : c.Alike (fun _ _ => False) c')
    (rolled : expansionOf s file data =
      c.after ((expansionOf s file front).lines ++
        (linesAt s.dialect file n₀ (first :: (rows ++ [last]))).toArray) (expansionOf s file front).diagnostics)
    (unrolled : expansionOf s file data' =
      c'.after ((expansionOf s file front).lines ++
        (linesAt s.dialect file n₀ (List.replicate n rows).flatten).toArray)
        (expansionOf s file front).diagnostics) :
    (build s (expansionOf s file data').lines.toList).fatal = (build s (expansionOf s file data).lines.toList).fatal ∧
      severities (build s (expansionOf s file data').lines.toList).diagnostics.toList =
        severities (build s (expansionOf s file data).lines.toList).diagnostics.toList ∧
      ((build s (expansionOf s file data).lines.toList).fatal = none →
        Statement.Unrolled (.ofNat n) n (programOf s file data) (programOf s file data')) := by
  obtain ⟨number, opens⟩ := h.opens
  obtain ⟨copies, length, copied, each⟩ := exists_copies s.dialect file n₀ n rows
  have repeatable := h.repeatable.moved (linesAt_moved s.dialect file 1 (n₀ + 1) rows)
  have moved : ∀ copy ∈ copies, Pieces (fun _ _ => False) (linesAt s.dialect file (n₀ + 1) rows) copy := by
    intro copy mem
    obtain ⟨n', rfl⟩ := each copy mem
    exact linesAt_moved ..
  have some : copies ≠ [] := by
    rintro rfl
    have := h.least
    simp_all
  have opens' : (lineAt s.dialect file n₀ first).Directs .rept [.number number (.ofNat n)] := { opens with }
  have closes : (lineAt s.dialect file (n₀ + 1 + rows.length) last).Directs .endr [] := { h.closes with }
  have lines : (expansionOf s file data).lines.toList = (expansionOf s file front).lines.toList ++
      (lineAt s.dialect file n₀ first :: (linesAt s.dialect file (n₀ + 1) rows ++
        [lineAt s.dialect file (n₀ + 1 + rows.length) last]) ++ c.lines.toList) := by
    simp [rolled, Expansion.after, linesAt, linesAt_append]
  have lines' : (expansionOf s file data').lines.toList = (expansionOf s file front).lines.toList ++
      (copies.flatten ++ c'.lines.toList) := by
    simp [unrolled, Expansion.after, copied]
  have ends := build_unrolled repeatable opens' closes alike.lines moved some (congrArg (build s) lines).symm
    (congrArg (build s) lines').symm
  rwa [length] at ends

/-- Both sources end before the repetition, or are built to such programs. -/
theorem stages : assembleText s neverCancelled file data' = assembleText s neverCancelled file data ∨
    StagesUnrolled s file data data' n := by
  have passedOn := h.passedOn
  have within : ∀ row ∈ (List.replicate n rows).flatten, row ∈ first :: (rows ++ [last]) := by
    intro row mem
    obtain ⟨_, same, mem⟩ := mem_flatten.1 mem
    rw [(mem_replicate.1 same).2] at mem
    simp [mem]
  rcases load_parts h.rolled h.unrolled h.scripts (fun row mem => (passedOn row mem).1)
    (fun row mem => (passedOn row (within row mem)).1) includeLimit
    with ⟨same, same'⟩ | ⟨-, n₀, c, c', loaded, rolled, unrolled⟩
  · left
    rw [assembleText, assembleText, same, same']
  · right
    have keeps {inside : List Text} (known : ∀ row ∈ inside, row ∈ first :: (rows ++ [last])) :
        ∀ ln ∈ linesAt s.dialect file n₀ inside, Macro.task (expansionOf s file front).macros ln = .keep := by
      intro ln mem
      obtain ⟨row, isRow, n', rfl⟩ := exists_of_mem_linesAt mem
      exact (passedOn row (known row isRow)).2 n'
    obtain ⟨e, e', expanded, long, short⟩ :=
      Macro.expand_parts rfl h.definitions (keeps fun _ => id) (keeps within) loaded.lines
    have data_lines : loadedOf s file data = loadedOf s file front ++
        (linesAt s.dialect file n₀ (first :: (rows ++ [last])) ++ c.lines.toList) := by
      simp [loadedOf, rolled, Loading.after]
    have data_lines' : loadedOf s file data' = loadedOf s file front ++
        (linesAt s.dialect file n₀ (List.replicate n rows).flatten ++ c'.lines.toList) := by
      simp [loadedOf, unrolled, Loading.after]
    rw [← data_lines] at long
    rw [← data_lines'] at short
    obtain ⟨ended, built, program⟩ := h.built n₀ expanded long short
    refine ⟨?_, ?_, ?_, ended, built, program⟩
    · rw [rolled, unrolled]
      exact loaded.fatal
    · rw [rolled, unrolled]
      simp only [Loading.after, Array.toList_append]
      exact severities_append rfl loaded.diagnostics
    · have long' : expansionOf s file data = _ := long
      have short' : expansionOf s file data' = _ := short
      rw [long', short']
      simp only [Expansion.after, Array.toList_append]
      exact severities_append rfl expanded.diagnostics

end Unrolls

/-- **A repetition can be written out.**  The source with it and the source with its rows written out are assembled
    to the same state, code and symbols, with as many errors and warnings, and perhaps one pass more or less; and with
    as many passes, if no pass but the first that changes no symbol takes other turns than the pass before it. -/
theorem repetition_unrolled {s : Settings} {file front data data' first last : Text} {n : Nat} {rows rest : List Text}
    (h : Unrolls s file front data data' first last n rows rest) :
    (LaterTurnsSettle s (programOf s file data) →
        Outcome.Close (assembleText s neverCancelled file data) (assembleText s neverCancelled file data')) ∧
      (Statement.allFixed (programOf s file data) = true ∨ TurnsKept s (programOf s file data) →
        Outcome.Same (assembleText s neverCancelled file data) (assembleText s neverCancelled file data')) := by
  have ends : (LaterTurnsSettle s (programOf s file data) →
        Outcome.Close (assembleText s neverCancelled file data) (assembleText s neverCancelled file data')) ∧
      (TurnsKept s (programOf s file data) →
        Outcome.Same (assembleText s neverCancelled file data) (assembleText s neverCancelled file data')) := by
    rcases h.stages with same | stages
    · rw [same]
      exact ⟨fun _ => (Outcome.Same.refl _).close, fun _ => .refl _⟩
    · exact stages.ends h.least h.most
  exact ⟨ends.1, fun turns => ends.2 (turns.elim .of_fixed id)⟩

/-- The rows before a repetition that counts with a variable, and the rows behind it. -/
def countingFront : Text := bytes "m macro\n nop\n endm\naa: m\nv = 0\n"

/-- The source with the repetition, and with its rows written out. -/
def countingSource : Text :=
  countingFront ++ bytes " rept 3 ; thrice\nv = v + 1\n if v > 1\n db v\n endif\n endr\n.l: jr .l\n"

def countingCopies : Text := countingFront ++
  bytes "v = v + 1\n if v > 1\n db v\n endif\nv = v + 1\n if v > 1\n db v\n endif\n" ++
  bytes "v = v + 1\n if v > 1\n db v\n endif\n.l: jr .l\n"

theorem repetition_unrolled_counting :
    Unrolls .bare (bytes "a.asm") countingFront countingSource countingCopies (bytes " rept 3 ; thrice")
        (bytes " endr") 3 [bytes "v = v + 1", bytes " if v > 1", bytes " db v", bytes " endif"]
        [bytes ".l: jr .l"] ∧
      TurnsKept .bare (programOf .bare (bytes "a.asm") countingSource) ∧
      (assembleText .bare neverCancelled (bytes "a.asm") countingSource).any (fun r =>
        r.state == .stable && r.passes == 2 && r.code == #[0, 2, 3, 0x18, 0xFE]) = true ∧
      Outcome.Same (assembleText .bare neverCancelled (bytes "a.asm") countingSource)
        (assembleText .bare neverCancelled (bytes "a.asm") countingCopies) := by
  have kept : TurnsKept .bare (programOf .bare (bytes "a.asm") countingSource) := by
    intro n later _ before _ _
    have settled : Settled .bare (programOf .bare (bytes "a.asm") countingSource) 2 :=
      ⟨by decide +kernel, by decide +kernel⟩
    have early : n ≤ 2 := by
      by_contra late
      exact (before 2 Nat.two_pos (by omega)).unsettled settled
    obtain rfl : n = 2 := by omega
    decide +kernel
  have unrolls : Unrolls .bare (bytes "a.asm") countingFront countingSource countingCopies
      (bytes " rept 3 ; thrice") (bytes " endr") 3
      [bytes "v = v + 1", bytes " if v > 1", bytes " db v", bytes " endif"] [bytes ".l: jr .l"] := {
    rolled := by decide +kernel
    unrolled := by decide +kernel
    scripts := by decide +kernel
    definitions := by decide +kernel
    opens := ⟨bytes "3", rfl, rfl, ⟨bytes "rept", by decide +kernel⟩, by decide +kernel⟩
    closes := ⟨rfl, rfl, ⟨bytes "endr", by decide +kernel⟩, by decide +kernel⟩
    least := by decide
    most := by decide
    plain := by decide +kernel
    names := by decide +kernel
    repeatable := ⟨by decide +kernel, by decide +kernel, by decide +kernel, by decide +kernel, by decide +kernel⟩ }
  exact ⟨unrolls, kept, by decide +kernel, (repetition_unrolled unrolls).2 (.inr kept)⟩

/-- A source whose second pass takes other turns than its first one, but has as many sizes; and the same source
    with its inner repetition written out, which has one size less in the second pass. -/
def nestedSource : Text := bytes " rept later\n rept 1\n org 0\n endr\n endr\n" ++
  bytes " if later\n else\n org 0\n org 0\n endif\nlater equ 1\n"

def nestedCopies : Text :=
  bytes " rept later\n org 0\n endr\n if later\n else\n org 0\n org 0\n endif\nlater equ 1\n"

/-- **A repetition that is written out can be seen** in the number of passes, which may be one too many. -/
theorem repetition_seen :
    (∀ s ∈ [Settings.bare, { Settings.bare with maxPasses := 2 }],
      Unrolls s (bytes "a.asm") (bytes " rept later\n") nestedSource nestedCopies (bytes " rept 1") (bytes " endr") 1
        [bytes " org 0"] [bytes " endr", bytes " if later", bytes " else", bytes " org 0", bytes " org 0",
          bytes " endif", bytes "later equ 1"]) ∧
      ¬ Outcome.Same (assembleText .bare neverCancelled (bytes "a.asm") nestedSource)
        (assembleText .bare neverCancelled (bytes "a.asm") nestedCopies) ∧
      ¬ Outcome.Close
        (assembleText { Settings.bare with maxPasses := 2 } neverCancelled (bytes "a.asm") nestedSource)
        (assembleText { Settings.bare with maxPasses := 2 } neverCancelled (bytes "a.asm") nestedCopies) := by
  refine ⟨?_, fun same => ?_, fun close => ?_⟩
  · rintro s mem
    obtain rfl | rfl : s = .bare ∨ s = { Settings.bare with maxPasses := 2 } := by simpa using mem
    all_goals exact {
      rolled := by decide +kernel
      unrolled := by decide +kernel
      scripts := by decide +kernel
      definitions := by decide +kernel
      opens := ⟨bytes "1", rfl, rfl, ⟨bytes "rept", by decide +kernel⟩, by decide +kernel⟩
      closes := ⟨rfl, rfl, ⟨bytes "endr", by decide +kernel⟩, by decide +kernel⟩
      least := by decide
      most := by decide
      plain := by decide +kernel
      names := by decide +kernel
      repeatable := ⟨by decide +kernel, by decide +kernel, by decide +kernel, by decide +kernel, by decide +kernel⟩ }
  · have passes := same.passes_eq
    revert passes
    decide +kernel
  · have stable := close.agree.any_eq (·.state == .stable) fun h => congrArg (· == State.stable) h.state
    revert stable
    decide +kernel

end Assembly

end Z80Asm
