import Z80Asm.Proofs.LoadedRows
import Z80Asm.Proofs.Passes
import Z80Asm.Proofs.SplitSources

/-!
# A row among the rows of files

A row that is only a line is put among the rows of source files.  Loading finds the same files as without it, and
the lines that come from the row stand among the same lines, in other rows.
-/

namespace Z80Asm

/-- Lines, moved, with further lines among them that `A` allows. -/
inductive Inserted (A : Line → Prop) : List Line → List Line → Prop
  | nil : Inserted A [] []
  | keep {ln ln' : Line} (moved : ln.Moved ln') {rest rest' : List Line} (others : Inserted A rest rest') :
      Inserted A (ln :: rest) (ln' :: rest')
  | add {ln : Line} (allowed : A ln) {rest rest' : List Line} (others : Inserted A rest rest') :
      Inserted A rest (ln :: rest')

namespace Inserted
variable {A : Line → Prop} {ls ls' : List Line}

theorem append {more more' : List Line} (first : Inserted A ls ls') (second : Inserted A more more') :
    Inserted A (ls ++ more) (ls' ++ more') := by
  induction first with
  | nil => exact second
  | keep moved _ ih => exact .keep moved ih
  | add allowed _ ih => exact .add allowed ih

theorem length_le (h : Inserted A ls ls') : ls.length ≤ ls'.length := by
  induction h with
  | nil => exact le_rfl
  | keep _ _ ih => exact Nat.succ_le_succ ih
  | add _ _ ih => exact ih.trans (Nat.le_succ _)

theorem pieces (h : Inserted A ls ls') (same : ls'.length = ls.length) : Pieces (fun _ _ => False) ls ls' := by
  induction h with
  | nil => exact .nil
  | keep moved _ ih => exact .keep moved (ih (Nat.succ_injective same))
  | add _ others _ =>
    have le := others.length_le
    rw [List.length_cons] at same
    omega

theorem exists_split (h : Inserted A ls ls') (one : ls'.length = ls.length + 1) :
    ∃ before behind before' behind' ln, ls = before ++ behind ∧ ls' = before' ++ ln :: behind' ∧ A ln ∧
      Pieces (fun _ _ => False) before before' ∧ Pieces (fun _ _ => False) behind behind' := by
  induction h with
  | nil => cases one
  | @keep ln ln' moved rest rest' _ ih =>
    obtain ⟨before, behind, before', behind', new, rfl, rfl, allowed, first, second⟩ := ih (Nat.succ_injective one)
    exact ⟨ln :: before, behind, ln' :: before', behind', new, rfl, rfl, allowed, .keep moved first, second⟩
  | @add ln allowed rest rest' others _ =>
    exact ⟨[], rest, [], rest', ln, rfl, rfl, allowed, .nil, others.pieces (Nat.succ_injective one)⟩

end Inserted

structure Loading.Inserted (A : Line → Prop) (st st' : Loading) : Prop where
  lines : Z80Asm.Inserted A st.lines.toList st'.lines.toList
  diagnostics : Diagnostics.severities st'.diagnostics.toList = Diagnostics.severities st.diagnostics.toList
  fatal : st'.fatal = st.fatal

namespace Loading.Inserted
variable {A : Line → Prop} {st st' : Loading}

theorem add (h : st.Inserted A st') {ln : Line} (allowed : A ln) : st.Inserted A (st'.push ln) :=
  { h with lines := by simpa [Loading.push] using h.lines.append (.add allowed .nil) }

theorem keeps : Keeps (Inserted A) fun _ _ => True where
  next := id
  fatal h := h.fatal
  push {_ _ n n'} file ln _ h := by
    have moved : Line.Moved { ln with pos := { file, line := n } } { ln with pos := { file, line := n' } } :=
      ⟨rfl, rfl, rfl, rfl⟩
    exact { h with lines := by simpa [Loading.push] using h.lines.append (.keep moved .nil) }
  fail file fault _ h :=
    { h with
      diagnostics := by simpa [Loading.fail, Diagnostics.severities, Diagnostic.of] using h.diagnostics }
  abort file fault _ h :=
    { h with
      diagnostics := by simpa [Loading.abort, Diagnostics.severities, Diagnostic.of] using h.diagnostics
      fatal := rfl }

end Loading.Inserted

namespace Source

/-- The rows of a file without a row, and with it or without it.  No script is open before the row. -/
inductive MoreRows (dialect : Dialect) (row : Text) : List Text → List Text → Prop
  | same (rows : List Text) : MoreRows dialect row rows rows
  | more {front : List Text} (scripts : scriptsEnd dialect 0 front = true) (rest : List Text) :
      MoreRows dialect row (front ++ rest) (front ++ row :: rest)

def IsRowLine (dialect : Dialect) (row : Text) (ln : Line) : Prop := ∃ file n, ln = lineAt dialect file n row

variable {s : Settings} {file row : Text} {insert insert' : Pos → List Token → Loading → Loading}
  {read : Text → Except Fault Text} {st st' : Loading}

/-! ## One file -/

def InsertsMore (A : Line → Prop) (insert insert' : Pos → List Token → Loading → Loading) : Prop :=
  ∀ ⦃pos pos' : Pos⦄ (args : List Token) ⦃st st' : Loading⦄, pos'.file = pos.file → st.Inserted A st' →
    (insert pos args st).Inserted A (insert' pos' args st')

def LoadsMore (dialect : Dialect) (row : Text) (load load' : Text → Text → Loading → Loading) : Prop :=
  ∀ ⦃file data data' : Text⦄ ⦃st st' : Loading⦄, MoreRows dialect row (Text.lines data) (Text.lines data') →
    st.Inserted (IsRowLine dialect row) st' →
    (load file data st).Inserted (IsRowLine dialect row) (load' file data' st')

theorem insertsMore_iff {A : Line → Prop} : InsertsMore A insert insert' ↔
    Inserts (Loading.Inserted A) (fun _ => True) (fun _ _ => True) insert insert' := by
  constructor
  · intro h file n n' args st st' _ inserted _
    exact h args rfl inserted
  · rintro h ⟨file, n⟩ ⟨_, n'⟩ args st st' ⟨⟩ inserted
    exact h file args trivial inserted trivial

/-- **The rows of one file**, with a row among them that is only a line. -/
theorem loadRows_inserted (inserts : InsertsMore (IsRowLine s.dialect row) insert insert')
    (line : rowTask s.dialect row = .line) {skip : Nat} {front : List Text}
    (scripts : scriptsEnd s.dialect skip front = true) (n n' : Nat) (rest : List Text)
    (h : st.Inserted (IsRowLine s.dialect row) st') :
    (loadRows s file insert n skip (front ++ rest) st).Inserted (IsRowLine s.dialect row)
      (loadRows (s.reading read) file insert' n' skip (front ++ row :: rest) st') := by
  have dialect : (s.reading read).dialect = s.dialect := rfl
  have inserts := insertsMore_iff.1 inserts
  induction front generalizing n n' skip st st' with
  | nil =>
    cases skip with
    | succ skip => cases scripts
    | zero =>
      rw [List.nil_append, List.nil_append, loadRows_cons (s := s.reading read), dialect, line]
      exact loadRows_related Loading.Inserted.keeps inserts dialect (fun _ => trivial) trivial 0 rest
        (h.add ⟨file, n', rfl⟩) trivial
  | cons first front ih =>
    cases skip with
    | succ skip => exact ih scripts _ _ h
    | zero =>
      rw [scriptsEnd] at scripts
      rw [List.cons_append, List.cons_append]
      refine loadRows_cons_related Loading.Inserted.keeps inserts (congrArg (lex · first) dialect) (fun isScript => ?_)
        trivial (fun _ => trivial) (fun goesOn _ _ h _ => ?_) h trivial
      · rw [isScript] at scripts
        have room : (scriptRows s.dialect front).length < front.length := le_of_scriptsEnd scripts
        rw [dialect, scriptRows_append room, scriptRows_append room]
        simp only [List.length_append, List.length_cons, true_and]
        omega
      · have passed : passedOver s.dialect (front ++ rest) (rowTask s.dialect first) =
            passedOver s.dialect front (rowTask s.dialect first) := by
          cases task : rowTask s.dialect first with
          | line | insert | finish => rfl
          | script =>
            rw [task] at scripts
            rw [passedOver, passedOver, scriptRows_append (le_of_scriptsEnd scripts)]
        rw [passed]
        refine ih ?_ _ _ h
        cases task : rowTask s.dialect first with
        | line | insert | script => simpa only [task] using scripts
        | finish => exact absurd task goesOn

/-! ## All files -/

def ReadsMore (dialect : Dialect) (row : Text) (read read' : Text → Except Fault Text) : Prop :=
  ∀ path, read' path = read path ∨ ∃ data data', read path = .ok data ∧ read' path = .ok data' ∧
    MoreRows dialect row (Text.lines data) (Text.lines data')

theorem find_inserted (files : ReadsMore s.dialect row s.read read) (name source : Text) :
    (∃ fault, s.find name source = .error fault ∧ (s.reading read).find name source = .error fault) ∨
      ∃ path data data', s.find name source = .ok (path, data) ∧
        (s.reading read).find name source = .ok (path, data') ∧
        MoreRows s.dialect row (Text.lines data) (Text.lines data') := by
  have paths : (s.reading read).candidates = s.candidates := rfl
  refine find_related paths (fun path => ?_) name source
  have whole : (s.reading read).read path = read path := rfl
  rw [whole]
  rcases files path with same | ⟨data, data', found, found', more⟩
  · rw [same]
    cases s.read path with
    | error fault => exact .inl ⟨fault, rfl, rfl⟩
    | ok data => exact .inr ⟨data, data, rfl, rfl, .same _⟩
  · exact .inr ⟨data, data', found, found', more⟩

/-- **A source file and the files that it includes**, with a row among their rows that is only a line. -/
theorem load_inserted (files : ReadsMore s.dialect row s.read read) (line : rowTask s.dialect row = .line)
    (depth : Nat) : LoadsMore s.dialect row (load s depth) (load (s.reading read) depth) := by
  suffices loads : Loads (Loading.Inserted (IsRowLine s.dialect row)) (fun _ => True)
      (fun _ data data' => MoreRows s.dialect row (Text.lines data) (Text.lines data')) (load s depth)
      (load (s.reading read) depth) from fun _ _ _ _ _ more h => loads more h trivial
  refine (load_related Loading.Inserted.keeps (find_inserted files) (fun depth inserts => ?_) depth).2
  intro file data data' st st' more h _
  have dialect : (s.reading read).dialect = s.dialect := rfl
  rw [load_eq, load_eq]
  generalize Text.lines data = rows, Text.lines data' = rows' at more
  cases more with
  | same => exact loadRows_related Loading.Inserted.keeps inserts dialect (fun _ => trivial) trivial 0 rows h trivial
  | more scripts rest => exact loadRows_inserted (insertsMore_iff.2 inserts) line scripts 1 1 rest h

end Source

/-! ## Runs over lines -/

namespace Assembly

def expansion (s : Settings) (lines : List Line) : Expansion := Macro.expand s Macro.depthLimit lines {}

def building (s : Settings) (lines : List Line) : Building := Program.build s (expansion s lines).lines.toList

/-- The run over lines that are loaded, after what is `found` by then. -/
def assembleLines (s : Settings) (cancelled : Nat → Bool) (found : Diagnostics) (lines : List Line) : Outcome :=
  let found := found ++ (expansion s lines).diagnostics.toList ++ (building s lines).diagnostics.toList
  match (building s lines).fatal with
  | some fault => .finished { diagnostics := found, fault := some fault }
  | none => passesOver s cancelled found (building s lines).program

theorem assembleText_loaded (s : Settings) (cancelled : Nat → Bool) (file data : Text) :
    assembleText s cancelled file data =
      match (Source.load s Source.includeLimit file data {}).fatal with
      | some fault => .finished
          { diagnostics := (Source.load s Source.includeLimit file data {}).diagnostics.toList, fault := some fault }
      | none => assembleLines s cancelled (Source.load s Source.includeLimit file data {}).diagnostics.toList
          (loadedOf s file data) :=
  rfl

/-- **The same lines in other rows** are assembled to the same result, if they find the same binary files. -/
theorem assembleLines_moved {s : Settings} {read : Text → Except Fault Text} {lines lines' : List Line}
    (pieces : Pieces (fun _ _ => False) lines lines')
    (binaries : ∀ ln ∈ (expansion s lines).lines.toList, ∀ name ∈ ln.binary?,
      (s.reading read).find name ln.pos.file = s.find name ln.pos.file)
    {found found' : Diagnostics} (reports : found'.severities = found.severities) (cancelled : Nat → Bool) :
    Outcome.Same (assembleLines s cancelled found lines) (assembleLines (s.reading read) cancelled found' lines') := by
  have inert : AllInert (fun _ => True) fun _ _ => False := fun _ _ => False.elim
  have start : Expansion.Alike (fun _ _ => False) {} {} := ⟨fun _ => by simp, rfl, .nil, rfl⟩
  have expanded : (expansion s lines).Alike (fun _ _ => False) (expansion (s.reading read) lines') :=
    Macro.expand_pieces read inert (fun _ _ _ _ _ _ _ => False.elim) (fun _ _ => trivial) pieces start
  have alike : Program.BuiltAlike False s (s.reading read) _ _ := .of_reading expanded.lines binaries
  obtain ⟨T, known, ordered, built⟩ := alike.build
  have severities := Diagnostics.severities_append
    (Diagnostics.severities_append reports expanded.diagnostics) built.diagnostics
  have fatal : (building (s.reading read) lines').fatal = (building s lines).fatal := built.fatal
  rw [assembleLines, assembleLines, fatal]
  cases (building s lines).fatal with
  | some fault => exact .finished (.of_placed (S := T) rfl rfl rfl .none severities)
  | none =>
    have same : predefined (s.reading read) = predefined s := rfl
    have limit : (s.reading read).passLimit = s.passLimit := rfl
    exact passesOver_placed ordered known same limit built.root.reverse cancelled severities

end Assembly

end Z80Asm
