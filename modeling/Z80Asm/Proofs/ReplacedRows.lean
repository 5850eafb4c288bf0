import Z80Asm.Proofs.Loadings
import Z80Asm.Proofs.Pieces

/-!
# Rows in place of rows

Rows of source files are taken out, and other rows are put in their place.  If both are rows of instructions,
loading finds the same files, and from the rows come lines in place of lines.
-/

namespace Z80Asm

variable {dialect : Dialect} {n : Nat} {row : Text}

structure Loading.Alike (P : Line → List Line → Prop) (st st' : Loading) : Prop where
  lines : Pieces P st.lines.toList st'.lines.toList
  diagnostics : Diagnostics.severities st'.diagnostics.toList = Diagnostics.severities st.diagnostics.toList
  fatal : st'.fatal = st.fatal

namespace Loading.Alike
variable {P : Line → List Line → Prop} {st st' : Loading}

theorem pushAll (h : st.Alike P st') {ln : Line} {lns : List Line} (replaced : P ln lns) :
    (st.push ln).Alike P { st' with lines := st'.lines ++ lns.toArray } :=
  { h with lines := by simpa [Loading.push] using h.lines.append (.replace replaced .nil) }

theorem keeps : Keeps (Alike P) fun _ _ => True where
  next := id
  fatal h := h.fatal
  push {_ _ n n'} file ln _ h := by
    have moved : Line.Moved { ln with pos := { file, line := n } } { ln with pos := { file, line := n' } } :=
      ⟨rfl, rfl, rfl, rfl⟩
    exact { h with lines := by simpa [Loading.push] using h.lines.append (.keep moved .nil) }
  fail file fault _ h :=
    { h with
      diagnostics := by simpa [Loading.fail, Diagnostics.severities, Diagnostic.of] using h.diagnostics }
  abort file fault _ h :=
    { h with
      diagnostics := by simpa [Loading.abort, Diagnostics.severities, Diagnostic.of] using h.diagnostics
      fatal := rfl }

end Loading.Alike

namespace Source

/-- Rows that are put in place of the row at a place in a file. -/
abbrev Replacement := Pos → Option (List Text)

namespace Replacement

/-- The rows of a file from number `n` on, with other rows in place of some of them.  The first `skip` rows
    belong to a script; these are no lines and stay as they are. -/
def rows (r : Replacement) (dialect : Dialect) (file : Text) : Nat → Nat → List Text → List Text
  | _, _, [] => []
  | n, skip + 1, row :: rest => row :: r.rows dialect file (n + 1) skip rest
  | n, 0, row :: rest =>
    match r { file, line := n } with
    | some lines => lines ++ r.rows dialect file (n + 1) 0 rest
    | none => row :: r.rows dialect file (n + 1) (passedOver dialect rest (rowTask dialect row)) rest

def Fits (r : Replacement) (dialect : Dialect) (file data data' : Text) : Prop :=
  Text.lines data' = r.rows dialect file 1 0 (Text.lines data)

instance (r : Replacement) (dialect : Dialect) (file data data' : Text) :
    Decidable (r.Fits dialect file data data') := inferInstanceAs (Decidable (_ = _))

/-- A file with other rows in place of some of its rows, or a file that cannot be read. -/
inductive Reads (r : Replacement) (dialect : Dialect) (file : Text) :
    Except Fault Text → Except Fault Text → Prop
  | ok {data data' : Text} (fits : r.Fits dialect file data data') : Reads r dialect file (.ok data) (.ok data')
  | error (fault : Fault) : Reads r dialect file (.error fault) (.error fault)

/-- `P` allows the lines of the rows that are put in place of lines. -/
def Allowed (r : Replacement) (dialect : Dialect) (P : Line → List Line → Prop) (lines : List Line) : Prop :=
  ∀ ln ∈ lines, ∀ rows ∈ r ln.pos, ∀ n, P ln (linesAt dialect ln.pos.file n rows)

end Replacement

variable {P : Line → List Line → Prop} {known : Text → Prop} {s : Settings} {file : Text}
  {insert insert' : Pos → List Token → Loading → Loading} {st st' : Loading} {r : Replacement}
  {read : Text → Except Fault Text}

theorem rowTask_inert (inert : (lineAt dialect file n row).Inert known) : rowTask dialect row = .line := by
  have fault : (lex dialect row).fault = none := inert.fault
  have bodyIs (d : Directive) : Token.bodyIs d (lex dialect row).tokens = false := inert.bodyIs d
  simp [rowTask, fault, bodyIs]

theorem loadRows_inert {rows : List Text} (inert : ∀ ln ∈ linesAt s.dialect file n rows, ln.Inert known)
    (rest : List Text) (st : Loading) :
    loadRows s file insert n 0 (rows ++ rest) st =
      loadRows s file insert (n + rows.length) 0 rest
        { st with lines := st.lines ++ (linesAt s.dialect file n rows).toArray } := by
  refine loadRows_lines (fun row mem => ?_) rest st
  induction rows generalizing n with
  | nil => cases mem
  | cons row' rows ih =>
    rw [linesAt, List.forall_mem_cons] at inert
    rcases List.mem_cons.1 mem with rfl | mem
    · exact rowTask_inert inert.1
    · exact ih inert.2 mem

/-! ## One file -/

namespace Replacement

theorem Allowed.mono {lines more : List Line} (h : r.Allowed dialect P more) (subset : lines ⊆ more) :
    r.Allowed dialect P lines := fun ln mem => h ln (subset mem)

theorem scriptRows_rows (r : Replacement) (dialect : Dialect) (file : Text) (n : Nat) (rest : List Text) :
    scriptRows dialect (r.rows dialect file n ((scriptRows dialect rest).length + 1) rest) = scriptRows dialect rest ∧
      ((scriptRows dialect rest).length < (r.rows dialect file n ((scriptRows dialect rest).length + 1) rest).length ↔
        (scriptRows dialect rest).length < rest.length) := by
  induction rest generalizing n with
  | nil => simp [rows, scriptRows]
  | cons row rest ih =>
    unfold scriptRows at ih ⊢
    rw [rows]
    cases ends : endsScript dialect row with
    | true => simp [ends]
    | false =>
      obtain ⟨script, size⟩ := ih (n + 1)
      simp only [List.takeWhile_cons, ends, Bool.not_false, if_true, List.length_cons, script,
        Nat.add_lt_add_iff_right, size, and_self]

end Replacement

/-- A row that is replaced is loaded as a line that is only passed on, because lines are allowed in its
    place. -/
theorem loadRows_replaced (inert : AllInert known P)
    (steps : ∀ pos args st, Loading.Steps (fun _ => True) st (insert pos args st)) {rest rows : List Text}
    (replaced : r { file, line := n } = some rows)
    (allowed : r.Allowed s.dialect P (loadRows s file insert n 0 (row :: rest) st).lines.toList) :
    (∀ n', P (lineAt s.dialect file n row) (linesAt s.dialect file n' rows)) ∧
      loadRows s file insert n 0 (row :: rest) st =
        loadRows s file insert (n + 1) 0 rest (st.push (lineAt s.dialect file n row)) := by
  obtain ⟨ln, mem, pos, tokens, fault⟩ := exists_mem_loadRows steps n row rest st
  have inert₁ := (inert (allowed ln mem rows (pos ▸ replaced) n)).1
  have inert₂ : (lineAt s.dialect file n row).Inert known := ⟨fault ▸ inert₁.fault, rfl, tokens ▸ inert₁.head⟩
  have single : ∀ ln ∈ linesAt s.dialect file n [row], ln.Inert known := List.forall_mem_singleton.2 inert₂
  have pushed : loadRows s file insert n 0 (row :: rest) st =
      loadRows s file insert (n + 1) 0 rest (st.push (lineAt s.dialect file n row)) := by
    simpa [Loading.push, linesAt] using loadRows_inert single rest st
  rw [pushed] at allowed
  have loaded : lineAt s.dialect file n row ∈
      (loadRows s file insert (n + 1) 0 rest (st.push (lineAt s.dialect file n row))).lines.toList :=
    (loadRows_grows steps ..).subset (by simp [Loading.push])
  exact ⟨allowed _ loaded rows replaced, pushed⟩

def InsertsAlike (r : Replacement) (dialect : Dialect) (P : Line → List Line → Prop)
    (insert insert' : Pos → List Token → Loading → Loading) : Prop :=
  ∀ ⦃pos pos' : Pos⦄ (args : List Token) ⦃st st' : Loading⦄, pos'.file = pos.file → st.Alike P st' →
    r.Allowed dialect P (insert pos args st).lines.toList → (insert pos args st).Alike P (insert' pos' args st')

def LoadsAlike (r : Replacement) (dialect : Dialect) (P : Line → List Line → Prop)
    (load load' : Text → Text → Loading → Loading) : Prop :=
  ∀ ⦃file data data' : Text⦄ ⦃st st' : Loading⦄, r.Fits dialect file data data' → st.Alike P st' →
    r.Allowed dialect P (load file data st).lines.toList → (load file data st).Alike P (load' file data' st')

theorem insertsAlike_iff : InsertsAlike r dialect P insert insert' ↔
    Inserts (Loading.Alike P) (r.Allowed dialect P ·.lines.toList) (fun _ _ => True) insert insert' := by
  constructor
  · intro h file n n' args st st' _ alike allowed
    exact h args rfl alike allowed
  · rintro h ⟨file, n⟩ ⟨_, n'⟩ args st st' ⟨⟩ alike allowed
    exact h file args trivial alike allowed

/-- **The rows of one file** become lines in place of lines, if the files that it includes do. -/
theorem loadRows_alike (inert : AllInert known P)
    (steps : ∀ pos args st, Loading.Steps (fun _ => True) st (insert pos args st))
    (inserts : InsertsAlike r s.dialect P insert insert') (n n' skip : Nat) (rows : List Text)
    (alike : st.Alike P st') (allowed : r.Allowed s.dialect P (loadRows s file insert n skip rows st).lines.toList) :
    (loadRows s file insert n skip rows st).Alike P
      (loadRows (s.reading read) file insert' n' skip (r.rows s.dialect file n skip rows) st') := by
  induction rows generalizing n n' skip st st' with
  | nil => simpa [loadRows, Replacement.rows] using alike
  | cons row rest ih =>
    cases skip with
    | succ skip => exact ih _ _ _ alike allowed
    | zero =>
      rw [Replacement.rows]
      cases replaced : r { file, line := n } with
      | some rows =>
        obtain ⟨here, pushed⟩ := loadRows_replaced inert steps replaced allowed
        rw [pushed] at allowed ⊢
        dsimp only
        rw [loadRows_inert (s := s.reading read) (inert (here n')).2]
        exact ih _ _ _ (alike.pushAll (here n')) allowed
      | none =>
        have same : lex (s.reading read).dialect row = lex s.dialect row := rfl
        refine loadRows_cons_related Loading.Alike.keeps (insertsAlike_iff.1 inserts) same (fun isScript => ?_) trivial
          (fun allowed => allowed.mono (loadRows_grows steps ..).subset) (fun _ _ _ => ih _ _ _) alike allowed
        rw [isScript]
        exact r.scriptRows_rows s.dialect file (n + 1) rest

/-! ## All files -/

theorem find_reads (files : ∀ path, r.Reads s.dialect path (s.read path) (read path)) (name source : Text) :
    (∃ fault, s.find name source = .error fault ∧ (s.reading read).find name source = .error fault) ∨
      ∃ path data data', s.find name source = .ok (path, data) ∧
        (s.reading read).find name source = .ok (path, data') ∧ r.Fits s.dialect path data data' := by
  have paths : (s.reading read).candidates = s.candidates := rfl
  refine find_related paths (fun path => ?_) name source
  have same : r.Reads s.dialect path (s.read path) ((s.reading read).read path) := files path
  generalize s.read path = x, (s.reading read).read path = y at same
  cases same with
  | ok fits => exact .inr ⟨_, _, rfl, rfl, fits⟩
  | error fault => exact .inl ⟨fault, rfl, rfl⟩

/-- **A source file and the files that it includes** become lines in place of lines. -/
theorem load_alike (inert : AllInert known P)
    (files : ∀ path, r.Reads s.dialect path (s.read path) (read path)) (depth : Nat) :
    LoadsAlike r s.dialect P (load s depth) (load (s.reading read) depth) := by
  change Loads (Loading.Alike P) (r.Allowed s.dialect P ·.lines.toList) (r.Fits s.dialect) _ _
  refine (load_related Loading.Alike.keeps (find_reads files) (fun depth inserts => ?_) depth).2
  intro file data data' st st' fits alike allowed
  rw [load_eq] at allowed ⊢
  rw [load_eq, fits]
  exact loadRows_alike inert (inserter_steps s depth) (insertsAlike_iff.2 inserts) _ _ _ _ alike allowed

end Source

end Z80Asm
