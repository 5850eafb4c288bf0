import Z80Asm.Proofs.InsertedRows
import Z80Asm.Proofs.SkippedRows
import Z80Asm.Proofs.SymbolRows
import Z80Asm.Proofs.UnusedSymbol

/-!
# Rows that define a number

A row that defines a name as a number may be added to a source that does not mention the name.  It moves the lines
behind it, and takes over the local names behind it, as all labels do.
-/

namespace Z80Asm

open Token Source Diagnostics List

variable {a b c r : Result} {name : Text} {value : Int64} {o o' : Outcome} {s : Settings} {found : Diagnostics}

theorem Statement.AllPlaced.omits {S : Numbering} : ∀ program' {program : List Statement},
    AllPlaced S False program program' → (∀ h ∈ flattenAll program, name ∉ h.mentions) →
      ∀ h ∈ flattenAll program', name ∉ h.mentions := by
  refine (Statement.tree_induction
    (P := fun s' => ∀ {s}, Placed S False s s' → (∀ h ∈ s.flatten, name ∉ h.mentions) →
      ∀ h ∈ s'.flatten, name ∉ h.mentions)
    (fun node' action s placed free => ?_) (fun node' test yes' no' yes_ih no_ih s placed free => ?_)
    (fun node' count body' ih s placed free => ?_) (fun _ _ => nofun)
    (fun s' rest' s_ih ih {program} placed free => ?_)).2
  · cases placed with
    | act placed => simpa [flatten, Heading.mentions, placed.label] using free
    | instruction label label' => simpa [flatten, Heading.mentions, label, label'] using free
  · cases placed with
    | choose placed _ yes_placed no_placed =>
      simp only [flatten, forall_mem_cons, forall_mem_append] at free ⊢
      refine ⟨?_, yes_ih yes_placed free.2.1, no_ih no_placed free.2.2⟩
      simpa only [Heading.mentions, placed.label] using free.1
  · cases placed with
    | repeated placed _ body_placed =>
      simp only [flatten, forall_mem_cons] at free ⊢
      refine ⟨?_, ih body_placed free.2⟩
      simpa only [Heading.mentions, placed.label] using free.1
  · cases placed with
    | cons first others =>
      simp only [flattenAll, forall_mem_append] at free ⊢
      exact ⟨s_ih first free.1, ih others free.2⟩
    | skip allowed => exact allowed.elim

namespace Assembly

section
variable {S : Numbering} {program program' : List Statement} (ordered : S.Ordered) (known : S (-1) (-1))
  (placed : Statement.AllPlaced S False program program')
include ordered known placed

theorem turnsOf_placed (n : Nat) : turnsOf s program' n = turnsOf s program n :=
  Walk.Placed.turns_eq ((sameWalks_placed s ordered known placed).pass n) ordered anySizes_follows program' placed
    (start_placed s known)

theorem outcomes_placed (n : Nat) : outcomes s program' n = outcomes s program n :=
  Walk.Placed.branches_eq ((sameWalks_placed s ordered known placed).pass n) ordered anySizes_follows program' placed
    (start_placed s known)

theorem sizesOf_placed (n : Nat) : sizesOf s program' n = sizesOf s program n := by
  cases n with
  | zero => rfl
  | succ n =>
    have follows : SizeRel.Follows (· = ·) False := ⟨fun n same => by rw [same], fun none => none.elim⟩
    have start : Walk.Placed S (· = ·) { ledger := predefined s } { ledger := predefined s } :=
      ⟨predefined_placed s known, rfl, rfl, rfl, rfl, rfl, .none⟩
    have walk := Walk.Placed.steps ((sameWalks_placed s ordered known placed).pass (n + 1)) ordered follows placed start
    exact walk.sizes.symm

theorem passed_placed {n : Nat} (passed : Passed s program' neverCancelled n) : Passed s program neverCancelled n := by
  have walks := sameWalks_placed s ordered known placed
  refine ⟨rfl, (walks.going n).1 passed.going, fun settled => passed.unsettled ?_⟩
  refine ⟨(walks.unchanged n).2 settled.1, ?_⟩
  rw [sizesOf_placed ordered known placed, sizesOf_placed ordered known placed]
  exact settled.2

theorem turnsSettle_placed (settles : TurnsSettle s program) : TurnsSettle s program' := by
  intro n pos le before going unchanged
  have walks := sameWalks_placed s ordered known placed
  rw [turnsOf_placed ordered known placed, turnsOf_placed ordered known placed, outcomes_placed ordered known placed,
    outcomes_placed ordered known placed]
  exact settles n pos le (fun k kpos early => passed_placed ordered known placed (before k kpos early))
    ((walks.going n).1 going) ((walks.unchanged n).1 unchanged)

theorem leavesRoom_placed (room : LeavesRoom s program) : LeavesRoom s program' := by
  intro n pos le before
  have enough := room n pos le fun k kpos early => passed_placed ordered known placed (before k kpos early)
  have walk := (sameWalks_placed s ordered known placed).walked n
  simpa only [Walk.HasRoom, Ledger.Full, walk.ledger.limit, walk.ledger.defined] using enough

end

end Assembly

/-- The second program is the first one at other places, with the definition of a number more. -/
def Building.Adds (name : Text) (value : Int64) (st st' : Building) : Prop :=
  st'.fatal = none ∧ severities st'.diagnostics.toList = severities st.diagnostics.toList ∧
    ∃ (T : Numbering) (between : List Statement) (node : Node), T (-1) (-1) ∧ T.Ordered ∧ node.label = none ∧
      Statement.AllPlaced T False st.program between ∧
      Statement.Swapped False [] [.act node (.equate name (.num value) false)] between st'.program

/-! ## The row -/

/-- A name that can be defined in the first column: a word without a dot or an `@` that is no register, mnemonic or
    directive. -/
structure IsIdentifier (name : Text) : Prop where
  word : Lex.IsPlainWord name
  noDot : '.'.toUInt8 ∉ name
  noAt : '@'.toUInt8 ∉ name
  role : Role.ofWord name = .name
  noRegister : Cpu.Reg.ofWord? name = none

structure IsDecimal (digits : Text) (value : Int64) : Prop where
  filled : digits ≠ []
  decimal : digits.all Lex.isDigit = true
  read : Numeral.value? digits = some value

namespace Program

def definitionRow (name digits : Text) : Text := name ++ bytes " equ " ++ digits

section
variable {digits : Text} (identifier : IsIdentifier name) (number : IsDecimal digits value)
include identifier number

/-- **The row is split into the name, the directive and the number.** -/
theorem lex_definition (dialect : Dialect) : ∃ first equ last : Token,
    lex dialect (definitionRow name digits) = ⟨[first, equ, last], none⟩ ∧
      first.lexeme = .word name .name ∧ first.col = 1 ∧ equ.lexeme = .word (bytes "equ") (.directive .equ) ∧
      last.lexeme = .number digits value := by
  obtain ⟨start, stem, isName, isStart, isStem⟩ := identifier.word
  obtain ⟨b, more, isDigits⟩ := exists_cons_of_ne_nil number.filled
  let gap : Blanks := ⟨[], rfl⟩
  let word : Lexeme := .word name .name
  let last : Lexeme := .number digits value
  have text : definitionRow name digits = gap.val ++ (word.source ++ (bytes " equ " ++ last.source)) := by
    simp [definitionRow, gap, word, last, Lexeme.source]
  have scans_name (st : Lex.State) (rest : Text) : Lex.Scans dialect st word (bytes " equ " ++ rest) := by
    have after : ∀ b ∈ (bytes " equ " ++ rest).head?, Lex.Place.operation.admits b := by
      rintro b ⟨⟩
      decide
    have scans : Lex.Scans dialect st (.word (start :: stem ++ []) (.ofWord (start :: stem ++ [])))
        (bytes " equ " ++ rest) := Lex.scans_word after start stem [] isStart isStem (.inl rfl)
    rw [append_nil, ← isName, identifier.role] at scans
    exact scans
  have scans_number (st : Lex.State) : Lex.Scans dialect st last [] := by
    have read := number.read
    have all := number.decimal
    rw [isDigits, all_cons, Bool.and_eq_true] at all
    have alnum : ∀ d ∈ more, Lex.isAlnum d = true := fun d mem => by
      rw [Lex.isAlnum, all_eq_true.1 all.2 d mem, Bool.true_or]
    simp only [last, isDigits] at read ⊢
    exact Lex.scans_numeral ⟨by simp, by simp⟩ all.1 alnum read
  obtain ⟨t₁, col₁, isWord, first, run₁⟩ := Lex.run_lexeme_col {} gap (fun _ => scans_name _ _) 1
  obtain ⟨t₂, t₃, isEqu, isNumber, run₂⟩ := Symbol.run_equation scans_number ⟨[t₁], false, none⟩ col₁
  refine ⟨t₁, t₂, t₃, ?_, isWord, first, isEqu, isNumber⟩
  rw [lex, text, run₁, run₂]
  rfl

omit number in
theorem unmarked_of_identifier : Macro.mark ∉ name := by
  intro mem
  have wordByte := identifier.word.wordBytes _ mem
  revert wordByte
  decide

omit number in
theorem labelName_identifier (owner : Text) : labelName owner name = (name, name, none) := by
  have unmarked := unmarked_of_identifier identifier
  obtain ⟨start, stem, isName, -, -⟩ := identifier.word
  have noDot : start ≠ '.'.toUInt8 := by
    rintro rfl
    exact identifier.noDot (by simp [isName])
  rcases labelName_cases owner name with ⟨isDot | isRegister, -⟩ | ⟨⟨isLocal, -⟩, -⟩ | ⟨marked, -⟩ | ⟨-, e⟩
  · have dot : start :: stem = bytes "." := isName.symm.trans isDot
    exact absurd (cons_eq_cons.1 dot).1 noDot
  · exact absurd identifier.noRegister isRegister
  · rw [isName] at isLocal
    exact absurd (Option.some_inj.1 isLocal) noDot
  · exact absurd marked unmarked
  · exact e

theorem splitLabel_definition (dialect : Dialect) : ∃ first equ last : Token,
    lex dialect (definitionRow name digits) = ⟨[first, equ, last], none⟩ ∧
      splitLabel [first, equ, last] = (some first, [equ, last]) ∧ first.text = name ∧
      equ.lexeme = .word (bytes "equ") (.directive .equ) ∧ last.lexeme = .number digits value ∧
      compassWord? [first, equ, last] = none := by
  obtain ⟨first, equ, last, lexed, isName, col, isEqu, isNumber⟩ := lex_definition identifier number dialect
  refine ⟨first, equ, last, lexed, ?_, ?_, isEqu, isNumber, ?_⟩
  · simp [splitLabel, isSign, isEqu, Token.isName, isName, col]
  · rw [text, isName]
  · have noAt : '@'.toUInt8 ∉ bytes "equ" := by decide
    simp [compassWord?, word?, isName, isEqu, isNumber, identifier.noAt, noAt]

theorem edits_definition (s : Settings) (file : Text) (n : Nat) (owner : Text) (seq : Nat) :
    edits s owner seq (lineAt s.dialect file n (definitionRow name digits)) =
      [.act { seq, pos := { file, line := n }, text := definitionRow name digits }
        (.equate name (.num value) false)] := by
  obtain ⟨first, equ, last, lexed, split, text, isEqu, isNumber, plain⟩ :=
    splitLabel_definition identifier number s.dialect
  have whole (owner : Text) : wholeExpr s owner [last] = .ok (.num value) := by
    have isNumber' : (qualifyToken owner last).lexeme = .number digits value := by
      rw [lexeme_qualifyToken, isNumber]
    have derives : Parse.Derives s.dialect 10 [qualifyToken owner last] (.num value) := .number isNumber'
    rw [wholeExpr_eq_ok, map_singleton]
    exact derives.loosen (Nat.zero_le _) le_rfl
  simp only [edits, lineAt, lexed, split, text, labelName_identifier identifier, labelledEdits, plain, ite_self,
    bodyEdits, isEqu, directiveEdits, equateEdits, whole]

theorem rowTask_definition (dialect : Dialect) : rowTask dialect (definitionRow name digits) = .line := by
  obtain ⟨first, equ, last, lexed, split, -, isEqu, -⟩ := splitLabel_definition identifier number dialect
  simp [rowTask, lexed, bodyIs, Token.body, split, isDirective, isEqu]

theorem binary?_definition (dialect : Dialect) (file : Text) (n : Nat) :
    (lineAt dialect file n (definitionRow name digits)).binary? = none := by
  obtain ⟨first, equ, last, lexed, split, -, isEqu, -⟩ := splitLabel_definition identifier number dialect
  simp [Line.binary?, lineAt, lexed, Token.body, split, isDirective, isEqu]

theorem task_definition {macros : Std.TreeMap Text Macro} (directive : bytes "equ" ∉ macros) (dialect : Dialect)
    (file : Text) (n : Nat) : Macro.task macros (lineAt dialect file n (definitionRow name digits)) = .keep := by
  obtain ⟨first, equ, last, lexed, split, -, isEqu, -⟩ := splitLabel_definition identifier number dialect
  refine Macro.task_keep ?_ ?_ ?_
  · simp [lineAt, lexed, bodyIs, Token.body, split, isDirective, isEqu]
  · simp [lineAt, lexed, bodyIs, Token.body, split, isDirective, isEqu]
  · simpa [lineAt, lexed, Token.body, split, word?, isEqu] using directive

end

/-! ## The program -/

section
variable {front rest rest' : List Line} {ln : Line}
  (defines : ∀ owner seq, ∃ node : Node, node.label = none ∧
    edits s owner seq ln = [.act node (.equate name (.num value) false)])
  (pieces : Pieces (fun _ _ => False) rest rest') (outside : ∀ b ∈ (lines s front {}).blocks, b.isRepeated = false)
  (owners : ownsItself rest = true)
include defines pieces outside owners

/-- **The program of lines with a definition among them**, as far as it is built, is the program of the other lines
    at other places, with one statement more. -/
theorem lines_added (going : (lines s front {}).fatal = none) : ∃ (T : Numbering) (between : Building) (node : Node),
    T (-1) (-1) ∧ T.Ordered ∧ node.label = none ∧ (lines s (front ++ rest) {}).Placed T False between ∧
      ∃ owner, Building.Swapped False [] [.act node (.equate name (.num value) false)] { between with owner }
        (lines s (front ++ ln :: rest') {}) := by
  obtain ⟨T, known, ordered, below, built⟩ :=
    (BuiltAlike.of_moved (.refl front) : BuiltAlike False s s front front).start
  rw [lines_append rfl, lines_append rfl, if_neg (by simp [going]), if_neg (by simp [going])]
  generalize lines s front {} = st at *
  obtain ⟨node, unlabelled, made⟩ := defines st.owner (st.seq + 1)
  -- behind the definition the lines are built as they would be without it, in the next rows
  have later := built.atLine st.seq (st.seq + 1) st.owner
  obtain ⟨U, le', ordered, -, placed⟩ := BuiltAlike.of_moved (s := s) pieces ordered
    (below.mono le_rfl (Nat.le_succ _)) later going
  obtain ⟨owner, other⟩ := lines_owner (s := s) ((ownsItself_moved pieces).trans owners)
    (st.atLine (st.seq + 1) st.owner) (ownerAfter st.owner ln)
  refine ⟨U, _, node, le' _ _ known, ordered, unlabelled, placed, owner, ?_⟩
  have added : (st.addAll []).Swapped False [] [.act node (.equate name (.num value) false)]
      (st.addAll [.act node (.equate name (.num value) false)]) :=
    Building.Swapped.addAll st fun b mem repeated => by simp [outside b mem] at repeated
  have swapped := (added.atLine (st.seq + 1) (ownerAfter st.owner ln)).lines s rest'
  have here : line s st ln = (st.addAll [.act node (.equate name (.num value) false)]).atLine (st.seq + 1)
      (ownerAfter st.owner ln) := by
    rw [line_eq, made]
    rfl
  have whole : (line s st ln).fatal = none := by
    rw [here]
    exact (added.atLine (st.seq + 1) (ownerAfter st.owner ln)).same.2.2.2.trans going
  rw [lines, whole, here]
  rw [← other]
  exact swapped

theorem build_added (whole : (build s (front ++ rest)).fatal = none) :
    (build s (front ++ rest)).Adds name value (build s (front ++ ln :: rest')) := by
  obtain ⟨whole_lines, built⟩ := build_whole whole
  obtain ⟨T, between, node, known, ordered, unlabelled, placed, owner, swapped⟩ :=
    lines_added defines pieces outside owners (going_of_append whole_lines)
  have fatal : (lines s (front ++ ln :: rest') {}).fatal = none :=
    swapped.same.2.2.2.trans (placed.fatal.trans whole_lines)
  have built' : build s (front ++ ln :: rest') = finish (lines s (front ++ ln :: rest') {}) := by
    rw [build, fatal]
    rfl
  obtain ⟨diagnostics, swapped⟩ := swapped.finish
  have placed := placed.finish
  rw [finish_owner between owner] at diagnostics swapped
  rw [Building.Adds, built, built', finish_fatal, diagnostics]
  exact ⟨fatal, placed.diagnostics, T, (finish between).program, node, known, ordered, unlabelled,
    placed.root.reverse, swapped⟩

end

end Program

/-! ## The source with the row -/

theorem Result.Extends.of_same (h : a.Same b) (g : b.Extends name value c) : a.Extends name value c := by
  obtain ⟨t, t', isTable, isTable', absent, agree, own⟩ := g.symbols
  have symbols := h.symbols
  rw [isTable] at symbols
  generalize first : a.symbols = x at symbols
  cases symbols with
  | @some u _ same =>
    refine ⟨g.state.trans h.state, g.code.trans h.code, ⟨u, t', first, isTable', ?_, fun other ne => ?_, own⟩,
      g.errors.trans h.errors, g.warnings.trans h.warnings, h.passes ▸ g.more, h.passes ▸ g.fewer⟩
    · have entry := same name
      simp only [Table.agreeOn, absent] at entry
      cases known : u.get? name with
      | none => rfl
      | some => simp [known] at entry
    · exact Table.agreeOn_trans (same other) (agree other ne)

theorem Result.Extends.trans_same (h : a.Extends name value b) (g : b.Same c) : a.Extends name value c := by
  obtain ⟨t, t', isTable, isTable', absent, agree, own⟩ := h.symbols
  have symbols := g.symbols
  rw [isTable'] at symbols
  generalize last : c.symbols = x at symbols
  cases symbols with
  | @some _ u same =>
    refine ⟨g.state.trans h.state, g.code.trans h.code, ⟨t, u, isTable, last, absent,
      fun other ne => Table.agreeOn_trans (agree other ne) (same other), fun x known => ?_⟩,
      g.errors.trans h.errors, g.warnings.trans h.warnings, g.passes ▸ h.more, g.passes ▸ h.fewer⟩
    have state := Table.agreeOn_iff.1 (same name)
    rw [Option.mem_def.1 known] at state
    obtain ⟨y, known', state⟩ := Option.map_eq_some_iff.1 state.symm
    obtain ⟨isValue, isDefined, isScope⟩ := own y known'
    simp only [Prod.mk.injEq] at state
    exact ⟨state.1.symm.trans isValue, state.2.1.symm.trans isDefined, state.2.2.symm.trans isScope⟩

/-- The first run is stable, but the second one does not end as the first one apart from the name. -/
def Outcome.Shows (name : Text) (value : Int64) (o o' : Outcome) : Prop :=
  o.any (·.state == .stable) = true ∧
    ¬ ∃ r r', o = .finished r ∧ o' = .finished r' ∧ r.Extends name value r'

theorem Outcome.Shows.of_any {check : Result → Bool}
    (respects : ∀ {a a' : Result}, a.Extends name value a' → check a' = check a)
    (stable : o.any (·.state == .stable) = true) (differ : o'.any check ≠ o.any check) : o.Shows name value o' := by
  refine ⟨stable, ?_⟩
  rintro ⟨r, r', rfl, rfl, extended⟩
  exact differ (respects extended)

theorem Result.Extends.isSome_value? {a' : Result} (h : a.Extends name value a') {other : Text} (ne : other ≠ name) :
    (a'.symbols.any fun t => (t.value? other).isSome) = a.symbols.any fun t => (t.value? other).isSome := by
  obtain ⟨t, t', isTable, isTable', -, agree, -⟩ := h.symbols
  rw [isTable, isTable', Option.any_some, Option.any_some, Table.value?_eq_of_agreeOn (agree other ne)]

namespace Assembly

open Program

/-- Between the lines before and the lines behind, a name can be defined that is used in none of them. -/
structure AdmitsRow (s : Settings) (before behind : List Line) : Prop where
  definitions : Macro.definitionsEnd 0 before = true
  outside : ∀ b ∈ (lines s (expansion s before).lines.toList {}).blocks, b.isRepeated = false
  directive : bytes "equ" ∉ (expansion s before).macros
  /-- No local name behind belongs to a label before. -/
  owners : ownsItself ((expansion s (before ++ behind)).lines.toList.drop (expansion s before).lines.size) = true

instance (s : Settings) (before behind : List Line) : Decidable (AdmitsRow s before behind) :=
  decidable_of_iff (Macro.definitionsEnd 0 before = true ∧
      (∀ b ∈ (lines s (expansion s before).lines.toList {}).blocks, b.isRepeated = false) ∧
      bytes "equ" ∉ (expansion s before).macros ∧
      ownsItself ((expansion s (before ++ behind)).lines.toList.drop (expansion s before).lines.size) = true)
    ⟨fun h => ⟨h.1, h.2.1, h.2.2.1, h.2.2.2⟩, fun h => ⟨h.definitions, h.outside, h.directive, h.owners⟩⟩

theorem passesOver_of_stable {lines : List Line} (run : assembleLines s neverCancelled found lines = .finished r)
    (stable : r.state = .stable) :
    (building s lines).fatal = none ∧
      passesOver s neverCancelled
        (found ++ (expansion s lines).diagnostics.toList ++ (building s lines).diagnostics.toList)
        (building s lines).program = .finished r := by
  have fine := Result.fault_eq_none stable
  rw [assembleLines] at run
  cases whole : (building s lines).fatal with
  | some fault =>
    simp only [whole, Outcome.finished.injEq] at run
    cases run
    cases fine
  | none =>
    simp only [whole] at run
    exact ⟨rfl, run⟩

theorem assembleLines_of_stable {file data : Text} (run : assembleText s neverCancelled file data = .finished r)
    (stable : r.state = .stable) :
    (load s includeLimit file data {}).fatal = none ∧
      assembleLines s neverCancelled (load s includeLimit file data {}).diagnostics.toList
        (loadedOf s file data) = .finished r := by
  have fine := Result.fault_eq_none stable
  rw [assembleText_loaded] at run
  cases loaded : (load s includeLimit file data {}).fatal with
  | some fault =>
    simp only [loaded, Outcome.finished.injEq] at run
    cases run
    cases fine
  | none =>
    simp only [loaded] at run
    exact ⟨rfl, run⟩

theorem exists_of_same (same : o.Same o') (finished : o = .finished r) : ∃ r', o' = .finished r' ∧ r.Same r' := by
  cases same with
  | finished same =>
    cases finished
    exact ⟨_, rfl, same⟩
  | outOfBounds => cases finished

section
variable {digits : Text} {before behind : List Line} {ln : Line} (identifier : IsIdentifier name)
  (number : IsDecimal digits value) (row : Source.IsRowLine s.dialect (definitionRow name digits) ln)
  (admits : AdmitsRow s before behind)
include identifier number row admits

theorem expansion_added : ∃ c c' : Expansion, c.Alike (fun _ _ => False) c' ∧
    expansion s (before ++ behind) = c.after (expansion s before).lines (expansion s before).diagnostics ∧
    expansion s (before ++ ln :: behind) =
      c'.after ((expansion s before).lines ++ [ln].toArray) (expansion s before).diagnostics := by
  obtain ⟨file, n, rfl⟩ := row
  have kept : ∀ ln ∈ [lineAt s.dialect file n (definitionRow name digits)],
      Macro.task (expansion s before).macros ln = .keep :=
    forall_mem_singleton.2 (task_definition identifier number admits.directive s.dialect file n)
  exact Macro.expand_inside rfl admits.definitions kept (.refl behind)

theorem building_added (whole : (building s (before ++ behind)).fatal = none) :
    (building s (before ++ behind)).Adds name value (building s (before ++ ln :: behind)) := by
  obtain ⟨c, c', alike, plain, longer⟩ := expansion_added identifier number row admits
  have owners := admits.owners
  simp only [plain, Expansion.after, Array.toList_append, ← Array.length_toList, drop_left] at owners
  have lines : (expansion s (before ++ behind)).lines.toList = (expansion s before).lines.toList ++ c.lines.toList := by
    simp [plain, Expansion.after]
  have lines' : (expansion s (before ++ ln :: behind)).lines.toList =
      (expansion s before).lines.toList ++ ln :: c'.lines.toList := by
    simp [longer, Expansion.after]
  have defines (owner : Text) (seq : Nat) : ∃ node : Node, node.label = none ∧
      edits s owner seq ln = [.act node (.equate name (.num value) false)] := by
    obtain ⟨file, n, rfl⟩ := row
    exact ⟨_, rfl, edits_definition identifier number s file n owner seq⟩
  rw [building, lines] at whole
  rw [building, building, lines, lines']
  exact build_added defines alike.lines admits.outside owners whole

theorem binaries_added {read : Text → Except Fault Text}
    (binaries : ∀ ln ∈ (expansion s (before ++ behind)).lines.toList, ∀ binary ∈ ln.binary?,
      (s.reading read).find binary ln.pos.file = s.find binary ln.pos.file) :
    ∀ ln' ∈ (expansion s (before ++ ln :: behind)).lines.toList, ∀ binary ∈ ln'.binary?,
      (s.reading read).find binary ln'.pos.file = s.find binary ln'.pos.file := by
  obtain ⟨c, c', alike, plain, longer⟩ := expansion_added identifier number row admits
  rw [plain] at binaries
  rw [longer]
  simp only [Expansion.after, Array.toList_append, forall_mem_append, forall_mem_singleton] at binaries ⊢
  refine ⟨⟨binaries.1, ?_⟩, fun ln' mem => ?_⟩
  · obtain ⟨file, n, rfl⟩ := row
    simp [binary?_definition identifier number]
  · obtain ⟨ln, known, moved⟩ := alike.lines.exists_moved ln' mem
    rw [Line.binary?, moved.tokens, moved.file]
    exact binaries.2 ln known

/-- **Lines that are stable stay so with a definition that nothing uses.** -/
theorem assembleLines_added
    (omits : ∀ g ∈ Statement.flattenAll (building s (before ++ behind)).program, name ∉ g.mentions)
    (fresh : (predefined s).symbols[name]? = none) (room : LeavesRoom s (building s (before ++ behind)).program)
    (settles : TurnsSettle s (building s (before ++ behind)).program)
    (run : assembleLines s neverCancelled found (before ++ behind) = .finished r) (stable : r.state = .stable) :
    ∃ r', assembleLines s neverCancelled found (before ++ ln :: behind) = .finished r' ∧ r.Extends name value r' := by
  obtain ⟨whole, passes⟩ := passesOver_of_stable run stable
  obtain ⟨c, c', alike, plain, longer⟩ := expansion_added identifier number row admits
  obtain ⟨whole', built, T, between, node, known, ordered, unlabelled, placed, swapped⟩ :=
    building_added identifier number row admits whole
  obtain ⟨r₁, moved, same⟩ :=
    exists_of_same (passesOver_placed ordered known rfl rfl placed neverCancelled rfl) passes
  have severities : Diagnostics.severities (expansion s (before ++ ln :: behind)).diagnostics.toList =
      Diagnostics.severities (expansion s (before ++ behind)).diagnostics.toList := by
    rw [plain, longer]
    simp only [Expansion.after, Array.toList_append]
    exact severities_append rfl alike.diagnostics
  obtain ⟨r', run', extended⟩ := passesOver_extends unlabelled swapped (placed.omits _ omits) fresh
    (leavesRoom_placed ordered known placed room) (turnsSettle_placed ordered known placed settles)
    (severities_append (severities_append (rfl : found.severities = _) severities) built)
    moved (same.state.trans stable)
  refine ⟨r', ?_, .of_same same extended⟩
  rw [assembleLines, whole']
  exact run'

end

/-- A source, and the files that it includes, with a row more that defines a name as a number.  It is loaded at most
    once. -/
structure AddsRow (s : Settings) (read : Text → Except Fault Text) (file data data' name digits : Text)
    (value : Int64) : Prop where
  identifier : IsIdentifier name
  number : IsDecimal digits value
  /-- The row stands among the rows of the source or of the files, but not inside of a script. -/
  main : Source.MoreRows s.dialect (definitionRow name digits) (Text.lines data) (Text.lines data')
  files : Source.ReadsMore s.dialect (definitionRow name digits) s.read read
  once : (loadedOf (s.reading read) file data').length ≤ (loadedOf s file data).length + 1
  place : ∀ n, ∀ ln ∈ (loadedOf (s.reading read) file data')[n]?, ln.text = definitionRow name digits →
    AdmitsRow s ((loadedOf s file data).take n) ((loadedOf s file data).drop n)
  binaries : ∀ ln ∈ (expansionOf s file data).lines.toList, ∀ binary ∈ ln.binary?,
    (s.reading read).find binary ln.pos.file = s.find binary ln.pos.file
  unused : ∀ ln ∈ loadedOf s file data, ln.Omits name
  undefined : ∀ entry ∈ s.predefined, entry.1 ≠ name
  room : LeavesRoom s (programOf s file data)
  /-- Two passes are allowed, and the tests and counts of the source are constant; or else its turns settle in
      time. -/
  passes : (1 < s.passLimit ∧ Statement.allFixed (programOf s file data) = true) ∨
    TurnsSettle s (programOf s file data)

theorem predefined_absent (undefined : ∀ entry ∈ s.predefined, entry.1 ≠ name) :
    (predefined s).symbols[name]? = none := by
  refine Option.eq_none_iff_forall_ne_some.2 fun t found => ?_
  obtain ⟨_, mem, -⟩ := predefined_entry found
  obtain ⟨_, mem⟩ := Sorted.mem_of_mem_entries mem
  exact undefined _ mem rfl

namespace AddsRow
variable {read : Text → Except Fault Text} {file data data' digits : Text}
  (h : AddsRow s read file data data' name digits value)
include h

theorem omits : ∀ g ∈ Statement.flattenAll (programOf s file data), name ∉ g.mentions := by
  refine programOf_omits h.identifier.noDot (unmarked_of_identifier h.identifier) ?_ h.unused
  obtain ⟨start, stem, rfl, -⟩ := h.identifier.word
  simp

theorem loaded : (load s includeLimit file data {}).Inserted
    (IsRowLine s.dialect (definitionRow name digits))
    (load (s.reading read) includeLimit file data' {}) :=
  load_inserted h.files (rowTask_definition h.identifier h.number s.dialect) _ h.main ⟨.nil, rfl, rfl⟩

theorem settles : TurnsSettle s (programOf s file data) := h.passes.elim (fun two => .of_fixed two.2 two.1) id

theorem exists_extended {before behind before' behind' : List Line} {ln : Line}
    (plain : loadedOf s file data = before ++ behind)
    (longer : loadedOf (s.reading read) file data' = before' ++ ln :: behind')
    (row : IsRowLine s.dialect (definitionRow name digits) ln) (first : Pieces (fun _ _ => False) before before')
    (second : Pieces (fun _ _ => False) behind behind') {found' : Diagnostics}
    (reports : found'.severities = found.severities)
    (run : assembleLines s neverCancelled found (before ++ behind) = .finished r) (stable : r.state = .stable) :
    ∃ r', assembleLines (s.reading read) neverCancelled found' (before' ++ ln :: behind') = .finished r' ∧
      r.Extends name value r' := by
  have admits : AdmitsRow s before behind := by
    obtain ⟨path, n, isRow⟩ := id row
    have admits := h.place before'.length ln (by simp [longer]) (by rw [isRow]; rfl)
    rwa [first.length_eq, plain, take_left, drop_left] at admits
  have program : programOf s file data = (building s (before ++ behind)).program := by
    rw [← plain]
    rfl
  have expanded : expansionOf s file data = expansion s (before ++ behind) := by
    rw [← plain]
    rfl
  have omits := h.omits
  have room := h.room
  have settles := h.settles
  have binaries := h.binaries
  rw [program] at omits room settles
  rw [expanded] at binaries
  obtain ⟨r₁, run₁, extended⟩ := assembleLines_added h.identifier h.number row admits omits
    (predefined_absent h.undefined) room settles run stable
  have pieces : Pieces (fun _ _ => False) (before ++ ln :: behind) (before' ++ ln :: behind') :=
    first.append (.keep ⟨rfl, rfl, rfl, rfl⟩ second)
  obtain ⟨r', run', same⟩ := exists_of_same (assembleLines_moved pieces
    (binaries_added h.identifier h.number row admits binaries) reports neverCancelled) run₁
  exact ⟨r', run', extended.trans_same same⟩

end AddsRow

/-- **A definition that nothing uses can be added**: a source that is stable stays so, with the same code and the same
    symbols, apart from the name that is added, and with as many warnings. -/
theorem definition_weakens {s : Settings} {read : Text → Except Fault Text} {file data data' name digits : Text}
    {value : Int64} (h : AddsRow s read file data data' name digits value) {r : Result}
    (run : assembleText s neverCancelled file data = .finished r) (stable : r.state = .stable) :
    ∃ r', assembleText (s.reading read) neverCancelled file data' = .finished r' ∧ r'.state = .stable ∧
      r.Extends name value r' := by
  have loaded := h.loaded
  obtain ⟨loads, run⟩ := assembleLines_of_stable run stable
  suffices extended : ∃ r', assembleLines (s.reading read) neverCancelled
      (Source.load (s.reading read) Source.includeLimit file data' {}).diagnostics.toList
      (loadedOf (s.reading read) file data') = .finished r' ∧ r.Extends name value r' by
    obtain ⟨r', run', extended⟩ := extended
    refine ⟨r', ?_, extended.state.trans stable, extended⟩
    rw [assembleText_loaded, loaded.fatal, loads]
    exact run'
  rcases Nat.lt_or_ge (loadedOf s file data).length (loadedOf (s.reading read) file data').length with more | same
  · obtain ⟨before, behind, before', behind', ln, plain, longer, row, first, second⟩ :=
      loaded.lines.exists_split (Nat.le_antisymm h.once more)
    have plain : loadedOf s file data = before ++ behind := plain
    have longer : loadedOf (s.reading read) file data' = before' ++ ln :: behind' := longer
    rw [plain] at run
    rw [longer]
    exact h.exists_extended plain longer row first second loaded.diagnostics run stable
  · -- the row stands behind the end of a source or in a file that is not included
    have pieces := loaded.lines.pieces (Nat.le_antisymm same loaded.lines.length_le)
    obtain ⟨-, passes⟩ := passesOver_of_stable run stable
    obtain ⟨r', run', moved⟩ :=
      exists_of_same (assembleLines_moved pieces h.binaries loaded.diagnostics neverCancelled) run
    have self : r.Extends name value r :=
      passesOver_extends_self h.omits (predefined_absent h.undefined) h.room passes stable
    exact ⟨r', run', self.trans_same moved⟩

/-- The settings of a run that can include `b.asm`. -/
def including (included : Text) : Settings :=
  { Settings.bare with read := fun path => if path = bytes "b.asm" then .ok included else .error (.plain .fileAccess) }

theorem including_moreRows {dialect : Dialect} {row included included' : Text}
    (more : MoreRows dialect row (Text.lines included) (Text.lines included')) :
    ReadsMore dialect row (including included).read (including included').read := by
  intro path
  by_cases named : path = bytes "b.asm"
  · exact .inr ⟨included, included', if_pos named, if_pos named, more⟩
  · refine .inl ?_
    simp only [including, if_neg named]

/-- A source that includes a file with a test of a symbol, which is found only behind it. -/
def testedSource : Text :=
  bytes "m macro\n nop\n endm\naa: m\n include b.asm\nbb: jr .l\n.l: db later\nlater equ 2\n"

/-- The file without the definition, and with it. -/
def testFile : Text := bytes " if later\n endif\n"

def testedDefinition : Text := bytes " if later\nxx equ 007\n endif\n"

theorem testedSource_settled :
    Settled (including testFile) (programOf (including testFile) (bytes "a.asm") testedSource) 2 :=
  ⟨by decide +kernel, by decide +kernel⟩

/-- The source needs two passes without the definition, and three with it. -/
theorem definition_weakens_tested :
    AddsRow (including testFile) (including testedDefinition).read (bytes "a.asm") testedSource testedSource
        (bytes "xx") (bytes "007") 7 ∧
      (assembleText (including testFile) neverCancelled (bytes "a.asm") testedSource).any (fun r =>
        r.state == .stable && r.passes == 2 && r.code == #[0, 0x18, 0, 2]) = true ∧
      (assembleText (including testedDefinition) neverCancelled (bytes "a.asm") testedSource).any (fun r =>
        r.passes == 3 && r.symbols.any fun t => t.value? (bytes "xx") == some 7) = true ∧
      ∃ r r', assembleText (including testFile) neverCancelled (bytes "a.asm") testedSource = .finished r ∧
        assembleText (including testedDefinition) neverCancelled (bytes "a.asm") testedSource = .finished r' ∧
        r.Extends (bytes "xx") 7 r' := by
  have early {n : Nat} (before : ∀ k, 0 < k → k < n →
      Passed (including testFile) (programOf (including testFile) (bytes "a.asm") testedSource) neverCancelled k) :
      n ≤ 2 := by
    by_contra late
    exact (before 2 Nat.two_pos (by omega)).unsettled testedSource_settled
  have turns : TurnsSettle (including testFile) (programOf (including testFile) (bytes "a.asm") testedSource) := by
    intro n pos _ before _ unchanged
    obtain rfl | rfl : n = 1 ∨ n = 2 := by
      have := early before
      omega
    · have changed : (table (including testFile) (programOf (including testFile) (bytes "a.asm") testedSource) 1).diff
          (table (including testFile) (programOf (including testFile) (bytes "a.asm") testedSource) 0) ≠ [] := by
        decide +kernel
      exact absurd unchanged changed
    · exact .inr ⟨by decide, by decide +kernel⟩
  have room : LeavesRoom (including testFile) (programOf (including testFile) (bytes "a.asm") testedSource) := by
    intro n pos _ before
    obtain rfl | rfl : n = 1 ∨ n = 2 := by
      have := early before
      omega
    · decide +kernel
    · decide +kernel
  have scripts : Source.scriptsEnd .native 0 [bytes " if later"] = true := by decide +kernel
  have more : Source.MoreRows .native (definitionRow (bytes "xx") (bytes "007")) (Text.lines testFile)
      (Text.lines testedDefinition) := .more scripts [bytes " endif"]
  have place : ∀ n < 11, ∀ ln ∈ (loadedOf (including testedDefinition) (bytes "a.asm") testedSource)[n]?,
      ln.text = definitionRow (bytes "xx") (bytes "007") →
        AdmitsRow (including testFile) ((loadedOf (including testFile) (bytes "a.asm") testedSource).take n)
          ((loadedOf (including testFile) (bytes "a.asm") testedSource).drop n) := by decide +kernel
  have binaries : ∀ ln ∈ (expansionOf (including testFile) (bytes "a.asm") testedSource).lines.toList,
      ln.binary? = none := by decide +kernel
  have adds : AddsRow (including testFile) (including testedDefinition).read (bytes "a.asm") testedSource testedSource
      (bytes "xx") (bytes "007") 7 := {
    identifier := ⟨⟨_, _, rfl, rfl, by decide⟩, by decide, by decide, rfl, rfl⟩
    number := ⟨by decide, by decide, by decide +kernel⟩
    main := .same _
    files := including_moreRows more
    once := by decide +kernel
    place := fun n ln here isRow => by
      have length : (loadedOf (including testedDefinition) (bytes "a.asm") testedSource).length = 11 := by
        decide +kernel
      exact place n (length ▸ (List.getElem?_eq_some_iff.1 here).1) ln here isRow
    binaries := fun ln mem name isName => by
      rw [binaries ln mem] at isName
      cases isName
    unused := by decide +kernel
    undefined := nofun
    room := room
    passes := .inr turns }
  have stable : (assembleText (including testFile) neverCancelled (bytes "a.asm") testedSource).any
      (·.state == .stable) = true := by decide +kernel
  obtain ⟨r, run, stable⟩ := Outcome.exists_of_any stable
  obtain ⟨r', run', -, extended⟩ := definition_weakens adds run (eq_of_beq stable)
  exact ⟨adds, by decide +kernel, by decide +kernel, r, r', run, run', extended⟩

/-- A source that includes a file twice, and a source that also takes the file as it is. -/
def twiceSource : Text := bytes " include b.asm\n include b.asm\n"

def binarySource : Text := bytes " include b.asm\n incbin b.asm\n"

/-- **A definition that nothing uses can be seen.**  It owns the local names behind it.  Its size needs one more pass if
    it stands in a block that is entered only from the second pass on, which may be one too many.  A macro may have the
    name of the directive.  In a file that is included twice it is made twice, and in a file that is also taken as it
    is, its row is code. -/
theorem definition_seen :
    Outcome.Shows (bytes "xx") 5
        (assembleText .bare neverCancelled (bytes "a.asm") (bytes "aa: nop\n.l: nop\n"))
        (assembleText .bare neverCancelled (bytes "a.asm") (bytes "aa: nop\nxx equ 5\n.l: nop\n")) ∧
      Outcome.Shows (bytes "xx") 5
        (assembleText { Settings.bare with maxPasses := 2 } neverCancelled (bytes "a.asm")
          (bytes " if later\n endif\nlater equ 1\n"))
        (assembleText { Settings.bare with maxPasses := 2 } neverCancelled (bytes "a.asm")
          (bytes " if later\nxx equ 5\n endif\nlater equ 1\n")) ∧
      Outcome.Shows (bytes "xx") 5
        (assembleText .bare neverCancelled (bytes "a.asm") (bytes "equ: macro\n nop\n endm\n nop\n"))
        (assembleText .bare neverCancelled (bytes "a.asm") (bytes "equ: macro\n nop\n endm\nxx equ 5\n nop\n")) ∧
      Outcome.Shows (bytes "xx") 5
        (assembleText (including (bytes " nop\n")) neverCancelled (bytes "a.asm") twiceSource)
        (assembleText (including (bytes "xx equ 5\n nop\n")) neverCancelled (bytes "a.asm") twiceSource) ∧
      Outcome.Shows (bytes "xx") 5
        (assembleText (including (bytes " nop\n")) neverCancelled (bytes "a.asm") binarySource)
        (assembleText (including (bytes "xx equ 5\n nop\n")) neverCancelled (bytes "a.asm") binarySource) := by
  have isLocal : bytes "aa.l" ≠ bytes "xx" := by decide
  have state {a a' : Result} (h : a.Extends (bytes "xx") 5 a') : (a'.state == .stable) = (a.state == .stable) :=
    congrArg (· == State.stable) h.state
  have code {a a' : Result} (h : a.Extends (bytes "xx") 5 a') : (a'.code.size == 6) = (a.code.size == 6) :=
    congrArg (·.size == 6) h.code
  exact ⟨.of_any (·.isSome_value? isLocal) (by decide +kernel) (by decide +kernel),
    .of_any state (by decide +kernel) (by decide +kernel), .of_any state (by decide +kernel) (by decide +kernel),
    .of_any state (by decide +kernel) (by decide +kernel), .of_any code (by decide +kernel) (by decide +kernel)⟩

end Assembly

end Z80Asm
