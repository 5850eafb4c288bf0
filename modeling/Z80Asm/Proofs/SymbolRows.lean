import Z80Asm.Proofs.Nesting
import Z80Asm.Proofs.SymbolNames
import Z80Asm.Proofs.TextRows

/-!
# Rows of a symbol file

A row of a symbol file is the definition of a symbol by a value in hexadecimal digits, with the letter `h` behind
them.  Where the first digit is a letter, the value is read as a name.
-/

namespace Z80Asm

open Program Source Z80Asm.Lex List Text Assembly Macro

variable {x : Symbol} {owner : Text} {xs : List Symbol}

namespace Symbol

def shown (x : Symbol) : Nat := x.value.toUInt64.toNat % 2 ^ 32

def numeral (x : Symbol) : Text := Listing.valueText x.value ++ bytes "h"

def row (x : Symbol) : Text := x.name ++ bytes ": equ " ++ x.numeral

/-- The first digit of the value is none of the letters. -/
def Readable (x : Symbol) : Prop := x.shown < 0xA0000000

instance (x : Symbol) : Decidable x.Readable := inferInstanceAs (Decidable (_ < _))

def lexeme (x : Symbol) : Lexeme :=
  if x.Readable then .number x.numeral (UInt64.ofNat x.shown).toInt64 else .word x.numeral (.ofWord x.numeral)

/-- The expression that the value in a row is read as. -/
def written (x : Symbol) : Expr :=
  if x.Readable then .num (UInt64.ofNat x.shown).toInt64 else .sym x.numeral

/-! ## Numerals -/

theorem hexDigit_start : ∀ d : Fin 16, (d.val < 10 → isDigit (hexDigit d) = true) ∧
    (10 ≤ d.val → isWordStart (hexDigit d) = true ∧ hexDigit d ≠ '.'.toUInt8) := by decide

theorem isDigitOf_hexDigit : ∀ d : Fin 16, Numeral.isDigitOf 16 (hexDigit d) = true := by decide

theorem isDigits_hex (width n : Nat) : (hex width n).all (Numeral.isDigitOf 16) = true := by
  induction width generalizing n with
  | zero => rfl
  | succ width ih =>
    rw [hex, all_append, ih, Bool.true_and]
    simpa using isDigitOf_hexDigit ⟨n % 16, Nat.mod_lt n (by decide)⟩

theorem numeral_alnum (x : Symbol) : ∀ b ∈ x.numeral, isAlnum b = true := by
  intro b mem
  rcases mem_append.1 mem with mem | mem
  · exact (hex_bytes b mem).1
  · have letters : (bytes "h").all isAlnum = true := by decide
    exact all_eq_true.1 letters b mem

theorem numeral_eq (x : Symbol) : ∃ b more, x.numeral = b :: more ∧ (x.Readable → isDigit b = true) ∧
    (¬ x.Readable → isWordStart b = true ∧ b ≠ '.'.toUInt8) := by
  let d := x.value.toUInt64.toNat / 16 ^ 7 % 16
  have small : d < 16 := Nat.mod_lt _ (by decide)
  have first := hexDigit_start ⟨d, small⟩
  have readable : x.Readable ↔ d < 10 := by
    unfold Readable shown
    omega
  refine ⟨hexDigit d, hex 7 x.value.toUInt64.toNat ++ bytes "h", ?_, ?_, ?_⟩
  · rw [numeral, Listing.valueText, hex_succ, cons_append]
  · exact fun h => first.1 (readable.1 h)
  · exact fun h => first.2 (not_lt.1 (mt readable.2 h))

theorem value?_numeral (x : Symbol) : Numeral.value? x.numeral = some (UInt64.ofNat x.shown).toInt64 := by
  have suffix : bytes "h" = ['h'.toUInt8] := by decide
  have letter : lowerByte 'h'.toUInt8 = 'h'.toUInt8 := by decide
  have digits : Numeral.isDigits 16 (Listing.valueText x.value) = true := by
    rw [Numeral.isDigits, Listing.valueText, isDigits_hex, hex_succ]
    rfl
  have value : Numeral.ofDigits 16 (Listing.valueText x.value) = x.shown := by
    rw [Listing.valueText, ofDigits_hex]
    rfl
  have bound : x.shown < UInt64.size := (Nat.mod_lt _ (by decide)).trans (by decide)
  simp [numeral, Numeral.value?, suffix, letter, Numeral.read?, digits, value, bound]

/-! ## Tokens -/

theorem scans_lexeme (x : Symbol) (dialect : Dialect) (st : Lex.State) :
    Scans dialect st x.lexeme [] ∧ x.lexeme.source = x.numeral := by
  obtain ⟨b, more, numeral, digit, start⟩ := x.numeral_eq
  have alnum : ∀ c ∈ more, isAlnum c = true := fun c mem =>
    x.numeral_alnum c (numeral ▸ mem_cons_of_mem _ mem)
  by_cases readable : x.Readable
  · refine ⟨?_, by simp [lexeme, readable, Lexeme.source]⟩
    rw [lexeme, if_pos readable]
    have read := x.value?_numeral
    rw [numeral] at read ⊢
    exact scans_numeral ⟨by simp, by simp⟩ (digit readable) alnum read
  · refine ⟨?_, by simp [lexeme, readable, Lexeme.source]⟩
    rw [lexeme, if_neg readable, numeral]
    have stem : more.all isWordByte = true := by
      have wordByte (c : UInt8) : isAlnum c = true → isWordByte c = true := by
        revert c
        exact byte_cases (by decide +kernel)
      exact all_eq_true.2 fun c mem => wordByte c (alnum c mem)
    have scanned : Scans dialect st (.word (b :: more ++ []) (.ofWord (b :: more ++ []))) [] :=
      scans_word (by simp) b more [] (start readable).1 stem (.inl rfl)
    simpa using scanned

inductive Spelled (x : Symbol) : List Token → Prop
  | row {name colon equ value : Token} (isName : name.lexeme = .word x.name (.ofWord x.name))
      (isColon : colon.lexeme = .sign .colon) (isEqu : equ.lexeme = .word (bytes "equ") (.directive .equ))
      (isValue : value.lexeme = x.lexeme) : Spelled x [name, colon, equ, value]

/-- Behind a name, the directive and the value are split off. -/
theorem run_equation {dialect : Dialect} {l : Lexeme} (scans : ∀ st, Scans dialect st l []) (st : Lex.State)
    (col : Nat) : ∃ equ value : Token, equ.lexeme = .word (bytes "equ") (.directive .equ) ∧ value.lexeme = l ∧
      run dialect st col 0 (bytes " equ " ++ l.source) =
        { st with before := value :: equ :: st.before, space := false } := by
  let blank : Blanks := ⟨bytes " ", by decide⟩
  let equ : Lexeme := .word (bytes "equ") (.directive .equ)
  have text : bytes " equ " ++ l.source = blank.val ++ (equ.source ++ (blank.val ++ (l.source ++ []))) := by
    have cut : bytes " equ " = bytes " " ++ (bytes "equ" ++ bytes " ") := by decide
    rw [cut]
    simp [blank, equ, Lexeme.source]
  have scans_equ (st : Lex.State) : Scans dialect st equ (blank.val ++ (l.source ++ [])) := by
    have first : ∀ b ∈ (blank.val ++ (l.source ++ [])).head?, Place.operation.admits b := by
      rintro b ⟨⟩
      decide
    exact scans_word first 'e'.toUInt8 (bytes "qu") [] (by decide) (by decide) (.inl rfl)
  obtain ⟨t₁, col₁, isEqu, run₁⟩ := run_lexeme st blank (fun _ => scans_equ _) col
  obtain ⟨t₂, col₂, isValue, run₂⟩ := run_lexeme { st with before := t₁ :: st.before, space := false } blank
    (fun _ => scans _) col₁
  refine ⟨t₁, t₂, isEqu, isValue, ?_⟩
  rw [text, run₁, run₂, run]

/-- **A row is split into the name, a colon, the directive and the value.** -/
theorem lex_row (x : Symbol) (dialect : Dialect) (isLabel : IsLabel x.name) :
    ∃ toks, lex dialect x.row = ⟨toks, none⟩ ∧ x.Spelled toks := by
  obtain ⟨start, stem, name, isStart, isStem⟩ := isLabel.word
  let gap : Blanks := ⟨[], rfl⟩
  let word : Lexeme := .word x.name (.ofWord x.name)
  have text : x.row = gap.val ++ (word.source ++ (gap.val ++ ((Lexeme.sign .colon).source ++
      (bytes " equ " ++ x.lexeme.source)))) := by
    have cut : bytes ": equ " = bytes ":" ++ bytes " equ " := by decide
    rw [row, cut, (x.scans_lexeme dialect {}).2]
    simp [gap, word, Lexeme.source, Sign.text]
  have scans_name (st : Lex.State) (rest : Text) :
      Scans dialect st word (gap.val ++ ((Lexeme.sign .colon).source ++ rest)) := by
    have first : ∀ b ∈ (gap.val ++ ((Lexeme.sign .colon).source ++ rest)).head?, Place.operation.admits b := by
      rintro b ⟨⟩
      decide
    simpa [word, name] using scans_word first start stem [] isStart isStem (.inl rfl)
  have scans_colon (st : Lex.State) (rest : Text) : Scans dialect st (.sign .colon) (bytes " equ " ++ rest) := by
    refine scans_sign ?_ (by simp) (by simp)
    rintro b ⟨⟩ s'
    cases s' <;> decide
  obtain ⟨t₁, col₁, isName, run₁⟩ := run_lexeme {} gap (fun _ => scans_name _ _) 1
  obtain ⟨t₂, col₂, isColon, run₂⟩ := run_lexeme ⟨[t₁], false, none⟩ gap (fun _ => scans_colon _ _) col₁
  obtain ⟨t₃, t₄, isEqu, isValue, run₃⟩ :=
    run_equation (fun _ => (x.scans_lexeme dialect _).1) ⟨[t₂, t₁], false, none⟩ col₂
  refine ⟨[t₁, t₂, t₃, t₄], ?_, .row isName isColon isEqu isValue⟩
  rw [lex, text, run₁, run₂, run₃]
  rfl

/-! ## Lines -/

def nodeAt (x : Symbol) (file : Text) (n : Nat) : Node := { seq := n, pos := { file, line := n }, text := x.row }

def equationAt (x : Symbol) (file : Text) (n : Nat) : Equation :=
  { node := x.nodeAt file n, name := x.name, value := x.written, unlabelled := rfl }

/-- The name has a byte that only words of the other dialect have. -/
def Foreign (x : Symbol) (dialect : Dialect) : Prop := dialect = .native ∧ '@'.toUInt8 ∈ x.name

instance (x : Symbol) (dialect : Dialect) : Decidable (x.Foreign dialect) :=
  inferInstanceAs (Decidable (_ ∧ _))

def statementAt (x : Symbol) (dialect : Dialect) (file : Text) (n : Nat) : Statement :=
  if x.Foreign dialect then .act (x.nodeAt file n) (.bad (.about .compassOnly x.name))
  else (x.equationAt file n).statement

namespace Spelled
variable {toks : List Token}

theorem splitLabel (h : x.Spelled toks) :
    ∃ name equ value, Token.splitLabel toks = (some name, [equ, value]) ∧ name.text = x.name ∧
      equ.lexeme = .word (bytes "equ") (.directive .equ) ∧ value.lexeme = x.lexeme := by
  obtain ⟨isName, isColon, isEqu, isValue⟩ := h
  refine ⟨_, _, _, ?_, by rw [Token.text, isName], isEqu, isValue⟩
  simp [Token.splitLabel, Token.isSign, isColon, Token.isWord, Token.word?, isName]

theorem bodyIs (h : x.Spelled toks) {d : Directive} (other : d ≠ .equ) : Token.bodyIs d toks = false := by
  obtain ⟨name, equ, value, split, -, isEqu, -⟩ := h.splitLabel
  simpa [Token.bodyIs, Token.body, split, Token.isDirective, isEqu] using other.symm

theorem compassWord? (h : x.Spelled toks) :
    Token.compassWord? toks = if '@'.toUInt8 ∈ x.name then some x.name else none := by
  cases h with
  | @row name colon equ value isName isColon isEqu isValue =>
    have noEqu : '@'.toUInt8 ∉ bytes "equ" := by decide
    have noNumeral : '@'.toUInt8 ∉ x.numeral := fun mem =>
      absurd (x.numeral_alnum _ mem) (by decide)
    by_cases readable : x.Readable
    · split <;> simp_all [Token.compassWord?, Token.word?, lexeme]
    · split <;> simp_all [Token.compassWord?, Token.word?, lexeme]

end Spelled

/-- The value is read as its expression, whoever owns local names. -/
theorem wholeExpr_written (x : Symbol) (s : Settings) (owner : Text) {value : Token}
    (isValue : value.lexeme = x.lexeme) : wholeExpr s owner [value] = .ok x.written := by
  have derives : Parse.Derives s.dialect 10 [qualifyToken owner value] x.written := by
    by_cases readable : x.Readable
    · rw [lexeme, if_pos readable] at isValue
      rw [written, if_pos readable]
      have isNumber : (qualifyToken owner value).lexeme = .number x.numeral (UInt64.ofNat x.shown).toInt64 := by
        rw [lexeme_qualifyToken, isValue]
      exact .number isNumber
    · rw [lexeme, if_neg readable] at isValue
      rw [written, if_neg readable]
      have plain : qualify owner x.numeral = x.numeral := by
        obtain ⟨b, more, numeral, -, start⟩ := x.numeral_eq
        rw [qualify, if_neg]
        simpa [numeral] using (start readable).2
      have isWord : (qualifyToken owner value).lexeme = .word x.numeral (.ofWord x.numeral) := by
        rw [lexeme_qualifyToken, isValue]
        cases Role.ofWord x.numeral <;> simp [plain]
      exact .word isWord
  rw [wholeExpr_eq_ok, map_singleton]
  exact derives.loosen (Nat.zero_le _) le_rfl

theorem labelName_row (isLabel : IsLabel x.name) (owned : x.name.head? = some '.'.toUInt8 → owner = []) :
    (labelName owner x.name).1 = x.name ∧ (labelName owner x.name).2.2 = none ∧
      (x.name.head? = some '.'.toUInt8 → (labelName owner x.name).2.1 = []) := by
  have valid := labelName_valid isLabel.valid owner
  rcases labelName_cases owner x.name with
    ⟨-, wrong, -⟩ | ⟨⟨isLocal, -⟩, e⟩ | ⟨-, e⟩ | ⟨⟨noLocal, -⟩, e⟩
  · simp [valid] at wrong
  · obtain rfl := owned isLocal
    simp [e]
  · rw [e]
    exact ⟨rfl, rfl, owned⟩
  · rw [e]
    exact ⟨rfl, rfl, fun isLocal => absurd isLocal noLocal⟩

/-- **A row becomes one statement**: a definition, or a report about its name. -/
theorem edits_row (s : Settings) (file : Text) (n : Nat) (isLabel : IsLabel x.name)
    (owned : x.name.head? = some '.'.toUInt8 → owner = []) :
    ∃ node action, x.statementAt s.dialect file n = .act node action ∧
      edits s owner n (lineAt s.dialect file n x.row) = [.act node action] := by
  obtain ⟨toks, lexed, spelled⟩ := x.lex_row s.dialect isLabel
  obtain ⟨name, equ, value, split, text, isEqu, isValue⟩ := spelled.splitLabel
  obtain ⟨label, valid, -⟩ := labelName_row isLabel owned
  have made : edits s owner n (lineAt s.dialect file n x.row) =
      labelledEdits s (labelName owner x.name).2.1 (lineAt s.dialect file n x.row)
        { x.nodeAt file n with label := some x.name } [equ, value] := by
    rcases named : labelName owner x.name with ⟨name', owner', fault⟩
    rw [named] at label valid
    obtain rfl : name' = x.name := label
    obtain rfl : fault = none := valid
    simp only [edits, lineAt, lexed, split, text, named]
    rfl
  rw [made, labelledEdits]
  simp only [lineAt, lexed, spelled.compassWord?]
  by_cases foreign : x.Foreign s.dialect
  · refine ⟨_, _, if_pos foreign, ?_⟩
    rw [if_pos foreign.1, if_pos foreign.2]
    rfl
  · refine ⟨_, _, if_neg foreign, ?_⟩
    have native : (if s.dialect = .native then if '@'.toUInt8 ∈ x.name then some x.name else none
        else none) = none := by
      by_cases native : s.dialect = .native
      · rw [if_pos native, if_neg fun mem => foreign ⟨native, mem⟩]
      · rw [if_neg native]
    rw [native]
    simp only [bodyEdits, isEqu, directiveEdits, equateEdits, x.wholeExpr_written s _ isValue]
    rfl

theorem rowTask_row (x : Symbol) (dialect : Dialect) (isLabel : IsLabel x.name) : rowTask dialect x.row = .line := by
  obtain ⟨toks, lexed, spelled⟩ := x.lex_row dialect isLabel
  simp [rowTask, lexed, spelled.bodyIs]

theorem task_row (x : Symbol) (dialect : Dialect) (file : Text) (n : Nat) (isLabel : IsLabel x.name) :
    task ∅ (lineAt dialect file n x.row) = .keep := by
  obtain ⟨toks, lexed, spelled⟩ := x.lex_row dialect isLabel
  have tokens : (lineAt dialect file n x.row).tokens = toks := by rw [lineAt, lexed]
  refine task_keep ?_ ?_ fun _ _ _ _ => Std.TreeMap.not_mem_emptyc
  · rw [tokens]
    exact spelled.bodyIs (by decide)
  · rw [tokens]
    exact spelled.bodyIs (by decide)

/-! ## Files -/

def program (dialect : Dialect) (file : Text) : Nat → List Symbol → List Statement
  | _, [] => []
  | n, x :: xs => x.statementAt dialect file n :: program dialect file (n + 1) xs

/-- Names that can stand as labels, local ones before all others. -/
structure Listed (xs : List Symbol) : Prop where
  labels : ∀ x ∈ xs, Program.IsLabel x.name
  locals : xs.Pairwise fun x y => y.name.head? = some '.'.toUInt8 → x.name.head? = some '.'.toUInt8

theorem parses_rows (s : Settings) (file : Text) (listed : Listed xs) (n : Nat)
    (owned : ∀ x ∈ xs, x.name.head? = some '.'.toUInt8 → owner = []) :
    Parses (allEdits s owner n (linesAt s.dialect file (n + 1) (xs.map row))) (program s.dialect file (n + 1) xs) ∧
      (allEdits s owner n (linesAt s.dialect file (n + 1) (xs.map row))).filterMap Edit.report? = [] := by
  induction xs generalizing n owner with
  | nil => exact ⟨.nil, rfl⟩
  | cons x xs ih =>
    obtain ⟨labels, locals⟩ := listed
    rw [forall_mem_cons] at labels owned
    rw [pairwise_cons] at locals
    obtain ⟨node, action, statement, made⟩ := edits_row s file (n + 1) labels.1 owned.1
    have next : ∀ y ∈ xs, y.name.head? = some '.'.toUInt8 →
        ownerAfter owner (lineAt s.dialect file (n + 1) x.row) = [] := by
      intro y mem isLocal
      obtain ⟨toks, lexed, spelled⟩ := x.lex_row s.dialect labels.1
      obtain ⟨name, equ, value, split, text, -, -⟩ := spelled.splitLabel
      simp only [ownerAfter, lineAt, lexed, split, text]
      exact (labelName_row labels.1 owned.1).2.2 (locals.1 y mem isLocal)
    obtain ⟨parses, silent⟩ := ih ⟨labels.2, locals.2⟩ (n + 1) next
    rw [map_cons, linesAt, allEdits, made, program, statement]
    exact ⟨(Parses.act node action).append parses, by simpa [Edit.report?] using silent⟩

theorem row_unbroken (isLabel : IsLabel x.name) : 0x0A ∉ x.row ∧ 0x0D ∉ x.row := by
  have plain : ∀ b ∈ x.row, b ≠ 0x0A ∧ b ≠ 0x0D := by
    have wordByte (b : UInt8) : isWordByte b = true → b ≠ 0x0A ∧ b ≠ 0x0D := by
      revert b
      exact byte_cases (by decide +kernel)
    have alnum (b : UInt8) : isAlnum b = true → b ≠ 0x0A ∧ b ≠ 0x0D := by
      revert b
      exact byte_cases (by decide +kernel)
    have fixed : 0x0A ∉ bytes ": equ " ∧ 0x0D ∉ bytes ": equ " := by decide
    intro b mem
    rcases mem_append.1 mem with mem | mem
    · rcases mem_append.1 mem with mem | mem
      · exact wordByte b (isLabel.word.wordBytes b mem)
      · exact ⟨ne_of_mem_of_not_mem mem fixed.1, ne_of_mem_of_not_mem mem fixed.2⟩
    · exact alnum b (x.numeral_alnum b mem)
  exact ⟨fun mem => (plain _ mem).1 rfl, fun mem => (plain _ mem).2 rfl⟩

/-- **A file of rows is assembled as their statements.** -/
theorem assembleText_rows (s : Settings) (cancelled : Nat → Bool) (file : Text) (listed : Listed xs) :
    programOf s file ((xs.map row).map (· ++ [0x0A])).flatten = program s.dialect file 1 xs ∧
      assembleText s cancelled file ((xs.map row).map (· ++ [0x0A])).flatten =
        passesOver s cancelled [] (program s.dialect file 1 xs) := by
  let lines : List Line := linesAt s.dialect file 1 (xs.map row)
  have rows : Text.lines ((xs.map row).map (· ++ [0x0A])).flatten = xs.map row := by
    refine lines_rows fun text mem => ?_
    obtain ⟨x, isSymbol, rfl⟩ := List.mem_map.1 mem
    exact row_unbroken (listed.labels x isSymbol)
  have loaded : load s includeLimit file ((xs.map row).map (· ++ [0x0A])).flatten {} =
      { lines := lines.toArray } := by
    have plain : ∀ text ∈ xs.map row, rowTask s.dialect text = .line := by
      intro text mem
      obtain ⟨x, isSymbol, rfl⟩ := List.mem_map.1 mem
      exact x.rowTask_row s.dialect (listed.labels x isSymbol)
    rw [includeLimit, load, rows, ← append_nil (xs.map row), loadRows_lines plain]
    simp [loadRows, lines]
  have kept : ∀ ln ∈ lines, task ({} : Expansion).macros ln = .keep := by
    intro ln mem
    obtain ⟨_, isRow, n, rfl⟩ := exists_of_mem_linesAt mem
    obtain ⟨x, isSymbol, rfl⟩ := List.mem_map.1 isRow
    exact x.task_row s.dialect file n (listed.labels x isSymbol)
  have expanded : expand s depthLimit lines {} = { lines := lines.toArray } := by
    rw [depthLimit, expand, ← append_nil lines, expandLines_keep s _ (by simpa using kept)]
    simp [expandLines]
  obtain ⟨parses, silent⟩ := parses_rows s file listed 0 fun _ _ _ => (rfl : ([] : Text) = [])
  have built := build_of_parses parses
  rw [silent] at built
  constructor
  · rw [programOf, loaded]
    dsimp only
    rw [expanded, built]
    exact reverse_reverse _
  · simp only [assembleText, loaded, expanded]
    rw [built]
    simp [passesOver, Building.program]

end Symbol

end Z80Asm
