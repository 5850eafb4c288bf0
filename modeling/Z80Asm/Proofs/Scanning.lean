import Mathlib.Data.List.Find
import Mathlib.Tactic.Common
import Z80Asm.Proofs.Grammar
import Z80Asm.Token.Lex

/-!
# The written form of tokens

A list of lexemes in source form, with any blanks between them, is split into the same lexemes again,
as long as operands and operations alternate (`Written`).  What a token is depends on the tokens before
it and on the bytes after it: `%` and `&` may be the sign of a number, a number takes in the digits
after blanks, and of several signs the longest is taken.
-/

namespace Z80Asm

open Numeral List Text

variable {ls : List Lexeme} {p : Place} {l : Lexeme} {before : List Token} {s : Sign} {b : UInt8} {t after : Text}

def Text.doubled (t : Text) : Text := t.flatMap fun b => if b = apostrophe then [b, b] else [b]

theorem Sign.text_ne_nil (s : Sign) : s.text ≠ [] := by cases s <;> decide

def Lexeme.source : Lexeme → Text
  | word text _ | number text _ => text
  | string text => Text.apostrophe :: text.doubled ++ [Text.apostrophe]
  | sign s => s.text

def Blanks : Type := { t : Text // t.all Lex.isBlank }

/-- Lexemes in source form, with blanks before each of them and at the end. -/
def Lexeme.spread (gap : Nat → Blanks) : List Lexeme → Text
  | [] => (gap 0).val
  | l :: ls => (gap 0).val ++ (l.source ++ spread (fun n => gap (n + 1)) ls)

namespace Lex

/-- A word that names something of the program, as it is written: `af'` is one. -/
structure IsIdentifier (text : Text) : Prop where
  role : Role.ofWord text = .name
  shape : ∃ start stem mark, text = start :: stem ++ mark ∧ isWordStart start ∧ stem.all isWordByte ∧
    (mark = [] ∨ mark = [Text.apostrophe] ∧ Text.lower (start :: stem) = bytes "af")

/-! ## Alternation -/

inductive Place where
  | operand
  /-- An operation, a closing bracket or the end. -/
  | operation

/-- An operand of one lexeme: a number in decimal, a string, a name or `$`. -/
inductive Operand : Lexeme → Prop
  | number (value : Int64) : Operand (.number (Text.ofNat value.toUInt64.toNat) value)
  | string (text : Text) : Operand (.string text)
  | name {text : Text} (h : IsIdentifier text) : Operand (.word text .name)
  | pc : Operand (.sign .dollar)

/-- Lexemes that alternate as in expressions with commas between them, from a place in one to the end. -/
inductive Written : Place → List Lexeme → Prop
  | done : Written .operation []
  | operand {l : Lexeme} {ls : List Lexeme} (h : Operand l) (rest : Written .operation ls) :
      Written .operand (l :: ls)
  | unary (op : UnaryOp) {ls : List Lexeme} (rest : Written .operand ls) :
      Written .operand (.sign op.sign :: ls)
  | opening {ls : List Lexeme} (rest : Written .operand ls) :
      Written .operand (.sign .openParen :: ls)
  | binary {s : Sign} {ls : List Lexeme} (h : s.binary?.isSome) (rest : Written .operand ls) :
      Written .operation (.sign s :: ls)
  | closing {ls : List Lexeme} (rest : Written .operation ls) :
      Written .operation (.sign .closeParen :: ls)
  | comma {ls : List Lexeme} (rest : Written .operand ls) : Written .operation (.sign .comma :: ls)

/-! ## Bytes -/

theorem byte_cases {p : UInt8 → Prop} (h : ∀ n : Fin 256, p (.ofFin n)) (b : UInt8) : p b := h b.toFin

/-- A byte that is no part of the token before this place: in front of an operand it makes no longer
    sign of another one, in front of an operation it goes on with no operand. -/
def Place.admits : Place → UInt8 → Bool
  | operand, b => !(bytes "|&=<>").contains b
  | operation, b => !isWordByte b && b != Text.apostrophe

/-- The text goes on at a place with a byte that belongs to no token before it, also after blanks. -/
structure Clear (p : Place) (t : Text) : Prop where
  first : ∀ b ∈ t.head?, p.admits b
  afterBlanks : ∀ b ∈ (t.dropWhile isBlank).head?, p.admits b

theorem admits_blank (p : Place) {b : UInt8} (h : isBlank b) : p.admits b := by
  simp only [isBlank, Bool.or_eq_true, beq_iff_eq, or_assoc] at h
  rcases h with rfl | rfl | rfl | rfl | rfl <;> cases p <;> decide

theorem admits_operation_iff : Place.operation.admits b ↔ isWordByte b = false ∧ b ≠ Text.apostrophe := by
  simp [Place.admits]

theorem not_alnum_of_admits {b : UInt8} (h : Place.operation.admits b) : isAlnum b = false := by
  obtain ⟨noWord, -⟩ := admits_operation_iff.1 h
  simp only [isWordByte, isWordStart, Bool.or_eq_false_iff] at noWord
  simp [isAlnum, noWord]

theorem isWordStart_facts (b : UInt8) : isWordStart b →
    Place.operand.admits b ∧ isBlank b = false ∧ b ≠ ';'.toUInt8 ∧ isDigit b = false := by
  revert b
  exact byte_cases (by decide +kernel)

theorem isDigit_facts (b : UInt8) : isDigit b →
    Place.operand.admits b ∧ isBlank b = false ∧ b ≠ ';'.toUInt8 ∧ isDigitOf 10 b ∧
      ∀ l ∈ bytes "hxbqod", lowerByte b ≠ l := by
  revert b
  exact byte_cases (by decide +kernel)

theorem head_sign_facts (s : Sign) : ∀ b ∈ s.text.head?, isBlank b = false ∧ b ≠ ';'.toUInt8 ∧
    isDigit b = false ∧ isWordStart b = false ∧ b ≠ quoteMark ∧ b ≠ Text.apostrophe ∧
    b ≠ '#'.toUInt8 ∧ (b = '$'.toUInt8 → s = .dollar) ∧
    (b = '%'.toUInt8 ∨ b = '&'.toUInt8 → s ∈ [.percent, .amp, .andAnd]) := by
  cases s <;> rintro b ⟨⟩ <;> decide

theorem admits_operation (h : s.binary?.isSome ∨ s = .closeParen ∨ s = .comma) :
    ∀ b ∈ s.text.head?, Place.operation.admits b := by
  revert h
  cases s <;> rintro h b ⟨⟩ <;> revert h <;> decide

theorem admits_operand (h : (∃ op : UnaryOp, s = op.sign) ∨ s = .openParen ∨ s = .dollar) :
    ∀ b ∈ s.text.head?, Place.operand.admits b := by
  rcases h with ⟨op, rfl⟩ | rfl | rfl
  · cases op <;> rintro b ⟨⟩ <;> decide
  · rintro b ⟨⟩; decide
  · rintro b ⟨⟩; decide

/-! ## Decimal numbers -/

theorem digitChar_toUInt8 : ∀ d : Fin 10, isDigit (Nat.digitChar d).toUInt8 ∧
    digit? (Nat.digitChar d).toUInt8 = some d := by decide

theorem ofNat_decimal (n : Nat) : Text.ofNat n ≠ [] ∧ (∀ b ∈ Text.ofNat n, isDigit b) ∧
    ofDigits 10 (Text.ofNat n) = n := by
  induction n using Nat.strongRecOn with
  | ind n ih =>
    have step := Nat.toDigits_eq_if (b := 10) (n := n) (by decide)
    by_cases small : n < 10
    · obtain ⟨isDigit, value⟩ := digitChar_toUInt8 ⟨n, small⟩
      have text : Text.ofNat n = [n.digitChar.toUInt8] := by simp [Text.ofNat, step, small]
      rw [text]
      exact ⟨by simp, by simpa using isDigit, by simp [ofDigits, value]⟩
    · obtain ⟨isDigit, value⟩ := digitChar_toUInt8 ⟨n % 10, by omega⟩
      obtain ⟨_, digits, front⟩ := ih (n / 10) (by omega)
      have text : Text.ofNat n = Text.ofNat (n / 10) ++ [(n % 10).digitChar.toUInt8] := by
        simp [Text.ofNat, step, small]
      rw [text]
      refine ⟨by simp, by simpa [or_imp, forall_and] using ⟨digits, isDigit⟩, ?_⟩
      simp only [ofDigits, foldl_append] at front ⊢
      simp [front, value]
      omega

/-- Decimal digits without a letter at their end are read in decimal. -/
theorem value?_digits (digits : ∀ b ∈ t, isDigit b) : value? t = read? 10 t := by
  have noLetter (b : UInt8) (mem : b ∈ t) := (isDigit_facts b (digits b mem)).2.2.2.2
  have last : ∀ l ∈ bytes "hxbqod", (t.getLast?.map lowerByte).getD 0 ≠ l := by
    intro l letter
    cases final : t.getLast? with
    | none => exact fun zero => absurd (zero ▸ letter) (by decide)
    | some b => exact noLetter b (mem_of_getLast? final) l letter
  have second : ∀ l ∈ bytes "hxbqod", radixLetter? t ≠ some l := by
    intro l letter
    match t with
    | [] | [_] => simp [radixLetter?]
    | a :: b :: _ =>
      have := noLetter b (by simp) l letter
      simp only [radixLetter?]
      split_ifs <;> simp [this]
  have h := last _ (by decide : 'h'.toUInt8 ∈ _)
  have b := last _ (by decide : 'b'.toUInt8 ∈ _)
  have q := last _ (by decide : 'q'.toUInt8 ∈ _)
  have o := last _ (by decide : 'o'.toUInt8 ∈ _)
  have d := last _ (by decide : 'd'.toUInt8 ∈ _)
  have x := second _ (by decide : 'x'.toUInt8 ∈ _)
  have zeroB := second _ (by decide : 'b'.toUInt8 ∈ _)
  simp [value?, h, b, q, o, d, x, zeroB]

theorem value?_ofNat (value : Int64) : value? (Text.ofNat value.toUInt64.toNat) = some value := by
  obtain ⟨nonempty, digits, ofDigits⟩ := ofNat_decimal value.toUInt64.toNat
  have isDigits : Numeral.isDigits 10 (Text.ofNat value.toUInt64.toNat) := by
    simp only [Numeral.isDigits, Bool.and_eq_true, Bool.not_eq_true', isEmpty_eq_false_iff, all_eq_true]
    exact ⟨nonempty, fun b mem => (isDigit_facts b (digits b mem)).2.2.2.1⟩
  rw [value?_digits digits, read?, isDigits, ofDigits]
  simp [UInt64.toNat_lt_size]

/-! ## Scanning one lexeme -/

/-- The source of the lexeme, at its place in a line, is scanned as that lexeme and no further. -/
def Scans (dialect : Dialect) (st : State) (l : Lexeme) (after : Text) : Prop :=
  ∃ b more, l.source = b :: more ∧ isBlank b = false ∧ b ≠ ';'.toUInt8 ∧
    scanAt dialect st b (more ++ after) = { lexeme := some l, more := more.length }

section

variable {dialect : Dialect} {st : State}

theorem takeWhile_eq_nil {p : UInt8 → Bool} (stop : ∀ b ∈ t.head?, p b = false) : t.takeWhile p = [] := by
  cases t with
  | nil => rfl
  | cons b rest => simp [stop b rfl]

/-- A run of bytes of a class ends where another byte follows. -/
theorem span_append {p : UInt8 → Bool} {front after : Text} (run : ∀ b ∈ front, p b)
    (stop : ∀ b ∈ after.head?, p b = false) :
    (front ++ after).takeWhile p = front ∧ (front ++ after).dropWhile p = after := by
  have taken : (front ++ after).takeWhile p = front := by
    rw [takeWhile_append_of_pos run, takeWhile_eq_nil stop, append_nil]
  have whole := takeWhile_append_dropWhile (p := p) (l := front ++ after)
  rw [taken] at whole
  exact ⟨taken, append_cancel_left whole⟩

section
variable (clear : Clear .operation after)
include clear

theorem Clear.not_alnum : ∀ b ∈ after.head?, isAlnum b = false :=
  fun b first => not_alnum_of_admits (clear.first b first)

theorem Clear.group?_eq_none (accept : Text → Bool) : group? accept after = none := by
  have stop : ∀ b ∈ (after.dropWhile isBlank).head?, isAlnum b = false :=
    fun b first => not_alnum_of_admits (clear.afterBlanks b first)
  simp [group?, takeWhile_eq_nil stop]

theorem Clear.groups_eq_nil (accept last : Text → Bool) (fuel : Nat) : groups accept last fuel after = ([], 0) := by
  cases fuel with
  | zero => rfl
  | succ fuel => simp [groups, clear.group?_eq_none]

theorem Clear.hexGroups?_eq_none (word : Text) : hexGroups? word after = none := by
  simp [hexGroups?, clear.groups_eq_nil]

theorem scans_numeral {more : Text} {value : Int64}
    (digit : isDigit b) (alnum : ∀ d ∈ more, isAlnum d) (read : value? (b :: more) = some value) :
    Scans dialect st (.number (b :: more) value) after := by
  have all : ∀ d ∈ b :: more, isAlnum d := forall_mem_cons.2 ⟨by simp [isAlnum, digit], alnum⟩
  obtain ⟨word, rest⟩ := span_append all clear.not_alnum
  rw [cons_append] at word rest
  obtain ⟨-, blank, comment, -⟩ := isDigit_facts b digit
  refine ⟨b, more, rfl, blank, comment, ?_⟩
  simp [scanAt, digit, number, word, rest, clear.hexGroups?_eq_none, clear.groups_eq_nil, spacedFault, read]

theorem scans_number (value : Int64) : Scans dialect st (.number (Text.ofNat value.toUInt64.toNat) value) after := by
  obtain ⟨nonempty, digits, -⟩ := ofNat_decimal value.toUInt64.toNat
  have read := value?_ofNat value
  generalize Text.ofNat value.toUInt64.toNat = text at *
  obtain ⟨b, more, rfl⟩ := exists_cons_of_ne_nil nonempty
  rw [forall_mem_cons] at digits
  exact scans_numeral clear digits.1 (fun d mem => by simp [isAlnum, digits.2 d mem]) read

end

theorem apostrophed_cons (ne : b ≠ Text.apostrophe) (t : Text) : apostrophed (b :: t) = (apostrophed t).cons b 1 := by
  cases t <;> simp [apostrophed, ne]

theorem apostrophed_doubled (stop : ∀ b ∈ after.head?, b ≠ Text.apostrophe) (text : Text) :
    apostrophed (text.doubled ++ Text.apostrophe :: after) =
      { text, size := text.doubled.length + 1, closed := true } := by
  induction text with
  | nil =>
    cases after with
    | nil => rfl
    | cons b rest => simp [doubled, apostrophed, stop b rfl, Inside.close]
  | cons b text ih =>
    by_cases quote : b = Text.apostrophe
    · have twice : doubled (b :: text) = b :: b :: doubled text := by simp [doubled, quote]
      rw [twice]
      simp [apostrophed, quote, ih, Inside.cons]
    · have once : doubled (b :: text) = b :: doubled text := by simp [doubled, quote]
      simp [once, apostrophed_cons quote, ih, Inside.cons]

theorem scans_string (first : ∀ b ∈ after.head?, Place.operation.admits b) (text : Text) :
    Scans dialect st (.string text) after := by
  refine ⟨Text.apostrophe, text.doubled ++ [Text.apostrophe], rfl, by decide, by decide, ?_⟩
  have scanned (rest : Text) : scanAt dialect st Text.apostrophe rest = string (apostrophed rest) := rfl
  have inside := apostrophed_doubled (fun b h => (admits_operation_iff.1 (first b h)).2) text
  simp [scanned, inside, string]

theorem scans_word (first : ∀ b ∈ after.head?, Place.operation.admits b) (start : UInt8)
    (stem mark : Text) (isStart : isWordStart start) (isStem : stem.all isWordByte)
    (isMark : mark = [] ∨ mark = [Text.apostrophe] ∧ Text.lower (start :: stem) = bytes "af") :
    Scans dialect st (.word (start :: stem ++ mark) (.ofWord (start :: stem ++ mark))) after := by
  obtain ⟨-, blank, comment, digit⟩ := isWordStart_facts start isStart
  refine ⟨start, stem ++ mark, rfl, blank, comment, ?_⟩
  have run : ∀ b ∈ start :: stem, isWordByte b := by
    simpa [isWordByte, isStart] using all_eq_true.1 isStem
  have stop : ∀ b ∈ (mark ++ after).head?, isWordByte b = false := by
    rcases isMark with rfl | ⟨rfl, -⟩
    · exact fun b h => (admits_operation_iff.1 (first b h)).1
    · simp only [cons_append, head?_cons, Option.mem_some_iff, forall_eq']
      decide
  obtain ⟨word, rest⟩ := span_append run stop
  simp only [cons_append] at word rest
  have scanned : scanAt dialect st start (stem ++ mark ++ after) =
      Lex.word (start :: (stem ++ (mark ++ after))) := by simp [scanAt, digit, isStart]
  rw [scanned, Lex.word]
  simp only [word, rest]
  rcases isMark with rfl | ⟨rfl, af⟩
  · have next : after.head? ≠ some Text.apostrophe := fun h => (admits_operation_iff.1 (first _ h)).2 rfl
    simp [next]
  · simp [af]

/-! ### Signs -/

/-- A sign is taken whole, and no more, unless the next byte makes a longer one of it. -/
theorem first?_append (s : Sign) (longest : ∀ b ∈ after.head?, ∀ s' : Sign, s'.text ≠ s.text ++ [b]) :
    Sign.first? (s.text ++ after) = some s := by
  have alone : Sign.first? s.text = some s := by cases s <;> decide
  have size (s : Sign) : 1 ≤ s.text.length ∧ s.text.length ≤ 2 := by cases s <;> decide
  rw [← alone]
  refine find?_congr fun s' _ => Bool.eq_iff_iff.2 ?_
  simp only [List.isPrefixOf_iff_prefix]
  refine ⟨fun fits => ?_, fun fits => fits.trans (prefix_append _ _)⟩
  rcases Nat.lt_or_ge s.text.length s'.text.length with lt | le
  · -- the longer sign is `s` and the first byte after it
    obtain ⟨more, whole⟩ := prefix_of_prefix_length_le (prefix_append _ after) fits (Nat.le_of_lt lt)
    have length := congrArg List.length whole
    rw [length_append] at length
    have one : more.length = 1 := by
      have := size s
      have := size s'
      omega
    obtain ⟨b, rfl⟩ := length_eq_one_iff.1 one
    rw [← whole, prefix_append_right_inj] at fits
    have first : b ∈ after.head? := by
      cases after with
      | nil => simp at fits
      | cons c rest => simpa [eq_comm] using fits
    exact absurd whole.symm (longest b first s')
  · exact prefix_of_prefix_length_le fits (prefix_append _ _) le

theorem Clear.longest (clear : Clear .operand after) (s : Sign) :
    ∀ b ∈ after.head?, ∀ s' : Sign, s'.text ≠ s.text ++ [b] := by
  have last (s' : Sign) : 1 < s'.text.length → ∀ b ∈ s'.text.getLast?, ¬ Place.operand.admits b := by
    cases s' <;> rintro long b ⟨⟩ <;> revert long <;> decide
  intro b first s' longer
  have nonempty := length_pos_iff.2 (Sign.text_ne_nil s)
  exact last s' (by simp [longer, nonempty]) b (by simp [longer]) (clear.first b first)

theorem longest_of_ends (ends : s = .closeParen ∨ s = .dollar) (b : UInt8) (s' : Sign) : s'.text ≠ s.text ++ [b] := by
  intro longer
  rcases ends with rfl | rfl <;> cases s' <;> cases longer

theorem scans_sign (longest : ∀ b ∈ after.head?, ∀ s' : Sign, s'.text ≠ s.text ++ [b])
    (dollar : s = .dollar → Clear .operation after)
    (noStart : s ∈ [.percent, .amp, .andAnd] → ∀ next, operandStart st.before st.space next = false) :
    Scans dialect st (.sign s) after := by
  obtain ⟨b, more, text⟩ := exists_cons_of_ne_nil (Sign.text_ne_nil s)
  obtain ⟨blank, comment, digit, start, quote, apostrophe, hash, isDollar, isStart⟩ :=
    head_sign_facts s b (by simp [text])
  refine ⟨b, more, text, blank, comment, ?_⟩
  have scanned : sign (b :: (more ++ after)) = { lexeme := some (.sign s), more := more.length } := by
    have first := first?_append s longest
    rw [text, cons_append] at first
    simp [sign, first, text]
  by_cases eq : b = '$'.toUInt8
  · obtain rfl := isDollar eq
    obtain ⟨rfl, rfl⟩ : '$'.toUInt8 = b ∧ [] = more := cons_eq_cons.1 text
    have digits : after.takeWhile isAlnum = [] := takeWhile_eq_nil (dollar rfl).not_alnum
    have noNumber : signedNumber? dialect 16 1 ('$'.toUInt8 :: after) = none := by
      simp [signedNumber?, digits]
    simpa [scanAt, digit, start, quote, apostrophe, signRadix?, noNumber] using scanned
  · have noRadix (next : Option UInt8) :
        signRadix? (operandStart st.before st.space next) (b :: (more ++ after)) = none := by
      by_cases either : s ∈ [.percent, .amp, .andAnd]
      · simp [signRadix?, eq, hash, noStart either]
      · have noSign := not_or.1 fun h => either (isStart h)
        simp [signRadix?, eq, hash, noSign]
    simp [scanAt, digit, start, quote, apostrophe, noRadix, scanned]

end

/-! ## Scanning a line -/

/-- The lexeme can stand in front of a place: in front of an operation, it ends an operand. -/
def Place.Follows : Place → Lexeme → Prop
  | operand, _ => True
  | operation, l => Operand l ∨ l = .sign .closeParen

/-- The tokens in front of a place, last token first.  The first of all is no name, so that the line is
    no call of a macro. -/
structure Ready (p : Place) (before : List Token) : Prop where
  headed : ∃ after head, before = after ++ [head] ∧ head.isName = false
  follows : ∀ last ∈ before.head?, p.Follows last.lexeme

theorem Ready.isMacroHead (h : Ready p before) : isMacroHead before = false := by
  obtain ⟨⟨after, head, rfl, noName⟩, -⟩ := h
  match after with
  | [] | [_] | [_, _] | _ :: _ :: _ :: _ => simp [Lex.isMacroHead, noName]

theorem Ready.not_operandStart (h : Ready .operation before) (space : Bool)
    (next : Option UInt8) : operandStart before space next = false := by
  have noHead := h.isMacroHead
  cases before with
  | nil =>
    obtain ⟨after, head, isEmpty, -⟩ := h.headed
    simp at isEmpty
  | cons last before =>
    rcases h.follows last rfl with operand | closing
    · generalize lexeme : last.lexeme = l at operand
      cases operand <;> simp [operandStart, lexeme, noHead]
    · simp [operandStart, closing]

theorem Ready.push {p q : Place} (h : Ready p before) {tok : Token}
    (follows : q.Follows tok.lexeme) : Ready q (tok :: before) := by
  obtain ⟨⟨after, head, rfl, noName⟩, -⟩ := h
  exact ⟨⟨tok :: after, head, rfl, noName⟩, by simpa using follows⟩

/-- What is written at a place starts with a byte that the place admits, and that is no blank. -/
theorem Written.head (h : Written p (l :: ls)) : ∃ b more, l.source = b :: more ∧ p.admits b ∧ isBlank b = false := by
  have sign (s : Sign) (admitted : ∀ b ∈ s.text.head?, p.admits b) :
      ∃ b more, s.text = b :: more ∧ p.admits b ∧ isBlank b = false := by
    obtain ⟨b, more, text⟩ := exists_cons_of_ne_nil (Sign.text_ne_nil s)
    have first : b ∈ s.text.head? := by simp [text]
    exact ⟨b, more, text, admitted b first, (head_sign_facts s b first).1⟩
  cases h with
  | operand h =>
    cases h with
    | number value =>
      obtain ⟨nonempty, digits, -⟩ := ofNat_decimal value.toUInt64.toNat
      obtain ⟨b, more, text⟩ := exists_cons_of_ne_nil nonempty
      obtain ⟨admitted, blank, -⟩ := isDigit_facts b (digits b (by simp [text]))
      exact ⟨b, more, text, admitted, blank⟩
    | string text => exact ⟨_, _, rfl, by decide, by decide⟩
    | name h =>
      obtain ⟨start, stem, mark, rfl, isStart, -⟩ := h.shape
      obtain ⟨admitted, blank, -⟩ := isWordStart_facts start isStart
      exact ⟨_, _, rfl, admitted, blank⟩
    | pc => exact sign .dollar (admits_operand (.inr (.inr rfl)))
  | unary op => exact sign op.sign (admits_operand (.inl ⟨op, rfl⟩))
  | opening => exact sign .openParen (admits_operand (.inr (.inl rfl)))
  | binary h => exact sign _ (admits_operation (.inl h))
  | closing => exact sign .closeParen (admits_operation (.inr (.inl rfl)))
  | comma => exact sign .comma (admits_operation (.inr (.inr rfl)))

theorem clear_blanks (blanks : Blanks) (h : ∀ b ∈ after.head?, p.admits b ∧ isBlank b = false) :
    Clear p (blanks.val ++ after) := by
  obtain ⟨blanks, all⟩ := blanks
  rw [all_eq_true] at all
  constructor
  · intro b first
    cases blanks with
    | nil => exact (h b first).1
    | cons c blanks =>
      obtain rfl : c = b := by simpa using first
      exact admits_blank p (all c (by simp))
  · rw [(span_append all fun b first => (h b first).2).2]
    exact fun b first => (h b first).1

theorem Written.clear (h : Written p ls) (gap : Nat → Blanks) : Clear p (Lexeme.spread gap ls) := by
  cases ls with
  | nil =>
    rw [Lexeme.spread, ← append_nil (gap 0).val]
    exact clear_blanks (gap 0) (by simp)
  | cons l ls =>
    obtain ⟨b, more, source, admitted, blank⟩ := h.head
    refine clear_blanks (gap 0) fun c first => ?_
    obtain rfl : b = c := by simpa [source] using first
    exact ⟨admitted, blank⟩

section

variable {dialect : Dialect} {st : State}

theorem run_skip (col : Nat) (skipped after : Text) :
    run dialect st col skipped.length (skipped ++ after) = run dialect st (col + skipped.length) 0 after := by
  induction skipped generalizing col with
  | nil => rfl
  | cons b skipped ih =>
    simp only [length_cons, cons_append, run, ih]
    congr 1
    omega

theorem run_blanks (dialect : Dialect) (st : State) (blanks : Blanks) (col : Nat) (after : Text) :
    ∃ space, run dialect st col 0 (blanks.val ++ after) =
      run dialect { st with space } (col + blanks.val.length) 0 after := by
  obtain ⟨blanks, all⟩ := blanks
  induction blanks generalizing st col with
  | nil => exact ⟨st.space, rfl⟩
  | cons b blanks ih =>
    simp only [all_cons, Bool.and_eq_true] at all
    obtain ⟨space, passed⟩ := ih { st with space := true } (col + 1) all.2
    refine ⟨space, ?_⟩
    simp only [cons_append, run, all.1, if_true, passed, length_cons]
    congr 1
    omega

/-- A lexeme that is scanned at its place becomes the next token, in the column behind the blanks. -/
theorem run_lexeme_col (st : State) (gap : Blanks) (scans : ∀ space, Scans dialect { st with space } l after)
    (col : Nat) :
    ∃ tok : Token, ∃ col', tok.lexeme = l ∧ tok.col = col + gap.val.length ∧
      run dialect st col 0 (gap.val ++ (l.source ++ after)) =
        run dialect { st with before := tok :: st.before, space := false } col' 0 after := by
  obtain ⟨space, passed⟩ := run_blanks dialect st gap col (l.source ++ after)
  obtain ⟨b, more, source, blank, comment, scanned⟩ := scans space
  let col' := col + gap.val.length
  refine ⟨⟨l, col', space⟩, col' + 1 + more.length, rfl, rfl, ?_⟩
  rw [passed, source, cons_append, run, if_neg (by simp [blank]), if_neg comment, scanned, run_skip]
  simp [State.accept, col']

theorem run_lexeme (st : State) (gap : Blanks) (scans : ∀ space, Scans dialect { st with space } l after) (col : Nat) :
    ∃ tok : Token, ∃ col', tok.lexeme = l ∧ run dialect st col 0 (gap.val ++ (l.source ++ after)) =
      run dialect { st with before := tok :: st.before, space := false } col' 0 after := by
  obtain ⟨tok, col', isLexeme, -, scanned⟩ := run_lexeme_col st gap scans col
  exact ⟨tok, col', isLexeme, scanned⟩

theorem Operand.scans (h : Operand l) (clear : Clear .operation after) : Scans dialect st l after := by
  cases h with
  | number value => exact scans_number clear value
  | string text => exact scans_string clear.first text
  | name h =>
    obtain ⟨start, stem, mark, rfl, isStart, isStem, isMark⟩ := h.shape
    exact h.role ▸ scans_word clear.first start stem mark isStart isStem isMark
  | pc => exact scans_sign (fun b _ => longest_of_ends (.inr rfl) b) (fun _ => clear) (by simp)

def Splits (dialect : Dialect) (p : Place) (ls : List Lexeme) : Prop :=
  ∀ (gap : Nat → Blanks) (st : State) (col : Nat), Ready p st.before →
    ∃ toks : List Token, ∃ space, toks.map (·.lexeme) = ls ∧
      run dialect st col 0 (Lexeme.spread gap ls) =
        { st with before := toks.reverse ++ st.before, space }

theorem Splits.cons {p q : Place} (rest : Splits dialect q ls)
    (scans : ∀ gap st, Ready p st.before → Scans dialect st l (Lexeme.spread gap ls))
    (follows : q.Follows l) : Splits dialect p (l :: ls) := by
  intro gap st col ready
  let gap' (n : Nat) := gap (n + 1)
  obtain ⟨tok, col', rfl, scanned⟩ := run_lexeme st (gap 0) (fun space => scans gap' { st with space } ready) col
  obtain ⟨toks, space, rfl, behind⟩ :=
    rest gap' { st with before := tok :: st.before, space := false } col' (ready.push follows)
  refine ⟨tok :: toks, space, rfl, ?_⟩
  rw [Lexeme.spread, scanned, behind]
  simp

theorem Splits.nil (p : Place) : Splits dialect p [] := by
  intro gap st col _
  obtain ⟨space, passed⟩ := run_blanks dialect st (gap 0) col []
  exact ⟨[], space, rfl, by simpa [Lexeme.spread, run] using passed⟩

theorem Written.splits (h : Written p ls) : Splits dialect p ls := by
  induction h with
  | done => exact .nil _
  | operand h rest ih => exact ih.cons (fun gap _ _ => h.scans (rest.clear gap)) (.inl h)
  | unary op rest ih =>
    refine ih.cons (fun gap _ _ => scans_sign ((rest.clear gap).longest _) ?_ ?_) trivial
    · cases op <;> simp [UnaryOp.sign]
    · cases op <;> simp [UnaryOp.sign]
  | opening rest ih =>
    exact ih.cons (fun gap _ _ => scans_sign ((rest.clear gap).longest _) (by simp) (by simp)) trivial
  | binary h rest ih =>
    refine ih.cons (fun gap _ ready => scans_sign ((rest.clear gap).longest _) ?_ ?_) trivial
    · rintro rfl
      simp [Sign.binary?] at h
    · exact fun _ => ready.not_operandStart _
  | closing rest ih =>
    exact ih.cons (fun _ _ _ => scans_sign (fun b _ => longest_of_ends (.inl rfl) b) (by simp) (by simp)) (.inr rfl)
  | comma rest ih =>
    exact ih.cons (fun gap _ _ => scans_sign ((rest.clear gap).longest _) (by simp) (by simp)) trivial

end

/-- A line is split into its first word and the lexemes after it.  The word is no name, so that what
    follows is no argument of a macro. -/
theorem lex_word (dialect : Dialect) (text : Text) (starts : text.head?.any isWordStart)
    (goesOn : text.all isWordByte) (noName : Role.ofWord text ≠ .name)
    (h : Splits dialect .operand ls) (gap : Nat → Blanks) :
    ∃ head toks, lex dialect (bytes " " ++ (text ++ (bytes " " ++ Lexeme.spread gap ls))) = ⟨head :: toks, none⟩ ∧
      head.lexeme = .word text (.ofWord text) ∧ toks.map (·.lexeme) = ls := by
  let blank : Blanks := ⟨bytes " ", by decide⟩
  let word : Lexeme := .word text (.ofWord text)
  let rest : Text := Lexeme.spread gap ls
  have scans (st : State) : Scans dialect st word (blank.val ++ rest) := by
    have first : ∀ b ∈ (blank.val ++ rest).head?, Place.operation.admits b := by
      rintro b ⟨⟩
      decide
    cases text with
    | nil => cases starts
    | cons start stem =>
      rw [all_cons, Bool.and_eq_true] at goesOn
      simpa [word] using scans_word first start stem [] starts goesOn.2 (.inl rfl)
  obtain ⟨head, col, isWord, scanned⟩ := run_lexeme {} blank (fun _ => scans _) 1
  obtain ⟨space, passed⟩ := run_blanks dialect ⟨[head], false, none⟩ blank col rest
  have ready : Ready .operand [head] := by
    refine ⟨⟨[], head, rfl, ?_⟩, fun _ _ => trivial⟩
    cases role : Role.ofWord text with
    | name => exact absurd role noName
    | mnemonic | directive => simp [Token.isName, isWord, word, role]
  obtain ⟨toks, space', holds, split⟩ := h gap ⟨[head], space, none⟩ (col + blank.val.length) ready
  have line : lex dialect (blank.val ++ (word.source ++ (blank.val ++ rest))) = ⟨head :: toks, none⟩ := by
    rw [lex, scanned, passed, split]
    simp
  exact ⟨head, toks, line, isWord, holds⟩

theorem lex_data (dialect : Dialect) (h : Written .operand ls) (gap : Nat → Blanks) :
    ∃ directive toks, lex dialect (bytes " db " ++ Lexeme.spread gap ls) = ⟨directive :: toks, none⟩ ∧
      directive.isDirective (.data .byte) ∧ toks.map (·.lexeme) = ls := by
  have isDirective : Role.ofWord (bytes "db") = .directive (.data .byte) := by decide
  have cut : bytes " db " = bytes " " ++ (bytes "db" ++ bytes " ") := by decide
  obtain ⟨directive, toks, line, isDb, holds⟩ :=
    lex_word dialect (bytes "db") (by decide) (by decide) (by simp [isDirective]) h.splits gap
  rw [isDirective] at isDb
  refine ⟨directive, toks, ?_, by simp [Token.isDirective, isDb], holds⟩
  rw [cut, ← line]
  simp

end Lex

end Z80Asm
