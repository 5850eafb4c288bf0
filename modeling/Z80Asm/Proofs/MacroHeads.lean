import Z80Asm.Proofs.NumberLiterals
import Z80Asm.Proofs.StackLines

/-!
# Arguments behind the name of a macro

A `%` is the sign of a binary number where an operand may start.  Behind a name that is so only if the name is the first
word of the body of its line, which is decided from the tokens so far.  The label in front of it is told apart there as
it is in the line as a whole, unless it is the word of an instruction or a directive.
-/

namespace Z80Asm.Lex

open Numeral List

variable {dialect : Dialect} {toks : List Token} {name : Token} {digits : Text}

theorem isMacroHead_iff {label : Option Token} (split : Token.splitLabel toks = (label, [name]))
    (isName : name.isName) : isMacroHead toks.reverse = true ↔ ∀ l ∈ label, l.isName := by
  obtain ⟨front, rfl, fronts⟩ := Token.fronts_of_splitLabel split
  cases fronts with
  | absent => simp [isMacroHead, isName]
  | name isLabel first => simp [isMacroHead, isName, isLabel, first]
  | colon isWord isColon => simp [isMacroHead, isName, isColon]

/-- Behind a name and blanks, `%` starts a number only as the first argument of a macro. -/
theorem operandStart_name {before : List Token} (isName : name.isName) (next : Option UInt8) :
    operandStart (name :: before) true next =
      ((next == some '0'.toUInt8 || next == some '1'.toUInt8) && isMacroHead (name :: before)) := by
  obtain ⟨lexeme, _, _⟩ := name
  cases lexeme with
  | word text role => cases role <;> first | rfl | cases isName
  | number | string | sign => cases isName

/-- The parts behind a blank are cut from the state in which the parts before it leave off. -/
theorem cut_blank {st : State} {col skip : Nat} {t : Text} {before rest : List Part} {b : UInt8}
    (h : cut dialect st col skip t = before ++ .blank b :: rest) : ∃ (st' : State) (col' : Nat),
      st'.before = (before.filterMap Part.token?).reverse ++ st.before ∧
      rest = cut dialect { st' with space := true } col' 0 (rest.flatMap Part.text) := by
  fun_induction cut dialect st col skip t generalizing before with
  | case1 => simp at h
  | case2 st col skip b rest ih => exact ih h
  | case3 st col c t isBlank ih =>
    cases before with
    | nil =>
      obtain ⟨-, rfl⟩ := cons_eq_cons.1 h
      exact ⟨st, col + 1, rfl, by rw [cut_text]; rfl⟩
    | cons part before =>
      obtain ⟨rfl, tail⟩ := cons_eq_cons.1 h
      exact @ih before tail
  | case4 => obtain ⟨rfl, ⟨⟩⟩ | ⟨_, -, ⟨⟩⟩ := singleton_eq_append_iff.1 h
  | case5 st col c t _ noComment s =>
    rename_i ih
    cases before with
    | nil =>
      obtain ⟨isPart, -⟩ := cons_eq_cons.1 h
      unfold Part.ofScanned at isPart
      split at isPart <;> cases isPart
    | cons part before =>
      obtain ⟨rfl, tail⟩ := cons_eq_cons.1 h
      obtain ⟨st', col', tokens, behind⟩ := ih tail
      refine ⟨st', col', ?_, behind⟩
      rw [tokens, (Part.ofScanned_accept st col (scanAt_reads dialect st noComment t)).1, filterMap_cons]
      cases (Part.ofScanned st col c t s).token? <;> simp

/-- A line whose body, up to a `%` behind a blank, is one name.  Binary digits follow, up to the end of the line. -/
structure BinaryArgument (dialect : Dialect) (line : Text) (before rest : List Part) (name : Token) (digits : Text) :
    Prop where
  parts : ∃ b, parts dialect line = before ++ .blank b :: rest
  text : rest.flatMap Part.text = '%'.toUInt8 :: digits
  nonempty : digits ≠ []
  binary : ∀ d ∈ digits, d = '0'.toUInt8 ∨ d = '1'.toUInt8
  body : Token.body (before.filterMap Part.token?) = [name]
  isName : name.isName

def binaryValue (digits : Text) : Int64 := if ofDigits 2 digits < 2 ^ 64 then .ofNat (ofDigits 2 digits) else 0

def binaryFault (digits : Text) : Option Fault :=
  if ofDigits 2 digits < 2 ^ 64 then none else some (.about .numberInvalid digits)

theorem signedNumber?_binary (dialect : Dialect) (nonempty : digits ≠ [])
    (binary : ∀ d ∈ digits, d = '0'.toUInt8 ∨ d = '1'.toUInt8) : signedNumber? dialect 2 1 ('%'.toUInt8 :: digits) =
      some { lexeme := some (.number ('%'.toUInt8 :: digits) (binaryValue digits)), more := digits.length
             fault := binaryFault digits } := by
  have digit : ∀ d ∈ digits, isDigitOf 2 d := fun d mem => by rcases binary d mem with rfl | rfl <;> decide
  have alnum : ∀ d ∈ digits, isAlnum d := fun d mem => isAlnum_of_digit (digit d mem)
  have noBlank : digits.any isBlank = false :=
    any_eq_false.2 fun d mem => by simp [(not_blank_of_alnum (alnum d mem)).1]
  have ends : digits.getLast?.any (!isBlank ·) := by
    rw [getLast?_eq_some_getLast nonempty]
    simpa using (not_blank_of_alnum (alnum _ (getLast_mem nonempty))).1
  have read : read? 2 digits = if ofDigits 2 digits < 2 ^ 64 then some (.ofNat (ofDigits 2 digits)) else none := by
    simp [read?, isDigits_iff.2 ⟨nonempty, digit⟩]
  have whole := signedNumber?_whole dialect .percent (fun d mem => .inl (digit d mem)) ends
    fun mem => absurd mem (by decide)
  rw [filter_alnum alnum, read, Scanned.ofNumber_eq] at whole
  simpa [noBlank, show isBlank '%'.toUInt8 = false by decide, binaryValue, binaryFault] using whole

theorem scanAt_percent {st : State} (noStart : ∀ next, operandStart st.before st.space next = false) (t : Text) :
    scanAt dialect st '%'.toUInt8 t = { lexeme := some (.sign .percent), more := 0 } := by
  have longest (b : UInt8) (s : Sign) : s.text ≠ Sign.percent.text ++ [b] := by
    intro longer
    cases s <;> cases longer
  obtain ⟨b, more, source, -, -, scanned⟩ : Scans dialect st (.sign .percent) t :=
    scans_sign (fun b _ => longest b) nofun fun _ => noStart
  obtain ⟨rfl, rfl⟩ : '%'.toUInt8 = b ∧ [] = more := cons_eq_cons.1 source
  exact scanned

theorem cut_skipped (st : State) (col : Nat) (t : Text) : cut dialect st col t.length t = [] := by
  induction t generalizing col with
  | nil => rfl
  | cons b t ih => exact ih (col + 1)

/-- **Binary digits behind the name of a macro are one number with their value, exactly if the label in front of the
    name is a name too or there is none.**  Behind a label that is the word of an instruction or a directive, the `%` is
    an operation.  Digits for 2^64 and more are reported and have no value. -/
theorem binaryArgument_iff {line : Text} {before rest : List Part}
    (h : BinaryArgument dialect line before rest name digits) :
    (∃ number, (lex dialect line).tokens = before.filterMap Part.token? ++ [number] ∧
        number.lexeme = .number ('%'.toUInt8 :: digits) (binaryValue digits) ∧
        (lex dialect line).fault = (before.findSome? Part.fault?).or (binaryFault digits)) ↔
      ∀ label ∈ (Token.splitLabel (before.filterMap Part.token?)).1, label.isName := by
  obtain ⟨b, parted⟩ := h.parts
  obtain ⟨st, col, tokens, rests⟩ := cut_blank parted
  have number := signedNumber?_binary dialect h.nonempty h.binary
  have split : Token.splitLabel _ = (_, [name]) := Prod.ext rfl h.body
  rw [← isMacroHead_iff split h.isName, lex_parts, parted, filterMap_append, findSome?_append]
  rw [h.text, cut, if_neg (by decide), if_neg (by decide)] at rests
  generalize before.filterMap Part.token? = toks at *
  obtain ⟨front, rfl, -⟩ := Token.fronts_of_splitLabel split
  have starts (next : Option UInt8) := @operandStart_name name front.reverse h.isName next
  rw [append_nil, reverse_append, reverse_singleton, singleton_append] at tokens
  rw [reverse_append, reverse_singleton, singleton_append]
  rw [← tokens] at starts ⊢
  cases head : isMacroHead st.before with
  | true =>
    have operand : operandStart st.before true digits.head? := by
      obtain ⟨d, ds, rfl⟩ := exists_cons_of_ne_nil h.nonempty
      rw [starts, head]
      rcases h.binary d mem_cons_self with rfl | rfl <;> rfl
    have scanned : scanAt dialect { st with space := true } '%'.toUInt8 digits = _ :=
      scanAt_signed (by decide) operand rfl number
    rw [scanned] at rests
    simp only [cut_skipped] at rests
    have faults (tok : Token) (span : Text) (f : Option Fault) :
        [.blank b, .token tok span f].findSome? Part.fault? = f := by cases f <;> rfl
    rw [rests]
    exact iff_of_true ⟨_, rfl, rfl, congrArg (Option.or _) (faults _ _ _)⟩ rfl
  | false =>
    rw [scanAt_percent fun next => by rw [starts, head, Bool.and_false]] at rests
    refine iff_of_false ?_ (by decide)
    rintro ⟨number, tokens', lexeme, -⟩
    rw [append_cancel_left_eq, rests] at tokens'
    obtain ⟨rfl, -⟩ := cons_eq_cons.1 tokens'
    cases lexeme

/-- A label with a colon, and the name of a macro in the native dialect. -/
theorem binaryArgument_iff_labelled :
    let cut := parts .native (bytes "x: m %0101")
    BinaryArgument .native (bytes "x: m %0101") (cut.take 4) (cut.drop 5) ⟨.word (bytes "m") .name, 4, true⟩
        (bytes "0101") ∧
      ∃ number, (lex .native (bytes "x: m %0101")).tokens = (cut.take 4).filterMap Part.token? ++ [number] ∧
        number.value = 5 := by
  intro cut
  have h : BinaryArgument .native (bytes "x: m %0101") (cut.take 4) (cut.drop 5) ⟨.word (bytes "m") .name, 4, true⟩
      (bytes "0101") := by
    refine ⟨⟨' '.toUInt8, rfl⟩, ?_, ?_, ?_, ?_, ?_⟩
    all_goals decide +kernel
  obtain ⟨number, tokens, value, -⟩ := (binaryArgument_iff h).2 (by decide +kernel)
  exact ⟨h, number, tokens, by rw [Token.value, value]; decide +kernel⟩

/-- Behind a label that is the word of a directive, the digits are a number of their own. -/
theorem binaryArgument_keyword :
    let cut := parts .native (bytes "db: m %1010")
    BinaryArgument .native (bytes "db: m %1010") (cut.take 4) (cut.drop 5) ⟨.word (bytes "m") .name, 5, true⟩
        (bytes "1010") ∧
      (lex .native (bytes "db: m %1010")).tokens = (cut.take 4).filterMap Part.token? ++
        [⟨.sign .percent, 7, true⟩, ⟨.number (bytes "1010") 1010, 8, false⟩] := by
  refine ⟨⟨⟨' '.toUInt8, rfl⟩, ?_, ?_, ?_, ?_, ?_⟩, ?_⟩
  all_goals decide +kernel

end Z80Asm.Lex
