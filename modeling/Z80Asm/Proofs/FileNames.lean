import Mathlib.Data.List.Basic
import Mathlib.Data.List.Induction
import Mathlib.Data.Nat.Digits.Defs
import Z80Asm.Proofs.Spans
import Z80Asm.Token.Split

/-!
# Names of files

A directive that takes a file names it by a string, or by an operand without quotes, whose tokens are put together as
they are printed.  Words and signs are printed as they are written, but numbers in decimal.
-/

namespace Z80Asm

open Numeral List

namespace Lex

/-! ## Decimal text -/

theorem ofNat_step {n : Nat} (large : 10 ≤ n) : Text.ofNat n = Text.ofNat (n / 10) ++ Text.ofNat (n % 10) := by
  have small : n % 10 < 10 := Nat.mod_lt _ (by decide)
  simp [Text.ofNat, Nat.toDigits_eq_if (b := 10) (n := n) (by decide), Nat.not_lt.2 large,
    Nat.toDigits_eq_if (b := 10) (n := n % 10) (by decide), small]

/-- No decimal text of a number is shorter than the usual one, or as long and another one. -/
theorem decimal_facts {t : Text} (nonempty : t ≠ []) (digits : ∀ b ∈ t, isDigit b) :
    ofDigits 10 t < 10 ^ t.length ∧ (Text.ofNat (ofDigits 10 t)).length ≤ t.length ∧
      ((Text.ofNat (ofDigits 10 t)).length = t.length → Text.ofNat (ofDigits 10 t) = t) := by
  have digit (b : UInt8) : isDigit b → (digit? b).getD 0 < 10 ∧ Text.ofNat ((digit? b).getD 0) = [b] := by
    revert b
    exact byte_cases (by decide +kernel)
  induction t using reverseRecOn with
  | nil => exact absurd rfl nonempty
  | append_singleton t b ih =>
    obtain ⟨small, single⟩ := digit b (digits b (by simp))
    have value : ofDigits 10 (t ++ [b]) = ofDigits 10 t * 10 + (digit? b).getD 0 := by
      simp [ofDigits]
    rw [value]
    generalize (digit? b).getD 0 = d at small single
    cases t with
    | nil => simpa [ofDigits, single] using small
    | cons c t =>
      obtain ⟨below, length, canonical⟩ := ih (by simp) fun b mem => digits b (mem_append_left _ mem)
      generalize ofDigits 10 (c :: t) = n at below length canonical
      refine ⟨?_, ?_⟩
      · rw [length_append, length_singleton, Nat.pow_succ]
        omega
      · cases n with
        | zero => simp [single]
        | succ n =>
          rw [ofNat_step (by omega), show ((n + 1) * 10 + d) / 10 = n + 1 by omega,
            show ((n + 1) * 10 + d) % 10 = d by omega, single, length_append, length_append]
          exact ⟨by omega, fun same => by rw [canonical (by omega)]⟩

/-- What bytes weigh: a byte that is no digit weighs more than the digits of a number. -/
def heft (t : Text) : Int := (t.map fun b => if isDigit b then 1 else if b = '-'.toUInt8 then -1 else 21).sum

@[simp] theorem heft_append (t u : Text) : heft (t ++ u) = heft t + heft u := by
  simp [heft]

theorem heft_digits {t : Text} (digits : ∀ b ∈ t, isDigit b) : heft t = t.length := by
  induction t with
  | nil => rfl
  | cons b t ih =>
    rw [forall_mem_cons] at digits
    have := ih digits.2
    simp only [heft, map_cons, digits.1, if_true, sum_cons, length_cons] at *
    omega

theorem heft_ofInt (v : Int64) : heft (Text.ofInt v.toInt) ≤ 19 ∧ (v.toInt < 0 → heft (Text.ofInt v.toInt) ≤ 18) := by
  have length {n : Nat} (small : n < 10 ^ 19) : heft (Text.ofNat n) ≤ 19 := by
    rw [heft_digits (ofNat_decimal n).2.1, Text.ofNat, length_map]
    exact_mod_cast Nat.toDigits_length 10 n 19 (by decide) small
  have low := v.le_toInt
  have high := v.toInt_lt
  cases value : v.toInt with
  | ofNat n =>
    rw [value, Int.ofNat_eq_natCast] at high
    exact ⟨length (by omega), fun negative => absurd negative (Int.not_lt.2 (Int.natCast_nonneg n))⟩
  | negSucc n =>
    have minus : heft (Text.ofInt (.negSucc n)) = -1 + heft (Text.ofNat (n + 1)) := by
      rw [Text.ofInt, heft, map_cons, sum_cons, if_neg (by decide), if_pos rfl, heft]
    rw [value, Int.negSucc_eq] at low
    have := length (n := n + 1) (by omega)
    omega

theorem heft_nonneg {t : Text} (noMinus : '-'.toUInt8 ∉ t) : 0 ≤ heft t := by
  induction t with
  | nil => exact Int.le_refl 0
  | cons b t ih =>
    rw [mem_cons, not_or] at noMinus
    have := ih noMinus.2
    rw [heft, map_cons, sum_cons, if_neg (Ne.symm noMinus.1), ← heft]
    split <;> omega

/-- A number that is not printed as it is written weighs less in print. -/
theorem heft_number {span text : Text} {value : Int64} (h : Spells span none (.number text value))
    (nonempty : span ≠ []) (noBlank : ∀ b ∈ span, isBlank b = false) : heft (Text.ofInt value.toInt) ≤ heft span ∧
      (heft (Text.ofInt value.toInt) = heft span → Text.ofInt value.toInt = span) := by
  obtain ⟨bytes, spelled⟩ := h
  have light := heft_ofInt value
  by_cases digits : ∀ b ∈ span, isDigit b
  · have unsigned : span.head?.any isDigit := by
      obtain ⟨b, rest, rfl⟩ := exists_cons_of_ne_nil nonempty
      exact digits b mem_cons_self
    rw [if_pos unsigned] at spelled
    have whole : text = span := spelled.1.trans (filter_eq_self.2 fun b mem => by simp [noBlank b mem])
    have read := spelled.2 rfl
    rw [whole, value?_digits digits] at read
    obtain ⟨below, length, canonical⟩ := decimal_facts nonempty digits
    rw [heft_digits digits]
    unfold read? at read
    generalize ofDigits 10 span = n at read below length canonical
    split at read
    next fits =>
      have fits : n < 2 ^ 64 := of_decide_eq_true (Bool.and_eq_true_iff.1 fits).2
      have wraps : value.toInt = (n : Int).bmod (2 ^ 64) := by
        rw [← Option.some.inj read]
        refine (BitVec.toInt_eq_toNat_bmod (BitVec.ofNat 64 n)).trans ?_
        rw [BitVec.toNat_ofNat, Nat.mod_eq_of_lt fits]
      by_cases small : n < 2 ^ 63
      · have printed : Text.ofInt value.toInt = Text.ofNat n := by
          rw [wraps, Int.bmod_eq_of_le (by omega) (by omega)]
          rfl
        rw [printed, heft_digits (ofNat_decimal n).2.1]
        exact ⟨by exact_mod_cast length, fun same => canonical (by exact_mod_cast same)⟩
      · have negative : value.toInt < 0 := by
          rw [wraps, Int.bmod_def]
          omega
        have long : 19 ≤ span.length := by
          by_contra short
          have := Nat.pow_le_pow_right (n := 10) (by decide) (show span.length ≤ 18 by omega)
          omega
        have := light.2 negative
        exact ⟨by omega, fun same => by omega⟩
    · cases read
  · have heavy : 21 ≤ heft span := by
      push Not at digits
      obtain ⟨b, mem, other⟩ := digits
      have noMinus : '-'.toUInt8 ∉ span := fun mem => absurd (bytes _ mem) (by decide)
      obtain ⟨front, back, rfl⟩ := append_of_mem mem
      rw [mem_append, mem_cons, not_or, not_or] at noMinus
      have := heft_nonneg noMinus.1
      have := heft_nonneg noMinus.2.2
      have : heft (b :: back) = 21 + heft back := by
        rw [heft, map_cons, sum_cons, if_neg other, if_neg (Ne.symm noMinus.2.1), ← heft]
      rw [heft_append]
      omega
    exact ⟨by omega, fun same => by omega⟩

/-! ## Operands -/

def Part.printed : Part → Text
  | .token tok _ _ => tok.render
  | part => part.text

def Part.endsName : Part → Bool
  | .blank _ | .comment _ => true
  | .token tok _ _ => tok.isSign .comma
  | .skipped _ => false

/-- The operand of a line that names a file: what stands behind the directive, without quotes, up to a blank, a comma
    or the comment. -/
structure Unquoted (dialect : Dialect) (line : Text) (operand back : List Part) : Prop where
  parts : ∃ front, parts dialect line = front ++ (operand ++ back)
  directive : ∃ directive, (directive.isDirective .insert ∨ directive.isDirective .incbin) ∧
    Token.body (lex dialect line).tokens = directive :: (operand ++ back).filterMap Part.token?
  fault : (lex dialect line).fault = none
  nonempty : operand ≠ []
  plain : ∀ part ∈ operand, ∀ b ∈ part.text, isBlank b = false ∧
    b ∉ [','.toUInt8, ';'.toUInt8, Text.quoteMark, Text.apostrophe]
  ends : back.head?.all Part.endsName

section
variable {space : Bool} {col : Nat} {front operand back parts : List Part}

theorem Laid.tail {part : Part} (h : Laid space col (part :: parts)) : ∃ space col, Laid space col parts := by
  cases h with
  | comment => exact ⟨space, col, .nil⟩
  | blank _ rest | skipped _ rest | token _ _ _ rest => exact ⟨_, _, rest⟩

theorem Laid.append_right (h : Laid space col (front ++ parts)) : ∃ space col, Laid space col parts := by
  induction front generalizing space col with
  | nil => exact ⟨space, col, h⟩
  | cons part front ih =>
    obtain ⟨space, col, rest⟩ := h.tail
    exact ih rest

theorem Laid.spaced (h : Laid space col parts) (blank : space = true) :
    ∀ tok ∈ (parts.filterMap Part.token?).head?, tok.space = true := by
  induction h with
  | nil => simp
  | comment => rintro tok ⟨⟩
  | blank _ _ ih => exact ih rfl
  | skipped _ _ ih => exact ih blank
  | token => rintro tok ⟨⟩; exact blank

theorem unspaced_append (laid : Laid false col (operand ++ back))
    (tokens : ∀ part ∈ operand, ∃ tok span fault, part = .token tok span fault ∧ tok.isSign .comma = false)
    (ends : back.head?.all Part.endsName) :
    Token.unspaced ((operand ++ back).filterMap Part.token?) = operand.filterMap Part.token? ∧
      Token.renderRest (operand.filterMap Part.token?) = operand.flatMap Part.printed := by
  induction operand generalizing col with
  | nil =>
    refine ⟨?_, rfl⟩
    cases back with
    | nil => rfl
    | cons part back =>
      cases laid with
      | comment => rfl
      | skipped => cases ends
      | blank _ rest =>
        have spaced := rest.spaced rfl
        show Token.unspaced (back.filterMap Part.token?) = []
        cases toks : back.filterMap Part.token? with
        | nil => rfl
        | cons tok toks => rw [Token.unspaced, spaced tok (by rw [toks]; rfl), Bool.or_true, if_pos rfl]
      | token =>
        rw [nil_append, filterMap_cons, Part.token?]
        dsimp only
        rw [Token.unspaced, show Token.isSign _ _ = true from ends, Bool.true_or, if_pos rfl]
        rfl
  | cons part operand ih =>
    obtain ⟨⟨tok, span, fault, rfl, noComma⟩, others⟩ := forall_mem_cons.1 tokens
    cases laid with
    | token _ _ _ rest =>
      obtain ⟨unspaced, rendered⟩ := ih rest others
      simp only [cons_append, filterMap_cons, Part.token?, Token.unspaced, noComma, Bool.or_false,
        Bool.false_eq_true, if_false, unspaced, Token.renderRest, rendered, flatMap_cons, Part.printed,
        nil_append, and_self]

/-- The parts of an operand weigh no more in print, and as much only if they are printed as they are written. -/
theorem flatMap_printed (light : ∀ part ∈ operand, heft part.printed ≤ heft part.text ∧
      (heft part.printed = heft part.text → part.printed = part.text)) :
    heft (operand.flatMap Part.printed) ≤ heft (operand.flatMap Part.text) ∧
      (heft (operand.flatMap Part.printed) = heft (operand.flatMap Part.text) →
        ∀ part ∈ operand, part.printed = part.text) := by
  induction operand with
  | nil => simp
  | cons part operand ih =>
    obtain ⟨⟨first, same⟩, others⟩ := forall_mem_cons.1 light
    obtain ⟨rest, all⟩ := ih others
    simp only [flatMap_cons, heft_append]
    refine ⟨by omega, fun equal => forall_mem_cons.2 ⟨same (by omega), all (by omega)⟩⟩

end

section
variable {dialect : Dialect} {line : Text} {operand back : List Part} (h : Unquoted dialect line operand back)
include h

theorem Unquoted.tokens {part : Part} (mem : part ∈ operand) : ∃ tok span, part = .token tok span none ∧ span ≠ [] ∧
    Spells span none tok.lexeme ∧ tok.isSign .comma = false ∧ tok.string? = none := by
  obtain ⟨front, whole⟩ := h.parts
  have inside : part ∈ Lex.parts dialect line := by simp [whole, mem]
  have fault := h.fault
  rw [lex_parts, findSome?_eq_none_iff] at fault
  have plain := h.plain part mem
  rcases (parts_laid dialect line).forall_mem part inside with
    ⟨b, rfl, isBlank⟩ | ⟨b, rfl⟩ | ⟨rest, rfl⟩ | ⟨tok, span, _, rfl, nonempty, spells⟩
  · exact absurd isBlank (by simp [(plain b (mem_singleton_self b)).1])
  · exact absurd (fault _ inside) (by simp [Part.fault?])
  · exact absurd (plain _ mem_cons_self).2 (by decide)
  · obtain rfl := fault _ inside
    obtain ⟨lexeme, col, space⟩ := tok
    refine ⟨_, span, rfl, nonempty, spells, ?_⟩
    cases lexeme with
    | word | number => exact ⟨rfl, rfl⟩
    | string text =>
      obtain ⟨quote, inside, scan, isQuote, rfl, -⟩ := spells
      refine absurd (plain quote mem_cons_self).2 ?_
      cases isQuote <;> decide
    | sign s =>
      refine ⟨beq_eq_false_iff_ne.2 ?_, rfl⟩
      rintro ⟨⟩
      have comma : ','.toUInt8 ∈ span := by
        rw [← (spells : Sign.comma.text = span)]
        decide
      exact absurd (plain _ comma).2 (by decide)

theorem Unquoted.light {part : Part} (mem : part ∈ operand) : heft part.printed ≤ heft part.text ∧
    (heft part.printed = heft part.text → part.printed = part.text) := by
  obtain ⟨⟨lexeme, col, space⟩, span, rfl, nonempty, spells, -, noString⟩ := h.tokens mem
  cases lexeme with
  | word text role => exact ⟨(congrArg heft spells.1).le, fun _ => spells.1⟩
  | number text value => exact heft_number spells nonempty fun b mem' => (h.plain _ mem b mem').1
  | string text => cases noString
  | sign s => exact ⟨(congrArg heft spells).le, fun _ => spells⟩

theorem Unquoted.fileName_eq :
    (Token.fileName (Token.body (lex dialect line).tokens).tail).1 = operand.flatMap Part.printed := by
  obtain ⟨directive, -, body⟩ := h.directive
  rw [body, tail_cons]
  obtain ⟨front, whole⟩ := h.parts
  obtain ⟨space, col, laid⟩ := (whole ▸ parts_laid dialect line).append_right
  obtain ⟨part, operand, rfl⟩ := exists_cons_of_ne_nil h.nonempty
  obtain ⟨tok, span, rfl, -, -, noComma, noString⟩ := h.tokens mem_cons_self
  cases laid with
  | token _ _ _ rest =>
    obtain ⟨unspaced, rendered⟩ := unspaced_append rest (fun part mem => by
      obtain ⟨tok, span, rfl, -, -, noComma, -⟩ := h.tokens (mem_cons_of_mem _ mem)
      exact ⟨tok, span, none, rfl, noComma⟩) h.ends
    simp only [cons_append, filterMap_cons, Part.token?, Token.fileName, noString, noComma,
      Bool.false_eq_true, if_false, unspaced, Token.renderAll, rendered, flatMap_cons, Part.printed]

end

/-- **The name of a file is what is written, if and only if the numbers in it are written as they are printed**: in
    decimal, without zeros in front, and below 2^63. -/
theorem fileName_iff {dialect : Dialect} {line : Text} {operand back : List Part}
    (h : Unquoted dialect line operand back) :
    (Token.fileName (Token.body (lex dialect line).tokens).tail).1 = operand.flatMap Part.text ↔
      ∀ tok span fault text value, .token tok span fault ∈ operand → tok.lexeme = .number text value →
        Text.ofInt value.toInt = span := by
  rw [h.fileName_eq]
  constructor
  · intro equal tok span fault text value mem isNumber
    have printed := (flatMap_printed fun _ => h.light).2 (congrArg heft equal) _ mem
    rw [Part.printed, Token.render, isNumber] at printed
    exact printed
  · refine fun numbers => List.flatMap_congr fun part mem => ?_
    obtain ⟨⟨lexeme, col, space⟩, span, rfl, nonempty, spells, -, noString⟩ := h.tokens mem
    cases lexeme with
    | word => exact spells.1
    | number text value => exact numbers _ _ _ _ _ mem rfl
    | string => cases noString
    | sign => exact spells

/-- A name with a number in it, and an offset behind it. -/
theorem fileName_iff_numbered :
    let cut := (parts .compass (bytes "x: incbin a/10.bin,2")).drop 5
    Unquoted .compass (bytes "x: incbin a/10.bin,2") (cut.take 4) (cut.drop 4) ∧
      (Token.fileName (Token.body (lex .compass (bytes "x: incbin a/10.bin,2")).tokens).tail).1 =
        bytes "a/10.bin" := by
  let cut := (parts .compass (bytes "x: incbin a/10.bin,2")).drop 5
  have h : Unquoted .compass (bytes "x: incbin a/10.bin,2") (cut.take 4) (cut.drop 4) := by
    refine ⟨⟨(parts .compass (bytes "x: incbin a/10.bin,2")).take 5, ?_⟩,
      ⟨⟨.word (bytes "incbin") (.directive .incbin), 4, true⟩, ?_⟩, ?_, ?_, ?_, ?_⟩
    · rw [List.take_append_drop, List.take_append_drop]
    all_goals decide +kernel
  have kept : ∀ part ∈ cut.take 4, part.printed = part.text := by decide +kernel
  refine ⟨h, ((fileName_iff h).2 fun tok span fault text value mem isNumber => ?_).trans (by decide +kernel)⟩
  have printed := kept _ mem
  rwa [Part.printed, Token.render, isNumber] at printed

/-- A zero in front of a number is lost. -/
theorem fileName_zero_lost :
    Unquoted .native (bytes " include 010.asm") ((parts .native (bytes " include 010.asm")).drop 3) [] ∧
      ((parts .native (bytes " include 010.asm")).drop 3).flatMap Part.text = bytes "010.asm" ∧
      (Token.fileName (Token.body (lex .native (bytes " include 010.asm")).tokens).tail).1 = bytes "10.asm" := by
  refine ⟨⟨⟨(parts .native (bytes " include 010.asm")).take 3, ?_⟩,
    ⟨⟨.word (bytes "include") (.directive .insert), 2, true⟩, ?_⟩, ?_, ?_, ?_, rfl⟩, ?_⟩
  · rw [List.append_nil, List.take_append_drop]
  all_goals decide +kernel

end Lex

end Z80Asm
