import Z80Asm.Proofs.InstructionText
import Z80Asm.Proofs.NumberLiterals

/-!
# String literals

A string is written in apostrophes, where an apostrophe is doubled, or in quotes, where quotes and backslashes have a
backslash in front.  Either way it is read back byte by byte, and a line that emits it is a program of these bytes.
-/

namespace Z80Asm

open Token List

/-- A text with a backslash in front of every backslash and quote. -/
def Text.escaped (t : Text) : Text := t.flatMap fun b => if b = backslash ∨ b = quoteMark then [backslash, b] else [b]

/-- The two spellings of a string: in apostrophes, doubled inside, or in quotes, with backslashes inside. -/
inductive Text.Literal (s : Text) : Text → Prop
  | single : Literal s (apostrophe :: (s.doubled ++ [apostrophe]))
  | double : Literal s (quoteMark :: (s.escaped ++ [quoteMark]))

namespace Lex

theorem quoted_escaped (s after : Text) :
    quoted (s.escaped ++ Text.quoteMark :: after) = { text := s, size := s.escaped.length + 1, closed := true } := by
  induction s with
  | nil => cases after <;> simp [Text.escaped, quoted, Inside.close]
  | cons b s ih =>
    by_cases special : b = Text.backslash ∨ b = Text.quoteMark
    · have cons : Text.escaped (b :: s) = Text.backslash :: b :: Text.escaped s := by simp [Text.escaped, special]
      have escape : escape? b = some b := by rcases special with rfl | rfl <;> rfl
      rw [cons, cons_append, cons_append, quoted, if_neg (by decide), if_pos rfl, escape]
      simp [ih, Inside.cons]
    · have cons : Text.escaped (b :: s) = b :: Text.escaped s := by simp [Text.escaped, special]
      rw [not_or] at special
      obtain ⟨e, rest, behind⟩ := exists_cons_of_ne_nil
        (append_ne_nil_of_right_ne_nil (Text.escaped s) (cons_ne_nil Text.quoteMark after))
      rw [behind] at ih
      rw [cons, cons_append, behind, quoted, if_neg special.2, if_neg special.1]
      simp [ih, Inside.cons]

theorem lex_literal (dialect : Dialect) {s source : Text} (h : s.Literal source) :
    ∃ db tok, lex dialect (bytes " db " ++ source) = ⟨[db, tok], none⟩ ∧
      db.lexeme = .word (bytes "db") (.directive (.data .byte)) ∧ tok.lexeme = .string s := by
  cases h with
  | single =>
    refine lex_operand dialect (by decide) fun st _ => ?_
    have scanned (rest : Text) : scanAt dialect st Text.apostrophe rest = string (apostrophed rest) := rfl
    rw [scanned, apostrophed_doubled (by simp)]
    simp [string]
  | double =>
    refine lex_operand dialect (by decide) fun st _ => ?_
    have scanned (rest : Text) : scanAt dialect st Text.quoteMark rest = string (quoted rest) := rfl
    rw [scanned, quoted_escaped]
    simp [string]

end Lex

theorem Text.Literal.not_mem {s source : Text} (h : s.Literal source) (noBreak : 0x0A ∉ s) : 0x0A ∉ source := by
  cases h with
  | single =>
    have inside : 0x0A ∉ s.doubled := fun mem => by
      obtain ⟨b, isByte, mem⟩ := mem_flatMap.1 mem
      split at mem <;> simp_all
    simpa using ⟨by decide, inside, by decide⟩
  | double =>
    have inside : 0x0A ∉ s.escaped := fun mem => by
      obtain ⟨b, isByte, mem⟩ := mem_flatMap.1 mem
      have other : (0x0A : UInt8) ≠ backslash := by decide
      split at mem <;> simp_all
    simpa using ⟨by decide, inside, by decide⟩

namespace Assembly

theorem assembleText_eq_passes (s : Settings) (cancelled : Nat → Bool) (file : Text) {text source : Text}
    (h : text.Literal source) (nonempty : text ≠ []) (noBreak : 0x0A ∉ text) :
    assembleText s cancelled file (bytes " db " ++ source) =
      passesOver s cancelled [] [.act { seq := 1, pos := { file, line := 1 }, text := bytes " db " ++ source }
        (.data .byte [.bytes text])] := by
  obtain ⟨db, tok, lexed, isDb, isString⟩ := Lex.lex_literal s.dialect h
  have single : Text.lines (bytes " db " ++ source) = [bytes " db " ++ source] := by
    refine Text.lines_single (append_ne_nil_of_left_ne_nil (by decide) _) fun mem => ?_
    exact (mem_append.1 mem).elim (by decide) (h.not_mem noBreak)
  have split : splitLabel [db, tok] = (none, [db, tok]) := by
    simp [splitLabel, isName, isSign, isDb, isString]
  let ln : Line := { pos := { file, line := 1 }, text := bytes " db " ++ source, tokens := [db, tok] }
  have loaded : Source.load s Source.includeLimit file (bytes " db " ++ source) {} = { lines := #[ln] } := by
    simp [Source.includeLimit, Source.load, single, Source.loadRows, lexed, bodyIs, body, split,
      isDirective, isDb, Loading.push, ln]
  have expanded : Macro.expand s Macro.depthLimit [ln] {} = { lines := #[ln] } := by
    simp [Macro.depthLimit, Macro.expand, Macro.expandLines, ln, split, isDirective, isDb, word?, Expansion.push]
  have item (owner : Text) : Program.item s owner .byte [tok] = .ok (.bytes text) := by
    obtain ⟨b, rest, rfl⟩ := exists_cons_of_ne_nil nonempty
    simp [Program.item, string?, isString]
  have args : splitArgs [tok] = [[tok]] := by
    simp [splitArgs, splitFrom, isSign, isString]
  have noAt : compassWord? [db, tok] = none := by
    have other : (bytes "db").contains '@'.toUInt8 = false := by decide
    simp only [compassWord?, List.filterMap, word?, isDb, isString, List.find?, other]
  have built : Program.line s {} ln = ({ seq := 1 } : Building).act
      { seq := 1, pos := ln.pos, text := ln.text } (.data .byte [.bytes text]) := by
    simp [Program.line, ln, split, Program.labelled, noAt, Program.body, isDb, Program.directive, Program.data, args,
      item]
  simp [assembleText, loaded, expanded, Program.build, Program.lines, built, Building.act, Building.add,
    Program.finish, Program.closeAll, Building.program, passesOver, ln]

/-- A program that defines no symbols, and whose statements have the same sizes in every pass, takes two passes. -/
theorem passesOver_steady {s : Settings} {program : List Statement} {sizes : Array Nat} (limit : 2 ≤ s.passLimit)
    (found : Diagnostics) (nonempty : sizes ≠ #[]) (steady : ∀ n, (walked s program n).ledger = predefined s ∧
      (walked s program n).sizes = sizes ∧ (walked s program n).stop = none) :
    passesOver s neverCancelled found program = .finished (final 2 (walked s program 2) (table s program 2)
      (found ++ (walked s program 2).diagnostics.toList)) := by
  have unchanged (n : Nat) : (table s program (n + 1)).diff (table s program n) = [] := by
    rw [table_succ, (steady _).1]
    cases n with
    | zero => exact Ledger.freeze_diff_freeze ..
    | succ n =>
      rw [table_succ, (steady _).1]
      exact Ledger.freeze_diff_freeze ..
  have grows : ((walked s program 1).sizes == sizesOf s program 0) = false := by
    rw [(steady 1).2.1]
    exact beq_eq_false_iff_ne.2 nonempty
  have same : ((walked s program 2).sizes == sizesOf s program 1) = true := by
    rw [sizesOf, (steady 2).2.1, (steady 1).2.1]
    exact beq_self_eq_true sizes
  obtain ⟨left, isLeft⟩ : ∃ left, s.passLimit - 1 = left + 1 := ⟨s.passLimit - 2, by omega⟩
  have first := @resolve_of_wanted s program neverCancelled 0 rfl found (left + 1)
  have second := @resolve_of_wanted s program neverCancelled 1 rfl found left
  simp only [(steady 1).2.2, unchanged 0, grows, isEmpty_nil, Bool.and_false, Bool.false_eq_true, if_false] at first
  simp only [(steady 2).2.2, unchanged 1, same, isEmpty_nil, Bool.and_self, if_true] at second
  rw [passesOver, isLeft]
  exact first.trans second

theorem walk_literal (p : Pass) (ledger : Ledger) (node : Node) (unlabelled : node.label = none) (text : Text) :
    let w := p.walk ledger [.act node (.data .byte [.bytes text])]
    w.ledger = ledger ∧ w.code.toList = text ∧ w.sizes = #[text.length] ∧ w.diagnostics = #[] ∧ w.stop = none := by
  cases listing : p.listing <;>
    simp [Pass.walk, Walk.steps, Walk.step, Walk.measured, Walk.perform, Walk.defineLabel, unlabelled, Walk.act,
      Walk.emitItem, Walk.emit, Walk.list, listing, Walk.measure]

/-- **A string is assembled to its bytes** in both of its spellings: it is read as one token, and the program that
    consists of it has these bytes as its code and no diagnostics. -/
theorem assembleText_literal (s : Settings) (limit : 2 ≤ s.passLimit) (file : Text) {text source : Text}
    (h : text.Literal source) (nonempty : text ≠ []) (noBreak : 0x0A ∉ text) :
    (∃ db tok, lex s.dialect (bytes " db " ++ source) = ⟨[db, tok], none⟩ ∧
      db.lexeme = .word (bytes "db") (.directive (.data .byte)) ∧ tok.lexeme = .string text) ∧
    ∃ result, assembleText s neverCancelled file (bytes " db " ++ source) = .finished result ∧
      result.state = .stable ∧ result.code.toList = text ∧ result.diagnostics = [] := by
  refine ⟨Lex.lex_literal s.dialect h, ?_⟩
  let node : Node := { seq := 1, pos := { file, line := 1 }, text := bytes " db " ++ source }
  let program : List Statement := [.act node (.data .byte [.bytes text])]
  have walks (n : Nat) := walk_literal (passOf s program n) (predefined s) node rfl text
  have run := @passesOver_steady s program #[text.length] limit [] (by simp)
    fun n => ⟨(walks n).1, (walks n).2.2.1, (walks n).2.2.2.2⟩
  have silent : (walked s program 2).diagnostics = #[] := (walks 2).2.2.2.1
  rw [silent] at run
  exact ⟨_, (assembleText_eq_passes s neverCancelled file h nonempty noBreak).trans run, rfl, (walks 2).2.1, rfl⟩

/-- A string with a backslash before a letter, a semicolon and both kinds of quotes. -/
theorem assembleText_literal_escaped : Text.Literal (bytes "\\n\";'") (bytes "\"\\\\n\\\";'\"") ∧
    ∃ result, assembleText .bare neverCancelled (bytes "a.asm") (bytes " db \"\\\\n\\\";'\"") = .finished result ∧
      result.state = .stable ∧ result.code.toList = bytes "\\n\";'" ∧ result.diagnostics = [] := by
  have h : Text.Literal (bytes "\\n\";'") (bytes "\"\\\\n\\\";'\"") := .double
  exact ⟨h, (assembleText_literal .bare (by decide) (bytes "a.asm") h (by decide) (by decide)).2⟩

end Assembly

end Z80Asm
