import Mathlib.Tactic.Common
import Z80Asm.Proofs.Scanning

/-!
# Expressions written and read again

A syntax tree (`Tree`) is an expression as one writes it: a string is a leaf of its own, and an operation
with two spellings has one of them.  Its lexemes have brackets only where an operation binds less tightly
than its place asks for.
-/

namespace Z80Asm

open List Parse

/-- A syntax tree of an expression.  Its leaves and operations are those that can be written. -/
inductive Tree where
  | num (value : Int64)
  | str (text : Text) (nonempty : text ≠ []) (short : text.length ≤ 4)
  | sym (name : Text) (identifier : Lex.IsIdentifier name)
  | pc
  | unary (op : UnaryOp) (x : Tree)
  | binary (op : BinaryOp) (spelling : Sign) (means : spelling.binary? = some op) (x y : Tree)

namespace Tree

/-- The expression of a tree: a string is the number that its bytes are packed to. -/
def expr : Tree → Expr
  | num value => .num value
  | str text _ _ => .num (.ofNat text.packed)
  | sym name _ => .sym name
  | pc => .pc
  | unary op x => .unary op x.expr
  | binary op _ _ x y => .binary op x.expr y.expr

/-- The lexemes of a tree where operations of a level and tighter ones need no brackets.  On its right
    side an operation needs brackets around operations of its own level. -/
def lexemes : Tree → Nat → List Lexeme
  | num value, _ => [.number (Text.ofNat value.toUInt64.toNat) value]
  | str text _ _, _ => [.string text]
  | sym name _, _ => [.word name .name]
  | pc, _ => [.sign .dollar]
  | unary op x, _ => .sign op.sign :: x.lexemes 10
  | binary op spelling _ x y, level =>
    let inner := x.lexemes op.level ++ .sign spelling :: y.lexemes (op.level + 1)
    if op.level < level then .sign .openParen :: inner ++ [.sign .closeParen] else inner

def source (e : Tree) (gap : Nat → Blanks) : Text := Lexeme.spread gap (e.lexemes 0)

/-! ## Lexemes and the grammar -/

variable {dialect : Dialect}

theorem derives (e : Tree) {level : Nat} (le : level ≤ 10) {toks : List Token}
    (holds : toks.map (·.lexeme) = e.lexemes level) : Derives dialect level toks e.expr := by
  induction e generalizing level toks with
  | num value =>
    obtain ⟨tok, rfl, lexeme⟩ := map_eq_singleton_iff.1 holds
    exact Derives.loosen (.number lexeme) le (Nat.le_refl _)
  | str text nonempty short =>
    obtain ⟨tok, rfl, lexeme⟩ := map_eq_singleton_iff.1 holds
    exact Derives.loosen (.string lexeme short fun h => absurd h nonempty) le (Nat.le_refl _)
  | sym name identifier =>
    obtain ⟨tok, rfl, lexeme⟩ := map_eq_singleton_iff.1 holds
    exact Derives.loosen (.word lexeme) le (Nat.le_refl _)
  | pc =>
    obtain ⟨tok, rfl, lexeme⟩ := map_eq_singleton_iff.1 holds
    exact Derives.loosen (.pc lexeme) le (Nat.le_refl _)
  | unary op x ih =>
    obtain ⟨tok, rest, rfl, lexeme, holds⟩ := map_eq_cons_iff.1 holds
    exact Derives.loosen (.unary lexeme (ih (Nat.le_refl _) holds)) le (Nat.le_refl _)
  | binary op spelling means x y ihx ihy =>
    have tight := op.level_lt
    have inner {toks : List Token} (holds : toks.map (·.lexeme) =
        x.lexemes op.level ++ .sign spelling :: y.lexemes (op.level + 1)) :
        Derives dialect op.level toks (expr (.binary op spelling means x y)) := by
      obtain ⟨xs, rest, rfl, left, holds⟩ := map_eq_append_iff.1 holds
      obtain ⟨tok, ys, rfl, sign, right⟩ := map_eq_cons_iff.1 holds
      exact .binary sign means (ihx (by omega) left) (ihy tight right)
    rw [lexemes] at holds
    split_ifs at holds with brackets
    · obtain ⟨opening, rest, rfl, opens, holds⟩ := map_eq_cons_iff.1 holds
      obtain ⟨toks, last, rfl, between, behind⟩ := map_eq_append_iff.1 holds
      obtain ⟨closing, rfl, closes⟩ := map_eq_singleton_iff.1 behind
      have whole := (inner between).loosen (Nat.zero_le _) (by omega)
      exact Derives.loosen (.bracket opens (by decide) closes whole) le (Nat.le_refl _)
    · exact (inner holds).loosen (by omega) (by omega)

/-- The lexemes of a tree alternate: they start where an operand does, and an operation may follow. -/
theorem written (e : Tree) (level : Nat) {ls : List Lexeme} (rest : Lex.Written .operation ls) :
    Lex.Written .operand (e.lexemes level ++ ls) := by
  induction e generalizing level ls with
  | num value => exact .operand (.number value) rest
  | str text _ _ => exact .operand (.string text) rest
  | sym name identifier => exact .operand (.name identifier) rest
  | pc => exact .operand .pc rest
  | unary op x ih => exact .unary op (ih 10 rest)
  | binary op spelling means x y ihx ihy =>
    have inner {ls : List Lexeme} (rest : Lex.Written .operation ls) : Lex.Written .operand
        (x.lexemes op.level ++ (.sign spelling :: (y.lexemes (op.level + 1) ++ ls))) :=
      ihx op.level (.binary (by simp [means]) (ihy (op.level + 1) rest))
    rw [lexemes]
    split_ifs
    · simpa using Lex.Written.opening (inner (.closing rest))
    · simpa using inner rest

end Tree

/-- **The text of a tree reads back as its expression.**  Behind a data directive, in either dialect and
    with any blanks between its tokens, it is split without a fault, and all tokens after the directive
    are read as the expression of the tree. -/
theorem Tree.read_back (dialect : Dialect) (e : Tree) (gap : Nat → Blanks) :
    ∃ directive toks, lex dialect (bytes " db " ++ e.source gap) = ⟨directive :: toks, none⟩ ∧
      directive.isDirective (.data .byte) ∧ Expr.parse dialect toks = .ok e.expr := by
  have written : Lex.Written .operand (e.lexemes 0) := by simpa using e.written 0 .done
  obtain ⟨directive, toks, split, data, holds⟩ := Lex.lex_data dialect written gap
  exact ⟨directive, toks, split, data, Expr.parse_eq_ok_iff.2 (e.derives (Nat.zero_le _) holds)⟩

-- brackets stand only where they are needed
example :
    let tree := Tree.binary .sub .minus rfl (.binary .mul .star rfl (.num 2) .pc)
      (.binary .sub .minus rfl (.num (-1)) (.str (bytes "it's") (by decide) (by decide)))
    tree.source (fun _ => ⟨[], rfl⟩) = bytes "2*$-(18446744073709551615-'it''s')" := by decide +kernel

end Z80Asm
