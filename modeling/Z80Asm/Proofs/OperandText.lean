import Mathlib.Algebra.Ring.Int.Defs
import Z80Asm.Pass
import Z80Asm.Program
import Z80Asm.Proofs.Brackets
import Z80Asm.Proofs.RoundTrip

/-!
# Operands written and read again

The source form of an operand is read as an argument that has the operand as its value in every
environment.  Each way to write an operand could be taken for another one: the register `c` for the
condition, a bracketed value for a register, the sign of a displacement for an operation.
-/

namespace Z80Asm

open Token Lexeme List

variable {toks inner : List Token} {condition : Bool} {op : Operand} {closing opening : Token} {v : Int64}
  {args : List Arg} {ops : List Cpu.Operand} {text : Text}

/-! ## Values -/

theorem Text.ofInt_of_nonneg (nonneg : ¬v < 0) : Text.ofInt v.toInt = Text.ofNat v.toUInt64.toNat := by
  have nonneg : ¬v.toInt < 0 := by simpa [Int64.lt_iff_toInt_lt] using nonneg
  have signed : v.toInt = _ := BitVec.toInt_eq_toNat_cond v.toBitVec
  have bound := v.toBitVec.isLt
  have same : v.toInt = .ofNat v.toBitVec.toNat := by split at signed <;> omega
  rw [same]
  rfl

/-- The digits of a negative value are those of its opposite, also for the lowest one, which is its own
    opposite and is read as a number without sign. -/
theorem Text.ofInt_of_neg (neg : v < 0) : Text.ofInt v.toInt = '-'.toUInt8 :: Text.ofNat (-v).toUInt64.toNat := by
  have neg : v.toInt < 0 := by simpa [Int64.lt_iff_toInt_lt] using neg
  have signed : v.toInt = _ := BitVec.toInt_eq_toNat_cond v.toBitVec
  have bound := v.toBitVec.isLt
  have negated : (-v).toUInt64.toNat = (2 ^ 64 - v.toBitVec.toNat) % 2 ^ 64 := BitVec.toNat_neg _
  obtain ⟨n, value⟩ := Int.eq_negSucc_of_lt_zero neg
  have size : (-v).toUInt64.toNat = n + 1 := by split at signed <;> omega
  rw [value, size]
  rfl

namespace Tree

def signed (v : Int64) : Tree := if v < 0 then .unary .neg (.num (-v)) else .unary .plus (.num v)

def ofValue (v : Int64) : Tree := if v < 0 then .unary .neg (.num (-v)) else .num v

theorem signed_source (v : Int64) : ((signed v).lexemes 0).flatMap Lexeme.source = Cpu.Operand.signed v.toInt := by
  have sign : v.toInt < 0 ↔ v < 0 := by simp [Int64.lt_iff_toInt_lt]
  unfold signed Cpu.Operand.signed
  by_cases neg : v < 0
  · rw [if_pos neg, if_pos (sign.2 neg), Text.ofInt_of_neg neg]
    simp [lexemes, Lexeme.source, UnaryOp.sign]
    rfl
  · rw [if_neg neg, if_neg (mt sign.1 neg), Text.ofInt_of_nonneg neg]
    simp [lexemes, Lexeme.source, UnaryOp.sign]
    rfl

theorem ofValue_source (v : Int64) : ((ofValue v).lexemes 0).flatMap Lexeme.source = Text.ofInt v.toInt := by
  unfold ofValue
  by_cases neg : v < 0
  · rw [if_pos neg, Text.ofInt_of_neg neg]
    simp [lexemes, Lexeme.source, UnaryOp.sign]
    rfl
  · rw [if_neg neg, Text.ofInt_of_nonneg neg]
    simp [lexemes, Lexeme.source]

end Tree

/-- The expression has the value in every environment, and nothing is wrong with it there. -/
structure Expr.Denotes (e : Expr) (v : Int64) : Prop where
  names : e.names = []
  value : ∀ env, e.value env = v
  fault : ∀ env, e.fault? env = none

theorem Tree.signed_denotes (v : Int64) : (signed v).expr.Denotes v := by
  unfold signed
  split <;> exact ⟨rfl, fun _ => by simp [expr, Expr.value, UnaryOp.apply], fun _ => rfl⟩

theorem Tree.ofValue_denotes (v : Int64) : (ofValue v).expr.Denotes v := by
  unfold ofValue
  split <;> exact ⟨rfl, fun _ => by simp [expr, Expr.value, UnaryOp.apply], fun _ => rfl⟩

/-! ## Arguments -/

/-- The operand that an argument is in every environment. -/
structure Arg.Denotes (a : Arg) (op : Cpu.Operand) : Prop where
  resolved : ∀ env, a.resolve (·.value env) = op
  plain : ∀ e ∈ a.expr?, e.names = [] ∧ ∀ env, e.fault? env = none

theorem Arg.map_resolve (h : Forall₂ Denotes args ops) (env : Env) : args.map (·.resolve (·.value env)) = ops := by
  induction h with
  | nil => rfl
  | cons first _ ih => rw [map_cons, first.resolved, ih]

namespace Walk

/-- To evaluate an expression without names that cannot fail changes nothing. -/
theorem eval_of_plain (w : Walk) (p : Pass) (node : Node) {e : Expr} (names : e.names = [])
    (fault : ∀ env, e.fault? env = none) : (w.eval p node e).2 = w := by
  simp [eval, names, fault, reference]

theorem operands_eq (w : Walk) (p : Pass) (node : Node) (h : Forall₂ Arg.Denotes args ops) :
    w.operands p node args = (ops, w) := by
  induction h with
  | nil => rfl
  | @cons a op args ops first rest ih =>
    rw [operands, first.resolved]
    cases e : a.expr? with
    | none => simp only [ih]
    | some e' =>
      obtain ⟨names, fault⟩ := first.plain e' e
      simp only [w.eval_of_plain p node names fault, ih]

end Walk

def Lexeme.depth : Lexeme → Int
  | sign s => if s.isOpen then 1 else if s.isClose then -1 else 0
  | word _ _ | number _ _ | string _ => 0

namespace Token

theorem splitFrom_append {depth : Int} {front rest part : List Token} {parts : List (List Token)}
    (noComma : ∀ tok ∈ front, tok.isSign .comma = false)
    (h : splitFrom (front.foldl depthAfter depth) rest = part :: parts) :
    splitFrom depth (front ++ rest) = (front ++ part) :: parts := by
  induction front generalizing depth with
  | nil => exact h
  | cons tok front ih =>
    rw [forall_mem_cons] at noComma
    rw [cons_append, splitFrom, noComma.1, ih noComma.2 h]
    rfl

theorem foldl_depthAfter (toks : List Token) (depth : Int) :
    toks.foldl depthAfter depth = depth + (toks.map (·.lexeme.depth)).sum := by
  induction toks generalizing depth with
  | nil => simp
  | cons tok toks ih =>
    have step : depthAfter depth tok = depth + tok.lexeme.depth := by
      unfold depthAfter isOpen isClose Lexeme.depth
      cases tok.lexeme with
      | sign s => cases s <;> simp [Sign.isOpen, Sign.isClose, Int.sub_eq_add_neg]
      | word | number | string => simp
    rw [foldl_cons, ih, step, map_cons, sum_cons, Int.add_assoc]

/-- Tokens without a comma whose brackets are closed. -/
structure Closed (toks : List Token) : Prop where
  noComma : ∀ tok ∈ toks, tok.isSign .comma = false
  balanced : toks.foldl depthAfter 0 = 0

theorem map_splitFrom {lss : List (List Lexeme)} (nonempty : lss ≠ [])
    (closed : ∀ ls ∈ lss, ∀ part : List Token, part.map (·.lexeme) = ls → Closed part)
    (holds : toks.map (·.lexeme) = intercalate [.sign .comma] lss) :
    (splitFrom 0 toks).map (·.map (·.lexeme)) = lss := by
  induction lss generalizing toks with
  | nil => exact absurd rfl nonempty
  | cons ls lss ih =>
    rw [forall_mem_cons] at closed
    cases lss with
    | nil =>
      have whole : toks.map (·.lexeme) = ls := by simpa using holds
      have closed := closed.1 toks whole
      have last : splitFrom (toks.foldl depthAfter 0) [] = [[]] := by rw [closed.balanced]; rfl
      have alone := splitFrom_append closed.noComma last
      rw [append_nil] at alone
      rw [alone, map_singleton, whole]
    | cons next lss =>
      rw [intercalate_cons_cons, append_assoc, singleton_append] at holds
      obtain ⟨part, rest, rfl, whole, holds⟩ := map_eq_append_iff.1 holds
      obtain ⟨comma, rest, rfl, isComma, holds⟩ := map_eq_cons_iff.1 holds
      have closed' := closed.1 part whole
      have parted : splitFrom (part.foldl depthAfter 0) (comma :: rest) = [] :: splitFrom 0 rest := by
        simp [closed'.balanced, splitFrom, isSign, isComma]
      rw [splitFrom_append closed'.noComma parted, map_cons, append_nil, whole, ih (by simp) closed.2 holds]

theorem paired_of_plain (plain : ∀ tok ∈ toks, tok.lexeme.depth = 0) : Paired toks := by
  induction toks with
  | nil => exact .nil
  | cons tok toks ih =>
    rw [forall_mem_cons] at plain
    have noBracket : tok.isOpen = false ∧ tok.isClose = false := by
      have depth := plain.1
      unfold Lexeme.depth at depth
      grind [isOpen, isClose]
    exact .cons noBracket.1 noBracket.2 (ih plain.2)

end Token

/-! ## Operands -/

/-- A lexeme of an operand: it parts no operands, belongs to no label, and stands in one line. -/
structure Lexeme.Plain (l : Lexeme) : Prop where
  noComma : l ≠ .sign .comma
  noColon : l ≠ .sign .colon
  noAt : ∀ text role, l = .word text role → '@'.toUInt8 ∉ text
  noBreak : 0x0A ∉ l.source

namespace Cpu

theorem Reg.name_facts : ∀ rr ∈ Reg.named, Reg.ofWord? rr.name = some rr ∧ Role.ofWord rr.name = .name ∧
    '@'.toUInt8 ∉ rr.name ∧ 0x0A ∉ rr.name ∧ (rr ≠ .c → Cond.ofWord? rr.name = none) := by decide

theorem Cond.name_facts : ∀ cc ∈ Cond.named, Cond.ofWord? cc.name = some cc ∧
    Role.ofWord cc.name = .name ∧ '@'.toUInt8 ∉ cc.name ∧ 0x0A ∉ cc.name := by decide

theorem isIdentifier_of_plain (role : Role.ofWord text = .name) (starts : text.head?.any Lex.isWordStart)
    (goesOn : text.all Lex.isWordByte) : Lex.IsIdentifier text := by
  cases text with
  | nil => cases starts
  | cons start stem =>
    rw [all_cons, Bool.and_eq_true] at goesOn
    exact ⟨role, start, stem, [], by simp, starts, goesOn.2, .inl rfl⟩

theorem Reg.isIdentifier {rr : Reg} (named : rr ∈ Reg.named) : Lex.IsIdentifier rr.name := by
  by_cases marked : rr = .afx
  · subst marked
    exact ⟨by decide, 'a'.toUInt8, ['f'.toUInt8], [Text.apostrophe], by decide, by decide, by decide, .inr (by decide)⟩
  · have plain : ∀ rr ∈ Reg.named, rr ≠ .afx →
        rr.name.head?.any Lex.isWordStart ∧ rr.name.all Lex.isWordByte := by decide
    exact isIdentifier_of_plain (name_facts rr named).2.1 (plain rr named marked).1 (plain rr named marked).2

theorem Cond.isIdentifier {cc : Cond} (named : cc ∈ Cond.named) : Lex.IsIdentifier cc.name := by
  have plain : ∀ cc ∈ Cond.named, cc.name.head?.any Lex.isWordStart ∧ cc.name.all Lex.isWordByte := by
    decide
  exact isIdentifier_of_plain (name_facts cc named).2.1 (plain cc named).1 (plain cc named).2

namespace Operand

/-- An operand with a source form, at a place where a condition may stand or not. -/
inductive Canonical (condition : Bool) : Operand → Prop
  /-- At the place of a condition, `c` is one. -/
  | reg {rr : Reg} (named : rr ∈ Reg.named) (noCond : condition = true → rr ≠ .c) :
      Canonical condition (.reg rr)
  | imm (v : Int64) : Canonical condition (.imm v)
  | mem (v : Int64) : Canonical condition (.mem v)
  | ind {rr : Reg} (named : rr ∈ Reg.named) (noIndex : rr.isIndex = false) :
      Canonical condition (.ind rr)
  | idx {rr : Reg} (index : rr.isIndex = true) (d : Int64) : Canonical condition (.idx rr d)
  | cond {cc : Cond} (named : cc ∈ Cond.named) (allowed : condition = true) :
      Canonical condition (.cond cc)

def lexemes : Operand → List Lexeme
  | reg rr => [.word rr.name .name]
  | imm v => (Tree.ofValue v).lexemes 0
  | mem v => .sign .openParen :: ((Tree.ofValue v).lexemes 0 ++ [.sign .closeParen])
  | ind rr => [.sign .openParen, .word rr.name .name, .sign .closeParen]
  | idx rr d =>
    .sign .openParen :: .word rr.name .name :: ((Tree.signed d).lexemes 0 ++ [.sign .closeParen])
  | cond cc => [.word cc.name .name]
  | unnamed _ => []

theorem lexemes_source (h : op.Canonical condition) : op.lexemes.flatMap source = op.text := by
  cases h with
  | reg | cond => simp [lexemes, source, text]
  | imm v => exact Tree.ofValue_source v
  | mem v => simp [lexemes, source, text, Tree.ofValue_source, Sign.text]
  | ind => simp [lexemes, source, text, Sign.text]
  | idx index d => simp [lexemes, source, text, Tree.signed_source, Sign.text]

theorem named_of_isIndex {rr : Reg} (index : rr.isIndex = true) : rr ∈ Reg.named := by
  cases rr <;> first | decide | cases index

/-- The source form of an operand starts where an operand does, and a comma or the end may follow. -/
theorem Canonical.written (h : op.Canonical condition)
    {ls : List Lexeme} (rest : Lex.Written .operation ls) : Lex.Written .operand (op.lexemes ++ ls) := by
  cases h with
  | reg named => exact .operand (.name (Reg.isIdentifier named)) rest
  | cond named => exact .operand (.name (Cond.isIdentifier named)) rest
  | imm v => exact (Tree.ofValue v).written 0 rest
  | mem v =>
    simpa [lexemes] using Lex.Written.opening ((Tree.ofValue v).written 0 (.closing rest))
  | ind named => exact .opening (.operand (.name (Reg.isIdentifier named)) (.closing rest))
  | @idx rr index d =>
    have name := Lex.Operand.name (Reg.isIdentifier (named_of_isIndex index))
    simp only [lexemes, Tree.signed]
    split
    · exact .opening (.operand name (.binary (by decide) (.operand (.number _) (.closing rest))))
    · exact .opening (.operand name (.binary (by decide) (.operand (.number _) (.closing rest))))

theorem Canonical.lexemes_ne_nil (h : op.Canonical condition) : op.lexemes ≠ [] := by
  intro isNil
  have written := h.written .done
  rw [isNil] at written
  cases written

theorem plain_number (v : Int64) : (number (Text.ofNat v.toUInt64.toNat) v).Plain := by
  refine ⟨nofun, nofun, nofun, fun mem => ?_⟩
  have digit := (Lex.ofNat_decimal v.toUInt64.toNat).2.1 0x0A mem
  exact absurd digit (by decide)

theorem plain_sign {s : Sign} (h : s ∈ [.openParen, .closeParen, .minus, .plus]) : (sign s).Plain := by
  have facts : ∀ s ∈ [Sign.openParen, .closeParen, .minus, .plus], s ≠ .comma ∧ s ≠ .colon ∧ 0x0A ∉ s.text := by decide
  obtain ⟨noComma, noColon, noBreak⟩ := facts s h
  exact ⟨by simpa using noComma, by simpa using noColon, nofun, noBreak⟩

theorem plain_word (noAt : '@'.toUInt8 ∉ text) (noBreak : 0x0A ∉ text) : (word text .name).Plain :=
  ⟨nofun, nofun, fun _ _ h => by cases h; exact noAt, noBreak⟩

theorem plain_value (v : Int64) : ∀ l ∈ (Tree.ofValue v).lexemes 0, l.Plain := by
  unfold Tree.ofValue
  split
  · exact forall_mem_cons.2 ⟨plain_sign (by decide), forall_mem_singleton.2 (plain_number _)⟩
  · exact forall_mem_singleton.2 (plain_number _)

theorem plain_signed (v : Int64) : ∀ l ∈ (Tree.signed v).lexemes 0, l.Plain := by
  unfold Tree.signed
  split <;>
    exact forall_mem_cons.2 ⟨plain_sign (by decide), forall_mem_singleton.2 (plain_number _)⟩

theorem Canonical.plain (h : op.Canonical condition) : ∀ l ∈ op.lexemes, l.Plain := by
  have reg {rr : Reg} (named : rr ∈ Reg.named) : (word rr.name .name).Plain :=
    have facts := Reg.name_facts rr named
    plain_word facts.2.2.1 facts.2.2.2.1
  have opening : (sign .openParen).Plain := plain_sign (by decide)
  have closing : (sign .closeParen).Plain := plain_sign (by decide)
  cases h with
  | reg named => simpa [lexemes] using reg named
  | @cond cc named =>
    have facts := Cond.name_facts cc named
    simpa [lexemes] using plain_word facts.2.2.1 facts.2.2.2
  | imm v => exact plain_value v
  | mem v => simpa [lexemes, or_imp, forall_and] using ⟨opening, plain_value v, closing⟩
  | ind named => simpa [lexemes] using ⟨opening, reg named, closing⟩
  | idx index d =>
    simpa [lexemes, or_imp, forall_and] using ⟨opening, reg (named_of_isIndex index), plain_signed d, closing⟩

theorem Canonical.closed (h : op.Canonical condition) (holds : toks.map (·.lexeme) = op.lexemes) : Closed toks := by
  refine ⟨fun tok mem => ?_, ?_⟩
  · have lexeme : tok.lexeme ∈ op.lexemes := holds ▸ mem_map_of_mem mem
    simpa [isSign] using (h.plain _ lexeme).noComma
  · have depths : toks.map (·.lexeme.depth) = op.lexemes.map Lexeme.depth := by
      rw [← holds, map_map]
      rfl
    rw [foldl_depthAfter, depths]
    cases h with
    | reg | ind | cond => rfl
    | imm v | mem v =>
      simp only [lexemes, Tree.ofValue]
      split <;> rfl
    | idx =>
      simp only [lexemes, Tree.signed]
      split <;> rfl

end Operand

end Cpu

def Lexeme.isNumeric : Lexeme → Bool
  | number _ _ | sign .plus | sign .minus => true
  | _ => false

theorem Tree.ofValue_numeric (v : Int64) : ∀ l ∈ (ofValue v).lexemes 0, l.isNumeric := by
  unfold ofValue
  split <;> simp [lexemes, isNumeric, UnaryOp.sign]

theorem Tree.signed_numeric (v : Int64) : ∀ l ∈ (signed v).lexemes 0, l.isNumeric := by
  unfold signed
  split <;> simp [lexemes, isNumeric, UnaryOp.sign]

theorem Token.numeric_facts {tok : Token} (h : tok.lexeme.isNumeric) :
    tok.word? = none ∧ tok.isName = false ∧ tok.lexeme.depth = 0 ∧ ∀ s, tok.lexeme = .sign s → s.closer? = none := by
  rcases tok with ⟨_ | _ | _ | s, col, space⟩
  case number => exact ⟨rfl, rfl, rfl, nofun⟩
  case sign =>
    cases s <;> first | exact ⟨rfl, rfl, rfl, fun s h => by cases h; rfl⟩ | cases h
  all_goals cases h

namespace Program
variable (s : Settings) (owner : Text)

theorem wholeExpr_of_tree (e : Tree) (holds : toks.map (·.lexeme) = e.lexemes 0)
    (numeric : ∀ tok ∈ toks, tok.lexeme.isNumeric) : wholeExpr s owner toks = .ok e.expr := by
  have same : toks.map (qualifyToken owner) = toks := by
    refine (map_congr_left fun tok mem => ?_).trans (List.map_id toks)
    have noName := (numeric_facts (numeric tok mem)).2.1
    unfold qualifyToken
    split
    next lexeme => simp [isName, lexeme] at noName
    · rfl
  have derives : Parse.Derives s.dialect 0 toks e.expr := e.derives (Nat.zero_le _) holds
  rw [wholeExpr, expr, same, Expr.parse_eq_ok_iff.2 derives]
  rfl

theorem arg_of_numeric (condition : Bool) (nonempty : toks ≠ []) (numeric : ∀ tok ∈ toks, tok.lexeme.isNumeric) :
    arg s owner condition toks = (wholeExpr s owner toks).map .imm := by
  obtain ⟨first, rest, rfl⟩ := exists_cons_of_ne_nil nonempty
  obtain ⟨noWord, -, -, noBracket⟩ := numeric_facts (numeric first mem_cons_self)
  have noReg : wordArg? condition (first :: rest) = none := wordArg?_eq_none (by simpa using noWord)
  have open_ : enclosed? (first :: rest) = none := by
    cases lexeme : first.lexeme with
    | sign s => simp [enclosed?, lexeme, noBracket s lexeme]
    | word | number | string => simp [enclosed?, lexeme]
  simp [arg, noReg, open_]

theorem arg_of_brackets (condition : Bool) (opens : opening.lexeme = .sign .openParen)
    (closes : closing.lexeme = .sign .closeParen) (plain : ∀ tok ∈ inner, tok.lexeme.depth = 0) :
    arg s owner condition (opening :: (inner ++ [closing])) =
      bracketed s owner (opening :: (inner ++ [closing])) inner :=
  arg_of_enclosed ((paired_of_plain plain).enclosed?_eq opens (by decide) closes)

theorem bracketed_of_numeric (all : List Token) (numeric : ∀ tok ∈ inner, tok.lexeme.isNumeric) :
    bracketed s owner all inner = (wholeExpr s owner inner).map .mem := by
  cases inner with
  | nil => rfl
  | cons first rest =>
    simp [bracketed, (numeric_facts (numeric first mem_cons_self)).1]

/-- **The source form of an operand is read as the operand.** -/
theorem arg_of_canonical {op : Cpu.Operand} (h : op.Canonical condition) (holds : toks.map (·.lexeme) = op.lexemes) :
    ∃ a, arg s owner condition toks = .ok a ∧ a.Denotes op := by
  have numericOf {e : Tree} (numeric : ∀ l ∈ e.lexemes 0, l.isNumeric) {toks : List Token}
      (holds : toks.map (·.lexeme) = e.lexemes 0) : ∀ tok ∈ toks, tok.lexeme.isNumeric :=
    fun tok mem => numeric _ (holds ▸ mem_map_of_mem mem)
  cases h with
  | @reg rr named noCond =>
    obtain ⟨tok, rfl, lexeme⟩ := map_eq_singleton_iff.1 holds
    obtain ⟨word, -, -, -, apart⟩ := Cpu.Reg.name_facts rr named
    refine ⟨.reg rr, ?_, fun _ => rfl, by rintro _ ⟨⟩⟩
    cases condition with
    | false => simp [arg, wordArg?, word?, lexeme, word]
    | true => simp [arg, wordArg?, word?, lexeme, word, apart (noCond rfl)]
  | @cond cc named allowed =>
    obtain ⟨tok, rfl, lexeme⟩ := map_eq_singleton_iff.1 holds
    obtain ⟨word, -⟩ := Cpu.Cond.name_facts cc named
    exact ⟨.cond cc, by simp [arg, wordArg?, word?, lexeme, allowed, word], fun _ => rfl, by rintro _ ⟨⟩⟩
  | imm v =>
    have numeric := numericOf (Tree.ofValue_numeric v) holds
    have denotes := Tree.ofValue_denotes v
    have nonempty : toks ≠ [] := by
      rintro rfl
      simp only [Cpu.Operand.lexemes, Tree.ofValue] at holds
      split at holds <;> cases holds
    refine ⟨.imm (Tree.ofValue v).expr, ?_, fun env => ?_, ?_⟩
    · rw [arg_of_numeric s owner condition nonempty numeric, wholeExpr_of_tree s owner _ holds numeric]
      rfl
    · exact congrArg Cpu.Operand.imm (denotes.value env)
    · rintro e ⟨⟩
      exact ⟨denotes.names, denotes.fault⟩
  | mem v =>
    obtain ⟨opening, rest, rfl, opens, holds⟩ := map_eq_cons_iff.1 holds
    obtain ⟨inner, last, rfl, held, behind⟩ := map_eq_append_iff.1 holds
    obtain ⟨closing, rfl, closes⟩ := map_eq_singleton_iff.1 behind
    have numeric := numericOf (Tree.ofValue_numeric v) held
    have denotes := Tree.ofValue_denotes v
    refine ⟨.mem (Tree.ofValue v).expr, ?_, fun env => ?_, ?_⟩
    · have plain tok mem := (numeric_facts (numeric tok mem)).2.2.1
      rw [arg_of_brackets s owner condition opens closes plain, bracketed_of_numeric s owner _ numeric,
        wholeExpr_of_tree s owner _ held numeric]
      rfl
    · exact congrArg Cpu.Operand.mem (denotes.value env)
    · rintro e ⟨⟩
      exact ⟨denotes.names, denotes.fault⟩
  | @ind rr named noIndex =>
    obtain ⟨opening, rest, rfl, opens, holds⟩ := map_eq_cons_iff.1 holds
    obtain ⟨name, rest, rfl, lexeme, holds⟩ := map_eq_cons_iff.1 holds
    obtain ⟨closing, rfl, closes⟩ := map_eq_singleton_iff.1 holds
    have word := (Cpu.Reg.name_facts rr named).1
    have plain : ∀ tok ∈ [name], tok.lexeme.depth = 0 := by simp [lexeme, Lexeme.depth]
    refine ⟨.ind rr, (arg_of_brackets s owner condition opens closes plain).trans ?_, fun _ => rfl, by rintro _ ⟨⟩⟩
    simp [bracketed, word?, lexeme, word, noIndex]
  | @idx rr index d =>
    obtain ⟨opening, rest, rfl, opens, holds⟩ := map_eq_cons_iff.1 holds
    obtain ⟨name, rest, rfl, lexeme, holds⟩ := map_eq_cons_iff.1 holds
    obtain ⟨inner, last, rfl, held, behind⟩ := map_eq_append_iff.1 holds
    obtain ⟨closing, rfl, closes⟩ := map_eq_singleton_iff.1 behind
    have word := (Cpu.Reg.name_facts rr (Cpu.Operand.named_of_isIndex index)).1
    have numeric := numericOf (Tree.signed_numeric d) held
    have denotes := Tree.signed_denotes d
    refine ⟨.idx rr (Tree.signed d).expr, ?_, fun env => ?_, ?_⟩
    · have plain : ∀ tok ∈ name :: inner, tok.lexeme.depth = 0 :=
        forall_mem_cons.2 ⟨by simp [lexeme, Lexeme.depth], fun tok mem => (numeric_facts (numeric tok mem)).2.2.1⟩
      refine (arg_of_brackets s owner condition opens closes plain).trans ?_
      have read := wholeExpr_of_tree s owner _ held numeric
      obtain ⟨sign, more, rfl, signs⟩ : ∃ sign more, inner = sign :: more ∧
          (sign.lexeme = .sign .minus ∨ sign.lexeme = .sign .plus) := by
        simp only [Tree.signed] at held
        split at held
        · obtain ⟨sign, more, rfl, lexeme, -⟩ := map_eq_cons_iff.1 held
          exact ⟨sign, more, rfl, .inl lexeme⟩
        · obtain ⟨sign, more, rfl, lexeme, -⟩ := map_eq_cons_iff.1 held
          exact ⟨sign, more, rfl, .inr lexeme⟩
      have isSign : sign.isSign .plus || sign.isSign .minus := by
        rcases signs with signs | signs <;> simp [Token.isSign, signs]
      simp [bracketed, word?, lexeme, word, index, isSign, read, Except.map]
    · exact congrArg (Cpu.Operand.idx rr) (denotes.value env)
    · rintro e ⟨⟩
      exact ⟨denotes.names, denotes.fault⟩

end Program

end Z80Asm
