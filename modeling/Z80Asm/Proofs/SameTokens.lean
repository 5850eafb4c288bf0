import Z80Asm.Program
import Mathlib.Data.List.Forall2
import Z80Asm.Proofs.Grammar

/-!
# Tokens that hold the same

Operands are read from what their tokens hold, and not from where these stand.  Nor does it depend on the
owner of local names whether an operand can be read.
-/

namespace Z80Asm

open Token List

variable {α β : Type} {a : Arg} {e : Expr} {depth : Int} {toks' : List Token} {make : Expr → Arg} {condition : Bool}

theorem exists_of_forall₂_append {R : α → β → Prop} {as bs : List α} {cs : List β} (h : Forall₂ R (as ++ bs) cs) :
    ∃ cs₁ cs₂, cs = cs₁ ++ cs₂ ∧ Forall₂ R as cs₁ ∧ Forall₂ R bs cs₂ :=
  ⟨cs.take as.length, cs.drop as.length, (take_append_drop ..).symm,
    (forall₂_take_append _ _ _ h.flip).flip, (forall₂_drop_append _ _ _ h.flip).flip⟩

theorem exists_of_forall₂_mem {R : α → β → Prop} {as : List α} {bs : List β} (h : Forall₂ R as bs) {a : α}
    (mem : a ∈ as) : ∃ b ∈ bs, R a b := by
  induction h with
  | nil => cases mem
  | cons first _ ih =>
    rcases mem_cons.1 mem with rfl | mem
    · exact ⟨_, mem_cons_self, first⟩
    · obtain ⟨b, inside, related⟩ := ih mem
      exact ⟨b, mem_cons_of_mem _ inside, related⟩

namespace Token

/-- The tokens hold the same, and `C` relates their columns. -/
def Same (C : Nat → Nat → Prop) (tok tok' : Token) : Prop := tok'.lexeme = tok.lexeme ∧ C tok.col tok'.col

instance {C : Nat → Nat → Prop} [∀ col col', Decidable (C col col')] (tok tok' : Token) :
    Decidable (Same C tok tok') := inferInstanceAs (Decidable (_ ∧ _))

/-- The tokens hold the same or, unless `strict` holds, are different words. -/
def Kin (strict : Prop) (tok tok' : Token) : Prop :=
  tok'.lexeme = tok.lexeme ∨ ¬strict ∧ tok.isWord = true ∧ tok'.isWord = true

variable {C : Nat → Nat → Prop} {strict : Prop} {tok tok' : Token} {toks : List Token}

section
variable (h : Same C tok tok')
include h

theorem Same.isSign (s : Sign) : tok'.isSign s = tok.isSign s := by
  simp only [Token.isSign, h.1]

theorem Same.word? : tok'.word? = tok.word? := by
  simp only [Token.word?, h.1]

theorem Same.text : tok'.text = tok.text := by
  simp only [Token.text, h.1]

theorem Same.isOpen : tok'.isOpen = tok.isOpen := by
  simp only [Token.isOpen, h.1]

theorem Same.isClose : tok'.isClose = tok.isClose := by
  simp only [Token.isClose, h.1]

theorem Same.depthAfter (depth : Int) : Token.depthAfter depth tok' = Token.depthAfter depth tok := by
  rw [Token.depthAfter, Token.depthAfter, h.isOpen, h.isClose]

end

theorem Kin.sign (h : Kin strict tok tok') {s : Sign} (sign : tok.lexeme = .sign s) : tok'.lexeme = .sign s := by
  rcases h with same | ⟨-, word, -⟩
  · rw [same, sign]
  · simp [isWord, word?, sign] at word

theorem exists_word (h : tok.isWord = true) : ∃ name role, tok.lexeme = .word name role := by
  cases lexeme : tok.lexeme with
  | word name role => exact ⟨name, role, rfl⟩
  | number | string | sign => simp [isWord, word?, lexeme] at h

theorem closesEarly_cons (more : toks ≠ []) : closesEarly depth (tok :: toks) =
    (tok.isClose && depthAfter depth tok == 0 || closesEarly (depthAfter depth tok) toks) := by
  cases toks with
  | nil => exact absurd rfl more
  | cons => rfl

section
variable (h : List.Forall₂ (Same C) toks toks')
include h

theorem splitFrom_same (depth : Int) : Forall₂ (Forall₂ (Same C)) (splitFrom depth toks) (splitFrom depth toks') := by
  induction h generalizing depth with
  | nil => exact .cons .nil .nil
  | @cons tok tok' rest rest' first _ ih =>
    rw [splitFrom, splitFrom, first.isSign, first.depthAfter]
    split
    · exact .cons .nil (ih depth)
    · have inner := ih (depthAfter depth tok)
      generalize splitFrom (depthAfter depth tok) rest = parts, splitFrom (depthAfter depth tok) rest' = parts' at inner
      cases inner with
      | nil => exact .cons (.cons first .nil) .nil
      | cons part others => exact .cons (.cons first part) others

theorem splitArgs_same : Forall₂ (Forall₂ (Same C)) (splitArgs toks) (splitArgs toks') := by
  unfold splitArgs
  cases h with
  | nil => exact .nil
  | cons first others => exact splitFrom_same (.cons first others) 0

theorem closesEarly_same (depth : Int) : closesEarly depth toks' = closesEarly depth toks := by
  induction h generalizing depth with
  | nil => rfl
  | cons first others ih =>
    cases others with
    | nil => rfl
    | cons second others =>
      rw [closesEarly_cons (cons_ne_nil _ _), closesEarly_cons (cons_ne_nil _ _), first.isClose, first.depthAfter, ih]

end

theorem enclosed?_eq_some_iff {inner : List Token} : enclosed? toks = some inner ↔ ∃ opening closing s closer,
    toks = opening :: (inner ++ [closing]) ∧ opening.lexeme = .sign s ∧ s.closer? = some closer ∧
      closing.lexeme = .sign closer ∧ closesEarly 0 toks = false := by
  constructor
  · intro h
    unfold enclosed? at h
    split at h
    · cases h
    next first rest =>
      split at h
      next s sign =>
        split at h
        next closer last closes isLast =>
          split at h
          next matching =>
            cases h
            obtain ⟨init, rfl⟩ := getLast?_eq_some_iff.1 isLast
            rw [Bool.and_eq_true] at matching
            exact ⟨first, last, s, closer, by simp, sign, closes, by simpa [isSign] using matching.1,
              by simpa using matching.2⟩
          · cases h
        · cases h
      · cases h
  · rintro ⟨opening, closing, s, closer, rfl, opens, matching, closes, early⟩
    simp [enclosed?, opens, matching, isSign, closes, early]

theorem enclosed?_same (h : Forall₂ (Same C) toks toks') :
    Option.Rel (Forall₂ (Same C)) (enclosed? toks) (enclosed? toks') := by
  cases h with
  | nil => exact .none
  | @cons first first' rest rest' same others =>
    have early := closesEarly_same (.cons same others) 0
    unfold enclosed?
    simp only [same.1]
    cases first.lexeme with
    | sign s =>
      rcases eq_nil_or_concat' rest with rfl | ⟨init, last, rfl⟩
      · cases others
        cases closer : s.closer? <;> simp [closer]
      · obtain ⟨init', last', rfl, inits, lasts⟩ := exists_of_forall₂_append others
        cases lasts with
        | cons last nothing =>
          cases nothing
          cases closer : s.closer? with
          | none => simp [closer]
          | some closer =>
            simp only [closer, getLast?_append, getLast?_singleton, Option.some_or, last.isSign, early, dropLast_concat]
            split
            · exact .some inits
            · exact .none
    | word | number | string => exact .none

def IsPlain (tok : Token) : Prop := tok.lexeme ≠ .sign .comma ∧ tok.lexeme ≠ .sign .colon

end Token

/-! ## Expressions -/

namespace Parse
variable {dialect : Dialect} {level : Nat} {toks : List Token}

/-- **Expressions are derived from what tokens hold.**  Where other words stand, another expression is
    derived. -/
theorem Derives.relex {strict : Prop} (h : Derives dialect level toks e) (kin : Forall₂ (Kin strict) toks toks') :
    ∃ e', Derives dialect level toks' e' ∧ (strict → e' = e) := by
  induction h generalizing toks' with
  | binary sign means _ _ left_ih right_ih =>
    obtain ⟨xs', rest, rfl, left, others⟩ := exists_of_forall₂_append kin
    obtain ⟨tok', ys', first, right, rfl⟩ := forall₂_cons_left_iff.1 others
    obtain ⟨x', left, x_same⟩ := left_ih left
    obtain ⟨y', right, y_same⟩ := right_ih right
    exact ⟨_, .binary (first.sign sign) means left right, fun same => by rw [x_same same, y_same same]⟩
  | tighter loose _ ih =>
    obtain ⟨e', derived, same⟩ := ih kin
    exact ⟨e', .tighter loose derived, same⟩
  | number h =>
    obtain ⟨tok', _, first, nothing, rfl⟩ := forall₂_cons_left_iff.1 kin
    cases nothing
    rcases first with same | ⟨-, word, -⟩
    · exact ⟨_, .number (same.trans h), fun _ => rfl⟩
    · simp [isWord, word?, h] at word
  | string h short empty =>
    obtain ⟨tok', _, first, nothing, rfl⟩ := forall₂_cons_left_iff.1 kin
    cases nothing
    rcases first with same | ⟨-, word, -⟩
    · exact ⟨_, .string (same.trans h) short empty, fun _ => rfl⟩
    · simp [isWord, word?, h] at word
  | word h =>
    obtain ⟨tok', _, first, nothing, rfl⟩ := forall₂_cons_left_iff.1 kin
    cases nothing
    rcases first with same | ⟨other, -, word⟩
    · exact ⟨_, .word (same.trans h), fun _ => rfl⟩
    · obtain ⟨name', role', lexeme⟩ := exists_word word
      exact ⟨_, .word lexeme, fun same => absurd same other⟩
  | pc h =>
    obtain ⟨tok', _, first, nothing, rfl⟩ := forall₂_cons_left_iff.1 kin
    cases nothing
    exact ⟨_, .pc (first.sign h), fun _ => rfl⟩
  | unary sign _ ih =>
    obtain ⟨tok', _, first, others, rfl⟩ := forall₂_cons_left_iff.1 kin
    obtain ⟨x', derived, same⟩ := ih others
    exact ⟨_, .unary (first.sign sign) derived, fun e => by rw [same e]⟩
  | bracket opens matching closes _ ih =>
    obtain ⟨opening', _, first, others, rfl⟩ := forall₂_cons_left_iff.1 kin
    obtain ⟨inner, rest, rfl, inside, last⟩ := exists_of_forall₂_append others
    obtain ⟨closing', _, ends, nothing, rfl⟩ := forall₂_cons_left_iff.1 last
    cases nothing
    obtain ⟨e', derived, same⟩ := ih inside
    exact ⟨e', .bracket (first.sign opens) matching (ends.sign closes) derived, same⟩

theorem Derives.plain (h : Derives dialect level toks e) : ∀ tok ∈ toks, tok.IsPlain := by
  have ofSign {tok : Token} {s : Sign} (sign : tok.lexeme = .sign s) (comma : s ≠ .comma)
      (colon : s ≠ .colon) : tok.IsPlain := by simp [IsPlain, sign, comma, colon]
  induction h with
  | @binary _ _ _ s _ _ _ sign means _ _ left right =>
    have plain := ofSign sign (by rintro rfl; cases means) (by rintro rfl; cases means)
    simpa [or_imp, forall_and, plain] using ⟨left, right⟩
  | tighter _ _ ih => exact ih
  | number h | string h | word h => simp [IsPlain, h]
  | pc h => simpa using ofSign h (by decide) (by decide)
  | @unary _ _ op _ sign _ ih =>
    have plain := ofSign sign (by cases op <;> decide) (by cases op <;> decide)
    simpa [plain] using ih
  | @bracket _ _ _ s closer _ opens matching closes _ ih =>
    have brackets : s ≠ .comma ∧ s ≠ .colon ∧ closer ≠ .comma ∧ closer ≠ .colon := by
      simp only [Sign.brackets, mem_cons, Prod.mk.injEq, not_mem_nil, or_false] at matching
      rcases matching with ⟨rfl, rfl⟩ | ⟨rfl, rfl⟩ <;> decide
    have opening := ofSign opens brackets.1 brackets.2.1
    have closing := ofSign closes brackets.2.2.1 brackets.2.2.2
    simpa [or_imp, forall_and, opening, closing] using ih

end Parse

/-! ## Operands -/

namespace Program
variable {s : Settings} {owner : Text} {C : Nat → Nat → Prop} {toks : List Token}

theorem lexeme_qualifyToken (owner : Text) (tok : Token) :
    (qualifyToken owner tok).lexeme = match tok.lexeme with
      | .word name .name => .word (qualify owner name) .name
      | lexeme => lexeme := by
  unfold qualifyToken
  cases lexeme : tok.lexeme with
  | word name role =>
    cases role with
    | name => rfl
    | mnemonic | directive => exact lexeme
  | number | string | sign => exact lexeme

theorem kin_qualifyToken {tok tok' : Token} (h : Same C tok tok') (owner owner' : Text) :
    Kin (owner' = owner) (qualifyToken owner tok) (qualifyToken owner' tok') := by
  unfold Kin isWord word?
  rw [lexeme_qualifyToken, lexeme_qualifyToken, h.1]
  by_cases same : owner' = owner
  · exact .inl (by rw [same])
  · cases tok.lexeme with
    | word name role =>
      cases role with
      | name => exact .inr ⟨same, rfl, rfl⟩
      | mnemonic | directive => exact .inl rfl
    | number | string | sign => exact .inl rfl

theorem wholeExpr_eq_ok :
    wholeExpr s owner toks = .ok e ↔ Parse.Derives s.dialect 0 (toks.map (qualifyToken owner)) e := by
  rw [← Expr.parse_eq_ok_iff, wholeExpr, expr]
  cases Expr.parse s.dialect (toks.map (qualifyToken owner)) <;> simp [Except.mapError]

theorem wholeExpr_relex (same : Forall₂ (Same C) toks toks') (h : wholeExpr s owner toks = .ok e) (owner' : Text) :
    ∃ e', wholeExpr s owner' toks' = .ok e' ∧ (owner' = owner → e' = e) := by
  have kin : Forall₂ (Kin (owner' = owner)) (toks.map (qualifyToken owner)) (toks'.map (qualifyToken owner')) := by
    rw [forall₂_map_left_iff, forall₂_map_right_iff]
    exact same.imp fun _ _ h => kin_qualifyToken h owner owner'
  obtain ⟨e', derived, equal⟩ := (wholeExpr_eq_ok.1 h).relex kin
  exact ⟨e', wholeExpr_eq_ok.2 derived, equal⟩

theorem wholeExpr_plain (h : wholeExpr s owner toks = .ok e) : ∀ tok ∈ toks, tok.IsPlain := by
  intro tok mem
  have plain := (wholeExpr_eq_ok.1 h).plain _ (mem_map_of_mem mem)
  exact ⟨fun sign => plain.1 (by rw [lexeme_qualifyToken, sign]),
    fun sign => plain.2 (by rw [lexeme_qualifyToken, sign])⟩

theorem exists_of_map_eq_ok {read : Except Fault Expr} (h : read.map make = .ok a) :
    ∃ e, read = .ok e ∧ make e = a := by
  cases read with
  | error fault => cases h
  | ok e => exact ⟨e, rfl, Except.ok.inj h⟩

section
variable (same : List.Forall₂ (Token.Same C) toks toks')
include same

theorem map_wholeExpr_relex (h : (wholeExpr s owner toks).map make = .ok a) (owner' : Text) :
    ∃ a', (wholeExpr s owner' toks').map make = .ok a' ∧ (owner' = owner → a' = a) := by
  obtain ⟨e, read, rfl⟩ := exists_of_map_eq_ok h
  obtain ⟨e', read', equal⟩ := wholeExpr_relex same read owner'
  exact ⟨make e', by rw [read']; rfl, fun h => by rw [equal h]⟩

theorem bracketed_relex {all : List Token} (h : bracketed s owner all toks = .ok a) (all' : List Token)
    (owner' : Text) : ∃ a', bracketed s owner' all' toks' = .ok a' ∧ (owner' = owner → a' = a) := by
  unfold bracketed at h ⊢
  cases same with
  | nil => exact map_wholeExpr_relex (C := C) .nil h owner'
  | @cons first first' rest rest' same others =>
    simp only [same.word?] at h ⊢
    cases register : first.word?.bind Cpu.Reg.ofWord? with
    | none =>
      simp only [register] at h
      exact map_wholeExpr_relex (.cons same others) h owner'
    | some rr =>
      simp only [register] at h
      cases others with
      | nil => exact ⟨a, h, fun _ => rfl⟩
      | cons sign others =>
        simp only [sign.isSign] at h ⊢
        split at h
        next signed =>
          rw [if_pos signed]
          exact map_wholeExpr_relex (.cons sign others) h owner'
        · cases h

/-- **An operand is read from what its tokens hold**, and for any owner of local names. -/
theorem arg_relex (h : arg s owner condition toks = .ok a) (owner' : Text) :
    ∃ a', arg s owner' condition toks' = .ok a' ∧ (owner' = owner → a' = a) := by
  have words : wordArg? condition toks' = wordArg? condition toks := by
    cases same with
    | nil => rfl
    | cons first others =>
      cases others with
      | nil => simp only [wordArg?, first.word?]
      | cons => rfl
  have empty : toks'.isEmpty = toks.isEmpty := by cases same <;> rfl
  have enclosed := enclosed?_same same
  unfold arg at h ⊢
  rw [empty, words]
  split at h
  · cases h
  next nonempty =>
    rw [if_neg nonempty]
    cases word : wordArg? condition toks with
    | some arg =>
      simp only [word] at h
      exact ⟨a, h, fun _ => rfl⟩
    | none =>
      simp only [word] at h
      generalize enclosed? toks = x, enclosed? toks' = y at enclosed h
      cases enclosed with
      | none => exact map_wholeExpr_relex same h owner'
      | some inner => exact bracketed_relex inner h toks' owner'

end

theorem arg_plain (h : arg s owner condition toks = .ok a) : ∀ tok ∈ toks, tok.IsPlain := by
  have ofMap {make : Expr → Arg} {a : Arg} {toks : List Token}
      (h : (wholeExpr s owner toks).map make = .ok a) : ∀ tok ∈ toks, tok.IsPlain := by
    obtain ⟨e, read, -⟩ := exists_of_map_eq_ok h
    exact wholeExpr_plain read
  have ofWord {tok : Token} {word : Text} (h : tok.word? = some word) : tok.IsPlain := by
    have isWord : tok.isWord = true := by rw [Token.isWord, h]; rfl
    obtain ⟨_, _, lexeme⟩ := exists_word isWord
    simp [IsPlain, lexeme]
  unfold arg at h
  split at h
  · cases h
  cases word : wordArg? condition toks with
  | some arg =>
    unfold wordArg? at word
    split at word
    next tok =>
      split at word
      · cases word
      next isWord => simpa using ofWord isWord
    · cases word
  | none =>
    simp only [word] at h
    cases enclosed : enclosed? toks with
    | none =>
      simp only [enclosed] at h
      exact ofMap h
    | some inner =>
      simp only [enclosed] at h
      obtain ⟨first, last, sign, closer, rfl, opens, closes, ends, -⟩ := enclosed?_eq_some_iff.1 enclosed
      have brackets : first.IsPlain ∧ last.IsPlain := by
        cases sign <;> cases closes <;> simp [IsPlain, opens, ends]
      suffices inside : ∀ tok ∈ inner, tok.IsPlain by
        simpa [or_imp, forall_and, brackets] using inside
      unfold bracketed at h
      dsimp only at h
      split at h
      · simp
      next head rest =>
        split at h
        · exact ofMap h
        next register =>
          obtain ⟨word, isWord, -⟩ := Option.bind_eq_some_iff.1 register
          have plain := ofWord isWord
          split at h
          · simpa using plain
          · split at h
            · simpa [plain] using ofMap h
            · cases h

end Program

/-! ## Commas -/

namespace Token
variable {toks : List Token} {parts : List (List Token)}

/-- The tokens are the parts with commas between them. -/
inductive Joins : List (List Token) → List Token → Prop
  | single (part : List Token) : Joins [part] part
  | cons (part : List Token) {comma : Token} (isComma : comma.isSign .comma = true)
      {parts : List (List Token)} {rest : List Token} (h : Joins parts rest) :
      Joins (part :: parts) (part ++ comma :: rest)

theorem joins_splitFrom (depth : Int) (toks : List Token) : Joins (splitFrom depth toks) toks := by
  induction toks generalizing depth with
  | nil => exact .single []
  | cons tok rest ih =>
    rw [splitFrom]
    split
    next parted =>
      rw [Bool.and_eq_true] at parted
      exact .cons [] parted.1 (ih depth)
    · have inner := ih (depthAfter depth tok)
      generalize splitFrom (depthAfter depth tok) rest = parts at inner
      cases inner with
      | single => exact .single _
      | cons part isComma h => exact .cons (tok :: part) isComma h

theorem splitArgs_eq (h : toks ≠ []) : splitArgs toks = splitFrom 0 toks := by
  simp [splitArgs, h]

theorem splitFrom_comma {front rest : List Token} {comma : Token} (isComma : comma.isSign .comma = true)
    (noComma : ∀ part ∈ splitFrom depth (front ++ comma :: rest), ∀ tok ∈ part, tok.isSign .comma = false) :
    splitFrom depth (front ++ comma :: rest) = splitFrom depth front ++ splitFrom 0 rest := by
  induction front generalizing depth with
  | nil =>
    rw [nil_append, splitFrom] at noComma ⊢
    split at noComma
    next outside =>
      rw [if_pos outside]
      simp only [Bool.and_eq_true, beq_iff_eq] at outside
      rw [outside.2]
      rfl
    · -- inside of brackets the comma would belong to the first part
      cases parts : splitFrom (depthAfter depth comma) rest with
      | nil => simp [parts, isComma] at noComma
      | cons part parts' => simp [parts, isComma] at noComma
  | cons tok front ih =>
    rw [cons_append, splitFrom] at noComma ⊢
    rw [splitFrom]
    split at noComma
    next parted =>
      rw [if_pos parted, if_pos parted, ih fun part mem => noComma part (mem_cons_of_mem _ mem)]
      rfl
    next going =>
      rw [if_neg going, if_neg going]
      have inner : ∀ part ∈ splitFrom (depthAfter depth tok) (front ++ comma :: rest), ∀ tok ∈ part,
          tok.isSign .comma = false := by
        cases parts : splitFrom (depthAfter depth tok) (front ++ comma :: rest) with
        | nil => simp
        | cons part parts' =>
          rw [parts] at noComma
          simp only [forall_mem_cons] at noComma ⊢
          exact ⟨noComma.1.2, noComma.2⟩
      rw [ih inner]
      cases parts : splitFrom (depthAfter depth tok) front with
      | nil =>
        have joined := joins_splitFrom (depthAfter depth tok) front
        rw [parts] at joined
        cases joined
      | cons part parts' => rfl

theorem Joins.splitFrom_eq (h : Joins parts toks)
    (noComma : ∀ part ∈ splitFrom 0 toks, ∀ tok ∈ part, tok.isSign .comma = false) :
    splitFrom 0 toks = (parts.map (splitFrom 0)).flatten := by
  induction h with
  | single part => simp
  | cons part isComma _ ih =>
    have parted := splitFrom_comma isComma noComma
    rw [parted] at noComma ⊢
    rw [ih fun part mem => noComma part (mem_append_right _ mem), map_cons, flatten_cons]

end Token

namespace Program
variable {s : Settings} {owner : Text} {m : Cpu.Mnemonic} {toks : List Token} {as : List Arg}

theorem mapM_eq_ok {ε : Type} {f : α → Except ε β} {xs : List α} {ys : List β} :
    xs.mapM f = .ok ys ↔ Forall₂ (fun x y => f x = .ok y) xs ys := by
  induction xs generalizing ys with
  | nil => cases ys <;> simp [pure, Except.pure]
  | cons x xs ih =>
    rw [mapM_cons, forall₂_cons_left_iff]
    cases first : f x with
    | error fault => simp [bind, Except.bind]
    | ok y =>
      cases rest : xs.mapM f with
      | error fault => simp [bind, Except.bind, ← ih, rest]
      | ok zs =>
        simp only [bind, Except.bind, pure, Except.pure, Except.ok.injEq, ← ih, rest]
        constructor
        · rintro rfl
          exact ⟨y, zs, rfl, rfl, rfl⟩
        · rintro ⟨_, _, rfl, rfl, rfl⟩
          rfl

section
variable (stack : m = .push ∨ m = .pop)
include stack

theorem args_eq_ok :
    args s owner m toks = .ok as ↔ Forall₂ (fun part a => arg s owner false part = .ok a) (splitArgs toks) as := by
  have plain (count : Nat) : conditionFirst m count = false := by rcases stack with rfl | rfl <;> rfl
  have whole : args s owner m toks = (splitArgs toks).mapM (arg s owner false) := by
    unfold args
    cases splitArgs toks with
    | nil => rfl
    | cons first rest =>
      dsimp only
      rw [plain, mapM_cons]
  rw [whole, mapM_eq_ok]

theorem args_relex {C : Nat → Nat → Prop} (same : Forall₂ (Same C) toks toks')
    (read : args s owner m toks = .ok as) (owner' : Text) :
    ∃ as', args s owner' m toks' = .ok as' ∧ as'.length = as.length ∧ (owner' = owner → as' = as) := by
  rw [args_eq_ok stack] at read
  simp only [args_eq_ok stack]
  have parts := splitArgs_same same
  generalize splitArgs toks = ps, splitArgs toks' = ps' at parts read
  induction parts generalizing as with
  | nil =>
    cases read
    exact ⟨[], .nil, rfl, fun _ => rfl⟩
  | cons first _ ih =>
    obtain ⟨a, as, this, others, rfl⟩ := forall₂_cons_left_iff.1 read
    obtain ⟨a', this', a_same⟩ := arg_relex first this owner'
    obtain ⟨as', others', size, as_same⟩ := ih others
    exact ⟨a' :: as', .cons this' others', by simp [size], fun h => by rw [a_same h, as_same h]⟩

theorem toks_ne_nil (read : args s owner m toks = .ok as) (operands : as ≠ []) : toks ≠ [] := by
  rintro rfl
  rw [args_eq_ok stack] at read
  cases read
  exact operands rfl

theorem args_joins {parts : List (List Token)}
    (joined : Joins parts toks) (read : args s owner m toks = .ok as) (operands : as ≠ []) :
    ∃ ass, Forall₂ (fun part as => args s owner m part = .ok as ∧ as ≠ []) parts ass ∧ as = ass.flatten := by
  have nonempty := toks_ne_nil stack read operands
  rw [args_eq_ok stack, splitArgs_eq nonempty] at read
  have noComma : ∀ part ∈ splitFrom 0 toks, ∀ tok ∈ part, tok.isSign .comma = false := by
    intro part mem tok inside
    obtain ⟨a, -, read⟩ := exists_of_forall₂_mem read mem
    simpa [isSign] using (arg_plain read tok inside).1
  rw [joined.splitFrom_eq noComma] at read
  clear joined nonempty noComma operands
  induction parts generalizing as with
  | nil =>
    cases read
    exact ⟨[], .nil, rfl⟩
  | cons part parts ih =>
    rw [map_cons, flatten_cons] at read
    obtain ⟨bs, cs, rfl, first, others⟩ := exists_of_forall₂_append read
    obtain ⟨ass, each, rfl⟩ := ih others
    have nonempty : part ≠ [] := by
      rintro rfl
      obtain ⟨a, _, this, _⟩ := forall₂_cons_left_iff.1 first
      cases this
    refine ⟨bs :: ass, .cons ⟨?_, ?_⟩ each, rfl⟩
    · rw [args_eq_ok stack, splitArgs_eq nonempty]
      exact first
    · rintro rfl
      have joined := joins_splitFrom 0 part
      generalize splitFrom 0 part = ps at first joined
      cases first
      cases joined

end

end Program

end Z80Asm
