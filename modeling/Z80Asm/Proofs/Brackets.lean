import Z80Asm.Proofs.SameTokens

/-!
# Brackets and commas

Arguments are parted at the commas outside of brackets, and an operand is taken for one in brackets, by counting how
many brackets of either kind are open.  Expressions open and close them in pairs of a kind; the count agrees with that.
-/

namespace Z80Asm

open Token List

namespace Token
variable {toks inner : List Token} {tok opening closing : Token} {depth : Int}

/-! ## Groups -/

/-- Each token with the depth of brackets in front of it, which is counted from `depth` on. -/
def placedFrom (depth : Int) (toks : List Token) : List (Int × Token) := (toks.scanl depthAfter depth).zip toks

/-- A comma outside of brackets. -/
def isOuterComma (place : Int × Token) : Bool := place.2.isSign .comma && place.1 == 0

/-- Groups with a separator behind each but the last. -/
def joined {α : Type} : List (List α) → List α → List α
  | group :: groups, sep :: seps => group ++ sep :: joined groups seps
  | groups, _ => groups.flatten

theorem joined_cons {α : Type} (a : α) (group : List α) (groups : List (List α)) (seps : List α) :
    joined ((a :: group) :: groups) seps = a :: joined (group :: groups) seps := by
  cases seps <;> rfl

theorem map_joined {α β : Type} (f : α → β) (groups : List (List α)) (seps : List α) :
    joined (groups.map (·.map f)) (seps.map f) = (joined groups seps).map f := by
  induction groups generalizing seps with
  | nil => cases seps <;> rfl
  | cons group groups ih => cases seps <;> simp [joined, ih, map_flatten]

/-- The commas outside of brackets part the groups, and there are no others in these. -/
theorem splitFrom_groups (depth : Int) (toks : List Token) : ∃ groups : List (List (Int × Token)),
    splitFrom depth toks = groups.map (·.map Prod.snd) ∧
      joined groups ((placedFrom depth toks).filter isOuterComma) = placedFrom depth toks ∧
      groups.length = ((placedFrom depth toks).filter isOuterComma).length + 1 ∧
      ∀ group ∈ groups, ∀ place ∈ group, isOuterComma place = false := by
  induction toks generalizing depth with
  | nil => exact ⟨[[]], rfl, rfl, rfl, by simp⟩
  | cons tok toks ih =>
    have placed : placedFrom depth (tok :: toks) = (depth, tok) :: placedFrom (depthAfter depth tok) toks := by
      simp [placedFrom]
    rw [placed, splitFrom]
    by_cases outer : isOuterComma (depth, tok)
    · have comma : tok.lexeme = .sign .comma := eq_of_beq (Bool.and_eq_true_iff.1 outer).1
      have same : depthAfter depth tok = depth := by
        simp [depthAfter, isOpen, isClose, comma, Sign.isOpen, Sign.isClose]
      obtain ⟨groups, split, whole, length, free⟩ := ih depth
      rw [if_pos (show (_ && _) = true from outer), same, filter_cons_of_pos outer]
      exact ⟨[] :: groups, by simp [split], by simp [joined, whole], by simp [length], by simpa using free⟩
    · obtain ⟨_ | ⟨group, groups⟩, split, whole, length, free⟩ := ih (depthAfter depth tok)
      · cases length
      rw [if_neg (show ¬(_ && _) = true from outer), split, filter_cons_of_neg outer]
      refine ⟨((depth, tok) :: group) :: groups, rfl, by rw [joined_cons, whole], length, ?_⟩
      rw [forall_mem_cons] at free ⊢
      exact ⟨forall_mem_cons.2 ⟨by simpa using outer, free.1⟩, free.2⟩

/-- **Arguments are parted without loss.**  The commas outside of brackets, with the depth counted from the start of
    all tokens, stand between the groups: joined by them, the groups are all tokens again, and no such comma is in a
    group. -/
theorem splitArgs_lossless {toks : List Token} (nonempty : toks ≠ []) :
    let commas := (placedFrom 0 toks).filter isOuterComma
    joined (splitArgs toks) (commas.map Prod.snd) = toks ∧ (splitArgs toks).length = commas.length + 1 ∧
      ∃ groups, splitArgs toks = groups.map (·.map Prod.snd) ∧ joined groups commas = placedFrom 0 toks ∧
        ∀ group ∈ groups, ∀ place ∈ group, isOuterComma place = false := by
  obtain ⟨groups, split, whole, length, free⟩ := splitFrom_groups 0 toks
  have args : splitArgs toks = groups.map (·.map Prod.snd) := by simpa [splitArgs, nonempty] using split
  have tokens : (placedFrom 0 toks).map Prod.snd = toks := map_snd_zip (by simp)
  dsimp only
  rw [args, map_joined, whole, tokens, length_map]
  exact ⟨rfl, length, groups, rfl, whole, free⟩

/-- In `),(,` the first comma stands at depth -1, and the second one parts the tokens. -/
theorem splitArgs_lossless_negative :
    let toks : List Token := [⟨.sign .closeParen, 1, false⟩, ⟨.sign .comma, 2, false⟩, ⟨.sign .openParen, 3, false⟩,
      ⟨.sign .comma, 4, false⟩]
    toks ≠ [] ∧ joined (splitArgs toks) [⟨.sign .comma, 4, false⟩] = toks ∧ (splitArgs toks).length = 2 := by
  intro toks
  have nonempty : toks ≠ [] := cons_ne_nil _ _
  obtain ⟨whole, length, -⟩ := splitArgs_lossless nonempty
  exact ⟨nonempty, whole, length⟩

/-! ## Brackets that are closed -/

/-- Inside of brackets, the tokens close only those that they have opened. -/
def Paired (toks : List Token) : Prop :=
  ∀ (depth : Int) (rest : List Token), 0 < depth → rest ≠ [] → closesEarly depth (toks ++ rest) = closesEarly depth rest

theorem isClose_of_isOpen (opens : tok.isOpen) : tok.isClose = false := by
  obtain ⟨_ | _ | _ | s, _, _⟩ := tok
  case sign => cases s <;> first | rfl | cases opens
  all_goals rfl

namespace Paired

theorem nil : Paired [] := fun _ _ _ _ => rfl

theorem append {toks' : List Token} (h : Paired toks) (h' : Paired toks') : Paired (toks ++ toks') := by
  intro depth rest inside more
  rw [append_assoc, h depth _ inside (by simp [more]), h' depth rest inside more]

theorem cons (noOpen : tok.isOpen = false) (noClose : tok.isClose = false) (h : Paired toks) :
    Paired (tok :: toks) := by
  intro depth rest inside more
  rw [cons_append, closesEarly_cons (by simp [more]), ← h depth rest inside more]
  simp [depthAfter, noOpen, noClose]

theorem closesEarly_opened (h : Paired inner) (opens : opening.isOpen) (nonneg : 0 ≤ depth) {rest : List Token}
    (more : rest ≠ []) : closesEarly depth (opening :: (inner ++ rest)) = closesEarly (depth + 1) rest := by
  have up : depthAfter depth opening = depth + 1 := if_pos opens
  rw [closesEarly_cons (by simp [more]), up, isClose_of_isOpen opens, h _ _ (by omega) more]
  rfl

end Paired

/-- The bracket that closes the first one ends an operand in brackets, unless more follows. -/
theorem closesEarly_closed (closes : closing.isClose) {rest : List Token} (more : rest ≠ []) :
    closesEarly (depth + 1) (closing :: rest) = (depth == 0 || closesEarly depth rest) := by
  have noOpen : closing.isOpen = false := Bool.eq_false_iff.2 fun opens => by simp [isClose_of_isOpen opens] at closes
  have down : depthAfter (depth + 1) closing = depth := by simp [depthAfter, noOpen, closes]
  rw [closesEarly_cons more, closes, down, Bool.true_and]

theorem bracket_facts {s closer : Sign} (opens : opening.lexeme = .sign s) (matching : (s, closer) ∈ Sign.brackets)
    (closes : closing.lexeme = .sign closer) : opening.isOpen ∧ closing.isClose := by
  simp only [Sign.brackets, mem_cons, Prod.mk.injEq, not_mem_nil, or_false] at matching
  rcases matching with ⟨rfl, rfl⟩ | ⟨rfl, rfl⟩ <;> simp [isOpen, isClose, opens, closes, Sign.isOpen, Sign.isClose]

theorem Paired.enclosed?_eq (h : Paired inner) {s closer : Sign} (opens : opening.lexeme = .sign s)
    (matching : (s, closer) ∈ Sign.brackets) (closes : closing.lexeme = .sign closer) :
    enclosed? (opening :: (inner ++ [closing])) = some inner := by
  have early : closesEarly 0 (opening :: (inner ++ [closing])) = false :=
    h.closesEarly_opened (bracket_facts opens matching closes).1 (Int.le_refl 0) (cons_ne_nil _ _)
  exact enclosed?_eq_some_iff.2
    ⟨opening, closing, s, closer, rfl, opens, Parse.closer?_eq_some_iff.2 matching, closes, early⟩

end Token

/-! ## Expressions -/

namespace Parse
variable {dialect : Dialect} {level : Nat} {toks : List Token} {e : Expr}

theorem Derives.paired (h : Derives dialect level toks e) : Paired toks := by
  induction h with
  | @binary _ _ _ s _ _ _ sign means _ _ left right =>
    have plain : s.isOpen = false ∧ s.isClose = false := by cases s <;> cases means <;> decide
    exact left.append (.cons (by simp [isOpen, sign, plain]) (by simp [isClose, sign, plain]) right)
  | tighter _ _ ih => exact ih
  | number h | string h | word h | pc h =>
    exact .cons (by simp [isOpen, h, Sign.isOpen]) (by simp [isClose, h, Sign.isClose]) .nil
  | @unary _ _ op _ sign _ ih =>
    have plain : op.sign.isOpen = false ∧ op.sign.isClose = false := by cases op <;> decide
    exact .cons (by simp [isOpen, sign, plain]) (by simp [isClose, sign, plain]) ih
  | bracket opens matching closes _ ih =>
    obtain ⟨isOpen, isClose⟩ := bracket_facts opens matching closes
    intro depth rest inside more
    have within : (depth == 0) = false := beq_eq_false_iff_ne.2 (by omega)
    rw [append_assoc, cons_append, singleton_append,
      ih.closesEarly_opened isOpen (by omega) (cons_ne_nil _ _),
      closesEarly_closed isClose more, within, Bool.false_or]

/-- A bracket in front of an expression is closed behind an expression inside of it. -/
theorem Derives.opened (h : Derives dialect level toks e) : ∀ opening ∈ toks.head?, opening.isOpen →
    ∃ inner closing rest e', toks = opening :: (inner ++ closing :: rest) ∧ closing.isClose ∧
      Derives dialect 0 inner e' := by
  induction h with
  | @binary _ ys tok _ _ _ _ _ _ left _ ih _ =>
    intro opening first opens
    rw [head?_append_of_ne_nil _ left.ne_nil] at first
    obtain ⟨inner, closing, rest, e', rfl, closes, inside⟩ := ih opening first opens
    exact ⟨inner, closing, rest ++ tok :: ys, e', by simp, closes, inside⟩
  | tighter _ _ ih => exact ih
  | number h | string h | word h | pc h =>
    rintro _ ⟨⟩ opens
    simp [isOpen, h, Sign.isOpen] at opens
  | @unary _ _ op _ sign =>
    rintro _ ⟨⟩ opens
    cases op <;> simp [isOpen, sign, UnaryOp.sign, Sign.isOpen] at opens
  | bracket opens matching closes h =>
    rintro _ ⟨⟩ -
    exact ⟨_, _, [], _, rfl, (bracket_facts opens matching closes).2, h⟩

end Parse

/-- The tokens are `inner` in brackets of one kind, and `inner` is an expression. -/
def Expr.Bracketed (dialect : Dialect) (toks inner : List Token) : Prop :=
  ∃ opening closing s closer, toks = opening :: (inner ++ [closing]) ∧ opening.lexeme = .sign s ∧
    (s, closer) ∈ Sign.brackets ∧ closing.lexeme = .sign closer ∧ ∃ e, Expr.parse dialect inner = .ok e

/-- The tokens start with an expression in brackets, and go on behind it. -/
def Expr.ClosedBefore (dialect : Dialect) (toks : List Token) : Prop :=
  ∃ opening inner closing rest e, toks = opening :: (inner ++ closing :: rest) ∧ opening.isOpen ∧ closing.isClose ∧
    Expr.parse dialect inner = .ok e ∧ rest ≠ []

section
variable {dialect : Dialect} {toks : List Token} {e : Expr}

theorem Expr.ClosedBefore.enclosed? (h : ClosedBefore dialect toks) : enclosed? toks = none := by
  obtain ⟨opening, inner, closing, rest, e, rfl, opens, closes, read, more⟩ := h
  have early : closesEarly 0 (opening :: (inner ++ closing :: rest)) = true := by
    rw [(Expr.parse_eq_ok_iff.1 read).paired.closesEarly_opened opens (Int.le_refl 0) (cons_ne_nil _ _),
      closesEarly_closed closes more]
    rfl
  refine Option.eq_none_iff_forall_ne_some.2 fun _ enclosed => ?_
  obtain ⟨-, -, -, -, -, -, -, -, late⟩ := enclosed?_eq_some_iff.1 enclosed
  rw [early] at late
  cases late

theorem Expr.enclosed?_iff (read : Expr.parse dialect toks = .ok e) (inner : List Token) :
    Token.enclosed? toks = some inner ↔ Bracketed dialect toks inner := by
  constructor
  · intro enclosed
    obtain ⟨opening, closing, s, closer, whole, opens, matching, closes, -⟩ := enclosed?_eq_some_iff.1 enclosed
    rw [Parse.closer?_eq_some_iff] at matching
    have isOpen := (bracket_facts opens matching closes).1
    obtain ⟨x, closing', rest, e', whole', isClose, inside⟩ :=
      (Expr.parse_eq_ok_iff.1 read).opened opening (by simp [whole]) isOpen
    have inside := Expr.parse_eq_ok_iff.2 inside
    cases rest with
    | nil =>
      obtain ⟨rfl, -⟩ : inner = x ∧ closing = closing' := by simpa [whole] using whole'
      exact ⟨opening, closing, s, closer, whole, opens, matching, closes, e', inside⟩
    | cons =>
      have none := ClosedBefore.enclosed? ⟨opening, x, closing', _, e', whole', isOpen, isClose, inside, by simp⟩
      rw [none] at enclosed
      cases enclosed
  · rintro ⟨opening, closing, s, closer, rfl, opens, matching, closes, e', inside⟩
    exact (Expr.parse_eq_ok_iff.1 inside).paired.enclosed?_eq opens matching closes

end

/-! ## Operands -/

namespace Program
variable {s : Settings} {owner : Text} {condition : Bool} {toks inner : List Token}

theorem wordArg?_eq_none (noWord : ∀ tok ∈ toks.head?, tok.word? = none) : wordArg? condition toks = none := by
  match toks with
  | [] => rfl
  | [tok] => simp [wordArg?, noWord tok rfl]
  | _ :: _ :: _ => rfl

theorem arg_of_enclosed (enclosed : enclosed? toks = some inner) :
    arg s owner condition toks = bracketed s owner toks inner := by
  obtain ⟨opening, closing, _, _, rfl, opens, -⟩ := enclosed?_eq_some_iff.1 enclosed
  have noReg : wordArg? condition (opening :: (inner ++ [closing])) = none :=
    wordArg?_eq_none (by simp [word?, opens])
  simp [arg, noReg, enclosed]

/-- Whether tokens are an expression does not depend on the owner of local names. -/
theorem exists_wholeExpr {e : Expr} (read : Expr.parse s.dialect toks = .ok e) :
    ∃ e', wholeExpr s owner toks = .ok e' := by
  have kin : Forall₂ (Kin False) toks (toks.map (qualifyToken owner)) := by
    rw [forall₂_map_right_iff, forall₂_same]
    intro tok _
    unfold Kin isWord word?
    rw [lexeme_qualifyToken]
    rcases tok.lexeme with ⟨_, _ | _ | _⟩ | _ | _ | _ <;> simp
  obtain ⟨e', derived, -⟩ := (Expr.parse_eq_ok_iff.1 read).relex kin
  exact ⟨e', wholeExpr_eq_ok.2 derived⟩

/-- The tokens start with the name of a register. -/
def startsWithReg (toks : List Token) : Bool := toks.head?.any fun tok => (tok.word?.bind Cpu.Reg.ofWord?).isSome

theorem bracketed_mem_iff {all : List Token} {v : Expr} : bracketed s owner all inner = .ok (.mem v) ↔
    startsWithReg inner = false ∧ wholeExpr s owner inner = .ok v := by
  have memory : (wholeExpr s owner inner).map Arg.mem = .ok (.mem v) ↔ wholeExpr s owner inner = .ok v := by
    cases wholeExpr s owner inner <;> simp [Except.map]
  unfold bracketed startsWithReg
  cases inner with
  | nil => simp [memory]
  | cons first rest =>
    cases register : first.word?.bind Cpu.Reg.ofWord? with
    | none => simp [register, memory]
    | some rr =>
      cases rest with
      | nil => cases index : rr.isIndex <;> simp [register, index]
      | cons sign rest =>
        have index : (wholeExpr s owner (sign :: rest)).map (Arg.idx rr) ≠ .ok (.mem v) := fun h => by
          obtain ⟨_, _, ⟨⟩⟩ := exists_of_map_eq_ok h
        simp only [register, head?_cons, Option.any_some, Option.isSome_some, Bool.true_eq_false, false_and, iff_false]
        split
        · exact index
        · simp

theorem arg_mem_iff {e : Expr} (read : Expr.parse s.dialect toks = .ok e) :
    (∃ v, arg s owner condition toks = .ok (.mem v)) ↔
      ∃ inner, Expr.Bracketed s.dialect toks inner ∧ startsWithReg inner = false := by
  constructor
  · rintro ⟨v, memory⟩
    cases enclosed : enclosed? toks with
    | some inner =>
      rw [arg_of_enclosed enclosed] at memory
      exact ⟨inner, (Expr.enclosed?_iff read inner).1 enclosed, (bracketed_mem_iff.1 memory).1⟩
    | none =>
      have noWord : wordArg? condition toks ≠ some (.mem v) := by fun_cases wordArg? condition toks <;> simp
      have noValue : (wholeExpr s owner toks).map Arg.imm ≠ .ok (.mem v) := fun h => by
        obtain ⟨_, _, ⟨⟩⟩ := exists_of_map_eq_ok h
      unfold arg at memory
      rw [enclosed] at memory
      split at memory
      · cases memory
      · split at memory
        next word => exact absurd (word.trans (congrArg some (Except.ok.inj memory))) noWord
        · exact absurd memory noValue
  · rintro ⟨inner, brackets, noReg⟩
    obtain ⟨_, _, _, _, _, _, _, _, _, inside⟩ := id brackets
    obtain ⟨v, whole⟩ : ∃ v, wholeExpr s owner inner = .ok v := exists_wholeExpr inside
    exact ⟨v, (arg_of_enclosed ((Expr.enclosed?_iff read inner).2 brackets)).trans (bracketed_mem_iff.2 ⟨noReg, whole⟩)⟩

/-- **An operand is in brackets exactly if they stand around an expression.**  Then it is a memory operand, unless a
    register comes first.  One that starts with an expression in brackets and goes on behind it is not. -/
theorem enclosed_iff_bracketed {dialect : Dialect} {toks : List Token} {e : Expr}
    (read : Expr.parse dialect toks = .ok e) :
    (∀ inner, enclosed? toks = some inner ↔ Expr.Bracketed dialect toks inner) ∧
      (∀ (s : Settings) owner condition, s.dialect = dialect →
        ((∃ v, arg s owner condition toks = .ok (.mem v)) ↔
          ∃ inner, Expr.Bracketed dialect toks inner ∧ startsWithReg inner = false)) ∧
      (Expr.ClosedBefore dialect toks → ∀ inner, ¬Expr.Bracketed dialect toks inner) := by
  refine ⟨Expr.enclosed?_iff read, ?_, fun closed inner brackets => ?_⟩
  · rintro s owner condition rfl
    exact arg_mem_iff read
  · have enclosed := (Expr.enclosed?_iff read inner).2 brackets
    rw [closed.enclosed?] at enclosed
    cases enclosed

/-- Brackets of the other kind inside: `([x]+y)`. -/
theorem enclosed_iff_bracketed_mixed :
    let inner : List Token := [⟨.sign .openBracket, 2, false⟩, ⟨.word (bytes "x") .name, 3, false⟩,
      ⟨.sign .closeBracket, 4, false⟩, ⟨.sign .plus, 5, false⟩, ⟨.word (bytes "y") .name, 6, false⟩]
    let toks := ⟨.sign .openParen, 1, false⟩ :: (inner ++ [⟨.sign .closeParen, 7, false⟩])
    Expr.parse .native toks = .ok (.binary .add (.sym (bytes "x")) (.sym (bytes "y"))) ∧
      Expr.Bracketed .native toks inner := by
  intro inner toks
  have read : Expr.parse .native toks = .ok (.binary .add (.sym (bytes "x")) (.sym (bytes "y"))) := rfl
  exact ⟨read, ((enclosed_iff_bracketed read).1 inner).1 rfl⟩

end Program

end Z80Asm
