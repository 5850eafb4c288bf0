import Mathlib.Data.Nat.Init
import Mathlib.Tactic.Common
import Z80Asm.Expr.Parse

/-!
# The grammar of expressions

The written form of expressions as a relation (`Derives`): ten levels of binary operations that associate
to the left, and operands below them.  The readers of expressions accept exactly what can be derived.
-/

namespace Z80Asm

open List

variable {toks front : List Token} {tok : Token} {e x : Expr} {s closer : Sign} {fuel tight : Nat} {op : BinaryOp}
  {table : List (Sign × BinaryOp)}

def Sign.binary? : Sign → Option BinaryOp
  | orOr => some .or
  | andAnd => some .and
  | bar => some .bitOr
  | caret => some .bitXor
  | amp => some .bitAnd
  | eqEq | eq => some .eq
  | bangEq | ltGt => some .ne
  | lt => some .lt
  | gt => some .gt
  | ltEq => some .le
  | gtEq => some .ge
  | ltLt => some .shl
  | gtGt => some .shr
  | plus => some .add
  | minus => some .sub
  | star => some .mul
  | slash => some .div
  | percent => some .mod
  | _ => none

def BinaryOp.level : BinaryOp → Nat
  | or => 0
  | and => 1
  | bitOr => 2
  | bitXor => 3
  | bitAnd => 4
  | eq | ne => 5
  | lt | gt | le | ge => 6
  | shl | shr => 7
  | add | sub => 8
  | mul | div | mod => 9

theorem BinaryOp.level_lt (op : BinaryOp) : op.level < 10 := by cases op <;> decide

def UnaryOp.sign : UnaryOp → Sign
  | neg => .minus
  | plus => .plus
  | bitNot => .tilde
  | not => .bang

def Sign.brackets : List (Sign × Sign) := [(openParen, closeParen), (openBracket, closeBracket)]

/-- The number whose digits to the base 256 are the bytes of a text, the first one highest. -/
def Text.packed (t : Text) : Nat := t.foldl (fun n b => n * 256 + b.toNat) 0

namespace Parse

/-! ## Derivations -/

/-- The tokens are the written form of an expression at a level: ten levels of binary operations, from
    the loosest one on, and operands as the last level. -/
inductive Derives (dialect : Dialect) : Nat → List Token → Expr → Prop
  /-- An operation, after a left side of the same level and before a right side of a tighter one. -/
  | binary {xs ys : List Token} {tok : Token} {s : Sign} {op : BinaryOp} {x y : Expr}
      (sign : tok.lexeme = .sign s) (means : s.binary? = some op)
      (left : Derives dialect op.level xs x) (right : Derives dialect (op.level + 1) ys y) :
      Derives dialect op.level (xs ++ tok :: ys) (.binary op x y)
  /-- A level without an operation of its own. -/
  | tighter {level : Nat} {toks : List Token} {e : Expr} (loose : level < 10)
      (h : Derives dialect (level + 1) toks e) : Derives dialect level toks e
  | number {tok : Token} {text : Text} {value : Int64} (h : tok.lexeme = .number text value) :
      Derives dialect 10 [tok] (.num value)
  /-- A string of at most four bytes; an empty one only in the Compass dialect. -/
  | string {tok : Token} {text : Text} (h : tok.lexeme = .string text) (short : text.length ≤ 4)
      (empty : text = [] → dialect = .compass) :
      Derives dialect 10 [tok] (.num (.ofNat text.packed))
  | word {tok : Token} {name : Text} {role : Role} (h : tok.lexeme = .word name role) :
      Derives dialect 10 [tok] (.sym name)
  | pc {tok : Token} (h : tok.lexeme = .sign .dollar) : Derives dialect 10 [tok] .pc
  | unary {tok : Token} {toks : List Token} {op : UnaryOp} {x : Expr}
      (sign : tok.lexeme = .sign op.sign) (h : Derives dialect 10 toks x) :
      Derives dialect 10 (tok :: toks) (.unary op x)
  /-- Brackets of one kind around any expression. -/
  | bracket {opening closing : Token} {toks : List Token} {s closer : Sign} {e : Expr}
      (opens : opening.lexeme = .sign s) (matching : (s, closer) ∈ Sign.brackets)
      (closes : closing.lexeme = .sign closer) (h : Derives dialect 0 toks e) :
      Derives dialect 10 (opening :: toks ++ [closing]) e

/-- The rest of a chain of operations of a level, after its left side. -/
inductive DerivesRest (dialect : Dialect) (level : Nat) : Expr → List Token → Expr → Prop
  | nil (x : Expr) : DerivesRest dialect level x [] x
  | cons {tok : Token} {ys zs : List Token} {s : Sign} {op : BinaryOp} {x y e : Expr}
      (sign : tok.lexeme = .sign s) (means : s.binary? = some op) (same : op.level = level)
      (operand : Derives dialect (level + 1) ys y)
      (rest : DerivesRest dialect level (.binary op x y) zs e) :
      DerivesRest dialect level x (tok :: ys ++ zs) e

variable {dialect : Dialect}

theorem DerivesRest.snoc {level : Nat} {y : Expr} {zs ys : List Token} (h : DerivesRest dialect level x zs e)
    (sign : tok.lexeme = .sign s) (means : s.binary? = some op) (same : op.level = level)
    (operand : Derives dialect (level + 1) ys y) : DerivesRest dialect level x (zs ++ tok :: ys) (.binary op e y) := by
  induction h with
  | nil x => simpa using DerivesRest.cons sign means same operand (.nil _)
  | cons sign' means' same' operand' _ ih =>
    simpa using DerivesRest.cons sign' means' same' operand' ih

theorem Derives.loosen {level : Nat} (h : Derives dialect tight toks e) (le : level ≤ tight) (bound : tight ≤ 10) :
    Derives dialect level toks e := by
  induction le using Nat.decreasingInduction with
  | self => exact h
  | of_succ level lt ih => exact .tighter (by omega) ih

theorem Derives.split {level : Nat} (h : Derives dialect level toks e) (loose : level < 10) :
    ∃ first rest x, toks = first ++ rest ∧
      Derives dialect (level + 1) first x ∧ DerivesRest dialect level x rest e := by
  induction h with
  | binary sign means left right left_ih _ =>
    obtain ⟨first, rest, x, rfl, start, chain⟩ := left_ih loose
    exact ⟨first, _, x, by simp, start, chain.snoc sign means rfl right⟩
  | tighter _ h _ => exact ⟨_, [], _, by simp, h, .nil _⟩
  | number | string | word | pc | unary | bracket => omega

/-- A chain that goes on from a derived left side derives the whole. -/
theorem DerivesRest.derives {level : Nat} {first rest : List Token} (h : DerivesRest dialect level x rest e)
    (start : Derives dialect level first x) : Derives dialect level (first ++ rest) e := by
  induction h generalizing first with
  | nil => simpa using start
  | cons sign means same operand _ ih =>
    subst same
    simpa using ih (.binary sign means start operand)

/-! ## Levels -/

theorem lookup_levels (s : Sign) (level : Fin levels.length) :
    levels[level].lookup s = s.binary?.filter (·.level == level.val) := by
  revert level
  cases s <;> decide

theorem operation?_eq_some_iff {level : Nat} (known : levels[level]? = some table) :
    operation? table tok = some op ↔ ∃ s, tok.lexeme = .sign s ∧ s.binary? = some op ∧ op.level = level := by
  obtain ⟨lt, rfl⟩ := List.getElem?_eq_some_iff.1 known
  have lookup (s : Sign) : levels[level].lookup s = s.binary?.filter (·.level == level) :=
    lookup_levels s ⟨level, lt⟩
  unfold operation?
  cases h : tok.lexeme with
  | sign s => simp [lookup, Option.filter_eq_some_iff]
  | word | number | string => simp

/-- No operation of the level or of a tighter one stands first. -/
def Stops (level : Nat) (toks : List Token) : Prop :=
  ∀ tok ∈ toks.head?, ∀ s op, tok.lexeme = .sign s → s.binary? = some op → op.level < level

theorem Stops.mono {level : Nat} (h : Stops level toks) (le : level ≤ tight) : Stops tight toks :=
  fun tok first s op sign means => Nat.lt_of_lt_of_le (h tok first s op sign means) le

theorem stops_operand (toks : List Token) : Stops 10 toks := fun _ _ _ op _ _ => op.level_lt

theorem Stops.operation? {level : Nat} (known : levels[level]? = some table) (h : Stops level (tok :: toks)) :
    operation? table tok = none := by
  refine Option.eq_none_iff_forall_ne_some.2 fun op found => ?_
  obtain ⟨s, sign, means, same⟩ := (operation?_eq_some_iff known).1 found
  exact absurd (h tok rfl s op sign means) (by omega)

theorem DerivesRest.stops {level : Nat} {rest : List Token} (h : DerivesRest dialect level x front e)
    (after : Stops level rest) :
    Stops (level + 1) (front ++ rest) := by
  cases h with
  | nil => exact after.mono (Nat.le_succ _)
  | cons sign means same =>
    intro tok first s op sign' means'
    obtain rfl : _ = tok := by simpa using first
    cases sign.symm.trans sign'
    cases means.symm.trans means'
    omega

/-! ## Readers -/

/-- The reader reads a level of the grammar, up to a number of tokens: what it takes is derived, and
    what is derived it takes, unless an operation goes on with it. -/
structure Reads (dialect : Dialect) (level size : Nat) (reader : Reader) : Prop where
  sound {toks e rest} (h : reader toks = .ok (e, rest)) :
    ∃ front, toks = front ++ rest ∧ Derives dialect level front e
  complete {front e rest} (h : Derives dialect level front e) (short : front.length ≤ size)
    (stops : Stops level rest) : reader (front ++ rest) = .ok (e, rest)

section Chain

variable {level size : Nat} {rest : List Token} {operand : Reader} (known : levels[level]? = some table)
  (reads : Reads dialect (level + 1) size operand)
include known reads

theorem derivesRest_of_chainRest {toks : List Token} (h : chainRest table operand fuel x toks = .ok (e, rest)) :
    ∃ front, toks = front ++ rest ∧ DerivesRest dialect level x front e := by
  induction fuel generalizing x toks with
  | zero =>
    simp only [chainRest, Except.ok.injEq, Prod.mk.injEq] at h
    exact ⟨[], by simp [h.2], h.1 ▸ .nil x⟩
  | succ fuel ih =>
    cases toks with
    | nil =>
      simp only [chainRest, Except.ok.injEq, Prod.mk.injEq] at h
      exact ⟨[], by simp [h.2], h.1 ▸ .nil x⟩
    | cons tok toks =>
      rw [chainRest] at h
      cases op? : operation? table tok with
      | none =>
        simp only [op?, Except.ok.injEq, Prod.mk.injEq] at h
        exact ⟨[], by simp [h.2], h.1 ▸ .nil x⟩
      | some op =>
        obtain ⟨s, sign, means, same⟩ := (operation?_eq_some_iff known).1 op?
        cases right : operand toks with
        | error failure => simp [op?, right] at h
        | ok read =>
          obtain ⟨y, after⟩ := read
          simp only [op?, right] at h
          obtain ⟨ys, rfl, derived⟩ := reads.sound right
          obtain ⟨zs, rfl, chain⟩ := ih h
          exact ⟨tok :: ys ++ zs, by simp, .cons sign means same derived chain⟩

theorem chainRest_complete (h : DerivesRest dialect level x front e) (short : front.length ≤ size)
    (enough : front.length ≤ fuel) (stops : Stops level rest) :
    chainRest table operand fuel x (front ++ rest) = .ok (e, rest) := by
  induction h generalizing fuel with
  | nil x =>
    match fuel, rest with
    | 0, _ => rfl
    | _ + 1, [] => rfl
    | _ + 1, tok :: rest => simp [chainRest, stops.operation? known]
  | @cons tok ys zs s op x y e sign means same operand chain ih =>
    obtain ⟨fuel, rfl⟩ : ∃ n, fuel = n + 1 := Nat.exists_eq_add_one.2 (by simp at enough; omega)
    simp only [length_append, length_cons] at short enough
    have op? : operation? table tok = some op := (operation?_eq_some_iff known).2 ⟨s, sign, means, same⟩
    have right := reads.complete operand (by omega) (chain.stops stops)
    simpa [chainRest, op?, right] using ih (by omega) (by omega)

theorem Reads.chain : Reads dialect level size (Parse.chain table operand) where
  sound {toks e rest} h := by
    cases left : operand toks with
    | error failure => simp [Parse.chain, left] at h
    | ok read =>
      obtain ⟨x, after⟩ := read
      simp only [Parse.chain, left] at h
      obtain ⟨xs, rfl, start⟩ := reads.sound left
      obtain ⟨zs, rfl, chain⟩ := derivesRest_of_chainRest known reads h
      have loose : level < levels.length := (List.getElem?_eq_some_iff.1 known).1
      exact ⟨xs ++ zs, by simp, chain.derives (.tighter loose start)⟩
  complete {front e rest} h short stops := by
    have loose : level < levels.length := (List.getElem?_eq_some_iff.1 known).1
    obtain ⟨first, chained, x, rfl, start, chain⟩ := h.split loose
    simp only [length_append] at short
    have left := reads.complete start (by omega) (chain.stops stops)
    have right : chainRest table operand (chained ++ rest).length x (chained ++ rest) = .ok (e, rest) :=
      chainRest_complete known reads chain (by omega) (by simp) stops
    simpa [Parse.chain, left] using right

end Chain

theorem Reads.chains {size : Nat} {operand : Reader} (reads : Reads dialect 10 size operand) :
    Reads dialect 0 size (Parse.chains operand) := by
  -- downward: the levels from `level` on are read at `level`
  have tail (level : Nat) (le : level ≤ 10) :
      Reads dialect level size ((levels.drop level).foldr Parse.chain operand) := by
    induction le using Nat.decreasingInduction with
    | self => exact reads
    | of_succ level lt ih =>
      have lt : level < levels.length := lt
      rw [drop_eq_getElem_cons lt]
      exact ih.chain (getElem?_eq_getElem lt)
  exact tail 0 (Nat.zero_le _)

/-! ## Operands -/

theorem shift_or_byte (n : Nat) (b : UInt8) :
    Int64.ofNat n <<< 8 ||| b.toUInt64.toInt64 = Int64.ofNat (n * 256 + b.toNat) := by
  apply Int64.toBitVec_inj.1
  apply BitVec.eq_of_toNat_eq
  have low : b.toNat < 2 ^ 8 := b.toNat_lt
  have high : (n % 2 ^ 64) <<< 8 % 2 ^ 64 = (n % 2 ^ 56) <<< 8 := by
    simp only [Nat.shiftLeft_eq]
    omega
  have toNat : (Int64.ofNat n <<< 8 ||| b.toUInt64.toInt64).toBitVec.toNat =
      (n % 2 ^ 64) <<< 8 % 2 ^ 64 ||| b.toNat := by simp
  rw [toNat, high, ← Nat.shiftLeft_add_eq_or_of_lt low]
  have toNat' : (Int64.ofNat (n * 256 + b.toNat)).toBitVec.toNat = (n * 256 + b.toNat) % 2 ^ 64 := by
    simp
  rw [toNat', Nat.shiftLeft_eq]
  omega

theorem stringValue_eq_ok_iff {text : Text} {value : Int64} :
    stringValue dialect text = .ok value ↔
      text.length ≤ 4 ∧ (text = [] → dialect = .compass) ∧ value = .ofNat text.packed := by
  have packed (n : Nat) : text.foldl (fun (v : Int64) b => v <<< 8 ||| b.toUInt64.toInt64) (.ofNat n) =
      .ofNat (text.foldl (fun n b => n * 256 + b.toNat) n) := by
    induction text generalizing n with
    | nil => rfl
    | cons b text ih => simpa only [foldl_cons, shift_or_byte] using ih _
  have packed : text.foldl (fun (v : Int64) b => v <<< 8 ||| b.toUInt64.toInt64) 0 = .ofNat text.packed := packed 0
  unfold stringValue
  rw [packed]
  cases dialect <;> cases text <;> grind

theorem signOperation?_eq_some_iff {op : UnaryOp} : signOperation? s = some op ↔ s = op.sign := by
  cases s <;> cases op <;> decide

theorem closer?_eq_some_iff : s.closer? = some closer ↔ (s, closer) ∈ Sign.brackets := by
  cases s <;> simp [Sign.closer?, Sign.brackets, eq_comm]

/-- An opening bracket is no other operand, and a closing one ends an expression. -/
theorem brackets_apart (h : (s, closer) ∈ Sign.brackets) :
    s ≠ .dollar ∧ signOperation? s = none ∧ closer.binary? = none := by
  simp only [Sign.brackets, mem_cons, Prod.mk.injEq, not_mem_nil, or_false] at h
  rcases h with ⟨rfl, rfl⟩ | ⟨rfl, rfl⟩ <;> decide

theorem Derives.ne_nil {level : Nat} (h : Derives dialect level toks e) : toks ≠ [] := by
  induction h with
  | tighter _ _ ih => exact ih
  | binary | number | string | word | pc | unary | bracket => simp

section Operand

variable {depth : Nat} {rest : List Token} (inner : ∀ d, depth = d + 1 → Reads dialect 10 d (operand dialect d))

include inner

theorem derives_of_operand (h : operand dialect depth toks = .ok (e, rest)) :
    ∃ front, toks = front ++ rest ∧ Derives dialect 10 front e := by
  match toks with
  | [] => simp [operand] at h
  | tok :: toks =>
    unfold operand at h
    cases lexeme : tok.lexeme with
    | number text value =>
      simp only [lexeme, Except.ok.injEq, Prod.mk.injEq] at h
      exact ⟨[tok], by simp [h.2], h.1 ▸ .number lexeme⟩
    | word name role =>
      simp only [lexeme, Except.ok.injEq, Prod.mk.injEq] at h
      exact ⟨[tok], by simp [h.2], h.1 ▸ .word lexeme⟩
    | string text =>
      cases packed : stringValue dialect text with
      | error fault => simp [lexeme, packed] at h
      | ok value =>
        simp only [lexeme, packed, Except.ok.injEq, Prod.mk.injEq] at h
        obtain ⟨short, empty, rfl⟩ := stringValue_eq_ok_iff.1 packed
        exact ⟨[tok], by simp [h.2], h.1 ▸ .string lexeme short empty⟩
    | sign s =>
      simp only [lexeme] at h
      split_ifs at h with pc
      · simp only [Except.ok.injEq, Prod.mk.injEq] at h
        exact ⟨[tok], by simp [h.2], h.1 ▸ .pc (pc ▸ lexeme)⟩
      · match depth, op? : signOperation? s, closer? : s.closer? with
        | 0, _, _ => simp at h
        | d + 1, none, none => simp [op?, closer?] at h
        | d + 1, some op, _ =>
          cases read : operand dialect d toks with
          | error failure => simp [op?, read] at h
          | ok read' =>
            obtain ⟨x, after⟩ := read'
            simp only [op?, read, Except.ok.injEq, Prod.mk.injEq] at h
            obtain ⟨front, rfl, derived⟩ := (inner d rfl).sound read
            obtain rfl := signOperation?_eq_some_iff.1 op?
            exact ⟨tok :: front, by simp [h.2], h.1 ▸ .unary lexeme derived⟩
        | d + 1, none, some closer =>
          cases read : chains (operand dialect d) toks with
          | error failure => simp [op?, closer?, read] at h
          | ok read' =>
            match read' with
            | (x, []) => simp [op?, closer?, read] at h
            | (x, closing :: after) =>
              obtain ⟨front, rfl, derived⟩ := (inner d rfl).chains.sound read
              simp only [op?, closer?, read] at h
              split_ifs at h with closes
              simp only [Except.ok.injEq, Prod.mk.injEq] at h
              have closes : closing.lexeme = .sign closer := by simpa [Token.isSign] using closes
              exact ⟨tok :: front ++ [closing], by simp [h.2],
                h.1 ▸ .bracket lexeme (closer?_eq_some_iff.1 closer?) closes derived⟩

theorem operand_complete (h : Derives dialect 10 front e) (short : front.length ≤ depth) :
    operand dialect depth (front ++ rest) = .ok (e, rest) := by
  generalize level : 10 = n at h
  cases h with
  | @binary _ _ _ _ op =>
    have := op.level_lt
    omega
  | tighter => omega
  | number lexeme => simp [operand, lexeme]
  | string lexeme le empty =>
    have packed := stringValue_eq_ok_iff.2 ⟨le, empty, rfl⟩
    simp [operand, lexeme, packed]
  | word lexeme => simp [operand, lexeme]
  | pc lexeme => simp [operand, lexeme]
  | @unary tok toks op x sign h =>
    obtain ⟨d, rfl⟩ : ∃ d, depth = d + 1 := Nat.exists_eq_add_one.2 (by simp at short; omega)
    have read : operand dialect d (toks ++ rest) = .ok (x, rest) :=
      (inner d rfl).complete h (by simpa using short) (stops_operand rest)
    have op? : signOperation? op.sign = some op := signOperation?_eq_some_iff.2 rfl
    have ne : op.sign ≠ .dollar := by cases op <;> decide
    simp [operand, sign, ne, op?, read]
  | @bracket opening closing toks s closer _ opens matching closes h =>
    obtain ⟨d, rfl⟩ : ∃ d, depth = d + 1 := Nat.exists_eq_add_one.2 (by simp at short; omega)
    obtain ⟨ne, noOperation, noBinary⟩ := brackets_apart matching
    have closer? : s.closer? = some closer := closer?_eq_some_iff.2 matching
    have stops : Stops 0 (closing :: rest) := by
      intro tok first s op sign means
      obtain rfl : closing = tok := by simpa using first
      cases closes.symm.trans sign
      cases noBinary.symm.trans means
    have read : chains (operand dialect d) (toks ++ closing :: rest) = .ok (e, closing :: rest) :=
      (inner d rfl).chains.complete h (by simp at short; omega) stops
    simp [operand, opens, ne, noOperation, closer?, read, Token.isSign, closes]

end Operand

/-- Operands are read, with as many signs and brackets around them as there may be tokens. -/
theorem operand_reads (depth : Nat) : Reads dialect 10 depth (operand dialect depth) := by
  induction depth with
  | zero =>
    have inner (d : Nat) (h : 0 = d + 1) : Reads dialect 10 d (operand dialect d) := by cases h
    exact ⟨derives_of_operand inner, fun h short _ => operand_complete inner h short⟩
  | succ depth ih =>
    have inner (d : Nat) (h : depth + 1 = d + 1) : Reads dialect 10 d (operand dialect d) := by
      cases h
      exact ih
    exact ⟨derives_of_operand inner, fun h short _ => operand_complete inner h short⟩

end Parse

theorem Expr.parse_eq_ok_iff {dialect : Dialect} :
    Expr.parse dialect toks = .ok e ↔ Parse.Derives dialect 0 toks e := by
  have reads : Parse.Reads dialect 0 toks.length (Parse.chains (Parse.operand dialect toks.length)) :=
    (Parse.operand_reads toks.length).chains
  constructor
  · intro h
    unfold Expr.parse at h
    split_ifs at h
    match read : Parse.chains (Parse.operand dialect toks.length) toks with
    | .error failure => simp [read] at h
    | .ok (x, tok :: rest) => simp [read] at h
    | .ok (x, []) =>
      simp only [read, Except.ok.injEq] at h
      obtain ⟨front, whole, derived⟩ := reads.sound read
      rw [whole, append_nil, ← h]
      exact derived
  · intro h
    have stops : Parse.Stops 0 [] := fun tok first => by simp at first
    have read := reads.complete h (Nat.le_refl _) stops
    rw [append_nil] at read
    simp [Expr.parse, h.ne_nil, read]

/-- **Reading is deriving.**  All of the tokens are read as an expression exactly if the grammar derives
    it from them; it derives at most one. -/
theorem Expr.parse_iff_derives (dialect : Dialect) (toks : List Token) :
    (∀ e, Expr.parse dialect toks = .ok e ↔ Parse.Derives dialect 0 toks e) ∧
      ∀ e e', Parse.Derives dialect 0 toks e → Parse.Derives dialect 0 toks e' → e = e' := by
  refine ⟨fun e => Expr.parse_eq_ok_iff, fun e e' h h' => ?_⟩
  have read := Expr.parse_eq_ok_iff.2 h
  have read' := Expr.parse_eq_ok_iff.2 h'
  exact Except.ok.inj (read.symm.trans read')

/-- The tokens of `9-4-(-2)*x` derive the one tree `(9-4)-((-2)*x)`. -/
theorem Expr.parse_iff_derives_left :
    let toks : List Token :=
      [⟨.number (bytes "9") 9, 1, false⟩, ⟨.sign .minus, 2, false⟩, ⟨.number (bytes "4") 4, 3, false⟩,
       ⟨.sign .minus, 4, false⟩, ⟨.sign .openParen, 5, false⟩, ⟨.sign .minus, 6, false⟩,
       ⟨.number (bytes "2") 2, 7, false⟩, ⟨.sign .closeParen, 8, false⟩, ⟨.sign .star, 9, false⟩,
       ⟨.word (bytes "x") .name, 10, false⟩]
    let tree : Expr := .binary .sub (.binary .sub (.num 9) (.num 4))
      (.binary .mul (.unary .neg (.num 2)) (.sym (bytes "x")))
    Parse.Derives .native 0 toks tree ∧ ∀ e, Parse.Derives .native 0 toks e → e = tree := by
  intro toks tree
  have derived : Parse.Derives .native 0 toks tree := ((parse_iff_derives .native toks).1 tree).1 rfl
  exact ⟨derived, fun e h => (parse_iff_derives .native toks).2 e tree h derived⟩

end Z80Asm
