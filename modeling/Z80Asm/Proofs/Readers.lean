import Mathlib.Tactic.Common
import Z80Asm.Expr.Parse

/-!
# What the readers of expressions keep

Expressions are built from words, numbers and `$` by operations.  What holds of these and is kept by the operations
holds of all that is read (`Readings`), also of what had been read where the reading fails.  Two dialects that give the
same values to the strings read the same.
-/

namespace Z80Asm

variable {toks : List Token} {dialect : Dialect}

namespace Parse

/-- What holds of tokens, of the expressions read from them and of the faults in them, where the strings have the same
    values in two dialects. -/
structure Readings (dialect dialect' : Dialect) where
  token : Token → Prop
  expr : Expr → Prop := fun _ => True
  fault : Fault → Prop := fun _ => True
  string {tok : Token} {text : Text} : token tok → tok.lexeme = .string text →
    stringValue dialect' text = stringValue dialect text
  word {tok : Token} {name : Text} {role : Role} : token tok → tok.lexeme = .word name role → expr (.sym name) := by
    intros; exact trivial
  num (value : Int64) : expr (.num value) := by intros; exact trivial
  pc : expr .pc := by intros; exact trivial
  unary (op : UnaryOp) {x : Expr} : expr x → expr (.unary op x) := by intros; exact trivial
  binary (op : BinaryOp) {x y : Expr} : expr x → expr y → expr (.binary op x y) := by intros; exact trivial
  invalid {text : Text} {f : Fault} : stringValue dialect text = .error f → fault f := by intros; exact trivial
  missing : fault (.plain .expression) := by intros; exact trivial
  unexpected (text : Text) : fault (.about .expression text) := by intros; exact trivial
  unclosed : fault (.plain .parenthesis) := by intros; exact trivial

namespace Readings
variable {dialect' : Dialect} (k : Readings dialect dialect') {reader reader' : Reader} {level : List (Sign × BinaryOp)}

def Fails (failure : Failure) : Prop := k.fault failure.fault ∧ ∀ e ∈ failure.read, k.expr e

def Holds : Except Failure (Expr × List Token) → Prop
  | .ok (e, rest) => k.expr e ∧ ∀ tok ∈ rest, k.token tok
  | .error failure => k.Fails failure

/-- Two readers read the same, and it is as it should be. -/
def Agree (reader reader' : Reader) : Prop :=
  ∀ toks, (∀ tok ∈ toks, k.token tok) → reader' toks = reader toks ∧ k.Holds (reader toks)

variable {k}

theorem chainRest (h : k.Agree reader reader') (fuel : Nat) {e : Expr} (read : k.expr e)
    (known : ∀ tok ∈ toks, k.token tok) :
    Parse.chainRest level reader' fuel e toks = Parse.chainRest level reader fuel e toks ∧
      k.Holds (Parse.chainRest level reader fuel e toks) := by
  induction fuel generalizing e toks with
  | zero => exact ⟨rfl, read, known⟩
  | succ fuel ih =>
    cases toks with
    | nil => exact ⟨rfl, read, known⟩
    | cons tok toks =>
      simp only [Parse.chainRest]
      cases operation? level tok with
      | none => exact ⟨rfl, read, known⟩
      | some op =>
        obtain ⟨same, holds⟩ := h toks (List.forall_mem_cons.1 known).2
        dsimp only
        rw [same]
        cases found : reader toks with
        | error failure =>
          rw [found] at holds
          exact ⟨rfl, holds.1, by rintro _ ⟨⟩; exact read⟩
        | ok found' =>
          rw [found] at holds
          exact ih (k.binary op read holds.1) holds.2

theorem chain (h : k.Agree reader reader') : k.Agree (Parse.chain level reader) (Parse.chain level reader') := by
  intro toks known
  obtain ⟨same, holds⟩ := h toks known
  simp only [Parse.chain]
  rw [same]
  cases found : reader toks with
  | error failure =>
    rw [found] at holds
    exact ⟨rfl, holds⟩
  | ok found' =>
    rw [found] at holds
    exact chainRest h _ holds.1 holds.2

theorem chains (h : k.Agree reader reader') : k.Agree (Parse.chains reader) (Parse.chains reader') := by
  unfold Parse.chains
  induction levels with
  | nil => exact h
  | cons level rest ih => exact chain ih

/-- **Operands are as they should be**, whatever stands around them. -/
theorem operand : ∀ depth, k.Agree (Parse.operand dialect depth) (Parse.operand dialect' depth)
  | depth, [], _ => by
    rw [Parse.operand, Parse.operand]
    exact ⟨rfl, k.missing, nofun⟩
  | depth, tok :: toks, known => by
    obtain ⟨here, behind⟩ := List.forall_mem_cons.1 known
    rw [Parse.operand, Parse.operand]
    cases lexeme : tok.lexeme with
    | word name role => exact ⟨rfl, k.word here lexeme, behind⟩
    | number text value => exact ⟨rfl, k.num value, behind⟩
    | string text =>
      dsimp only
      rw [k.string here lexeme]
      cases found : stringValue dialect text with
      | ok value => exact ⟨rfl, k.num value, behind⟩
      | error fault => exact ⟨rfl, k.invalid found, by rintro _ ⟨⟩; exact k.num 0⟩
    | sign s =>
      dsimp only
      by_cases dollar : s = .dollar
      · rw [if_pos dollar, if_pos dollar]
        exact ⟨rfl, k.pc, behind⟩
      rw [if_neg dollar, if_neg dollar]
      cases depth with
      | zero => exact ⟨rfl, k.unexpected _, nofun⟩
      | succ depth =>
        cases signOperation? s with
        | some op =>
          obtain ⟨same, holds⟩ := operand depth toks behind
          dsimp only
          rw [same]
          cases found : Parse.operand dialect depth toks with
          | error failure =>
            rw [found] at holds
            exact ⟨rfl, holds.1, nofun⟩
          | ok found' =>
            rw [found] at holds
            exact ⟨rfl, k.unary op holds.1, holds.2⟩
        | none =>
          cases s.closer? with
          | none => exact ⟨rfl, k.unexpected _, nofun⟩
          | some closer =>
            obtain ⟨same, holds⟩ := chains (operand depth) toks behind
            dsimp only
            rw [same]
            cases found : Parse.chains (Parse.operand dialect depth) toks with
            | error failure =>
              rw [found] at holds
              exact ⟨rfl, holds⟩
            | ok found' =>
              rw [found] at holds
              have unclosed : k.Fails { fault := .plain .parenthesis, read := found'.1 } :=
                ⟨k.unclosed, by rintro _ ⟨⟩; exact holds.1⟩
              refine ⟨rfl, ?_⟩
              obtain ⟨e, _ | ⟨closing, rest⟩⟩ := found'
              · exact unclosed
              · dsimp only
                split
                · exact ⟨holds.1, (List.forall_mem_cons.1 holds.2).2⟩
                · exact unclosed

end Readings

/-! ## Faults -/

def causes : List Cause := [.expression, .parenthesis, .operandsMissing, .stringEmpty, .stringLong]

def Explains (fault : Fault) : Prop := ∃ cause ∈ causes, fault.cause? = some cause

def Sound (r : Reader) : Prop := ∀ toks failure, r toks = .error failure → Explains failure.fault

theorem stringValue_explains {text : Text} {fault : Fault} (h : stringValue dialect text = .error fault) :
    Explains fault := by
  unfold stringValue at h
  split at h
  · cases h; exact ⟨_, by decide, rfl⟩
  split at h
  · cases h; exact ⟨_, by decide, rfl⟩
  · cases h

/-- Any tokens are read, or not for one of these causes. -/
def explained (dialect : Dialect) : Readings dialect dialect where
  token _ := True
  fault := Explains
  string _ _ := rfl
  invalid := stringValue_explains
  missing := ⟨_, by decide, rfl⟩
  unexpected _ := ⟨_, by decide, rfl⟩
  unclosed := ⟨_, by decide, rfl⟩

theorem chains_sound (dialect : Dialect) (depth : Nat) : Sound (chains (operand dialect depth)) := by
  intro toks failure failed
  have holds := (Readings.chains (k := explained dialect) (Readings.operand depth) toks fun _ _ => trivial).2
  rw [failed] at holds
  exact holds.1

end Parse

theorem Expr.parse_explains {failure : Failure} (h : Expr.parse dialect toks = .error failure) :
    Parse.Explains failure.fault := by
  unfold Expr.parse at h
  split at h
  · cases h; exact ⟨_, by decide, rfl⟩
  split at h
  next failed => cases h; exact Parse.chains_sound dialect _ _ _ failed
  next => cases h
  next => cases h; exact ⟨_, by decide, rfl⟩

end Z80Asm
