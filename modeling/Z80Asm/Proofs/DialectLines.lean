import Z80Asm.Proofs.Blocks
import Z80Asm.Proofs.LocalNames

/-!
# Lines in two dialects

A row is split into the same tokens in both dialects, only that the native one finds more faults in it.  A line of
these tokens makes the same edits in both, if it has no word with an `@` and no empty string, and if the native dialect
does not report a directive that only the Compass dialect has.
-/

namespace Z80Asm

/-- The same settings for the Compass dialect, where a `pop` keeps the order of its registers. -/
def Settings.inCompass (s : Settings) : Settings := { s with dialect := .compass, reversePop := false }

theorem Settings.find_inCompass (s : Settings) : s.inCompass.find = s.find := by
  have first (paths : List Text) (reason : Option Fault) :
      s.inCompass.readFirst reason paths = s.readFirst reason paths := by
    induction paths generalizing reason with
    | nil => rfl
    | cons path rest ih =>
      have same : s.inCompass.read = s.read := rfl
      rw [readFirst, readFirst, same]
      cases s.read path with
      | ok data => rfl
      | error fault => exact ih _
  funext name source
  have same : s.inCompass.candidates = s.candidates := rfl
  rw [find, find, first, same]

/-! ## Rows -/

namespace Lex

/-- The same is scanned, with the same fault or with none. -/
structure Scanned.Widened (a b : Scanned) : Prop where
  lexeme : b.lexeme = a.lexeme
  more : b.more = a.more
  fault : a.fault = none → b.fault = none

theorem Scanned.Widened.refl (a : Scanned) : a.Widened a := ⟨rfl, rfl, id⟩

theorem spacedFault_compass (spaced : Bool) (span : Text) : spacedFault .compass spaced span = none := by
  simp [spacedFault]

theorem number_widened (t : Text) : (number .native t).Widened (number .compass t) := by
  unfold number
  dsimp only
  split
  · exact ⟨rfl, rfl, fun _ => spacedFault_compass ..⟩
  · exact ⟨rfl, rfl, by simp⟩

theorem signedEnd_widened (radix : Nat) (t digits : Text) (size : Nat) (spaced : Bool) :
    (signedEnd .native radix t digits size spaced).Widened (signedEnd .compass radix t digits size spaced) := by
  unfold signedEnd
  dsimp only
  split
  · exact ⟨rfl, rfl, fun _ => spacedFault_compass ..⟩
  · exact ⟨rfl, rfl, by simp⟩

theorem signedNumber?_widened (radix size : Nat) (t : Text) :
    Option.Rel Scanned.Widened (signedNumber? .native radix size t) (signedNumber? .compass radix size t) := by
  unfold signedNumber?
  dsimp only
  split
  · split
    · exact .none
    · split
      · exact .some (signedEnd_widened ..)
      · exact .none
  · split
    · exact .some (signedEnd_widened ..)
    · split
      · exact .none
      · exact .some (.refl _)

structure State.Widened (st st' : State) : Prop where
  before : st'.before = st.before
  space : st'.space = st.space
  fault : st.fault = none → st'.fault = none

theorem scanAt_widened {st st' : State} (h : st.Widened st') (b : UInt8) (rest : Text) :
    (scanAt .native st b rest).Widened (scanAt .compass st' b rest) := by
  unfold scanAt
  dsimp only
  split
  · exact number_widened _
  split
  · exact .refl _
  split
  · exact .refl _
  split
  · exact .refl _
  rw [h.before, h.space]
  split
  next radix size _ =>
    have found := signedNumber?_widened radix size (b :: rest)
    generalize signedNumber? .native radix size (b :: rest) = x,
      signedNumber? .compass radix size (b :: rest) = y at found
    cases found with
    | none => exact .refl _
    | some widened => exact widened
  · exact .refl _

theorem State.Widened.accept {st st' : State} (h : st.Widened st') {a b : Scanned} (found : a.Widened b) (col : Nat) :
    (st.accept col a).Widened (st'.accept col b) := by
  have faults : st.fault.or a.fault = none → st'.fault.or b.fault = none := by
    simp only [Option.or_eq_none_iff]
    exact fun none => ⟨h.fault none.1, found.fault none.2⟩
  unfold State.accept
  dsimp only
  rw [found.lexeme]
  split
  · exact ⟨by rw [h.before, h.space], rfl, faults⟩
  · exact ⟨h.before, h.space, faults⟩

theorem run_widened {st st' : State} (h : st.Widened st') (col skip : Nat) (t : Text) :
    (run .native st col skip t).Widened (run .compass st' col skip t) := by
  induction t generalizing st st' col skip with
  | nil => simpa [run] using h
  | cons b rest ih =>
    cases skip with
    | succ skip => exact ih h _ _
    | zero =>
      rw [run, run]
      split
      · have blank : State.Widened { st with space := true } { st' with space := true } := ⟨h.before, rfl, h.fault⟩
        exact ih blank _ _
      split
      · exact h
      · have found := scanAt_widened h b rest
        dsimp only
        rw [found.more]
        exact ih (h.accept found col) _ _

end Lex

/-- **A row has the same tokens in both dialects**, and no fault in the Compass dialect if it has none in the native
    one. -/
theorem lex_inCompass (row : Text) : (lex .compass row).tokens = (lex .native row).tokens ∧
    ((lex .native row).fault = none → (lex .compass row).fault = none) := by
  have widened : (Lex.run .native {} 1 0 row).Widened (Lex.run .compass {} 1 0 row) :=
    Lex.run_widened ⟨rfl, rfl, id⟩ 1 0 row
  exact ⟨congrArg List.reverse widened.before, widened.fault⟩

/-! ## Expressions -/

def Token.NoEmpty (toks : List Token) : Prop := ∀ tok ∈ toks, tok.string? ≠ some []

theorem Token.NoEmpty.mono {toks part : List Token} (h : NoEmpty toks) (subset : part ⊆ toks) : NoEmpty part :=
  fun tok mem => h tok (subset mem)

namespace Parse

theorem stringValue_inCompass {text : Text} (full : text ≠ []) :
    stringValue .compass text = stringValue .native text := by
  simp [stringValue, full]

/-- Strings that are not empty have the same values in both dialects. -/
def nonempty : Readings .native .compass where
  token tok := tok.string? ≠ some []
  string full lexeme := stringValue_inCompass fun empty => full (by rw [Token.string?, lexeme, empty])

open Token (NoEmpty)

/-- Two readers read the same from tokens without empty strings, and leave such tokens. -/
def Agree (r r' : Reader) : Prop :=
  ∀ toks, NoEmpty toks → r' toks = r toks ∧ ∀ e rest, r toks = .ok (e, rest) → NoEmpty rest

theorem chains_agree (depth : Nat) : Agree (chains (operand .native depth)) (chains (operand .compass depth)) := by
  intro toks full
  obtain ⟨same, holds⟩ := Readings.chains (k := nonempty) (Readings.operand depth) toks full
  refine ⟨same, fun e rest read => ?_⟩
  rw [read] at holds
  exact holds.2

end Parse

namespace Program

open Token (NoEmpty)

variable (s : Settings) (native : s.dialect = .native) (owner : Text) {toks : List Token}
include native

theorem expr_inCompass (full : NoEmpty toks) : expr s.inCompass owner toks = expr s owner toks := by
  have qualified : NoEmpty (toks.map (qualifyToken owner)) := by
    intro tok mem
    obtain ⟨tok, known, rfl⟩ := List.mem_map.1 mem
    have kept : (qualifyToken owner tok).string? = tok.string? := by
      unfold qualifyToken
      split
      next lexeme => simp [Token.string?, lexeme]
      · rfl
    rw [kept]
    exact full tok known
  have dialect : s.inCompass.dialect = .compass := rfl
  rw [expr, expr, native, dialect, Expr.parse, Expr.parse, (Parse.chains_agree _ _ qualified).1]

/-- **Tokens without an empty string are read alike in both dialects.** -/
theorem readsAlike_inCompass (full : NoEmpty toks) : ReadsAlike s.inCompass s owner owner toks :=
  ⟨fun _ within => expr_inCompass s native owner (full.mono within), fun _ _ _ _ => rfl, .inr full⟩

end Program

/-! ## Edits -/

def Fault.isCompassOnly (fault : Fault) : Bool := fault.cause? == some .compassOnly

/-- The edit reports that something belongs to the Compass dialect. -/
def Edit.isCompassOnly : Edit → Bool
  | fail _ fault => fault.isCompassOnly
  | _ => false

/-- It is neither a word with an `@` nor an empty string. -/
def Lexeme.Neutral : Lexeme → Prop
  | word text _ => '@'.toUInt8 ∉ text
  | string text => text ≠ []
  | number _ _ | sign _ => True

instance : DecidablePred Lexeme.Neutral
  | .word _ _ => inferInstanceAs (Decidable (_ ∉ _))
  | .string _ => inferInstanceAs (Decidable (_ ≠ _))
  | .number _ _ | .sign _ => .isTrue trivial

/-- No word of the line has an `@`, and no string is empty. -/
def Line.Neutral (ln : Line) : Prop := ∀ tok ∈ ln.tokens, tok.lexeme.Neutral

instance (ln : Line) : Decidable ln.Neutral := inferInstanceAs (Decidable (∀ tok ∈ ln.tokens, _))

namespace Line.Neutral
variable {ln : Line}

theorem not_mem (h : ln.Neutral) {tok : Token} (mem : tok ∈ ln.tokens) {word : Text} (isWord : tok.word? = some word) :
    '@'.toUInt8 ∉ word := by
  obtain ⟨role, lexeme⟩ := Token.word?_eq_some isWord
  have neutral := h tok mem
  rwa [lexeme] at neutral

theorem compassWord? (h : ln.Neutral) : Token.compassWord? ln.tokens = none := by
  rw [Token.compassWord?, List.find?_eq_none]
  intro word mem
  obtain ⟨tok, known, isWord⟩ := List.mem_filterMap.1 mem
  simpa using h.not_mem known isWord

theorem noEmpty (h : ln.Neutral) : Token.NoEmpty ln.tokens := by
  intro tok mem empty
  have neutral := h tok mem
  unfold Token.string? at empty
  split at empty
  next lexeme =>
    cases empty
    rw [lexeme] at neutral
    exact neutral rfl
  · cases empty

end Line.Neutral

namespace Program

open Token (NoEmpty)

/-- **A neutral line makes the same edits in both dialects**, unless the native one reports its directive. -/
theorem edits_inCompass (s : Settings) (native : s.dialect = .native) (owner : Text) (seq : Nat) {ln : Line}
    (neutral : ln.Neutral) (allowed : ∀ e ∈ edits s owner seq ln, e.isCompassOnly = false) :
    edits s.inCompass owner seq ln = edits s owner seq ln := by
  have becomes := edits_becomes s owner seq ln
  generalize edits s owner seq ln = es at becomes allowed
  refine Becomes.edits_eq ?_
  cases becomes with
  | lexical wrong => exact .lexical wrong
  | label lexical isLabel wrong => exact .label lexical isLabel wrong
  | script labelled isScript => exact .script labelled isScript
  | foreign _ _ _ isWord => cases isWord.symm.trans neutral.compassWord?
  | body labelled noScript noWord =>
    have full : NoEmpty (Token.body ln.tokens) := neutral.noEmpty.mono (Token.splitLabel_subset rfl).2
    have order : s.inCompass.popsReversed = s.popsReversed := by
      simp [Settings.popsReversed, Settings.inCompass, native]
    have same := (readsAlike_inCompass s native (ownerAfter owner ln) full).bodyEdits (lineNode owner seq ln) order
      s.find_inCompass fun d known isWord => ?_
    · exact same ▸ .body labelled noScript nofun
    generalize Token.body ln.tokens = toks at allowed isWord
    cases toks with
    | nil => cases isWord
    | cons head rest =>
      have isWord : head.isDirective d = true := by simpa using isWord
      unfold Token.isDirective at isWord
      split at isWord
      next lexeme =>
        simp only [bodyEdits, lexeme, eq_of_beq isWord] at allowed
        have reported : .fail ln.pos (.about .compassOnly d.name) ∈
            directiveEdits s (ownerAfter owner ln) (lineNode owner seq ln) d rest := by
          simp only [List.mem_cons, List.not_mem_nil, or_false] at known
          rcases known with rfl | rfl <;> simp [directiveEdits, compassOnlyEdits, native, lineNode]
        cases allowed _ reported
      · cases isWord

end Program

end Z80Asm
