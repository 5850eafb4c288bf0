import Z80Asm.Proofs.SkippedRows
import Z80Asm.Proofs.SplitPlaces
import Z80Asm.Proofs.UnrolledBlocks

/-!
# Lines that are written out

Lines without local names become the same statements wherever they stand.  So copies of such lines become the body
of a repetition, written out, at other places.
-/

namespace Z80Asm

open Token List

variable {copies : List (List Line)} {seq seq' : Nat} {S : Numbering} {skips : Prop} {st : Building}

theorem Parses.replicate {es : List Edit} {xs : List Statement} (h : Parses es xs) (n : Nat) :
    Parses (List.replicate n es).flatten (List.replicate n xs).flatten := by
  induction n with
  | zero => exact .nil
  | succ n ih =>
    rw [replicate_succ, replicate_succ, flatten_cons, flatten_cons]
    exact h.append ih

/-- A line without label that starts with a directive and goes on with these lexemes. -/
structure Line.Directs (d : Directive) (args : List Lexeme) (ln : Line) : Prop where
  fault : ln.fault = none
  script : ln.script = none
  spelled : ∃ word, ln.tokens.map (·.lexeme) = .word word (.directive d) :: args
  native : Token.compassWord? ln.tokens = none

/-- A program in which the body of a repetition is written out, at other places. -/
inductive Statement.Unrolled (count : Int64) (n : Nat) (program program' : List Statement) : Prop
  | intro {node : Node} {body mid : List Statement} {T : Numbering} (label : node.label = none) (filled : body ≠ [])
      (swap : Swapped True [.repeated node (.num count) body] (List.replicate n body).flatten program mid)
      (known : T (-1) (-1)) (splits : ∀ h ∈ flattenAll mid, h.Splits T) (placed : AllPlaced T False mid program')

open Statement (Unrolled)

namespace Program
variable {s : Settings} {ln : Line} {ls ls' : List Line}

/-! ## Lines without local names -/

/-- The owner of local names after a line without them is the one before it, or is set by the line. -/
theorem ownerAfter_of_noLocals (noLocals : ∀ tok ∈ ln.tokens, tok.isLocal = false) :
    (∀ owner, ownerAfter owner ln = owner) ∨ ∃ name, ∀ owner, ownerAfter owner ln = name := by
  unfold ownerAfter
  cases ln.fault with
  | some fault => exact .inl fun _ => rfl
  | none =>
    rcases split : splitLabel ln.tokens with ⟨_ | label, toks⟩
    · exact .inl fun _ => rfl
    · obtain ⟨mem, isWord⟩ := (splitLabel_subset split).1 label rfl
      have plain : label.text.head? ≠ some '.'.toUInt8 := by
        simpa [isLocal, isWord] using noLocals label mem
      simp only [labelName, beq_iff_eq, plain, if_false]
      split
      · exact .inl fun _ => rfl
      split
      · exact .inl fun _ => rfl
      split
      · exact .inl fun _ => rfl
      · exact .inr ⟨label.text, fun _ => rfl⟩

theorem ownerAfterAll_of_noLocals (noLocals : ∀ ln ∈ ls, ∀ tok ∈ ln.tokens, tok.isLocal = false) :
    (∀ owner, ownerAfterAll owner ls = owner) ∨ ∃ name, ∀ owner, ownerAfterAll owner ls = name := by
  induction ls with
  | nil => exact .inl fun _ => rfl
  | cons ln rest ih =>
    rw [forall_mem_cons] at noLocals
    rcases ih noLocals.2 with kept | ⟨name, set⟩
    · rcases ownerAfter_of_noLocals noLocals.1 with kept' | ⟨name, set⟩
      · exact .inl fun owner => (kept _).trans (kept' owner)
      · exact .inr ⟨name, fun owner => (kept _).trans (set owner)⟩
    · exact .inr ⟨name, fun owner => set _⟩

theorem ownerAfterAll_moved (pieces : Pieces (fun _ _ => False) ls ls') (owner : Text) :
    ownerAfterAll owner ls' = ownerAfterAll owner ls := by
  induction pieces generalizing owner with
  | nil => rfl
  | keep moved _ ih =>
    rw [ownerAfterAll, ownerAfterAll, foldl_cons, foldl_cons, ownerAfter_moved moved]
    exact ih _
  | replace never => exact never.elim

section
variable (noLocals : ∀ ln ∈ ls, ∀ tok ∈ ln.tokens, tok.isLocal = false)
include noLocals

theorem ownerAfterAll_copies (each : ∀ copy ∈ copies, Pieces (fun _ _ => False) ls copy) (some : copies ≠ [])
    (owner : Text) : ownerAfterAll owner copies.flatten = ownerAfterAll owner ls := by
  have again (owner : Text) : ownerAfterAll (ownerAfterAll owner ls) ls = ownerAfterAll owner ls := by
    rcases ownerAfterAll_of_noLocals noLocals with kept | ⟨name, set⟩
    · exact kept _
    · rw [set, set]
  induction copies generalizing owner with
  | nil => exact absurd rfl some
  | cons copy rest ih =>
    rw [forall_mem_cons] at each
    have here : ownerAfterAll owner (copy :: rest).flatten = ownerAfterAll (ownerAfterAll owner ls) rest.flatten := by
      rw [flatten_cons, ← ownerAfterAll_moved each.1]
      exact foldl_append
    rw [here]
    cases rest with
    | nil => rfl
    | cons => rw [ih each.2 (cons_ne_nil _ _), again]

/-- **Lines without local names make the same edits** at other places. -/
theorem allEdits_moved (pieces : Pieces (fun _ _ => False) ls ls') (owner owner' : Text)
    (known : ∀ a a' : Nat, seq < a → a ≤ seq + ls.length → seq' < a' → a' ≤ seq' + ls'.length → S a a') :
    Forall₂ (Edit.Placed S skips) (allEdits s owner seq ls) (allEdits s owner' seq' ls') := by
  induction pieces generalizing owner owner' seq seq' with
  | nil => exact .nil
  | @keep ln ln' moved rest rest' _ ih =>
    rw [forall_mem_cons] at noLocals
    rw [length_cons, length_cons] at known
    rw [allEdits, allEdits, edits_of_noLocals noLocals.1 owner owner']
    refine rel_append (edits_placed moved owner' (known _ _ ?_ ?_ ?_ ?_)) (ih noLocals.2 _ _ ?_)
    all_goals try omega
    intro a a' lo hi lo' hi'
    exact known a a' (by omega) (by omega) (by omega) (by omega)
  | replace never => exact never.elim

theorem allEdits_copies (each : ∀ copy ∈ copies, Pieces (fun _ _ => False) ls copy) (owner owner' : Text)
    (known : ∀ a a' : Nat, seq < a → a ≤ seq + ls.length → seq' < a' → a' ≤ seq' + copies.flatten.length → S a a') :
    Forall₂ (Edit.Placed S skips) (List.replicate copies.length (allEdits s owner seq ls)).flatten
      (allEdits s owner' seq' copies.flatten) := by
  induction copies generalizing owner' seq' with
  | nil => exact .nil
  | cons copy rest ih =>
    rw [forall_mem_cons] at each
    rw [flatten_cons, length_append] at known
    rw [length_cons, replicate_succ, flatten_cons, flatten_cons, allEdits_append]
    refine rel_append (allEdits_moved noLocals each.1 owner owner' fun a a' lo hi lo' hi' => ?_)
      (ih each.2 _ fun a a' lo hi lo' hi' => ?_)
    · exact known a a' lo hi lo' (by omega)
    · exact known a a' lo hi (by omega) (by omega)

end

/-! ## Lines without tests for definitions -/

/-- The edit is no test for a definition. -/
def Untested (e : Edit) : Prop := ∀ h ∈ e.added?, ∀ S, h.Splits S

theorem untested_act (node : Node) (action : Action) : ∀ e ∈ [Edit.act node action], Untested e := by
  rintro _ (_ | ⟨_, ⟨⟩⟩) _ ⟨⟩ S
  trivial

theorem untested_body {toks : List Token} (owner : Text) (node : Node)
    (noTest : ∀ d ∈ [Directive.ifdef, .ifndef], toks.head?.any (·.isDirective d) = false) :
    ∀ e ∈ bodyEdits s owner node toks, Untested e := by
  intro e mem h adds S
  cases forall₂_same.1 (@bodyEdits_wrote s owner node node rfl rfl toks).each e mem with
  | act | further | equate | choose | repeated =>
    cases adds
    trivial
  | defined opens =>
    obtain ⟨d, known, here⟩ := opens
    cases here.symm.trans (noTest d known)
  | divide | close | fail | abort => cases adds

/-- **A line without ` ifdef` and ` ifndef` is no test for a definition.** -/
theorem untested_edits (noTest : ∀ d ∈ [Directive.ifdef, .ifndef], bodyIs d ln.tokens = false) (owner : Text)
    (seq : Nat) : ∀ e ∈ edits s owner seq ln, Untested e := by
  have becomes := edits_becomes s owner seq ln
  generalize edits s owner seq ln = es at becomes
  cases becomes with
  | lexical | label | script | foreign => exact untested_act _ _
  | body => exact untested_body _ _ noTest

theorem allEdits_numbers (owner : Text) (seq : Nat) (ls : List Line) :
    ∀ e ∈ allEdits s owner seq ls, ∀ h ∈ e.added?, h.node.seq ≤ seq + ls.length := by
  induction ls generalizing owner seq with
  | nil => exact fun _ mem => nomatch mem
  | cons ln rest ih =>
    rw [allEdits, forall_mem_append, length_cons]
    refine ⟨fun e mem h added => ?_, fun e mem h added => ?_⟩
    · have number : h.node.seq = seq + 1 := (edits_stem s owner (seq + 1) ln e mem h added).1.seq
      omega
    · have bound := ih _ _ e mem h added
      omega

theorem allEdits_untested (noTests : ∀ ln ∈ ls, ∀ d ∈ [Directive.ifdef, .ifndef], bodyIs d ln.tokens = false)
    (owner : Text) (seq : Nat) : ∀ e ∈ allEdits s owner seq ls, Untested e := by
  induction ls generalizing owner seq with
  | nil => exact fun _ mem => nomatch mem
  | cons ln rest ih =>
    rw [forall_mem_cons] at noTests
    exact forall_mem_append.2 ⟨untested_edits noTests.1 _ _, ih noTests.2 _ _⟩

/-! ## Lines that may be repeated -/

/-- Lines without local names and tests for definitions, which are built without reports to some statements. -/
structure Repeatable (s : Settings) (ls : List Line) : Prop where
  locals : ∀ ln ∈ ls, ∀ tok ∈ ln.tokens, tok.isLocal = false
  tests : ∀ ln ∈ ls, ∀ d ∈ [Directive.ifdef, .ifndef], Token.bodyIs d ln.tokens = false
  whole : (build s ls).fatal = none
  quiet : (build s ls).diagnostics = #[]
  filled : (build s ls).program ≠ []

theorem exists_parses_of_quiet (whole : (build s ls).fatal = none) (quiet : (build s ls).diagnostics = #[]) :
    Parses (allEdits s [] 0 ls) (build s ls).program ∧ (allEdits s [] 0 ls).filterMap Edit.report? = [] := by
  obtain ⟨going, made⟩ := build_eq whole
  have nested : (build s ls).WellNested := by simp [Building.WellNested, quiet]
  obtain ⟨closed, nested⟩ := wellNested_finish (made ▸ nested)
  have start : OpenBlocks ({} : Building).blocks [] := .nil .nil
  obtain ⟨xs, parses⟩ : ∃ xs, Parses (allEdits s [] 0 ls) xs := by
    cases show OpenBlocks [] _ from closed ▸ start.editAll nested with
    | nil balanced => exact balanced.exists_parses rfl going
  rw [made, finish_of_parses parses] at quiet
  rw [made, finish_of_parses parses, Building.program, reverse_reverse]
  exact ⟨parses, by simpa using quiet⟩

/-- **Lines that may be repeated spell a tree** wherever they stand. -/
theorem Repeatable.exists_parses (h : Repeatable s ls) (owner : Text) (seq : Nat) :
    ∃ xs, xs ≠ [] ∧ Parses (allEdits s owner seq ls) xs ∧ (allEdits s owner seq ls).filterMap Edit.report? = [] := by
  obtain ⟨parses, quiet⟩ := exists_parses_of_quiet h.whole h.quiet
  have placed : Forall₂ (Edit.Placed (fun _ _ => True) False) (allEdits s [] 0 ls) (allEdits s owner seq ls) :=
    allEdits_moved h.locals (.refl ls) [] owner fun _ _ _ _ _ _ => trivial
  obtain ⟨xs, parses', same⟩ := parses.placed placed
  refine ⟨xs, ?_, parses', Edit.reports_placed placed quiet⟩
  rintro rfl
  cases none : (build s ls).program with
  | nil => exact h.filled none
  | cons => 
    rw [none] at same
    cases same

/-! ## Repetitions -/

section
variable {d : Directive} {args : List Lexeme} (h : ln.Directs d args)
  (unlabelled : args.head? ≠ some (.sign .colon))
include h unlabelled

theorem splitLabel_of_directs : ∃ word head toks, head.lexeme = .word word (.directive d) ∧
    toks.map (·.lexeme) = args ∧ splitLabel ln.tokens = (none, head :: toks) := by
  obtain ⟨word, spelled⟩ := h.spelled
  obtain ⟨head, toks, tokens, lexeme, rfl⟩ := map_eq_cons_iff.1 spelled
  refine ⟨word, head, toks, lexeme, rfl, ?_⟩
  rw [tokens]
  cases toks with
  | nil => simp [splitLabel, isName, lexeme]
  | cons second rest =>
    have other : second.isSign .colon = false := by simpa [isSign] using unlabelled
    simp [splitLabel, isName, lexeme, other]

theorem bodyIs_of_directs {d' : Directive} (other : d' ≠ d) : bodyIs d' ln.tokens = false := by
  obtain ⟨word, head, toks, lexeme, -, split⟩ := splitLabel_of_directs h unlabelled
  simpa [bodyIs, Token.body, split, isDirective, lexeme] using other.symm

theorem edits_of_directs :
    ∃ toks, toks.map (·.lexeme) = args ∧ ∀ owner, ownerAfter owner ln = owner ∧
      ∀ seq, edits s owner seq ln = directiveEdits s owner { seq, pos := ln.pos, text := ln.text } d toks := by
  obtain ⟨word, head, toks, lexeme, spelled, split⟩ := splitLabel_of_directs h unlabelled
  refine ⟨toks, spelled, fun owner => ⟨by simp only [ownerAfter, h.fault, split], fun seq => ?_⟩⟩
  simp only [edits, h.fault, split, labelledEdits, h.script, h.native, ite_self, bodyEdits, lexeme]

end

section
variable {head tail : Line} {count : Int64} {number : Text} (repeatable : Repeatable s ls)
  (opens : head.Directs .rept [.number number count]) (closes : tail.Directs .endr [])
include repeatable opens closes

/-- **A repetition of such lines becomes one statement.** -/
theorem lines_rolled (going : st.fatal = none) :
    ∃ node xs, node.label = none ∧ xs ≠ [] ∧ Parses (allEdits s st.owner (st.seq + 1) ls) xs ∧
      (allEdits s st.owner (st.seq + 1) ls).filterMap Edit.report? = [] ∧
      lines s (head :: (ls ++ [tail])) st =
        (st.add (.repeated node (.num count) xs)).atLine (st.seq + (ls.length + 2)) (ownerAfterAll st.owner ls) := by
  obtain ⟨xs, some, parses, quiet⟩ := repeatable.exists_parses st.owner (st.seq + 1)
  obtain ⟨toks, spelled, opened⟩ := edits_of_directs (s := s) opens (by simp)
  obtain ⟨none, spelled', closed⟩ := edits_of_directs (s := s) closes (by simp)
  obtain ⟨tok, rfl, isNumber⟩ : ∃ tok, toks = [tok] ∧ tok.lexeme = .number number count := by
    simpa [map_eq_cons_iff] using spelled
  obtain rfl : none = [] := by simpa using spelled'
  have counted : expr s st.owner [tok] = .ok (.num count) := by
    have isNumber' : (qualifyToken st.owner tok).lexeme = .number number count := by
      rw [lexeme_qualifyToken, isNumber]
    rw [expr, Expr.parse_eq_ok_iff]
    exact (Parse.Derives.number isNumber').loosen (Nat.zero_le _) (Nat.le_refl _)
  let node : Node := { seq := st.seq + 1, pos := head.pos, text := head.text }
  have edits : allEdits s st.owner st.seq (head :: (ls ++ [tail])) =
      .repeated node (.num count) :: (allEdits s st.owner (st.seq + 1) ls ++ [.close tail.pos true]) := by
    rw [allEdits, (opened st.owner).2, (opened st.owner).1, allEdits_append, allEdits, allEdits, (closed _).2,
      directiveEdits, enterReptEdits, headEdits, counted]
    rfl
  have owner : ownerAfterAll st.owner (head :: (ls ++ [tail])) = ownerAfterAll st.owner ls := by
    rw [ownerAfterAll, foldl_cons, (opened st.owner).1, foldl_append, foldl_cons, foldl_nil, (closed _).1]
    rfl
  have whole : Parses (allEdits s st.owner st.seq (head :: (ls ++ [tail]))) [.repeated node (.num count) xs] := by
    rw [edits]
    exact .repeated node _ _ parses
  have silent : (allEdits s st.owner st.seq (head :: (ls ++ [tail]))).filterMap Edit.report? = [] := by
    rw [edits, filterMap_cons_none rfl, filterMap_append, quiet]
    rfl
  refine ⟨node, xs, rfl, some, parses, quiet, ?_⟩
  rw [lines_eq _ _ (lines_going going whole.going), whole.editAll_eq, silent, Building.noting_nil, owner]
  simp [Building.addAll]

/-- **Copies of such lines become the body of the repetition, written out**, at other places. -/
theorem lines_unrolled {T : Numbering} (going : st.fatal = none) (split : st.Split T st)
    (each : ∀ copy ∈ copies, Pieces (fun _ _ => False) ls copy) (some : copies ≠ []) :
    ∃ (node : Node) (xs : List Statement) (mid : Building) (U : Numbering), node.label = none ∧ xs ≠ [] ∧
      (∀ a a', T a a' → U a a') ∧
      (lines s (head :: (ls ++ [tail])) st).Swapped True [.repeated node (.num count) xs]
        (List.replicate copies.length xs).flatten mid ∧
      mid.fatal = none ∧ mid.Split U (lines s copies.flatten st) := by
  obtain ⟨node, xs, label, filled, parses, quiet, rolled⟩ := lines_rolled repeatable opens closes going
  have all := parses.replicate copies.length
  have silent : (List.replicate copies.length (allEdits s st.owner (st.seq + 1) ls)).flatten.filterMap
      Edit.report? = [] := by
    simp only [filterMap_eq_nil_iff, mem_flatten, mem_replicate] at quiet ⊢
    rintro e ⟨_, ⟨-, rfl⟩, mem⟩
    exact quiet e mem
  have added : st.editAll (List.replicate copies.length (allEdits s st.owner (st.seq + 1) ls)).flatten =
      st.addAll (List.replicate copies.length xs).flatten := by
    rw [all.editAll_eq, silent, Building.noting_nil]
  have members {e : Edit} (mem : e ∈ (List.replicate copies.length (allEdits s st.owner (st.seq + 1) ls)).flatten) :
      e ∈ allEdits s st.owner (st.seq + 1) ls := by
    obtain ⟨_, same, mem⟩ := mem_flatten.1 mem
    rwa [(mem_replicate.1 same).2] at mem
  have placed {S : Numbering} (known : ∀ a a' : Nat, st.seq < a → a ≤ st.seq + (ls.length + 2) → st.seq < a' →
      a' ≤ st.seq + copies.flatten.length → S a a') :
      Forall₂ (Edit.Placed S False)
        (List.replicate copies.length (allEdits s st.owner (st.seq + 1) ls)).flatten
        (allEdits s st.owner st.seq copies.flatten) :=
    allEdits_copies repeatable.locals each st.owner st.owner fun a a' lo hi lo' hi' =>
      known a a' (by omega) (by omega) lo' hi'
  obtain ⟨U, le, mid⟩ := split.editAll (Nat.le_add_right _ _) (Nat.le_add_right _ _) placed
    (fun e mem h added => by
      have bound := allEdits_numbers _ _ _ e (members mem) h added
      omega)
    (fun e mem => allEdits_untested repeatable.tests _ _ e (members mem)) (ownerAfterAll st.owner ls)
  obtain ⟨_, copied, -⟩ := all.placed (placed (S := fun _ _ => True) fun _ _ _ _ _ _ => trivial)
  have unrolled := lines_eq copies.flatten st (lines_going going copied.going)
  rw [ownerAfterAll_copies repeatable.locals each some] at unrolled
  rw [added, ← unrolled] at mid
  refine ⟨node, xs, _, U, label, filled, le, ?_, ?_, mid⟩
  · rw [rolled]
    exact (Building.Swapped.addAll st fun _ _ _ => trivial).atLine _ _
  · rw [← added]
    exact (Building.editAll_fatal st all.going).trans going

/-! ## Programs -/

/-- **The programs with a repetition and with its copies**, among the same other lines. -/
theorem build_unrolled {front rest rest' : List Line} (pieces : Pieces (fun _ _ => False) rest rest')
    (each : ∀ copy ∈ copies, Pieces (fun _ _ => False) ls copy) (some : copies ≠ []) {b b' : Building}
    (rolled : build s (front ++ (head :: (ls ++ [tail]) ++ rest)) = b)
    (unrolled : build s (front ++ (copies.flatten ++ rest')) = b') :
    b'.fatal = b.fatal ∧ Diagnostics.severities b'.diagnostics.toList = Diagnostics.severities b.diagnostics.toList ∧
      (b.fatal = none → Unrolled count copies.length b.program b'.program) := by
  subst rolled unrolled
  have start : Building.Split (fun a a' => a = -1 ∧ a' = -1) {} {} := by
    refine ⟨⟨rfl, .nil, .nil, rfl, rfl⟩, ?_, fun _ mem => (nomatch mem), fun _ mem => (nomatch mem)⟩
    rintro _ _ ⟨rfl, rfl⟩
    simp
  obtain ⟨T, le, split⟩ := start.lines (s := s) (.refl front)
  by_cases early : (lines s front {}).fatal.isSome
  · have same (more : List Line) : build s (front ++ more) = lines s front {} := by
      rw [build, lines_append rfl, if_pos early]
      exact if_pos early
    rw [same, same]
    exact ⟨rfl, rfl, fun none => by simp [none] at early⟩
  · have going : (lines s front {}).fatal = none := by simpa using early
    obtain ⟨node, xs, mid, U, label, filled, le', swap, going', split⟩ :=
      lines_unrolled repeatable opens closes going split each some
    have parts (inside behind : List Line) (whole : (lines s inside (lines s front {})).fatal = none) :
        lines s (front ++ (inside ++ behind)) {} = lines s behind (lines s inside (lines s front {})) := by
      rw [lines_append rfl, if_neg early, lines_append going, if_neg (by simp [whole])]
    rw [build, build, parts _ _ (split.placed.fatal.trans going'), parts _ _ (swap.same.2.2.2.symm.trans going')]
    have swap := swap.lines s rest
    obtain ⟨V, le'', split⟩ := split.lines (s := s) pieces
    rw [split.placed.fatal, swap.same.2.2.2]
    split
    next ended =>
      refine ⟨split.placed.fatal.trans swap.same.2.2.2, ?_, fun none => by simp [none] at ended⟩
      rw [split.placed.diagnostics, swap.same.2.2.1]
    next =>
      have splits := split.splits
      rw [← flatten_finish] at splits
      have fatal := split.placed.fatal.trans swap.same.2.2.2
      have placed := split.placed.finish
      obtain ⟨diagnostics, swap⟩ := swap.finish
      refine ⟨by rw [finish_fatal, finish_fatal, fatal], by rw [placed.diagnostics, diagnostics], fun _ => ?_⟩
      exact ⟨label, filled, swap, le'' _ _ (le' _ _ (le _ _ ⟨rfl, rfl⟩)), splits, placed.root.reverse⟩

end

end Program

/-! ## Runs -/

theorem Result.Same.trans {a b c : Result} (h : a.Same b) (g : b.Same c) : a.Same c where
  state := g.state.trans h.state
  fault := g.fault.trans h.fault
  passes := g.passes.trans h.passes
  code := g.code.trans h.code
  symbols := by
    have first := h.symbols
    have second := g.symbols
    generalize a.symbols = x, b.symbols = y, c.symbols = z at first second
    cases first with
    | none =>
      cases second
      exact .none
    | some first =>
      cases second with
      | some second => exact .some fun name => Table.agreeOn_trans (first name) (second name)
  errors := g.errors.trans h.errors
  warnings := g.warnings.trans h.warnings

namespace Outcome
variable {o o' o'' : Outcome}

theorem Same.refl (o : Outcome) : o.Same o := by
  cases o with
  | outOfBounds => exact .outOfBounds
  | finished a =>
    refine .finished ⟨rfl, rfl, rfl, rfl, ?_, rfl, rfl⟩
    cases a.symbols with
    | none => exact .none
    | some t => exact .some fun name => Table.agreeOn_iff.2 rfl

theorem Same.passes_eq (h : o.Same o') : o'.passes = o.passes := by
  cases h with
  | finished h => exact h.passes
  | outOfBounds => rfl

theorem Same.trans (h : o.Same o') (g : o'.Same o'') : o.Same o'' := by
  cases h with
  | finished h =>
    cases g with
    | finished g => exact .finished (h.trans g)
  | outOfBounds => exact g

theorem Close.trans_same (h : o.Close o') (g : o'.Same o'') : o.Close o'' := by
  obtain ⟨agree, more, fewer⟩ := h
  cases agree with
  | finished h =>
    cases g with
    | finished g =>
      refine ⟨.finished (h.trans { g with passes := rfl }), ?_, ?_⟩
      · exact Nat.le_trans (Nat.le_of_eq g.passes) more
      · exact Nat.le_trans fewer (Nat.succ_le_succ (Nat.le_of_eq g.passes.symm))
  | outOfBounds =>
    cases g
    exact ⟨.outOfBounds, more, fewer⟩

end Outcome

namespace Assembly
variable {s : Settings} {count : Int64} {n : Nat} {program program' : List Statement} {found found' : Diagnostics}

theorem passesOver_unrolled (h : Statement.Unrolled count n program program') (repeated : 0 < n)
    (fits : Cpu.misfit? count 0 repeatLimit true = none) (times : count.toInt.toNat = n)
    (reports : found'.severities = found.severities) :
    (LaterTurnsSettle s program →
        Outcome.Close (passesOver s neverCancelled found program) (passesOver s neverCancelled found' program')) ∧
      (TurnsKept s program →
        Outcome.Same (passesOver s neverCancelled found program) (passesOver s neverCancelled found' program')) := by
  obtain ⟨label, filled, swap, known, splits, placed⟩ := h
  have rolled : Walk.Rolled _ count n := ⟨label, fits, times⟩
  have moved := passesOver_of_splits splits known (s := s) rfl rfl placed neverCancelled reports
  exact ⟨fun settles => (passesOver_unrolled_close rolled repeated filled swap rfl settles).trans_same moved,
    fun kept => (passesOver_unrolled_same rolled repeated filled swap rfl kept).trans moved⟩

end Assembly

end Z80Asm
