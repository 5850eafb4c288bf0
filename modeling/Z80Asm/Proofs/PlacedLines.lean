import Z80Asm.Proofs.Edits
import Z80Asm.Proofs.Placement

/-!
# Lines at other places

A line that is moved to another row, or to another place among the lines, becomes the same statements at
other places.  Lines that are built alike are put together piece by piece.
-/

namespace Z80Asm

open List

variable {ln ln' : Line} {n n' : Nat} {S T : Numbering} {node node' : Node}

/-! ## Statements -/

theorem Node.Placed.mono (le : ∀ a a', S a a' → T a a') (h : node.Placed S node') :
    node.Placed T node' := ⟨h.label, h.file, le _ _ h.seq⟩

theorem Node.Placed.unlabelled (h : node.Placed S node') :
    Node.Placed S { node with label := none } { node' with label := none } := ⟨rfl, h.file, h.seq⟩

theorem Statement.placed_mono {skips : Prop} (le : ∀ a a', S a a' → T a a') :
    ∀ ss' {ss : List Statement}, AllPlaced S skips ss ss' → AllPlaced T skips ss ss' := by
  refine (tree_induction (P := fun s' => ∀ {s}, Placed S skips s s' → Placed T skips s s')
    (fun node' action s h => ?_) (fun node' test yes' no' yes_ih no_ih s h => ?_)
    (fun node' count body' ih s h => ?_) (fun {ss} h => ?_) (fun s' rest' s_ih ih {ss} h => ?_)).2
  · cases h with
    | act h => exact .act (h.mono le) _
    | instruction label label' => exact .instruction label label' _ _
  · cases h with
    | choose h _ yes no => exact .choose (h.mono le) _ (yes_ih yes) (no_ih no)
  · cases h with
    | repeated h _ body => exact .repeated (h.mono le) _ (ih body)
  · cases h
    exact .nil
  · cases h with
    | cons first others => exact .cons (s_ih first) (ih others)
    | skip allowed untaken others => exact .skip allowed untaken (ih others)

inductive Block.Placed (S : Numbering) (skips : Prop) : Block → Block → Prop
  | choose {node node' : Node} (h : node.Placed S node') (test : Test) {yes yes' : List Statement}
      {no no' : Option (List Statement)} (yes_placed : Statement.AllPlaced S skips yes yes')
      (no_placed : Option.Rel (Statement.AllPlaced S skips) no no') :
      Placed S skips (.choose node test yes no) (.choose node' test yes' no')
  | repeated {node node' : Node} (h : node.Placed S node') (count : Expr) {body body' : List Statement}
      (placed : Statement.AllPlaced S skips body body') :
      Placed S skips (.repeated node count body) (.repeated node' count body')

namespace Block.Placed
variable {skips : Prop} {block block' : Block}

theorem mono (le : ∀ a a', S a a' → T a a') (h : block.Placed S skips block') : block.Placed T skips block' := by
  cases h with
  | choose h test yes no =>
    refine .choose (h.mono le) test (Statement.placed_mono le _ yes) ?_
    cases no with
    | none => exact .none
    | some no => exact .some (Statement.placed_mono le _ no)
  | repeated h count body => exact .repeated (h.mono le) count (Statement.placed_mono le _ body)

theorem add (h : block.Placed S skips block') {s s' : Statement} (placed : s.Placed S skips s') :
    (block.add s).Placed S skips (block'.add s') := by
  cases h with
  | choose h test yes no =>
    cases no with
    | none => exact .choose h test (.cons placed yes) .none
    | some no => exact .choose h test yes (.some (.cons placed no))
  | repeated h count body => exact .repeated h count (.cons placed body)

theorem close (h : block.Placed S skips block') : block.close.Placed S skips block'.close := by
  cases h with
  | choose h test yes no =>
    refine .choose h test yes.reverse ?_
    cases no with
    | none => exact .nil
    | some no => exact no.reverse
  | repeated h count body => exact .repeated h count body.reverse

theorem isRepeated (h : block.Placed S skips block') : block'.isRepeated = block.isRepeated := by
  cases h <;> rfl

end Block.Placed

/-! ## Edits -/

inductive Edit.Placed (S : Numbering) (skips : Prop) : Edit → Edit → Prop
  | act {node node' : Node} {action action' : Action}
      (h : (Statement.act node action).Placed S skips (.act node' action')) :
      Placed S skips (.act node action) (.act node' action')
  | choose {node node' : Node} (h : node.Placed S node') (test : Test) :
      Placed S skips (.choose node test) (.choose node' test)
  | repeated {node node' : Node} (h : node.Placed S node') (count : Expr) :
      Placed S skips (.repeated node count) (.repeated node' count)
  | divide (pos pos' : Pos) : Placed S skips (.divide pos) (.divide pos')
  | close (pos pos' : Pos) (repeated : Bool) : Placed S skips (.close pos repeated) (.close pos' repeated)
  | fail (pos pos' : Pos) (fault : Fault) : Placed S skips (.fail pos fault) (.fail pos' fault)
  | abort (pos pos' : Pos) (fault : Fault) : Placed S skips (.abort pos fault) (.abort pos' fault)

/-- A program built at other places, as far as it is built. -/
structure Building.Placed (S : Numbering) (skips : Prop) (st st' : Building) : Prop where
  owner : st'.owner = st.owner
  blocks : List.Forall₂ (Block.Placed S skips) st.blocks st'.blocks
  root : Statement.AllPlaced S skips st.root st'.root
  diagnostics : Diagnostics.severities st'.diagnostics.toList = Diagnostics.severities st.diagnostics.toList
  fatal : st'.fatal = st.fatal

namespace Building.Placed
variable {skips : Prop} {st st' : Building}

theorem mono (le : ∀ a a', S a a' → T a a') (h : st.Placed S skips st') : st.Placed T skips st' :=
  { h with
    blocks := h.blocks.imp fun _ _ h => h.mono le
    root := Statement.placed_mono le _ h.root }

section
variable (h : st.Placed S skips st')
include h

theorem add {s s' : Statement} (placed : s.Placed S skips s') : (st.add s).Placed S skips (st'.add s') := by
  obtain ⟨owner, blocks, root, diagnostics, fatal⟩ := h
  unfold Building.add
  generalize st.blocks = bs, st'.blocks = bs' at blocks
  cases blocks with
  | nil => exact ⟨owner, .nil, .cons placed root, diagnostics, fatal⟩
  | cons first others => exact ⟨owner, .cons (first.add placed) others, root, diagnostics, fatal⟩

section
variable (pos pos' : Pos) (fault fault' : Fault)

theorem fail : (st.fail pos fault).Placed S skips (st'.fail pos' fault') :=
  { h with
    diagnostics := by
      simpa [Building.fail, Diagnostics.severities, Diagnostic.of] using h.diagnostics }

theorem abort : (st.abort pos fault).Placed S skips (st'.abort pos' fault) :=
  { h with
    diagnostics := by
      simpa [Building.abort, Diagnostics.severities, Diagnostic.of] using h.diagnostics
    fatal := rfl }

theorem leave (repeated : Bool) (lonely : Cause) :
    (st.leave pos repeated lonely).Placed S skips (st'.leave pos' repeated lonely) := by
  unfold Building.leave
  have blocks := h.blocks
  generalize left : st.blocks = bs, right : st'.blocks = bs' at blocks
  cases blocks with
  | nil => exact h.fail ..
  | @cons _ _ rest rest' first others =>
    simp only [first.isRepeated]
    split
    · have closed : Placed S skips { st with blocks := rest } { st' with blocks := rest' } :=
        { h with blocks := others }
      exact closed.add first.close
    · exact h.fail ..

theorem divide : (st.divide pos).Placed S skips (st'.divide pos') := by
  unfold Building.divide
  have blocks := h.blocks
  generalize left : st.blocks = bs, right : st'.blocks = bs' at blocks
  cases blocks with
  | nil => exact h.fail ..
  | cons first others =>
    cases first with
    | repeated => exact h.fail ..
    | choose head test yes no =>
      cases no with
      | none => exact { h with blocks := .cons (.choose head test yes (.some .nil)) others }
      | some => exact h.fail ..

end

theorem edit {e e' : Edit} (placed : e.Placed S skips e') : (st.edit e).Placed S skips (st'.edit e') := by
  cases placed with
  | act placed => exact h.add placed
  | choose placed test => exact { h with blocks := .cons (.choose placed test .nil .none) h.blocks }
  | repeated placed count => exact { h with blocks := .cons (.repeated placed count .nil) h.blocks }
  | divide pos pos' => exact h.divide pos pos'
  | close pos pos' repeated => cases repeated <;> exact h.leave ..
  | fail => exact h.fail ..
  | abort => exact h.abort ..

theorem editAll {es es' : List Edit}
    (placed : Forall₂ (Edit.Placed S skips) es es') : (st.editAll es).Placed S skips (st'.editAll es') := by
  induction placed generalizing st st' with
  | nil => exact h
  | cons first _ ih => exact ih (h.edit first)

theorem atLine (seq seq' : Nat) (owner : Text) :
    (st.atLine seq owner).Placed S skips (st'.atLine seq' owner) := { h with owner := rfl }

end

theorem closeAll {bs bs' : List Block} (blocks : Forall₂ (Block.Placed S skips) bs bs')
    {root root' : List Statement} (outside : Statement.AllPlaced S skips root root') :
    ∀ {inner inner' : Option Statement}, Option.Rel (Statement.Placed S skips) inner inner' →
      Statement.AllPlaced S skips (Program.closeAll root inner bs) (Program.closeAll root' inner' bs') := by
  induction blocks with
  | nil =>
    intro inner inner' h
    cases h with
    | none => exact outside
    | some h => exact .cons h outside
  | cons first _ ih =>
    intro inner inner' h
    refine ih (.some ?_)
    cases h with
    | none => exact first.close
    | some h => exact (first.add h).close

theorem finish (h : st.Placed S skips st') : (Program.finish st).Placed S skips (Program.finish st') := by
  have reported : ∀ {bs bs' : List Block}, Forall₂ (Block.Placed S skips) bs bs' →
      ∀ {st st' : Building}, st.Placed S skips st' →
        (bs.foldl (fun st block => st.fail block.pos block.lonely) st).Placed S skips
          (bs'.foldl (fun st block => st.fail block.pos block.lonely) st') := by
    intro bs bs' blocks
    induction blocks with
    | nil => exact fun h => h
    | cons _ _ ih => exact fun h => ih (h.fail ..)
  exact { reported (rel_reverse h.blocks) h with
    blocks := .nil
    root := closeAll h.blocks h.root .none }

end Building.Placed

/-! ## Moved lines -/

/-- A line in another row: it holds the same, and stands in the same file. -/
structure Line.Moved (ln ln' : Line) : Prop where
  file : ln'.pos.file = ln.pos.file
  tokens : ln'.tokens = ln.tokens
  fault : ln'.fault = ln.fault
  script : ln'.script = ln.script

/-- The name of the binary file that a line takes a part of. -/
def Line.binary? (ln : Line) : Option Text :=
  match Token.body ln.tokens with
  | head :: args => if head.isDirective .incbin then some (Token.fileName args).1 else none
  | [] => none

def Settings.reading (s : Settings) (read : Text → Except Fault Text) : Settings := { s with read }

namespace Program
variable {skips : Prop} {s : Settings} {owner : Text}

theorem directiveEdits_reading (read : Text → Except Fault Text) (owner : Text) (node : Node)
    (d : Directive) (toks : List Token)
    (same : d = .incbin → (s.reading read).find (Token.fileName toks).1 node.pos.file =
      s.find (Token.fileName toks).1 node.pos.file) :
    directiveEdits (s.reading read) owner node d toks = directiveEdits s owner node d toks := by
  cases d with
  | incbin =>
    dsimp only [directiveEdits, incbinEdits]
    rw [same rfl]
    rfl
  | _ => rfl

theorem edits_reading (read : Text → Except Fault Text) (owner : Text) (seq : Nat)
    (same : ∀ name ∈ ln.binary?, (s.reading read).find name ln.pos.file = s.find name ln.pos.file) :
    edits (s.reading read) owner seq ln = edits s owner seq ln := by
  have body (owner : Text) (node : Node) (pos : node.pos = ln.pos) :
      bodyEdits (s.reading read) owner node (Token.body ln.tokens) = bodyEdits s owner node (Token.body ln.tokens) := by
    unfold bodyEdits
    cases toks : Token.body ln.tokens with
    | nil => rfl
    | cons head rest =>
      rcases lexeme : head.lexeme with ⟨_, _ | m | d⟩ | _ | _ | sign <;> simp only [lexeme]
      case word.directive =>
        refine directiveEdits_reading read owner node d rest fun isIncbin => ?_
        rw [pos]
        exact same _ (by simp [Line.binary?, toks, Token.isDirective, lexeme, isIncbin])
      case word.mnemonic => rfl
      case sign => cases sign <;> rfl
  have becomes := edits_becomes s owner seq ln
  generalize edits s owner seq ln = es at becomes
  refine Becomes.edits_eq ?_
  cases becomes with
  | lexical wrong => exact .lexical wrong
  | label lexical isLabel wrong => exact .label lexical isLabel wrong
  | script labelled isScript => exact .script labelled isScript
  | foreign labelled noScript native isWord => exact .foreign labelled noScript native isWord
  | body labelled noScript noWord => exact body _ (lineNode owner seq ln) rfl ▸ .body labelled noScript noWord

/-! ### The edits of a moved line -/

theorem act_placed (placed : node.Placed S node') (action : Action) :
    Forall₂ (Edit.Placed S skips) [.act node action] [.act node' action] :=
  .cons (.act (.act placed action)) .nil

theorem bodyEdits_placed (placed : node.Placed S node') (toks : List Token) :
    Forall₂ (Edit.Placed S skips) (bodyEdits s owner node toks) (bodyEdits s owner node' toks) := by
  refine (bodyEdits_wrote placed.label placed.file toks).each.imp fun e e' writes => ?_
  cases writes with
  | act => exact .act (.act placed _)
  | further | equate => exact .act (.act placed.unlabelled _)
  | choose | defined => exact .choose placed.unlabelled _
  | repeated => exact .repeated placed.unlabelled _
  | divide => exact .divide ..
  | close => exact .close ..
  | fail => exact .fail ..
  | abort => exact .abort ..

/-- **A moved line makes the same changes.** -/
theorem edits_placed (moved : ln.Moved ln') (owner : Text) {seq seq' : Nat} (known : S seq seq') :
    Forall₂ (Edit.Placed S skips) (edits s owner seq ln) (edits s owner seq' ln') := by
  have labelled {node node' : Node} (placed : node.Placed S node') (owner : Text) (toks : List Token) :
      Forall₂ (Edit.Placed S skips) (labelledEdits s owner ln node toks) (labelledEdits s owner ln' node' toks) := by
    unfold labelledEdits
    rw [moved.script, moved.tokens]
    cases ln.script with
    | some source => exact act_placed placed _
    | none =>
      dsimp only
      split
      · exact act_placed placed.unlabelled _
      · exact bodyEdits_placed placed toks
  have placed (label : Option Text) : Node.Placed S { seq, pos := ln.pos, text := ln.text, label }
      { seq := seq', pos := ln'.pos, text := ln'.text, label } := ⟨rfl, moved.file, known⟩
  unfold edits
  rw [moved.fault, moved.tokens]
  cases ln.fault with
  | some fault => exact act_placed (placed none) _
  | none =>
    rcases Token.splitLabel ln.tokens with ⟨_ | label, toks⟩
    · exact labelled (placed none) owner toks
    · dsimp only
      rcases labelName owner label.text with ⟨name, owner, _ | fault⟩
      · exact labelled (placed (some name)) owner toks
      · exact act_placed (placed (some name)) _

theorem ownerAfter_moved (moved : ln.Moved ln') (owner : Text) : ownerAfter owner ln' = ownerAfter owner ln := by
  rw [ownerAfter, ownerAfter, moved.fault, moved.tokens]

end Program

/-! ## Lines built alike -/

namespace Numbering
variable {seq seq' : Nat}

/-- No line has a number above those of the last ones. -/
def Below (S : Numbering) (seq seq' : Nat) : Prop := ∀ ⦃a a'⦄, S a a' → a ≤ seq ∧ a' ≤ seq'

def insert (S : Numbering) (n n' : Nat) : Numbering := fun a a' => S a a' ∨ a = n ∧ a' = n'

theorem Ordered.insert (ordered : S.Ordered) (below : S.Below seq seq') (later : seq < n) (later' : seq' < n') :
    (S.insert n n').Ordered := by
  rintro a a' b b' (first | ⟨rfl, rfl⟩) (second | ⟨rfl, rfl⟩)
  · exact ordered first second
  · have := below first
    omega
  · have := below second
    omega
  · simp

theorem Below.insert (below : S.Below seq seq') (later : seq < n) (later' : seq' < n') :
    (S.insert n n').Below n n' := by
  rintro a a' (known | ⟨rfl, rfl⟩)
  · have := below known
    omega
  · simp

theorem Below.mono (below : S.Below seq seq') (le : seq ≤ n) (le' : seq' ≤ n') : S.Below n n' := by
  intro a a' known
  have := below known
  omega

end Numbering

namespace Program
variable {skips : Prop} {s s' : Settings} {as as' bs bs' : List Line}

/-- The lines build the same program, whatever stands before them. -/
def BuiltAlike (skips : Prop) (s s' : Settings) (ls ls' : List Line) : Prop :=
  ∀ ⦃S : Numbering⦄ ⦃st st' : Building⦄, S.Ordered → S.Below st.seq st'.seq → st.Placed S skips st' →
    st.fatal = none → ∃ T : Numbering, (∀ a a', S a a' → T a a') ∧ T.Ordered ∧
      T.Below (lines s ls st).seq (lines s' ls' st').seq ∧ (lines s ls st).Placed T skips (lines s' ls' st')

theorem lines_append {st : Building} (going : st.fatal = none) (ls more : List Line) :
    lines s (ls ++ more) st =
      if (lines s ls st).fatal.isSome then lines s ls st else lines s more (lines s ls st) := by
  induction ls generalizing st with
  | nil => simp [lines, going]
  | cons ln rest ih =>
    simp only [cons_append, lines]
    by_cases early : (line s st ln).fatal.isSome
    · simp only [early, if_true]
    · simp only [early, Bool.false_eq_true, if_false]
      exact ih (by simpa using early)

theorem going_of_append {ls more : List Line} (whole : (lines s (ls ++ more) {}).fatal = none) :
    (lines s ls {}).fatal = none := by
  by_contra early
  rw [lines_append rfl, if_pos (Option.ne_none_iff_isSome.1 early)] at whole
  exact early whole

theorem lines_single (st : Building) (ln : Line) : lines s [ln] st = line s st ln := by
  simp [lines]

theorem BuiltAlike.nil : BuiltAlike skips s s' [] [] :=
  fun S _ _ ordered below placed _ => ⟨S, fun _ _ known => known, ordered, below, placed⟩

theorem BuiltAlike.append (first : BuiltAlike skips s s' as as') (second : BuiltAlike skips s s' bs bs') :
    BuiltAlike skips s s' (as ++ bs) (as' ++ bs') := by
  intro S st st' ordered below placed going
  obtain ⟨T, le, ordered, below, built⟩ := first ordered below placed going
  rw [lines_append going, lines_append (placed.fatal.trans going), built.fatal]
  split
  next => exact ⟨T, le, ordered, below, built⟩
  next whole =>
    obtain ⟨U, le', ordered, below, built⟩ := second ordered below built (by simpa using whole)
    exact ⟨U, fun a a' known => le' a a' (le a a' known), ordered, below, built⟩

theorem BuiltAlike.moved {read : Text → Except Fault Text} (moved : ln.Moved ln')
    (same : ∀ name ∈ ln.binary?, (s.reading read).find name ln.pos.file = s.find name ln.pos.file) :
    BuiltAlike skips s (s.reading read) [ln] [ln'] := by
  intro S st st' ordered below placed _
  have same' : ∀ name ∈ ln'.binary?, (s.reading read).find name ln'.pos.file = s.find name ln'.pos.file := by
    rw [Line.binary?, moved.tokens, moved.file]
    exact same
  rw [lines_single, lines_single, line_eq, line_eq, edits_reading read _ _ same', placed.owner, ownerAfter_moved moved]
  refine ⟨S.insert (st.seq + 1) (st'.seq + 1), fun _ _ => .inl,
    ordered.insert below (Nat.lt_succ_self _) (Nat.lt_succ_self _),
    below.insert (Nat.lt_succ_self _) (Nat.lt_succ_self _), ?_⟩
  exact ((placed.mono fun _ _ => .inl).editAll (edits_placed moved _ (.inr ⟨rfl, rfl⟩))).atLine ..

theorem BuiltAlike.start (h : BuiltAlike skips s s' as as') : ∃ T : Numbering, T (-1) (-1) ∧ T.Ordered ∧
    T.Below (lines s as {}).seq (lines s' as' {}).seq ∧ (lines s as {}).Placed T skips (lines s' as' {}) := by
  have start : Building.Placed (fun a a' => a = -1 ∧ a' = -1) skips {} {} := ⟨rfl, .nil, .nil, rfl, rfl⟩
  obtain ⟨T, le, built⟩ := h (by rintro _ _ _ _ ⟨rfl, rfl⟩ ⟨rfl, rfl⟩; simp) (by rintro _ _ ⟨rfl, rfl⟩; simp) start rfl
  exact ⟨T, le _ _ ⟨rfl, rfl⟩, built⟩

theorem BuiltAlike.build (h : BuiltAlike skips s s' as as') :
    ∃ T : Numbering, T (-1) (-1) ∧ T.Ordered ∧ (build s as).Placed T skips (build s' as') := by
  obtain ⟨T, known, ordered, -, built⟩ := h.start
  refine ⟨T, known, ordered, ?_⟩
  unfold Program.build
  dsimp only
  rw [built.fatal]
  split
  · exact built
  · exact built.finish

end Program

end Z80Asm
