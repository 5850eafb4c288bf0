import Z80Asm.Proofs.Nesting
import Z80Asm.Proofs.Origins
import Z80Asm.Proofs.SameTokens
import Z80Asm.Proofs.SplitSources

/-!
# Places that tests for definitions keep apart

Lines may change their order, or become several lines, and still do the same, as long as the same lines stand
before each test for a definition.
-/

namespace Z80Asm

open Program

variable {es es' : List Edit} {S : Numbering} {skips : Prop}

/-! ## Edits -/

/-- **Edits at other places spell the tree at other places.** -/
theorem Parses.placed {xs : List Statement} (h : Parses es xs) :
    ∀ {es'}, List.Forall₂ (Edit.Placed S skips) es es' → ∃ xs', Parses es' xs' ∧ Statement.AllPlaced S skips xs xs' := by
  induction h with
  | nil =>
    intro es' placed
    cases placed
    exact ⟨[], .nil, .nil⟩
  | append _ _ ih ih' =>
    intro es' placed
    obtain ⟨fs, gs, rfl, left, right⟩ := exists_of_forall₂_append placed
    obtain ⟨xs, parses, first⟩ := ih left
    obtain ⟨ys, parses', second⟩ := ih' right
    exact ⟨_, parses.append parses', first.append second⟩
  | act node action =>
    intro es' placed
    obtain _ | ⟨⟨placed⟩, ⟨⟩⟩ := placed
    exact ⟨_, .act _ _, .cons placed .nil⟩
  | fail pos fault =>
    intro es' placed
    obtain _ | ⟨⟨⟩, ⟨⟩⟩ := placed
    exact ⟨[], .fail _ _, .nil⟩
  | choose node test pos _ ih =>
    intro es' placed
    obtain _ | ⟨first, others⟩ := placed
    cases first with
    | choose head =>
      obtain ⟨fs, _, rfl, inside, _ | ⟨⟨⟩, ⟨⟩⟩⟩ := exists_of_forall₂_append others
      obtain ⟨xs, parses, yes⟩ := ih inside
      exact ⟨_, .choose _ test _ parses, .cons (.choose head test yes .nil) .nil⟩
  | chooseElse node test pos pos' _ _ ih ih' =>
    intro es' placed
    obtain _ | ⟨first, others⟩ := placed
    cases first with
    | choose head =>
      obtain ⟨fs, _, rfl, holds, _ | ⟨⟨⟩, behind⟩⟩ := exists_of_forall₂_append others
      obtain ⟨gs, _, rfl, fails, _ | ⟨⟨⟩, ⟨⟩⟩⟩ := exists_of_forall₂_append behind
      obtain ⟨xs, parses, yes⟩ := ih holds
      obtain ⟨ys, parses', no⟩ := ih' fails
      exact ⟨_, .chooseElse _ test _ _ parses parses', .cons (.choose head test yes no) .nil⟩
  | repeated node count pos _ ih =>
    intro es' placed
    obtain _ | ⟨first, others⟩ := placed
    cases first with
    | repeated head =>
      obtain ⟨fs, _, rfl, inside, _ | ⟨⟨⟩, ⟨⟩⟩⟩ := exists_of_forall₂_append others
      obtain ⟨xs, parses, body⟩ := ih inside
      exact ⟨_, .repeated _ count _ parses, .cons (.repeated head count body) .nil⟩

theorem Edit.reports_placed (placed : List.Forall₂ (Edit.Placed S skips) es es')
    (quiet : es.filterMap Edit.report? = []) : es'.filterMap Edit.report? = [] := by
  induction placed with
  | nil => rfl
  | cons first _ ih =>
    cases first with
    | fail => cases quiet
    | _ => exact ih quiet

/-! ## Tests for definitions -/

namespace Heading.Splits
variable {T U : Numbering} {seq seq' : Nat} {h : Heading}

/-- Lines behind all others do not matter to what stands before them. -/
theorem mono (splits : h.Splits T) (below : T.Below seq seq') (earlier : h.node.seq ≤ seq)
    (behind : ∀ a a', U a a' → T a a' ∨ seq < a ∧ seq' < a') : h.Splits U := by
  rcases h with _ | ⟨node, _ | ⟨name, negated⟩⟩ | _
  case choose.defined =>
    intro a' here
    have old : T node.seq a' := (behind _ _ here).resolve_right fun later => by
      have : node.seq ≤ seq := earlier
      omega
    intro b b' other
    rcases behind b b' other with known | later
    · exact splits old known
    · have := below old
      omega
  all_goals trivial

theorem last (below : T.Below seq seq') (here : h.node.seq = seq + 1) : h.Splits (T.insert (seq + 1) (seq' + 1)) := by
  rcases h with _ | ⟨node, _ | ⟨name, negated⟩⟩ | _
  case choose.defined =>
    have number : node.seq = seq + 1 := here
    intro a' place
    have place' : a' = seq' + 1 := by
      rcases place with known | ⟨-, e⟩
      · have := below known
        omega
      · simpa using e
    rintro b b' (known | ⟨rfl, rfl⟩)
    · have := below known
      omega
    · omega
  all_goals trivial

end Heading.Splits

/-! ## Programs as far as they are built -/

/-- Programs at other places, as far as they are built.  The tests for definitions have the same lines before
    them. -/
structure Building.Split (T : Numbering) (st st' : Building) : Prop where
  placed : st.Placed T False st'
  below : T.Below st.seq st'.seq
  earlier : ∀ h ∈ st.flatten, h.node.seq ≤ st.seq
  splits : ∀ h ∈ st.flatten, h.Splits T

namespace Building.Split
variable {s : Settings} {T : Numbering} {st st' : Building}

/-- **A moved line keeps what stands before tests for definitions.** -/
theorem line (h : st.Split T st') {ln ln' : Line} (moved : ln.Moved ln') :
    (Program.line s st ln).Split (T.insert (st.seq + 1) (st'.seq + 1)) (Program.line s st' ln') := by
  have placed := ((h.placed.mono fun _ _ => .inl).editAll
    (edits_placed (s := s) moved st.owner (S := T.insert (st.seq + 1) (st'.seq + 1)) (.inr ⟨rfl, rfl⟩))).atLine
      (st.seq + 1) (st'.seq + 1) (ownerAfter st.owner ln)
  rw [line_eq, line_eq, h.placed.owner, ownerAfter_moved moved]
  have inside : ∀ g ∈ ((st.editAll (edits s st.owner (st.seq + 1) ln)).atLine (st.seq + 1)
      (ownerAfter st.owner ln)).flatten, g ∈ st.flatten ∨ g.node.seq = st.seq + 1 := by
    intro g mem
    change g ∈ (st.editAll _).flatten at mem
    rw [flatten_editAll, List.mem_append, List.mem_filterMap] at mem
    refine mem.imp_right ?_
    rintro ⟨e, made, added⟩
    exact (edits_stem s st.owner (st.seq + 1) ln e made g added).1.seq
  refine ⟨placed, h.below.insert (Nat.lt_succ_self _) (Nat.lt_succ_self _), fun g mem => ?_, fun g mem => ?_⟩
  · rcases inside g mem with old | new
    · exact Nat.le_succ_of_le (h.earlier g old)
    · exact Nat.le_of_eq new
  · rcases inside g mem with old | new
    · refine (h.splits g old).mono h.below (h.earlier g old) ?_
      rintro a a' (known | ⟨rfl, rfl⟩)
      · exact .inl known
      · right
        omega
    · exact .last h.below new

/-- **Moved lines keep what stands before tests for definitions.** -/
theorem lines {ls ls' : List Line} (pieces : Pieces (fun _ _ => False) ls ls') (h : st.Split T st') :
    ∃ U : Numbering, (∀ a a', T a a' → U a a') ∧ (Program.lines s ls st).Split U (Program.lines s ls' st') := by
  induction pieces generalizing T st st' with
  | nil => exact ⟨T, fun _ _ => id, h⟩
  | @keep ln ln' moved rest rest' _ ih =>
    have next := h.line (s := s) moved
    rw [Program.lines, Program.lines, next.placed.fatal]
    split
    · exact ⟨_, fun _ _ => .inl, next⟩
    · obtain ⟨U, le, built⟩ := ih next
      exact ⟨U, fun a a' known => le a a' (.inl known), built⟩
  | replace never => exact never.elim

/-- **Edits behind all others keep what stands before tests for definitions**, if there is none among them. -/
theorem editAll (h : st.Split T st') {last last' : Nat} (le : st.seq ≤ last) (le' : st'.seq ≤ last')
    (placed : ∀ {S : Numbering}, (∀ a a' : Nat, st.seq < a → a ≤ last → st'.seq < a' → a' ≤ last' → S a a') →
      List.Forall₂ (Edit.Placed S False) es es')
    (numbers : ∀ e ∈ es, ∀ g ∈ e.added?, g.node.seq ≤ last) (untested : ∀ e ∈ es, ∀ g ∈ e.added?, ∀ S, g.Splits S)
    (owner : Text) :
    ∃ U : Numbering, (∀ a a', T a a' → U a a') ∧
      ((st.editAll es).atLine last owner).Split U ((st'.editAll es').atLine last' owner) := by
  let U : Numbering := fun a a' => T a a' ∨ (st.seq < a ∧ a ≤ last) ∧ st'.seq < a' ∧ a' ≤ last'
  have known : ∀ a a' : Nat, st.seq < a → a ≤ last → st'.seq < a' → a' ≤ last' → U a a' := by
    intro a a' lo hi lo' hi'
    refine .inr ⟨⟨?_, ?_⟩, ?_, ?_⟩ <;> omega
  have inside : ∀ g ∈ ((st.editAll es).atLine last owner).flatten, g ∈ st.flatten ∨ ∃ e ∈ es, g ∈ e.added? := by
    intro g mem
    change g ∈ (st.editAll es).flatten at mem
    rwa [flatten_editAll, List.mem_append, List.mem_filterMap] at mem
  refine ⟨U, fun _ _ => .inl, ?_, ?_, fun g mem => ?_, fun g mem => ?_⟩
  · exact ((h.placed.mono fun _ _ => .inl).editAll (placed known)).atLine last last' owner
  · rintro a a' (old | ⟨⟨-, hi⟩, -, hi'⟩)
    · have bounds := h.below old
      change a ≤ last ∧ a' ≤ last'
      omega
    · exact ⟨hi, hi'⟩
  · rcases inside g mem with old | ⟨e, made, added⟩
    · exact Nat.le_trans (h.earlier g old) le
    · exact numbers e made g added
  · rcases inside g mem with old | ⟨e, made, added⟩
    · refine (h.splits g old).mono h.below (h.earlier g old) fun a a' here => ?_
      exact here.imp_right fun new => ⟨new.1.1, new.2.1⟩
    · exact untested e made g added U

end Building.Split

end Z80Asm
