import Z80Asm.Proofs.Nesting

/-!
# Programs that differ in one part

A program is built around each of its parts: what stands before and behind a part, and the blocks that it stands
in, do not depend on the statements of the part itself.
-/

namespace Z80Asm

open Program List

variable {x x' : Statement} {outer : List Block}

/-- Two programs that are the same apart from one part, which is `xs` in the first one and `xs'` in the second one.
    Only if it may be executed again (`again`) does it stand in a repetition. -/
inductive Statement.Swapped (again : Prop) (xs xs' : List Statement) : List Statement → List Statement → Prop
  | here (rest : List Statement) : Swapped again xs xs' (xs ++ rest) (xs' ++ rest)
  | later (s : Statement) {ss ss' : List Statement} (h : Swapped again xs xs' ss ss') :
      Swapped again xs xs' (s :: ss) (s :: ss')
  | yes (node : Node) (test : Test) {yes yes' : List Statement} (h : Swapped again xs xs' yes yes')
      (no rest : List Statement) :
      Swapped again xs xs' (.choose node test yes no :: rest) (.choose node test yes' no :: rest)
  | no (node : Node) (test : Test) (yes : List Statement) {no no' : List Statement}
      (h : Swapped again xs xs' no no') (rest : List Statement) :
      Swapped again xs xs' (.choose node test yes no :: rest) (.choose node test yes no' :: rest)
  | body (allowed : again) (node : Node) (count : Expr) {body body' : List Statement}
      (h : Swapped again xs xs' body body') (rest : List Statement) :
      Swapped again xs xs' (.repeated node count body :: rest) (.repeated node count body' :: rest)

section
variable {again : Prop} {xs xs' : List Statement}

namespace Statement.Swapped
variable {ss ss' : List Statement}

theorem append (h : Swapped again xs xs' ss ss') (more : List Statement) :
    Swapped again xs xs' (ss ++ more) (ss' ++ more) := by
  induction h with
  | here rest =>
    rw [append_assoc, append_assoc]
    exact .here _
  | later s _ ih => exact .later s ih
  | yes node test h no rest => exact .yes node test h no _
  | no node test yes h rest => exact .no node test yes h _
  | body allowed node count h rest => exact .body allowed node count h _

theorem prepend (front : List Statement) (h : Swapped again xs xs' ss ss') :
    Swapped again xs xs' (front ++ ss) (front ++ ss') := by
  induction front with
  | nil => exact h
  | cons s front ih => exact .later s ih

end Statement.Swapped

variable (again xs xs')

inductive Block.Swapped : Block → Block → Prop
  | yes (node : Node) (test : Test) {yes yes' : List Statement}
      (h : Statement.Swapped again xs xs' yes.reverse yes'.reverse) (no : Option (List Statement)) :
      Swapped (.choose node test yes no) (.choose node test yes' no)
  | no (node : Node) (test : Test) (yes : List Statement) {no no' : List Statement}
      (h : Statement.Swapped again xs xs' no.reverse no'.reverse) :
      Swapped (.choose node test yes (some no)) (.choose node test yes (some no'))
  | body (allowed : again) (node : Node) (count : Expr) {body body' : List Statement}
      (h : Statement.Swapped again xs xs' body.reverse body'.reverse) :
      Swapped (.repeated node count body) (.repeated node count body')

/-- Two statements that are the same apart from the part, which is inside of them. -/
def Statement.SwappedInside (x x' : Statement) : Prop :=
  ∀ rest, Swapped again xs xs' (x :: rest) (x' :: rest)

/-- Two programs, as far as they are built, that are the same apart from one part.  It stands outside of the blocks
    that are still open, or in one of them. -/
inductive Building.Swapped : Building → Building → Prop
  | root (st : Building) {root root' : List Statement}
      (h : Statement.Swapped again xs xs' root.reverse root'.reverse) :
      Swapped { st with root } { st with root := root' }
  | block (st : Building) (inner : List Block) {b b' : Block} (h : b.Swapped again xs xs' b') (outer : List Block)
      (allowed : ∀ o ∈ outer, o.isRepeated = true → again) :
      Swapped { st with blocks := inner ++ b :: outer } { st with blocks := inner ++ b' :: outer }

variable {again xs xs'}

namespace Block.Swapped
variable {b b' : Block}

theorem add (h : b.Swapped again xs xs' b') (s : Statement) : (b.add s).Swapped again xs xs' (b'.add s) := by
  cases h with
  | yes node test h no =>
    cases no with
    | none => exact .yes node test (by simpa using h.append [s]) none
    | some no => exact .yes node test h (some (s :: no))
  | no node test yes h => exact .no node test yes (by simpa using h.append [s])
  | body allowed node count h => exact .body allowed node count (by simpa using h.append [s])

theorem close (h : b.Swapped again xs xs' b') : b.close.SwappedInside again xs xs' b'.close := by
  intro rest
  cases h with
  | yes node test h no => exact .yes node test h _ rest
  | no node test yes h => exact .no node test _ h rest
  | body allowed node count h => exact .body allowed node count h rest

theorem same (h : b.Swapped again xs xs' b') :
    b'.isRepeated = b.isRepeated ∧ b'.pos = b.pos ∧ b'.lonely = b.lonely := by
  cases h <;> exact ⟨rfl, rfl, rfl⟩

theorem of_inside (b : Block) (h : x.SwappedInside again xs xs' x') (allowed : b.isRepeated = true → again) :
    (b.add x).Swapped again xs xs' (b.add x') := by
  rcases b with ⟨node, test, yes, _ | no⟩ | ⟨node, count, body⟩
  · exact .yes node test (by simpa using (h []).prepend yes.reverse) none
  · exact .no node test yes (by simpa using (h []).prepend no.reverse)
  · exact .body (allowed rfl) node count (by simpa using (h []).prepend body.reverse)

end Block.Swapped

namespace Building.Swapped
variable {st st' : Building}

theorem same (h : st.Swapped again xs xs' st') : st'.seq = st.seq ∧ st'.owner = st.owner ∧
    st'.diagnostics = st.diagnostics ∧ st'.fatal = st.fatal := by
  cases h <;> exact ⟨rfl, rfl, rfl, rfl⟩

theorem addAll (st : Building) (allowed : ∀ b ∈ st.blocks, b.isRepeated = true → again) :
    (st.addAll xs).Swapped again xs xs' (st.addAll xs') := by
  have outside (ys : List Statement) (st : Building) (none : st.blocks = []) :
      st.addAll ys = { st with root := ys.reverse ++ st.root } := by
    induction ys generalizing st with
    | nil => rfl
    | cons y ys ih =>
      have added : st.add y = { st with root := y :: st.root } := by
        rw [Building.add, none]
      rw [Building.addAll, foldl_cons, added]
      rw [reverse_cons, append_assoc]
      exact ih _ none
  have inside (ys : List Statement) (block : Block) (rest : List Block) (st : Building)
      (some : st.blocks = block :: rest) :
      st.addAll ys = { st with blocks := ys.foldl (fun block x => block.add x) block :: rest } := by
    have entered : st = ({ st with blocks := rest } : Building).enter block := by
      rw [Building.enter, ← some]
    rw [entered, Building.addAll_enter]
    rfl
  cases blocks : st.blocks with
  | nil =>
    rw [outside xs st blocks, outside xs' st blocks]
    refine .root st ?_
    simpa using (Statement.Swapped.here []).prepend st.root.reverse
  | cons block rest =>
    rw [blocks, forall_mem_cons] at allowed
    rw [inside xs block rest st blocks, inside xs' block rest st blocks]
    refine .block st [] ?_ rest allowed.2
    rcases block with ⟨node, test, yes, _ | no⟩ | ⟨node, count, body⟩
    · rw [Block.addAll_yes, Block.addAll_yes]
      exact .yes node test (by simpa using (Statement.Swapped.here []).prepend yes.reverse) none
    · rw [Block.addAll_no, Block.addAll_no]
      exact .no node test yes (by simpa using (Statement.Swapped.here []).prepend no.reverse)
    · rw [Block.addAll_body, Block.addAll_body]
      exact .body (allowed.1 rfl) node count (by simpa using (Statement.Swapped.here []).prepend body.reverse)

theorem add (h : st.Swapped again xs xs' st') (s : Statement) : (st.add s).Swapped again xs xs' (st'.add s) := by
  rcases h with @⟨⟨seq, owner, blocks, _, ds, fatal⟩, root, root', h⟩ | ⟨st, inner, h, outer, allowed⟩
  · cases blocks with
    | nil =>
      have added : Statement.Swapped again xs xs' (s :: root).reverse (s :: root').reverse := by
        simpa using h.append [s]
      exact .root ⟨seq, owner, [], [], ds, fatal⟩ added
    | cons block rest => exact .root ⟨seq, owner, block.add s :: rest, [], ds, fatal⟩ h
  · cases inner with
    | nil => exact .block st [] (h.add s) outer allowed
    | cons first inner => exact .block st (first.add s :: inner) h outer allowed

theorem fail (h : st.Swapped again xs xs' st') (pos : Pos) (fault : Fault) :
    (st.fail pos fault).Swapped again xs xs' (st'.fail pos fault) := by
  rcases h with ⟨st, h⟩ | ⟨st, inner, h, outer, allowed⟩
  · exact .root (st.fail pos fault) h
  · exact .block (st.fail pos fault) inner h outer allowed

theorem of_inside (st : Building) (h : x.SwappedInside again xs xs' x')
    (allowed : ∀ b ∈ st.blocks, b.isRepeated = true → again) : (st.add x).Swapped again xs xs' (st.add x') := by
  rcases st with ⟨seq, owner, _ | ⟨block, rest⟩, root, ds, fatal⟩
  · have added : Statement.Swapped again xs xs' (x :: root).reverse (x' :: root).reverse := by
      simpa using (h []).prepend root.reverse
    exact .root ⟨seq, owner, [], [], ds, fatal⟩ added
  · rw [forall_mem_cons] at allowed
    exact .block ⟨seq, owner, [], root, ds, fatal⟩ [] (.of_inside block h allowed.1) rest allowed.2

section
variable (h : st.Swapped again xs xs' st')
include h

theorem leave (pos : Pos) (repeated : Bool) (lonely : Cause) :
    (st.leave pos repeated lonely).Swapped again xs xs' (st'.leave pos repeated lonely) := by
  have failed := h.fail pos (.plain lonely)
  unfold Building.leave
  rcases h with @⟨⟨seq, owner, blocks, _, ds, fatal⟩, root, root', h⟩ | ⟨st, inner, h, outer, allowed⟩
  · cases blocks with
    | nil => exact failed
    | cons block rest =>
      dsimp only
      split
      · exact add (.root ⟨seq, owner, rest, [], ds, fatal⟩ h) block.close
      · exact failed
  · cases inner with
    | nil =>
      simp only [nil_append, h.same.1]
      split
      · exact of_inside { st with blocks := outer } h.close allowed
      · exact failed
    | cons first inner =>
      dsimp only [cons_append]
      split
      · exact add (.block st inner h outer allowed) first.close
      · exact failed

theorem divide (pos : Pos) : (st.divide pos).Swapped again xs xs' (st'.divide pos) := by
  have failed := h.fail pos
  unfold Building.divide
  rcases h with @⟨⟨seq, owner, blocks, _, ds, fatal⟩, root, root', h⟩ | ⟨st, inner, h, outer, allowed⟩
  · rcases blocks with _ | ⟨⟨node, test, yes, _ | no⟩ | ⟨node, count, body⟩, rest⟩
    · exact failed _
    · exact .root ⟨seq, owner, .choose node test yes (some []) :: rest, [], ds, fatal⟩ h
    · exact failed _
    · exact failed _
  · rcases inner with _ | ⟨⟨node, test, yes, _ | no⟩ | ⟨node, count, body⟩, rest⟩
    · cases h with
      | yes node test h no =>
        cases no with
        | none => exact .block st [] (.yes node test h (some [])) outer allowed
        | some no => exact failed _
      | no node test yes h => exact failed _
      | body again node count h => exact failed _
    · exact .block st (.choose node test yes (some []) :: rest) h outer allowed
    · exact failed _
    · exact failed _

/-- **An edit keeps what the programs have in common.** -/
theorem edit (e : Edit) : (st.edit e).Swapped again xs xs' (st'.edit e) := by
  have enter (block : Block) : (st.enter block).Swapped again xs xs' (st'.enter block) := by
    rcases h with ⟨st, h⟩ | ⟨st, inner, h, outer, allowed⟩
    · exact .root (st.enter block) h
    · exact .block st (block :: inner) h outer allowed
  cases e with
  | act node action => exact h.add _
  | choose node test => exact enter _
  | repeated node count => exact enter _
  | divide pos => exact h.divide pos
  | close pos repeated => cases repeated <;> exact h.leave ..
  | fail pos fault => exact h.fail pos fault
  | abort pos fault =>
    rcases h with ⟨st, h⟩ | ⟨st, inner, h, outer, allowed⟩
    · exact .root (st.abort pos fault) h
    · exact .block (st.abort pos fault) inner h outer allowed

theorem editAll (es : List Edit) : (st.editAll es).Swapped again xs xs' (st'.editAll es) := by
  induction es generalizing st st' with
  | nil => exact h
  | cons e es ih => exact ih (h.edit e)

theorem atLine (seq : Nat) (owner : Text) : (st.atLine seq owner).Swapped again xs xs' (st'.atLine seq owner) := by
  rcases h with ⟨st, h⟩ | ⟨st, inner, h, outer, allowed⟩
  · exact .root (st.atLine seq owner) h
  · exact .block (st.atLine seq owner) inner h outer allowed

end

/-- **Further lines keep what the programs have in common.** -/
theorem lines (s : Settings) (ls : List Line) (h : st.Swapped again xs xs' st') :
    (Program.lines s ls st).Swapped again xs xs' (Program.lines s ls st') := by
  induction ls generalizing st st' with
  | nil => exact h
  | cons ln rest ih =>
    have next : (line s st ln).Swapped again xs xs' (line s st' ln) := by
      rw [line_eq, line_eq, h.same.1, h.same.2.1]
      exact (h.editAll _).atLine _ _
    rw [Program.lines, Program.lines, next.same.2.2.2]
    split
    · exact next
    · exact ih next

/-! ## The end -/

theorem closeAll_eq (root : List Statement) (inner : Option Statement) (bs : List Block) :
    closeAll root inner bs = closeAll [] inner bs ++ root := by
  induction bs generalizing inner with
  | nil => simp [closeAll]
  | cons b bs ih => exact ih _

theorem closeAll_inside (root : List Statement) (allowed : ∀ o ∈ outer, o.isRepeated = true → again)
    (h : x.SwappedInside again xs xs' x') :
    Statement.Swapped again xs xs' (closeAll root (some x) outer).reverse (closeAll root (some x') outer).reverse := by
  induction outer generalizing x x' with
  | nil => simpa [closeAll] using (h []).prepend root.reverse
  | cons o outer ih =>
    rw [forall_mem_cons] at allowed
    exact ih allowed.2 (Block.Swapped.of_inside o h allowed.1).close

theorem closeAll_block (root : List Statement) (inner : List Block) {b b' : Block} (h : b.Swapped again xs xs' b')
    (allowed : ∀ o ∈ outer, o.isRepeated = true → again) (last : Option Statement) :
    Statement.Swapped again xs xs' (closeAll root last (inner ++ b :: outer)).reverse
      (closeAll root last (inner ++ b' :: outer)).reverse := by
  induction inner generalizing last with
  | nil =>
    cases last with
    | none => exact closeAll_inside root allowed h.close
    | some s => exact closeAll_inside root allowed (h.add s).close
  | cons first inner ih => exact ih _

/-- **The finished programs are the same apart from the part**, with the same reports. -/
theorem finish (h : st.Swapped again xs xs' st') :
    (Program.finish st').diagnostics = (Program.finish st).diagnostics ∧
      Statement.Swapped again xs xs' (Program.finish st).program (Program.finish st').program := by
  rw [diagnostics_finish, diagnostics_finish]
  rcases h with @⟨st, root, root', h⟩ | ⟨st, inner, h, outer, allowed⟩
  · refine ⟨rfl, ?_⟩
    have closed (root : List Statement) : (closeAll root none st.blocks).reverse =
        root.reverse ++ (closeAll [] none st.blocks).reverse := by
      rw [closeAll_eq, reverse_append]
    simp only [Building.program, Program.finish, closed root, closed root']
    exact h.append _
  · refine ⟨?_, closeAll_block st.root inner h allowed none⟩
    simp [h.same.2.1, h.same.2.2]

end Building.Swapped

end

end Z80Asm
