import Z80Asm.Proofs.Passes

/-!
# Nesting of blocks

Nothing is wrong with the nesting of blocks exactly if the words that open, divide and close them are
well nested, and then the tree is the one that the lines spell.
-/

namespace Z80Asm

open Building Edit Diagnostic List

open Statement (flattenAll)

variable {es : List Edit} {st : Building} {xs : List Statement} {ls : List Line} {s : Settings} {e : Edit}
  {d : Diagnostic}

/-! ## Well nested words -/

inductive Balanced : List BlockWord → Prop
  | nil : Balanced []
  | append {u v : List BlockWord} (h : Balanced u) (g : Balanced v) : Balanced (u ++ v)
  | choose {u : List BlockWord} (h : Balanced u) : Balanced (.enterIf :: (u ++ [.leaveIf]))
  | chooseElse {u v : List BlockWord} (h : Balanced u) (g : Balanced v) :
      Balanced (.enterIf :: (u ++ .otherwise :: (v ++ [.leaveIf])))
  | repeated {u : List BlockWord} (h : Balanced u) : Balanced (.enterRept :: (u ++ [.leaveRept]))

inductive Parses : List Edit → List Statement → Prop
  | nil : Parses [] []
  | append {es fs : List Edit} {xs ys : List Statement} (h : Parses es xs) (g : Parses fs ys) :
      Parses (es ++ fs) (xs ++ ys)
  | act (node : Node) (action : Action) : Parses [.act node action] [.act node action]
  | fail (pos : Pos) (fault : Fault) : Parses [.fail pos fault] []
  | choose (node : Node) (test : Test) (pos : Pos) {es : List Edit} {xs : List Statement}
      (h : Parses es xs) :
      Parses (.choose node test :: (es ++ [.close pos false])) [.choose node test xs []]
  | chooseElse (node : Node) (test : Test) (pos pos' : Pos) {es fs : List Edit}
      {xs ys : List Statement} (h : Parses es xs) (g : Parses fs ys) :
      Parses (.choose node test :: (es ++ .divide pos :: (fs ++ [.close pos' false])))
        [.choose node test xs ys]
  | repeated (node : Node) (count : Expr) (pos : Pos) {es : List Edit} {xs : List Statement}
      (h : Parses es xs) :
      Parses (.repeated node count :: (es ++ [.close pos true])) [.repeated node count xs]

def Edit.report? : Edit → Option Diagnostic
  | fail pos fault => some (.of .error pos 1 fault)
  | _ => none

theorem Edit.not_ofBlocks_report (mild : e.isMild = true) (reported : e.report? = some d) : d.isOfBlocks = false := by
  cases e with
  | fail pos fault =>
    cases reported
    simpa [isMild, isOfBlocks, of] using mild
  | _ => cases reported

namespace Building

def addAll (st : Building) (xs : List Statement) : Building := xs.foldl add st

def noting (st : Building) (ds : List Diagnostic) : Building :=
  { st with diagnostics := st.diagnostics ++ ds.toArray }

section
variable (st : Building) (block : Block) (ds : List Diagnostic)

@[simp] theorem noting_nil : st.noting [] = st := by simp [noting]

theorem noting_noting (ds' : List Diagnostic) : (st.noting ds).noting ds' = st.noting (ds ++ ds') := by simp [noting]

theorem add_noting (x : Statement) : (st.noting ds).add x = (st.add x).noting ds := by
  unfold add noting
  dsimp only
  split <;> rfl

theorem addAll_noting (xs : List Statement) : (st.noting ds).addAll xs = (st.addAll xs).noting ds := by
  induction xs generalizing st with
  | nil => rfl
  | cons x xs ih => exact (congrArg (addAll · xs) (add_noting st ds x)).trans (ih _)

theorem addAll_enter (xs : List Statement) :
    (st.enter block).addAll xs = st.enter (xs.foldl (fun block x => block.add x) block) := by
  induction xs generalizing block with
  | nil => rfl
  | cons x xs ih => exact ih (block.add x)

theorem close_enter (pos : Pos) :
    ((st.enter block).noting ds).edit (.close pos block.isRepeated) = (st.add block.close).noting ds := by
  rw [← add_noting]
  cases block <;> rfl

end

end Building

namespace Block

theorem addAll_yes (node : Node) (test : Test) (xs yes : List Statement) :
    xs.foldl (fun block x => block.add x) (choose node test yes none) = choose node test (xs.reverse ++ yes) none := by
  induction xs generalizing yes with
  | nil => rfl
  | cons x xs ih => exact (ih (x :: yes)).trans (by simp)

theorem addAll_no (node : Node) (test : Test) (yes xs no : List Statement) :
    xs.foldl (fun block x => block.add x) (choose node test yes (some no)) =
      choose node test yes (some (xs.reverse ++ no)) := by
  induction xs generalizing no with
  | nil => rfl
  | cons x xs ih => exact (ih (x :: no)).trans (by simp)

theorem addAll_body (node : Node) (count : Expr) (xs body : List Statement) :
    xs.foldl (fun block x => block.add x) (repeated node count body) = repeated node count (xs.reverse ++ body) := by
  induction xs generalizing body with
  | nil => rfl
  | cons x xs ih => exact (ih (x :: body)).trans (by simp)

end Block

/-- **Edits that spell a tree add it to the innermost block**, whatever is open around it, and report
    nothing about the nesting. -/
theorem Parses.editAll_eq (h : Parses es xs) (st : Building) :
    st.editAll es = (st.addAll xs).noting (es.filterMap report?) := by
  induction h generalizing st with
  | nil => exact (noting_nil st).symm
  | append _ _ h_ih g_ih =>
    rw [editAll_append, h_ih, g_ih, addAll_noting, noting_noting,
      filterMap_append, addAll, addAll, addAll, foldl_append]
  | act node action => exact (noting_nil _).symm
  | fail pos fault =>
    simp [edit, Building.fail, addAll, noting, report?]
  | @choose node test pos es xs _ ih =>
    have inside : (st.edit (.choose node test)).editAll es =
        (st.enter (.choose node test xs.reverse none)).noting (es.filterMap report?) := by
      rw [ih, edit, addAll_enter, Block.addAll_yes, append_nil]
    calc st.editAll (.choose node test :: (es ++ [.close pos false]))
      _ = ((st.edit (.choose node test)).editAll es).edit (.close pos false) := editAll_append _ _ _
      _ = (st.add (.choose node test xs.reverse.reverse [])).noting (es.filterMap report?) := by
        rw [inside]
        exact close_enter st (.choose node test xs.reverse none) _ pos
      _ = _ := by simp [addAll, filterMap_cons, report?]
  | @chooseElse node test pos pos' es fs xs ys _ _ h_ih g_ih =>
    have inside : (st.edit (.choose node test)).editAll es =
        (st.enter (.choose node test xs.reverse none)).noting (es.filterMap report?) := by
      rw [h_ih, edit, addAll_enter, Block.addAll_yes, append_nil]
    have divided (ds : List Diagnostic) :
        ((st.enter (.choose node test xs.reverse none)).noting ds).edit (.divide pos) =
          (st.enter (.choose node test xs.reverse (some []))).noting ds := rfl
    calc st.editAll (.choose node test :: (es ++ .divide pos :: (fs ++ [.close pos' false])))
      _ = ((((st.edit (.choose node test)).editAll es).edit (.divide pos)).editAll fs).edit (.close pos' false) := by
        simp [editAll_append]
      _ = (st.add (.choose node test xs.reverse.reverse ys.reverse.reverse)).noting
          (es.filterMap report? ++ fs.filterMap report?) := by
        rw [inside, divided, g_ih, addAll_noting, addAll_enter, Block.addAll_no, append_nil, noting_noting]
        exact close_enter st (.choose node test xs.reverse (some ys.reverse)) _ pos'
      _ = _ := by simp [addAll, filterMap_cons, report?]
  | @repeated node count pos es xs _ ih =>
    have inside : (st.edit (.repeated node count)).editAll es =
        (st.enter (.repeated node count xs.reverse)).noting (es.filterMap report?) := by
      rw [ih, edit, addAll_enter, Block.addAll_body, append_nil]
    calc st.editAll (.repeated node count :: (es ++ [.close pos true]))
      _ = ((st.edit (.repeated node count)).editAll es).edit (.close pos true) := editAll_append _ _ _
      _ = (st.add (.repeated node count xs.reverse.reverse)).noting (es.filterMap report?) := by
        rw [inside]
        exact close_enter st (.repeated node count xs.reverse) _ pos
      _ = _ := by simp [addAll, filterMap_cons, report?]

/-! ### From words to trees -/

def Edit.isAbort : Edit → Bool
  | abort _ _ => true
  | _ => false

theorem Parses.going (h : Parses es xs) : ∀ e ∈ es, e.isAbort = false := by
  induction h with
  | nil => simp
  | append _ _ ih ih' => exact forall_mem_append.2 ⟨ih, ih'⟩
  | act | fail => simp [isAbort]
  | choose | repeated | chooseElse => simp_all [isAbort, or_imp]

/-- Edits without words of blocks spell the statements that they add. -/
theorem exists_parses_of_wordless (wordless : es.filterMap word? = [])
    (going : ∀ e ∈ es, e.isAbort = false) : ∃ xs, Parses es xs := by
  induction es with
  | nil => exact ⟨[], .nil⟩
  | cons e es ih =>
    simp only [filterMap_eq_nil_iff, mem_cons, forall_eq_or_imp] at wordless going
    obtain ⟨xs, rest⟩ := ih (filterMap_eq_nil_iff.2 wordless.2) going.2
    cases e with
    | act node action => exact ⟨_, (Parses.act node action).append rest⟩
    | fail pos fault => exact ⟨_, (Parses.fail pos fault).append rest⟩
    | abort => simp [isAbort] at going
    | choose | repeated | divide => simp [word?] at wordless
    | close pos repeated => cases repeated <;> simp [word?] at wordless

theorem exists_edit_of_words {u v : List BlockWord} {w : BlockWord}
    (spelled : es.filterMap word? = u ++ w :: v) :
    ∃ fs e gs, es = fs ++ e :: gs ∧ fs.filterMap word? = u ∧ e.word? = some w ∧ gs.filterMap word? = v := by
  obtain ⟨fs, rest, rfl, before, after⟩ := filterMap_eq_append_iff.1 spelled
  obtain ⟨quiet, e, gs, rfl, wordless, word, after⟩ := filterMap_eq_cons_iff.1 after
  refine ⟨fs ++ quiet, e, gs, by simp, ?_, word, after⟩
  rw [filterMap_append, filterMap_eq_nil_iff.2 wordless, append_nil, before]

namespace Edit

theorem eq_choose (word : e.word? = some .enterIf) : ∃ node test, e = choose node test := by
  cases e with
  | choose node test => exact ⟨node, test, rfl⟩
  | close pos repeated => cases repeated <;> cases word
  | _ => cases word

theorem eq_divide (word : e.word? = some .otherwise) : ∃ pos, e = divide pos := by
  cases e with
  | divide pos => exact ⟨pos, rfl⟩
  | close pos repeated => cases repeated <;> cases word
  | _ => cases word

theorem eq_close_if (word : e.word? = some .leaveIf) : ∃ pos, e = close pos false := by
  cases e with
  | close pos repeated => cases repeated with
    | false => exact ⟨pos, rfl⟩
    | true => cases word
  | _ => cases word

theorem eq_repeated (word : e.word? = some .enterRept) : ∃ node count, e = repeated node count := by
  cases e with
  | repeated node count => exact ⟨node, count, rfl⟩
  | close pos repeated => cases repeated <;> cases word
  | _ => cases word

theorem eq_close_rept (word : e.word? = some .leaveRept) : ∃ pos, e = close pos true := by
  cases e with
  | close pos repeated => cases repeated with
    | false => cases word
    | true => exact ⟨pos, rfl⟩
  | _ => cases word

end Edit

theorem exists_enclosed {us : List BlockWord} {w w' : BlockWord}
    (spelled : es.filterMap word? = w :: us ++ [w']) (going : ∀ e ∈ es, e.isAbort = false) :
    ∃ fs e gs e' hs, es = fs ++ e :: gs ++ e' :: hs ∧ e.word? = some w ∧
      gs.filterMap word? = us ∧ (∀ e ∈ gs, e.isAbort = false) ∧ e'.word? = some w' ∧
      (∃ xs, Parses fs xs) ∧ ∃ zs, Parses hs zs := by
  obtain ⟨fs, e, rest, rfl, before, enters, spelled⟩ := exists_edit_of_words (u := []) spelled
  obtain ⟨gs, e', hs, rfl, inside, leaves, after⟩ := exists_edit_of_words spelled
  simp only [forall_mem_append, forall_mem_cons] at going
  obtain ⟨first, -, inner, -, final⟩ := going
  exact ⟨fs, e, gs, e', hs, by simp, enters, inside, inner, leaves,
    exists_parses_of_wordless before first, exists_parses_of_wordless after final⟩

theorem Balanced.exists_parses {ws : List BlockWord} (h : Balanced ws)
    (spelled : es.filterMap word? = ws) (going : ∀ e ∈ es, e.isAbort = false) :
    ∃ xs, Parses es xs := by
  induction h generalizing es with
  | nil => exact exists_parses_of_wordless spelled going
  | append _ _ h_ih g_ih =>
    obtain ⟨fs, gs, rfl, before, after⟩ := filterMap_eq_append_iff.1 spelled
    rw [forall_mem_append] at going
    obtain ⟨xs, first⟩ := h_ih before going.1
    obtain ⟨ys, second⟩ := g_ih after going.2
    exact ⟨_, first.append second⟩
  | choose _ ih =>
    obtain ⟨fs, e, gs, e', hs, rfl, enters, inside, inner, leaves, ⟨xs, h⟩, zs, k⟩ := exists_enclosed spelled going
    obtain ⟨ys, g⟩ := ih inside inner
    obtain ⟨node, test, rfl⟩ := eq_choose enters
    obtain ⟨pos, rfl⟩ := eq_close_if leaves
    exact ⟨_, by simpa using (h.append (.choose node test pos g)).append k⟩
  | @chooseElse us vs _ _ h_ih g_ih =>
    have spelled : es.filterMap word? = .enterIf :: (us ++ .otherwise :: vs) ++ [.leaveIf] := by
      simpa using spelled
    obtain ⟨fs, e, gs, e', hs, rfl, enters, inside, inner, leaves, ⟨xs, h⟩, zs, k⟩ := exists_enclosed spelled going
    obtain ⟨gs, middle, gs', rfl, inside, divides, inside'⟩ := exists_edit_of_words inside
    simp only [forall_mem_append, forall_mem_cons] at inner
    obtain ⟨ys, g⟩ := h_ih inside inner.1
    obtain ⟨ys', g'⟩ := g_ih inside' inner.2.2
    obtain ⟨node, test, rfl⟩ := eq_choose enters
    obtain ⟨pos, rfl⟩ := eq_divide divides
    obtain ⟨pos', rfl⟩ := eq_close_if leaves
    exact ⟨_, by simpa using (h.append (.chooseElse node test pos pos' g g')).append k⟩
  | repeated _ ih =>
    obtain ⟨fs, e, gs, e', hs, rfl, enters, inside, inner, leaves, ⟨xs, h⟩, zs, k⟩ := exists_enclosed spelled going
    obtain ⟨ys, g⟩ := ih inside inner
    obtain ⟨node, count, rfl⟩ := eq_repeated enters
    obtain ⟨pos, rfl⟩ := eq_close_rept leaves
    exact ⟨_, by simpa using (h.append (.repeated node count pos g)).append k⟩

/-! ### From blocks to words -/

/-- The blocks, innermost first, that are open after words of which nothing is wrong: what stands between
    the words that opened or divided them is well nested. -/
inductive OpenBlocks : List Block → List BlockWord → Prop
  | nil {us : List BlockWord} (h : Balanced us) : OpenBlocks [] us
  | yes {blocks : List Block} {ws us : List BlockWord} (node : Node) (test : Test)
      (yes : List Statement) (outer : OpenBlocks blocks ws) (h : Balanced us) :
      OpenBlocks (.choose node test yes none :: blocks) (ws ++ .enterIf :: us)
  | no {blocks : List Block} {ws us vs : List BlockWord} (node : Node) (test : Test)
      (yes no : List Statement) (outer : OpenBlocks blocks ws) (h : Balanced us) (g : Balanced vs) :
      OpenBlocks (.choose node test yes (some no) :: blocks) (ws ++ .enterIf :: (us ++ .otherwise :: vs))
  | body {blocks : List Block} {ws us : List BlockWord} (node : Node) (count : Expr)
      (body : List Statement) (outer : OpenBlocks blocks ws) (h : Balanced us) :
      OpenBlocks (.repeated node count body :: blocks) (ws ++ .enterRept :: us)

namespace OpenBlocks
variable {blocks : List Block} {ws : List BlockWord}

/-- What is well nested stands inside of the innermost block. -/
theorem append {vs : List BlockWord} (h : OpenBlocks blocks ws) (g : Balanced vs) : OpenBlocks blocks (ws ++ vs) := by
  cases h with
  | nil h => exact .nil (h.append g)
  | yes node test yes outer h => simpa using OpenBlocks.yes node test yes outer (h.append g)
  | no node test yes no outer h h' => simpa using OpenBlocks.no node test yes no outer h (h'.append g)
  | body node count body outer h => simpa using OpenBlocks.body node count body outer (h.append g)

theorem add {block : Block} (h : OpenBlocks (block :: blocks) ws) (s : Statement) :
    OpenBlocks (block.add s :: blocks) ws := by
  cases h with
  | yes node test yes outer h => exact .yes node test _ outer h
  | no node test yes no outer h g => exact .no node test yes _ outer h g
  | body node count body outer h => exact .body node count _ outer h

theorem addTo (h : OpenBlocks st.blocks ws) (s : Statement) : OpenBlocks (st.add s).blocks ws := by
  unfold Building.add
  split
  · exact h
  next open_ => exact (open_ ▸ h).add s

theorem close {block : Block} (h : OpenBlocks (block :: blocks) ws) :
    OpenBlocks blocks (ws ++ [if block.isRepeated then .leaveRept else .leaveIf]) := by
  cases h with
  | yes node test yes outer h => simpa [Block.isRepeated] using outer.append (.choose h)
  | no node test yes no outer h g => simpa [Block.isRepeated] using outer.append (.chooseElse h g)
  | body node count body outer h => simpa [Block.isRepeated] using outer.append (.repeated h)

end OpenBlocks

namespace Building

/-- Nothing is reported about the nesting of blocks. -/
def WellNested (st : Building) : Prop := ∀ d ∈ st.diagnostics, d.isOfBlocks = false

instance (st : Building) : Decidable st.WellNested :=
  inferInstanceAs (Decidable (∀ d ∈ st.diagnostics, d.isOfBlocks = false))

theorem not_wellNested_fail (st : Building) (pos : Pos) {cause : Cause}
    (known : cause ∈ Cause.ofBlocks) : ¬(st.fail pos (.plain cause)).WellNested := by
  intro h
  have reported := h _ Array.mem_push_self
  simp [isOfBlocks, of, Fault.isOfBlocks, Fault.cause?, known] at reported

theorem diagnostics_add (st : Building) (s : Statement) : (st.add s).diagnostics = st.diagnostics := by
  unfold add
  split <;> rfl

theorem mem_diagnostics_edit (mem : d ∈ st.diagnostics) (e : Edit) : d ∈ (st.edit e).diagnostics := by
  have leave (pos : Pos) (repeated : Bool) (lonely : Cause) : d ∈ (st.leave pos repeated lonely).diagnostics := by
    unfold Building.leave
    split
    · split
      · exact (diagnostics_add _ _).symm ▸ mem
      · exact Array.mem_push_of_mem _ mem
    · exact Array.mem_push_of_mem _ mem
  cases e with
  | act => exact (diagnostics_add _ _).symm ▸ mem
  | choose | repeated => exact mem
  | divide pos =>
    unfold edit divide
    dsimp only
    split
    · exact mem
    · exact Array.mem_push_of_mem _ mem
    · exact Array.mem_push_of_mem _ mem
  | close pos repeated => cases repeated <;> exact leave _ _ _
  | fail | abort => exact Array.mem_push_of_mem _ mem

theorem WellNested.of_editAll (h : (st.editAll es).WellNested) : st.WellNested := by
  induction es generalizing st with
  | nil => exact h
  | cons e es ih => exact fun d mem => ih h d (mem_diagnostics_edit mem e)

end Building

namespace OpenBlocks
variable {ws : List BlockWord}

theorem leave {pos : Pos} {repeated : Bool} {lonely : Cause}
    (known : lonely ∈ Cause.ofBlocks) (h : OpenBlocks st.blocks ws)
    (quiet : (st.leave pos repeated lonely).WellNested) :
    OpenBlocks (st.leave pos repeated lonely).blocks (ws ++ [if repeated then .leaveRept else .leaveIf]) := by
  unfold Building.leave at quiet ⊢
  split at quiet
  next block rest open_ =>
    by_cases kind : block.isRepeated = repeated
    · simp only [kind, beq_self_eq_true, if_true]
      exact @addTo { st with blocks := rest } _ (kind ▸ (open_ ▸ h).close) block.close
    · simp only [beq_iff_eq, kind, if_false] at quiet
      exact absurd quiet (st.not_wellNested_fail pos known)
  · exact absurd quiet (st.not_wellNested_fail pos known)

theorem edit (h : OpenBlocks st.blocks ws) (quiet : (st.edit e).WellNested) :
    OpenBlocks (st.edit e).blocks (ws ++ e.word?.toList) := by
  cases e with
  | act node action => exact (append_nil ws).symm ▸ h.addTo (.act node action)
  | choose node test => exact .yes node test [] h .nil
  | repeated node count => exact .body node count [] h .nil
  | divide pos =>
    unfold Building.edit Building.divide at quiet ⊢
    dsimp only at quiet ⊢
    split at quiet
    next open_ =>
      cases open_ ▸ h with
      | yes _ _ _ outer inner =>
        simpa [word?] using OpenBlocks.no _ _ _ [] outer inner .nil
    · exact absurd quiet (st.not_wellNested_fail pos (by decide))
    · exact absurd quiet (st.not_wellNested_fail pos (by decide))
  | close pos repeated => cases repeated <;> exact h.leave (by decide) quiet
  | fail | abort => exact (append_nil ws).symm ▸ h

/-- The run of edits: where nothing is reported about the nesting, the words end inside of the blocks
    that are open. -/
theorem editAll (h : OpenBlocks st.blocks ws) (quiet : (st.editAll es).WellNested) :
    OpenBlocks (st.editAll es).blocks (ws ++ es.filterMap word?) := by
  induction es generalizing st ws with
  | nil => simpa using h
  | cons e es ih =>
    have next := ih (h.edit (WellNested.of_editAll quiet)) quiet
    cases word : e.word? <;> simpa [word] using next

end OpenBlocks

/-! ## The program of lines -/

namespace Building

theorem fatal_add (st : Building) (s : Statement) : (st.add s).fatal = st.fatal := by
  unfold add
  split <;> rfl

theorem edit_fatal (st : Building) (going : e.isAbort = false) : (st.edit e).fatal = st.fatal := by
  have leave (pos : Pos) (repeated : Bool) (lonely : Cause) : (st.leave pos repeated lonely).fatal = st.fatal := by
    unfold Building.leave
    split
    · split
      · exact fatal_add _ _
      · rfl
    · rfl
  cases e with
  | act => exact fatal_add _ _
  | choose | repeated | fail => rfl
  | divide pos =>
    unfold edit divide
    dsimp only
    split <;> rfl
  | close pos repeated => cases repeated <;> exact leave _ _ _
  | abort => cases going

theorem fatal_edit (whole : (st.edit e).fatal = none) : e.isAbort = false ∧ st.fatal = none := by
  have going : e.isAbort = false := by
    cases e with
    | abort => cases whole
    | _ => rfl
  exact ⟨going, (st.edit_fatal going).symm.trans whole⟩

theorem editAll_fatal (st : Building) (going : ∀ e ∈ es, e.isAbort = false) : (st.editAll es).fatal = st.fatal := by
  induction es generalizing st with
  | nil => rfl
  | cons e es ih =>
    rw [forall_mem_cons] at going
    exact (ih _ going.2).trans (st.edit_fatal going.1)

theorem fatal_editAll (whole : (st.editAll es).fatal = none) : (∀ e ∈ es, e.isAbort = false) ∧ st.fatal = none := by
  induction es generalizing st with
  | nil => exact ⟨by simp, whole⟩
  | cons e es ih =>
    have ⟨rest, next⟩ := ih whole
    have ⟨first, now⟩ := fatal_edit next
    exact ⟨forall_mem_cons.2 ⟨first, rest⟩, now⟩

theorem addAll_outside (outside : st.blocks = []) (xs : List Statement) :
    st.addAll xs = { st with root := xs.reverse ++ st.root } := by
  induction xs generalizing st with
  | nil => rfl
  | cons x xs ih =>
    have added : st.add x = { st with root := x :: st.root } := by
      unfold add
      rw [outside]
    calc st.addAll (x :: xs)
      _ = ({ st with root := x :: st.root } : Building).addAll xs := congrArg (addAll · xs) added
      _ = { st with root := xs.reverse ++ x :: st.root } := ih outside
      _ = _ := by rw [reverse_cons, append_assoc, singleton_append]

end Building

namespace Program

theorem diagnostics_finish (st : Building) :
    (finish st).diagnostics =
      st.diagnostics ++ (st.blocks.reverse.map fun b => of .error b.pos 1 b.lonely).toArray := by
  have run (blocks : List Block) (st : Building) :
      (blocks.foldl (fun st block => st.fail block.pos block.lonely) st).diagnostics =
        st.diagnostics ++ (blocks.map fun b => of .error b.pos 1 b.lonely).toArray := by
    induction blocks generalizing st with
    | nil => simp
    | cons block rest ih => exact (ih _).trans (by simp [Building.fail])
  exact run _ _

theorem finish_fatal (st : Building) : (finish st).fatal = st.fatal := by
  have run (blocks : List Block) (st : Building) :
      (blocks.foldl (fun st block => st.fail block.pos block.lonely) st).fatal = st.fatal := by
    induction blocks generalizing st with
    | nil => rfl
    | cons block rest ih => exact ih (st.fail block.pos block.lonely)
  exact run _ st

theorem wellNested_finish (quiet : (finish st).WellNested) : st.blocks = [] ∧ st.WellNested := by
  simp only [WellNested, diagnostics_finish, Array.mem_append, or_imp, forall_and] at quiet
  refine ⟨eq_nil_iff_forall_not_mem.2 fun block mem => ?_, quiet.1⟩
  have reported := quiet.2 (.of .error block.pos 1 block.lonely)
    (mem_toArray.2 (List.mem_map.2 ⟨block, mem_reverse.2 mem, rfl⟩))
  cases block <;> simp [isOfBlocks, of, Fault.isOfBlocks, Block.lonely, Fault.cause?, Cause.ofBlocks] at reported

theorem build_whole (whole : (build s ls).fatal = none) :
    (lines s ls {}).fatal = none ∧ build s ls = finish (lines s ls {}) := by
  unfold build at whole ⊢
  dsimp only at whole ⊢
  split at whole
  next early => simp [whole] at early
  next going => exact ⟨by simpa using going, if_neg going⟩

theorem build_eq (whole : (build s ls).fatal = none) :
    (∀ e ∈ allEdits s [] 0 ls, e.isAbort = false) ∧
      build s ls = finish ((({} : Building).editAll (allEdits s [] 0 ls)).atLine ls.length (ownerAfterAll [] ls)) := by
  obtain ⟨going, built⟩ := build_whole whole
  have made := lines_eq ls {} going
  have ends : (({} : Building).editAll (allEdits s [] 0 ls)).fatal = none := (congrArg fatal made).symm.trans going
  refine ⟨(fatal_editAll ends).1, ?_⟩
  rw [built, made, show ({} : Building).seq + ls.length = ls.length from Nat.zero_add _]

theorem finish_of_parses (h : Parses es xs) (seq : Nat) (owner : Text) :
    finish ((({} : Building).editAll es).atLine seq owner) =
      { seq, owner, root := xs.reverse, diagnostics := (es.filterMap report?).toArray } := by
  rw [h.editAll_eq, addAll_outside rfl]
  simp [finish, noting, atLine, closeAll]

theorem lines_going (now : st.fatal = none)
    (going : ∀ e ∈ allEdits s st.owner st.seq ls, e.isAbort = false) : (lines s ls st).fatal = none := by
  induction ls generalizing st with
  | nil => exact now
  | cons ln rest ih =>
    rw [allEdits, forall_mem_append] at going
    have next : (line s st ln).fatal = none := by
      rw [line_eq]
      exact (st.editAll_fatal going.1).trans now
    rw [lines, if_neg (by simp [next])]
    refine ih next ?_
    rw [line_eq]
    exact going.2

/-- **The program of lines that spell a tree is the tree.** -/
theorem build_of_parses (h : Parses (allEdits s [] 0 ls) xs) :
    build s ls = { seq := ls.length, owner := ownerAfterAll [] ls, root := xs.reverse
                   diagnostics := ((allEdits s [] 0 ls).filterMap report?).toArray } := by
  have whole : (lines s ls {}).fatal = none := lines_going rfl h.going
  have built : build s ls = finish (lines s ls {}) := by simp [build, whole]
  rw [built, lines_eq ls {} whole, finish_of_parses h]
  simp

/-- **The blocks of a program.**  In order, the tree holds every statement once that a line adds; nothing
    is reported about the nesting exactly if the words of blocks of the lines are well nested, and then
    the tree is the only one that the lines spell. -/
theorem build_blocks (s : Settings) (ls : List Line) (whole : (build s ls).fatal = none) :
    flattenAll (build s ls).program = (allEdits s [] 0 ls).filterMap Edit.added? ∧
      ((build s ls).WellNested ↔ Balanced (ls.filterMap (·.blockWord? s))) ∧
      (Balanced (ls.filterMap (·.blockWord? s)) →
        ∀ program, Parses (allEdits s [] 0 ls) program ↔ program = (build s ls).program) := by
  obtain ⟨going, made⟩ := build_eq whole
  have words := allEdits_words s [] 0 ls
  refine ⟨?_, ⟨fun quiet => ?_, fun nested => ?_⟩, fun nested program => ⟨fun h => ?_, ?_⟩⟩
  · rw [made, flatten_finish]
    exact Building.flatten_editAll {} _
  · obtain ⟨closed, quiet⟩ := wellNested_finish (made ▸ quiet)
    have start : OpenBlocks ({} : Building).blocks [] := .nil .nil
    have inside := start.editAll quiet
    rw [words] at inside
    cases show OpenBlocks [] _ from closed ▸ inside with
    | nil h => exact h
  · obtain ⟨xs, h⟩ := nested.exists_parses words going
    rw [made, finish_of_parses h]
    intro d mem
    obtain ⟨e, made, reported⟩ := List.mem_filterMap.1 (List.mem_toArray.1 mem)
    exact Edit.not_ofBlocks_report (allEdits_mild s [] 0 ls e made) reported
  · rw [made, finish_of_parses h, Building.program, List.reverse_reverse]
  · rintro rfl
    obtain ⟨xs, h⟩ := nested.exists_parses words going
    rw [made, finish_of_parses h, Building.program, List.reverse_reverse]
    exact h

/-- The lines of a text that includes no file and uses no macro. -/
def linesOf (data : Text) : List Line := (Source.load .bare 0 (bytes "a.asm") data {}).lines.toList

/-- A repetition in one branch and a condition in the other. -/
def nestedLines : List Line :=
  linesOf (bytes "x: if 1\n rept 2\n nop\n endr\n else\n ifdef x\n di\ny: endif\n halt\n endif\n ei\n")

/-- The same with the words that close the outer blocks taken for each other. -/
def crossedLines : List Line :=
  linesOf (bytes "x: if 1\n rept 2\n nop\n endif\n else\n ifdef x\n di\ny: endif\n halt\n endr\n ei\n")

theorem build_blocks_nested :
    (build .bare nestedLines).fatal = none ∧ (build .bare crossedLines).fatal = none ∧
      Parses (allEdits .bare [] 0 nestedLines) (build .bare nestedLines).program ∧
      (Statement.flattenAll (build .bare nestedLines).program).length = 9 ∧
      ¬Balanced (crossedLines.filterMap (·.blockWord? .bare)) := by
  have nested := build_blocks .bare nestedLines (by decide +kernel)
  have crossed := build_blocks .bare crossedLines (by decide +kernel)
  have balanced := nested.2.1.1 (by decide +kernel)
  refine ⟨by decide +kernel, by decide +kernel, (nested.2.2 balanced _).2 rfl, ?_, fun h => ?_⟩
  · rw [nested.1]
    decide +kernel
  · exact absurd (crossed.2.1.2 h) (by decide +kernel)

end Program

end Z80Asm
