import Z80Asm.Proofs.Blocks
import Z80Asm.Proofs.LoadedRows

/-!
# Where statements come from

A statement that is executed stands in the program, and one that stands in the program was made from a line of
the expansion, which in turn is a row of a file, a copy of one, or the label in front of a use.
-/

namespace Z80Asm

open List

open Statement (flattenAll)

variable {data file : Text} {s : Settings} {ls : List Line} {h : Heading}

/-! ## Lines of a program -/

namespace Program

/-- A line of which a statement is made that can be executed without an error: nothing is lexically wrong with
    it, its label is valid, and it has no word of the other dialect, unless it starts a script. -/
structure Sound (s : Settings) (owner : Text) (ln : Line) : Prop where
  fault : ln.fault = none
  label : ∀ label ∈ (Token.splitLabel ln.tokens).1, (labelName owner label.text).2.2 = none
  dialect : ln.script = none → s.dialect = .native → Token.compassWord? ln.tokens = none

/-- **What a statement has from its line**, and that it reports an error if something is wrong there. -/
theorem edits_stem (s : Settings) (owner : Text) (seq : Nat) (ln : Line) :
    ∀ e ∈ edits s owner seq ln, ∀ h ∈ e.added?, h.Stems (lineNode owner seq ln) ∧
      ((∃ node fault, h = .act node (.bad fault)) ∨ Sound s owner ln) := by
  intro e mem h adds
  refine ⟨(edits_spells s owner seq ln).stems e mem h adds, ?_⟩
  have becomes := edits_becomes s owner seq ln
  generalize edits s owner seq ln = es at becomes mem
  cases becomes with
  | lexical | label | foreign =>
    obtain rfl := mem_singleton.1 mem
    cases adds
    exact .inl ⟨_, _, rfl⟩
  | script labelled isScript => exact .inr ⟨labelled.fault, labelled.label, by simp [isScript]⟩
  | body labelled noScript noWord => exact .inr ⟨labelled.fault, labelled.label, fun _ => noWord⟩

/-- A statement is made by an edit of a line; what holds of the owner of local names at first, and after
    each line, holds there. -/
theorem exists_edit_of_lines (P : Text → Prop) {st : Building} (now : P st.owner)
    (kept : ∀ ln ∈ ls, ∀ owner, P owner → P (ownerAfter owner ln)) (mem : h ∈ (lines s ls st).flatten) :
    h ∈ st.flatten ∨ ∃ ln ∈ ls, ∃ owner seq, P owner ∧ ∃ e ∈ edits s owner seq ln, e.added? = some h := by
  induction ls generalizing st with
  | nil => exact .inl mem
  | cons ln rest ih =>
    rw [forall_mem_cons] at kept
    have here : h ∈ (line s st ln).flatten → h ∈ st.flatten ∨ ∃ ln' ∈ ln :: rest, ∃ owner seq,
        P owner ∧ ∃ e ∈ edits s owner seq ln', e.added? = some h := by
      intro mem
      have flat : (line s st ln).flatten = (st.editAll (edits s st.owner (st.seq + 1) ln)).flatten := by
        rw [line_eq]
        rfl
      rw [flat, Building.flatten_editAll] at mem
      refine (mem_append.1 mem).imp id fun mem => ?_
      obtain ⟨e, isEdit, adds⟩ := List.mem_filterMap.1 mem
      exact ⟨ln, mem_cons_self, _, _, now, e, isEdit, adds⟩
    rw [lines] at mem
    split at mem
    · exact here mem
    · have next : P (line s st ln).owner := by
        rw [line_eq]
        exact kept.1 _ now
      rcases ih next kept.2 mem with mem | ⟨ln', isLine, made⟩
      · exact here mem
      · exact .inr ⟨ln', mem_cons_of_mem _ isLine, made⟩

theorem exists_edit_of_build (P : Text → Prop) (new : P [])
    (kept : ∀ ln ∈ ls, ∀ owner, P owner → P (ownerAfter owner ln)) (mem : h ∈ flattenAll (build s ls).program) :
    ∃ ln ∈ ls, ∃ owner seq, P owner ∧ ∃ e ∈ edits s owner seq ln, e.added? = some h := by
  have made : h ∈ (lines s ls {}).flatten := by
    unfold build at mem
    dsimp only at mem
    split at mem
    · exact mem_append_left _ mem
    · rwa [flatten_finish] at mem
  exact (exists_edit_of_lines P new kept made).resolve_left (by simp [Building.flatten, flattenAll])

end Program

/-! ## Lines of an expansion -/

namespace Assembly

/-- What holds of rows, and is kept when macros are expanded, holds of all lines of an expansion. -/
theorem expansionOf_lines (P : Line → Prop) (row : ∀ ln ∈ loadedOf s file data, P ln)
    (label : ∀ ln label, (Token.splitLabel ln.tokens).1 = some label → P ln → P (Macro.labelLine ln label))
    (copy : ∀ st line u st₁ ln, Macro.use? st line = some (u, st₁) → P line → P ln → P (u.copy s.dialect ln)) :
    ∀ ln ∈ (expansionOf s file data).lines.toList, P ln := by
  have keeps : Macro.Keeps s (usesOf s file data) (∀ ln ∈ ·, P ln) (∀ ln ∈ ·.body, P ln) P := {
    behind := fun n all ln mem => (forall_mem_cons.1 all).2 ln (mem_of_mem_drop mem)
    define := fun all _ m isMacro ln mem =>
      (forall_mem_cons.1 all).2 ln ((Macro.recorded?_initial isMacro).subset mem)
    line := fun all => (forall_mem_cons.1 all).1
    label := fun all isLabel => label _ _ isLabel (forall_mem_cons.1 all).1
    use := fun u _ st line rest st₁ isUse all inBody ln mem => by
      obtain ⟨ln', isLine, rfl⟩ := List.mem_map.1 mem
      exact copy _ _ _ _ _ isUse (forall_mem_cons.1 all).1 (inBody ln' isLine) }
  exact ((Macro.runs_expand s Macro.depthLimit (loadedOf s file data) {}).keeps keeps row .empty).2.lines

theorem expansionOf_rows : ∀ ln ∈ (expansionOf s file data).lines.toList, 0x0A ∉ ln.text ∧ 0 < ln.pos.line := by
  refine expansionOf_lines _ (fun ln mem => ?_) (fun ln label _ here => here) ?_
  · exact ⟨(loadedOf_isRow mem).unbroken, (loadedOf_isRow mem).numbered⟩
  · intro st line u st₁ ln isUse here inBody
    obtain ⟨_, _, _, -, -, rfl, -⟩ := Macro.use?_eq_some isUse
    exact ⟨inBody.1, here.2⟩

/-- **An executed statement has the text and the number of a row.** -/
theorem visit_row {p : Pass} {v : Visit} (mem : v ∈ visitsOf s (programOf s file data) p) :
    0x0A ∉ v.statement.node.text ∧ 0 < v.statement.node.pos.line := by
  have stands := Walk.heading_of_visit p _ _ v mem
  obtain ⟨ln, isLine, owner, seq, -, e, isEdit, adds⟩ :=
    Program.exists_edit_of_build (fun _ => True) trivial (fun _ _ _ _ => trivial) stands
  have stems := (Program.edits_stem s owner seq ln e isEdit _ adds).1
  rw [← Statement.node_heading, stems.text, stems.pos]
  exact expansionOf_rows ln isLine

end Assembly

end Z80Asm
