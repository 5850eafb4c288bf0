import Z80Asm.Proofs.ReplacedRows
import Z80Asm.Proofs.Spans

/-!
# Lines as they are loaded

A line of the source is a row of one of its files, split into tokens.  What the scanner makes of a row is
fixed, so that names in a program have the shape of words, and texts of lines hold no line feed.
-/

namespace Z80Asm

/-- **Words that are split off a row** have the shape of words, and the role of their text. -/
theorem lex_words {dialect : Dialect} {row : Text} {tok : Token} (mem : tok ∈ (lex dialect row).tokens)
    {text : Text} {role : Role} (isWord : tok.lexeme = .word text role) :
    Lex.IsWord text ∧ role = .ofWord text := by
  rw [Lex.lex_parts] at mem
  obtain ⟨part, isPart, isToken⟩ := List.mem_filterMap.1 mem
  rcases (Lex.parts_laid dialect row).forall_mem part isPart with
    ⟨b, rfl, -⟩ | ⟨b, rfl⟩ | ⟨rest, rfl⟩ | ⟨tok, span, fault, rfl, -, spells⟩
  · cases isToken
  · cases isToken
  · cases isToken
  · cases isToken
    rw [isWord] at spells
    exact spells.2

/-! ## Rows of a file -/

namespace Assembly

def loadedOf (s : Settings) (file data : Text) : List Line :=
  (Source.load s Source.includeLimit file data {}).lines.toList

def expansionOf (s : Settings) (file data : Text) : Expansion :=
  Macro.expand s Macro.depthLimit (loadedOf s file data) {}

def usesOf (s : Settings) (file data : Text) : List Macro.Use :=
  Macro.uses s Macro.depthLimit (loadedOf s file data) {}

theorem loadedOf_isRow {s : Settings} {file data : Text} {ln : Line} (mem : ln ∈ loadedOf s file data) :
    ln.IsRow s.dialect :=
  (Source.load_steps (fun _ => id) Source.includeLimit file data {}).forall_mem (by simp) ln mem

end Assembly

end Z80Asm
