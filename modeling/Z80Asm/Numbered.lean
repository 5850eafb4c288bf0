import Z80Asm.Text

/-!
# Numbered kinds

Registers, scopes, severities and the like are kinds with a number and a name.  Where a number from
outside may name none of them, it is shown as the kind's type and the number: `Reg(40)`.
-/

namespace Z80Asm

def unnamedText (type : String) (number : Int) : Text :=
  bytes type ++ bytes "(" ++ Text.ofInt number ++ bytes ")"

def numbered? {α : Type} (named : List α) (number : Int) : Option α :=
  match number with
  | .ofNat n => named[n]?
  | .negSucc _ => none

/-- The name that stands at a number in a list of names, or the number itself. -/
def nameAt (type : String) (names : List String) (number : Int) : Text :=
  match numbered? names number with
  | some name => bytes name
  | none => unnamedText type number

end Z80Asm
