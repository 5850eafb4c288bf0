import Z80Asm.Text

/-!
# Grouped numbers

Counts and limits in messages are written with their digits in groups, as the language of the user
writes them.  A language fixes the separator, the minus sign, the digits, and the sizes of the last
group and of the groups before it.
-/

namespace Z80Asm

structure Grouping where
  separator : Text
  minus : Text := bytes "-"
  last : Nat := 3
  other : Nat := 3
  digits : List Text := (List.range 10).map Text.ofNat
  deriving Repr, DecidableEq

namespace Grouping

def english : Grouping := { separator := bytes "," }

/-- Puts separators into digits given last digit first: one after `size` digits, then one after
    every `other` digits.  `size` is the number of digits still missing to a full group. -/
def groupReversed (g : Grouping) : Nat → List Text → List Text
  | _, [] => []
  | 0, d :: ds => g.separator :: d :: groupReversed g (g.other - 1) ds
  | size + 1, d :: ds => d :: groupReversed g size ds

def digitsOf (g : Grouping) (n : Nat) : List Text :=
  (Nat.toDigits 10 n).map fun c => g.digits.getD (c.toNat - '0'.toNat) []

def ofNat (g : Grouping) (n : Nat) : Text :=
  (groupReversed g g.last (g.digitsOf n).reverse).reverse.flatten

def ofInt (g : Grouping) : Int → Text
  | .ofNat n => g.ofNat n
  | .negSucc n => g.minus ++ g.ofNat (n + 1)

end Grouping

end Z80Asm
