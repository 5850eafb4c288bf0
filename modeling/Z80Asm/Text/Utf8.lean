import Z80Asm.Text

/-!
# Code points of a byte string

A byte string is read as UTF-8 piece by piece: a code point, or a stray byte that starts none.
`Text.pieces` gives the pieces and `Text.ofPoint` the bytes of a code point.
-/

namespace Z80Asm

/-- A piece of a byte string: an encoded code point or a byte that is part of none. -/
inductive Piece where
  | point (point : Nat)
  | stray (byte : UInt8)
  deriving Repr, DecidableEq

namespace Text

def isContinuation (b : UInt8) : Bool := 0x80 ≤ b && b ≤ 0xBF

def pair? (a b : UInt8) : Option Nat :=
  if 0xC2 ≤ a && a ≤ 0xDF && isContinuation b then
    some ((a.toNat - 0xC0) * 64 + (b.toNat - 0x80))
  else none

/-- The code point that three bytes encode; no surrogate and no overlong form. -/
def triple? (a b c : UInt8) : Option Nat :=
  if 0xE0 ≤ a && a ≤ 0xEF && isContinuation b && isContinuation c
      && !(a == 0xE0 && b < 0xA0) && !(a == 0xED && b ≥ 0xA0) then
    some ((a.toNat - 0xE0) * 4096 + (b.toNat - 0x80) * 64 + (c.toNat - 0x80))
  else none

/-- The code point that four bytes encode; none above U+10FFFF and no overlong form. -/
def quadruple? (a b c d : UInt8) : Option Nat :=
  if 0xF0 ≤ a && a ≤ 0xF4 && isContinuation b && isContinuation c && isContinuation d
      && !(a == 0xF0 && b < 0x90) && !(a == 0xF4 && b ≥ 0x90) then
    some ((a.toNat - 0xF0) * 262144 + (b.toNat - 0x80) * 4096 + (c.toNat - 0x80) * 64
      + (d.toNat - 0x80))
  else none

/-- The piece that starts with byte `a`, and how many of the following bytes belong to it. -/
def firstPiece (a : UInt8) (following : Text) : Piece × Nat :=
  if a < 0x80 then (.point a.toNat, 0)
  else
    let two := match following with
      | b :: _ => pair? a b
      | _ => none
    let three := match following with
      | b :: c :: _ => triple? a b c
      | _ => none
    let four := match following with
      | b :: c :: d :: _ => quadruple? a b c d
      | _ => none
    match two, three, four with
    | some p, _, _ => (.point p, 1)
    | none, some p, _ => (.point p, 2)
    | none, none, some p => (.point p, 3)
    | none, none, none => (.stray a, 0)

/-- The pieces of a byte string after its first `skip` bytes. -/
def piecesFrom : Nat → Text → List Piece
  | _, [] => []
  | skip + 1, _ :: rest => piecesFrom skip rest
  | 0, a :: rest =>
    let (piece, more) := firstPiece a rest
    piece :: piecesFrom more rest

def pieces (t : Text) : List Piece := piecesFrom 0 t

def ofPoint (p : Nat) : Text :=
  if p < 0x80 then [p.toUInt8]
  else if p < 0x800 then [(0xC0 + p / 64).toUInt8, (0x80 + p % 64).toUInt8]
  else if p < 0x10000 then
    [(0xE0 + p / 4096).toUInt8, (0x80 + p / 64 % 64).toUInt8, (0x80 + p % 64).toUInt8]
  else
    [(0xF0 + p / 262144).toUInt8, (0x80 + p / 4096 % 64).toUInt8, (0x80 + p / 64 % 64).toUInt8,
      (0x80 + p % 64).toUInt8]

/-- Blanks after a text, up to `width` pieces in all. -/
def padRight (width : Nat) (t : Text) : Text :=
  t ++ List.replicate (width - (pieces t).length) ' '.toUInt8

end Text

end Z80Asm
