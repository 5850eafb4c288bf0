import Z80Asm.Text.Letters
import Z80Asm.Text.Utf8

/-!
# Misspelled names

The name that was probably meant by one that is unknown: the one with the least edit distance, if less than
half of the letters are wrong.  Case and underscores do not count.
-/

namespace Z80Asm.Script.Spelling

/-- A name without underscores, in lower case. -/
def fold (name : Text) : Text :=
  (Text.pieces name).flatMap fun
    | .point p => if p = '_'.toNat then [] else Text.ofPoint (Text.lowerPoint p)
    | .stray _ => Text.ofPoint 0xFFFD

/-- The next row of distances: from the row of the bytes before `b` to the row with it.  `left` is the
distance just found and `corner` the first of the row before. -/
def nextRow (b : UInt8) (left : Nat) : Text → Nat → List Nat → List Nat
  | y :: ys, corner, up :: row =>
    let here := min (corner + if b == y then 0 else 1) (min (left + 1) (up + 1))
    here :: nextRow b here ys up row
  | _, _, _ => []

/-- The last of the distances of `xs` to the parts of `ys` that start it; `row` are the distances of the bytes
already passed over, `count` of them. -/
def lastDistance (ys : Text) (count : Nat) (row : List Nat) : Text → Nat
  | [] => (count :: row).getLast?.getD 0
  | x :: xs => lastDistance ys (count + 1) (nextRow x (count + 1) ys count row) xs

/-- The number of bytes to insert, drop or replace to get from one text to another. -/
def distance (xs ys : Text) : Nat := lastDistance ys 0 (List.range' 1 ys.length) xs

/-- The first of the nearest candidates, if fewer than half of the letters are wrong. -/
def nearest? (name : Text) (candidates : List Text) : Option Text :=
  let name := fold name
  let start : Option Text × Nat := (none, (name.length + 1) / 2)
  (candidates.foldl (fun best candidate =>
    let d := distance name (fold candidate)
    if d < best.2 then (some candidate, d) else best) start).1

def hint (mark : Text) (name : Text) (candidates : List Text) : Text :=
  match nearest? name candidates with
  | some meant => bytes " (did you mean " ++ mark ++ meant ++ bytes "?)"
  | none => []

end Z80Asm.Script.Spelling
