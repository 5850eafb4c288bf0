import Z80Asm.Text

/-!
# File paths

Paths with slashes, as text.  `clean` is the shortest path that means the same by text alone: it drops
empty and `.` parts, and takes away a part before `..`.
-/

namespace Z80Asm.Path

def slash : UInt8 := '/'.toUInt8

def isAbsolute (p : Text) : Bool := p.head? == some slash

/-- Adds a part to the parts of a clean path, given last part first. -/
def addPart (rooted : Bool) (parts : List Text) (part : Text) : List Text :=
  if part.isEmpty || part == bytes "." then parts
  else if part == bytes ".." then
    match parts with
    | last :: before => if last == bytes ".." then part :: parts else before
    | [] => if rooted then [] else [part]
  else part :: parts

/-- The shortest path that means the same. -/
def clean (p : Text) : Text :=
  let rooted := isAbsolute p
  let parts := (Text.splitAtByte slash p).foldl (addPart rooted) []
  let body := Text.join [slash] parts.reverse
  if rooted then slash :: body else if body.isEmpty then bytes "." else body

def join (dir p : Text) : Text :=
  if dir.isEmpty then (if p.isEmpty then [] else clean p)
  else if p.isEmpty then clean dir
  else clean (dir ++ slash :: p)

def base (p : Text) : Text := (p.reverse.takeWhile (· != slash)).reverse

def dir (p : Text) : Text := clean (p.take (p.length - (base p).length))

/-- The path without the last dot of its last part and what follows it. -/
def dropExtension (p : Text) : Text :=
  let name := base p
  if name.contains '.'.toUInt8 then
    let extension := (name.reverse.takeWhile (· != '.'.toUInt8)).length + 1
    p.take (p.length - extension)
  else p

end Z80Asm.Path
