import Z80Asm.Path
import Z80Asm.Sorted

/-!
# Disks

The files below a working directory, by their clean relative names.  Directories are those that the names
of files pass through; beyond the working directory nothing is known but directories.  A path is followed
part by part, and every part but the last has to be a directory.
-/

namespace Z80Asm

/-- Files by their clean names relative to the working directory. -/
abbrev Disk := Std.TreeMap Text Text

inductive Refusal where
  | missing | isDirectory | notDirectory
  deriving Repr, DecidableEq

def Refusal.text : Refusal → String
  | missing => "no such file or directory"
  | isDirectory => "is a directory"
  | notDirectory => "not a directory"

inductive Spot where
  | directory (parts : List Text)
  | outside
  | file (name contents : Text)
  | vacant (name : Text)
  | unknown
  deriving Repr, DecidableEq

namespace Disk

def ofList (files : List (Text × Text)) : Disk :=
  Std.TreeMap.ofList (files.map fun (name, contents) => (Path.clean name, contents)) compare

def isDirectory (d : Disk) (name : Text) : Bool :=
  d.keys.any ((name ++ [Path.slash]).isPrefixOf ·)

def lookup (d : Disk) (parts : List Text) : Spot :=
  let name := Text.join [Path.slash] parts.reverse
  match d[name]? with
  | some contents => .file name contents
  | none => if d.isDirectory name then .directory parts else .vacant name

def step (d : Disk) (part : Text) : Spot → Except Refusal Spot
  | .directory parts =>
    if part.isEmpty || part == bytes "." then .ok (.directory parts)
    else if part == bytes ".." then
      match parts with
      | [] => .ok .outside
      | _ :: above => .ok (.directory above)
    else .ok (d.lookup (part :: parts))
  | .outside =>
    if part.isEmpty || part == bytes "." || part == bytes ".." then .ok .outside else .ok .unknown
  | .file _ _ => .error .notDirectory
  | .vacant _ | .unknown => .error .missing

def follow (d : Disk) (path : Text) : Except Refusal Spot :=
  if path.isEmpty then .error .missing
  else
    let start : Spot := if Path.isAbsolute path then .outside else .directory []
    (Text.splitAtByte Path.slash path).foldlM (fun place part => d.step part place) start

def complaint (verb : String) (path : Text) (refusal : Refusal) : Text :=
  bytes verb ++ bytes " " ++ path ++ bytes ": " ++ bytes refusal.text

def read (d : Disk) (path : Text) : Except Text Text :=
  match d.follow path with
  | .ok (.file _ contents) => .ok contents
  | .ok (.directory _) | .ok .outside => .error (complaint "read" path .isDirectory)
  | .ok (.vacant _) | .ok .unknown => .error (complaint "open" path .missing)
  | .error refusal => .error (complaint "open" path refusal)

def withoutEndSlashes (path : Text) : Text := (path.reverse.dropWhile (· == Path.slash)).reverse

/-- Writes a file, which is made if there is none; a failure is its text. -/
def write (d : Disk) (path contents : Text) : Except Text Disk :=
  let refuse (refusal : Refusal) : Except Text Disk := .error (complaint "open" path refusal)
  let body := withoutEndSlashes path
  let isNamed := body.length = path.length
  match d.follow (if body.isEmpty then path else body) with
  | .ok (.file name _) | .ok (.vacant name) =>
    if isNamed then .ok (d.insert name contents) else refuse .isDirectory
  | .ok (.directory _) | .ok .outside => refuse .isDirectory
  | .ok .unknown => refuse .missing
  | .error refusal => refuse refusal

/-- The files that are new or have changed since a disk, in name order. -/
def changes (before after : Disk) : List (Text × Text) :=
  after.toList.filter fun (name, contents) => before[name]? != some contents

end Disk

end Z80Asm
