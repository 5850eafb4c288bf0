import Z80Asm.Command.Requests

/-!
# The program

Runs the command on the files of the system.
-/

namespace Z80Asm.Command

def systemReason : IO.Error → Text
  | .noFileOrDirectory .. => bytes Refusal.missing.text
  | .inappropriateType _ _ details | .permissionDenied _ _ details | .invalidArgument _ _ details
  | .alreadyExists _ _ details | .resourceExhausted _ _ details | .noSuchThing _ _ details
  | .otherError _ details => Text.lower (bytes details)
  | e => bytes (toString e)

def systemComplaint (verb : String) (path : Text) (e : IO.Error) : Text :=
  bytes verb ++ bytes " " ++ path ++ bytes ": " ++ systemReason e

def isDirectoryError : IO.Error → Bool
  | .inappropriateType _ _ details => Text.lower (bytes details) == bytes Refusal.isDirectory.text
  | _ => false

def systemPath (path : Text) : Option String := String.fromUTF8? (ByteArray.mk path.toArray)

def readSystem (path : Text) : IO (Except Text Text) := do
  match systemPath path with
  | none => return .error (Disk.complaint "open" path .missing)
  | some name =>
    try
      return .ok (← IO.FS.readBinFile name).toList
    catch e => return .error (systemComplaint (if isDirectoryError e then "read" else "open") path e)

def writeSystem (path contents : Text) : IO (Option Text) := do
  match systemPath path with
  | none => return some (Disk.complaint "open" path .missing)
  | some name =>
    try
      IO.FS.writeBinFile name (ByteArray.mk contents.toArray)
      return none
    catch e => return some (systemComplaint "open" path e)

abbrev Known := Std.TreeMap Text (Except Text Text)

def Known.read (known : Known) (path : Text) : Except Text Text := (known[path]?).getD (.error [])

partial def gather (job : Job) (known : Known) : IO Known := do
  match (job.requests known.read).filter (!known.contains ·) with
  | [] => return known
  | new =>
    let mut known := known
    for path in new do
      known := known.insert path (← readSystem path)
    gather job known

/-- Writes files in turn, up to the first that cannot be written. -/
def writeFiles (job : Job) (r : Report) : List (Text × Text) → IO Report
  | [] => return r
  | (name, contents) :: rest => do
    match ← writeSystem name contents with
    | none => writeFiles job r rest
    | some reason => return job.unwritten r name reason

def runSystem (args : List Text) : IO (Option Report) := do
  match plan args with
  | .error r => return some r
  | .ok job =>
    let known ← gather job ∅
    match job.assemble known.read with
    | none => return none
    | some (r, files) => return some (← writeFiles job r files)

end Z80Asm.Command

def main (args : List String) : IO UInt32 := do
  match ← Z80Asm.Command.runSystem (args.map Z80Asm.bytes) with
  | none => return 2
  | some r =>
    (← IO.getStdout).write (ByteArray.mk r.stdout.toArray)
    (← IO.getStderr).write (ByteArray.mk r.stderr.toArray)
    return UInt32.ofNat r.exit.code
