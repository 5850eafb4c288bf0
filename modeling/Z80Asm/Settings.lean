import Z80Asm.Fault
import Z80Asm.Path
import Z80Asm.Token

/-!
# Settings of a run

What a run is told beside the source: the dialect, limits, predefined constants, and how files are
read.  `Settings.find` looks up a file that a source names.
-/

namespace Z80Asm

structure Settings where
  dialect : Dialect := .native
  /-- Reverse the order of a `pop` of several registers, in the Compass dialect. -/
  reversePop : Bool := false
  includePath : List Text := []
  /-- The greatest number of passes; zero or less for the usual one. -/
  maxPasses : Int := 0
  /-- The greatest number of defined symbols; zero or less for the usual one. -/
  maxLabels : Int := 0
  listing : Bool := false
  /-- Constants that are defined before the source; the last of several values of a name counts. -/
  predefined : List (Text × Int64) := []
  read : Text → Except Fault Text

namespace Settings

/-- The greatest number of passes, at least one. -/
def passLimit (s : Settings) : Nat := if s.maxPasses ≤ 0 then 64 else s.maxPasses.toNat

def labelLimit (s : Settings) : Int := if s.maxLabels ≤ 0 then 32768 else s.maxLabels

/-- A `pop` of several registers goes from the last to the first. -/
def popsReversed (s : Settings) : Bool := s.dialect == .compass && s.reversePop

/-- The paths under which a file is looked up that is named in the file `source`: next to it, as it is
    named, then in the directories of the include path. -/
def candidates (s : Settings) (name source : Text) : List Text :=
  if Path.isAbsolute name then [name]
  else
    (if source.isEmpty then [] else [Path.join (Path.dir source) name]) ++ [name]
      ++ s.includePath.map (Path.join · name)

/-- Reads the first path that can be read; if there is none, the reason is that of the first one. -/
def readFirst (s : Settings) (reason : Option Fault) : List Text → Except (Option Fault) (Text × Text)
  | [] => .error reason
  | path :: rest =>
    match s.read path with
    | .ok data => .ok (path, data)
    | .error fault => readFirst s (reason.or (some fault)) rest

/-- Finds a file that is named in the file `source`: its path and contents. -/
def find (s : Settings) (name source : Text) : Except Fault (Text × Text) :=
  match readFirst s none (s.candidates name source) with
  | .ok found => .ok found
  | .error reason => .error (.file name (reason.getD (.plain .fileAccess)))

end Settings

end Z80Asm
