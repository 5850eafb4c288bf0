import Z80Asm.Fault

/-!
# Diagnostics

A diagnostic is a fault with its place in the source, the pass that found it and how bad it is.  A
collection of diagnostics is a list in the order of their finding; `report` gives its lines, closed by
the counts of errors and warnings.
-/

namespace Z80Asm

structure Pos where
  file : Text := []
  line : Int := 0
  deriving Repr, DecidableEq

inductive Severity where
  | warning | error | fatal
  /-- A number that names no severity; it counts as an error. -/
  | unnamed (number : Int)
  deriving Repr, DecidableEq

namespace Severity

def named : List Severity := [warning, error, fatal]

def ofNumber (number : Int) : Severity := (numbered? named number).getD (unnamed number)

def name : Severity → Text
  | warning => bytes "warning"
  | error => bytes "error"
  | fatal => bytes "fatal"
  | unnamed n => unnamedText "Severity" n

end Severity

inductive Category where
  | syntaxError | unresolved | fileAccess | resourceLimit
  | commandLine
  | unnamed (number : Int)
  deriving Repr, DecidableEq

namespace Category

def named : List Category := [syntaxError, unresolved, fileAccess, resourceLimit, commandLine]

def ofNumber (number : Int) : Category := (numbered? named number).getD (unnamed number)

def name : Category → Text
  | syntaxError => bytes "SyntaxError"
  | unresolved => bytes "UnresolvedSymbolError"
  | fileAccess => bytes "FileAccessError"
  | resourceLimit => bytes "ResourceLimitFatal"
  | commandLine => bytes "CommandLineError"
  | unnamed n => unnamedText "Class" n

def ofFault (fault : Fault) : Category :=
  if fault.isLabelMissing || fault.cause? == some .unstable then unresolved
  else if fault.cause? == some .fileAccess then fileAccess
  else if fault.exceedsResources then resourceLimit
  else syntaxError

end Category

inductive Format where
  /-- File, line number twice, message. -/
  | plain
  /-- The form that an editor of the Visual Studio kind can jump from. -/
  | vs
  deriving Repr, DecidableEq

/-- The format of a number; numbers that name none are plain. -/
def Format.ofNumber (number : Int) : Format := if number = 1 then vs else plain

structure Diagnostic where
  severity : Severity
  category : Category
  pos : Pos
  pass : Int
  fault : Option Fault
  deriving Repr, DecidableEq

namespace Diagnostic

/-- The diagnostic of a fault found at `pos` in a pass, in the category of the fault. -/
def of (severity : Severity) (pos : Pos) (pass : Int) (fault : Fault) : Diagnostic :=
  { severity, category := .ofFault fault, pos, pass, fault := some fault }

def message (g : Grouping) (d : Diagnostic) : Text :=
  match d.fault with
  | some fault => fault.message g
  | none => []

def location (d : Diagnostic) : Text :=
  d.pos.file ++ bytes "(" ++ Text.ofInt d.pos.line ++ bytes "): line " ++ Text.ofInt d.pos.line

/-- The line of a diagnostic, without its end.  A diagnostic of no file has no place to show. -/
def format (g : Grouping) (format : Format) (d : Diagnostic) : Text :=
  if d.pos.file.isEmpty then
    match d.severity with
    | .warning => bytes "warning: " ++ d.message g
    | _ => d.message g
  else match format with
    | .vs =>
      let kind := match d.severity with
        | .warning => bytes "warning"
        | _ => bytes "error"
      d.pos.file ++ bytes "(" ++ Text.ofInt d.pos.line ++ bytes "): " ++ kind ++ bytes " PASS"
        ++ Text.ofInt d.pass ++ bytes ": " ++ d.message g
    | .plain =>
      let kind := match d.severity with
        | .warning => bytes "warning: "
        | .fatal => bytes "fatal: "
        | _ => []
      d.location ++ bytes ": " ++ kind ++ d.message g

def isError (d : Diagnostic) : Bool := d.severity != .warning

def isFatal (d : Diagnostic) : Bool := d.severity == .fatal

end Diagnostic

abbrev Diagnostics := List Diagnostic

namespace Diagnostics

/-- The number of errors, fatal ones included. -/
def errors (ds : Diagnostics) : Nat := ds.countP Diagnostic.isError

def warnings (ds : Diagnostics) : Nat := ds.countP (!·.isError)

def fatal? (ds : Diagnostics) : Option Diagnostic := ds.find? Diagnostic.isFatal

def summary (g : Grouping) (ds : Diagnostics) : Text :=
  bytes "Errors: " ++ g.ofNat ds.errors ++ bytes ", warnings: " ++ g.ofNat ds.warnings

def report (g : Grouping) (format : Format) (ds : Diagnostics) : List Text :=
  (ds.map (·.format g format) ++ [ds.summary g]).map (· ++ bytes "\n")

end Diagnostics

end Z80Asm
