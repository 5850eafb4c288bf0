import Z80Asm.Assembly
import Z80Asm.Command.Dump
import Z80Asm.Command.Options
import Z80Asm.Disk
import Z80Asm.Listing
import Z80Asm.Text.Grouping.Languages

/-!
# The command

A command line becomes a `Job`, unless it is refused or asks for help.  The job assembles its source and
names the files to be written, which are written in turn up to the first one that cannot be.  Nothing is
written unless the source could be assembled, with errors or without.
-/

namespace Z80Asm.Command

inductive Exit where
  | done
  | errors
  | file
  /-- A limit or a cancellation ended the run. -/
  | limit
  | noInput
  | usage
  deriving Repr, DecidableEq

namespace Exit

def code : Exit → Nat
  | done => 0
  | errors => 1
  | file => 2
  | limit => 3
  | noInput => 4
  | usage => 5

def ofFault : Option Fault → Exit
  | none => done
  | some fault =>
    match fault.cause? with
    | some .resourceLimit | some .cancelled => limit
    | some .fileAccess => file
    | some .compile => errors
    | some .noInput => noInput
    | some .usage => usage
    | _ => limit

end Exit

/-! ## Texts -/

def banner : Text := bytes "SjASM Z80 Assembler v0.39h\n"

def useLine : Text := bytes "sjasm [options] sourcefile [targetfile [listfile]] [flags]\n"

def helpText : Text :=
  bytes "Sjasm assembles Z80 source into a binary file, resolving forward
references over as many passes as needed. The Compass compatible
dialect is selected by -c.

Usage:
  sjasm [options] sourcefile [targetfile [listfile]] [flags]

Flags:
  -c, --compass               Compass compatibility mode
  -D, --define stringArray    Predefine a constant, name[=value]
  -h, --help                  help for sjasm
  -i, --include stringArray   Include file search directory
  -l, --listing               Write a listing file
  -r, --reverse-pop           Reverse multi-register pop order (with -c)
  -e, --stderr                Print diagnostics to stderr
  -s, --symbols               Write a symbol file
      --trace int             Pass trace verbosity
  -v, --vs                    Visual Studio diagnostic format
"

structure Report where
  exit : Exit := .done
  stdout : Text := banner
  stderr : Text := []
  deriving Repr, DecidableEq

namespace Report

def print (r : Report) (toStderr : Bool) (t : Text) : Report :=
  if toStderr then { r with stderr := r.stderr ++ t } else { r with stdout := r.stdout ++ t }

def fail (r : Report) (o : Options) (fault : Fault) : Report :=
  { r.print o.stderr (bytes "Error: " ++ fault.message .english ++ bytes "\n") with
    exit := .ofFault (some fault) }

end Report

/-! ## Jobs -/

structure Job where
  options : Options
  source : Text
  target : Text
  listing : Option Text
  symbols : Option Text
  predefined : List (Text × Int64)

/-- Reads a definition `name` or `name=value`; without a value the constant is one. -/
def definition? (t : Text) : Option (Text × Int64) :=
  let (name, value) := match Text.cut? '='.toUInt8 t with
    | some (name, value) => (name, (Number.read value).toOption)
    | none => (t, some 1)
  if name.isEmpty then none else value.map (name, ·)

/-- Reads definitions in turn; the first that is none is the failure. -/
def definitions : List Text → Except Text (List (Text × Int64))
  | [] => .ok []
  | t :: ts =>
    match definition? t with
    | none => .error t
    | some d => (definitions ts).map (d :: ·)

def nameLimit : Nat := 3

def Reading.refusal? (r : Reading) : Option Misuse :=
  r.misuse.or
    (if r.options.help || r.names.length ≤ nameLimit then none else some (.tooManyNames r.names.length))

/-- The job of a command line; the report of the run if there is none. -/
def plan (args : List Text) : Except Report Job :=
  let r := Reading.ofArgs args
  let o := r.options
  match r.refusal? with
  | some misuse =>
    .error ((Report.fail {} o (.about .usage misuse.message)).print o.stderr useLine)
  | none =>
    if o.help then .error (Report.print {} false helpText)
    else match r.names with
      | [] => .error (Report.fail {} o (.plain .noInput))
      | source :: files =>
        match definitions o.define with
        | .error t => .error (Report.fail {} o (.about .usage (bytes "-D " ++ t)))
        | .ok predefined =>
          let base := Path.dropExtension source
          let withListing := o.listing || files.length > 1
          .ok { options := o, source, predefined
                target := files[0]?.getD (base ++ bytes ".out")
                listing := if withListing then some (files[1]?.getD (base ++ bytes ".lst")) else none
                symbols := if o.symbols then some (base ++ bytes ".sym") else none }

namespace Job

/-- The settings of a job, with a way to read files whose failures are texts. -/
def settings (job : Job) (read : Text → Except Text Text) : Settings :=
  { dialect := if job.options.compass then .compass else .native
    reversePop := job.options.reversePop
    includePath := job.options.search
    listing := job.listing.isSome
    predefined := job.predefined
    read := fun path => (read path).mapError .other }

def files (job : Job) (result : Result) : List (Text × Text) :=
  let symbols := result.symbols.getD .empty
  [(job.target, result.code.toList)]
    ++ (job.listing.map (·, (Listing.rows result.listing symbols).flatten)).toList
    ++ (job.symbols.map (·, symbols.equates.flatten)).toList

def dumpLevel : Int64 := 3

def report (job : Job) (result : Result) : Report :=
  let o := job.options
  let r : Report := { exit := .ofFault result.fault }
  let r := if dumpLevel ≤ o.trace then r.print true (dump (result.symbols.getD .empty).definedList) else r
  let format : Format := if o.vs then .vs else .plain
  r.print o.stderr (result.diagnostics.report (.ofTag o.lang) format).flatten

/-- Assembles the source of a job: the report, and the files to be written.  None if the run broke off at
    a part of a binary file that does not exist. -/
def assemble (job : Job) (read : Text → Except Text Text) : Option (Report × List (Text × Text)) :=
  match Assembly.assembleFile (job.settings read) Assembly.neverCancelled job.source with
  | .outOfBounds => none
  | .finished result =>
    let r := job.report result
    let writes := r.exit == .done || r.exit == .errors
    some (r, if writes then job.files result else [])

def unwritten (job : Job) (r : Report) (name reason : Text) : Report :=
  r.fail job.options (.file name (.other reason))

/-- Writes files in turn, up to the first that cannot be written. -/
def writeAll (job : Job) : List (Text × Text) → Report → Disk → Report × Disk
  | [], r, d => (r, d)
  | (name, contents) :: rest, r, d =>
    match d.write name contents with
    | .ok d => writeAll job rest r d
    | .error reason => (job.unwritten r name reason, d)

end Job

/-- Runs the command on a disk.  None if the run broke off at a part of a binary file that does not
    exist. -/
def run (args : List Text) (d : Disk) : Option (Report × Disk) :=
  match plan args with
  | .error r => some (r, d)
  | .ok job => (job.assemble d.read).map fun (r, files) => job.writeAll files r d

end Z80Asm.Command
