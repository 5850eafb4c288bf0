import Z80Asm.Cpu.Encoding
import Z80Asm.Text.Grouping

/-!
# Faults

Everything that can be wrong with a source or a run.  A `Fault` is a cause with what is needed to
report it; its wording is `Fault.message`, and the plain cause that it comes down to is
`Fault.cause?`, by which runs are judged.
-/

namespace Z80Asm

/-- A cause that needs no further data. -/
inductive Cause where
  -- Outcomes of a run.
  | compile | fileAccess | resourceLimit | cancelled
  -- Words, numbers and strings.
  | numberInvalid | numberSpace | stringEmpty | stringLonely | stringLong | character | compassOnly
  -- Expressions and operands.
  | expression | parenthesis | divideByZero | operandsMissing | operandsExtra
  | instructionInvalid | operandInvalid | operandMissing | operandExtra
  -- Labels, macros and blocks.
  | labelDuplicate | labelInvalid | labelRequired
  | macroSyntax | macroDuplicate | macroLonely | endmLonely | macroNesting | includeNesting
  | ifLonely | endifLonely | elseLonely | elseDuplicate | reptLonely | endrLonely | scriptLonely
  -- Found while the program is walked.
  | unstable | assertion | incbinRange | script
  -- The command line.
  | noInput | usage
  deriving Repr, DecidableEq

def Cause.text : Cause → String
  | compile => "source contains errors"
  | fileAccess => "file access"
  | resourceLimit => "resource limit exceeded"
  | cancelled => "assembly cancelled"
  | numberInvalid => "invalid number"
  | numberSpace => "whitespace inside numeric literal"
  | stringEmpty => "empty string"
  | stringLonely => "unterminated string"
  | stringLong => "string too long for a value"
  | character => "unexpected character"
  | compassOnly => "compass syntax requires compatibility mode"
  | expression => "syntax error in expression"
  | parenthesis => "unbalanced parenthesis"
  | divideByZero => "division by zero"
  | operandsMissing => "operand expected"
  | operandsExtra => "unexpected operand"
  | instructionInvalid => "unrecognized instruction"
  | operandInvalid => "illegal operand"
  | operandMissing => "operand expected"
  | operandExtra => "too many operands"
  | labelDuplicate => "duplicate label"
  | labelInvalid => "invalid label name"
  | labelRequired => "label required"
  | macroSyntax => "macro syntax"
  | macroDuplicate => "macro duplicated"
  | macroLonely => "macro without endm"
  | endmLonely => "endm without macro"
  | macroNesting => "macro expansion nested too deeply"
  | includeNesting => "include nested too deeply"
  | ifLonely => "if without endif"
  | endifLonely => "endif without if"
  | elseLonely => "else without if"
  | elseDuplicate => "else already seen"
  | reptLonely => "rept without endr"
  | endrLonely => "endr without rept"
  | scriptLonely => "script without endscript"
  | unstable => "symbol value does not stabilize"
  | assertion => "assertion failed"
  | incbinRange => "incbin offset or length outside file"
  | script => "script"
  | noInput => "no input file"
  | usage => "invalid command line"

inductive Fault where
  | plain (cause : Cause)
  | detail (fault : Fault) (note : Text)
  | instruction (word : Text)
  | labelMissing (name : Text)
  | user (message : Text)
  | file (name : Text) (reason : Fault)
  | inMacro (name : Text) (fault : Fault)
  | macroArgs (name : Text) (want got : Int)
  | symbolLimit (limit : Int)
  | misfit (misfit : Cpu.Misfit)
  | operands (mnemonic : Text) (ops : List Cpu.Operand) (fault : Fault)
  | other (message : Text)
  deriving Repr, DecidableEq

namespace Fault

def about (cause : Cause) (note : Text) : Fault := .detail (.plain cause) note

def misfitText (g : Grouping) (m : Cpu.Misfit) : Text :=
  let value := g.ofInt m.value.toInt
  let range := bytes "[" ++ g.ofInt m.min.toInt ++ bytes ", " ++ g.ofInt m.max.toInt ++ bytes "]"
  if m.strict then bytes "value " ++ value ++ bytes " out of range " ++ range
  else bytes "bytes lost: value " ++ value ++ bytes " does not fit " ++ range

/-- The text of a fault, with numbers grouped as `g` says. -/
def message (g : Grouping) : Fault → Text
  | plain cause => bytes cause.text
  | detail fault note => fault.message g ++ bytes ": " ++ note
  | instruction word => bytes "unrecognized instruction: " ++ word
  | labelMissing name => bytes "label not found: " ++ name
  | user text => text
  | file name reason => bytes "Error opening file: " ++ name ++ bytes ": " ++ reason.message g
  | inMacro name fault => bytes "macro " ++ name ++ bytes ": " ++ fault.message g
  | macroArgs name want got =>
    bytes "macro " ++ name ++ bytes " expects " ++ g.ofInt want ++ bytes " arguments, got "
      ++ g.ofInt got
  | symbolLimit limit => bytes "too many labels (limit " ++ Text.ofInt limit ++ bytes ")"
  | misfit m => misfitText g m
  | operands mnemonic ops fault =>
    fault.message g ++ bytes ": " ++ mnemonic ++ bytes " "
      ++ Text.join (bytes ",") (ops.map Cpu.Operand.text)
  | other text => text

/-- The plain cause that a fault comes down to.  A file that cannot be used is a matter of file access
    and too many symbols one of resources, whatever else they say. -/
def cause? : Fault → Option Cause
  | plain cause => some cause
  | detail fault _ | inMacro _ fault | operands _ _ fault => fault.cause?
  | file _ _ => some .fileAccess
  | symbolLimit _ => some .resourceLimit
  | instruction _ | labelMissing _ | user _ | macroArgs _ _ _ | misfit _ | other _ => none

def isLabelMissing : Fault → Bool
  | labelMissing _ => true
  | detail fault _ | inMacro _ fault | operands _ _ fault => fault.isLabelMissing
  | plain _ | instruction _ | user _ | file _ _ | macroArgs _ _ _ | symbolLimit _ | misfit _
  | other _ => false

/-- A fault that comes down to a limit or a cancellation. -/
def exceedsResources (fault : Fault) : Bool :=
  fault.cause? == some .resourceLimit || fault.cause? == some .cancelled

end Fault

def Cpu.OperandCause.fault : Cpu.OperandCause → Fault
  | invalid => .plain .operandInvalid
  | missing => .plain .operandMissing
  | extra => .plain .operandExtra

end Z80Asm
