import Z80Asm.Script.Scan
import Z80Asm.Script.Tree

/-!
# Reading scripts

Scripts are read by recursive descent with one token of lookahead.  Binary operations have levels; all of them
associate to the left but the comparisons, which do not associate.  A token that does not fit is reported with
the place after it, a missing operand with the place where the token starts.

A fuel argument bounds the depth of nesting; a few times the number of tokens is enough.
-/

namespace Z80Asm.Script

/-- The token at hand and the tokens after it. -/
structure Feed where
  current : Placed
  rest : List (Except Problem Placed)
  /-- More than the number of tokens of the whole script, to bound loops that take a token each time. -/
  bound : Nat

abbrev Reader := StateT Feed (Except Problem)

namespace Read

def fail {α : Type} (mark : Mark) (text : Text) : Reader α := throw { mark, text }

def tok : Reader Tok := return (← get).current.tok

def here : Reader Mark := return (← get).current.mark

def after : Reader Mark := return (← get).current.after

/-- Goes on to the next token and gives the place of the token left behind. -/
def advance : Reader Mark := do
  let feed ← get
  match feed.rest with
  | [] => return feed.current.mark
  | .error problem :: _ => throw problem
  | .ok next :: rest =>
    set { feed with current := next, rest }
    return feed.current.mark

def isNext (expected : Tok) : Reader Bool := return (← tok) == expected

def unexpected {α : Type} (wanted : Text) : Reader α := do
  fail (← after) (bytes "got " ++ (← tok).describe ++ bytes ", want " ++ wanted)

def expect (expected : Tok) : Reader Mark := do
  if ← isNext expected then advance else unexpected expected.describe

def ident : Reader Ident := do
  match ← tok with
  | .name name => return { name, mark := ← advance }
  | _ => fail (← after) (bytes "not an identifier")

def endsList : Tok → Bool
  | .finish | .newline => true
  | .sign s => s == "=" || s == "\x7d" || s == "]" || s == ")" || s == ";"
  | _ => false

/-! ## Parts of expressions

The readers of whole expressions are arguments here: `test` reads an expression without commas. -/

def commaRest (test : Reader Term) (trailing : Bool) : Nat → Reader (List Term)
  | 0 => return []
  | fuel + 1 => do
    if !(← isNext (.sign ",")) then return []
    let mark ← advance
    if endsList (← tok) then
      if trailing then return [] else fail mark (bytes "unparenthesized tuple with trailing comma")
    let x ← test
    return x :: (← commaRest test trailing fuel)

/-- An expression, or several with commas between them: a tuple. -/
def expression (test : Reader Term) (trailing : Bool) : Reader Term := do
  let x ← test
  if ← isNext (.sign ",") then
    let xs ← commaRest test trailing (← get).bound
    return .tuple x.start (x :: xs)
  else return x

/-- The rest of the targets of a loop, after each of some commas. -/
def targetRest (operand : Reader Term) : Nat → Reader (List Term)
  | 0 => return []
  | fuel + 1 => do
    if !(← isNext (.sign ",")) then return []
    let _ ← advance
    if endsList (← tok) then return []
    let x ← operand
    return x :: (← targetRest operand fuel)

/-- The target of a loop: operands only, since `in` follows. -/
def target (operand : Reader Term) : Reader Term := do
  let x ← operand
  if ← isNext (.sign ",") then
    let xs ← targetRest operand (← get).bound
    return .tuple x.start (x :: xs)
  else return x

def params (test : Reader Term) (first : Bool) : Nat → Reader (List Param)
  | 0 => return []
  | fuel + 1 => do
    let t ← tok
    if t == .sign ")" || t == .sign ":" || t == .finish then return []
    if !first then let _ ← expect (.sign ",")
    match ← tok with
    | .sign ")" => return []
    | .sign "*" =>
      let mark ← advance
      let id ← match ← tok with
        | .name _ => some <$> ident
        | _ => pure none
      return .rest mark id :: (← params test false fuel)
    | .sign "**" =>
      let mark ← advance
      let id ← ident
      return .restNamed mark id :: (← params test false fuel)
    | _ =>
      let id ← ident
      if ← isNext (.sign "=") then
        let mark ← advance
        let value ← test
        return .optional id mark value :: (← params test false fuel)
      else return .required id :: (← params test false fuel)

def arguments (test : Reader Term) (first : Bool) : Nat → Reader (List Argument)
  | 0 => return []
  | fuel + 1 => do
    let t ← tok
    if t == .sign ")" || t == .finish then return []
    if !first then let _ ← expect (.sign ",")
    match ← tok with
    | .sign ")" => return []
    | .sign "*" =>
      let mark ← advance
      let x ← test
      return .spread mark x :: (← arguments test false fuel)
    | .sign "**" =>
      let mark ← advance
      let x ← test
      return .spreadNamed mark x :: (← arguments test false fuel)
    | _ =>
      let x ← test
      if ← isNext (.sign "=") then
        match x with
        | .name id =>
          let _ ← advance
          let value ← test
          return .named id value :: (← arguments test false fuel)
        | _ => fail (← after) (bytes "keyword argument must have form name=expr")
      else return .plain x :: (← arguments test false fuel)

def call (test : Reader Term) (f : Term) : Reader Term := do
  let _ ← expect (.sign "(")
  let args ← arguments test true (← get).bound
  let _ ← expect (.sign ")")
  return .call f args

def indexOrSlice (test : Reader Term) (x : Term) : Reader Term := do
  let _ ← advance
  let low ← if ← isNext (.sign ":") then pure none else some <$> expression test false
  match low, ← isNext (.sign "]") with
  | some i, true =>
    let _ ← advance
    return .index x i
  | _, _ =>
    let mut high := none
    let mut step := none
    if ← isNext (.sign ":") then
      let _ ← advance
      if !(← isNext (.sign ":")) && !(← isNext (.sign "]")) then high := some (← test)
    if ← isNext (.sign ":") then
      let _ ← advance
      if !(← isNext (.sign "]")) then step := some (← test)
    let _ ← expect (.sign "]")
    return .slice x low high step

/-- The clauses of what is made in loops, up to the closing bracket, which is taken.  `level` reads what a
loop goes over and `noChoice` a condition: neither reads a choice, since `if` may follow. -/
def clauses (operand level noChoice : Reader Term) (closer : String) : Nat → Reader (List Clause)
  | 0 => return []
  | fuel + 1 => do
    match ← tok with
    | .keyword "for" =>
      let _ ← advance
      let x ← target operand
      let _ ← expect (.keyword "in")
      let source ← level
      return .loop x source :: (← clauses operand level noChoice closer fuel)
    | .keyword "if" =>
      let _ ← advance
      let condition ← noChoice
      return .filter condition :: (← clauses operand level noChoice closer fuel)
    | t =>
      if t == .sign closer then
        let _ ← advance
        return []
      else unexpected (bytes ("'" ++ closer ++ "', for, or if"))

def entry (test : Reader Term) : Reader Entry := do
  let key ← test
  let _ ← expect (.sign ":")
  return .mk key (← test)

def entryRest (test : Reader Term) : Nat → Reader (List Entry)
  | 0 => return []
  | fuel + 1 => do
    if !(← isNext (.sign ",")) then return []
    let _ ← advance
    if ← isNext (.sign "\x7d") then return []
    let x ← entry test
    return x :: (← entryRest test fuel)

/-- A list or what is made in loops, from its opening bracket on. -/
def list (test : Reader Term) (made : String → Reader (List Clause)) : Reader Term := do
  let mark ← advance
  if ← isNext (.sign "]") then
    let _ ← advance
    return .list mark []
  let x ← test
  if ← isNext (.keyword "for") then return .madeList mark x (← made "]")
  let xs ← commaRest test true (← get).bound
  let _ ← expect (.sign "]")
  return .list mark (x :: xs)

/-- A dictionary or what is made in loops, from its opening brace on. -/
def dict (test : Reader Term) (made : String → Reader (List Clause)) : Reader Term := do
  let mark ← advance
  if ← isNext (.sign "\x7d") then
    let _ ← advance
    return .dict mark []
  let x ← entry test
  if ← isNext (.keyword "for") then return .madeDict mark x (← made "\x7d")
  let xs ← entryRest test (← get).bound
  let _ ← expect (.sign "\x7d")
  return .dict mark (x :: xs)

/-- A tuple or an expression in parentheses, from the opening one on. -/
def parentheses (test : Reader Term) : Reader Term := do
  let mark ← advance
  if ← isNext (.sign ")") then
    let _ ← advance
    return .tuple mark []
  let x ← expression test true
  let _ ← expect (.sign ")")
  return .paren mark x

/-! ## Levels of operations -/

/-- A binary operation: its level, loosest first, and what it makes. -/
def operation? : Tok → Option (Nat × (Term → Term → Term))
  | .keyword "or" => some (0, .or)
  | .keyword "and" => some (1, .and)
  | .sign "==" => some (3, .binary .eq)
  | .sign "!=" => some (3, .binary .ne)
  | .sign "<" => some (3, .binary .lt)
  | .sign ">" => some (3, .binary .gt)
  | .sign "<=" => some (3, .binary .le)
  | .sign ">=" => some (3, .binary .ge)
  | .keyword "in" => some (3, .binary .isIn)
  | .keyword "not in" => some (3, .binary .notIn)
  | .sign "|" => some (4, .binary .bitOr)
  | .sign "^" => some (5, .binary .bitXor)
  | .sign "&" => some (6, .binary .bitAnd)
  | .sign "<<" => some (7, .binary .shl)
  | .sign ">>" => some (7, .binary .shr)
  | .sign "+" => some (8, .binary .add)
  | .sign "-" => some (8, .binary .sub)
  | .sign "*" => some (9, .binary .mul)
  | .sign "/" => some (9, .binary .div)
  | .sign "//" => some (9, .binary .floorDiv)
  | .sign "%" => some (9, .binary .mod)
  | _ => none

def notLevel : Nat := 2

def comparisonLevel : Nat := 3

def levelCount : Nat := 10

def operationText : Tok → Text
  | .sign s => bytes s
  | t => t.describe

def joinNotIn : Reader Unit := do
  if ← isNext (.keyword "not") then
    let _ ← advance
    if ← isNext (.keyword "in") then
      modify fun feed => { feed with current := { feed.current with tok := .keyword "not in" } }
    else unexpected (bytes "in")

/-- The rest of a chain of operations of a level or a tighter one, after its first operand.  `operand` reads
an operand of a level; `before` is the operation that made the first operand, if one did. -/
def chain (operand : Nat → Reader Term) (least : Nat) : Nat → Option Tok → Term → Reader Term
  | 0, _, x => return x
  | fuel + 1, before, x => do
    joinNotIn
    let t ← tok
    match operation? t with
    | none => return x
    | some (level, make) =>
      if level < least then return x
      if let some b := before then
        if level = comparisonLevel then
          fail (← after) (operationText b ++ bytes " does not associate with " ++ operationText t
            ++ bytes " (use parens)")
      let _ ← advance
      let y ← operand (level + 1)
      chain operand least fuel (some t) (make x y)

/-- Fields, calls, indices and slices after an operand. -/
def suffixes (test : Reader Term) : Nat → Term → Reader Term
  | 0, x => return x
  | fuel + 1, x => do
    match ← tok with
    | .sign "." =>
      let _ ← advance
      let id ← ident
      suffixes test fuel (.dot x id.name)
    | .sign "[" => suffixes test fuel (← indexOrSlice test x)
    | .sign "(" => suffixes test fuel (← call test x)
    | _ => return x

/-! ## Expressions -/

mutual

/-- An expression without commas; `choices` allows the form with `if` and `else`. -/
def test : Nat → Bool → Reader Term
  | 0, _ => unexpected (bytes "primary expression")
  | fuel + 1, choices => do
    if ← isNext (.keyword "lambda") then
      let mark ← advance
      let ps ← params (test fuel true) true (← get).bound
      let _ ← expect (.sign ":")
      return .lambda mark ps (← test fuel choices)
    let x ← level fuel 0
    if choices && (← isNext (.keyword "if")) then
      let mark ← advance
      let condition ← level fuel 0
      if !(← isNext (.keyword "else")) then fail mark (bytes "conditional expression without else clause")
      let _ ← advance
      return .ifElse condition x (← test fuel true)
    else return x

/-- An expression of operations of a level or a tighter one. -/
def level : Nat → Nat → Reader Term
  | 0, _ => unexpected (bytes "primary expression")
  | fuel + 1, least => do
    if least ≥ levelCount then operand fuel
    else if least = notLevel && (← isNext (.keyword "not")) then
      let mark ← advance
      return .unary .not mark (← level fuel least)
    else
      let x ← level fuel (least + 1)
      chain (level fuel) least (← get).bound none x

def operand : Nat → Reader Term
  | 0 => unexpected (bytes "primary expression")
  | fuel + 1 => do
    let made := fun closer => do
      clauses (operand fuel) (level fuel 0) (test fuel false) closer (← get).bound
    let sign := fun op => do
      let mark ← advance
      return Term.unary op mark (← operand fuel)
    let literal := fun value => do return Term.constant value (← advance)
    let x ← match ← tok with
      | .name name => do pure (Term.name { name, mark := ← advance })
      | .int n => literal (.int n)
      | .float x => literal (.float x)
      | .str t => literal (.str t)
      | .octets t => literal (.octets t)
      | .sign "[" => list (test fuel true) made
      | .sign "\x7b" => dict (test fuel true) made
      | .sign "(" => parentheses (test fuel true)
      | .sign "-" => sign .neg
      | .sign "+" => sign .plus
      | .sign "~" => sign .invert
      | t => fail (← here) (bytes "got " ++ t.describe ++ bytes ", want primary expression")
    suffixes (test fuel true) (← get).bound x

end

/-! ## Statements -/

def assignment? : Tok → Option (Option Binary)
  | .sign "=" => some none
  | .sign "+=" => some (some .add)
  | .sign "-=" => some (some .sub)
  | .sign "*=" => some (some .mul)
  | .sign "/=" => some (some .div)
  | .sign "//=" => some (some .floorDiv)
  | .sign "%=" => some (some .mod)
  | .sign "<<=" => some (some .shl)
  | .sign ">>=" => some (some .shr)
  | .sign "&=" => some (some .bitAnd)
  | .sign "|=" => some (some .bitOr)
  | .sign "^=" => some (some .bitXor)
  | _ => none

/-- The name in a string token, whose place is that of its first letter. -/
def quotedName (text : Text) : Reader Ident := do
  let mark ← advance
  return { name := text, mark := mark.skip 1 }

def loadNames : Nat → Reader (List (Ident × Ident))
  | 0 => return []
  | fuel + 1 => do
    if (← isNext (.sign ")")) || (← isNext .finish) then return []
    let _ ← expect (.sign ",")
    match ← tok with
    | .sign ")" => return []
    | .str text =>
      let id ← quotedName text
      return (id, id) :: (← loadNames fuel)
    | .name _ =>
      let id ← ident
      if !(← isNext (.sign "=")) then
        fail (← after) (bytes "load operand must be \"" ++ id.name ++ bytes "\" or " ++ id.name
          ++ bytes "=\"originalname\" (want '=' after " ++ id.name ++ bytes ")")
      let _ ← advance
      match ← tok with
      | .str text => return (id, ← quotedName text) :: (← loadNames fuel)
      | _ =>
        fail (← after) (bytes "original name of loaded symbol must be quoted: " ++ id.name
          ++ bytes "=\"originalname\"")
    | t =>
      fail (← after) (bytes "load operand must be \"name\" or localname=\"name\" (got " ++ t.describe
        ++ bytes ")")

def load : Reader Stmt := do
  let mark ← advance
  let opening ← expect (.sign "(")
  match ← tok with
  | .str _ =>
    let _ ← advance
    let names ← loadNames (← get).bound
    let _ ← expect (.sign ")")
    if names.isEmpty then fail opening (bytes "load statement must import at least 1 symbol")
    return .load mark names
  | _ => fail (← after) (bytes "first operand of load statement must be a string literal")

def small (test : Reader Term) : Reader Stmt := do
  match ← tok with
  | .keyword "pass" =>
    let _ ← advance
    return .pass
  | .keyword "break" => return .leave (← advance)
  | .keyword "continue" => return .next (← advance)
  | .keyword "return" =>
    let mark ← advance
    let t ← tok
    if t == .finish || t == .newline || t == .sign ";" then return .give mark none
    return .give mark (some (← expression test false))
  | .keyword "load" => load
  | _ =>
    let x ← expression test false
    match assignment? (← tok) with
    | none => return .value x
    | some op =>
      let _ ← advance
      let value ← expression test false
      match op with
      | none => return .assign x value
      | some op => return .change op x value

def smalls (test : Reader Term) : Nat → Reader (List Stmt)
  | 0 => return []
  | fuel + 1 => do
    let s ← small test
    if ← isNext (.sign ";") then
      let _ ← advance
      if !(← isNext .newline) && !(← isNext .finish) then return s :: (← smalls test fuel)
    if !(← isNext .finish) then let _ ← expect .newline
    return [s]

mutual

def statement : Nat → Reader (List Stmt)
  | 0 => unexpected (bytes "primary expression")
  | fuel + 1 => do
    let one := test fuel true
    match ← tok with
    | .keyword "def" =>
      let _ ← advance
      let id ← ident
      let _ ← expect (.sign "(")
      let ps ← params one true (← get).bound
      let _ ← expect (.sign ")")
      let _ ← expect (.sign ":")
      return [.define id ps (← suite fuel)]
    | .keyword "if" => return [← choice fuel]
    | .keyword "for" =>
      let mark ← advance
      let x ← target (operand fuel)
      let _ ← expect (.keyword "in")
      let source ← expression one false
      let _ ← expect (.sign ":")
      return [.loop mark x source (← suite fuel)]
    | .keyword "while" =>
      let mark ← advance
      let condition ← one
      let _ ← expect (.sign ":")
      return [.again mark condition (← suite fuel)]
    | _ => smalls one (← get).bound

def choice : Nat → Reader Stmt
  | 0 => unexpected (bytes "primary expression")
  | fuel + 1 => do
    let mark ← advance
    let condition ← test fuel true
    let _ ← expect (.sign ":")
    let yes ← suite fuel
    match ← tok with
    | .keyword "elif" => return .choose mark condition yes [← choice fuel]
    | .keyword "else" =>
      let _ ← advance
      let _ ← expect (.sign ":")
      return .choose mark condition yes (← suite fuel)
    | _ => return .choose mark condition yes []

/-- The body of a block: an indented block, or the rest of the line. -/
def suite : Nat → Reader (List Stmt)
  | 0 => unexpected (bytes "primary expression")
  | fuel + 1 => do
    if ← isNext .newline then
      let _ ← advance
      let _ ← expect .indent
      let body ← block fuel
      let _ ← expect .outdent
      return body
    else smalls (test fuel true) (← get).bound

def block : Nat → Reader (List Stmt)
  | 0 => unexpected (bytes "primary expression")
  | fuel + 1 => do
    if (← isNext .outdent) || (← isNext .finish) then return []
    let ss ← statement fuel
    return ss ++ (← block fuel)

end

/-- Statements up to the end of the script; `depth` bounds the nesting of each. -/
def script (depth : Nat) : Nat → Reader (List Stmt)
  | 0 => return []
  | fuel + 1 => do
    match ← tok with
    | .finish => return []
    | .newline =>
      let _ ← advance
      script depth fuel
    | _ =>
      let ss ← statement depth
      return ss ++ (← script depth fuel)

end Read

def read (source : Text) : Except Problem (List Stmt) :=
  match tokens source with
  | [] => .ok []
  | .error problem :: _ => .error problem
  | .ok current :: rest =>
    let bound := rest.length + 1
    (Read.script (64 * bound) bound).run' { current, rest, bound }

end Z80Asm.Script
