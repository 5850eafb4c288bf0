import Z80Asm.Token

/-!
# Parts of a line

How the tokens of a line fall apart: a label and the body after it, arguments at commas, an operand in
brackets, the name of a file.
-/

namespace Z80Asm.Token

/-- A label at the start of a line, and the tokens after it.  A label is a word with a colon behind it,
    or a name in the first column. -/
def splitLabel (toks : List Token) : Option Token × List Token :=
  match toks with
  | [] => (none, [])
  | [first] => if first.isName && first.col == 1 then (some first, []) else (none, toks)
  | first :: second :: rest =>
    if second.isSign .colon && first.isWord then (some first, rest)
    else if first.isName && first.col == 1 then (some first, second :: rest)
    else (none, toks)

def body (toks : List Token) : List Token := (splitLabel toks).2

def bodyIs (d : Directive) (toks : List Token) : Bool := (body toks).head?.any (·.isDirective d)

def depthAfter (depth : Int) (tok : Token) : Int :=
  if tok.isOpen then depth + 1 else if tok.isClose then depth - 1 else depth

/-- Splits at the commas outside of brackets, where brackets are open to a depth already. -/
def splitFrom (depth : Int) : List Token → List (List Token)
  | [] => [[]]
  | tok :: rest =>
    if tok.isSign .comma && depth == 0 then [] :: splitFrom depth rest
    else match splitFrom (depthAfter depth tok) rest with
      | part :: parts => (tok :: part) :: parts
      | [] => [[tok]]

/-- Splits at the commas outside of brackets; there are no arguments in no tokens. -/
def splitArgs (toks : List Token) : List (List Token) :=
  if toks.isEmpty then [] else splitFrom 0 toks

def closesEarly (depth : Int) : List Token → Bool
  | [] | [_] => false
  | tok :: rest =>
    let depth' := depthAfter depth tok
    (tok.isClose && depth' == 0) || closesEarly depth' rest

/-- The tokens inside an operand that is in brackets as a whole. -/
def enclosed? (toks : List Token) : Option (List Token) :=
  match toks with
  | [] => none
  | first :: rest =>
    match first.lexeme with
    | .sign s =>
      match s.closer?, rest.getLast? with
      | some closer, some last =>
        if last.isSign closer && !closesEarly 0 toks then some rest.dropLast else none
      | _, _ => none
    | _ => none

def unspaced : List Token → List Token
  | [] => []
  | tok :: rest => if tok.isSign .comma || tok.space then [] else tok :: unspaced rest

/-- The name of a file and the tokens after it: a string, or the text up to a comma or a blank.  The
    name is empty if there is none. -/
def fileName (toks : List Token) : Text × List Token :=
  match toks with
  | [] => ([], [])
  | first :: rest =>
    match first.string? with
    | some name => (name, rest)
    | none =>
      if first.isSign .comma then ([], toks)
      else
        let more := unspaced rest
        (renderAll (first :: more), rest.drop more.length)

def singleWord? : List Token → Option Text
  | [tok] => tok.word?
  | _ => none

def compassWord? (toks : List Token) : Option Text :=
  (toks.filterMap word?).find? (·.contains '@'.toUInt8)

end Z80Asm.Token
