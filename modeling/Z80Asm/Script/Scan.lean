import Z80Asm.Script.Literal
import Z80Asm.Text.Letters

/-!
# Splitting scripts into tokens

Blank lines and comments leave no token, an ended line leaves a `newline`, and a change of indentation leaves
an `indent` or some `outdent`s.  Inside brackets lines do not end.  The split stops at the first thing that is
no token; a reader that never gets there does not hear of it.
-/

namespace Z80Asm.Script

/-- The code points of a script.  Every kind of line end is a line feed, and a stray byte is U+FFFD. -/
def points (source : Text) : List Nat :=
  lineFeeds ((Text.pieces source).map fun
    | .point p => p
    | .stray _ => 0xFFFD)
where
  /-- Turns a carriage return, with the line feed after it if there is one, into a line feed. -/
  lineFeeds : List Nat → List Nat
    | 0x0D :: 0x0A :: rest => 0x0A :: lineFeeds rest
    | 0x0D :: rest => 0x0A :: lineFeeds rest
    | p :: rest => p :: lineFeeds rest
    | [] => []

def isNameStart (p : Nat) : Bool := p = '_'.toNat || Text.isLetterPoint p

def isNamePart (p : Nat) : Bool := Literal.isDigit p || isNameStart p

structure Scan where
  cursor : Cursor
  depth : Nat := 0
  indents : List Nat := []
  atStart : Bool := true

namespace Scan

/-- The width of the blanks in front of a line.  A tab goes on to a column that is a multiple of eight, where
columns count every blank as one. -/
def indentation : Nat → List Nat → Nat
  | _, [] => 0
  | col, p :: rest =>
    if p = 0x20 then 1 + indentation (col + 1) rest
    else if p = 0x09 then (8 - col % 8) + indentation (col + 1) rest
    else 0

/-- The indentations that stay open when a line is indented by `width`. -/
def staying (width : Nat) (indents : List Nat) : List Nat := indents.dropWhile (width < ·)

def isBlank (p : Nat) : Bool := p = 0x20 || p = 0x09

/-- Starts a line: gives the changes of indentation, and whether the line is blank. -/
def startLine (st : Scan) : Except Problem (List Tok × Scan × Bool) :=
  let width := indentation (st.cursor.mark.col - 1) st.cursor.rest
  let st := { st with cursor := st.cursor.skipWhile isBlank, atStart := false }
  let p := st.cursor.peek
  if p = '#'.toNat || p = 0x0A || (p = 0 && width > 0) then .ok ([], st, true)
  else if st.depth > 0 then .ok ([], st, false)
  else if width > st.indents.headD 0 then .ok ([.indent], { st with indents := width :: st.indents }, false)
  else
    let indents := staying width st.indents
    if indents.headD 0 = width then
      .ok (List.replicate (st.indents.length - indents.length) .outdent, { st with indents }, false)
    else Literal.problem st.cursor.mark "unindent does not match any outer indentation level"

def word (c : Cursor) : Tok × Cursor :=
  let after := c.skipWhile isNamePart
  let text := (c.upTo after).flatMap Text.ofPoint
  match (keywords ++ reserved).find? (bytes · == text) with
  | some word => (.keyword word, after)
  | none => (.name text, after)

def quotePoint (p : Nat) : Text := [Text.apostrophe] ++ Text.escapePoint Text.apostrophe p ++ [Text.apostrophe]

/-- A sign; brackets change the depth. -/
def sign (st : Scan) : Except Problem (Tok × Scan) :=
  let c := st.cursor
  match signs.find? c.startsWith with
  | some s =>
    let opens := s == "(" || s == "[" || s == "\x7b"
    let closes := s == ")" || s == "]" || s == "\x7d"
    if closes && st.depth == 0 then
      .error { mark := c.mark, text := bytes "unexpected " ++ quotePoint c.peek }
    else
      let depth := if opens then st.depth + 1 else if closes then st.depth - 1 else st.depth
      .ok (.sign s, { st with depth, cursor := c.skip s.length })
  | none =>
    if c.peek = '!'.toNat then Literal.problem c.mark "unexpected '!'"
    else .error { mark := c.mark, text := bytes "unexpected input character " ++ quotePoint c.peek }

/-- The number of letters before the quote of a string literal, if one starts here. -/
def stringLetters? (c : Cursor) : Option Nat :=
  let starts := ["", "r", "b", "rb"].find? fun letters =>
    c.startsWith (letters ++ "\"") || c.startsWith (letters ++ "'")
  starts.map String.length

def token (st : Scan) : Except Problem (Tok × Scan) :=
  let c := st.cursor
  let leave := fun (tok, cursor) => (tok, { st with cursor })
  match stringLetters? c with
  | some size => (Literal.string c size).map leave
  | none =>
    if isNameStart c.peek then .ok (leave (word c))
    else if Literal.isDigit c.peek || c.peek = '.'.toNat then (Literal.number c).map leave
    else st.sign

def here (st : Scan) (tok : Tok) : Except Problem Placed :=
  .ok { tok, mark := st.cursor.mark, after := st.cursor.mark }

def run : Nat → Scan → List (Except Problem Placed)
  | 0, _ => []
  | fuel + 1, before =>
    match if before.atStart then before.startLine else .ok ([], before, false) with
    | .error p => [.error p]
    | .ok (changes, st, blank) =>
      let changes := changes.map st.here
      let c := st.cursor.skipWhile isBlank
      let c := if c.peek = '#'.toNat then c.skipWhile fun p => p != 0x0A && p != 0 else c
      let st := { st with cursor := c }
      let next := { st with cursor := c.step, atStart := true }
      if c.peek = 0x0A then
        if st.depth > 0 || blank then changes ++ run fuel next
        else changes ++ .ok { tok := .newline, mark := c.mark, after := next.cursor.mark } :: run fuel next
      else if c.peek = 0 then
        if st.indents.isEmpty then changes ++ [st.here .finish]
        else if before.atStart then
          changes ++ st.indents.map (fun _ => st.here .outdent) ++ [st.here .finish]
        else changes ++ st.here .newline :: run fuel { st with atStart := true }
      else if c.peek = Text.backslash.toNat then
        if c.step.peek = 0x0A then changes ++ run fuel { st with cursor := c.step.step }
        else changes ++ [Literal.problem c.step.mark "stray backslash in program"]
      else
        match st.token with
        | .error p => changes ++ [.error p]
        | .ok (tok, after) =>
          changes ++ .ok { tok, mark := c.mark, after := after.cursor.mark } :: run fuel after

end Scan

/-- The tokens of a script, closed by the ends of its blocks and of the script, or by a problem. -/
def tokens (source : Text) : List (Except Problem Placed) :=
  let ps := points source
  Scan.run (ps.length + 3) { cursor := { rest := ps } }

end Z80Asm.Script
