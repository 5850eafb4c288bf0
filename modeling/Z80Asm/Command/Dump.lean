import Z80Asm.Symbol
import Z80Asm.Text.Quoted

/-!
# Symbol dumps

The defined symbols with everything that is known about them, for tracing.
-/

namespace Z80Asm.Command

def openBrace : Text := bytes "\x7b"

def closeBrace : Text := bytes "\x7d"

def dumpSymbol (s : Symbol) : List Text :=
  [bytes "  " ++ Text.quote s.name ++ bytes ": asm.Symbol" ++ openBrace,
   bytes "    Name:    " ++ Text.quote s.name ++ bytes ",",
   bytes "    Value:   " ++ Text.ofInt s.value.toInt ++ bytes ",",
   bytes "    Defined: " ++ bytes (if s.defined then "true," else "false,"),
   bytes "    Pass:    " ++ Text.ofInt s.pass ++ bytes ",",
   bytes "    Scope:   " ++ Text.ofInt s.scope.number ++ bytes ",",
   bytes "    Pos:     asm.Pos" ++ openBrace,
   bytes "      File: " ++ Text.quote s.pos.file ++ bytes ",",
   bytes "      Line: " ++ Text.ofInt s.pos.line ++ bytes ",",
   bytes "      Col:  0,",
   bytes "    " ++ closeBrace ++ bytes ",",
   bytes "    Seq: " ++ Text.ofInt s.seq ++ bytes ",",
   bytes "  " ++ closeBrace ++ bytes ","]

def dump (symbols : List Symbol) : Text :=
  let lines :=
    if symbols.isEmpty then [bytes "map[string]asm.Symbol" ++ openBrace ++ closeBrace]
    else [bytes "map[string]asm.Symbol" ++ openBrace] ++ symbols.flatMap dumpSymbol ++ [closeBrace]
  (lines.map (· ++ bytes "\n")).flatten

end Z80Asm.Command
