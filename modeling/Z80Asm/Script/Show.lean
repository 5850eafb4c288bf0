import Z80Asm.Script.Compare

/-!
# Texts of values

`represent` writes a value as a script would, as far as it can; `plain` leaves strings as they are.
-/

namespace Z80Asm.Script

def showLimit : Nat := 100000

def Range.text (r : Range) : Text :=
  let numbers := if r.step != 1 then [r.start, r.stop, r.step]
    else if r.start != 0 then [r.start, r.stop]
    else [r.stop]
  bytes "range(" ++ Text.join (bytes ", ") (numbers.map Text.ofInt) ++ bytes ")"

def Part.call : Part → String
  | elems => ".elems()"
  | elemOrds => ".elem_ords()"
  | codepoints => ".codepoints()"
  | codepointOrds => ".codepoint_ords()"
  | byteElems => ".elems()"

def bracketed (opening closing : String) (parts : List Text) : Text :=
  bytes opening ++ Text.join (bytes ", ") parts ++ bytes closing

/-- Writes a value.  Inside of itself a list or dictionary is written by dots; `lists` and `dicts` are those
around. -/
def showIn (store : Store) : Nat → List Nat → List Nat → Value → Text
  | 0, _, _, _ => []
  | depth + 1, lists, dicts, v =>
    match v with
    | .none => bytes "None"
    | .bool true => bytes "True"
    | .bool false => bytes "False"
    | .int n => Text.ofInt n
    | .float x => x.text 'e'.toUInt8
    | .str t => Text.quote t
    | .octets t => bytes "b" ++ Text.quote t
    | .tuple [x] => bytes "(" ++ showIn store depth lists dicts x ++ bytes ",)"
    | .tuple xs => bracketed "(" ")" (xs.map (showIn store depth lists dicts))
    | .range r => r.text
    | .parts .byteElems t => bytes "b" ++ Text.quote t ++ bytes Part.byteElems.call
    | .parts part t => Text.quote t ++ bytes part.call
    | .list a =>
      if lists.contains a then bytes "[...]"
      else bracketed "[" "]" ((store.items a).toList.map (showIn store depth (a :: lists) dicts))
    | .dict a =>
      if dicts.contains a then bytes "\x7b...\x7d"
      else bracketed "\x7b" "\x7d" ((store.entries a).toList.map fun e =>
        showIn store depth lists (a :: dicts) e.1 ++ bytes ": " ++ showIn store depth lists (a :: dicts) e.2)
    | .function _ header _ _ _ => bytes "<function " ++ header.name ++ bytes ">"
    | .builtin b => bytes "<built-in function " ++ bytes b.name ++ bytes ">"
    | .method _ receiver name =>
      bytes "<built-in method " ++ name ++ bytes " of " ++ receiver.kind ++ bytes " value>"

/-- A value as a script would write it. -/
def Store.represent (store : Store) (v : Value) : Text := showIn store showLimit [] [] v

/-- A value as it is shown: a string by itself. -/
def Store.plain (store : Store) : Value → Text
  | .str t => t
  | v => store.represent v

end Z80Asm.Script
