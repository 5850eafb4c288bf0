import Z80Asm.Symbol
import Z80Asm.Text.Utf8

/-!
# Listings and symbol files

The listing shows each statement that was executed, with its address and at most four bytes of its
code per row, and after them the defined symbols.  The symbol file holds the global symbols as
definitions that another program can include.  Both are lists of rows, each with its end.
-/

namespace Z80Asm

structure ListingEntry where
  line : Int
  /-- The program counter before the statement. -/
  address : Int64
  code : List UInt8
  text : Text
  deriving Repr, DecidableEq

namespace Listing

def hexBytes (code : List UInt8) : Text :=
  Text.join (bytes " ") (code.map fun b => Text.hex 2 b.toNat)

/-- Code in portions of four bytes; the last one may be shorter, and alone even empty. -/
def portions : List UInt8 → List (List UInt8)
  | a :: b :: c :: d :: e :: rest => [a, b, c, d] :: portions (e :: rest)
  | code => [code]

def addressText (address : Int64) : Text := Text.hex 4 address.toUInt64.toNat

/-- The rows of further portions of code from an address on. -/
def continuation (address : Int64) : List (List UInt8) → List Text
  | [] => []
  | code :: rest =>
    (bytes "       " ++ addressText address ++ bytes "  " ++ hexBytes code ++ bytes "\n")
      :: continuation (address + 4) rest

def entryRows (e : ListingEntry) : List Text :=
  let first := (portions e.code).head?.getD []
  (Text.padLeft 5 (Text.ofInt e.line) ++ bytes "  " ++ addressText e.address ++ bytes "  "
      ++ Text.padRight 12 (hexBytes first) ++ bytes " " ++ e.text ++ bytes "\n")
    :: continuation (e.address + 4) ((portions e.code).drop 1)

def valueText (value : Int64) : Text := Text.hex 8 value.toUInt64.toNat

def symbolRow (s : Symbol) : Text :=
  Text.padRight 24 s.name ++ bytes " " ++ valueText s.value ++ bytes "  " ++ s.scope.name
    ++ bytes "\n"

def symbolRows (t : Table) : List Text :=
  if t.defined = 0 then [] else bytes "\n" :: t.definedList.map symbolRow

def rows (entries : List ListingEntry) (t : Table) : List Text :=
  entries.flatMap entryRows ++ symbolRows t

end Listing

def Table.equates (t : Table) : List Text :=
  (t.definedList.filter (·.scope == .global)).map fun s =>
    s.name ++ bytes ": equ " ++ Listing.valueText s.value ++ bytes "h\n"

end Z80Asm
