import Z80Asm.Text

/-!
# Digits

Besides 0 to 9 there are many sets of ten digits.  Each has a name of four to eight letters, and
nearly all have their digits at ten code points in a row.
-/

namespace Z80Asm.Numerals

/-- The names of sets of digits, with the code point of their zero. -/
def zeros : List (String × Nat) :=
  [("latn", 0x30), ("arab", 0x660), ("arabext", 0x6F0), ("nkoo", 0x7C0), ("deva", 0x966),
   ("beng", 0x9E6), ("guru", 0xA66), ("gujr", 0xAE6), ("orya", 0xB66), ("tamldec", 0xBE6),
   ("telu", 0xC66), ("knda", 0xCE6), ("mlym", 0xD66), ("sinh", 0xDE6), ("thai", 0xE50),
   ("laoo", 0xED0), ("tibt", 0xF20), ("mymr", 0x1040), ("mymrshan", 0x1090), ("khmr", 0x17E0),
   ("mong", 0x1810), ("limb", 0x1946), ("talu", 0x19D0), ("lana", 0x1A80), ("lanatham", 0x1A90),
   ("bali", 0x1B50), ("sund", 0x1BB0), ("lepc", 0x1C40), ("olck", 0x1C50), ("vaii", 0xA620),
   ("saur", 0xA8D0), ("kali", 0xA900), ("java", 0xA9D0), ("mymrtlng", 0xA9F0), ("cham", 0xAA50),
   ("mtei", 0xABF0), ("fullwide", 0xFF10), ("osma", 0x104A0), ("brah", 0x11066),
   ("sora", 0x110F0), ("cakm", 0x11136), ("shrd", 0x111D0), ("sind", 0x112F0), ("newa", 0x11450),
   ("tirh", 0x114D0), ("modi", 0x11650), ("takr", 0x116C0), ("ahom", 0x11730), ("wara", 0x118E0),
   ("bhks", 0x11C50), ("gonm", 0x11D50), ("mroo", 0x16A60), ("hmng", 0x16B50),
   ("mathbold", 0x1D7CE), ("mathdbl", 0x1D7D8), ("mathsans", 0x1D7E2), ("mathsanb", 0x1D7EC),
   ("mathmono", 0x1D7F6), ("adlm", 0x1E950)]

/-- Ways to write numbers that have no digits for ten to be counted with.  Where digits are asked of
    them they use 0 to 9. -/
def withoutDigits : List String :=
  ["armn", "armnlow", "cyrl", "ethi", "geor", "grek", "greklow", "hanidays", "hans", "hansfin",
   "hant", "hantfin", "hebr", "jpan", "jpanfin", "roman", "romanlow", "taml"]

def fromZero (first : Nat) : List Text :=
  (List.range 10).map fun d => bytes (String.singleton (Char.ofNat (first + d)))

def digits? (name : String) : Option (List Text) :=
  if name = "hanidec" then
    some ("〇一二三四五六七八九".toList.map fun c => bytes (String.singleton c))
  else if withoutDigits.contains name then some (fromZero 0x30)
  else (zeros.lookup name).map fromZero

end Z80Asm.Numerals
