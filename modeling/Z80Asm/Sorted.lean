import Std.Data.TreeMap
import Z80Asm.Text

/-!
# Entries in name order

A map from names is gone through in the bytewise order of its names; of several entries under one name
the last one counts.
-/

namespace Z80Asm.Sorted

def entries {α : Type} (map : List (Text × α)) : List (Text × α) :=
  (Std.TreeMap.ofList map compare).toList

/-- The first `count` entries that `keep` takes, of maps gone through one after the other. -/
def select {α : Type} (keep : Text → α → Bool) (count : Nat) (maps : List (List (Text × α))) :
    List (Text × α) :=
  ((maps.flatMap entries).filter fun (name, value) => keep name value).take count

end Z80Asm.Sorted
