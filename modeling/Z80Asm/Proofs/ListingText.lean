import Z80Asm.Proofs.ListedCode
import Z80Asm.Proofs.Origins
import Z80Asm.Proofs.TextRows

/-!
# Reading a listing

The text of a listing is read back: its rows up to the first empty one are those of statements.  A row without
a line number goes on with the code of the statement before it.  What is read are the bytes of the code in
their order, at most four in a row, with the address of the first of them.
-/

namespace Z80Asm

open List Text

namespace Listing

/-! ## Reading rows -/

structure Row where
  /-- The number of the source line; a row that goes on with code has none. -/
  line : Option Nat
  address : Nat
  code : List UInt8
  deriving DecidableEq

def readBytes (field : Text) : List UInt8 :=
  (Text.words field).map fun word => (Numeral.ofDigits 16 word).toUInt8

/-- Reads a row.  A row of seven blanks in front goes on with code; in the others the fields stand behind the
    line number. -/
def readRow (row : Text) : Row :=
  if (row.take 7).all (· == ' '.toUInt8) then
    { line := none, address := Numeral.ofDigits 16 ((row.drop 7).take 4), code := readBytes (row.drop 13) }
  else
    let number := row.dropWhile (· == ' '.toUInt8)
    let fields := number.dropWhile Lex.isDigit
    { line := some (Numeral.ofDigits 10 (number.takeWhile Lex.isDigit))
      address := Numeral.ofDigits 16 ((fields.drop 2).take 4), code := readBytes ((fields.drop 8).take 12) }

def readRows (text : Text) : List Row := ((Text.splitAtByte 0x0A text).takeWhile (!·.isEmpty)).map readRow

/-! ## Fields -/

theorem hexBytes_cons (b c : UInt8) (rest : List UInt8) :
    hexBytes (b :: c :: rest) = hex 2 b.toNat ++ ' '.toUInt8 :: hexBytes (c :: rest) := by
  have blank : bytes " " = [' '.toUInt8] := by decide
  simp [hexBytes, Text.join, intercalate, blank]

theorem hexBytes_single (b : UInt8) : hexBytes [b] = hex 2 b.toNat := by
  simp [hexBytes, Text.join, intercalate]

/-- A field of hexadecimal numbers has three bytes for each number, but for the last one. -/
theorem length_hexBytes (code : List UInt8) : (hexBytes code).length = 3 * code.length - 1 := by
  induction code with
  | nil => rfl
  | cons b rest ih =>
    cases rest with
    | nil => simp [hexBytes_single]
    | cons c rest =>
      rw [hexBytes_cons, length_append, length_cons, ih, length_hex]
      simp only [length_cons]
      omega

theorem hexBytes_bytes {code : List UInt8} : ∀ x ∈ hexBytes code, x < 0x80 ∧ x ≠ 0x0A := by
  induction code with
  | nil => exact fun x mem => absurd mem not_mem_nil
  | cons b rest ih =>
    have digits : ∀ x ∈ hex 2 b.toNat, x < 0x80 ∧ x ≠ 0x0A := fun x mem =>
      ⟨(hex_bytes x mem).2, (isAlnum_ne x (hex_bytes x mem).1).2⟩
    cases rest with
    | nil => rwa [hexBytes_single]
    | cons c rest =>
      rw [hexBytes_cons, forall_mem_append, forall_mem_cons]
      exact ⟨digits, by decide, ih⟩

theorem readBytes_hexBytes (code : List UInt8) (blanks : Nat) :
    readBytes (hexBytes code ++ List.replicate blanks ' '.toUInt8) = code := by
  have plain (b : UInt8) : ' '.toUInt8 ∉ hex 2 b.toNat := fun mem =>
    (isAlnum_ne _ (hex_bytes _ mem).1).1 rfl
  have nonempty (b : UInt8) : hex 2 b.toNat ≠ [] := by
    intro empty
    simpa using congrArg List.length empty
  have value (b : UInt8) : (Numeral.ofDigits 16 (hex 2 b.toNat)).toUInt8 = b := by
    have small : b.toNat < 16 ^ 2 := b.toNat_lt
    rw [ofDigits_hex, Nat.mod_eq_of_lt small]
    exact UInt8.ofNat_toNat
  unfold readBytes
  induction code with
  | nil => simp [hexBytes, Text.join, words_blanks]
  | cons b rest ih =>
    cases rest with
    | nil =>
      rw [hexBytes_single]
      cases blanks with
      | zero => simp [words_single (plain b) (nonempty b), value]
      | succ blanks =>
        rw [replicate_succ, words_append (plain b) (nonempty b), words_blanks]
        simp [value]
    | cons c rest =>
      rw [hexBytes_cons, append_assoc, cons_append, words_append (plain b) (nonempty b), map_cons, ih, value]

section
variable (address : Int64)

theorem address_mod : Numeral.ofDigits 16 (addressText address) = address.toUInt64.toNat % 65536 := ofDigits_hex 4 _

/-! ## Portions -/

/-- The portions of code are its parts in order, each of at most four bytes; there is at least one. -/
theorem portions_facts (code : List UInt8) :
    (portions code).flatten = code ∧ (∀ part ∈ portions code, part.length ≤ 4) ∧ portions code ≠ [] := by
  fun_induction portions code with
  | case1 a b c d e rest ih =>
    obtain ⟨whole, short, -⟩ := ih
    refine ⟨by rw [flatten_cons, whole]; rfl, ?_, by simp⟩
    rw [forall_mem_cons]
    exact ⟨Nat.le_refl 4, short⟩
  | case2 code other =>
    refine ⟨by simp, ?_, by simp⟩
    rw [forall_mem_singleton]
    match code, other with
    | [], _ => decide
    | [_], _ => simp
    | [_, _], _ => simp
    | [_, _, _], _ => simp
    | [_, _, _, _], _ => simp
    | a :: b :: c :: d :: e :: rest, other => exact absurd rfl (other a b c d e rest)

/-! ## Rows of an entry -/

def firstBody (e : ListingEntry) (part : List UInt8) : Text :=
  Text.padLeft 5 (Text.ofInt e.line) ++ bytes "  " ++ addressText e.address ++ bytes "  "
    ++ Text.padRight 12 (hexBytes part) ++ bytes " " ++ e.text

def nextBodies (address : Int64) : List (List UInt8) → List Text
  | [] => []
  | part :: rest =>
    (bytes "       " ++ addressText address ++ bytes "  " ++ hexBytes part) :: nextBodies (address + 4) rest

def bodies (e : ListingEntry) : List Text :=
  firstBody e ((portions e.code).head?.getD []) :: nextBodies (e.address + 4) ((portions e.code).drop 1)

theorem entryRows_eq (e : ListingEntry) : entryRows e = (bodies e).map (· ++ [0x0A]) := by
  have break_ : bytes "\n" = [0x0A] := by decide
  have continued (address : Int64) (parts : List (List UInt8)) :
      continuation address parts = (nextBodies address parts).map (· ++ [0x0A]) := by
    induction parts generalizing address with
    | nil => rfl
    | cons part rest ih => rw [continuation, nextBodies, ih, map_cons, break_]
  rw [entryRows, bodies, map_cons, continued, firstBody, break_]

def rowsFrom (address : Int64) : List (List UInt8) → List Row
  | [] => []
  | part :: rest =>
    { line := none, address := address.toUInt64.toNat % 65536, code := part } :: rowsFrom (address + 4) rest

theorem readRow_next (part : List UInt8) :
    readRow (bytes "       " ++ addressText address ++ bytes "  " ++ hexBytes part) =
      { line := none, address := address.toUInt64.toNat % 65536, code := part } := by
  have seven : (bytes "       ").length = 7 := by decide
  have two : (bytes "  ").length = 2 := by decide
  have four : (addressText address).length = 4 := length_hex ..
  have blank : ((bytes "       ").all (· == ' '.toUInt8)) = true := by decide
  have front : (bytes "       " ++ addressText address ++ bytes "  ").length = 13 := by
    simp [seven, two, four]
  have code : readBytes (hexBytes part) = part := by simpa using readBytes_hexBytes part 0
  rw [readRow, drop_left' front, code, append_assoc, append_assoc, take_left' seven,
    if_pos blank, drop_left' seven, take_left' four, address_mod]

theorem readRows_next (parts : List (List UInt8)) :
    (nextBodies address parts).map readRow = rowsFrom address parts := by
  induction parts generalizing address with
  | nil => rfl
  | cons part rest ih => rw [nextBodies, rowsFrom, map_cons, ih, readRow_next]

/-- A positive number in five columns: blanks, and digits up to a column that is not the last of seven. -/
theorem padLeft_ofInt {line : Int} (pos : 0 < line) : ∃ blanks digits, blanks ≤ 4 ∧
    padLeft 5 (Text.ofInt line) = List.replicate blanks ' '.toUInt8 ++ digits ∧ digits ≠ [] ∧
    (∀ b ∈ digits, Lex.isDigit b) ∧ Numeral.ofDigits 10 digits = line.toNat := by
  obtain ⟨n, rfl⟩ := Int.eq_ofNat_of_zero_le pos.le
  obtain ⟨nonempty, digits, value⟩ := Lex.ofNat_decimal n
  refine ⟨_, Text.ofNat n, ?_, rfl, nonempty, digits, value⟩
  have := length_pos_of_ne_nil nonempty
  change 5 - (Text.ofNat n).length ≤ 4
  omega

theorem readRow_first {e : ListingEntry} (pos : 0 < e.line) {part : List UInt8} (short : part.length ≤ 4) :
    readRow (firstBody e part) =
      { line := some e.line.toNat, address := e.address.toUInt64.toNat % 65536, code := part } := by
  obtain ⟨blanks, digits, few, number, nonempty, isDigits, value⟩ := padLeft_ofInt pos
  have two : bytes "  " = [' '.toUInt8, ' '.toUInt8] := by decide
  have four : (addressText e.address).length = 4 := length_hex ..
  have twelve : (padRight 12 (hexBytes part)).length = 12 := by
    rw [padRight_of_ascii fun x mem => (hexBytes_bytes x mem).1, length_append, length_replicate, length_hexBytes]
    omega
  have code : readBytes (padRight 12 (hexBytes part)) = part := by
    rw [padRight_of_ascii fun x mem => (hexBytes_bytes x mem).1, readBytes_hexBytes]
  have row : firstBody e part = List.replicate blanks ' '.toUInt8 ++ (digits ++
      (' '.toUInt8 :: ' '.toUInt8 :: (addressText e.address ++ (' '.toUInt8 :: ' '.toUInt8 ::
        (padRight 12 (hexBytes part) ++ (bytes " " ++ e.text)))))) := by
    simp [firstBody, number, two]
  generalize bytes " " ++ e.text = text at row
  -- the line number stands in the first seven columns
  obtain ⟨d, more, rfl⟩ := exists_cons_of_ne_nil nonempty
  have isDigit : Lex.isDigit d := isDigits d mem_cons_self
  have notBlank (b : UInt8) : Lex.isDigit b → (b == ' '.toUInt8) = false := by
    revert b
    exact Lex.byte_cases (by decide +kernel)
  have numbered : ((firstBody e part).take 7).all (· == ' '.toUInt8) = false := by
    obtain ⟨left, isLeft⟩ : ∃ left, 7 - blanks = left + 1 := ⟨6 - blanks, by omega⟩
    rw [row, take_append, length_replicate, isLeft, all_append, cons_append,
      take_succ_cons, all_cons, notBlank d isDigit]
    simp
  generalize fieldsEq : ' '.toUInt8 :: ' '.toUInt8 :: (addressText e.address ++ (' '.toUInt8 :: ' '.toUInt8 ::
    (padRight 12 (hexBytes part) ++ text))) = fields at row
  have unpadded : (firstBody e part).dropWhile (· == ' '.toUInt8) = d :: more ++ fields := by
    rw [row]
    refine (Lex.span_append (by simp) ?_).2
    rintro b ⟨⟩
    exact notBlank d isDigit
  have number : (d :: more ++ fields).takeWhile Lex.isDigit = d :: more ∧
      (d :: more ++ fields).dropWhile Lex.isDigit = fields := by
    refine Lex.span_append isDigits ?_
    subst fieldsEq
    rintro b ⟨⟩
    decide
  have addressField : (fields.drop 2).take 4 = addressText e.address := by
    subst fieldsEq
    exact take_left' four
  have codeField : (fields.drop 8).take 12 = padRight 12 (hexBytes part) := by
    subst fieldsEq
    have behind : ∀ rest : Text, (' '.toUInt8 :: ' '.toUInt8 :: (addressText e.address ++
        (' '.toUInt8 :: ' '.toUInt8 :: rest))).drop 8 = rest := by
      intro rest
      change (addressText e.address ++ [' '.toUInt8, ' '.toUInt8] ++ rest).drop 6 = rest
      exact drop_left' (by simp [four])
    rw [behind, take_left' twelve]
  rw [readRow, numbered]
  simp only [Bool.false_eq_true, if_false, unpadded, number, addressField, codeField, value, code, address_mod]

structure Shows (e : ListingEntry) (group : List Row) : Prop where
  code : group.flatMap (·.code) = e.code
  nonempty : group ≠ []
  rows : ∀ (k : Nat) (row : Row), group[k]? = some row →
    (row.address : Int) = (e.address.toInt + 4 * k) % 65536 ∧ row.code.length ≤ 4 ∧
      row.line = if k = 0 then some e.line.toNat else none

theorem address_emod : ((address.toUInt64.toNat % 65536 : Nat) : Int) = address.toInt % 65536 := by
  have signed : address.toInt = address.toBitVec.toInt := rfl
  have unsigned : address.toUInt64.toNat = address.toBitVec.toNat := rfl
  rw [signed, unsigned, BitVec.toInt_eq_toNat_cond]
  split <;> omega

theorem address_step (k : Nat) :
    ((address + 4).toInt + 4 * k) % 65536 = (address.toInt + 4 * (k + 1 : Nat)) % 65536 := by
  have four : (4 : Int64).toInt = 4 := by decide
  have size : (65536 : Int) ∣ ((2 ^ 64 : Nat) : Int) := by decide
  have step : (address + 4).toInt % 65536 = (address.toInt + 4) % 65536 := by
    rw [Int64.toInt_add, four, ← Int.emod_emod_of_dvd _ size, Int.bmod_emod, Int.emod_emod_of_dvd _ size]
  omega

/-- The rows that go on with code are at addresses four bytes apart. -/
theorem rowsFrom_facts (parts : List (List UInt8)) :
    (rowsFrom address parts).flatMap (·.code) = parts.flatten ∧
      ∀ (k : Nat) (row : Row), (rowsFrom address parts)[k]? = some row →
        (row.address : Int) = (address.toInt + 4 * k) % 65536 ∧ row.line = none ∧ row.code ∈ parts := by
  induction parts generalizing address with
  | nil => simp [rowsFrom]
  | cons part rest ih =>
    obtain ⟨whole, rows⟩ := ih (address + 4)
    refine ⟨by rw [rowsFrom, flatMap_cons, whole, flatten_cons], fun k row found => ?_⟩
    cases k with
    | zero =>
      cases found
      exact ⟨by simpa using address_emod address, rfl, mem_cons_self⟩
    | succ k =>
      obtain ⟨shown, line, mem⟩ := rows k row found
      exact ⟨shown.trans (address_step address k), line, mem_cons_of_mem _ mem⟩

/-- **The rows of an entry show its code**, four bytes in a row. -/
theorem shows_bodies {e : ListingEntry} (pos : 0 < e.line) : Shows e ((bodies e).map readRow) := by
  obtain ⟨whole, short, nonempty⟩ := portions_facts e.code
  obtain ⟨first, rest, parts⟩ := exists_cons_of_ne_nil nonempty
  rw [parts] at whole short
  rw [forall_mem_cons] at short
  obtain ⟨restCode, rows⟩ := rowsFrom_facts (e.address + 4) rest
  have read : (bodies e).map readRow =
      { line := some e.line.toNat, address := e.address.toUInt64.toNat % 65536, code := first } ::
        rowsFrom (e.address + 4) rest := by
    rw [bodies, parts, map_cons, head?_cons, Option.getD_some, drop_one, tail_cons,
      readRows_next, readRow_first pos short.1]
  rw [read]
  refine ⟨by rw [flatMap_cons, restCode, ← flatten_cons, whole], by simp, fun k row found => ?_⟩
  cases k with
  | zero =>
    cases found
    exact ⟨by simpa using address_emod e.address, short.1, rfl⟩
  | succ k =>
    obtain ⟨shown, line, mem⟩ := rows k row found
    exact ⟨shown.trans (address_step e.address k), short.2 _ mem, line⟩

/-! ## The whole text -/

theorem addressText_unbroken : 0x0A ∉ addressText address := fun mem =>
  (isAlnum_ne _ (hex_bytes _ mem).1).2 rfl

end

/-- The rows of an entry hold no line feed, if its text holds none, and none of them is empty. -/
theorem bodies_facts {e : ListingEntry} (pos : 0 < e.line) (unbroken : 0x0A ∉ e.text) :
    ∀ body ∈ bodies e, 0x0A ∉ body ∧ body ≠ [] := by
  have two : 0x0A ∉ bytes "  " := by decide
  have seven : 0x0A ∉ bytes "       " := by decide
  have one : 0x0A ∉ bytes " " := by decide
  have code (part : List UInt8) : 0x0A ∉ hexBytes part := fun mem => (hexBytes_bytes _ mem).2 rfl
  have padded (part : List UInt8) : 0x0A ∉ padRight 12 (hexBytes part) := by
    rw [padRight_of_ascii fun x mem => (hexBytes_bytes x mem).1, mem_append, not_or]
    exact ⟨code part, fun mem => absurd (eq_of_mem_replicate mem) (by decide)⟩
  have number : 0x0A ∉ padLeft 5 (Text.ofInt e.line) := by
    obtain ⟨blanks, digits, -, number, -, isDigits, -⟩ := padLeft_ofInt pos
    rw [number, mem_append, not_or]
    exact ⟨fun mem => absurd (eq_of_mem_replicate mem) (by decide), fun mem => absurd (isDigits _ mem) (by decide)⟩
  have next (address : Int64) (parts : List (List UInt8)) :
      ∀ body ∈ nextBodies address parts, 0x0A ∉ body ∧ body ≠ [] := by
    induction parts generalizing address with
    | nil => simp [nextBodies]
    | cons part rest ih =>
      rw [nextBodies, forall_mem_cons]
      refine ⟨⟨?_, by simp [show bytes "  " ≠ [] by decide]⟩, ih _⟩
      simp only [mem_append, not_or]
      exact ⟨⟨⟨seven, addressText_unbroken address⟩, two⟩, code part⟩
  rw [bodies, forall_mem_cons]
  refine ⟨⟨?_, by simp [firstBody, show bytes " " ≠ [] by decide]⟩, next _ _⟩
  simp only [firstBody, mem_append, not_or]
  exact ⟨⟨⟨⟨⟨⟨number, two⟩, addressText_unbroken _⟩, two⟩, padded _⟩, one⟩, unbroken⟩

theorem splitAtByte_symbolRows (t : Table) : ∃ more, splitAtByte 0x0A (symbolRows t).flatten = [] :: more := by
  unfold symbolRows
  split
  · exact ⟨[], rfl⟩
  · have break_ : bytes "\n" = [0x0A] := by decide
    rw [flatten_cons, break_]
    exact ⟨_, splitAtByte_append not_mem_nil _⟩

/-- **What is read off a listing are the rows of its entries.** -/
theorem readRows_rows {entries : List ListingEntry} (t : Table) (fine : ∀ e ∈ entries, 0 < e.line ∧ 0x0A ∉ e.text) :
    readRows (rows entries t).flatten = (entries.map fun e => (bodies e).map readRow).flatten := by
  have fine : ∀ body ∈ entries.flatMap bodies, 0x0A ∉ body ∧ body ≠ [] := by
    intro body mem
    obtain ⟨e, isEntry, mem⟩ := mem_flatMap.1 mem
    exact bodies_facts (fine e isEntry).1 (fine e isEntry).2 body mem
  obtain ⟨more, symbols⟩ := splitAtByte_symbolRows t
  have text : (rows entries t).flatten =
      ((entries.flatMap bodies).map (· ++ [0x0A])).flatten ++ (symbolRows t).flatten := by
    have ends : entries.flatMap entryRows = (entries.flatMap bodies).map (· ++ [0x0A]) := by
      rw [map_flatMap]
      exact congrArg (fun f => entries.flatMap f) (funext entryRows_eq)
    rw [rows, flatten_append, ends]
  have nonempty : ∀ body ∈ entries.flatMap bodies, (!body.isEmpty) = true := fun body mem => by
    simpa using (fine body mem).2
  rw [readRows, text, splitAtByte_rows fun body mem => (fine body mem).1, symbols,
    takeWhile_append_of_pos nonempty, takeWhile_cons_of_neg (by simp), append_nil,
    map_flatMap, flatMap_def]

end Listing

/-! ## Runs -/

namespace Assembly

theorem exists_final {s : Settings} {cancelled : Nat → Bool} {file data : Text} {r : Result}
    (run : assembleText s cancelled file data = .finished r) (kept : r.symbols.isSome = true)
    (whole : r.state ≠ .resourceExceeded) :
    r.code = (walked s (programOf s file data) r.passes).code ∧
      r.listing = (walked s (programOf s file data) r.passes).entries.toList := by
  rcases finished_cases run with ⟨found, fault, rfl⟩ | ⟨n, -, -, ends⟩
  · cases kept
  · cases ends with
    | cancelled => cases kept
    | limit h =>
      obtain ⟨_, _, rfl⟩ := (Walk.steps_moves _ _ _).stop_limit rfl h
      exact absurd rfl whole
    | settled | exhausted => exact ⟨rfl, rfl⟩

/-- **The listing of a run shows its code.**  If a run with a listing reaches a final pass, its entries are the
    statements that the pass executed, and their code is the code of the run.  Unless the first is an `org`, of
    two entries after each other the second is at the address behind the code of the first.  Off the text of
    the listing one reads for each entry the rows of its code, at most four bytes in a row, each with the
    address of its first byte; and from all rows together the code of the run. -/
theorem listing_faithful (s : Settings) (cancelled : Nat → Bool) (file data : Text) (r : Result)
    (listing : s.listing = true) (run : assembleText s cancelled file data = .finished r)
    (kept : r.symbols.isSome = true) (whole : r.state ≠ .resourceExceeded) :
    let p := passOf s (programOf s file data) r.passes
    let executed := visitsOf s (programOf s file data) p
    r.listing = executed.map (·.entry p) ∧
      r.listing.flatMap (·.code) = r.code.toList ∧
      (∀ (i : Nat) (v : Visit) (e e' : ListingEntry), executed[i]? = some v → v.isOrg = false →
        r.listing[i]? = some e → r.listing[i + 1]? = some e' →
          e'.address = e.address + e.code.length.toInt64) ∧
      ∀ t : Table, ∃ groups : List (List Listing.Row),
        Listing.readRows (Listing.rows r.listing t).flatten = groups.flatten ∧
          List.Forall₂ Listing.Shows r.listing groups ∧
          groups.flatten.flatMap (·.code) = r.code.toList := by
  intro p executed
  obtain ⟨code, entries⟩ := exists_final run kept whole
  have recorded : Recorded p { ledger := predefined s } executed (walked s (programOf s file data) r.passes) :=
    Walk.recorded_steps listing _ _
  have listed : r.listing = executed.map (·.entry p) := by
    rw [entries]
    exact recorded.entries.trans (List.nil_append _)
  have codes : r.listing.flatMap (·.code) = r.code.toList := by
    rw [listed, code, List.flatMap_map]
    exact (recorded.trail.code.trans (List.nil_append _)).symm
  have fine : ∀ e ∈ r.listing, 0 < e.line ∧ 0x0A ∉ e.text := by
    rw [listed]
    rintro e mem
    obtain ⟨v, isVisit, rfl⟩ := List.mem_map.1 mem
    exact (visit_row isVisit).symm
  refine ⟨listed, codes, fun i v e e' here stays isEntry isNext => ?_, fun t => ?_⟩
  · rw [listed, List.getElem?_map] at isEntry isNext
    rw [here] at isEntry
    obtain ⟨v', there, rfl⟩ := Option.map_eq_some_iff.1 isNext
    cases isEntry
    obtain ⟨before, isV⟩ := List.getElem?_eq_some_iff.1 here
    obtain ⟨behind, isV'⟩ := List.getElem?_eq_some_iff.1 there
    have next := List.isChain_iff_getElem.1 recorded.trail.addresses i behind
    rw [isV, isV'] at next
    exact next stays
  · refine ⟨_, Listing.readRows_rows t fine, ?_, ?_⟩
    · rw [List.forall₂_map_right_iff, List.forall₂_same]
      exact fun e mem => Listing.shows_bodies (fine e mem).1
    · rw [← codes, ← List.flatMap_def, List.flatMap_assoc]
      exact List.flatMap_congr fun e mem => (Listing.shows_bodies (fine e mem).1).code

/-- Code of more than one row, an address that is moved, and blocks around a statement. -/
def listedSource : Text := bytes " org 0FFFEh\n db 1,2,3,4,5,6\n if 1\n rept 2\n nop\n endr\n endif\n"

theorem listing_faithful_blocks : ∃ r,
    assembleText { Settings.bare with listing := true } neverCancelled (bytes "a.asm") listedSource =
      .finished r ∧
    r.listing.map (fun e => (e.line, e.address, e.code)) = [(1, 0, []), (2, 0xFFFE, [1, 2, 3, 4, 5, 6]),
      (3, 0x10004, []), (4, 0x10004, []), (5, 0x10004, [0]), (5, 0x10005, [0])] ∧
    ∀ t : Table, ∃ groups : List (List Listing.Row),
      Listing.readRows (Listing.rows r.listing t).flatten = groups.flatten ∧
        List.Forall₂ Listing.Shows r.listing groups ∧ groups.flatten.flatMap (·.code) = r.code.toList := by
  have finishes : (assembleText { Settings.bare with listing := true } neverCancelled (bytes "a.asm")
      listedSource).any (fun r => r.symbols.isSome && r.state == .stable &&
        (r.listing.map fun e => (e.line, e.address, e.code)) == [(1, 0, []), (2, 0xFFFE, [1, 2, 3, 4, 5, 6]),
          (3, 0x10004, []), (4, 0x10004, []), (5, 0x10004, [0]), (5, 0x10005, [0])]) = true := by decide +kernel
  obtain ⟨r, run, facts⟩ := Outcome.exists_of_any finishes
  simp only [Bool.and_eq_true, beq_iff_eq] at facts
  obtain ⟨⟨kept, stable⟩, entries⟩ := facts
  exact ⟨r, run, entries, (listing_faithful _ neverCancelled (bytes "a.asm") listedSource r rfl run kept
    (by rw [stable]; decide)).2.2.2⟩

end Assembly

end Z80Asm
