import Z80Asm.Proofs.Decoder

/-!
# Instructions can be told apart by their bytes

Each instruction whose values fit is decoded from its bytes, whatever bytes follow.  So the bytes of one
instruction are never the start of another's, and two instructions with the same bytes are spellings of
the same one.

The proof goes through the mnemonics.  The operands that a three-bit field names are treated alike
everywhere (`Names`); for the others, the form of each opcode is evaluated.
-/

namespace Z80Asm.Cpu

open List

variable {src dst x op : Operand} {v pc n : Int64} {slots : List Slot} {d s p : Place} {fields : List Field}
  {bd bs base : Reg} {m : Mnemonic} {y opcode : UInt8} {ops : List Operand} {result : Instruction} {cc : Cond}

/-! ## Canonical forms -/

/-- The operand with a value cut to the bits of `value`, and an address to those of `address`. -/
def Operand.wrapped (value address : Int64) : Operand → Operand
  | .imm v => .imm (v &&& value)
  | .mem v => .mem (v &&& address)
  | op => op

/-- One spelling for all instructions with the same bytes. -/
def canonical : Mnemonic → List Operand → Instruction
  | .rot .sli, ops => (.rot .sll, ops)
  | .alu op, [x] => (.alu op, [.reg .a, x.wrapped 0xFF 0xFFFF])
  | .alu op, ops => (.alu op, ops.map (·.wrapped 0xFF 0xFFFF))
  | .ld, [.reg rr, x] => (.ld, [.reg rr, x.wrapped (if rr.is16Bit then 0xFFFF else 0xFF) 0xFFFF])
  | .ld, ops => (.ld, ops.map (·.wrapped 0xFF 0xFFFF))
  | .jp, [.ind rr] | .jp, [.idx rr _] => (.jp, [.reg rr])
  | .jp, ops => (.jp, ops.map (·.wrapped 0xFFFF 0xFFFF))
  | .call, ops => (.call, ops.map (·.wrapped 0xFFFF 0xFFFF))
  | .ex, [.reg .hl, .reg .de] => (.ex, [.reg .de, .reg .hl])
  | .ex, [.reg .af, .reg .af] => (.ex, [.reg .af, .reg .afx])
  | .input, [x] => (.input, [.reg .f, x])
  | .input, ops => (.input, ops.map (·.wrapped 0xFF 0xFF))
  | .output, ops => (.output, ops.map (·.wrapped 0xFF 0xFF))
  | m, ops => (m, ops)

/-- The operand has no number that names no register or no condition. -/
def Operand.isNamed : Operand → Bool
  | .reg (.unnamed _) | .ind (.unnamed _) | .idx (.unnamed _) _ | .cond (.unnamed _) => false
  | _ => true

/-- A load between two of `bc`, `de` and `hl`, which stands for two instructions. -/
def isPairLoad : Mnemonic → List Operand → Bool
  | .ld, [.reg dst, .reg src] => dst.halves?.isSome && src.halves?.isSome
  | _, _ => false

/-! ## Opcodes by their digits -/

theorem toNat_octal : ∀ (x : Fin 4) (y z : Fin 8),
    (UInt8.ofNat (64 * x) ||| atBit3 (UInt8.ofNat y) ||| UInt8.ofNat z).toNat = 64 * x + 8 * y + z := by
  decide +kernel

section
variable (base : Reg) (x : Fin 4) {z : UInt8} (hy : y.toNat < 8) (hz : z.toNat < 8)
include hy hz

theorem mainForm_octal :
    mainForm base (UInt8.ofNat (64 * x) ||| atBit3 y ||| z) = octalForm base x y.toNat z.toNat := by
  have value := toNat_octal x ⟨y.toNat, hy⟩ ⟨z.toNat, hz⟩
  simp only [UInt8.ofNat_toNat] at value
  rw [mainForm, value]
  congr 1 <;> omega

theorem bitForm_octal : bitForm base (UInt8.ofNat (64 * x) ||| atBit3 y ||| z) = bitOctal base x y.toNat z.toNat := by
  have value := toNat_octal x ⟨y.toNat, hy⟩ ⟨z.toNat, hz⟩
  simp only [UInt8.ofNat_toNat] at value
  rw [bitForm, value]
  congr 1 <;> omega

end

theorem octalForm_load {y z : Nat} (h : ¬ (y = 6 ∧ z = 6)) : octalForm base 1 y z = some ⟨.ld, places base y z⟩ := by
  unfold octalForm
  split <;> simp_all

/-! ## Places -/

/-- A place, the register that stands for `hl` in it, and the operand that names it. -/
inductive Names : Place → Reg → Operand → Prop
  | memory : Names { code := 6 } .hl (.ind .hl)
  | indexed {base : Reg} (h : base = .ix ∨ base = .iy) (d : Int64) :
      Names { code := 6, index := base.indexByte, displacement := some d } base (.idx base d)
  | plain {y : UInt8} (hy : y.toNat < 8) (h : y ≠ 6) :
      Names { code := y } .hl (.reg (register .hl y.toNat))
  | half {base : Reg} (h : base = .ix ∨ base = .iy) {y : UInt8} (hy : y = 4 ∨ y = 5) :
      Names { code := y, index := base.indexByte } base (.reg (register base y.toNat))

theorem names_of_place? (h : op.place? = some p) : ∃ base, Names p base op := by
  cases op with
  | reg rr =>
    cases rr with
    | b => cases h; exact ⟨_, .plain (y := 0) (by decide) (by decide)⟩
    | c => cases h; exact ⟨_, .plain (y := 1) (by decide) (by decide)⟩
    | d => cases h; exact ⟨_, .plain (y := 2) (by decide) (by decide)⟩
    | e => cases h; exact ⟨_, .plain (y := 3) (by decide) (by decide)⟩
    | h => cases h; exact ⟨_, .plain (y := 4) (by decide) (by decide)⟩
    | l => cases h; exact ⟨_, .plain (y := 5) (by decide) (by decide)⟩
    | a => cases h; exact ⟨_, .plain (y := 7) (by decide) (by decide)⟩
    | ixh => cases h; exact ⟨.ix, .half (.inl rfl) (.inl rfl)⟩
    | ixl => cases h; exact ⟨.ix, .half (.inl rfl) (.inr rfl)⟩
    | iyh => cases h; exact ⟨.iy, .half (.inr rfl) (.inl rfl)⟩
    | iyl => cases h; exact ⟨.iy, .half (.inr rfl) (.inr rfl)⟩
    | _ => cases h
  | ind rr =>
    cases rr <;> cases h
    exact ⟨_, .memory⟩
  | idx rr d =>
    cases rr <;> cases h
    · exact ⟨.ix, .indexed (.inl rfl) d⟩
    · exact ⟨.iy, .indexed (.inr rfl) d⟩
  | imm | mem | cond | unnamed => cases h

namespace Names

theorem base_mem (h : Names p base op) : base ∈ bases := by
  cases h with
  | memory | plain => decide
  | indexed h | half h => rcases h with rfl | rfl <;> decide

theorem index (h : Names p base op) : p.index = base.indexByte := by
  cases h <;> rfl

theorem code_lt (h : Names p base op) : p.code.toNat < 8 := by
  cases h with
  | memory | indexed => exact (by decide : (6 : UInt8).toNat < 8)
  | plain hy => exact hy
  | half _ hy =>
    rcases hy with rfl | rfl
    · exact (by decide : (4 : UInt8).toNat < 8)
    · exact (by decide : (5 : UInt8).toNat < 8)

theorem place_eq (h : p.code ≠ 6) : place base p.code.toNat = .fixed (.reg (register base p.code.toNat)) := by
  refine if_neg fun e => h ?_
  exact UInt8.toNat_inj.1 e

theorem fills (h : Names p base op) :
    Fills [place base p.code.toNat] [op] (p.displacement.toList.map .displacement) := by
  cases h with
  | memory => exact .fixed _ .nil
  | indexed h d => rcases h with rfl | rfl <;> exact .indexed _ d .nil
  | plain hy h =>
    rw [place_eq h]
    exact .fixed _ .nil
  | half h hy => rcases hy with rfl | rfl <;> exact .fixed _ .nil

end Names

theorem Decodes.of_place (h : Names p base op) {values : List Field} (form : mainForm base opcode = some ⟨m, slots⟩)
    (fills : Fills slots ops (p.displacement.toList.map .displacement ++ values)) :
    Decodes (onPlace p opcode ++ values) (m, ops) := by
  rw [onPlace, h.index, append_assoc]
  exact of_indexed h.base_mem form fills

/-! ## Loads -/

section
variable {op : Alu}

theorem loadPlace_ok (h : loadPlace d s = .ok fields) :
    (¬ (d.isMemory = true ∧ s.isMemory = true) ∧
      ¬ ((d.isHalf = true ∨ s.isHalf = true) ∧ (d.isMemory = true ∨ s.isMemory = true)) ∧
      ¬ (d.isHalf = true ∧ s.isPlainHL = true) ∧ ¬ (s.isHalf = true ∧ d.isPlainHL = true) ∧
      (d.isHalf = true → s.isHalf = true → d.index = s.index)) ∧
    fields = onPlace
      { code := 0
        index := if s.index = 0 then d.index else s.index
        displacement := s.displacement.or d.displacement }
      (0x40 ||| atBit3 d.code ||| s.code) := by
  unfold loadPlace at h
  split at h
  · cases h
  split at h
  · cases h
  split at h
  · cases h
  split at h
  · cases h
  next both mixed plain halves =>
    cases h
    simp only [Bool.and_eq_true, Bool.or_eq_true, bne_iff_ne, not_or, ne_eq] at both mixed plain halves
    exact ⟨⟨both, mixed, plain.1, plain.2, fun hd hs => Decidable.not_not.1 fun ne => halves ⟨⟨hd, hs⟩, ne⟩⟩, rfl⟩

/-- A register that is neither `h` nor `l` is the same next to an index register. -/
theorem place_eq_of_ne (base : Reg) {digit : Nat} (h : digit ≠ 4 ∧ digit ≠ 5 ∧ digit ≠ 6) :
    place base digit = place .hl digit := by
  rw [place, place, if_neg h.2.2, if_neg h.2.2]
  unfold register
  split <;> simp_all

theorem places_memory {y : Nat} (h : y ≠ 6) : places base y 6 = [place .hl y, place base 6] := by
  rw [places, if_neg h]
  rfl

theorem places_registers {y z : Nat} (hy : y ≠ 6) (hz : z ≠ 6) : places base y z = [place base y, place base z] := by
  rw [places, if_neg hy, if_neg hz]

theorem toNat_ne_six (h : y ≠ 6) : y.toNat ≠ 6 := fun e => h (UInt8.toNat_inj.1 e)

theorem half_ne_six (h : y = 4 ∨ y = 5) : y.toNat ≠ 6 := by
  rcases h with rfl | rfl <;> decide

theorem isHalf_half (h : base = .ix ∨ base = .iy) (y : UInt8) :
    Place.isHalf { code := y, index := base.indexByte } = true := by
  rcases h with rfl | rfl <;> rfl

theorem ne_of_not_isPlainHL (h : ¬ Place.isPlainHL { code := y } = true) (six : y ≠ 6) :
    y.toNat ≠ 4 ∧ y.toNat ≠ 5 ∧ y.toNat ≠ 6 := by
  refine ⟨fun e => h ?_, fun e => h ?_, toNat_ne_six six⟩
  · rw [UInt8.toNat_inj.1 (show y.toNat = (4 : UInt8).toNat from e)]; rfl
  · rw [UInt8.toNat_inj.1 (show y.toNat = (5 : UInt8).toNat from e)]; rfl

theorem decodes_loadPlace (hd : Names d bd dst) (hs : Names s bs src) {fields : List Field}
    (h : loadPlace d s = .ok fields) : Decodes fields (.ld, [dst, src]) := by
  obtain ⟨⟨both, mixed, left, right, same⟩, rfl⟩ := loadPlace_ok h
  have digits : ¬ (d.code.toNat = 6 ∧ s.code.toNat = 6) := by
    rintro ⟨hd, hs⟩
    refine both ⟨?_, ?_⟩
    · simp [Place.isMemory, UInt8.toNat_inj.1 (show d.code.toNat = (6 : UInt8).toNat from hd)]
    · simp [Place.isMemory, UInt8.toNat_inj.1 (show s.code.toNat = (6 : UInt8).toNat from hs)]
  -- only the index byte of one operand is written, and it stands for both
  have load : ∀ base ∈ bases, (if s.index = 0 then d.index else s.index) = base.indexByte →
      Fills (places base d.code.toNat s.code.toNat) [dst, src]
        ((s.displacement.or d.displacement).toList.map .displacement) →
      Decodes (onPlace
        { code := 0
          index := if s.index = 0 then d.index else s.index
          displacement := s.displacement.or d.displacement }
        (0x40 ||| atBit3 d.code ||| s.code)) (.ld, [dst, src]) := by
    intro base hb index fills
    simp only [onPlace, index]
    refine .of_indexed hb ?_ fills
    rw [← octalForm_load digits]
    exact mainForm_octal base 1 hd.code_lt hs.code_lt
  have fills := hd.fills.append hs.fills
  have hbd := hd.base_mem
  have hbs := hs.base_mem
  cases hd with
  | memory =>
    cases hs with
    | memory | indexed => exact absurd ⟨rfl, rfl⟩ both
    | plain => exact load .hl hbd rfl fills
    | half hs => exact absurd ⟨.inr (isHalf_half hs _), .inl rfl⟩ mixed
  | indexed =>
    cases hs with
    | memory | indexed => exact absurd ⟨rfl, rfl⟩ both
    | plain => exact load bd hbd rfl fills
    | half hs => exact absurd ⟨.inr (isHalf_half hs _), .inl rfl⟩ mixed
  | plain _ hy =>
    cases hs with
    | memory =>
      refine load .hl hbd rfl ?_
      change Fills (places .hl _ 6) _ _
      rw [places_memory (toNat_ne_six hy)]
      exact fills
    | indexed hs =>
      refine load bs hbs (by rcases hs with rfl | rfl <;> rfl) ?_
      change Fills (places bs _ 6) _ _
      rw [places_memory (toNat_ne_six hy)]
      exact fills
    | plain _ hz =>
      refine load .hl hbd rfl ?_
      rw [places_registers (toNat_ne_six hy) (toNat_ne_six hz)]
      exact fills
    | half hs hz =>
      have plain := ne_of_not_isPlainHL (fun hl => right ⟨isHalf_half hs _, hl⟩) hy
      refine load bs hbs (by rcases hs with rfl | rfl <;> rfl) ?_
      rw [places_registers plain.2.2 (half_ne_six hz), place_eq_of_ne bs plain]
      exact fills
  | half hd hy =>
    cases hs with
    | memory | indexed => exact absurd ⟨.inl (isHalf_half hd _), .inr rfl⟩ mixed
    | plain _ hz =>
      have plain := ne_of_not_isPlainHL (fun hl => left ⟨isHalf_half hd _, hl⟩) hz
      refine load bd hbd rfl ?_
      rw [places_registers (half_ne_six hy) plain.2.2, place_eq_of_ne bd plain]
      exact fills
    | half hs hz =>
      have index := same (isHalf_half hd _) (isHalf_half hs _)
      obtain rfl : bd = bs := by
        rcases hd with rfl | rfl <;> rcases hs with rfl | rfl
        · rfl
        · cases index
        · cases index
        · rfl
      refine load bd hbd (by rcases hd with rfl | rfl <;> rfl) ?_
      rw [places_registers (half_ne_six hy) (half_ne_six hz)]
      exact fills

theorem decodes_loadAccumulator (h : loadAccumulator src = .ok fields) :
    Decodes fields (.ld, [.reg .a, src.wrapped 0xFF 0xFFFF]) := by
  cases src with
  | mem v => cases h; exact .of_opcodes (fun _ => rfl) (.fixed _ (.memory v .nil))
  | ind rr => cases rr <;> cases h <;> exact .of_fixed fun _ => rfl
  | reg rr => cases rr <;> cases h <;> exact .of_fixed fun _ => rfl
  | imm | idx | cond | unnamed => cases h

theorem decodes_storeAccumulator (h : storeAccumulator dst = .ok fields) :
    Decodes fields (.ld, [dst.wrapped 0xFF 0xFFFF, .reg .a]) := by
  cases dst with
  | mem v => cases h; exact .of_opcodes (fun _ => rfl) (.memory v (.fixed _ .nil))
  | ind rr => cases rr <;> cases h <;> exact .of_fixed fun _ => rfl
  | reg rr => cases rr <;> cases h <;> exact .of_fixed fun _ => rfl
  | imm | idx | cond | unnamed => cases h

theorem decodes_storePair {src : Reg} {fields : List Field} (h : storePair v src = .ok fields) :
    Decodes fields (.ld, [.mem (v &&& 0xFFFF), .reg src]) := by
  cases src <;> cases h <;> exact .of_opcodes (fun _ => rfl) (.memory v (.fixed _ .nil))

theorem decodes_loadPair {dst : Reg} {fields : List Field}
    (h : loadPair dst src = .ok fields) (single : isPairLoad .ld [.reg dst, src] = false) :
    Decodes fields (.ld, [.reg dst, src.wrapped 0xFFFF 0xFFFF]) := by
  cases src with
  | imm v => cases dst <;> cases h <;> exact .of_opcodes (fun _ => rfl) (.fixed _ (.word v .nil))
  | mem v => cases dst <;> cases h <;> exact .of_opcodes (fun _ => rfl) (.fixed _ (.memory v .nil))
  | reg rr =>
    cases dst with
    | sp => cases rr <;> cases h <;> exact .of_fixed fun _ => rfl
    | bc | de | hl => cases rr <;> cases h <;> cases single
    | _ => cases h
  | ind | idx | cond | unnamed => cases dst <;> cases h

theorem decodes_loadOther (h : loadOther dst src = .ok fields) (single : isPairLoad .ld [dst, src] = false) :
    Decodes fields (canonical .ld [dst, src]) := by
  unfold loadOther at h
  split at h
  next accumulator =>
    subst accumulator
    exact decodes_loadAccumulator h
  split at h
  next accumulator =>
    subst accumulator
    cases dst <;> exact decodes_storeAccumulator h
  split at h
  next rr _ =>
    split at h
    next wide =>
      simp only [canonical, wide, if_true]
      exact decodes_loadPair h single
    next => cases h
  next v rr _ => exact decodes_storePair h
  next => cases h

theorem canonical_load_places (hd : Names d bd dst) (hs : Names s bs src) :
    canonical .ld [dst, src] = (.ld, [dst, src]) := by
  cases hd <;> cases hs <;> rfl

theorem Names.canonical_load_imm (hd : Names d bd dst) (v : Int64) :
    canonical .ld [dst, .imm v] = (.ld, [dst, .imm (v &&& 0xFF)]) := by
  have narrow : ∀ base digit, (register base digit).is16Bit = false := by
    intro base digit
    unfold register
    split <;> first | rfl | split <;> rfl
  cases hd with
  | memory | indexed => rfl
  | plain | half => simp [canonical, narrow, Operand.wrapped]

theorem mainForm_low (base : Reg) {z : UInt8} (hy : y.toNat < 8) (hz : z.toNat < 8) :
    mainForm base (z ||| atBit3 y) = some (lowForm base z.toNat y.toNat) := by
  rw [UInt8.or_comm, ← UInt8.zero_or (a := atBit3 y)]
  exact mainForm_octal base 0 hy hz

theorem decodes_load (h : load dst src = .ok fields)
    (single : isPairLoad .ld [dst, src] = false) : Decodes fields (canonical .ld [dst, src]) := by
  unfold load at h
  split at h
  next d s hd hs =>
    obtain ⟨bd, hd⟩ := names_of_place? hd
    obtain ⟨bs, hs⟩ := names_of_place? hs
    rw [canonical_load_places hd hs]
    exact decodes_loadPlace hd hs h
  next d hd hs =>
    split at h
    next v =>
      cases h
      obtain ⟨base, hd⟩ := names_of_place? hd
      rw [hd.canonical_load_imm]
      exact .of_place hd (mainForm_low base (z := 6) hd.code_lt (by decide)) (hd.fills.append (.byte v .nil))
    next => exact decodes_loadOther h single
  next => exact decodes_loadOther h single

/-! ## Arithmetic -/

theorem decodes_step {down : UInt8} (word : down = 0 ∧ m = .inc ∨ down = 1 ∧ m = .dec) {op : Operand}
    {fields : List Field} (h : step down op = .ok fields) : Decodes fields (m, [op]) := by
  cases hp : op.place? with
  | some p =>
    simp only [step, hp] at h
    cases h
    obtain ⟨base, hp⟩ := names_of_place? hp
    have form : mainForm base (0x04 ||| atBit3 p.code ||| down) = some ⟨m, [place base p.code.toNat]⟩ := by
      rw [UInt8.or_assoc, UInt8.or_comm (atBit3 _), ← UInt8.or_assoc]
      rcases word with ⟨rfl, rfl⟩ | ⟨rfl, rfl⟩
      · exact mainForm_low base (z := 4) hp.code_lt (by decide)
      · exact mainForm_low base (z := 5) hp.code_lt (by decide)
    rw [← append_nil (onPlace _ _)]
    exact .of_place hp form (by simpa using hp.fills)
  | none =>
    cases op with
    | reg rr =>
      rcases word with ⟨rfl, rfl⟩ | ⟨rfl, rfl⟩ <;> cases rr <;> cases hp <;> cases h <;>
        exact .of_fixed fun _ => rfl
    | _ => simp [step, hp] at h

theorem decodes_arithmetic (h : arithmetic op src = .ok fields) :
    Decodes fields (.alu op, [.reg .a, src.wrapped 0xFF 0xFFFF]) := by
  cases hp : src.place? with
  | some p =>
    simp only [arithmetic, hp] at h
    cases h
    obtain ⟨base, hp⟩ := names_of_place? hp
    have form : mainForm base (0x80 ||| atBit3 op.code ||| p.code) =
        some ⟨.alu op, [accumulator, place base p.code.toNat]⟩ := by
      have octal := mainForm_octal base 2 (y := op.code) (by cases op <;> decide) hp.code_lt
      cases op <;> exact octal
    have same : src.wrapped 0xFF 0xFFFF = src := by cases hp <;> rfl
    rw [same, ← append_nil (onPlace _ _)]
    exact .of_place hp form (.fixed _ (by simpa using hp.fills))
  | none =>
    cases src with
    | imm v => cases h; cases op <;> exact .of_opcodes (fun _ => rfl) (.fixed _ (.byte v .nil))
    | _ => simp [arithmetic, hp] at h

theorem decodes_pairArithmetic {dst : Reg} {fields : List Field} (h : pairArithmetic op dst src = .ok fields) :
    Decodes fields (.alu op, [.reg dst, src.wrapped 0xFF 0xFFFF]) := by
  unfold pairArithmetic at h
  split at h
  next rr =>
    split at h
    next => cases h
    next code operand =>
      split at h
      case h_6 => cases h
      all_goals cases rr <;> cases operand <;> cases h <;> exact .of_fixed fun _ => rfl
  next => cases h

end

/-! ## Shifts and bits -/

theorem Decodes.of_indexed_bit (hb : base = .ix ∨ base = .iy) (memory : opcode.toNat % 8 = 6) (d : Int64)
    (form : bitForm base opcode = ⟨m, slots⟩) (fills : Fills slots ops [.displacement d]) :
    Decodes (opcodes [base.indexByte, 0xCB] ++ [.displacement d] ++ opcodes [opcode]) (m, ops) := by
  intro pc rest fits
  have fit : ∀ f ∈ [Field.displacement d], f.misfit? pc = none := fun f hf =>
    fits f (mem_append_left _ (mem_append_right _ hf))
  have filled : readAll pc slots (lowByte d :: rest) = some (ops, rest) := fills.readAll fit rest
  have selects : ∀ tail, select (base.indexByte :: 0xCB :: lowByte d :: opcode :: tail) =
      some (⟨m, slots⟩, lowByte d :: tail) := by
    intro tail
    rcases hb with rfl | rfl <;> simp [select, selectIndexed, Reg.indexByte, memory, form]
  have code : (opcodes [base.indexByte, 0xCB] ++ [Field.displacement d] ++ opcodes [opcode]).flatMap
      (Field.code pc) = [base.indexByte, 0xCB, lowByte d, opcode] := rfl
  have count : rest.length + 1 + 1 + 1 + 1 - rest.length = 4 := by omega
  rw [code]
  simp only [cons_append, nil_append, decode, selects, filled, Option.bind_eq_bind,
    Option.bind_some, Option.pure_def, length_cons, length_nil, count]

section
variable (ops : List Operand) (x : Fin 4) (hy : y.toNat < 8)
  (form : ∀ base z, bitOctal base x y.toNat z = ⟨m, ops.map .fixed ++ [place base z]⟩)
include hy form

theorem decodes_onBitPage (hp : Names p base op) (h : onBitPage p (UInt8.ofNat (64 * x) ||| atBit3 y) = .ok fields) :
    Decodes fields (m, ops ++ [op]) := by
  have selects : ∀ {z : UInt8}, z.toNat < 8 → ∀ tail,
      select ([0xCB, UInt8.ofNat (64 * x) ||| atBit3 y ||| z] ++ tail) =
        some (⟨m, ops.map .fixed ++ [place .hl z.toNat]⟩, tail) := by
    intro z hz tail
    change some (bitForm .hl _, tail) = _
    rw [bitForm_octal .hl x hy hz, form]
  cases hp with
  | memory =>
    cases h
    refine .of_fixed fun tail => ?_
    rw [selects (by decide) tail, map_append]
    rfl
  | plain hz ne =>
    cases h
    refine .of_fixed fun tail => ?_
    rw [selects hz tail, map_append]
    simp [place, toNat_ne_six ne]
  | half hb =>
    rcases hb with rfl | rfl <;> cases h
  | indexed hb d =>
    cases h
    have six : (6 : UInt8).toNat < 8 := by decide
    have memory : (UInt8.ofNat (64 * x) ||| atBit3 y ||| 6).toNat % 8 = 6 := by
      have value := toNat_octal x ⟨y.toNat, hy⟩ 6
      simp only [UInt8.ofNat_toNat] at value
      change (UInt8.ofNat (64 * x) ||| atBit3 y ||| 6).toNat = 64 * x + 8 * y.toNat + 6 at value
      omega
    have opcode := (bitForm_octal base x hy six).trans (form base _)
    have fills := (Fills.map_fixed ops).append (Names.indexed hb d).fills
    exact .of_indexed_bit hb memory d opcode fills

end

theorem decodes_shift {op : Rot} (h : shift op src = .ok fields) : Decodes fields (canonical (.rot op) [src]) := by
  unfold shift at h
  split at h
  next p hp =>
    obtain ⟨base, hp⟩ := names_of_place? hp
    rw [← UInt8.zero_or (a := atBit3 op.code)] at h
    have decodes := decodes_onBitPage [] 0 (y := op.code) (by cases op <;> decide) (fun _ _ => rfl) hp h
    cases op <;> exact decodes
  next => cases h

theorem exists_nat_of_le {v bound : Int64} (low : 0 ≤ v) (high : v ≤ bound) :
    ∃ n : Nat, v = n.toInt64 ∧ n ≤ bound.toInt.toNat := by
  rw [Int64.le_iff_toInt_le] at low high
  have low : 0 ≤ v.toInt := low
  refine ⟨v.toInt.toNat, ?_, by omega⟩
  rw [Nat.toInt64, ← Int64.ofInt_eq_ofNat, Int.toNat_of_nonneg low, Int64.ofInt_toInt]

theorem digit_of_bit (h : misfit? n 0 7 true = none) :
    (lowByte (n &&& 7)).toNat < 8 ∧ (lowByte (n &&& 7)).toNat.toInt64 = n := by
  have digits : ∀ k : Fin 8, (lowByte (k.val.toInt64 &&& 7)).toNat < 8 ∧
      (lowByte (k.val.toInt64 &&& 7)).toNat.toInt64 = k.val.toInt64 := by
    decide
  obtain ⟨low, high⟩ := misfit?_eq_none h
  obtain ⟨k, rfl, le⟩ := exists_nat_of_le low high
  exact digits ⟨k, Nat.lt_succ_of_le le⟩

theorem ok_of_map {α β : Type} {f : α → β} {x : Except OperandCause α} {b : β}
    (h : x.map f = .ok b) : ∃ a, x = .ok a ∧ f a = b := by
  cases x with
  | error => cases h
  | ok a => exact ⟨a, rfl, Except.ok.inj h⟩

theorem Decodes.of_bitNumber (h : misfit? n 0 7 true = none → Decodes fields result) :
    Decodes (.bitNumber n :: fields) result := by
  intro pc rest fits
  exact h (fits _ mem_cons_self) pc rest fun f hf => fits f (mem_cons_of_mem _ hf)

theorem decodes_bitAccess {op : BitOp} {bit src : Operand} (h : bitAccess op bit src = .ok fields) :
    Decodes fields (.bit op, [bit, src]) := by
  unfold bitAccess at h
  split at h
  next n p hp =>
    obtain ⟨base, hp⟩ := names_of_place? hp
    obtain ⟨_, page, rfl⟩ := ok_of_map h
    refine .of_bitNumber fun fits => ?_
    obtain ⟨digit, number⟩ := digit_of_bit fits
    have form : ∀ base z, (⟨.bit op, [.fixed (.imm (lowByte (n &&& 7)).toNat.toInt64), place base z]⟩ :
        Form) = ⟨.bit op, [.fixed (.imm n), place base z]⟩ := by
      intro base z
      rw [number]
    cases op with
    | test => exact decodes_onBitPage [.imm n] 1 digit form hp page
    | reset => exact decodes_onBitPage [.imm n] 2 digit form hp page
    | raise => exact decodes_onBitPage [.imm n] 3 digit form hp page
  next => cases h

/-! ## Jumps and the rest -/

theorem decodes_jump (h : jump op = .ok fields) : Decodes fields (canonical .jp [op]) := by
  cases op with
  | imm v => cases h; exact .of_opcodes (fun _ => rfl) (.word v .nil)
  | ind rr => cases rr <;> cases h; exact .of_fixed fun _ => rfl
  | reg rr => cases rr <;> cases h <;> exact .of_fixed fun _ => rfl
  | idx rr d =>
    change (if (rr.isIndex && d == 0) = true then _ else _) = _ at h
    split at h
    next here =>
      cases h
      rw [Bool.and_eq_true] at here
      cases rr <;> cases here.1 <;> exact .of_fixed fun _ => rfl
    next => cases h
  | mem | cond | unnamed => cases h

theorem decodes_conditional {base : UInt8} (v : Int64) (named : (Operand.cond cc).isNamed = true)
    (word : base = 0xC2 ∧ m = .jp ∨ base = 0xC4 ∧ m = .call) :
    Decodes [.opcode (base ||| cc.field), .imm16 v] (m, [.cond cc, .imm (v &&& 0xFFFF)]) := by
  cases cc with
  | unnamed => cases named
  | _ =>
    rcases word with ⟨rfl, rfl⟩ | ⟨rfl, rfl⟩ <;>
      exact .of_opcode (fun _ => rfl) (.fixed _ (.word v .nil))

theorem decodes_jumpRelative (named : (Operand.cond cc).isNamed = true) (h : jumpRelative cc v = .ok fields) :
    Decodes fields (.jr, [.cond cc, .imm v]) := by
  cases cc with
  | unnamed => cases named
  | po | pe | p | m => cases h
  | nz | z | nc | c => cases h; exact .of_opcode (fun _ => rfl) (.fixed _ (.target v .nil))

theorem decodes_return (named : ∀ op ∈ ops, op.isNamed = true) (h : layout .ret ops = .ok fields) :
    Decodes fields (.ret, ops) := by
  match ops with
  | [] => cases h; exact .of_fixed fun _ => rfl
  | [.cond cc] =>
    cases h
    cases cc with
    | unnamed => cases named _ mem_cons_self
    | _ => exact .of_fixed fun _ => rfl
  | [.reg _] | [.imm _] | [.mem _] | [.ind _] | [.idx _ _] | [.unnamed _] => cases h
  | x :: _ :: _ => cases x <;> cases h

theorem decodes_restart (h : restart v = .ok fields) : Decodes fields (.rst, [.imm v]) := by
  unfold restart at h
  split at h
  next vector =>
    cases h
    simp only [Bool.and_eq_true, decide_eq_true_eq] at vector
    obtain ⟨⟨low, high⟩, aligned⟩ := vector
    obtain ⟨n, rfl, le⟩ := exists_nat_of_le low high
    have multiple : ∀ n : Fin 57, (n.val.toInt64 &&& 7 == 0) = true → n.val ∈ [0, 8, 16, 24, 32, 40, 48, 56] := by
      decide
    have mem := multiple ⟨n, Nat.lt_succ_of_le le⟩ aligned
    simp only [mem_cons, not_mem_nil, or_false] at mem
    rcases mem with rfl | rfl | rfl | rfl | rfl | rfl | rfl | rfl <;> exact .of_fixed fun _ => rfl
  next => cases h

theorem decodes_interruptMode (h : interruptMode v = .ok fields) : Decodes fields (.im, [.imm v]) := by
  unfold interruptMode at h
  split at h
  next mode => cases h; subst mode; exact .of_fixed fun _ => rfl
  split at h
  next mode => cases h; subst mode; exact .of_fixed fun _ => rfl
  split at h
  next mode => cases h; subst mode; exact .of_fixed fun _ => rfl
  next => cases h

theorem decodes_exchange {y : Operand} (h : exchange x y = .ok fields) : Decodes fields (canonical .ex [x, y]) := by
  unfold exchange at h
  split at h
  case h_8 => cases h
  all_goals cases h; exact .of_fixed fun _ => rfl

theorem decodes_stack {base : UInt8} (word : base = 0xC5 ∧ m = .push ∨ base = 0xC1 ∧ m = .pop)
    (h : stack base op = .ok fields) : Decodes fields (m, [op]) := by
  cases op with
  | reg rr =>
    rcases word with ⟨rfl, rfl⟩ | ⟨rfl, rfl⟩ <;> cases rr <;> cases h <;>
      exact .of_fixed fun _ => rfl
  | _ => cases h

theorem decodes_portIn (h : portIn dst src = .ok fields) : Decodes fields (canonical .input [dst, src]) := by
  cases dst with
  | reg rr =>
    cases src with
    | mem v => cases rr <;> cases h; exact .of_opcodes (fun _ => rfl) (.fixed _ (.port v .nil))
    | ind port => cases rr <;> cases port <;> cases h <;> exact .of_fixed fun _ => rfl
    | _ => cases rr <;> cases h
  | _ => cases h

theorem decodes_portOut (h : portOut dst src = .ok fields) : Decodes fields (canonical .output [dst, src]) := by
  unfold portOut at h
  split at h
  next v => cases h; exact .of_opcodes (fun _ => rfl) (.port v (.fixed _ .nil))
  next v =>
    split at h
    next zero => cases h; subst zero; exact .of_fixed fun _ => rfl
    next => cases h
  next rr => cases rr <;> cases h <;> exact .of_fixed fun _ => rfl
  next => cases h

/-! ## All mnemonics -/

section
variable {f : Operand → Layout} {g : Operand → Operand → Layout}

theorem oneOperand_ok (h : oneOperand f ops = .ok fields) : ∃ x, ops = [x] ∧ f x = .ok fields := by
  unfold oneOperand at h
  split at h
  · cases h
  · exact ⟨_, rfl, h⟩
  · cases h

theorem twoOperands_ok (h : twoOperands g ops = .ok fields) : ∃ x y, ops = [x, y] ∧ g x y = .ok fields := by
  unfold twoOperands at h
  split at h
  · cases h
  · cases h
  · exact ⟨_, _, rfl, h⟩
  · cases h

theorem oneOrTwo_ok (h : oneOrTwo f g ops = .ok fields) :
    (∃ x, ops = [x] ∧ f x = .ok fields) ∨ ∃ x y, ops = [x, y] ∧ g x y = .ok fields := by
  unfold oneOrTwo at h
  split at h
  · cases h
  · exact .inl ⟨_, rfl, h⟩
  · exact .inr ⟨_, _, rfl, h⟩
  · cases h

end

theorem onValue_ok {f : Int64 → Layout} (h : onValue f op = .ok fields) : ∃ v, op = .imm v ∧ f v = .ok fields := by
  cases op with
  | imm v => exact ⟨v, rfl, h⟩
  | _ => cases h

theorem onCondition_ok {f : Cond → Int64 → Layout} {y : Operand} (h : onCondition f x y = .ok fields) :
    ∃ cc v, x = .cond cc ∧ y = .imm v ∧ f cc v = .ok fields := by
  unfold onCondition at h
  split at h
  · exact ⟨_, _, rfl, rfl, h⟩
  · cases h

/-- **The fields of each instruction decode to its canonical form.** -/
theorem decodes_layout (h : layout m ops = .ok fields) (named : ∀ op ∈ ops, op.isNamed = true)
    (single : isPairLoad m ops = false) : Decodes fields (canonical m ops) := by
  cases m with
  | implied op =>
    cases ops with
    | nil => cases h; cases op <;> exact .of_fixed fun _ => rfl
    | cons => cases h
  | alu op =>
    rcases oneOrTwo_ok h with ⟨x, rfl, made⟩ | ⟨x, y, rfl, made⟩
    · exact decodes_arithmetic made
    · cases x with
      | reg rr =>
        dsimp only at made
        split at made
        next => exact decodes_pairArithmetic made
        next =>
          split at made
          next accumulator => subst accumulator; exact decodes_arithmetic made
          next => cases made
      | _ => cases made
  | rot op =>
    obtain ⟨x, rfl, made⟩ := oneOperand_ok h
    exact decodes_shift made
  | bit op =>
    obtain ⟨x, y, rfl, made⟩ := twoOperands_ok h
    exact decodes_bitAccess made
  | ld =>
    obtain ⟨x, y, rfl, made⟩ := twoOperands_ok h
    exact decodes_load made single
  | inc =>
    obtain ⟨x, rfl, made⟩ := oneOperand_ok h
    exact decodes_step (.inl ⟨rfl, rfl⟩) made
  | dec =>
    obtain ⟨x, rfl, made⟩ := oneOperand_ok h
    exact decodes_step (.inr ⟨rfl, rfl⟩) made
  | jp =>
    rcases oneOrTwo_ok h with ⟨x, rfl, made⟩ | ⟨x, y, rfl, made⟩
    · exact decodes_jump made
    · obtain ⟨cc, v, rfl, rfl, made⟩ := onCondition_ok made
      cases made
      exact decodes_conditional v (named _ mem_cons_self) (.inl ⟨rfl, rfl⟩)
  | jr =>
    rcases oneOrTwo_ok h with ⟨x, rfl, made⟩ | ⟨x, y, rfl, made⟩
    · obtain ⟨v, rfl, made⟩ := onValue_ok made
      cases made
      exact .of_opcode (fun _ => rfl) (.target v .nil)
    · obtain ⟨cc, v, rfl, rfl, made⟩ := onCondition_ok made
      exact decodes_jumpRelative (named _ mem_cons_self) made
  | djnz =>
    obtain ⟨x, rfl, made⟩ := oneOperand_ok h
    obtain ⟨v, rfl, made⟩ := onValue_ok made
    cases made
    exact .of_opcode (fun _ => rfl) (.target v .nil)
  | call =>
    rcases oneOrTwo_ok h with ⟨x, rfl, made⟩ | ⟨x, y, rfl, made⟩
    · obtain ⟨v, rfl, made⟩ := onValue_ok made
      cases made
      exact .of_opcode (fun _ => rfl) (.word v .nil)
    · obtain ⟨cc, v, rfl, rfl, made⟩ := onCondition_ok made
      cases made
      exact decodes_conditional v (named _ mem_cons_self) (.inr ⟨rfl, rfl⟩)
  | ret => exact decodes_return named h
  | rst =>
    obtain ⟨x, rfl, made⟩ := oneOperand_ok h
    obtain ⟨v, rfl, made⟩ := onValue_ok made
    exact decodes_restart made
  | im =>
    obtain ⟨x, rfl, made⟩ := oneOperand_ok h
    obtain ⟨v, rfl, made⟩ := onValue_ok made
    exact decodes_interruptMode made
  | ex =>
    obtain ⟨x, y, rfl, made⟩ := twoOperands_ok h
    exact decodes_exchange made
  | push =>
    obtain ⟨x, rfl, made⟩ := oneOperand_ok h
    exact decodes_stack (.inl ⟨rfl, rfl⟩) made
  | pop =>
    obtain ⟨x, rfl, made⟩ := oneOperand_ok h
    exact decodes_stack (.inr ⟨rfl, rfl⟩) made
  | input =>
    rcases oneOrTwo_ok h with ⟨x, rfl, made⟩ | ⟨x, y, rfl, made⟩
    · split at made
      next port => cases made; subst port; exact .of_fixed fun _ => rfl
      next => cases made
    · exact decodes_portIn made
  | output =>
    obtain ⟨x, y, rfl, made⟩ := twoOperands_ok h
    exact decodes_portOut made

/-! ## Unique decoding -/

/-- The bytes of an instruction at `pc`: one instruction with valid operands, all of which fit. -/
structure Encodes (m : Mnemonic) (pc : Int64) (ops : List Operand) (code : List UInt8) : Prop where
  named : ∀ op ∈ ops, op.isNamed = true
  single : isPairLoad m ops = false
  bytes : encode m pc ops = .ok { code, misfit := none }

theorem Encodes.decode {code : List UInt8} (h : Encodes m pc ops code) (rest : List UInt8) :
    decode pc (code ++ rest) = some (canonical m ops, code.length) := by
  obtain ⟨fields, layout, encoded⟩ := ok_of_map h.bytes
  obtain ⟨rfl, misfits⟩ := Encoded.mk.inj encoded
  exact decodes_layout layout h.named h.single pc rest (findSome?_eq_none_iff.1 misfits)

/-- How many bytes fill slots does not depend on the address. -/
theorem readAll_rest (pc' : Int64) {bytes rest : List UInt8} (h : readAll pc slots bytes = some (ops, rest)) :
    ∃ ops', readAll pc' slots bytes = some (ops', rest) := by
  induction slots generalizing bytes ops with
  | nil => cases h; exact ⟨[], rfl⟩
  | cons slot slots ih =>
    simp only [readAll, Option.bind_eq_bind, Option.bind_eq_some_iff, Option.pure_def] at h
    obtain ⟨⟨op, after⟩, read, ⟨more, _⟩, filled, e⟩ := h
    cases e
    obtain ⟨ops', filled'⟩ := ih filled
    obtain ⟨op', read'⟩ : ∃ op', slot.read pc' bytes = some (op', after) := by
      unfold Slot.read at read ⊢
      split at read <;> cases read <;> exact ⟨_, rfl⟩
    exact ⟨op' :: ops', by simp [readAll, read', filled']⟩

theorem decode_length (pc' : Int64) {bytes : List UInt8} {n : Nat} (h : decode pc bytes = some (result, n)) :
    ∃ result', decode pc' bytes = some (result', n) := by
  simp only [Cpu.decode, Option.bind_eq_bind, Option.bind_eq_some_iff, Option.pure_def] at h
  obtain ⟨⟨form, tail⟩, selects, ⟨ops, rest⟩, filled, e⟩ := h
  cases e
  obtain ⟨ops', filled'⟩ := readAll_rest pc' filled
  exact ⟨(form.mnemonic, ops'), by simp [Cpu.decode, selects, filled']⟩

/-- **Instructions can be told apart by their bytes.**  The bytes of an instruction decode to its
    canonical form, whatever follows them; they are not the start of those of a longer one, and at the
    same address they are the bytes of no other instruction. -/
theorem encode_uniquely_decodable {m : Mnemonic} {pc : Int64} {ops : List Operand} {code : List UInt8}
    (h : Encodes m pc ops code) :
    (∀ rest, decode pc (code ++ rest) = some (canonical m ops, code.length)) ∧
    ∀ m' pc' ops' code', Encodes m' pc' ops' code' → code <+: code' →
      code = code' ∧ (pc = pc' → canonical m ops = canonical m' ops') := by
  refine ⟨h.decode, ?_⟩
  rintro m' pc' ops' _ h' ⟨rest, rfl⟩
  have whole := h'.decode []
  rw [List.append_nil] at whole
  obtain ⟨result, start⟩ := decode_length pc' (h.decode rest)
  have length : code.length = (code ++ rest).length := by
    rw [start] at whole
    exact (Prod.mk.inj (Option.some.inj whole)).2
  obtain rfl : rest = [] := by
    rw [List.length_append] at length
    exact List.eq_nil_of_length_eq_zero (by omega)
  refine ⟨(List.append_nil code).symm, ?_⟩
  rintro rfl
  rw [h.decode []] at whole
  exact (Prod.mk.inj (Option.some.inj whole)).1

theorem encode_uniquely_decodable_bit :
    Encodes (.bit .test) 0x8000 [.imm 7, .idx .ix (-2)] [0xDD, 0xCB, 0xFE, 0x7E] ∧
    ∀ rest, decode 0x8000 ([0xDD, 0xCB, 0xFE, 0x7E] ++ rest) =
      some ((.bit .test, [.imm 7, .idx .ix (-2)]), 4) := by
  have encodes : Encodes (.bit .test) 0x8000 [.imm 7, .idx .ix (-2)] [0xDD, 0xCB, 0xFE, 0x7E] :=
    ⟨by decide, rfl, rfl⟩
  exact ⟨encodes, (encode_uniquely_decodable encodes).1⟩

end Z80Asm.Cpu
