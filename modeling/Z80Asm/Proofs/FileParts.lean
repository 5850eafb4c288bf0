import Z80Asm.Proofs.ListedCode

/-!
# Parts of binary files

The part of a file that is emitted is given by two 64-bit numbers, and its end is their sum, which wraps around.  A part
inside the file, in numbers without bounds, is emitted as it is, and another one is reported, unless its end wraps
around: then the check lets it pass.
-/

namespace Z80Asm

namespace Walk

/-- The part from an offset on lies in a file of a size. -/
def PartFits (size : Nat) (offset length : Int64) : Prop :=
  0 ≤ offset.toInt ∧ 0 ≤ length.toInt ∧ offset.toInt + length.toInt ≤ size

/-- The part starts in the file, and its end is no 64-bit number. -/
def PartWraps (size : Nat) (offset length : Int64) : Prop :=
  0 ≤ offset.toInt ∧ offset.toInt ≤ size ∧ Int64.maxValue.toInt < offset.toInt + length.toInt

/-- A sum of numbers that are not negative is exact, or wraps around to a negative number. -/
theorem toInt_add_cases {a b : Int64} (ha : 0 ≤ a.toInt) (hb : 0 ≤ b.toInt) :
    a.toInt + b.toInt ≤ Int64.maxValue.toInt ∧ (a + b).toInt = a.toInt + b.toInt ∨
      Int64.maxValue.toInt < a.toInt + b.toInt ∧ (a + b).toInt < 0 := by
  have := a.toInt_lt
  have := b.toInt_lt
  rw [Int64.toInt_add, Int.bmod, Int64.toInt_maxValue]
  split <;> omega

theorem toInt_toInt64 {n : Nat} (small : n ≤ Int64.maxValue.toInt) : n.toInt64.toInt = n := by
  rw [Int64.toInt_maxValue] at small
  exact Int64.toInt_ofNat_of_lt (by omega)

section
variable (w : Walk) (p : Pass) (node : Node) (name : Text) {data : Text}
  (small : data.length ≤ Int64.maxValue.toInt) (offset length : Int64)
include small

theorem emitPart_of_fits (fits : PartFits data.length offset length) : w.emitPart p node name data offset length =
    w.emit ((data.drop offset.toInt.toNat).take length.toInt.toNat) := by
  obtain ⟨start, positive, stop⟩ := fits
  have size := toInt_toInt64 small
  have sum := toInt_add_cases start positive
  simp only [emitPart, Int64.lt_iff_toInt_lt, size, Int64.toInt_zero, Bool.or_eq_true, decide_eq_true_eq]
  rw [if_neg (by omega), if_neg (by omega)]

theorem emitPart_of_wraps (wraps : PartWraps data.length offset length) :
    w.emitPart p node name data offset length = { w with stop := some .outOfBounds } := by
  obtain ⟨start, inside, stop⟩ := wraps
  have size := toInt_toInt64 small
  have := length.toInt_le
  have sum := toInt_add_cases start (b := length) (by omega)
  simp only [emitPart, Int64.lt_iff_toInt_lt, size, Int64.toInt_zero, Bool.or_eq_true, decide_eq_true_eq]
  rw [if_neg (by omega), if_pos (by omega)]

theorem emitPart_of_outside (outside : ¬ PartFits data.length offset length)
    (bounded : ¬ PartWraps data.length offset length) :
    w.emitPart p node name data offset length = w.fail p node (.about .incbinRange name) := by
  have size := toInt_toInt64 small
  simp only [emitPart, Int64.lt_iff_toInt_lt, size, Int64.toInt_zero, Bool.or_eq_true, decide_eq_true_eq]
  refine if_pos ?_
  by_contra fine
  have sum := toInt_add_cases (a := offset) (b := length) (by omega) (by omega)
  simp only [PartFits, PartWraps] at outside bounded
  omega

end

/-- Where no length is given, the part goes up to the end of the file, and its end is not beyond it. -/
theorem not_partWraps_rest {size : Nat} (small : size ≤ Int64.maxValue.toInt) (offset : Int64) :
    ¬ PartWraps size offset (size.toInt64 - offset) := by
  rintro ⟨start, inside, stop⟩
  have whole := toInt_toInt64 small
  rw [Int64.toInt_maxValue] at small stop
  rw [Int64.toInt_sub, whole, Int.bmod_eq_of_le (by omega) (by omega)] at stop
  omega

theorem evalOption_keeps (w : Walk) (p : Pass) (node : Node) (missing : Int64) (e : Option Expr) :
    Emits [] w (w.evalOption p node missing e).2 ∧ (w.evalOption p node missing e).2.stop = w.stop := by
  cases e with
  | none => exact ⟨.refl w, rfl⟩
  | some e => exact ⟨eval_emits w p node e, eval_stop w p node e⟩

/-- **A part of a file is emitted exactly if it lies in the file, and reported otherwise**, unless its end wraps around.
    That needs both an offset and a length, and breaks the walk off. -/
theorem incbin_part (w : Walk) (p : Pass) (node : Node) (name : Text) {data : Text}
    (small : data.length ≤ Int64.maxValue.toInt) (offset length : Option Expr) :
    let (o, w₁) := w.evalOption p node 0 offset
    let (l, w₂) := w₁.evalOption p node (data.length.toInt64 - o) length
    let v := w.act p node (.incbin name data offset length)
    let part := (data.drop o.toInt.toNat).take l.toInt.toNat
    Emits [] w w₂ ∧ w₂.stop = w.stop ∧
      (PartFits data.length o l → v = w₂.emit part ∧ part.length = l.toInt) ∧
      (¬ PartFits data.length o l → ¬ PartWraps data.length o l → v = w₂.fail p node (.about .incbinRange name)) ∧
      (PartWraps data.length o l → offset.isSome ∧ length.isSome ∧ v = { w₂ with stop := some .outOfBounds }) := by
  dsimp only [act]
  obtain ⟨silent, stop⟩ := evalOption_keeps w p node 0 offset
  have offset_zero : offset = none → (w.evalOption p node 0 offset).1 = 0 := by
    rintro rfl
    rfl
  generalize w.evalOption p node 0 offset = first at silent stop offset_zero ⊢
  obtain ⟨o, w₁⟩ := first
  dsimp only at silent stop offset_zero ⊢
  obtain ⟨silent', stop'⟩ := evalOption_keeps w₁ p node (data.length.toInt64 - o) length
  have length_rest : length = none →
      (w₁.evalOption p node (data.length.toInt64 - o) length).1 = data.length.toInt64 - o := by
    rintro rfl
    rfl
  generalize w₁.evalOption p node (data.length.toInt64 - o) length = second at silent' stop' length_rest ⊢
  obtain ⟨l, w₂⟩ := second
  dsimp only at silent' stop' length_rest ⊢
  refine ⟨silent.trans silent', stop'.trans stop, fun fits => ⟨emitPart_of_fits w₂ p node name small o l fits, ?_⟩,
    emitPart_of_outside w₂ p node name small o l,
    fun wraps => ⟨?_, ?_, emitPart_of_wraps w₂ p node name small o l wraps⟩⟩
  · obtain ⟨start, positive, stop⟩ := fits
    rw [List.length_take, List.length_drop]
    omega
  · -- An offset of zero leaves the sum what the length is.
    refine Option.isSome_iff_ne_none.2 fun absent => ?_
    obtain rfl := offset_zero absent
    have := l.toInt_le
    have := wraps.2.2
    simp only [Int64.toInt_zero] at this
    omega
  · refine Option.isSome_iff_ne_none.2 fun absent => ?_
    obtain rfl := length_rest absent
    exact not_partWraps_rest small o wraps

/-- The last byte of a file of two. -/
theorem incbin_part_last : (bytes "ab").length ≤ Int64.maxValue.toInt ∧ PartFits 2 1 1 ∧
    act { ledger := .new 1 } { index := 1, prev := .empty, listing := false } { seq := 1, pos := {}, text := [] }
      (.incbin (bytes "f") (bytes "ab") (some (.num 1)) (some (.num 1))) = emit { ledger := .new 1 } (bytes "b") :=
  have small : (bytes "ab").length ≤ Int64.maxValue.toInt := by decide
  have fits : PartFits 2 1 1 := by unfold PartFits; decide
  ⟨small, fits, ((incbin_part _ _ _ (bytes "f") small (some (.num 1)) (some (.num 1))).2.2.1 fits).1⟩

end Walk

/-- The end of a part wraps around, and the run breaks off. -/
theorem Assembly.incbin_part_wraps :
    (match assembleText { Settings.bare with read := fun _ => .ok (bytes "ab") } neverCancelled (bytes "test.asm")
        (bytes " incbin f,1,7FFFFFFFFFFFFFFFh\n") with
      | .outOfBounds => true
      | .finished _ => false) = true := by
  decide +kernel

end Z80Asm
