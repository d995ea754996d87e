import TypedSSA.Binary.Double

/-!
# Widening stays in range

A number of the 32 bit format, written in the 64 bit format, is not larger than the largest number
of the 32 bit format (`Single.fitsSingle_toDouble`).
-/

namespace TypedSSA

namespace Double

theorem magnitude_ofFields {s : Bool} {e f : Nat} (h : e <<< 52 + f < 1 <<< 63) :
    (ofFields s e f).magnitude = e <<< 52 + f := by
  simp only [magnitude, ofFields, BitVec.toNat_ofNat, Nat.shiftLeft_eq] at h ⊢
  cases s <;> simp only [Bool.toNat_false, Bool.toNat_true] <;> omega

theorem fitsSingle_ofFields {s : Bool} {e f : Nat} (h : e <<< 52 + f ≤ singleMax) :
    (ofFields s e f).fitsSingle = true := by
  have hm : (ofFields s e f).magnitude = e <<< 52 + f :=
    magnitude_ofFields (Nat.lt_of_le_of_lt h (by decide))
  rw [fitsSingle, hm, decide_eq_true h, Bool.or_true]

theorem isFinite_ofFields_max {s : Bool} {f : Nat} (h : f < 1 <<< 52) :
    (ofFields s 2047 f).isFinite = false := by
  have hm : (ofFields s 2047 f).magnitude = 2047 <<< 52 + f :=
    magnitude_ofFields (by rw [Nat.shiftLeft_eq] at h ⊢; omega)
  have : (ofFields s 2047 f).exponent = 2047 := by
    rw [exponent, hm, Nat.shiftRight_eq_div_pow]
    rw [Nat.shiftLeft_eq] at h ⊢
    omega
  rw [isFinite, this, bne_self_eq_false]

end Double

namespace Single

theorem exponent_lt (x : Single) : x.exponent < 256 := Nat.mod_lt _ (by decide)

theorem fraction_lt (x : Single) : x.fraction < 1 <<< 23 := Nat.mod_lt _ (by decide)

/-- A number below the least normal one of the 32 bit format is written with an exponent below
that one's, since its leading digit is among the lower 23. -/
theorem subnormal_le {m : Nat} (h0 : m ≠ 0) (h : m < 1 <<< 23) :
    (m.log2 + 874) <<< 52 + (m - 1 <<< m.log2) <<< (52 - m.log2) ≤ Double.singleMax := by
  have hk : m.log2 < 23 := (Nat.log2_lt h0).mpr h
  have hup : m < 2 ^ (m.log2 + 1) := (Nat.log2_lt h0).mp (by omega)
  have hle : m - 1 <<< m.log2 ≤ 2 ^ m.log2 := by
    rw [Nat.pow_succ] at hup
    rw [Nat.one_shiftLeft]
    omega
  have hrest : (m - 1 <<< m.log2) <<< (52 - m.log2) ≤ 2 ^ 52 := by
    rw [Nat.shiftLeft_eq]
    calc (m - 1 <<< m.log2) * 2 ^ (52 - m.log2)
        ≤ 2 ^ m.log2 * 2 ^ (52 - m.log2) := Nat.mul_le_mul_right _ hle
      _ = 2 ^ 52 := by rw [← Nat.pow_add]; congr 1; omega
  have hs : (m.log2 + 874) <<< 52 + 2 ^ 52 ≤ Double.singleMax := by
    rw [Nat.shiftLeft_eq]
    unfold Double.singleMax
    omega
  exact Nat.le_trans (Nat.add_le_add_left hrest _) hs

theorem fitsSingle_toDouble (x : Single) : x.toDouble.fitsSingle = true := by
  have he := x.exponent_lt
  have hf := x.fraction_lt
  unfold toDouble
  split
  · have hor : (if x.fraction = 0 then 0 else 1 <<< 51 ||| x.fraction <<< 29) < 1 <<< 52 := by
      split
      · decide
      · have hl : x.fraction <<< 29 < 2 ^ 52 := by
          rw [Nat.one_shiftLeft] at hf
          rw [Nat.shiftLeft_eq]
          omega
        rw [Nat.one_shiftLeft, Nat.one_shiftLeft]
        exact Nat.or_lt_two_pow (by decide) hl
    rw [Double.fitsSingle, Double.isFinite_ofFields_max hor, Bool.not_false, Bool.true_or]
  · split
    · split
      · exact Double.fitsSingle_ofFields (by decide)
      · rename_i h0
        exact Double.fitsSingle_ofFields (subnormal_le h0 hf)
    · apply Double.fitsSingle_ofFields
      rw [Nat.one_shiftLeft] at hf
      rw [Nat.shiftLeft_eq, Nat.shiftLeft_eq]
      unfold Double.singleMax
      omega

end Single

end TypedSSA
