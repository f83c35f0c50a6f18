import Mathlib
import Metaheuristics.Binary64

/-!
# Doubles as words

The operations on doubles take a word of 64 bits apart into a sign, an exponent and a significand,
compute with these, and put the result together again. Collected here:

* what a word can be taken apart into (`Reading`, `Canonical`, `canonical_unpack`);
* a word that is taken apart and put together again is the same word (`pack_unpack`), and so it is
  the other way round (`unpack_pack`);
* what is put together is a NaN only if it was one before (`isNaN_unpack_pack`).
-/

namespace Metaheuristics.Binary64

open Float.Model UnpackedFloat

/-! ## Taking a word apart -/

/-- What a word is taken apart into, with the exponent and the significand as they stand in it. -/
inductive Reading (w : BitVec Format.binary64.numBits) : UnpackedFloat → Prop
  | infinity : unpackExponent w = -1#_ → unpackMantissa w = 0#_ →
      Reading w (.infinity (Sign.ofBitVec (unpackSign w)))
  | notANumber : unpackExponent w = -1#_ → unpackMantissa w ≠ 0#_ → Reading w .notANumber
  | zero : unpackExponent w = 0#_ → unpackMantissa w = 0#_ →
      Reading w (.zero (Sign.ofBitVec (unpackSign w)))
  | subnormal {m : Nat} {e : Int} (hm : 0 < m) : unpackExponent w = 0#_ →
      m = (unpackMantissa w).toNat → e = -1074 →
      Reading w (.finite (Sign.ofBitVec (unpackSign w)) m e hm)
  | normal {m : Nat} {e : Int} (hm : 0 < m) : 0 < (unpackExponent w).toNat →
      (unpackExponent w).toNat < 2047 → m = 2 ^ 52 + (unpackMantissa w).toNat →
      e = (unpackExponent w).toNat - 1075 →
      Reading w (.finite (Sign.ofBitVec (unpackSign w)) m e hm)

/-- The leading one that a word leaves out stands before its significand. -/
theorem toNat_one_append (m : BitVec 52) : (1#1 ++ m).toNat = 2 ^ 52 + m.toNat := by
  rw [BitVec.toNat_append, ← Nat.shiftLeft_add_eq_or_of_lt m.isLt]
  rfl

theorem reading_unpack (w : BitVec Format.binary64.numBits) :
    Reading w (UnpackedFloat.unpack Format.binary64 w) := by
  have bias : Format.binary64.exponentBias = 1023 := rfl
  have he : (unpackExponent w).toNat < 2 ^ 11 := (unpackExponent w).isLt
  unfold UnpackedFloat.unpack
  by_cases top : unpackExponent w = -1#_
  · rw [if_pos top]
    by_cases nothing : unpackMantissa w = 0#_
    · rw [if_pos nothing]
      exact .infinity top nothing
    · rw [if_neg nothing]
      exact .notANumber top nothing
  · rw [if_neg top]
    by_cases bottom : unpackExponent w = 0#_
    · rw [if_pos bottom]
      by_cases nothing : unpackMantissa w = 0#_
      · rw [dif_pos nothing]
        exact .zero bottom nothing
      · rw [dif_neg nothing]
        refine .subnormal _ bottom rfl ?_
        rw [bottom, bias]
        rfl
    · rw [if_neg bottom]
      have above : (unpackExponent w).toNat ≠ 0 := fun h => bottom (BitVec.eq_of_toNat_eq h)
      have below : (unpackExponent w).toNat ≠ 2047 := fun h => top (BitVec.eq_of_toNat_eq h)
      refine .normal _ (by omega) (by omega) (toNat_one_append _) ?_
      rw [bias]
      rfl

/-- The form of what is read from a word: a significand has 53 bits, except that one at the smallest
exponent may have fewer. -/
def Canonical : UnpackedFloat → Prop
  | .finite _ m e _ => m < 2 ^ 53 ∧ -1074 ≤ e ∧ e ≤ 971 ∧ (2 ^ 52 ≤ m ∨ e = -1074)
  | _ => True

theorem Reading.canonical {w : BitVec Format.binary64.numBits} {u : UnpackedFloat}
    (reading : Reading w u) : Canonical u := by
  have hm : (unpackMantissa w).toNat < 2 ^ 52 := (unpackMantissa w).isLt
  cases reading with
  | infinity => trivial
  | notANumber => trivial
  | zero => trivial
  | subnormal =>
      simp only [Canonical]
      omega
  | normal =>
      simp only [Canonical]
      omega

theorem canonical_unpack (f : Float.Model) : Canonical f.unpack :=
  (reading_unpack f.toBits.toBitVec).canonical

/-! ## Putting a word together -/

/-- A double that is taken apart and put together again is the same double. -/
theorem pack_unpack (f : Float.Model) : Float.Model.pack f.unpack = f := by
  have same := pack_unpack_of_valid f.valid
  cases f with
  | mk bits valid =>
      simp only [Float.Model.pack, Float.Model.unpack, Float.Model.mk.injEq] at same ⊢
      rw [same]

/-- A word is read in one way only. -/
theorem Reading.eq_unpack {w : BitVec Format.binary64.numBits} {u : UnpackedFloat}
    (reading : Reading w u) : u = UnpackedFloat.unpack Format.binary64 w := by
  have apart : (0#_ : BitVec Format.binary64.exponentBits) ≠ -1#_ := by decide
  unfold UnpackedFloat.unpack
  cases reading with
  | infinity top nothing =>
      rw [if_pos top, if_pos nothing]
  | notANumber top something =>
      rw [if_pos top, if_neg something]
  | zero bottom nothing =>
      rw [if_neg (bottom ▸ apart), if_pos bottom, dif_pos nothing]
  | subnormal hm bottom significand exponent =>
      subst significand exponent
      have something : unpackMantissa w ≠ 0#_ := by
        intro nothing
        rw [nothing] at hm
        exact absurd hm (by decide)
      rw [if_neg (bottom ▸ apart), if_pos bottom, dif_neg something]
      congr 1
      rw [bottom]
      rfl
  | normal hm above below significand exponent =>
      subst significand exponent
      have top : unpackExponent w ≠ -1#_ := by
        intro top
        rw [top] at below
        exact absurd below (by decide)
      have bottom : unpackExponent w ≠ 0#_ := by
        intro bottom
        rw [bottom] at above
        exact absurd above (by decide)
      rw [if_neg top, if_neg bottom]
      congr 1
      exact (toNat_one_append _).symm

/-- Of a word that is put together from fields, the sign is the one put there. -/
theorem sign_packComponents (s : Sign) (e : BitVec 11) (m : BitVec 52) :
    Sign.ofBitVec (unpackSign (packComponents Format.binary64 s e m)) = s := by
  rw [unpackSign_packComponents, Sign.ofBitVec_toBitVec]

theorem log2_eq_of_lt {m : Nat} (low : 2 ^ 52 ≤ m) (high : m < 2 ^ 53) : m.log2 = 52 :=
  (Nat.log2_eq_iff (by omega)).mpr ⟨low, high⟩

/-- A canonical form is what its word is taken apart into. -/
theorem reading_pack {u : UnpackedFloat} (canonical : Canonical u) :
    Reading (UnpackedFloat.pack Format.binary64 u) u := by
  cases u with
  | notANumber => exact .notANumber (by decide) (by decide)
  | infinity s =>
      have read := Reading.infinity (w := packComponents Format.binary64 s (-1#_) 0)
        unpackExponent_packComponents unpackMantissa_packComponents
      rw [sign_packComponents] at read
      exact read
  | zero s =>
      have read := Reading.zero (w := packComponents Format.binary64 s 0 0)
        unpackExponent_packComponents unpackMantissa_packComponents
      rw [sign_packComponents] at read
      exact read
  | finite s m e hm =>
      simp only [Canonical] at canonical
      have exponent : (e + Format.binary64.exponentBias +
          Format.binary64.mantissaBitsWithoutImplicit).toNat = (e + 1075).toNat := by
        show (e + (1023 : Nat) + (52 : Nat)).toNat = _
        omega
      have mantissa : (BitVec.ofNat 52 m).toNat = m % 2 ^ 52 := BitVec.toNat_ofNat m 52
      rw [UnpackedFloat.pack]
      dsimp only
      rw [exponent, if_neg (by omega)]
      by_cases full : 2 ^ 52 ≤ m
      · have stored : (BitVec.ofNat 11 (e + 1075).toNat).toNat = (e + 1075).toNat := by
          rw [BitVec.toNat_ofNat, Nat.mod_eq_of_lt (by omega)]
        have bits : m.log2 + 1 = Format.binary64.mantissaBits :=
          congrArg (· + 1) (log2_eq_of_lt full canonical.1)
        rw [if_pos bits]
        have read := Reading.normal (w := packComponents Format.binary64 s
          (BitVec.ofNat 11 (e + 1075).toNat) (BitVec.ofNat 52 m)) (m := m) (e := e) hm
        rw [unpackExponent_packComponents, unpackMantissa_packComponents, sign_packComponents,
          stored, mantissa] at read
        exact read (by omega) (by omega) (by omega) (by omega)
      · have fewer : m.log2 + 1 ≠ Format.binary64.mantissaBits :=
          ne_of_lt (Nat.succ_lt_succ ((Nat.log2_lt hm.ne').mpr (Nat.lt_of_not_le full)))
        rw [if_neg fewer]
        have read := Reading.subnormal (w := packComponents Format.binary64 s 0#11
          (BitVec.ofNat 52 m)) (m := m) (e := e) hm
        rw [unpackExponent_packComponents, unpackMantissa_packComponents, sign_packComponents,
          mantissa] at read
        exact read rfl (by omega) (by omega)

/-- A canonical form that is put together and taken apart again is the same form. -/
theorem unpack_pack {u : UnpackedFloat} (canonical : Canonical u) :
    (Float.Model.pack u).unpack = u :=
  (reading_pack canonical).eq_unpack.symm

/-- A word is no NaN unless it has the largest exponent and a significand. -/
theorem Reading.isNaN_eq_false {w : BitVec Format.binary64.numBits} {u : UnpackedFloat}
    (reading : Reading w u) (number : unpackExponent w = -1#_ → unpackMantissa w = 0#_) :
    u.isNaN = false := by
  cases reading with
  | notANumber top something => exact absurd (number top) something
  | infinity => rfl
  | zero => rfl
  | subnormal => rfl
  | normal => rfl

/-- What is put together is no NaN unless it was one before. -/
theorem isNaN_unpack_pack {u : UnpackedFloat} (number : u.isNaN = false) :
    (Float.Model.pack u).unpack.isNaN = false := by
  refine (reading_unpack _).isNaN_eq_false ?_
  show unpackExponent (UnpackedFloat.pack Format.binary64 u) = -1#11 →
    unpackMantissa (UnpackedFloat.pack Format.binary64 u) = 0#52
  cases u with
  | notANumber => exact absurd number (by decide)
  | infinity s => exact fun _ => unpackMantissa_packComponents
  | zero s => exact fun _ => unpackMantissa_packComponents
  | finite s m e hm =>
      rw [UnpackedFloat.pack]
      dsimp only
      split
      · exact fun _ => unpackMantissa_packComponents
      · rename_i inner
        split
        · rw [unpackExponent_packComponents]
          intro top
          have small : (e + Format.binary64.exponentBias +
              Format.binary64.mantissaBitsWithoutImplicit).toNat + 1 < 2 ^ 11 :=
            Nat.lt_of_not_le inner
          have field : (e + Format.binary64.exponentBias +
              Format.binary64.mantissaBitsWithoutImplicit).toNat % 2 ^ 11 = 2047 :=
            congrArg BitVec.toNat top
          omega
        · rw [unpackExponent_packComponents]
          intro top
          exact absurd top (by decide)

end Metaheuristics.Binary64
