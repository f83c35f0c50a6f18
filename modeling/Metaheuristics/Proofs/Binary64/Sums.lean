import Metaheuristics.Proofs.Binary64.Packing

/-!
# Sums of doubles

Adding a finite number to a number makes no NaN, whatever overflows (`not_isNaN_add`), and nothing is
lost when zero is taken away (`sub_zero`).
-/

namespace Metaheuristics.Binary64

open Float.Model UnpackedFloat

/-- Rounding makes no NaN. -/
theorem isNaN_roundWithAccuracy (spec : Format) (s : Sign) (m : Nat) (e : Int) (a : Accuracy) :
    (roundWithAccuracy spec s m e a).isNaN = false := by
  unfold roundWithAccuracy
  dsimp only
  split <;> rfl

theorem isNaN_normalize (spec : Format) (m : Int) (e : Int) (s : Sign) :
    (UnpackedFloat.normalize spec m e s).isNaN = false := by
  unfold UnpackedFloat.normalize
  split
  · exact isNaN_roundWithAccuracy ..
  · rfl
  · exact isNaN_roundWithAccuracy ..

/-- Only two infinities of different sign have no sum. -/
theorem isNaN_unpacked_add {u v : UnpackedFloat} (number : u.isNaN = false)
    (finite : v.isFinite = true) : (UnpackedFloat.add Format.binary64 u v).isNaN = false := by
  cases v with
  | notANumber => exact absurd finite (by decide)
  | infinity t => exact absurd finite Bool.false_ne_true
  | zero t =>
      cases u with
      | notANumber => exact absurd number (by decide)
      | infinity s => rfl
      | zero s => cases s <;> cases t <;> rfl
      | finite s m e hm => rfl
  | finite t k f hk =>
      cases u with
      | notANumber => exact absurd number (by decide)
      | infinity s => rfl
      | zero s => rfl
      | finite s m e hm => exact isNaN_normalize ..

/-- The sum of a number and a finite number is a number. -/
theorem not_isNaN_add {x y : Float} (number : ¬x.isNaN) (finite : y.isFinite) :
    ¬(x + y).isNaN := by
  have sum : (UnpackedFloat.add Format.binary64 x.toModel.unpack y.toModel.unpack).isNaN = false :=
    isNaN_unpacked_add (Bool.eq_false_iff.mpr number) finite
  exact Bool.eq_false_iff.mp (isNaN_unpack_pack sum)

theorem unpacked_sub_zero (u : UnpackedFloat) :
    UnpackedFloat.sub Format.binary64 u (.zero .positive) = u := by
  cases u with
  | notANumber => rfl
  | infinity s => rfl
  | zero s => cases s <;> rfl
  | finite s m e hm => rfl

/-- Taking zero away changes nothing. -/
theorem sub_zero (x : Float) : x - 0.0 = x := by
  have zero : (0.0 : Float).toModel.unpack = .zero .positive := by rfl
  show Float.ofModel (Float.Model.pack (UnpackedFloat.sub Format.binary64 _ _)) = x
  rw [zero, unpacked_sub_zero, pack_unpack]

end Metaheuristics.Binary64
