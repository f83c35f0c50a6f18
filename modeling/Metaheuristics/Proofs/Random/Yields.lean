import Metaheuristics.Random.Sampling
import Metaheuristics.Proofs.Binary64.Arithmetic

/-!
# Draws that end with a result

A draw *yields* a property when it faults from no source and its result has the property whatever
the source is. Collected here:

* the rules by which the property of a composed draw follows from those of its parts
  (`Yields.pure`, `Yields.bind`, `Yields.lift`, `Yields.get_bind`), what it says of a single source
  (`Yields.of_ok`), and that continuations that agree on what is yielded can stand for one another
  (`Yields.bind_congr`);
* an index is drawn below its bound, for every bound but zero (`index_yields`);
* a fraction of the unit interval is less than one, also after rounding (`fraction_yields`);
* a range from zero to a positive finite number can be sampled (`between_zero`).
-/

namespace Metaheuristics.Draw

variable {σ α β : Type}

/-- From every source, the draw ends with a result, and the result satisfies `P`. -/
def Yields (m : Draw σ α) (P : α → Prop) : Prop :=
  ∀ s, ∃ a t, m s = .ok (a, t) ∧ P a

theorem Yields.pure {P : α → Prop} {a : α} (h : P a) : Yields (Pure.pure a : Draw σ α) P :=
  fun s => ⟨a, s, rfl, h⟩

theorem Yields.bind {m : Draw σ α} {f : α → Draw σ β} {P : α → Prop} {Q : β → Prop}
    (first : Yields m P) (next : ∀ a, P a → Yields (f a) Q) : Yields (m >>= f) Q := by
  intro s
  obtain ⟨a, t, drawn, ha⟩ := first s
  obtain ⟨b, u, done, hb⟩ := next a ha t
  exact ⟨b, u, bind_eq_ok_iff.mpr ⟨a, t, drawn, done⟩, hb⟩

theorem Yields.imp {m : Draw σ α} {P Q : α → Prop} (h : Yields m P) (weaker : ∀ a, P a → Q a) :
    Yields m Q := by
  intro s
  obtain ⟨a, t, drawn, ha⟩ := h s
  exact ⟨a, t, drawn, weaker a ha⟩

/-- What is yielded is a result of the draw from some source. -/
theorem Yields.traced {m : Draw σ α} {P : α → Prop} (h : Yields m P) :
    Yields m fun a => P a ∧ ∃ s t, m s = .ok (a, t) := by
  intro s
  obtain ⟨a, t, drawn, ha⟩ := h s
  exact ⟨a, t, drawn, ha, s, t, drawn⟩

/-- What is drawn from one source has the property that is yielded from all. -/
theorem Yields.of_ok {m : Draw σ α} {P : α → Prop} {s t : σ} {a : α} (h : Yields m P)
    (drawn : m s = .ok (a, t)) : P a := by
  obtain ⟨b, u, same, hb⟩ := h s
  rw [drawn] at same
  cases same
  exact hb

/-- A computation that draws nothing. -/
theorem Yields.lift {x : Except Fault α} {P : α → Prop} (h : ∃ a, x = .ok a ∧ P a) :
    Yields (liftM x : Draw σ α) P := by
  obtain ⟨a, rfl, ha⟩ := h
  exact fun s => ⟨a, s, rfl, ha⟩

/-- A computation that looks at the source. -/
theorem Yields.get_bind {f : σ → Draw σ α} {P : α → Prop} (h : ∀ source, Yields (f source) P) :
    Yields (get >>= f) P :=
  fun s => h s s

/-- What comes after a draw that ends with a result. -/
theorem bind_of_ok {m : Draw σ α} {s t : σ} {a : α} (f : α → Draw σ β) (h : m s = .ok (a, t)) :
    (m >>= f) s = f a t := by
  show StateT.bind m f s = _
  rw [StateT.bind, h]
  rfl

theorem bind_of_error {m : Draw σ α} {s : σ} {fault : Fault} (f : α → Draw σ β)
    (h : m s = .error fault) : (m >>= f) s = .error fault := by
  show StateT.bind m f s = _
  rw [StateT.bind, h]
  rfl

/-- Two continuations are the same to a draw if they agree on everything that it yields. -/
theorem Yields.bind_congr {m : Draw σ α} {P : α → Prop} {f g : α → Draw σ β} (h : Yields m P)
    (agree : ∀ a, P a → f a = g a) : m >>= f = m >>= g := by
  funext s
  obtain ⟨a, t, drawn, ha⟩ := h s
  rw [bind_of_ok f drawn, bind_of_ok g drawn, agree a ha]

theorem map_eq_ok {m : Draw σ α} {s t : σ} {a : α} (f : α → β) (h : m s = .ok (a, t)) :
    (f <$> m) s = .ok (f a, t) := by
  show StateT.map f m s = _
  rw [StateT.map, h]
  rfl

theorem Yields.map {m : Draw σ α} {f : α → β} {P : β → Prop} (h : Yields m fun a => P (f a)) :
    Yields (f <$> m) P := by
  rw [map_eq_pure_bind]
  exact h.bind fun a ha => .pure ha

/-! ## Words and indices -/

/-- The high part of a product stays below the second factor. Where it is one less, the low part
leaves no room for a carry. -/
theorem high_part_lt {size n w : Nat} (hw : w < size) (hn : 0 < n) :
    w * n / size < n ∧ (size - n < w * n % size → w * n / size + 1 < n) := by
  have positive : 0 < size := by omega
  have whole : size * (w * n / size) + w * n % size = w * n := Nat.div_add_mod _ _
  have bound : w * n + n ≤ size * n := by
    calc w * n + n = (w + 1) * n := (Nat.succ_mul w n).symm
      _ ≤ size * n := Nat.mul_le_mul_right n hw
  refine ⟨(Nat.div_lt_iff_lt_mul positive).mpr ?_, fun room => ?_⟩
  · rw [Nat.mul_comm n size]
    omega
  · refine Nat.lt_of_not_le fun last => ?_
    -- the product of the largest index alone leaves at most `size - n` for the low part
    have large : size * n ≤ size * (w * n / size + 1) := Nat.mul_le_mul_left size last
    rw [Nat.mul_add, Nat.mul_one] at large
    omega

theorem scaled_yields {size n : Nat} {word : Draw σ Nat} (hn : 0 < n)
    (below : Yields word fun w => w < size) : Yields (scaled size n word) fun i => i < n := by
  refine below.bind fun w hw => ?_
  obtain ⟨low, carried⟩ := high_part_lt hw hn
  show Yields (if size - n < w * n % size then _ else _) _
  by_cases room : size - n < w * n % size
  · rw [if_pos room]
    refine below.bind fun w' _ => .pure ?_
    have := carried room
    split <;> omega
  · rw [if_neg room]
    exact .pure low

variable [WordSource σ]

theorem word32_yields : Yields (word32 : Draw σ UInt32) fun _ => True :=
  fun _ => ⟨_, _, rfl, trivial⟩

theorem word64_yields : Yields (word64 : Draw σ UInt64) fun _ => True :=
  fun _ => ⟨_, _, rfl, trivial⟩

/-- An index is drawn below its bound. -/
theorem index_yields {n : Nat} (hn : 0 < n) : Yields (index n : Draw σ Nat) fun i => i < n := by
  unfold index
  rw [if_neg (by omega)]
  split
  · exact scaled_yields hn (.map (word32_yields.imp fun w _ => w.toNat_lt))
  · exact scaled_yields hn (.map (word64_yields.imp fun w _ => w.toNat_lt))

/-! ## Fractions -/

open Binary64

theorem toRat_largestCount : toRat (Float.ofBits 0x433fffffffffffff) = 2 ^ 53 - 1 := by
  show ((2 ^ 53 - 1 : ℕ) : ℚ) * 2 ^ (0 : ℤ) = _
  norm_num

/-- The high bits of a word count up to the largest whole number of 53 bits. -/
theorem toFloat_shiftRight_le (w : UInt64) :
    (w >>> 11).toFloat ≤ Float.ofBits 0x433fffffffffffff := by
  have few : (w >>> 11).toNat < 2 ^ 53 := by
    have : (w >>> 11).toNat = w.toNat / 2 ^ 11 := Nat.shiftRight_eq_div_pow w.toNat 11
    have : w.toNat < 2 ^ 64 := w.toNat_lt
    omega
  refine toFloat_le_of_le_toRat (by decide) ?_
  rw [toRat_largestCount, le_sub_iff_add_le]
  exact_mod_cast few

/-- The largest fraction of the unit interval is two to the power -53 below one. -/
theorem unitFraction_lt_one (w : UInt64) : unitFraction w < 1.0 := by
  have scale : toRat (Float.ofBits 0x3ca0000000000000) = 2 ^ (-53 : ℤ) := by
    show ((2 ^ 52 : ℕ) : ℚ) * 2 ^ (-105 : ℤ) = _
    norm_num
  have largest_fraction :
      toRat (Float.ofBits 0x3fefffffffffffff) = (2 ^ 53 - 1) * 2 ^ (-53 : ℤ) := by
    show ((2 ^ 53 - 1 : ℕ) : ℚ) * 2 ^ (-53 : ℤ) = _
    norm_num
  have count := toFloat_shiftRight_le w
  have finite := isFinite_toFloat_of_le (by decide) count
  have bound := toRat_le_of_le finite (by decide) count
  have below : unitFraction w ≤ Float.ofBits 0x3fefffffffffffff := by
    refine mul_le_of_toRat_le finite (by decide) (by decide) ?_
    rw [toRat_largestCount] at bound
    rw [scale, largest_fraction]
    gcongr
  have strict : Float.ofBits 0x3fefffffffffffff < 1.0 := by decide
  exact lt_of_le_of_lt below strict

theorem fraction_yields : Yields (fraction : Draw σ Float) fun f => f < 1.0 :=
  .map (word64_yields.imp fun w _ => unitFraction_lt_one w)

end Metaheuristics.Draw

namespace Metaheuristics.Interval

variable {σ : Type} [WordSource σ]

theorem sample_yields (r : Interval) : Draw.Yields (r.sample : Draw σ Float) fun _ => True :=
  .map (Draw.word64_yields.imp fun _ _ => trivial)

/-- A number can be drawn between zero and any positive finite number. -/
theorem between_zero {x : Float} (positive : 0.0 < x) (finite : x.isFinite) :
    ∃ r, between 0.0 x = .ok r ∧ r.lo = 0.0 ∧ r.hi = x := by
  have sampleable : Sampleable 0.0 x :=
    ⟨positive, by decide, finite, by rw [Binary64.sub_zero]; exact finite⟩
  exact ⟨⟨0.0, x, sampleable⟩, dif_pos sampleable, rfl, rfl⟩

end Metaheuristics.Interval
