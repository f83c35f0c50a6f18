import Metaheuristics.Record.Annealing
import Metaheuristics.Record.Colony

/-!
# Reading records back

A record that was written is read back as it was, or not at all. Collected here:

* what reading back means (`ReadsBack`), for single values (`readsBack_double`, `readsBack_count`), for
  lists of them (`ReadsBack.list`) and for values that may be absent (`optional_eq_some_iff`);
* the results of which every number can be written (`Colony.Result.Portable`,
  `Annealing.Result.Portable`), and that they are those that are read back (`Colony.Result.readsBack`,
  `Annealing.Result.readsBack`).

JSON has no infinities and no NaN. They are written as `null`, and where a double is expected, `null` is
refused.
-/

namespace Metaheuristics

namespace Record

variable {α : Type} {decode : Json → Option α} {j : Json} {a : α} {P : Prop}

/-- Reading a JSON value gives `a` under the condition `P`, and otherwise nothing. -/
def ReadsBack (decode : Json → Option α) (j : Json) (a : α) (P : Prop) : Prop :=
  ∀ b, decode j = some b ↔ P ∧ b = a

theorem ReadsBack.eq_some (h : ReadsBack decode j a P) (condition : P) : decode j = some a :=
  (h a).mpr ⟨condition, rfl⟩

theorem ReadsBack.eq_none (h : ReadsBack decode j a P) (condition : ¬P) : decode j = none :=
  Option.eq_none_iff_forall_ne_some.mpr fun b read => condition ((h b).mp read).1

/-! ## Values -/

theorem readsBack_double (x : Float) :
    ReadsBack Json.double? (Json.ofDouble x) x (x.isFinite = true) := by
  intro b
  unfold Json.ofDouble
  split
  · rename_i finite
    simp [Json.double?, finite, eq_comm]
  · rename_i infinite
    simp [Json.double?, infinite]

theorem readsBack_count (n : Nat) :
    ReadsBack Json.count? (.natural n) n (n < UInt64.size) := by
  intro b
  rw [Json.count?]
  split
  · rename_i fits
    simp [fits, eq_comm]
  · rename_i large
    simp [large]

theorem readsBack_bool (b : Bool) : ReadsBack Json.bool? (.bool b) b True := by
  intro c
  simp [Json.bool?, eq_comm]

/-- A list is read back if each of its items is. -/
theorem ReadsBack.list {encode : α → Json} {P : α → Prop}
    (item : ∀ a, ReadsBack decode (encode a) a (P a)) (xs : List α) :
    ReadsBack (Json.list? decode) (.list (xs.map encode)) xs (∀ x ∈ xs, P x) := by
  show ∀ ys, (xs.map encode).mapM decode = some ys ↔ _
  induction xs with
  | nil =>
      intro ys
      simp [eq_comm]
  | cons x xs ih =>
      intro ys
      simp only [List.map_cons, List.mapM_cons, Option.bind_eq_bind, Option.bind_eq_some_iff,
        Option.pure_def, Option.some.injEq, item x _, ih _, List.forall_mem_cons]
      constructor
      · rintro ⟨_, ⟨first, rfl⟩, _, ⟨others, rfl⟩, rfl⟩
        exact ⟨⟨first, others⟩, rfl⟩
      · rintro ⟨⟨first, others⟩, rfl⟩
        exact ⟨x, ⟨first, rfl⟩, xs, ⟨others, rfl⟩, rfl⟩

/-- A value that may be absent is read back if it is absent or can be read back. -/
theorem optional_eq_some_iff (encode : α → Json) {P : α → Prop}
    (item : ∀ a, ReadsBack decode (encode a) a (P a)) (present : ∀ a, encode a ≠ .null)
    (o b : Option α) :
    Record.optional decode (some (Json.ofOption encode o)) = some b ↔
      (∀ a, o = some a → P a) ∧ b = o := by
  cases o with
  | none => simp [Json.ofOption, Record.optional, eq_comm]
  | some a =>
      have read : Record.optional decode (some (encode a)) = (decode (encode a)).map some := by
        unfold Record.optional
        split
        · contradiction
        · rename_i null
          exact absurd (Option.some.inj null) (present a)
        · rename_i same
          cases same
          rfl
      simp only [Json.ofOption, read, Option.map_eq_some_iff, item a _, Option.some.injEq]
      constructor
      · rintro ⟨_, ⟨condition, rfl⟩, rfl⟩
        exact ⟨fun a' same => same ▸ condition, rfl⟩
      · rintro ⟨condition, rfl⟩
        exact ⟨a, ⟨condition a rfl, rfl⟩, rfl⟩

end Record

open Record

/-! ## Results of colonies -/

namespace Colony.Result

/-- The cities of the best tour and the counts are words, and all lengths are finite. -/
structure Portable (r : Result) : Prop where
  cities : ∀ tour, r.bestTour = some tour → ∀ city ∈ tour, city < UInt64.size
  bestLength : r.bestLength.isFinite
  iterations : r.iterations < UInt64.size
  bestIteration : r.bestIteration < UInt64.size
  history : ∀ length ∈ r.lengthHistory.toList, length.isFinite

theorem readsBack (r : Result) : ReadsBack ofJson? r.toJson r r.Portable := by
  intro read
  have tours (read : Option Tour) :=
    optional_eq_some_iff Json.ofCounts (.list readsBack_count) nofun r.bestTour read
  have lengths := ReadsBack.list readsBack_double r.lengthHistory.toList
  have fields : Record.fields? fieldNames r.toJson = some [
      some (Json.ofOption Json.ofCounts r.bestTour), some (Json.ofDouble r.bestLength),
      some (.natural r.iterations), some (.natural r.bestIteration), some (.bool r.cancelled),
      some (Json.ofDoubles r.lengthHistory.toList)] := by rfl
  rw [ofJson?, fields]
  simp only [Option.bind_eq_bind, Option.bind_eq_some_iff, Record.required, Option.bind_some,
    Option.pure_def, Option.some.injEq, Json.ofDoubles, lengths _, tours _,
    readsBack_double _ _, readsBack_count _ _, readsBack_bool _ _]
  constructor
  · rintro ⟨_, ⟨cities, rfl⟩, _, ⟨bestLength, rfl⟩, _, ⟨iterations, rfl⟩, _, ⟨bestIteration, rfl⟩,
      _, ⟨-, rfl⟩, _, ⟨history, rfl⟩, rfl⟩
    exact ⟨⟨cities, bestLength, iterations, bestIteration, history⟩, rfl⟩
  · rintro ⟨portable, rfl⟩
    exact ⟨_, ⟨portable.cities, rfl⟩, _, ⟨portable.bestLength, rfl⟩, _, ⟨portable.iterations, rfl⟩,
      _, ⟨portable.bestIteration, rfl⟩, _, ⟨trivial, rfl⟩, _, ⟨portable.history, rfl⟩, rfl⟩

end Colony.Result

/-! ## Results of annealing -/

namespace Annealing

/-- The coordinates and the value of the point are finite. -/
structure Point.Portable (p : Point) : Prop where
  x : p.x.isFinite
  y : p.y.isFinite
  value : p.value.isFinite

theorem Point.readsBack (p : Point) : ReadsBack Point.ofJson? p.toJson p p.Portable := by
  intro read
  have fields : Record.fields? fieldNames p.toJson = some [
      some (Json.ofDouble p.x), some (Json.ofDouble p.y), some (Json.ofDouble p.value)] := by rfl
  rw [ofJson?, fields]
  simp only [Option.bind_eq_bind, Option.bind_eq_some_iff, Record.required, Option.bind_some,
    Option.pure_def, Option.some.injEq, readsBack_double _ _]
  constructor
  · rintro ⟨_, ⟨x, rfl⟩, _, ⟨y, rfl⟩, _, ⟨value, rfl⟩, rfl⟩
    exact ⟨⟨x, y, value⟩, rfl⟩
  · rintro ⟨portable, rfl⟩
    exact ⟨_, ⟨portable.x, rfl⟩, _, ⟨portable.y, rfl⟩, _, ⟨portable.value, rfl⟩, rfl⟩

namespace Result

/-- The points, the temperature and all values are finite, and the counts are words. -/
structure Portable (r : Result) : Prop where
  best : r.best.Portable
  lastAccepted : r.lastAccepted.Portable
  iterations : r.iterations < UInt64.size
  temperatureSteps : r.temperatureSteps < UInt64.size
  finalTemperature : r.finalTemperature.isFinite
  acceptedMoves : r.acceptedMoves < UInt64.size
  improvingMoves : r.improvingMoves < UInt64.size
  history : ∀ value ∈ r.valueHistory.toList, value.isFinite

theorem readsBack (r : Result) : ReadsBack ofJson? r.toJson r r.Portable := by
  intro read
  have values := ReadsBack.list readsBack_double r.valueHistory.toList
  have fields : Record.fields? fieldNames r.toJson = some [
      some r.best.toJson, some r.lastAccepted.toJson, some (.natural r.iterations),
      some (.natural r.temperatureSteps), some (Json.ofDouble r.finalTemperature),
      some (.natural r.acceptedMoves), some (.natural r.improvingMoves), some (.bool r.cancelled),
      some (Json.ofDoubles r.valueHistory.toList)] := by rfl
  rw [ofJson?, fields]
  simp only [Option.bind_eq_bind, Option.bind_eq_some_iff, Record.required, Option.bind_some,
    Option.pure_def, Option.some.injEq, Json.ofDoubles, values _, Point.readsBack _ _,
    readsBack_double _ _, readsBack_count _ _, readsBack_bool _ _]
  constructor
  · rintro ⟨_, ⟨best, rfl⟩, _, ⟨last, rfl⟩, _, ⟨iterations, rfl⟩, _, ⟨steps, rfl⟩, _, ⟨final, rfl⟩,
      _, ⟨accepted, rfl⟩, _, ⟨improving, rfl⟩, _, ⟨-, rfl⟩, _, ⟨history, rfl⟩, rfl⟩
    exact ⟨⟨best, last, iterations, steps, final, accepted, improving, history⟩, rfl⟩
  · rintro ⟨portable, rfl⟩
    exact ⟨_, ⟨portable.best, rfl⟩, _, ⟨portable.lastAccepted, rfl⟩, _, ⟨portable.iterations, rfl⟩,
      _, ⟨portable.temperatureSteps, rfl⟩, _, ⟨portable.finalTemperature, rfl⟩,
      _, ⟨portable.acceptedMoves, rfl⟩, _, ⟨portable.improvingMoves, rfl⟩, _, ⟨trivial, rfl⟩,
      _, ⟨portable.history, rfl⟩, rfl⟩

end Result

end Annealing

end Metaheuristics
