import Metaheuristics.Proofs.Random.Alike

/-!
# Words in turn

The words of 64 bits that a source gives, one after another, are numbered, and so are the states that it
goes through. Collected here:

* the source after a number of words, and the word that comes next (`after`, `word`), also for a source
  that counts them (`after_metered`);
* draws that take nothing but words of 64 bits (`Draw.Reads`), with what they make of them. The second of
  two draws reads from where the first one has stopped (`Reads.bind`);
* sources that give the same words of 64 bits (`SameWords`). A source that counts is one with its
  original (`sameWords_metered`).
-/

namespace Metaheuristics

variable {σ τ : Type} [WordSource σ] [WordSource τ]

namespace WordSource

/-- The source after a number of words of 64 bits have been taken from it. -/
def after (s : σ) : Nat → σ
  | 0 => s
  | k + 1 => (word64 (after s k)).2

/-- The word of 64 bits that comes after `k` others. -/
def word (s : σ) (k : Nat) : UInt64 := (word64 (after s k)).1

theorem after_after (s : σ) (i k : Nat) : after (after s i) k = after s (i + k) := by
  induction k with
  | zero => rfl
  | succ k ih =>
      rw [after, ih]
      rfl

theorem word_after (s : σ) (i : Nat) : word (after s i) = fun k => word s (i + k) := by
  funext k
  rw [word, after_after, word]

/-- A source that counts counts the words of 64 bits, and only them, when they are taken. -/
theorem after_metered (m : Metered σ) (k : Nat) :
    after m k = { m with source := after m.source k, taken64 := m.taken64 + k } := by
  induction k with
  | zero => rfl
  | succ k ih =>
      rw [after, ih]
      rfl

/-- A relation between sources under which both give the same words of 64 bits. -/
def SameWords (S : σ → τ → Prop) : Prop :=
  ∀ s t, S s t → (word64 s).1 = (word64 t).1 ∧ S (word64 s).2 (word64 t).2

/-- Counting makes no difference to the words. -/
theorem sameWords_metered : SameWords fun (m : Metered σ) (s : σ) => m.source = s := by
  rintro m s rfl
  exact ⟨rfl, rfl⟩

end WordSource

open WordSource

namespace Draw

variable {α β : Type}

/-! ## Words that are taken -/

/-- From every source, the draw ends with a result and takes nothing but words of 64 bits. The words
of the source, how many of them are taken, and the result satisfy `P`. -/
def Reads (m : Draw σ α) (P : (Nat → UInt64) → Nat → α → Prop) : Prop :=
  ∀ s, ∃ a count, m s = .ok (a, after s count) ∧ P (word s) count a

namespace Reads

variable {P Q : (Nat → UInt64) → Nat → α → Prop}

theorem pure {a : α} (h : ∀ w, P w 0 a) : Reads (Pure.pure a : Draw σ α) P :=
  fun s => ⟨a, 0, rfl, h (word s)⟩

/-- A result that is known before anything is read. -/
theorem known (a : α) : Reads (Pure.pure a : Draw σ α) fun _ count b => count = 0 ∧ b = a :=
  pure fun _ => ⟨rfl, rfl⟩

theorem imp {m : Draw σ α} (h : Reads m P) (weaker : ∀ w count a, P w count a → Q w count a) :
    Reads m Q := by
  intro s
  obtain ⟨a, count, drawn, ha⟩ := h s
  exact ⟨a, count, drawn, weaker _ count a ha⟩

/-- A computation that looks at the source. -/
theorem get_bind {f : σ → Draw σ α} (h : ∀ source, Reads (f source) P) : Reads (get >>= f) P :=
  fun s => h s s

/-- A computation that draws nothing. -/
theorem lift {x : Except Fault α} {a : α} (given : x = .ok a) :
    Reads (liftM x : Draw σ α) fun _ count b => count = 0 ∧ b = a := by
  subst given
  exact fun s => ⟨a, 0, rfl, rfl, rfl⟩

theorem bind {m : Draw σ α} {f : α → Draw σ β} {R : α → (Nat → UInt64) → Nat → β → Prop}
    (first : Reads m P) (next : ∀ a, Reads (f a) (R a)) :
    Reads (m >>= f) fun w count b => ∃ a i k, count = i + k ∧ P w i a ∧
      R a (fun l => w (i + l)) k b := by
  intro s
  obtain ⟨a, i, drawn, ha⟩ := first s
  obtain ⟨b, k, done, hb⟩ := next a (after s i)
  rw [after_after] at done
  rw [word_after] at hb
  exact ⟨b, i + k, bind_eq_ok_iff.mpr ⟨a, _, drawn, done⟩, a, i, k, rfl, ha, hb⟩

theorem map {m : Draw σ α} {f : α → β} {R : (Nat → UInt64) → Nat → β → Prop}
    (h : Reads m fun w count a => R w count (f a)) : Reads (f <$> m) R := by
  intro s
  obtain ⟨a, count, drawn, ha⟩ := h s
  exact ⟨f a, count, map_eq_ok f drawn, ha⟩

/-- What is drawn from one source is what is read. -/
theorem of_ok {m : Draw σ α} {s t : σ} {a : α} (h : Reads m P) (drawn : m s = .ok (a, t)) :
    ∃ count, t = after s count ∧ P (word s) count a := by
  obtain ⟨b, count, same, hb⟩ := h s
  rw [drawn] at same
  cases same
  exact ⟨count, rfl, hb⟩

end Reads

theorem word64_reads :
    Reads (word64 : Draw σ UInt64) fun w count a => count = 1 ∧ a = w 0 :=
  fun s => ⟨word s 0, 1, rfl, rfl, rfl⟩

theorem fraction_reads :
    Reads (fraction : Draw σ Float) fun w count a => count = 1 ∧ a = unitFraction (w 0) := by
  refine .map (word64_reads.imp ?_)
  rintro w count a ⟨one, rfl⟩
  exact ⟨one, rfl⟩

theorem sample_reads (r : Interval) :
    Reads (r.sample : Draw σ Float) fun w count a => count = 1 ∧ a = r.point (w 0) := by
  refine .map (word64_reads.imp ?_)
  rintro w count a ⟨one, rfl⟩
  exact ⟨one, rfl⟩

/-! ## Sources with the same words -/

variable {S : σ → τ → Prop}

theorem word64_matches (same : SameWords S) :
    Matches S (· = ·) (word64 : Draw σ UInt64) (word64 : Draw τ UInt64) :=
  fun s t related => .ok (same s t related)

theorem fraction_matches (same : SameWords S) :
    Matches S (· = ·) (fraction : Draw σ Float) (fraction : Draw τ Float) :=
  (word64_matches same).map fun _ _ => congrArg unitFraction

theorem sample_matches (same : SameWords S) (r : Interval) :
    Matches S (· = ·) (r.sample : Draw σ Float) (r.sample : Draw τ Float) :=
  (word64_matches same).map fun _ _ => congrArg r.point

end Draw

end Metaheuristics
