import Metaheuristics.Proofs.Random.Yields

/-!
# Draws that are alike

Two draws *match* when from related sources they either have the same fault, or end with related results
and leave related sources behind. What two runs have in common is proved one draw at a time. Collected
here:

* the rules for composed draws (`Matches.pure`, `Matches.bind`, `Matches.lift`, `Matches.get_bind`,
  `Matches.map`), and that a computation is alike to itself (`Alike.refl`);
* what matching draws come to (`Matches.of_ok`), also from the same source (`Matches.cases`).
-/

namespace Metaheuristics.Draw

variable {σ τ α β γ δ : Type}

/-- Two computations have the same fault, or related results. -/
inductive Alike (R : α → β → Prop) : Except Fault α → Except Fault β → Prop
  | fault {e : Fault} : Alike R (.error e) (.error e)
  | ok {a : α} {b : β} : R a b → Alike R (.ok a) (.ok b)

theorem Alike.refl (x : Except Fault α) : Alike (· = ·) x x := by
  cases x with
  | error e => exact .fault
  | ok a => exact .ok rfl

/-- From sources related by `S`, two draws have the same fault, or they end with results related by `R`
and with sources related by `S` again. -/
def Matches (S : σ → τ → Prop) (R : α → β → Prop) (m : Draw σ α) (m' : Draw τ β) : Prop :=
  ∀ s t, S s t → Alike (fun p q => R p.1 q.1 ∧ S p.2 q.2) (m s) (m' t)

namespace Matches

variable {S : σ → τ → Prop} {R : α → β → Prop} {T : γ → δ → Prop} {m : Draw σ α} {m' : Draw τ β}

theorem pure {a : α} {b : β} (h : R a b) :
    Matches S R (Pure.pure a : Draw σ α) (Pure.pure b : Draw τ β) :=
  fun _ _ related => .ok ⟨h, related⟩

theorem bind {f : α → Draw σ γ} {g : β → Draw τ δ} (first : Matches S R m m')
    (next : ∀ a b, R a b → Matches S T (f a) (g b)) : Matches S T (m >>= f) (m' >>= g) := by
  intro s t related
  have drawn := first s t related
  generalize left : m s = x at drawn
  generalize right : m' t = y at drawn
  cases drawn with
  | fault =>
      rw [bind_of_error f left, bind_of_error g right]
      exact .fault
  | ok both =>
      rw [bind_of_ok f left, bind_of_ok g right]
      exact next _ _ both.1 _ _ both.2

/-- Draws with equal results may be followed by whatever matches for each result. -/
theorem bind_same {m' : Draw τ α} {f : α → Draw σ γ} {g : α → Draw τ δ}
    (first : Matches S (· = ·) m m') (next : ∀ a, Matches S T (f a) (g a)) :
    Matches S T (m >>= f) (m' >>= g) := by
  refine first.bind fun a b same => ?_
  subst same
  exact next a

theorem map {f : α → γ} {g : β → δ} (h : Matches S R m m') (both : ∀ a b, R a b → T (f a) (g b)) :
    Matches S T (f <$> m) (g <$> m') := by
  rw [map_eq_pure_bind, map_eq_pure_bind]
  exact h.bind fun a b related => .pure (both a b related)

/-- Computations that draw nothing. -/
theorem lift {x : Except Fault α} {y : Except Fault β} (h : Alike R x y) :
    Matches S R (liftM x : Draw σ α) (liftM y : Draw τ β) := by
  intro s t related
  cases h with
  | fault => exact .fault
  | ok both => exact .ok ⟨both, related⟩

/-- Computations that look at their sources. -/
theorem get_bind {f : σ → Draw σ α} {g : τ → Draw τ β}
    (h : ∀ s t, S s t → Matches S R (f s) (g t)) : Matches S R (get >>= f) (get >>= g) :=
  fun s t related => h s t related s t related

/-- If one of two matching draws ends with a result, so does the other. -/
theorem of_ok {s : σ} {t u : τ} {b : β} (h : Matches S R m m') (related : S s t)
    (drawn : m' t = .ok (b, u)) : ∃ a v, m s = .ok (a, v) ∧ R a b ∧ S v u := by
  have both := h s t related
  rw [drawn] at both
  generalize m s = x at both
  cases both with
  | @ok p _ both => exact ⟨p.1, p.2, rfl, both⟩

/-- From the same source, both draws have the same fault, or both end with a result and leave the same
source behind. -/
theorem cases {m : Draw σ α} {m' : Draw σ β} (h : Matches (· = ·) R m m') (s : σ) :
    (∃ e, m s = .error e ∧ m' s = .error e) ∨
      ∃ a b t, m s = .ok (a, t) ∧ m' s = .ok (b, t) ∧ R a b := by
  have drawn := h s s rfl
  generalize m s = x at drawn
  generalize m' s = y at drawn
  cases drawn with
  | fault => exact .inl ⟨_, rfl, rfl⟩
  | @ok p q both =>
      obtain ⟨a, t⟩ := p
      obtain ⟨b, u⟩ := q
      obtain ⟨related, rfl : t = u⟩ := both
      exact .inr ⟨a, b, t, rfl, rfl, related⟩

end Matches

end Metaheuristics.Draw
