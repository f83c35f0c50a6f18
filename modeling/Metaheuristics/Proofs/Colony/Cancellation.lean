import Metaheuristics.Proofs.Colony.Composition

/-!
# Cancelling a run

A run that is cancelled has done exactly what a run does that was to end there. The flag is looked
at before each iteration and at no other time, and what the checks show (`shown`) decides alone how
long the run lasts: checks that do not show it raised are passed (`run_of_quiet`), and one that does
ends the run (`proceed_of_raised`).
-/

namespace Metaheuristics.Colony

variable {n : Nat} {σ : Type} [WordSource σ]

/-- What the check before iteration `i` shows, in a run that no earlier check has stopped. -/
def shown (c : Colony n) (stop : Nat → σ → Bool) (s : σ) (i : Nat) : Bool :=
  match advance i c .empty s with
  | .ok (_, t) => stop i t
  | .error _ => false

theorem shown_of_ok {c c' : Colony n} {s t : σ} {i : Nat} {r : Result} (stop : Nat → σ → Bool)
    (advanced : advance i c .empty s = .ok ((r, c'), t)) : c.shown stop s i = stop i t := by
  rw [shown, advanced]

/-- A flag that does not look at the source shows the value that it has at the time. -/
theorem shown_flag (c : Colony n) (flag : Nat → Bool) (s : σ) (i : Nat) :
    c.shown (fun done _ => flag done) s i = flag i := by
  obtain ⟨⟨r, c'⟩, t, advanced, -⟩ := advance_yields i c .empty s
  rw [shown_of_ok _ advanced]

/-- A run whose first `k` checks do not show the flag raised goes on from there. -/
theorem run_of_quiet {c c' : Colony n} {stop : Nat → σ → Bool} {s t : σ} {r : Result} {k m : Nat}
    (fits : c.config.Fits) (total : c.config.iterations.toNat = k + m)
    (quiet : ∀ i < k, c.shown stop s i = false)
    (advanced : advance k c .empty s = .ok ((r, c'), t)) :
    c.run stop s = proceed stop m c' r t := by
  rw [run_of_fits fits, total, proceed_add_of_quiet stop m, Draw.bind_of_ok _ advanced]
  intro i below q u reached
  have same : Result.empty.iterations + i = i := Nat.zero_add i
  rw [same, ← shown_of_ok stop reached]
  exact quiet i below

/-- A check that shows the flag raised ends the run, and leaves everything as it is. -/
theorem proceed_of_raised {c : Colony n} {stop : Nat → σ → Bool} {s : σ} {r : Result}
    (raised : stop r.iterations s = true) (left : Nat) :
    proceed stop (left + 1) c r s = .ok (({ r with cancelled := true }, c), s) := by
  show (if stop r.iterations s = true then _ else _ : Draw σ (Result × Colony n)) s = _
  rw [if_pos raised]
  rfl

/-- A run that is cancelled before iteration `k` has the result of a run with `k` iterations, and
leaves the trails and the source as that one does. A run that is not cancelled is a run to the end. -/
theorem run_cancelled_is_truncated (c : Colony n) (stop : Nat → σ → Bool) (s : σ) :
    (¬c.config.Fits ∧ ∃ count bytes, c.run stop s = .error (.noRoom count bytes)) ∨
      (∀ k : UInt64, k < c.config.iterations → c.shown stop s k.toNat = true →
        (∀ i < k.toNat, c.shown stop s i = false) →
        (k = 0 →
          c.run stop s = .ok ((⟨none, Binary64.infinity, 0, 0, true, #[]⟩, c), s)) ∧
        ∀ hk : k ≠ 0, ∃ r c' t,
          (c.lasting k hk).solve s = .ok ((r, c'), t) ∧
          r.iterations = k.toNat ∧ r.cancelled = false ∧
          c.run stop s =
            .ok (({ r with cancelled := true }, { c with trails := c'.trails }), t)) ∧
      ((∀ i < c.config.iterations.toNat, c.shown stop s i = false) →
        ∃ r c' t, c.solve s = .ok ((r, c'), t) ∧ r.cancelled = false ∧
          c.run stop s = .ok ((r, c'), t)) := by
  by_cases fits : c.config.Fits
  · refine .inr ⟨fun k before raised quiet => ?_, fun quiet => ?_⟩
    · obtain ⟨⟨r, c'⟩, t, advanced, count, going, -, same⟩ := advance_yields k.toNat c .empty s
      have iterations : r.iterations = k.toNat := count.trans (Nat.zero_add _)
      have cancelled : c.run stop s = .ok (({ r with cancelled := true }, c'), t) := by
        have below : k.toNat < c.config.iterations.toNat := UInt64.lt_iff_toNat_lt.mp before
        obtain ⟨left, total⟩ := Nat.exists_eq_add_of_lt below
        rw [run_of_quiet fits (m := left + 1) total quiet advanced]
        refine proceed_of_raised ?_ left
        rw [iterations, ← shown_of_ok stop advanced]
        exact raised
      refine ⟨fun start => ?_, fun hk => ?_⟩
      · -- no iteration has happened yet, and a run of none is not one that a colony can have
        subst start
        cases advanced
        exact cancelled
      · refine ⟨r, c'.lasting k hk, t, ?_, iterations, going, ?_⟩
        · exact solve_lasting hk fits (Nat.le_of_lt (UInt64.lt_iff_toNat_lt.mp before)) advanced
        · rw [cancelled]
          exact congrArg (fun c' => Except.ok (({ r with cancelled := true }, c'), t)) same
    · obtain ⟨⟨r, c'⟩, t, advanced, -, going, -⟩ :=
        advance_yields c.config.iterations.toNat c .empty s
      refine ⟨r, c', t, ?_, going, ?_⟩
      · rw [solve_of_fits fits]
        exact advanced
      · rw [run_of_quiet fits (m := 0) rfl quiet advanced]
        rfl
  · exact .inl ⟨fits, run_refused fits stop s⟩

end Metaheuristics.Colony
