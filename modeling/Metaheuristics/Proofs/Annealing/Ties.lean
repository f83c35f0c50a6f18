import Metaheuristics.Proofs.Annealing.Acceptance
import Metaheuristics.Proofs.Annealing.Words
import Metaheuristics.Proofs.Random.Fractions

/-!
# Moves to points that are no worse

A move to a point that is as good as the one held has a loss of zero and so the chance one, unless both
values are the same infinity: their difference is no number, and then the chance is the least there is.
Collected here:

* the chance of a tie (`acceptance_of_tie`, `acceptance_of_infinite_tie`), and which candidates that are no
  worse are accepted (`Trial.accepted_iff_of_le`);
* every trial of a run has a fraction that one of its words stands for (`Journal.exists_word`);
* so every candidate that is no worse is accepted, unless it ties at an infinity. Such a candidate is
  accepted for one word in two to the power 53 (`run_takes_what_is_no_worse`);
* an offer that a search takes on a plain (`plain_takes_offer`) and declines on a plateau of infinite height
  (`plateau_declines_offer`).
-/

namespace Metaheuristics.Annealing

open Binary64 WordSource

/-! ## The chance of a tie -/

section

variable [Exponential] [LawfulExponential] {current candidate temperature : Float}

/-- Between finite values that are equal to each other a move is certain. -/
theorem acceptance_of_tie (tie : (current == candidate) = true) (finite : current.isFinite)
    (finite' : candidate.isFinite) (positive : 0.0 < temperature) :
    acceptance current candidate temperature = 1.0 := by
  have level : ¬candidate < current := fun below => by
    have := (lt_iff.mp below).2.2
    have := (beq_iff.mp tie).2.2
    omega
  have loss := div_of_beq_zero (sub_of_beq tie finite finite') positive
  rw [acceptance_of_not_lt level, LawfulExponential.zero _ loss]
  rfl

/-- From an infinity to the same infinity a move has the least chance there is. -/
theorem acceptance_of_infinite_tie (infinite : ¬current.isFinite) (temperature : Float) :
    acceptance current current temperature = minNormal := by
  have nan := LawfulExponential.nan _ (isNaN_div_left (y := temperature) (isNaN_sub_self infinite))
  have above : ¬Exponential.exp ((current - current) / temperature) < minNormal :=
    fun below => (lt_iff.mp below).1 nan
  rw [acceptance_of_not_lt (lt_irrefl current), larger, if_neg above, if_pos nan]

/-- A candidate that is no worse is accepted, unless it ties at an infinity. Then it is accepted if the
fraction is below the smallest normal double. -/
theorem Trial.accepted_iff_of_le {trial : Trial} (positive : 0.0 < temperature)
    (small : trial.fraction < 1.0) (no_worse : trial.candidate.value ≤ trial.held.value) :
    trial.accepted temperature = true ↔ trial.held.value.isFinite ∨
      trial.candidate.value < trial.held.value ∨ trial.fraction < minNormal := by
  rw [accepted, decide_eq_true_iff]
  by_cases lower : trial.candidate.value < trial.held.value
  · rw [acceptance_of_lt lower]
    exact iff_of_true small (.inr (.inl lower))
  · obtain ⟨number, number', le⟩ := le_iff.mp no_worse
    have ge := (le_iff.mp (le_of_not_lt number number' lower)).2.2
    by_cases finite : trial.held.value.isFinite
    · have finite' : trial.candidate.value.isFinite := by
        have := rank_lt_of_isFinite finite
        have := rank_lt_of_isFinite ((isFinite_negated _).trans finite)
        rw [rank_neg] at this
        exact isFinite_of_rank_mem number (by omega) (by omega)
      have tie : (trial.held.value == trial.candidate.value) = true :=
        beq_iff.mpr ⟨number', number, le_antisymm ge le⟩
      rw [acceptance_of_tie tie finite finite' positive]
      exact iff_of_true small (.inl finite)
    · have same : trial.held.value = trial.candidate.value := by
        refine eq_of_rank_eq (fun zero => finite ?_) (le_antisymm ge le)
        exact isFinite_of_rank_mem number' (by omega) (by omega)
      rw [← same, acceptance_of_infinite_tie finite]
      constructor
      · exact fun least => .inr (.inr least)
      · rintro (absurd | below | least)
        · exact False.elim (finite absurd)
        · exact False.elim (lt_irrefl _ below)
        · exact least

end

/-- A walk stays where it is if the candidate is not accepted. -/
theorem Walk.weigh_of_declined [Exponential] {w : Walk} {trial : Trial} {temperature : Float}
    (held : trial.held = w.current) (declined : trial.accepted temperature = false) :
    w.weigh temperature trial = w.decline := by
  have above : ¬trial.fraction < acceptance w.current.value trial.candidate.value temperature :=
    held ▸ of_decide_eq_false declined
  rw [weigh, consider, if_neg above]

/-! ## Runs -/

variable {σ : Type} [WordSource σ] {a : Annealing}

/-- The fraction of every trial is that of the last of the three words it takes. -/
theorem Journal.exists_word [Exponential] {stop : Nat → σ → Bool} {s t : σ} {j : Journal}
    (sampleable : Sampleable (-a.config.initialRange) a.config.initialRange)
    (told : a.journal stop s = .ok (j, t)) :
    ∀ stage ∈ j.stages, ∀ trial ∈ stage.trials, ∃ k : Nat,
      j.trials[k]? = some trial ∧ trial.fraction = unitFraction (word s (4 + 3 * k)) := by
  intro stage completed trial tried
  have member : trial ∈ j.trials := List.mem_flatMap_of_mem completed tried
  obtain ⟨k, hk, rfl⟩ := List.getElem_of_mem member
  have drawn : j.trials[k].fraction = unitFraction (word s (2 + (3 * k + 2))) :=
    ((journal_reads sampleable told).2.2 k hk).2
  rw [show 2 + (3 * k + 2) = 4 + 3 * k by omega] at drawn
  exact ⟨k, List.getElem?_eq_getElem hk, drawn⟩

/-- However a run is stopped, it accepts every candidate that is no worse than the point held, with one
exception: from an infinite value to the same infinite value it moves only if the word that decides about
the move is below two to the power 11. -/
theorem run_takes_what_is_no_worse [Exponential] [LawfulExponential] (a : Annealing)
    (stop : Nat → σ → Bool) (s : σ) :
    (¬Sampleable (-a.config.initialRange) a.config.initialRange ∧ a.run stop s =
        .error (.unsampleableRange (-a.config.initialRange) a.config.initialRange)) ∨
      Sampleable (-a.config.initialRange) a.config.initialRange ∧ ∃ j t,
        a.journal stop s = .ok (j, t) ∧ a.run stop s = .ok (j.result a.config, t) ∧
          Stages a (.start a.config j.start) j.stages ∧
          ∀ stage ∈ j.stages, ∀ trial ∈ stage.trials, ∃ k : Nat, j.trials[k]? = some trial ∧
            trial.fraction = unitFraction (word s (4 + 3 * k)) ∧
            (trial.candidate.value ≤ trial.held.value →
              (trial.accepted stage.temperature = true ↔ trial.held.value.isFinite ∨
                trial.candidate.value < trial.held.value ∨
                (word s (4 + 3 * k)).toNat < 2 ^ 11)) := by
  obtain ⟨steps, schedule⟩ := a.valid.exists_schedule
  rcases a.run_cases schedule stop s with refused | ⟨sampleable, j, t, told, ran, faithful⟩
  · exact .inl refused
  · refine .inr ⟨sampleable, j, t, told, ran, faithful.stages, fun stage completed trial tried => ?_⟩
    obtain ⟨k, here, drawn⟩ := Journal.exists_word sampleable told stage completed trial tried
    refine ⟨k, here, drawn, fun no_worse => ?_⟩
    have above := (faithful.temperature schedule stage completed).2
    have positive := a.valid.zero_lt above
    have small : trial.fraction < 1.0 := drawn ▸ Draw.unitFraction_lt_one _
    rw [Trial.accepted_iff_of_le positive small no_worse, drawn, Draw.unitFraction_lt_minNormal_iff]

/-- The search on a plain instead of an islet. -/
def plain : Annealing := { islet with objective := fun _ _ => 1.0 }

/-- Words by which a search starts at (-5, -5), is offered the origin and draws the fraction 1/2. -/
def offer : Script :=
  ⟨#[0, 0, 0xc000000000000000, 0xc000000000000000, 0x8000000000000000], 0⟩

/-- The trial that these words lead to. -/
def offered (a : Annealing) : Trial :=
  ⟨a.objective.at (-5.0) (-5.0), a.objective.at 0.0 0.0, unitFraction 0x8000000000000000⟩

/-- On the plain, with a staircase for the exponential, the origin is accepted. -/
theorem plain_takes_offer : ∃ t,
    @journal _ _ stairs plain (fun _ _ => false) offer =
      .ok (⟨plain.offered.held, [⟨10.0, [plain.offered]⟩], false⟩, t) ∧
      @Trial.accepted stairs 10.0 plain.offered = true := by
  have known : @journal _ _ stairs plain (fun _ _ => false) offer =
      .ok (⟨plain.offered.held, [⟨10.0, [plain.offered]⟩], false⟩, offer) := by rfl
  rcases @run_takes_what_is_no_worse _ _ stairs stairs_lawful plain (fun _ _ => false) offer with
    ⟨unsampleable, -⟩ | ⟨-, j, t, told, -, -, taken⟩
  · exact absurd (by decide) unsampleable
  · rw [known] at told
    obtain ⟨rfl, -⟩ := Prod.mk.inj (Except.ok.inj told)
    obtain ⟨k, -, -, accepted⟩ := taken _ List.mem_cons_self _ List.mem_cons_self
    exact ⟨offer, known, (accepted (by decide)).mpr (.inl (by decide))⟩

/-- The search on a plateau of infinite height. -/
def plateau : Annealing := { islet with objective := fun _ _ => infinity }

/-- On the plateau it is declined, although it is no worse, and the search ends where it has started. -/
theorem plateau_declines_offer : ∃ r t,
    @run _ _ stairs plateau (fun _ _ => false) offer = .ok (r, t) ∧
      plateau.offered.candidate.value ≤ plateau.offered.held.value ∧
      @Trial.accepted stairs 10.0 plateau.offered = false ∧
      r.acceptedMoves = 0 ∧ r.iterations = 1 ∧ r.lastAccepted = plateau.offered.held := by
  have told : @journal _ _ stairs plateau (fun _ _ => false) offer =
      .ok (⟨plateau.offered.held, [⟨10.0, [plateau.offered]⟩], false⟩, offer) := by rfl
  have ran := Draw.map_eq_ok (@Journal.result stairs plateau.config) told
  rw [← @run_eq_journal _ _ stairs] at ran
  have declined : @Trial.accepted stairs 10.0 plateau.offered = false := by decide +kernel
  have stayed :=
    @Walk.weigh_of_declined stairs (.start plateau.offered.held) plateau.offered 10.0 rfl declined
  have last : (@Journal.result stairs plateau.config
      ⟨plateau.offered.held, [⟨10.0, [plateau.offered]⟩], false⟩).lastAccepted =
        plateau.offered.held := congrArg Walk.current stayed
  exact ⟨_, _, ran, by decide, declined, congrArg Walk.accepted stayed, congrArg Walk.tried stayed, last⟩

end Metaheuristics.Annealing
