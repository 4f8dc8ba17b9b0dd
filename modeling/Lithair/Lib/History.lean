import Mathlib.Data.List.Induction
import Mathlib.Order.Basic

/-!
# The latest event of a kind

A history is the list of the events so far, and what an event means may depend on the events before
it. `Latest G B` says that there is an event of the kind `G` in the history and that the last one of
them has the property `B`. `latest_concat` tells what one more event makes of that, so that a field
of an event-sourced state which only the events of one kind write is followed through a history by
comparing the two, one step at a time (`foldl_iff_latest`).
-/

namespace Lithair.Lib.History

variable {E : Type*}

/-- There is an event of the kind `G`, and the last one has the property `B`. Both are told the
events before. -/
def Latest (G B : List E → E → Prop) (events : List E) : Prop :=
  ∃ before e after, events = before ++ e :: after ∧ G before e ∧ B before e ∧
    ∀ between later rest, after = between ++ later :: rest → ¬ G (before ++ e :: between) later

variable {G B : List E → E → Prop}

theorem not_latest_nil : ¬ Latest G B [] := by
  rintro ⟨before, e, after, hevents, -⟩
  exact List.append_ne_nil_of_right_ne_nil before (List.cons_ne_nil e after) hevents.symm

theorem latest_concat (events : List E) (e : E) :
    Latest G B (events ++ [e]) ↔
      (G events e ∧ B events e) ∨ (¬ G events e ∧ Latest G B events) := by
  constructor
  · rintro ⟨before, first, after, hevents, hG, hB, hlater⟩
    rcases List.eq_nil_or_concat after with rfl | ⟨after, last, rfl⟩
    · obtain ⟨rfl, hlast⟩ := List.append_inj' hevents rfl
      rw [List.cons.injEq] at hlast
      exact Or.inl ⟨hlast.1 ▸ hG, hlast.1 ▸ hB⟩
    · rw [List.concat_eq_append, ← List.cons_append, ← List.append_assoc] at hevents
      obtain ⟨rfl, hlast⟩ := List.append_inj' hevents rfl
      obtain rfl := (List.cons.inj hlast).1
      refine Or.inr
        ⟨hlater after e [] (List.concat_eq_append), before, first, after, rfl, hG, hB, ?_⟩
      rintro between later rest rfl
      refine hlater between later (rest ++ [e]) ?_
      rw [List.concat_eq_append, List.append_assoc, List.cons_append]
  · rintro (⟨hG, hB⟩ | ⟨hnot, before, first, after, rfl, hG, hB, hlater⟩)
    · refine ⟨events, e, [], rfl, hG, hB, fun between later rest h ↦ ?_⟩
      exact absurd h.symm (List.append_ne_nil_of_right_ne_nil between (List.cons_ne_nil later rest))
    · refine ⟨before, first, after ++ [e], by rw [List.append_assoc, List.cons_append], hG, hB, ?_⟩
      intro between later rest hsplit
      rcases List.eq_nil_or_concat rest with rfl | ⟨rest, last, rfl⟩
      · obtain ⟨rfl, hlast⟩ := List.append_inj' hsplit rfl
        rwa [← (List.cons.inj hlast).1]
      · rw [List.concat_eq_append, ← List.cons_append, ← List.append_assoc] at hsplit
        exact hlater between later rest (List.append_inj' hsplit rfl).1

/-- What every step makes of `P` is what one more event makes of `Latest`: `P` says what the latest
event of the kind was. -/
theorem foldl_iff_latest {S : Type*} {step : S → E → S} {init : S} {P : S → Prop}
    (hinit : ¬ P init)
    (hstep : ∀ events e, P (step (events.foldl step init) e) ↔
      (G events e ∧ B events e) ∨ (¬ G events e ∧ P (events.foldl step init)))
    (events : List E) : P (events.foldl step init) ↔ Latest G B events := by
  induction events using List.reverseRecOn with
  | nil => exact iff_of_false hinit not_latest_nil
  | append_singleton events e ih =>
    rw [List.foldl_append, List.foldl_cons, List.foldl_nil, hstep, latest_concat, ih]

end Lithair.Lib.History
