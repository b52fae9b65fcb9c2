import GridAccess.Access.Trail
import Mathlib.Logic.Relation
import Mathlib.Tactic

set_option autoImplicit false

/-!
# Walks that come to an end

A relation without circles that leads on from finitely many places only leads down: each step
leaves one place fewer to be reached (`reach_lt`). So the number of these places bounds the length
of every walk. For trails this means that the bound on the number of their steps cuts off no trail
but those that run in a circle (`Function.trail_ne_endless`).
-/

namespace GridAccess

section Reach

variable {α : Type} {R : α → α → Prop} {s : Finset α} {a b : α}

open Classical in
/-- The number of members of `s` that are reached from `a`, itself included. -/
noncomputable def reach (R : α → α → Prop) (s : Finset α) (a : α) : Nat :=
  (s.filter (Relation.ReflTransGen R a)).card

theorem reach_le_card (R : α → α → Prop) (s : Finset α) (a : α) : reach R s a ≤ s.card := by
  classical
  exact Finset.card_filter_le _ _

theorem reach_pos (ha : a ∈ s) : 0 < reach R s a := by
  classical
  exact Finset.card_pos.2 ⟨a, Finset.mem_filter.2 ⟨ha, .refl⟩⟩

/-- A step from a member of `s` that is on no circle leaves it behind. -/
theorem reach_lt (hcircle : ¬ Relation.TransGen R a a) (ha : a ∈ s) (hab : R a b) :
    reach R s b < reach R s a := by
  classical
  refine Finset.card_lt_card ⟨fun c hc => ?_, fun hsub => ?_⟩
  · rw [Finset.mem_filter] at hc ⊢
    exact ⟨hc.1, .head hab hc.2⟩
  · -- otherwise the walk could come back to `a`
    have hself := hsub (Finset.mem_filter.2 ⟨ha, .refl⟩)
    exact hcircle (.head' hab (Finset.mem_filter.1 hself).2)

/-- A relation along which a rank goes down has no circles. -/
theorem acyclic_of_rank (rank : α → Nat) (h : ∀ a b, R a b → rank b < rank a) (a : α) :
    ¬ Relation.TransGen R a a := by
  have hlt : ∀ {a b}, Relation.TransGen R a b → rank b < rank a := by
    intro a b hab
    induction hab with
    | single hstep => exact h _ _ hstep
    | tail _ hstep ih => exact (h _ _ hstep).trans ih
  exact fun hcircle => Nat.lt_irrefl _ (hlt hcircle)

end Reach

/-! ## Trails -/

section Trail

variable {α : Type} {step : Value → Except Fault (Move α)} {v : Value}

/-- The step of a trail goes on from one value to another. -/
def GoesOn (step : Value → Except Fault (Move α)) (v w : Value) : Prop := step v = .ok (.next w)

theorem trailWithin_ne_endless {s : Finset Value} (hstep : ∀ v, step v ≠ .error .endless)
    (hnext : ∀ v w, GoesOn step v w → v ∈ s)
    (hacyclic : ∀ v, ¬ Relation.TransGen (GoesOn step) v v) {steps : Nat}
    (hsteps : reach (GoesOn step) s v < steps) : trailWithin step steps v ≠ .error .endless := by
  -- what can still be reached stays less than the number of steps that are left
  induction steps generalizing v with
  | zero => exact absurd hsteps (Nat.not_lt_zero _)
  | succ steps ih =>
    rw [trailWithin]
    cases hmove : step v with
    | error e =>
      rintro ⟨⟩
      exact hstep v hmove
    | ok move =>
      cases move with
      | stop a => simp
      | next w =>
        have hlt := reach_lt (hacyclic v) (hnext v w hmove) hmove
        exact ih (by omega)

/-- A trail that goes on from instructions of the function only, and not in a circle, is not too
long. -/
theorem Function.trail_ne_endless (f : Function) (hstep : ∀ v, step v ≠ .error .endless)
    (hnext : ∀ v w, GoesOn step v w → ∃ i < f.instructions.size, v = .instruction i)
    (hacyclic : ∀ v, ¬ Relation.TransGen (GoesOn step) v v) (v : Value) :
    f.trail step v ≠ .error .endless := by
  let s := (Finset.range f.instructions.size).image Value.instruction
  have hcard : s.card ≤ f.instructions.size := by
    simpa using Finset.card_image_le (s := Finset.range f.instructions.size)
      (f := Value.instruction)
  apply trailWithin_ne_endless (s := s) hstep
  · intro v w hvw
    obtain ⟨i, hi, rfl⟩ := hnext v w hvw
    exact Finset.mem_image_of_mem _ (Finset.mem_range.2 hi)
  · exact hacyclic
  · exact Nat.lt_succ_of_le ((reach_le_card _ _ v).trans hcard)

end Trail

end GridAccess
