import GridAccess.Proofs.Outcome
import Mathlib.Data.List.Nodup
import Mathlib.Logic.Relation

set_option autoImplicit false

/-!
# Ways up a forest

A forest is given by the parent of each node. From a node one goes up to its parent, and on until
there is none: to list all nodes on the way (`Ascent.way`), or to see whether one of them is a given
node (`Ascent.meets`). Nothing in the table keeps the way from running in a circle, so both count
their steps.

A way that ends (`Ascent.Climbs`) is the only one from its node, and passes no node twice: the way
from a node that is passed again would be shorter than itself. So it is no longer than the table,
and both searches find what it says (`Climbs.way_eq`, `Climbs.meets_eq`).
-/

namespace GridAccess

namespace Ascent

/-- The nodes on the way up from a node, itself first. -/
def way (parents : Array (Option Nat)) : (steps : Nat) → Nat → Except Fault (List Nat)
  | 0, _ => .error .endless
  | steps + 1, a => do
    match ← fetch parents a with
    | none => return [a]
    | some b => return a :: (← way parents steps b)

/-- One meets the node `x` on the way up from a node. -/
def meets (parents : Array (Option Nat)) (x : Nat) : (steps : Nat) → Nat → Except Fault Bool
  | 0, _ => .error .endless
  | steps + 1, a =>
    if a = x then .ok true
    else do
      match ← fetch parents a with
      | none => return false
      | some b => meets parents x steps b

/-- A way up from a node that ends. -/
inductive Climbs (parents : Array (Option Nat)) : Nat → List Nat → Prop
  | top {a : Nat} (h : parents[a]? = some none) : Climbs parents a [a]
  | up {a b : Nat} {cs : List Nat} (h : parents[a]? = some (some b))
      (rest : Climbs parents b cs) : Climbs parents a (a :: cs)

namespace Climbs

variable {parents : Array (Option Nat)} {a b x : Nat} {cs ds : List Nat}

theorem unique (h : Climbs parents a cs) (h' : Climbs parents a ds) : cs = ds := by
  induction h generalizing ds with
  | top h =>
    cases h' with
    | top _ => rfl
    | up h' _ => cases h.symm.trans h'
  | up h _ ih =>
    cases h' with
    | top h' => cases h.symm.trans h'
    | up h' rest =>
      obtain rfl := Option.some.inj (Option.some.inj (h.symm.trans h'))
      rw [ih rest]

/-- The way from a node that is met is the end of the way. -/
theorem exists_suffix (h : Climbs parents a cs) (hx : x ∈ cs) :
    ∃ ds, Climbs parents x ds ∧ ds <:+ cs := by
  induction h with
  | @top a h =>
    obtain rfl := List.mem_singleton.1 hx
    exact ⟨[x], .top h, List.suffix_rfl⟩
  | @up a b cs h rest ih =>
    rcases List.mem_cons.1 hx with rfl | hx
    · exact ⟨_, .up h rest, List.suffix_rfl⟩
    · obtain ⟨ds, hds, hsuffix⟩ := ih hx
      exact ⟨ds, hds, hsuffix.trans (List.suffix_cons a cs)⟩

theorem nodup (h : Climbs parents a cs) : cs.Nodup := by
  induction h with
  | top _ => exact List.nodup_singleton _
  | @up a b cs h rest ih =>
    refine List.nodup_cons.2 ⟨fun hmem => ?_, ih⟩
    obtain ⟨ds, hds, hsuffix⟩ := rest.exists_suffix hmem
    have hlength := hsuffix.length_le
    rw [hds.unique (.up h rest), List.length_cons] at hlength
    omega

theorem lt_size (h : Climbs parents a cs) (hx : x ∈ cs) : x < parents.size := by
  obtain ⟨ds, hds, -⟩ := h.exists_suffix hx
  cases hds with
  | top h | up h _ => exact (Array.getElem?_eq_some_iff.1 h).1

theorem length_le (h : Climbs parents a cs) : cs.length ≤ parents.size := by
  have hsub : cs ⊆ List.range parents.size := fun x hx => List.mem_range.2 (h.lt_size hx)
  simpa using (h.nodup.subperm hsub).length_le

/-- Enough steps find the way. -/
theorem way_eq_of_le {steps : Nat} (h : Climbs parents a cs) (hsteps : cs.length ≤ steps) :
    way parents steps a = .ok cs := by
  induction h generalizing steps with
  | top h =>
    obtain ⟨steps, rfl⟩ := Nat.exists_eq_add_one.2 hsteps
    rw [way, fetch_eq_ok_iff.2 h]
    rfl
  | up h _ ih =>
    obtain ⟨steps, rfl⟩ := Nat.exists_eq_add_one.2 (Nat.zero_lt_of_lt hsteps)
    exact bind_eq_ok_iff.2 ⟨_, fetch_eq_ok_iff.2 h,
      bind_eq_ok_iff.2 ⟨_, ih (Nat.le_of_succ_le_succ hsteps), rfl⟩⟩

theorem meets_eq_of_le {steps : Nat} (h : Climbs parents a cs) (hsteps : cs.length ≤ steps) :
    meets parents x steps a = .ok (cs.contains x) := by
  induction h generalizing steps with
  | @top a h =>
    obtain ⟨steps, rfl⟩ := Nat.exists_eq_add_one.2 hsteps
    rw [meets]
    by_cases hax : a = x
    · simp [hax]
    · have hnot : [a].contains x = false := by simpa using Ne.symm hax
      rw [if_neg hax, fetch_eq_ok_iff.2 h, ok_bind, hnot]
      rfl
  | @up a b cs h _ ih =>
    obtain ⟨steps, rfl⟩ := Nat.exists_eq_add_one.2 (Nat.zero_lt_of_lt hsteps)
    rw [meets]
    by_cases hax : a = x
    · simp [hax]
    · rw [if_neg hax, fetch_eq_ok_iff.2 h, ok_bind]
      simpa [Ne.symm hax] using ih (Nat.le_of_succ_le_succ hsteps)

theorem way_eq (h : Climbs parents a cs) : way parents (parents.size + 1) a = .ok cs :=
  h.way_eq_of_le (h.length_le.trans (Nat.le_succ _))

theorem meets_eq (h : Climbs parents a cs) (x : Nat) :
    meets parents x (parents.size + 1) a = .ok (cs.contains x) :=
  h.meets_eq_of_le (h.length_le.trans (Nat.le_succ _))

/-- The nodes on the way are those that can be reached from parent to parent. -/
theorem mem_iff (h : Climbs parents a cs) :
    x ∈ cs ↔ Relation.ReflTransGen (fun a b => parents[a]? = some (some b)) a x := by
  induction h with
  | @top a h =>
    rw [List.mem_singleton]
    constructor
    · rintro rfl
      exact .refl
    · intro hup
      rcases hup.cases_head with rfl | ⟨b, hb, -⟩
      · rfl
      · cases h.symm.trans hb
  | @up a b cs h _ ih =>
    rw [List.mem_cons, ih]
    constructor
    · rintro (rfl | hup)
      · exact .refl
      · exact .head h hup
    · intro hup
      rcases hup.cases_head with rfl | ⟨c, hc, hup⟩
      · exact .inl rfl
      · obtain rfl := Option.some.inj (Option.some.inj (h.symm.trans hc))
        exact .inr hup

/-- The last node on the way has no parent. -/
theorem exists_getLast? (h : Climbs parents a cs) :
    ∃ r, cs.getLast? = some r ∧ parents[r]? = some none := by
  induction h with
  | @top a h => exact ⟨a, rfl, h⟩
  | @up a b cs h rest ih =>
    obtain ⟨r, hr, hnone⟩ := ih
    refine ⟨r, ?_, hnone⟩
    rw [List.getLast?_cons, hr]
    rfl

end Climbs

/-- Where parents have greater numbers, every way ends. -/
theorem exists_climbs {parents : Array (Option Nat)}
    (h : ∀ a b, parents[a]? = some (some b) → a < b ∧ b < parents.size) {a : Nat}
    (ha : a < parents.size) : ∃ cs, Climbs parents a cs := by
  induction hdistance : parents.size - a using Nat.strong_induction_on generalizing a with
  | _ n ih =>
    cases hparent : parents[a]? with
    | none => exact absurd ha (Nat.not_lt.2 (Array.getElem?_eq_none_iff.1 hparent))
    | some parent =>
      cases parent with
      | none => exact ⟨[a], .top hparent⟩
      | some b =>
        obtain ⟨hab, hb⟩ := h a b hparent
        obtain ⟨cs, hcs⟩ := ih _ (by omega) hb rfl
        exact ⟨a :: cs, .up hparent hcs⟩

end Ascent

end GridAccess
