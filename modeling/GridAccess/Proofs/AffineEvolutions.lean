import GridAccess.Proofs.AnalysisReferences
import GridAccess.Proofs.TripCount

set_option autoImplicit false

/-!
# The shape of evolutions

Folding can be given operands of any shape: recurrences with many steps, sums of one term,
evolutions that are not known. None of these comes up when evolutions are found for the values of a
function. Every sum, product and maximum has two operands or more, every recurrence has one step and
belongs to a loop that is there, and nothing is left unknown (`Context.Shaped`). Adding recurrences
part by part, multiplying them by factors and extending them keeps the number of their steps, and
recurrences start out with one (`Context.keeps_shaped`).

A formula shows more than the parts of an evolution: with a recurrence it shows the number of rounds
of the loop and the step from one round to the next (`Scope.Writes`). These have the same shape, so
that all recurrences in the formula of an index are affine (`evolutions_affine`).
-/

namespace GridAccess

open Evolution

/-! ## Shapes of nodes -/

namespace Context

/-- The node is known, has two operands at least if it is a sum, a product or a maximum, and has
one step and a loop that is there if it is a recurrence. -/
def Shaped (C : Context) : Evolution → Prop
  | .indeterminate => False
  | .sum es | .product es | .smax es | .umax es => 2 ≤ es.length
  | .recurrence _ es l => es.length = 1 ∧ l < C.forest.loops.size
  | _ => True

theorem foldable_shaped (C : Context) : C.Foldable C.Shaped where
  constant _ := trivial
  quotient _ _ := trivial
  smax _ h := h
  umax _ h := h
  recurrence {_ _ es fs _} _ gs hlength h₁ h₂ := by
    have hone : gs.length = 1 := by
      rw [hlength, h₁.1, h₂.1]
      rfl
    exact ⟨hone, h₁.2⟩
  zext _ := trivial
  sext _ := trivial
  trunc _ := trivial
  sum _ htwo _ _ := htwo
  product _ htwo := htwo

theorem definite_of_shaped {C : Context} {n : Evolution} (h : C.Shaped n) : Definite n := by
  cases n with
  | indeterminate => exact h
  | smax es | umax es =>
    have hlength : 2 ≤ es.length := h
    exact List.ne_nil_of_length_pos (by omega)
  | _ => trivial

/-- All the constructions that evolutions are made by keep the shape of nodes. -/
theorem keeps_shaped (C : Context) : C.Keeps fun e => e.Everywhere C.Shaped := by
  apply keeps_everywhere C.foldable_shaped
  · exact fun _ hn => definite_of_shaped hn
  · exact fun _ => trivial
  · exact fun _ _ => trivial
  · exact fun _ _ _ hl => ⟨rfl, hl⟩

end Context

/-! ## Numbers of rounds -/

/-- What the constructions keep holds of a number of rounds that is known, if it holds of the start
and the bound of the counter. -/
theorem Context.Keeps.roundsUntil {C : Context} {Q : Evolution → Prop} (hQ : C.Keeps Q)
    {exit : Scope.CountedExit} (hstart : Q exit.start) (hbound : Q exit.bound) :
    Yields ((Scope.ofContext C).roundsUntil exit) fun e => e = .indeterminate ∨ Q e := by
  obtain ⟨pred, start, bound⟩ := exit
  have hdifference := hQ.difference hbound hstart
  cases pred with
  | slt | ult | ne => exact hdifference.mono fun _ he => .inr he
  | sle | ule =>
    refine hdifference.bind fun e he => ?_
    exact (hQ.sum [e, .constant 1] (by simp [he, hQ.constant])).mono fun _ he => .inr he
  | _ => exact .ok (.inl rfl)

namespace Scope

variable {C : Context} {P : Evolution → Prop} {l : Nat} {count : Evolution}

/-- What holds in all evolutions holds in the number of rounds of a loop, if that is known. -/
theorem everywhere_of_tripCount (hP : C.Keeps fun e => e.Everywhere P)
    (hcount : (ofContext C).tripCount l = .ok count) (hknown : count ≠ .indeterminate) :
    count.Everywhere P := by
  -- the rounds are counted from the start of a counter to its bound, which are evolutions both
  obtain ⟨T, hT⟩ := exists_endsWith hcount hknown
  obtain ⟨-, hrounds⟩ := hT.known hcount hknown
  obtain ⟨cond, lhs, rhs, -, -, hcounter, hbound⟩ := hT.test
  have hbound : T.bound.Everywhere P := hP.evolution _ _ hbound
  have hstart : T.start.Everywhere P :=
    (everywhere_recurrence_iff.1 (hP.evolution _ _ hcounter)).2.1
  exact (hP.roundsUntil hstart hbound count hrounds).resolve_left hknown

/-- A number of rounds that the head of a loop shows is known and the same in every round. -/
theorem tripCount_of_loopHead {S : Scope} {head : LoopHead} (h : S.loopHead l = .ok head)
    (hrounds : head.rounds = some count) :
    S.tripCount l = .ok count ∧ count ≠ .indeterminate ∧ S.isInvariant l count = .ok true := by
  obtain ⟨loop, -, h⟩ := bind_eq_ok_iff.1 h
  obtain ⟨invariant, hinvariant, h⟩ := bind_eq_ok_iff.1 h
  cases invariant with
  | false =>
    obtain rfl := pure_eq_ok_iff.1 h
    cases hrounds
  | true =>
    obtain ⟨count', hcount, h⟩ := bind_eq_ok_iff.1 h
    obtain rfl := pure_eq_ok_iff.1 h
    obtain rfl := Option.some.inj hrounds
    rw [hasInvariantTripCount, hcount, ok_bind] at hinvariant
    split at hinvariant
    · cases hinvariant
    · rename_i hknown
      refine ⟨hcount, ?_, hinvariant⟩
      rintro rfl
      exact hknown rfl

/-! ## What formulas show -/

/-- The formula of an evolution is written with the formula of another one: that of an operand, or,
for a recurrence, that of its step or of the number of rounds of its loop. -/
inductive Writes (S : Scope) : Evolution → Evolution → Prop
  | operand {e n : Evolution} (hn : n ∈ e.operands) : Writes S e n
  | step {a : Evolution} {steps : List Evolution} {l : Nat} :
      Writes S (.recurrence a steps l) (stepOf steps l)
  | rounds {a count : Evolution} {steps : List Evolution} {l : Nat} {head : LoopHead}
      (hhead : S.loopHead l = .ok head) (hrounds : head.rounds = some count) :
      Writes S (.recurrence a steps l) count

/-- Everything that the formula of a shaped evolution is written with is shaped. -/
theorem Writes.shaped {e n : Evolution} (h : (ofContext C).Writes e n)
    (he : e.Everywhere C.Shaped) : n.Everywhere C.Shaped := by
  cases h with
  | operand hn => exact he.operand hn
  | @step a steps l =>
    -- with one step, what is added in each round is that step and no recurrence
    obtain ⟨⟨hone, -⟩, -, hsteps⟩ := everywhere_recurrence_iff.1 he
    obtain ⟨s, rfl⟩ := List.length_eq_one_iff.1 hone
    exact hsteps s List.mem_cons_self
  | rounds hhead hrounds =>
    obtain ⟨hcount, hknown, -⟩ := tripCount_of_loopHead hhead hrounds
    exact everywhere_of_tripCount C.keeps_shaped hcount hknown

end Scope

/-- The shape of evolutions. Whatever the function, an evolution of one of its values is known
throughout, has two operands at least in every sum, product and maximum, and has one step in every
recurrence, of a loop that is there. So has everything that its formula is written with, down to the
numbers of rounds of loops: no formula of an index shows a recurrence that is not affine. If the
module is well-referenced, a value that is there has an evolution unless looking for it has no
end. -/
theorem evolutions_affine (m : Module) (f : Function) (v : Value) :
    (∀ e, (Scope.ofFunction m f).evolution v = .ok e →
      e.Everywhere (Context.ofFunction m f).Shaped ∧
      ∀ n, Relation.ReflTransGen (Scope.ofFunction m f).Writes e n →
        ∀ a steps l, n = .recurrence a steps l → ∃ s, steps = [s]) ∧
    (m.WellReferenced → f ∈ m.functions.toList → m.Has f v →
      (Scope.ofFunction m f).evolution v ≠ .error .dangling) := by
  constructor
  · intro e he
    have hshaped : e.Everywhere (Context.ofFunction m f).Shaped :=
      (Context.ofFunction m f).keeps_shaped.evolution v e he
    refine ⟨hshaped, fun n hn => ?_⟩
    -- the induction is on how the formula leads to the recurrence
    have hall : n.Everywhere (Context.ofFunction m f).Shaped := by
      induction hn with
      | refl => exact hshaped
      | tail _ hwrites ih => exact hwrites.shaped ih
    rintro a steps l rfl
    exact List.length_eq_one_iff.1 hall.top.1
  · intro hm hf hv hdangling
    have hsettles := (hm.function f hf).settles_evolution hm hv
    rw [hdangling] at hsettles
    cases hsettles

/-- Two loops, one inside the other: the inner one goes round as often as the counter of the outer
one says. -/
def triangle : Function where
  name := "triangle"
  params := #[⟨"n", .int 32⟩]
  blocks := #[⟨"entry", [0]⟩, ⟨"rows", [1, 2]⟩, ⟨"row", [3, 4, 5, 6]⟩, ⟨"next", [7, 8, 9]⟩,
    ⟨"exit", [10]⟩]
  instructions := #[
    ⟨0, .void, none, .branch 1⟩,
    ⟨1, .int 32, some "i", .phi [(0, .int 0), (3, .instruction 7)]⟩,
    ⟨1, .void, none, .branch 2⟩,
    ⟨2, .int 32, some "j", .phi [(1, .int 0), (2, .instruction 4)]⟩,
    ⟨2, .int 32, none, .binary .add (.instruction 3) (.int 1)⟩,
    ⟨2, .truth, none, .compare .slt (.instruction 4) (.instruction 1)⟩,
    ⟨2, .void, none, .branchIf (.instruction 5) 2 3⟩,
    ⟨3, .int 32, none, .binary .add (.instruction 1) (.int 1)⟩,
    ⟨3, .truth, none, .compare .slt (.instruction 7) (.argument 0)⟩,
    ⟨3, .void, none, .branchIf (.instruction 8) 1 4⟩,
    ⟨4, .void, none, .ret none⟩]

/-- The module of `triangle`. -/
def triangular : Module where
  name := "module"
  functions := #[triangle]

theorem wellReferenced_triangular : triangular.WellReferenced where
  function := by
    intro f hf
    obtain rfl : f = triangle := by simpa [triangular] using hf
    refine ⟨?_, by decide, by decide, ?_, by decide, Function.acyclic_of_earlier (by decide)⟩
    · simp [triangle, triangular, Operation.operands, Module.Has, Value.Within, Value.int]
    · simp [triangle, triangular]
  constantExpr := by
    intro k e he
    simp [triangular] at he

/-- The counter of the inner loop. Its formula shows that of the outer loop, less one, as the number
of rounds. -/
theorem evolutions_affine_triangle :
    let S := Scope.ofFunction triangular triangle
    let e : Evolution := .recurrence (.constant 0) [.constant 1] 0
    S.evolution (.instruction 3) = .ok e ∧
      Relation.ReflTransGen S.Writes e (.recurrence (.constant (-1)) [.constant 1] 1) ∧
      e.Everywhere S.Shaped ∧
      (∀ n, Relation.ReflTransGen S.Writes e n →
        ∀ a steps l, n = .recurrence a steps l → ∃ s, steps = [s]) ∧
      triangular.WellReferenced ∧ S.evolution (.instruction 3) ≠ .error .dangling := by
  intro S e
  obtain ⟨hshape, hdangling⟩ := evolutions_affine triangular triangle (.instruction 3)
  have he : S.evolution (.instruction 3) = .ok e := by decide +kernel
  have hhead : (fun head => head.rounds) <$> S.loopHead 0 =
      .ok (some (.recurrence (.constant (-1)) [.constant 1] 1)) := by decide +kernel
  obtain ⟨head, hhead, hrounds⟩ := map_eq_ok_iff.1 hhead
  refine ⟨he, .single (.rounds hhead hrounds), (hshape e he).1, (hshape e he).2,
    wellReferenced_triangular, ?_⟩
  apply hdangling wellReferenced_triangular
  · simp [triangular]
  · simp [Module.Has, Value.Within, triangle]

end GridAccess
