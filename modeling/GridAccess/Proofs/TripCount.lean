import GridAccess.Proofs.EvolutionShape
import GridAccess.Proofs.Mirroring
import Mathlib.Order.Bounds.Basic

set_option autoImplicit false

/-!
# How often a loop goes round

A loop whose rounds are counted ends each round with a test (`LatchTest`): it compares a counter,
which goes up by one from round to round, with a bound, and the answer leads back into the loop or
out of it. With the counter on the left and in terms of going on, the test is one of five
comparisons (`LatchTest.condition`).

If the counter starts at or below the bound, the number of rounds is exactly the value of the trip
count: the first round at whose end the loop is left (`tripCount_exact`). If it starts above the
bound, the loop is left at once, but the trip count is the negative distance. A constant trip count
is therefore a bound on the rounds exactly if it is not negative as a signed integer and the loop
is left at all (`maxTripCount_bounds_iff`); it can be negative (`maxTripCount_below_rounds`).
-/

namespace GridAccess

open Evolution

/-! ## Counting up to a word -/

namespace Word

variable {signed : Bool} {s b : Word} {n : Nat}

/-- The greatest word in the order. -/
def last (signed : Bool) : Word := if signed then BitVec.intMax 64 else BitVec.allOnes 64

theorem toNat_last_signed : (last true).toNat = 9223372036854775807 := rfl

theorem toNat_last_unsigned : (last false).toNat = 18446744073709551615 := rfl

theorem key_le_last (signed : Bool) (w : Word) : key signed w ≤ key signed (last signed) := by
  have hlt := w.isLt
  cases signed with
  | true =>
    simp only [key, if_true, BitVec.toInt_eq_toNat_cond, toNat_last_signed]
    omega
  | false =>
    simp only [key, Bool.false_eq_true, if_false, toNat_last_unsigned]
    omega

theorem key_add_one (hb : b ≠ last signed) : key signed (b + 1) = key signed b + 1 := by
  have hlt := b.isLt
  have hne : b.toNat ≠ (last signed).toNat := fun h => hb (BitVec.eq_of_toNat_eq h)
  cases signed with
  | true =>
    rw [toNat_last_signed] at hne
    simp only [key, if_true, BitVec.toInt_eq_toNat_cond, BitVec.toNat_add, BitVec.reduceToNat]
    omega
  | false =>
    rw [toNat_last_unsigned] at hne
    simp only [key, Bool.false_eq_true, if_false, BitVec.toNat_add, BitVec.reduceToNat]
    omega

/-- A word that is moved up without passing another word does not wrap around. -/
theorem key_add (h : key signed s + n ≤ key signed b) :
    key signed (s + BitVec.ofNat 64 n) = key signed s + n := by
  have hs := s.isLt
  have hb := b.isLt
  cases signed with
  | true =>
    simp only [key, if_true, BitVec.toInt_eq_toNat_cond, BitVec.toNat_add, BitVec.toNat_ofNat]
      at h ⊢
    omega
  | false =>
    simp only [key, Bool.false_eq_true, if_false, BitVec.toNat_add, BitVec.toNat_ofNat] at h ⊢
    omega

theorem toNat_sub_of_key_le (h : key signed s ≤ key signed b) :
    ((b - s).toNat : Int) = key signed b - key signed s := by
  have hs := s.isLt
  have hb := b.isLt
  cases signed with
  | true =>
    simp only [key, if_true, BitVec.toInt_eq_toNat_cond, BitVec.toNat_sub] at h ⊢
    omega
  | false =>
    simp only [key, Bool.false_eq_true, if_false, BitVec.toNat_sub] at h ⊢
    omega

theorem add_ofNat_toNat_sub (s b : Word) : s + BitVec.ofNat 64 (b - s).toNat = b := by
  rw [BitVec.ofNat_toNat, BitVec.setWidth_eq]
  ring

/-- A word that counts up meets another one after their distance. -/
theorem isLeast_eq (s b : Word) :
    IsLeast {n : Nat | s + BitVec.ofNat 64 n = b} (b - s).toNat := by
  refine ⟨add_ofNat_toNat_sub s b, fun n hn => ?_⟩
  have hdistance : b - s = BitVec.ofNat 64 n := by
    rw [← hn]
    ring
  rw [hdistance, BitVec.toNat_ofNat]
  exact Nat.mod_le _ _

/-- A word that counts up from below another one is no longer below it after their distance. -/
theorem isLeast_le (h : key signed s ≤ key signed b) :
    IsLeast {n : Nat | key signed b ≤ key signed (s + BitVec.ofNat 64 n)} (b - s).toNat := by
  have hdistance := toNat_sub_of_key_le h
  refine ⟨(congrArg (key signed) (add_ofNat_toNat_sub s b)).ge, fun n hn => ?_⟩
  by_contra hlt
  have hn : key signed b ≤ key signed (s + BitVec.ofNat 64 n) := hn
  rw [key_add (b := b) (by omega)] at hn
  omega

end Word

/-! ## Comparisons on which a loop goes on -/

namespace Predicate

variable {p : Predicate} {s b x : Word}

theorem holds_inverse (p : Predicate) (x y : Word) : p.inverse.holds x y = !p.holds x y := by
  cases p with
  | eq | ne => simp [inverse, holds, bne]
  | ugt | uge | ult | ule =>
    simp only [inverse, holds, BitVec.ult, BitVec.ule, ← decide_not]
    congr 1
    simp
  | sgt | sge | slt | sle =>
    simp only [inverse, holds, BitVec.slt, BitVec.sle, ← decide_not]
    congr 1
    simp

/-- The comparison that holds of a smaller word. -/
def less (signed : Bool) : Predicate := if signed then slt else ult

/-- The comparison that holds of a word that is not greater. -/
def atMost (signed : Bool) : Predicate := if signed then sle else ule

theorem less_holds_eq_false_iff (signed : Bool) :
    (less signed).holds x b = false ↔ Word.key signed b ≤ Word.key signed x := by
  cases signed <;> simp [less, holds, Word.key, BitVec.slt, BitVec.ult]

theorem atMost_holds_eq_false_iff (signed : Bool) :
    (atMost signed).holds x b = false ↔ Word.key signed b < Word.key signed x := by
  cases signed <;> simp [atMost, holds, Word.key, BitVec.sle, BitVec.ule]

/-- The distance that a counter with this start and this bound goes while the comparison holds. -/
def distance (p : Predicate) (start bound : Word) : Word :=
  match p with
  | sle | ule => bound - start + 1
  | _ => bound - start

/-- The start of a counter is at or below its bound in the order of the comparison, and one that
may reach the bound can pass it. -/
inductive Enters (s b : Word) : Predicate → Prop
  | ne : Enters s b .ne
  | slt (h : s.toInt ≤ b.toInt) : Enters s b .slt
  | ult (h : s.toNat ≤ b.toNat) : Enters s b .ult
  | sle (h : s.toInt ≤ b.toInt) (hb : b ≠ Word.last true) : Enters s b .sle
  | ule (h : s.toNat ≤ b.toNat) (hb : b ≠ Word.last false) : Enters s b .ule

/-- A counter that starts at or below its bound goes on for exactly the distance. -/
theorem Enters.isLeast (h : Enters s b p) :
    IsLeast {n : Nat | p.holds (s + BitVec.ofNat 64 n) b = false} (p.distance s b).toNat := by
  have hbelow : ∀ signed, Word.key signed s ≤ Word.key signed b →
      IsLeast {n : Nat | (less signed).holds (s + BitVec.ofNat 64 n) b = false} (b - s).toNat := by
    intro signed hle
    simpa only [less_holds_eq_false_iff] using Word.isLeast_le hle
  -- to go on up to a bound that can be passed is to go on below its successor
  have hupTo : ∀ signed, Word.key signed s ≤ Word.key signed b → b ≠ Word.last signed →
      IsLeast {n : Nat | (atMost signed).holds (s + BitVec.ofNat 64 n) b = false}
        (b - s + 1).toNat := by
    intro signed hle hlast
    have hsucc := Word.key_add_one hlast
    have hle : Word.key signed s ≤ Word.key signed (b + 1) := by omega
    have hleast := Word.isLeast_le hle
    have hdistance : b + 1 - s = b - s + 1 := by ring
    rw [hdistance] at hleast
    simpa only [atMost_holds_eq_false_iff, hsucc, Int.add_one_le_iff] using hleast
  cases h with
  | ne => simpa [holds, distance] using Word.isLeast_eq s b
  | slt h => exact hbelow true h
  | ult h => exact hbelow false (Int.ofNat_le.2 h)
  | sle h hb => exact hupTo true h hb
  | ule h hb => exact hupTo false (Int.ofNat_le.2 h) hb

/-- The comparison is one by which rounds are counted. -/
def counts : Predicate → Bool
  | slt | ult | ne | sle | ule => true
  | _ => false

/-- The comparison with the bound holds of every word. -/
def Endless (p : Predicate) (b : Word) : Prop :=
  p = sle ∧ b = Word.last true ∨ p = ule ∧ b = Word.last false

theorem Endless.holds (h : p.Endless b) (x : Word) : p.holds x b = true := by
  have hall : ∀ signed, (atMost signed).holds x (Word.last signed) = true := by
    intro signed
    rw [← Bool.not_eq_false, atMost_holds_eq_false_iff, not_lt]
    exact Word.key_le_last signed x
  rcases h with ⟨rfl, rfl⟩ | ⟨rfl, rfl⟩
  · exact hall true
  · exact hall false

/-- A counter that does not start at or below its bound fails at once, unless it can go on for
ever. -/
theorem enters_or_fails_or_endless (hp : p.counts = true) (s b : Word) :
    Enters s b p ∨ p.holds s b = false ∨ p.Endless b := by
  cases p with
  | ne => exact .inl .ne
  | slt =>
    by_cases h : s.toInt ≤ b.toInt
    · exact .inl (.slt h)
    · exact .inr (.inl ((less_holds_eq_false_iff true).2 (Int.le_of_not_le h)))
  | ult =>
    by_cases h : s.toNat ≤ b.toNat
    · exact .inl (.ult h)
    · exact .inr (.inl ((less_holds_eq_false_iff false).2 (Int.ofNat_le.2 (Nat.le_of_not_le h))))
  | sle =>
    by_cases hb : b = Word.last true
    · exact .inr (.inr (.inl ⟨rfl, hb⟩))
    · by_cases h : s.toInt ≤ b.toInt
      · exact .inl (.sle h hb)
      · exact .inr (.inl ((atMost_holds_eq_false_iff true).2 (Int.lt_of_not_ge h)))
  | ule =>
    by_cases hb : b = Word.last false
    · exact .inr (.inr (.inr ⟨rfl, hb⟩))
    · by_cases h : s.toNat ≤ b.toNat
      · exact .inl (.ule h hb)
      · exact .inr (.inl ((atMost_holds_eq_false_iff false).2 (Int.ofNat_lt.2 (Nat.lt_of_not_ge h))))
  | _ => cases hp

end Predicate

/-! ## The test at the end of a round -/

/-- The test that ends each round of a loop: a counter, which has gone up by one in each round, is
compared with a bound, and the answer leads to one of two blocks. -/
structure LatchTest where
  loop : Loop
  pred : Predicate
  onTrue : Nat
  onFalse : Nat
  /-- The counter is the left side of the comparison. -/
  counterLeft : Bool
  start : Evolution
  bound : Evolution

namespace LatchTest

variable {T : LatchTest}

/-- The answer of the comparison, with these words for the counter and the bound. -/
def answer (T : LatchTest) (counter bound : Word) : Bool :=
  if T.counterLeft then T.pred.holds counter bound else T.pred.holds bound counter

/-- The block that the test leads to, with these words for the counter and the bound. -/
def target (T : LatchTest) (counter bound : Word) : Nat :=
  if T.answer counter bound then T.onTrue else T.onFalse

/-- The test leads back into the loop when the counter is `n` above its start. -/
def goesOn (T : LatchTest) (ρ : Valuation) (n : Nat) : Bool :=
  T.loop.contains (T.target (ρ.eval T.start + BitVec.ofNat 64 n) (ρ.eval T.bound))

/-- The loop goes round `n` times or more. -/
def GoesRound (T : LatchTest) (ρ : Valuation) (n : Nat) : Prop := ∀ k < n, T.goesOn ρ k = true

/-- A loop goes round no more often than until its test first leads out of it. -/
theorem GoesRound.le {ρ : Valuation} {n k : Nat} (h : T.GoesRound ρ n)
    (hk : T.goesOn ρ k = false) : n ≤ k := by
  by_contra hlt
  have hgoes := h k (Nat.lt_of_not_le hlt)
  rw [hk] at hgoes
  cases hgoes

/-- The comparison on which the loop goes on: that of the test, inverted if the loop goes on when
it fails. -/
def goingOn (T : LatchTest) : Predicate :=
  if T.loop.contains T.onTrue then T.pred else T.pred.inverse

/-- The comparison on which the loop goes on, with the counter on the left. -/
def condition (T : LatchTest) : Predicate :=
  if T.counterLeft then T.goingOn else T.goingOn.swapped

/-- Exactly one of the two answers leads back into the loop. -/
def decides (T : LatchTest) : Bool := T.loop.contains T.onTrue != T.loop.contains T.onFalse

theorem condition_holds (T : LatchTest) (x y : Word) : T.condition.holds x y =
    if T.loop.contains T.onTrue then T.answer x y else !T.answer x y := by
  rw [condition, goingOn, answer]
  cases T.counterLeft <;> cases T.loop.contains T.onTrue <;>
    simp [Viewpoint.holds_swapped, Predicate.holds_inverse]

/-- The loop goes on exactly as long as its condition holds. -/
theorem goesOn_eq (h : T.decides = true) (ρ : Valuation) (n : Nat) : T.goesOn ρ n =
    T.condition.holds (ρ.eval T.start + BitVec.ofNat 64 n) (ρ.eval T.bound) := by
  have hne := bne_iff_ne.1 h
  rw [goesOn, target, condition_holds]
  cases T.answer (ρ.eval T.start + BitVec.ofNat 64 n) (ρ.eval T.bound) with
  | true => cases htrue : T.loop.contains T.onTrue <;> simp [htrue]
  | false =>
    -- the loop goes on if the answer that does not lead back is not given
    cases htrue : T.loop.contains T.onTrue <;> simpa [htrue] using hne.symm

end LatchTest

/-! ## Loops that end with a test -/

theorem Evolution.counterStart?_eq_some_iff {e start : Evolution} {l : Nat} :
    e.counterStart? l = some start ↔ e = .recurrence start [.constant 1] l := by
  constructor
  · intro h
    rw [counterStart?.eq_def] at h
    split at h
    · split at h
      · rename_i hl
        rw [← Option.some.inj h, hl]
        rfl
      · cases h
    · cases h
  · rintro rfl
    exact if_pos rfl

namespace Scope

variable {S : Scope} {l : Nat} {T : LatchTest} {count : Evolution}

/-- Every round of loop `l` ends with the test: the branch there depends on a comparison that has
the counter on one side and the bound on the other. -/
structure EndsWith (S : Scope) (l : Nat) (T : LatchTest) : Prop where
  loop : S.forest.loop l = .ok T.loop
  test : ∃ cond lhs rhs, S.latchBranch? T.loop = some (.branchIf cond T.onTrue T.onFalse) ∧
    S.comparison? cond = .ok (some ⟨T.pred, lhs, rhs⟩) ∧
    S.evolution (if T.counterLeft then lhs else rhs) = .ok (.recurrence T.start [.constant 1] l) ∧
    S.evolution (if T.counterLeft then rhs else lhs) = .ok T.bound

theorem countedExit?_counter (S : Scope) (l : Nat) (p : Predicate) (start bound : Evolution) :
    S.countedExit? l p (.recurrence start [.constant 1] l) bound =
      (fun invariant => if invariant then some ⟨p, start, bound⟩ else none) <$>
        S.isInvariant l bound := by
  have hcounter : (recurrence start [.constant 1] l).counterStart? l = some start :=
    counterStart?_eq_some_iff.2 rfl
  rw [countedExit?, hcounter]
  cases hb : bound.counterStart? l with
  | none =>
    cases S.isInvariant l bound with
    | error e => rfl
    | ok invariant => cases invariant <;> rfl
  | some start' =>
    -- neither of two counters of the loop is a bound for the other
    rw [isInvariant_of_counterStart? hb, isInvariant_of_counterStart? hcounter]
    rfl

/-- The comparison on which a loop goes on is that of its test, if exactly one answer leads back
into the loop. -/
theorem continuation?_eq_of_test {cond lhs rhs : Value}
    (hbranch : S.latchBranch? T.loop = some (.branchIf cond T.onTrue T.onFalse))
    (hcompare : S.comparison? cond = .ok (some ⟨T.pred, lhs, rhs⟩)) :
    S.continuation? T.loop = .ok (if T.decides then some ⟨T.goingOn, lhs, rhs⟩ else none) := by
  rw [Context.continuation?, hbranch]
  dsimp only
  rw [hcompare, LatchTest.decides, LatchTest.goingOn]
  cases T.loop.contains T.onTrue <;> cases T.loop.contains T.onFalse <;> rfl

/-- The rounds are counted if the test decides and its bound stays the same. -/
theorem EndsWith.tripCount_eq (h : S.EndsWith l T) : S.tripCount l = if T.decides then
    S.isInvariant l T.bound >>= fun invariant =>
      if invariant then S.roundsUntil ⟨T.condition, T.start, T.bound⟩ else pure .indeterminate
    else pure .indeterminate := by
  obtain ⟨cond, lhs, rhs, hbranch, hcompare, hcounter, hbound⟩ := h.test
  have hrounds : S.roundsBy l ⟨T.goingOn, lhs, rhs⟩ =
      S.countedExit? l T.condition (.recurrence T.start [.constant 1] l) T.bound >>= fun exit =>
        exit.elim (pure .indeterminate) S.roundsUntil := by
    cases hleft : T.counterLeft with
    | true =>
      simp only [hleft, if_true] at hcounter hbound
      rw [roundsBy, hcounter, ok_bind, hbound, ok_bind, LatchTest.condition, hleft, if_pos rfl]
    | false =>
      -- the exit is found from the swapped comparison, with the counter on the left again
      simp only [hleft, Bool.false_eq_true, if_false] at hcounter hbound
      rw [roundsBy, hbound, ok_bind, hcounter, ok_bind, LatchTest.condition, hleft,
        if_neg Bool.false_ne_true, ← countedExit?_swapped S l T.goingOn]
  rw [Scope.tripCount_eq h.loop, continuation?_eq_of_test hbranch hcompare, ok_bind]
  split
  · rw [Option.elim_some, hrounds, countedExit?_counter]
    cases S.isInvariant l T.bound with
    | error e => rfl
    | ok invariant => cases invariant <;> rfl
  · rfl

/-- A number of rounds that is known is counted from the start of the counter to its bound. -/
theorem EndsWith.known (h : S.EndsWith l T) (hcount : S.tripCount l = .ok count)
    (hknown : count ≠ .indeterminate) :
    T.decides = true ∧ S.roundsUntil ⟨T.condition, T.start, T.bound⟩ = .ok count := by
  rw [h.tripCount_eq] at hcount
  split at hcount
  · rename_i hdecides
    refine ⟨hdecides, ?_⟩
    obtain ⟨invariant, -, hcount⟩ := bind_eq_ok_iff.1 hcount
    cases invariant with
    | true => exact hcount
    | false => exact absurd (Except.ok.inj hcount).symm hknown
  · exact absurd (Except.ok.inj hcount).symm hknown

/-- A loop whose number of rounds is known ends with a test. -/
theorem exists_endsWith (hcount : S.tripCount l = .ok count) (hknown : count ≠ .indeterminate) :
    ∃ T, S.EndsWith l T := by
  obtain ⟨loop, hloop, -⟩ := bind_eq_ok_iff.1 hcount
  rw [Scope.tripCount_eq hloop] at hcount
  obtain ⟨o, hgoes, hcount⟩ := bind_eq_ok_iff.1 hcount
  cases o with
  | none => exact absurd (Except.ok.inj hcount).symm hknown
  | some c =>
    obtain ⟨cond, onTrue, onFalse, _, ⟨pred, _, _⟩, hbranch, hcompare, rfl, -⟩ :=
      Context.branch_of_continuation? hgoes
    obtain ⟨lhs, hlhs, hcount⟩ := bind_eq_ok_iff.1 hcount
    obtain ⟨rhs, hrhs, hcount⟩ := bind_eq_ok_iff.1 hcount
    obtain ⟨exit, hexit, hcount⟩ := bind_eq_ok_iff.1 hcount
    cases hl : lhs.counterStart? l with
    | some start =>
      rw [counterStart?_eq_some_iff.1 hl] at hlhs
      exact ⟨⟨loop, pred, onTrue, onFalse, true, start, rhs⟩,
        hloop, cond, _, _, hbranch, hcompare, hlhs, hrhs⟩
    | none =>
      cases hr : rhs.counterStart? l with
      | some start =>
        rw [counterStart?_eq_some_iff.1 hr] at hrhs
        exact ⟨⟨loop, pred, onTrue, onFalse, false, start, lhs⟩,
          hloop, cond, _, _, hbranch, hcompare, hrhs, hlhs⟩
      | none =>
        -- no side is a counter
        rw [countedExit?, hl, hr] at hexit
        obtain rfl : none = exit := Except.ok.inj hexit
        exact absurd (Except.ok.inj hcount).symm hknown

/-- The value of a number of rounds is the distance from the start to the bound. -/
theorem eval_roundsUntil {exit : CountedExit} (hstart : exit.start.Everywhere S.Proper)
    (hbound : exit.bound.Everywhere S.Proper) (hcount : S.roundsUntil exit = .ok count)
    (hknown : count ≠ .indeterminate) (ρ : Valuation) : exit.pred.counts = true ∧
      ρ.eval count = exit.pred.distance (ρ.eval exit.start) (ρ.eval exit.bound) := by
  obtain ⟨pred, start, bound⟩ := exit
  have hworth : ∀ e, S.difference bound start = .ok e →
      S.Worth ρ (ρ.eval bound - ρ.eval start) e := by
    intro e he
    have hfolds := Context.folds_difference ρ hbound hstart
    rw [he] at hfolds
    cases hfolds with
    | value he => exact he
  have hsucc : ∀ e, S.sum [e, .constant 1] = .ok count → e.Everywhere S.Proper →
      ρ.eval count = ρ.eval e + 1 := by
    intro e he hproper
    have hone := everywhere_constant S.stable_proper 1
    have hproper : AllEverywhere S.Proper [e, .constant 1] := by simpa using ⟨hproper, hone⟩
    have hfolds := Context.folds_sum ρ hproper
    rw [he] at hfolds
    cases hfolds with
    | value he => simpa using he.2
  rw [roundsUntil] at hcount
  cases pred with
  | slt | ult | ne => exact ⟨rfl, (hworth count hcount).2⟩
  | sle | ule =>
    obtain ⟨e, he, hcount⟩ := bind_eq_ok_iff.1 hcount
    obtain ⟨hproper, hvalue⟩ := hworth e he
    refine ⟨rfl, (hsucc e hcount hproper).trans ?_⟩
    rw [hvalue]
    rfl
  | _ => exact absurd (Except.ok.inj hcount).symm hknown

theorem tripCount_of_maxTripCount {w : Word} (h : S.maxTripCount l = .ok (.constant w)) :
    S.tripCount l = .ok (.constant w) := by
  obtain ⟨count, hcount, h⟩ := bind_eq_ok_iff.1 h
  cases count with
  | constant v => exact hcount.trans h
  | _ => cases h

/-- A number of rounds that is known is worth the distance that the counter of the test goes. -/
theorem EndsWith.eval_tripCount {C : Context} (h : (ofContext C).EndsWith l T)
    (hcount : (ofContext C).tripCount l = .ok count) (hknown : count ≠ .indeterminate)
    (ρ : Valuation) : T.decides = true ∧ T.condition.counts = true ∧
      ρ.eval count = T.condition.distance (ρ.eval T.start) (ρ.eval T.bound) := by
  obtain ⟨hdecides, hrounds⟩ := h.known hcount hknown
  obtain ⟨cond, lhs, rhs, -, -, hcounter, hbound⟩ := h.test
  have hbound : T.bound.Everywhere C.Proper := proper_of_evolution hbound
  have hcounter := everywhere_recurrence_iff.1 (proper_of_evolution hcounter)
  exact ⟨hdecides, eval_roundsUntil hcounter.2.1 hbound hrounds hknown ρ⟩

end Scope

/-! ## The number of rounds -/

/-- Where the number of rounds of a loop is known, the loop ends with a test. From a counter that
starts at or below its bound, its value is the least number of rounds after which the test leads
out of the loop. -/
theorem tripCount_exact (m : Module) (f : Function) (l : Nat) (count : Evolution)
    (hcount : (Scope.ofFunction m f).tripCount l = .ok count) (hknown : count ≠ .indeterminate) :
    (∃ T, (Scope.ofFunction m f).EndsWith l T) ∧
    ∀ T, (Scope.ofFunction m f).EndsWith l T → ∀ ρ : Valuation,
      T.condition.Enters (ρ.eval T.start) (ρ.eval T.bound) →
      IsLeast {n : Nat | T.goesOn ρ n = false} (ρ.eval count).toNat := by
  refine ⟨Scope.exists_endsWith hcount hknown, fun T hT ρ henters => ?_⟩
  obtain ⟨hdecides, -, hvalue⟩ := hT.eval_tripCount hcount hknown ρ
  rw [hvalue]
  simpa only [LatchTest.goesOn_eq hdecides] using henters.isLeast

/-- A loop whose counter starts at `start`. The comparison at its end leads to block 1, the loop,
or to block 2 behind it. -/
def countFrom (start : Word) (pred : Predicate) (lhs rhs : Value) (onTrue onFalse : Nat) :
    Function where
  name := "count_from"
  params := #[⟨"n", .int 64⟩]
  blocks := #[⟨"entry", [0]⟩, ⟨"loop", [1, 2, 3, 4]⟩, ⟨"exit", [5]⟩]
  instructions := #[
    ⟨0, .void, none, .branch 1⟩,
    ⟨1, .int 64, some "i", .phi [(0, .int start), (1, .instruction 2)]⟩,
    ⟨1, .int 64, some "next", .binary .add (.instruction 1) (.int 1)⟩,
    ⟨1, .truth, some "test", .compare pred lhs rhs⟩,
    ⟨1, .void, none, .branchIf (.instruction 3) onTrue onFalse⟩,
    ⟨2, .void, none, .ret none⟩]

/-- The loop of `countFrom`. -/
def countLoop : Loop := ⟨1, [1], [], []⟩

/-- The evolutions of `f`, in a module of its own. -/
def Scope.alone (f : Function) : Scope := Scope.ofFunction { name := "module", functions := #[f] } f

/-- All values are ten. -/
def tens : Valuation where
  value _ := 10
  size _ := 8
  align _ := 8
  rounds _ := 0
  byZero x := x

/-- A loop that is left when the parameter is at most the next counter. -/
theorem tripCount_exact_leave_on_sle :
    let S := Scope.alone (countFrom 0 .sle (.argument 0) (.instruction 2) 2 1)
    let T : LatchTest := ⟨countLoop, .sle, 2, 1, false, .constant 1, .unknown (.argument 0)⟩
    S.EndsWith 0 T ∧ T.condition = .slt ∧
      S.tripCount 0 = .ok (.sum [.constant (-1), .unknown (.argument 0)]) ∧
      IsLeast {n : Nat | T.goesOn tens n = false} 9 := by
  intro S T
  have hends : S.EndsWith 0 T :=
    ⟨by decide +kernel, .instruction 3, .argument 0, .instruction 2, by decide +kernel,
      by decide +kernel, by decide +kernel, by decide +kernel⟩
  have hcount : S.tripCount 0 = .ok (.sum [.constant (-1), .unknown (.argument 0)]) := by
    decide +kernel
  exact ⟨hends, rfl, hcount,
    (tripCount_exact _ _ 0 _ hcount (by decide)).2 T hends tens (.slt (by decide))⟩

/-- A constant that is given as the greatest number of rounds of a loop bounds how often the loop
goes round exactly if it is not negative and the loop is left at all. -/
theorem maxTripCount_bounds_iff (m : Module) (f : Function) (l : Nat) (w : Word)
    (hmax : (Scope.ofFunction m f).maxTripCount l = .ok (.constant w)) :
    (∃ T, (Scope.ofFunction m f).EndsWith l T) ∧
    ∀ T, (Scope.ofFunction m f).EndsWith l T → ∀ ρ : Valuation,
      ((∀ n : Nat, T.GoesRound ρ n → (n : Int) ≤ w.toInt) ↔
        0 ≤ w.toInt ∧ ¬ T.condition.Endless (ρ.eval T.bound)) := by
  have hcount : (Scope.ofFunction m f).tripCount l = .ok (.constant w) :=
    Scope.tripCount_of_maxTripCount hmax
  have hknown : Evolution.constant w ≠ .indeterminate := by simp
  refine ⟨Scope.exists_endsWith hcount hknown, fun T hT ρ => ?_⟩
  obtain ⟨hdecides, hcounts, hvalue⟩ := hT.eval_tripCount hcount hknown ρ
  have hgoes := LatchTest.goesOn_eq hdecides ρ
  constructor
  · intro hbounds
    refine ⟨hbounds 0 (by simp [LatchTest.GoesRound]), fun hendless => ?_⟩
    have hround := hbounds (w.toNat + 1) fun k _ => (hgoes k).trans (hendless.holds _)
    rw [BitVec.toInt_eq_toNat_cond] at hround
    omega
  · rintro ⟨hpos, hleft⟩ n hround
    rcases T.condition.enters_or_fails_or_endless hcounts (ρ.eval T.start) (ρ.eval T.bound) with
      henters | hfails | hendless
    · -- the test leads out of the loop after `w` rounds
      have hend : T.goesOn ρ w.toNat = false := by
        rw [hgoes, ← ρ.eval_constant w, hvalue]
        exact henters.isLeast.1
      have hle := hround.le hend
      rw [BitVec.toInt_eq_toNat_cond] at hpos ⊢
      omega
    · -- the test leads out of the loop at once
      have hend : T.goesOn ρ 0 = false := by
        rw [hgoes, BitVec.add_zero, hfails]
      rw [Nat.le_zero.1 (hround.le hend)]
      exact hpos
    · exact absurd hendless hleft

/-- A loop that counts from 0 as long as the counter is at most 9. -/
theorem maxTripCount_bounds_iff_nine :
    let S := Scope.alone (countFrom 0 .sle (.instruction 1) (.int 9) 1 2)
    let T : LatchTest := ⟨countLoop, .sle, 1, 2, true, .constant 0, .constant 9⟩
    S.EndsWith 0 T ∧ S.maxTripCount 0 = .ok (.constant 10) ∧
      ∀ n : Nat, T.GoesRound tens n → n ≤ 10 := by
  intro S T
  have hends : S.EndsWith 0 T :=
    ⟨by decide +kernel, .instruction 3, .instruction 1, .int 9, by decide +kernel,
      by decide +kernel, by decide +kernel, by decide +kernel⟩
  have hmax : S.maxTripCount 0 = .ok (.constant 10) := by decide +kernel
  refine ⟨hends, hmax, fun n hround => ?_⟩
  have hiff := (maxTripCount_bounds_iff _ _ 0 10 hmax).2 T hends tens
  exact Int.ofNat_le.1 (hiff.2 ⟨by decide, by rintro (⟨-, h⟩ | ⟨h, -⟩) <;> cases h⟩ n hround)

/-- The constant can be below the number of rounds. A counter that starts above its bound leaves
the loop at once, but the constant is negative; an inclusive comparison with the greatest word
never leads out of the loop, but the constant is there. -/
theorem maxTripCount_below_rounds :
    (let S := Scope.alone (countFrom 5 .slt (.instruction 1) (.int 3) 1 2)
    let T : LatchTest := ⟨countLoop, .slt, 1, 2, true, .constant 5, .constant 3⟩
    S.EndsWith 0 T ∧ S.maxTripCount 0 = .ok (.constant (-2)) ∧
      T.goesOn tens 0 = false ∧ (-2 : Word).toInt < 0) ∧
    (let S := Scope.alone (countFrom 5 .sle (.instruction 1) (.int (Word.last true)) 1 2)
    let T : LatchTest := ⟨countLoop, .sle, 1, 2, true, .constant 5, .constant (Word.last true)⟩
    S.EndsWith 0 T ∧ S.maxTripCount 0 = .ok (.constant 9223372036854775803) ∧
      ∀ n : Nat, T.GoesRound tens n) := by
  constructor
  · exact ⟨⟨by decide +kernel, .instruction 3, .instruction 1, .int 3, by decide +kernel,
      by decide +kernel, by decide +kernel, by decide +kernel⟩,
      by decide +kernel, by decide +kernel, by decide⟩
  · refine ⟨⟨by decide +kernel, .instruction 3, .instruction 1, .int (Word.last true),
      by decide +kernel, by decide +kernel, by decide +kernel, by decide +kernel⟩,
      by decide +kernel, fun n k _ => ?_⟩
    rw [LatchTest.goesOn_eq rfl]
    exact Predicate.Endless.holds (.inl ⟨rfl, rfl⟩) _

end GridAccess
