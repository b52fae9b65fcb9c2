import GridAccess.Proofs.Mirroring
import GridAccess.Proofs.RelatedFormulas

set_option autoImplicit false

/-!
# Bounds of loops with mirrored comparisons

The formula of an evolution depends on how a comparison is written only if it reveals the
comparison: it writes the comparison out, or it takes the right side of the comparison for the
bound of a loop whose rounds are not known (`Writer.Reveals`). All other formulas are the same for
both ways to write it (`Writer.ofEvolution_mirror`).

So the bound of a loop that ends on the comparison is the same for both ways if the number of
rounds of the loop is known. Otherwise the bound is the right side of the comparison as it is
written, and the two formulas agree exactly if those of the two sides do
(`recurrence_formula_mirror`). The two sides of a comparison have different formulas in general
(`mirrored_bound_differs`).
-/

namespace GridAccess

/-! ## Formulas of values -/

theorem Module.resembles_mirror (m : Module) (index i : Nat) : m.Resembles (m.mirror index i) where
  globals := rfl
  constantExprs := rfl
  layout := rfl
  declared := by
    refine Array.ext_getElem? fun j => ?_
    rw [Array.getElem?_map, Array.getElem?_map, mirror, getElem?_modify, Option.map_map]
    congr 1
    funext f
    show (if index = j then f.mirror i else f).declared = f.declared
    split <;> rfl

namespace Writer

variable {W : Writer} {inPhi : Bool} {i : Nat} (index : Nat)

/-- The writer for the mirrored function. -/
def mirror (W : Writer) (index i : Nat) : Writer :=
  { W with module := W.module.mirror index i, function := W.function.mirror i }

theorem alike_mirror : Alike Eq W (W.mirror index i) where
  params := rfl
  valueName := W.function.valueName_mirror i
  size := Array.size_modify
  builtins := rfl
  module := W.module.resembles_mirror index i
  marks _ := rfl

/-- A formula that does not write instruction `i` out is the same. -/
theorem ofValue_mirror {v : Value}
    (hnot : ∀ inPhi', ¬ Relation.ReflTransGen W.Opens (v, inPhi) (.instruction i, inPhi')) :
    (W.mirror index i).ofValue v inPhi = W.ofValue v inPhi := by
  have halike : Alike Eq W (W.mirror index i) := alike_mirror index
  refine (Alike.ofValue additive_eq halike ?_).eq.symm
  intro j inPhi' hwalk
  have hij : i ≠ j := by
    rintro rfl
    exact hnot inPhi' hwalk
  refine (W.function.instruction_mirror i j).trans ?_
  simp only [hij, if_false, id_map']

/-! ## Formulas of evolutions -/

/-- The formula of an evolution shows how the comparison of instruction `i` is written: the
comparison is written out in it, or the bound of a loop in it is the right side of the
comparison. -/
inductive Reveals (W : Writer) (S : Scope) (inPhi : Bool) (i : Nat) : Evolution → Prop
  | value {v : Value} {inPhi' : Bool}
      (h : Relation.ReflTransGen W.Opens (v, inPhi) (.instruction i, inPhi')) :
      Reveals W S inPhi i (.unknown v)
  | operand {e e' : Evolution} (he : e' ∈ e.operands) (h : Reveals W S inPhi i e') :
      Reveals W S inPhi i e
  | rounds {start count : Evolution} {steps : List Evolution} {l : Nat} {head : LoopHead}
      (hhead : S.loopHead l = .ok head) (hcount : head.rounds = some count)
      (h : Reveals W S inPhi i count) : Reveals W S inPhi i (.recurrence start steps l)
  | side {start : Evolution} {steps : List Evolution} {l onTrue onFalse : Nat} {head : LoopHead}
      (hhead : S.loopHead l = .ok head) (hcount : head.rounds = none)
      (hbranch : S.latchBranch? head.loop = some (.branchIf (.instruction i) onTrue onFalse)) :
      Reveals W S inPhi i (.recurrence start steps l)
  | exit {start : Evolution} {steps : List Evolution} {l onTrue onFalse : Nat} {head : LoopHead}
      {cond : Value} {c : Context.Comparison} {inPhi' : Bool} (hhead : S.loopHead l = .ok head)
      (hcount : head.rounds = none)
      (hbranch : S.latchBranch? head.loop = some (.branchIf cond onTrue onFalse))
      (hcomparison : S.comparison? cond = .ok (some c))
      (h : Relation.ReflTransGen W.Opens (c.rhs, inPhi) (.instruction i, inPhi')) :
      Reveals W S inPhi i (.recurrence start steps l)

variable {S : Scope} {bound bound' : LoopHead → Marked String}

/-- The bounds of loops in formulas that do not reveal the comparison are the same. -/
def BoundsAgree (W : Writer) (S : Scope) (inPhi : Bool) (i : Nat)
    (bound bound' : LoopHead → Marked String) : Prop :=
  ∀ start steps l head, S.loopHead l = .ok head →
    ¬ W.Reveals S inPhi i (.recurrence start steps l) → bound' head = bound head

/-- What occurs in an evolution that does not reveal the comparison is written in the same way. -/
theorem occurs_of_not_reveals (hbound : W.BoundsAgree S inPhi i bound bound') (e : Evolution) :
    ¬ W.Reveals S inPhi i e →
      e.Everywhere (Occurs Eq W (W.mirror index i) S.loopHead bound bound' inPhi) := by
  induction e using Evolution.induction_operands with
  | node e ih =>
    intro hnot
    refine .node ?_ fun c hc => ih c hc fun h => hnot (.operand hc h)
    cases e with
    | unknown v => exact .of_eq (ofValue_mirror index fun _ hwalk => hnot (.value hwalk)).symm
    | recurrence start steps l =>
      intro head hhead
      exact .of_eq (hbound start steps l head hhead hnot).symm
    | _ => trivial

theorem ofEvolutionWith_mirror (hbound : W.BoundsAgree S inPhi i bound bound') {e : Evolution}
    (hnot : ¬ W.Reveals S inPhi i e) :
    (W.mirror index i).ofEvolutionWith S.loopHead bound' inPhi e =
      W.ofEvolutionWith S.loopHead bound inPhi e :=
  (ofEvolutionWith_related additive_eq (occurs_of_not_reveals index hbound e hnot)).eq.symm

/-- The right side of a comparison that is not mirrored is the same. -/
theorem latchBound_mirror {l : Loop}
    (hcond : ∀ onTrue onFalse, S.latchBranch? l ≠ some (.branchIf (.instruction i) onTrue onFalse))
    (hside : ∀ cond onTrue onFalse c inPhi',
      S.latchBranch? l = some (.branchIf cond onTrue onFalse) → S.comparison? cond = .ok (some c) →
        ¬ Relation.ReflTransGen W.Opens (c.rhs, inPhi) (.instruction i, inPhi')) :
    (W.mirror index i).latchBound (S.mirror index i) inPhi l = W.latchBound S inPhi l := by
  have hbranch : (S.mirror index i).latchBranch? l = S.latchBranch? l :=
    Context.latchBranch?_mirror index l
  have hcfg : (S.mirror index i).cfg = S.cfg := rfl
  rw [latchBound, latchBound, hbranch, hcfg]
  cases l.latch? S.cfg with
  | none => rfl
  | some latch =>
    cases hop : S.latchBranch? l with
    | none => rfl
    | some op =>
      cases op with
      | branchIf cond onTrue onFalse =>
        have hne : cond ≠ .instruction i := by
          rintro rfl
          exact hcond onTrue onFalse hop
        have hcomparison : (S.mirror index i).comparison? cond = S.comparison? cond := by
          refine (S.toContext.comparison?_mirror index i cond).trans ?_
          simp only [hne, if_false, id_map']
        dsimp only
        rw [hcomparison]
        cases hc : S.comparison? cond with
        | error e => rw [Marked.lift_error_bind, Marked.lift_error_bind]
        | ok o =>
          rw [Marked.lift_ok_bind, Marked.lift_ok_bind]
          cases o with
          | none => rfl
          | some c => exact ofValue_mirror index fun inPhi' => hside _ _ _ c inPhi' hop hc
      | _ => rfl

section Heads

variable (hheads : (S.mirror index i).loopHead = S.loopHead)

include hheads

theorem boundWithin_mirror (depth : Nat) :
    W.BoundsAgree S inPhi i (W.boundWithin S inPhi depth)
      ((W.mirror index i).boundWithin (S.mirror index i) inPhi depth) := by
  induction depth with
  | zero => exact fun _ _ _ _ _ _ => rfl
  | succ depth ih =>
    intro start steps l head hhead hnot
    rw [boundWithin, boundWithin, hheads]
    cases hcount : head.rounds with
    | some count =>
      exact ofEvolutionWith_mirror index ih fun h => hnot (.rounds hhead hcount h)
    | none =>
      apply latchBound_mirror index
      · intro onTrue onFalse hbranch
        exact hnot (.side hhead hcount hbranch)
      · intro cond onTrue onFalse c inPhi' hbranch hc hwalk
        exact hnot (.exit hhead hcount hbranch hc hwalk)

/-- A formula that does not reveal the comparison does not depend on how it is written. -/
theorem ofEvolution_mirror {e : Evolution} (hnot : ¬ W.Reveals S inPhi i e) :
    (W.mirror index i).ofEvolution (S.mirror index i) e inPhi = W.ofEvolution S e inPhi := by
  rw [ofEvolution, ofEvolution, hheads]
  exact ofEvolutionWith_mirror index (boundWithin_mirror index hheads _) hnot

end Heads

/-! ## The bound of one loop -/

variable {l : Nat} {head : LoopHead}

theorem loop_of_loopHead (h : S.loopHead l = .ok head) : S.forest.loop l = .ok head.loop := by
  obtain ⟨loop, hloop, h⟩ := bind_eq_ok_iff.1 h
  obtain ⟨known, -, h⟩ := bind_eq_ok_iff.1 h
  cases known with
  | true =>
    obtain ⟨count, -, h⟩ := bind_eq_ok_iff.1 h
    obtain rfl := pure_eq_ok_iff.1 h
    exact hloop
  | false =>
    obtain rfl := pure_eq_ok_iff.1 h
    exact hloop

/-- The formula of a recurrence of a loop whose rounds are not known: the bound is the right side
of the comparison that ends the loop. -/
theorem ofEvolution_of_rounds_none (hhead : S.loopHead l = .ok head) (hcount : head.rounds = none)
    {cond : Value} {onTrue onFalse : Nat} {c : Context.Comparison}
    (hbranch : S.latchBranch? head.loop = some (.branchIf cond onTrue onFalse))
    (hc : S.comparison? cond = .ok (some c)) (start step : Word) :
    W.ofEvolution S (.recurrence (.constant start) [.constant step] l) inPhi =
      (recurrenceText head.loop.depth start.text · step.text) <$> W.ofValue c.rhs inPhi := by
  have hlatch : ∃ b, head.loop.latch? S.cfg = some b := by
    obtain ⟨b, hb, -⟩ := Option.bind_eq_some_iff.1 hbranch
    exact ⟨b, hb⟩
  obtain ⟨b, hb⟩ := hlatch
  have hbound : W.boundWithin S inPhi (S.forest.loops.size + 1) head = W.ofValue c.rhs inPhi := by
    rw [boundWithin, hcount]
    dsimp only
    rw [latchBound, hb, hbranch]
    dsimp only
    rw [hc, Marked.lift_ok_bind]
  rw [ofEvolution, ofEvolutionWith, hhead, Marked.lift_ok_bind, hbound, ofEvolutionWith,
    ofStepsWith, ofEvolutionWith]
  simp only [pure_bind, map_eq_pure_bind]

end Writer

theorem Marked.map_inj {α β : Type} {g : α → β} (hg : Function.Injective g) {x y : Marked α} :
    g <$> x = g <$> y ↔ x = y := by
  obtain ⟨rx, ax⟩ := x
  obtain ⟨ry, ay⟩ := y
  cases rx <;> cases ry <;> simp [Functor.map, Marked.bind, Marked.pure, hg.eq_iff]

theorem Writer.recurrenceText_injective (depth : Nat) (start step : String) :
    Function.Injective (recurrenceText depth start · step) := by
  intro s t h
  simp only [recurrenceText] at h
  simpa using h

theorem Context.comparison?_of_compare {C : Context} {i : Nat} {inst : Instruction}
    {pred : Predicate} {a b : Value} (hinst : C.function.instructions[i]? = some inst)
    (hop : inst.operation = .compare pred a b) :
    C.comparison? (.instruction i) = .ok (some ⟨pred, a, b⟩) := by
  have hdefinition : C.function.definition (.instruction i) = .ok (some inst) := by
    rw [Function.definition, Function.instruction, fetch_eq_ok_iff.2 hinst, map_ok]
  rw [comparison?, hdefinition]
  dsimp only
  rw [hop]

/-- If the rounds of a loop are known and the loop ends on a comparison, both sides of it have
evolutions. -/
theorem Scope.sided_of_loopHead {S : Scope} {l i onTrue onFalse : Nat} {head : LoopHead}
    {count : Evolution} {c : Context.Comparison} (hhead : S.loopHead l = .ok head)
    (hcount : head.rounds = some count)
    (hbranch : S.latchBranch? head.loop = some (.branchIf (.instruction i) onTrue onFalse))
    (hc : S.comparison? (.instruction i) = .ok (some c)) : S.Sided c := by
  have hloop := Writer.loop_of_loopHead hhead
  obtain ⟨loop, _, h⟩ := bind_eq_ok_iff.1 hhead
  obtain ⟨known, hknown, h⟩ := bind_eq_ok_iff.1 h
  obtain ⟨trips, htrips, hknown⟩ := bind_eq_ok_iff.1 hknown
  rw [tripCount_eq hloop, bind_eq_ok_iff] at htrips
  obtain ⟨o, ho, htrips⟩ := htrips
  cases o with
  | none =>
    -- without a comparison on which the loop goes on the rounds are not known
    obtain rfl := pure_eq_ok_iff.1 htrips
    obtain rfl := pure_eq_ok_iff.1 hknown
    obtain rfl := pure_eq_ok_iff.1 h
    cases hcount
  | some c' =>
    obtain ⟨x, y, hx, hy⟩ := sided_of_roundsBy htrips
    obtain ⟨c'', hc'', hlhs, hrhs⟩ := Context.sides_of_continuation? hbranch ho
    cases hc.symm.trans hc''
    exact ⟨x, y, hlhs ▸ hx, hrhs ▸ hy⟩

/-- A recurrence with a constant start and step reveals what the number of rounds of its loop
reveals. -/
theorem Writer.Reveals.of_recurrence {W : Writer} {S : Scope} {inPhi : Bool} {i l : Nat}
    {head : LoopHead} {count : Evolution} {start step : Word} (hhead : S.loopHead l = .ok head)
    (hcount : head.rounds = some count)
    (h : W.Reveals S inPhi i (.recurrence (.constant start) [.constant step] l)) :
    W.Reveals S inPhi i count := by
  have hconstant : ∀ w, ¬ W.Reveals S inPhi i (.constant w) := by
    intro w h
    cases h with
    | operand he => cases he
  cases h with
  | operand he h =>
    simp only [Evolution.operands, List.mem_cons, List.not_mem_nil, or_false] at he
    rcases he with rfl | rfl
    · exact absurd h (hconstant start)
    · exact absurd h (hconstant step)
  | rounds hhead' hcount' h =>
    cases hhead.symm.trans hhead'
    cases hcount.symm.trans hcount'
    exact h
  | side hhead' hcount' | exit hhead' hcount' =>
    cases hhead.symm.trans hhead'
    cases hcount.symm.trans hcount'

/-- The recurrence `start, start + step, …` of a loop that ends on a comparison, in a function and
in the function that has the comparison mirrored. Loops, evolutions and the number of rounds of
the loop, if it is known, are the same in both. If it is known, the formula of the recurrence is
the same in both, unless that of the number of rounds itself reveals the comparison. If it is not
known, the formula has the right side of the comparison for a bound as it is written, so the two
formulas agree exactly if those of the two sides do. -/
theorem recurrence_formula_mirror (m : Module) (index : Nat) (f : Function) (i : Nat)
    (inst : Instruction) (pred : Predicate) (a b : Value) (l : Nat) (loop : Loop)
    (onTrue onFalse : Nat) (hinst : f.instructions[i]? = some inst)
    (hop : inst.operation = .compare pred a b) (hab : a ≠ b)
    (hloop : (Scope.ofFunction m f).forest.loops[l]? = some loop)
    (hlatch : (Scope.ofFunction m f).latchBranch? loop =
      some (.branchIf (.instruction i) onTrue onFalse))
    (builtins : Builtins) (policy : MarkPolicy) (inPhi : Bool) (start step : Word) :
    let S := Scope.ofFunction m f
    let S' := Scope.ofFunction (m.mirror index i) (f.mirror i)
    let W := Writer.ofScope S builtins policy
    let W' := Writer.ofScope S' builtins policy
    let e := Evolution.recurrence (.constant start) [.constant step] l
    (S'.forest = S.forest ∧ S'.evolutions = S.evolutions ∧
      ∀ head, S'.loopHead l = .ok head ↔ S.loopHead l = .ok head) ∧
    (∀ head count, S.loopHead l = .ok head → head.rounds = some count →
      ¬ W.Reveals S inPhi i count → W'.ofEvolution S' e inPhi = W.ofEvolution S e inPhi) ∧
    ∀ head, S.loopHead l = .ok head → head.rounds = none →
      W.ofEvolution S e inPhi =
        (Writer.recurrenceText loop.depth start.text · step.text) <$> W.ofValue b inPhi ∧
      W'.ofEvolution S' e inPhi =
        (Writer.recurrenceText loop.depth start.text · step.text) <$> W'.ofValue a inPhi ∧
      (W'.ofEvolution S' e inPhi = W.ofEvolution S e inPhi ↔
        W'.ofValue a inPhi = W.ofValue b inPhi) := by
  intro S S' W W' e
  have hc : S.comparison? (.instruction i) = .ok (some ⟨pred, a, b⟩) :=
    Context.comparison?_of_compare hinst hop
  have hsides : (Context.ofFunction m f).DistinctSides i := by
    intro c hc'
    cases hc.symm.trans hc'
    exact hab
  have hS : S' = S.mirror index i := Scope.ofFunction_mirror index hsides
  have hW : W' = W.mirror index i := by
    show Writer.ofScope S' builtins policy = _
    rw [hS]
    rfl
  have hloopOf : ∀ head, S.loopHead l = .ok head → head.loop = loop := by
    intro head hhead
    have hfetch := fetch_eq_ok_iff.1 (Writer.loop_of_loopHead hhead)
    exact Option.some.inj (hfetch.symm.trans hloop)
  clear_value S' W'
  subst hS hW
  refine ⟨⟨rfl, rfl, fun head => Scope.loopHead_mirror_iff index⟩, ?_, ?_⟩
  · intro head count hhead hcount hnot
    obtain rfl := hloopOf head hhead
    have hsided := Scope.sided_of_loopHead hhead hcount hlatch hc
    have hheads : (S.mirror index i).loopHead = S.loopHead := by
      apply Scope.loopHead_mirror index
      intro c hc'
      cases hc.symm.trans hc'
      exact hsided
    apply Writer.ofEvolution_mirror index hheads
    intro h
    exact hnot (h.of_recurrence hhead hcount)
  · intro head hhead hcount
    obtain rfl := hloopOf head hhead
    have hright : W.ofEvolution S e inPhi = _ :=
      Writer.ofEvolution_of_rounds_none hhead hcount hlatch hc start step
    have hbranch : (S.mirror index i).latchBranch? head.loop = _ :=
      (Context.latchBranch?_mirror index head.loop).trans hlatch
    have hmirrored : (S.mirror index i).comparison? (.instruction i) =
        .ok (some ⟨pred.swapped, b, a⟩) := by
      refine (S.toContext.comparison?_mirror index i (.instruction i)).trans ?_
      rw [hc, map_ok, if_pos rfl]
      rfl
    have hleft : (W.mirror index i).ofEvolution (S.mirror index i) e inPhi = _ :=
      Writer.ofEvolution_of_rounds_none ((Scope.loopHead_mirror_iff index).2 hhead) hcount hbranch
        hmirrored start step
    refine ⟨hright, hleft, ?_⟩
    rw [hright, hleft, Marked.map_inj (Writer.recurrenceText_injective _ _ _)]

/-- A loop that counts up from 0 in steps of one as long as the counter and `n` compare. -/
def countUp (pred : Predicate) : Function where
  name := "count_up"
  params := #[⟨"n", .int 32⟩]
  blocks := #[⟨"entry", [0]⟩, ⟨"loop", [1, 2, 3, 4]⟩, ⟨"exit", [5]⟩]
  instructions := #[
    ⟨0, .void, none, .branch 1⟩,
    ⟨1, .int 32, some "i", .phi [(0, .int 0), (1, .instruction 2)]⟩,
    ⟨1, .int 32, some "next", .binary .add (.instruction 1) (.int 1)⟩,
    ⟨1, .truth, some "more", .compare pred (.instruction 2) (.argument 0)⟩,
    ⟨1, .void, none, .branchIf (.instruction 3) 1 2⟩,
    ⟨2, .void, none, .ret none⟩]

/-- The module of that function. -/
def countModule (pred : Predicate) : Module := { name := "module", functions := #[countUp pred] }

/-- The formula of the recurrence of a counter of loop 0. -/
def counterFormula (m : Module) (f : Function) : Marked String :=
  let S := Scope.ofFunction m f
  (Writer.ofScope S {} .blockIndex).ofEvolution S
    (.recurrence (.constant 0) [.constant 1] 0) false

theorem recurrence_formula_mirror_countUp :
    (countUp .slt).instructions[3]?.map (·.operation) =
      some (.compare .slt (.instruction 2) (.argument 0)) ∧
    ((countUp .slt).mirror 3).instructions[3]?.map (·.operation) =
      some (.compare .sgt (.argument 0) (.instruction 2)) ∧
    counterFormula ((countModule .slt).mirror 0 3) ((countUp .slt).mirror 3) =
      counterFormula (countModule .slt) (countUp .slt) := by
  refine ⟨rfl, rfl, ?_⟩
  let S := Scope.ofFunction (countModule .slt) (countUp .slt)
  have hloop : S.forest.loop 0 = .ok ⟨1, [1], [], []⟩ := by decide +kernel
  have hknown : S.hasInvariantTripCount 0 = .ok true := by decide +kernel
  have hcount : S.tripCount 0 = .ok (.sum [.constant (-1), .unknown (.argument 0)]) := by
    decide +kernel
  have hhead : S.loopHead 0 =
      .ok ⟨⟨1, [1], [], []⟩, some (.sum [.constant (-1), .unknown (.argument 0)])⟩ := by
    rw [Scope.loopHead, hloop, ok_bind, hknown, ok_bind, if_pos rfl, hcount, ok_bind]
    rfl
  obtain ⟨-, hequal, -⟩ := recurrence_formula_mirror (countModule .slt) 0 (countUp .slt) 3 _ .slt
    (.instruction 2) (.argument 0) 0 ⟨1, [1], [], []⟩ 1 2 rfl rfl (by decide) (by decide +kernel)
    (by decide +kernel) {} .blockIndex false 0 1
  refine hequal _ _ hhead rfl ?_
  -- the number of rounds shows the parameter alone
  intro h
  cases h with
  | operand he h =>
    simp only [Evolution.operands, List.mem_cons, List.not_mem_nil, or_false] at he
    rcases he with rfl | rfl
    · cases h with
      | operand he => cases he
    · cases h with
      | operand he => cases he
      | value hwalk =>
        rcases hwalk.cases_head with heq | ⟨y, hstep, -⟩
        · cases heq
        · cases hstep

/-- Where the rounds of a loop are not known, the bound of the loop depends on how the comparison
at its end is written, even if only one side of it is invariant in the loop. -/
theorem mirrored_bound_differs :
    let l : Loop := ⟨1, [1], [], []⟩
    (Scope.ofFunction (countModule .sgt) (countUp .sgt)).forest.loops[0]? = some l ∧
    (Scope.ofFunction (countModule .sgt) (countUp .sgt)).latchBranch? l =
      some (.branchIf (.instruction 3) 1 2) ∧
    l.isInvariant (countUp .sgt) (.instruction 2) = .ok false ∧
    l.isInvariant (countUp .sgt) (.argument 0) = .ok true ∧
    (counterFormula (countModule .sgt) (countUp .sgt)).result =
      .ok "\x7b1\x7d<0 : #PARAM:n , 1>" ∧
    (counterFormula ((countModule .sgt).mirror 0 3) ((countUp .sgt).mirror 3)).result =
      .ok "\x7b1\x7d<0 : ((0 | (#PHIRECURSION + 1)) + 1) , 1>" := by
  decide +kernel

end GridAccess
