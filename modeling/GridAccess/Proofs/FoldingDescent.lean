import GridAccess.Proofs.Folding

set_option autoImplicit false

/-!
# Folding asks for less and less

A sum is found from other sums, and a product from other products. What they ask for need not be
smaller: a sum starts again on a list that holds a recurrence it has just merged, and a product
multiplies every part of a recurrence by all other factors, each time the result of its own earlier
questions (`Context.SumAsks`, `Context.ProductAsks`).

The weight of the operands goes down all the same (`SumAsks.weights_lt`, `ProductAsks.weights_lt`):
it counts how deep recurrences are nested, a merged recurrence is no deeper than the two it comes
from together, and no result weighs more than its operands. Hence no chain of questions goes on for
ever. With it the bound on the depth drops out: sums and products are the only functions that
satisfy the equations of folding with themselves in place of the questions (`sum_eq_iff`,
`product_eq_iff`).

A fault comes from a question or from a reference to something that is not there, and questions
refer to what the operands refer to. So folding has a result if all references are good
(`sum_cases`, `product_cases`).
-/

namespace GridAccess

open Evolution

namespace Context

/-! ## Sums -/

section Sums

variable (C : Context) (add : List Evolution → Except Fault Evolution)

/-- The sum of evolutions, if `add` answers the questions for other sums. -/
def sumBy (es : List Evolution) : Except Fault Evolution :=
  if (es.flatMap terms).any isIndeterminate then .ok .indeterminate
  else
    let ops := sumTerms es
    if ops.length ≤ 1 then .ok (ofTerms ops)
    else
      match samePair? ops with
      | some (p, q) => do
        let start ← add [p.start, q.start]
        let steps ← addSteps add p.steps q.steps
        add (p.before ++ .recurrence start steps p.loop :: q.others)
      | none => do
        match ← C.absorbing? (pivots ops) with
        | some p =>
          let start ← add (p.before ++ p.start :: p.after)
          return .recurrence start p.steps p.loop
        | none => return ofTerms ops

/-- The sums that the sum of `es` asks for, if `add` answers the questions. -/
inductive SumAsks (es : List Evolution) : List Evolution → Prop
  | start {p q : Pivot} (hpair : samePair? (sumTerms es) = some (p, q)) :
      SumAsks es [p.start, q.start]
  | step {p q : Pivot} (hpair : samePair? (sumTerms es) = some (p, q)) {x : Evolution × Evolution}
      (hx : x ∈ pairSteps p.steps q.steps) : SumAsks es [x.1, x.2]
  | rest {p q : Pivot} (hpair : samePair? (sumTerms es) = some (p, q)) {start : Evolution}
      {steps : List Evolution} (hstart : add [p.start, q.start] = .ok start)
      (hsteps : addSteps add p.steps q.steps = .ok steps) :
      SumAsks es (p.before ++ .recurrence start steps p.loop :: q.others)
  | absorbed {p : Pivot} (habsorb : C.absorbing? (pivots (sumTerms es)) = .ok (some p)) :
      SumAsks es (p.before ++ p.start :: p.after)

variable {C add} {es fs : List Evolution}

theorem sumWithin_succ (depth : Nat) (es : List Evolution) :
    C.sumWithin (depth + 1) es = C.sumBy (C.sumWithin depth) es := rfl

/-- A sum depends on the answers to its questions only. -/
theorem sumBy_congr {add' : List Evolution → Except Fault Evolution}
    (h : ∀ fs, C.SumAsks add es fs → add fs = add' fs) : C.sumBy add es = C.sumBy add' es := by
  rw [sumBy, sumBy]
  by_cases hany : (es.flatMap terms).any isIndeterminate = true
  · rw [if_pos hany, if_pos hany]
  rw [if_neg hany, if_neg hany]
  dsimp only
  by_cases hfew : (sumTerms es).length ≤ 1
  · rw [if_pos hfew, if_pos hfew]
  rw [if_neg hfew, if_neg hfew]
  cases hpair : samePair? (sumTerms es) with
  | some pq =>
    -- the last question holds the answers to the others, which are the same on both sides
    refine bind_eq_bind (h _ (.start hpair)) fun start hstart => ?_
    refine bind_eq_bind (mapM_eq_mapM fun x hx => h _ (.step hpair hx)) fun steps hsteps => ?_
    exact h _ (.rest hpair hstart hsteps)
  | none =>
    refine bind_eq_bind rfl fun found hfound => ?_
    cases found with
    | none => rfl
    | some p => exact bind_eq_bind (h _ (.absorbed hfound)) fun _ _ => rfl

/-- A sum fails where looking for a recurrence that absorbs the others fails, or a question. -/
theorem sumBy_eq_error {f : Fault} (h : C.sumBy add es = .error f) :
    C.absorbing? (pivots (sumTerms es)) = .error f ∨
      ∃ fs, C.SumAsks add es fs ∧ add fs = .error f := by
  rw [sumBy] at h
  split at h
  · cases h
  dsimp only at h
  split at h
  · cases h
  split at h
  · rename_i p q hpair
    rcases bind_eq_error_iff.1 h with h | ⟨start, hstart, h⟩
    · exact Or.inr ⟨_, .start hpair, h⟩
    rcases bind_eq_error_iff.1 h with h | ⟨steps, hsteps, h⟩
    · obtain ⟨x, hx, h⟩ := exists_of_mapM_eq_error h
      exact Or.inr ⟨_, .step hpair hx, h⟩
    · exact Or.inr ⟨_, .rest hpair hstart hsteps, h⟩
  · rcases bind_eq_error_iff.1 h with h | ⟨found, hfound, h⟩
    · exact Or.inl h
    cases found with
    | none => exact absurd h pure_ne_error
    | some p =>
      rcases bind_eq_error_iff.1 h with h | ⟨start, -, h⟩
      · exact Or.inr ⟨_, .absorbed hfound, h⟩
      · exact absurd h pure_ne_error

section Answers

variable (hadd : ∀ gs e, add gs = .ok e → Sums C gs e)

include hadd

/-- What a sum asks for weighs less than its operands, if the answers come about by the rules. -/
theorem SumAsks.weights_lt (h : C.SumAsks add es fs) : weights fs < weights es := by
  cases h with
  | start hpair =>
    have hw := weights_samePair? hpair
    rw [weights_sumTerms] at hw
    simp only [weights]
    omega
  | step hpair hx =>
    have hw := weights_samePair? hpair
    rw [weights_sumTerms] at hw
    have hle := weights_pairSteps_le hx
    omega
  | rest hpair hstart hsteps =>
    obtain ⟨hlength, hall⟩ := mapM_eq_ok hsteps
    exact weights_merged_lt hpair (hadd _ _ hstart).weight_le hlength
      fun x hx => (hadd _ _ (hall x hx)).weight_le
  | absorbed habsorb =>
    have hlt := weights_absorbed_lt (mem_of_absorbing? habsorb)
    rwa [weights_sumTerms] at hlt

/-- What holds everywhere in the operands of a sum holds everywhere in what it asks for. -/
theorem SumAsks.allEverywhere {P : Evolution → Prop} (hP : Stable P) (h : C.SumAsks add es fs)
    (hes : AllEverywhere P es) : AllEverywhere P fs := by
  have hterms := allEverywhere_sumTerms hP.lasting hes
  cases h with
  | start hpair =>
    obtain ⟨-, ⟨-, hp, -⟩, -, hq, -⟩ := allEverywhere_samePair? hterms hpair
    simpa using ⟨hp, hq⟩
  | step hpair hx =>
    obtain ⟨-, ⟨-, -, hp⟩, -, -, hq⟩ := allEverywhere_samePair? hterms hpair
    exact everywhere_pairSteps hP.lasting hp hq hx
  | rest hpair hstart hsteps =>
    obtain ⟨hlength, hall⟩ := mapM_eq_ok hsteps
    exact allEverywhere_merged hP.lasting hes hpair ((hadd _ _ hstart).everywhere hP) hlength
      fun x hx => (hadd _ _ (hall x hx)).everywhere hP
  | absorbed habsorb => exact allEverywhere_absorbed hterms (mem_of_absorbing? habsorb)

end Answers

/-- A depth above the weight of the operands does not matter. -/
theorem sumWithin_eq {depth depth' : Nat} (h : weights es < depth) (h' : weights es < depth') :
    C.sumWithin depth es = C.sumWithin depth' es := by
  induction depth generalizing depth' es with
  | zero => exact absurd h (Nat.not_lt_zero _)
  | succ depth ih =>
    obtain ⟨depth', rfl⟩ := Nat.exists_eq_succ_of_ne_zero (Nat.ne_zero_of_lt h')
    rw [sumWithin_succ, sumWithin_succ]
    -- a question has one depth less than the sum, but its operands weigh less, too
    refine sumBy_congr fun fs hfs => ?_
    have hlt := hfs.weights_lt fun _ _ => sums_of_sumWithin
    exact ih (by omega) (by omega)

variable (C)

theorem sum_eq (es : List Evolution) : C.sum es = C.sumBy C.sum es := by
  rw [sum, sumWithin_succ]
  refine sumBy_congr fun fs hfs => ?_
  exact sumWithin_eq (hfs.weights_lt fun _ _ => sums_of_sumWithin) (Nat.lt_succ_self _)

theorem wellFounded_sumAsks : WellFounded fun fs es => C.SumAsks C.sum es fs :=
  Subrelation.wf (fun h => h.weights_lt fun _ _ => sums_of_sumWithin) (measure weights).wf

/-- Summing is the only function that answers its own questions. -/
theorem sum_eq_iff (add : List Evolution → Except Fault Evolution) :
    add = C.sum ↔ ∀ es, add es = C.sumBy add es := by
  refine ⟨fun h es => h ▸ C.sum_eq es, fun h => funext fun es => ?_⟩
  induction es using C.wellFounded_sumAsks.induction with
  | _ es ih =>
    rw [h es, C.sum_eq es]
    exact (sumBy_congr fun fs hfs => (ih fs hfs).symm).symm

end Sums

/-! ## Products -/

section Products

variable (C : Context) (mul : Evolution → Evolution → Except Fault Evolution)

/-- The product of two evolutions, if `mul` answers the questions for other products. -/
def productBy (a b : Evolution) : Except Fault Evolution :=
  let flat := [a, b].flatMap factors
  if flat.any isIndeterminate then .ok .indeterminate
  else if (constantsOf flat).contains 0 then .ok zero
  else
    let ops := productFactors [a, b]
    if ops.length ≤ 1 then .ok (ofFactors ops)
    else do
      match ← C.absorbing? (pivots ops) with
      | some p =>
        let start ← p.others.foldlM mul p.start
        let steps ← p.steps.mapM fun e => p.others.foldlM mul e
        return .recurrence start steps p.loop
      | none => return ofFactors ops

/-- The products that the product of two evolutions asks for, if `mul` answers the questions: a part
of the recurrence that absorbs the other factors, times those before one of them, times that
one. -/
inductive ProductAsks (x : Evolution × Evolution) : Evolution × Evolution → Prop
  | scaled {p : Pivot} (habsorb : C.absorbing? (pivots (productFactors [x.1, x.2])) = .ok (some p))
      {e : Evolution} (he : e ∈ p.start :: p.steps) {pre post : List Evolution} {f : Evolution}
      (hothers : p.others = pre ++ f :: post) {c : Evolution} (hc : pre.foldlM mul e = .ok c) :
      ProductAsks x (c, f)

variable {C mul} {a b : Evolution} {x y : Evolution × Evolution}

theorem productWithin_succ (depth : Nat) (a b : Evolution) :
    C.productWithin (depth + 1) a b = C.productBy (C.productWithin depth) a b := rfl

/-- A product depends on the answers to its questions only. -/
theorem productBy_congr {mul' : Evolution → Evolution → Except Fault Evolution}
    (h : ∀ y, C.ProductAsks mul (a, b) y → mul y.1 y.2 = mul' y.1 y.2) :
    C.productBy mul a b = C.productBy mul' a b := by
  rw [productBy, productBy]
  dsimp only
  by_cases hany : ([a, b].flatMap factors).any isIndeterminate = true
  · rw [if_pos hany, if_pos hany]
  rw [if_neg hany, if_neg hany]
  by_cases hzero : (constantsOf ([a, b].flatMap factors)).contains 0 = true
  · rw [if_pos hzero, if_pos hzero]
  rw [if_neg hzero, if_neg hzero]
  by_cases hfew : (productFactors [a, b]).length ≤ 1
  · rw [if_pos hfew, if_pos hfew]
  rw [if_neg hfew, if_neg hfew]
  refine bind_eq_bind rfl fun found hfound => ?_
  cases found with
  | none => rfl
  | some p =>
    have hscale : ∀ e ∈ p.start :: p.steps, p.others.foldlM mul e = p.others.foldlM mul' e :=
      fun e he => foldlM_eq_foldlM fun _ _ _ _ hothers hc =>
        h _ (.scaled (x := (a, b)) hfound he hothers hc)
    refine bind_eq_bind (hscale _ List.mem_cons_self) fun start _ => ?_
    refine bind_eq_bind (mapM_eq_mapM fun e he => ?_) fun _ _ => rfl
    exact hscale e (List.mem_cons_of_mem _ he)

/-- A product fails where looking for a recurrence that absorbs the other factors fails, or a
question. -/
theorem productBy_eq_error {f : Fault} (h : C.productBy mul a b = .error f) :
    C.absorbing? (pivots (productFactors [a, b])) = .error f ∨
      ∃ y, C.ProductAsks mul (a, b) y ∧ mul y.1 y.2 = .error f := by
  rw [productBy] at h
  dsimp only at h
  split at h
  · cases h
  split at h
  · cases h
  split at h
  · cases h
  rcases bind_eq_error_iff.1 h with h | ⟨found, hfound, h⟩
  · exact Or.inl h
  cases found with
  | none => exact absurd h pure_ne_error
  | some p =>
    right
    have hscale : ∀ e ∈ p.start :: p.steps, p.others.foldlM mul e = .error f →
        ∃ y, C.ProductAsks mul (a, b) y ∧ mul y.1 y.2 = .error f := by
      intro e he h
      obtain ⟨pre, g, post, c, hothers, hc, h⟩ := exists_of_foldlM_eq_error h
      exact ⟨_, .scaled (x := (a, b)) hfound he hothers hc, h⟩
    rcases bind_eq_error_iff.1 h with h | ⟨start, -, h⟩
    · exact hscale _ List.mem_cons_self h
    rcases bind_eq_error_iff.1 h with h | ⟨steps, -, h⟩
    · obtain ⟨e, he, h⟩ := exists_of_mapM_eq_error h
      exact hscale e (List.mem_cons_of_mem _ he) h
    · exact absurd h pure_ne_error

section Answers

variable (hmul : ∀ {a b e : Evolution}, mul a b = .ok e →
  ∀ {fs : List Evolution} {r : Evolution}, Multiplies C e fs r → Multiplies C a (b :: fs) r)

include hmul

/-- What a product asks for weighs less than its operands, if the answers come about by the
rules. -/
theorem ProductAsks.weights_lt (h : C.ProductAsks mul x y) :
    weights [y.1, y.2] < weights [x.1, x.2] := by
  cases h with
  | @scaled p habsorb e he pre post f hothers c hc =>
    have hw := weights_pivot (mem_of_absorbing? habsorb)
    rw [weights_productFactors, hothers, weights_append, weights] at hw
    -- the part weighs less than the recurrence, and all it is multiplied by is among the others
    have hpart : e.weight ≤ max p.start.weight (greatestWeight p.steps) := by
      rcases List.mem_cons.1 he with rfl | he
      · exact Nat.le_max_left _ _
      · exact (weight_le_greatestWeight he).trans (Nat.le_max_right _ _)
    have hle := (multiplies_of_foldlM hmul hc).weight_le
    simp only [weights] at hw ⊢
    omega

/-- What holds everywhere in the operands of a product holds everywhere in what it asks for. -/
theorem ProductAsks.allEverywhere {P : Evolution → Prop} (hP : Stable P)
    (h : C.ProductAsks mul x y) (hx : AllEverywhere P [x.1, x.2]) :
    AllEverywhere P [y.1, y.2] := by
  cases h with
  | @scaled p habsorb e he pre post f hothers c hc =>
    obtain ⟨hall, -, hstart, hsteps⟩ :=
      allEverywhere_pivot (allEverywhere_productFactors hP.lasting hx) (mem_of_absorbing? habsorb)
    rw [hothers, allEverywhere_append, allEverywhere_cons] at hall
    have hpart : e.Everywhere P := by
      rcases List.mem_cons.1 he with rfl | he
      · exact hstart
      · exact hsteps e he
    simpa using ⟨(multiplies_of_foldlM hmul hc).everywhere hP hpart hall.1, hall.2.1⟩

end Answers

/-- A depth above the weight of the operands does not matter. -/
theorem productWithin_eq {depth depth' : Nat} (h : weights [a, b] < depth)
    (h' : weights [a, b] < depth') : C.productWithin depth a b = C.productWithin depth' a b := by
  induction depth generalizing depth' a b with
  | zero => exact absurd h (Nat.not_lt_zero _)
  | succ depth ih =>
    obtain ⟨depth', rfl⟩ := Nat.exists_eq_succ_of_ne_zero (Nat.ne_zero_of_lt h')
    rw [productWithin_succ, productWithin_succ]
    refine productBy_congr fun y hy => ?_
    have hlt := hy.weights_lt multiplies_of_productWithin
    dsimp only at hlt
    exact ih (by omega) (by omega)

variable (C)

theorem product_eq (a b : Evolution) : C.product a b = C.productBy C.product a b := by
  rw [product, productWithin_succ]
  refine productBy_congr fun y hy => ?_
  exact productWithin_eq (hy.weights_lt multiplies_of_productWithin) (Nat.lt_succ_self _)

theorem wellFounded_productAsks : WellFounded fun y x => C.ProductAsks C.product x y :=
  Subrelation.wf (fun h => h.weights_lt fun he => multiplies_of_productWithin he)
    (measure fun x : Evolution × Evolution => weights [x.1, x.2]).wf

/-- Multiplying is the only function that answers its own questions. -/
theorem product_eq_iff (mul : Evolution → Evolution → Except Fault Evolution) :
    mul = C.product ↔ ∀ a b, mul a b = C.productBy mul a b := by
  refine ⟨fun h a b => h ▸ C.product_eq a b, fun h => ?_⟩
  have hpair : ∀ x : Evolution × Evolution, mul x.1 x.2 = C.product x.1 x.2 := by
    intro x
    induction x using C.wellFounded_productAsks.induction with
    | _ x ih =>
      rw [h x.1 x.2, C.product_eq x.1 x.2]
      exact (productBy_congr fun y hy => (ih y hy).symm).symm
  exact funext fun a => funext fun b => hpair (a, b)

end Products

/-! ## Folding has a result -/

section Results

variable {C : Context}

/-- The instruction and the loop that a node refers to are there. -/
def Known (C : Context) : Evolution → Prop :=
  Scoped (· < C.function.instructions.size) (· < C.forest.loops.size)

theorem stable_known (C : Context) : Stable C.Known := stable_scoped _ _

theorem fetch_eq_error {α : Type} {table : Array α} {i : Nat} {f : Fault}
    (h : fetch table i = .error f) : f = .dangling ∧ ¬ i < table.size := by
  rw [fetch] at h
  split at h
  · cases h
  · cases h
    exact ⟨rfl, by simpa using ‹table[i]? = none›⟩

theorem exists_of_allInvariant_eq_error {l : Nat} {es : List Evolution} {f : Fault}
    (h : C.allInvariant l es = .error f) : ∃ e ∈ es, C.isInvariant l e = .error f := by
  induction es with
  | nil => simp [allInvariant] at h
  | cons e es ih =>
    rw [allInvariant] at h
    split at h
    · obtain ⟨x, hx, he⟩ := ih h
      exact ⟨x, List.mem_cons_of_mem e hx, he⟩
    · exact ⟨e, List.mem_cons_self, h⟩

/-- Whether a known evolution is invariant in a loop can be told. -/
theorem isInvariant_eq_error {l : Nat} {e : Evolution} {f : Fault}
    (h : C.isInvariant l e = .error f) :
    f = .dangling ∧ ¬ (l < C.forest.loops.size ∧ e.Everywhere C.Known) := by
  induction e using induction_operands with
  | node e ih =>
    -- a fault in an operand is a fault of the node
    have hbelow : ∀ c ∈ e.operands, C.isInvariant l c = .error f →
        f = .dangling ∧ ¬ (l < C.forest.loops.size ∧ e.Everywhere C.Known) := by
      intro c hc hf
      obtain ⟨hfault, hnot⟩ := ih c hc hf
      exact ⟨hfault, fun hk => hnot ⟨hk.1, hk.2.operand hc⟩⟩
    cases e with
    | constant _ | sizeOf _ | alignOf _ | indeterminate => simp [isInvariant] at h
    | unknown v =>
      simp only [isInvariant] at h
      split at h
      · rename_i loop hloop
        cases v with
        | argument _ | constant _ => simp [Loop.isInvariant] at h
        | instruction i =>
          obtain ⟨hfault, hlt⟩ := fetch_eq_error (map_eq_error_iff.1 h)
          exact ⟨hfault, fun hk => hlt hk.2.top⟩
      · rename_i hloop
        cases h
        obtain ⟨hfault, hlt⟩ := fetch_eq_error hloop
        exact ⟨hfault, fun hk => hlt hk.1⟩
    | sum es | product es | smax es | umax es =>
      simp only [isInvariant] at h
      obtain ⟨c, hc, hf⟩ := exists_of_allInvariant_eq_error h
      exact hbelow c hc hf
    | quotient a b =>
      simp only [isInvariant] at h
      split at h
      · exact hbelow b (by simp [operands]) h
      · exact hbelow a (by simp [operands]) h
    | zext e | sext e | trunc e =>
      simp only [isInvariant] at h
      exact hbelow e (by simp [operands]) h
    | recurrence a es k =>
      simp only [isInvariant] at h
      split at h
      · cases h
      · rename_i hkl
        split at h
        · split at h
          · obtain ⟨c, hc, hf⟩ := exists_of_allInvariant_eq_error h
            exact hbelow c (List.mem_cons_of_mem a hc) hf
          · exact hbelow a List.mem_cons_self h
        · rw [LoopForest.contains, if_neg (Ne.symm hkl)] at h
          obtain ⟨hfault, hlt⟩ := fetch_eq_error (map_eq_error_iff.1 h)
          exact ⟨hfault, fun hk => hlt hk.1⟩

theorem absorbing?_eq_error {ps : List Pivot} {f : Fault} (h : C.absorbing? ps = .error f) :
    ∃ p ∈ ps, C.allInvariant p.loop p.others = .error f := by
  induction ps with
  | nil => simp [absorbing?] at h
  | cons p ps ih =>
    rw [absorbing?] at h
    split at h
    · cases h
    · obtain ⟨q, hq, hf⟩ := ih h
      exact ⟨q, List.mem_cons_of_mem p hq, hf⟩
    · cases h
      exact ⟨p, List.mem_cons_self, ‹_›⟩

/-- Looking for a recurrence that absorbs known operands does not fail. -/
theorem absorbing?_pivots_eq_error {es : List Evolution} {f : Fault}
    (h : C.absorbing? (pivots es) = .error f) :
    f = .dangling ∧ ¬ AllEverywhere C.Known es := by
  obtain ⟨p, hp, hf⟩ := absorbing?_eq_error h
  obtain ⟨e, he, hf⟩ := exists_of_allInvariant_eq_error hf
  obtain ⟨hfault, hnot⟩ := isInvariant_eq_error hf
  refine ⟨hfault, fun hk => ?_⟩
  obtain ⟨hothers, hrec, -, -⟩ := allEverywhere_pivot hk hp
  exact hnot ⟨hrec, hothers e he⟩

/-- A sum fails only if an operand refers to something that is not there. -/
theorem sum_eq_error {es : List Evolution} {f : Fault} (h : C.sum es = .error f) :
    f = .dangling ∧ ¬ AllEverywhere C.Known es := by
  induction es using C.wellFounded_sumAsks.induction with
  | _ es ih =>
    rw [sum_eq] at h
    rcases sumBy_eq_error h with h | ⟨fs, hfs, h⟩
    · obtain ⟨hfault, hnot⟩ := absorbing?_pivots_eq_error h
      exact ⟨hfault, fun hk => hnot (allEverywhere_sumTerms C.stable_known.lasting hk)⟩
    · obtain ⟨hfault, hnot⟩ := ih fs hfs h
      exact ⟨hfault, fun hk =>
        hnot (hfs.allEverywhere (fun _ _ => sums_of_sumWithin) C.stable_known hk)⟩

/-- A product fails only if an operand refers to something that is not there. -/
theorem product_eq_error (x : Evolution × Evolution) {f : Fault}
    (h : C.product x.1 x.2 = .error f) :
    f = .dangling ∧ ¬ AllEverywhere C.Known [x.1, x.2] := by
  induction x using C.wellFounded_productAsks.induction with
  | _ x ih =>
    rw [product_eq] at h
    rcases productBy_eq_error h with h | ⟨y, hy, h⟩
    · obtain ⟨hfault, hnot⟩ := absorbing?_pivots_eq_error h
      exact ⟨hfault, fun hk => hnot (allEverywhere_productFactors C.stable_known.lasting hk)⟩
    · obtain ⟨hfault, hnot⟩ := ih y hy h
      exact ⟨hfault, fun hk =>
        hnot (hy.allEverywhere (fun he => multiplies_of_productWithin he) C.stable_known hk)⟩

end Results

/-- The sum of evolutions: it comes about by the rules, or an evolution refers to something that
is not there. -/
theorem sum_cases (C : Context) (es : List Evolution) :
    (∃ e, C.sum es = .ok e ∧ Sums C es e) ∨
      (C.sum es = .error .dangling ∧ ¬ AllEverywhere C.Known es) := by
  cases h : C.sum es with
  | ok e => exact Or.inl ⟨e, rfl, sums_of_sumWithin h⟩
  | error f =>
    obtain ⟨rfl, hnot⟩ := sum_eq_error h
    exact Or.inr ⟨rfl, hnot⟩

/-- The product of two evolutions: it comes about by the rules, or one of them refers to something
that is not there. -/
theorem product_cases (C : Context) (a b : Evolution) :
    (∃ e, C.product a b = .ok e ∧ Multiplies C a [b] e) ∨
      (C.product a b = .error .dangling ∧ ¬ AllEverywhere C.Known [a, b]) := by
  cases h : C.product a b with
  | ok e => exact Or.inl ⟨e, rfl, multiplies_of_productWithin h (.done e)⟩
  | error f =>
    obtain ⟨rfl, hnot⟩ := product_eq_error (a, b) h
    exact Or.inr ⟨rfl, hnot⟩

/-- Sums and products of any evolutions, over any loops, come to an end. No chain of questions goes
on for ever, whatever the questions are about; the answers are the only ones that fit together, so
that nothing but the equations of folding decides them; and there is an answer unless an operand
refers to a loop or an instruction that is not there. -/
theorem folding_terminates (C : Context) :
    (WellFounded (fun fs es => C.SumAsks C.sum es fs) ∧
      (∀ add, add = C.sum ↔ ∀ es, add es = C.sumBy add es) ∧
      ∀ es, (∃ e, C.sum es = .ok e) ∨
        C.sum es = .error .dangling ∧ ¬ AllEverywhere C.Known es) ∧
    WellFounded (fun y x => C.ProductAsks C.product x y) ∧
    (∀ mul, mul = C.product ↔ ∀ a b, mul a b = C.productBy mul a b) ∧
    ∀ a b, (∃ e, C.product a b = .ok e) ∨
      C.product a b = .error .dangling ∧ ¬ AllEverywhere C.Known [a, b] := by
  refine ⟨⟨C.wellFounded_sumAsks, C.sum_eq_iff, fun es => ?_⟩, C.wellFounded_productAsks,
    C.product_eq_iff, fun a b => ?_⟩
  · exact (C.sum_cases es).imp_left fun ⟨e, he, _⟩ => ⟨e, he⟩
  · exact (C.product_cases a b).imp_left fun ⟨e, he, _⟩ => ⟨e, he⟩

end Context

/-- A context with a loop and a loop around it. -/
def nest : Context where
  module := { name := "nest" }
  function := { name := "nest", params := #[⟨"n", .word⟩] }
  cfg := Cfg.ofTargets 0 fun _ => []
  forest := ⟨#[⟨2, [2], [1], []⟩, ⟨1, [1, 2], [], [0]⟩]⟩

/-- A recurrence of the inner loop times one of the outer loop asks for twice the other one, which
asks for twice its start. -/
theorem folding_terminates_nest :
    let n : Evolution := .unknown (.argument 0)
    let inner : Evolution := .recurrence (.constant 1) [.constant 2] 0
    let outer : Evolution := .recurrence n [.constant 3] 1
    nest.ProductAsks nest.product (inner, outer) (.constant 2, outer) ∧
    nest.ProductAsks nest.product (.constant 2, outer) (n, .constant 2) ∧
    Acc (fun y x => nest.ProductAsks nest.product x y) (inner, outer) ∧
    nest.product inner outer = .ok (.recurrence outer
      [.recurrence (.product [.constant 2, n]) [.constant 6] 1] 0) := by
  intro n inner outer
  refine ⟨?_, ?_, nest.folding_terminates.2.1.apply (inner, outer), by decide +kernel⟩
  · let p : Pivot := ⟨[], .constant 1, [.constant 2], 0, [outer]⟩
    have habsorb : nest.absorbing? (pivots (productFactors [inner, outer])) = .ok (some p) := rfl
    have hothers : p.others = [] ++ outer :: [] := rfl
    have hpart : .constant 2 ∈ p.start :: p.steps := List.mem_cons_of_mem _ List.mem_cons_self
    exact .scaled (x := (inner, outer)) habsorb hpart hothers rfl
  · let p : Pivot := ⟨[.constant 2], n, [.constant 3], 1, []⟩
    have habsorb : nest.absorbing? (pivots (productFactors [.constant 2, outer])) =
        .ok (some p) := rfl
    have hothers : p.others = [] ++ .constant 2 :: [] := rfl
    have hpart : n ∈ p.start :: p.steps := List.mem_cons_self
    exact .scaled (x := (.constant 2, outer)) habsorb hpart hothers rfl

end GridAccess
