import GridAccess.Evolution.Fold
import GridAccess.Proofs.Valuation

set_option autoImplicit false

/-!
# Bringing operands together

Sums and products bring their operands into one list in the same way: nested operands dissolved,
the constants combined into one, the others sorted (`gather`). The list holds nothing but the
operands and one constant, weighs as much as they do, and combines to the same word
(`mem_gather`, `weights_gather`, `foldr_gather`).

A recurrence among operands is a place where the list can be cut (`eq_of_mem_pivots`,
`eq_of_samePair?`).
-/

namespace GridAccess

namespace Evolution

/-! ## Weights -/

theorem weights_append (as bs : List Evolution) : weights (as ++ bs) = weights as + weights bs := by
  induction as with
  | nil => simp [weights]
  | cons a as ih =>
    rw [List.cons_append, weights, weights, ih]
    omega

theorem weights_perm {as bs : List Evolution} (h : as.Perm bs) : weights as = weights bs := by
  induction h with
  | nil => rfl
  | cons _ _ ih => rw [weights, weights, ih]
  | swap _ _ _ =>
    simp only [weights]
    omega
  | trans _ _ ih₁ ih₂ => exact ih₁.trans ih₂

theorem weight_le_greatestWeight {e : Evolution} {es : List Evolution} (h : e ∈ es) :
    e.weight ≤ greatestWeight es := by
  induction es with
  | nil => cases h
  | cons f es ih =>
    rw [greatestWeight]
    rcases List.mem_cons.1 h with rfl | h
    · exact Nat.le_max_left _ _
    · exact (ih h).trans (Nat.le_max_right _ _)

theorem greatestWeight_le {es : List Evolution} {n : Nat} (h : ∀ e ∈ es, e.weight ≤ n) :
    greatestWeight es ≤ n := by
  induction es with
  | nil => exact Nat.zero_le n
  | cons e es ih =>
    rw [greatestWeight]
    exact Nat.max_le.2 ⟨h e List.mem_cons_self, ih fun f hf => h f (List.mem_cons_of_mem e hf)⟩

@[simp] theorem weight_constant (w : Word) : (constant w).weight = 0 := by simp [weight]

@[simp] theorem weight_zero : zero.weight = 0 := weight_constant 0

@[simp] theorem weight_indeterminate : indeterminate.weight = 0 := by simp [weight]

@[simp] theorem weight_recurrence (a : Evolution) (es : List Evolution) (l : Nat) :
    (recurrence a es l).weight = max a.weight (greatestWeight es) + 1 := by rw [weight]

/-! ## Sorting -/

theorem perm_insertByRank (e : Evolution) (es : List Evolution) :
    (insertByRank e es).Perm (e :: es) := by
  induction es with
  | nil => exact List.Perm.refl _
  | cons f fs ih =>
    rw [insertByRank]
    split
    · exact List.Perm.refl _
    · exact (ih.cons f).trans (List.Perm.swap e f fs)

theorem perm_sortByRank (es : List Evolution) : (sortByRank es).Perm es := by
  induction es with
  | nil => exact List.Perm.refl _
  | cons e es ih => exact (perm_insertByRank e (sortByRank es)).trans (ih.cons e)

/-! ## Gathering -/

/-- The operands of a construction in one list: what `split` makes of them, with the constants
combined by `op` in front unless that gives `unit`. -/
def gather (split : Evolution → List Evolution) (op : Word → Word → Word) (unit : Word)
    (es : List Evolution) : List Evolution :=
  let ops := es.flatMap split
  let total := (constantsOf ops).foldl op unit
  let others := sortByRank (othersOf ops)
  if total = unit then others else constant total :: others

theorem sumTerms_eq_gather (es : List Evolution) : sumTerms es = gather terms (· + ·) 0 es := rfl

theorem productFactors_eq_gather (es : List Evolution) :
    productFactors es = gather factors (· * ·) 1 es := rfl

theorem eq_constant_of_constant? {e : Evolution} {w : Word} (h : e.constant? = some w) :
    e = constant w := by
  cases e with
  | constant v => rw [Option.some.inj h]
  | _ => cases h

theorem mem_othersOf_iff {e : Evolution} {es : List Evolution} :
    e ∈ othersOf es ↔ e ∈ es ∧ e.constant? = none := by
  rw [othersOf, List.mem_filter, Option.isNone_iff_eq_none]

section Gather

variable {split : Evolution → List Evolution} {op : Word → Word → Word} {unit : Word}

/-- What has been gathered is an operand or a constant. -/
theorem mem_gather {e : Evolution} {es : List Evolution} (h : e ∈ gather split op unit es) :
    (∃ w, e = constant w) ∨ ∃ f ∈ es, e ∈ split f := by
  have hother : e ∈ sortByRank (othersOf (es.flatMap split)) → ∃ f ∈ es, e ∈ split f := by
    intro hmem
    rw [(perm_sortByRank _).mem_iff, mem_othersOf_iff, List.mem_flatMap] at hmem
    exact hmem.1
  rw [gather] at h
  split at h
  · exact Or.inr (hother h)
  · rcases List.mem_cons.1 h with rfl | h
    · exact Or.inl ⟨_, rfl⟩
    · exact Or.inr (hother h)

theorem weights_othersOf (es : List Evolution) : weights (othersOf es) = weights es := by
  induction es with
  | nil => rfl
  | cons e es ih =>
    rw [othersOf, List.filter_cons]
    split
    · rw [weights, weights, ← ih, othersOf]
    · rename_i hc
      have hw : e.weight = 0 := by cases e <;> simp [constant?] at hc ⊢
      rw [weights, hw, Nat.zero_add, ← ih, othersOf]

/-- Gathering keeps the weight of the operands. -/
theorem weights_gather (hsplit : ∀ e, weights (split e) = e.weight) (es : List Evolution) :
    weights (gather split op unit es) = weights es := by
  have hflat : weights (es.flatMap split) = weights es := by
    induction es with
    | nil => rfl
    | cons e es ih => rw [List.flatMap_cons, weights_append, hsplit, ih, weights]
  -- constants weigh nothing, so neither leaving them out nor adding their total matters
  have hothers : weights (sortByRank (othersOf (es.flatMap split))) = weights es := by
    rw [weights_perm (perm_sortByRank _), weights_othersOf, hflat]
  rw [gather]
  split
  · exact hothers
  · rw [weights, weight_constant, Nat.zero_add, hothers]

variable [Std.Associative op] [Std.LawfulIdentity op unit]

theorem foldr_append_eq (xs ys : List Word) :
    (xs ++ ys).foldr op unit = op (xs.foldr op unit) (ys.foldr op unit) := by
  induction xs with
  | nil => exact (Std.LawfulLeftIdentity.left_id _).symm
  | cons x xs ih =>
    rw [List.cons_append, List.foldr_cons, List.foldr_cons, ih]
    exact (Std.Associative.assoc _ _ _).symm

/-- Dissolving nested operands keeps the word the operands combine to. -/
theorem foldr_flatMap {value : Evolution → Word}
    (hsplit : ∀ e, ((split e).map value).foldr op unit = value e) (es : List Evolution) :
    ((es.flatMap split).map value).foldr op unit = (es.map value).foldr op unit := by
  induction es with
  | nil => rfl
  | cons e es ih =>
    rw [List.flatMap_cons, List.map_append, foldr_append_eq, hsplit, ih, List.map_cons,
      List.foldr_cons]

variable [Std.Commutative op]

/-- Constants and other operands, combined apart and then with each other. -/
theorem foldr_constants_others {value : Evolution → Word} (hconst : ∀ w, value (constant w) = w)
    (es : List Evolution) :
    (es.map value).foldr op unit = op ((constantsOf es).foldl op unit)
      (((othersOf es).map value).foldr op unit) := by
  rw [← List.foldr_eq_foldl]
  induction es with
  | nil => exact (Std.LawfulLeftIdentity.left_id unit).symm
  | cons e es ih =>
    rw [List.map_cons, List.foldr_cons, ih]
    cases hc : e.constant? with
    | none =>
      simp only [constantsOf, othersOf, List.filterMap_cons, List.filter_cons, hc,
        Option.isNone_none, if_true, List.map_cons, List.foldr_cons]
      exact LeftCommutative.left_comm _ _ _
    | some w =>
      obtain rfl := eq_constant_of_constant? hc
      simp only [constantsOf, othersOf, List.filterMap_cons, List.filter_cons, hc, hconst,
        Option.isNone_some, Bool.false_eq_true, if_false, List.foldr_cons]
      exact (Std.Associative.assoc _ _ _).symm

/-- Gathering keeps the word the operands combine to. -/
theorem foldr_gather {value : Evolution → Word} (hconst : ∀ w, value (constant w) = w)
    (hsplit : ∀ e, ((split e).map value).foldr op unit = value e) (es : List Evolution) :
    ((gather split op unit es).map value).foldr op unit = (es.map value).foldr op unit := by
  have hsort := ((perm_sortByRank (othersOf (es.flatMap split))).map value).foldr_eq unit
    (f := op)
  rw [← foldr_flatMap hsplit es, foldr_constants_others hconst (es.flatMap split), ← hsort, gather]
  split
  · rename_i hunit
    rw [hunit]
    exact (Std.LawfulLeftIdentity.left_id _).symm
  · rw [List.map_cons, List.foldr_cons, hconst]

end Gather

/-! ## Sums and products of what has been gathered -/

theorem weights_terms (e : Evolution) : weights (terms e) = e.weight := by
  cases e <;> simp [terms, weights, weight]

theorem weights_factors (e : Evolution) : weights (factors e) = e.weight := by
  cases e <;> simp [factors, weights, weight]

theorem weights_sumTerms (es : List Evolution) : weights (sumTerms es) = weights es := by
  rw [sumTerms_eq_gather, weights_gather weights_terms]

theorem weights_productFactors (es : List Evolution) :
    weights (productFactors es) = weights es := by
  rw [productFactors_eq_gather, weights_gather weights_factors]

theorem weight_ofTerms (es : List Evolution) : (ofTerms es).weight = weights es := by
  match es with
  | [] => simp [ofTerms, weights]
  | [e] => simp [ofTerms, weights]
  | e :: f :: es => simp [ofTerms, weight]

theorem weight_ofFactors (es : List Evolution) : (ofFactors es).weight = weights es := by
  match es with
  | [] => simp [ofFactors, weights]
  | [e] => simp [ofFactors, weights]
  | e :: f :: es => simp [ofFactors, weight]

variable (ρ : Valuation)

theorem eval_ofTerms (es : List Evolution) : ρ.eval (ofTerms es) = (es.map ρ.eval).sum := by
  match es with
  | [] => simp [ofTerms]
  | [e] => simp [ofTerms]
  | e :: f :: es => simp [ofTerms]

theorem eval_ofFactors (es : List Evolution) : ρ.eval (ofFactors es) = (es.map ρ.eval).prod := by
  match es with
  | [] => simp [ofFactors]
  | [e] => simp [ofFactors]
  | e :: f :: es => simp [ofFactors]

/-- The terms of a sum of evolutions add up to the evolutions. -/
theorem sum_sumTerms (es : List Evolution) :
    ((sumTerms es).map ρ.eval).sum = (es.map ρ.eval).sum := by
  rw [sumTerms_eq_gather]
  refine foldr_gather (fun w => ρ.eval_constant w) (fun e => ?_) es
  cases e <;> simp [terms, List.sum]

theorem prod_factors (e : Evolution) : ((factors e).map ρ.eval).prod = ρ.eval e := by
  cases e <;> simp [factors]

/-- The factors of a product of evolutions multiply to the evolutions. -/
theorem prod_productFactors (es : List Evolution) :
    ((productFactors es).map ρ.eval).prod = (es.map ρ.eval).prod := by
  rw [productFactors_eq_gather]
  exact foldr_gather (fun w => ρ.eval_constant w) (prod_factors ρ) es

/-- A product with a factor zero is zero. -/
theorem prod_eq_zero_of_mem {es : List Evolution}
    (hzero : 0 ∈ constantsOf (es.flatMap factors)) : (es.map ρ.eval).prod = 0 := by
  obtain ⟨e, he, hc⟩ := List.mem_filterMap.1 hzero
  obtain rfl := eq_constant_of_constant? hc
  have hflat : ((es.flatMap factors).map ρ.eval).prod = (es.map ρ.eval).prod :=
    foldr_flatMap (prod_factors ρ) es
  rw [← hflat]
  exact List.prod_eq_zero (List.mem_map.2 ⟨constant 0, he, rfl⟩)

/-! ## Recurrences among operands -/

/-- The recurrence a pivot has been found at. -/
def Pivot.recurrence (p : Pivot) : Evolution := .recurrence p.start p.steps p.loop

theorem eq_of_mem_pivotsAfter {p : Pivot} {before es : List Evolution}
    (h : p ∈ pivotsAfter before es) : before ++ es = p.before ++ p.recurrence :: p.after := by
  induction es generalizing before with
  | nil => simp [pivotsAfter] at h
  | cons e es ih =>
    have hmore : p ∈ pivotsAfter (before ++ [e]) es →
        before ++ e :: es = p.before ++ p.recurrence :: p.after := by
      intro hp
      have := ih hp
      rwa [List.append_assoc, List.singleton_append] at this
    cases e with
    | recurrence a fs l =>
      simp only [pivotsAfter, List.mem_cons] at h
      rcases h with rfl | h
      · rfl
      · exact hmore h
    | _ =>
      simp only [pivotsAfter] at h
      exact hmore h

/-- A pivot cuts the operands at a recurrence. -/
theorem eq_of_mem_pivots {p : Pivot} {es : List Evolution} (h : p ∈ pivots es) :
    es = p.before ++ p.recurrence :: p.after := by
  simpa using eq_of_mem_pivotsAfter h

/-- Two recurrences of one loop cut the operands at two places. -/
theorem eq_of_samePair? {p q : Pivot} {es : List Evolution} (h : samePair? es = some (p, q)) :
    es = p.before ++ p.recurrence :: (q.before ++ q.recurrence :: q.after) ∧ q.loop = p.loop := by
  rw [samePair?] at h
  obtain ⟨p', hp', hfound⟩ := List.exists_of_findSome?_eq_some h
  obtain ⟨q', hq', heq⟩ := Option.map_eq_some_iff.1 hfound
  simp only [Prod.mk.injEq] at heq
  obtain ⟨rfl, rfl⟩ := heq
  have hloop := List.find?_some hq'
  rw [← eq_of_mem_pivots (List.mem_of_find?_eq_some hq'), ← eq_of_mem_pivots hp']
  exact ⟨rfl, by simpa using hloop⟩

/-! ## Steps side by side -/

theorem mem_pairSteps {x : Evolution × Evolution} {as bs : List Evolution}
    (h : x ∈ pairSteps as bs) : (x.1 = zero ∨ x.1 ∈ as) ∧ (x.2 = zero ∨ x.2 ∈ bs) := by
  induction as generalizing bs with
  | nil =>
    rw [pairSteps, List.mem_map] at h
    obtain ⟨b, hb, rfl⟩ := h
    exact ⟨Or.inl rfl, Or.inr hb⟩
  | cons a as ih =>
    cases bs with
    | nil =>
      rw [pairSteps] at h
      rcases List.mem_cons.1 h with rfl | h
      · exact ⟨Or.inr List.mem_cons_self, Or.inl rfl⟩
      · exact (ih h).imp_left fun h => h.imp_right (List.mem_cons_of_mem a)
    | cons b bs =>
      rw [pairSteps] at h
      rcases List.mem_cons.1 h with rfl | h
      · exact ⟨Or.inr List.mem_cons_self, Or.inr List.mem_cons_self⟩
      · exact (ih h).imp (fun h => h.imp_right (List.mem_cons_of_mem a))
          (fun h => h.imp_right (List.mem_cons_of_mem b))

theorem length_pairSteps (as bs : List Evolution) :
    (pairSteps as bs).length = max as.length bs.length := by
  induction as generalizing bs with
  | nil => simp [pairSteps]
  | cons a as ih =>
    cases bs with
    | nil | cons b bs => simp [pairSteps, ih]

/-- Recurrences of one loop are added step by step. -/
theorem newton_pairSteps (n : Nat) (as bs : List Evolution) (i : Nat) :
    Word.newton n i ((pairSteps as bs).map fun x => ρ.eval x.1 + ρ.eval x.2) =
      Word.newton n i (as.map ρ.eval) + Word.newton n i (bs.map ρ.eval) := by
  induction as generalizing bs i with
  | nil => simp [pairSteps, Word.newton, Function.comp_def]
  | cons a as ih =>
    cases bs with
    | nil =>
      have := ih [] (i + 1)
      simp only [pairSteps, List.map_cons, Word.newton, this]
      simp [Word.newton]
    | cons b bs =>
      have := ih bs (i + 1)
      simp only [pairSteps, List.map_cons, Word.newton, this]
      ring

/-- A factor goes into every step of a recurrence. -/
theorem newton_map_mul (n : Nat) (c : Word) (ws : List Word) (i : Nat) :
    Word.newton n i (ws.map (· * c)) = Word.newton n i ws * c := by
  induction ws generalizing i with
  | nil => simp [Word.newton]
  | cons w ws ih =>
    simp only [List.map_cons, Word.newton, ih]
    ring

end Evolution

end GridAccess
