import GridAccess.Proofs.FoldingDescent

set_option autoImplicit false

/-!
# Folding keeps values

Folding changes how an evolution is written and never what it is worth: under every valuation the
sum, difference, product, quotient or maximum of evolutions, and the extension or truncation of
one, has the value that arithmetic on words gives (`folding_keeps_value`). The same theorem says
that nothing gets lost on the way. Operands whose nodes are all proper lead to a result whose nodes
are all proper, while an operand that is not known makes every sum and product unknown.

Sums and products are treated by induction over the rules of folding. Maxima are compared by what
their operands reach: two lists of words whose members are bounded by each other's have the same
greatest member (`Word.greatest_congr`).
-/

namespace GridAccess

/-! ## The greatest of some words -/

namespace Word

variable {signed : Bool} {ws vs us : List Word}

theorem key_injective (signed : Bool) : Function.Injective (key signed) := by
  intro x y h
  cases signed with
  | true => exact BitVec.eq_of_toInt_eq (by simpa [key] using h)
  | false => exact BitVec.eq_of_toNat_eq (by simpa [key] using h)

/-- Every one of the words is at most one of the others. -/
def Below (signed : Bool) (ws vs : List Word) : Prop :=
  ∀ w ∈ ws, ∃ v ∈ vs, key signed w ≤ key signed v

theorem Below.of_subset (h : ∀ w ∈ ws, w ∈ vs) : Below signed ws vs :=
  fun w hw => ⟨w, h w hw, le_rfl⟩

theorem Below.trans (h₁ : Below signed ws vs) (h₂ : Below signed vs us) : Below signed ws us := by
  intro w hw
  obtain ⟨v, hv, hwv⟩ := h₁ w hw
  obtain ⟨u, hu, hvu⟩ := h₂ v hv
  exact ⟨u, hu, hwv.trans hvu⟩

theorem key_greater (signed : Bool) (x y : Word) :
    key signed (greater signed x y) = max (key signed x) (key signed y) := by
  rw [greater]
  split
  · rw [max_eq_right ‹_›]
  · rw [max_eq_left (by omega)]

theorem foldl_greater (w : Word) (ws : List Word) :
    ws.foldl (greater signed) w ∈ w :: ws ∧
      ∀ v ∈ w :: ws, key signed v ≤ key signed (ws.foldl (greater signed) w) := by
  induction ws generalizing w with
  | nil => simp
  | cons x ws ih =>
    obtain ⟨hmem, hle⟩ := ih (greater signed w x)
    have hkey := key_greater signed w x
    rw [List.foldl_cons]
    refine ⟨?_, ?_⟩
    · rcases List.mem_cons.1 hmem with h | h
      · rw [h, greater]
        split <;> simp
      · simp [h]
    · -- the greater of the first two bounds both of them
      have hhead := hle _ List.mem_cons_self
      intro v hv
      rcases List.mem_cons.1 hv with rfl | hv
      · omega
      · rcases List.mem_cons.1 hv with rfl | hv
        · omega
        · exact hle v (List.mem_cons_of_mem _ hv)

theorem greatest_mem (signed : Bool) (hne : ws ≠ []) : greatest signed ws ∈ ws := by
  cases ws with
  | nil => exact absurd rfl hne
  | cons w ws => exact (foldl_greater w ws).1

theorem key_le_greatest (signed : Bool) {w : Word} (hw : w ∈ ws) :
    key signed w ≤ key signed (greatest signed ws) := by
  cases ws with
  | nil => cases hw
  | cons v ws => exact (foldl_greater v ws).2 w hw

@[simp] theorem greatest_singleton (w : Word) : greatest signed [w] = w := rfl

/-- Words that are bounded by each other have the same greatest member. -/
theorem greatest_congr (hne : ws ≠ []) (h₁ : Below signed ws vs) (h₂ : Below signed vs ws) :
    greatest signed ws = greatest signed vs := by
  obtain ⟨v, hv, hle⟩ := h₁ _ (greatest_mem signed hne)
  obtain ⟨w, hw, hle'⟩ := h₂ _ (greatest_mem signed (List.ne_nil_of_mem hv))
  have hgreatest := key_le_greatest signed hv
  have hgreatest' := key_le_greatest signed hw
  exact key_injective signed (by omega)

end Word

open Evolution

/-! ## Sums and products -/

variable (ρ : Valuation)

/-- A sum folded by the rules is worth what its operands add up to. -/
theorem Sums.eval {C : Context} {es : List Evolution} {e : Evolution} (h : Sums C es e)
    (hes : AllEverywhere Definite es) : ρ.eval e = (es.map ρ.eval).sum := by
  induction h with
  | lost hany =>
    rw [not_any_isIndeterminate allEverywhere_terms hes] at hany
    cases hany
  | plain _ _ => rw [eval_ofTerms, sum_sumTerms]
  | @merge es steps p q start e _ hpair hstart hlength hsteps _ ihstart ihsteps ihrest =>
    have hrest := allEverywhere_merged stable_definite.lasting hes hpair
      (hstart.everywhere stable_definite) hlength
      fun x hx => (hsteps x hx).everywhere stable_definite
    obtain ⟨-, ⟨-, hps, hpsteps⟩, -, hqs, hqsteps⟩ := allEverywhere_samePair?
      (allEverywhere_sumTerms stable_definite.lasting hes) hpair
    obtain ⟨hcut, hloop⟩ := eq_of_samePair? hpair
    -- the parts of the merged recurrence are worth the sums of the parts
    have hfirst : ρ.eval start = ρ.eval p.start + ρ.eval q.start := by
      rw [ihstart (by simpa using ⟨hps, hqs⟩)]
      simp
    have hlater : steps.map ρ.eval =
        (pairSteps p.steps q.steps).map fun x => ρ.eval x.1 + ρ.eval x.2 := by
      refine map_eq_map_of_zip hlength fun x hx => ?_
      have hmem := (List.of_mem_zip hx).1
      rw [ihsteps x hx (everywhere_pairSteps stable_definite.lasting hpsteps hqsteps hmem)]
      simp
    rw [ihrest hrest, ← sum_sumTerms ρ es, hcut]
    simp only [List.map_append, List.map_cons, List.sum_append, List.sum_cons, Pivot.others,
      Pivot.recurrence, ρ.eval_recurrence, hfirst, hlater, newton_pairSteps, hloop]
    ring
  | @absorb es p start _ _ habsorb _ ih =>
    have hp := Context.mem_of_absorbing? habsorb
    have hstart := allEverywhere_absorbed (allEverywhere_sumTerms stable_definite.lasting hes) hp
    rw [← sum_sumTerms ρ es, eq_of_mem_pivots hp, ρ.eval_recurrence, ih hstart]
    simp only [List.map_append, List.map_cons, List.sum_append, List.sum_cons, Pivot.recurrence,
      ρ.eval_recurrence]
    ring

/-- A product folded by the rules is worth what its factors multiply to. -/
theorem Multiplies.eval {C : Context} {a e : Evolution} {fs : List Evolution}
    (h : Multiplies C a fs e) (ha : a.Everywhere Definite)
    (hfs : AllEverywhere Definite fs) :
    ρ.eval e = ρ.eval a * (fs.map ρ.eval).prod := by
  induction h with
  | done _ => simp
  | @lost a b e fs hany _ _ =>
    rw [allEverywhere_cons] at hfs
    rw [not_any_isIndeterminate allEverywhere_factors (by simpa using ⟨ha, hfs.1⟩)] at hany
    cases hany
  | @vanish a b e fs _ hzero _ ih =>
    rw [allEverywhere_cons] at hfs
    have hab : ([a, b].map ρ.eval).prod = 0 :=
      prod_eq_zero_of_mem ρ (List.contains_iff_mem.1 hzero)
    rw [ih (everywhere_constant stable_definite 0) hfs.2, ρ.eval_zero, zero_mul,
      List.map_cons, List.prod_cons, ← mul_assoc]
    simp only [List.map_cons, List.map_nil, List.prod_cons, List.prod_nil, mul_one] at hab
    rw [hab, zero_mul]
  | @plain a b e fs _ _ _ _ ih =>
    rw [allEverywhere_cons] at hfs
    have hall : AllEverywhere Definite [a, b] := by simpa using ⟨ha, hfs.1⟩
    have hfactors := allEverywhere_productFactors stable_definite.lasting hall
    rw [ih (everywhere_ofFactors stable_definite.lasting (fun _ => stable_definite.product _)
      hfactors) hfs.2, eval_ofFactors, prod_productFactors]
    simp [mul_assoc]
  | @absorb a b e start fs steps p _ _ habsorb hstart hlength hsteps _ ihstart ihsteps ih =>
    rw [allEverywhere_cons] at hfs
    have hall : AllEverywhere Definite [a, b] := by simpa using ⟨ha, hfs.1⟩
    have hp := Context.mem_of_absorbing? habsorb
    obtain ⟨hothers, -, hps, hpsteps⟩ := allEverywhere_pivot
      (allEverywhere_productFactors stable_definite.lasting hall) hp
    -- every part of the recurrence has been multiplied by all the other factors
    have hlater : steps.map ρ.eval =
        (p.steps.map ρ.eval).map (· * (p.others.map ρ.eval).prod) := by
      rw [List.map_map]
      refine map_eq_map_of_zip hlength fun x hx => ?_
      exact ihsteps x hx (hpsteps _ (List.of_mem_zip hx).1) hothers
    have hrec := everywhere_scaled stable_definite.lasting hall hp
      (hstart.everywhere stable_definite) hlength
      fun x hx => (hsteps x hx).everywhere stable_definite
    have hab : ρ.eval (.recurrence start steps p.loop) = ρ.eval a * ρ.eval b := by
      have hprod := prod_productFactors ρ [a, b]
      rw [eq_of_mem_pivots hp] at hprod
      simp only [List.map_append, List.map_cons, List.map_nil, List.prod_append, List.prod_cons,
        List.prod_nil, mul_one, Pivot.recurrence, ρ.eval_recurrence] at hprod
      rw [ρ.eval_recurrence, ihstart hps hothers, hlater, newton_map_mul, ← hprod, Pivot.others,
        List.map_append, List.prod_append]
      ring
    rw [ih hrec hfs.2, hab, List.map_cons, List.prod_cons, mul_assoc]

/-! ## Quotients -/

theorem eval_divide (a b : Evolution) : ρ.eval (a.divide b) = ρ.divide (ρ.eval a) (ρ.eval b) := by
  rw [divide]
  split
  · rename_i x y hx hy
    obtain rfl := eq_constant_of_constant? hx
    obtain rfl := eq_constant_of_constant? hy
    split
    · rfl
    · rename_i hne
      exact (if_neg hne).symm
  · rename_i hb _
    obtain rfl := eq_constant_of_constant? hb
    simp [Valuation.divide]
  · rfl

theorem Evolution.Lasting.everywhere_divide {P : Evolution → Prop} (hP : Lasting P)
    {a b : Evolution} (ha : a.Everywhere P) (hb : b.Everywhere P) :
    (a.divide b).Everywhere P := by
  have hquotient : (Evolution.quotient a b).Everywhere P :=
    .node (hP.quotient a b) (by simp [operands, ha, hb])
  rw [divide]
  split
  · split
    · exact hquotient
    · exact .leaf (hP.constant _) rfl
  · exact ha
  · exact hquotient

theorem everywhere_divide {P : Evolution → Prop} (hP : Stable P) {a b : Evolution}
    (ha : a.Everywhere P) (hb : b.Everywhere P) : (a.divide b).Everywhere P :=
  hP.lasting.everywhere_divide ha hb

/-! ## Maxima -/

section Maximum

variable {signed : Bool} {es : List Evolution}

theorem maxWord_eq_greater (signed : Bool) : maxWord signed = Word.greater signed := by
  funext x y
  cases signed with
  | true =>
    simp only [maxWord, Word.greater, Word.key, BitVec.slt, if_true, decide_eq_true_eq]
    have hinj := BitVec.eq_of_toInt_eq (x := x) (y := y)
    grind
  | false =>
    simp only [maxWord, Word.greater, Word.key, BitVec.lt_def, Bool.false_eq_true, if_false]
    have hinj := BitVec.eq_of_toNat_eq (x := x) (y := y)
    grind

theorem mem_dropRepeats {e : Evolution} (es : List Evolution) : e ∈ dropRepeats es ↔ e ∈ es := by
  fun_induction dropRepeats es with
  | case1 => rfl
  | case2 f => rfl
  | case3 f rest ih => simpa using ih
  | case4 f g rest hne ih => rw [List.mem_cons, ih, ← List.mem_cons]

theorem mem_constantsOf_iff {w : Word} {es : List Evolution} :
    w ∈ constantsOf es ↔ constant w ∈ es := by
  rw [constantsOf, List.mem_filterMap]
  constructor
  · rintro ⟨e, he, hc⟩
    obtain rfl := eq_constant_of_constant? hc
    exact he
  · intro h
    exact ⟨constant w, h, rfl⟩

/-- A maximum of the same kind is replaced by its operands, and nothing else is. -/
theorem maxOperands_cases (signed : Bool) (e : Evolution) : maxOperands signed e = [e] ∨
    ∃ es, (e = smax es ∨ e = umax es) ∧ maxOperands signed e = es := by
  cases e with
  | smax es =>
    cases signed with
    | true => exact Or.inr ⟨es, Or.inl rfl, rfl⟩
    | false => exact Or.inl rfl
  | umax es =>
    cases signed with
    | true => exact Or.inl rfl
    | false => exact Or.inr ⟨es, Or.inr rfl, rfl⟩
  | _ => exact Or.inl rfl

/-- The greatest constant is one of the constants: bringing the operands of a maximum together
adds nothing to them. -/
theorem mem_of_mem_maximumOperands {e : Evolution} (h : e ∈ maximumOperands signed es) :
    e ∈ es.flatMap (maxOperands signed) := by
  rw [maximumOperands] at h
  have hothers : e ∈ sortByRank (othersOf (es.flatMap (maxOperands signed))) →
      e ∈ es.flatMap (maxOperands signed) := by
    intro h
    rw [(perm_sortByRank _).mem_iff, mem_othersOf_iff] at h
    exact h.1
  split at h
  · exact hothers h
  · rename_i w ws hconst
    rcases List.mem_cons.1 h with rfl | h
    · rw [← mem_constantsOf_iff, hconst, maxWord_eq_greater]
      exact (Word.foldl_greater w ws).1
    · exact hothers h

theorem mem_maximumOperands_of_other {e : Evolution} (he : e ∈ es.flatMap (maxOperands signed))
    (hc : e.constant? = none) : e ∈ maximumOperands signed es := by
  have hother : e ∈ sortByRank (othersOf (es.flatMap (maxOperands signed))) := by
    rw [(perm_sortByRank _).mem_iff, mem_othersOf_iff]
    exact ⟨he, hc⟩
  rw [maximumOperands]
  split
  · exact hother
  · exact List.mem_cons_of_mem _ hother

theorem maximumOperands_ne_nil (hes : es ≠ []) (hne : ∀ e ∈ es, maxOperands signed e ≠ []) :
    maximumOperands signed es ≠ [] := by
  obtain ⟨e, he⟩ := List.exists_mem_of_ne_nil es hes
  obtain ⟨x, hx⟩ := List.exists_mem_of_ne_nil _ (hne e he)
  have hflat : x ∈ es.flatMap (maxOperands signed) := List.mem_flatMap.2 ⟨e, he, hx⟩
  cases hc : x.constant? with
  | none => exact List.ne_nil_of_mem (mem_maximumOperands_of_other hflat hc)
  | some w =>
    obtain rfl := eq_constant_of_constant? hc
    rw [← mem_constantsOf_iff] at hflat
    rw [maximumOperands]
    split
    · rename_i hconst
      rw [hconst] at hflat
      cases hflat
    · exact List.cons_ne_nil _ _

/-- An operand of a maximum that has been left out is a constant that is not the greatest. -/
theorem below_maximumOperands (signed : Bool) (es : List Evolution) :
    Word.Below signed ((es.flatMap (maxOperands signed)).map ρ.eval)
      ((maximumOperands signed es).map ρ.eval) := by
  intro v hv
  obtain ⟨e, he, rfl⟩ := List.mem_map.1 hv
  cases hc : e.constant? with
  | none =>
    exact ⟨ρ.eval e, List.mem_map_of_mem (mem_maximumOperands_of_other he hc), le_rfl⟩
  | some w =>
    obtain rfl := eq_constant_of_constant? hc
    rw [← mem_constantsOf_iff] at he
    rw [maximumOperands]
    split
    · rename_i hconst
      rw [hconst] at he
      cases he
    · rename_i x xs hconst
      rw [hconst] at he
      refine ⟨xs.foldl (maxWord signed) x, by simp, ?_⟩
      rw [maxWord_eq_greater]
      exact (Word.foldl_greater x xs).2 w he

/-- An evolution is worth the greatest of its operands in a maximum. -/
theorem eval_eq_greatest_maxOperands (signed : Bool) (e : Evolution) :
    ρ.eval e = Word.greatest signed ((maxOperands signed e).map ρ.eval) := by
  cases e with
  | smax es => cases signed <;> simp [maxOperands]
  | umax es => cases signed <;> simp [maxOperands]
  | _ => simp [maxOperands]

/-- A maximum is worth the greatest of its operands. -/
theorem eval_maximum (hes : es ≠ []) (hne : ∀ e ∈ es, maxOperands signed e ≠ []) :
    ρ.eval (maximum signed es) = Word.greatest signed (es.map ρ.eval) := by
  have hflat : Word.Below signed (es.map ρ.eval)
      ((es.flatMap (maxOperands signed)).map ρ.eval) := by
    refine .of_subset fun w hw => ?_
    obtain ⟨e, he, rfl⟩ := List.mem_map.1 hw
    have hvalues : (maxOperands signed e).map ρ.eval ≠ [] := by simpa using hne e he
    have hmem := Word.greatest_mem signed hvalues
    rw [← eval_eq_greatest_maxOperands] at hmem
    rw [List.map_flatMap, List.mem_flatMap]
    exact ⟨e, he, hmem⟩
  have hback : Word.Below signed ((es.flatMap (maxOperands signed)).map ρ.eval)
      (es.map ρ.eval) := by
    intro w hw
    obtain ⟨x, hx, rfl⟩ := List.mem_map.1 hw
    obtain ⟨e, he, hxe⟩ := List.mem_flatMap.1 hx
    refine ⟨ρ.eval e, List.mem_map_of_mem he, ?_⟩
    rw [eval_eq_greatest_maxOperands ρ signed e]
    exact Word.key_le_greatest signed (List.mem_map_of_mem hxe)
  have hdrop : ∀ ops : List Evolution, Word.Below signed (ops.map ρ.eval)
      ((dropRepeats ops).map ρ.eval) := by
    intro ops
    refine .of_subset fun w hw => ?_
    obtain ⟨e, he, rfl⟩ := List.mem_map.1 hw
    exact List.mem_map_of_mem ((mem_dropRepeats ops).2 he)
  have hsub : Word.Below signed ((dropRepeats (maximumOperands signed es)).map ρ.eval)
      ((es.flatMap (maxOperands signed)).map ρ.eval) := by
    refine .of_subset fun w hw => ?_
    obtain ⟨e, he, rfl⟩ := List.mem_map.1 hw
    exact List.mem_map_of_mem (mem_of_mem_maximumOperands ((mem_dropRepeats _).1 he))
  have hvalue : ρ.eval (maximum signed es) =
      Word.greatest signed ((dropRepeats (maximumOperands signed es)).map ρ.eval) := by
    rw [maximum]
    split
    · rename_i e h
      rw [h]
      rfl
    · cases signed <;> simp
  rw [hvalue]
  exact (Word.greatest_congr (by simpa using hes)
    (hflat.trans ((below_maximumOperands ρ signed es).trans (hdrop _)))
    (hsub.trans hback)).symm

theorem allEverywhere_maxOperands {P : Evolution → Prop} {e : Evolution} (h : e.Everywhere P) :
    AllEverywhere P (maxOperands signed e) := by
  rcases maxOperands_cases signed e with hself | ⟨es, he, hes⟩
  · rw [hself]
    exact allEverywhere_cons.2 ⟨h, allEverywhere_nil⟩
  · rw [hes]
    rcases he with rfl | rfl
    · exact fun c hc => h.operand hc
    · exact fun c hc => h.operand hc

theorem Evolution.Lasting.everywhere_maximum {P : Evolution → Prop} (hP : Lasting P)
    (hes : es ≠ []) (hne : ∀ e ∈ es, maxOperands signed e ≠ []) (h : AllEverywhere P es) :
    (maximum signed es).Everywhere P := by
  have hops : AllEverywhere P (dropRepeats (maximumOperands signed es)) := by
    intro x hx
    rw [mem_dropRepeats] at hx
    obtain ⟨e, he, hxe⟩ := List.mem_flatMap.1 (mem_of_mem_maximumOperands hx)
    exact allEverywhere_maxOperands (h e he) x hxe
  have hnil : dropRepeats (maximumOperands signed es) ≠ [] := by
    obtain ⟨x, hx⟩ := List.exists_mem_of_ne_nil _ (maximumOperands_ne_nil hes hne)
    exact List.ne_nil_of_mem ((mem_dropRepeats _).2 hx)
  rw [maximum]
  split
  · rename_i e heq
    exact hops e (heq ▸ List.mem_cons_self)
  · -- neither none nor one, so there are two operands or more
    rename_i hmany
    have htwo : 2 ≤ (dropRepeats (maximumOperands signed es)).length := by
      have hpos := List.length_pos_of_ne_nil hnil
      have hone : (dropRepeats (maximumOperands signed es)).length ≠ 1 := by
        intro hone
        obtain ⟨e, he⟩ := List.length_eq_one_iff.1 hone
        exact hmany e he
      omega
    cases signed with
    | true => exact .node (hP.smax _ htwo) hops
    | false => exact .node (hP.umax _ htwo) hops

theorem everywhere_maximum {P : Evolution → Prop} (hP : Stable P) (hes : es ≠ [])
    (hne : ∀ e ∈ es, maxOperands signed e ≠ []) (h : AllEverywhere P es) :
    (maximum signed es).Everywhere P :=
  hP.lasting.everywhere_maximum hes hne h

end Maximum

/-! ## Extensions and truncations -/

theorem extendList_eq_map (signed : Bool) (es : List Evolution) :
    extendList signed es = es.map (extend signed) := by
  induction es with
  | nil => rfl
  | cons e es ih => rw [extendList, ih, List.map_cons]

theorem extend_recurrence (signed : Bool) (a : Evolution) (es : List Evolution) (l : Nat) :
    extend signed (recurrence a es l) =
      recurrence (a.extend signed) (es.map (extend signed)) l :=
  congrArg (recurrence (a.extend signed) · l) (extendList_eq_map signed es)

theorem eval_extend (signed : Bool) (e : Evolution) : ρ.eval (e.extend signed) = ρ.eval e := by
  induction e using induction_operands with
  | node e ih =>
    cases e with
    | recurrence a es l =>
      have hsteps : (es.map (extend signed)).map ρ.eval = es.map ρ.eval := by
        rw [List.map_map]
        exact List.map_congr_left fun c hc => ih c (List.mem_cons_of_mem a hc)
      rw [extend_recurrence, ρ.eval_recurrence, ρ.eval_recurrence, hsteps, ih a List.mem_cons_self]
    | constant _ | indeterminate => rfl
    | _ => cases signed <;> rfl

theorem Evolution.Lasting.everywhere_extend {P : Evolution → Prop} (hP : Lasting P)
    (signed : Bool) {e : Evolution} (h : e.Everywhere P) : (e.extend signed).Everywhere P := by
  induction h with
  | @node e top rest ih =>
    have hcast : (if signed then Evolution.sext e else Evolution.zext e).Everywhere P := by
      split
      · exact .node (hP.sext e) (by simpa [operands] using .node top rest)
      · exact .node (hP.zext e) (by simpa [operands] using .node top rest)
    cases e with
    | recurrence a es l =>
      rw [extend_recurrence, everywhere_recurrence_iff]
      refine ⟨hP.recurrence_of_length _ _ (by simp) top, ih a List.mem_cons_self, fun x hx => ?_⟩
      obtain ⟨c, hc, rfl⟩ := List.mem_map.1 hx
      exact ih c (List.mem_cons_of_mem a hc)
    | constant _ | indeterminate => exact .node top rest
    | _ => exact hcast

theorem everywhere_extend {P : Evolution → Prop} (hP : Stable P) (signed : Bool) {e : Evolution}
    (h : e.Everywhere P) : (e.extend signed).Everywhere P :=
  hP.lasting.everywhere_extend signed h

theorem eval_truncate (e : Evolution) : ρ.eval e.truncate = ρ.eval e := by
  cases e <;> rfl

theorem Evolution.Lasting.everywhere_truncate {P : Evolution → Prop} (hP : Lasting P)
    {e : Evolution} (h : e.Everywhere P) : e.truncate.Everywhere P := by
  have htrunc : (Evolution.trunc e).Everywhere P := .node (hP.trunc e) (by simpa [operands] using h)
  cases e with
  | constant _ | indeterminate => exact h
  | _ => exact htrunc

theorem everywhere_truncate {P : Evolution → Prop} (hP : Stable P) {e : Evolution}
    (h : e.Everywhere P) : e.truncate.Everywhere P :=
  hP.lasting.everywhere_truncate h

/-! ## All of folding -/

namespace Context

/-- The node has a value, and the loop of a recurrence is there. -/
def Proper (C : Context) (n : Evolution) : Prop :=
  Definite n ∧ Scoped (fun _ => True) (· < C.forest.loops.size) n

/-- The instruction that a node reads is one of the function. -/
def Readable (C : Context) : Evolution → Prop :=
  Scoped (· < C.function.instructions.size) fun _ => True

/-- The evolution is proper throughout and has value `w`. -/
def Worth (C : Context) (ρ : Valuation) (w : Word) (e : Evolution) : Prop :=
  e.Everywhere C.Proper ∧ ρ.eval e = w

/-- What folding operands to something worth `w` may lead to: an evolution of that worth, or a
dangling reference if an operand reads an instruction that is not there. -/
inductive Folds (C : Context) (ρ : Valuation) (es : List Evolution) (w : Word) :
    Except Fault Evolution → Prop
  | value {e : Evolution} (he : C.Worth ρ w e) : Folds C ρ es w (.ok e)
  | dangling (hread : ¬ AllEverywhere C.Readable es) : Folds C ρ es w (.error .dangling)

variable {C : Context} {es : List Evolution} {a b : Evolution}

variable {ρ} in
theorem Folds.weaken {w : Word} {r : Except Fault Evolution} {fs : List Evolution}
    (h : C.Folds ρ es w r) (hread : AllEverywhere C.Readable fs → AllEverywhere C.Readable es) :
    C.Folds ρ fs w r := by
  cases h with
  | value he => exact .value he
  | dangling hnot => exact .dangling fun hfs => hnot (hread hfs)

theorem stable_proper (C : Context) : Stable C.Proper := stable_definite.and (stable_scoped _ _)

theorem definite_of_proper {e : Evolution} (h : e.Everywhere C.Proper) : e.Everywhere Definite :=
  h.mono fun _ hn => hn.1

/-- Proper operands that are not known read an instruction that is not there. -/
theorem not_readable_of_not_known (hes : AllEverywhere C.Proper es)
    (hnot : ¬ AllEverywhere C.Known es) : ¬ AllEverywhere C.Readable es := by
  refine fun hread => hnot fun e he => ?_
  refine ((hes e he).and (hread e he)).mono fun n hn => ?_
  cases n with
  | unknown v => cases v <;> exact hn.2
  | recurrence _ _ _ => exact hn.1.2
  | _ => trivial

theorem maxOperands_ne_nil {e : Evolution} (signed : Bool) (h : Definite e) :
    maxOperands signed e ≠ [] := by
  rcases maxOperands_cases signed e with hself | ⟨es, he, hes⟩
  · rw [hself]
    exact List.cons_ne_nil _ _
  · rw [hes]
    rcases he with rfl | rfl
    · exact h
    · exact h

theorem folds_sum (hes : AllEverywhere C.Proper es) :
    C.Folds ρ es (es.map ρ.eval).sum (C.sum es) := by
  rcases C.sum_cases es with ⟨e, he, hsums⟩ | ⟨he, hnot⟩
  · rw [he]
    exact .value ⟨hsums.everywhere C.stable_proper hes,
      hsums.eval ρ fun x hx => definite_of_proper (hes x hx)⟩
  · rw [he]
    exact .dangling (not_readable_of_not_known hes hnot)

theorem folds_product (ha : a.Everywhere C.Proper) (hb : b.Everywhere C.Proper) :
    C.Folds ρ [a, b] (ρ.eval a * ρ.eval b) (C.product a b) := by
  rcases C.product_cases a b with ⟨e, he, hprod⟩ | ⟨he, hnot⟩
  · rw [he]
    refine .value ⟨hprod.everywhere C.stable_proper ha (by simpa using hb), ?_⟩
    rw [hprod.eval ρ (definite_of_proper ha) (by simpa using definite_of_proper hb)]
    simp
  · rw [he]
    exact .dangling (not_readable_of_not_known (by simpa using ⟨ha, hb⟩) hnot)

theorem folds_difference (ha : a.Everywhere C.Proper) (hb : b.Everywhere C.Proper) :
    C.Folds ρ [a, b] (ρ.eval a - ρ.eval b) (C.difference a b) := by
  have hone : (constant (-1)).Everywhere C.Proper := everywhere_constant C.stable_proper _
  have hone' : (constant (-1)).Everywhere C.Readable :=
    everywhere_constant (stable_scoped _ _) _
  -- a difference is the sum with the other operand times minus one
  rw [difference, negate]
  rcases C.product_cases (.constant (-1)) b with ⟨e, he, hprod⟩ | ⟨he, hnot⟩
  · have hproper := hprod.everywhere C.stable_proper hone (by simpa using hb)
    have hsum : C.Folds ρ [a, e] ([a, e].map ρ.eval).sum (C.sum [a, e]) :=
      folds_sum ρ (by simpa using ⟨ha, hproper⟩)
    have hvalue : ([a, e].map ρ.eval).sum = ρ.eval a - ρ.eval b := by
      simp only [List.map_cons, List.map_nil, List.sum_cons, List.sum_nil]
      rw [hprod.eval ρ (definite_of_proper hone) (by simpa using definite_of_proper hb)]
      simp only [ρ.eval_constant, List.map_cons, List.map_nil, List.prod_cons, List.prod_nil]
      ring
    rw [he, ← hvalue]
    refine hsum.weaken fun hread => ?_
    simp only [allEverywhere_cons, allEverywhere_nil, and_true] at hread ⊢
    exact ⟨hread.1, hprod.everywhere (stable_scoped _ _) hone' (by simpa using hread.2)⟩
  · have hread := not_readable_of_not_known (by simpa using ⟨hone, hb⟩) hnot
    rw [he]
    refine .dangling fun h => hread ?_
    simp only [allEverywhere_cons, allEverywhere_nil, and_true] at h ⊢
    exact ⟨hone', h.2⟩

/-- An operand that is not known makes a sum unknown. -/
theorem sum_eq_indeterminate (h : .indeterminate ∈ es) : C.sum es = .ok .indeterminate := by
  have hany : (es.flatMap terms).any isIndeterminate = true :=
    List.any_eq_true.2 ⟨_, List.mem_flatMap.2 ⟨_, h, List.mem_singleton_self _⟩, rfl⟩
  rw [sum, sumWithin, if_pos hany]

/-- A factor that is not known makes a product unknown. -/
theorem product_eq_indeterminate (h : a = .indeterminate ∨ b = .indeterminate) :
    C.product a b = .ok .indeterminate := by
  have hmem : .indeterminate ∈ [a, b] := by
    rcases h with rfl | rfl <;> simp
  have hany : ([a, b].flatMap factors).any isIndeterminate = true :=
    List.any_eq_true.2 ⟨_, List.mem_flatMap.2 ⟨_, hmem, List.mem_singleton_self _⟩, rfl⟩
  rw [product, productWithin]
  exact if_pos hany

end Context

/-- Folding keeps values. Under every valuation, sums, differences, products, quotients and maxima
of proper evolutions have the value that arithmetic on words gives, and extensions and truncations
keep theirs; all of the results are proper again. An operand that is not known makes sums and
products unknown. -/
theorem folding_keeps_value (C : Context) (signed : Bool) (es : List Evolution) (a b : Evolution)
    (hes : AllEverywhere C.Proper es) (ha : a.Everywhere C.Proper) (hb : b.Everywhere C.Proper) :
    C.Folds ρ es (es.map ρ.eval).sum (C.sum es) ∧
    C.Folds ρ [a, b] (ρ.eval a - ρ.eval b) (C.difference a b) ∧
    C.Folds ρ [a, b] (ρ.eval a * ρ.eval b) (C.product a b) ∧
    C.Worth ρ (ρ.divide (ρ.eval a) (ρ.eval b)) (a.divide b) ∧
    (es ≠ [] → C.Worth ρ (Word.greatest signed (es.map ρ.eval)) (maximum signed es)) ∧
    C.Worth ρ (ρ.eval a) (a.extend signed) ∧
    C.Worth ρ (ρ.eval a) a.truncate ∧
    (∀ xs, .indeterminate ∈ xs → C.sum xs = .ok .indeterminate) ∧
    ∀ x y, x = .indeterminate ∨ y = .indeterminate → C.product x y = .ok .indeterminate := by
  have hP := C.stable_proper
  have hops : ∀ e ∈ es, maxOperands signed e ≠ [] :=
    fun e he => Context.maxOperands_ne_nil signed (hes e he).top.1
  refine ⟨Context.folds_sum ρ hes, Context.folds_difference ρ ha hb, Context.folds_product ρ ha hb,
    ⟨everywhere_divide hP ha hb, eval_divide ρ a b⟩, ?_,
    ⟨everywhere_extend hP signed ha, eval_extend ρ signed a⟩,
    ⟨everywhere_truncate hP ha, eval_truncate ρ a⟩,
    fun _ => Context.sum_eq_indeterminate, fun _ _ => Context.product_eq_indeterminate⟩
  intro hne
  exact ⟨everywhere_maximum hP hne hops hes, eval_maximum ρ hne hops⟩

/-- The inner loop has run three rounds and the outer one two; the parameter is ten. -/
def nestRounds : Valuation where
  value _ := 10
  size _ := 8
  align _ := 8
  rounds l := if l = 0 then 3 else 2
  byZero x := x

/-- A recurrence of the inner loop twice and one of the outer loop, folded in all ways. -/
theorem nest_folded :
    let inner : Evolution := .recurrence (.constant 1) [.constant 2] 0
    let outer : Evolution := .recurrence (.unknown (.argument 0)) [.constant 3] 1
    nest.Folds nestRounds [inner, outer, inner] 30 (nest.sum [inner, outer, inner]) ∧
    nest.Folds nestRounds [inner, outer] (-9) (nest.difference inner outer) ∧
    nest.Folds nestRounds [inner, outer] 112 (nest.product inner outer) ∧
    nest.Worth nestRounds 16 (maximum true [inner, outer, inner]) := by
  intro inner outer
  have hconst := everywhere_constant nest.stable_proper
  have hloops : 0 < nest.forest.loops.size ∧ 1 < nest.forest.loops.size := by decide
  have hinner : inner.Everywhere nest.Proper :=
    everywhere_recurrence_iff.2 ⟨⟨trivial, hloops.1⟩, hconst 1, by simpa using hconst 2⟩
  have houter : outer.Everywhere nest.Proper :=
    everywhere_recurrence_iff.2 ⟨⟨trivial, hloops.2⟩,
      .node ⟨trivial, trivial⟩ (by simp [operands]), by simpa using hconst 3⟩
  obtain ⟨hsum, hdifference, hproduct, -, hmax, -⟩ := folding_keeps_value nestRounds nest true
    [inner, outer, inner] inner outer (by simp [hinner, houter]) hinner houter
  exact ⟨hsum, hdifference, hproduct, hmax (List.cons_ne_nil _ _)⟩

end GridAccess
