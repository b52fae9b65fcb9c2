import GridAccess.Proofs.Operands
import GridAccess.Proofs.Outcome

set_option autoImplicit false

/-!
# How sums and products are folded

`Sums C es e` and `Multiplies C a fs e` say which rules of folding lead from operands to a result:
operands are gathered, recurrences of one loop are merged, and a recurrence absorbs operands that
do not change in its loop. Every result of `Context.sum` and `Context.product` comes about in this
way (`sums_of_sumWithin`, `multiplies_of_productWithin`), so that what folding does is proved by
induction over these rules:

* folding keeps properties of nodes that do not depend on how sums, products and recurrences are
  put together (`Sums.everywhere`, `Multiplies.everywhere`), and more generally those that the sums
  and products it builds have by the way they are built (`Context.Foldable`);
* it never raises the weight of the operands (`Sums.weight_le`, `Multiplies.weight_le`), and each
  construction inside another has less weight (`weights_merged_lt`, `weights_absorbed_lt`).
-/

namespace GridAccess

namespace Evolution

/-- A property of nodes that asks nothing of how they are put together by folding, but that a
recurrence may lose by having fewer steps. -/
structure Stable (P : Evolution → Prop) : Prop where
  constant : ∀ w, P (.constant w)
  sum : ∀ es, P (.sum es)
  product : ∀ es, P (.product es)
  quotient : ∀ a b, P (.quotient a b)
  smax : ∀ es, es ≠ [] → P (.smax es)
  umax : ∀ es, es ≠ [] → P (.umax es)
  recurrence : ∀ {a es l} b fs, es.length ≤ fs.length →
    P (.recurrence a es l) → P (.recurrence b fs l)
  zext : ∀ e, P (.zext e)
  sext : ∀ e, P (.sext e)
  trunc : ∀ e, P (.trunc e)

theorem Stable.and {P Q : Evolution → Prop} (hP : Stable P) (hQ : Stable Q) :
    Stable fun n => P n ∧ Q n where
  constant w := ⟨hP.constant w, hQ.constant w⟩
  sum es := ⟨hP.sum es, hQ.sum es⟩
  product es := ⟨hP.product es, hQ.product es⟩
  quotient a b := ⟨hP.quotient a b, hQ.quotient a b⟩
  smax es h := ⟨hP.smax es h, hQ.smax es h⟩
  umax es h := ⟨hP.umax es h, hQ.umax es h⟩
  recurrence b fs hle h := ⟨hP.recurrence b fs hle h.1, hQ.recurrence b fs hle h.2⟩
  zext e := ⟨hP.zext e, hQ.zext e⟩
  sext e := ⟨hP.sext e, hQ.sext e⟩
  trunc e := ⟨hP.trunc e, hQ.trunc e⟩

/-- A property of nodes that folding hands on wherever it builds neither a sum nor a product: a
recurrence has it from the two that its parts were taken from. -/
structure Lasting (P : Evolution → Prop) : Prop where
  constant : ∀ w, P (.constant w)
  quotient : ∀ a b, P (.quotient a b)
  smax : ∀ es, 2 ≤ es.length → P (.smax es)
  umax : ∀ es, 2 ≤ es.length → P (.umax es)
  recurrence : ∀ {a b es fs l} c gs, gs.length = max es.length fs.length →
    P (.recurrence a es l) → P (.recurrence b fs l) → P (.recurrence c gs l)
  zext : ∀ e, P (.zext e)
  sext : ∀ e, P (.sext e)
  trunc : ∀ e, P (.trunc e)

theorem Stable.lasting {P : Evolution → Prop} (hP : Stable P) : Lasting P where
  constant := hP.constant
  quotient := hP.quotient
  smax es h := hP.smax es (List.ne_nil_of_length_pos (by omega))
  umax es h := hP.umax es (List.ne_nil_of_length_pos (by omega))
  recurrence c gs hlength h _ := hP.recurrence c gs (hlength ▸ Nat.le_max_left _ _) h
  zext := hP.zext
  sext := hP.sext
  trunc := hP.trunc

/-- A recurrence has a lasting property from one with as many steps. -/
theorem Lasting.recurrence_of_length {P : Evolution → Prop} (hP : Lasting P) {a : Evolution}
    {es : List Evolution} {l : Nat} (b : Evolution) (fs : List Evolution)
    (hlength : es.length = fs.length) (h : P (.recurrence a es l)) : P (.recurrence b fs l) :=
  hP.recurrence b fs (by simp [hlength]) h h

/-- The node has a value: it is known, and a maximum is one of something. -/
def Definite : Evolution → Prop
  | indeterminate => False
  | smax es | umax es => es ≠ []
  | _ => True

theorem stable_definite : Stable Definite where
  constant _ := trivial
  sum _ := trivial
  product _ := trivial
  quotient _ _ := trivial
  smax _ h := h
  umax _ h := h
  recurrence _ _ _ _ := trivial
  zext _ := trivial
  sext _ := trivial
  trunc _ := trivial

/-- The instruction a node reads is one of `S`, and the loop of a recurrence is one of `L`. -/
def Scoped (S L : Nat → Prop) : Evolution → Prop
  | unknown (.instruction i) => S i
  | recurrence _ _ l => L l
  | _ => True

theorem stable_scoped (S L : Nat → Prop) : Stable (Scoped S L) where
  constant _ := trivial
  sum _ := trivial
  product _ := trivial
  quotient _ _ := trivial
  smax _ _ := trivial
  umax _ _ := trivial
  recurrence _ _ _ h := h
  zext _ := trivial
  sext _ := trivial
  trunc _ := trivial

/-- All nodes of all the evolutions have a property. -/
def AllEverywhere (P : Evolution → Prop) (es : List Evolution) : Prop := ∀ e ∈ es, e.Everywhere P

section AllEverywhere

variable {P : Evolution → Prop} {e : Evolution} {es fs : List Evolution}

@[simp] theorem allEverywhere_nil : AllEverywhere P [] := by simp [AllEverywhere]

@[simp] theorem allEverywhere_cons :
    AllEverywhere P (e :: es) ↔ e.Everywhere P ∧ AllEverywhere P es := by simp [AllEverywhere]

@[simp] theorem allEverywhere_append :
    AllEverywhere P (es ++ fs) ↔ AllEverywhere P es ∧ AllEverywhere P fs := by
  simp only [AllEverywhere, List.mem_append, or_imp, forall_and]

theorem everywhere_constant (hP : Stable P) (w : Word) : (constant w).Everywhere P :=
  .leaf (hP.constant w) rfl

theorem everywhere_recurrence_iff {a : Evolution} {l : Nat} :
    (recurrence a es l).Everywhere P ↔
      P (recurrence a es l) ∧ a.Everywhere P ∧ AllEverywhere P es := by
  rw [everywhere_iff, operands, ← AllEverywhere, allEverywhere_cons]

theorem everywhere_sum_iff : (sum es).Everywhere P ↔ P (sum es) ∧ AllEverywhere P es := by
  rw [everywhere_iff, operands, ← AllEverywhere]

theorem everywhere_product_iff :
    (product es).Everywhere P ↔ P (product es) ∧ AllEverywhere P es := by
  rw [everywhere_iff, operands, ← AllEverywhere]

theorem allEverywhere_terms (h : e.Everywhere P) : AllEverywhere P (terms e) := by
  cases e with
  | sum es => exact (everywhere_sum_iff.1 h).2
  | _ => simpa [terms] using h

theorem allEverywhere_factors (h : e.Everywhere P) : AllEverywhere P (factors e) := by
  cases e with
  | product es => exact (everywhere_product_iff.1 h).2
  | _ => simpa [factors] using h

theorem allEverywhere_gather (hP : Lasting P) {split : Evolution → List Evolution}
    {op : Word → Word → Word} {unit : Word}
    (hsplit : ∀ {e : Evolution}, e.Everywhere P → AllEverywhere P (split e))
    (h : AllEverywhere P es) : AllEverywhere P (gather split op unit es) := by
  intro e he
  rcases mem_gather he with ⟨w, rfl⟩ | ⟨f, hf, hef⟩
  · exact .leaf (hP.constant w) rfl
  · exact hsplit (h f hf) e hef

theorem allEverywhere_sumTerms (hP : Lasting P) (h : AllEverywhere P es) :
    AllEverywhere P (sumTerms es) := by
  rw [sumTerms_eq_gather]
  exact allEverywhere_gather hP allEverywhere_terms h

theorem allEverywhere_productFactors (hP : Lasting P) (h : AllEverywhere P es) :
    AllEverywhere P (productFactors es) := by
  rw [productFactors_eq_gather]
  exact allEverywhere_gather hP allEverywhere_factors h

theorem everywhere_ofTerms (hP : Lasting P) (hsum : 2 ≤ es.length → P (sum es))
    (h : AllEverywhere P es) : (ofTerms es).Everywhere P := by
  match es with
  | [] => exact .leaf (hP.constant 0) rfl
  | [e] => simpa [ofTerms] using h
  | e :: f :: es => exact everywhere_sum_iff.2 ⟨hsum (by simp), h⟩

theorem everywhere_ofFactors (hP : Lasting P) (hproduct : 2 ≤ es.length → P (product es))
    (h : AllEverywhere P es) : (ofFactors es).Everywhere P := by
  match es with
  | [] => exact .leaf (hP.constant 1) rfl
  | [e] => simpa [ofFactors] using h
  | e :: f :: es => exact everywhere_product_iff.2 ⟨hproduct (by simp), h⟩

/-- An operand that is not known is a node of one of the evolutions that were brought together. -/
theorem not_any_isIndeterminate {split : Evolution → List Evolution}
    (hsplit : ∀ {e : Evolution}, e.Everywhere Definite → AllEverywhere Definite (split e))
    (h : AllEverywhere Definite es) :
    (es.flatMap split).any isIndeterminate = false := by
  rw [List.any_eq_false]
  intro x hx
  obtain ⟨e, he, hxe⟩ := List.mem_flatMap.1 hx
  have htop := (hsplit (h e he) x hxe).top
  cases x with
  | indeterminate => exact htop.elim
  | _ => simp [isIndeterminate]

end AllEverywhere

end Evolution

open Evolution

/-! ## The rules -/

/-- The rules by which the sum of evolutions is folded. -/
inductive Sums (C : Context) : List Evolution → Evolution → Prop
  | lost {es : List Evolution} (hany : (es.flatMap terms).any isIndeterminate = true) :
      Sums C es .indeterminate
  | plain {es : List Evolution} (hany : (es.flatMap terms).any isIndeterminate = false)
      (hplain : (sumTerms es).length ≤ 1 ∨
        (samePair? (sumTerms es) = none ∧ C.absorbing? (pivots (sumTerms es)) = .ok none)) :
      Sums C es (ofTerms (sumTerms es))
  | merge {es steps : List Evolution} {p q : Pivot} {start e : Evolution}
      (hany : (es.flatMap terms).any isIndeterminate = false)
      (hpair : samePair? (sumTerms es) = some (p, q))
      (hstart : Sums C [p.start, q.start] start)
      (hlength : (pairSteps p.steps q.steps).length = steps.length)
      (hsteps : ∀ x ∈ (pairSteps p.steps q.steps).zip steps, Sums C [x.1.1, x.1.2] x.2)
      (hrest : Sums C (p.before ++ .recurrence start steps p.loop :: q.others) e) : Sums C es e
  | absorb {es : List Evolution} {p : Pivot} {start : Evolution}
      (hany : (es.flatMap terms).any isIndeterminate = false)
      (hpair : samePair? (sumTerms es) = none)
      (habsorb : C.absorbing? (pivots (sumTerms es)) = .ok (some p))
      (hstart : Sums C (p.before ++ p.start :: p.after) start) :
      Sums C es (.recurrence start p.steps p.loop)

/-- The rules by which an evolution is multiplied by some factors, one after the other. -/
inductive Multiplies (C : Context) : Evolution → List Evolution → Evolution → Prop
  | done (a : Evolution) : Multiplies C a [] a
  | lost {a b e : Evolution} {fs : List Evolution}
      (hany : ([a, b].flatMap factors).any isIndeterminate = true)
      (rest : Multiplies C .indeterminate fs e) : Multiplies C a (b :: fs) e
  | vanish {a b e : Evolution} {fs : List Evolution}
      (hany : ([a, b].flatMap factors).any isIndeterminate = false)
      (hzero : (constantsOf ([a, b].flatMap factors)).contains 0 = true)
      (rest : Multiplies C .zero fs e) : Multiplies C a (b :: fs) e
  | plain {a b e : Evolution} {fs : List Evolution}
      (hany : ([a, b].flatMap factors).any isIndeterminate = false)
      (hzero : (constantsOf ([a, b].flatMap factors)).contains 0 = false)
      (hplain : (productFactors [a, b]).length ≤ 1 ∨
        C.absorbing? (pivots (productFactors [a, b])) = .ok none)
      (rest : Multiplies C (ofFactors (productFactors [a, b])) fs e) : Multiplies C a (b :: fs) e
  | absorb {a b e start : Evolution} {fs steps : List Evolution} {p : Pivot}
      (hany : ([a, b].flatMap factors).any isIndeterminate = false)
      (hzero : (constantsOf ([a, b].flatMap factors)).contains 0 = false)
      (habsorb : C.absorbing? (pivots (productFactors [a, b])) = .ok (some p))
      (hstart : Multiplies C p.start p.others start)
      (hlength : p.steps.length = steps.length)
      (hsteps : ∀ x ∈ p.steps.zip steps, Multiplies C x.1 p.others x.2)
      (rest : Multiplies C (.recurrence start steps p.loop) fs e) : Multiplies C a (b :: fs) e

namespace Context

variable {C : Context}

theorem mem_of_absorbing? {ps : List Pivot} {p : Pivot}
    (h : C.absorbing? ps = .ok (some p)) : p ∈ ps := by
  induction ps with
  | nil => simp [absorbing?] at h
  | cons q ps ih =>
    rw [absorbing?] at h
    split at h
    · simp only [Except.ok.injEq, Option.some.injEq] at h
      exact h ▸ List.mem_cons_self
    · exact List.mem_cons_of_mem q (ih h)
    · cases h

theorem allInvariant_of_absorbing? {ps : List Pivot} {p : Pivot}
    (h : C.absorbing? ps = .ok (some p)) :
    C.allInvariant p.loop p.others = .ok true := by
  induction ps with
  | nil => cases h
  | cons q ps ih =>
    rw [absorbing?] at h
    split at h
    · rename_i hq
      obtain rfl := Option.some.inj (Except.ok.inj h)
      exact hq
    · exact ih h
    · cases h

/-- If the other operands are invariant in the loop of some recurrence, one is found. -/
theorem absorbing?_ne_none {ps : List Pivot} {p : Pivot} (hp : p ∈ ps)
    (h : C.allInvariant p.loop p.others = .ok true) : C.absorbing? ps ≠ .ok none := by
  induction ps with
  | nil => cases hp
  | cons q ps ih =>
    rw [absorbing?]
    split
    · simp
    · rename_i hq
      rcases List.mem_cons.1 hp with rfl | hp
      · rw [h] at hq
        cases hq
      · exact ih hp
    · simp

/-- Every sum comes about by the rules. -/
theorem sums_of_sumWithin {depth : Nat} {es : List Evolution} {e : Evolution}
    (h : C.sumWithin depth es = .ok e) : Sums C es e := by
  induction depth generalizing es e with
  | zero => cases h
  | succ depth ih =>
    rw [sumWithin] at h
    split at h
    · cases h
      exact .lost ‹_›
    · rename_i hany
      rw [Bool.not_eq_true] at hany
      dsimp only at h
      split at h
      · cases h
        exact .plain hany (Or.inl ‹_›)
      · split at h
        · -- two recurrences of one loop are added part by part, and then the rest
          rename_i p q hpair
          obtain ⟨start, hstart, h⟩ := bind_eq_ok_iff.1 h
          obtain ⟨steps, hsteps, h⟩ := bind_eq_ok_iff.1 h
          obtain ⟨hlength, hall⟩ := mapM_eq_ok hsteps
          exact .merge hany hpair (ih hstart) hlength (fun x hx => ih (hall x hx)) (ih h)
        · -- at most one recurrence for each loop: one of them may absorb the other operands
          rename_i hpair
          obtain ⟨found, hfound, h⟩ := bind_eq_ok_iff.1 h
          cases found with
          | none =>
            obtain rfl := pure_eq_ok_iff.1 h
            exact .plain hany (Or.inr ⟨hpair, hfound⟩)
          | some p =>
            obtain ⟨start, hstart, h⟩ := bind_eq_ok_iff.1 h
            obtain rfl := pure_eq_ok_iff.1 h
            exact .absorb hany hpair hfound (ih hstart)

theorem multiplies_of_foldlM {mul : Evolution → Evolution → Except Fault Evolution}
    (hmul : ∀ {a b e : Evolution}, mul a b = .ok e →
      ∀ {fs : List Evolution} {r : Evolution}, Multiplies C e fs r → Multiplies C a (b :: fs) r)
    {fs : List Evolution} {a e : Evolution} (h : fs.foldlM mul a = .ok e) :
    Multiplies C a fs e := by
  induction fs generalizing a with
  | nil =>
    obtain rfl := pure_eq_ok_iff.1 h
    exact .done a
  | cons f fs ihfs =>
    rw [List.foldlM_cons, bind_eq_ok_iff] at h
    obtain ⟨b, hb, h⟩ := h
    exact hmul hb (ihfs h)

/-- Every product comes about by the rules, whatever factors come after it. -/
theorem multiplies_of_productWithin {depth : Nat} {a b e : Evolution}
    (h : C.productWithin depth a b = .ok e) {fs : List Evolution} {r : Evolution}
    (rest : Multiplies C e fs r) : Multiplies C a (b :: fs) r := by
  induction depth generalizing a b e fs r with
  | zero => cases h
  | succ depth ih =>
    rw [productWithin] at h
    dsimp only at h
    split at h
    · cases h
      exact .lost ‹_› rest
    · rename_i hany
      rw [Bool.not_eq_true] at hany
      split at h
      · cases h
        exact .vanish hany ‹_› rest
      · rename_i hzero
        rw [Bool.not_eq_true] at hzero
        split at h
        · cases h
          exact .plain hany hzero (Or.inl ‹_›) rest
        · obtain ⟨found, hfound, h⟩ := bind_eq_ok_iff.1 h
          cases found with
          | none =>
            obtain rfl := pure_eq_ok_iff.1 h
            exact .plain hany hzero (Or.inr hfound) rest
          | some p =>
            -- every part of the recurrence is multiplied by all other factors
            obtain ⟨start, hstart, h⟩ := bind_eq_ok_iff.1 h
            obtain ⟨steps, hsteps, h⟩ := bind_eq_ok_iff.1 h
            obtain rfl := pure_eq_ok_iff.1 h
            obtain ⟨hlength, hall⟩ := mapM_eq_ok hsteps
            exact .absorb hany hzero hfound (multiplies_of_foldlM ih hstart) hlength
              (fun x hx => multiplies_of_foldlM ih (hall x hx)) rest

end Context

/-! ## What folding keeps -/

/-- A lasting property that the sums and products left by folding have: sums without two
recurrences of one loop and without a recurrence that absorbs the other terms, products of factors
that have been gathered. -/
structure Context.Foldable (C : Context) (P : Evolution → Prop) : Prop extends Lasting P where
  sum : ∀ {es}, AllEverywhere P es → 2 ≤ (sumTerms es).length → samePair? (sumTerms es) = none →
    C.absorbing? (pivots (sumTerms es)) = .ok none → P (.sum (sumTerms es))
  product : ∀ {a b}, AllEverywhere P [a, b] → 2 ≤ (productFactors [a, b]).length →
    P (.product (productFactors [a, b]))

theorem Evolution.Stable.foldable {P : Evolution → Prop} (hP : Stable P) (C : Context) :
    C.Foldable P where
  toLasting := hP.lasting
  sum _ _ _ _ := hP.sum _
  product _ _ := hP.product _

section Pivots

variable {P : Evolution → Prop} {p q : Pivot} {es : List Evolution}

/-- What holds everywhere in operands holds everywhere around and in a recurrence among them. -/
theorem allEverywhere_pivot (h : AllEverywhere P es) (hp : p ∈ pivots es) :
    AllEverywhere P p.others ∧ P p.recurrence ∧ p.start.Everywhere P ∧
      AllEverywhere P p.steps := by
  rw [eq_of_mem_pivots hp, allEverywhere_append, allEverywhere_cons, Pivot.recurrence,
    everywhere_recurrence_iff] at h
  rw [Pivot.others, allEverywhere_append]
  exact ⟨⟨h.1, h.2.2⟩, h.2.1⟩

/-- What holds everywhere in operands holds everywhere if a recurrence among them is replaced by
its start. -/
theorem allEverywhere_absorbed (h : AllEverywhere P es) (hp : p ∈ pivots es) :
    AllEverywhere P (p.before ++ p.start :: p.after) := by
  obtain ⟨hothers, -, hstart, -⟩ := allEverywhere_pivot h hp
  rw [Pivot.others, allEverywhere_append] at hothers
  rw [allEverywhere_append, allEverywhere_cons]
  exact ⟨hothers.1, hstart, hothers.2⟩

theorem allEverywhere_samePair? (h : AllEverywhere P es) (hpq : samePair? es = some (p, q)) :
    AllEverywhere P p.before ∧ (P p.recurrence ∧ p.start.Everywhere P ∧ AllEverywhere P p.steps) ∧
      AllEverywhere P q.others ∧ q.start.Everywhere P ∧ AllEverywhere P q.steps := by
  rw [(eq_of_samePair? hpq).1, allEverywhere_append, allEverywhere_cons, allEverywhere_append,
    allEverywhere_cons, Pivot.recurrence, Pivot.recurrence, everywhere_recurrence_iff,
    everywhere_recurrence_iff] at h
  rw [Pivot.others, allEverywhere_append]
  exact ⟨h.1, h.2.1, ⟨h.2.2.1, h.2.2.2.2⟩, h.2.2.2.1.2⟩

theorem everywhere_pairSteps (hP : Lasting P) {as bs : List Evolution} (has : AllEverywhere P as)
    (hbs : AllEverywhere P bs) {x : Evolution × Evolution} (hx : x ∈ pairSteps as bs) :
    AllEverywhere P [x.1, x.2] := by
  have hzero : zero.Everywhere P := .leaf (hP.constant 0) rfl
  obtain ⟨h₁ | h₁, h₂ | h₂⟩ := mem_pairSteps hx
  · simpa [h₁, h₂] using hzero
  · simpa [h₁, hzero] using hbs _ h₂
  · simpa [h₂, hzero] using has _ h₁
  · simpa using ⟨has _ h₁, hbs _ h₂⟩

theorem weights_pivot (hp : p ∈ pivots es) : weights es =
    weights p.others + (max p.start.weight (greatestWeight p.steps) + 1) := by
  rw [eq_of_mem_pivots hp, Pivot.others, weights_append, weights_append, weights, Pivot.recurrence,
    weight_recurrence]
  omega

theorem weights_samePair? (hpq : samePair? es = some (p, q)) : weights es =
    weights p.before + weights q.others + (max p.start.weight (greatestWeight p.steps) + 1) +
      (max q.start.weight (greatestWeight q.steps) + 1) := by
  rw [(eq_of_samePair? hpq).1, Pivot.others, weights_append, weights, weights_append, weights,
    weights_append, Pivot.recurrence, Pivot.recurrence, weight_recurrence, weight_recurrence]
  omega

theorem weights_pairSteps_le {as bs : List Evolution} {x : Evolution × Evolution}
    (hx : x ∈ pairSteps as bs) : weights [x.1, x.2] ≤ greatestWeight as + greatestWeight bs := by
  have hle : ∀ (e : Evolution) (es : List Evolution), e = zero ∨ e ∈ es →
      e.weight ≤ greatestWeight es := by
    rintro e es (rfl | he)
    · simp
    · exact weight_le_greatestWeight he
  obtain ⟨h₁, h₂⟩ := mem_pairSteps hx
  have := hle x.1 as h₁
  have := hle x.2 bs h₂
  simp only [weights]
  omega

/-- What holds everywhere in two recurrences and in the sums of their parts holds everywhere in the
recurrence that they are merged into. -/
theorem everywhere_merged (hP : Lasting P) (hp : p.recurrence.Everywhere P)
    (hq : q.recurrence.Everywhere P) (hloop : q.loop = p.loop) {start : Evolution}
    {steps : List Evolution}
    (hstart : AllEverywhere P [p.start, q.start] → start.Everywhere P)
    (hlength : (pairSteps p.steps q.steps).length = steps.length)
    (hsteps : ∀ x ∈ (pairSteps p.steps q.steps).zip steps,
      AllEverywhere P [x.1.1, x.1.2] → x.2.Everywhere P) :
    (recurrence start steps p.loop).Everywhere P := by
  obtain ⟨hrec, hps, hpsteps⟩ := everywhere_recurrence_iff.1 hp
  obtain ⟨hqrec, hqs, hqsteps⟩ := everywhere_recurrence_iff.1 hq
  have hmerged : AllEverywhere P steps := by
    intro y hy
    obtain ⟨x, hx, hxy⟩ := exists_zip_of_mem hlength hy
    exact hsteps _ hxy (everywhere_pairSteps hP hpsteps hqsteps hx)
  have hsize : steps.length = max p.steps.length q.steps.length := by
    rw [← hlength, length_pairSteps]
  refine everywhere_recurrence_iff.2 ⟨?_, ?_, hmerged⟩
  · exact hP.recurrence _ _ hsize hrec (hloop ▸ hqrec)
  · exact hstart (by simpa using ⟨hps, hqs⟩)

/-- Two recurrences merged into one: what holds everywhere in the operands and in the sums of the
parts holds everywhere in the operands that are left. -/
theorem allEverywhere_merged (hP : Lasting P) (hes : AllEverywhere P es)
    (hpair : samePair? (sumTerms es) = some (p, q)) {start : Evolution} {steps : List Evolution}
    (hstart : AllEverywhere P [p.start, q.start] → start.Everywhere P)
    (hlength : (pairSteps p.steps q.steps).length = steps.length)
    (hsteps : ∀ x ∈ (pairSteps p.steps q.steps).zip steps,
      AllEverywhere P [x.1.1, x.1.2] → x.2.Everywhere P) :
    AllEverywhere P (p.before ++ .recurrence start steps p.loop :: q.others) := by
  obtain ⟨hcut, hloop⟩ := eq_of_samePair? hpair
  have hterms := allEverywhere_sumTerms hP hes
  rw [hcut, allEverywhere_append, allEverywhere_cons, allEverywhere_append,
    allEverywhere_cons] at hterms
  obtain ⟨hbefore, hp, hqbefore, hq, hafter⟩ := hterms
  rw [allEverywhere_append, allEverywhere_cons, Pivot.others, allEverywhere_append]
  exact ⟨hbefore, everywhere_merged hP hp hq hloop hstart hlength hsteps, hqbefore, hafter⟩

/-- A recurrence among factors whose parts are multiplied by the other factors: what holds
everywhere in the factors and in the products holds everywhere in it. -/
theorem everywhere_scaled (hP : Lasting P) {a b : Evolution} (hab : AllEverywhere P [a, b])
    (hp : p ∈ pivots (productFactors [a, b])) {start : Evolution} {steps : List Evolution}
    (hstart : p.start.Everywhere P → AllEverywhere P p.others → start.Everywhere P)
    (hlength : p.steps.length = steps.length)
    (hsteps : ∀ x ∈ p.steps.zip steps,
      x.1.Everywhere P → AllEverywhere P p.others → x.2.Everywhere P) :
    (recurrence start steps p.loop).Everywhere P := by
  obtain ⟨hothers, hrec, hps, hpsteps⟩ :=
    allEverywhere_pivot (allEverywhere_productFactors hP hab) hp
  have hscaled : AllEverywhere P steps := by
    intro y hy
    obtain ⟨x, hx, hxy⟩ := exists_zip_of_mem hlength hy
    exact hsteps _ hxy (hpsteps x hx) hothers
  exact everywhere_recurrence_iff.2
    ⟨hP.recurrence_of_length _ _ hlength hrec, hstart hps hothers, hscaled⟩

/-- Two recurrences merged into one weigh less. -/
theorem weights_merged_lt (hpair : samePair? (sumTerms es) = some (p, q)) {start : Evolution}
    {steps : List Evolution} (hstart : start.weight ≤ weights [p.start, q.start])
    (hlength : (pairSteps p.steps q.steps).length = steps.length)
    (hsteps : ∀ x ∈ (pairSteps p.steps q.steps).zip steps, x.2.weight ≤ weights [x.1.1, x.1.2]) :
    weights (p.before ++ .recurrence start steps p.loop :: q.others) < weights es := by
  have hw := weights_samePair? hpair
  rw [weights_sumTerms] at hw
  have hmerged : greatestWeight steps ≤ greatestWeight p.steps + greatestWeight q.steps := by
    refine greatestWeight_le fun y hy => ?_
    obtain ⟨x, hx, hxy⟩ := exists_zip_of_mem hlength hy
    exact (hsteps _ hxy).trans (weights_pairSteps_le hx)
  simp only [weights_append, weights, weight_recurrence] at hstart ⊢
  omega

/-- The operands with a recurrence replaced by its start weigh less. -/
theorem weights_absorbed_lt (hp : p ∈ pivots es) :
    weights (p.before ++ p.start :: p.after) < weights es := by
  have hw := weights_pivot hp
  rw [Pivot.others, weights_append] at hw
  simp only [weights_append, weights]
  omega

end Pivots

namespace Sums

variable {C : Context} {es : List Evolution} {e : Evolution}

/-- Folding a sum keeps a foldable property of all nodes. -/
theorem everywhere_of_foldable (h : Sums C es e) {P : Evolution → Prop} (hP : C.Foldable P)
    (hes : AllEverywhere P es) : e.Everywhere P := by
  induction h with
  | @lost es hany =>
    obtain ⟨x, hx, hind⟩ := List.any_eq_true.1 hany
    obtain ⟨f, hf, hxf⟩ := List.mem_flatMap.1 hx
    have hx := allEverywhere_terms (hes f hf) x hxf
    cases x <;> simp [isIndeterminate] at hind
    exact hx
  | plain _ hplain =>
    apply everywhere_ofTerms hP.toLasting _ (allEverywhere_sumTerms hP.toLasting hes)
    intro htwo
    obtain ⟨hpair, hnone⟩ := hplain.resolve_left (by omega)
    exact hP.sum hes htwo hpair hnone
  | merge _ hpair _ hlength _ _ ihstart ihsteps ihrest =>
    exact ihrest (allEverywhere_merged hP.toLasting hes hpair ihstart hlength ihsteps)
  | @absorb es p start _ _ habsorb _ ih =>
    have hterms := allEverywhere_sumTerms hP.toLasting hes
    have hp := Context.mem_of_absorbing? habsorb
    obtain ⟨-, hrec, -, hpsteps⟩ := allEverywhere_pivot hterms hp
    exact everywhere_recurrence_iff.2 ⟨hP.recurrence_of_length _ _ rfl hrec,
      ih (allEverywhere_absorbed hterms hp), hpsteps⟩

/-- Folding a sum keeps a stable property of all nodes. -/
theorem everywhere (h : Sums C es e) {P : Evolution → Prop} (hP : Stable P)
    (hes : AllEverywhere P es) : e.Everywhere P :=
  h.everywhere_of_foldable (hP.foldable C) hes

/-- Folding a sum does not raise the weight. -/
theorem weight_le (h : Sums C es e) : e.weight ≤ weights es := by
  induction h with
  | lost _ => simp
  | @plain es _ _ => rw [weight_ofTerms, weights_sumTerms]
  | merge _ hpair _ hlength _ _ ihstart ihsteps ihrest =>
    exact ihrest.trans (weights_merged_lt hpair ihstart hlength ihsteps).le
  | @absorb es p start _ _ habsorb _ ih =>
    have hw := weights_pivot (Context.mem_of_absorbing? habsorb)
    rw [weights_sumTerms] at hw
    rw [Pivot.others, weights_append] at hw
    simp only [weights_append, weights] at ih
    rw [weight_recurrence]
    omega

end Sums

namespace Multiplies

variable {C : Context} {a e : Evolution} {fs : List Evolution}

/-- Folding products keeps a foldable property of all nodes. -/
theorem everywhere_of_foldable (h : Multiplies C a fs e) {P : Evolution → Prop}
    (hP : C.Foldable P) (ha : a.Everywhere P) (hfs : AllEverywhere P fs) : e.Everywhere P := by
  induction h with
  | done _ => exact ha
  | @lost a b e fs hany _ ih =>
    rw [allEverywhere_cons] at hfs
    obtain ⟨x, hx, hind⟩ := List.any_eq_true.1 hany
    obtain ⟨f, hf, hxf⟩ := List.mem_flatMap.1 hx
    have hall : AllEverywhere P [a, b] := by simpa using ⟨ha, hfs.1⟩
    have hx := allEverywhere_factors (hall f hf) x hxf
    cases x <;> simp [isIndeterminate] at hind
    exact ih hx hfs.2
  | vanish _ _ _ ih =>
    rw [allEverywhere_cons] at hfs
    exact ih (.leaf (hP.constant 0) rfl) hfs.2
  | @plain a b e fs _ _ _ _ ih =>
    rw [allEverywhere_cons] at hfs
    have hall : AllEverywhere P [a, b] := by simpa using ⟨ha, hfs.1⟩
    exact ih (everywhere_ofFactors hP.toLasting (hP.product hall)
      (allEverywhere_productFactors hP.toLasting hall)) hfs.2
  | @absorb a b e start fs steps p _ _ habsorb _ hlength _ _ ihstart ihsteps ih =>
    rw [allEverywhere_cons] at hfs
    have hall : AllEverywhere P [a, b] := by simpa using ⟨ha, hfs.1⟩
    exact ih (everywhere_scaled hP.toLasting hall (Context.mem_of_absorbing? habsorb) ihstart
      hlength ihsteps) hfs.2

/-- Folding products keeps a stable property of all nodes. -/
theorem everywhere (h : Multiplies C a fs e) {P : Evolution → Prop} (hP : Stable P)
    (ha : a.Everywhere P) (hfs : AllEverywhere P fs) : e.Everywhere P :=
  h.everywhere_of_foldable (hP.foldable C) ha hfs

/-- Folding products does not raise the weight. -/
theorem weight_le (h : Multiplies C a fs e) : e.weight ≤ a.weight + weights fs := by
  induction h with
  | done _ => simp [weights]
  | lost _ _ ih | vanish _ _ _ ih =>
    simp only [weight_indeterminate, weight_zero] at ih
    rw [weights]
    omega
  | plain _ _ _ _ ih =>
    rw [weight_ofFactors, weights_productFactors] at ih
    simp only [weights] at ih ⊢
    omega
  | @absorb a b e start fs steps p _ _ habsorb _ hlength _ _ ihstart ihsteps ih =>
    have hw := weights_pivot (Context.mem_of_absorbing? habsorb)
    rw [weights_productFactors] at hw
    have hsteps : greatestWeight steps ≤ greatestWeight p.steps + weights p.others := by
      refine greatestWeight_le fun y hy => ?_
      obtain ⟨x, hx, hxy⟩ := exists_zip_of_mem hlength hy
      have hle := weight_le_greatestWeight hx
      have hy : y.weight ≤ x.weight + weights p.others := ihsteps _ hxy
      omega
    simp only [weights, weight_recurrence] at ih hw ⊢
    omega

end Multiplies

end GridAccess
