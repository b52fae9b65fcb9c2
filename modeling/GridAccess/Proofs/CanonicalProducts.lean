import GridAccess.Proofs.CanonicalSums
import GridAccess.Proofs.FoldingValue
import Mathlib.NumberTheory.Padics.PadicVal.Basic

set_option autoImplicit false

/-!
# Products in canonical form

A product is tidy if its factors are two or more, no factor is a product again, and only the first
may be a constant, which is then neither zero nor one (`TidyProduct NotTrivial`). Folding keeps
products tidy but for one thing. A constant zero makes a product zero only where it is written as a
factor. Constants that are not zero and multiply to zero, as words do, leave a product that begins
with zero: `2 ^ 32 * n` times `2 ^ 32` is `0 * n` (`product_keeps_wrapped_zero`).

`Context.product_canonical` therefore says three things of a product of two evolutions whose
products are tidy. Every product in the result is tidy if zero is admitted as its first factor. If
two divides the constants of the operands less than 64 times altogether (`twos`), nothing wraps and
zero need not be admitted. And where the constant factors multiply to zero, the result is zero
exactly if one of them is zero or there are no other factors.
-/

namespace GridAccess

/-! ## Powers of two in words -/

namespace Word

/-- How often two divides a word; not at all if the word is zero. -/
def twos (w : Word) : Nat := padicValNat 2 w.toNat

/-- Words that two divides less than 64 times altogether do not multiply to zero. -/
theorem twos_mul {x y : Word} (hx : x ≠ 0) (hy : y ≠ 0) (hlt : twos x + twos y < 64) :
    x * y ≠ 0 ∧ twos (x * y) = twos x + twos y := by
  have hx0 : x.toNat ≠ 0 := fun h => hx (BitVec.eq_of_toNat_eq (by simpa using h))
  have hy0 : y.toNat ≠ 0 := fun h => hy (BitVec.eq_of_toNat_eq (by simpa using h))
  have hprod : padicValNat 2 (x.toNat * y.toNat) = twos x + twos y := padicValNat.mul hx0 hy0
  -- up to the 64th, the powers of two that divide the product of words divide that of numbers
  have hdvd : ∀ k ≤ 64, 2 ^ k ∣ (x * y).toNat ↔ k ≤ twos x + twos y := by
    intro k hk
    rw [BitVec.toNat_mul, Nat.dvd_mod_iff (Nat.pow_dvd_pow 2 hk),
      padicValNat_dvd_iff_le (Nat.mul_ne_zero hx0 hy0), hprod]
  have hne : (x * y).toNat ≠ 0 := by
    intro h
    have := (hdvd 64 le_rfl).1 (h ▸ dvd_zero _)
    omega
  refine ⟨fun h => hne (by simp [h]), le_antisymm ?_ ?_⟩
  · by_contra hgt
    have hmore := (hdvd (twos x + twos y + 1) (by omega)).1
      ((padicValNat_dvd_iff_le hne).2 (by rw [twos] at hgt; omega))
    omega
  · exact (padicValNat_dvd_iff_le hne).1 ((hdvd _ hlt.le).2 le_rfl)

@[simp] theorem twos_one : twos 1 = 0 := by simp [twos]

@[simp] theorem twos_zero : twos 0 = 0 := by simp [twos]

/-- The same of any number of words. -/
theorem twos_prod {ws : List Word} (hzero : 0 ∉ ws) (hlt : (ws.map twos).sum < 64) :
    ws.prod ≠ 0 ∧ twos ws.prod = (ws.map twos).sum := by
  induction ws with
  | nil => exact ⟨by decide, twos_one⟩
  | cons w ws ih =>
    rw [List.map_cons, List.sum_cons] at hlt ⊢
    obtain ⟨hne, htwos⟩ := ih (fun h => hzero (List.mem_cons_of_mem w h)) (by omega)
    have hw : w ≠ 0 := fun h => hzero (h ▸ List.mem_cons_self)
    rw [List.prod_cons, ← htwos]
    exact twos_mul hw hne (by omega)

end Word

namespace Evolution

/-! ## Powers of two in evolutions -/

mutual

/-- How often two divides the constants among the factors of an evolution, where the parts of a
recurrence are looked at one at a time. -/
def twos : Evolution → Nat
  | constant w => w.twos
  | product es => twosSum es
  | recurrence a es _ => max a.twos (greatestTwos es)
  | _ => 0

/-- How often two divides the constants among the factors of evolutions, added up. -/
def twosSum : List Evolution → Nat
  | [] => 0
  | e :: es => e.twos + twosSum es

/-- The most that two divides the constants among the factors of one of the evolutions. -/
def greatestTwos : List Evolution → Nat
  | [] => 0
  | e :: es => max e.twos (greatestTwos es)

end

section Twos

variable {a e : Evolution} {es fs : List Evolution} {l n : Nat} {w : Word}

@[simp] theorem twos_constant : (constant w).twos = w.twos := by rw [twos]

@[simp] theorem twos_indeterminate : indeterminate.twos = 0 := by simp [twos]

@[simp] theorem twos_recurrence :
    (recurrence a es l).twos = max a.twos (greatestTwos es) := by rw [twos]

theorem twosSum_eq : twosSum es = (es.map twos).sum := by
  induction es with
  | nil => rfl
  | cons e es ih => rw [twosSum, ih, List.map_cons, List.sum_cons]

@[simp] theorem twos_product : (product es).twos = (es.map twos).sum := by rw [twos, twosSum_eq]

theorem twos_le_greatestTwos (h : e ∈ es) : e.twos ≤ greatestTwos es := by
  induction es with
  | nil => cases h
  | cons f es ih =>
    rw [greatestTwos]
    rcases List.mem_cons.1 h with rfl | h
    · exact Nat.le_max_left _ _
    · exact (ih h).trans (Nat.le_max_right _ _)

theorem greatestTwos_le (h : ∀ e ∈ es, e.twos ≤ n) : greatestTwos es ≤ n := by
  induction es with
  | nil => exact Nat.zero_le n
  | cons e es ih =>
    rw [greatestTwos]
    exact Nat.max_le.2 ⟨h e List.mem_cons_self, ih fun f hf => h f (List.mem_cons_of_mem e hf)⟩

theorem sum_twos_factors : ((factors e).map twos).sum = e.twos := by
  cases e <;> simp [factors]

theorem sum_twos_flatMap : ((es.flatMap factors).map twos).sum = (es.map twos).sum := by
  induction es with
  | nil => rfl
  | cons e es ih =>
    rw [List.flatMap_cons, List.map_append, List.sum_append, sum_twos_factors, ih, List.map_cons,
      List.sum_cons]

theorem twos_ofFactors : (ofFactors es).twos = (es.map twos).sum := by
  match es with
  | [] => exact twos_constant.trans Word.twos_one
  | [e] => simp [ofFactors]
  | e :: f :: es => exact twos_product

/-- Constants and other factors, counted apart. -/
theorem sum_twos_constants_others : (es.map twos).sum =
    ((constantsOf es).map Word.twos).sum + ((othersOf es).map twos).sum := by
  induction es with
  | nil => rfl
  | cons e es ih =>
    rw [List.map_cons, List.sum_cons, ih]
    cases hc : e.constant? with
    | none =>
      simp only [constantsOf, othersOf, List.filterMap_cons, List.filter_cons, hc,
        Option.isNone_none, if_true, List.map_cons, List.sum_cons]
      omega
    | some w =>
      obtain rfl := eq_constant_of_constant? hc
      simp only [constantsOf, othersOf, List.filterMap_cons, List.filter_cons, hc, twos_constant,
        Option.isNone_some, Bool.false_eq_true, if_false, List.map_cons, List.sum_cons]
      omega

/-- If no constant is zero and two divides all of them less than 64 times, then they do not
multiply to zero, and two divides the factors that have been gathered as often. -/
theorem twos_productFactors (hzero : 0 ∉ constantsOf (es.flatMap factors))
    (hlt : (es.map twos).sum < 64) :
    (constantsOf (es.flatMap factors)).foldl (· * ·) 1 ≠ 0 ∧
      ((productFactors es).map twos).sum = (es.map twos).sum := by
  have hflat : ((constantsOf (es.flatMap factors)).map Word.twos).sum +
      ((othersOf (es.flatMap factors)).map twos).sum = (es.map twos).sum := by
    rw [← sum_twos_constants_others, sum_twos_flatMap]
  obtain ⟨hne, htwos⟩ := Word.twos_prod hzero (by omega)
  rw [List.prod_eq_foldl] at hne htwos
  have hothers := ((perm_sortByRank (othersOf (es.flatMap factors))).map twos).sum_eq
  refine ⟨hne, ?_⟩
  rw [productFactors]
  split
  · rename_i hone
    -- the constants multiply to one, which two does not divide
    rw [hone, Word.twos_one] at htwos
    omega
  · rw [List.map_cons, List.sum_cons, twos_constant]
    omega

theorem twos_productFactors_pair {b : Evolution}
    (hzero : (constantsOf ([a, b].flatMap factors)).contains 0 = false)
    (hlt : a.twos + b.twos < 64) :
    (constantsOf ([a, b].flatMap factors)).foldl (· * ·) 1 ≠ 0 ∧
      ((productFactors [a, b]).map twos).sum = a.twos + b.twos := by
  have hmem : 0 ∉ constantsOf ([a, b].flatMap factors) := by
    intro h
    rw [List.contains_iff_mem.2 h] at hzero
    cases hzero
  simpa using twos_productFactors hmem (by simpa using hlt)

theorem sum_twos_pivot {p : Pivot} (hp : p ∈ pivots es) : (es.map twos).sum =
    (p.others.map twos).sum + max p.start.twos (greatestTwos p.steps) := by
  rw [eq_of_mem_pivots hp, Pivot.others, List.map_append, List.sum_append, List.map_cons,
    List.sum_cons, List.map_append, List.sum_append, Pivot.recurrence, twos_recurrence]
  omega

end Twos

/-! ## Tidy products -/

/-- The word is neither zero nor one. -/
def NotTrivial (w : Word) : Prop := w ≠ 0 ∧ w ≠ 1

/-- If the node is a product, its factors have been gathered, and a constant among them is one of
`ok`. -/
def TidyProduct (ok : Word → Prop) (n : Evolution) : Prop :=
  ∀ es, n = .product es → Gathered .product ok es

variable {ok : Word → Prop} {es : List Evolution}

theorem lasting_tidyProduct (ok : Word → Prop) : Lasting (TidyProduct ok) where
  constant _ _ h := nomatch h
  quotient _ _ _ h := nomatch h
  smax _ _ _ h := nomatch h
  umax _ _ _ h := nomatch h
  recurrence _ _ _ _ _ _ h := nomatch h
  zext _ _ h := nomatch h
  sext _ _ h := nomatch h
  trunc _ _ h := nomatch h

/-- Bringing the factors of tidy products together dissolves the products. -/
theorem product_notMem_productFactors (hes : AllEverywhere (TidyProduct ok) es)
    (fs : List Evolution) : .product fs ∉ productFactors es := by
  intro hmem
  rcases mem_gather hmem with ⟨w, hw⟩ | ⟨e, he, hfactor⟩
  · cases hw
  · cases e with
    | product gs => exact ((hes _ he).top gs rfl).flat fs hfactor
    | _ => cases List.mem_singleton.1 hfactor

/-- A product of gathered factors is tidy if what the constants multiply to is admitted. -/
theorem tidyProduct_productFactors (hes : AllEverywhere (TidyProduct ok) es)
    (hok : (constantsOf (es.flatMap factors)).foldl (· * ·) 1 ≠ 1 →
      ok ((constantsOf (es.flatMap factors)).foldl (· * ·) 1))
    (htwo : 2 ≤ (productFactors es).length) : TidyProduct ok (.product (productFactors es)) := by
  intro rs hrs
  obtain rfl := Evolution.product.inj hrs
  exact gathered_gather (product_notMem_productFactors hes) hok htwo

end Evolution

open Evolution

/-- A product that folding leaves is tidy, if zero is admitted. -/
theorem Context.foldable_tidyProduct (C : Context) : C.Foldable (TidyProduct (· ≠ 1)) where
  toLasting := lasting_tidyProduct _
  sum _ _ _ _ _ h := nomatch h
  product hab htwo := tidyProduct_productFactors hab id htwo

namespace Multiplies

variable {C : Context} {a b e : Evolution} {fs : List Evolution}

/-- As long as two divides the constants less than 64 times altogether, products stay tidy without
admitting zero. -/
theorem tidy_of_twos_lt (h : Multiplies C a fs e) (ha : a.Everywhere (TidyProduct NotTrivial))
    (hfs : AllEverywhere (TidyProduct NotTrivial) fs) (hlt : a.twos + (fs.map twos).sum < 64) :
    e.Everywhere (TidyProduct NotTrivial) ∧ e.twos ≤ a.twos + (fs.map twos).sum := by
  have hP := lasting_tidyProduct NotTrivial
  induction h with
  | done _ => exact ⟨ha, by simp⟩
  | @lost a b e fs _ _ ih =>
    rw [allEverywhere_cons] at hfs
    rw [List.map_cons, List.sum_cons] at hlt ⊢
    have htwos := twos_indeterminate
    obtain ⟨htidy, hle⟩ := ih (.leaf (fun _ h => nomatch h) rfl) hfs.2 (by omega)
    exact ⟨htidy, by omega⟩
  | @vanish a b e fs _ _ _ ih =>
    rw [allEverywhere_cons] at hfs
    rw [List.map_cons, List.sum_cons] at hlt ⊢
    have htwos : zero.twos = 0 := twos_constant.trans Word.twos_zero
    obtain ⟨htidy, hle⟩ := ih (.leaf (hP.constant 0) rfl) hfs.2 (by omega)
    exact ⟨htidy, by omega⟩
  | @plain a b e fs _ hzero _ _ ih =>
    rw [allEverywhere_cons] at hfs
    rw [List.map_cons, List.sum_cons] at hlt ⊢
    -- the constants do not multiply to zero, since nothing wraps, and one would have been left out
    have hall : AllEverywhere (TidyProduct NotTrivial) [a, b] := by simpa using ⟨ha, hfs.1⟩
    obtain ⟨hne, hsum⟩ := twos_productFactors_pair hzero (by omega)
    have htidy : (ofFactors (productFactors [a, b])).Everywhere (TidyProduct NotTrivial) := by
      apply everywhere_ofFactors hP _ (allEverywhere_productFactors hP hall)
      exact tidyProduct_productFactors hall fun hone => ⟨hne, hone⟩
    rw [← twos_ofFactors] at hsum
    obtain ⟨htidy, hle⟩ := ih htidy hfs.2 (by omega)
    exact ⟨htidy, by omega⟩
  | @absorb a b e start fs steps p _ hzero habsorb _ hlength _ _ ihstart ihsteps ih =>
    rw [allEverywhere_cons] at hfs
    rw [List.map_cons, List.sum_cons] at hlt ⊢
    have hall : AllEverywhere (TidyProduct NotTrivial) [a, b] := by simpa using ⟨ha, hfs.1⟩
    have hp := Context.mem_of_absorbing? habsorb
    obtain ⟨-, hsum⟩ := twos_productFactors_pair hzero (by omega)
    rw [sum_twos_pivot hp] at hsum
    obtain ⟨hothers, -, hps, hpsteps⟩ :=
      allEverywhere_pivot (allEverywhere_productFactors hP hall) hp
    -- each part of the recurrence has, with all the other factors, no more than the two operands
    obtain ⟨hstart, hstartle⟩ := ihstart hps hothers (by omega)
    have hstep : ∀ x ∈ p.steps.zip steps, x.2.Everywhere (TidyProduct NotTrivial) ∧
        x.2.twos ≤ x.1.twos + (p.others.map twos).sum := by
      intro x hx
      have hmem := (List.of_mem_zip hx).1
      have hle := twos_le_greatestTwos hmem
      exact ihsteps x hx (hpsteps _ hmem) hothers (by omega)
    have htidy := everywhere_scaled hP hall hp (fun _ _ => hstart) hlength
      fun x hx _ _ => (hstep x hx).1
    -- the parts of a recurrence are looked at one at a time, so the others count once
    have hsteps : greatestTwos steps ≤ greatestTwos p.steps + (p.others.map twos).sum := by
      refine greatestTwos_le fun y hy => ?_
      obtain ⟨x, hx, hxy⟩ := exists_zip_of_mem hlength hy
      have hle := twos_le_greatestTwos hx
      have hxle : y.twos ≤ x.twos + (p.others.map twos).sum := (hstep _ hxy).2
      omega
    have hrec : (recurrence start steps p.loop).twos = max start.twos (greatestTwos steps) :=
      twos_recurrence
    obtain ⟨htidy, hle⟩ := ih htidy hfs.2 (by omega)
    exact ⟨htidy, by omega⟩

/-- Where the constant factors multiply to zero, the product is zero exactly if one of them is zero
or there are no other factors. -/
theorem eq_zero_iff (h : Multiplies C a [b] e)
    (hknown : ([a, b].flatMap factors).any isIndeterminate = false)
    (hprod : (constantsOf ([a, b].flatMap factors)).prod = 0) :
    e = .zero ↔ 0 ∈ constantsOf ([a, b].flatMap factors) ∨
      othersOf ([a, b].flatMap factors) = [] := by
  have hops : productFactors [a, b] =
      .constant 0 :: sortByRank (othersOf ([a, b].flatMap factors)) := by
    rw [List.prod_eq_foldl] at hprod
    simp only [productFactors, hprod]
    exact if_neg (by decide)
  have hnone : sortByRank (othersOf ([a, b].flatMap factors)) = [] ↔
      othersOf ([a, b].flatMap factors) = [] :=
    ⟨fun h => (h ▸ perm_sortByRank _).nil_eq.symm, fun h => by rw [h]; rfl⟩
  have hmem : (constantsOf ([a, b].flatMap factors)).contains 0 = false →
      0 ∉ constantsOf ([a, b].flatMap factors) := by
    intro hzero hmem
    rw [List.contains_iff_mem.2 hmem] at hzero
    cases hzero
  cases h with
  | lost hany _ =>
    rw [hknown] at hany
    cases hany
  | vanish _ hzero rest =>
    cases rest
    exact iff_of_true rfl (Or.inl (List.contains_iff_mem.1 hzero))
  | plain _ hzero _ rest =>
    cases rest
    -- no constant is zero, but they multiply to zero: it stays in front of the other factors
    rw [or_iff_right (hmem hzero), ← hnone, hops]
    cases sortByRank (othersOf ([a, b].flatMap factors)) with
    | nil => exact iff_of_true rfl rfl
    | cons x xs => exact iff_of_false (fun h => nomatch h) (fun h => nomatch h)
  | absorb _ hzero habsorb _ _ _ rest =>
    cases rest
    rw [or_iff_right (hmem hzero), ← hnone]
    refine iff_of_false (fun h => nomatch h) fun hnil => ?_
    -- the recurrence is one of the other factors
    rw [hops, hnil] at habsorb
    cases Context.mem_of_absorbing? habsorb

end Multiplies

namespace Evolution

theorem Gathered.mono {node : List Evolution → Evolution} {ok ok' : Word → Prop}
    {es : List Evolution} (h : Gathered node ok es) (hok : ∀ w, ok w → ok' w) :
    Gathered node ok' es where
  two_le := h.two_le
  flat := h.flat
  constant i w hi := (h.constant i w hi).imp_right (hok w)

theorem tidyProduct_of_notTrivial {e : Evolution} (h : e.Everywhere (TidyProduct NotTrivial)) :
    e.Everywhere (TidyProduct (· ≠ 1)) :=
  h.mono fun _ hn es hes => (hn es hes).mono fun _ hw => hw.2

end Evolution

/-- Products are built in canonical form, apart from zeros. If every product in two known
evolutions is tidy, then every product in their product is tidy if zero is admitted as its first
factor, and without that if two divides the constants of the two less than 64 times altogether. A
product whose constant factors multiply to zero is zero exactly if one of them is zero or there is
nothing else to multiply. Only a reference to something that is not there leads to no result. -/
theorem Context.product_canonical (C : Context) (a b : Evolution)
    (ha : a.Everywhere (TidyProduct NotTrivial)) (hb : b.Everywhere (TidyProduct NotTrivial))
    (hknown : AllEverywhere (· ≠ .indeterminate) [a, b]) :
    (C.product a b = .error .dangling ∧ ¬ AllEverywhere C.Known [a, b]) ∨
    ∃ e, C.product a b = .ok e ∧ e.Everywhere (TidyProduct (· ≠ 1)) ∧
      (a.twos + b.twos < 64 → e.Everywhere (TidyProduct NotTrivial)) ∧
      ((constantsOf ([a, b].flatMap factors)).prod = 0 →
        (e = .zero ↔ 0 ∈ constantsOf ([a, b].flatMap factors) ∨
          othersOf ([a, b].flatMap factors) = [])) := by
  rcases C.product_cases a b with ⟨e, he, hprod⟩ | hdangling
  · refine Or.inr ⟨e, he, ?_, ?_, ?_⟩
    · apply hprod.everywhere_of_foldable C.foldable_tidyProduct (tidyProduct_of_notTrivial ha)
      simpa using tidyProduct_of_notTrivial hb
    · intro hlt
      exact (hprod.tidy_of_twos_lt ha (by simpa using hb) (by simpa using hlt)).1
    · apply hprod.eq_zero_iff
      rw [List.any_eq_false]
      intro x hx
      obtain ⟨f, hf, hxf⟩ := List.mem_flatMap.1 hx
      have hne := (allEverywhere_factors (hknown f hf) x hxf).top
      cases x with
      | indeterminate => exact absurd rfl hne
      | _ => simp [isIndeterminate]
  · exact Or.inl hdangling

/-- Six times a number, times a recurrence of a loop: nothing wraps. -/
theorem product_canonical_scaled :
    let n : Evolution := .unknown (.argument 0)
    let a : Evolution := .product [.constant 6, n]
    let b : Evolution := .recurrence (.constant 1) [.constant 4] 0
    let e : Evolution := .recurrence a [.product [.constant 24, n]] 0
    nest.product a b = .ok e ∧ e.Everywhere (TidyProduct NotTrivial) := by
  intro n a b e
  have hP := lasting_tidyProduct NotTrivial
  have hn : n.Everywhere (TidyProduct NotTrivial) := .leaf (fun _ h => nomatch h) rfl
  have hb : b.Everywhere (TidyProduct NotTrivial) := everywhere_recurrence_iff.2
    ⟨(fun _ h => nomatch h), .leaf (hP.constant 1) rfl, by simpa using .leaf (hP.constant 4) rfl⟩
  have ha : a.Everywhere (TidyProduct NotTrivial) := by
    have hfold : nest.product (.constant 6) n = .ok a := by decide +kernel
    have hrules := Context.multiplies_of_productWithin hfold (.done a)
    exact (hrules.tidy_of_twos_lt (.leaf (hP.constant 6) rfl) (by simpa using hn)
      (by decide +kernel)).1
  have hprod : nest.product a b = .ok e := by decide +kernel
  have hknown : AllEverywhere (· ≠ .indeterminate) [a, b] := by
    have hconstant : ∀ w, (Evolution.constant w).Everywhere (· ≠ .indeterminate) :=
      fun _ => .leaf (fun h => nomatch h) rfl
    have hn : n.Everywhere (· ≠ .indeterminate) := .leaf (fun h => nomatch h) rfl
    rw [allEverywhere_cons, allEverywhere_cons]
    refine ⟨?_, ?_, allEverywhere_nil⟩
    · exact everywhere_product_iff.2 ⟨(fun h => nomatch h), by simpa using ⟨hconstant 6, hn⟩⟩
    · exact everywhere_recurrence_iff.2
        ⟨(fun h => nomatch h), hconstant 1, by simpa using hconstant 4⟩
  rcases nest.product_canonical a b ha hb hknown with ⟨hfault, -⟩ | ⟨e', he', -, htidy, -⟩
  · rw [hprod] at hfault
    cases hfault
  · rw [hprod] at he'
    obtain rfl := Except.ok.inj he'
    exact ⟨hprod, htidy (by decide +kernel)⟩

/-- Constants that are not zero and multiply to zero leave a product that begins with zero. -/
theorem product_keeps_wrapped_zero :
    let n : Evolution := .unknown (.argument 0)
    let a : Evolution := .product [.constant (2 ^ 32), n]
    let b : Evolution := .constant (2 ^ 32)
    a.Everywhere (TidyProduct NotTrivial) ∧ b.Everywhere (TidyProduct NotTrivial) ∧
      nest.product a b = .ok (.product [.constant 0, n]) ∧
      ¬ (Evolution.product [.constant 0, n]).Everywhere (TidyProduct NotTrivial) := by
  intro n a b
  have hP := lasting_tidyProduct NotTrivial
  have hn : n.Everywhere (TidyProduct NotTrivial) := .leaf (fun _ h => nomatch h) rfl
  have ha : a.Everywhere (TidyProduct NotTrivial) := by
    have hfold : nest.product b n = .ok a := by decide +kernel
    have hrules := Context.multiplies_of_productWithin hfold (.done a)
    exact (hrules.tidy_of_twos_lt (.leaf (hP.constant _) rfl) (by simpa using hn)
      (by decide +kernel)).1
  refine ⟨ha, .leaf (hP.constant _) rfl, by decide +kernel, fun h => ?_⟩
  exact ((h.top _ rfl).constant 0 0 rfl).2.1 rfl

end GridAccess
