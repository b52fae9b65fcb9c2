import GridAccess.Evolution.Stride
import GridAccess.Proofs.Addresses
import GridAccess.Proofs.EvolutionEquations
import GridAccess.Proofs.Invariance

set_option autoImplicit false

/-!
# Strides

The stride of a pointer is the distance in bytes between two rounds of its loop: the number that
is found for the step of a recurrence is the value of the step (`Evolution.eval_of_bytes`), and a
recurrence moves by its step in each round (`Valuation.eval_atRound_sub`).

For an element of an array the recurrence of the index comes back in the address, whatever the
base is made of, as long as the base is invariant in the loop. Multiplying by the size of an
element scales the step (`Multiplies.exists_scaled_step`). Adding the base leaves the step alone:
among operands of which only one changes in the loop (`Lone`), this one takes up all others, and
no recurrence of another loop can take up this one (`Sums.exists_start`). So the stride is the step
of the index times the size of an element.
-/

namespace GridAccess

open Evolution

/-! ## From steps to bytes -/

namespace Evolution

variable {l : Layout} {s : Evolution} {d : Word} {ρ : Valuation}

theorem bytesOfProduct_eq {es : List Evolution} {acc : Word}
    (ih : ∀ c ∈ es, ∀ w, c.bytes l = .ok w → ρ.eval c = w)
    (h : bytesOfProduct l acc es = .ok d) : acc * (es.map ρ.eval).prod = d := by
  induction es generalizing acc with
  | nil =>
    obtain rfl := Except.ok.inj h
    simp
  | cons e es ihes =>
    rw [bytesOfProduct] at h
    split at h
    · rename_i w hw
      rw [List.map_cons, List.prod_cons, ih e List.mem_cons_self w hw, ← mul_assoc]
      exact ihes (fun c hc => ih c (List.mem_cons_of_mem e hc)) h
    · cases h

theorem exists_of_lifted {r : Except Fault Nat}
    (h : (BitVec.ofNat 64 <$> Failure.lift r : Except (Failure AnalysisError) Word) = .ok d) :
    ∃ n, r = .ok n ∧ BitVec.ofNat 64 n = d := by
  obtain ⟨n, hn, rfl⟩ := map_eq_ok_iff.1 h
  exact ⟨n, Failure.lift_eq_ok_iff.1 hn, rfl⟩

/-- The bytes that are found for a step without values that are not looked into are its value. -/
theorem eval_of_bytes (hρ : ρ.Measures l) (hs : s.Everywhere fun n => ∀ v, n ≠ .unknown v)
    (h : s.bytes l = .ok d) : ρ.eval s = d := by
  induction s using induction_operands generalizing d with
  | node s ih =>
    cases s with
    | constant w => exact Except.ok.inj h
    | sizeOf t =>
      obtain ⟨size, hsize, rfl⟩ := exists_of_lifted h
      exact hρ.size t size hsize
    | alignOf t =>
      obtain ⟨align, halign, rfl⟩ := exists_of_lifted h
      exact hρ.align t align halign
    | unknown v => exact absurd rfl (hs.top v)
    | product es =>
      rw [bytes] at h
      rw [Valuation.eval_product, ← one_mul (List.prod _)]
      exact bytesOfProduct_eq (fun c hc w hw => ih c hc (hs.operand hc) hw) h
    | zext e =>
      have he := List.mem_singleton_self e
      exact ih e he (hs.operand he) h
    | _ => cases h

end Evolution

namespace Valuation

/-- The valuation in round `n` of loop `l`. -/
def atRound (ρ : Valuation) (l n : Nat) : Valuation :=
  { ρ with rounds := fun k => if k = l then n else ρ.rounds k }

variable {ρ : Valuation} {a s : Evolution} {l : Nat}

theorem Measures.atRound {layout : Layout} (hρ : ρ.Measures layout) (l n : Nat) :
    (ρ.atRound l n).Measures layout := ⟨hρ.size, hρ.align⟩

/-- What has no recurrence of a loop does not depend on its rounds. -/
theorem eval_atRound (ha : a.Everywhere fun n => ∀ b bs, n ≠ .recurrence b bs l) (m n : Nat) :
    (ρ.atRound l m).eval a = (ρ.atRound l n).eval a := by
  apply eval_congr
  refine ha.mono fun e he => ?_
  cases e with
  | recurrence b bs k =>
    have hk : k ≠ l := by
      rintro rfl
      exact he b bs rfl
    simp [AgreeAt, atRound, hk]
  | _ => trivial

/-- A recurrence moves by its step in each round. -/
theorem eval_atRound_sub {d : Word} (ha : a.Everywhere fun n => ∀ b bs, n ≠ .recurrence b bs l)
    (hs : ∀ n, (ρ.atRound l n).eval s = d) (n : Nat) :
    (ρ.atRound l (n + 1)).eval (.recurrence a [s] l) -
      (ρ.atRound l n).eval (.recurrence a [s] l) = d := by
  have hvalue : ∀ k, (ρ.atRound l k).eval (.recurrence a [s] l) =
      (ρ.atRound l 0).eval a + d * BitVec.ofNat 64 k := by
    intro k
    have hround : (ρ.atRound l k).rounds l = k := if_pos rfl
    rw [eval_recurrence, eval_atRound ha k 0, hround]
    simp [Word.newton, hs]
  have hnext : BitVec.ofNat 64 (n + 1) = BitVec.ofNat 64 n + 1 := BitVec.ofNat_add n 1
  rw [hvalue, hvalue, hnext]
  ring

end Valuation

/-! ## One operand that changes -/

/-- One of the operands is `r`, and everywhere in the others `P` holds. -/
inductive Lone (P : Evolution → Prop) (r : Evolution) : List Evolution → Prop
  | here {es : List Evolution} (hes : AllEverywhere P es) : Lone P r (r :: es)
  | there {e : Evolution} {es : List Evolution} (he : e.Everywhere P) (rest : Lone P r es) :
      Lone P r (e :: es)

namespace Lone

variable {P : Evolution → Prop} {r x : Evolution} {es fs : List Evolution}

theorem mem_cases (h : Lone P r es) (hx : x ∈ es) : x = r ∨ x.Everywhere P := by
  induction h with
  | here hes => exact (List.mem_cons.1 hx).imp_right (hes x)
  | there he _ ih =>
    rcases List.mem_cons.1 hx with rfl | hx
    · exact Or.inr he
    · exact ih hx

theorem self_mem (h : Lone P r es) : r ∈ es := by
  induction h with
  | here _ => exact List.mem_cons_self
  | there _ _ ih => exact List.mem_cons_of_mem _ ih

theorem perm (hperm : es.Perm fs) (h : Lone P r es) : Lone P r fs := by
  induction hperm with
  | nil => exact h
  | cons x hperm ih =>
    cases h with
    | here hes => exact .here fun e he => hes e (hperm.mem_iff.2 he)
    | there he rest => exact .there he (ih rest)
  | swap x y es =>
    cases h with
    | here hes =>
      rw [allEverywhere_cons] at hes
      exact .there hes.1 (.here hes.2)
    | there hy rest =>
      cases rest with
      | here hes => exact .here (allEverywhere_cons.2 ⟨hy, hes⟩)
      | there hx rest => exact .there hx (.there hy rest)
  | trans _ _ ih ih' => exact ih' (ih h)

theorem append_left (hes : AllEverywhere P es) (h : Lone P r fs) : Lone P r (es ++ fs) := by
  induction es with
  | nil => exact h
  | cons e es ih =>
    rw [allEverywhere_cons] at hes
    exact .there hes.1 (ih hes.2)

theorem flatMap {split : Evolution → List Evolution} (hr : split r = [r])
    (hsplit : ∀ {e : Evolution}, e.Everywhere P → AllEverywhere P (split e))
    (h : Lone P r es) : Lone P r (es.flatMap split) := by
  induction h with
  | here hes =>
    rw [List.flatMap_cons, hr]
    refine .here fun x hx => ?_
    obtain ⟨e, he, hx⟩ := List.mem_flatMap.1 hx
    exact hsplit (hes e he) x hx
  | there he _ ih =>
    rw [List.flatMap_cons]
    exact ih.append_left (hsplit he)

theorem filter {keep : Evolution → Bool} (hr : keep r = true) (h : Lone P r es) :
    Lone P r (es.filter keep) := by
  induction h with
  | here hes =>
    rw [List.filter_cons_of_pos hr]
    exact .here fun x hx => hes x (List.mem_of_mem_filter hx)
  | there he _ ih =>
    rw [List.filter_cons]
    split
    · exact .there he ih
    · exact ih

theorem eq_singleton (h : Lone P r es) (hlength : es.length ≤ 1) : es = [r] := by
  obtain ⟨e, rfl⟩ : ∃ e, es = [e] := by
    apply List.length_eq_one_iff.1
    have := List.length_pos_of_mem h.self_mem
    omega
  rw [List.mem_singleton.1 h.self_mem]

variable {a : Evolution} {steps : List Evolution} {l : Nat}

theorem terms (h : Lone P (.recurrence a steps l) es) :
    Lone P (.recurrence a steps l) (es.flatMap Evolution.terms) :=
  h.flatMap rfl allEverywhere_terms

/-- Bringing the terms of a sum together keeps a recurrence that stands alone. -/
theorem sumTerms (hP : Stable P) (h : Lone P (.recurrence a steps l) es) :
    Lone P (.recurrence a steps l) (Evolution.sumTerms es) := by
  have hothers : Lone P (.recurrence a steps l)
      (sortByRank (othersOf (es.flatMap Evolution.terms))) :=
    (h.terms.filter rfl).perm (perm_sortByRank _).symm
  rw [Evolution.sumTerms]
  split
  · exact hothers
  · exact .there (everywhere_constant hP _) hothers

theorem exists_pivotAfter {before : List Evolution} (hbefore : AllEverywhere P before)
    (h : Lone P (.recurrence a steps l) es) :
    ∃ p ∈ pivotsAfter before es, p.loop = l ∧ AllEverywhere P p.others := by
  induction h generalizing before with
  | @here es hes =>
    refine ⟨⟨before, a, steps, l, es⟩, List.mem_cons_self, rfl, ?_⟩
    exact allEverywhere_append.2 ⟨hbefore, hes⟩
  | @there e es he _ ih =>
    have hnext : AllEverywhere P (before ++ [e]) := by simpa using ⟨hbefore, he⟩
    obtain ⟨p, hp, hloop, hothers⟩ := ih hnext
    refine ⟨p, ?_, hloop, hothers⟩
    cases e with
    | recurrence _ _ _ => exact List.mem_cons_of_mem _ hp
    | _ => exact hp

/-- The recurrence is one among which all other operands have the property. -/
theorem exists_pivot (h : Lone P (.recurrence a steps l) es) :
    ∃ p ∈ pivots es, p.loop = l ∧ AllEverywhere P p.others :=
  h.exists_pivotAfter allEverywhere_nil

end Lone

namespace Context

variable {C : Context} {l : Nat}

/-- What holds in operands that do not change in a loop: they are known and invariant. -/
def Fixed (C : Context) (l : Nat) (n : Evolution) : Prop := C.Steady l n ∧ Definite n

theorem stable_fixed (C : Context) (l : Nat) : Stable (C.Fixed l) :=
  (C.stable_steady l).and stable_definite

theorem allInvariant_of_fixed {es : List Evolution} (h : AllEverywhere (C.Fixed l) es) :
    C.allInvariant l es = .ok true :=
  allInvariant_iff.2 fun e he => isInvariant_iff.2 ((h e he).mono fun _ hn => hn.1)

end Context

namespace Sums

variable {m : Module} {f : Function} {es steps : List Evolution} {a e : Evolution} {l : Nat}
  {p q : Pivot}

/-- Of the recurrences among operands only the one that changes in the loop can take up the
others: loops are not inside each other. -/
theorem eq_of_absorbing (h : Lone ((Context.ofFunction m f).Fixed l) (.recurrence a steps l) es)
    (hp : p ∈ pivots es)
    (hinv : (Context.ofFunction m f).allInvariant p.loop p.others = .ok true) :
    p.recurrence = .recurrence a steps l := by
  have hperm : es.Perm (p.recurrence :: p.others) := by
    rw [eq_of_mem_pivots hp, Pivot.others]
    exact List.perm_middle
  cases h.perm hperm with
  | here _ => rfl
  | there hfixed rest =>
    -- both loops would contain each other
    have houter : p.loop ≠ l ∧ f.loops.contains p.loop l = .ok true := hfixed.top.1
    have hsteady := Context.isInvariant_iff.1 (Context.allInvariant_iff.1 hinv _ rest.self_mem)
    have hinner : l ≠ p.loop ∧ f.loops.contains l p.loop = .ok true := hsteady.top
    have hlt := Context.lt_of_contains houter.1 houter.2
    have hgt := Context.lt_of_contains hinner.1 hinner.2
    omega

/-- Two recurrences of one loop that are merged leave the one that changes alone. -/
theorem lone_of_samePair
    (h : Lone ((Context.ofFunction m f).Fixed l) (.recurrence a steps l) es)
    (hpair : samePair? es = some (p, q)) :
    p.recurrence.Everywhere ((Context.ofFunction m f).Fixed l) ∧
    q.recurrence.Everywhere ((Context.ofFunction m f).Fixed l) ∧
    Lone ((Context.ofFunction m f).Fixed l) (.recurrence a steps l) (p.before ++ q.others) := by
  obtain ⟨hes, hloop⟩ := eq_of_samePair? hpair
  have hperm : es.Perm (p.recurrence :: q.recurrence :: (p.before ++ q.others)) := by
    rw [hes, Pivot.others]
    refine List.perm_middle.trans (.cons _ ?_)
    rw [← List.append_assoc, ← List.append_assoc]
    exact List.perm_middle
  -- if one of the two changed in the loop, so would the other, and only one operand does
  generalize hr : Evolution.recurrence a steps l = r at h ⊢
  cases h.perm hperm with
  | here hall =>
    have hq := (allEverywhere_cons.1 hall).1.top.1
    have hpl : p.loop = l := (Evolution.recurrence.inj hr).2.2.symm
    exact absurd (hloop.trans hpl) hq.1
  | there hp rest =>
    cases rest with
    | here _ =>
      have hql : q.loop = l := (Evolution.recurrence.inj hr).2.2.symm
      exact absurd (hloop.symm.trans hql) hp.top.1.1
    | there hq rest => exact ⟨hp, hq, rest⟩

/-- A sum of which only one term changes in a loop, a recurrence of the loop, is a recurrence with
the same steps. -/
theorem exists_start (h : Sums (Context.ofFunction m f) es e)
    (hes : Lone ((Context.ofFunction m f).Fixed l) (.recurrence a steps l) es) :
    ∃ start, e = .recurrence start steps l := by
  -- the induction is on the rules of folding, and `Lone` is what each of them keeps
  induction h with
  | @lost es hany =>
    obtain ⟨x, hx, hind⟩ := List.any_eq_true.1 hany
    rcases hes.terms.mem_cases hx with rfl | hfixed
    · cases hind
    · have hdefinite := hfixed.top.2
      cases x with
      | indeterminate => exact hdefinite.elim
      | _ => cases hind
  | @plain es _ hplain =>
    have hterms := hes.sumTerms ((Context.ofFunction m f).stable_fixed l)
    rcases hplain with hlength | ⟨-, hnone⟩
    · rw [hterms.eq_singleton hlength]
      exact ⟨a, rfl⟩
    · -- the recurrence would have taken up the other terms
      obtain ⟨p, hp, rfl, hothers⟩ := hterms.exists_pivot
      exact absurd hnone (Context.absorbing?_ne_none hp (Context.allInvariant_of_fixed hothers))
  | @merge es steps' p q start e _ hpair hstart hlength hsteps _ _ _ ihrest =>
    -- the two belong to a loop around this one, and so does what they are merged into
    have hP := (Context.ofFunction m f).stable_fixed l
    obtain ⟨hp, hq, hlone⟩ := lone_of_samePair (hes.sumTerms hP) hpair
    have hloop := (eq_of_samePair? hpair).2
    have hmerged := everywhere_merged hP.lasting hp hq hloop (hstart.everywhere hP) hlength
      fun x hx => (hsteps x hx).everywhere hP
    exact ihrest ((Lone.there hmerged hlone).perm List.perm_middle.symm)
  | @absorb es p start _ _ habsorb _ _ =>
    have hterms := hes.sumTerms ((Context.ofFunction m f).stable_fixed l)
    have heq := eq_of_absorbing hterms (Context.mem_of_absorbing? habsorb)
      (Context.allInvariant_of_absorbing? habsorb)
    obtain ⟨-, rfl, rfl⟩ := Evolution.recurrence.inj heq
    exact ⟨start, rfl⟩

end Sums

/-! ## Scaled steps -/

theorem Evolution.productFactors_constant_sizeOf (k : Word) (t : Ty) :
    productFactors [.constant k, .sizeOf t] =
      if k = 1 then [.sizeOf t] else [.constant k, .sizeOf t] := by
  have hconstants : constantsOf ([.constant k, .sizeOf t].flatMap factors) = [k] := rfl
  have hothers : sortByRank (othersOf ([.constant k, .sizeOf t].flatMap factors)) =
      [.sizeOf t] := rfl
  simp only [productFactors, hconstants, hothers, List.foldl_cons, List.foldl_nil, one_mul]

theorem Evolution.productFactors_recurrence_sizeOf (a : Evolution) (steps : List Evolution)
    (l : Nat) (t : Ty) :
    productFactors [.recurrence a steps l, .sizeOf t] = [.sizeOf t, .recurrence a steps l] := rfl

namespace Multiplies

variable {C : Context} {t : Ty} {k : Word} {a e : Evolution} {l : Nat}

/-- A constant times the size of a type stands for that many bytes, also where the product is
simplified to zero or to the size. -/
theorem bytes_eq (h : Multiplies C (.constant k) [.sizeOf t] e) {layout : Layout} {size : Nat}
    (hsize : layout.sizeOf t = .ok size) :
    e.bytes layout = .ok (k * BitVec.ofNat 64 size) := by
  cases h with
  | lost hany _ => cases hany
  | vanish _ hzero rest =>
    cases rest with
    | done _ =>
      obtain rfl : 0 = k := by simpa [constantsOf, factors, constant?] using hzero
      simp [zero, bytes]
  | plain _ _ _ rest =>
    cases rest with
    | done _ =>
      rw [productFactors_constant_sizeOf]
      by_cases hk : k = 1
      · simp [hk, ofFactors, bytes, hsize, Failure.lift]
      · rw [if_neg hk]
        simp [ofFactors, bytes, bytesOfProduct, hsize, Failure.lift]
  | absorb _ _ habsorb _ _ _ _ =>
    have hmem := Context.mem_of_absorbing? habsorb
    rw [productFactors_constant_sizeOf] at hmem
    split at hmem <;> cases hmem

/-- A recurrence with a constant step times the size of a type is a recurrence of the same loop,
whatever it starts from, and the step is multiplied. -/
theorem exists_scaled_step (h : Multiplies C (.recurrence a [.constant k] l) [.sizeOf t] e) :
    ∃ start step, e = .recurrence start [step] l ∧
      Multiplies C (.constant k) [.sizeOf t] step := by
  -- the size is the only other factor, and it is invariant
  have hfound : C.absorbing? (pivots (productFactors [.recurrence a [.constant k] l, .sizeOf t])) =
      .ok (some ⟨[.sizeOf t], a, [.constant k], l, []⟩) := by
    rw [productFactors_recurrence_sizeOf]
    rfl
  cases h with
  | lost hany _ => cases hany
  | vanish _ hzero _ => cases hzero
  | plain _ _ hplain _ =>
    rcases hplain with hlength | hnone
    · rw [productFactors_recurrence_sizeOf] at hlength
      simp at hlength
    · rw [hfound] at hnone
      cases hnone
  | @absorb _ _ _ start _ steps p _ _ habsorb _ hlength hsteps rest =>
    rw [hfound] at habsorb
    obtain rfl := Option.some.inj (Except.ok.inj habsorb)
    obtain ⟨step, rfl⟩ := List.length_eq_one_iff.1 hlength.symm
    cases rest with
    | done _ => exact ⟨start, step, rfl, hsteps _ List.mem_cons_self⟩

end Multiplies

namespace Context

variable {C : Context} {m : Module} {f : Function} {t : Ty} {a b : Evolution} {k : Word} {l : Nat}

/-- The offset that an index adds moves by the step of the index times the size of an element. -/
theorem exists_offset_step (h : (Evolution.recurrence a [.constant k] l).Everywhere C.Known)
    (t : Ty) :
    ∃ start step, C.product (.recurrence a [.constant k] l) (.sizeOf t) =
        .ok (.recurrence start [step] l) ∧
      (Evolution.recurrence start [step] l).Everywhere C.Known ∧
      Multiplies C (.constant k) [.sizeOf t] step := by
  obtain ⟨offset, hoffset, hmul⟩ := exists_scaled h t
  have hsize : AllEverywhere C.Known [.sizeOf t] := by simpa using .leaf trivial rfl
  have hknown := hmul.everywhere C.stable_known h hsize
  obtain ⟨start, step, rfl, hstep⟩ := hmul.exists_scaled_step
  exact ⟨start, step, hoffset, hknown, hstep⟩

/-- What is invariant in the loop of a recurrence goes into its start. -/
theorem exists_sum_start (hinv : (ofFunction m f).isInvariant l b = .ok true)
    (hb : b.Everywhere fun n => Definite n ∧ (ofFunction m f).Known n) {steps : List Evolution}
    (h : (Evolution.recurrence a steps l).Everywhere (ofFunction m f).Known) :
    ∃ start, (ofFunction m f).sum [b, .recurrence a steps l] = .ok (.recurrence start steps l) := by
  have hlone : Lone ((ofFunction m f).Fixed l) (.recurrence a steps l)
      [b, .recurrence a steps l] := by
    apply Lone.there ((isInvariant_iff.1 hinv).and (hb.mono fun _ hn => hn.1))
    exact .here allEverywhere_nil
  rcases (ofFunction m f).sum_cases [b, .recurrence a steps l] with ⟨e, he, hsum⟩ | ⟨-, hnot⟩
  · obtain ⟨start, rfl⟩ := hsum.exists_start hlone
    exact ⟨start, he⟩
  · refine absurd ?_ hnot
    simpa using ⟨hb.mono fun _ hn => hn.2, h⟩

end Context

namespace Scope

variable {m : Module} {f : Function} {i l space : Nat} {inst : Instruction}
  {base index : Value} {t : Ty} {a b : Evolution} {k : Word}

/-- The address of an element moves with its index: it is a recurrence of the same loop, and its
step is that of the index times the size of the element. -/
theorem exists_step_of_element (hinst : f.instructions[i]? = some inst)
    (hop : inst.operation = .element base [index])
    (hbase : m.typeOf f base = .ok (.pointer t space))
    (hb : (ofFunction m f).evolution base = .ok b)
    (hinv : (Context.ofFunction m f).isInvariant l b = .ok true)
    (hindex : (ofFunction m f).evolution index = .ok (.recurrence a [.constant k] l)) :
    ∃ start step, (ofFunction m f).evolution (.instruction i) = .ok (.recurrence start [step] l) ∧
      Multiplies (Context.ofFunction m f) (.constant k) [.sizeOf t] step := by
  have hknown := (known_of_evolution hindex).mono fun _ hn => hn.2
  obtain ⟨offset, step, hoffset, hknownOffset, hstep⟩ := Context.exists_offset_step hknown t
  obtain ⟨start, hsum⟩ := Context.exists_sum_start hinv (known_of_evolution hb) hknownOffset
  have hoffsets := Context.elementOffsets_cons hbase hindex hoffset
    (Context.offsetsWithin_nil _ _ t)
  have helement : (Context.ofFunction m f).ofElement (ofFunction m f).evolution base [index] =
      .ok (some (.recurrence start [step] l)) := by
    rw [Context.ofElement, hb, ok_bind, hoffsets, ok_bind, Option.map_some]
    exact map_eq_ok_iff.2 ⟨_, hsum, rfl⟩
  refine ⟨start, step, (evolution_instruction hinst).trans ?_, hstep⟩
  rw [Context.ofInstruction, hop]
  exact bind_eq_ok_iff.2 ⟨_, helement, rfl⟩

theorem stride_eq_ok_iff {v : Value} {a s : Evolution} {d : Word}
    (hv : (ofFunction m f).evolution v = .ok (.recurrence a [s] l)) :
    (ofFunction m f).stride v = .ok d ↔ s.bytes m.layout = .ok d := by
  have hlayout : (ofFunction m f).module.layout = m.layout := rfl
  rw [stride, hv, hlayout]

/-- A value moves, and not from each element to the next, if its stride is neither zero nor the
size of what it points to. -/
theorem hasNonUnitStride_eq {v : Value} {d : Word} {size : Nat}
    (hv : m.typeOf f v = .ok (.pointer t space)) (hsize : m.layout.sizeOf t = .ok size)
    (hd : (ofFunction m f).stride v = .ok d) :
    (ofFunction m f).hasNonUnitStride v =
      .ok (decide (d ≠ 0 ∧ d ≠ BitVec.ofNat 64 size)) := by
  have hunit : (ofFunction m f).unitStride v = .ok (BitVec.ofNat 64 size) :=
    bind_eq_ok_iff.2 ⟨_, hv, map_eq_ok_iff.2 ⟨size, hsize, rfl⟩⟩
  rw [hasNonUnitStride, hd, ok_bind]
  split
  · rename_i hzero
    exact congrArg _ (decide_eq_false fun h => h.1 hzero).symm
  · rename_i hne
    rw [hunit]
    exact congrArg _ (decide_eq_decide.2 ⟨fun h => ⟨hne, h⟩, fun h => h.2⟩)

/-- The stride of a value is the distance in bytes between two rounds of its loop. For an element
that an index selects from an invariant base, it is the step of the index times the size of the
element, if that has a size. -/
theorem stride_is_distance (m : Module) (f : Function) :
    (∀ (v : Value) (a s : Evolution) (l : Nat) (d : Word),
      (ofFunction m f).evolution v = .ok (.recurrence a [s] l) →
      a.Everywhere (fun n => ∀ b bs, n ≠ .recurrence b bs l) →
      s.Everywhere (fun n => ∀ u, n ≠ .unknown u) →
      (ofFunction m f).stride v = .ok d →
      ∀ ρ : Valuation, ρ.Measures m.layout → ∀ n,
        (ρ.atRound l (n + 1)).eval (.recurrence a [s] l) -
          (ρ.atRound l n).eval (.recurrence a [s] l) = d) ∧
    (∀ (i l space space' : Nat) (inst : Instruction) (base index : Value) (t : Ty)
      (B c : Evolution) (k : Word) (size : Nat),
      f.instructions[i]? = some inst → inst.operation = .element base [index] →
      inst.type = .pointer t space → m.typeOf f base = .ok (.pointer t space') →
      (ofFunction m f).evolution base = .ok B →
      (Context.ofFunction m f).isInvariant l B = .ok true →
      (ofFunction m f).evolution index = .ok (.recurrence c [.constant k] l) →
      m.layout.sizeOf t = .ok size →
      (ofFunction m f).stride (.instruction i) = .ok (k * BitVec.ofNat 64 size) ∧
      (ofFunction m f).hasNonUnitStride (.instruction i) =
        .ok (decide (k * BitVec.ofNat 64 size ≠ 0 ∧
          k * BitVec.ofNat 64 size ≠ BitVec.ofNat 64 size))) := by
  constructor
  · intro v a s l d hv ha hs hd ρ hρ n
    have hbytes : s.bytes m.layout = .ok d := (stride_eq_ok_iff hv).1 hd
    apply Valuation.eval_atRound_sub ha
    intro k
    exact eval_of_bytes (hρ.atRound l k) hs hbytes
  · intro i l space space' inst base index t B c k size hinst hop htype hbase hB hinv hindex hsize
    obtain ⟨start, step, hevolution, hmul⟩ :=
      exists_step_of_element hinst hop hbase hB hinv hindex
    have hstride : (ofFunction m f).stride (.instruction i) = .ok (k * BitVec.ofNat 64 size) :=
      (stride_eq_ok_iff hevolution).2 (hmul.bytes_eq hsize)
    have hpointer : m.typeOf f (.instruction i) = .ok (.pointer t space) :=
      map_eq_ok_iff.2 ⟨inst, fetch_eq_ok_iff.2 hinst, htype⟩
    exact ⟨hstride, hasNonUnitStride_eq hpointer hsize hstride⟩

/-- A loop that goes backwards through an array of structs of 24 bytes, three at a time. -/
def backwards : Function where
  name := "backwards"
  params := #[⟨"p", .pointerTo (.struct "mixed")⟩, ⟨"n", .word⟩]
  blocks := #[⟨"entry", [0]⟩, ⟨"loop", [1, 2, 3, 4]⟩, ⟨"exit", [5]⟩]
  instructions := #[
    ⟨0, .void, none, .branch 1⟩,
    ⟨1, .word, none, .phi [(0, .argument 1), (1, .instruction 3)]⟩,
    ⟨1, .pointerTo (.struct "mixed"), none, .element (.argument 0) [.instruction 1]⟩,
    ⟨1, .word, none, .binary .add (.instruction 1) (.int (-3))⟩,
    ⟨1, .void, none, .branchIf (.argument 0) 1 2⟩,
    ⟨2, .void, none, .ret none⟩]

/-- Where the pointer of the loop starts. -/
def backwardsStart : Evolution :=
  .sum [.unknown (.argument 0), .product [.sizeOf (.struct "mixed"), .unknown (.argument 1)]]

/-- By how much it moves in each round. -/
def backwardsStep : Evolution := .product [.constant (-3), .sizeOf (.struct "mixed")]

theorem stride_is_distance_backwards :
    (ofFunction nestedModule backwards).evolution (.argument 0) = .ok (.unknown (.argument 0)) ∧
    (Context.ofFunction nestedModule backwards).isInvariant 0 (.unknown (.argument 0)) =
      .ok true ∧
    (ofFunction nestedModule backwards).evolution (.instruction 1) =
      .ok (.recurrence (.unknown (.argument 1)) [.constant (-3)] 0) ∧
    (ofFunction nestedModule backwards).evolution (.instruction 2) =
      .ok (.recurrence backwardsStart [backwardsStep] 0) ∧
    (ofFunction nestedModule backwards).stride (.instruction 2) = .ok (-72) ∧
    (ofFunction nestedModule backwards).hasNonUnitStride (.instruction 2) = .ok true ∧
    ∀ ρ : Valuation, ρ.Measures nestedModule.layout → ∀ n,
      (ρ.atRound 0 (n + 1)).eval (.recurrence backwardsStart [backwardsStep] 0) -
        (ρ.atRound 0 n).eval (.recurrence backwardsStart [backwardsStep] 0) = -72 := by
  have hinv : (Context.ofFunction nestedModule backwards).isInvariant 0 (.unknown (.argument 0)) =
      .ok true := by decide +kernel
  have hindex : (ofFunction nestedModule backwards).evolution (.instruction 1) =
      .ok (.recurrence (.unknown (.argument 1)) [.constant (-3)] 0) := by decide +kernel
  have helement : (ofFunction nestedModule backwards).evolution (.instruction 2) =
      .ok (.recurrence backwardsStart [backwardsStep] 0) := by decide +kernel
  have hsize : nestedModule.layout.sizeOf (.struct "mixed") = .ok 24 := by decide
  obtain ⟨hdistance, hstride⟩ := stride_is_distance nestedModule backwards
  obtain ⟨hbytes, hnonUnit⟩ := hstride 2 0 0 0 _ (.argument 0) (.instruction 1) _ _ _ _ 24 rfl rfl
    rfl rfl rfl hinv hindex hsize
  refine ⟨rfl, hinv, hindex, helement, hbytes, hnonUnit, ?_⟩
  refine hdistance _ _ _ _ _ helement ?_ ?_ hbytes
  · have hproduct : AllEverywhere (fun n => ∀ b bs, n ≠ .recurrence b bs 0)
        [.sizeOf (.struct "mixed"), .unknown (.argument 1)] := by
      rw [allEverywhere_cons, allEverywhere_cons]
      exact ⟨.node nofun nofun, .node nofun nofun, allEverywhere_nil⟩
    refine everywhere_sum_iff.2 ⟨nofun, ?_⟩
    rw [allEverywhere_cons, allEverywhere_cons, everywhere_product_iff]
    exact ⟨.node nofun nofun, ⟨nofun, hproduct⟩, allEverywhere_nil⟩
  · refine everywhere_product_iff.2 ⟨nofun, ?_⟩
    rw [allEverywhere_cons, allEverywhere_cons]
    exact ⟨.node nofun nofun, .node nofun nofun, allEverywhere_nil⟩

end Scope

end GridAccess
