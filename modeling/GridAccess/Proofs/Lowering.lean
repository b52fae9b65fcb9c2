import GridAccess.Evolution.OfValue
import GridAccess.Proofs.Execution
import GridAccess.Proofs.FoldingValue

set_option autoImplicit false

/-!
# From operations to evolutions

The evolution of an instruction is put together from those of its operands. If these have the
words of the operands in some states of executions, then the result has in the same states the
word that the operation gives: for arithmetic, casts, addresses of elements and choices of the
greater of two values (`Viewpoint.settles_ofBinary`, `settles_ofCast`, `settles_ofElement`,
`settles_ofSelect`), and for what one round of a loop adds to a phi (`settles_increment?`).

Which states these are, and what the evolutions may refer to, is kept in a `Viewpoint`, and is of
no concern here.
-/

namespace GridAccess

open Evolution

/-- Where evolutions of a context are looked at from: the instructions they may read, the loops
they may count, what is asked of each node besides, and the states in which they have to be
right. -/
structure Viewpoint (C : Context) where
  inputs : Inputs
  reads : Nat → Prop
  counts : Nat → Prop
  holds : State → Prop
  lt_of_reads : ∀ i, reads i → i < C.function.instructions.size
  lt_of_counts : ∀ l, counts l → l < C.forest.loops.size
  asks : Evolution → Prop := Definite
  stable_asks : Stable asks := by exact stable_definite
  definite_of_asks : ∀ n, asks n → Definite n := by exact fun _ h => h
  asks_sizeOf : ∀ t, asks (.sizeOf t) := by exact fun _ => trivial

namespace Viewpoint

variable {C : Context} (V : Viewpoint C)

/-- The node is as asked and refers to nothing else than allowed. -/
def Admits (n : Evolution) : Prop := V.asks n ∧ Scoped V.reads V.counts n

/-- What evolutions stand for in a state. -/
def valuation (s : State) : Valuation := s.valuation C.module V.inputs

/-- The evolution has the word of a value. -/
def Tells (v : Value) (e : Evolution) : Prop :=
  e.Everywhere V.Admits ∧ ∀ s, V.holds s → (V.valuation s).eval e = V.inputs.read s.vals v

/-- The evolution has the word that an operation gives. -/
def Computes (op : Operation) (e : Evolution) : Prop :=
  e.Everywhere V.Admits ∧ ∀ s, V.holds s →
    op.result? C.module C.function V.inputs s.vals = some ((V.valuation s).eval e)

variable {V} {E : Prop} {es : List Evolution} {a b : Evolution}

theorem stable_admits : Stable V.Admits := V.stable_asks.and (stable_scoped _ _)

theorem known_of_admits {e : Evolution} (h : e.Everywhere V.Admits) : e.Everywhere C.Known := by
  refine h.mono fun n hn => ?_
  cases n with
  | unknown v =>
    cases v with
    | instruction i => exact V.lt_of_reads i hn.2
    | _ => trivial
  | recurrence _ _ l => exact V.lt_of_counts l hn.2
  | _ => trivial

theorem definite_of_admits {e : Evolution} (h : e.Everywhere V.Admits) : e.Everywhere Definite :=
  h.mono fun n hn => V.definite_of_asks n hn.1

theorem everywhere_sizeOf (t : Ty) : (Evolution.sizeOf t).Everywhere V.Admits :=
  .leaf ⟨V.asks_sizeOf t, trivial⟩ rfl

/-! ## Folding -/

theorem settles_sum (h : AllEverywhere V.Admits es) :
    Settles E (fun e => e.Everywhere V.Admits ∧ ∀ ρ : Valuation, ρ.eval e = (es.map ρ.eval).sum)
      (C.sum es) := by
  rcases C.sum_cases es with ⟨e, he, hsums⟩ | ⟨-, hnot⟩
  · rw [he]
    exact .ok ⟨hsums.everywhere stable_admits h,
      fun ρ => hsums.eval ρ fun x hx => definite_of_admits (h x hx)⟩
  · exact absurd (fun x hx => known_of_admits (h x hx)) hnot

theorem settles_product (ha : a.Everywhere V.Admits) (hb : b.Everywhere V.Admits) :
    Settles E (fun e => e.Everywhere V.Admits ∧ ∀ ρ : Valuation, ρ.eval e = ρ.eval a * ρ.eval b)
      (C.product a b) := by
  rcases C.product_cases a b with ⟨e, he, hprod⟩ | ⟨-, hnot⟩
  · rw [he]
    refine .ok ⟨hprod.everywhere stable_admits ha (by simpa using hb), fun ρ => ?_⟩
    rw [hprod.eval ρ (definite_of_admits ha) (by simpa using definite_of_admits hb)]
    simp
  · refine absurd ?_ hnot
    simpa using ⟨known_of_admits ha, known_of_admits hb⟩

theorem settles_negate (ha : a.Everywhere V.Admits) :
    Settles E (fun e => e.Everywhere V.Admits ∧ ∀ ρ : Valuation, ρ.eval e = -ρ.eval a)
      (C.negate a) := by
  refine (settles_product (everywhere_constant stable_admits (-1)) ha).mono id fun e he => ?_
  refine ⟨he.1, fun ρ => ?_⟩
  rw [he.2 ρ, ρ.eval_constant]
  ring

theorem settles_difference (ha : a.Everywhere V.Admits) (hb : b.Everywhere V.Admits) :
    Settles E (fun e => e.Everywhere V.Admits ∧ ∀ ρ : Valuation, ρ.eval e = ρ.eval a - ρ.eval b)
      (C.difference a b) := by
  refine (settles_negate hb).bind fun c hc => ?_
  refine (settles_sum (by simpa using ⟨ha, hc.1⟩)).mono id fun e he => ⟨he.1, fun ρ => ?_⟩
  rw [he.2 ρ]
  simp only [List.map_cons, List.map_nil, List.sum_cons, List.sum_nil, hc.2 ρ]
  ring

/-! ## Arithmetic and casts -/

variable {find : Context.Lookup}

theorem eq_of_shiftFactor? {amount : Value} {w : Word}
    (h : Context.shiftFactor? amount = some w) :
    ∃ n : Word, amount = .constant (.int n) ∧ n.toNat < 64 ∧ w = (1 : Word) <<< n.toNat := by
  rw [Context.shiftFactor?] at h
  split at h
  · rename_i n hn
    split at h
    · rename_i hlt
      refine ⟨n, ?_, by omega, (Option.some.inj h).symm⟩
      cases amount with
      | constant c => cases c <;> simp_all [Value.int?]
      | _ => simp [Value.int?] at hn
    · cases h
  · cases h

theorem settles_ofBinary {op : BinaryOp} {lhs rhs : Value}
    (hl : Settles E (V.Tells lhs) (find lhs)) (hr : Settles E (V.Tells rhs) (find rhs)) :
    Settles E (fun o => ∀ e ∈ o, V.Computes (.binary op lhs rhs) e)
      (C.ofBinary find op lhs rhs) := by
  refine hl.bind fun l hl => ?_
  cases op with
  | add =>
    refine hr.bind fun r hr => ?_
    refine (settles_sum (by simpa using ⟨hl.1, hr.1⟩)).mapSome fun e he => ?_
    refine ⟨he.1, fun s hs => ?_⟩
    rw [Operation.result?, he.2, ← hl.2 s hs, ← hr.2 s hs]
    simp
  | sub =>
    refine hr.bind fun r hr => ?_
    refine (settles_difference hl.1 hr.1).mapSome fun e he => ?_
    refine ⟨he.1, fun s hs => ?_⟩
    rw [Operation.result?, he.2, ← hl.2 s hs, ← hr.2 s hs]
  | mul =>
    refine hr.bind fun r hr => ?_
    refine (settles_product hl.1 hr.1).mapSome fun e he => ?_
    refine ⟨he.1, fun s hs => ?_⟩
    rw [Operation.result?, he.2, ← hl.2 s hs, ← hr.2 s hs]
  | udiv =>
    refine hr.bind fun r hr => ?_
    refine .some ⟨everywhere_divide stable_admits hl.1 hr.1, fun s hs => ?_⟩
    rw [Operation.result?, eval_divide, ← hl.2 s hs, ← hr.2 s hs]
    rfl
  | shl =>
    cases hw : Context.shiftFactor? rhs with
    | none => exact .none
    | some w =>
      obtain ⟨n, rfl, hn, rfl⟩ := eq_of_shiftFactor? hw
      refine (settles_product hl.1 (everywhere_constant stable_admits _)).mapSome fun e he => ?_
      refine ⟨he.1, fun s hs => ?_⟩
      rw [Operation.result?, he.2, ← hl.2 s hs]
      simp only [Inputs.read, hn, if_true, Valuation.eval_constant]
      rw [BitVec.shiftLeft_eq_mul_twoPow, BitVec.twoPow_eq]
      rfl
  | _ => exact .none

theorem settles_ofCast {op : CastOp} {operand : Value}
    (h : Settles E (V.Tells operand) (find operand)) :
    Settles E (fun o => ∀ e ∈ o, V.Computes (.cast op operand) e)
      (Context.ofCast find op operand) := by
  refine h.bind fun e he => ?_
  cases op with
  | trunc =>
    refine .some ⟨everywhere_truncate stable_admits he.1, fun s hs => ?_⟩
    rw [eval_truncate, he.2 s hs]
    rfl
  | zext =>
    refine .some ⟨everywhere_extend stable_admits false he.1, fun s hs => ?_⟩
    rw [eval_extend, he.2 s hs]
    rfl
  | sext =>
    refine .some ⟨everywhere_extend stable_admits true he.1, fun s hs => ?_⟩
    rw [eval_extend, he.2 s hs]
    rfl
  | bitcast | addrspacecast =>
    refine .some ⟨he.1, fun s hs => ?_⟩
    rw [he.2 s hs]
    rfl
  | ptrtoint | inttoptr => exact .none

/-! ## Addresses of elements -/

/-- The terms add up to the bytes that indices move. -/
def Offsets (V : Viewpoint C) (bytes : (Value → Word) → Option Word) (es : List Evolution) : Prop :=
  AllEverywhere V.Admits es ∧ ∀ s, V.holds s →
    bytes (V.inputs.read s.vals) = some ((es.map (V.valuation s).eval).sum)

theorem settles_scaled {index : Value} (ha : V.Tells index a) (t : Ty) :
    Settles E (fun e => e.Everywhere V.Admits ∧ ∀ s, V.holds s →
        (V.valuation s).eval e = V.inputs.read s.vals index * C.module.sizeWord t)
      (C.product a (.sizeOf t)) := by
  refine (settles_product ha.1 (everywhere_sizeOf t)).mono id fun e he => ⟨he.1, fun s hs => ?_⟩
  rw [he.2, ha.2 s hs]
  rfl

/-- The field that an index selects, with its offset. -/
theorem settles_fieldAt? {m : Module} {name : String} (index : Value)
    (h : E ∨ m.layout.Bounded (.struct name)) :
    Settles E (fun o => ∀ place ∈ o, E ∨ m.layout.Bounded place.2) (m.fieldAt? name index) := by
  rw [Module.fieldAt?]
  cases Module.fieldIndex? index with
  | none => exact .none
  | some i =>
    have hoffset : Settles E (fun _ => True) (m.layout.fieldOffset? name i) := by
      cases ho : m.layout.fieldOffset? name i with
      | ok o => exact .ok trivial
      | error f =>
        obtain ⟨rfl, hnot⟩ := Layout.fieldOffset?_eq_error ho
        exact .endless (h.resolve_right hnot)
    refine hoffset.bind fun o _ => ?_
    cases o with
    | none => exact .none
    | some offset =>
      refine .ok fun place hplace => ?_
      obtain ⟨t, ht, rfl⟩ := Option.map_eq_some_iff.1 hplace
      obtain ⟨fields, hfields, ht⟩ := Option.bind_eq_some_iff.1 ht
      exact h.imp_right fun hbounded => hbounded.field hfields (List.mem_of_getElem? ht)

theorem settles_offsetsWithin {indices : List Value}
    (h : ∀ v ∈ indices, Settles E (V.Tells v) (find v)) (t : Ty)
    (ht : E ∨ C.module.layout.Bounded t) :
    Settles E (fun o => ∀ es ∈ o,
        V.Offsets (fun word => C.module.bytesWithin? word t indices) es)
      (C.offsetsWithin find t indices) := by
  induction indices generalizing t with
  | nil =>
    have hnil : V.Offsets (fun word => C.module.bytesWithin? word t []) [] :=
      ⟨allEverywhere_nil, fun s hs => by cases t <;> rfl⟩
    cases t <;> exact .some hnil
  | cons index rest ih =>
    have hrest := ih fun v hv => h v (List.mem_cons_of_mem index hv)
    cases t with
    | struct name =>
      -- a field adds its constant offset
      refine (settles_fieldAt? index ht).self.bind fun place hplace => ?_
      obtain ⟨hinner, hplace⟩ := hplace
      cases place with
      | none => exact .none
      | some place =>
        refine (hrest place.2 (hinner place rfl)).bind fun more hmore => ?_
        cases more with
        | none => exact .none
        | some es =>
          obtain ⟨hes, hbytes⟩ := hmore es rfl
          refine .some ⟨?_, fun s hs => ?_⟩
          · exact allEverywhere_cons.2 ⟨everywhere_constant stable_admits _, hes⟩
          · simp [Module.bytesWithin?, hplace, Except.toOption, hbytes s hs]
    | array element n =>
      -- an index into an array adds its multiple of the element size
      refine (h index List.mem_cons_self).bind fun a ha => ?_
      refine (settles_scaled ha element).bind fun scaled hscaled => ?_
      refine (hrest element ht).bind fun more hmore => ?_
      cases more with
      | none => exact .none
      | some es =>
        obtain ⟨hes, hbytes⟩ := hmore es rfl
        refine .some ⟨allEverywhere_cons.2 ⟨hscaled.1, hes⟩, fun s hs => ?_⟩
        simp [Module.bytesWithin?, hbytes s hs, hscaled.2 s hs]
    | _ => exact .none

/-- The offsets of an address, from the type that its base points to. -/
theorem settles_elementOffsets {base : Value} {indices : List Value} {t : Ty}
    (hbase : C.module.typeOf C.function base = .ok t)
    (hlaid : ∀ elem, indices ≠ [] → C.module.pointeeOf? C.function base = some elem →
      E ∨ C.module.layout.Bounded elem)
    (h : ∀ v ∈ indices, Settles E (V.Tells v) (find v)) :
    Settles E (fun o => ∀ es ∈ o, ∃ elem, C.module.pointeeOf? C.function base = some elem ∧
        V.Offsets (fun word => C.module.bytes? word elem indices) es)
      (C.elementOffsets find base indices) := by
  have hpointee : C.module.pointeeOf? C.function base = t.pointee? := by
    rw [Module.pointeeOf?, hbase]
  have htype : Settles E (· = t) (C.module.typeOf C.function base) := by
    rw [hbase]
    exact .ok rfl
  refine htype.bind ?_
  rintro t rfl
  cases helem : t.pointee? with
  | none => exact .none
  | some elem =>
    rw [helem] at hpointee
    cases indices with
    | nil =>
      exact .some ⟨elem, hpointee, allEverywhere_nil, fun _ _ => rfl⟩
    | cons index rest =>
      refine (h index List.mem_cons_self).bind fun a ha => ?_
      refine (settles_scaled ha elem).bind fun scaled hscaled => ?_
      have hrest := settles_offsetsWithin (fun v hv => h v (List.mem_cons_of_mem index hv)) elem
        (hlaid elem (List.cons_ne_nil index rest) hpointee)
      refine hrest.bind fun more hmore => ?_
      cases more with
      | none => exact .none
      | some es =>
        obtain ⟨hes, hbytes⟩ := hmore es rfl
        refine .some ⟨elem, hpointee, allEverywhere_cons.2 ⟨hscaled.1, hes⟩, fun s hs => ?_⟩
        simp [Module.bytes?, hbytes s hs, hscaled.2 s hs]

theorem settles_ofElement {base : Value} {indices : List Value} {t : Ty}
    (hbase : C.module.typeOf C.function base = .ok t)
    (hlaid : ∀ elem, indices ≠ [] → C.module.pointeeOf? C.function base = some elem →
      E ∨ C.module.layout.Bounded elem)
    (h : ∀ v ∈ indices ++ [base], Settles E (V.Tells v) (find v)) :
    Settles E (fun o => ∀ e ∈ o, V.Computes (.element base indices) e)
      (C.ofElement find base indices) := by
  refine (h base (by simp)).bind fun start hstart => ?_
  have hoffsets := settles_elementOffsets hbase hlaid fun v hv => h v (List.mem_append_left _ hv)
  refine hoffsets.bind fun o ho => ?_
  cases o with
  | none => exact .none
  | some es =>
    obtain ⟨elem, helem, hes, hbytes⟩ := ho es rfl
    refine (settles_sum (allEverywhere_cons.2 ⟨hstart.1, hes⟩)).mapSome fun e he => ?_
    refine ⟨he.1, fun s hs => ?_⟩
    rw [he.2]
    simp [Operation.result?, helem, hbytes s hs, hstart.2 s hs]

/-! ## Choices -/

theorem holds_swapped (pred : Predicate) (x y : Word) :
    pred.swapped.holds x y = pred.holds y x := by
  cases pred with
  | eq | ne => simp [Predicate.swapped, Predicate.holds, Bool.beq_comm, bne]
  | _ => rfl

/-- The comparisons by which the greater of two words is chosen. -/
def choosesGreater : Bool → Predicate → Prop
  | true, .sgt | true, .sge | false, .ugt | false, .uge => True
  | _, _ => False

theorem key_le_of_holds {signed : Bool} {pred : Predicate} (hpred : choosesGreater signed pred)
    (x y : Word) : (pred.holds x y = true → Word.key signed y ≤ Word.key signed x) ∧
      (pred.holds x y = false → Word.key signed x ≤ Word.key signed y) := by
  cases signed with
  | true =>
    cases pred with
    | sgt | sge =>
      simp only [Predicate.holds, Word.key, BitVec.slt, BitVec.sle, if_true, decide_eq_true_eq,
        decide_eq_false_iff_not]
      omega
    | _ => exact hpred.elim
  | false =>
    cases pred with
    | ugt | uge =>
      simp only [Predicate.holds, Word.key, BitVec.ult, BitVec.ule, Bool.false_eq_true, if_false,
        decide_eq_true_eq, decide_eq_false_iff_not]
      omega
    | _ => exact hpred.elim

theorem choice_eq_greatest {signed : Bool} {pred : Predicate} (hpred : choosesGreater signed pred)
    (x y : Word) : (if pred.holds x y then x else y) = Word.greatest signed [x, y] := by
  apply Word.key_injective signed
  have hgreatest : Word.greatest signed [x, y] = Word.greater signed x y := rfl
  rw [hgreatest, Word.key_greater]
  cases h : pred.holds x y with
  | true => exact (max_eq_left ((key_le_of_holds hpred x y).1 h)).symm
  | false => exact (max_eq_right ((key_le_of_holds hpred x y).2 h)).symm

theorem settles_definition {v : Value}
    (hv : ∀ j, v = .instruction j → j < C.function.instructions.size) :
    Settles E (fun o => ∀ inst ∈ o, ∃ j, v = .instruction j ∧
        C.function.operation? j = some inst.operation) (C.function.definition v) := by
  cases v with
  | argument _ | constant _ => exact .none
  | instruction j =>
    have hinst := Array.getElem?_eq_getElem (hv j rfl)
    rw [Function.definition, Function.instruction, fetch, hinst]
    exact .some ⟨j, rfl, by rw [Function.operation?, hinst, Option.map_some]⟩

theorem settles_comparison? {cond : Value}
    (hcond : ∀ j, cond = .instruction j → j < C.function.instructions.size) :
    Settles E (fun o => ∀ c ∈ o, ∃ j, cond = .instruction j ∧
        C.function.operation? j = some (.compare c.pred c.lhs c.rhs))
      (C.comparison? cond) := by
  have hdef := settles_definition (E := E) hcond
  rw [Context.comparison?]
  generalize C.function.definition cond = r at hdef
  cases hdef with
  | endless hE => exact .endless hE
  | @ok o ho =>
    cases o with
    | none => exact .none
    | some inst =>
      obtain ⟨j, hj, hop⟩ := ho inst rfl
      dsimp only
      split
      · rename_i pred lhs rhs heq
        exact .some ⟨j, hj, heq ▸ hop⟩
      · exact .none

/-- A choice between the two sides of a comparison that chooses the greater is their maximum. -/
theorem settles_ofSelect {cond onTrue onFalse : Value}
    (hcond : ∀ j, cond = .instruction j → j < C.function.instructions.size)
    (hcompare : ∀ j pred lhs rhs, cond = .instruction j →
      C.function.operation? j = some (.compare pred lhs rhs) → ∀ s, V.holds s → s.vals j =
        if pred.holds (V.inputs.read s.vals lhs) (V.inputs.read s.vals rhs) then 1 else 0)
    (ht : Settles E (V.Tells onTrue) (find onTrue))
    (hf : Settles E (V.Tells onFalse) (find onFalse)) :
    Settles E (fun o => ∀ e ∈ o, V.Computes (.select cond onTrue onFalse) e)
      (C.ofSelect find cond onTrue onFalse) := by
  refine (settles_comparison? hcond).bind fun o ho => ?_
  cases o with
  | none => exact .none
  | some c =>
    obtain ⟨j, rfl, hop⟩ := ho c rfl
    have hword := hcompare j c.pred c.lhs c.rhs rfl hop
    dsimp only
    generalize hpred : (if onTrue = c.lhs ∧ onFalse = c.rhs then some c.pred
      else if onTrue = c.rhs ∧ onFalse = c.lhs then some c.pred.swapped else none) = pred?
    cases pred? with
    | none => exact .none
    | some pred =>
      -- the condition compares the two values in the order in which they are chosen
      have hchoice : ∀ s, V.holds s → s.vals j =
          if pred.holds (V.inputs.read s.vals onTrue) (V.inputs.read s.vals onFalse) then 1
          else 0 := by
        intro s hs
        split_ifs at hpred with h₁ h₂
        · rw [hword s hs, ← Option.some.inj hpred, h₁.1, h₁.2]
        · rw [hword s hs, ← Option.some.inj hpred, holds_swapped, h₂.1, h₂.2]
      refine ht.bind fun a ha => hf.bind fun b hb => ?_
      have hmax : ∀ signed, choosesGreater signed pred →
          V.Computes (.select (.instruction j) onTrue onFalse) (maximum signed [a, b]) := by
        intro signed hgreater
        have hall : AllEverywhere V.Admits [a, b] := by simpa using ⟨ha.1, hb.1⟩
        have hops : ∀ e ∈ [a, b], maxOperands signed e ≠ [] :=
          fun e he => Context.maxOperands_ne_nil signed (definite_of_admits (hall e he)).top
        refine ⟨everywhere_maximum stable_admits (by simp) hops hall, fun s hs => ?_⟩
        rw [eval_maximum _ (by simp) hops, List.map_cons, List.map_cons, List.map_nil,
          ha.2 s hs, hb.2 s hs, ← choice_eq_greatest hgreater, Operation.result?, Inputs.read,
          hchoice s hs]
        split_ifs <;> simp_all
      cases pred with
      | sgt | sge =>
        exact .some (hmax true trivial)
      | ugt | uge =>
        exact .some (hmax false trivial)
      | _ => exact .none

/-! ## What a round adds -/

section Increment

variable {l : Loop} {phi back v : Value} {t : Ty}

theorem exists_isInvariant (hv : C.module.typeOf C.function v = .ok t) (l : Loop) :
    ∃ r, l.isInvariant C.function v = .ok r := by
  cases v with
  | argument _ | constant _ => exact ⟨true, rfl⟩
  | instruction j =>
    obtain ⟨inst, hinst, -⟩ := map_eq_ok_iff.1 hv
    exact ⟨!l.contains inst.parent, map_eq_ok_iff.2 ⟨inst, hinst, rfl⟩⟩

theorem exists_allOutside {vs : List Value}
    (h : ∀ v ∈ vs, ∃ t, C.module.typeOf C.function v = .ok t) (l : Loop) :
    ∃ r, C.allOutside l vs = .ok r ∧
      (r = true → ∀ v ∈ vs, l.isInvariant C.function v = .ok true) := by
  induction vs with
  | nil => exact ⟨true, rfl, by simp⟩
  | cons v vs ih =>
    obtain ⟨t, ht⟩ := h v List.mem_cons_self
    obtain ⟨r, hr⟩ := exists_isInvariant ht l
    obtain ⟨r', hr', hall⟩ := ih fun w hw => h w (List.mem_cons_of_mem v hw)
    cases r with
    | false => exact ⟨false, by rw [Context.allOutside, hr], nofun⟩
    | true =>
      refine ⟨r', by rw [Context.allOutside, hr, hr'], fun htrue w hw => ?_⟩
      rcases List.mem_cons.1 hw with rfl | hw
      · exact hr
      · exact hall htrue w hw

/-- A check that is made if something is the case. -/
theorem settles_guard {c : Prop} [Decidable c] {P : Prop} {r : Except Fault Bool}
    (h : ∃ b, r = .ok b ∧ (b = true → P)) :
    Settles E (fun b => b = true → c ∧ P) (if c then r else .ok false) := by
  obtain ⟨b, rfl, hb⟩ := h
  split
  · exact .ok fun hb' => ⟨‹c›, hb hb'⟩
  · exact .ok nofun

/-- What is added to a phi in each round: the instruction that gives the phi its next value yields
the phi's word plus the evolution. -/
def Advances (V : Viewpoint C) (phi back : Value) (e : Evolution) : Prop :=
  e.Everywhere V.Admits ∧ ∃ j op, back = .instruction j ∧ C.function.operation? j = some op ∧
    phi ∈ op.operands ∧ C.function.incoming? j = none ∧ ∀ s, V.holds s →
      op.result? C.module C.function V.inputs s.vals =
        some (V.inputs.read s.vals phi + (V.valuation s).eval e)

/-- Instruction `j` may give a phi of a loop its next value: its operands have types, and if the
phi is among them, the evolutions of those that are computed outside the loop tell their words. -/
structure Feeds (V : Viewpoint C) (E : Prop) (find : Context.Lookup) (l : Loop) (phi : Value)
    (j : Nat) (op : Operation) : Prop where
  operation : C.function.operation? j = some op
  typed : ∀ v ∈ op.operands, ∃ t, C.module.typeOf C.function v = .ok t
  laid : E ∨ C.function.Laid C.module j
  found : C.function.incoming? j = none → phi ∈ op.operands → ∀ v ∈ op.operands,
    l.isInvariant C.function v = .ok true → Settles E (V.Tells v) (find v)

namespace Feeds

variable {j : Nat} {op : Operation}

theorem exists_check (h : V.Feeds E find l phi j op) (hv : v ∈ op.operands) :
    ∃ b, l.isInvariant C.function v = .ok b ∧
      (b = true → l.isInvariant C.function v = .ok true) := by
  obtain ⟨t, ht⟩ := h.typed v hv
  obtain ⟨b, hb⟩ := exists_isInvariant ht l
  exact ⟨b, hb, fun htrue => htrue ▸ hb⟩

/-- An operand from outside the loop is added to the phi. -/
theorem settles_added (h : V.Feeds E find l phi j op) (hnone : C.function.incoming? j = none)
    (hphi : phi ∈ op.operands) (hv : v ∈ op.operands)
    (hinv : l.isInvariant C.function v = .ok true)
    (hadd : ∀ s : State, op.result? C.module C.function V.inputs s.vals =
      some (V.inputs.read s.vals phi + V.inputs.read s.vals v)) :
    Settles E (fun o => ∀ e ∈ o, V.Advances phi (.instruction j) e) (some <$> find v) := by
  refine (h.found hnone hphi v hv hinv).mapSome fun e he => ?_
  refine ⟨he.1, j, op, rfl, h.operation, hphi, hnone, fun s hs => ?_⟩
  rw [hadd s, he.2 s hs]

/-- An operand from outside the loop is subtracted from the phi. -/
theorem settles_subtracted {rhs : Value} (h : V.Feeds E find l phi j (.binary .sub phi rhs))
    (hnone : C.function.incoming? j = none) (hinv : l.isInvariant C.function rhs = .ok true) :
    Settles E (fun o => ∀ e ∈ o, V.Advances phi (.instruction j) e)
      (find rhs >>= fun a => some <$> C.negate a) := by
  have hphi : phi ∈ (Operation.binary .sub phi rhs).operands := List.mem_cons_self
  have hrhs := h.found hnone hphi rhs (by simp [Operation.operands]) hinv
  refine hrhs.bind fun a ha => (settles_negate ha.1).mapSome fun e he => ?_
  refine ⟨he.1, j, _, rfl, h.operation, hphi, hnone, fun s hs => ?_⟩
  rw [Operation.result?, he.2, ha.2 s hs, sub_eq_add_neg]

/-- The offsets of an address move a pointer that is a phi. -/
theorem advances_of_offsets {indices : List Value} {elem : Ty}
    (h : V.Feeds E find l phi j (.element phi indices))
    (hnone : C.function.incoming? j = none)
    (helem : C.module.pointeeOf? C.function phi = some elem)
    (hes : V.Offsets (fun word => C.module.bytes? word elem indices) es)
    (ha : a.Everywhere V.Admits)
    (hvalue : ∀ ρ : Valuation, ρ.eval a = (es.map ρ.eval).sum) :
    V.Advances phi (.instruction j) a := by
  refine ⟨ha, j, _, rfl, h.operation, by simp [Operation.operands], hnone, fun s hs => ?_⟩
  rw [hvalue]
  simp [Operation.result?, helem, hes.2 s hs]

end Feeds

/-- The increment of a phi is what the instruction that gives it its next value adds to it. -/
theorem settles_increment?
    (hback : ∀ j, back = .instruction j → j < C.function.instructions.size)
    (hfeeds : ∀ j op, back = .instruction j → C.function.operation? j = some op →
      V.Feeds E find l phi j op) :
    Settles E (fun o => ∀ e ∈ o, V.Advances phi back e) (C.increment? find l phi back) := by
  refine (settles_definition hback).bind fun o ho => ?_
  cases o with
  | none => exact .none
  | some inst =>
    obtain ⟨j, rfl, hop⟩ := ho inst rfl
    have h := hfeeds j _ rfl hop
    dsimp only
    split
    · -- an addition moves the phi by its other operand, on whichever side the phi is
      rename_i lhs rhs heq
      rw [heq] at hop h
      have hnone : C.function.incoming? j = none := by rw [Function.incoming?, hop]
      refine (settles_guard (h.exists_check (v := rhs) (by simp [Operation.operands]))).bind
        fun r hr => ?_
      cases r with
      | true =>
        obtain ⟨rfl, hinv⟩ := hr rfl
        exact h.settles_added hnone (by simp [Operation.operands]) (by simp [Operation.operands])
          hinv fun s => rfl
      | false =>
        refine (settles_guard (h.exists_check (v := lhs) (by simp [Operation.operands]))).bind
          fun r hr => ?_
        cases r with
        | true =>
          obtain ⟨rfl, hinv⟩ := hr rfl
          refine h.settles_added hnone (by simp [Operation.operands])
            (by simp [Operation.operands]) hinv fun s => ?_
          rw [Operation.result?, add_comm]
        | false => exact .none
    · rename_i lhs rhs heq
      rw [heq] at hop h
      have hnone : C.function.incoming? j = none := by rw [Function.incoming?, hop]
      refine (settles_guard (h.exists_check (v := rhs) (by simp [Operation.operands]))).bind
        fun r hr => ?_
      cases r with
      | true =>
        obtain ⟨rfl, hinv⟩ := hr rfl
        exact h.settles_subtracted hnone hinv
      | false => exact .none
    · -- an address moves a phi that is its base by the offsets of its indices
      rename_i base indices heq
      rw [heq] at hop h
      have hnone : C.function.incoming? j = none := by rw [Function.incoming?, hop]
      obtain ⟨t, ht⟩ := h.typed base (by simp [Operation.operands])
      have hindices : ∀ v ∈ indices, v ∈ (Operation.element base indices).operands :=
        fun v hv => List.mem_append_left _ hv
      refine (settles_guard (exists_allOutside (fun v hv => h.typed v (hindices v hv)) l)).bind
        fun r hr => ?_
      cases r with
      | true =>
        obtain ⟨rfl, hinv⟩ := hr rfl
        have hlaid : ∀ elem, indices ≠ [] → C.module.pointeeOf? C.function base = some elem →
            E ∨ C.module.layout.Bounded elem :=
          fun elem hne helem => h.laid.imp_right fun hl => hl base indices elem hop hne helem
        refine (settles_elementOffsets ht hlaid fun v hv => h.found hnone
          (by simp [Operation.operands]) v (hindices v hv) (hinv v hv)).bind fun o ho => ?_
        cases o with
        | none => exact .none
        | some es =>
          obtain ⟨elem, helem, hes⟩ := ho es rfl
          cases es with
          | nil =>
            exact .some (h.advances_of_offsets hnone helem hes
              (everywhere_constant stable_admits 0) fun _ => rfl)
          | cons e es =>
            refine (settles_sum hes.1).mapSome fun e he => ?_
            exact h.advances_of_offsets hnone helem hes he.1 he.2
      | false => exact .none
    · exact .none

end Increment

end Viewpoint

end GridAccess
