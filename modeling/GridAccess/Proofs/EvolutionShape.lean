import GridAccess.Proofs.Lowering

set_option autoImplicit false

/-!
# What all evolutions have in common

The evolution of a value is put together from constants, sizes of types and values that are not
looked into, by sums, products, quotients, maxima and casts, and by recurrences with one step of
loops that are there. A property that all these constructions keep (`Context.Keeps`) is therefore
one that every evolution has, whatever the module refers to (`Context.Keeps.evolution`).

In particular every evolution is known throughout and refers only to what is there
(`Scope.known_of_evolution`), so that it can be folded further and keeps its value.
-/

namespace GridAccess

open Evolution

namespace Context

/-- The constructions that evolutions are made by keep a property. -/
structure Keeps (C : Context) (Q : Evolution → Prop) : Prop where
  constant : ∀ w, Q (.constant w)
  sizeOf : ∀ t, Q (.sizeOf t)
  unknown : ∀ v, (∀ i, v = .instruction i → i < C.function.instructions.size) → Q (.unknown v)
  sum : ∀ es, (∀ e ∈ es, Q e) → Yields (C.sum es) Q
  product : ∀ a b, Q a → Q b → Yields (C.product a b) Q
  divide : ∀ a b, Q a → Q b → Q (a.divide b)
  maximum : ∀ signed a b, Q a → Q b → Q (Evolution.maximum signed [a, b])
  extend : ∀ signed e, Q e → Q (e.extend signed)
  truncate : ∀ e, Q e → Q e.truncate
  recurrence : ∀ a s l, l < C.forest.loops.size → Q a → Q s → Q (.recurrence a [s] l)

namespace Keeps

variable {C : Context} {Q : Evolution → Prop} {find : Lookup} {t : Table}

section Step

variable (hQ : C.Keeps Q) (hfind : ∀ v, Yields (find v) Q)

include hQ

theorem negate {e : Evolution} (he : Q e) : Yields (C.negate e) Q :=
  hQ.product _ _ (hQ.constant _) he

theorem difference {a b : Evolution} (ha : Q a) (hb : Q b) : Yields (C.difference a b) Q :=
  (hQ.negate hb).bind fun e he => hQ.sum [a, e] (by simp [ha, he])

include hfind

theorem offsetsWithin (indices : List Value) (type : Ty) :
    Yields (C.offsetsWithin find type indices) fun o => ∀ es ∈ o, ∀ e ∈ es, Q e := by
  induction indices generalizing type with
  | nil => cases type <;> exact .some (by simp)
  | cons index rest ih =>
    cases type with
    | struct name =>
      refine (Yields.any _).bind fun place _ => ?_
      cases place with
      | none => exact .none
      | some place =>
        refine (ih place.2).bind fun more hmore => ?_
        cases more with
        | none => exact .none
        | some es => exact .some (by simpa using ⟨hQ.constant _, hmore es rfl⟩)
    | array element n =>
      refine (hfind index).bind fun e he => ?_
      refine (hQ.product e _ he (hQ.sizeOf element)).bind fun scaled hscaled => ?_
      refine (ih element).bind fun more hmore => ?_
      cases more with
      | none => exact .none
      | some es => exact .some (by simpa using ⟨hscaled, hmore es rfl⟩)
    | _ => exact .none

theorem elementOffsets (base : Value) (indices : List Value) :
    Yields (C.elementOffsets find base indices) fun o => ∀ es ∈ o, ∀ e ∈ es, Q e := by
  refine (Yields.any _).bind fun type _ => ?_
  cases type.pointee? with
  | none => exact .none
  | some element =>
    cases indices with
    | nil => exact .some (by simp)
    | cons index rest =>
      refine (hfind index).bind fun e he => ?_
      refine (hQ.product e _ he (hQ.sizeOf element)).bind fun scaled hscaled => ?_
      refine (hQ.offsetsWithin hfind rest element).bind fun more hmore => ?_
      cases more with
      | none => exact .none
      | some es => exact .some (by simpa using ⟨hscaled, hmore es rfl⟩)

theorem ofElement (base : Value) (indices : List Value) :
    Yields (C.ofElement find base indices) fun o => ∀ e ∈ o, Q e := by
  refine (hfind base).bind fun start hstart => ?_
  refine (hQ.elementOffsets hfind base indices).bind fun o ho => ?_
  cases o with
  | none => exact .none
  | some es => exact (hQ.sum _ (by simpa using ⟨hstart, ho es rfl⟩)).mapSome

theorem ofBinary (op : BinaryOp) (lhs rhs : Value) :
    Yields (C.ofBinary find op lhs rhs) fun o => ∀ e ∈ o, Q e := by
  refine (hfind lhs).bind fun l hl => ?_
  cases op with
  | add => exact (hfind rhs).bind fun r hr => (hQ.sum [l, r] (by simp [hl, hr])).mapSome
  | sub => exact (hfind rhs).bind fun r hr => (hQ.difference hl hr).mapSome
  | mul => exact (hfind rhs).bind fun r hr => (hQ.product l r hl hr).mapSome
  | udiv => exact (hfind rhs).bind fun r hr => .some (hQ.divide l r hl hr)
  | shl =>
    dsimp only
    cases shiftFactor? rhs with
    | none => exact .none
    | some w => exact (hQ.product l _ hl (hQ.constant w)).mapSome
  | _ => exact .none

theorem ofCast (op : CastOp) (operand : Value) :
    Yields (Context.ofCast find op operand) fun o => ∀ e ∈ o, Q e := by
  refine (hfind operand).bind fun e he => ?_
  cases op with
  | zext => exact .some (hQ.extend false e he)
  | sext => exact .some (hQ.extend true e he)
  | trunc => exact .some (hQ.truncate e he)
  | bitcast | addrspacecast => exact .some he
  | ptrtoint | inttoptr => exact .none

theorem ofSelect (cond onTrue onFalse : Value) :
    Yields (C.ofSelect find cond onTrue onFalse) fun o => ∀ e ∈ o, Q e := by
  refine (Yields.any _).bind fun c _ => ?_
  cases c with
  | none => exact .none
  | some c =>
    dsimp only
    generalize (if onTrue = c.lhs ∧ onFalse = c.rhs then some c.pred
      else if onTrue = c.rhs ∧ onFalse = c.lhs then some c.pred.swapped else none) = pred?
    cases pred? with
    | none => exact .none
    | some pred =>
      refine (hfind onTrue).bind fun a ha => (hfind onFalse).bind fun b hb => ?_
      cases pred with
      | sgt | sge => exact .some (hQ.maximum true a b ha hb)
      | ugt | uge => exact .some (hQ.maximum false a b ha hb)
      | _ => exact .none

theorem increment? (l : Loop) (phi back : Value) :
    Yields (C.increment? find l phi back) fun o => ∀ e ∈ o, Q e := by
  refine (Yields.any _).bind fun inst _ => ?_
  cases inst with
  | none => exact .none
  | some inst =>
    dsimp only
    split
    · refine (Yields.any _).bind fun left _ => ?_
      split
      · exact (hfind _).mapSome
      · refine (Yields.any _).bind fun right _ => ?_
        split
        · exact (hfind _).mapSome
        · exact .none
    · refine (Yields.any _).bind fun left _ => ?_
      split
      · exact (hfind _).bind fun e he => (hQ.negate he).mapSome
      · exact .none
    · rename_i base indices _
      refine (Yields.any _).bind fun outside _ => ?_
      split
      · refine (hQ.elementOffsets hfind base indices).bind fun o ho => ?_
        cases o with
        | none => exact .none
        | some es =>
          cases es with
          | nil => exact .some (hQ.constant 0)
          | cons e es => exact (hQ.sum _ (ho _ rfl)).mapSome
      · exact .none
    · exact .none

theorem ofPhi (phi : Value) (b : Nat) (incoming : List (Nat × Value)) :
    Yields (C.ofPhi find phi b incoming) fun o => ∀ e ∈ o, Q e := by
  rw [Context.ofPhi]
  cases hin : C.forest.innermost? b with
  | none => exact .none
  | some id =>
    have hid : id < C.forest.loops.size := by
      have hmem := List.mem_of_mem_head? hin
      exact List.mem_range.1 (List.mem_filter.1 hmem).1
    refine (Yields.any _).bind fun l _ => ?_
    split
    · exact .none
    · cases entryAndBack? l incoming with
      | none => exact .none
      | some values =>
        refine (hQ.increment? hfind l phi values.2).bind fun o ho => ?_
        cases o with
        | none => exact .none
        | some step =>
          refine (hfind values.1).bind fun start hstart => ?_
          exact .some (hQ.recurrence start step id hid hstart (ho step rfl))

theorem ofInstruction {i : Nat} (hi : i < C.function.instructions.size) (inst : Instruction) :
    Yields (C.ofInstruction find i inst) Q := by
  -- an instruction for which nothing is found is not looked into
  have hfound : ∀ {r : Except Fault (Option Evolution)}, (Yields r fun o => ∀ e ∈ o, Q e) →
      Yields (r >>= fun o => pure (o.getD (.unknown (.instruction i)))) Q := by
    intro r hr
    refine hr.bind fun o ho => ?_
    cases o with
    | none =>
      refine .ok (hQ.unknown _ ?_)
      rintro _ ⟨⟩
      exact hi
    | some e => exact .ok (ho e rfl)
  rw [Context.ofInstruction]
  cases inst.operation with
  | binary op lhs rhs => exact hfound (hQ.ofBinary hfind op lhs rhs)
  | cast op operand => exact hfound (hQ.ofCast hfind op operand)
  | element base indices => exact hfound (hQ.ofElement hfind base indices)
  | select cond onTrue onFalse => exact hfound (hQ.ofSelect hfind cond onTrue onFalse)
  | phi incoming => exact hfound (hQ.ofPhi hfind _ inst.parent incoming)
  | _ => exact hfound .none

end Step

/-! ## Rounds -/

/-- Every evolution in the table has the property. -/
def Tabulates (Q : Evolution → Prop) (t : Table) : Prop := ∀ r ∈ t, Yields r Q

theorem lookup (hQ : C.Keeps Q) (ht : Tabulates Q t) (v : Value) :
    Yields (Context.lookup t v) Q := by
  cases v with
  | instruction i =>
    rw [Context.lookup]
    cases hr : t[i]? with
    | none => exact .error _
    | some r => exact ht r (Array.mem_of_getElem? hr)
  | argument n => exact .ok (hQ.unknown _ nofun)
  | constant c =>
    cases c with
    | int w => exact .ok (hQ.constant w)
    | _ => exact .ok (hQ.unknown _ nofun)

theorem round (hQ : C.Keeps Q) (ht : Tabulates Q t) : Tabulates Q (C.round t) := by
  intro r hr
  obtain ⟨i, hi, rfl⟩ := Array.mem_mapIdx.1 hr
  exact hQ.ofInstruction (hQ.lookup ht) hi _

theorem settle (hQ : C.Keeps Q) (rounds : Nat) (ht : Tabulates Q t) :
    Tabulates Q (C.settle rounds t) := by
  induction rounds generalizing t with
  | zero => exact ht
  | succ rounds ih =>
    rw [Context.settle]
    split
    · exact ht
    · exact ih (hQ.round ht)

/-- A property that the constructions keep is one of every evolution. -/
theorem evolution (hQ : C.Keeps Q) (v : Value) : Yields ((Scope.ofContext C).evolution v) Q := by
  refine hQ.lookup (hQ.settle _ fun r hr => ?_) v
  obtain ⟨-, rfl⟩ := Array.mem_replicate.1 hr
  exact .error _

end Keeps

/-- The constructions keep a foldable property of all nodes that the leaves of evolutions have. -/
theorem keeps_everywhere {C : Context} {P : Evolution → Prop} (hP : C.Foldable P)
    (hdefinite : ∀ n, P n → Definite n) (hsizeOf : ∀ t, P (.sizeOf t))
    (hunknown : ∀ v, (∀ i, v = .instruction i → i < C.function.instructions.size) →
      P (.unknown v))
    (hrecurrence : ∀ a s l, l < C.forest.loops.size → P (.recurrence a [s] l)) :
    C.Keeps fun e => e.Everywhere P where
  constant w := .leaf (hP.constant w) rfl
  sizeOf t := .leaf (hsizeOf t) rfl
  unknown v hv := .leaf (hunknown v hv) rfl
  sum es hes e he := (sums_of_sumWithin he).everywhere_of_foldable hP hes
  product a b ha hb e he :=
    (multiplies_of_productWithin he (.done e)).everywhere_of_foldable hP ha (by simpa using hb)
  divide a b ha hb := hP.everywhere_divide ha hb
  maximum signed a b ha hb := by
    have hab : AllEverywhere P [a, b] := by simpa using ⟨ha, hb⟩
    exact hP.everywhere_maximum (List.cons_ne_nil _ _)
      (fun e he => maxOperands_ne_nil signed (hdefinite e (hab e he).top)) hab
  extend signed e he := hP.everywhere_extend signed he
  truncate e he := hP.everywhere_truncate he
  recurrence a s l hl ha hs :=
    everywhere_recurrence_iff.2 ⟨hrecurrence a s l hl, ha, by simpa using hs⟩

end Context

namespace Scope

variable {C : Context} {v : Value} {e : Evolution}

/-- Every evolution is known throughout, and reads instructions and loops that are there. -/
theorem known_of_evolution (h : (Scope.ofContext C).evolution v = .ok e) :
    e.Everywhere fun n => Definite n ∧ C.Known n := by
  have hkeeps : C.Keeps fun e => e.Everywhere fun n => Definite n ∧ C.Known n := by
    apply Context.keeps_everywhere ((stable_definite.and C.stable_known).foldable C)
    · exact fun n hn => hn.1
    · exact fun t => ⟨trivial, trivial⟩
    · intro v hv
      refine ⟨trivial, ?_⟩
      cases v with
      | instruction i => exact hv i rfl
      | _ => trivial
    · exact fun a s l hl => ⟨trivial, hl⟩
  exact hkeeps.evolution v e h

/-- Every evolution is proper: it is known throughout, and its recurrences belong to loops that
are there. -/
theorem proper_of_evolution (h : (Scope.ofContext C).evolution v = .ok e) :
    e.Everywhere C.Proper := by
  refine (known_of_evolution h).mono fun n hn => ⟨hn.1, ?_⟩
  cases n with
  | unknown v => cases v <;> trivial
  | recurrence _ _ _ => exact hn.2
  | _ => trivial

end Scope

end GridAccess
