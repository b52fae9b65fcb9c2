import GridAccess.Proofs.Analysis

set_option autoImplicit false

/-!
# Axes that a formula marks

The formula of a value is written by a walk over the values it is computed from. The axes that are
marked on the way are those of the index registers met on the walk, no more and no less, whenever
the formula can be written (`ofValueWithin_marks`). A phi is opened once on each way.
-/

namespace GridAccess

/-! ## Marks of a computation -/

namespace Marked

variable {α β : Type} {x : Marked α} {P Q : Axis → Prop}

theorem bind_def (x : Marked α) (g : α → Marked β) : x >>= g = Marked.bind x g := rfl

theorem pure_def (y : α) : (pure y : Marked α) = Marked.pure y := rfl

instance : LawfulMonad Marked :=
  LawfulMonad.mk' Marked
    (by
      intro α x
      obtain ⟨result, axes⟩ := x
      cases result <;> simp [Functor.map, Marked.bind, Marked.pure])
    (by
      intro α β y g
      simp [bind_def, pure_def, Marked.bind, Marked.pure])
    (by
      intro α β γ x g h
      obtain ⟨result, axes⟩ := x
      cases result with
      | error e => rfl
      | ok y =>
        simp only [bind_def, Marked.bind]
        cases (g y).result <;> simp [AxisSet.union_assoc])

theorem lift_ok_bind (y : α) (g : α → Marked β) : lift (.ok y) >>= g = g y := by
  simp [bind_def, Marked.bind, lift, Failure.lift]

theorem lift_error_bind (e : Fault) (g : α → Marked β) :
    lift (.error e) >>= g = lift (.error e) := rfl

/-- If there is a result, the axes with a property have been marked and no others. -/
def Marks (x : Marked α) (P : Axis → Prop) : Prop :=
  ∀ y, x.result = .ok y → ∀ a, x.axes.contains a = true ↔ P a

theorem Marks.congr (hx : x.Marks P) (h : ∀ a, P a ↔ Q a) : x.Marks Q := by
  intro y hy a
  rw [hx y hy, h]

theorem marks_pure (y : α) : (pure y : Marked α).Marks fun _ => False := by
  intro z _ a
  simp [pure_def, Marked.pure]

theorem marks_refuse (e : AnalysisError) : (refuse e : Marked α).Marks P := by
  intro y hy
  cases hy

theorem marks_unsupported (kind detail : String) : (unsupported kind detail : Marked α).Marks P :=
  marks_refuse _

theorem marks_marking (s : AxisSet) (y : α) :
    (marking s y).Marks fun a => s.contains a = true := by
  intro z _ a
  exact Iff.rfl

/-- The second computation adds its marks to those of the first. -/
theorem Marks.bind {g : α → Marked β} (hx : x.Marks P)
    (hg : ∀ y, x.result = .ok y → (g y).Marks Q) : (x >>= g).Marks fun a => P a ∨ Q a := by
  intro z hz a
  rw [bind_def, Marked.bind] at hz ⊢
  cases hy : x.result with
  | error e =>
    rw [hy] at hz
    cases hz
  | ok y =>
    rw [hy] at hz
    simp only [AxisSet.contains_union, Bool.or_eq_true]
    rw [hx y hy, hg y hy z hz]

theorem Marks.bind_pure (hx : x.Marks P) (g : α → β) : (x >>= fun y => pure (g y)).Marks P := by
  refine (hx.bind fun y _ => marks_pure (g y)).congr ?_
  intro a
  simp

theorem marks_lift_bind {r : Except Fault α} {g : α → Marked β}
    (hg : ∀ y, r = .ok y → (g y).Marks Q) : (lift r >>= g).Marks Q := by
  have hlift : (lift r).Marks fun _ => False := by
    intro y _ a
    simp [lift]
  refine (hlift.bind fun y hy => hg y (Failure.lift_eq_ok_iff.1 hy)).congr ?_
  intro a
  simp

theorem marks_mapM {g : α → Marked β} {T : α → Axis → Prop} (ys : List α)
    (hg : ∀ y ∈ ys, (g y).Marks (T y)) : (ys.mapM g).Marks fun a => ∃ y ∈ ys, T y a := by
  induction ys with
  | nil =>
    refine (marks_pure []).congr ?_
    intro a
    simp
  | cons y ys ih =>
    rw [List.mapM_cons]
    have hrest := ih fun z hz => hg z (List.mem_cons_of_mem y hz)
    refine ((hg y List.mem_cons_self).bind fun _ _ => hrest.bind_pure _).congr ?_
    intro a
    simp

end Marked

/-! ## The walk over values -/

namespace Writer

variable {W : Writer} {a : Axis}

/-- The values whose formulas the formula of an operation is written with, each with whether a phi
has been written out by then. -/
def opened (W : Writer) (inPhi : Bool) : Operation → List (Value × Bool)
  | .extractValue v _ => if W.isOffsetParam v = .ok false then [(v, inPhi)] else []
  | .element v _ | .cast _ v | .load v => [(v, inPhi)]
  | .binary op l r => if op.symbol?.isSome then [(l, inPhi), (r, inPhi)] else []
  | .compare _ l r => [(l, inPhi), (r, inPhi)]
  | .phi incoming => if inPhi then [] else incoming.map fun entry => (entry.2, true)
  | _ => []

/-- The formula of one value is written with the formula of another. -/
inductive Opens (W : Writer) : Value × Bool → Value × Bool → Prop
  | operand {i : Nat} {inst : Instruction} {inPhi : Bool} {y : Value × Bool}
      (hinst : W.function.instructions[i]? = some inst) (hy : y ∈ W.opened inPhi inst.operation) :
      Opens W (.instruction i, inPhi) y
  | part {k : Nat} {e : ConstantExpr} {inPhi : Bool} {v : Value}
      (he : W.module.constantExprs[k]? = some e) (hroot : W.hasOffsetRoot e = .ok false)
      (hv : v ∈ e.operands) : Opens W (.constant (.expr k), inPhi) (v, inPhi)

/-- Instruction `i` is a call that reads an index register. -/
def ReadsRegister (W : Writer) (i : Nat) (r : Register) : Prop :=
  ∃ g args, W.module.Calls W.function i g args ∧ Register.ofReader? g.name = some r

/-- The walk from a value meets a call that reads an index register. -/
def Meets (W : Writer) (x : Value × Bool) (r : Register) : Prop :=
  ∃ i inPhi, Relation.ReflTransGen W.Opens x (.instruction i, inPhi) ∧ W.ReadsRegister i r

/-- The walk from a value meets a register that marks the axis. -/
def Touches (W : Writer) (x : Value × Bool) (a : Axis) : Prop :=
  ∃ r, W.Meets x r ∧ (W.policy.marks r).contains a = true

/-- A walk has met a register where it starts, or after a first step. -/
theorem touches_iff {x : Value × Bool} :
    W.Touches x a ↔
      (∃ i r, x.1 = .instruction i ∧ W.ReadsRegister i r ∧
        (W.policy.marks r).contains a = true) ∨ ∃ y, W.Opens x y ∧ W.Touches y a := by
  constructor
  · rintro ⟨r, ⟨i, inPhi, hwalk, hreads⟩, ha⟩
    rcases hwalk.cases_head with rfl | ⟨y, hstep, hrest⟩
    · exact .inl ⟨i, r, rfl, hreads, ha⟩
    · exact .inr ⟨y, hstep, r, ⟨i, inPhi, hrest, hreads⟩, ha⟩
  · rintro (⟨i, r, hx, hreads, ha⟩ | ⟨y, hstep, r, ⟨i, inPhi, hrest, hreads⟩, ha⟩)
    · obtain ⟨v, inPhi⟩ := x
      obtain rfl : v = .instruction i := hx
      exact ⟨r, ⟨i, inPhi, .refl, hreads⟩, ha⟩
    · exact ⟨r, ⟨i, inPhi, .head hstep hrest, hreads⟩, ha⟩

theorem not_touches_of_stuck {v : Value} {inPhi : Bool} (hv : ∀ i, v ≠ .instruction i)
    (hstuck : ∀ y, ¬ W.Opens (v, inPhi) y) : ¬ W.Touches (v, inPhi) a := by
  rw [touches_iff]
  rintro (⟨i, r, hi, -⟩ | ⟨y, hy, -⟩)
  · exact hv i hi
  · exact hstuck y hy

/-! ## Formulas of values -/

theorem register?_eq_ok {i : Nat} {inst : Instruction} {o : Option Register}
    (hinst : W.function.instructions[i]? = some inst) (h : W.register? inst = .ok o)
    (r : Register) : o = some r ↔ W.ReadsRegister i r := by
  rw [register?, bind_eq_ok_iff] at h
  obtain ⟨callee, hcallee, h⟩ := h
  have hcalls := Module.callee_eq_some_iff hinst hcallee
  cases callee with
  | some g =>
    obtain rfl := pure_eq_ok_iff.1 h
    obtain ⟨args, hcall⟩ := (hcalls g).1 rfl
    constructor
    · intro hr
      exact ⟨g, args, hcall, hr⟩
    · rintro ⟨g', args', hcall', hr⟩
      obtain ⟨rfl, -⟩ := hcall.unique hcall'
      exact hr
  | none =>
    obtain rfl := pure_eq_ok_iff.1 h
    simp only [reduceCtorEq, false_iff]
    rintro ⟨g, args, hcall, -⟩
    cases (hcalls g).2 ⟨args, hcall⟩

section Step

variable {recur : Recur} {T : Value × Bool → Axis → Prop}
  (hrecur : ∀ v inPhi, (recur v inPhi).Marks (T (v, inPhi)))

include hrecur

theorem ofPair_marks (inPhi : Bool) (l r : Value) (sign : String) :
    (ofPair recur inPhi l sign r).Marks fun a => T (l, inPhi) a ∨ T (r, inPhi) a :=
  (hrecur l inPhi).bind fun _ _ => (hrecur r inPhi).bind_pure _

/-- The formula of an operation has the marks of the values it opens. -/
theorem ofOperation_marks (i : Nat) (inPhi : Bool) (op : Operation) :
    (W.ofOperation recur i inPhi op).Marks fun a => ∃ y ∈ W.opened inPhi op, T y a := by
  cases op with
  | extractValue v indices =>
    rw [ofOperation]
    apply Marked.marks_lift_bind
    intro isOffset hoffset
    cases isOffset with
    | true =>
      -- the offsets of a block are written without a look at the parameter
      simp only [if_true]
      cases indices.head?.bind Axis.ofIndex? with
      | none => exact Marked.marks_unsupported _ _
      | some axis => exact (Marked.marks_pure _).congr (by simp [opened, hoffset])
    | false => exact (hrecur v inPhi).congr (by simp [opened, hoffset])
  | element v indices | cast castOp v | load v =>
    exact (hrecur v inPhi).congr (by simp [opened])
  | call callee args =>
    rw [ofOperation, ofCall]
    apply Marked.marks_lift_bind
    intro g hg
    have hnone : ∀ s : String,
        (pure s : Marked String).Marks fun a => ∃ y ∈ W.opened inPhi (.call callee args), T y a :=
      fun s => (Marked.marks_pure s).congr (by simp [opened])
    split
    · exact hnone _
    · split
      · have hname : (W.dimName args[1]?).Marks
            fun a => ∃ y ∈ W.opened inPhi (.call callee args), T y a := by
          rw [dimName.eq_def]
          split
          · exact hnone _
          · rw [← bind_pure (Marked.lift _)]
            exact Marked.marks_lift_bind fun s _ => hnone s
          · exact hnone _
        exact hname.bind_pure _
      · exact hnone _
  | alloca type => exact (Marked.marks_pure _).congr (by simp [opened])
  | binary bop l r =>
    rw [ofOperation]
    cases hsign : bop.symbol? with
    | none => exact Marked.marks_unsupported _ _
    | some sign => exact (ofPair_marks hrecur inPhi l r sign).congr (by simp [opened, hsign])
  | compare pred l r =>
    exact (ofPair_marks hrecur inPhi l r pred.symbol).congr (by simp [opened])
  | phi incoming =>
    rw [ofOperation]
    cases inPhi with
    | true => exact (Marked.marks_pure _).congr (by simp [opened])
    | false =>
      have hall := Marked.marks_mapM incoming fun entry _ => hrecur entry.2 true
      refine (hall.bind_pure _).congr ?_
      intro a
      simp only [opened, Bool.false_eq_true, if_false, List.mem_map, exists_exists_and_eq_and]
  | extractElement v j | select c t e | store v ptr | branch t | branchIf c t e | ret v
  | unreachable =>
    exact Marked.marks_unsupported _ _

/-- The formula of a constant has the marks of the parts of an expression. -/
theorem ofConstant_marks (inPhi : Bool) (c : Constant) :
    (W.ofConstant recur inPhi c).Marks fun a => ∃ y, W.Opens (.constant c, inPhi) y ∧ T y a := by
  cases c with
  | int w =>
    refine (Marked.marks_pure _).congr ?_
    intro a
    simp only [false_iff]
    rintro ⟨y, ⟨⟩, -⟩
  | global g =>
    rw [ofConstant]
    apply Marked.marks_lift_bind
    intro g' _
    split <;> refine (Marked.marks_pure _).congr ?_ <;> intro a <;> simp only [false_iff] <;>
      rintro ⟨y, ⟨⟩, -⟩
  | expr k =>
    rw [ofConstant]
    apply Marked.marks_lift_bind
    intro e he
    replace he := fetch_eq_ok_iff.1 he
    rw [ofConstantExpr]
    apply Marked.marks_lift_bind
    intro hasRoot hroot
    cases hasRoot with
    | true =>
      have hnone : ∀ s : String, (pure s : Marked String).Marks
          fun a => ∃ y, W.Opens (.constant (.expr k), inPhi) y ∧ T y a := by
        intro s
        refine (Marked.marks_pure s).congr ?_
        intro a
        simp only [false_iff]
        rintro ⟨y, hy, -⟩
        cases hy with
        | part he' hroot' _ =>
          obtain rfl := Option.some.inj (he.symm.trans he')
          cases hroot.symm.trans hroot'
      simp only [if_true]
      split
      · split
        · exact hnone _
        · exact Marked.marks_unsupported _ _
      · exact hnone _
    | false =>
      have hall := Marked.marks_mapM e.operands fun v _ => hrecur v inPhi
      refine (hall.bind_pure _).congr ?_
      intro a
      constructor
      · rintro ⟨v, hv, ha⟩
        exact ⟨(v, inPhi), .part he hroot hv, ha⟩
      · rintro ⟨y, hy, ha⟩
        cases hy with
        | part he' _ hv =>
          obtain rfl := Option.some.inj (he.symm.trans he')
          exact ⟨_, hv, ha⟩
  | float _ | null | undef | aggregate => exact Marked.marks_unsupported _ _

end Step

/-- The formula of a value marks the axes of the registers that the walk from it meets. -/
theorem ofValueWithin_marks (W : Writer) (depth : Nat) (v : Value) (inPhi : Bool) :
    (W.ofValueWithin depth v inPhi).Marks (W.Touches (v, inPhi)) := by
  induction depth generalizing v inPhi with
  | zero =>
    intro s hs
    cases hs
  | succ depth ih =>
    cases v with
    | argument i =>
      rw [ofValueWithin]
      apply Marked.marks_lift_bind
      intro param _
      refine (Marked.marks_pure _).congr ?_
      intro a
      simp only [false_iff]
      apply not_touches_of_stuck
      · intro i h
        cases h
      · rintro y ⟨⟩
    | constant c =>
      refine (ofConstant_marks ih inPhi c).congr ?_
      intro a
      rw [touches_iff]
      simp
    | instruction i =>
      rw [ofValueWithin, ofInstruction]
      apply Marked.marks_lift_bind
      intro inst hinst
      replace hinst := fetch_eq_ok_iff.1 hinst
      have hopens : ∀ y, W.Opens (.instruction i, inPhi) y ↔ y ∈ W.opened inPhi inst.operation := by
        intro y
        constructor
        · intro hy
          cases hy with
          | operand hinst' hy =>
            obtain rfl := Option.some.inj (hinst.symm.trans hinst')
            exact hy
        · exact .operand hinst
      apply Marked.marks_lift_bind
      intro o ho
      have hreads := register?_eq_ok hinst ho
      cases o with
      | some r =>
        refine (Marked.marks_marking _ _).congr ?_
        intro a
        have hr : W.ReadsRegister i r := (hreads r).1 rfl
        rw [touches_iff]
        constructor
        · intro ha
          exact .inl ⟨i, r, rfl, hr, ha⟩
        · rintro (⟨j, r', hj, hr', ha⟩ | ⟨y, hy, -⟩)
          · cases hj
            obtain rfl := Option.some.inj ((hreads r').2 hr')
            exact ha
          · -- a call opens nothing
            obtain ⟨g, args, ⟨inst', callee, hinst', hop, -⟩, -⟩ := hr
            obtain rfl := Option.some.inj (hinst.symm.trans hinst')
            rw [hopens, hop] at hy
            cases hy
      | none =>
        refine (ofOperation_marks ih i inPhi inst.operation).congr ?_
        intro a
        rw [touches_iff]
        simp only [hopens]
        constructor
        · exact .inr
        · rintro (⟨j, r, hj, hr, -⟩ | h)
          · cases hj
            cases (hreads r).2 hr
          · exact h

end Writer

end GridAccess
