import GridAccess.Proofs.Descent
import GridAccess.Proofs.FormulaReferences

set_option autoImplicit false

/-!
# Values that have no formula

The formula of a value is refused exactly if the walk over the values that it is written with
(`Writer.Opens`) comes to something that has none: an operator without a sign, a selection, an
element of a vector, a store or the end of a block, a constant that is no integer and no global, or
block offsets along no axis (`Writer.Obstructs`). In all other cases it is written
(`Writer.refused_iff_obstructed`).

This asks for less than a well-referenced module (`Function.WellSupplied`): the values and functions
that are referred to are there, and operands that run in a circle pass through a phi, constant
expressions included. One induction on the depth of the walk does for both halves. The outcome of
each step is decided by what it opens (`Decided`), and up to a phi and from there on every step
leaves one value fewer to be reached.
-/

namespace GridAccess

/-! ## Decided outcomes -/

/-- A failure is reported if `B` is the case, and there is a result if it is not. -/
inductive Decided {α ε : Type} (B : Prop) : Except (Failure ε) α → Prop
  | ok (a : α) (h : ¬ B) : Decided B (.ok a)
  | reported (e : ε) (h : B) : Decided B (.error (.reported e))

namespace Decided

variable {α ε : Type} {B C : Prop} {x : Except (Failure ε) α}

theorem congr (hx : Decided B x) (h : B ↔ C) : Decided C x := by
  cases hx with
  | ok a hB => exact .ok a (mt h.2 hB)
  | reported e hB => exact .reported e (h.1 hB)

theorem reported_iff (hx : Decided B x) : (∃ e, x = .error (.reported e)) ↔ B := by
  cases hx with
  | ok a hB => simp [hB]
  | reported e hB => simp [hB]

theorem ok_iff (hx : Decided B x) : (∃ a, x = .ok a) ↔ ¬ B := by
  cases hx with
  | ok a hB => simp [hB]
  | reported e hB => simp [hB]

end Decided

namespace Marked

variable {α β : Type} {B C : Prop} {x : Marked α}

theorem decided_pure (a : α) (h : ¬ B) : Decided B (pure a : Marked α).result := .ok a h

theorem decided_unsupported (kind detail : String) (h : B) :
    Decided B (unsupported kind detail : Marked α).result := .reported _ h

theorem decided_bind {g : α → Marked β} (hx : Decided B x.result)
    (hg : ∀ a, Decided C (g a).result) : Decided (B ∨ C) (x >>= g).result := by
  rw [bind_def, Marked.bind]
  cases hr : x.result with
  | error e =>
    rw [hr] at hx
    cases hx with
    | reported e hB => exact .reported e (.inl hB)
  | ok a =>
    rw [hr] at hx
    cases hx with
    | ok a hB => exact (hg a).congr (by simp [hB])

theorem decided_bind_pure (hx : Decided B x.result) (g : α → β) :
    Decided B (x >>= fun a => pure (g a)).result :=
  (decided_bind hx fun a => decided_pure (g a) not_false).congr (by simp)

theorem decided_lift_bind {r : Except Fault α} {a : α} {g : α → Marked β} (hr : r = .ok a)
    (hg : Decided B (g a).result) : Decided B (lift r >>= g).result := by
  rw [hr, lift_ok_bind]
  exact hg

/-- One computation after another: the first that is refused decides. -/
theorem decided_mapM {g : α → Marked β} {D : α → Prop} {xs : List α}
    (h : ∀ a ∈ xs, Decided (D a) (g a).result) : Decided (∃ a ∈ xs, D a) (xs.mapM g).result := by
  induction xs with
  | nil => exact decided_pure [] (by simp)
  | cons a xs ih =>
    rw [List.mapM_cons]
    have hrest := ih fun b hb => h b (List.mem_cons_of_mem a hb)
    refine (decided_bind (h a List.mem_cons_self) fun b => decided_bind_pure hrest _).congr ?_
    simp

end Marked

/-! ## Operands that can be followed -/

/-- A value is computed from another one: by an instruction that is no phi, or as a constant
expression. -/
inductive Function.RestsOn (m : Module) (f : Function) : Value → Value → Prop
  | operand {i : Nat} {op : Operation} {v : Value} (hop : f.operation? i = some op)
      (hphi : ∀ incoming, op ≠ .phi incoming) (hv : v ∈ op.operands) :
      RestsOn m f (.instruction i) v
  | part {k : Nat} {e : ConstantExpr} {v : Value} (he : m.constantExprs[k]? = some e)
      (hv : v ∈ e.operands) : RestsOn m f (.constant (.expr k)) v

/-- All values that instructions of the function and constant expressions are computed from are
there, and so are the functions called. Every circle of operands passes through a phi. -/
structure Function.WellSupplied (m : Module) (f : Function) : Prop where
  operand : ∀ inst ∈ f.instructions.toList, ∀ v ∈ inst.operation.operands, m.Has f v
  part : ∀ e ∈ m.constantExprs.toList, ∀ v ∈ e.operands, m.Has f v
  callee : ∀ inst ∈ f.instructions.toList, ∀ callee args, inst.operation = .call callee args →
    callee < m.functions.size
  acyclic : ∀ v, ¬ Relation.TransGen (f.RestsOn m) v v

namespace Function

variable {m : Module} {f : Function} {v w : Value} {i k : Nat} {inst : Instruction}
  {e : ConstantExpr}

/-- The instructions of the function and the constant expressions. -/
def joints (m : Module) (f : Function) : Finset Value :=
  (Finset.range f.instructions.size).image .instruction ∪
    (Finset.range m.constantExprs.size).image fun k => .constant (.expr k)

theorem card_joints_le (m : Module) (f : Function) :
    (f.joints m).card ≤ f.instructions.size + m.constantExprs.size := by
  refine (Finset.card_union_le _ _).trans (Nat.add_le_add ?_ ?_)
  · exact Finset.card_image_le.trans_eq (Finset.card_range _)
  · exact Finset.card_image_le.trans_eq (Finset.card_range _)

theorem instruction_mem_joints (hinst : f.instructions[i]? = some inst) :
    .instruction i ∈ f.joints m :=
  Finset.mem_union_left _ (Finset.mem_image_of_mem _
    (Finset.mem_range.2 (Array.getElem?_eq_some_iff.1 hinst).1))

theorem expr_mem_joints (he : m.constantExprs[k]? = some e) :
    .constant (.expr k) ∈ f.joints m :=
  Finset.mem_union_right _ (Finset.mem_image_of_mem (fun k => Value.constant (.expr k))
    (Finset.mem_range.2 (Array.getElem?_eq_some_iff.1 he).1))

theorem RestsOn.mem_joints (h : f.RestsOn m v w) : v ∈ f.joints m := by
  cases h with
  | operand hop _ _ =>
    obtain ⟨inst, hinst, -⟩ := Option.map_eq_some_iff.1 hop
    exact instruction_mem_joints hinst
  | part he _ => exact expr_mem_joints he

namespace WellSupplied

theorem has_operand (hf : f.WellSupplied m) (hinst : f.instructions[i]? = some inst)
    (hv : v ∈ inst.operation.operands) : m.Has f v :=
  hf.operand inst (Array.mem_toList_iff.2 (Array.mem_of_getElem? hinst)) v hv

theorem has_part (hf : f.WellSupplied m) (he : m.constantExprs[k]? = some e)
    (hv : v ∈ e.operands) : m.Has f v :=
  hf.part e (Array.mem_toList_iff.2 (Array.mem_of_getElem? he)) v hv

theorem callee_lt (hf : f.WellSupplied m) (hinst : f.instructions[i]? = some inst) {callee : Nat}
    {args : List Value} (hop : inst.operation = .call callee args) : callee < m.functions.size :=
  hf.callee inst (Array.mem_toList_iff.2 (Array.mem_of_getElem? hinst)) callee args hop

end WellSupplied

theorem reach_le (m : Module) (f : Function) (v : Value) :
    reach (f.RestsOn m) (f.joints m) v ≤ f.instructions.size + m.constantExprs.size :=
  (reach_le_card _ _ v).trans (card_joints_le m f)

/-- A rank that goes down from a value to what it is computed from, in a well-referenced module:
constant expressions by their places, and all instructions above them. -/
noncomputable def standing (m : Module) (f : Function) : Value → Nat
  | .instruction i => m.constantExprs.size + f.heightOf (.instruction i)
  | .constant (.expr k) => k + 1
  | _ => 0

theorem WellReferenced.wellSupplied (hm : m.WellReferenced) (hf : f.WellReferenced m) :
    f.WellSupplied m where
  operand := hf.operand
  part e he v hv := by
    obtain ⟨k, he⟩ := List.mem_iff_getElem?.1 he
    rw [Array.getElem?_toList] at he
    exact Module.has_operand_of_grounded (hm.constantExpr k e he)
      (Array.getElem?_eq_some_iff.1 he).1 hv
  callee := hf.callee
  acyclic := by
    apply acyclic_of_rank (f.standing m)
    intro v w hvw
    cases hvw with
    | operand hop hphi hw =>
      have hlt := hf.heightOf_lt hop hphi hw
      have hhas := hf.has_operand hop hw
      cases w with
      | instruction j => exact Nat.add_lt_add_left hlt _
      | argument j => exact Nat.add_pos_right _ (Nat.succ_pos _)
      | constant c =>
        cases c with
        | expr k =>
          have hk : k < m.constantExprs.size := hhas
          simp only [standing, heightOf]
          omega
        | _ => exact Nat.add_pos_right _ (Nat.succ_pos _)
    | part he hw =>
      obtain ⟨c, rfl, -, hearlier⟩ := hm.constantExpr _ _ he w hw
      cases c with
      | expr j => exact Nat.succ_lt_succ (hearlier j rfl)
      | _ => exact Nat.succ_pos _

end Function

/-! ## What has no formula -/

/-- No formula is written with the operation, whatever its operands: operators without a sign,
selections, elements of vectors, stores and the ends of blocks. -/
def Operation.isFormless : Operation → Bool
  | .binary op _ _ => [BinaryOp.lshr, .ashr, .or, .xor].contains op
  | .select .. | .extractElement .. | .store .. | .branch .. | .branchIf .. | .ret ..
  | .unreachable => true
  | _ => false

/-- Constants that no formula is written with. -/
def Constant.isFormless : Constant → Bool
  | .float _ | .null | .undef | .aggregate => true
  | _ => false

theorem BinaryOp.symbol?_eq_none_iff (op : BinaryOp) :
    op.symbol? = none ↔ [BinaryOp.lshr, .ashr, .or, .xor].contains op = true := by
  cases op <;> decide

theorem Axis.ofIndex?_eq_none_iff (n : Nat) : Axis.ofIndex? n = none ↔ 2 < n := by
  rcases n with _ | _ | _ | n <;> simp [Axis.ofIndex?]

theorem Word.two_lt_toNat_iff (w : Word) : 2 < w.toNat ↔ w.toInt < 0 ∨ 2 < w.toInt := by
  have hw := w.isLt
  rw [BitVec.toInt_eq_toNat_cond]
  split <;> omega

namespace Writer

variable {W : Writer} {recur : Recur} {inPhi : Bool} {v : Value} {i k : Nat} {inst : Instruction}
  {e : ConstantExpr} {B : Value × Bool → Prop}

/-- The value has no formula by itself, whatever the values that it is computed from. -/
inductive Obstructs (W : Writer) : Value → Prop
  | operation {i : Nat} {inst : Instruction} (hinst : W.function.instructions[i]? = some inst)
      (h : inst.operation.isFormless = true) : Obstructs W (.instruction i)
  /-- A field of block offsets that belongs to no axis. -/
  | field {i : Nat} {inst : Instruction} {v : Value} {indices : List Nat}
      (hinst : W.function.instructions[i]? = some inst)
      (hop : inst.operation = .extractValue v indices) (hoffset : W.isOffsetParam v = .ok true)
      (haxis : ∀ n, indices.head? = some n → 2 < n) : Obstructs W (.instruction i)
  | constant {c : Constant} (h : c.isFormless = true) : Obstructs W (.constant c)
  /-- An element of global block offsets that belongs to no axis. -/
  | element {k : Nat} {e : ConstantExpr} {root first second : Value}
      (he : W.module.constantExprs[k]? = some e) (hroot : W.hasOffsetRoot e = .ok true)
      (hoperands : e.operands = [root, first, second])
      (haxis : ∀ w, second = .int w → w.toInt < 0 ∨ 2 < w.toInt) :
      Obstructs W (.constant (.expr k))

/-- The walk over the values that a formula is written with comes to one that has none. -/
def Obstructed (W : Writer) (x : Value × Bool) : Prop :=
  ∃ y, Relation.ReflTransGen W.Opens x y ∧ W.Obstructs y.1

/-- A walk is obstructed where it starts, or after a first step. -/
theorem obstructed_iff {x : Value × Bool} :
    W.Obstructed x ↔ W.Obstructs x.1 ∨ ∃ y, W.Opens x y ∧ W.Obstructed y := by
  constructor
  · rintro ⟨z, hwalk, hz⟩
    rcases hwalk.cases_head with rfl | ⟨y, hstep, hrest⟩
    · exact .inl hz
    · exact .inr ⟨y, hstep, z, hrest, hz⟩
  · rintro (hx | ⟨y, hstep, z, hrest, hz⟩)
    · exact ⟨x, .refl, hx⟩
    · exact ⟨z, .head hstep hrest, hz⟩

theorem obstructs_instruction_iff (hinst : W.function.instructions[i]? = some inst) :
    W.Obstructs (.instruction i) ↔ inst.operation.isFormless = true ∨
      ∃ v indices, inst.operation = .extractValue v indices ∧ W.isOffsetParam v = .ok true ∧
        ∀ n, indices.head? = some n → 2 < n := by
  constructor
  · intro h
    cases h with
    | operation hinst' h =>
      obtain rfl := Option.some.inj (hinst.symm.trans hinst')
      exact .inl h
    | field hinst' hop hoffset haxis =>
      obtain rfl := Option.some.inj (hinst.symm.trans hinst')
      exact .inr ⟨_, _, hop, hoffset, haxis⟩
  · rintro (h | ⟨v, indices, hop, hoffset, haxis⟩)
    · exact .operation hinst h
    · exact .field hinst hop hoffset haxis

theorem opens_instruction_iff (hinst : W.function.instructions[i]? = some inst)
    {y : Value × Bool} :
    W.Opens (.instruction i, inPhi) y ↔ y ∈ W.opened inPhi inst.operation := by
  constructor
  · intro hy
    cases hy with
    | operand hinst' hy =>
      obtain rfl := Option.some.inj (hinst.symm.trans hinst')
      exact hy
  · exact .operand hinst

/-! ## How far a walk can go -/

/-- A bound on the length of the walks from a value: what it can reach, and everything once more if
no phi has been opened yet. -/
noncomputable def allowance (W : Writer) (x : Value × Bool) : Nat :=
  reach (W.function.RestsOn W.module) (W.function.joints W.module) x.1 + 1 +
    if x.2 then 0 else W.function.instructions.size + W.module.constantExprs.size

theorem allowance_pos (W : Writer) (x : Value × Bool) : 0 < W.allowance x := by
  rw [allowance]
  omega

theorem allowance_le_operandDepth (W : Writer) (x : Value × Bool) :
    W.allowance x ≤ W.operandDepth := by
  have hle := Function.reach_le W.module W.function x.1
  rw [allowance, operandDepth]
  split <;> omega

/-- Each step of a walk leaves less to be met, if every circle of operands passes through a phi. -/
theorem Opens.allowance_lt {x y : Value × Bool}
    (hacyclic : ∀ v, ¬ Relation.TransGen (W.function.RestsOn W.module) v v) (h : W.Opens x y) :
    W.allowance y < W.allowance x := by
  have hlt : ∀ {v w}, W.function.RestsOn W.module v w →
      reach (W.function.RestsOn W.module) (W.function.joints W.module) w <
        reach (W.function.RestsOn W.module) (W.function.joints W.module) v :=
    fun hvw => reach_lt (hacyclic _) hvw.mem_joints hvw
  cases h with
  | @operand i inst inPhi y hinst hy =>
    have hop := Function.operation?_of_getElem? hinst
    obtain ⟨hmem, ⟨hsame, hphi⟩ | ⟨rfl, htrue⟩⟩ := mem_operands_of_opened hy
    · -- an operand of an instruction that is no phi reaches less
      have hless := hlt (.operand hop hphi hmem)
      simp only [allowance, hsame]
      omega
    · -- from a phi the walk starts anew, and passes no other
      have hle := Function.reach_le W.module W.function y.1
      have hpos := reach_pos (R := W.function.RestsOn W.module)
        (Function.instruction_mem_joints (m := W.module) hinst)
      simp only [allowance, htrue, if_true, Bool.false_eq_true, if_false]
      omega
  | part he _ hv =>
    have hless := hlt (.part he hv)
    simp only [allowance]
    omega

/-! ## Formulas of instructions -/

theorem decided_ofPair {lhs rhs : Value} (sign : String)
    (hlhs : Decided (B (lhs, inPhi)) (recur lhs inPhi).result)
    (hrhs : Decided (B (rhs, inPhi)) (recur rhs inPhi).result) :
    Decided (B (lhs, inPhi) ∨ B (rhs, inPhi)) (ofPair recur inPhi lhs sign rhs).result :=
  Marked.decided_bind hlhs fun _ => Marked.decided_bind_pure hrhs _

theorem decided_ofCall (hf : W.function.WellSupplied W.module)
    (hinst : W.function.instructions[i]? = some inst) {callee : Nat} {args : List Value}
    (hop : inst.operation = .call callee args) :
    Decided False (W.ofCall callee args).result := by
  have hcallee := getElem?_pos W.module.functions callee (hf.callee_lt hinst hop)
  refine Marked.decided_lift_bind (fetch_eq_ok_iff.2 hcallee) ?_
  split
  · exact Marked.decided_pure _ not_false
  · split
    · refine Marked.decided_bind_pure ?_ _
      rw [dimName.eq_def]
      split
      · exact Marked.decided_pure _ not_false
      · -- a value that is given by its name is there, as all arguments are
        rename_i v _ hv
        have hhas : W.module.Has W.function v := by
          refine hf.has_operand hinst ?_
          rw [hop]
          exact List.mem_of_getElem? hv
        obtain ⟨name, hname, -⟩ := (settles_valueName (E := False) hhas).exists_ok
        rw [hname]
        exact .ok name not_false
      · exact Marked.decided_pure _ not_false
    · exact Marked.decided_pure _ not_false

/-- The formula of an instruction is decided by those of the values that it opens. -/
theorem decided_ofOperation (hf : W.function.WellSupplied W.module)
    (hinst : W.function.instructions[i]? = some inst)
    (hrecur : ∀ y ∈ W.opened inPhi inst.operation, Decided (B y) (recur y.1 y.2).result) :
    Decided (W.Obstructs (.instruction i) ∨ ∃ y ∈ W.opened inPhi inst.operation, B y)
      (W.ofOperation recur i inPhi inst.operation).result := by
  have hhas := fun v hv => hf.has_operand (v := v) hinst hv
  rw [obstructs_instruction_iff hinst]
  cases hop : inst.operation with
  | extractValue v indices =>
    rw [hop] at hrecur hhas
    obtain ⟨isOffset, hoffset, -⟩ :=
      (settles_isOffsetParam (E := False) (hhas v List.mem_cons_self)).exists_ok
    refine Marked.decided_lift_bind hoffset ?_
    cases isOffset with
    | true =>
      simp only [if_true]
      cases haxis : indices.head?.bind Axis.ofIndex? with
      | none =>
        refine Marked.decided_unsupported _ _ (.inl (.inr ⟨v, indices, rfl, hoffset, ?_⟩))
        intro n hn
        exact (Axis.ofIndex?_eq_none_iff n).1 (Option.bind_eq_none_iff.1 haxis n hn)
      | some a =>
        refine Marked.decided_pure _ ?_
        obtain ⟨n, hn, hna⟩ := Option.bind_eq_some_iff.1 haxis
        rintro ((h | ⟨_, _, ⟨⟩, -, hfar⟩) | ⟨y, hy, -⟩)
        · cases h
        · rw [(Axis.ofIndex?_eq_none_iff n).2 (hfar n hn)] at hna
          cases hna
        · simp [opened, hoffset] at hy
    | false =>
      refine (hrecur (v, inPhi) (by simp [opened, hoffset])).congr ?_
      simp [Operation.isFormless, opened, hoffset]
  | element v indices | cast castOp v | load v =>
    rw [hop] at hrecur
    refine (hrecur (v, inPhi) List.mem_cons_self).congr ?_
    simp [Operation.isFormless, opened]
  | call callee args =>
    refine (decided_ofCall hf hinst hop).congr ?_
    simp [Operation.isFormless, opened]
  | alloca type => exact Marked.decided_pure _ (by simp [Operation.isFormless, opened])
  | binary op l r =>
    rw [hop] at hrecur
    rw [ofOperation]
    cases hsign : op.symbol? with
    | none =>
      refine Marked.decided_unsupported _ _ (.inl (.inl ?_))
      exact op.symbol?_eq_none_iff.1 hsign
    | some sign =>
      have hsigned : Operation.isFormless (.binary op l r) = false := by
        rw [Operation.isFormless, ← Bool.not_eq_true, ← op.symbol?_eq_none_iff, hsign]
        simp
      refine (decided_ofPair (B := B) sign (hrecur (l, inPhi) (by simp [opened, hsign]))
        (hrecur (r, inPhi) (by simp [opened, hsign]))).congr ?_
      simp [hsigned, opened, hsign]
  | compare pred l r =>
    rw [hop] at hrecur
    refine (decided_ofPair (B := B) pred.symbol (hrecur (l, inPhi) (by simp [opened]))
      (hrecur (r, inPhi) (by simp [opened]))).congr ?_
    simp [Operation.isFormless, opened]
  | phi incoming =>
    rw [hop] at hrecur
    rw [ofOperation]
    cases inPhi with
    | true => exact Marked.decided_pure _ (by simp [Operation.isFormless, opened])
    | false =>
      have hall : Decided (∃ entry ∈ incoming, B (entry.2, true))
          (incoming.mapM fun entry => recur entry.2 true).result :=
        Marked.decided_mapM fun entry hentry => hrecur (entry.2, true) (List.mem_map_of_mem hentry)
      refine (Marked.decided_bind_pure hall _).congr ?_
      simp only [Operation.isFormless, opened, Bool.false_eq_true, reduceCtorEq, false_and,
        exists_const, if_false, List.mem_map, exists_exists_and_eq_and, false_or]
  | extractElement v j | select c t e | store v ptr | branch t | branchIf c t e | ret v
  | unreachable => exact Marked.decided_unsupported _ _ (.inl (.inl rfl))

/-! ## Formulas of constants -/

theorem obstructs_expr_iff (he : W.module.constantExprs[k]? = some e) :
    W.Obstructs (.constant (.expr k)) ↔ W.hasOffsetRoot e = .ok true ∧
      ∃ root first second, e.operands = [root, first, second] ∧
        ∀ w, second = .int w → w.toInt < 0 ∨ 2 < w.toInt := by
  constructor
  · intro h
    cases h with
    | constant h => cases h
    | element he' hroot hoperands haxis =>
      obtain rfl := Option.some.inj (he.symm.trans he')
      exact ⟨hroot, _, _, _, hoperands, haxis⟩
  · rintro ⟨hroot, root, first, second, hoperands, haxis⟩
    exact .element he hroot hoperands haxis

theorem opens_expr_iff (he : W.module.constantExprs[k]? = some e) {y : Value × Bool} :
    W.Opens (.constant (.expr k), inPhi) y ↔
      W.hasOffsetRoot e = .ok false ∧ y.1 ∈ e.operands ∧ y.2 = inPhi := by
  constructor
  · intro hy
    cases hy with
    | part he' hroot hv =>
      obtain rfl := Option.some.inj (he.symm.trans he')
      exact ⟨hroot, hv, rfl⟩
  · obtain ⟨v, inPhi'⟩ := y
    rintro ⟨hroot, hv, rfl⟩
    exact .part he hroot hv

theorem exists_hasOffsetRoot (hf : W.function.WellSupplied W.module)
    (he : W.module.constantExprs[k]? = some e) : ∃ b, W.hasOffsetRoot e = .ok b := by
  rw [hasOffsetRoot]
  split
  · rename_i g rest hoperands
    have hg : W.module.Has W.function (.constant (.global g)) :=
      hf.has_part he (hoperands ▸ List.mem_cons_self)
    exact ⟨_, map_eq_ok_iff.2 ⟨_, fetch_eq_ok_iff.2 (getElem?_pos W.module.globals g hg), rfl⟩⟩
  · exact ⟨false, rfl⟩

/-- Block offsets are along no axis exactly if the index that selects it is no integer from zero
to two. -/
theorem axis_eq_none_iff (index : Value) :
    (index.int?.bind fun w => Axis.ofIndex? w.toNat) = none ↔
      ∀ w, index = .int w → w.toInt < 0 ∨ 2 < w.toInt := by
  simp only [Option.bind_eq_none_iff, Axis.ofIndex?_eq_none_iff, Word.two_lt_toNat_iff]
  have hint : ∀ w, index.int? = some w ↔ index = .int w := by
    intro w
    rw [Value.int?.eq_def, Value.int]
    split <;> simp_all
  simp only [hint]

/-- The formula of a constant expression is decided by those of its operands. -/
theorem decided_ofConstantExpr (hf : W.function.WellSupplied W.module)
    (he : W.module.constantExprs[k]? = some e)
    (hrecur : W.hasOffsetRoot e = .ok false → ∀ v ∈ e.operands,
      Decided (B (v, inPhi)) (recur v inPhi).result) :
    Decided (W.Obstructs (.constant (.expr k)) ∨
      ∃ y, W.Opens (.constant (.expr k), inPhi) y ∧ B y)
      (W.ofConstantExpr recur inPhi e).result := by
  obtain ⟨hasRoot, hroot⟩ := exists_hasOffsetRoot hf he
  refine Marked.decided_lift_bind hroot ?_
  simp only [obstructs_expr_iff he, opens_expr_iff he, hroot]
  cases hasRoot with
  | true =>
    simp only [if_true]
    split
    · rename_i root first second hoperands
      split
      · rename_i a haxis
        refine Marked.decided_pure _ ?_
        rintro (⟨-, _, _, _, hoperands', hfar⟩ | ⟨y, ⟨⟨⟩, -⟩, -⟩)
        cases hoperands.symm.trans hoperands'
        rw [(axis_eq_none_iff second).2 hfar] at haxis
        cases haxis
      · rename_i haxis
        refine Marked.decided_unsupported _ _ (.inl ⟨trivial, root, first, second, hoperands, ?_⟩)
        exact (axis_eq_none_iff second).1 haxis
    · rename_i hother
      refine Marked.decided_pure _ ?_
      rintro (⟨-, root, first, second, hoperands, -⟩ | ⟨y, ⟨⟨⟩, -⟩, -⟩)
      exact hother root first second hoperands
  | false =>
    refine (Marked.decided_bind_pure (Marked.decided_mapM (hrecur hroot)) _).congr ?_
    constructor
    · rintro ⟨v, hv, hB⟩
      exact .inr ⟨(v, inPhi), ⟨rfl, hv, rfl⟩, hB⟩
    · rintro (⟨⟨⟩, -⟩ | ⟨⟨v, inPhi'⟩, ⟨-, hv, rfl⟩, hB⟩)
      exact ⟨v, hv, hB⟩

/-- The formula of a constant that is no expression is decided by its kind. -/
theorem decided_ofConstant {c : Constant} (hc : W.module.Has W.function (.constant c))
    (hexpr : ∀ k, c ≠ .expr k) :
    Decided (c.isFormless = true) (W.ofConstant recur inPhi c).result := by
  cases c with
  | int w => exact Marked.decided_pure w.text Bool.false_ne_true
  | global g =>
    refine Marked.decided_lift_bind (fetch_eq_ok_iff.2 (getElem?_pos W.module.globals g hc)) ?_
    split <;> exact Marked.decided_pure _ Bool.false_ne_true
  | expr k => exact absurd rfl (hexpr k)
  | float bits | null | undef | aggregate => exact Marked.decided_unsupported _ _ rfl

/-! ## Formulas of values -/

theorem exists_register? (hf : W.function.WellSupplied W.module)
    (hinst : W.function.instructions[i]? = some inst) : ∃ o, W.register? inst = .ok o := by
  have hcallee : ∃ o, W.module.callee inst = .ok o := by
    rw [Module.callee]
    split
    · rename_i callee args hop
      have hget := getElem?_pos W.module.functions callee (hf.callee_lt hinst hop)
      exact ⟨_, map_eq_ok_iff.2 ⟨_, fetch_eq_ok_iff.2 hget, rfl⟩⟩
    · exact ⟨none, rfl⟩
  obtain ⟨o, ho⟩ := hcallee
  cases o with
  | none => exact ⟨none, bind_eq_ok_iff.2 ⟨none, ho, rfl⟩⟩
  | some g => exact ⟨_, bind_eq_ok_iff.2 ⟨some g, ho, rfl⟩⟩

/-- The formula of a value is decided by the walk from it, if operands may be followed as deep as
there is anything to be reached, and once more from a phi. -/
theorem decided_ofValueWithin (hf : W.function.WellSupplied W.module) {depth : Nat}
    (hv : W.module.Has W.function v) (hdepth : W.allowance (v, inPhi) ≤ depth) :
    Decided (W.Obstructed (v, inPhi)) (W.ofValueWithin depth v inPhi).result := by
  induction depth generalizing v inPhi with
  | zero =>
    have hpos := W.allowance_pos (v, inPhi)
    omega
  | succ depth ih =>
    have hbelow : ∀ y, W.Opens (v, inPhi) y → W.module.Has W.function y.1 →
        Decided (W.Obstructed y) (W.ofValueWithin depth y.1 y.2).result := by
      intro y hy hhas
      have hlt := hy.allowance_lt hf.acyclic
      exact ih hhas (Nat.le_of_lt_succ (hlt.trans_le hdepth))
    cases v with
    | argument n =>
      refine Marked.decided_lift_bind (fetch_eq_ok_iff.2 (getElem?_pos W.function.params n hv)) ?_
      refine Marked.decided_pure _ ?_
      rw [obstructed_iff]
      rintro (h | ⟨y, ⟨⟩, -⟩)
      dsimp only at h
      cases h
    | constant c =>
      by_cases hexpr : ∃ k, c = .expr k
      · obtain ⟨k, rfl⟩ := hexpr
        have he := getElem?_pos W.module.constantExprs k hv
        refine Marked.decided_lift_bind (fetch_eq_ok_iff.2 he) ?_
        refine (decided_ofConstantExpr (B := W.Obstructed) hf he fun hroot w hw => ?_).congr
          (obstructed_iff (x := (.constant (.expr k), inPhi))).symm
        exact hbelow (w, inPhi) (.part he hroot hw) (hf.has_part he hw)
      · have hne : ∀ k, c ≠ .expr k := fun k hk => hexpr ⟨k, hk⟩
        refine (decided_ofConstant hv hne).congr ?_
        rw [obstructed_iff]
        constructor
        · intro h
          exact .inl (.constant h)
        · rintro (h | ⟨y, hy, -⟩)
          · cases h with
            | constant h => exact h
            | element => exact absurd rfl (hne _)
          · cases hy
            exact absurd rfl (hne _)
    | instruction i =>
      have hinst := getElem?_pos W.function.instructions i hv
      refine Marked.decided_lift_bind (fetch_eq_ok_iff.2 hinst) ?_
      obtain ⟨o, ho⟩ := exists_register? hf hinst
      refine Marked.decided_lift_bind ho ?_
      cases o with
      | some r =>
        -- a call that reads a register is written without a look at its arguments
        obtain ⟨g, args, ⟨inst', callee, hinst', hcall, -⟩, -⟩ :=
          (register?_eq_ok hinst ho r).1 rfl
        obtain rfl := Option.some.inj (hinst.symm.trans hinst')
        refine .ok r.text ?_
        rw [obstructed_iff, obstructs_instruction_iff hinst]
        simp only [opens_instruction_iff hinst, hcall]
        simp [Operation.isFormless, opened]
      | none =>
        refine (decided_ofOperation (B := W.Obstructed) hf hinst fun y hy => ?_).congr ?_
        · exact hbelow y (.operand hinst hy) (hf.has_operand hinst (mem_operands_of_opened hy).1)
        · rw [obstructed_iff]
          simp only [opens_instruction_iff hinst]

theorem decided_ofValue (hf : W.function.WellSupplied W.module)
    (hv : W.module.Has W.function v) (inPhi : Bool) :
    Decided (W.Obstructed (v, inPhi)) (W.ofValue v inPhi).result :=
  decided_ofValueWithin hf hv (W.allowance_le_operandDepth _)

/-- The formula of a value is refused exactly if the walk over the values that it is written with
comes to one that has none, and written exactly if it does not. -/
theorem refused_iff_obstructed (W : Writer) (hf : W.function.WellSupplied W.module) (v : Value)
    (hv : W.module.Has W.function v) (inPhi : Bool) :
    ((∃ e, (W.ofValue v inPhi).result = .error (.reported e)) ↔
      ∃ x, Relation.ReflTransGen W.Opens (v, inPhi) x ∧ W.Obstructs x.1) ∧
    ((∃ s, (W.ofValue v inPhi).result = .ok s) ↔
      ¬ ∃ x, Relation.ReflTransGen W.Opens (v, inPhi) x ∧ W.Obstructs x.1) := by
  have hdecided := decided_ofValue hf hv inPhi
  exact ⟨hdecided.reported_iff, hdecided.ok_iff⟩

end Writer

/-- A loop with a counter and a value that is blended with the parameter in each round. The
counter advances by that value. -/
def blend : Function where
  name := "blend"
  params := #[⟨"n", .int 32⟩]
  blocks := #[⟨"entry", [0]⟩, ⟨"loop", [1, 2, 3, 4, 5, 6]⟩, ⟨"exit", [7]⟩]
  instructions := #[
    ⟨0, .void, none, .branch 1⟩,
    ⟨1, .int 32, some "i", .phi [(0, .int 0), (1, .instruction 3)]⟩,
    ⟨1, .int 32, some "shade", .phi [(0, .int 1), (1, .instruction 4)]⟩,
    ⟨1, .int 32, none, .binary .add (.instruction 1) (.instruction 2)⟩,
    ⟨1, .int 32, none, .binary .xor (.instruction 2) (.argument 0)⟩,
    ⟨1, .truth, none, .compare .slt (.instruction 3) (.argument 0)⟩,
    ⟨1, .void, none, .branchIf (.instruction 5) 1 2⟩,
    ⟨2, .void, none, .ret none⟩]

/-- What formulas of `blend` are written with. -/
def blending : Writer where
  module := { name := "module", functions := #[blend] }
  function := blend
  builtins := {}
  policy := .blockIndex

theorem wellSupplied_blend : blend.WellSupplied blending.module := by
  have hf : blend.WellReferenced blending.module := by
    refine ⟨?_, by decide, by decide, ?_, by decide, Function.acyclic_of_earlier (by decide)⟩
    · simp [blend, blending, Operation.operands, Module.Has, Value.Within, Value.int]
    · simp [blend, blending]
  refine Function.WellReferenced.wellSupplied ⟨?_, ?_⟩ hf
  · intro f hmem
    obtain rfl : f = blend := by simpa [blending] using hmem
    exact hf
  · intro k e he
    simp [blending] at he

/-- The sum of the counter and the blended value has no formula, as one of the values that go into
it is an exclusive or. Inside a phi it has one, since the phis are not opened again. -/
theorem refused_iff_obstructed_blend :
    blend.WellSupplied blending.module ∧
      (∃ e, (blending.ofValue (.instruction 3) false).result = .error (.reported e)) ∧
      (∃ x, Relation.ReflTransGen blending.Opens (.instruction 3, false) x ∧
        blending.Obstructs x.1) ∧
      (blending.ofValue (.instruction 3) true).result =
        .ok "(#PHIRECURSION + #PHIRECURSION)" ∧
      ¬ ∃ x, Relation.ReflTransGen blending.Opens (.instruction 3, true) x ∧
        blending.Obstructs x.1 := by
  have hrefused : (blending.ofValue (.instruction 3) false).result =
      .error (.reported (.unsupported "operator" "%4 = xor")) := by decide +kernel
  have hwritten : (blending.ofValue (.instruction 3) true).result =
      .ok "(#PHIRECURSION + #PHIRECURSION)" := by decide +kernel
  have hhas : blending.module.Has blend (.instruction 3) := by
    simp [Module.Has, Value.Within, blend]
  obtain ⟨hiff, -⟩ := blending.refused_iff_obstructed wellSupplied_blend (.instruction 3) hhas false
  obtain ⟨-, hiff'⟩ := blending.refused_iff_obstructed wellSupplied_blend (.instruction 3) hhas true
  exact ⟨wellSupplied_blend, ⟨_, hrefused⟩, hiff.1 ⟨_, hrefused⟩, hwritten,
    hiff'.1 ⟨_, hwritten⟩⟩

end GridAccess
