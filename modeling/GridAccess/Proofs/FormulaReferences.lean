import GridAccess.Proofs.EvolutionReferences
import GridAccess.Proofs.Marks

set_option autoImplicit false

/-!
# Formulas come to an end

In a well-referenced module the formula of a value that is there is written or reported as
unsupported: no reference dangles on the way, and operands are not followed deeper than allowed
(`Writer.concludes_ofValue`). From one instruction to the next the height goes down; a phi starts
anew, but only once.

The formula of an evolution asks in addition for the bounds of loops. A bound is written with the
number of rounds of its loop, whose recurrences belong to loops with greater numbers, so that
bounds nest no deeper than there are loops (`Writer.concludes_boundWithin`). All that can keep the
formula from being written is an evolution that runs in a circle (`Writer.concludes_ofEvolution`).
-/

namespace GridAccess

open Evolution

/-! ## Results with marks -/

namespace Marked

variable {α β : Type} {E : Prop} {x : Marked α}

theorem concludes_bind {g : α → Marked β} (hx : Concludes E x.result)
    (hg : ∀ a, Concludes E (g a).result) : Concludes E (x >>= g).result := by
  rw [bind_def, Marked.bind]
  cases hr : x.result with
  | ok a => exact hg a
  | error e =>
    rw [hr] at hx
    cases hx with
    | reported e => exact .reported e
    | endless hE => exact .endless hE

theorem concludes_lift_bind {P : α → Prop} {r : Except Fault α} {g : α → Marked β}
    (hr : Settles E P r) (hg : ∀ a, P a → Concludes E (g a).result) :
    Concludes E (lift r >>= g).result := by
  cases hr with
  | ok ha =>
    rw [lift_ok_bind]
    exact hg _ ha
  | endless hE =>
    rw [lift_error_bind]
    exact .endless hE

theorem concludes_lift {P : α → Prop} {r : Except Fault α} (hr : Settles E P r) :
    Concludes E (lift r).result := by
  cases hr with
  | ok ha => exact .ok _
  | endless hE => exact .endless hE

theorem concludes_mapM {g : α → Marked β} {xs : List α} (h : ∀ a ∈ xs, Concludes E (g a).result) :
    Concludes E (xs.mapM g).result := by
  induction xs with
  | nil => exact .ok _
  | cons a xs ih =>
    rw [List.mapM_cons]
    refine concludes_bind (h a List.mem_cons_self) fun b => ?_
    exact concludes_bind (ih fun c hc => h c (List.mem_cons_of_mem a hc)) fun bs => .ok _

end Marked

namespace Writer

variable {W : Writer} {E : Prop} {recur : Recur} {inPhi : Bool} {v : Value} {i : Nat}

/-! ## Formulas of values -/

theorem concludes_ofPair {lhs rhs : Value} (sign : String)
    (hlhs : Concludes E (recur lhs inPhi).result) (hrhs : Concludes E (recur rhs inPhi).result) :
    Concludes E (ofPair recur inPhi lhs sign rhs).result :=
  Marked.concludes_bind hlhs fun _ => Marked.concludes_bind hrhs fun _ => .ok _

theorem concludes_dimName {o : Option Value} (ho : ∀ v ∈ o, W.module.Has W.function v) :
    Concludes E (W.dimName o).result := by
  cases o with
  | none => exact .ok _
  | some v =>
    have hname := Marked.concludes_lift (settles_valueName (E := E) (ho v rfl))
    cases v with
    | argument i | instruction i => exact hname
    | constant c => cases c <;> exact .ok _

theorem concludes_ofCall (hf : W.function.WellReferenced W.module) {callee : Nat}
    {args : List Value} (hop : W.function.operation? i = some (.call callee args)) :
    Concludes E (W.ofCall callee args).result := by
  refine Marked.concludes_lift_bind (Settles.fetch (hf.callee_lt hop)) fun g _ => ?_
  split
  · exact .ok _
  · split
    · refine Marked.concludes_bind (concludes_dimName fun v hv => ?_) fun _ => .ok _
      exact hf.has_operand hop (List.mem_of_getElem? hv)
    · exact .ok _

theorem settles_isOffsetParam (hv : W.module.Has W.function v) :
    Settles E (fun _ => True) (W.isOffsetParam v) := by
  cases v with
  | argument a => exact (Settles.fetch hv).map fun _ _ => trivial
  | _ => exact .ok trivial

/-- The formula of an instruction, if those of the operands that it is written with can be
written. -/
theorem concludes_ofOperation (hf : W.function.WellReferenced W.module) {op : Operation}
    (hop : W.function.operation? i = some op)
    (hrecur : ∀ x ∈ W.opened inPhi op, Concludes E (recur x.1 x.2).result) :
    Concludes E (W.ofOperation recur i inPhi op).result := by
  cases op with
  | extractValue aggregate indices =>
    have hhas := hf.has_operand hop List.mem_cons_self
    refine Marked.concludes_lift_bind (settles_isOffsetParam hhas).self fun b hb => ?_
    cases b with
    | true =>
      cases indices.head?.bind Axis.ofIndex? with
      | some a => exact .ok _
      | none => exact .reported _
    | false => exact hrecur (aggregate, inPhi) (by simp [opened, hb.2])
  | element base indices => exact hrecur (base, inPhi) List.mem_cons_self
  | call callee args => exact concludes_ofCall hf hop
  | cast op operand => exact hrecur (operand, inPhi) List.mem_cons_self
  | load ptr => exact hrecur (ptr, inPhi) List.mem_cons_self
  | binary op lhs rhs =>
    rw [ofOperation]
    cases hsign : op.symbol? with
    | none => exact .reported _
    | some sign =>
      exact concludes_ofPair sign (hrecur (lhs, inPhi) (by simp [opened, hsign]))
        (hrecur (rhs, inPhi) (by simp [opened, hsign]))
  | compare pred lhs rhs =>
    exact concludes_ofPair _ (hrecur (lhs, inPhi) (by simp [opened]))
      (hrecur (rhs, inPhi) (by simp [opened]))
  | phi incoming =>
    cases inPhi with
    | true => exact .ok _
    | false =>
      refine Marked.concludes_bind (Marked.concludes_mapM fun x hx => ?_) fun _ => .ok _
      exact hrecur (x.2, true) (List.mem_map_of_mem hx)
  | alloca t => exact .ok _
  | extractElement v i => exact .reported _
  | select c t f => exact .reported _
  | store v p => exact .reported _
  | branch b => exact .reported _
  | branchIf c t f => exact .reported _
  | ret v => exact .reported _
  | unreachable => exact .reported _

/-- The operands that a formula is written with: those of a phi are written inside it. -/
theorem mem_operands_of_opened {op : Operation} {x : Value × Bool} (hx : x ∈ W.opened inPhi op) :
    x.1 ∈ op.operands ∧ (x.2 = inPhi ∧ (∀ incoming, op ≠ .phi incoming) ∨
      inPhi = false ∧ x.2 = true) := by
  have hsingle : ∀ {v : Value}, x ∈ [(v, inPhi)] → x.1 = v ∧ x.2 = inPhi := by
    intro v hx
    obtain rfl := List.mem_singleton.1 hx
    exact ⟨rfl, rfl⟩
  have hpair : ∀ {l r : Value}, x ∈ [(l, inPhi), (r, inPhi)] → x.1 ∈ [l, r] ∧ x.2 = inPhi := by
    intro l r hx
    rcases List.mem_cons.1 hx with rfl | hx
    · exact ⟨List.mem_cons_self, rfl⟩
    · exact ⟨by simp [(hsingle hx).1], (hsingle hx).2⟩
  cases op with
  | phi incoming =>
    cases inPhi with
    | true => cases hx
    | false =>
      obtain ⟨y, hy, rfl⟩ := List.mem_map.1 hx
      exact ⟨List.mem_map_of_mem hy, .inr ⟨rfl, rfl⟩⟩
  | extractValue v indices =>
    rw [opened] at hx
    split at hx
    · exact ⟨by simp [Operation.operands, (hsingle hx).1], .inl ⟨(hsingle hx).2, by simp⟩⟩
    · cases hx
  | element v indices | cast op v | load v =>
    exact ⟨by simp [Operation.operands, (hsingle hx).1], .inl ⟨(hsingle hx).2, by simp⟩⟩
  | binary op l r =>
    rw [opened] at hx
    split at hx
    · exact ⟨(hpair hx).1, .inl ⟨(hpair hx).2, by simp⟩⟩
    · cases hx
  | compare pred l r => exact ⟨(hpair hx).1, .inl ⟨(hpair hx).2, by simp⟩⟩
  | _ => cases hx

/-- The formula of a constant, if those of the operands of a constant expression can be
written. -/
theorem concludes_ofConstant {c : Constant} (hc : W.module.Has W.function (.constant c))
    (hm : W.module.WellReferenced)
    (hrecur : ∀ (k : Nat) (e : ConstantExpr), c = .expr k → W.module.constantExprs[k]? = some e →
      ∀ v ∈ e.operands, Concludes E (recur v inPhi).result) :
    Concludes E (W.ofConstant recur inPhi c).result := by
  cases c with
  | int w => exact .ok _
  | global g =>
    refine Marked.concludes_lift_bind (Settles.fetch hc) fun global _ => ?_
    split <;> exact .ok _
  | expr k =>
    refine Marked.concludes_lift_bind (Settles.fetch hc) fun e he => ?_
    have hroot : Settles E (fun _ => True) (W.hasOffsetRoot e) := by
      rw [hasOffsetRoot]
      split
      · rename_i g rest hoperands
        have hmem : Value.constant (.global g) ∈ e.operands := hoperands ▸ List.mem_cons_self
        have hg : W.module.Has W.function (.constant (.global g)) :=
          Module.has_operand_of_grounded (hm.constantExpr k e he) hc hmem
        exact (Settles.fetch hg).map fun _ _ => trivial
      · exact .ok trivial
    refine Marked.concludes_lift_bind hroot fun b _ => ?_
    cases b with
    | true =>
      rw [if_pos rfl]
      split
      · split
        · exact .ok _
        · exact .reported _
      · exact .ok _
    | false =>
      refine Marked.concludes_bind ?_ fun _ => .ok _
      exact Marked.concludes_mapM (hrecur k e rfl he)
  | _ => exact .reported _

/-- Constants are followed down to earlier constant expressions. -/
theorem concludes_constantWithin (hm : W.module.WellReferenced) {depth : Nat} {c : Constant}
    (hc : W.module.Has W.function (.constant c)) (hpos : 0 < depth)
    (hdepth : ∀ k, c = .expr k → k + 1 < depth) :
    Concludes E (W.ofValueWithin depth (.constant c) inPhi).result := by
  -- an operand is an earlier constant expression, or written without looking further
  induction depth generalizing c with
  | zero => exact absurd hpos (Nat.lt_irrefl 0)
  | succ depth ih =>
    refine concludes_ofConstant hc hm fun k e hk he v hv => ?_
    subst hk
    have hgrounded := hm.constantExpr k e he
    have hhas : W.module.Has W.function v := Module.has_operand_of_grounded hgrounded hc hv
    obtain ⟨c, rfl, -, hearlier⟩ := hgrounded v hv
    have hk := hdepth k rfl
    refine ih hhas (by omega) fun j hj => ?_
    have := hearlier j hj
    omega

/-- The formula of a value, if operands may be followed as deep as its height, once more from a
phi, and to the end of constant expressions. -/
theorem concludes_ofValueWithin (hm : W.module.WellReferenced)
    (hf : W.function.WellReferenced W.module) {depth : Nat} (hv : W.module.Has W.function v)
    (hdepth : W.function.heightOf v + W.module.constantExprs.size + 1 +
      (if inPhi then 0 else W.function.instructions.size) ≤ depth) :
    Concludes E (W.ofValueWithin depth v inPhi).result := by
  induction depth generalizing v inPhi with
  | zero => omega
  | succ depth ih =>
    cases v with
    | argument n => exact Marked.concludes_lift_bind (Settles.fetch hv) fun _ _ => .ok _
    | constant c =>
      refine concludes_constantWithin hm hv (Nat.succ_pos _) ?_
      rintro k rfl
      have hk : k < W.module.constantExprs.size := hv
      omega
    | instruction i =>
      refine Marked.concludes_lift_bind (Settles.fetch hv) fun inst hinst => ?_
      have hop := Function.operation?_of_getElem? hinst
      have hregister : Settles E (fun _ => True) (W.register? inst) := by
        refine (hf.settles_callee hop).bind fun o _ => ?_
        cases o <;> exact .ok trivial
      refine Marked.concludes_lift_bind hregister fun o _ => ?_
      cases o with
      | some r => exact .ok _
      | none =>
        refine concludes_ofOperation hf hop fun x hx => ?_
        obtain ⟨hmem, hcase⟩ := mem_operands_of_opened hx
        have hhas := hf.has_operand hop hmem
        refine ih hhas ?_
        rcases hcase with ⟨hsame, hphi⟩ | ⟨rfl, htrue⟩
        · -- an operand of an instruction that is no phi stands lower
          have hlt := hf.heightOf_lt hop hphi hmem
          rw [hsame]
          omega
        · -- from a phi the walk starts anew, and passes no other
          have hle := hf.heightOf_le_size hhas
          have hpos : 0 < W.function.heightOf (.instruction i) := Nat.succ_pos _
          simp only [htrue, if_true, Bool.false_eq_true, if_false] at hdepth ⊢
          omega

theorem concludes_ofValue (hm : W.module.WellReferenced)
    (hf : W.function.WellReferenced W.module) (hv : W.module.Has W.function v) :
    Concludes E (W.ofValue v inPhi).result := by
  refine concludes_ofValueWithin hm hf hv ?_
  have hle := hf.heightOf_le_size hv
  rw [operandDepth]
  split <;> omega

/-! ## Formulas of evolutions -/

section Evolutions

variable {head : Nat → Except Fault LoopHead} {bound : LoopHead → Marked String} {l : Nat}
  {e : Evolution} {es : List Evolution}

theorem concludes_ofEvolutionsWith {wanted : Evolution → Bool}
    (h : ∀ c ∈ es, Concludes E (W.ofEvolutionWith head bound inPhi c).result) :
    Concludes E (W.ofEvolutionsWith head bound inPhi wanted es).result := by
  induction es with
  | nil => exact .ok _
  | cons e es ih =>
    have hrest := ih fun c hc => h c (List.mem_cons_of_mem e hc)
    rw [ofEvolutionsWith]
    split
    · refine Marked.concludes_bind (h e List.mem_cons_self) fun _ => ?_
      exact Marked.concludes_bind hrest fun _ => .ok _
    · exact hrest

theorem concludes_ofStepsWith (hhead : Settles E (fun h => Concludes E (bound h).result) (head l))
    (h : ∀ c ∈ es, Concludes E (W.ofEvolutionWith head bound inPhi c).result) :
    Concludes E (W.ofStepsWith head bound inPhi l es).result := by
  induction es with
  | nil => exact .ok _
  | cons e es ih =>
    have hfirst := h e List.mem_cons_self
    have hrest := ih fun c hc => h c (List.mem_cons_of_mem e hc)
    cases es with
    | nil => exact hfirst
    | cons e' es =>
      refine Marked.concludes_lift_bind hhead fun h hbound => ?_
      refine Marked.concludes_bind hfirst fun _ => ?_
      refine Marked.concludes_bind hbound fun _ => ?_
      exact Marked.concludes_bind hrest fun _ => .ok _

/-- The formula of an evolution that refers to what is there, if the bounds of the loops of its
recurrences can be written. -/
theorem concludes_ofEvolutionWith (hm : W.module.WellReferenced)
    (hf : W.function.WellReferenced W.module)
    (he : e.Everywhere fun n => n.RefersTo W.module W.function ∧ ∀ a es l,
      n = recurrence a es l → Settles E (fun h => Concludes E (bound h).result) (head l)) :
    Concludes E (W.ofEvolutionWith head bound inPhi e).result := by
  induction he with
  | @node e top _ ih =>
    cases e with
    | unknown v => exact concludes_ofValue hm hf top.1
    | constant w => exact .ok _
    | indeterminate => exact .ok _
    | sizeOf t | alignOf t => exact .reported _
    | quotient a b =>
      refine Marked.concludes_bind (ih a (by simp [operands])) fun _ => ?_
      exact Marked.concludes_bind (ih b (by simp [operands])) fun _ => .ok _
    | product es | smax es | umax es =>
      exact Marked.concludes_bind (concludes_ofEvolutionsWith ih) fun _ => .ok _
    | sum es =>
      refine Marked.concludes_bind (concludes_ofEvolutionsWith ih) fun _ => ?_
      refine Marked.concludes_bind (concludes_ofEvolutionsWith ih) fun _ => ?_
      exact Marked.concludes_bind (concludes_ofEvolutionsWith ih) fun _ => .ok _
    | zext e | sext e | trunc e => exact ih e (by simp [operands])
    | recurrence a es l =>
      have hhead := top.2 a es l rfl
      refine Marked.concludes_lift_bind hhead fun h hbound => ?_
      refine Marked.concludes_bind (ih a List.mem_cons_self) fun _ => ?_
      refine Marked.concludes_bind hbound fun _ => ?_
      refine Marked.concludes_bind (concludes_ofStepsWith hhead fun c hc => ?_) fun _ => .ok _
      exact ih c (List.mem_cons_of_mem a hc)

end Evolutions

section Bounds

variable {l : Nat} {e : Evolution}

theorem concludes_latchBound (hm : W.module.WellReferenced)
    (hf : W.function.WellReferenced W.module) (loop : Loop) :
    Concludes E (W.latchBound (Scope.ofFunction W.module W.function) inPhi loop).result := by
  rw [latchBound]
  split
  · exact .reported _
  · split
    · rename_i cond onTrue onFalse hbranch
      refine Marked.concludes_lift_bind (hf.settles_sides (hf.has_condition hbranch))
        fun o ho => ?_
      cases o with
      | none => exact .reported _
      | some c => exact concludes_ofValue hm hf (ho c rfl).2
    · exact .reported _

/-- The bound of a loop, if bounds may nest as deep as there are loops from this one on. -/
theorem concludes_boundWithin (hm : W.module.WellReferenced)
    (hf : W.function.WellReferenced W.module) {depth : Nat}
    (hl : l < W.function.loops.loops.size) (hdepth : W.function.loops.loops.size ≤ depth + l) :
    Settles (Scope.ofFunction W.module W.function).RunsInCircle
      (fun h => Concludes (Scope.ofFunction W.module W.function).RunsInCircle
        (W.boundWithin (Scope.ofFunction W.module W.function) inPhi depth h).result)
      ((Scope.ofFunction W.module W.function).loopHead l) := by
  induction depth generalizing l with
  | zero => omega
  | succ depth ih =>
    refine (hf.settles_loopHead hm hl).mono id fun h hh => ?_
    rw [boundWithin]
    cases hrounds : h.rounds with
    | none => exact concludes_latchBound hm hf h.loop
    | some count =>
      obtain ⟨hcount, hinv⟩ := hh count hrounds
      -- the recurrences in the number of rounds belong to loops around this one
      have hbelow := hcount.and (Context.everywhere_lt_of_isInvariant hinv)
      refine concludes_ofEvolutionWith hm hf (hbelow.mono fun n hn => ⟨hn.1.1.2, ?_⟩)
      rintro a es k rfl
      have hlt := hn.2 a es k rfl
      exact ih hn.1.2 (by omega)

/-- The formula of an evolution that refers to what is there is written or refused, unless the
evolution of some instruction runs in a circle. -/
theorem concludes_ofEvolution (hm : W.module.WellReferenced)
    (hf : W.function.WellReferenced W.module)
    (he : e.Everywhere (W.function.overview W.module).Admits) :
    Concludes (Scope.ofFunction W.module W.function).RunsInCircle
      (W.ofEvolution (Scope.ofFunction W.module W.function) e inPhi).result := by
  refine concludes_ofEvolutionWith hm hf (he.mono fun n hn => ⟨hn.1.2, ?_⟩)
  rintro a es l rfl
  have hl : l < W.function.loops.loops.size := hn.2
  refine concludes_boundWithin hm hf hl ?_
  exact (Nat.le_succ _).trans (Nat.le_add_right _ l)

end Bounds

end Writer

end GridAccess
