import GridAccess.Proofs.Endings
import GridAccess.Proofs.Refusals
import GridAccess.Proofs.RelatedFormulas

set_option autoImplicit false

/-!
# Walks through phis

The values that a formula is written with may run in a circle, but only through phis. A phi is
opened on the way from a value only if none has been opened before (`Writer.countP_expands_le`), so
the walk comes to an end (`Writer.ofValue_ends`). The depth to which operands are followed cuts off
nothing then: with more depth the formula is the same (`Writer.ofValueWithin_eq_ofValue`).

Once a phi has been opened, no entry of a phi is looked at. Functions that differ in the entries of
their phis only have the same formulas from there on (`Writer.ofValue_withoutIncoming`).
-/

namespace GridAccess

/-! ## Circles of operands -/

namespace Function

variable {m : Module} {f : Function} {v : Value} {k : Nat}

/-- From a constant expression, operands lead through an instruction or down to earlier
expressions. -/
theorem passes_or_descends (hm : m.Layered)
    (h : Relation.TransGen (f.RestsOn m) (.constant (.expr k)) v) :
    (∃ i, Relation.TransGen (f.RestsOn m) (.constant (.expr k)) (.instruction i) ∧
      Relation.ReflTransGen (f.RestsOn m) (.instruction i) v) ∨
    ∀ j, v = .constant (.expr j) → j < k := by
  induction h with
  | single hstep =>
    cases hstep with
    | part he hv => exact .inr fun j hj => hm _ _ _ he (hj ▸ hv)
  | @tail v w hwalk hstep ih =>
    rcases ih with ⟨i, hi, hrest⟩ | hless
    · exact .inl ⟨i, hi, hrest.tail hstep⟩
    · -- so far the walk may have met expressions only; here it comes to an instruction or goes down
      cases hstep with
      | @operand i op _ hop hphi hw =>
        exact .inl ⟨i, hwalk, .single (.operand hop hphi hw)⟩
      | part he hw => exact .inr fun j hj => (hm _ _ _ he (hj ▸ hw)).trans (hless _ rfl)

/-- If constant expressions refer to earlier ones only, a circle of operands passes through an
instruction. -/
theorem acyclic_of_layered (hm : m.Layered)
    (hcircle : ∀ i, ¬ Relation.TransGen (f.RestsOn m) (.instruction i) (.instruction i))
    (v : Value) : ¬ Relation.TransGen (f.RestsOn m) v v := by
  intro hv
  obtain ⟨w, hstep, -⟩ := Relation.TransGen.head'_iff.1 hv
  cases hstep with
  | operand _ _ _ => exact hcircle _ hv
  | part _ _ =>
    rcases passes_or_descends hm hv with ⟨i, hi, hrest⟩ | hless
    · exact hcircle i (Relation.TransGen.trans_right hrest hi)
    · exact Nat.lt_irrefl _ (hless _ rfl)

end Function

namespace Writer

variable {W : Writer} {recur : Recur} {inPhi : Bool} {v : Value} {x y : Value × Bool}

/-! ## Walks come to an end -/

theorem ends_ofPair {l r : Value} (sign : String) (hl : (recur l inPhi).Ends)
    (hr : (recur r inPhi).Ends) : (ofPair recur inPhi l sign r).Ends :=
  hl.bind fun _ _ => hr.bind_pure _

theorem ends_ofCall (W : Writer) (callee : Nat) (args : List Value) :
    (W.ofCall callee args).Ends := by
  refine Marked.ends_lift_bind (fetch_ne_endless _ _) fun g _ => ?_
  split
  · exact Marked.ends_pure _
  · split
    · refine Marked.Ends.bind_pure ?_ _
      rw [dimName.eq_def]
      split
      · exact Marked.ends_pure _
      · exact Marked.ends_lift_iff.2 (W.function.valueName_ne_endless _)
      · exact Marked.ends_pure _
    · exact Marked.ends_pure _

/-- Writing the formula of an operation comes to an end if this is so for the values it opens. -/
theorem ends_ofOperation {op : Operation} (i : Nat)
    (hrecur : ∀ y ∈ W.opened inPhi op, (recur y.1 y.2).Ends) :
    (W.ofOperation recur i inPhi op).Ends := by
  cases op with
  | extractValue v indices =>
    -- a part of an offset is written by its axis, and only of another value the whole is opened
    have hoffset : W.isOffsetParam v ≠ .error .endless := by
      cases v with
      | argument n => exact map_ne_error _ (fetch_ne_endless _ _)
      | instruction n | constant c => rintro ⟨⟩
    refine Marked.ends_lift_bind hoffset fun isOffset hisOffset => ?_
    cases isOffset with
    | true =>
      simp only [if_true]
      split
      · exact Marked.ends_pure _
      · exact Marked.ends_unsupported _ _
    | false => exact hrecur (v, inPhi) (by simp [opened, hisOffset])
  | element v indices | cast castOp v | load v => exact hrecur (v, inPhi) List.mem_cons_self
  | call callee args => exact W.ends_ofCall callee args
  | alloca type => exact Marked.ends_pure _
  | binary bop l r =>
    rw [ofOperation]
    cases hsign : bop.symbol? with
    | none => exact Marked.ends_unsupported _ _
    | some sign =>
      exact ends_ofPair sign (hrecur (l, inPhi) (by simp [opened, hsign]))
        (hrecur (r, inPhi) (by simp [opened, hsign]))
  | compare pred l r =>
    exact ends_ofPair pred.symbol (hrecur (l, inPhi) (by simp [opened]))
      (hrecur (r, inPhi) (by simp [opened]))
  | phi incoming =>
    rw [ofOperation]
    cases inPhi with
    | true => exact Marked.ends_pure _
    | false =>
      refine Marked.Ends.bind_pure (Marked.ends_mapM fun entry hentry => ?_) _
      exact hrecur (entry.2, true) (List.mem_map_of_mem hentry)
  | extractElement v j | select c t e | store v ptr | branch t | branchIf c t e | ret v
  | unreachable => exact Marked.ends_unsupported _ _

/-- Writing the formula of a constant comes to an end if this is so for the parts of an
expression. -/
theorem ends_ofConstant {c : Constant}
    (hrecur : ∀ y, W.Opens (.constant c, inPhi) y → (recur y.1 y.2).Ends) :
    (W.ofConstant recur inPhi c).Ends := by
  cases c with
  | int w => exact Marked.ends_pure _
  | global g =>
    refine Marked.ends_lift_bind (fetch_ne_endless _ _) fun g' _ => ?_
    split <;> exact Marked.ends_pure _
  | expr k =>
    refine Marked.ends_lift_bind (fetch_ne_endless _ _) fun e he => ?_
    have hroot : W.hasOffsetRoot e ≠ .error .endless := by
      rw [hasOffsetRoot]
      split
      · exact map_ne_error _ (fetch_ne_endless _ _)
      · rintro ⟨⟩
    refine Marked.ends_lift_bind hroot fun hasRoot hhasRoot => ?_
    cases hasRoot with
    | true =>
      -- an expression rooted in an offset opens no part
      simp only [if_true]
      split
      · split
        · exact Marked.ends_pure _
        · exact Marked.ends_unsupported _ _
      · exact Marked.ends_pure _
    | false =>
      refine Marked.Ends.bind_pure (Marked.ends_mapM fun w hw => ?_) _
      exact hrecur (w, inPhi) (.part (fetch_eq_ok_iff.1 he) hhasRoot hw)
  | float bits | null | undef | aggregate => exact Marked.ends_unsupported _ _

theorem register?_ne_endless (W : Writer) (inst : Instruction) :
    W.register? inst ≠ .error .endless := by
  have hcallee : W.module.callee inst ≠ .error .endless := by
    rw [Module.callee]
    split
    · exact map_ne_error _ (fetch_ne_endless _ _)
    · rintro ⟨⟩
  refine bind_ne_error hcallee fun g _ => ?_
  cases g <;> exact pure_ne_error

/-- One step of the walk: it comes to an end if it does from every value that is opened. -/
theorem ends_ofValueWithin_succ {depth : Nat}
    (hrecur : ∀ y, W.Opens (v, inPhi) y → (W.ofValueWithin depth y.1 y.2).Ends) :
    (W.ofValueWithin (depth + 1) v inPhi).Ends := by
  cases v with
  | argument n =>
    exact Marked.ends_lift_bind (fetch_ne_endless _ _) fun _ _ => Marked.ends_pure _
  | constant c => exact ends_ofConstant hrecur
  | instruction i =>
    refine Marked.ends_lift_bind (fetch_ne_endless _ _) fun inst hinst => ?_
    refine Marked.ends_lift_bind (W.register?_ne_endless inst) fun register _ => ?_
    cases register with
    | some r => rintro ⟨⟩
    | none =>
      exact ends_ofOperation i fun y hy => hrecur y (.operand (fetch_eq_ok_iff.1 hinst) hy)

section Acyclic

variable (hacyclic : ∀ v, ¬ Relation.TransGen (W.function.RestsOn W.module) v v)

include hacyclic

theorem ends_ofValueWithin {depth : Nat} (hdepth : W.allowance (v, inPhi) ≤ depth) :
    (W.ofValueWithin depth v inPhi).Ends := by
  induction depth generalizing v inPhi with
  | zero => exact absurd hdepth (Nat.not_le.2 (W.allowance_pos _))
  | succ depth ih =>
    apply ends_ofValueWithin_succ
    intro y hy
    exact ih (Nat.le_of_lt_succ ((hy.allowance_lt hacyclic).trans_le hdepth))

theorem ofValue_ends (v : Value) (inPhi : Bool) : (W.ofValue v inPhi).Ends :=
  ends_ofValueWithin hacyclic (W.allowance_le_operandDepth _)

theorem wellFounded_opens : WellFounded fun y x => W.Opens x y :=
  Subrelation.wf (fun h => h.allowance_lt hacyclic) (InvImage.wf W.allowance wellFounded_lt)

/-- Any two depths that allow for the whole walk give the same formula. -/
theorem ofValueWithin_eq {depth depth' : Nat} (hdepth : W.allowance (v, inPhi) ≤ depth)
    (hdepth' : W.allowance (v, inPhi) ≤ depth') :
    (W.ofValueWithin depth v inPhi).Related Eq (W.ofValueWithin depth' v inPhi) := by
  have hself : Alike Eq W W := ⟨rfl, rfl, rfl, rfl, .refl _, fun _ => rfl⟩
  induction depth generalizing depth' v inPhi with
  | zero => exact absurd hdepth (Nat.not_le.2 (W.allowance_pos _))
  | succ depth ih =>
    cases depth' with
    | zero => exact absurd hdepth' (Nat.not_le.2 (W.allowance_pos _))
    | succ depth' =>
      apply Alike.ofValueWithin_succ additive_eq hself
      · exact fun _ _ => rfl
      · intro y hy
        have hlt := hy.allowance_lt hacyclic
        exact ih (Nat.le_of_lt_succ (hlt.trans_le hdepth)) (Nat.le_of_lt_succ (hlt.trans_le hdepth'))

theorem ofValueWithin_eq_ofValue {depth : Nat} (hdepth : W.operandDepth ≤ depth) :
    W.ofValueWithin depth v inPhi = W.ofValue v inPhi :=
  (ofValueWithin_eq hacyclic ((W.allowance_le_operandDepth _).trans hdepth)
    (W.allowance_le_operandDepth _)).eq

end Acyclic

/-! ## Phis that are opened -/

/-- The value is a phi that is written out as its alternatives. -/
def expands (W : Writer) : Value × Bool → Bool
  | (.instruction i, false) => (W.function.incoming? i).isSome
  | _ => false

/-- After a phi has been opened, the walk knows of it. -/
theorem Opens.stays_inPhi (h : W.Opens x y) (hx : x.2 = true) : y.2 = true := by
  cases h with
  | operand _ hy =>
    rcases (mem_operands_of_opened hy).2 with ⟨hsame, -⟩ | ⟨-, htrue⟩
    · exact hsame.trans hx
    · exact htrue
  | part _ _ _ => exact hx

theorem Opens.inPhi_of_expands (h : W.Opens x y) (hx : W.expands x = true) : y.2 = true := by
  cases h with
  | @operand i inst inPhi y hinst hy =>
    rcases (mem_operands_of_opened hy).2 with ⟨-, hphi⟩ | ⟨-, htrue⟩
    · -- only a phi expands
      have hop := Function.operation?_of_getElem? hinst
      cases inPhi with
      | true => cases hx
      | false =>
        rw [expands, Function.incoming?, hop, Option.isSome_iff_exists] at hx
        obtain ⟨incoming, hincoming⟩ := hx
        split at hincoming
        · rename_i entries heq
          exact absurd (Option.some.inj heq) (hphi entries)
        · cases hincoming
    · exact htrue
  | part _ _ _ => cases hx

theorem not_expands_of_inPhi (hx : x.2 = true) : W.expands x = false := by
  obtain ⟨v, inPhi⟩ := x
  obtain rfl : inPhi = true := hx
  cases v <;> rfl

/-- On every walk at most one phi is opened, and none after one has been opened before. -/
theorem countP_expands_le {path : List (Value × Bool)} (hpath : (x :: path).IsChain W.Opens) :
    (x :: path).countP W.expands ≤ if x.2 then 0 else 1 := by
  induction path generalizing x with
  | nil =>
    cases hx : x.2 with
    | true => simp [not_expands_of_inPhi hx]
    | false => exact List.countP_le_length
  | cons y path ih =>
    obtain ⟨hxy, hrest⟩ := List.isChain_cons_cons.1 hpath
    have hcount := ih hrest
    rw [List.countP_cons]
    cases hx : x.2 with
    | true =>
      rw [hxy.stays_inPhi hx] at hcount
      simpa [not_expands_of_inPhi hx] using hcount
    | false =>
      cases hexpands : W.expands x with
      | true =>
        -- this is the one phi, and the rest of the way knows of it
        rw [hxy.inPhi_of_expands hexpands] at hcount
        simpa using hcount
      | false =>
        have hone : (if y.2 = true then 0 else 1) ≤ 1 := by split <;> omega
        simpa using hcount.trans hone

end Writer

/-! ## Entries of phis -/

/-- The operation without the entries of a phi. -/
def Operation.withoutIncoming : Operation → Operation
  | .phi _ => .phi []
  | op => op

/-- The function without the entries of its phis. -/
def Function.withoutIncoming (f : Function) : Function :=
  { f with instructions := f.instructions.map fun inst =>
      { inst with operation := inst.operation.withoutIncoming } }

theorem Operation.withoutIncoming_of_ne_phi {op : Operation} (h : ∀ incoming, op ≠ .phi incoming) :
    op.withoutIncoming = op := by
  cases op with
  | phi incoming => exact absurd rfl (h incoming)
  | _ => rfl

/-- Operations that differ in the entries of a phi only are the same or both phis. -/
theorem Operation.eq_or_phi {op op' : Operation} (h : op'.withoutIncoming = op.withoutIncoming) :
    op' = op ∨ ∃ incoming incoming', op = .phi incoming ∧ op' = .phi incoming' := by
  by_cases hphi : ∃ incoming, op = .phi incoming <;>
    by_cases hphi' : ∃ incoming', op' = .phi incoming'
  · obtain ⟨incoming, rfl⟩ := hphi
    obtain ⟨incoming', rfl⟩ := hphi'
    exact .inr ⟨incoming, incoming', rfl, rfl⟩
  · obtain ⟨incoming, rfl⟩ := hphi
    rw [withoutIncoming_of_ne_phi (not_exists.1 hphi')] at h
    exact absurd ⟨[], h⟩ hphi'
  · obtain ⟨incoming', rfl⟩ := hphi'
    rw [withoutIncoming_of_ne_phi (not_exists.1 hphi)] at h
    exact absurd ⟨[], h.symm⟩ hphi
  · rw [withoutIncoming_of_ne_phi (not_exists.1 hphi),
      withoutIncoming_of_ne_phi (not_exists.1 hphi')] at h
    exact .inl h

namespace Function

variable {f g : Function}

theorem instruction_withoutIncoming (f : Function) (i : Nat) : f.withoutIncoming.instruction i =
    (fun inst => { inst with operation := inst.operation.withoutIncoming }) <$> f.instruction i := by
  rw [instruction, instruction, fetch, fetch, withoutIncoming, Array.getElem?_map]
  cases f.instructions[i]? <;> rfl

theorem valueName_withoutIncoming (f : Function) : f.withoutIncoming.valueName = f.valueName := by
  funext v
  cases v with
  | instruction i =>
    rw [valueName, valueName, instruction_withoutIncoming, Functor.map_map]
  | argument i | constant c => rfl

/-- Functions that differ in the entries of phis only have the same instructions, or phis at the
same place. -/
theorem instruction_of_withoutIncoming (h : g.withoutIncoming = f.withoutIncoming) (i : Nat) :
    g.instruction i = f.instruction i ∨ ∃ inst inst' incoming incoming',
      f.instruction i = .ok inst ∧ g.instruction i = .ok inst' ∧
      inst.operation = .phi incoming ∧ inst'.operation = .phi incoming' := by
  have hsame : g.withoutIncoming.instruction i = f.withoutIncoming.instruction i := by rw [h]
  rw [instruction_withoutIncoming, instruction_withoutIncoming] at hsame
  cases hf : f.instruction i with
  | error e =>
    rw [hf] at hsame
    exact .inl (map_eq_error_iff.1 hsame)
  | ok inst =>
    rw [hf, map_ok] at hsame
    obtain ⟨inst', hg, heq⟩ := map_eq_ok_iff.1 hsame
    obtain ⟨parent, type, name, op⟩ := inst
    obtain ⟨parent', type', name', op'⟩ := inst'
    simp only [Instruction.mk.injEq] at heq
    obtain ⟨rfl, rfl, rfl, hop⟩ := heq
    rcases Operation.eq_or_phi hop with rfl | ⟨incoming, incoming', rfl, rfl⟩
    · exact .inl hg
    · exact .inr ⟨_, _, incoming, incoming', rfl, hg, rfl, rfl⟩

end Function

namespace Writer

variable {W V : Writer}

theorem alike_of_withoutIncoming (hmodule : W.module.Resembles V.module)
    (hbuiltins : V.builtins = W.builtins) (hpolicy : V.policy = W.policy)
    (hfunction : V.function.withoutIncoming = W.function.withoutIncoming) : Alike Eq W V where
  params := congrArg (·.params) hfunction
  valueName := by
    rw [← V.function.valueName_withoutIncoming, hfunction, Function.valueName_withoutIncoming]
  size := by simpa [Function.withoutIncoming] using congrArg (·.instructions.size) hfunction
  builtins := hbuiltins
  module := hmodule
  marks r := by rw [hpolicy]

/-- A phi that is met after another one has been opened is written as a marker. -/
theorem ofValueWithin_phi {i : Nat} {inst : Instruction} {incoming : List (Nat × Value)}
    (hinst : W.function.instruction i = .ok inst) (hop : inst.operation = .phi incoming)
    (depth : Nat) : W.ofValueWithin (depth + 1) (.instruction i) true = pure phiAgain := by
  have hregister : W.register? inst = .ok none := by
    rw [register?, Module.callee, hop]
    rfl
  rw [ofValueWithin, ofInstruction, hinst, Marked.lift_ok_bind, hregister, Marked.lift_ok_bind, hop]
  rfl

theorem ofValueWithin_withoutIncoming (hVW : Alike Eq W V)
    (hfunction : V.function.withoutIncoming = W.function.withoutIncoming) (depth : Nat)
    (v : Value) : (W.ofValueWithin depth v true).Related Eq (V.ofValueWithin depth v true) := by
  induction depth generalizing v with
  | zero => exact Marked.Related.unmarked additive_eq _
  | succ depth ih =>
    by_cases hphi : ∃ i, v = .instruction i ∧ V.function.instruction i ≠ W.function.instruction i
    · obtain ⟨i, rfl, hne⟩ := hphi
      -- where the functions differ both have a phi, and neither of the two is opened
      obtain ⟨inst, inst', incoming, incoming', hinst, hinst', hop, hop'⟩ :=
        (Function.instruction_of_withoutIncoming hfunction i).resolve_left hne
      rw [ofValueWithin_phi hinst hop, ofValueWithin_phi hinst' hop']
      exact Marked.Related.pure additive_eq _
    · apply Alike.ofValueWithin_succ additive_eq hVW
      · rintro i rfl
        by_contra hne
        exact hphi ⟨i, rfl, hne⟩
      · rintro ⟨w, flag⟩ hy
        obtain rfl : flag = true := hy.stays_inPhi rfl
        exact ih w

/-- Where a phi has been opened before, the formula of a value does not depend on the entries of
phis. -/
theorem ofValue_withoutIncoming (hmodule : W.module.Resembles V.module)
    (hbuiltins : V.builtins = W.builtins) (hpolicy : V.policy = W.policy)
    (hfunction : V.function.withoutIncoming = W.function.withoutIncoming) (v : Value) :
    V.ofValue v true = W.ofValue v true := by
  have hVW := alike_of_withoutIncoming hmodule hbuiltins hpolicy hfunction
  rw [ofValue, ofValue, hVW.operandDepth]
  exact (ofValueWithin_withoutIncoming hVW hfunction _ v).eq.symm

/-- One phi on each way is enough. If constant expressions refer to earlier ones only and every
circle of operands passes through a phi, then the walk over the values that a formula is written
with comes to an end and no depth cuts it off. On each way at most one phi is opened, and none if
one has been opened before; the formula then is the same in every function that differs in the
entries of phis only. -/
theorem one_phi_guards (W : Writer) (hm : W.module.Layered)
    (hcircle : ∀ i, ¬ Relation.TransGen (W.function.RestsOn W.module)
      (.instruction i) (.instruction i)) (v : Value) (inPhi : Bool) :
    (W.ofValue v inPhi).Ends ∧ Acc (fun y x => W.Opens x y) (v, inPhi) ∧
    (∀ depth, W.operandDepth ≤ depth → W.ofValueWithin depth v inPhi = W.ofValue v inPhi) ∧
    (∀ path, ((v, inPhi) :: path).IsChain W.Opens →
      ((v, inPhi) :: path).countP W.expands ≤ if inPhi then 0 else 1) ∧
    ∀ V : Writer, W.module.Resembles V.module → V.builtins = W.builtins → V.policy = W.policy →
      V.function.withoutIncoming = W.function.withoutIncoming →
      V.ofValue v true = W.ofValue v true := by
  have hacyclic := Function.acyclic_of_layered hm hcircle
  refine ⟨ofValue_ends hacyclic v inPhi, (wellFounded_opens hacyclic).apply _, ?_, ?_, ?_⟩
  · exact fun depth hdepth => ofValueWithin_eq_ofValue hacyclic hdepth
  · exact fun path hpath => countP_expands_le hpath
  · exact fun V hmodule hbuiltins hpolicy hfunction =>
      ofValue_withoutIncoming hmodule hbuiltins hpolicy hfunction v

end Writer

/-- A loop with two phis, each of which gets the other one or is moved by it. The first starts
from the element of a table. -/
def swirl (start : Value) : Function where
  name := "swirl"
  blocks := #[⟨"entry", [0]⟩, ⟨"loop", [1, 2, 3, 4]⟩]
  instructions := #[
    ⟨0, .void, none, .branch 1⟩,
    ⟨1, .word, some "a", .phi [(0, start), (1, .instruction 3)]⟩,
    ⟨1, .word, some "b", .phi [(0, .int 0), (1, .instruction 1)]⟩,
    ⟨1, .word, none, .binary .add (.instruction 1) (.instruction 2)⟩,
    ⟨1, .void, none, .branch 1⟩]

/-- What formulas of `swirl` are written with. -/
def swirling (start : Value) : Writer where
  module :=
    { name := "module"
      functions := #[swirl start]
      globals := #[⟨"table", .word⟩]
      constantExprs := #[⟨.element, [.constant (.global 0), .int 1]⟩,
        ⟨.element, [.constant (.expr 0), .int 2]⟩] }
  function := swirl start
  builtins := {}
  policy := .blockIndex

theorem layered_swirling (start : Value) : (swirling start).module.Layered := by
  intro k e j he hj
  rcases k with _ | _ | k
  · obtain rfl : ⟨.element, [.constant (.global 0), .int 1]⟩ = e := Option.some.inj he
    simp [Value.int] at hj
  · obtain rfl : ⟨.element, [.constant (.expr 0), .int 2]⟩ = e := Option.some.inj he
    obtain rfl : j = 0 := by simpa [Value.int] using hj
    exact Nat.zero_lt_one
  · simp [swirling] at he

/-- Apart from the phis, only the sum has operands, and these are the phis. -/
theorem restsOn_swirl {start v : Value} {m : Module} {i : Nat}
    (h : (swirl start).RestsOn m (.instruction i) v) :
    i = 3 ∧ (v = .instruction 1 ∨ v = .instruction 2) := by
  cases h with
  | operand hop hphi hv =>
    rcases i with _ | _ | _ | _ | _ | i
    · obtain rfl := Option.some.inj hop
      cases hv
    · exact absurd (Option.some.inj hop).symm (hphi _)
    · exact absurd (Option.some.inj hop).symm (hphi _)
    · obtain rfl : Operation.binary .add (.instruction 1) (.instruction 2) = _ :=
        Option.some.inj hop
      exact ⟨rfl, by simpa [Operation.operands] using hv⟩
    · obtain rfl := Option.some.inj hop
      cases hv
    · simp [swirl, Function.operation?] at hop

theorem acyclic_swirl (start : Value) (m : Module) (i : Nat) :
    ¬ Relation.TransGen ((swirl start).RestsOn m) (.instruction i) (.instruction i) := by
  intro h
  obtain ⟨v, hfirst, hrest⟩ := Relation.TransGen.head'_iff.1 h
  obtain ⟨rfl, hv⟩ := restsOn_swirl hfirst
  -- from a phi there is no way on
  rcases hrest.cases_head with rfl | ⟨w, hstep, -⟩
  · simp at hv
  · rcases hv with rfl | rfl
    · cases (restsOn_swirl hstep).1
    · cases (restsOn_swirl hstep).1

/-- The phis of `swirl` run in a circle, and the formula of their sum opens both, one after the
other; inside a phi it does not matter what the first phi starts from. -/
theorem one_phi_guards_swirl :
    let W := swirling (.constant (.expr 1))
    (W.ofValue (.instruction 3) false).result =
      .ok "((#GLOBAL:table12 | (#PHIRECURSION + #PHIRECURSION)) + (0 | #PHIRECURSION))" ∧
    Acc (fun y x => W.Opens x y) (.instruction 3, false) ∧
    (∀ depth, W.operandDepth ≤ depth →
      W.ofValueWithin depth (.instruction 3) false = W.ofValue (.instruction 3) false) ∧
    (swirling (.int 7)).ofValue (.instruction 3) true = W.ofValue (.instruction 3) true := by
  intro W
  obtain ⟨-, hacc, hdepth, -, hsame⟩ := W.one_phi_guards (layered_swirling _)
    (acyclic_swirl _ W.module) (.instruction 3) false
  have hmodule : W.module.Resembles (swirling (.int 7)).module :=
    ⟨rfl, rfl, rfl, by simp [W, swirling, swirl, Function.declared]⟩
  have hfunction : (swirl (.int 7)).withoutIncoming = W.function.withoutIncoming := by
    simp [W, swirling, swirl, Function.withoutIncoming, Operation.withoutIncoming]
  exact ⟨by decide +kernel, hacc, hdepth, hsame _ hmodule rfl rfl hfunction⟩

end GridAccess
