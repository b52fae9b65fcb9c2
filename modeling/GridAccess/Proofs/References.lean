import GridAccess.Proofs.EvolutionSoundness
import GridAccess.Proofs.Loading
import GridAccess.Proofs.Usage

set_option autoImplicit false

/-!
# Well-referenced modules

A module is well-referenced if everything that it refers to is there, and operands that run in a
circle pass through a phi (`Module.WellReferenced`). In such a module every value has a type
(`Module.WellReferenced.exists_typeOf`), and following operands comes to an end: each instruction
that is no phi stands higher than those it is computed from (`Function.WellReferenced.height_lt`).
The trails that look for the storage behind a pointer step down in this order, so they are shorter
than the number of their steps allows, and what they find is there
(`Function.WellReferenced.settles_trail`).
-/

namespace GridAccess

/-- The value is there: a parameter or an instruction of the function, a global or a constant
expression of the module, or another constant. -/
def Module.Has (m : Module) (f : Function) (v : Value) : Prop :=
  v.Within f.params.size f.instructions.size m.globals.size m.constantExprs.size

namespace Function

/-- Instruction `j` is an operand of instruction `i`, which is no phi. -/
def Supplies (f : Function) (j i : Nat) : Prop :=
  ∃ op, f.operation? i = some op ∧ f.incoming? i = none ∧ .instruction j ∈ op.operands

/-- Everything that a function refers to is there, and every circle of operands passes through a
phi. -/
structure WellReferenced (m : Module) (f : Function) : Prop where
  operand : ∀ inst ∈ f.instructions.toList, ∀ v ∈ inst.operation.operands, m.Has f v
  block : ∀ inst ∈ f.instructions.toList, ∀ b ∈ inst.operation.blocks, b < f.blocks.size
  parent : ∀ inst ∈ f.instructions.toList, inst.parent < f.blocks.size
  callee : ∀ inst ∈ f.instructions.toList, ∀ callee args, inst.operation = .call callee args →
    callee < m.functions.size
  listed : ∀ block ∈ f.blocks.toList, ∀ i ∈ block.instructions, i < f.instructions.size
  acyclic : ∀ i, ¬ Relation.TransGen f.Supplies i i

end Function

/-- No circle of operands avoids phis if instructions other than phis use earlier ones only. -/
theorem Function.acyclic_of_earlier {f : Function}
    (h : ∀ i < f.instructions.size, f.incoming? i = none → ∀ op ∈ f.operation? i,
      ∀ v ∈ op.operands, ∀ j ∈ v.instruction?, j < i) (i : Nat) :
    ¬ Relation.TransGen f.Supplies i i := by
  have hlt : ∀ j i, f.Supplies j i → j < i := by
    rintro j i ⟨op, hop, hnone, hj⟩
    obtain ⟨inst, hinst, -⟩ := Option.map_eq_some_iff.1 hop
    exact h i (Array.getElem?_eq_some_iff.1 hinst).1 hnone op hop _ hj j rfl
  have hless : ∀ {a b}, Relation.TransGen f.Supplies a b → a < b := by
    intro a b hab
    induction hab with
    | single hstep => exact hlt _ _ hstep
    | tail _ hstep ih => exact ih.trans (hlt _ _ hstep)
  exact fun hcircle => Nat.lt_irrefl i (hless hcircle)

/-- Everything that a module refers to is there: in each function, and in constant expressions,
which are over globals and earlier constant expressions. -/
structure Module.WellReferenced (m : Module) : Prop where
  function : ∀ f ∈ m.functions.toList, f.WellReferenced m
  constantExpr : ∀ (k : Nat) (e : ConstantExpr), m.constantExprs[k]? = some e →
    e.Grounded m.globals.size k

/-! ## Values -/

section Values

variable {m : Module} {f : Function} {E : Prop} {v : Value} {i : Nat} {inst : Instruction}

theorem Module.has_operand_of_grounded {e : ConstantExpr} {k : Nat}
    (he : e.Grounded m.globals.size k) (hk : k < m.constantExprs.size) (hv : v ∈ e.operands) :
    m.Has f v := by
  obtain ⟨c, rfl, hglobal, hexpr⟩ := he v hv
  cases c with
  | global g => exact hglobal g rfl
  | expr j => exact (hexpr j rfl).trans hk
  | _ => trivial

/-- A value that is no constant expression has a type if it is there. -/
theorem Module.exists_typeOfWithin_of_ne_expr (hv : m.Has f v)
    (hne : ∀ k, v ≠ .constant (.expr k)) (depth : Nat) :
    ∃ t, m.typeOfWithin f depth v = .ok t := by
  cases v with
  | argument i =>
    have hfetch := fetch_eq_ok_iff.2 (getElem?_pos f.params i hv)
    cases depth <;> exact ⟨_, map_eq_ok_iff.2 ⟨_, hfetch, rfl⟩⟩
  | instruction i =>
    have hfetch := fetch_eq_ok_iff.2 (getElem?_pos f.instructions i hv)
    cases depth <;> exact ⟨_, map_eq_ok_iff.2 ⟨_, hfetch, rfl⟩⟩
  | constant c =>
    cases c with
    | global g =>
      have hfetch := fetch_eq_ok_iff.2 (getElem?_pos m.globals g hv)
      cases depth <;> exact ⟨_, map_eq_ok_iff.2 ⟨_, hfetch, rfl⟩⟩
    | expr k => exact absurd rfl (hne k)
    | _ => cases depth <;> exact ⟨_, rfl⟩

/-- A value has a type if it is there and enough constant expressions may be followed. -/
theorem Module.WellReferenced.exists_typeOfWithin (hm : m.WellReferenced) {depth : Nat}
    (hv : m.Has f v) (hdepth : ∀ k, v = .constant (.expr k) → k < depth) :
    ∃ t, m.typeOfWithin f depth v = .ok t := by
  induction depth generalizing v with
  | zero =>
    refine Module.exists_typeOfWithin_of_ne_expr hv (fun k hk => ?_) 0
    exact Nat.not_lt_zero k (hdepth k hk)
  | succ depth ih =>
    by_cases hexpr : ∃ k, v = .constant (.expr k)
    · obtain ⟨k, rfl⟩ := hexpr
      have hlt := hdepth k rfl
      have he := getElem?_pos m.constantExprs k hv
      rw [Module.typeOfWithin, fetch_eq_ok_iff.2 he, ok_bind]
      split
      · -- the base comes earlier, so that one expression less has to be followed
        rename_i base indices hop hoperands
        have hgrounded := hm.constantExpr k _ he
        have hmem : base ∈ m.constantExprs[k].operands := hoperands ▸ List.mem_cons_self
        obtain ⟨c, rfl, hbefore⟩ := hgrounded base hmem
        obtain ⟨t, ht⟩ := ih (m.has_operand_of_grounded hgrounded hv hmem) fun j hj => by
          have := hbefore.2 j (Value.constant.inj hj)
          omega
        rw [ht]
        exact ⟨_, rfl⟩
      · exact ⟨_, rfl⟩
    · exact Module.exists_typeOfWithin_of_ne_expr hv (fun k hk => hexpr ⟨k, hk⟩) _

theorem Module.WellReferenced.exists_typeOf (hm : m.WellReferenced) (hv : m.Has f v) :
    ∃ t, m.typeOf f v = .ok t := by
  refine hm.exists_typeOfWithin hv ?_
  rintro k rfl
  exact Nat.lt_succ_of_lt hv

theorem settles_valueName (hv : m.Has f v) : Settles E (fun _ => True) (f.valueName v) := by
  cases v with
  | argument i => exact (Settles.fetch hv).map fun _ _ => trivial
  | instruction i => exact (Settles.fetch hv).map fun _ _ => trivial
  | constant c => exact .ok trivial

theorem settles_definition_of_has (hv : m.Has f v) :
    Settles E (fun o => ∀ inst ∈ o, ∃ i, v = .instruction i ∧
      f.operation? i = some inst.operation) (f.definition v) := by
  refine Viewpoint.settles_definition (C := Context.ofFunction m f) ?_
  rintro j rfl
  exact hv

end Values

/-! ## Heights -/

namespace Function

variable {m : Module} {f : Function} {E : Prop} {v w : Value} {i j : Nat} {inst : Instruction}
  {op : Operation}

open Classical in
/-- The number of instructions that an instruction is computed from without passing a phi. -/
noncomputable def height (f : Function) (i : Nat) : Nat :=
  ((Finset.range f.instructions.size).filter fun j => Relation.TransGen f.Supplies j i).card

/-- How many instructions can follow one another from a value on without passing a phi. -/
noncomputable def heightOf (f : Function) : Value → Nat
  | .instruction i => f.height i + 1
  | _ => 0

theorem incoming?_eq_none (hop : f.operation? i = some op)
    (hphi : ∀ incoming, op ≠ .phi incoming) : f.incoming? i = none := by
  rw [incoming?, hop]
  split
  · rename_i incoming heq
    exact absurd (Option.some.inj heq) (hphi incoming)
  · rfl

namespace WellReferenced

theorem has_operand (hf : f.WellReferenced m) (hop : f.operation? i = some op)
    (hv : v ∈ op.operands) : m.Has f v := by
  obtain ⟨inst, hinst, rfl⟩ := Option.map_eq_some_iff.1 hop
  exact hf.operand inst (Array.mem_toList_iff.2 (Array.mem_of_getElem? hinst)) v hv

theorem callee_lt (hf : f.WellReferenced m) {callee : Nat} {args : List Value}
    (hop : f.operation? i = some (.call callee args)) : callee < m.functions.size := by
  obtain ⟨inst, hinst, hcase⟩ := Option.map_eq_some_iff.1 hop
  exact hf.callee inst (Array.mem_toList_iff.2 (Array.mem_of_getElem? hinst)) callee args hcase

theorem settles_callee (hf : f.WellReferenced m) (hop : f.operation? i = some inst.operation) :
    Settles E (fun _ => True) (m.callee inst) := by
  rw [Module.callee]
  split
  · rename_i callee args hcase
    exact (Settles.fetch (hf.callee_lt (hcase ▸ hop))).map fun _ _ => trivial
  · exact .ok trivial

theorem height_lt_size (hf : f.WellReferenced m) (hi : i < f.instructions.size) :
    f.height i < f.instructions.size := by
  classical
  have hcard := card_below_lt_card (R := Relation.TransGen f.Supplies) (hf.acyclic i)
    (Finset.mem_range.2 hi)
  exact hcard.trans_eq (Finset.card_range _)

/-- An instruction that is no phi stands higher than its operands. -/
theorem height_lt (hf : f.WellReferenced m) (hj : j < f.instructions.size)
    (hji : f.Supplies j i) : f.height j < f.height i := by
  classical
  exact card_below_lt (R := Relation.TransGen f.Supplies) (fun _ _ _ h h' => h.trans h')
    (hf.acyclic j) (Finset.mem_range.2 hj) (.single hji)

theorem heightOf_le_size (hf : f.WellReferenced m) (hv : m.Has f v) :
    f.heightOf v ≤ f.instructions.size := by
  cases v with
  | instruction i => exact hf.height_lt_size hv
  | _ => exact Nat.zero_le _

theorem heightOf_lt (hf : f.WellReferenced m) (hop : f.operation? i = some op)
    (hphi : ∀ incoming, op ≠ .phi incoming) (hv : v ∈ op.operands) :
    f.heightOf v < f.heightOf (.instruction i) := by
  cases v with
  | instruction j =>
    have hsupplies : f.Supplies j i := ⟨op, hop, incoming?_eq_none hop hphi, hv⟩
    exact Nat.succ_lt_succ (hf.height_lt (hf.has_operand hop hv) hsupplies)
  | _ => exact Nat.succ_pos _

end WellReferenced

/-! ## Trails -/

/-- A step of a trail from value `v`: it goes on to a value that is there and stands lower, or
stops with an answer that has property `P`. -/
inductive Descends {α : Type} (m : Module) (f : Function) (P : α → Prop) (v : Value) : Move α → Prop
  | next {w : Value} (hw : m.Has f w) (hlt : f.heightOf w < f.heightOf v) :
    Descends m f P v (.next w)
  | stop {a : α} (ha : P a) : Descends m f P v (.stop a)

namespace WellReferenced

variable {α : Type} {P : α → Prop} {step : Value → Except Fault (Move α)}

theorem settles_trailWithin
    (hstep : ∀ v, m.Has f v → Settles E (Descends m f P v) (step v)) {steps : Nat}
    (hv : m.Has f v) (hsteps : f.heightOf v < steps) :
    Settles E P (trailWithin step steps v) := by
  -- each step goes down, so that the steps that are left stay more than the height
  induction steps generalizing v with
  | zero => exact absurd hsteps (Nat.not_lt_zero _)
  | succ steps ih =>
    rw [trailWithin]
    have hmove := hstep v hv
    generalize step v = r at hmove
    cases hmove with
    | endless hE => exact .endless hE
    | @ok move hmove =>
      cases hmove with
      | stop ha => exact .ok ha
      | next hw hlt => exact ih hw (by omega)

/-- A trail whose steps descend ends with an answer. -/
theorem settles_trail (hf : f.WellReferenced m)
    (hstep : ∀ v, m.Has f v → Settles E (Descends m f P v) (step v)) (hv : m.Has f v) :
    Settles E P (f.trail step v) :=
  settles_trailWithin hstep hv (Nat.lt_succ_of_le (hf.heightOf_le_size hv))

theorem descends_next (hf : f.WellReferenced m) (hop : f.operation? i = some op)
    (hphi : ∀ incoming, op ≠ .phi incoming) (hw : w ∈ op.operands) :
    Descends m f P (.instruction i) (.next w) :=
  .next (hf.has_operand hop hw) (hf.heightOf_lt hop hphi hw)

/-- The address that an address is derived from is there. -/
theorem settles_addressRoot (hf : f.WellReferenced m) (hv : m.Has f v) :
    Settles E (m.Has f) (f.addressRoot v) := by
  refine hf.settles_trail (fun v hv => ?_) hv
  refine (settles_definition_of_has hv).bind fun o ho => ?_
  cases o with
  | none => exact .ok (.stop hv)
  | some inst =>
    obtain ⟨i, rfl, hop⟩ := ho inst rfl
    dsimp only
    split
    · rename_i base indices hcase
      rw [hcase] at hop
      exact .ok (hf.descends_next hop (by simp) (by simp [Operation.operands]))
    · rename_i op operand hcase
      rw [hcase] at hop
      split
      · exact .ok (hf.descends_next hop (by simp) (by simp [Operation.operands]))
      · exact .ok (.stop hv)
    · exact .ok (.stop hv)

/-- The storage that a pointer resolves to is there. -/
theorem settles_resolve (hf : f.WellReferenced m) (hv : m.Has f v) :
    Settles E (fun o => ∀ h ∈ o, m.Has f h.value) (Handle.resolve f v) := by
  refine hf.settles_trail (fun v hv => ?_) hv
  have hnone : ∀ h ∈ (none : Option Handle), m.Has f h.value := nofun
  have hfound : ∀ h : Handle, m.Has f h.value → ∀ h' ∈ some h, m.Has f h'.value := by
    rintro h hh _ ⟨⟩
    exact hh
  cases v with
  | argument i => exact .ok (.stop (hfound (.param i) hv))
  | constant c => exact .ok (.stop hnone)
  | instruction i =>
    refine (Settles.fetch hv).bind fun inst hinst => ?_
    have hop := operation?_of_getElem? hinst
    cases hcase : inst.operation with
    | alloca t => exact .ok (.stop (hfound (.slot i) hv))
    | cast op operand =>
      rw [hcase] at hop
      dsimp only
      split
      · exact .ok (hf.descends_next hop (by simp) (by simp [Operation.operands]))
      · exact .ok (.stop hnone)
    | element base indices =>
      rw [hcase] at hop
      dsimp only
      split
      · exact .ok (hf.descends_next hop (by simp) (by simp [Operation.operands]))
      · exact .ok (.stop hnone)
    | _ => exact .ok (.stop hnone)

/-- Looking for the slot or parameter that a pointer is a copy of comes to an end. -/
theorem settles_slotSource (hf : f.WellReferenced m) (t : Builtins) (hv : m.Has f v) :
    Settles E (fun _ => True) (Provenance.slotSource m t f v) := by
  refine hf.settles_trail (fun v hv => ?_) hv
  cases v with
  | argument i | constant c => exact .ok (.stop trivial)
  | instruction i =>
    refine (Settles.fetch hv).bind fun inst hinst => ?_
    have hop := operation?_of_getElem? hinst
    cases hcase : inst.operation with
    | cast op operand =>
      rw [hcase] at hop
      cases op with
      | bitcast =>
        exact .ok (hf.descends_next hop (by simp) (by simp [Operation.operands]))
      | _ => exact .ok (.stop trivial)
    | call callee args =>
      rw [hcase] at hop
      refine (Settles.fetch (hf.callee_lt hop)).bind fun g _ => ?_
      split
      · rename_i operand rest _
        exact .ok (hf.descends_next hop (by simp) List.mem_cons_self)
      · exact .ok (.stop trivial)
    | _ => exact .ok (.stop trivial)

/-- Looking for the array whose storage an address points into comes to an end. -/
theorem settles_storageSource (hf : f.WellReferenced m) (t : Builtins) (hv : m.Has f v) :
    Settles E (fun _ => True) (Provenance.storageSource m t f v) := by
  refine (hf.settles_addressRoot hv).bind fun root hroot => ?_
  refine (settles_definition_of_has hroot).bind fun o ho => ?_
  cases o with
  | none => exact .ok trivial
  | some inst =>
    obtain ⟨i, rfl, hop⟩ := ho inst rfl
    cases hcase : inst.operation with
    | call callee args =>
      rw [hcase] at hop
      dsimp only
      rw [hcase]
      refine (Settles.fetch (hf.callee_lt hop)).bind fun g _ => ?_
      split
      · exact hf.settles_slotSource t (hf.has_operand hop List.mem_cons_self)
      · exact .ok trivial
    | _ =>
      dsimp only
      rw [hcase]
      exact .ok trivial

/-- Finding out where the arrays of a function come from comes to an end. -/
theorem settles_provenance (hf : f.WellReferenced m) (t : Builtins) :
    Settles E (fun _ => True) (Provenance.ofFunction m t f) := by
  refine Settles.foldlM fun p inst hinst => ?_
  have hhas := hf.operand inst hinst
  rw [Provenance.observe]
  cases hcase : inst.operation with
  | load ptr =>
    rw [hcase] at hhas
    refine (hf.settles_storageSource t (hhas ptr (by simp [Operation.operands]))).bind
      fun o _ => ?_
    cases o <;> exact .ok trivial
  | store value ptr =>
    rw [hcase] at hhas
    have hptr := hhas ptr (by simp [Operation.operands])
    refine (hf.settles_storageSource t hptr).bind fun o _ => ?_
    refine (hf.settles_slotSource t hptr).bind fun target _ => ?_
    split <;> exact .ok trivial
  | _ => exact .ok trivial

/-- The instructions that the addresses of stores are derived from. -/
theorem settles_storeRoot? (hf : f.WellReferenced m) (hinst : inst ∈ f.instructions.toList) :
    Settles E (fun _ => True) (Extractor.storeRoot? f inst) := by
  rw [Extractor.storeRoot?]
  cases hcase : inst.operation with
  | store value ptr =>
    have hptr := hf.operand inst hinst ptr (by simp [hcase, Operation.operands])
    exact (hf.settles_addressRoot hptr).map fun _ _ => trivial
  | _ => exact .ok trivial

end WellReferenced

end Function

end GridAccess
