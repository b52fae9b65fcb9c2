import GridAccess.Proofs.EvolutionShape
import GridAccess.Proofs.EvolutionSoundness

set_option autoImplicit false

/-!
# The equations of evolutions

Evolutions are found in rounds, each of which takes the operands of an instruction from the round
before. The table that comes out does not depend on where the rounds stop: one more round changes
nothing (`Context.round_evolutions`). So the evolution of an instruction is what its operation
makes of the evolutions of its operands (`Scope.evolution_instruction`).

A round only ever decides what was open (`Refines`), because each construction does nothing with a
look-up but go on with its result (`Context.refines_ofInstruction`). A round that changes the table
therefore leaves fewer instructions open, and there are no more of them than rounds.
-/

namespace GridAccess

namespace Context

variable {C : Context} {F : Fault → Prop} {find find' : Lookup} {t t' : Table} {i : Nat}

/-! ## One instruction -/

section Step

variable (hfind : ∀ v, Refines F (find v) (find' v))

include hfind

theorem refines_offsetsWithin (indices : List Value) (type : Ty) :
    Refines F (C.offsetsWithin find type indices) (C.offsetsWithin find' type indices) := by
  induction indices generalizing type with
  | nil => cases type <;> exact .refl _
  | cons index rest ih =>
    cases type with
    | struct name =>
      apply (Refines.refl _).bind
      intro place
      cases place with
      | none => exact .refl _
      | some place =>
        apply (ih place.2).bind
        intro more
        exact .refl _
    | array element n =>
      apply (hfind index).bind
      intro e
      apply (Refines.refl _).bind
      intro scaled
      apply (ih element).bind
      intro more
      exact .refl _
    | _ => exact .refl _

theorem refines_elementOffsets (base : Value) (indices : List Value) :
    Refines F (C.elementOffsets find base indices) (C.elementOffsets find' base indices) := by
  apply (Refines.refl _).bind
  intro type
  cases type.pointee? with
  | none => exact .refl _
  | some element =>
    cases indices with
    | nil => exact .refl _
    | cons index rest =>
      apply (hfind index).bind
      intro e
      apply (Refines.refl _).bind
      intro scaled
      apply (refines_offsetsWithin hfind rest element).bind
      intro more
      exact .refl _

theorem refines_ofElement (base : Value) (indices : List Value) :
    Refines F (C.ofElement find base indices) (C.ofElement find' base indices) := by
  apply (hfind base).bind
  intro start
  apply (refines_elementOffsets hfind base indices).bind
  intro o
  exact .refl _

theorem refines_ofBinary (op : BinaryOp) (lhs rhs : Value) :
    Refines F (C.ofBinary find op lhs rhs) (C.ofBinary find' op lhs rhs) := by
  apply (hfind lhs).bind
  intro l
  cases op with
  | add | sub | mul | udiv => exact (hfind rhs).bind fun r => .refl _
  | _ => exact .refl _

theorem refines_ofCast (op : CastOp) (operand : Value) :
    Refines F (ofCast find op operand) (ofCast find' op operand) :=
  (hfind operand).bind fun _ => .refl _

theorem refines_ofSelect (cond onTrue onFalse : Value) :
    Refines F (C.ofSelect find cond onTrue onFalse) (C.ofSelect find' cond onTrue onFalse) := by
  apply (Refines.refl _).bind
  intro c
  cases c with
  | none => exact .refl _
  | some c =>
    dsimp only
    generalize (if onTrue = c.lhs ∧ onFalse = c.rhs then some c.pred
      else if onTrue = c.rhs ∧ onFalse = c.lhs then some c.pred.swapped else none) = pred?
    cases pred? with
    | none => exact .refl _
    | some pred =>
      apply (hfind onTrue).bind
      intro a
      exact (hfind onFalse).bind fun b => .refl _

theorem refines_increment? (l : Loop) (phi back : Value) :
    Refines F (C.increment? find l phi back) (C.increment? find' l phi back) := by
  apply (Refines.refl _).bind
  intro inst
  cases inst with
  | none => exact .refl _
  | some inst =>
    dsimp only
    split
    · apply (Refines.refl _).bind
      intro left
      cases left with
      | true => exact (hfind _).map some
      | false =>
        apply (Refines.refl _).bind
        intro right
        cases right with
        | true => exact (hfind _).map some
        | false => exact .refl _
    · apply (Refines.refl _).bind
      intro left
      cases left with
      | true => exact (hfind _).bind fun e => .refl _
      | false => exact .refl _
    · rename_i base indices _
      apply (Refines.refl _).bind
      intro outside
      cases outside with
      | true => exact (refines_elementOffsets hfind base indices).bind fun o => .refl _
      | false => exact .refl _
    · exact .refl _

theorem refines_ofPhi (phi : Value) (b : Nat) (incoming : List (Nat × Value)) :
    Refines F (C.ofPhi find phi b incoming) (C.ofPhi find' phi b incoming) := by
  rw [ofPhi, ofPhi]
  cases C.forest.innermost? b with
  | none => exact .refl _
  | some id =>
    apply (Refines.refl _).bind
    intro l
    split
    · exact .refl _
    · cases entryAndBack? l incoming with
      | none => exact .refl _
      | some values =>
        apply (refines_increment? hfind l phi values.2).bind
        intro o
        cases o with
        | none => exact .refl _
        | some step => exact (hfind values.1).bind fun start => .refl _

/-- What is decided about the operands of an instruction decides no less about it. -/
theorem refines_ofInstruction (i : Nat) (inst : Instruction) :
    Refines F (C.ofInstruction find i inst) (C.ofInstruction find' i inst) := by
  rw [ofInstruction, ofInstruction]
  cases inst.operation with
  | binary op lhs rhs => exact (refines_ofBinary hfind op lhs rhs).bind fun o => .refl _
  | cast op operand => exact (refines_ofCast hfind op operand).bind fun o => .refl _
  | element base indices => exact (refines_ofElement hfind base indices).bind fun o => .refl _
  | select cond onTrue onFalse =>
    exact (refines_ofSelect hfind cond onTrue onFalse).bind fun o => .refl _
  | phi incoming => exact (refines_ofPhi hfind _ inst.parent incoming).bind fun o => .refl _
  | _ => exact .refl _

end Step

/-! ## Rounds -/

/-- The tables have entries for the same instructions, and the second one decides what the first
one decides, and alike. -/
def Table.Firms (t t' : Table) : Prop :=
  List.Forall₂ (Refines (· = .endless)) t.toList t'.toList

/-- The number of instructions whose evolution is open. -/
def Table.openCount (t : Table) : Nat := t.toList.countP fun r => !isSettled r

theorem isSettled_of_ne {r : Except Fault Evolution} (h : r ≠ .error .endless) :
    isSettled r = true := by
  cases r with
  | ok e => rfl
  | error fault =>
    cases fault with
    | dangling => rfl
    | endless => exact absurd rfl h

theorem eq_or_countP_lt {rs rs' : List (Except Fault Evolution)}
    (h : List.Forall₂ (Refines (· = .endless)) rs rs') :
    rs = rs' ∨ rs'.countP (fun r => !isSettled r) < rs.countP fun r => !isSettled r := by
  induction h with
  | nil => exact Or.inl rfl
  | @cons r r' rs rs' hr _ ih =>
    rw [List.countP_cons, List.countP_cons]
    by_cases hrr : r = r'
    · subst hrr
      exact ih.imp (congrArg _) fun hlt => Nat.add_lt_add_right hlt _
    · -- the entry was open and no longer is
      obtain ⟨_, rfl, rfl⟩ := hr.resolve_right hrr
      have hsettled : isSettled r' = true := isSettled_of_ne (Ne.symm hrr)
      have hle : rs'.countP (fun r => !isSettled r) ≤ rs.countP fun r => !isSettled r := by
        rcases ih with rfl | hlt
        · exact le_rfl
        · exact hlt.le
      rw [if_neg (by simp [hsettled]), if_pos (by rfl)]
      exact Or.inr (Nat.lt_succ_of_le hle)

namespace Table.Firms

theorem size_eq (h : t.Firms t') : t.size = t'.size := by
  simpa using h.length_eq

theorem of_entries (hsize : t.size = t'.size)
    (h : ∀ (i : Nat) r r', t[i]? = some r → t'[i]? = some r' → Refines (· = .endless) r r') :
    t.Firms t' := by
  refine List.forall₂_iff_get.2 ⟨by simpa using hsize, fun i hi hi' => ?_⟩
  exact h i _ _ (Array.getElem?_eq_getElem hi) (Array.getElem?_eq_getElem hi')

theorem lookup (h : t.Firms t') (v : Value) :
    Refines (· = .endless) (Context.lookup t v) (Context.lookup t' v) := by
  cases v with
  | argument n => exact .refl _
  | constant c => cases c <;> exact .refl _
  | instruction i =>
    rw [Context.lookup, Context.lookup]
    rcases Nat.lt_or_ge i t.size with hi | hi
    · have hi' : i < t'.size := h.size_eq ▸ hi
      rw [Array.getElem?_eq_getElem hi, Array.getElem?_eq_getElem hi']
      exact (List.forall₂_iff_get.1 h).2 i hi hi'
    · have hi' : t'.size ≤ i := h.size_eq ▸ hi
      rw [Array.getElem?_eq_none hi, Array.getElem?_eq_none hi']
      exact .refl _

/-- A round keeps the order of tables. -/
theorem round (h : t.Firms t') : (C.round t).Firms (C.round t') := by
  refine of_entries (by simp [Context.round]) fun i r r' hr hr' => ?_
  rw [Context.round, Array.getElem?_mapIdx, Option.map_eq_some_iff] at hr hr'
  obtain ⟨inst, hinst, rfl⟩ := hr
  obtain ⟨inst', hinst', rfl⟩ := hr'
  obtain rfl := Option.some.inj (hinst.symm.trans hinst')
  exact refines_ofInstruction h.lookup i inst

/-- Deciding anything leaves fewer instructions open. -/
theorem eq_or_openCount_lt (h : t.Firms t') : t = t' ∨ t'.openCount < t.openCount :=
  (eq_or_countP_lt h).imp Array.toList_inj.1 id

end Table.Firms

/-- Where a round changes nothing, no number of rounds does. -/
theorem settle_of_round_eq (h : C.round t = t) (r : Nat) : C.settle r t = t := by
  induction r with
  | zero => rfl
  | succ r ih => rw [settle, h, ih, ite_self]

/-- More rounds than instructions are open lead to a table that a round does not change. -/
theorem round_settle (h : t.Firms (C.round t)) {r : Nat} (hr : t.openCount < r) :
    C.round (C.settle r t) = C.settle r t := by
  induction r generalizing t with
  | zero => exact absurd hr (Nat.not_lt_zero _)
  | succ r ih =>
    rcases h.eq_or_openCount_lt with heq | hlt
    · rw [settle_of_round_eq heq.symm]
      exact heq.symm
    · rw [settle, if_neg]
      · exact ih h.round (by omega)
      · -- the round decides something, so something is open
        intro hall
        have hzero : t.openCount = 0 := by
          rw [Table.openCount, List.countP_eq_zero]
          intro r hr
          have := Array.all_eq_true_iff_forall_mem.1 hall r (Array.mem_toList_iff.1 hr)
          simp [this]
        omega

/-- One more round does not change the evolutions. -/
theorem round_evolutions (C : Context) : C.round C.evolutions = C.evolutions := by
  apply round_settle
  · refine Table.Firms.of_entries (by simp [round]) fun i r r' hr _ => ?_
    rw [Array.getElem?_replicate] at hr
    split at hr
    · obtain rfl := Option.some.inj hr
      exact Or.inl ⟨_, rfl, rfl⟩
    · cases hr
  · rw [Table.openCount, Array.toList_replicate]
    exact Nat.lt_succ_of_le ((List.countP_le_length).trans (by simp))

theorem size_evolutions (C : Context) : C.evolutions.size = C.function.instructions.size := by
  rw [← C.round_evolutions, round, Array.size_mapIdx]

end Context

/-- The evolution of an instruction is what its operation makes of those of its operands. -/
theorem Scope.evolution_instruction {C : Context} {i : Nat} {inst : Instruction}
    (hinst : C.function.instructions[i]? = some inst) :
    (Scope.ofContext C).evolution (.instruction i) =
      C.ofInstruction (Scope.ofContext C).evolution i inst := by
  calc Context.lookup C.evolutions (.instruction i)
      = Context.lookup (C.round C.evolutions) (.instruction i) := by rw [C.round_evolutions]
    _ = C.ofInstruction (Context.lookup C.evolutions) i inst := Function.lookup_round hinst

theorem Scope.evolution_of_absent {C : Context} {i : Nat}
    (hi : C.function.instructions.size ≤ i) :
    (Scope.ofContext C).evolution (.instruction i) = .error .dangling := by
  have hnone : C.evolutions[i]? = none := Array.getElem?_eq_none (C.size_evolutions ▸ hi)
  calc Context.lookup C.evolutions (.instruction i)
      = .error .dangling := by rw [Context.lookup, hnone]

end GridAccess
