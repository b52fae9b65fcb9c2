import GridAccess.Proofs.Addresses
import GridAccess.Proofs.AffineEvolutions
import GridAccess.Proofs.Endings
import GridAccess.Proofs.EvolutionEquations

set_option autoImplicit false

/-!
# Evolutions that can be found

The evolution of an instruction is found from those of other values (`Context.Consults`): of its
operands, or, if it is a phi in the header of a loop, of the value that it has on entry to the loop
and of what is added to it in each round. Operands run in a circle through every phi of a loop
header, but an evolution does not consult what the phi gets from inside the loop: it consults what
that is computed from outside of it.

In a function whose definitions come before their uses (`Function.StrictSSA`), all that an
instruction consults is listed before it in its block, or in a block that comes earlier in the
order of dominance (`Function.StrictSSA.earlier_of_consults`). So consulting comes to an end
(`Function.StrictSSA.acc_consults`), and the equations of evolutions have one solution
(`Function.StrictSSA.coincide_evolution`).

Blocks that control does not reach may hold anything, but for those that lead to the first block
(`Function.Relevant`). If that is the header of a loop, its phis start from values of such blocks.
-/

namespace GridAccess

/-! ## Outcomes that coincide -/

/-- The computations come to an end and have the same outcome. -/
def Coincide {α : Type} (x y : Except Fault α) : Prop := x = y ∧ x ≠ .error .endless

namespace Coincide

variable {α β : Type} {x y : Except Fault α}

theorem self (h : x ≠ .error .endless) : Coincide x x := ⟨rfl, h⟩

theorem pure (a : α) : Coincide (Pure.pure a) (Pure.pure a) := self pure_ne_error

theorem ok (a : α) : Coincide (.ok a) (.ok a) := pure a

theorem bind {g k : α → Except Fault β} (hxy : Coincide x y)
    (hgk : ∀ a, x = .ok a → Coincide (g a) (k a)) : Coincide (x >>= g) (y >>= k) := by
  obtain ⟨rfl, hx⟩ := hxy
  cases x with
  | error e => exact ⟨rfl, by simpa [error_bind] using hx⟩
  | ok a => exact hgk a rfl

theorem self_bind {g k : α → Except Fault β} (hx : x ≠ .error .endless)
    (hgk : ∀ a, x = .ok a → Coincide (g a) (k a)) : Coincide (x >>= g) (x >>= k) :=
  (self hx).bind hgk

theorem map (g : α → β) (hxy : Coincide x y) : Coincide (g <$> x) (g <$> y) :=
  ⟨by rw [hxy.1], map_ne_error g hxy.2⟩

end Coincide

namespace Context

variable {C : Context} {find find' : Lookup} {i j : Nat} {inst : Instruction}

/-! ## What an evolution is found from -/

/-- Instruction `i` is a phi in the header of loop `l`, the innermost one around it. It is `entry`
on entry to the loop and gets `back` from inside. -/
def IsLoopPhi (C : Context) (i : Nat) (l : Loop) (entry back : Value) : Prop :=
  ∃ inst incoming id, C.function.instructions[i]? = some inst ∧ inst.operation = .phi incoming ∧
    C.forest.innermost? inst.parent = some id ∧ C.forest.loops[id]? = some l ∧
    l.header = inst.parent ∧ entryAndBack? l incoming = some (entry, back)

/-- The evolution of instruction `i` is found from that of a value. -/
inductive Consults (C : Context) (i : Nat) : Value → Prop
  | operand {op : Operation} {v : Value} (hop : C.function.operation? i = some op)
      (hphi : ∀ incoming, op ≠ .phi incoming) (hv : v ∈ op.operands) : Consults C i v
  /-- What a phi starts from. -/
  | start {l : Loop} {entry back : Value} (h : C.IsLoopPhi i l entry back) : Consults C i entry
  /-- What a phi is moved by in each round: an operand that is computed outside the loop. -/
  | step {l : Loop} {entry v : Value} {j : Nat} {op : Operation}
      (h : C.IsLoopPhi i l entry (.instruction j)) (hop : C.function.operation? j = some op)
      (hphi : ∀ incoming, op ≠ .phi incoming) (hv : v ∈ op.operands)
      (hinv : l.isInvariant C.function v = .ok true) : Consults C i v

theorem allOutside_ne_endless (C : Context) (l : Loop) (vs : List Value) :
    C.allOutside l vs ≠ .error .endless := by
  induction vs with
  | nil => rintro ⟨⟩
  | cons v vs ih =>
    rw [allOutside]
    split
    · exact ih
    · exact l.isInvariant_ne_endless C.function v

theorem isInvariant_of_allOutside {l : Loop} {vs : List Value} (h : C.allOutside l vs = .ok true) :
    ∀ v ∈ vs, l.isInvariant C.function v = .ok true := by
  induction vs with
  | nil => simp
  | cons v vs ih =>
    rw [allOutside] at h
    split at h
    · rename_i hv
      intro w hw
      rcases List.mem_cons.1 hw with rfl | hw
      · exact hv
      · exact ih h w hw
    · rename_i hnot
      exact absurd h hnot

/-! ## One instruction -/

theorem coincide_offsetsWithin {indices : List Value} {type : Ty}
    (hfind : ∀ v ∈ indices, Coincide (find v) (find' v)) (htype : C.module.layout.Bounded type) :
    Coincide (C.offsetsWithin find type indices) (C.offsetsWithin find' type indices) := by
  induction indices generalizing type with
  | nil => cases type <;> exact .ok _
  | cons index rest ih =>
    have hrest : ∀ {type}, C.module.layout.Bounded type →
        Coincide (C.offsetsWithin find type rest) (C.offsetsWithin find' type rest) :=
      ih fun v hv => hfind v (List.mem_cons_of_mem index hv)
    cases type with
    | struct name =>
      obtain ⟨place, hplace, hinner⟩ :=
        (Viewpoint.settles_fieldAt? (E := False) index (.inr htype)).exists_ok
      rw [offsetsWithin, offsetsWithin, hplace, ok_bind, ok_bind]
      cases place with
      | none => exact .pure _
      | some place =>
        exact (hrest ((hinner place rfl).resolve_left id)).bind fun more _ => .pure _
    | array element n =>
      refine (hfind index List.mem_cons_self).bind fun e _ => ?_
      refine .self_bind (C.product_ne_endless _ _) fun scaled _ => ?_
      exact (hrest htype.element).bind fun more _ => .pure _
    | _ => exact .ok _

theorem coincide_elementOffsets (hm : C.module.Layered) {base : Value} {indices : List Value}
    (hop : C.function.operation? j = some (.element base indices))
    (hlaid : C.function.Laid C.module j)
    (hfind : ∀ v ∈ indices, Coincide (find v) (find' v)) :
    Coincide (C.elementOffsets find base indices) (C.elementOffsets find' base indices) := by
  refine .self_bind (hm.typeOf_ne_endless C.function base) fun type htype => ?_
  cases helement : type.pointee? with
  | none => exact .pure _
  | some element =>
    have hpointee : C.module.pointeeOf? C.function base = some element := by
      rw [Module.pointeeOf?, htype, ← helement]
    cases indices with
    | nil => exact .pure _
    | cons index rest =>
      refine (hfind index List.mem_cons_self).bind fun e _ => ?_
      refine .self_bind (C.product_ne_endless _ _) fun scaled _ => ?_
      have hbounded := hlaid base _ element hop (List.cons_ne_nil _ _) hpointee
      refine (coincide_offsetsWithin (fun v hv => ?_) hbounded).bind fun more _ => .pure _
      exact hfind v (List.mem_cons_of_mem index hv)

theorem coincide_ofElement (hm : C.module.Layered) {base : Value} {indices : List Value}
    (hop : C.function.operation? j = some (.element base indices))
    (hlaid : C.function.Laid C.module j)
    (hfind : ∀ v ∈ indices ++ [base], Coincide (find v) (find' v)) :
    Coincide (C.ofElement find base indices) (C.ofElement find' base indices) := by
  refine (hfind base (by simp)).bind fun start _ => ?_
  refine (coincide_elementOffsets hm hop hlaid fun v hv => ?_).bind fun o _ => ?_
  · exact hfind v (List.mem_append_left _ hv)
  · cases o with
    | none => exact .pure _
    | some offsets => exact .map _ (.self (C.sum_ne_endless _))

theorem coincide_ofBinary {op : BinaryOp} {lhs rhs : Value}
    (hfind : ∀ v ∈ [lhs, rhs], Coincide (find v) (find' v)) :
    Coincide (C.ofBinary find op lhs rhs) (C.ofBinary find' op lhs rhs) := by
  have hrhs := hfind rhs (by simp)
  refine (hfind lhs (by simp)).bind fun l _ => ?_
  cases op with
  | add => exact hrhs.bind fun r _ => .map _ (.self (C.sum_ne_endless _))
  | sub => exact hrhs.bind fun r _ => .map _ (.self (C.difference_ne_endless _ _))
  | mul => exact hrhs.bind fun r _ => .map _ (.self (C.product_ne_endless _ _))
  | udiv => exact hrhs.bind fun r _ => .pure _
  | shl =>
    dsimp only
    cases shiftFactor? rhs with
    | none => exact .pure _
    | some w => exact .map _ (.self (C.product_ne_endless _ _))
  | _ => exact .pure _

theorem coincide_ofCast {op : CastOp} {operand : Value}
    (hfind : Coincide (find operand) (find' operand)) :
    Coincide (ofCast find op operand) (ofCast find' op operand) := by
  refine hfind.bind fun e _ => ?_
  cases op <;> exact .pure _

theorem coincide_ofSelect {cond onTrue onFalse : Value}
    (hfind : ∀ v ∈ [cond, onTrue, onFalse], Coincide (find v) (find' v)) :
    Coincide (C.ofSelect find cond onTrue onFalse) (C.ofSelect find' cond onTrue onFalse) := by
  refine .self_bind (C.comparison?_ne_endless cond) fun c _ => ?_
  cases c with
  | none => exact .pure _
  | some c =>
    dsimp only
    -- which maximum or minimum it is depends on the comparison alone
    generalize (if onTrue = c.lhs ∧ onFalse = c.rhs then some c.pred
      else if onTrue = c.rhs ∧ onFalse = c.lhs then some c.pred.swapped else none) = pred?
    cases pred? with
    | none => exact .pure _
    | some pred =>
      refine (hfind onTrue (by simp)).bind fun a _ => ?_
      refine (hfind onFalse (by simp)).bind fun b _ => ?_
      cases pred <;> exact .pure _

theorem guard_ne_endless {c : Prop} [Decidable c] {r : Except Fault Bool}
    (hr : r ≠ .error .endless) : (if c then r else .ok false) ≠ .error .endless := by
  split
  · exact hr
  · rintro ⟨⟩

theorem of_guard {c : Prop} [Decidable c] {r : Except Fault Bool}
    (h : (if c then r else .ok false) = .ok true) : r = .ok true := by
  split at h
  · exact h
  · cases h

/-- What is added to a phi in each round is found from operands outside the loop. -/
theorem coincide_increment? (hm : C.module.Layered) {l : Loop} {phi back : Value}
    (hlaid : ∀ j, back = .instruction j → C.function.Laid C.module j)
    (hfind : ∀ j op v, back = .instruction j → C.function.operation? j = some op →
      (∀ incoming, op ≠ .phi incoming) → v ∈ op.operands →
      l.isInvariant C.function v = .ok true → Coincide (find v) (find' v)) :
    Coincide (C.increment? find l phi back) (C.increment? find' l phi back) := by
  have hguard (v w : Value) : (if v = phi then l.isInvariant C.function w else .ok false) ≠
      .error .endless := guard_ne_endless (l.isInvariant_ne_endless _ _)
  refine .self_bind (C.function.definition_ne_endless back) fun o ho => ?_
  cases o with
  | none => exact .pure _
  | some inst =>
    obtain ⟨j, rfl, hop⟩ : ∃ j, back = .instruction j ∧
        C.function.operation? j = some inst.operation := by
      cases back with
      | instruction j =>
        obtain ⟨_, hinst, heq⟩ := map_eq_ok_iff.1 ho
        obtain rfl := Option.some.inj heq
        exact ⟨j, rfl, Function.operation?_of_getElem? (fetch_eq_ok_iff.1 hinst)⟩
      | argument n | constant c => cases ho
    replace hfind := fun v => hfind j inst.operation v rfl hop
    dsimp only
    split
    · -- in a sum the phi can stand on either side, and the other side is consulted
      rename_i lhs rhs hadd
      rw [hadd] at hfind
      refine .self_bind (hguard lhs rhs) fun left hleft => ?_
      cases left with
      | true => exact .map _ (hfind rhs (by simp) (by simp [Operation.operands]) (of_guard hleft))
      | false =>
        refine .self_bind (hguard rhs lhs) fun right hright => ?_
        cases right with
        | true =>
          exact .map _ (hfind lhs (by simp) (by simp [Operation.operands]) (of_guard hright))
        | false => exact .pure _
    · rename_i lhs rhs hsub
      rw [hsub] at hfind
      refine .self_bind (hguard lhs rhs) fun left hleft => ?_
      cases left with
      | true =>
        have hrhs := hfind rhs (by simp) (by simp [Operation.operands]) (of_guard hleft)
        refine hrhs.bind fun e _ => ?_
        exact .map _ (.self (C.product_ne_endless _ _))
      | false => exact .pure _
    · -- a pointer is moved by its indices, all of which have to be outside the loop
      rename_i base indices helement
      rw [helement] at hfind hop
      have hends := C.allOutside_ne_endless l indices
      refine .self_bind (guard_ne_endless hends) fun outside hout => ?_
      cases outside with
      | true =>
        refine (coincide_elementOffsets hm hop (hlaid j rfl) fun v hv => ?_).bind fun o _ => ?_
        · exact hfind v (by simp) (by simp [Operation.operands, hv])
            (isInvariant_of_allOutside (of_guard hout) v hv)
        · split
          · exact .pure _
          · exact .pure _
          · exact .map _ (.self (C.sum_ne_endless _))
      | false => exact .pure _
    · exact .pure _

theorem coincide_ofPhi (hm : C.module.Layered) {incoming : List (Nat × Value)}
    (hinst : C.function.instructions[i]? = some inst) (hop : inst.operation = .phi incoming)
    (hback : ∀ l entry j, C.IsLoopPhi i l entry (.instruction j) → C.function.Laid C.module j)
    (hfind : ∀ v, C.Consults i v → Coincide (find v) (find' v)) :
    Coincide (C.ofPhi find (.instruction i) inst.parent incoming)
      (C.ofPhi find' (.instruction i) inst.parent incoming) := by
  rw [ofPhi, ofPhi]
  cases hid : C.forest.innermost? inst.parent with
  | none => exact .pure _
  | some id =>
    refine .self_bind (fetch_ne_endless _ _) fun l hl => ?_
    by_cases hheader : l.header = inst.parent
    · rw [if_neg (not_not.2 hheader), if_neg (not_not.2 hheader)]
      cases hentry : entryAndBack? l incoming with
      | none => exact .pure _
      | some values =>
        obtain ⟨entry, back⟩ := values
        have hloop : C.IsLoopPhi i l entry back :=
          ⟨inst, incoming, id, hinst, hop, hid, fetch_eq_ok_iff.1 hl, hheader, hentry⟩
        refine (coincide_increment? hm (fun j hj => ?_)
          fun j op v hj hop hphi hv hinv => ?_).bind fun o _ => ?_
        · subst hj
          exact hback l entry j hloop
        · subst hj
          exact hfind v (.step hloop hop hphi hv hinv)
        · cases o with
          | none => exact .pure _
          | some step => exact (hfind entry (.start hloop)).bind fun start _ => .pure _
    · rw [if_pos hheader, if_pos hheader]
      exact .pure _

/-- The evolution of an instruction depends on nothing but the values that it consults. -/
theorem coincide_ofInstruction (hm : C.module.Layered)
    (hinst : C.function.instructions[i]? = some inst) (hlaid : C.function.Laid C.module i)
    (hback : ∀ l entry j, C.IsLoopPhi i l entry (.instruction j) → C.function.Laid C.module j)
    (hfind : ∀ v, C.Consults i v → Coincide (find v) (find' v)) :
    Coincide (C.ofInstruction find i inst) (C.ofInstruction find' i inst) := by
  have hop := Function.operation?_of_getElem? hinst
  have hoperand : (∀ incoming, inst.operation ≠ .phi incoming) → ∀ v ∈ inst.operation.operands,
      Coincide (find v) (find' v) := fun hphi v hv => hfind v (.operand hop hphi hv)
  rw [ofInstruction, ofInstruction]
  cases hkind : inst.operation with
  | phi incoming =>
    exact (coincide_ofPhi hm hinst hkind hback hfind).bind fun o _ => .pure _
  | binary op lhs rhs =>
    rw [hkind] at hoperand
    exact (coincide_ofBinary (hoperand (by simp))).bind fun o _ => .pure _
  | cast op operand =>
    rw [hkind] at hoperand
    exact (coincide_ofCast (hoperand (by simp) _ List.mem_cons_self)).bind fun o _ => .pure _
  | element base indices =>
    rw [hkind] at hoperand hop
    exact (coincide_ofElement hm hop hlaid (hoperand (by simp))).bind fun o _ => .pure _
  | select cond onTrue onFalse =>
    rw [hkind] at hoperand
    exact (coincide_ofSelect (hoperand (by simp))).bind fun o _ => .pure _
  | _ => exact .pure _

end Context

/-! ## Blocks that come earlier -/

namespace Cfg

variable {g : Cfg} {a b c : Nat}

/-- Control reaches block `b`, and never reaches `a` or always passes `a` before. -/
def Earlier (g : Cfg) (a b : Nat) : Prop := g.Reaches b ∧ (¬ g.Reaches a ∨ g.ProperlyDominates a b)

theorem wellFounded_earlier (g : Cfg) : WellFounded g.Earlier := by
  have hunreached : ∀ a, ¬ g.Reaches a → Acc g.Earlier a :=
    fun a ha => Acc.intro a fun _ hearlier => absurd hearlier.1 ha
  refine ⟨fun b => ?_⟩
  induction b using (wellFounded_properlyDominates g).induction with
  | _ b ih =>
    refine Acc.intro b fun a hab => ?_
    obtain ⟨hb, ha | hdom⟩ := hab
    · exact hunreached a ha
    · exact ih a ⟨hb, hdom⟩

/-- A block that dominates another one in the tree is the same or comes earlier. -/
theorem eq_or_earlier (hg : g.Closed) (hb : b < g.size) (h : g.domTree.dominates a b = true) :
    a = b ∨ g.Earlier a b := by
  by_cases hreach : g.Reaches b
  · by_cases hab : a = b
    · exact .inl hab
    · exact .inr ⟨hreach, .inr ⟨(dominates_domTree_iff hg hreach).1 h, hab⟩⟩
  · exact .inl ((dominates_domTree_of_not_reaches hg hb hreach).1 h)

theorem dominates_domTree_self (hg : g.Closed) (hb : b < g.size) :
    g.domTree.dominates b b = true := by
  by_cases hreach : g.Reaches b
  · exact (dominates_domTree_iff hg hreach).2 (.refl g b)
  · exact (dominates_domTree_of_not_reaches hg hb hreach).2 rfl

end Cfg

/-! ## Definitions before uses -/

/-- Control reaches the block, or it leads to the first one. -/
def Function.Relevant (f : Function) (b : Nat) : Prop := f.cfg.Reaches b ∨ 0 ∈ f.cfg.successors b

instance (f : Function) (b : Nat) : Decidable (f.cfg.Reaches b) :=
  decidable_of_iff _ (Cfg.mem_reachable_iff f.closed_cfg)

instance (f : Function) (b : Nat) : Decidable (f.Relevant b) :=
  inferInstanceAs (Decidable (f.cfg.Reaches b ∨ 0 ∈ f.cfg.successors b))

/-- A function in which definitions come before uses, by its dominator tree. The instructions of a
block are there and belong to it. The operands of an instruction that is no phi are defined earlier
in its block or in a block that properly dominates it. A phi has exactly one entry for each block
control may come from, and what it gets from there is defined in a block that dominates that one.
Nothing is asked of uses in blocks that are not relevant. -/
structure Function.StrictSSA (f : Function) : Prop where
  placed : ∀ b < f.blocks.size, ∀ i ∈ f.listed b, f.instructions[i]?.map (·.parent) = some b
  defined : ∀ b < f.blocks.size, f.Relevant b → ∀ i ∈ f.listed b, ∀ op ∈ f.operation? i,
    f.incoming? i = none → ∀ v ∈ op.operands, ∀ j ∈ v.instruction?,
      (f.listed b).idxOf j < (f.listed b).idxOf i ∨
        f.ListedBy (f.cfg.domTree.properlyDominates · b) j
  incoming : ∀ b < f.blocks.size, f.cfg.Reaches b → ∀ i ∈ f.listed b, ∀ incoming ∈ f.incoming? i,
    (incoming.map Prod.fst).Perm (f.cfg.predecessors b) ∧
    ∀ entry ∈ incoming, f.Relevant entry.1 → ∀ j ∈ entry.2.instruction?,
      f.ListedBy (f.cfg.domTree.dominates · entry.1) j

namespace Function

instance (f : Function) : Decidable f.StrictSSA :=
  decidable_of_iff (_ ∧ _ ∧ _) ⟨fun h => ⟨h.1, h.2.1, h.2.2⟩, fun h => ⟨h.1, h.2, h.3⟩⟩

variable {m : Module} {f : Function} {b i j : Nat} {l : Loop} {entry back : Value}

theorem lt_size_of_mem_listed (hi : i ∈ f.listed b) : b < f.blocks.size := by
  by_contra hlt
  rw [listed, Array.getElem?_eq_none (Nat.not_lt.1 hlt)] at hi
  cases hi

/-- A block that dominates a relevant one is relevant. -/
theorem Relevant.of_dominates {c : Nat} (hb : f.Relevant b) (hlt : b < f.cfg.size)
    (h : f.cfg.domTree.dominates c b = true) : f.Relevant c := by
  by_cases hreach : f.cfg.Reaches b
  · exact .inl (((Cfg.dominates_domTree_iff f.closed_cfg hreach).1 h).reaches hreach)
  · exact (Cfg.dominates_domTree_of_not_reaches f.closed_cfg hlt hreach).1 h ▸ hb

namespace StrictSSA

theorem exists_inst (hf : f.StrictSSA) (hi : i ∈ f.listed b) :
    ∃ inst, f.instructions[i]? = some inst ∧ inst.parent = b :=
  Option.map_eq_some_iff.1 (hf.placed b (lt_size_of_mem_listed hi) i hi)

/-- The operands of an instruction that is no phi are listed before it, or in a block that
properly dominates it. -/
theorem operand_before (hf : f.StrictSSA) (hrel : f.Relevant b) (hi : i ∈ f.listed b)
    {op : Operation}
    (hop : f.operation? i = some op) (hphi : ∀ incoming, op ≠ .phi incoming)
    (hj : .instruction j ∈ op.operands) : ∃ c, j ∈ f.listed c ∧
      f.cfg.domTree.dominates c b = true ∧
      (c = b → (f.listed b).idxOf j < (f.listed b).idxOf i) := by
  have hb := lt_size_of_mem_listed hi
  rcases hf.defined b hb hrel i hi op hop (incoming?_eq_none hop hphi) _ hj j rfl with
    hbefore | ⟨d, -, hdom, hd⟩
  · have hlisted : j ∈ f.listed b :=
      List.idxOf_lt_length_iff.1 (hbefore.trans (List.idxOf_lt_length_iff.2 hi))
    have hself := Cfg.dominates_domTree_self f.closed_cfg (f.size_cfg.symm ▸ hb)
    exact ⟨b, hlisted, hself, fun _ => hbefore⟩
  · simp only [DomTree.properlyDominates, Bool.and_eq_true, bne_iff_ne] at hdom
    exact ⟨d, hd, hdom.2, fun heq => absurd heq hdom.1⟩

/-- The two entries of a phi of a loop header: that of `entry` comes from a block outside the loop,
that of `back` from a block inside. There are no others. -/
theorem entries_of_isLoopPhi (hf : f.StrictSSA) (hi : i ∈ f.listed b)
    (h : (Context.ofFunction m f).IsLoopPhi i l entry back) :
    f.cfg.IsHeader b ∧ (∀ c, l.contains c = true ↔ f.cfg.InNaturalLoop b c) ∧
      ∃ p q, b ∈ f.cfg.successors p ∧ ¬ f.cfg.InNaturalLoop b p ∧ f.cfg.InNaturalLoop b q ∧
        (∀ c, b ∈ f.cfg.successors c → c = p ∨ c = q) ∧
        (f.Relevant p → ∀ j, entry = .instruction j →
          ∃ d, f.cfg.domTree.dominates d p = true ∧ j ∈ f.listed d) ∧
        ∀ j, back = .instruction j → ∃ d, f.cfg.domTree.dominates d q = true ∧ j ∈ f.listed d := by
  obtain ⟨inst, incoming, id, hinst, hop, -, hl, hheader, hentry⟩ := h
  obtain ⟨inst', hinst', rfl⟩ := hf.exists_inst hi
  obtain rfl := Option.some.inj (hinst.symm.trans hinst')
  have hmem : l ∈ f.loops.loops.toList := Array.mem_toList_iff.2 (Array.mem_of_getElem? hl)
  have hblocks (c : Nat) : l.contains c = true ↔ f.cfg.InNaturalLoop inst.parent c := by
    rw [contains_iff hmem, hheader]
  have hb : f.cfg.IsHeader l.header :=
    (Cfg.mem_headers_iff f.closed_cfg).1 (List.mem_map_of_mem hmem)
  have hphi : f.incoming? i = some incoming := by
    rw [incoming?, operation?_of_getElem? hinst', hop]
  have hreach : f.cfg.Reaches inst.parent := hheader ▸ hb.1
  obtain ⟨hperm, hvalues⟩ := hf.incoming _ (lt_size_of_mem_listed hi) hreach i hi incoming hphi
  have hdefined : ∀ {c j}, f.Relevant c → (c, .instruction j) ∈ incoming →
      ∃ d, f.cfg.domTree.dominates d c = true ∧ j ∈ f.listed d := by
    intro c j hrel hc
    obtain ⟨d, -, hdom, hd⟩ := hvalues _ hc hrel j rfl
    exact ⟨d, hdom, hd⟩
  obtain ⟨p, q, hp, hq, honly, hout, hin⟩ := exists_of_entryAndBack? hentry
  -- the entries are as many as the edges to the header, so there is no third edge
  have hedge (c : Nat) : inst.parent ∈ f.cfg.successors c ↔ c ∈ incoming.map Prod.fst := by
    rw [hperm.mem_iff, f.closed_cfg.mem_predecessors_iff]
  refine ⟨hheader ▸ hb, hblocks, p, q, ?_, ?_, (hblocks q).1 hin, ?_, ?_, ?_⟩
  · exact (hedge p).2 (List.mem_map_of_mem hp)
  · rw [← hblocks, hout]
    exact Bool.false_ne_true
  · intro c hc
    obtain ⟨y, hy, rfl⟩ := List.mem_map.1 ((hedge c).1 hc)
    exact (honly y hy).imp (congrArg Prod.fst) (congrArg Prod.fst)
  · rintro hrel j rfl
    exact hdefined hrel hp
  · rintro j rfl
    exact hdefined (.inl (((hblocks q).1 hin).reaches (hheader ▸ hb))) hq

/-- What a phi of a loop header gets from inside is defined in a reached block. -/
theorem back_relevant (hf : f.StrictSSA) (hi : i ∈ f.listed b)
    (h : (Context.ofFunction m f).IsLoopPhi i l entry (.instruction j)) :
    ∃ c, f.Relevant c ∧ j ∈ f.listed c := by
  obtain ⟨hb, -, p, q, -, -, hin, -, -, hback⟩ := hf.entries_of_isLoopPhi hi h
  obtain ⟨d, hdom, hd⟩ := hback j rfl
  have hq : f.Relevant q := .inl (hin.reaches hb)
  exact ⟨d, hq.of_dominates (hin.reaches hb).lt_size hdom, hd⟩

/-- What a phi of a loop header starts from is defined in a block that comes earlier. -/
theorem start_earlier (hf : f.StrictSSA) (hi : i ∈ f.listed b)
    (h : (Context.ofFunction m f).IsLoopPhi i l (.instruction j) back) :
    ∃ c, f.Relevant c ∧ j ∈ f.listed c ∧ f.cfg.Earlier c b := by
  obtain ⟨hb, -, p, q, hedge, hout, hin, honly, hentry, -⟩ := hf.entries_of_isLoopPhi hi h
  by_cases hzero : b = 0
  · -- block 0 dominates all reached blocks, so the loop is entered from a block that is not reached
    have hp : ¬ f.cfg.Reaches p := by
      intro hp
      refine hout (Cfg.BackSource.inNaturalLoop ⟨hedge, hp, ?_⟩)
      exact hzero ▸ f.cfg.zero_dominates p
    have hrel : f.Relevant p := .inr (hzero ▸ hedge)
    obtain ⟨d, hdom, hd⟩ := hentry hrel j rfl
    have hlt := Cfg.lt_size_of_mem_successors hedge
    obtain rfl := (Cfg.dominates_domTree_of_not_reaches f.closed_cfg hlt hp).1 hdom
    exact ⟨d, hrel, hd, hb.1, .inl hp⟩
  · -- the only way into the loop is the edge from `p`
    have hdominates : f.cfg.ProperlyDominates p b := by
      refine ⟨fun r hr => (Cfg.arrives_from_source hzero ?_ hr).1, fun heq => hout (.inl heq)⟩
      intro c hc _
      rcases honly c hc with rfl | rfl
      · exact .inl rfl
      · exact .inr hin
    have hp := hdominates.1.reaches hb.1
    obtain ⟨d, hdom, hd⟩ := hentry (.inl hp) j rfl
    have hdp := (Cfg.dominates_domTree_iff f.closed_cfg hp).1 hdom
    exact ⟨d, .inl (hdp.reaches hp), hd, hb.1, .inr (hdp.trans_properly hdominates hb.1)⟩

/-- What a phi of a loop header is moved by is defined in a block that comes earlier, if it is not
computed inside the loop. -/
theorem step_earlier (hf : f.StrictSSA) (hi : i ∈ f.listed b) {k : Nat} {op : Operation}
    (h : (Context.ofFunction m f).IsLoopPhi i l entry (.instruction k))
    (hop : f.operation? k = some op) (hphi : ∀ incoming, op ≠ .phi incoming)
    (hj : .instruction j ∈ op.operands) (hinv : l.isInvariant f (.instruction j) = .ok true) :
    ∃ c, f.Relevant c ∧ j ∈ f.listed c ∧ f.cfg.Earlier c b := by
  obtain ⟨hb, hblocks, p, q, -, -, hin, -, -, hback⟩ := hf.entries_of_isLoopPhi hi h
  have hq := hin.reaches hb
  obtain ⟨d, hdom, hd⟩ := hback k rfl
  have hdq := (Cfg.dominates_domTree_iff f.closed_cfg hq).1 hdom
  have hdreach := hdq.reaches hq
  obtain ⟨c, hc, hcdom, -⟩ := hf.operand_before (.inl hdreach) hd hop hphi hj
  have hcd := (Cfg.dominates_domTree_iff f.closed_cfg hdreach).1 hcdom
  -- `c` dominates a block of the loop from outside, so it dominates the header
  have hout : ¬ f.cfg.InNaturalLoop b c := by
    obtain ⟨inst, hinst, rfl⟩ := hf.exists_inst hc
    rw [← hblocks]
    rw [Loop.isInvariant, Function.instruction, fetch_eq_ok_iff.2 hinst, map_ok] at hinv
    simpa using hinv
  exact ⟨c, .inl (hcd.reaches hdreach), hc, hb.1,
    .inr (hin.properlyDominates_of_outside hb (hcd.trans hdq) hout)⟩

/-- All that an instruction of a relevant block consults is listed before it or in a relevant block
that comes earlier. -/
theorem earlier_of_consults (hf : f.StrictSSA) (hrel : f.Relevant b) (hi : i ∈ f.listed b)
    (h : (Context.ofFunction m f).Consults i (.instruction j)) :
    ∃ c, f.Relevant c ∧ j ∈ f.listed c ∧
      (f.cfg.Earlier c b ∨ c = b ∧ (f.listed b).idxOf j < (f.listed b).idxOf i) := by
  cases h with
  | operand hop hphi hv =>
    obtain ⟨c, hc, hdom, hbefore⟩ := hf.operand_before hrel hi hop hphi hv
    have hb : b < f.cfg.size := f.size_cfg.symm ▸ lt_size_of_mem_listed hi
    have hcrel := hrel.of_dominates hb hdom
    rcases Cfg.eq_or_earlier f.closed_cfg hb hdom with heq | hearlier
    · exact ⟨c, hcrel, hc, .inr ⟨heq, hbefore heq⟩⟩
    · exact ⟨c, hcrel, hc, .inl hearlier⟩
  | start hloop =>
    obtain ⟨c, hcrel, hc, hearlier⟩ := hf.start_earlier hi hloop
    exact ⟨c, hcrel, hc, .inl hearlier⟩
  | step hloop hop hphi hv hinv =>
    obtain ⟨c, hcrel, hc, hearlier⟩ := hf.step_earlier hi hloop hop hphi hv hinv
    exact ⟨c, hcrel, hc, .inl hearlier⟩

/-- Going on from an instruction to what it consults comes to an end. -/
theorem acc_consults (hf : f.StrictSSA) (m : Module) (hrel : f.Relevant b) (hi : i ∈ f.listed b) :
    Acc (fun j i => (Context.ofFunction m f).Consults i (.instruction j)) i := by
  -- the order is that of blocks, and inside a block that of places in its list
  induction b using f.cfg.wellFounded_earlier.induction generalizing i with
  | _ b ih =>
    induction hplace : (f.listed b).idxOf i using Nat.strong_induction_on generalizing i with
    | _ n ihplace =>
      refine Acc.intro i fun j hj => ?_
      obtain ⟨c, hcrel, hc, hearlier | ⟨rfl, hlt⟩⟩ := hf.earlier_of_consults hrel hi hj
      · exact ih c hearlier hcrel hc
      · rw [hplace] at hlt
        exact ihplace _ hlt hc rfl

end StrictSSA

end Function

/-! ## One solution -/

/-- The layout tells the byte offsets of all addresses in relevant blocks: no struct inside of what
they point to contains itself. -/
def Function.Measured (m : Module) (f : Function) : Prop :=
  ∀ b i, f.Relevant b → i ∈ f.listed b → f.Laid m i

theorem Scope.evolution_ne_endless_of_ne_instruction (S : Scope) {v : Value}
    (hv : ∀ i, v ≠ .instruction i) : S.evolution v ≠ .error .endless := by
  cases v with
  | instruction i => exact absurd rfl (hv i)
  | argument n => rintro ⟨⟩
  | constant c => cases c <;> rintro ⟨⟩

/-- A look-up that solves the equations of evolutions finds the evolutions. -/
theorem Function.StrictSSA.coincide_evolution {m : Module} {f : Function} {b i : Nat}
    (hf : f.StrictSSA) (hm : m.Layered) (hlaid : f.Measured m) {find : Context.Lookup}
    (hfixed : ∀ v, (∀ i, v ≠ .instruction i) → find v = (Scope.ofFunction m f).evolution v)
    (hfind : ∀ i inst, f.instructions[i]? = some inst →
      find (.instruction i) = (Context.ofFunction m f).ofInstruction find i inst)
    (hrel : f.Relevant b) (hi : i ∈ f.listed b) :
    Coincide (find (.instruction i)) ((Scope.ofFunction m f).evolution (.instruction i)) := by
  induction hf.acc_consults m hrel hi generalizing b with
  | intro i _ ih =>
    obtain ⟨inst, hinst, -⟩ := hf.exists_inst hi
    have hevolution : (Scope.ofFunction m f).evolution (.instruction i) =
        (Context.ofFunction m f).ofInstruction (Scope.ofFunction m f).evolution i inst :=
      Scope.evolution_instruction hinst
    rw [hfind i inst hinst, hevolution]
    have hback : ∀ l entry j, (Context.ofFunction m f).IsLoopPhi i l entry (.instruction j) →
        f.Laid m j := by
      intro l entry j hloop
      obtain ⟨c, hc, hj⟩ := hf.back_relevant hi hloop
      exact hlaid c j hc hj
    refine Context.coincide_ofInstruction hm hinst (hlaid b i hrel hi) hback fun v hv => ?_
    by_cases hv' : ∃ j, v = .instruction j
    · obtain ⟨j, rfl⟩ := hv'
      obtain ⟨c, hcrel, hc, -⟩ := hf.earlier_of_consults hrel hi hv
      exact ih j hv hcrel hc
    · rw [hfixed v (not_exists.1 hv')]
      exact .self (Scope.evolution_ne_endless_of_ne_instruction _ (not_exists.1 hv'))

theorem Function.StrictSSA.evolution_ne_endless {m : Module} {f : Function} {v : Value}
    (hf : f.StrictSSA) (hm : m.Layered) (hlaid : f.Measured m)
    (hv : ∀ i, v = .instruction i → ∃ b, f.Relevant b ∧ i ∈ f.listed b) :
    (Scope.ofFunction m f).evolution v ≠ .error .endless := by
  by_cases hv' : ∃ i, v = .instruction i
  · obtain ⟨i, rfl⟩ := hv'
    obtain ⟨b, hrel, hi⟩ := hv i rfl
    have hself : Coincide ((Scope.ofFunction m f).evolution (.instruction i)) _ :=
      hf.coincide_evolution hm hlaid (fun _ _ => rfl)
        (fun _ _ hinst => Scope.evolution_instruction hinst) hrel hi
    exact hself.2
  · exact Scope.evolution_ne_endless_of_ne_instruction _ (not_exists.1 hv')

/-- Finding evolutions comes to an end. If definitions come before uses, constant expressions refer
to earlier ones only and no address leads into a struct that contains itself, then going on from an
instruction of a reached block to what its evolution is found from, and from there again, comes to
an end. Arguments, constants and instructions of reached blocks have evolutions unless something
that is referred to is not there, and the evolutions are the only solution of their equations. The
same holds in blocks that lead to the first one. -/
theorem evolutions_terminate (m : Module) (f : Function) (hm : m.Layered) (hlaid : f.Measured m)
    (hf : f.StrictSSA) :
    (∀ b i, f.Relevant b → i ∈ f.listed b →
      Acc (fun j i => (Context.ofFunction m f).Consults i (.instruction j)) i) ∧
    (∀ v, (∀ i, v = .instruction i → ∃ b, f.Relevant b ∧ i ∈ f.listed b) →
      (Scope.ofFunction m f).evolution v ≠ .error .endless) ∧
    ∀ find : Context.Lookup,
      (∀ v, (∀ i, v ≠ .instruction i) → find v = (Scope.ofFunction m f).evolution v) →
      (∀ i inst, f.instructions[i]? = some inst →
        find (.instruction i) = (Context.ofFunction m f).ofInstruction find i inst) →
      ∀ b i, f.Relevant b → i ∈ f.listed b →
        find (.instruction i) = (Scope.ofFunction m f).evolution (.instruction i) := by
  refine ⟨fun b i hrel hi => hf.acc_consults m hrel hi,
    fun v hv => hf.evolution_ne_endless hm hlaid hv, ?_⟩
  intro find hfixed hfind b i hrel hi
  exact (hf.coincide_evolution hm hlaid hfixed hfind hrel hi).1

theorem layered_triangular : triangular.Layered := by
  intro k e j he
  simp [triangular] at he

theorem measured_triangle : triangle.Measured triangular :=
  fun _ i _ _ => triangle.laid_of_nonRecursive (Layout.nonRecursive_of_nil rfl) i

/-- In `triangle` the counters of both loops are computed from themselves, and they are consulted by
what they get from inside the loops, but not the other way round. -/
theorem evolutions_terminate_triangle :
    let C := Context.ofFunction triangular triangle
    let S := Scope.ofFunction triangular triangle
    C.Consults 7 (.instruction 1) ∧ C.Consults 1 (.int 0) ∧
    Acc (fun j i => C.Consults i (.instruction j)) 7 ∧
    S.evolution (.instruction 7) ≠ .error .endless ∧
    S.evolution (.instruction 7) = .ok (.recurrence (.constant 1) [.constant 1] 1) := by
  intro C S
  obtain ⟨hacc, hends, -⟩ := evolutions_terminate triangular triangle layered_triangular
    measured_triangle (by decide +kernel)
  have hloop : C.IsLoopPhi 1 ⟨1, [1, 2, 3], [], [0]⟩ (.int 0) (.instruction 7) :=
    ⟨⟨1, .int 32, some "i", .phi [(0, .int 0), (3, .instruction 7)]⟩, _, 1, rfl, rfl, by decide,
      by decide, rfl, by decide⟩
  have hreached : triangle.Relevant 3 := by decide
  have hsum : triangle.operation? 7 = some (.binary .add (.instruction 1) (.int 1)) := rfl
  refine ⟨.operand hsum (by simp) List.mem_cons_self, .start hloop,
    hacc 3 7 hreached (by decide), ?_, by decide +kernel⟩
  refine hends (.instruction 7) fun i hi => ?_
  cases hi
  exact ⟨3, hreached, by decide⟩

/-- A function that takes the address of one element. -/
def addressOf (type : Ty) (base : Value) (indices : List Value) : Function where
  name := "address"
  params := #[⟨"p", type⟩]
  blocks := #[⟨"entry", [0, 1]⟩]
  instructions := #[⟨0, type, none, .element base indices⟩, ⟨0, .void, none, .ret none⟩]

/-- A module with a constant expression that refers to itself. -/
def selfReferring : Module where
  name := "expressions"
  constantExprs := #[⟨.element, [.constant (.expr 0), .int 0]⟩]

/-- Neither the address of a struct in itself nor one that starts from a constant expression which
refers to itself is ever found, though definitions come before uses. -/
theorem endless_addresses :
    let inner := addressOf (.pointerTo (.struct "cell")) (.argument 0) [.int 0, .int 1]
    let circular := addressOf (.pointerTo .word) (.constant (.expr 0)) [.int 0]
    (inner.StrictSSA ∧ Scope.selfNested.Layered ∧ inner.cfg.Reaches 0 ∧ 0 ∈ inner.listed 0 ∧
      (Scope.ofFunction Scope.selfNested inner).evolution (.instruction 0) = .error .endless) ∧
    circular.StrictSSA ∧ circular.Measured selfReferring ∧ circular.cfg.Reaches 0 ∧
      0 ∈ circular.listed 0 ∧
      (Scope.ofFunction selfReferring circular).evolution (.instruction 0) = .error .endless := by
  refine ⟨⟨by decide +kernel, ?_, by decide, by decide, by decide +kernel⟩, by decide +kernel, ?_,
    by decide, by decide, by decide +kernel⟩
  · intro k e j he
    simp [Scope.selfNested] at he
  · exact fun _ i _ _ => Function.laid_of_nonRecursive (Layout.nonRecursive_of_nil rfl) _ i

end GridAccess
