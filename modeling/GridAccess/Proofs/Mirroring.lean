import GridAccess.Proofs.Agreement

set_option autoImplicit false

/-!
# Mirrored comparisons

A comparison can be written in two ways: `a < b` and `b > a`. Mirroring turns one into the other
and leaves everything else in a function as it is. Control flow, loops, types and invariance do
not look at comparisons, so they stay the same (`Function.cfg_mirror`, `Context.agrees_mirror`).
The evolutions of values look at a comparison only where a `select` chooses one of its sides, and
give the same answer for both ways if the sides are different values (`Context.evolutions_mirror`).
The number of rounds of a loop is found by putting the counter on the left, so it is the same as
well (`Scope.tripCount_mirror`, `Scope.loopHead_mirror_iff`).
-/

namespace GridAccess

namespace Predicate

@[simp]
theorem swapped_swapped (p : Predicate) : p.swapped.swapped = p := by cases p <;> rfl

@[simp]
theorem inverse_swapped (p : Predicate) : p.swapped.inverse = p.inverse.swapped := by
  cases p <;> rfl

end Predicate

/-! ## Mirroring -/

/-- A comparison with its sides exchanged. Any other operation stays as it is. -/
def Operation.mirror : Operation → Operation
  | compare pred lhs rhs => compare pred.swapped rhs lhs
  | op => op

/-- The instruction, its comparison mirrored. -/
def Instruction.mirror (inst : Instruction) : Instruction :=
  { inst with operation := inst.operation.mirror }

/-- The function, the comparison of instruction `i` mirrored. -/
def Function.mirror (f : Function) (i : Nat) : Function :=
  { f with instructions := f.instructions.modify i Instruction.mirror }

/-- The module, the comparison of instruction `i` of function number `index` mirrored. -/
def Module.mirror (m : Module) (index i : Nat) : Module :=
  { m with functions := m.functions.modify index (·.mirror i) }

/-- The context of the mirrored function. -/
def Context.mirror (C : Context) (index i : Nat) : Context :=
  { C with module := C.module.mirror index i, function := C.function.mirror i }

/-- The comparison with its sides exchanged. -/
def Context.Comparison.mirror (c : Context.Comparison) : Context.Comparison :=
  ⟨c.pred.swapped, c.rhs, c.lhs⟩

section Modify

variable {α β : Type} {g : α → α} (xs : Array α) (i j : Nat)

theorem modify_modify (hg : Function.Involutive g) : (xs.modify i g).modify i g = xs := by
  refine Array.ext_getElem? fun j => ?_
  rw [Array.getElem?_modify, Array.getElem?_modify]
  split
  · rw [Option.map_map, hg.comp_self, Option.map_id_fun, id]
  · rfl

theorem getElem?_modify (g : α → α) :
    (xs.modify i g)[j]? = xs[j]?.map fun a => if i = j then g a else a := by
  rw [Array.getElem?_modify]
  split
  · rfl
  · exact Option.map_id'.symm

theorem fetch_modify (g : α → α) :
    fetch (xs.modify i g) j = (fun a => if i = j then g a else a) <$> fetch xs j := by
  rw [fetch, fetch, getElem?_modify]
  cases xs[j]? <;> rfl

/-- What does not look at the change is the same. -/
theorem map_fetch_modify {k : α → β} (hk : ∀ a, k (g a) = k a) :
    k <$> fetch (xs.modify i g) j = k <$> fetch xs j := by
  rw [fetch_modify]
  cases fetch xs j with
  | error e => rfl
  | ok a =>
    refine congrArg Except.ok ?_
    show k (if i = j then g a else a) = k a
    split
    · exact hk a
    · rfl

end Modify

/-! ## Functions -/

namespace Operation

theorem isTerminator_mirror (op : Operation) : op.mirror.isTerminator = op.isTerminator := by
  cases op <;> rfl

theorem mirror_of_isTerminator {op : Operation} (h : op.isTerminator = true) :
    op.mirror = op := by
  cases op with
  | compare pred lhs rhs => cases h
  | _ => rfl

end Operation

namespace Function

variable {α : Type} (f : Function) (i : Nat)

theorem getElem?_mirror (j : Nat) : (f.mirror i).instructions[j]? =
    f.instructions[j]?.map fun inst => if i = j then inst.mirror else inst :=
  getElem?_modify f.instructions i j Instruction.mirror

theorem instruction_mirror (j : Nat) : (f.mirror i).instruction j =
    (fun inst => if i = j then inst.mirror else inst) <$> f.instruction j :=
  fetch_modify f.instructions i j Instruction.mirror

/-- What does not look at the operation of an instruction is the same. -/
theorem map_instruction_mirror {k : Instruction → α} (hk : ∀ inst, k inst.mirror = k inst)
    (j : Nat) : k <$> (f.mirror i).instruction j = k <$> f.instruction j :=
  map_fetch_modify f.instructions i j hk

theorem definition_mirror (v : Value) : (f.mirror i).definition v =
    (Option.map fun inst => if v = .instruction i then inst.mirror else inst) <$>
      f.definition v := by
  cases v with
  | instruction j =>
    rw [definition, definition, instruction_mirror]
    cases f.instruction j with
    | error e => rfl
    | ok inst => simp [eq_comm]
  | _ => rfl

theorem valueName_mirror : (f.mirror i).valueName = f.valueName := by
  funext v
  cases v with
  | instruction j => exact f.map_instruction_mirror i (fun _ => rfl) j
  | _ => rfl

theorem terminator?_mirror : (f.mirror i).terminator? = f.terminator? := by
  funext b
  let ending (inst : Instruction) : Option Operation :=
    if inst.operation.isTerminator then some inst.operation else none
  have hending : ∀ inst, ending inst.mirror = ending inst := by
    intro inst
    simp only [ending, Instruction.mirror, Operation.isTerminator_mirror]
    -- a comparison ends no block
    split
    · rename_i hterm
      rw [Operation.mirror_of_isTerminator hterm]
    · rfl
  have hlast : ∀ j : Nat, (f.mirror i).instructions[j]?.bind ending =
      f.instructions[j]?.bind ending := by
    intro j
    rw [getElem?_mirror]
    cases f.instructions[j]? with
    | none => rfl
    | some inst =>
      show ending (if i = j then inst.mirror else inst) = ending inst
      split
      · exact hending inst
      · rfl
  exact congrArg _ (funext fun block => congrArg _ (funext hlast))

theorem cfg_mirror : (f.mirror i).cfg = f.cfg := by
  have htargets : (f.mirror i).targetsOf = f.targetsOf := by
    funext b
    rw [targetsOf, targetsOf, terminator?_mirror]
  rw [cfg, cfg, htargets]
  rfl

theorem isInvariant_mirror (l : Loop) : l.isInvariant (f.mirror i) = l.isInvariant f := by
  funext v
  cases v with
  | instruction j => exact f.map_instruction_mirror i (fun _ => rfl) j
  | _ => rfl

end Function

namespace Context

variable (C : Context) (index i : Nat)

theorem ofFunction_mirror (m : Module) (f : Function) :
    ofFunction (m.mirror index i) (f.mirror i) = (ofFunction m f).mirror index i := by
  rw [ofFunction, ofFunction, mirror, f.cfg_mirror]

@[simp]
theorem mirror_function : (C.mirror index i).function = C.function.mirror i := rfl

@[simp]
theorem mirror_cfg : (C.mirror index i).cfg = C.cfg := rfl

/-- No more than the sides of comparisons has changed. -/
theorem agrees_mirror : C.Agrees (C.mirror index i) where
  forest := rfl
  outside l v := congrFun (C.function.isInvariant_mirror i l) v
  layout := rfl
  typeOf := Module.typeOf_congr rfl rfl rfl rfl (C.function.map_instruction_mirror i fun _ => rfl)

/-! ## Comparisons -/

/-- The comparison of instruction `i` is mirrored, and no other. -/
theorem comparison?_mirror (v : Value) : (C.mirror index i).comparison? v =
    (fun c => if v = .instruction i then c.map Comparison.mirror else c) <$> C.comparison? v := by
  rw [comparison?, comparison?, mirror_function, Function.definition_mirror]
  cases C.function.definition v with
  | error e => rfl
  | ok o =>
    cases o with
    | none => simp
    | some inst =>
      obtain ⟨parent, type, name, op⟩ := inst
      by_cases hv : v = .instruction i
      · simp only [hv, if_true]
        cases op <;> rfl
      · simp only [hv, if_false]
        cases op <;> rfl

/-- The sides of the comparison of instruction `i` are different values. -/
def DistinctSides (C : Context) (i : Nat) : Prop :=
  ∀ c, C.comparison? (.instruction i) = .ok (some c) → c.lhs ≠ c.rhs

/-! ## Evolutions of values -/

variable {C} {i} (find : Lookup)

/-- A `select` chooses the same side. -/
theorem ofSelect_mirror (hsides : C.DistinctSides i) :
    (C.mirror index i).ofSelect find = C.ofSelect find := by
  funext cond onTrue onFalse
  rw [ofSelect, ofSelect, comparison?_mirror]
  cases hc : C.comparison? cond with
  | error e => rfl
  | ok o =>
    cases o with
    | none => split <;> rfl
    | some c =>
      split
      · rename_i hcond
        subst hcond
        have hne := hsides c hc
        have hpred : (if onTrue = c.mirror.lhs ∧ onFalse = c.mirror.rhs then some c.mirror.pred
            else if onTrue = c.mirror.rhs ∧ onFalse = c.mirror.lhs then some c.mirror.pred.swapped
            else none) =
            (if onTrue = c.lhs ∧ onFalse = c.rhs then some c.pred
            else if onTrue = c.rhs ∧ onFalse = c.lhs then some c.pred.swapped else none) := by
          simp only [Comparison.mirror, Predicate.swapped_swapped]
          grind
        simp only [Functor.map, Except.map, bind, Except.bind, Option.map_some]
        rw [hpred]
      · rfl

theorem increment?_mirror : (C.mirror index i).increment? find = C.increment? find := by
  have hagrees := C.agrees_mirror index i
  funext l phi back
  rw [increment?, increment?, hagrees.allOutside, hagrees.elementOffsets, hagrees.sum,
    hagrees.negate, mirror_function, Function.definition_mirror, Function.isInvariant_mirror]
  cases C.function.definition back with
  | error e => rfl
  | ok o =>
    cases o with
    | none => rfl
    | some inst =>
      obtain ⟨parent, type, name, op⟩ := inst
      by_cases hback : back = .instruction i
      · simp only [hback, if_true]
        cases op <;> rfl
      · simp only [hback, if_false]
        rfl

theorem ofPhi_mirror : (C.mirror index i).ofPhi find = C.ofPhi find := by
  funext phi b incoming
  rw [ofPhi, ofPhi, increment?_mirror]
  rfl

theorem ofInstruction_mirror (hsides : C.DistinctSides i) (j : Nat) (inst : Instruction) :
    (C.mirror index i).ofInstruction find j inst = C.ofInstruction find j inst := by
  have hagrees := C.agrees_mirror index i
  rw [ofInstruction, ofInstruction, hagrees.ofBinary, hagrees.ofElement,
    ofSelect_mirror _ _ hsides, ofPhi_mirror]

theorem ofInstruction_mirror_operation (j : Nat) (inst : Instruction) :
    C.ofInstruction find j inst.mirror = C.ofInstruction find j inst := by
  obtain ⟨parent, type, name, op⟩ := inst
  cases op <;> rfl

theorem round_mirror (hsides : C.DistinctSides i) : (C.mirror index i).round = C.round := by
  funext t
  refine Array.ext_getElem? fun j => ?_
  rw [round, round, Array.getElem?_mapIdx, Array.getElem?_mapIdx, mirror_function,
    Function.getElem?_mirror, Option.map_map]
  congr 1
  funext inst
  simp only [Function.comp_apply, ofInstruction_mirror _ _ hsides]
  split
  · exact ofInstruction_mirror_operation _ j inst
  · rfl

theorem settle_mirror (hsides : C.DistinctSides i) (rounds : Nat) :
    (C.mirror index i).settle rounds = C.settle rounds := by
  induction rounds with
  | zero => rfl
  | succ rounds ih =>
    funext t
    rw [settle, settle, ih, round_mirror _ hsides]

theorem evolutions_mirror (hsides : C.DistinctSides i) :
    (C.mirror index i).evolutions = C.evolutions := by
  have hsize : (C.mirror index i).function.instructions.size = C.function.instructions.size :=
    Array.size_modify
  rw [evolutions, evolutions, settle_mirror _ hsides, hsize]

/-! ## The end of a loop -/

theorem latchBranch?_mirror (l : Loop) :
    (C.mirror index i).latchBranch? l = C.latchBranch? l := by
  rw [latchBranch?, latchBranch?, mirror_function, Function.terminator?_mirror, mirror_cfg]

/-- The comparison on which a loop goes on is the one that its closing branch depends on, inverted
if the loop goes on when that has the answer false; the side of the branch with this answer is in
the loop, the other side is not. -/
theorem branch_of_continuation? {l : Loop} {c : Comparison}
    (h : C.continuation? l = .ok (some c)) :
    ∃ (cond : Value) (onTrue onFalse : Nat) (answer : Bool) (compared : Comparison),
      C.latchBranch? l = some (.branchIf cond onTrue onFalse) ∧
      C.comparison? cond = .ok (some compared) ∧
      c = { compared with pred := if answer then compared.pred else compared.pred.inverse } ∧
      (if answer then onTrue else onFalse) ∈ l.blocks ∧
      (if answer then onFalse else onTrue) ∉ l.blocks := by
  rw [continuation?] at h
  split at h
  · rename_i cond onTrue onFalse hbranch
    split at h
    · rename_i htrue hfalse
      refine ⟨cond, onTrue, onFalse, true, c, hbranch, h, rfl, ?_, ?_⟩
      · simpa [Loop.contains] using htrue
      · simpa [Loop.contains] using hfalse
    · rename_i htrue hfalse
      obtain ⟨o, hcompared, ho⟩ := map_eq_ok_iff.1 h
      obtain ⟨compared, rfl, rfl⟩ := Option.map_eq_some_iff.1 ho
      refine ⟨cond, onTrue, onFalse, false, compared, hbranch, hcompared, rfl, ?_, ?_⟩
      · simpa [Loop.contains] using hfalse
      · simpa [Loop.contains] using htrue
    · cases h
  · cases h

/-- The comparison on which a loop goes on has the sides of the one that its closing branch
depends on. -/
theorem sides_of_continuation? {l : Loop} {cond : Value} {onTrue onFalse : Nat} {c : Comparison}
    (hbranch : C.latchBranch? l = some (.branchIf cond onTrue onFalse))
    (h : C.continuation? l = .ok (some c)) :
    ∃ c', C.comparison? cond = .ok (some c') ∧ c'.lhs = c.lhs ∧ c'.rhs = c.rhs := by
  obtain ⟨_, _, _, _, c', hbranch', hc', rfl, -⟩ := branch_of_continuation? h
  cases hbranch.symm.trans hbranch'
  exact ⟨c', hc', rfl, rfl⟩

/-- The comparison on which a loop goes on is the same, or it is that of instruction `i`, and
then mirrored. -/
theorem continuation?_mirror (l : Loop) :
    (C.mirror index i).continuation? l = C.continuation? l ∨
    (C.mirror index i).continuation? l = Option.map Comparison.mirror <$> C.continuation? l ∧
      ∀ c, C.continuation? l = .ok (some c) → ∃ c', C.comparison? (.instruction i) = .ok (some c') ∧
        c'.lhs = c.lhs ∧ c'.rhs = c.rhs := by
  cases hbranch : C.latchBranch? l with
  | none => exact .inl (by rw [continuation?, continuation?, latchBranch?_mirror, hbranch])
  | some op =>
    cases op with
    | branchIf cond onTrue onFalse =>
      by_cases hcond : cond = .instruction i
      · subst hcond
        refine .inr ⟨?_, fun c => sides_of_continuation? hbranch⟩
        simp only [continuation?, latchBranch?_mirror, hbranch, comparison?_mirror, if_true]
        -- mirroring a comparison and inverting it can be done in either order
        cases C.comparison? (.instruction i) with
        | error e => cases l.contains onTrue <;> cases l.contains onFalse <;> rfl
        | ok c =>
          cases l.contains onTrue <;> cases l.contains onFalse <;> cases c <;>
            simp [Comparison.mirror]
      · refine .inl ?_
        simp only [continuation?, latchBranch?_mirror, hbranch, comparison?_mirror, hcond, if_false,
          id_map']
    | _ => exact .inl (by rw [continuation?, continuation?, latchBranch?_mirror, hbranch])

end Context

namespace Scope

variable {S : Scope} {i l : Nat} (index : Nat)

/-- The scope of the mirrored function. -/
def mirror (S : Scope) (index i : Nat) : Scope :=
  { toContext := S.toContext.mirror index i, evolutions := S.evolutions }

theorem ofFunction_mirror {m : Module} {f : Function}
    (hsides : (Context.ofFunction m f).DistinctSides i) :
    ofFunction (m.mirror index i) (f.mirror i) = (ofFunction m f).mirror index i := by
  rw [ofFunction, ofFunction, ofContext, ofContext, Context.ofFunction_mirror, mirror,
    Context.evolutions_mirror _ hsides]

theorem evolution_mirror : (S.mirror index i).evolution = S.evolution := rfl

theorem isInvariant_mirror : (S.mirror index i).isInvariant = S.isInvariant :=
  funext fun l => funext ((S.toContext.agrees_mirror index i).isInvariant l)

/-! ## The number of rounds -/

theorem isInvariant_of_counterStart? {C : Context} {e start : Evolution}
    (h : e.counterStart? l = some start) : C.isInvariant l e = .ok false := by
  rw [Evolution.counterStart?.eq_def] at h
  split at h
  · split at h
    · rename_i hk
      rw [Context.isInvariant, if_pos hk]
    · cases h
  · cases h

/-- It does not matter on which side the counter stands. -/
theorem countedExit?_swapped (S : Scope) (l : Nat) (pred : Predicate) (lhs rhs : Evolution) :
    S.countedExit? l pred.swapped rhs lhs = S.countedExit? l pred lhs rhs := by
  rw [countedExit?, countedExit?, Predicate.swapped_swapped]
  cases hl : lhs.counterStart? l with
  | none =>
    cases rhs.counterStart? l with
    | none => rfl
    | some start =>
      cases S.isInvariant l lhs with
      | error e => rfl
      | ok invariant => cases invariant <;> rfl
  | some start =>
    cases hr : rhs.counterStart? l with
    | none =>
      cases S.isInvariant l rhs with
      | error e => rfl
      | ok invariant => cases invariant <;> rfl
    | some start' =>
      -- neither of two counters of the loop is a bound for the other
      rw [isInvariant_of_counterStart? hl, isInvariant_of_counterStart? hr]
      rfl

/-- The number of rounds of a loop that goes on as long as the comparison holds. -/
def roundsBy (S : Scope) (l : Nat) (c : Context.Comparison) : Except Fault Evolution := do
  let lhs ← S.evolution c.lhs
  let rhs ← S.evolution c.rhs
  let exit ← S.countedExit? l c.pred lhs rhs
  exit.elim (pure .indeterminate) S.roundsUntil

theorem tripCount_eq {loop : Loop} (hloop : S.forest.loop l = .ok loop) : S.tripCount l =
    S.continuation? loop >>= fun c => c.elim (pure .indeterminate) (S.roundsBy l) := by
  rw [tripCount, hloop, ok_bind]
  refine congrArg _ (funext fun c => ?_)
  cases c with
  | none => rfl
  | some c =>
    simp only [Option.elim_some, roundsBy]
    refine congrArg _ (funext fun lhs => congrArg _ (funext fun rhs => congrArg _ (funext ?_)))
    intro exit
    cases exit <;> rfl

theorem roundsBy_mirror : (S.mirror index i).roundsBy l = S.roundsBy l := by
  have hexit : (S.mirror index i).countedExit? l = S.countedExit? l := by
    funext pred lhs rhs
    rw [countedExit?, countedExit?, isInvariant_mirror]
  have hrounds : (S.mirror index i).roundsUntil = S.roundsUntil := by
    funext exit
    have hsum : (S.mirror index i).sum = S.sum := (S.toContext.agrees_mirror index i).sum
    have hdifference : (S.mirror index i).difference = S.difference :=
      (S.toContext.agrees_mirror index i).difference
    rw [roundsUntil, roundsUntil, hsum, hdifference]
  funext c
  rw [roundsBy, roundsBy, hexit, hrounds, evolution_mirror]

/-- Both sides of a comparison have evolutions. -/
def Sided (S : Scope) (c : Context.Comparison) : Prop :=
  ∃ x y, S.evolution c.lhs = .ok x ∧ S.evolution c.rhs = .ok y

/-- The number of rounds does not depend on how the comparison is written. -/
theorem roundsBy_mirror_comparison {c : Context.Comparison} (hsided : S.Sided c) :
    S.roundsBy l c.mirror = S.roundsBy l c := by
  obtain ⟨x, y, hx, hy⟩ := hsided
  simp only [roundsBy, Context.Comparison.mirror, hx, hy, ok_bind, countedExit?_swapped]

theorem sided_of_roundsBy {c : Context.Comparison} {count : Evolution}
    (h : S.roundsBy l c = .ok count) : S.Sided c := by
  obtain ⟨x, hx, h⟩ := bind_eq_ok_iff.1 h
  obtain ⟨y, hy, -⟩ := bind_eq_ok_iff.1 h
  exact ⟨x, y, hx, hy⟩

/-- The rounds of a loop are the same if the sides of the comparison on which the loop goes on
have evolutions, should it be the one that is mirrored. -/
theorem tripCount_mirror_of_sided {loop : Loop} (hloop : S.forest.loop l = .ok loop)
    (hsided : ∀ c c', S.continuation? loop = .ok (some c) →
      S.comparison? (.instruction i) = .ok (some c') → c'.lhs = c.lhs → c'.rhs = c.rhs →
        S.Sided c) :
    (S.mirror index i).tripCount l = S.tripCount l := by
  have hloop' : (S.mirror index i).forest.loop l = .ok loop := hloop
  rw [tripCount_eq hloop, tripCount_eq hloop', roundsBy_mirror]
  rcases S.toContext.continuation?_mirror index (i := i) loop with heq | ⟨heq, hsides⟩
  · exact congrArg (· >>= fun c => c.elim (pure .indeterminate) (S.roundsBy l)) heq
  · have heq : (S.mirror index i).continuation? loop =
        Option.map Context.Comparison.mirror <$> S.continuation? loop := heq
    rw [heq]
    cases hc : S.continuation? loop with
    | error e => rfl
    | ok o =>
      cases o with
      | none => rfl
      | some c =>
        obtain ⟨c', hc', hlhs, hrhs⟩ := hsides c hc
        exact roundsBy_mirror_comparison (hsided c c' hc hc' hlhs hrhs)

/-- The number of rounds of a loop, where it is known, does not depend on how a comparison is
written. -/
theorem tripCount_mirror_of_ok {count : Evolution} (h : S.tripCount l = .ok count) :
    (S.mirror index i).tripCount l = .ok count := by
  obtain ⟨loop, hloop, -⟩ := bind_eq_ok_iff.1 h
  rw [tripCount_mirror_of_sided index hloop, h]
  intro c c' hc _ _ _
  rw [tripCount_eq hloop, hc] at h
  exact sided_of_roundsBy h

theorem tripCount_mirror (hsided : ∀ c, S.comparison? (.instruction i) = .ok (some c) → S.Sided c)
    (l : Nat) : (S.mirror index i).tripCount l = S.tripCount l := by
  cases hloop : S.forest.loop l with
  | error e =>
    have hloop' : (S.mirror index i).forest.loop l = .error e := hloop
    rw [tripCount, tripCount, hloop, hloop', error_bind, error_bind]
  | ok loop =>
    refine tripCount_mirror_of_sided index hloop fun c c' _ hc' hlhs hrhs => ?_
    obtain ⟨x, y, hx, hy⟩ := hsided c' hc'
    exact ⟨x, y, hlhs ▸ hx, hrhs ▸ hy⟩

/-! ## Heads of loops -/

theorem loopHead_mirror_of_tripCount (h : (S.mirror index i).tripCount l = S.tripCount l) :
    (S.mirror index i).loopHead l = S.loopHead l := by
  rw [loopHead, loopHead, hasInvariantTripCount, hasInvariantTripCount, h, isInvariant_mirror]
  rfl

theorem loopHead_mirror (hsided : ∀ c, S.comparison? (.instruction i) = .ok (some c) → S.Sided c) :
    (S.mirror index i).loopHead = S.loopHead :=
  funext fun l => loopHead_mirror_of_tripCount index (tripCount_mirror index hsided l)

theorem loopHead_mirror_of_ok {head : LoopHead} (h : S.loopHead l = .ok head) :
    (S.mirror index i).loopHead l = .ok head := by
  -- the head is known only together with the number of rounds
  obtain ⟨loop, -, hhead⟩ := bind_eq_ok_iff.1 h
  obtain ⟨known, hknown, -⟩ := bind_eq_ok_iff.1 hhead
  obtain ⟨count, hcount, -⟩ := bind_eq_ok_iff.1 hknown
  have htrip : (S.mirror index i).tripCount l = S.tripCount l :=
    (tripCount_mirror_of_ok index hcount).trans hcount.symm
  rw [loopHead_mirror_of_tripCount index htrip, h]

theorem mirror_mirror (S : Scope) (index i : Nat) : (S.mirror index i).mirror index i = S := by
  have hinst : Function.Involutive Instruction.mirror := by
    rintro ⟨parent, type, name, op⟩
    cases op <;> simp [Instruction.mirror, Operation.mirror]
  have hfunction : Function.Involutive fun f : Function => f.mirror i := by
    intro f
    simp only [Function.mirror, modify_modify _ _ hinst]
  have hmodule : (S.module.mirror index i).mirror index i = S.module := by
    simp only [Module.mirror, modify_modify _ _ hfunction]
  have hfun : (S.function.mirror i).mirror i = S.function := hfunction S.function
  show Scope.mk ⟨(S.module.mirror index i).mirror index i, (S.function.mirror i).mirror i, S.cfg,
    S.forest⟩ S.evolutions = S
  rw [hmodule, hfun]

/-- Whether the number of rounds of a loop is known, and what it is, does not depend on how a
comparison is written. -/
theorem loopHead_mirror_iff {head : LoopHead} :
    (S.mirror index i).loopHead l = .ok head ↔ S.loopHead l = .ok head := by
  constructor
  · intro h
    rw [← S.mirror_mirror index i]
    exact loopHead_mirror_of_ok index h
  · exact loopHead_mirror_of_ok index

end Scope

end GridAccess
