import GridAccess.Proofs.Agreement
import GridAccess.Proofs.Marks
import GridAccess.Proofs.Valuation

set_option autoImplicit false

/-!
# Formulas written side by side

Two writers are alike (`Writer.Alike`) if their functions have the same parameters and names, their
modules resemble each other, and what a register marks for one of them is related to what it marks
for the other. The relation must carry over from the parts of a computation to the whole
(`Additive`).

As long as they meet the same instructions, such writers write the same formula or fail alike, and
what they have marked is related (`Writer.Alike.ofValue`, `Writer.ofEvolutionWith_related`). For the
same function in modules that resemble each other this holds of every evolution
(`Writer.Alike.ofEvolution`).

The formula of an evolution is put together in the same way whatever two computations are compared
by. What is asked of the comparison is that it carries over from the steps of computations to the
whole (`Marked.Congruence`, `Writer.ofEvolutionWith_congr`).
-/

namespace GridAccess

/-- The relation holds of what two computations mark if it holds of what their parts mark. -/
structure Additive (R : AxisSet → AxisSet → Prop) : Prop where
  empty : R .empty .empty
  union {s t s' t' : AxisSet} : R s t → R s' t' → R (s.union s') (t.union t')

theorem additive_eq : Additive Eq := ⟨rfl, fun h h' => by rw [h, h']⟩

/-! ## Computations -/

namespace Marked

variable {R : AxisSet → AxisSet → Prop} {α β : Type}

/-- Two computations have the same result or fail alike, and their marks are related. -/
structure Related (R : AxisSet → AxisSet → Prop) (x y : Marked α) : Prop where
  result : x.result = y.result
  axes : R x.axes y.axes

namespace Related

theorem eq {x y : Marked α} (h : Related Eq x y) : x = y := by
  obtain ⟨result, axes⟩ := x
  obtain ⟨result', axes'⟩ := y
  obtain rfl : result = result' := h.result
  obtain rfl : axes = axes' := h.axes
  rfl

theorem of_eq {x y : Marked α} (h : x = y) : Related Eq x y := ⟨h ▸ rfl, h ▸ rfl⟩

variable (hR : Additive R)

include hR

/-- A computation that marks nothing is related to itself. -/
theorem unmarked (result : Except (Failure AnalysisError) α) :
    Related R { result := result } { result := result } :=
  ⟨rfl, hR.empty⟩

theorem pure (a : α) : Related R (Pure.pure a : Marked α) (Pure.pure a) := unmarked hR _

theorem bind {x y : Marked α} {g k : α → Marked β} (hxy : Related R x y)
    (hgk : ∀ a, x.result = .ok a → Related R (g a) (k a)) : Related R (x >>= g) (y >>= k) := by
  rw [bind_def, bind_def, Marked.bind, Marked.bind, ← hxy.result]
  cases hx : x.result with
  | error e => exact ⟨rfl, hxy.axes⟩
  | ok a => exact ⟨(hgk a hx).result, hR.union hxy.axes (hgk a hx).axes⟩

theorem bind_pure {x y : Marked α} (hxy : Related R x y) (g : α → β) :
    Related R (x >>= fun a => Pure.pure (g a)) (y >>= fun a => Pure.pure (g a)) :=
  bind hR hxy fun a _ => pure hR (g a)

theorem lift_bind {r : Except Fault α} {g k : α → Marked β}
    (hgk : ∀ a, r = .ok a → Related R (g a) (k a)) :
    Related R (lift r >>= g) (lift r >>= k) :=
  bind hR (unmarked hR _) fun a ha => hgk a (Failure.lift_eq_ok_iff.1 ha)

theorem mapM {g k : α → Marked β} (as : List α) (hgk : ∀ a ∈ as, Related R (g a) (k a)) :
    Related R (as.mapM g) (as.mapM k) := by
  induction as with
  | nil => exact pure hR []
  | cons a as ih =>
    rw [List.mapM_cons, List.mapM_cons]
    apply bind hR (hgk a List.mem_cons_self)
    intro b _
    apply bind_pure hR
    apply ih
    intro a' ha'
    exact hgk a' (List.mem_cons_of_mem a ha')

end Related

/-- A comparison of computations that carries over from their steps to the whole. -/
structure Congruence (T : {α : Type} → Marked α → Marked α → Prop) : Prop where
  unmarked : ∀ {α : Type} (result : Except (Failure AnalysisError) α),
    T { result := result } { result := result }
  bind : ∀ {α β : Type} {x y : Marked α} {g k : α → Marked β}, T x y →
    (∀ a, x.result = .ok a → T (g a) (k a)) → T (x >>= g) (y >>= k)

theorem Related.congruence (hR : Additive R) : Congruence (Related R) := ⟨unmarked hR, bind hR⟩

theorem Congruence.bind_pure {T : {α : Type} → Marked α → Marked α → Prop} (hT : Congruence T)
    {x y : Marked α} (hxy : T x y) (g : α → β) :
    T (x >>= fun a => Pure.pure (g a)) (y >>= fun a => Pure.pure (g a)) :=
  hT.bind hxy fun _ _ => hT.unmarked _

end Marked

/-! ## Functions that are called -/

/-- Modules that resemble each other have the same functions, apart from their bodies. -/
theorem Module.Resembles.fetch_cases {m m' : Module} (hm : m.Resembles m') (i : Nat) :
    (∃ e, fetch m.functions i = .error e ∧ fetch m'.functions i = .error e) ∨
    ∃ f f', fetch m.functions i = .ok f ∧ fetch m'.functions i = .ok f' ∧
      f.declared = f'.declared := by
  have hdeclared : m'.functions[i]?.map Function.declared = m.functions[i]?.map Function.declared := by
    rw [← Array.getElem?_map, ← Array.getElem?_map, hm.declared]
  cases hf : m.functions[i]? with
  | none =>
    rw [hf, Option.map_none, Option.map_eq_none_iff] at hdeclared
    exact .inl ⟨.dangling, by rw [fetch, hf], by rw [fetch, hdeclared]⟩
  | some f =>
    rw [hf, Option.map_some, Option.map_eq_some_iff] at hdeclared
    obtain ⟨f', hf', heq⟩ := hdeclared
    exact .inr ⟨f, f', fetch_eq_ok_iff.2 hf, fetch_eq_ok_iff.2 hf', heq.symm⟩

/-- What looks at no body is the same in modules that resemble each other. -/
theorem Module.Resembles.fetch_bind {m m' : Module} (hm : m.Resembles m') {α : Type}
    {k : Function → Except Fault α} (hk : ∀ f, k f.declared = k f) (i : Nat) :
    fetch m'.functions i >>= k = fetch m.functions i >>= k := by
  rcases hm.fetch_cases i with ⟨e, hf, hf'⟩ | ⟨f, f', hf, hf', heq⟩
  · rw [hf, hf']
  · rw [hf, hf', ok_bind, ok_bind, ← hk f, ← hk f', heq]

theorem Module.Resembles.callee_bind {m m' : Module} (hm : m.Resembles m') {α : Type}
    {k : Option Function → Except Fault α} (hk : ∀ f, k (some f.declared) = k (some f))
    (inst : Instruction) : m'.callee inst >>= k = m.callee inst >>= k := by
  rw [callee, callee]
  cases inst.operation with
  | call place args =>
    simp only [map_eq_pure_bind, bind_assoc]
    exact hm.fetch_bind hk place
  | _ => rfl

namespace Writer

variable {R : AxisSet → AxisSet → Prop} {W V : Writer}

/-- Two writers know the same, apart from the bodies of functions, and mark registers in related
ways. -/
structure Alike (R : AxisSet → AxisSet → Prop) (W V : Writer) : Prop where
  params : V.function.params = W.function.params
  valueName : V.function.valueName = W.function.valueName
  size : V.function.instructions.size = W.function.instructions.size
  builtins : V.builtins = W.builtins
  module : W.module.Resembles V.module
  marks : ∀ r, R (W.policy.marks r) (V.policy.marks r)

theorem ofPair_related (hR : Additive R) {recur recur' : Recur} {inPhi : Bool} {l r : Value}
    (hl : (recur l inPhi).Related R (recur' l inPhi))
    (hr : (recur r inPhi).Related R (recur' r inPhi)) (sign : String) :
    (ofPair recur inPhi l sign r).Related R (ofPair recur' inPhi l sign r) := by
  apply Marked.Related.bind hR hl
  intro x _
  exact Marked.Related.bind_pure hR hr _

namespace Alike

section Parts

variable (h : Alike R W V)

include h

theorem register? : V.register? = W.register? := by
  funext inst
  exact h.module.callee_bind (fun _ => rfl) inst

theorem isOffsetParam : V.isOffsetParam = W.isOffsetParam := by
  funext v
  rw [Writer.isOffsetParam.eq_def, Writer.isOffsetParam.eq_def, h.builtins, h.params]

theorem hasOffsetRoot : V.hasOffsetRoot = W.hasOffsetRoot := by
  funext e
  rw [Writer.hasOffsetRoot, Writer.hasOffsetRoot, h.builtins, h.module.globals]

theorem operandDepth : V.operandDepth = W.operandDepth := by
  rw [Writer.operandDepth, Writer.operandDepth, h.size, h.module.constantExprs]

end Parts

section Step

variable (hR : Additive R) (h : Alike R W V) {recur recur' : Recur} {inPhi : Bool}

include hR h

theorem dimName (o : Option Value) : (W.dimName o).Related R (V.dimName o) := by
  rw [Writer.dimName.eq_def, Writer.dimName.eq_def, h.valueName]
  split <;> exact Marked.Related.unmarked hR _

/-- A call is written by the name for readers of the function that is called, and by whether that
function returns. -/
theorem ofCall (callee : Nat) (args : List Value) :
    (W.ofCall callee args).Related R (V.ofCall callee args) := by
  rw [Writer.ofCall, Writer.ofCall, h.builtins]
  rcases h.module.fetch_cases callee with ⟨e, hf, hf'⟩ | ⟨f, f', hf, hf', heq⟩
  · rw [hf, hf', Marked.lift_error_bind, Marked.lift_error_bind]
    exact Marked.Related.unmarked hR _
  · have hname : f.displayName = f'.displayName := congrArg (fun g => g.displayName) heq
    have hreturn : f.noReturn = f'.noReturn := congrArg (fun g => g.noReturn) heq
    have haccess : W.builtins.isArrayAccess f = W.builtins.isArrayAccess f' := by
      simp only [Builtins.isArrayAccess, hname, hreturn]
    have hdim : W.builtins.isDimAccessor f = W.builtins.isDimAccessor f' := by
      simp only [Builtins.isDimAccessor, hname]
    rw [hf, hf', Marked.lift_ok_bind, Marked.lift_ok_bind, haccess, hdim, hname]
    split
    · exact Marked.Related.pure hR _
    · split
      · exact Marked.Related.bind_pure hR (dimName hR h _) _
      · exact Marked.Related.pure hR _

/-- The formula of an operation depends on nothing but the formulas of the values it opens. -/
theorem ofOperation (j : Nat) (op : Operation)
    (hrecur : ∀ y ∈ W.opened inPhi op, (recur y.1 y.2).Related R (recur' y.1 y.2)) :
    (W.ofOperation recur j inPhi op).Related R (V.ofOperation recur' j inPhi op) := by
  cases op with
  | extractValue v indices =>
    rw [Writer.ofOperation, Writer.ofOperation, h.isOffsetParam]
    apply Marked.Related.lift_bind hR
    intro isOffset hoffset
    cases isOffset with
    | true =>
      -- the offsets of a block are written without a look at the parameter
      simp only [if_true]
      cases indices.head?.bind Axis.ofIndex? with
      | none => exact Marked.Related.unmarked hR _
      | some axis => exact Marked.Related.pure hR _
    | false => exact hrecur (v, inPhi) (by simp [opened, hoffset])
  | element v indices | cast castOp v | load v => exact hrecur (v, inPhi) List.mem_cons_self
  | call callee args => exact ofCall hR h callee args
  | alloca type => exact Marked.Related.pure hR _
  | binary bop l r =>
    rw [Writer.ofOperation, Writer.ofOperation]
    cases hsign : bop.symbol? with
    | none => exact Marked.Related.unmarked hR _
    | some sign =>
      apply ofPair_related hR
      · exact hrecur (l, inPhi) (by simp [opened, hsign])
      · exact hrecur (r, inPhi) (by simp [opened, hsign])
  | compare pred l r =>
    apply ofPair_related hR
    · exact hrecur (l, inPhi) (by simp [opened])
    · exact hrecur (r, inPhi) (by simp [opened])
  | phi incoming =>
    rw [Writer.ofOperation, Writer.ofOperation]
    cases inPhi with
    | true => exact Marked.Related.pure hR _
    | false =>
      apply Marked.Related.bind_pure hR
      apply Marked.Related.mapM hR
      intro entry hentry
      apply hrecur (entry.2, true)
      simp only [opened, Bool.false_eq_true, if_false]
      exact List.mem_map_of_mem hentry
  | extractElement v k | select c t e | store v ptr | branch t | branchIf c t e | ret v
  | unreachable =>
    exact Marked.Related.unmarked hR _

/-- The formula of a constant depends on nothing but the formulas of the parts of an
expression. -/
theorem ofConstant (c : Constant)
    (hrecur : ∀ y, W.Opens (.constant c, inPhi) y → (recur y.1 y.2).Related R (recur' y.1 y.2)) :
    (W.ofConstant recur inPhi c).Related R (V.ofConstant recur' inPhi c) := by
  cases c with
  | expr k =>
    rw [Writer.ofConstant, Writer.ofConstant, h.module.constantExprs]
    apply Marked.Related.lift_bind hR
    intro e he
    rw [ofConstantExpr, ofConstantExpr, h.hasOffsetRoot]
    apply Marked.Related.lift_bind hR
    intro hasRoot hroot
    cases hasRoot with
    | true =>
      simp only [if_true]
      split
      · split
        · exact Marked.Related.pure hR _
        · exact Marked.Related.unmarked hR _
      · exact Marked.Related.pure hR _
    | false =>
      apply Marked.Related.bind_pure hR
      apply Marked.Related.mapM hR
      intro v hv
      exact hrecur (v, inPhi) (.part (fetch_eq_ok_iff.1 he) hroot hv)
  | global g =>
    rw [Writer.ofConstant, Writer.ofConstant, h.module.globals, h.builtins]
    apply Marked.Related.lift_bind hR
    intro g' _
    split <;> exact Marked.Related.pure hR _
  | int w | float bits | null | undef | aggregate => exact Marked.Related.unmarked hR _

/-- The formula of a value depends on its instruction and on the formulas of the values it opens. -/
theorem ofValueWithin_succ {depth depth' : Nat} {v : Value}
    (hsame : ∀ j, v = .instruction j → V.function.instruction j = W.function.instruction j)
    (hrecur : ∀ y, W.Opens (v, inPhi) y →
      (W.ofValueWithin depth y.1 y.2).Related R (V.ofValueWithin depth' y.1 y.2)) :
    (W.ofValueWithin (depth + 1) v inPhi).Related R (V.ofValueWithin (depth' + 1) v inPhi) := by
  cases v with
  | argument j =>
    rw [Writer.ofValueWithin, Writer.ofValueWithin, h.params]
    apply Marked.Related.lift_bind hR
    intro p _
    exact Marked.Related.pure hR _
  | constant c => exact ofConstant hR h c hrecur
  | instruction j =>
    rw [Writer.ofValueWithin, Writer.ofValueWithin, ofInstruction, ofInstruction, hsame j rfl]
    apply Marked.Related.lift_bind hR
    intro inst hinst
    rw [h.register?]
    apply Marked.Related.lift_bind hR
    intro register _
    cases register with
    | some r =>
      -- both write the name of the register; this is where their marks can differ
      exact ⟨rfl, h.marks r⟩
    | none =>
      apply ofOperation hR h
      intro y hy
      exact hrecur y (.operand (fetch_eq_ok_iff.1 hinst) hy)

/-- Formulas that are written from the same instructions are the same. -/
theorem ofValueWithin (depth : Nat) : ∀ (v : Value) (inPhi : Bool),
    (∀ j inPhi', Relation.ReflTransGen W.Opens (v, inPhi) (.instruction j, inPhi') →
      V.function.instruction j = W.function.instruction j) →
    (W.ofValueWithin depth v inPhi).Related R (V.ofValueWithin depth v inPhi) := by
  induction depth with
  | zero => exact fun _ _ _ => Marked.Related.unmarked hR _
  | succ depth ih =>
    intro v inPhi hsame
    apply ofValueWithin_succ hR h
    · rintro j rfl
      exact hsame j inPhi .refl
    · intro y hy
      apply ih
      intro j inPhi' hwalk
      exact hsame j inPhi' (.head hy hwalk)

theorem ofValue {v : Value}
    (hsame : ∀ j inPhi', Relation.ReflTransGen W.Opens (v, inPhi) (.instruction j, inPhi') →
      V.function.instruction j = W.function.instruction j) :
    (W.ofValue v inPhi).Related R (V.ofValue v inPhi) := by
  rw [Writer.ofValue, Writer.ofValue, h.operandDepth]
  exact ofValueWithin hR h _ v inPhi hsame

end Step

end Alike

/-! ## Formulas of evolutions -/

section Evolutions

variable {T : {α : Type} → Marked α → Marked α → Prop} {head head' : Nat → Except Fault LoopHead}
  {bound bound' : LoopHead → Marked String} {inPhi : Bool}

/-- What occurs in an evolution compares: the values, the heads of loops and their bounds. -/
def Matches (T : {α : Type} → Marked α → Marked α → Prop) (W V : Writer)
    (head head' : Nat → Except Fault LoopHead) (bound bound' : LoopHead → Marked String)
    (inPhi : Bool) : Evolution → Prop
  | .unknown v => T (W.ofValue v inPhi) (V.ofValue v inPhi)
  | .recurrence _ _ l => T (Marked.lift (head l)) (Marked.lift (head' l)) ∧
      ∀ h, head l = .ok h → T (bound h) (bound' h)
  | _ => True

section Congruence

variable (hT : Marked.Congruence T)

include hT

theorem ofEvolutionsWith_congr {es : List Evolution} (wanted : Evolution → Bool)
    (hes : ∀ e ∈ es, T (W.ofEvolutionWith head bound inPhi e)
      (V.ofEvolutionWith head' bound' inPhi e)) :
    T (W.ofEvolutionsWith head bound inPhi wanted es)
      (V.ofEvolutionsWith head' bound' inPhi wanted es) := by
  induction es with
  | nil => exact hT.unmarked _
  | cons e es ih =>
    have hrest := ih fun e' he' => hes e' (List.mem_cons_of_mem e he')
    rw [ofEvolutionsWith, ofEvolutionsWith]
    split
    · apply hT.bind (hes e List.mem_cons_self)
      intro first _
      exact hT.bind_pure hrest _
    · exact hrest

/-- A recurrence from its start, its bound and what is written for the step. -/
theorem recurrence_congr {l : Nat} {start start' step step' : Marked String}
    (hhead : T (Marked.lift (head l)) (Marked.lift (head' l)))
    (hbound : ∀ h, head l = .ok h → T (bound h) (bound' h))
    (hstart : T start start') (hstep : T step step') :
    T (do
      let h ← Marked.lift (head l)
      let s ← start
      let limit ← bound h
      let k ← step
      return recurrenceText h.loop.depth s limit k : Marked String)
    (do
      let h ← Marked.lift (head' l)
      let s ← start'
      let limit ← bound' h
      let k ← step'
      return recurrenceText h.loop.depth s limit k) := by
  apply hT.bind hhead
  intro h hh
  apply hT.bind hstart
  intro s _
  apply hT.bind (hbound h (Failure.lift_eq_ok_iff.1 hh))
  intro limit _
  exact hT.bind_pure hstep _

theorem ofStepsWith_congr {l : Nat} (hhead : T (Marked.lift (head l)) (Marked.lift (head' l)))
    (hbound : ∀ h, head l = .ok h → T (bound h) (bound' h)) {es : List Evolution}
    (hes : ∀ e ∈ es, T (W.ofEvolutionWith head bound inPhi e)
      (V.ofEvolutionWith head' bound' inPhi e)) :
    T (W.ofStepsWith head bound inPhi l es) (V.ofStepsWith head' bound' inPhi l es) := by
  induction es with
  | nil => exact hT.unmarked _
  | cons e es ih =>
    have hrest := ih fun e' he' => hes e' (List.mem_cons_of_mem e he')
    cases es with
    | nil =>
      rw [ofStepsWith, ofStepsWith]
      exact hes e List.mem_cons_self
    | cons e' es =>
      rw [ofStepsWith, ofStepsWith]
      exact recurrence_congr hT hhead hbound (hes e List.mem_cons_self) hrest

/-- The formula of an evolution depends on nothing but the formulas of what occurs in it. -/
theorem ofEvolutionWith_congr {e : Evolution}
    (he : e.Everywhere (Matches T W V head head' bound bound' inPhi)) :
    T (W.ofEvolutionWith head bound inPhi e) (V.ofEvolutionWith head' bound' inPhi e) := by
  induction he with
  | @node e top _ ih =>
    cases e with
    | unknown v =>
      rw [ofEvolutionWith, ofEvolutionWith]
      exact top
    | constant w | indeterminate | sizeOf t | alignOf t =>
      rw [ofEvolutionWith, ofEvolutionWith]
      exact hT.unmarked _
    | quotient a b =>
      rw [ofEvolutionWith, ofEvolutionWith]
      apply hT.bind (ih a (by simp [Evolution.operands]))
      intro x _
      exact hT.bind_pure (ih b (by simp [Evolution.operands])) _
    | product es | smax es | umax es =>
      rw [ofEvolutionWith, ofEvolutionWith]
      exact hT.bind_pure (ofEvolutionsWith_congr hT _ ih) _
    | sum es =>
      rw [ofEvolutionWith, ofEvolutionWith]
      apply hT.bind (ofEvolutionsWith_congr hT _ ih)
      intro symbolic _
      apply hT.bind (ofEvolutionsWith_congr hT _ ih)
      intro positive _
      exact hT.bind_pure (ofEvolutionsWith_congr hT _ ih) _
    | zext e | sext e | trunc e =>
      rw [ofEvolutionWith, ofEvolutionWith]
      exact ih e List.mem_cons_self
    | recurrence a es l =>
      have hsteps := ofStepsWith_congr hT top.1 top.2 fun e' he' =>
        ih e' (List.mem_cons_of_mem a he')
      rw [ofEvolutionWith, ofEvolutionWith]
      exact recurrence_congr hT top.1 top.2 (ih a List.mem_cons_self) hsteps

end Congruence

/-- What occurs in an evolution is written in related ways: the values, and the bounds of loops. -/
def Occurs (R : AxisSet → AxisSet → Prop) (W V : Writer) (head : Nat → Except Fault LoopHead)
    (bound bound' : LoopHead → Marked String) (inPhi : Bool) : Evolution → Prop
  | .unknown v => (W.ofValue v inPhi).Related R (V.ofValue v inPhi)
  | .recurrence _ _ l => ∀ h, head l = .ok h → (bound h).Related R (bound' h)
  | _ => True

/-- Where what occurs in an evolution is written in related ways, so is the evolution. -/
theorem ofEvolutionWith_related (hR : Additive R) {e : Evolution}
    (he : e.Everywhere (Occurs R W V head bound bound' inPhi)) :
    (W.ofEvolutionWith head bound inPhi e).Related R (V.ofEvolutionWith head bound' inPhi e) := by
  apply ofEvolutionWith_congr (Marked.Related.congruence hR)
  refine he.mono fun n hn => ?_
  cases n with
  | unknown v => exact hn
  | recurrence a es l => exact ⟨Marked.Related.unmarked hR _, hn⟩
  | _ => trivial

end Evolutions

/-! ## The same function in another module -/

namespace Alike

variable (hR : Additive R) (h : Alike R W V) (hfunction : V.function = W.function) {S : Scope}
  {m : Module} (hm : S.module.Resembles m) (inPhi : Bool)

include hR h hfunction

theorem ofValue_of_function (v : Value) : (W.ofValue v inPhi).Related R (V.ofValue v inPhi) :=
  ofValue hR h fun j _ _ => by rw [hfunction]

/-- All evolutions are written in related ways if the bounds of loops are. -/
theorem ofEvolutionWith_of_bounds {head : Nat → Except Fault LoopHead}
    {bound bound' : LoopHead → Marked String}
    (hbound : ∀ head, (bound head).Related R (bound' head)) (e : Evolution) :
    (W.ofEvolutionWith head bound inPhi e).Related R (V.ofEvolutionWith head bound' inPhi e) := by
  apply ofEvolutionWith_related hR
  apply Evolution.everywhere_of_forall
  intro e
  cases e with
  | unknown v => exact ofValue_of_function hR h hfunction inPhi v
  | recurrence a es l => exact fun head _ => hbound head
  | _ => trivial

theorem latchBound (l : Loop) :
    (W.latchBound S inPhi l).Related R (V.latchBound (S.inModule m) inPhi l) := by
  have hcfg : (S.inModule m).cfg = S.cfg := rfl
  have hbranch : (S.inModule m).latchBranch? l = S.latchBranch? l := rfl
  have hcomparison : (S.inModule m).comparison? = S.comparison? := rfl
  rw [Writer.latchBound, Writer.latchBound, hcfg, hbranch, hcomparison]
  split
  · exact Marked.Related.unmarked hR _
  · split
    · apply Marked.Related.lift_bind hR
      intro c _
      cases c with
      | none => exact Marked.Related.unmarked hR _
      | some c => exact ofValue_of_function hR h hfunction inPhi c.rhs
    · exact Marked.Related.unmarked hR _

include hm

/-- Bounds are related at every depth. The induction is on the depth: the rounds of a loop are
written with bounds one less deep. -/
theorem boundWithin (depth : Nat) (head : LoopHead) :
    (W.boundWithin S inPhi depth head).Related R
      (V.boundWithin (S.inModule m) inPhi depth head) := by
  induction depth generalizing head with
  | zero => exact Marked.Related.unmarked hR _
  | succ depth ih =>
    rw [Writer.boundWithin, Writer.boundWithin, Scope.loopHead_inModule hm]
    cases head.rounds with
    | some count => exact ofEvolutionWith_of_bounds hR h hfunction inPhi ih count
    | none => exact latchBound hR h hfunction inPhi head.loop

theorem ofEvolution (e : Evolution) :
    (W.ofEvolution S e inPhi).Related R (V.ofEvolution (S.inModule m) e inPhi) := by
  have hbound := boundWithin hR h hfunction hm inPhi (S.forest.loops.size + 1)
  rw [Writer.ofEvolution, Writer.ofEvolution, Scope.loopHead_inModule hm]
  exact ofEvolutionWith_of_bounds hR h hfunction inPhi hbound e

end Alike

end Writer

end GridAccess
