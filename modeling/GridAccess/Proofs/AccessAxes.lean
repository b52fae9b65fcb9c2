import GridAccess.Proofs.Drafts
import GridAccess.Proofs.Marks
import GridAccess.Proofs.Valuation

set_option autoImplicit false

/-!
# Axes of array accesses

The formula of an evolution shows the values in it, and those in the bounds of its recurrences. The
axes that it marks are those of the registers met from there (`ofEvolution_marks`). An access keeps
the axes of each of its indices apart, and the record of an array has for each dimension the axes of
all its accesses (`contains_axesAt_iff`). So the axes of a record are exactly those that an index of
an access to the array depends on, and the accesses are exactly the calls of the access operator
(`axes_iff_depends`).
-/

namespace GridAccess

/-! ## Formulas of evolutions -/

/-- The formula of an evolution shows the formula of a value: one that is not looked into, also
inside an operand, or one in the bound of a recurrence. The bound is the number of rounds of the
loop, or else the right side of the comparison that ends it. -/
inductive Scope.Shows (S : Scope) : Evolution → Value → Prop
  | unknown (v : Value) : Shows S (.unknown v) v
  | operand {e e' : Evolution} {v : Value} (he : e' ∈ e.operands) (h : Shows S e' v) : Shows S e v
  | rounds {start count : Evolution} {steps : List Evolution} {l : Nat} {head : LoopHead}
      {v : Value} (hhead : S.loopHead l = .ok head) (hcount : head.rounds = some count)
      (h : Shows S count v) : Shows S (.recurrence start steps l) v
  | exit {start : Evolution} {steps : List Evolution} {l : Nat} {head : LoopHead} {cond : Value}
      {onTrue onFalse : Nat} {comparison : Context.Comparison} (hhead : S.loopHead l = .ok head)
      (hcount : head.rounds = none)
      (hbranch : S.latchBranch? head.loop = some (.branchIf cond onTrue onFalse))
      (hcomparison : S.comparison? cond = .ok (some comparison)) :
      Shows S (.recurrence start steps l) comparison.rhs

namespace Scope

variable {S : Scope} {v : Value}

/-- The bound of a loop shows the formula of a value. -/
def BoundShows (S : Scope) (head : LoopHead) (v : Value) : Prop :=
  (∃ count, head.rounds = some count ∧ S.Shows count v) ∨
    head.rounds = none ∧ ∃ cond onTrue onFalse comparison,
      S.latchBranch? head.loop = some (.branchIf cond onTrue onFalse) ∧
        S.comparison? cond = .ok (some comparison) ∧ comparison.rhs = v

/-- A recurrence shows what its operands and its bound show. -/
theorem shows_recurrence_iff {start : Evolution} {steps : List Evolution} {l : Nat}
    {head : LoopHead} (hhead : S.loopHead l = .ok head) :
    S.Shows (.recurrence start steps l) v ↔
      S.Shows start v ∨ S.BoundShows head v ∨ ∃ e ∈ steps, S.Shows e v := by
  constructor
  · intro h
    cases h with
    | operand he h =>
      rcases List.mem_cons.1 he with rfl | he
      · exact .inl h
      · exact .inr (.inr ⟨_, he, h⟩)
    | rounds hhead' hcount h =>
      cases hhead.symm.trans hhead'
      exact .inr (.inl (.inl ⟨_, hcount, h⟩))
    | exit hhead' hcount hbranch hcomparison =>
      cases hhead.symm.trans hhead'
      exact .inr (.inl (.inr ⟨hcount, _, _, _, _, hbranch, hcomparison, rfl⟩))
  · rintro (h | (⟨count, hcount, h⟩ | ⟨hcount, cond, t, f, c, hbranch, hc, rfl⟩) | ⟨e, he, h⟩)
    · exact .operand List.mem_cons_self h
    · exact .rounds hhead hcount h
    · exact .exit hhead hcount hbranch hc
    · exact .operand (List.mem_cons_of_mem start he) h

/-- An evolution that is neither a recurrence nor looked into no further shows what its operands
show. -/
theorem shows_iff_of_plain {e : Evolution} (hunknown : ∀ w, e ≠ .unknown w)
    (hplain : ∀ start steps l, e ≠ .recurrence start steps l) :
    S.Shows e v ↔ ∃ e' ∈ e.operands, S.Shows e' v := by
  constructor
  · intro h
    cases h with
    | unknown => exact absurd rfl (hunknown v)
    | operand he h => exact ⟨_, he, h⟩
    | rounds => exact absurd rfl (hplain _ _ _)
    | exit => exact absurd rfl (hplain _ _ _)
  · rintro ⟨e', he, h⟩
    exact .operand he h

end Scope

namespace Writer

variable {W : Writer} {S : Scope} {inPhi : Bool} {bound : LoopHead → Marked String}

/-- The formula of an evolution meets a register that marks the axis. -/
def Displays (W : Writer) (S : Scope) (inPhi : Bool) (e : Evolution) (a : Axis) : Prop :=
  ∃ v, S.Shows e v ∧ W.Touches (v, inPhi) a

/-- The bound of a loop meets a register that marks the axis. -/
def DisplaysBound (W : Writer) (S : Scope) (inPhi : Bool) (head : LoopHead) (a : Axis) : Prop :=
  ∃ v, S.BoundShows head v ∧ W.Touches (v, inPhi) a

theorem displays_recurrence_iff {start : Evolution} {steps : List Evolution} {l : Nat}
    {head : LoopHead} (hhead : S.loopHead l = .ok head) (a : Axis) :
    W.Displays S inPhi (.recurrence start steps l) a ↔
      W.Displays S inPhi start a ∨ W.DisplaysBound S inPhi head a ∨
        ∃ e ∈ steps, W.Displays S inPhi e a := by
  simp only [Displays, DisplaysBound, Scope.shows_recurrence_iff hhead, or_and_right, exists_or]
  constructor
  · rintro (h | h | ⟨v, ⟨e, he, hv⟩, ha⟩)
    · exact .inl h
    · exact .inr (.inl h)
    · exact .inr (.inr ⟨e, he, v, hv, ha⟩)
  · rintro (h | h | ⟨e, he, v, hv, ha⟩)
    · exact .inl h
    · exact .inr (.inl h)
    · exact .inr (.inr ⟨v, ⟨e, he, hv⟩, ha⟩)

theorem displays_iff_of_plain {e : Evolution} (hunknown : ∀ w, e ≠ .unknown w)
    (hplain : ∀ start steps l, e ≠ .recurrence start steps l) (a : Axis) :
    W.Displays S inPhi e a ↔ ∃ e' ∈ e.operands, W.Displays S inPhi e' a := by
  simp only [Displays, Scope.shows_iff_of_plain hunknown hplain]
  constructor
  · rintro ⟨v, ⟨e', he, hv⟩, ha⟩
    exact ⟨e', he, v, hv, ha⟩
  · rintro ⟨e', he, v, hv, ha⟩
    exact ⟨v, ⟨e', he, hv⟩, ha⟩

theorem termOrder_cases (e : Evolution) : termOrder e = 0 ∨ termOrder e = 1 ∨ termOrder e = 2 := by
  rw [termOrder]
  split
  · exact .inl rfl
  · split
    · exact .inr (.inl rfl)
    · exact .inr (.inr rfl)

/-- The bounds of loops have the marks of what they show. -/
def BoundsMark (W : Writer) (S : Scope) (inPhi : Bool) (bound : LoopHead → Marked String) : Prop :=
  ∀ l head, S.loopHead l = .ok head → (bound head).Marks (W.DisplaysBound S inPhi head)

mutual

/-- The formula of an evolution has the marks of what it shows, if its bounds do. -/
theorem ofEvolutionWith_marks (hbound : W.BoundsMark S inPhi bound) : (e : Evolution) →
    (W.ofEvolutionWith S.loopHead bound inPhi e).Marks (W.Displays S inPhi e)
  | .unknown v => by
    refine (W.ofValueWithin_marks W.operandDepth v inPhi).congr ?_
    intro a
    constructor
    · intro ha
      exact ⟨v, .unknown v, ha⟩
    · rintro ⟨w, hw, ha⟩
      cases hw with
      | unknown => exact ha
      | operand he _ => cases he
  | .constant _ | .indeterminate => by
    refine (Marked.marks_pure _).congr ?_
    simp [displays_iff_of_plain, Evolution.operands]
  | .sizeOf _ | .alignOf _ => Marked.marks_unsupported _ _
  | .quotient x y => by
    rw [ofEvolutionWith]
    refine ((ofEvolutionWith_marks hbound x).bind fun _ _ =>
      (ofEvolutionWith_marks hbound y).bind_pure _).congr ?_
    simp [displays_iff_of_plain (e := .quotient x y), Evolution.operands]
  | .product es | .smax es | .umax es => by
    rw [ofEvolutionWith]
    refine ((ofEvolutionsWith_marks hbound (fun _ => true) es).bind_pure _).congr ?_
    intro a
    rw [displays_iff_of_plain (by simp) (by simp)]
    simp [Evolution.operands]
  | .sum es => by
    rw [ofEvolutionWith]
    refine ((ofEvolutionsWith_marks hbound (termOrder · == 0) es).bind fun _ _ =>
      (ofEvolutionsWith_marks hbound (termOrder · == 1) es).bind fun _ _ =>
        (ofEvolutionsWith_marks hbound (termOrder · == 2) es).bind_pure _).congr ?_
    intro a
    rw [displays_iff_of_plain (by simp) (by simp)]
    simp only [Evolution.operands, beq_iff_eq]
    constructor
    · rintro (⟨e, he, -, ha⟩ | ⟨e, he, -, ha⟩ | ⟨e, he, -, ha⟩) <;> exact ⟨e, he, ha⟩
    · rintro ⟨e, he, ha⟩
      -- every term is written in one of the three rounds
      rcases termOrder_cases e with h | h | h
      · exact .inl ⟨e, he, h, ha⟩
      · exact .inr (.inl ⟨e, he, h, ha⟩)
      · exact .inr (.inr ⟨e, he, h, ha⟩)
  | .zext e | .sext e | .trunc e => by
    rw [ofEvolutionWith]
    refine (ofEvolutionWith_marks hbound e).congr ?_
    intro a
    refine Iff.trans ?_ (displays_iff_of_plain (by simp) (by simp) a).symm
    simp [Evolution.operands]
  | .recurrence start steps l => by
    rw [ofEvolutionWith]
    apply Marked.marks_lift_bind
    intro head hhead
    refine ((ofEvolutionWith_marks hbound start).bind fun _ _ =>
      (hbound l head hhead).bind fun _ _ =>
        (ofStepsWith_marks hbound hhead steps).bind_pure _).congr ?_
    intro a
    rw [displays_recurrence_iff hhead]
    -- several steps show the bound once more
    by_cases hb : W.DisplaysBound S inPhi head a <;> simp [hb]

/-- The formulas of those evolutions of a list that are wanted. -/
theorem ofEvolutionsWith_marks (hbound : W.BoundsMark S inPhi bound) (wanted : Evolution → Bool) :
    (es : List Evolution) →
    (W.ofEvolutionsWith S.loopHead bound inPhi wanted es).Marks
      fun a => ∃ e ∈ es, wanted e = true ∧ W.Displays S inPhi e a
  | [] => by
    refine (Marked.marks_pure _).congr ?_
    simp
  | e :: es => by
    rw [ofEvolutionsWith]
    split
    · rename_i hwanted
      refine ((ofEvolutionWith_marks hbound e).bind fun _ _ =>
        (ofEvolutionsWith_marks hbound wanted es).bind_pure _).congr ?_
      simp [hwanted]
    · rename_i hwanted
      refine (ofEvolutionsWith_marks hbound wanted es).congr ?_
      simp [hwanted]

/-- The formula of the steps of a recurrence, which shows the bound again if there are several. -/
theorem ofStepsWith_marks (hbound : W.BoundsMark S inPhi bound) {l : Nat} {head : LoopHead}
    (hhead : S.loopHead l = .ok head) :
    (es : List Evolution) → (W.ofStepsWith S.loopHead bound inPhi l es).Marks
      fun a => (∃ e ∈ es, W.Displays S inPhi e a) ∨
        2 ≤ es.length ∧ W.DisplaysBound S inPhi head a
  | [] => by
    refine (Marked.marks_pure _).congr ?_
    simp
  | [e] => by
    rw [ofStepsWith]
    refine (ofEvolutionWith_marks hbound e).congr ?_
    simp
  | e :: e' :: es => by
    rw [ofStepsWith]
    apply Marked.marks_lift_bind
    intro head' hhead'
    obtain rfl : head = head' := Except.ok.inj (hhead.symm.trans hhead')
    refine ((ofEvolutionWith_marks hbound e).bind fun _ _ => (hbound l head hhead).bind fun _ _ =>
      (ofStepsWith_marks hbound hhead (e' :: es)).bind_pure _).congr ?_
    intro a
    by_cases hb : W.DisplaysBound S inPhi head a <;> simp [hb]

end

/-- The right side of the comparison that ends a loop. -/
theorem latchBound_marks (W : Writer) (S : Scope) (inPhi : Bool) {head : LoopHead}
    (hrounds : head.rounds = none) :
    (W.latchBound S inPhi head.loop).Marks (W.DisplaysBound S inPhi head) := by
  rw [latchBound]
  cases head.loop.latch? S.cfg with
  | none => exact Marked.marks_refuse _
  | some latch =>
    dsimp only
    split
    · rename_i cond onTrue onFalse hbranch
      apply Marked.marks_lift_bind
      intro o ho
      cases o with
      | none => exact Marked.marks_unsupported _ _
      | some comparison =>
        refine (W.ofValueWithin_marks W.operandDepth comparison.rhs inPhi).congr ?_
        intro a
        constructor
        · intro ha
          exact ⟨_, .inr ⟨hrounds, cond, onTrue, onFalse, comparison, hbranch, ho, rfl⟩, ha⟩
        · rintro ⟨v, ⟨count, hcount, -⟩ | ⟨-, cond', t, f, comparison', hbranch', ho', rfl⟩, ha⟩
          · cases hrounds.symm.trans hcount
          · cases hbranch.symm.trans hbranch'
            cases ho.symm.trans ho'
            exact ha
    · exact Marked.marks_refuse _

theorem boundWithin_marks (W : Writer) (S : Scope) (inPhi : Bool) (depth : Nat) (head : LoopHead) :
    (W.boundWithin S inPhi depth head).Marks (W.DisplaysBound S inPhi head) := by
  induction depth generalizing head with
  | zero =>
    intro s hs
    cases hs
  | succ depth ih =>
    rw [boundWithin]
    cases hrounds : head.rounds with
    | none => exact latchBound_marks W S inPhi hrounds
    | some count =>
      refine (ofEvolutionWith_marks (fun _ head _ => ih head) count).congr ?_
      intro a
      simp [Displays, DisplaysBound, Scope.BoundShows, hrounds]

/-- The formula of an evolution marks the axes of the registers that it meets. -/
theorem ofEvolution_marks (W : Writer) (S : Scope) (e : Evolution) (inPhi : Bool) :
    (W.ofEvolution S e inPhi).Marks (W.Displays S inPhi e) :=
  ofEvolutionWith_marks (fun _ head _ => boundWithin_marks W S inPhi _ head) e

end Writer

/-! ## Axes of dimensions -/

namespace Extractor

variable {X : Extractor} {a : Access} {array : Value} {indices : List Value}

/-- The axes of a dimension are those that the formula of the index marks. -/
theorem dimension_eq_ok {index : Value} {d : Dimension} (h : X.dimension index = .ok d) :
    ∃ e, X.scope.evolution index = .ok e ∧
      ∀ axis, d.axes.contains axis = true ↔ X.writer.Displays X.scope false e axis := by
  rw [dimension, bind_eq_ok_iff] at h
  obtain ⟨e, he, h⟩ := h
  obtain ⟨formula, hformula, h⟩ := bind_eq_ok_iff.1 h
  obtain rfl := pure_eq_ok_iff.1 h
  refine ⟨e, Failure.lift_eq_ok_iff.1 he, ?_⟩
  intro axis
  rw [← X.writer.ofEvolution_marks X.scope e false formula hformula axis]
  simp [Sheet.dimension, Sheet.write]

/-- The dimensions of an access belong to the indices of its call, the last index first. -/
theorem Describes.dimension_of_getElem? (h : X.Describes array indices a) {d : Nat}
    {dim : Dimension} (hdim : a.dims[d]? = some dim) :
    ∃ index, (array :: indices)[a.dims.length - d]? = some index ∧ X.dimension index = .ok dim := by
  obtain ⟨ds, hds, hdims⟩ := dimensions_eq_ok h.dims
  rw [List.append_nil] at hdims
  rw [hdims] at hdim ⊢
  have hlt : d < ds.length := by simpa using (List.getElem?_eq_some_iff.1 hdim).1
  rw [List.getElem?_reverse hlt] at hdim
  obtain ⟨index, hindex, hok⟩ := exists_of_forall₂ hds hdim
  refine ⟨index, ?_, hok⟩
  -- the array stands before the indices
  have hplace : ds.reverse.length - d = (ds.length - 1 - d) + 1 := by
    rw [List.length_reverse]
    omega
  rw [hplace, List.getElem?_cons_succ]
  exact hindex

end Extractor

namespace AccessSummary

/-- An axis that some access depends on in a dimension. -/
theorem contains_axesAt_iff (group : List Access) (d : Nat) (axis : Axis) :
    (axesAt group d).contains axis = true ↔
      ∃ a ∈ group, ∃ dim, a.dims[d]? = some dim ∧ dim.axes.contains axis = true := by
  have hfold : ∀ s : AxisSet, (group.foldl (fun s a =>
      s.union ((a.dims[d]?.map (·.axes)).getD AxisSet.empty)) s).contains axis = true ↔
        s.contains axis = true ∨
          ∃ a ∈ group, ∃ dim, a.dims[d]? = some dim ∧ dim.axes.contains axis = true := by
    -- the set grows by the axes of one access after another
    induction group with
    | nil => simp
    | cons a group ih =>
      intro s
      rw [List.foldl_cons, ih, AxisSet.contains_union]
      cases hdim : a.dims[d]? <;> simp [hdim, or_assoc]
  rw [axesAt, hfold]
  simp

end AccessSummary

/-! ## Axes of records -/

namespace Config

variable {c : Config} {m : Module} {f : Function} {X : Extractor} {p : Provenance} {k : Kernel}

/-- The formula of an index meets, in the recurrences and their bounds or in a phi that it opens, a
register that marks the axis. -/
def Depends (c : Config) (m : Module) (f : Function) (index : Value) (axis : Axis) : Prop :=
  ∃ e, (Scope.ofFunction m f).evolution index = .ok e ∧
    (Writer.ofScope (Scope.ofFunction m f) c.builtins c.policy).Displays
      (Scope.ofFunction m f) false e axis

theorem sites_map_snd (f : Function) :
    (sites f).map Prod.snd = f.blocks.toList.flatMap Block.instructions := by
  rw [sites, List.map_flatMap]
  simp only [List.map_map, Function.comp_def, List.map_id']
  rw [← List.flatMap_map Prod.fst Block.instructions, List.zipIdx_map_fst]

theorem mem_sites_of_lt (hlisted : f.Listed) {i : Nat} (hi : i < f.instructions.size) :
    i ∈ (sites f).map Prod.snd := by
  rw [sites_map_snd, hlisted.perm.mem_iff]
  exact List.mem_range.2 hi

namespace Analysis

variable {found : List Access} {a : Access} {array : Value} {indices : List Value}

theorem scope_eq (h : c.Analysis m f X p k) :
    X.scope = Scope.ofFunction m f ∧
      X.writer = Writer.ofScope (Scope.ofFunction m f) c.builtins c.policy :=
  Extractor.of_ofScope h.extractor

/-- An access was found at a call of the access operator. -/
theorem exists_call (h : c.Analysis m f X p k) (hfinds : c.Finds X (sites f) found)
    (ha : a ∈ found) : ∃ g array indices, m.Calls f a.site g (array :: indices) ∧
      c.builtins.isArrayAccess g = true ∧ X.Describes array indices a := by
  obtain ⟨array, indices, hdescribes⟩ := hfinds.describes ha
  obtain ⟨-, g, args, hcall, hg⟩ := hfinds.mem_sites_iff.1 (List.mem_map_of_mem ha)
  obtain rfl := hdescribes.args_eq hcall
  rw [h.scope_eq.1] at hcall
  exact ⟨g, array, indices, hcall, hg, hdescribes⟩

/-- At every call of the access operator an access was found. -/
theorem exists_access (h : c.Analysis m f X p k) (hfinds : c.Finds X (sites f) found)
    (hlisted : f.Listed) {i : Nat} {g : Function} {args : List Value} (hcall : m.Calls f i g args)
    (hg : c.builtins.isArrayAccess g = true) :
    ∃ a ∈ found, ∃ array indices, a.site = i ∧ args = array :: indices ∧
      X.Describes array indices a := by
  have hlt : i < f.instructions.size := by
    obtain ⟨inst, callee, hinst, -⟩ := hcall
    exact (Array.getElem?_eq_some_iff.1 hinst).1
  have hsite : i ∈ found.map Access.site := by
    rw [hfinds.mem_sites_iff, h.scope_eq.1]
    exact ⟨mem_sites_of_lt hlisted hlt, g, args, hcall, hg⟩
  obtain ⟨a, ha, rfl⟩ := List.mem_map.1 hsite
  obtain ⟨array, indices, hdescribes⟩ := hfinds.describes ha
  have hargs : args = array :: indices := by
    apply hdescribes.args_eq (m := m) (g := g)
    rw [h.scope_eq.1]
    exact hcall
  exact ⟨a, ha, array, indices, rfl, hargs, hdescribes⟩

/-- The axes of a dimension are those that the argument in its place depends on. -/
theorem contains_iff_depends (h : c.Analysis m f X p k) (hdescribes : X.Describes array indices a)
    {d : Nat} {dim : Dimension} (hdim : a.dims[d]? = some dim) {arg : Value}
    (harg : (array :: indices)[a.dims.length - d]? = some arg) (axis : Axis) :
    dim.axes.contains axis = true ↔ c.Depends m f arg axis := by
  obtain ⟨arg', harg', hok⟩ := hdescribes.dimension_of_getElem? hdim
  obtain rfl : arg = arg' := Option.some.inj (harg.symm.trans harg')
  obtain ⟨e, he, haxes⟩ := Extractor.dimension_eq_ok hok
  rw [h.scope_eq.1] at he
  rw [haxes, h.scope_eq.1, h.scope_eq.2]
  constructor
  · intro hdisplays
    exact ⟨e, he, hdisplays⟩
  · rintro ⟨e', he', hdisplays⟩
    obtain rfl := Except.ok.inj (he.symm.trans he')
    exact hdisplays

end Analysis

/-- The accesses of a kernel are the calls of the access operator, each once. An axis is among those
of a dimension of an array if and only if a call with the array has, in the place of that dimension,
an argument that depends on the axis. -/
theorem axes_iff_depends (c : Config) (m : Module) (index : Nat) (f : Function) (k : Kernel)
    (hf : m.functions[index]? = some f) (hbuilt : f.Built) (hk : c.analyze m index = .ok k) :
    (k.accesses.accesses.map Access.site).Nodup ∧
      (∀ i, i ∈ k.accesses.accesses.map Access.site ↔
        ∃ g args, m.Calls f i g args ∧ c.builtins.isArrayAccess g = true) ∧
      ∀ r ∈ k.arrays, r.axes.length = r.dims ∧
        ∀ (d : Nat) (s : AxisSet), r.axes[d]? = some s → ∀ axis, s.contains axis = true ↔
          ∃ i g args array arg, m.Calls f i g args ∧ c.builtins.isArrayAccess g = true ∧
            args[0]? = some array ∧ Handle.resolve f array = .ok (some r.handle) ∧
            args[r.dims - d]? = some arg ∧ c.Depends m f arg axis := by
  obtain ⟨f', X, p, hf', h⟩ := analyze_eq_ok hk
  obtain rfl : f = f' := Option.some.inj (hf.symm.trans hf')
  obtain ⟨found, hfinds, hgroups⟩ := h.exists_found
  have hlisted := hbuilt.listed
  have hsites : (k.accesses.accesses.map Access.site).Perm (found.map Access.site) :=
    hgroups.perm.map Access.site
  refine ⟨?_, ?_, ?_⟩
  · have hnodup : ((sites f).map Prod.snd).Nodup := by
      rw [sites_map_snd, hlisted.perm.nodup_iff]
      exact List.nodup_range
    exact hsites.nodup_iff.2 (hfinds.sublist.nodup hnodup)
  · intro i
    rw [hsites.mem_iff]
    constructor
    · intro hi
      obtain ⟨a, ha, rfl⟩ := List.mem_map.1 hi
      obtain ⟨g, array, indices, hcall, hg, -⟩ := h.exists_call hfinds ha
      exact ⟨g, array :: indices, hcall, hg⟩
    · rintro ⟨g, args, hcall, hg⟩
      obtain ⟨a, ha, array, indices, rfl, -⟩ := h.exists_access hfinds hlisted hcall hg
      exact List.mem_map_of_mem ha
  · intro r hr
    have hsums := hgroups.sums h.arrays hr
    refine ⟨by simp [hsums.axes], ?_⟩
    intro d s hs axis
    rw [hsums.axes, List.getElem?_map, Option.map_eq_some_iff] at hs
    obtain ⟨d', hd', rfl⟩ := hs
    obtain ⟨hd, rfl⟩ : d < r.dims ∧ d = d' := by
      simpa [List.getElem?_eq_some_iff] using hd'
    rw [AccessSummary.contains_axesAt_iff]
    constructor
    · rintro ⟨a, ha, dim, hdim, hcontains⟩
      obtain ⟨hfound, hhandle⟩ := List.mem_filter.1 ha
      obtain ⟨g, array, indices, hcall, hg, hdescribes⟩ := h.exists_call hfinds hfound
      obtain ⟨arg, harg, -⟩ := hdescribes.dimension_of_getElem? hdim
      have hresolve := hdescribes.handle
      rw [h.scope_eq.1, of_decide_eq_true hhandle] at hresolve
      refine ⟨a.site, g, array :: indices, array, arg, hcall, hg, rfl, hresolve, ?_, ?_⟩
      · rw [← hsums.dims a ha]
        exact harg
      · exact (h.contains_iff_depends hdescribes hdim harg axis).1 hcontains
    · rintro ⟨i, g, args, array, arg, hcall, hg, harray, hresolve, harg, hdepends⟩
      obtain ⟨a, hfound, array', indices, rfl, rfl, hdescribes⟩ :=
        h.exists_access hfinds hlisted hcall hg
      obtain rfl : array' = array := Option.some.inj harray
      -- the access belongs to the array of the record, as its handle says
      have hhandle := hdescribes.handle
      rw [h.scope_eq.1] at hhandle
      have hsame : r.handle = a.handle :=
        Option.some.inj (Except.ok.inj (hresolve.symm.trans hhandle))
      have ha : a ∈ found.filter (fun a => a.handle = r.handle) :=
        List.mem_filter.2 ⟨hfound, decide_eq_true hsame.symm⟩
      have hd' : d < a.dims.length := (hsums.dims a ha).symm ▸ hd
      have hdim : a.dims[d]? = some a.dims[d] := List.getElem?_eq_getElem hd'
      rw [← hsums.dims a ha] at harg
      exact ⟨a, ha, _, hdim, (h.contains_iff_depends hdescribes hdim harg axis).2 hdepends⟩

/-- A kernel that accesses the element of an array with the numbers of its block, the one along `x`
first. -/
def blockElement : Function where
  name := "kernel"
  params := #[⟨"a", .void⟩]
  blocks := #[⟨"entry", [0, 1, 2, 3]⟩]
  instructions := #[
    ⟨0, .word, none, .call 1 []⟩,
    ⟨0, .word, none, .call 2 []⟩,
    ⟨0, Ty.pointerTo .float, none, .call 0 [.argument 0, .instruction 0, .instruction 1]⟩,
    ⟨0, .void, none, .ret none⟩]

theorem blockElement_built : blockElement.Built :=
  .finished (d := ⟨blockElement, some 0⟩)
    ⟨{ name := "kernel", params := #[⟨"a", .void⟩] }, rfl, rfl,
      .head (.block _ "entry") <| .head (.push none .word (.call 1 []) rfl) <|
        .head (.push none .word (.call 2 []) rfl) <|
          .head (.push none (Ty.pointerTo .float)
            (.call 0 [.argument 0, .instruction 0, .instruction 1]) rfl) <|
              .single (.push none .void (.ret none) rfl)⟩
    rfl

/-- The module of that kernel. -/
def blockElementModule : Module where
  name := "module"
  functions := #[
    { name := "at", demangled := some "cudarrays::dynarray<float, 2u>::operator()(int, int)" },
    { name := "llvm.nvvm.read.ptx.sreg.ctaid.x" },
    { name := "llvm.nvvm.read.ptx.sreg.ctaid.y" },
    blockElement]

/-- What the analysis finds in it. The last index belongs to dimension zero. -/
def blockElementKernel : Kernel where
  index := 3
  name := "kernel"
  accesses :=
    { name := "kernel"
      arrays := [(.param 0, [
        { site := 2, handle := .param 0, array := "a", loop := none
          dims := [⟨"b.y", .single .y⟩, ⟨"b.x", .single .x⟩], isWrite := false }])] }
  arrays := [
    { handle := .param 0, array := "a", arg := 0, dims := 2, axes := [.single .y, .single .x]
      isRead := false, isWritten := false }]

theorem axes_iff_depends_blockElement :
    ({} : Config).analyze blockElementModule 3 = .ok blockElementKernel ∧
      (∀ i, i ∈ [2] ↔ ∃ g args, blockElementModule.Calls blockElement i g args ∧
        ({} : Config).builtins.isArrayAccess g = true) ∧
      ∃ i g args arg, blockElementModule.Calls blockElement i g args ∧ args[2]? = some arg ∧
        ({} : Config).Depends blockElementModule blockElement arg .y := by
  have hk : ({} : Config).analyze blockElementModule 3 = .ok blockElementKernel := by
    decide +kernel
  obtain ⟨-, hsites, hrecords⟩ :=
    axes_iff_depends {} blockElementModule 3 blockElement _ rfl blockElement_built hk
  obtain ⟨-, haxes⟩ := hrecords _ (List.mem_singleton_self _)
  obtain ⟨i, g, args, array, arg, hcall, -, -, -, harg, hdepends⟩ := (haxes 0 _ rfl .y).1 rfl
  exact ⟨hk, hsites, i, g, args, arg, hcall, harg, hdepends⟩

end Config

end GridAccess
