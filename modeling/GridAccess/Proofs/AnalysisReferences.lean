import GridAccess.Proofs.FormulaReferences

set_option autoImplicit false

/-!
# The analysis finds what it looks up

The analysis of a function of a well-referenced module meets no reference to something that is not
there: it gives a kernel or reports a failure, unless the evolution of some instruction runs in a
circle (`Config.concludes_analyze`).

Blocks, loops and the steps of recurrences are looked up in lists, where a place that does not
exist would pass for an empty one. That this does not happen either is said by itself: control
flow, dominators and loops name blocks and loops that are there (`Function.WellReferenced.located`),
evolutions refer to what is there, and arrays are recorded from at least one access
(`Config.analyze_in_range`).
-/

namespace GridAccess

open Evolution

/-! ## Control flow -/

/-- The blocks, instructions and loops that control flow, dominators and loops of a function name
are there. -/
structure Function.Located (f : Function) : Prop where
  site : ∀ x ∈ Config.sites f, x.1 < f.blocks.size ∧ x.2 < f.instructions.size
  target : ∀ b, ∀ t ∈ f.targetsOf b, t < f.blocks.size
  edge : ∀ a b, b ∈ f.cfg.successors a ∨ a ∈ f.cfg.predecessors b →
    a < f.blocks.size ∧ b < f.blocks.size
  reached : ∀ b, b ∈ f.cfg.postOrder ∨ b ∈ f.cfg.domTree.postOrder → b < f.blocks.size
  dominator : ∀ b d, f.cfg.domTree.parent? b = some d → b < f.blocks.size ∧ d < f.blocks.size
  loopBlock : ∀ l ∈ f.loops.loops.toList, l.header ∈ l.blocks ∧ ∀ b ∈ l.blocks, b < f.blocks.size
  latch : ∀ (l : Loop) (b : Nat), l.latch? f.cfg = some b → b < f.blocks.size
  nested : ∀ l ∈ f.loops.loops.toList, ∀ k, k ∈ l.enclosing ∨ k ∈ l.children →
    k < f.loops.loops.size
  innermost : ∀ inst ∈ f.instructions.toList, inst.parent < f.blocks.size ∧
    ∀ l, f.loops.innermost? inst.parent = some l → l < f.loops.loops.size

namespace Function.WellReferenced

variable {m : Module} {f : Function}

theorem mem_sites_lt (hf : f.WellReferenced m) {x : Nat × Nat} (hx : x ∈ Config.sites f) :
    x.1 < f.blocks.size ∧ x.2 < f.instructions.size := by
  obtain ⟨⟨block, b⟩, hblock, hx⟩ := List.mem_flatMap.1 hx
  obtain ⟨i, hi, rfl⟩ := List.mem_map.1 hx
  have hget := List.mem_zipIdx_iff_getElem?.1 hblock
  exact ⟨(List.getElem?_eq_some_iff.1 hget).1, hf.listed block (List.mem_of_getElem? hget) i hi⟩

theorem target_lt (hf : f.WellReferenced m) {b t : Nat} (ht : t ∈ f.targetsOf b) :
    t < f.blocks.size := by
  rw [targetsOf] at ht
  cases hterm : f.terminator? b with
  | none =>
    rw [hterm] at ht
    cases ht
  | some op =>
    rw [hterm] at ht
    obtain ⟨i, hop⟩ := exists_operation_of_terminator? hterm
    obtain ⟨inst, hinst, rfl⟩ := Option.map_eq_some_iff.1 hop
    refine hf.block inst (Array.mem_toList_iff.2 (Array.mem_of_getElem? hinst)) t ?_
    cases hcase : inst.operation with
    | phi incoming => simp [hcase, Operation.targets] at ht
    | _ => rwa [hcase] at ht

theorem located (hf : f.WellReferenced m) : f.Located where
  site _ := hf.mem_sites_lt
  target _ _ := hf.target_lt
  edge a b hab := by
    have hg := f.closed_cfg
    have hedge : b ∈ f.cfg.successors a := hab.elim id hg.mem_predecessors_iff.1
    rw [← f.size_cfg]
    exact ⟨Cfg.lt_size_of_mem_successors hedge, hg.lt_size hedge⟩
  reached b hb := by
    have hg := f.closed_cfg
    have hreaches : f.cfg.Reaches b :=
      hb.elim (Cfg.mem_postOrder_iff hg).1 (Cfg.mem_postOrder_domTree_iff hg).1
    exact f.size_cfg ▸ hreaches.lt_size
  dominator b d hd := by
    have hg := f.closed_cfg
    have hb := Cfg.reaches_of_parent?_domTree hg hd
    have hdom := (Cfg.nearest_of_parent?_domTree hg hb hd).1
    rw [← f.size_cfg]
    exact ⟨hb.lt_size, (hdom.1.reaches hb).lt_size⟩
  loopBlock l hl := by
    have hg := f.closed_cfg
    refine ⟨(Cfg.mem_blocks_iff hg hl).2 (.inl rfl), fun b hb => ?_⟩
    have hheader := (Cfg.mem_headers_iff hg).1 (List.mem_map_of_mem hl)
    exact f.size_cfg ▸ (((Cfg.mem_blocks_iff hg hl).1 hb).reaches hheader).lt_size
  latch l b hb := by
    -- the latch is the only predecessor of the header inside the loop
    have hmem : b ∈ f.cfg.predecessors l.header := by
      rw [Loop.latch?] at hb
      split at hb
      · rename_i hone
        cases hb
        exact List.mem_of_mem_filter (hone ▸ List.mem_cons_self)
      · cases hb
    have hedge := f.closed_cfg.mem_predecessors_iff.1 hmem
    exact f.size_cfg ▸ Cfg.lt_size_of_mem_successors hedge
  nested l hl k hk := by
    have hg := f.closed_cfg
    obtain ⟨i, hi⟩ := List.getElem?_of_mem hl
    rw [Array.getElem?_toList] at hi
    rcases hk with hk | hk
    · rw [(Cfg.lists_of_loops hi).1, Cfg.mem_enclosing_iff hg hi] at hk
      obtain ⟨outer, houter, -⟩ := hk
      exact (Array.getElem?_eq_some_iff.1 houter).1
    · obtain ⟨inner, hinner, -⟩ := (Cfg.mem_children_loops_iff hg hi).1 hk
      exact (Array.getElem?_eq_some_iff.1 hinner).1
  innermost inst hinst := by
    refine ⟨hf.parent inst hinst, fun l hl => ?_⟩
    obtain ⟨loop, hloop⟩ := exists_loop_of_innermost? hl
    exact (Array.getElem?_eq_some_iff.1 hloop).1

end Function.WellReferenced

/-! ## Accesses -/

namespace Extractor

variable {X : Extractor} {m : Module} {f : Function} {t : Builtins} {policy : MarkPolicy}
  {v : Value} {i : Nat}

theorem settles_ofScope {E : Prop} (hf : f.WellReferenced m) :
    Settles E (fun _ => True) (Extractor.ofScope (Scope.ofFunction m f) t policy) := by
  refine (Settles.mapM (R := fun _ => True) fun inst hinst => ?_).bind fun _ _ => .ok trivial
  exact hf.settles_storeRoot? hinst

section Accesses

variable (hX : Extractor.ofScope (Scope.ofFunction m f) t policy = .ok X)
  (hm : m.WellReferenced) (hf : f.WellReferenced m)

include hX hm hf

theorem concludes_dimension (hv : m.Has f v) :
    Concludes (Scope.ofFunction m f).RunsInCircle (X.dimension v) := by
  obtain ⟨hscope, hwriter⟩ := of_ofScope hX
  rw [dimension, hscope, hwriter]
  refine Concludes.lift_bind (hf.settles_evolution hm hv) fun e he => ?_
  have hformula : Concludes (Scope.ofFunction m f).RunsInCircle
      ((Writer.ofScope (Scope.ofFunction m f) t policy).ofEvolution (Scope.ofFunction m f) e
        false).result :=
    Writer.concludes_ofEvolution (W := Writer.ofScope (Scope.ofFunction m f) t policy) hm hf he
  exact hformula.bind fun _ => .ok _

theorem concludes_dimensions {indices : List Value} (hindices : ∀ v ∈ indices, m.Has f v)
    (built : List Dimension) :
    Concludes (Scope.ofFunction m f).RunsInCircle (X.dimensions i built indices) := by
  induction indices generalizing built with
  | nil => exact .ok _
  | cons index rest ih =>
    have hfirst := concludes_dimension hX hm hf (hindices index List.mem_cons_self)
    rw [dimensions]
    generalize X.dimension index = r at hfirst
    cases hfirst with
    | ok d => exact ih (fun v hv => hindices v (List.mem_cons_of_mem index hv)) (d :: built)
    | reported e => exact .reported _
    | endless hE => exact .endless hE

theorem concludes_extract (hi : i < f.instructions.size) (loop : Option Nat) :
    Concludes (Scope.ofFunction m f).RunsInCircle (X.extract i loop) := by
  have hdims : ∀ indices : List Value, (∀ v ∈ indices, m.Has f v) →
      Concludes (Scope.ofFunction m f).RunsInCircle (X.dimensions i [] indices) :=
    fun indices hindices => concludes_dimensions hX hm hf hindices []
  obtain ⟨hscope, -⟩ := of_ofScope hX
  rw [extract, hscope]
  refine Concludes.lift_bind (Settles.fetch hi) fun inst hinst => ?_
  have hop : f.operation? i = some inst.operation := Function.operation?_of_getElem? hinst
  cases hcase : inst.operation with
  | call callee args =>
    rw [hcase] at hop
    cases args with
    | nil => exact .reported _
    | cons array indices =>
      have harray := hf.settles_resolve (E := (Scope.ofFunction m f).RunsInCircle)
        (hf.has_operand hop List.mem_cons_self)
      refine Concludes.lift_bind harray fun o ho => ?_
      cases o with
      | none => exact .reported _
      | some handle =>
        have hhandle := ho handle rfl
        have hname : Settles (Scope.ofFunction m f).RunsInCircle (fun _ => True)
            (handle.name f) := by
          cases handle with
          | slot i => exact settles_valueName hhandle
          | param i => exact (Settles.fetch hhandle).map fun _ _ => trivial
        refine Concludes.lift_bind hname fun _ _ => ?_
        refine (hdims indices fun v hv => ?_).bind fun _ => .ok _
        exact hf.has_operand hop (List.mem_cons_of_mem array hv)
  | _ => exact .reported _

end Accesses

end Extractor

/-! ## The analysis -/

namespace Config

variable {c : Config} {m : Module} {f : Function} {X : Extractor}

theorem concludes_collect
    (hX : Extractor.ofScope (Scope.ofFunction m f) c.builtins c.policy = .ok X)
    (hm : m.WellReferenced) (hf : f.WellReferenced m) {places : List (Nat × Nat)}
    (hplaces : ∀ x ∈ places, x.2 < f.instructions.size) (s : AccessSummary) :
    Concludes (Scope.ofFunction m f).RunsInCircle (c.collect X s places) := by
  obtain ⟨hscope, -⟩ := Extractor.of_ofScope hX
  induction places generalizing s with
  | nil => exact .ok _
  | cons x rest ih =>
    obtain ⟨b, i⟩ := x
    have hi := hplaces (b, i) List.mem_cons_self
    have hrest := ih fun y hy => hplaces y (List.mem_cons_of_mem _ hy)
    rw [collect, hscope]
    refine Concludes.lift_bind (Settles.fetch hi) fun inst hinst => ?_
    have hop : f.operation? i = some inst.operation := Function.operation?_of_getElem? hinst
    have haccess : Settles (Scope.ofFunction m f).RunsInCircle (fun _ => True)
        (c.isAccess m inst) := by
      refine (hf.settles_callee hop).bind fun o _ => ?_
      cases o <;> exact .ok trivial
    refine Concludes.lift_bind haccess fun access _ => ?_
    cases access with
    | false => exact hrest s
    | true => exact (Extractor.concludes_extract hX hm hf hi _).bind fun a => hrest (s.add a)

/-- The analysis of a well-referenced function gives a kernel or reports a failure, unless
evolutions run in a circle. -/
theorem concludes_analyze (hm : m.WellReferenced) {index : Nat}
    (hindex : m.functions[index]? = some f) :
    Concludes (Scope.ofFunction m f).RunsInCircle (c.analyze m index) := by
  have hf := hm.function f (Array.mem_toList_iff.2 (Array.mem_of_getElem? hindex))
  have hfetch : fetch m.functions index = .ok f := fetch_eq_ok_iff.2 hindex
  rw [analyze, hfetch]
  refine Concludes.lift_bind (P := (· = f)) (.ok rfl) ?_
  rintro f rfl
  refine Concludes.lift_bind (Extractor.settles_ofScope hf).self fun X hX => ?_
  rw [collectOn_empty]
  have hcollect := concludes_collect hX.2 hm hf (fun x hx => (hf.mem_sites_lt hx).2)
    { name := f.displayName }
  generalize c.collect X { name := f.displayName } (sites f) = r at hcollect
  cases hcollect with
  | reported e => exact .reported _
  | endless hE => exact .endless hE
  | ok summary =>
    refine Concludes.lift_bind (hf.settles_provenance c.builtins) fun p _ => ?_
    cases summary.aggregate p with
    | error e => exact .reported _
    | ok arrays => exact .ok _

/-- What the analysis of a function looks up in lists is there: blocks and loops, what evolutions
and numbers of rounds refer to, and the first access to each array. -/
structure InRange (c : Config) (m : Module) (f : Function) : Prop where
  located : f.Located
  evolution : ∀ v, m.Has f v → Settles (Scope.ofFunction m f).RunsInCircle
    (fun e => e.Everywhere (RefersTo m f)) ((Scope.ofFunction m f).evolution v)
  rounds : ∀ l < f.loops.loops.size, Settles (Scope.ofFunction m f).RunsInCircle
    (fun e => e.Everywhere (RefersTo m f)) ((Scope.ofFunction m f).tripCount l)
  accessed : ∀ (X : Extractor) (s : AccessSummary),
    Extractor.ofScope (Scope.ofFunction m f) c.builtins c.policy = .ok X →
    (c.collectOn X {} { name := f.displayName } (sites f)).1 = .ok s → ∀ x ∈ s.arrays, x.2 ≠ []

theorem inRange (c : Config) (hm : m.WellReferenced) (hf : f.WellReferenced m) :
    c.InRange m f where
  located := hf.located
  evolution v hv := by
    refine (hf.settles_evolution hm hv).mono id fun e he => ?_
    exact he.mono fun n hn => hn.1.2
  rounds l hl := by
    refine (hf.settles_tripCount hm hl).mono id ?_
    rintro e (rfl | he)
    · exact .node trivial (by simp [operands])
    · exact he.mono fun n hn => hn.1.2
  accessed X s hX hs x hx := by
    -- an array is recorded when its first access is added
    rw [collectOn_empty] at hs
    obtain ⟨found, -, rfl⟩ := collect_eq_ok hs
    exact (((AccessSummary.groups_empty _).foldl_add found).mem_iff x.1 x.2).1 hx |>.2

/-- The analysis of a function of a well-referenced module looks up nothing that is not there. It
gives a kernel or reports a failure; only if the evolution of some instruction runs in a circle
does it give neither. -/
theorem analyze_in_range (c : Config) (m : Module) (hm : m.WellReferenced) (index : Nat)
    (hindex : index < m.functions.size) :
    ∃ f, m.functions[index]? = some f ∧ c.InRange m f ∧
      Concludes (Scope.ofFunction m f).RunsInCircle (c.analyze m index) := by
  have hget := getElem?_pos m.functions index hindex
  have hf := hm.function _ (Array.mem_toList_iff.2 (Array.mem_of_getElem? hget))
  exact ⟨_, hget, c.inRange hm hf, concludes_analyze hm hget⟩

/-- A kernel that stores zero to a row of a two-dimensional array, at the offset of its block. -/
def sweep : Function where
  name := "sweep"
  params := #[⟨"a", Ty.pointerTo (.struct "cudarrays::dynarray")⟩, ⟨"n", .int 32⟩]
  blocks := #[⟨"entry", [0]⟩, ⟨"loop", [1, 2, 3, 4, 5, 6]⟩, ⟨"exit", [7]⟩]
  instructions := #[
    ⟨0, .void, none, .branch 1⟩,
    ⟨1, .int 32, some "i", .phi [(0, .int 0), (1, .instruction 2)]⟩,
    ⟨1, .int 32, some "next", .binary .add (.instruction 1) (.int 1)⟩,
    ⟨1, Ty.pointerTo .float, none,
      .call 0 [.argument 0, .instruction 1, .constant (.expr 0)]⟩,
    ⟨1, .void, none, .store (.int 0) (.instruction 3)⟩,
    ⟨1, .truth, some "more", .compare .slt (.instruction 2) (.argument 1)⟩,
    ⟨1, .void, none, .branchIf (.instruction 5) 1 2⟩,
    ⟨2, .void, none, .ret none⟩]

/-- The module of that kernel. -/
def sweeping : Module where
  name := "module"
  functions := #[
    { name := "_ZN9cudarrays8dynarrayIfLj2EEclEii"
      demangled := some "cudarrays::dynarray<float, 2u>::operator()(int, int)"
      ret := Ty.pointerTo .float },
    sweep]
  globals := #[⟨"offset", .struct "dim3"⟩]
  constantExprs := #[⟨.element, [.constant (.global 0), .int 0, .int 0]⟩]

theorem wellReferenced_sweeping : sweeping.WellReferenced where
  function := by
    intro f hf
    have hf : f = { name := "_ZN9cudarrays8dynarrayIfLj2EEclEii"
                    demangled := some "cudarrays::dynarray<float, 2u>::operator()(int, int)"
                    ret := Ty.pointerTo .float } ∨ f = sweep := by
      simpa [sweeping] using hf
    rcases hf with rfl | rfl
    · exact ⟨by simp, by simp, by simp, by simp, by simp, Function.acyclic_of_earlier (by simp)⟩
    · refine ⟨?_, by decide, by decide, ?_, by decide, Function.acyclic_of_earlier (by decide)⟩
      · simp [sweep, sweeping, Operation.operands, Module.Has, Value.Within, Value.int]
      · simp [sweep, sweeping]
  constantExpr := by
    intro k e he
    obtain ⟨hk, rfl⟩ := Array.getElem?_eq_some_iff.1 he
    obtain rfl : k = 0 := Nat.lt_one_iff.1 hk
    simp [sweeping, ConstantExpr.Grounded, Value.int]

theorem analyze_in_range_sweeping :
    sweeping.WellReferenced ∧ (({} : Config).analyze sweeping 1).isOk = true ∧
      ∃ f, sweeping.functions[1]? = some f ∧ ({} : Config).InRange sweeping f ∧
        Concludes (Scope.ofFunction sweeping f).RunsInCircle
          (({} : Config).analyze sweeping 1) := by
  exact ⟨wellReferenced_sweeping, by decide +kernel,
    analyze_in_range {} sweeping wellReferenced_sweeping 1 (by decide)⟩

end Config

end GridAccess
