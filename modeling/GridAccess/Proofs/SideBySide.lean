import GridAccess.Proofs.AccessAxes
import GridAccess.Proofs.RelatedFormulas

set_option autoImplicit false

/-!
# Analyses side by side

Two analyses of the same function, in modules that resemble each other and with policies that mark
registers in related ways, go through the same steps: they describe the same accesses with the
same formulas, put them together in the same records, or fail alike. Only the marks can differ,
and those of each dimension and of each record are related again (`Config.analyze_related`).

With equality for the relation this says that a kernel is analysed in isolation: what is found does
not depend on the bodies of other functions (`Config.analyze_isolated`). With inclusion it says
what a policy for marks can change (`Config.analyze_policies`).
-/

namespace GridAccess

namespace AxisSet

theorem subset_iff {s t : AxisSet} :
    s.subset t = true ↔ ∀ a, s.contains a = true → t.contains a = true := by
  simp only [subset, List.all_eq_true, Bool.or_eq_true, Bool.not_eq_true', ← Bool.not_eq_true,
    ← imp_iff_not_or]
  exact ⟨fun h a => h a (by cases a <;> decide), fun h a _ => h a⟩

theorem additive_subset : Additive fun s t => s.subset t = true where
  empty := by decide
  union := by
    intro s t s' t' h h'
    rw [subset_iff] at h h' ⊢
    intro a ha
    rw [contains_union, Bool.or_eq_true] at ha ⊢
    exact ha.imp (h a) (h' a)

end AxisSet

variable {R : AxisSet → AxisSet → Prop}

/-! ## Results with related marks -/

/-- The formula is the same, and the marks are related. -/
structure Dimension.Related (R : AxisSet → AxisSet → Prop) (d d' : Dimension) : Prop where
  formula : d.formula = d'.formula
  axes : R d.axes d'.axes

/-- The accesses are the same, apart from the marks of their dimensions. -/
structure Access.Related (R : AxisSet → AxisSet → Prop) (a a' : Access) : Prop where
  site : a.site = a'.site
  handle : a.handle = a'.handle
  array : a.array = a'.array
  loop : a.loop = a'.loop
  dims : List.Forall₂ (Dimension.Related R) a.dims a'.dims
  isWrite : a.isWrite = a'.isWrite

/-- The groups are the same, apart from the marks in their accesses. -/
structure AccessSummary.Related (R : AxisSet → AxisSet → Prop) (s s' : AccessSummary) : Prop where
  name : s.name = s'.name
  arrays : List.Forall₂ (fun g g' => g.1 = g'.1 ∧ List.Forall₂ (Access.Related R) g.2 g'.2)
    s.arrays s'.arrays

/-- The records are the same, apart from the marks of their dimensions. -/
structure ArrayRecord.Related (R : AxisSet → AxisSet → Prop) (r r' : ArrayRecord) : Prop where
  handle : r.handle = r'.handle
  array : r.array = r'.array
  arg : r.arg = r'.arg
  dims : r.dims = r'.dims
  axes : List.Forall₂ R r.axes r'.axes
  isRead : r.isRead = r'.isRead
  isWritten : r.isWritten = r'.isWritten

/-- What is found in a kernel is the same, apart from the marks. -/
structure Kernel.Related (R : AxisSet → AxisSet → Prop) (k k' : Kernel) : Prop where
  index : k.index = k'.index
  name : k.name = k'.name
  accesses : k.accesses.Related R k'.accesses
  arrays : List.Forall₂ (ArrayRecord.Related R) k.arrays k'.arrays

/-! ### Equal marks -/

theorem forall₂_eq {α : Type} {P : α → α → Prop} {as bs : List α} (h : List.Forall₂ P as bs)
    (hP : ∀ a b, P a b → a = b) : as = bs :=
  List.forall₂_eq_eq_eq ▸ h.imp fun _ _ => hP _ _

theorem Dimension.Related.eq {d d' : Dimension} (h : d.Related Eq d') : d = d' := by
  obtain ⟨formula, axes⟩ := d
  obtain ⟨rfl, rfl⟩ := h
  rfl

theorem Access.Related.eq {a a' : Access} (h : a.Related Eq a') : a = a' := by
  obtain ⟨site, handle, array, loop, dims, isWrite⟩ := a
  obtain ⟨rfl, rfl, rfl, rfl, hdims, rfl⟩ := h
  obtain rfl : dims = a'.dims := forall₂_eq hdims fun _ _ => Dimension.Related.eq
  rfl

theorem AccessSummary.Related.eq {s s' : AccessSummary} (h : s.Related Eq s') : s = s' := by
  obtain ⟨name, arrays⟩ := s
  obtain ⟨rfl, harrays⟩ := h
  obtain rfl : arrays = s'.arrays := forall₂_eq harrays fun _ _ ⟨hhandle, hgroup⟩ =>
    Prod.ext hhandle (forall₂_eq hgroup fun _ _ => Access.Related.eq)
  rfl

theorem ArrayRecord.Related.eq {r r' : ArrayRecord} (h : r.Related Eq r') : r = r' := by
  obtain ⟨handle, array, arg, dims, axes, isRead, isWritten⟩ := r
  obtain ⟨rfl, rfl, rfl, rfl, haxes, rfl, rfl⟩ := h
  obtain rfl : axes = r'.axes := forall₂_eq haxes fun _ _ => id
  rfl

theorem Kernel.Related.eq {k k' : Kernel} (h : k.Related Eq k') : k = k' := by
  obtain ⟨index, name, accesses, arrays⟩ := k
  obtain ⟨rfl, rfl, haccesses, harrays⟩ := h
  obtain rfl : accesses = k'.accesses := haccesses.eq
  obtain rfl : arrays = k'.arrays := forall₂_eq harrays fun _ _ => ArrayRecord.Related.eq
  rfl

/-! ## Provenance -/

namespace Provenance

variable {m m' : Module} (hm : m.Resembles m') (t : Builtins) (f : Function)

include hm

theorem slotSource_congr : slotSource m' t f = slotSource m t f := by
  have hstep : slotStep m' t f = slotStep m t f := by
    funext v
    cases v with
    | argument i | constant c => rfl
    | instruction i =>
      rw [slotStep, slotStep]
      refine congrArg _ (funext fun inst => ?_)
      split
      · rfl
      · rfl
      · -- a conversion is recognised by its name and the number of its parameters
        exact hm.fetch_bind (fun _ => rfl) _
      · rfl
  funext v
  rw [slotSource, slotSource, hstep]

theorem storageSource_congr : storageSource m' t f = storageSource m t f := by
  funext ptr
  refine congrArg _ (funext fun root => congrArg _ (funext fun definition => ?_))
  rw [slotSource_congr hm]
  split
  · rfl
  · split
    · -- a call that returns storage is recognised by its name
      exact hm.fetch_bind (fun _ => rfl) _
    · rfl

/-- Where arrays come from does not depend on the bodies of other functions. -/
theorem ofFunction_congr : ofFunction m' t f = ofFunction m t f := by
  have hobserve : observe m' t f = observe m t f := by
    funext p inst
    rw [observe, observe, storageSource_congr hm, slotSource_congr hm]
  rw [ofFunction, ofFunction, hobserve]

end Provenance

/-! ## Accesses -/

theorem Writer.alike_ofScope {S : Scope} {m : Module} {b : Builtins} {p p' : MarkPolicy}
    (hm : S.module.Resembles m) (hmarks : ∀ r, R (p.marks r) (p'.marks r)) :
    (Writer.ofScope S b p).Alike R (Writer.ofScope (S.inModule m) b p') :=
  ⟨rfl, rfl, rfl, rfl, hm, hmarks⟩

namespace Extractor

variable {X : Extractor} {V : Writer} {m : Module}

/-- The extractor for the same function in another module, with another writer. -/
def inModule (X : Extractor) (m : Module) (V : Writer) : Extractor :=
  { scope := X.scope.inModule m, writer := V, stored := X.stored }

theorem ofScope_related (S : Scope) (m : Module) (b : Builtins) (p p' : MarkPolicy) :
    Alongside (fun X Y => X.scope = S ∧ X.writer = Writer.ofScope S b p ∧
      Y = X.inModule m (Writer.ofScope (S.inModule m) b p'))
      (ofScope S b p) (ofScope (S.inModule m) b p') := by
  have hsame : (S.inModule m).function = S.function := rfl
  rw [ofScope, ofScope, hsame]
  apply Alongside.same_bind
  intro roots
  exact .ok ⟨rfl, rfl, rfl⟩

variable (hR : Additive R) (hW : X.writer.Alike R V) (hfunction : V.function = X.writer.function)
  (hm : X.scope.module.Resembles m)

include hR hW hfunction hm

theorem dimension_related (index : Value) :
    Alongside (Dimension.Related R) (X.dimension index) ((X.inModule m V).dimension index) := by
  have hevolution : (X.inModule m V).scope.evolution = X.scope.evolution := rfl
  rw [dimension, dimension, hevolution]
  apply Alongside.same_bind
  intro e
  have hwritten := Writer.Alike.ofEvolution hR hW hfunction hm false e
  have hresult : (V.ofEvolution (X.scope.inModule m) e false).result =
      (X.writer.ofEvolution X.scope e false).result := hwritten.result.symm
  show Alongside _ ((X.writer.ofEvolution X.scope e false).result >>= _)
    ((V.ofEvolution (X.scope.inModule m) e false).result >>= _)
  rw [hresult]
  apply Alongside.same_bind
  intro formula
  -- the marks of a dimension are written on an empty sheet
  exact .ok ⟨rfl, hR.union hR.empty hwritten.axes⟩

/-- The dimensions of a call, one index after another. Those built so far are related. -/
theorem dimensions_related (site : Nat) (indices : List Value) : ∀ built built',
    List.Forall₂ (Dimension.Related R) built built' →
    Alongside (List.Forall₂ (Dimension.Related R)) (X.dimensions site built indices)
      ((X.inModule m V).dimensions site built' indices) := by
  induction indices with
  | nil =>
    intro built built' hbuilt
    exact .ok hbuilt
  | cons index rest ih =>
    intro built built' hbuilt
    -- a failure shows the formulas of the dimensions before it, but not their marks
    have hformulas : built.map (·.formula) = built'.map (·.formula) := by
      induction hbuilt with
      | nil => rfl
      | cons hd _ ih' => rw [List.map_cons, List.map_cons, hd.formula, ih']
    rw [dimensions, dimensions]
    have hdimension := dimension_related hR hW hfunction hm index
    generalize X.dimension index = x at hdimension ⊢
    generalize (X.inModule m V).dimension index = y at hdimension ⊢
    cases hdimension with
    | ok hd => exact ih _ _ (.cons hd hbuilt)
    | error e =>
      simp only [List.map_reverse, hformulas]
      exact .error _

/-- The access of a call. -/
theorem extract_related (site : Nat) (loop : Option Nat) :
    Alongside (Access.Related R) (X.extract site loop)
      ((X.inModule m V).extract site loop) := by
  have hsame : (X.inModule m V).scope.function = X.scope.function := rfl
  have hstored : (X.inModule m V).stored = X.stored := rfl
  rw [extract, extract, hsame, hstored]
  apply Alongside.same_bind
  intro inst
  split
  · apply Alongside.same_bind
    intro o
    cases o with
    | none => exact .error _
    | some handle =>
      apply Alongside.same_bind
      intro name
      apply (dimensions_related hR hW hfunction hm site _ [] [] .nil).bind
      intro dims dims' hdims
      exact .ok ⟨rfl, rfl, rfl, rfl, hdims, rfl⟩
  · exact .error _

end Extractor

/-! ## Summaries -/

section Lists

variable {α β : Type} {P : α → β → Prop} {as : List α} {bs : List β}

theorem forall₂_getElem? (h : List.Forall₂ P as bs) (i : Nat) : Option.Rel P as[i]? bs[i]? := by
  induction h generalizing i with
  | nil => exact .none
  | cons hab _ ih =>
    cases i with
    | zero => exact .some hab
    | succ i => exact ih i

theorem forall₂_find? {p : α → Bool} {q : β → Bool} (h : List.Forall₂ P as bs)
    (hpq : ∀ a b, P a b → p a = q b) : Option.Rel P (as.find? p) (bs.find? q) := by
  induction h with
  | nil => exact .none
  | @cons a b as bs hab _ ih =>
    rw [List.find?_cons, List.find?_cons, hpq a b hab]
    cases q b with
    | true => exact .some hab
    | false => exact ih

end Lists

/-- Changing related entries of one key in related tables. -/
theorem Sorted.forall₂_alter {κ α β : Type} [DecidableEq κ] [LT κ] [DecidableLT κ]
    {P : α → β → Prop} {f : Option α → α} {g : Option β → β}
    (hfg : ∀ x y, Option.Rel P x y → P (f x) (g y)) (k : κ) {as : List (κ × α)}
    {bs : List (κ × β)} (h : List.Forall₂ (fun x y => x.1 = y.1 ∧ P x.2 y.2) as bs) :
    List.Forall₂ (fun x y => x.1 = y.1 ∧ P x.2 y.2) (alter k f as) (alter k g bs) := by
  have hnone := hfg none none .none
  induction h with
  | nil => exact .cons ⟨rfl, hnone⟩ .nil
  | @cons x y as bs hxy hrest ih =>
    obtain ⟨j, a⟩ := x
    obtain ⟨j', b⟩ := y
    obtain ⟨rfl, hab⟩ := hxy
    rw [alter, alter]
    split
    · exact .cons ⟨rfl, hfg _ _ (.some hab)⟩ hrest
    · split
      · exact .cons ⟨rfl, hnone⟩ (.cons ⟨rfl, hab⟩ hrest)
      · exact .cons ⟨rfl, hab⟩ ih

namespace AccessSummary

variable {group group' : List Access}

theorem Related.add {s s' : AccessSummary} {a a' : Access} (hs : s.Related R s')
    (ha : a.Related R a') : (s.add a).Related R (s'.add a') := by
  refine ⟨hs.name, ?_⟩
  rw [AccessSummary.add, AccessSummary.add, ha.handle]
  apply Sorted.forall₂_alter _ _ hs.arrays
  intro x y hxy
  cases hxy with
  | none => exact .cons ha .nil
  | some hgroup => exact List.rel_append hgroup (.cons ha .nil)

/-- The marks of a dimension, over all accesses to an array. -/
theorem axesAt_related (hR : Additive R) (h : List.Forall₂ (Access.Related R) group group')
    (dim : Nat) : R (axesAt group dim) (axesAt group' dim) := by
  refine List.rel_foldl ?_ hR.empty h
  intro s s' hs a a' ha
  apply hR.union hs
  have hdim := forall₂_getElem? ha.dims dim
  generalize a.dims[dim]? = x at hdim ⊢
  generalize a'.dims[dim]? = y at hdim ⊢
  cases hdim with
  | none => exact hR.empty
  | some hd => exact hd.axes

/-- The record of an array. -/
theorem record_related (hR : Additive R) (p : Provenance) (h : Handle)
    (hgroup : List.Forall₂ (Access.Related R) group group') :
    Alongside (ArrayRecord.Related R) (record p h group) (record p h group') := by
  cases hgroup with
  | nil => exact .error _
  | @cons first first' rest rest' hfirst hrest =>
    have hgroup : List.Forall₂ (Access.Related R) (first :: rest) (first' :: rest') :=
      .cons hfirst hrest
    have hdims : first.dims.length = first'.dims.length := hfirst.dims.length_eq
    -- both groups agree on the number of dimensions, or differ at the same access
    have hother := forall₂_find? hgroup
      (p := fun a => decide (a.dims.length ≠ first.dims.length))
      (q := fun a => decide (a.dims.length ≠ first'.dims.length)) (by
        intro a a' ha
        rw [ha.dims.length_eq, hdims])
    rw [record, record]
    generalize (first :: rest).find? _ = x at hother ⊢
    generalize (first' :: rest').find? _ = y at hother ⊢
    cases hother with
    | some hother =>
      simp only [hfirst.array, hfirst.site, hdims, hother.site, hother.dims.length_eq]
      exact .error _
    | none =>
      cases p.paramOf? h with
      | none =>
        simp only [hfirst.array]
        exact .error _
      | some arg =>
        refine .ok ⟨rfl, hfirst.array, rfl, hdims, ?_, rfl, rfl⟩
        simp only [hdims]
        apply List.forall₂_map_left_iff.2
        apply List.forall₂_map_right_iff.2
        apply List.forall₂_same.2
        intro dim _
        exact axesAt_related hR hgroup dim

/-- The records of all arrays. -/
theorem Related.aggregate (hR : Additive R) {s s' : AccessSummary} (hs : s.Related R s')
    (p : Provenance) :
    Alongside (List.Forall₂ (ArrayRecord.Related R)) (s.aggregate p) (s'.aggregate p) := by
  apply Alongside.mapM hs.arrays
  rintro ⟨h, group⟩ ⟨h', group'⟩ ⟨rfl, hgroup⟩
  exact record_related hR p h hgroup

end AccessSummary

/-! ## The analysis of a kernel -/

namespace Config

variable {c c' : Config} {m m' : Module}

theorem isAccess_congr (hbuiltins : c'.builtins = c.builtins) (hm : m.Resembles m') :
    c'.isAccess m' = c.isAccess m := by
  funext inst
  rw [isAccess, isAccess, hbuiltins]
  exact hm.callee_bind (fun _ => rfl) inst

section Collect

variable {X : Extractor} {V : Writer} (hR : Additive R) (hW : X.writer.Alike R V)
  (hfunction : V.function = X.writer.function) (hm : X.scope.module.Resembles m)
  (hbuiltins : c'.builtins = c.builtins)

include hR hW hfunction hm hbuiltins

/-- The accesses of a function, site by site. The summaries so far are related. -/
theorem collect_related (places : List (Nat × Nat)) : ∀ s s', s.Related R s' →
    Alongside (AccessSummary.Related R) (c.collect X s places)
      (c'.collect (X.inModule m V) s' places) := by
  induction places with
  | nil =>
    intro s s' hs
    exact .ok hs
  | cons place rest ih =>
    intro s s' hs
    obtain ⟨b, i⟩ := place
    have hsame : (X.inModule m V).scope.function = X.scope.function := rfl
    have hforest : (X.inModule m V).scope.forest = X.scope.forest := rfl
    have haccess : c'.isAccess (X.inModule m V).scope.module = c.isAccess X.scope.module :=
      isAccess_congr hbuiltins hm
    rw [collect, collect, hsame, hforest, haccess]
    apply Alongside.same_bind
    intro inst
    apply Alongside.same_bind
    intro isAccess
    cases isAccess with
    | true =>
      apply (Extractor.extract_related hR hW hfunction hm i _).bind
      intro a a' ha
      exact ih _ _ (hs.add ha)
    | false => exact ih _ _ hs

end Collect

/-- Two analyses of a function, in modules that resemble each other and with policies that mark
registers in related ways, have the same result apart from the marks, which are related, or fail
alike. -/
theorem analyze_related (hR : Additive R) (hbuiltins : c'.builtins = c.builtins)
    (hmarks : ∀ r, R (c.policy.marks r) (c'.policy.marks r)) (hm : m.Resembles m') {index : Nat}
    (hindex : m'.functions[index]? = m.functions[index]?) :
    Alongside (Kernel.Related R) (c.analyze m index) (c'.analyze m' index) := by
  have hfetch : fetch m'.functions index = fetch m.functions index := by
    rw [fetch, fetch, hindex]
  rw [analyze, analyze, hfetch, hbuiltins]
  apply Alongside.same_bind
  intro f
  rw [Scope.ofFunction_inModule hm, Provenance.ofFunction_congr hm]
  have hX := Extractor.ofScope_related (Scope.ofFunction m f) m' c.builtins c.policy c'.policy
  apply hX.lift.bind
  rintro X _ ⟨hscope, hwriter, rfl⟩
  have hmodule : X.scope.module.Resembles m' := hscope ▸ hm
  have hW : X.writer.Alike R
      (Writer.ofScope ((Scope.ofFunction m f).inModule m') c.builtins c'.policy) :=
    hwriter ▸ Writer.alike_ofScope hm hmarks
  have hfunction : (Writer.ofScope ((Scope.ofFunction m f).inModule m') c.builtins
      c'.policy).function = X.writer.function := hwriter ▸ rfl
  have hcollect := collect_related hR hW hfunction hmodule hbuiltins (sites f)
    { name := f.displayName } { name := f.displayName } ⟨rfl, .nil⟩
  rw [collectOn_empty, collectOn_empty]
  generalize c.collect X _ _ = x at hcollect ⊢
  generalize c'.collect _ _ _ = y at hcollect ⊢
  cases hcollect with
  | error e => exact .error _
  | @ok summary summary' hsummary =>
    apply Alongside.same_bind
    intro p
    have harrays := hsummary.aggregate hR p
    generalize summary.aggregate p = x at harrays ⊢
    generalize summary'.aggregate p = y at harrays ⊢
    cases harrays with
    | error e => exact .error _
    | ok harrays => exact .ok ⟨rfl, rfl, hsummary, harrays⟩

end Config

/-! ## Isolation -/

/-- The modules are the same apart from the bodies of functions other than the one at a place. -/
structure Module.SharesKernel (m m' : Module) (index : Nat) : Prop extends m.Resembles m' where
  function : m'.functions[index]? = m.functions[index]?

namespace Config

/-- A kernel is analysed in isolation: with every configuration, what is found in it, or what the
analysis fails with, does not depend on the bodies of other functions. -/
theorem analyze_isolated (c : Config) (m m' : Module) (index : Nat)
    (h : m.SharesKernel m' index) : c.analyze m index = c.analyze m' index := by
  have hrelated : Alongside (Kernel.Related Eq) (c.analyze m index) (c.analyze m' index) :=
    analyze_related additive_eq rfl (fun _ => rfl) h.toResembles h.function
  exact hrelated.eq fun _ _ => Kernel.Related.eq

/-- The module of `blockElement` with bodies for the functions that the kernel calls. The body of
the first calls a function that is not there. -/
def blockElementWithBodies : Module :=
  { blockElementModule with
    functions := blockElementModule.functions.mapIdx fun i f => if i = 3 then f else
      { f with blocks := #[⟨"entry", [0]⟩], instructions := #[⟨0, .void, none, .call (99 * i) []⟩] } }

theorem analyze_isolated_blockElement :
    blockElementModule.SharesKernel blockElementWithBodies 3 ∧
    (∀ i < 3, blockElementModule.functions[i]?.map Function.isDeclaration = some true ∧
      blockElementWithBodies.functions[i]?.map Function.isDeclaration = some false) ∧
    ({} : Config).analyze blockElementModule 3 = .ok blockElementKernel ∧
    ({} : Config).analyze blockElementWithBodies 3 = .ok blockElementKernel := by
  have hshares : blockElementModule.SharesKernel blockElementWithBodies 3 :=
    ⟨⟨rfl, rfl, rfl, by decide +kernel⟩, by decide +kernel⟩
  have hfound : ({} : Config).analyze blockElementModule 3 = .ok blockElementKernel := by
    decide +kernel
  exact ⟨hshares, by decide +kernel, hfound, (analyze_isolated {} _ _ 3 hshares).symm.trans hfound⟩

end Config

/-! ## Policies -/

/-- What a register marks under the policy for block indices it marks under the one for all. -/
theorem MarkPolicy.marks_subset (r : Register) :
    (blockIndex.marks r).subset (anyIndex.marks r) = true := by
  obtain ⟨kind, axis⟩ := r
  cases kind <;> cases axis <;> rfl

/-- A policy changes the marks only. With marks for block indices alone, an analysis fails in the
same way as with marks for all indices, or it finds the same accesses and the same records, and the
marks of each dimension are among those for all indices. -/
theorem Config.analyze_policies (c : Config) (m : Module) (index : Nat) :
    Alongside (Kernel.Related fun s t => s.subset t = true)
      ({ c with policy := .blockIndex }.analyze m index)
      ({ c with policy := .anyIndex }.analyze m index) := by
  apply analyze_related AxisSet.additive_subset
  · rfl
  · exact MarkPolicy.marks_subset
  · exact Module.Resembles.refl m
  · rfl

end GridAccess
