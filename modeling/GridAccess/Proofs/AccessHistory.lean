import GridAccess.Proofs.Analysis
import GridAccess.Proofs.PartialEvolutions

set_option autoImplicit false

/-!
# Accesses whatever came before

An extractor that describes one access after another keeps two things from one to the next: the
evolutions it has found, and the sheet it writes on (`Desk`). Neither shows in what it describes.
The sheet is empty again after every access, described or not (`extractOn_empty`). The evolutions
noted are right, and all that are needed can be found from any of them (`exists_responds`). So the
response to a call is the one of an extractor that has not described anything yet
(`responds_whatever_before`).

The same theorem says what the response is made of. The indices of the call are described one by
one, each as if it were alone, and the last index is dimension zero. If some index cannot be
described, the first of them is reported, with the formulas of those before.
-/

namespace GridAccess

/-- What an extractor has at hand: the evolutions found so far, and the sheet it writes on. -/
structure Desk where
  found : Context.Table
  sheet : Sheet := {}

namespace Extractor

variable {X : Extractor} {d d' : Desk} {t t' : Context.Table} {site : Nat} {loop : Option Nat}
  {r : Except SiteFailure Access}

/-- The extractor with no other evolutions than those in a table. -/
def knowing (X : Extractor) (t : Context.Table) : Extractor :=
  { X with scope := ⟨X.scope.toContext, t⟩ }

@[simp] theorem knowing_evolutions (X : Extractor) : X.knowing X.scope.evolutions = X := rfl

/-- The desk of an extractor that has not described anything yet. -/
def freshDesk (X : Extractor) : Desk := { found := X.scope.openTable }

/-- An extractor describes an access or reports that it cannot. It finds some more evolutions first;
then those it has noted have to do. -/
inductive Responds (X : Extractor) (d : Desk) (site : Nat) (loop : Option Nat) :
    Except SiteFailure Access → Desk → Prop
  -- which evolutions are found is left open: those that are needed, in any order, or others
  | respond {t : Context.Table} {x : Except (Failure SiteFailure) Access}
      {r : Except SiteFailure Access} {sheet : Sheet}
      (hnotes : Relation.ReflTransGen X.scope.Notes d.found t)
      (hextract : (X.knowing t).extractOn d.sheet site loop = (x, sheet))
      (hreport : Failure.report x = .ok r) : Responds X d site loop r ⟨t, sheet⟩

/-- The desk after some accesses, described or not, in any order. -/
def Reaches (X : Extractor) (d : Desk) : Prop :=
  Relation.ReflTransGen (fun d d' => ∃ site loop r, X.Responds d site loop r d') X.freshDesk d

/-! ## The evolutions -/

section Knowing

variable (ht : ∀ v, Refines (fun _ => True) (Context.lookup t v) (Context.lookup t' v))

include ht

theorem refines_dimension (X : Extractor) (index : Value) :
    Refines Failure.IsFault ((X.knowing t).dimension index) ((X.knowing t').dimension index) := by
  apply (ht index).lift.bind
  intro e
  -- the formula is stopped by a fault, or is the same down to its marks
  rcases X.writer.lags_ofEvolution (C := X.scope.toContext) false ht e with ⟨f, hf⟩ | heq
  · refine Or.inl ⟨.fault f, trivial, ?_⟩
    exact bind_eq_error_iff.2 (Or.inl hf)
  · right
    simp only [knowing]
    rw [heq]

theorem refines_dimensions (X : Extractor) (site : Nat) (built : List Dimension)
    (indices : List Value) :
    Refines Failure.IsFault ((X.knowing t).dimensions site built indices)
      ((X.knowing t').dimensions site built indices) := by
  induction indices generalizing built with
  | nil => exact .refl _
  | cons index rest ih =>
    rw [dimensions, dimensions]
    rcases refines_dimension ht X index with ⟨e, he, heq⟩ | heq
    · rw [heq]
      cases e with
      | fault f => exact .of_error trivial _
      | reported error => exact he.elim
    · rw [heq]
      cases (X.knowing t').dimension index with
      | error e => exact .refl _
      | ok dim => exact ih (dim :: built)

/-- With fewer evolutions, an access is stopped by a fault or described alike. -/
theorem refines_extract (X : Extractor) (site : Nat) (loop : Option Nat) :
    Refines Failure.IsFault ((X.knowing t).extract site loop)
      ((X.knowing t').extract site loop) := by
  apply (Refines.refl (Failure.lift (X.scope.function.instruction site))).bind
  intro inst
  cases inst.operation with
  | call callee args =>
    cases args with
    | nil => exact .refl _
    | cons array indices =>
      apply (Refines.refl (Failure.lift (Handle.resolve X.scope.function array))).bind
      intro handle
      cases handle with
      | none => exact .refl _
      | some handle =>
        apply (Refines.refl (Failure.lift (Handle.name X.scope.function handle))).bind
        intro name
        apply (refines_dimensions ht X site [] indices).bind
        intro dims
        exact .refl _
  | _ => exact .refl _

end Knowing

/-! ## Desks -/

/-- Nothing on the desk is wrong: the evolutions noted are right, and the sheet is empty. -/
structure Tidy (X : Extractor) (d : Desk) : Prop where
  found : d.found.Firms X.scope.toContext.evolutions
  sheet : d.sheet = {}

theorem tidy_freshDesk (X : Extractor) : X.Tidy X.freshDesk := ⟨X.scope.firms_openTable, rfl⟩

theorem Responds.tidy (hd : X.Tidy d) (h : X.Responds d site loop r d') : X.Tidy d' := by
  cases h with
  | respond hnotes hextract hreport =>
    rw [hd.sheet, extractOn_empty] at hextract
    exact ⟨Context.firms_of_notes hd.found hnotes, (congrArg Prod.snd hextract).symm⟩

theorem Reaches.tidy (h : X.Reaches d) : X.Tidy d := by
  induction h with
  | refl => exact X.tidy_freshDesk
  | tail _ hstep ih =>
    obtain ⟨site, loop, r, hresponds⟩ := hstep
    exact hresponds.tidy ih

section Complete

variable (hX : X.scope.evolutions = X.scope.toContext.evolutions)

include hX

/-- A response is the one from all evolutions. -/
theorem Responds.report_eq (hd : X.Tidy d) (h : X.Responds d site loop r d') :
    Failure.report (X.extract site loop) = .ok r := by
  cases h with
  | @respond t x r sheet hnotes hextract hreport =>
    rw [hd.sheet, extractOn_empty] at hextract
    obtain rfl : (X.knowing t).extract site loop = x := congrArg Prod.fst hextract
    have hfirms := Context.firms_of_notes hd.found hnotes
    rw [← hX] at hfirms
    have hlags := fun v => (hfirms.lookup v).mono (G := fun _ => True) fun _ _ => trivial
    have hrefines := refines_extract hlags X site loop
    rw [knowing_evolutions] at hrefines
    exact hrefines.report_eq hreport

/-- What there is to be said from all evolutions can be said from any tidy desk. -/
theorem exists_responds (hd : X.Tidy d) (h : Failure.report (X.extract site loop) = .ok r) :
    ∃ d', X.Responds d site loop r d' := by
  -- with everything noted that can be found, nothing is missing
  obtain ⟨t, hnotes, hend⟩ := X.scope.exists_complete d.found
  have hall := Context.lags_evolutions hend (Context.firms_of_notes hd.found hnotes)
  rw [← hX] at hall
  have hrefines := refines_extract hall X site loop
  rw [knowing_evolutions] at hrefines
  refine ⟨⟨t, {}⟩, .respond hnotes ?_ (hrefines.report_eq h)⟩
  rw [hd.sheet, extractOn_empty]

theorem exists_responds_iff (hd : X.Tidy d) :
    (∃ d', X.Responds d site loop r d') ↔ Failure.report (X.extract site loop) = .ok r :=
  ⟨fun ⟨_, h⟩ => h.report_eq hX hd, exists_responds hX hd⟩

end Complete

/-! ## Dimension by dimension -/

/-- The dimensions of indices that can all be described. -/
theorem dimensions_of_forall₂ {ds : List Dimension} {indices : List Value}
    (h : List.Forall₂ (fun v d => X.dimension v = .ok d) indices ds) (site : Nat)
    (built : List Dimension) :
    X.dimensions site built indices = .ok (ds.reverse ++ built) := by
  induction h generalizing built with
  | nil => rfl
  | @cons v dim vs ds hd _ ih =>
    rw [dimensions, hd]
    dsimp only
    rw [ih, List.reverse_cons, List.append_assoc, List.singleton_append]

/-- A call fails at the first index that cannot be described. -/
theorem dimensions_eq_reported_iff {built : List Dimension} {indices : List Value}
    {failure : SiteFailure} :
    X.dimensions site built indices = .error (.reported failure) ↔
      ∃ before index after ds, indices = before ++ index :: after ∧
        List.Forall₂ (fun v d => X.dimension v = .ok d) before ds ∧
        X.dimension index = .error (.reported failure.error) ∧ failure.site = site ∧
        failure.built = (built.reverse ++ ds).map (·.formula) := by
  constructor
  · intro h
    -- each index that can be described goes from the indices left to those before
    induction indices generalizing built with
    | nil => cases h
    | cons index rest ih =>
      rw [dimensions] at h
      cases hd : X.dimension index with
      | error e =>
        rw [hd] at h
        obtain ⟨error, rfl, rfl⟩ := Failure.map_eq_reported_iff.1 (Except.error.inj h)
        exact ⟨[], index, rest, [], rfl, .nil, hd, rfl, by simp⟩
      | ok dim =>
        rw [hd] at h
        obtain ⟨before, index', after, ds, rfl, hds, herror, hsite, hbuilt⟩ := ih h
        exact ⟨index :: before, index', after, dim :: ds, rfl, .cons hd hds, herror, hsite,
          by simpa using hbuilt⟩
  · rintro ⟨before, index, after, ds, rfl, hds, herror, hsite, hbuilt⟩
    induction hds generalizing built with
    | nil =>
      rw [List.nil_append, dimensions, herror]
      cases failure
      simp_all [Failure.map]
    | @cons v dim vs ds hd _ ih =>
      rw [List.cons_append, dimensions, hd]
      exact ih (by simpa using hbuilt)

/-- The argument that a dimension describes, counted from the end of the call. -/
theorem exists_argument {ds : List Dimension} {array : Value} {indices : List Value}
    (h : List.Forall₂ (fun v d => X.dimension v = .ok d) indices ds) {k : Nat}
    (hk : k < indices.length) :
    ∃ index dim, (array :: indices)[indices.length - k]? = some index ∧
      X.dimension index = .ok dim ∧ ds.reverse[k]? = some dim := by
  have hlength := h.length_eq
  have hlt : ds.length - 1 - k < ds.length := by omega
  obtain ⟨index, hindex, hdim⟩ := exists_of_forall₂ h (List.getElem?_eq_getElem hlt)
  refine ⟨index, _, ?_, hdim, ?_⟩
  · rw [show indices.length - k = (ds.length - 1 - k) + 1 by omega, List.getElem?_cons_succ, hindex]
  · rw [List.getElem?_reverse (by omega), List.getElem?_eq_getElem hlt]

/-! ## Calls of known arrays -/

/-- The call at a site has these arguments, and the array among them is known. -/
structure Targets (X : Extractor) (site : Nat) (array : Value) (indices : List Value)
    (handle : Handle) (name : String) : Prop where
  call : ∃ inst callee, X.scope.function.instructions[site]? = some inst ∧
    inst.operation = .call callee (array :: indices)
  resolves : Handle.resolve X.scope.function array = .ok (some handle)
  named : Handle.name X.scope.function handle = .ok name

namespace Targets

variable {array : Value} {indices : List Value} {handle : Handle} {name : String}

theorem extract_eq (h : X.Targets site array indices handle name) (loop : Option Nat) :
    X.extract site loop =
      (fun dims => Access.mk site handle name loop dims (X.stored.contains site)) <$>
        X.dimensions site [] indices := by
  obtain ⟨inst, callee, hinst, hop⟩ := h.call
  have hfetch : X.scope.function.instruction site = .ok inst := fetch_eq_ok_iff.2 hinst
  rw [extract, hfetch, Failure.lift, ok_bind, hop]
  dsimp only
  rw [h.resolves, Failure.lift, ok_bind]
  dsimp only
  rw [h.named, Failure.lift, ok_bind]
  cases X.dimensions site [] indices <;> rfl

/-- The access is described if every index is. -/
theorem extract_eq_ok_iff (h : X.Targets site array indices handle name) {a : Access} :
    X.extract site loop = .ok a ↔
      ∃ ds, List.Forall₂ (fun v d => X.dimension v = .ok d) indices ds ∧
        Access.mk site handle name loop ds.reverse (X.stored.contains site) = a := by
  rw [h.extract_eq, map_eq_ok_iff]
  constructor
  · rintro ⟨dims, hdims, rfl⟩
    obtain ⟨ds, hds, rfl⟩ := dimensions_eq_ok hdims
    exact ⟨ds, hds, by rw [List.append_nil]⟩
  · rintro ⟨ds, hds, rfl⟩
    exact ⟨ds.reverse, by rw [dimensions_of_forall₂ hds, List.append_nil], rfl⟩

end Targets

/-- An access is described the same whatever came before, and dimension by dimension. After any
accesses, described or not, the response to a call is the response of an extractor with a fresh
desk, and the sheet is empty again. For a call of a known array with `n` indices, all is well if
every index can be described alone; then there are `n` dimensions, and dimension `k` is that of
argument `n - k`. Otherwise the first index that cannot be described is reported, with the formulas
of those before it in the order of the call. -/
theorem responds_whatever_before (m : Module) (f : Function) (builtins : Builtins)
    (policy : MarkPolicy) (X : Extractor)
    (hX : Extractor.ofScope (Scope.ofFunction m f) builtins policy = .ok X) (d : Desk)
    (hd : X.Reaches d) (site : Nat) (loop : Option Nat) :
    -- what came before neither adds a response nor takes one away
    (∀ r, (∃ d', X.Responds d site loop r d') ↔ ∃ d', X.Responds X.freshDesk site loop r d') ∧
    (∀ r d', X.Responds d site loop r d' → d'.sheet = {} ∧
      ∀ r' d'', X.Responds X.freshDesk site loop r' d'' → r' = r) ∧
    -- for a known array, each index counts alone
    ∀ array indices handle name, X.Targets site array indices handle name →
      ((∃ a d', X.Responds d site loop (.ok a) d') ↔
        ∀ index ∈ indices, ∃ dim, X.dimension index = .ok dim) ∧
      (∀ a d', X.Responds d site loop (.ok a) d' →
        a.site = site ∧ a.handle = handle ∧ a.array = name ∧ a.loop = loop ∧
          a.isWrite = X.stored.contains site ∧ a.dims.length = indices.length ∧
          ∀ k < indices.length, ∃ index dim,
            (array :: indices)[indices.length - k]? = some index ∧
              X.dimension index = .ok dim ∧ a.dims[k]? = some dim) ∧
      ∀ failure, (∃ d', X.Responds d site loop (.error failure) d') ↔
        ∃ before index after dims, indices = before ++ index :: after ∧
          List.Forall₂ (fun v dim => X.dimension v = .ok dim) before dims ∧
          X.dimension index = .error (.reported failure.error) ∧ failure.site = site ∧
          failure.built = dims.map (·.formula) := by
  have hS : X.scope.evolutions = X.scope.toContext.evolutions := by
    rw [(of_ofScope hX).1]
    rfl
  have hfresh := X.tidy_freshDesk
  refine ⟨fun r => ?_, fun r d' h => ⟨(h.tidy hd.tidy).sheet, fun r' d'' h' => ?_⟩, ?_⟩
  · rw [exists_responds_iff hS hd.tidy, exists_responds_iff hS hfresh]
  · exact Except.ok.inj ((h'.report_eq hS hfresh).symm.trans (h.report_eq hS hd.tidy))
  intro array indices handle name htargets
  -- from here on the desk does not matter
  simp only [exists_responds_iff hS hd.tidy, Failure.report_eq_ok_ok_iff,
    Failure.report_eq_ok_error_iff, htargets.extract_eq_ok_iff]
  refine ⟨⟨?_, fun h => ?_⟩, fun a d' h => ?_, fun failure => ?_⟩
  · rintro ⟨a, ds, hds, -⟩ index hindex
    obtain ⟨dim, -, hdim⟩ := exists_mem_of_forall₂ hds.flip hindex
    exact ⟨dim, hdim⟩
  · obtain ⟨ds, hds⟩ := exists_forall₂ h
    exact ⟨_, ds, hds, rfl⟩
  · obtain ⟨ds, hds, rfl⟩ :=
      htargets.extract_eq_ok_iff.1 (Failure.report_eq_ok_ok_iff.1 (h.report_eq hS hd.tidy))
    refine ⟨rfl, rfl, rfl, rfl, rfl, ?_, fun k hk => exists_argument hds hk⟩
    rw [List.length_reverse, hds.length_eq]
  · rw [htargets.extract_eq, map_eq_error_iff, dimensions_eq_reported_iff]
    simp only [List.reverse_nil, List.nil_append]

/-- A kernel with two accesses to one array. The second index of the first access cannot be
described, which shows only after its axis has been marked. -/
def lateFailure : Function where
  name := "kernel"
  params := #[⟨"a", .void⟩]
  blocks := #[⟨"entry", [0, 1, 2, 3, 4, 5, 6]⟩]
  instructions := #[
    ⟨0, .word, none, .call 1 []⟩,
    ⟨0, .word, none, .call 2 []⟩,
    ⟨0, .word, none, .binary .xor (.instruction 1) (.constant (.int 1))⟩,
    ⟨0, .word, none, .binary .add (.instruction 1) (.instruction 2)⟩,
    ⟨0, Ty.pointerTo .float, none, .call 0 [.argument 0, .instruction 0, .instruction 3]⟩,
    ⟨0, Ty.pointerTo .float, none, .call 0 [.argument 0, .instruction 0, .instruction 1]⟩,
    ⟨0, .void, none, .ret none⟩]

/-- The module of that kernel. -/
def lateFailureModule : Module where
  name := "module"
  functions := #[
    { name := "at", demangled := some "cudarrays::dynarray<float, 2u>::operator()(int, int)" },
    { name := "llvm.nvvm.read.ptx.sreg.ctaid.x" },
    { name := "llvm.nvvm.read.ptx.sreg.ctaid.y" },
    lateFailure]

/-- The extractor of that kernel. -/
def lateFailureExtractor : Extractor where
  scope := Scope.ofFunction lateFailureModule lateFailure
  writer := Writer.ofScope (Scope.ofFunction lateFailureModule lateFailure) {} .blockIndex
  stored := []

/-- What it reports about the first access. -/
def lateFailureReport : SiteFailure where
  site := 4
  error := .unsupported "operator" "%2 = xor"
  built := ["b.x"]

theorem responds_whatever_before_lateFailure :
    Extractor.ofScope (Scope.ofFunction lateFailureModule lateFailure) {} .blockIndex =
        .ok lateFailureExtractor ∧
      ∃ d, lateFailureExtractor.Responds lateFailureExtractor.freshDesk 4 none
          (.error lateFailureReport) d ∧
        lateFailureExtractor.Reaches d ∧
        lateFailureExtractor.Targets 5 (.argument 0) [.instruction 0, .instruction 1]
          (.param 0) "a" ∧
        ∃ a d', lateFailureExtractor.Responds d 5 none (.ok a) d' ∧ d'.sheet = {} ∧
          a.dims.length = 2 ∧
          a.dims[0]? = some ⟨"b.y", .single .y⟩ := by
  have hX : Extractor.ofScope (Scope.ofFunction lateFailureModule lateFailure) {} .blockIndex =
      .ok lateFailureExtractor := rfl
  have hreport : Failure.report (lateFailureExtractor.extract 4 none) =
      .ok (.error lateFailureReport) := by decide +kernel
  obtain ⟨d, hfirst⟩ := exists_responds rfl (tidy_freshDesk _) hreport
  have hd : lateFailureExtractor.Reaches d := .single ⟨4, none, _, hfirst⟩
  have htargets : lateFailureExtractor.Targets 5 (.argument 0) [.instruction 0, .instruction 1]
      (.param 0) "a" := ⟨⟨_, 0, rfl, rfl⟩, rfl, rfl⟩
  obtain ⟨-, hempty, hcall⟩ := responds_whatever_before _ _ _ _ _ hX d hd 5 none
  obtain ⟨hdescribed, hdims, -⟩ := hcall _ _ _ _ htargets
  have hx : lateFailureExtractor.dimension (.instruction 0) = .ok ⟨"b.x", .single .x⟩ := by
    decide +kernel
  have hy : lateFailureExtractor.dimension (.instruction 1) = .ok ⟨"b.y", .single .y⟩ := by
    decide +kernel
  obtain ⟨a, d', hsecond⟩ := hdescribed.2 (by simp [hx, hy])
  obtain ⟨-, -, -, -, -, hlength, hall⟩ := hdims a d' hsecond
  obtain ⟨index, dim, hindex, hdim, hzero⟩ := hall 0 (by decide)
  obtain rfl : Value.instruction 1 = index := Option.some.inj hindex
  rw [Except.ok.inj (hdim.symm.trans hy)] at hzero
  exact ⟨hX, d, hfirst, hd, htargets, a, d', hsecond, (hempty _ _ hsecond).1, hlength, hzero⟩

end Extractor

end GridAccess
