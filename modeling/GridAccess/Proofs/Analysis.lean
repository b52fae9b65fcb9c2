import GridAccess.Kernel.Analysis
import GridAccess.Proofs.Grouping
import GridAccess.Proofs.Outcome

set_option autoImplicit false

/-!
# The parts of an analysis

All accesses of a kernel are described on one sheet. It is empty again after every access, described
or not (`extractOn_empty`), so that the analysis finds what each site gives on its own
(`collectOn_empty`).

A successful analysis of a kernel has found an extractor, the accesses, the provenance of arrays
and the records (`analyze_eq_ok`); a failure that is reported names the kernel
(`kernel_of_reported`). The accesses are those of the calls of element accesses, in the order of
the sites (`collect_eq_ok`), and each of them is made of what its call says (`extract_eq_ok`).
-/

namespace GridAccess

/-- Instruction `i` of a function calls `g` with these arguments. -/
def Module.Calls (m : Module) (f : Function) (i : Nat) (g : Function) (args : List Value) : Prop :=
  ∃ inst callee, f.instructions[i]? = some inst ∧ inst.operation = .call callee args ∧
    m.functions[callee]? = some g

namespace Module

variable {m : Module} {f g g' : Function} {i : Nat} {args args' : List Value}

theorem Calls.unique (h : m.Calls f i g args) (h' : m.Calls f i g' args') :
    g = g' ∧ args = args' := by
  obtain ⟨inst, callee, hinst, hop, hg⟩ := h
  obtain ⟨inst', callee', hinst', hop', hg'⟩ := h'
  obtain rfl := Option.some.inj (hinst.symm.trans hinst')
  cases hop.symm.trans hop'
  exact ⟨Option.some.inj (hg.symm.trans hg'), rfl⟩

theorem callee_eq_some_iff {inst : Instruction} {o : Option Function}
    (hinst : f.instructions[i]? = some inst) (h : m.callee inst = .ok o) (g : Function) :
    o = some g ↔ ∃ args, m.Calls f i g args := by
  rw [callee] at h
  cases hop : inst.operation with
  | call place args =>
    rw [hop] at h
    obtain ⟨g', hg', rfl⟩ := map_eq_ok_iff.1 h
    have hcall : m.Calls f i g' args := ⟨inst, place, hinst, hop, fetch_eq_ok_iff.1 hg'⟩
    constructor
    · intro hg
      obtain rfl := Option.some.inj hg
      exact ⟨args, hcall⟩
    · rintro ⟨args', hcall'⟩
      rw [(hcall.unique hcall').1]
  | _ =>
    rw [hop] at h
    obtain rfl := Except.ok.inj h
    simp only [reduceCtorEq, false_iff]
    rintro ⟨args, inst', place, hinst', hop', -⟩
    obtain rfl := Option.some.inj (hinst.symm.trans hinst')
    cases hop.symm.trans hop'

end Module

/-! ## Accesses on their own -/

namespace Extractor

/-- An index is described on an empty sheet as if it were alone, and the sheet is empty again. -/
theorem dimensionOn_empty (X : Extractor) (index : Value) :
    X.dimensionOn {} index = (X.dimension index, {}) := by
  rw [dimensionOn, dimension]
  cases X.scope.evolution index with
  | error f => rfl
  | ok e =>
    rw [Failure.lift, ok_bind]
    dsimp only
    -- the sheet is taken off after a formula and after one that was given up
    cases (X.writer.ofEvolution X.scope e false).result <;> rfl

theorem dimensionsOn_empty (X : Extractor) (site : Nat) (built : List Dimension)
    (indices : List Value) :
    X.dimensionsOn site {} built indices = (X.dimensions site built indices, {}) := by
  induction indices generalizing built with
  | nil => rfl
  | cons index rest ih =>
    rw [dimensionsOn, dimensions, dimensionOn_empty]
    cases X.dimension index with
    | error e => rfl
    | ok dim => exact ih (dim :: built)

/-- An access is described on an empty sheet as without one, and the sheet is empty again. -/
theorem extractOn_empty (X : Extractor) (site : Nat) (loop : Option Nat) :
    X.extractOn {} site loop = (X.extract site loop, {}) := by
  rw [extractOn, extract]
  cases X.scope.function.instruction site with
  | error f => rfl
  | ok inst =>
    rw [Failure.lift, ok_bind]
    dsimp only
    cases inst.operation with
    | call callee args =>
      cases args with
      | nil => rfl
      | cons array indices =>
        dsimp only
        rcases Handle.resolve X.scope.function array with f | handle | handle
        · rfl
        · rfl
        · rw [Failure.lift, ok_bind]
          dsimp only
          rw [dimensionsOn_empty]
          cases Handle.name X.scope.function handle with
          | error f => rfl
          | ok name => cases X.dimensions site [] indices <;> rfl
    | _ => rfl

end Extractor

namespace Config

variable {c : Config} {m : Module} {f : Function} {X : Extractor} {p : Provenance} {k : Kernel}

/-- The accesses at some sites, each described on its own, added to a summary. -/
def collect (c : Config) (X : Extractor) (s : AccessSummary) :
    List (Nat × Nat) → Except (Failure SiteFailure) AccessSummary
  | [] => .ok s
  | (b, i) :: rest => do
    let inst ← Failure.lift (X.scope.function.instruction i)
    if ← Failure.lift (c.isAccess X.scope.module inst) then
      let a ← X.extract i (X.scope.forest.innermost? b)
      c.collect X (s.add a) rest
    else c.collect X s rest

/-- On an empty sheet all accesses are described as on their own: each leaves the sheet empty. -/
theorem collectOn_empty (c : Config) (X : Extractor) (s : AccessSummary)
    (places : List (Nat × Nat)) : c.collectOn X {} s places = (c.collect X s places, {}) := by
  induction places generalizing s with
  | nil => rfl
  | cons place rest ih =>
    obtain ⟨b, i⟩ := place
    rw [collectOn, collect]
    cases X.scope.function.instruction i with
    | error e => rfl
    | ok inst =>
      rw [Failure.lift, ok_bind, ok_bind]
      rcases c.isAccess X.scope.module inst with e | isAccess
      · rfl
      · cases isAccess with
        | false => exact ih s
        | true =>
          rw [Failure.lift, ok_bind, X.extractOn_empty]
          dsimp only
          cases X.extract i (X.scope.forest.innermost? b) with
          | error e => rfl
          | ok a => exact ih (s.add a)

/-! ## The parts -/

/-- What a successful analysis of function `f` has found. -/
structure Analysis (c : Config) (m : Module) (f : Function) (X : Extractor) (p : Provenance)
    (k : Kernel) : Prop where
  extractor : Extractor.ofScope (Scope.ofFunction m f) c.builtins c.policy = .ok X
  accesses : c.collect X { name := f.displayName } (sites f) = .ok k.accesses
  provenance : Provenance.ofFunction m c.builtins f = .ok p
  arrays : k.accesses.aggregate p = .ok k.arrays

theorem analyze_eq_ok {index : Nat} (h : c.analyze m index = .ok k) :
    ∃ f X p, m.functions[index]? = some f ∧ c.Analysis m f X p k := by
  rw [analyze, bind_eq_ok_iff] at h
  obtain ⟨f, hf, h⟩ := h
  obtain ⟨X, hX, h⟩ := bind_eq_ok_iff.1 h
  rw [collectOn_empty] at h
  cases hcollect : c.collect X { name := f.displayName } (sites f) with
  | error e =>
    rw [hcollect] at h
    cases h
  | ok summary =>
    rw [hcollect] at h
    obtain ⟨p, hp, h⟩ := bind_eq_ok_iff.1 h
    cases harrays : summary.aggregate p with
    | error e =>
      rw [harrays] at h
      cases h
    | ok arrays =>
      rw [harrays] at h
      obtain rfl := pure_eq_ok_iff.1 h
      exact ⟨f, X, p, fetch_eq_ok_iff.1 (Failure.lift_eq_ok_iff.1 hf), Failure.lift_eq_ok_iff.1 hX,
        hcollect, Failure.lift_eq_ok_iff.1 hp, harrays⟩

/-- A failure that is reported names the function that was analysed. -/
theorem kernel_of_reported {index : Nat} {e : KernelFailure}
    (h : c.analyze m index = .error (.reported e)) :
    ∃ f, m.functions[index]? = some f ∧ e.kernel = f.displayName := by
  rw [analyze, bind_eq_error_iff] at h
  rcases h with h | ⟨f, hf, h⟩
  · exact absurd h Failure.lift_ne_reported
  refine ⟨f, fetch_eq_ok_iff.1 (Failure.lift_eq_ok_iff.1 hf), ?_⟩
  rcases bind_eq_error_iff.1 h with h | ⟨X, -, h⟩
  · exact absurd h Failure.lift_ne_reported
  rw [collectOn_empty] at h
  cases hcollect : c.collect X { name := f.displayName } (sites f) with
  | error x =>
    rw [hcollect] at h
    obtain ⟨failure, -, rfl⟩ := Failure.map_eq_reported_iff.1 (Except.error.inj h)
    rfl
  | ok summary =>
    rw [hcollect] at h
    rcases bind_eq_error_iff.1 h with h | ⟨p, -, h⟩
    · exact absurd h Failure.lift_ne_reported
    cases harrays : summary.aggregate p with
    | error x =>
      rw [harrays] at h
      cases h
      rfl
    | ok arrays =>
      rw [harrays] at h
      cases h

/-- The accesses that are found at some sites, in the order of the sites. -/
inductive Finds (c : Config) (X : Extractor) : List (Nat × Nat) → List Access → Prop
  | done : Finds c X [] []
  | pass {b i : Nat} {rest : List (Nat × Nat)} {found : List Access} {inst : Instruction}
      (hinst : X.scope.function.instructions[i]? = some inst)
      (hother : c.isAccess X.scope.module inst = .ok false) (h : Finds c X rest found) :
      Finds c X ((b, i) :: rest) found
  | access {b i : Nat} {rest : List (Nat × Nat)} {found : List Access} {inst : Instruction}
      {a : Access} (hinst : X.scope.function.instructions[i]? = some inst)
      (haccess : c.isAccess X.scope.module inst = .ok true)
      (ha : X.extract i (X.scope.forest.innermost? b) = .ok a) (h : Finds c X rest found) :
      Finds c X ((b, i) :: rest) (a :: found)

/-- The accesses found are added one after another. -/
theorem collect_eq_ok {s t : AccessSummary} {places : List (Nat × Nat)}
    (h : c.collect X s places = .ok t) :
    ∃ found, c.Finds X places found ∧ t = found.foldl AccessSummary.add s := by
  induction places generalizing s with
  | nil =>
    cases h
    exact ⟨[], .done, rfl⟩
  | cons place rest ih =>
    obtain ⟨b, i⟩ := place
    rw [collect, bind_eq_ok_iff] at h
    obtain ⟨inst, hinst, h⟩ := h
    replace hinst := fetch_eq_ok_iff.1 (Failure.lift_eq_ok_iff.1 hinst)
    obtain ⟨isAccess, haccess, h⟩ := bind_eq_ok_iff.1 h
    replace haccess := Failure.lift_eq_ok_iff.1 haccess
    cases isAccess with
    | true =>
      obtain ⟨a, ha, h⟩ := bind_eq_ok_iff.1 h
      obtain ⟨found, hfound, rfl⟩ := ih h
      exact ⟨a :: found, .access hinst haccess ha hfound, rfl⟩
    | false =>
      obtain ⟨found, hfound, rfl⟩ := ih h
      exact ⟨found, .pass hinst haccess hfound, rfl⟩

/-- The accesses that an analysis has found are grouped in its summary. -/
theorem Analysis.exists_found (h : c.Analysis m f X p k) :
    ∃ found, c.Finds X (sites f) found ∧ k.accesses.Groups found := by
  obtain ⟨found, hfinds, hsummary⟩ := collect_eq_ok h.accesses
  refine ⟨found, hfinds, ?_⟩
  rw [hsummary]
  exact (AccessSummary.groups_empty f.displayName).foldl_add found

/-- An instruction is an access if it calls the access operator of an array. -/
theorem isAccess_eq_true_iff {i : Nat} {inst : Instruction} (hinst : f.instructions[i]? = some inst)
    {isAccess : Bool} (h : c.isAccess m inst = .ok isAccess) :
    isAccess = true ↔ ∃ g args, m.Calls f i g args ∧ c.builtins.isArrayAccess g = true := by
  rw [Config.isAccess, bind_eq_ok_iff] at h
  obtain ⟨callee, hcallee, h⟩ := h
  have hcalls := Module.callee_eq_some_iff hinst hcallee
  cases callee with
  | some g =>
    obtain rfl := pure_eq_ok_iff.1 h
    obtain ⟨args, hcall⟩ := (hcalls g).1 rfl
    constructor
    · intro haccess
      exact ⟨g, args, hcall, haccess⟩
    · rintro ⟨g', args', hcall', haccess⟩
      obtain ⟨rfl, -⟩ := hcall.unique hcall'
      exact haccess
  | none =>
    obtain rfl := pure_eq_ok_iff.1 h
    simp only [Bool.false_eq_true, false_iff]
    rintro ⟨g, args, hcall, -⟩
    cases (hcalls g).2 ⟨args, hcall⟩

end Config

namespace Extractor

variable {X : Extractor} {a : Access}

/-- The access is the one that a call makes, with an array and indices as arguments. -/
structure Describes (X : Extractor) (array : Value) (indices : List Value) (a : Access) : Prop where
  call : ∃ inst callee, X.scope.function.instructions[a.site]? = some inst ∧
    inst.operation = .call callee (array :: indices)
  handle : Handle.resolve X.scope.function array = .ok (some a.handle)
  dims : X.dimensions a.site [] indices = .ok a.dims
  isWrite : a.isWrite = X.stored.contains a.site

theorem Describes.args_eq {array : Value} {indices args : List Value} {m : Module} {g : Function}
    (h : X.Describes array indices a) (hcall : m.Calls X.scope.function a.site g args) :
    args = array :: indices := by
  obtain ⟨inst, callee, hinst, hop⟩ := h.call
  obtain ⟨inst', callee', hinst', hop', -⟩ := hcall
  obtain rfl := Option.some.inj (hinst.symm.trans hinst')
  cases hop.symm.trans hop'
  rfl

theorem extract_eq_ok {site : Nat} {loop : Option Nat} (h : X.extract site loop = .ok a) :
    a.site = site ∧ ∃ array indices, X.Describes array indices a := by
  rw [extract, bind_eq_ok_iff] at h
  obtain ⟨inst, hinst, h⟩ := h
  replace hinst := fetch_eq_ok_iff.1 (Failure.lift_eq_ok_iff.1 hinst)
  cases hop : inst.operation with
  | call callee args =>
    rw [hop] at h
    cases args with
    | nil => cases h
    | cons array indices =>
      obtain ⟨handle, hhandle, h⟩ := bind_eq_ok_iff.1 h
      cases handle with
      | none => cases h
      | some handle =>
        obtain ⟨name, -, h⟩ := bind_eq_ok_iff.1 h
        obtain ⟨dims, hdims, h⟩ := bind_eq_ok_iff.1 h
        obtain rfl := pure_eq_ok_iff.1 h
        exact ⟨rfl, array, indices, ⟨inst, callee, hinst, hop⟩, Failure.lift_eq_ok_iff.1 hhandle,
          hdims, rfl⟩
  | _ =>
    rw [hop] at h
    cases h

/-- The dimensions of a call are those of its indices, the last index first. -/
theorem dimensions_eq_ok {site : Nat} {built dims : List Dimension} {indices : List Value}
    (h : X.dimensions site built indices = .ok dims) :
    ∃ ds, List.Forall₂ (fun v d => X.dimension v = .ok d) indices ds ∧
      dims = ds.reverse ++ built := by
  induction indices generalizing built with
  | nil =>
    cases h
    exact ⟨[], .nil, rfl⟩
  | cons index rest ih =>
    rw [dimensions] at h
    cases hd : X.dimension index with
    | error e =>
      rw [hd] at h
      cases h
    | ok d =>
      rw [hd] at h
      obtain ⟨ds, hds, rfl⟩ := ih h
      exact ⟨d :: ds, .cons hd hds, by simp⟩

theorem of_ofScope {S : Scope} {t : Builtins} {policy : MarkPolicy}
    (hX : Extractor.ofScope S t policy = .ok X) :
    X.scope = S ∧ X.writer = Writer.ofScope S t policy := by
  rw [Extractor.ofScope, bind_eq_ok_iff] at hX
  obtain ⟨roots, -, hX⟩ := hX
  obtain rfl := pure_eq_ok_iff.1 hX
  exact ⟨rfl, rfl⟩

/-- A site is counted as stored to if the address of a store is derived from it. -/
theorem stored_contains_iff {S : Scope} {t : Builtins} {policy : MarkPolicy}
    (hX : Extractor.ofScope S t policy = .ok X) {site : Nat} :
    X.stored.contains site = true ↔ ∃ inst ∈ S.function.instructions.toList, ∃ value ptr,
      inst.operation = .store value ptr ∧ S.function.addressRoot ptr = .ok (.instruction site) := by
  rw [Extractor.ofScope, bind_eq_ok_iff] at hX
  obtain ⟨roots, hroots, hX⟩ := hX
  obtain rfl := pure_eq_ok_iff.1 hX
  have hall := forall₂_of_mapM hroots
  have hroot : ∀ inst, storeRoot? S.function inst = .ok (some site) ↔ ∃ value ptr,
      inst.operation = .store value ptr ∧
        S.function.addressRoot ptr = .ok (.instruction site) := by
    intro inst
    rw [storeRoot?]
    cases hop : inst.operation with
    | store value ptr =>
      simp only [map_eq_ok_iff, Operation.store.injEq]
      constructor
      · rintro ⟨root, hroot, hsite⟩
        cases root with
        | instruction i =>
          obtain rfl := Option.some.inj hsite
          exact ⟨value, ptr, ⟨rfl, rfl⟩, hroot⟩
        | _ => cases hsite
      · rintro ⟨value, ptr, ⟨rfl, rfl⟩, hroot⟩
        exact ⟨_, hroot, rfl⟩
    | _ => simp
  simp only [List.contains_iff_mem, List.mem_filterMap, id_eq, exists_eq_right, ← hroot]
  constructor
  · intro hsite
    exact exists_mem_of_forall₂ hall hsite
  · rintro ⟨inst, hinst, hok⟩
    obtain ⟨o, ho, hok'⟩ := exists_mem_of_forall₂ hall.flip hinst
    obtain rfl : some site = o := Except.ok.inj (hok.symm.trans hok')
    exact ho

end Extractor

namespace Config.Finds

variable {c : Config} {X : Extractor} {places : List (Nat × Nat)} {found : List Access}

/-- Each access found is the one that its call makes. -/
theorem describes (h : c.Finds X places found) {a : Access} (ha : a ∈ found) :
    ∃ array indices, X.Describes array indices a := by
  induction h with
  | done => cases ha
  | pass _ _ _ ih => exact ih ha
  | access _ _ hextract _ ih =>
    rcases List.mem_cons.1 ha with rfl | ha
    · exact (Extractor.extract_eq_ok hextract).2
    · exact ih ha

/-- At each site at most one access is found. -/
theorem sublist (h : c.Finds X places found) :
    (found.map Access.site).Sublist (places.map Prod.snd) := by
  induction h with
  | done => exact .slnil
  | pass _ _ _ ih => exact ih.cons _
  | access _ _ hextract _ ih =>
    rw [List.map_cons, List.map_cons, (Extractor.extract_eq_ok hextract).1]
    exact ih.cons_cons _

/-- Accesses are found where the access operator of an array is called. -/
theorem mem_sites_iff (h : c.Finds X places found) {i : Nat} :
    i ∈ found.map Access.site ↔ i ∈ places.map Prod.snd ∧
      ∃ g args, X.scope.module.Calls X.scope.function i g args ∧
        c.builtins.isArrayAccess g = true := by
  induction h with
  | done => simp
  | @pass b j rest found inst hinst hother _ ih =>
    have hnone := isAccess_eq_true_iff hinst hother
    rw [ih, List.map_cons, List.mem_cons]
    constructor
    · rintro ⟨hi, hcall⟩
      exact ⟨.inr hi, hcall⟩
    · rintro ⟨rfl | hi, hcall⟩
      · exact absurd (hnone.2 hcall) Bool.false_ne_true
      · exact ⟨hi, hcall⟩
  | @access b j rest found inst a hinst haccess hextract _ ih =>
    have hcalls := (isAccess_eq_true_iff hinst haccess).1 rfl
    rw [List.map_cons, List.mem_cons, ih, List.map_cons, List.mem_cons,
      (Extractor.extract_eq_ok hextract).1]
    constructor
    · rintro (rfl | ⟨hi, hcall⟩)
      · exact ⟨.inl rfl, hcalls⟩
      · exact ⟨.inr hi, hcall⟩
    · rintro ⟨rfl | hi, hcall⟩
      · exact .inl rfl
      · exact .inr ⟨hi, hcall⟩

end Config.Finds

end GridAccess
