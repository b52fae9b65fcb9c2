import GridAccess.Proofs.Analysis

set_option autoImplicit false

/-!
# Arrays and arguments

The records of a kernel go by handle: each slot or parameter through which an array is accessed
has one record, whose argument is the parameter that the handle stands for. All accesses through
a handle have the dimensions of its record (`Kernel.ByHandle`). What is reported goes by argument.
An argument is reported as an array once for each of its handles that is accessed, so arguments
are reported at most once exactly if no two of the handles stand for one parameter
(`Config.arguments_distinct_iff`).

A kernel may keep two copies of a parameter. Then the two copies are two arrays, even with
different numbers of dimensions (`Config.copies_reported_apart`).
-/

namespace GridAccess

/-- The argument that the event says is an array. -/
def Event.arrayArg? : Event → Option Nat
  | array _ arg _ _ _ => some arg
  | _ => none

/-- No two handles among the accesses stand for one parameter. -/
def AccessSummary.Separate (s : AccessSummary) (p : Provenance) : Prop :=
  ∀ a ∈ s.accesses, ∀ b ∈ s.accesses, p.paramOf? a.handle = p.paramOf? b.handle →
    a.handle = b.handle

namespace Kernel

variable {k : Kernel} {p : Provenance}

/-- Each handle among the accesses has one record, which names the parameter that the handle
stands for and has the dimensions of all accesses through the handle. -/
structure ByHandle (k : Kernel) (p : Provenance) : Prop where
  nodup : (k.arrays.map (·.handle)).Nodup
  mem_iff : ∀ h, h ∈ k.arrays.map (·.handle) ↔ h ∈ k.accesses.accesses.map (·.handle)
  arg : ∀ r ∈ k.arrays, p.paramOf? r.handle = some r.arg
  dims : ∀ r ∈ k.arrays, ∀ a ∈ k.accesses.accesses, a.handle = r.handle → a.dims.length = r.dims

/-! ## Events -/

theorem countP_axisEvents (kernel : String) (arg dim n : Nat) (s : AxisSet) :
    (ArrayRecord.axisEvents kernel arg dim s).countP (·.arrayArg? = some n) = 0 := by
  rw [ArrayRecord.axisEvents, List.countP_map, List.countP_eq_zero]
  intro a _
  simp [Event.arrayArg?]

/-- A record says once that its argument is an array, and of no other argument. -/
theorem countP_events_record (kernel : String) (r : ArrayRecord) (n : Nat) :
    (r.events kernel).countP (·.arrayArg? = some n) = if r.arg = n then 1 else 0 := by
  rw [ArrayRecord.events, List.countP_cons, List.countP_eq_zero.2, Nat.zero_add]
  · simp [Event.arrayArg?]
  · -- the lines about its axes are none
    intro e he
    obtain ⟨x, -, he⟩ := List.mem_flatMap.1 he
    exact List.countP_eq_zero.1 (countP_axisEvents kernel r.arg x.2 n x.1) e he

theorem countP_events (k : Kernel) (n : Nat) :
    k.events.countP (·.arrayArg? = some n) = (k.arrays.map (·.arg)).count n := by
  rw [events, List.countP_cons_of_neg (by simp [Event.arrayArg?])]
  induction k.arrays with
  | nil => rfl
  | cons r rs ih =>
    rw [List.flatMap_cons, List.countP_append, countP_events_record, ih, List.map_cons,
      List.count_cons, Nat.add_comm]
    simp

namespace ByHandle

/-- An argument is reported as an array once for each of its handles. -/
theorem countP_events_eq (h : k.ByHandle p) (n : Nat) :
    k.events.countP (·.arrayArg? = some n) =
      (k.accesses.accesses.map (·.handle)).dedup.countP (p.paramOf? · = some n) := by
  -- the handles of the records are those of the accesses, without repetition
  have hperm : (k.arrays.map (·.handle)).Perm (k.accesses.accesses.map (·.handle)).dedup := by
    refine (List.perm_ext_iff_of_nodup h.nodup (List.nodup_dedup _)).2 fun x => ?_
    rw [List.mem_dedup, h.mem_iff]
  rw [countP_events, ← hperm.countP_eq, List.count, List.countP_map, List.countP_map]
  refine List.countP_congr fun r hr => ?_
  simp [h.arg r hr]

/-- The arguments of the records are distinct exactly if no two handles stand for one. -/
theorem nodup_args_iff (h : k.ByHandle p) :
    (k.arrays.map (·.arg)).Nodup ↔ k.accesses.Separate p := by
  rw [List.nodup_map_iff_inj_on (List.Nodup.of_map _ h.nodup)]
  constructor
  · intro hinj a ha b hb hab
    obtain ⟨r, hr, hra⟩ := List.mem_map.1 ((h.mem_iff _).2 (List.mem_map_of_mem ha))
    obtain ⟨r', hr', hrb⟩ := List.mem_map.1 ((h.mem_iff _).2 (List.mem_map_of_mem hb))
    have harg : r.arg = r'.arg := by
      have heq : some r.arg = some r'.arg := by
        rw [← h.arg r hr, ← h.arg r' hr', hra, hrb, hab]
      exact Option.some.inj heq
    rw [← hra, ← hrb, hinj r hr r' hr' harg]
  · intro hsep r hr r' hr' harg
    obtain ⟨a, ha, har⟩ := List.mem_map.1 ((h.mem_iff _).1 (List.mem_map_of_mem hr))
    obtain ⟨b, hb, hbr⟩ := List.mem_map.1 ((h.mem_iff _).1 (List.mem_map_of_mem hr'))
    have hhandle : r.handle = r'.handle := by
      rw [← har, ← hbr]
      refine hsep a ha b hb ?_
      rw [har, hbr, h.arg r hr, h.arg r' hr', harg]
    exact List.inj_on_of_nodup_map h.nodup hr hr' hhandle

/-- Two accesses to one argument have the same number of dimensions if no two handles stand for
one parameter. -/
theorem dims_eq (h : k.ByHandle p) (hsep : k.accesses.Separate p) {a b : Access}
    (ha : a ∈ k.accesses.accesses) (hb : b ∈ k.accesses.accesses)
    (hab : p.paramOf? a.handle = p.paramOf? b.handle) : a.dims.length = b.dims.length := by
  obtain ⟨r, hr, hra⟩ := List.mem_map.1 ((h.mem_iff _).2 (List.mem_map_of_mem ha))
  have hhandle := hsep a ha b hb hab
  rw [h.dims r hr a ha hra.symm, h.dims r hr b hb (hhandle ▸ hra.symm)]

end ByHandle

end Kernel

namespace AccessSummary

/-- The records stand in the order of the groups. -/
theorem map_handle_eq {s : AccessSummary} {p : Provenance} {arrays : List ArrayRecord}
    (h : s.aggregate p = .ok arrays) : arrays.map (·.handle) = s.arrays.map Prod.fst := by
  have hall : List.Forall₂ (· = ·) (s.arrays.map Prod.fst) (arrays.map (·.handle)) := by
    rw [List.forall₂_map_left_iff, List.forall₂_map_right_iff]
    exact (forall₂_of_mapM h).imp fun _ _ hrecord => (record_eq_ok hrecord).1.symm
  rw [List.forall₂_eq_eq_eq] at hall
  exact hall.symm

end AccessSummary

namespace Config

variable {c : Config} {m : Module} {f : Function} {X : Extractor} {p : Provenance} {k : Kernel}

theorem Analysis.byHandle (h : c.Analysis m f X p k) : k.ByHandle p := by
  obtain ⟨found, -, hgroups⟩ := h.exists_found
  refine ⟨?_, fun handle => ⟨?_, ?_⟩, fun r hr => (hgroups.sums h.arrays hr).arg, ?_⟩
  · rw [AccessSummary.map_handle_eq h.arrays]
    have hincreasing : (k.accesses.arrays.map Prod.fst).Pairwise (· < ·) :=
      List.pairwise_map.2 hgroups.increasing
    exact hincreasing.imp ne_of_irrefl
  · intro hmem
    obtain ⟨r, hr, rfl⟩ := List.mem_map.1 hmem
    -- a record is made of at least one access
    obtain ⟨a, ha⟩ := List.exists_mem_of_ne_nil _ (hgroups.sums h.arrays hr).nonempty
    obtain ⟨ha, hhandle⟩ := List.mem_filter.1 ha
    exact List.mem_map.2 ⟨a, hgroups.perm.mem_iff.2 ha, of_decide_eq_true hhandle⟩
  · intro hmem
    obtain ⟨a, ha, rfl⟩ := List.mem_map.1 hmem
    obtain ⟨r, hr, hhandle⟩ := hgroups.exists_record h.arrays (hgroups.perm.mem_iff.1 ha)
    exact List.mem_map.2 ⟨r, hr, hhandle⟩
  · intro r hr a ha hhandle
    exact (hgroups.sums h.arrays hr).dims a
      (List.mem_filter.2 ⟨hgroups.perm.mem_iff.1 ha, decide_eq_true hhandle⟩)

/-- In a kernel that is analysed there is one record for each handle that is accessed, and the
accesses through a handle share the dimensions of its record. An argument is reported as an array
once for each of its handles. So the arguments of the records are distinct exactly if no two of
the handles stand for one parameter; then no argument is reported twice, and all accesses to one
argument share one number of dimensions. -/
theorem arguments_distinct_iff (c : Config) (m : Module) (index : Nat) (k : Kernel)
    (hk : c.analyze m index = .ok k) :
    ∃ f p, m.functions[index]? = some f ∧ Provenance.ofFunction m c.builtins f = .ok p ∧
      k.ByHandle p ∧
      (∀ n, k.events.countP (·.arrayArg? = some n) =
        (k.accesses.accesses.map (·.handle)).dedup.countP (p.paramOf? · = some n)) ∧
      ((k.arrays.map (·.arg)).Nodup ↔ k.accesses.Separate p) ∧
      (k.accesses.Separate p → (∀ n, k.events.countP (·.arrayArg? = some n) ≤ 1) ∧
        ∀ a ∈ k.accesses.accesses, ∀ b ∈ k.accesses.accesses,
          p.paramOf? a.handle = p.paramOf? b.handle → a.dims.length = b.dims.length) := by
  obtain ⟨f, X, p, hf, han⟩ := analyze_eq_ok hk
  have hby := han.byHandle
  refine ⟨f, p, hf, han.provenance, hby, hby.countP_events_eq, hby.nodup_args_iff, fun hsep =>
    ⟨fun n => ?_, fun a ha b hb => hby.dims_eq hsep ha hb⟩⟩
  rw [Kernel.countP_events]
  exact List.nodup_iff_count_le_one.1 (hby.nodup_args_iff.2 hsep) n

/-- A kernel that keeps its parameter `a` in one slot and another parameter, or `a` once more, in
a second slot. The first slot is accessed with one index, the second with two. -/
def twoSlots (second : Nat) : Module :=
  let array := Ty.pointerTo (.struct "cudarrays::dynarray")
  { name := "module"
    functions := #[
      { name := "_ZN9cudarrays8dynarrayIfLj1EEclEi"
        demangled := some "cudarrays::dynarray<float, 1u>::operator()(int)"
        params := #[⟨"this", array⟩, ⟨"i", .int 32⟩]
        ret := Ty.pointerTo .float },
      { name := "_ZN9cudarrays8dynarrayIfLj2EEclEii"
        demangled := some "cudarrays::dynarray<float, 2u>::operator()(int, int)"
        params := #[⟨"this", array⟩, ⟨"i", .int 32⟩, ⟨"j", .int 32⟩]
        ret := Ty.pointerTo .float },
      { name := "kernel"
        params := #[⟨"a", array⟩, ⟨"b", array⟩]
        blocks := #[⟨"entry", [0, 1, 2, 3, 4, 5, 6]⟩]
        instructions := #[
          ⟨0, array.pointerTo, some "first", .alloca array⟩,
          ⟨0, array.pointerTo, some "second", .alloca array⟩,
          ⟨0, .void, none, .store (.argument 0) (.instruction 0)⟩,
          ⟨0, .void, none, .store (.argument second) (.instruction 1)⟩,
          ⟨0, Ty.pointerTo .float, none, .call 0 [.instruction 0, .int 0]⟩,
          ⟨0, Ty.pointerTo .float, none, .call 1 [.instruction 1, .int 0, .int 1]⟩,
          ⟨0, .void, none, .ret none⟩] }] }

/-- What the analysis of that kernel finds. -/
def twoSlotsKernel (second : Nat) : Kernel where
  index := 2
  name := "kernel"
  accesses :=
    { name := "kernel"
      arrays := [
        (.slot 0, [⟨4, .slot 0, "first", none, [⟨"0", AxisSet.empty⟩], false⟩]),
        (.slot 1, [⟨5, .slot 1, "second", none, [⟨"1", AxisSet.empty⟩, ⟨"0", AxisSet.empty⟩],
          false⟩])] }
  arrays := [
    { handle := .slot 0, array := "first", arg := 0, dims := 1, axes := [AxisSet.empty]
      isRead := false, isWritten := false },
    { handle := .slot 1, array := "second", arg := second, dims := 2
      axes := [AxisSet.empty, AxisSet.empty], isRead := false, isWritten := false }]

theorem arguments_distinct_iff_twoSlots :
    ({} : Config).analyze (twoSlots 1) 2 = .ok (twoSlotsKernel 1) ∧
      ∃ p, (twoSlotsKernel 1).ByHandle p ∧ (twoSlotsKernel 1).accesses.Separate p := by
  have hk : ({} : Config).analyze (twoSlots 1) 2 = .ok (twoSlotsKernel 1) := by decide +kernel
  obtain ⟨f, p, -, -, hby, -, hargs, -⟩ := arguments_distinct_iff {} (twoSlots 1) 2 _ hk
  exact ⟨hk, p, hby, hargs.1 (by decide)⟩

/-- Two copies of a parameter are two arrays: the parameter is reported twice, with one dimension
and with two. -/
theorem copies_reported_apart : ∃ k, ({} : Config).analyze (twoSlots 0) 2 = .ok k ∧
    ¬ (k.arrays.map (·.arg)).Nodup ∧
    k.events.filter (·.arrayArg? = some 0) =
      [.array "kernel" 0 1 false false, .array "kernel" 0 2 false false] := by
  have hk : ({} : Config).analyze (twoSlots 0) 2 = .ok (twoSlotsKernel 0) := by decide +kernel
  exact ⟨twoSlotsKernel 0, hk, by decide, by decide⟩

end Config

end GridAccess
