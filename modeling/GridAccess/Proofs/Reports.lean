import GridAccess.Proofs.Aggregation
import GridAccess.Proofs.Analysis

set_option autoImplicit false

/-!
# Reports

A sink that kernels were reported to holds a flat list of events. Each of them is about the kernel
of the latest reset, an axis is about the array announced last, and the axes of one array stand in
lexicographic order (`latestReset_of_split`, `announced_of_split`, `pairwise_precedes`). Read from
the end, the events give back what the records of all kernels say (`decode_flatMap_events`). All of
this is `reports_wellFormed`.
-/

namespace GridAccess

/-! ## Lists put together from parts -/

/-- A member of a list put together from parts is a member of one of them, and what stands before
it there also stands before it in the whole. -/
theorem exists_of_flatMap_eq_append_cons {α β : Type} {f : α → List β} {xs : List α}
    {pre post : List β} {b : β} (h : xs.flatMap f = pre ++ b :: post) :
    ∃ x ∈ xs, ∃ before here after, f x = here ++ b :: after ∧ pre = before ++ here := by
  induction xs generalizing pre with
  | nil => simp at h
  | cons x xs ih =>
    rw [List.flatMap_cons, List.append_eq_append_iff] at h
    rcases h with ⟨pre, rfl, h⟩ | ⟨rest, hx, h⟩
    · obtain ⟨y, hy, before, here, after, hfy, rfl⟩ := ih h
      exact ⟨y, List.mem_cons_of_mem x hy, f x ++ before, here, after, hfy, by simp⟩
    · cases rest with
      | nil =>
        -- the part of `x` ends right before the member
        have hrest : xs.flatMap f = [] ++ b :: post := h.symm
        obtain ⟨y, hy, before, here, after, hfy, hpre⟩ := ih hrest
        obtain ⟨rfl, rfl⟩ := List.nil_eq_append_iff.1 hpre
        exact ⟨y, List.mem_cons_of_mem x hy, pre, [], after, hfy, by simp⟩
      | cons c rest =>
        obtain ⟨rfl, -⟩ := List.cons.inj h
        exact ⟨x, List.mem_cons_self, [], pre, rest, hx, rfl⟩

namespace AxisSet

theorem mem_axes_iff {s : AxisSet} {a : Axis} : a ∈ s.axes ↔ s.contains a = true := by
  rw [axes, List.mem_filter]
  cases a <;> simp [Axis.all]

theorem pairwise_axes (s : AxisSet) : s.axes.Pairwise fun a b => a.index < b.index :=
  .filter _ (by decide)

end AxisSet

/-! ## Streams of events -/

namespace Event

/-- The kernel that an event is about. -/
def kernel : Event → String
  | reset k => k
  | array k .. => k
  | axis k .. => k

/-- Of two events about one array, the second has a greater dimension, or a greater axis in the
same dimension. -/
inductive Precedes : Event → Event → Prop
  | dim {k : String} {arg d d' : Nat} {a a' : Axis} (h : d < d') :
      Precedes (axis k arg d a) (axis k arg d' a')
  | axis {k : String} {arg d : Nat} {a a' : Axis} (h : a.index < a'.index) :
      Precedes (axis k arg d a) (axis k arg d a')

theorem Precedes.trans {e₁ e₂ e₃ : Event} (h : Precedes e₁ e₂) (h' : Precedes e₂ e₃) :
    Precedes e₁ e₃ := by
  cases h with
  | dim h =>
    cases h' with
    | dim h' => exact .dim (h.trans h')
    | axis => exact .dim h
  | axis h =>
    cases h' with
    | dim h' => exact .dim h'
    | axis h' => exact .axis (h.trans h')

instance : Trans Precedes Precedes Precedes := ⟨Precedes.trans⟩

/-- Neighbours that are axes are about one array and stand in order. -/
def Orderly (e e' : Event) : Prop := e.isAxis = true → e'.isAxis = true → e.Precedes e'

theorem isChain_cons {e : Event} {es : List Event} (he : e.isAxis = false)
    (hes : es.IsChain Orderly) : (e :: es).IsChain Orderly := by
  apply hes.cons
  intro e' _ haxis
  rw [he] at haxis
  cases haxis

/-- Parts in order, none of which begins with an axis, are in order together. -/
theorem isChain_flatMap {α : Type} {f : α → List Event} {xs : List α}
    (hhead : ∀ x, ∃ e es, f x = e :: es ∧ e.isAxis = false)
    (hf : ∀ x ∈ xs, (f x).IsChain Orderly) : (xs.flatMap f).IsChain Orderly := by
  have hne : [] ∉ xs.map f := by
    intro hmem
    obtain ⟨x, -, hx⟩ := List.mem_map.1 hmem
    obtain ⟨e, es, hcons, -⟩ := hhead x
    cases hx.symm.trans hcons
  rw [List.flatMap, List.isChain_flatten hne, List.isChain_map]
  constructor
  · simpa using hf
  · -- where two parts meet there is no axis on the right, so nothing is asked
    apply List.Pairwise.isChain
    apply List.pairwise_of_forall
    intro x y e _ e' he' _ haxis
    obtain ⟨first, es, hcons, hfirst⟩ := hhead y
    rw [hcons] at he'
    obtain rfl := Option.some.inj he'
    rw [hfirst] at haxis
    cases haxis

end Event

/-- The last of the events that is a reset is one of the kernel. -/
def LatestReset (es : List Event) (kernel : String) : Prop :=
  ∃ before between, es = before ++ .reset kernel :: between ∧ ∀ e ∈ between, ∀ k, e ≠ .reset k

/-- The events end with an array that has the dimension, followed by nothing but axes. -/
def Announced (es : List Event) (kernel : String) (arg dim : Nat) : Prop :=
  ∃ before dims isRead isWritten between,
    es = before ++ .array kernel arg dims isRead isWritten :: between ∧
      (∀ e ∈ between, e.isAxis = true) ∧ dim < dims

theorem LatestReset.append {es : List Event} {kernel : String} (h : LatestReset es kernel)
    (more : List Event) : LatestReset (more ++ es) kernel := by
  obtain ⟨before, between, rfl, hbetween⟩ := h
  exact ⟨more ++ before, between, by simp, hbetween⟩

theorem Announced.append {es : List Event} {kernel : String} {arg dim : Nat}
    (h : Announced es kernel arg dim) (more : List Event) :
    Announced (more ++ es) kernel arg dim := by
  obtain ⟨before, dims, isRead, isWritten, between, rfl, hbetween, hdim⟩ := h
  exact ⟨more ++ before, dims, isRead, isWritten, between, by simp, hbetween, hdim⟩

/-! ## The events of one array -/

namespace ArrayRecord

variable {r : ArrayRecord} {kernel : String}

/-- The axes of all dimensions, each with its dimension. -/
def places (r : ArrayRecord) : List (Nat × Axis) :=
  r.axes.zipIdx.flatMap fun (s, dim) => s.axes.map (dim, ·)

theorem events_eq (kernel : String) (r : ArrayRecord) :
    r.events kernel = .array kernel r.arg r.dims r.isRead r.isWritten ::
      r.places.map fun q => .axis kernel r.arg q.1 q.2 := by
  rw [events, places, List.map_flatMap]
  simp only [axisEvents, List.map_map, Function.comp_def]

theorem mem_places_iff {dim : Nat} {a : Axis} :
    (dim, a) ∈ r.places ↔ ∃ s, r.axes[dim]? = some s ∧ s.contains a = true := by
  simp only [places, List.mem_flatMap, Prod.exists, List.mk_mem_zipIdx_iff_getElem?, List.mem_map,
    Prod.mk.injEq, AxisSet.mem_axes_iff]
  constructor
  · rintro ⟨s, d, hs, b, hb, rfl, rfl⟩
    exact ⟨s, hs, hb⟩
  · rintro ⟨s, hs, ha⟩
    exact ⟨s, dim, hs, a, ha, rfl, rfl⟩

/-- The axes are reported dimension by dimension, and those of a dimension in their order. -/
theorem pairwise_places (r : ArrayRecord) :
    r.places.Pairwise fun p q => p.1 < q.1 ∨ p.1 = q.1 ∧ p.2.index < q.2.index := by
  rw [places, List.pairwise_flatMap]
  constructor
  · rintro ⟨s, dim⟩ -
    rw [List.pairwise_map]
    exact s.pairwise_axes.imp fun hlt => .inr ⟨rfl, hlt⟩
  · have hdims : (r.axes.zipIdx.map Prod.snd).Pairwise (· < ·) := by
      rw [List.zipIdx_map_snd]
      exact List.pairwise_lt_range'
    apply (List.pairwise_map.1 hdims).imp
    intro p q hlt x hx y hy
    obtain ⟨a, -, rfl⟩ := List.mem_map.1 hx
    obtain ⟨b, -, rfl⟩ := List.mem_map.1 hy
    exact .inl hlt

theorem kernel_of_mem_events {e : Event} (he : e ∈ r.events kernel) :
    e.kernel = kernel ∧ ∀ k, e ≠ .reset k := by
  rw [events_eq, List.mem_cons, List.mem_map] at he
  rcases he with rfl | ⟨q, -, rfl⟩
  · exact ⟨rfl, nofun⟩
  · exact ⟨rfl, nofun⟩

/-- An axis among the events of an array comes after the array and only axes. -/
theorem announced_of_events {here after : List Event} {k : String} {arg dim : Nat} {a : Axis}
    (hr : r.axes.length = r.dims) (h : r.events kernel = here ++ .axis k arg dim a :: after) :
    Announced here k arg dim := by
  rw [events_eq] at h
  cases here with
  | nil => cases h
  | cons e here =>
    rw [List.cons_append] at h
    obtain ⟨rfl, hplaces⟩ := List.cons.inj h
    have hmem : ∀ e ∈ here ++ .axis k arg dim a :: after,
        ∃ q ∈ r.places, Event.axis kernel r.arg q.1 q.2 = e := by
      intro e he
      rw [← hplaces] at he
      exact List.mem_map.1 he
    -- the axis itself is one of the places, so its dimension has a set of axes
    obtain ⟨q, hq, heq⟩ := hmem (.axis k arg dim a) (by simp)
    cases heq
    obtain ⟨s, hs, -⟩ := mem_places_iff.1 hq
    obtain ⟨hlt, -⟩ := List.getElem?_eq_some_iff.1 hs
    refine ⟨[], r.dims, r.isRead, r.isWritten, here, rfl, ?_, hr ▸ hlt⟩
    intro e he
    obtain ⟨q, -, rfl⟩ := hmem e (List.mem_append_left _ he)
    rfl

theorem isChain_events (kernel : String) (r : ArrayRecord) :
    (r.events kernel).IsChain Event.Orderly := by
  rw [events_eq]
  apply Event.isChain_cons rfl
  apply List.Pairwise.isChain
  rw [List.pairwise_map]
  apply r.pairwise_places.imp
  rintro ⟨d, a⟩ ⟨d', a'⟩ (hlt | ⟨rfl, hlt⟩) - -
  · exact .dim hlt
  · exact .axis hlt

end ArrayRecord

/-! ## The events of kernels -/

namespace Kernel

variable {k : Kernel} {pre post : List Event}

theorem latestReset_of_events {e : Event} (h : k.events = pre ++ e :: post) :
    LatestReset (pre ++ [e]) e.kernel := by
  rw [events] at h
  cases pre with
  | nil =>
    obtain ⟨rfl, -⟩ := List.cons.inj h
    exact ⟨[], [], rfl, by simp⟩
  | cons first pre =>
    rw [List.cons_append] at h
    obtain ⟨rfl, harrays⟩ := List.cons.inj h
    have hmem : ∀ x ∈ pre ++ [e], x.kernel = k.name ∧ ∀ name, x ≠ .reset name := by
      intro x hx
      have hx' : x ∈ k.arrays.flatMap (ArrayRecord.events k.name) := by
        rw [harrays, List.append_cons]
        exact List.mem_append_left post hx
      obtain ⟨r, -, hr⟩ := List.mem_flatMap.1 hx'
      exact ArrayRecord.kernel_of_mem_events hr
    rw [(hmem e (by simp)).1]
    exact ⟨[], pre ++ [e], rfl, fun x hx => (hmem x hx).2⟩

/-- Each record has a set of axes for each of its dimensions. -/
def Sized (k : Kernel) : Prop := ∀ r ∈ k.arrays, r.axes.length = r.dims

theorem announced_of_events {name : String} {arg dim : Nat} {a : Axis} (hk : k.Sized)
    (h : k.events = pre ++ .axis name arg dim a :: post) : Announced pre name arg dim := by
  rw [events] at h
  cases pre with
  | nil => cases h
  | cons first pre =>
    rw [List.cons_append] at h
    obtain ⟨rfl, harrays⟩ := List.cons.inj h
    obtain ⟨r, hr, before, here, after, hevents, rfl⟩ := exists_of_flatMap_eq_append_cons harrays
    exact (ArrayRecord.announced_of_events (hk r hr) hevents).append (_ :: before)

theorem isChain_events (k : Kernel) : k.events.IsChain Event.Orderly := by
  rw [events]
  apply Event.isChain_cons rfl
  apply Event.isChain_flatMap
  · intro r
    exact ⟨_, _, rfl, rfl⟩
  · intro r _
    exact r.isChain_events k.name

end Kernel

variable {ks : List Kernel} {pre post : List Event}

theorem latestReset_of_split {e : Event} (h : ks.flatMap Kernel.events = pre ++ e :: post) :
    LatestReset (pre ++ [e]) e.kernel := by
  obtain ⟨k, -, before, here, after, hevents, rfl⟩ := exists_of_flatMap_eq_append_cons h
  rw [List.append_assoc]
  exact (k.latestReset_of_events hevents).append before

theorem announced_of_split {name : String} {arg dim : Nat} {a : Axis} (hks : ∀ k ∈ ks, k.Sized)
    (h : ks.flatMap Kernel.events = pre ++ .axis name arg dim a :: post) :
    Announced pre name arg dim := by
  obtain ⟨k, hk, before, here, after, hevents, rfl⟩ := exists_of_flatMap_eq_append_cons h
  exact (Kernel.announced_of_events (hks k hk) hevents).append before

/-- Axes without another event between them are about one array and stand in order. -/
theorem pairwise_precedes {run : List Event} (h : run <:+: ks.flatMap Kernel.events)
    (hrun : ∀ e ∈ run, e.isAxis = true) : run.Pairwise Event.Precedes := by
  have hchain : (ks.flatMap Kernel.events).IsChain Event.Orderly := by
    apply Event.isChain_flatMap
    · intro k
      exact ⟨_, _, rfl, rfl⟩
    · intro k _
      exact k.isChain_events
  have hpart := List.IsChain.infix hchain h
  rw [← List.isChain_iff_pairwise]
  apply hpart.imp_of_mem_imp
  intro e e' he he' horderly
  exact horderly (hrun e he) (hrun e' he')

/-! ## Reading the events back -/

/-- What is known of a report whose events are read from the end. -/
structure Backlog where
  /-- The axes of an array that is still to come. -/
  places : List (Nat × Axis) := []
  /-- The arrays of a kernel that is still to come. -/
  arrays : List ArrayFacts := []
  kernels : List (String × List ArrayFacts) := []

namespace Backlog

/-- The axes of one dimension. -/
def axesAt (places : List (Nat × Axis)) (dim : Nat) : AxisSet where
  x := decide ((dim, .x) ∈ places)
  y := decide ((dim, .y) ∈ places)
  z := decide ((dim, .z) ∈ places)

/-- One event more, the one before those that have been read. -/
def read (e : Event) (b : Backlog) : Backlog :=
  match e with
  | .reset kernel => { kernels := (kernel, b.arrays) :: b.kernels }
  | .array _ arg dims isRead isWritten =>
    let axes := (List.range dims).map (axesAt b.places)
    { b with places := [], arrays := { arg, dims, isRead, isWritten, axes } :: b.arrays }
  | .axis _ _ dim a => { b with places := (dim, a) :: b.places }

theorem contains_axesAt_iff {places : List (Nat × Axis)} {dim : Nat} {a : Axis} :
    (axesAt places dim).contains a = true ↔ (dim, a) ∈ places := by
  cases a <;> exact decide_eq_true_iff

theorem read_axes (kernel : String) (arg : Nat) (places : List (Nat × Axis)) (b : Backlog) :
    (places.map fun q => Event.axis kernel arg q.1 q.2).foldr read b =
      { b with places := places ++ b.places } := by
  induction places with
  | nil => rfl
  | cons q places ih =>
    rw [List.map_cons, List.foldr_cons, ih]
    rfl

theorem read_record {r : ArrayRecord} (hr : r.axes.length = r.dims) (kernel : String)
    (arrays : List ArrayFacts) (kernels : List (String × List ArrayFacts)) :
    (r.events kernel).foldr read { arrays, kernels } =
      { arrays := r.facts :: arrays, kernels } := by
  have haxes : (List.range r.dims).map (axesAt r.places) = r.axes := by
    apply List.ext_getElem
    · rw [List.length_map, List.length_range, hr]
    · intro d _ hd
      rw [List.getElem_map, List.getElem_range]
      apply AxisSet.ext_contains
      intro a
      rw [Bool.eq_iff_iff, contains_axesAt_iff, ArrayRecord.mem_places_iff,
        List.getElem?_eq_getElem hd]
      simp
  rw [ArrayRecord.events_eq, List.foldr_cons, read_axes, List.append_nil]
  simp only [read, haxes, ArrayRecord.facts]

theorem read_records {rs : List ArrayRecord} (hrs : ∀ r ∈ rs, r.axes.length = r.dims)
    (kernel : String) (kernels : List (String × List ArrayFacts)) :
    (rs.flatMap (ArrayRecord.events kernel)).foldr read { kernels } =
      { arrays := rs.map ArrayRecord.facts, kernels } := by
  induction rs with
  | nil => rfl
  | cons r rs ih =>
    obtain ⟨hr, hrs⟩ := List.forall_mem_cons.1 hrs
    rw [List.flatMap_cons, List.foldr_append, ih hrs, read_record hr, List.map_cons]

end Backlog

/-- The kernels that events are about, and what they say of the arrays of each. -/
def Event.decode (es : List Event) : List (String × List ArrayFacts) :=
  (es.foldr Backlog.read {}).kernels

theorem foldr_read_events {k : Kernel} (hk : k.Sized) (kernels : List (String × List ArrayFacts)) :
    k.events.foldr Backlog.read { kernels } =
      { kernels := (k.name, k.arrays.map ArrayRecord.facts) :: kernels } := by
  rw [Kernel.events, List.foldr_cons, Backlog.read_records hk]
  rfl

/-- Nothing that the records of a kernel say is lost in its events. -/
theorem decode_flatMap_events (hks : ∀ k ∈ ks, k.Sized) :
    Event.decode (ks.flatMap Kernel.events) =
      ks.map fun k => (k.name, k.arrays.map ArrayRecord.facts) := by
  -- between two kernels nothing is left to be assigned
  have hread : (ks.flatMap Kernel.events).foldr Backlog.read {} =
      { kernels := ks.map fun k => (k.name, k.arrays.map ArrayRecord.facts) } := by
    induction ks with
    | nil => rfl
    | cons k ks ih =>
      obtain ⟨hk, hks⟩ := List.forall_mem_cons.1 hks
      rw [List.flatMap_cons, List.foldr_append, ih hks, foldr_read_events hk, List.map_cons]
  rw [Event.decode, hread]

/-! ## Kernels that were analysed -/

theorem Config.sized_of_analyze {c : Config} {m : Module} {i : Nat} {k : Kernel}
    (h : c.analyze m i = .ok k) : k.Sized := by
  obtain ⟨f, X, p, -, han⟩ := analyze_eq_ok h
  obtain ⟨found, -, hgroups⟩ := han.exists_found
  intro r hr
  exact (hgroups.faithful han.arrays hr).length_axes

/-- The sink that kernels were reported to, one after another. -/
def Sink.ofKernels (ks : List Kernel) : Sink := ks.foldl (fun s k => s.send k.events) {}

theorem Sink.events_ofKernels (ks : List Kernel) :
    (ofKernels ks).events = ks.flatMap Kernel.events := by
  have hfold : ∀ s : Sink, (ks.foldl (fun s k => s.send k.events) s).events =
      s.events ++ ks.flatMap Kernel.events := by
    induction ks with
    | nil => simp
    | cons k ks ih =>
      intro s
      rw [List.foldl_cons, ih, List.flatMap_cons, ← List.append_assoc]
      rfl
  exact hfold {}

/-- Kernels that were analysed, whatever the modules they come from, are reported as follows. Each
event is about the kernel of the latest reset, an axis follows the array that it is about and has
one of its dimensions, the axes of an array stand in lexicographic order, and what the records say
can be read from the events. -/
theorem reports_wellFormed (ks : List Kernel)
    (hks : ∀ k ∈ ks, ∃ (c : Config) (m : Module) (i : Nat), c.analyze m i = .ok k) :
    (∀ pre e post, (Sink.ofKernels ks).events = pre ++ e :: post →
        LatestReset (pre ++ [e]) e.kernel) ∧
      (∀ pre name arg dim a post,
        (Sink.ofKernels ks).events = pre ++ .axis name arg dim a :: post →
          Announced pre name arg dim) ∧
      (∀ run, run <:+: (Sink.ofKernels ks).events → (∀ e ∈ run, e.isAxis = true) →
        run.Pairwise Event.Precedes) ∧
      Event.decode (Sink.ofKernels ks).events =
        ks.map fun k => (k.name, k.arrays.map ArrayRecord.facts) := by
  have hsized : ∀ k ∈ ks, k.Sized := by
    intro k hk
    obtain ⟨c, m, i, h⟩ := hks k hk
    exact Config.sized_of_analyze h
  rw [Sink.events_ofKernels]
  refine ⟨?_, ?_, ?_, decode_flatMap_events hsized⟩
  · intro pre e post h
    exact latestReset_of_split h
  · intro pre name arg dim a post h
    exact announced_of_split hsized h
  · intro run h hrun
    exact pairwise_precedes h hrun

/-- Two kernels, one with an axis in each of two dimensions, the other with two arrays that stand
for the same parameter. -/
theorem reports_wellFormed_twoKernels :
    (∀ k ∈ [Config.blockElementKernel, Config.twoSlotsKernel 0],
        ∃ (c : Config) (m : Module) (i : Nat), c.analyze m i = .ok k) ∧
      [Event.axis "kernel" 0 0 .y, .axis "kernel" 0 1 .x].Pairwise Event.Precedes ∧
      Event.decode
          (Sink.ofKernels [Config.blockElementKernel, Config.twoSlotsKernel 0]).events =
        [("kernel", [⟨0, 2, false, false, [.single .y, .single .x]⟩]),
          ("kernel",
            [⟨0, 1, false, false, [.empty]⟩, ⟨0, 2, false, false, [.empty, .empty]⟩])] := by
  have hks : ∀ k ∈ [Config.blockElementKernel, Config.twoSlotsKernel 0],
      ∃ (c : Config) (m : Module) (i : Nat), c.analyze m i = .ok k := by
    intro k hk
    rcases List.mem_pair.1 hk with rfl | rfl
    · exact ⟨{}, Config.blockElementModule, 3, by decide +kernel⟩
    · exact ⟨{}, Config.twoSlots 0, 2, by decide +kernel⟩
  obtain ⟨-, -, hpairwise, hdecode⟩ := reports_wellFormed _ hks
  refine ⟨hks, hpairwise _ ?_ ?_, hdecode⟩
  · exact ⟨[.reset "kernel", .array "kernel" 0 2 false false], _, rfl⟩
  · simp [Event.isAxis]

end GridAccess
