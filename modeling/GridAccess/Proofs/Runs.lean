import GridAccess.Kernel.Run
import GridAccess.Proofs.Analysis

set_option autoImplicit false

/-!
# What a run publishes

A run deals with the kernels of a module one after another, and what it does with one kernel
depends on nothing but the outcome of the analysis of that kernel. So a run over some kernels
after which it goes on is described by two lists: the kernels that were analysed and the failures
that were reported, both in the order of the module (`Session.extend`, `runFrom_append`).

The analysis itself does not look at `failFast` (`analyze_failFast`). Therefore a run that ends
early has sent to each sink the beginning of what the run that goes on sends to it
(`run_publishes_whole_kernels`).
-/

namespace GridAccess

/-! ## Sessions -/

/-- The session after some kernels have been sent to every sink and some failures remarked on. -/
def Session.extend (s : Session) (ks : List Kernel) (es : List KernelFailure) : Session where
  sinks := s.sinks.map (·.send (ks.flatMap Kernel.events))
  remarks := s.remarks ++ es.map KernelFailure.remark

theorem Sink.send_nil (k : Sink) : k.send [] = k := by
  simp [Sink.send]

namespace Session

variable (s : Session) (ks ls : List Kernel) (es fs : List KernelFailure)

theorem extend_nil : s.extend [] [] = s := by
  simp [extend, Sink.send_nil]

theorem extend_extend : (s.extend ks es).extend ls fs = s.extend (ks ++ ls) (es ++ fs) := by
  simp [extend, Sink.send, Function.comp_def]

theorem publish_eq (k : Kernel) : s.publish k = s.extend [k] [] := by
  simp [publish, extend]

theorem note_eq (e : KernelFailure) : s.note e.remark = s.extend [] [e] := by
  simp [note, extend, Sink.send_nil]

/-- What the sinks hold of fewer kernels is the beginning of what they hold of more. -/
theorem extend_prefix {ks ls : List Kernel} (h : ks <+: ls) :
    List.Forall₂ (fun a b => a.events <+: b.events) (s.extend ks es).sinks
      (s.extend ls fs).sinks := by
  obtain ⟨more, rfl⟩ := h
  rw [extend, extend, List.forall₂_map_left_iff, List.forall₂_map_right_iff, List.forall₂_same]
  intro k _
  exact ⟨more.flatMap Kernel.events, by simp [Sink.send]⟩

end Session

/-! ## Kernels of a module -/

/-- The kernels of a module are its functions that have a body and the name of a kernel. -/
theorem Module.mem_kernels_iff {m : Module} {i : Nat} :
    i ∈ m.kernels ↔ ∃ f, m.functions[i]? = some f ∧ f.isDeclaration = false ∧
      isKernelName f.displayName = true := by
  rw [Module.kernels, List.mem_filter, List.mem_range]
  constructor
  · rintro ⟨-, hi⟩
    obtain ⟨f, hf, hkernel⟩ := (Option.any_eq_true _ _).1 hi
    simp only [Function.isKernel, Bool.and_eq_true, Bool.not_eq_true'] at hkernel
    exact ⟨f, hf, hkernel⟩
  · rintro ⟨f, hf, hbody, hname⟩
    constructor
    · exact (Array.getElem?_eq_some_iff.1 hf).1
    · simp [hf, Function.isKernel, hbody, hname]

theorem Module.kernels_increasing (m : Module) : m.kernels.Pairwise (· < ·) :=
  List.Pairwise.filter _ List.pairwise_lt_range

/-! ## Outcomes of single kernels -/

/-- What is reported in place of a result. -/
def Failure.reported? {α ε : Type} : Except (Failure ε) α → Option ε
  | .error (.reported e) => some e
  | _ => none

namespace Config

/-- The kernel at a place, if its analysis succeeds. -/
def kernel? (c : Config) (m : Module) (i : Nat) : Option Kernel := (c.analyze m i).toOption

/-- The failure that is reported for the kernel at a place, if one is. -/
def failure? (c : Config) (m : Module) (i : Nat) : Option KernelFailure :=
  Failure.reported? (c.analyze m i)

/-- The run goes on after the kernel at a place: it succeeds, or it fails and the run does not end
at failures. -/
inductive Passes (c : Config) (m : Module) (i : Nat) : Prop
  | ok {k : Kernel} (h : c.analyze m i = .ok k)
  | reported {e : KernelFailure} (hc : c.failFast = false)
      (h : c.analyze m i = .error (.reported e))

variable {c : Config} {m : Module} {s : Session} {i : Nat} {k : Kernel} {e : KernelFailure}

theorem kernel?_of_ok (h : c.analyze m i = .ok k) : c.kernel? m i = some k := by
  rw [kernel?, h]
  rfl

theorem kernel?_of_error {x : Failure KernelFailure} (h : c.analyze m i = .error x) :
    c.kernel? m i = none := by
  rw [kernel?, h]
  rfl

theorem failure?_of_ok (h : c.analyze m i = .ok k) : c.failure? m i = none := by
  rw [failure?, h]
  rfl

theorem failure?_of_reported (h : c.analyze m i = .error (.reported e)) :
    c.failure? m i = some e := by
  rw [failure?, h]
  rfl

theorem failures_eq_nil {is : List Nat} (h : ∀ i ∈ is, ∃ k, c.analyze m i = .ok k) :
    is.filterMap (c.failure? m) = [] := by
  rw [List.filterMap_eq_nil_iff]
  intro i hi
  obtain ⟨k, hk⟩ := h i hi
  exact failure?_of_ok hk

/-! ## Runs over some of the kernels -/

/-- One step of a run that goes on: what the kernel gives is added to the session. -/
theorem runFrom_cons (h : c.Passes m i) (done : List Kernel) (rest : List Nat) :
    c.runFrom m s done (i :: rest) =
      c.runFrom m (s.extend (c.kernel? m i).toList (c.failure? m i).toList)
        (done ++ (c.kernel? m i).toList) rest := by
  cases h with
  | ok h =>
    rw [runFrom, h, kernel?_of_ok h, failure?_of_ok h]
    simp [Session.publish_eq]
  | reported hc h =>
    rw [runFrom, h, kernel?_of_error h, failure?_of_reported h]
    simp [hc, Session.note_eq]

theorem filterMap_cons_eq {α β : Type} (f : α → Option β) (x : α) (xs : List α) :
    (x :: xs).filterMap f = (f x).toList ++ xs.filterMap f := by
  cases h : f x <;> simp [h]

/-- A run over kernels after which it goes on, and then over the rest. -/
theorem runFrom_append (is rest : List Nat) (h : ∀ i ∈ is, c.Passes m i) (s : Session)
    (done : List Kernel) :
    c.runFrom m s done (is ++ rest) =
      c.runFrom m (s.extend (is.filterMap (c.kernel? m)) (is.filterMap (c.failure? m)))
        (done ++ is.filterMap (c.kernel? m)) rest := by
  induction is generalizing s done with
  | nil => simp [Session.extend_nil]
  | cons i is ih =>
    have hi : c.Passes m i := h i List.mem_cons_self
    have hrest : ∀ j ∈ is, c.Passes m j := fun j hj => h j (List.mem_cons_of_mem i hj)
    rw [List.cons_append, runFrom_cons hi, ih hrest, Session.extend_extend, List.append_assoc,
      filterMap_cons_eq, filterMap_cons_eq]

/-- The outcome of a run that goes on after every kernel. -/
def fullOutcome (c : Config) (m : Module) (s : Session) : Outcome where
  session := s.extend (m.kernels.filterMap (c.kernel? m)) (m.kernels.filterMap (c.failure? m))
  result := .ok (m.kernels.filterMap (c.kernel? m))

theorem run_of_passes (h : ∀ i ∈ m.kernels, c.Passes m i) (s : Session) :
    c.run m s = .ok (c.fullOutcome m s) := by
  have happend := runFrom_append m.kernels [] h s []
  rw [List.append_nil] at happend
  rw [run, happend, runFrom, List.nil_append]
  rfl

/-- A run that goes on up to a kernel. -/
theorem run_of_passes_until {is rest : List Nat} (hcut : m.kernels = is ++ i :: rest)
    (h : ∀ j ∈ is, c.Passes m j) (s : Session) :
    c.run m s =
      c.runFrom m (s.extend (is.filterMap (c.kernel? m)) (is.filterMap (c.failure? m)))
        (is.filterMap (c.kernel? m)) (i :: rest) := by
  rw [run, hcut, runFrom_append is (i :: rest) h s [], List.nil_append]

/-! ## Faults -/

/-- The analysis of the kernel at a place is not stopped by a fault. -/
def Answers (c : Config) (m : Module) (i : Nat) : Prop :=
  ∀ fault, c.analyze m i ≠ .error (.fault fault)

theorem Answers.passes (h : c.Answers m i) (hc : c.failFast = false) : c.Passes m i := by
  cases hr : c.analyze m i with
  | ok k => exact .ok hr
  | error x =>
    cases x with
    | fault fault => exact absurd hr (h fault)
    | reported e => exact .reported hc hr

/-- A run that goes on at failures has no outcome once a kernel is stopped by a fault. -/
theorem answers_of_runFrom {o : Outcome} (hc : c.failFast = false) {is : List Nat}
    {done : List Kernel} (h : c.runFrom m s done is = .ok o) : ∀ i ∈ is, c.Answers m i := by
  induction is generalizing s done with
  | nil =>
    intro i hi
    cases hi
  | cons j is ih =>
    have hj : c.Answers m j := by
      intro fault hfault
      rw [runFrom, hfault] at h
      cases h
    rw [runFrom_cons (hj.passes hc)] at h
    intro i hi
    rcases List.mem_cons.1 hi with rfl | hi
    · exact hj
    · exact ih h i hi

/-! ## The analysis and the policy for failures -/

theorem collect_failFast (b : Bool) (X : Extractor) (sites : List (Nat × Nat))
    (summary : AccessSummary) :
    { c with failFast := b }.collect X summary sites = c.collect X summary sites := by
  induction sites generalizing summary with
  | nil => rfl
  | cons site sites ih =>
    obtain ⟨block, i⟩ := site
    simp only [collect, ih]
    rfl

/-- The analysis of a kernel does not depend on what a run does at failures. -/
theorem analyze_failFast (b : Bool) : { c with failFast := b }.analyze m i = c.analyze m i := by
  simp only [analyze, collectOn_empty, collect_failFast]

theorem fullOutcome_failFast (b : Bool) :
    { c with failFast := b }.fullOutcome m s = c.fullOutcome m s := by
  have hkernel : { c with failFast := b }.kernel? m = c.kernel? m := by
    funext i
    rw [kernel?, kernel?, analyze_failFast]
  have hfailure : { c with failFast := b }.failure? m = c.failure? m := by
    funext i
    rw [failure?, failure?, analyze_failFast]
  rw [fullOutcome, fullOutcome, hkernel, hfailure]

/-- A run that goes on at failures, if it has an outcome: that of all kernels. -/
theorem eq_fullOutcome_of_run {o : Outcome} (h : { c with failFast := false }.run m s = .ok o) :
    o = c.fullOutcome m s := by
  have hanswers := answers_of_runFrom rfl h
  have hfull := run_of_passes (fun i hi => (hanswers i hi).passes rfl) s
  rw [fullOutcome_failFast, h] at hfull
  exact Except.ok.inj hfull

end Config

/-! ## Whole runs -/

/-- The kernels of a module are its functions with a body and the name of a kernel, in order, and
the remark about a kernel that fails names it. A run that goes on at failures returns the kernels
that succeed, has sent their events and nothing else to every sink, and has remarked on each
kernel that fails. A run that ends at failures does the same if there are none; else it returns
the error of the first kernel that fails, has remarked on that one only, and has sent to every
sink the events of the kernels before it, which is the beginning of what the other run sends.
Where the analysis of a kernel is stopped by a fault, so is the run that comes to it. -/
theorem run_publishes_whole_kernels (c : Config) (m : Module) (s : Session) :
    (m.kernels.Pairwise (· < ·) ∧
      ∀ i, i ∈ m.kernels ↔ ∃ f, m.functions[i]? = some f ∧ f.isDeclaration = false ∧
        isKernelName f.displayName = true) ∧
    (∀ i e, c.analyze m i = .error (.reported e) →
      ∃ f, m.functions[i]? = some f ∧ e.remark.location = .kernel f.displayName e.site) ∧
    (c.failFast = false → (∀ i ∈ m.kernels, c.Answers m i) →
      c.run m s = .ok (c.fullOutcome m s)) ∧
    (c.failFast = true → (∀ i ∈ m.kernels, ∃ k, c.analyze m i = .ok k) →
      c.run m s = .ok (c.fullOutcome m s) ∧ m.kernels.filterMap (c.failure? m) = []) ∧
    (c.failFast = true → ∀ is i rest e, m.kernels = is ++ i :: rest →
      (∀ j ∈ is, ∃ k, c.analyze m j = .ok k) → c.analyze m i = .error (.reported e) →
      ∃ o, c.run m s = .ok o ∧ o.session = s.extend (is.filterMap (c.kernel? m)) [e] ∧
        o.result = .error e.error ∧
        List.Forall₂ (fun a b => a.events <+: b.events) o.session.sinks
          (c.fullOutcome m s).session.sinks ∧
        ∀ o', { c with failFast := false }.run m s = .ok o' → o' = c.fullOutcome m s) ∧
    ∀ is i rest fault, m.kernels = is ++ i :: rest → (∀ j ∈ is, c.Passes m j) →
      c.analyze m i = .error (.fault fault) → c.run m s = .error fault := by
  refine ⟨⟨m.kernels_increasing, fun i => Module.mem_kernels_iff⟩, ?_, ?_, ?_, ?_, ?_⟩
  · intro i e h
    obtain ⟨f, hf, hname⟩ := Config.kernel_of_reported h
    exact ⟨f, hf, by rw [KernelFailure.remark, hname]⟩
  · intro hc hanswers
    exact Config.run_of_passes (fun i hi => (hanswers i hi).passes hc) s
  · intro _ hok
    refine ⟨Config.run_of_passes (fun i hi => ?_) s, Config.failures_eq_nil hok⟩
    obtain ⟨k, hk⟩ := hok i hi
    exact .ok hk
  · intro hc is i rest e hcut hok hfail
    have hpasses : ∀ j ∈ is, c.Passes m j := fun j hj => (hok j hj).elim fun _ hk => .ok hk
    refine ⟨{ session := s.extend (is.filterMap (c.kernel? m)) [e], result := .error e.error },
      ?_, rfl, rfl, ?_, fun o' => Config.eq_fullOutcome_of_run⟩
    · -- the kernels before it left no remark, so that of `i` is the only one
      rw [Config.run_of_passes_until hcut hpasses, Config.failures_eq_nil hok, Config.runFrom,
        hfail]
      simp [hc, Session.note_eq, Session.extend_extend]
    · apply Session.extend_prefix
      rw [hcut, List.filterMap_append]
      exact List.prefix_append _ _
  · intro is i rest fault hcut hpasses hfault
    rw [Config.run_of_passes_until hcut hpasses, Config.runFrom, hfault]

/-- Three kernels of which the second accesses an array that is no parameter. -/
def failingSecond : Module :=
  let idle (name : String) : Function :=
    { name := name
      blocks := #[⟨"entry", [0]⟩]
      instructions := #[⟨0, .void, none, .ret none⟩] }
  { name := "module"
    functions := #[
      { name := "at", demangled := some "cudarrays::dynarray<float, 1u>::operator()(int)" },
      idle "first_kernel()",
      { name := "second_kernel()"
        blocks := #[⟨"entry", [0, 1]⟩]
        instructions := #[
          ⟨0, Ty.pointerTo .float, none, .call 0 [.constant .null, .int 0]⟩,
          ⟨0, .void, none, .ret none⟩] },
      idle "third_kernel()"] }

/-- The failure of the second. -/
def secondFailure : KernelFailure where
  kernel := "second_kernel()"
  site := some 0
  error := .unmappedArray "Constant(Null)"
  context := some "after no dimension"

/-- Two sinks, one of them with an earlier event. -/
def twoSinks : Session where
  sinks := [⟨[.reset "earlier_kernel()"]⟩, ⟨[]⟩]

theorem run_publishes_first_kernel :
    ∃ o, { failFast := true : Config }.run failingSecond twoSinks = .ok o ∧
      o.result = .error (.unmappedArray "Constant(Null)") ∧
      o.session.remarks = [secondFailure.remark] ∧
      o.session.sinks =
        [⟨[.reset "earlier_kernel()", .reset "first_kernel()"]⟩, ⟨[.reset "first_kernel()"]⟩] := by
  have hkernels : failingSecond.kernels = [1] ++ 2 :: [3] := by decide +kernel
  have hfirst : { failFast := true : Config }.analyze failingSecond 1 =
      .ok ⟨1, "first_kernel()", { name := "first_kernel()" }, []⟩ := by decide +kernel
  have hsecond : { failFast := true : Config }.analyze failingSecond 2 =
      .error (.reported secondFailure) := by decide +kernel
  obtain ⟨-, -, -, -, hstop, -⟩ :=
    run_publishes_whole_kernels { failFast := true } failingSecond twoSinks
  obtain ⟨o, ho, hsession, hresult, -⟩ :=
    hstop rfl [1] 2 [3] secondFailure hkernels (by simp [hfirst]) hsecond
  refine ⟨o, ho, hresult, ?_, ?_⟩
  · rw [hsession]
    rfl
  · rw [hsession, Session.extend]
    simp [Config.kernel?, hfirst, Except.toOption, Kernel.events, twoSinks, Sink.send]

end GridAccess
