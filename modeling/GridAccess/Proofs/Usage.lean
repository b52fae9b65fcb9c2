import GridAccess.Proofs.Analysis

set_option autoImplicit false

/-!
# Arrays that are read and written

The provenance of a function lists the arrays that its loads and stores reach (`observe_extends`,
`foldlM_extends`). An access and the load or store that it serves meet at the call that returns
the element, but from there the array is looked for twice: the access follows its argument through
all casts that keep pointers and through addresses with offset zero, provenance through bit casts
and conversions between address spaces. Where only bit casts lie between, both find the same array,
and the flags of its record show the use (`flags_of_bitCopy`). Where a cast changes the address
space, an array that is written is not flagged (`converted_write_not_flagged`).
-/

namespace GridAccess

/-! ## Trails -/

/-- A trail from a value that ends with an answer, however long it is. -/
inductive Trails {α : Type} (step : Value → Except Fault (Move α)) : Value → α → Prop
  | stop {v : Value} {a : α} (h : step v = .ok (.stop a)) : Trails step v a
  | next {v w : Value} {a : α} (h : step v = .ok (.next w)) (hw : Trails step w a) :
      Trails step v a

namespace Trails

variable {α : Type} {step : Value → Except Fault (Move α)} {v : Value} {a b : α}

theorem of_trailWithin {steps : Nat} (h : trailWithin step steps v = .ok a) : Trails step v a := by
  induction steps generalizing v with
  | zero => cases h
  | succ steps ih =>
    rw [trailWithin] at h
    cases hstep : step v with
    | error e =>
      rw [hstep] at h
      cases h
    | ok move =>
      rw [hstep] at h
      cases move with
      | stop b =>
        obtain rfl := Except.ok.inj h
        exact .stop hstep
      | next w => exact .next hstep (ih h)

theorem unique (ha : Trails step v a) (hb : Trails step v b) : a = b := by
  induction ha with
  | stop h =>
    cases hb with
    | stop h' => cases h.symm.trans h'; rfl
    | next h' _ => cases h.symm.trans h'
  | next h _ ih =>
    cases hb with
    | stop h' => cases h.symm.trans h'
    | next h' hb =>
      cases h.symm.trans h'
      exact ih hb

end Trails

namespace Handle

variable {f : Function} {v : Value}

/-- The value whose storage the handle stands for. -/
def value : Handle → Value
  | slot i => .instruction i
  | param i => .argument i

/-- A slot that a pointer resolves to is one that is allocated. -/
theorem alloca_of_trails {i : Nat} (h : Trails (step f) v (some (slot i))) :
    ∃ inst type, f.instructions[i]? = some inst ∧ inst.operation = .alloca type := by
  generalize ho : some (slot i) = o at h
  induction h with
  | next _ _ ih => exact ih ho
  | @stop v o h =>
    subst ho
    cases v with
    | argument j => simp [step] at h
    | constant c => simp [step] at h
    | instruction j =>
      rw [step, bind_eq_ok_iff] at h
      obtain ⟨inst, hinst, h⟩ := h
      cases hop : inst.operation with
      | alloca type =>
        rw [hop] at h
        cases pure_eq_ok_iff.1 h
        exact ⟨inst, type, fetch_eq_ok_iff.1 hinst, hop⟩
      | cast op operand =>
        rw [hop] at h
        have := pure_eq_ok_iff.1 h
        split at this <;> cases this
      | element base indices =>
        rw [hop] at h
        have := pure_eq_ok_iff.1 h
        split at this <;> cases this
      | _ =>
        rw [hop] at h
        cases pure_eq_ok_iff.1 h

end Handle

/-- A value is another one, seen through bit casts. -/
inductive Function.BitCopy (f : Function) : Value → Value → Prop
  | refl (v : Value) : BitCopy f v v
  | cast {i : Nat} {inst : Instruction} {operand v : Value}
      (hinst : f.instructions[i]? = some inst) (hop : inst.operation = .cast .bitcast operand)
      (h : BitCopy f operand v) : BitCopy f (.instruction i) v

/-! ## Provenance -/

namespace Provenance

variable {m : Module} {t : Builtins} {f : Function} {p p' : Provenance} {inst : Instruction}

/-- The instruction loads from the storage of an array. -/
def Loads (m : Module) (t : Builtins) (f : Function) (inst : Instruction) (h : Handle) : Prop :=
  ∃ ptr, inst.operation = .load ptr ∧ storageSource m t f ptr = .ok (some h)

/-- The instruction stores to the storage of an array. -/
def Stores (m : Module) (t : Builtins) (f : Function) (inst : Instruction) (h : Handle) : Prop :=
  ∃ value ptr, inst.operation = .store value ptr ∧ storageSource m t f ptr = .ok (some h)

/-- What the observation of some instructions adds to what was known. -/
structure Extends (m : Module) (t : Builtins) (f : Function) (insts : List Instruction)
    (p p' : Provenance) : Prop where
  reads : ∀ h, h ∈ p'.reads ↔ h ∈ p.reads ∨ ∃ inst ∈ insts, Loads m t f inst h
  writes : ∀ h, h ∈ p'.writes ↔ h ∈ p.writes ∨ ∃ inst ∈ insts, Stores m t f inst h
  load : ∀ inst ∈ insts, ∀ ptr, inst.operation = .load ptr → ∃ o, storageSource m t f ptr = .ok o
  store : ∀ inst ∈ insts, ∀ value ptr, inst.operation = .store value ptr →
    ∃ o, storageSource m t f ptr = .ok o

theorem observe_extends (h : observe m t f p inst = .ok p') : Extends m t f [inst] p p' := by
  rw [observe] at h
  cases hop : inst.operation with
  | load ptr =>
    rw [hop] at h
    obtain ⟨o, ho, h⟩ := bind_eq_ok_iff.1 h
    cases o with
    | none =>
      obtain rfl := pure_eq_ok_iff.1 h
      refine ⟨?_, ?_, ?_, ?_⟩ <;> simp [Loads, Stores, hop, ho]
    | some a =>
      obtain rfl := pure_eq_ok_iff.1 h
      refine ⟨?_, ?_, ?_, ?_⟩ <;>
        simp [Loads, Stores, hop, ho, Provenance.read, Sorted.mem_insert_iff, or_comm, eq_comm]
  | store value ptr =>
    rw [hop] at h
    obtain ⟨o, ho, h⟩ := bind_eq_ok_iff.1 h
    obtain ⟨target, -, h⟩ := bind_eq_ok_iff.1 h
    -- what the slot is known to hold changes neither set
    have hsame : p'.reads = (o.elim p p.write).reads ∧ p'.writes = (o.elim p p.write).writes := by
      split at h <;> obtain rfl := pure_eq_ok_iff.1 h <;> cases o <;> exact ⟨rfl, rfl⟩
    cases o with
    | none => refine ⟨?_, ?_, ?_, ?_⟩ <;> simp [Loads, Stores, hop, ho, hsame]
    | some a =>
      refine ⟨?_, ?_, ?_, ?_⟩ <;>
        simp [Loads, Stores, hop, ho, hsame, Provenance.write, Sorted.mem_insert_iff, or_comm,
          eq_comm]
  | _ =>
    rw [hop] at h
    obtain rfl := Except.ok.inj h
    refine ⟨?_, ?_, ?_, ?_⟩ <;> simp [Loads, Stores, hop]

theorem Extends.trans {p'' : Provenance} {insts more : List Instruction}
    (h : Extends m t f insts p p') (h' : Extends m t f more p' p'') :
    Extends m t f (insts ++ more) p p'' where
  reads a := by
    rw [h'.reads, h.reads, or_assoc]
    simp [or_and_right, exists_or]
  writes a := by
    rw [h'.writes, h.writes, or_assoc]
    simp [or_and_right, exists_or]
  load inst hinst := (List.mem_append.1 hinst).elim (h.load inst) (h'.load inst)
  store inst hinst := (List.mem_append.1 hinst).elim (h.store inst) (h'.store inst)

theorem foldlM_extends {insts : List Instruction} (h : insts.foldlM (observe m t f) p = .ok p') :
    Extends m t f insts p p' := by
  induction insts generalizing p with
  | nil =>
    obtain rfl := pure_eq_ok_iff.1 h
    refine ⟨?_, ?_, ?_, ?_⟩ <;> simp
  | cons inst insts ih =>
    rw [List.foldlM_cons, bind_eq_ok_iff] at h
    obtain ⟨q, hq, h⟩ := h
    exact (observe_extends hq).trans (ih h)

/-- The array that an argument of a storage call stands for, through bit casts. -/
theorem slotSource_of_bitCopy {v : Value} {h : Handle} {o : Option Handle}
    (hcopy : f.BitCopy v h.value)
    (hslot : ∀ i, h = .slot i →
      ∃ inst type, f.instructions[i]? = some inst ∧ inst.operation = .alloca type)
    (ho : slotSource m t f v = .ok o) : o = some h := by
  apply (Trails.of_trailWithin ho).unique
  clear ho
  generalize hw : h.value = w at hcopy
  induction hcopy with
  | refl =>
    subst hw
    apply Trails.stop
    cases h with
    | param i => rfl
    | slot i =>
      obtain ⟨inst, type, hinst, hop⟩ := hslot i rfl
      exact bind_eq_ok_iff.2 ⟨inst, fetch_eq_ok_iff.2 hinst, by rw [hop]; rfl⟩
  | cast hinst hop _ ih =>
    refine .next ?_ (ih hw)
    exact bind_eq_ok_iff.2 ⟨_, fetch_eq_ok_iff.2 hinst, by rw [hop]; rfl⟩

/-- The storage behind an address that is derived from a storage call. -/
theorem storageSource_of_addressRoot {ptr array : Value} {site : Nat} {g : Function}
    {args : List Value} (hroot : f.addressRoot ptr = .ok (.instruction site))
    (hcall : m.Calls f site g (array :: args)) (hg : t.isStorageCall g = true) :
    storageSource m t f ptr = slotSource m t f array := by
  obtain ⟨inst, callee, hinst, hop, hcallee⟩ := hcall
  simp [storageSource, hroot, Function.definition, Function.instruction, fetch, hinst, hop,
    hcallee, hg, bind, Except.bind]

end Provenance

/-! ## The flags of a record -/

namespace Config

/-- An array that is loaded from or stored to through an access is flagged in its record, if the
access is given the array through bit casts only. -/
theorem flags_of_bitCopy (c : Config) (m : Module) (index : Nat) (k : Kernel) (f : Function)
    (hf : m.functions[index]? = some f) (hk : c.analyze m index = .ok k) (a : Access)
    (ha : a ∈ k.accesses.accesses) (g : Function) (array : Value) (indices : List Value)
    (hcall : m.Calls f a.site g (array :: indices)) (hg : c.builtins.isStorageCall g = true)
    (hcopy : f.BitCopy array a.handle.value) :
    ∃ r ∈ k.arrays, r.handle = a.handle ∧ (∀ r' ∈ k.arrays, r'.handle = a.handle → r' = r) ∧
      (a.isWrite = true → r.isWritten = true) ∧
      ((∃ inst ∈ f.instructions.toList, ∃ ptr, inst.operation = .load ptr ∧
        f.addressRoot ptr = .ok (.instruction a.site)) → r.isRead = true) := by
  obtain ⟨f', X, p, hf', han⟩ := analyze_eq_ok hk
  obtain rfl : f = f' := Option.some.inj (hf.symm.trans hf')
  obtain ⟨found, hfinds, hgroups⟩ := han.exists_found
  have hmem : a ∈ found := hgroups.perm.mem_iff.1 ha
  obtain ⟨r, hr, hhandle⟩ := hgroups.exists_record han.arrays hmem
  have hsums := hgroups.sums han.arrays hr
  have huses := Provenance.foldlM_extends han.provenance
  obtain ⟨array', indices', hdescribes⟩ := hfinds.describes hmem
  have hscope := (Extractor.of_ofScope han.extractor).1
  -- an address derived from the call points into the storage that the access resolves to
  have hsource : ∀ ptr o, f.addressRoot ptr = .ok (.instruction a.site) →
      Provenance.storageSource m c.builtins f ptr = .ok o → o = some a.handle := by
    intro ptr o hroot ho
    rw [Provenance.storageSource_of_addressRoot hroot hcall hg] at ho
    refine Provenance.slotSource_of_bitCopy hcopy ?_ ho
    intro i hi
    have hresolve := hdescribes.handle
    rw [hscope, hi] at hresolve
    exact Handle.alloca_of_trails (Trails.of_trailWithin hresolve)
  refine ⟨r, hr, hhandle, ?_, ?_, ?_⟩
  · intro r' hr' hhandle'
    exact hgroups.eq_of_handle_eq han.arrays hr' hr (hhandle'.trans hhandle.symm)
  · intro hwrite
    rw [hdescribes.isWrite, Extractor.stored_contains_iff han.extractor] at hwrite
    obtain ⟨inst, hinst, value, ptr, hop, hroot⟩ := hwrite
    obtain ⟨o, ho⟩ := huses.store inst hinst value ptr hop
    obtain rfl := hsource ptr o hroot ho
    rw [hsums.isWritten, hhandle, List.contains_iff_mem, huses.writes]
    exact .inr ⟨inst, hinst, value, ptr, hop, ho⟩
  · rintro ⟨inst, hinst, ptr, hop, hroot⟩
    obtain ⟨o, ho⟩ := huses.load inst hinst ptr hop
    obtain rfl := hsource ptr o hroot ho
    rw [hsums.isRead, hhandle, List.contains_iff_mem, huses.reads]
    exact .inr ⟨inst, hinst, ptr, hop, ho⟩

/-- A kernel that keeps its argument, an array, in a slot and stores to the first element. The
access is given the address of the slot through a cast. -/
def storeThrough (op : CastOp) : Module :=
  let array := Ty.pointerTo (.struct "cudarrays::dynarray")
  { name := "module"
    functions := #[
      { name := "_ZN9cudarrays8dynarrayIfLj1EEclEi"
        demangled := some "cudarrays::dynarray<float, 1u>::operator()(int)"
        params := #[⟨"this", array⟩, ⟨"i", .int 32⟩]
        ret := Ty.pointerTo .float },
      { name := "kernel"
        params := #[⟨"a", array⟩]
        blocks := #[⟨"entry", [0, 1, 2, 3, 4, 5]⟩]
        instructions := #[
          ⟨0, array.pointerTo, some "a.addr", .alloca array⟩,
          ⟨0, .void, none, .store (.argument 0) (.instruction 0)⟩,
          ⟨0, array.pointerTo, none, .cast op (.instruction 0)⟩,
          ⟨0, Ty.pointerTo .float, none, .call 0 [.instruction 2, .int 0]⟩,
          ⟨0, .void, none, .store (.int 1) (.instruction 3)⟩,
          ⟨0, .void, none, .ret none⟩] }] }

/-- The access of that kernel. -/
def storeAccess : Access where
  site := 3
  handle := .slot 0
  array := "a.addr"
  loop := none
  dims := [⟨"0", AxisSet.empty⟩]
  isWrite := true

/-- What the analysis finds, with and without the flag. -/
def storeKernel (flag : Bool) : Kernel where
  index := 1
  name := "kernel"
  accesses := { name := "kernel", arrays := [(.slot 0, [storeAccess])] }
  arrays := [
    { handle := .slot 0, array := "a.addr", arg := 0, dims := 1, axes := [AxisSet.empty]
      isRead := false, isWritten := flag }]

theorem flags_of_bitCopy_store :
    ({} : Config).analyze (storeThrough .bitcast) 1 = .ok (storeKernel true) ∧
      storeAccess.isWrite = true ∧
      ∃ r ∈ (storeKernel true).arrays, r.handle = .slot 0 ∧ r.isWritten = true := by
  have hk : ({} : Config).analyze (storeThrough .bitcast) 1 = .ok (storeKernel true) := by
    decide +kernel
  obtain ⟨r, hr, hhandle, -, hwritten, -⟩ :=
    flags_of_bitCopy {} (storeThrough .bitcast) 1 (storeKernel true) _ rfl hk storeAccess
      (by decide) _ (.instruction 2) [.int 0] ⟨_, 0, rfl, rfl, rfl⟩ (by decide +kernel)
      (.cast rfl rfl (.refl _))
  exact ⟨hk, rfl, r, hr, hhandle, hwritten rfl⟩

/-- An array that is stored to through a cast to another address space is not flagged. -/
theorem converted_write_not_flagged :
    ∃ f g array indices k a r, (storeThrough .addrspacecast).functions[1]? = some f ∧
      ({} : Config).analyze (storeThrough .addrspacecast) 1 = .ok k ∧ a ∈ k.accesses.accesses ∧
      (storeThrough .addrspacecast).Calls f a.site g (array :: indices) ∧
      ({} : Config).builtins.isStorageCall g = true ∧ a.isWrite = true ∧ r ∈ k.arrays ∧
      r.handle = a.handle ∧ r.isWritten = false := by
  have hk : ({} : Config).analyze (storeThrough .addrspacecast) 1 = .ok (storeKernel false) := by
    decide +kernel
  exact ⟨_, _, .instruction 2, [.int 0], storeKernel false, storeAccess, _, rfl, hk, by decide,
    ⟨_, 0, rfl, rfl, rfl⟩, by decide +kernel, rfl, List.mem_singleton_self _, rfl, rfl⟩

end Config

end GridAccess
