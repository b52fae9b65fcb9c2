import GridAccess.Proofs.Descent
import GridAccess.Proofs.Usage

set_option autoImplicit false

/-!
# Two ways to the array behind a pointer

The array behind a pointer is looked for in two ways: for the accesses of a kernel by
`Handle.resolve`, for its loads and stores by `Provenance.slotSource`. They pass through different
casts, addresses and calls. But a step of either of them stops at a parameter or a stack slot,
gives up, or goes on to the one operand that the pointer is derived from (`Function.Traces`). If
neither gives up, they have taken the same steps, and name the same array
(`Trails.handle_unique`). So a load or store is never counted for another array than the access
that it goes through (`Provenance.walks_agree`).

Neither way is cut short: as long as casts, addresses and calls are not derived from one another in
a circle, there are never too many steps (`Function.trail_ne_endless_of_traces`).
-/

namespace GridAccess

/-- The operand that a pointer is derived from: that of a cast, the base of an address, the first
argument of a call. -/
def Operation.source? : Operation → Option Value
  | .cast _ v | .element v _ => some v
  | .call _ args => args.head?
  | _ => none

namespace Function

variable {α β : Type} {f : Function} {v w w' : Value} {h h' : Handle}

/-! ## Where pointers come from -/

/-- Value `v` is a cast, an address or a call, and derived from `w`. -/
def Derives (f : Function) (v w : Value) : Prop :=
  ∃ i inst, v = .instruction i ∧ f.instructions[i]? = some inst ∧
    inst.operation.source? = some w

/-- The value is an array by itself: a parameter or a stack slot. -/
inductive Holds (f : Function) : Value → Handle → Prop
  | param (i : Nat) : Holds f (.argument i) (.param i)
  | slot {i : Nat} {inst : Instruction} {type : Ty} (hinst : f.instructions[i]? = some inst)
      (hop : inst.operation = .alloca type) : Holds f (.instruction i) (.slot i)

theorem Derives.unique (hw : f.Derives v w) (hw' : f.Derives v w') : w = w' := by
  obtain ⟨i, inst, rfl, hinst, hsource⟩ := hw
  obtain ⟨j, inst', hj, hinst', hsource'⟩ := hw'
  cases hj
  obtain rfl := Option.some.inj (hinst.symm.trans hinst')
  exact Option.some.inj (hsource.symm.trans hsource')

theorem Holds.unique (hv : f.Holds v h) (hv' : f.Holds v h') : h = h' := by
  cases hv <;> cases hv' <;> rfl

/-- No pointer is derived from itself if pointers are derived from earlier ones only. -/
theorem acyclic_derives_of_earlier
    (h : ∀ i < f.instructions.size, ∀ inst ∈ f.instructions[i]?, ∀ w ∈ inst.operation.source?,
      ∀ j ∈ w.instruction?, j < i) (v : Value) : ¬ Relation.TransGen f.Derives v v := by
  apply acyclic_of_rank fun v => (v.instruction?.map Nat.succ).getD 0
  rintro _ w ⟨i, inst, rfl, hinst, hsource⟩
  have hi := h i (Array.getElem?_eq_some_iff.1 hinst).1 inst hinst w hsource
  cases w with
  | instruction j => exact Nat.succ_lt_succ (hi j rfl)
  | argument j | constant c => exact Nat.succ_pos i

/-- What is an array by itself is not derived from anything. -/
theorem Holds.not_derives (hv : f.Holds v h) : ¬ f.Derives v w := by
  rintro ⟨i, inst, rfl, hinst, hsource⟩
  cases hv with
  | slot hinst' hop =>
    obtain rfl := Option.some.inj (hinst.symm.trans hinst')
    rw [hop] at hsource
    cases hsource

/-! ## Steps that trace pointers back -/

/-- The outcome of a step from `v`: it goes on to what `v` is derived from, or stops with an answer
that has property `P`. All that can prevent it is a reference that dangles. -/
inductive Traces (f : Function) (v : Value) (P : α → Prop) : Except Fault (Move α) → Prop
  | next {w : Value} (hw : f.Derives v w) : Traces f v P (.ok (.next w))
  | stop {a : α} (ha : P a) : Traces f v P (.ok (.stop a))
  | dangling : Traces f v P (.error .dangling)

theorem Traces.fetch_bind {P : α → Prop} {table : Array β} {i : Nat}
    {g : β → Except Fault (Move α)} (hg : ∀ b, table[i]? = some b → f.Traces v P (g b)) :
    f.Traces v P (fetch table i >>= g) := by
  rw [fetch]
  cases hi : table[i]? with
  | none => exact .dangling
  | some b => exact hg b hi

theorem Traces.derives {P : α → Prop} (h : f.Traces v P (.ok (.next w))) : f.Derives v w := by
  cases h with
  | next hw => exact hw

theorem Traces.of_stop {P : α → Prop} {a : α} (h : f.Traces v P (.ok (.stop a))) : P a := by
  cases h with
  | stop ha => exact ha

theorem Traces.to_source {P : α → Prop} {i : Nat} {inst : Instruction}
    (hinst : f.instructions[i]? = some inst) (hw : inst.operation.source? = some w) :
    f.Traces (.instruction i) P (.ok (.next w)) :=
  .next ⟨i, inst, rfl, hinst, hw⟩

theorem Traces.found (hv : f.Holds v h) :
    f.Traces v (fun o => ∀ h ∈ o, f.Holds v h) (.ok (.stop (some h))) := by
  apply Traces.stop
  rintro _ ⟨⟩
  exact hv

theorem Traces.lost : f.Traces v (fun o => ∀ h ∈ o, f.Holds v h) (.ok (.stop none)) :=
  .stop (by simp)

/-- A trail that traces pointers back is not too long, if none of them is derived from itself. -/
theorem trail_ne_endless_of_traces {step : Value → Except Fault (Move α)} {P : Value → α → Prop}
    (hstep : ∀ v, f.Traces v (P v) (step v)) (hacyclic : ∀ v, ¬ Relation.TransGen f.Derives v v)
    (v : Value) : f.trail step v ≠ .error .endless := by
  have hderives : ∀ v w, GoesOn step v w → f.Derives v w := by
    intro v w hvw
    have htraces := hstep v
    rw [hvw] at htraces
    exact htraces.derives
  apply f.trail_ne_endless
  · intro v hv
    have htraces := hstep v
    rw [hv] at htraces
    cases htraces
  · intro v w hvw
    obtain ⟨i, inst, rfl, hinst, -⟩ := hderives v w hvw
    exact ⟨i, (Array.getElem?_eq_some_iff.1 hinst).1, rfl⟩
  · intro v hcircle
    exact hacyclic v (Relation.TransGen.mono hderives v v hcircle)

end Function

/-- Two searches from one pointer that both find an array find the same one. -/
theorem Trails.handle_unique {f : Function}
    {step step' : Value → Except Fault (Move (Option Handle))}
    (hstep : ∀ v, f.Traces v (fun o => ∀ h ∈ o, f.Holds v h) (step v))
    (hstep' : ∀ v, f.Traces v (fun o => ∀ h ∈ o, f.Holds v h) (step' v)) {v : Value}
    {h h' : Handle} (ht : Trails step v (some h)) (ht' : Trails step' v (some h')) : h = h' := by
  generalize ho : some h = o at ht
  induction ht with
  | @stop v o hv =>
    subst ho
    have hholds : f.Holds v h := (hv ▸ hstep v).of_stop h rfl
    cases ht' with
    | stop hv' => exact hholds.unique ((hv' ▸ hstep' v).of_stop h' rfl)
    | next hv' _ => exact absurd (hv' ▸ hstep' v).derives hholds.not_derives
  | @next v w o hv _ ih =>
    have hderives : f.Derives v w := (hv ▸ hstep v).derives
    cases ht' with
    | stop hv' => exact absurd hderives ((hv' ▸ hstep' v).of_stop h' rfl).not_derives
    | next hv' hrest =>
      -- both have gone on to the same operand
      obtain rfl := hderives.unique (hv' ▸ hstep' v).derives
      exact ih hrest ho

/-! ## The steps of the walks -/

section Steps

theorem fetch_ne_endless {α : Type} (table : Array α) (i : Nat) :
    fetch table i ≠ .error .endless := by
  rw [fetch]
  split <;> simp

theorem Handle.step_traces (f : Function) (v : Value) :
    f.Traces v (fun o => ∀ h ∈ o, f.Holds v h) (Handle.step f v) := by
  cases v with
  | argument i => exact .found (.param i)
  | constant c => exact .lost
  | instruction i =>
    apply Function.Traces.fetch_bind
    intro inst hinst
    cases hop : inst.operation with
    | alloca type => exact .found (.slot hinst hop)
    | cast op operand =>
      dsimp only
      split
      · exact .to_source hinst (by rw [hop]; rfl)
      · exact .lost
    | element base indices =>
      dsimp only
      split
      · exact .to_source hinst (by rw [hop]; rfl)
      · exact .lost
    | _ => exact .lost

theorem Provenance.slotStep_traces (m : Module) (t : Builtins) (f : Function) (v : Value) :
    f.Traces v (fun o => ∀ h ∈ o, f.Holds v h) (Provenance.slotStep m t f v) := by
  cases v with
  | argument i => exact .found (.param i)
  | constant c => exact .lost
  | instruction i =>
    apply Function.Traces.fetch_bind
    intro inst hinst
    cases hop : inst.operation with
    | alloca type => exact .found (.slot hinst hop)
    | cast op operand =>
      cases op with
      | bitcast => exact .to_source hinst (by rw [hop]; rfl)
      | _ => exact .lost
    | call callee args =>
      apply Function.Traces.fetch_bind
      intro g _
      split
      · exact .to_source hinst (by rw [hop]; rfl)
      · exact .lost
    | _ => exact .lost

theorem Function.addressStep_traces (f : Function) (v : Value) :
    f.Traces v (fun _ => True) (f.addressStep v) := by
  cases v with
  | argument i | constant c => exact .stop trivial
  | instruction i =>
    rw [addressStep, definition, instruction, fetch]
    cases hinst : f.instructions[i]? with
    | none => exact .dangling
    | some inst =>
      rw [map_ok, ok_bind]
      dsimp only
      split
      · rename_i base indices hop
        exact .to_source hinst (by rw [hop]; rfl)
      · rename_i op operand hop
        split
        · exact .to_source hinst (by rw [hop]; rfl)
        · exact .stop trivial
      · exact .stop trivial

end Steps

/-! ## Loads, stores and accesses -/

namespace Provenance

variable {m : Module} {t : Builtins} {f : Function} {ptr : Value} {h : Handle}

/-- The storage behind an address is that of the first argument of a storage call. -/
theorem of_storageSource (hh : storageSource m t f ptr = .ok (some h)) :
    ∃ c g array args, f.addressRoot ptr = .ok (.instruction c) ∧
      m.Calls f c g (array :: args) ∧ t.isStorageCall g = true ∧
      slotSource m t f array = .ok (some h) := by
  rw [storageSource, bind_eq_ok_iff] at hh
  obtain ⟨root, hroot, hh⟩ := hh
  obtain ⟨o, ho, hh⟩ := bind_eq_ok_iff.1 hh
  cases o with
  | none => cases pure_eq_ok_iff.1 hh
  | some inst =>
    cases root with
    | argument i | constant c => cases ho
    | instruction c =>
      obtain ⟨inst', hinst, hsome⟩ := map_eq_ok_iff.1 ho
      obtain rfl := Option.some.inj hsome
      cases hop : inst'.operation with
      | call callee args =>
        simp only [hop] at hh
        obtain ⟨g, hg, hh⟩ := bind_eq_ok_iff.1 hh
        cases hstorage : t.isStorageCall g with
        | false =>
          simp only [hstorage] at hh
          cases pure_eq_ok_iff.1 hh
        | true =>
          cases args with
          | nil =>
            simp only [hstorage] at hh
            cases pure_eq_ok_iff.1 hh
          | cons array rest =>
            simp only [hstorage] at hh
            exact ⟨c, g, array, rest, hroot,
              ⟨inst', callee, fetch_eq_ok_iff.1 hinst, hop, fetch_eq_ok_iff.1 hg⟩, hstorage, hh⟩
      | _ =>
        simp only [hop] at hh
        cases pure_eq_ok_iff.1 hh

theorem storageSource_ne_endless (hroot : f.addressRoot ptr ≠ .error .endless)
    (hslot : ∀ v, slotSource m t f v ≠ .error .endless) :
    storageSource m t f ptr ≠ .error .endless := by
  rw [storageSource]
  intro hend
  rcases bind_eq_error_iff.1 hend with hend | ⟨root, -, hend⟩
  · exact hroot hend
  rcases bind_eq_error_iff.1 hend with hend | ⟨o, -, hend⟩
  · cases root with
    | argument i | constant c => cases hend
    | instruction c => exact fetch_ne_endless _ _ (map_eq_error_iff.1 hend)
  cases o with
  | none => exact pure_ne_error hend
  | some inst =>
    dsimp only at hend
    split at hend
    · rcases bind_eq_error_iff.1 hend with hend | ⟨g, -, hend⟩
      · exact fetch_ne_endless _ _ hend
      · split at hend
        · exact hslot _ hend
        · exact pure_ne_error hend
    · exact pure_ne_error hend

/-- The two searches for the array behind a pointer never name different arrays. So the array that
a load or store is counted for, by way of a call that its pointer is derived from, is the array of
the access that this call makes. Nor are the searches ever cut short, if casts, addresses and calls
are not derived from one another in a circle. -/
theorem walks_agree (m : Module) (t : Builtins) (f : Function)
    (hacyclic : ∀ v, ¬ Relation.TransGen f.Derives v v) :
    (∀ v, Handle.resolve f v ≠ .error .endless ∧ slotSource m t f v ≠ .error .endless ∧
      storageSource m t f v ≠ .error .endless) ∧
    (∀ v h h', Handle.resolve f v = .ok (some h) → slotSource m t f v = .ok (some h') → h = h') ∧
    ∀ ptr h, storageSource m t f ptr = .ok (some h) →
      ∃ c, f.addressRoot ptr = .ok (.instruction c) ∧ (∃ g args, m.Calls f c g args) ∧
        ∀ (X : Extractor) (loop : Option Nat) (a : Access), X.scope.function = f →
          X.extract c loop = .ok a → a.handle = h := by
  have hslot : ∀ v, slotSource m t f v ≠ .error .endless :=
    Function.trail_ne_endless_of_traces (slotStep_traces m t f) hacyclic
  have hagree : ∀ v h h', Handle.resolve f v = .ok (some h) →
      slotSource m t f v = .ok (some h') → h = h' := by
    intro v h h' hh hh'
    exact Trails.handle_unique (Handle.step_traces f) (slotStep_traces m t f)
      (Trails.of_trailWithin hh) (Trails.of_trailWithin hh')
  refine ⟨fun v => ⟨?_, hslot v, ?_⟩, hagree, ?_⟩
  · exact Function.trail_ne_endless_of_traces (Handle.step_traces f) hacyclic v
  · apply storageSource_ne_endless _ hslot
    exact Function.trail_ne_endless_of_traces f.addressStep_traces hacyclic v
  · intro ptr h hh
    obtain ⟨c, g, array, args, hroot, hcall, -, hsource⟩ := of_storageSource hh
    refine ⟨c, hroot, ⟨g, _, hcall⟩, ?_⟩
    rintro X loop a rfl ha
    -- the access and the storage call are one call, with one array
    obtain ⟨rfl, array', indices, hdescribes⟩ := Extractor.extract_eq_ok ha
    cases hdescribes.args_eq hcall
    exact hagree array a.handle h hdescribes.handle hsource

theorem walks_agree_storeThrough :
    ∃ (f : Function) (X : Extractor), (Config.storeThrough .bitcast).functions[1]? = some f ∧
      (∀ v, ¬ Relation.TransGen f.Derives v v) ∧
      storageSource (Config.storeThrough .bitcast) {} f (.instruction 3) = .ok (some (.slot 0)) ∧
      X.scope.function = f ∧ X.extract 3 none = .ok Config.storeAccess ∧
      Config.storeAccess.handle = .slot 0 := by
  obtain ⟨f, hf⟩ : ∃ f, (Config.storeThrough .bitcast).functions[1]? = some f := ⟨_, rfl⟩
  have hacyclic : ∀ v, ¬ Relation.TransGen f.Derives v v := by
    obtain rfl := Option.some.inj hf
    exact Function.acyclic_derives_of_earlier (by decide)
  have hsite : f.addressRoot (.instruction 3) = .ok (.instruction 3) := by
    obtain rfl := Option.some.inj hf
    decide +kernel
  have hstorage : storageSource (Config.storeThrough .bitcast) {} f (.instruction 3) =
      .ok (some (.slot 0)) := by
    obtain rfl := Option.some.inj hf
    decide +kernel
  have hextract : (Failure.lift (Extractor.ofScope
      (Scope.ofFunction (Config.storeThrough .bitcast) f) {} .blockIndex) >>=
        fun X => X.extract 3 none) = .ok Config.storeAccess := by
    obtain rfl := Option.some.inj hf
    decide +kernel
  obtain ⟨X, hX, ha⟩ := bind_eq_ok_iff.1 hextract
  have hscope : X.scope.function = f := by
    rw [(Extractor.of_ofScope (Failure.lift_eq_ok_iff.1 hX)).1]
    rfl
  obtain ⟨-, -, hwalks⟩ := walks_agree (Config.storeThrough .bitcast) {} f hacyclic
  obtain ⟨c, hc, -, hall⟩ := hwalks _ _ hstorage
  cases hsite.symm.trans hc
  exact ⟨f, X, hf, hacyclic, hstorage, hscope, ha, hall X none _ hscope ha⟩

end Provenance

end GridAccess
