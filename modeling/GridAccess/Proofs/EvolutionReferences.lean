import GridAccess.Formula.OfEvolution
import GridAccess.Proofs.Invariance
import GridAccess.Proofs.References

set_option autoImplicit false

/-!
# What evolutions refer to

In a well-referenced module the evolution of a value is found without meeting a reference to
something that is not there, and refers only to values and loops that are there itself; its
recurrences have steps (`Function.WellReferenced.settles_evolution`). The same holds of the number
of rounds of a loop (`settles_tripCount`). If that number is invariant in the loop, its recurrences
belong to loops with greater numbers (`Context.everywhere_lt_of_isInvariant`), so that bounds of
loops do not nest for ever.

This is what `Viewpoint` proves about evolutions anyway, seen from a viewpoint without states
(`Function.overview`).
-/

namespace GridAccess

open Evolution

/-- The value that a node reads is there; a recurrence belongs to a loop that is there, and has a
step. -/
def Evolution.RefersTo (m : Module) (f : Function) : Evolution → Prop
  | unknown v => m.Has f v
  | recurrence _ es l => l < f.loops.loops.size ∧ es ≠ []
  | _ => True

theorem stable_refersTo (m : Module) (f : Function) : Stable (RefersTo m f) where
  constant _ := trivial
  sum _ := trivial
  product _ := trivial
  quotient _ _ := trivial
  smax _ _ := trivial
  umax _ _ := trivial
  recurrence _ fs hle h := by
    refine ⟨h.1, fun hnil => h.2 ?_⟩
    subst hnil
    exact List.length_eq_zero_iff.1 (Nat.le_zero.1 hle)
  zext _ := trivial
  sext _ := trivial
  trunc _ := trivial

namespace Function

variable {m : Module} {f : Function} {E : Prop} {t : Context.Table} {v : Value} {b i l : Nat}

/-- A viewpoint without states: of evolutions it only matters what they refer to. -/
def overview (f : Function) (m : Module) : Viewpoint (Context.ofFunction m f) where
  inputs := ⟨fun _ => 0, fun _ => 0, fun _ => 0⟩
  reads i := i < f.instructions.size
  counts l := l < f.loops.loops.size
  holds _ := False
  lt_of_reads _ hi := hi
  lt_of_counts _ hl := hl
  asks n := Definite n ∧ n.RefersTo m f
  stable_asks := stable_definite.and (stable_refersTo m f)
  definite_of_asks _ hn := hn.1
  asks_sizeOf _ := ⟨trivial, trivial⟩

theorem tells_overview {e : Evolution} (he : e.Everywhere (f.overview m).Admits) :
    (f.overview m).Tells v e := ⟨he, nofun⟩

theorem everywhere_unknown (hv : m.Has f v) : (unknown v).Everywhere (f.overview m).Admits := by
  refine .node ⟨⟨trivial, hv⟩, ?_⟩ (by simp [operands])
  cases v with
  | instruction i => exact hv
  | _ => trivial

/-! ## Rounds -/

/-- The evolution of each instruction refers to what is there, or is still open. -/
def Refers (f : Function) (m : Module) (t : Context.Table) : Prop :=
  ∀ i < f.instructions.size, Settles True ((f.overview m).Tells (.instruction i))
    (Context.lookup t (.instruction i))

theorem Refers.settles_lookup (ht : f.Refers m t) (hv : m.Has f v) :
    Settles True ((f.overview m).Tells v) (Context.lookup t v) := by
  cases v with
  | argument n => exact .ok (tells_overview (everywhere_unknown hv))
  | constant c =>
    cases c with
    | int w => exact .ok (tells_overview (everywhere_constant Viewpoint.stable_admits w))
    | _ => exact .ok (tells_overview (everywhere_unknown hv))
  | instruction i => exact ht i hv

theorem refers_open (f : Function) (m : Module) :
    f.Refers m (Array.replicate f.instructions.size (.error .endless)) := by
  intro i hi
  rw [Context.lookup, Array.getElem?_replicate, if_pos hi]
  exact .endless trivial

namespace WellReferenced

/-- What moves a loop phi refers to what is there. -/
theorem settles_increment? (hf : f.WellReferenced m) (hm : m.WellReferenced) (ht : f.Refers m t)
    (loop : Loop) (phi : Value) {back : Value} (hback : m.Has f back) :
    Settles True (fun o => ∀ e ∈ o, e.Everywhere (f.overview m).Admits)
      ((Context.ofFunction m f).increment? (Context.lookup t) loop phi back) := by
  have h : Settles True (fun o => ∀ e ∈ o, (f.overview m).Advances phi back e)
      ((Context.ofFunction m f).increment? (Context.lookup t) loop phi back) := by
    refine Viewpoint.settles_increment? ?_ fun j op hj hop => ?_
    · rintro j rfl
      exact hback
    · refine ⟨hop, fun v hv => hm.exists_typeOf (hf.has_operand hop hv), .inl trivial,
        fun _ _ v hv _ => ?_⟩
      exact ht.settles_lookup (hf.has_operand hop hv)
  exact h.mono id fun o ho e he => (ho e he).1

/-- A recurrence that is found for a phi refers to what is there. -/
theorem settles_ofPhi (hf : f.WellReferenced m) (hm : m.WellReferenced) (ht : f.Refers m t)
    (phi : Value) {incoming : List (Nat × Value)} (hincoming : ∀ x ∈ incoming, m.Has f x.2) :
    Settles True (fun o => ∀ e ∈ o, e.Everywhere (f.overview m).Admits)
      ((Context.ofFunction m f).ofPhi (Context.lookup t) phi b incoming) := by
  rw [Context.ofPhi]
  cases hin : (Context.ofFunction m f).forest.innermost? b with
  | none => exact .none
  | some id =>
    obtain ⟨loop, hloop⟩ := exists_loop_of_innermost? hin
    have hid : id < f.loops.loops.size := (Array.getElem?_eq_some_iff.1 hloop).1
    refine (Settles.fetch hid).bind fun loop _ => ?_
    by_cases hb : loop.header = b
    · rw [if_neg (not_not.2 hb)]
      cases hentry : Context.entryAndBack? loop incoming with
      | none => exact .none
      | some values =>
        obtain ⟨entry, back⟩ := values
        obtain ⟨p, q, hp, hq, -⟩ := exists_of_entryAndBack? hentry
        refine (hf.settles_increment? hm ht loop phi (hincoming _ hq)).bind fun o ho => ?_
        cases o with
        | none => exact .none
        | some step =>
          refine (ht.settles_lookup (hincoming _ hp)).bind fun start hstart => ?_
          refine .some (everywhere_recurrence_iff.2 ⟨?_, hstart.1, ?_⟩)
          · exact ⟨⟨trivial, hid, List.cons_ne_nil _ _⟩, hid⟩
          · simpa using ho step rfl
    · rw [if_pos hb]
      exact .none

/-- One round finds evolutions that refer to what is there. -/
theorem settles_ofInstruction (hf : f.WellReferenced m) (hm : m.WellReferenced)
    (ht : f.Refers m t) {inst : Instruction} (hinst : f.instructions[i]? = some inst) :
    Settles True ((f.overview m).Tells (.instruction i))
      ((Context.ofFunction m f).ofInstruction (Context.lookup t) i inst) := by
  have hi : i < f.instructions.size := (Array.getElem?_eq_some_iff.1 hinst).1
  have hop := operation?_of_getElem? hinst
  have hlook : ∀ v ∈ inst.operation.operands,
      Settles True ((f.overview m).Tells v) (Context.lookup t v) :=
    fun v hv => ht.settles_lookup (hf.has_operand hop hv)
  -- an instruction for which nothing is found is not looked into
  have hfound : ∀ {r : Except Fault (Option Evolution)},
      Settles True (fun o => ∀ e ∈ o, e.Everywhere (f.overview m).Admits) r →
      Settles True ((f.overview m).Tells (.instruction i))
        (r >>= fun o => pure (o.getD (.unknown (.instruction i)))) := by
    intro r hr
    refine hr.bind fun o ho => ?_
    cases o with
    | none => exact .ok (tells_overview (everywhere_unknown hi))
    | some e => exact .ok (tells_overview (ho e rfl))
  have hcomputed : ∀ {op : Operation} {r : Except Fault (Option Evolution)},
      Settles True (fun o => ∀ e ∈ o, (f.overview m).Computes op e) r →
      Settles True ((f.overview m).Tells (.instruction i))
        (r >>= fun o => pure (o.getD (.unknown (.instruction i)))) :=
    fun hr => hfound (hr.mono id fun o ho e he => (ho e he).1)
  rw [Context.ofInstruction]
  cases hcase : inst.operation with
  | binary op lhs rhs =>
    rw [hcase] at hlook
    exact hcomputed (Viewpoint.settles_ofBinary (hlook lhs (by simp [Operation.operands]))
      (hlook rhs (by simp [Operation.operands])))
  | cast op operand =>
    rw [hcase] at hlook
    exact hcomputed (Viewpoint.settles_ofCast (hlook operand (by simp [Operation.operands])))
  | element base indices =>
    rw [hcase] at hlook hop
    obtain ⟨type, htype⟩ := hm.exists_typeOf
      (hf.has_operand hop (List.mem_append_right indices List.mem_cons_self))
    exact hcomputed (Viewpoint.settles_ofElement htype (fun _ _ _ => .inl trivial) hlook)
  | select cond onTrue onFalse =>
    rw [hcase] at hlook hop
    have hcond : m.Has f cond := hf.has_operand hop (by simp [Operation.operands])
    refine hcomputed (Viewpoint.settles_ofSelect ?_ (fun _ _ _ _ _ _ _ hs => hs.elim)
      (hlook onTrue (by simp [Operation.operands]))
      (hlook onFalse (by simp [Operation.operands])))
    rintro j rfl
    exact hcond
  | phi incoming =>
    rw [hcase] at hop
    refine hfound (hf.settles_ofPhi hm ht _ fun x hx => hf.has_operand hop ?_)
    exact List.mem_map_of_mem hx
  | _ => exact hfound .none

theorem refers_round (hf : f.WellReferenced m) (hm : m.WellReferenced) (ht : f.Refers m t) :
    f.Refers m ((Context.ofFunction m f).round t) := by
  intro i hi
  have hinst := getElem?_pos f.instructions i hi
  rw [lookup_round hinst]
  exact hf.settles_ofInstruction hm ht hinst

theorem refers_settle (hf : f.WellReferenced m) (hm : m.WellReferenced) (rounds : Nat)
    (ht : f.Refers m t) : f.Refers m ((Context.ofFunction m f).settle rounds t) := by
  induction rounds generalizing t with
  | zero => exact ht
  | succ rounds ih =>
    rw [Context.settle]
    split
    · exact ht
    · exact ih (hf.refers_round hm ht)

theorem refers_evolutions (hf : f.WellReferenced m) (hm : m.WellReferenced) :
    f.Refers m (Context.ofFunction m f).evolutions :=
  hf.refers_settle hm _ (refers_open f m)

end WellReferenced

end Function

/-- The evolution of some instruction runs in a circle, or the layout of a type that it needs
does. -/
def Scope.RunsInCircle (S : Scope) : Prop := ∃ i, S.evolution (.instruction i) = .error .endless

/-! ## Invariance -/

section Invariance

variable {m : Module} {f : Function} {e : Evolution} {l : Nat}

theorem settles_isInvariant {E : Prop} (hl : l < f.loops.loops.size)
    (he : e.Everywhere (f.overview m).Admits) :
    Settles E (fun b => (Context.ofFunction m f).isInvariant l e = .ok b)
      ((Context.ofFunction m f).isInvariant l e) := by
  cases h : (Context.ofFunction m f).isInvariant l e with
  | ok b => exact .ok rfl
  | error fault =>
    obtain ⟨-, hnot⟩ := Context.isInvariant_eq_error h
    exact absurd ⟨hl, Viewpoint.known_of_admits he⟩ hnot

end Invariance

/-! ## Rounds of loops -/

namespace Function

variable {m : Module} {f : Function} {E : Prop} {v : Value} {l : Nat} {lhs rhs : Evolution}

theorem exists_operation_of_terminator? {b : Nat} {op : Operation}
    (h : f.terminator? b = some op) : ∃ i, f.operation? i = some op := by
  simp only [terminator?, Option.bind_eq_bind, Option.bind_eq_some_iff] at h
  obtain ⟨block, -, last, -, inst, hinst, h⟩ := h
  split at h
  · cases h
    exact ⟨last, operation?_of_getElem? hinst⟩
  · cases h

theorem everywhere_of_counterStart? {P : Evolution → Prop} {start : Evolution}
    (hlhs : lhs.Everywhere P) (h : lhs.counterStart? l = some start) : start.Everywhere P := by
  unfold counterStart? at h
  split at h
  · split at h
    · cases h
      exact (everywhere_recurrence_iff.1 hlhs).2.1
    · cases h
  · cases h

theorem settles_countedExit? (hl : l < f.loops.loops.size) (pred : Predicate)
    (hlhs : lhs.Everywhere (f.overview m).Admits) (hrhs : rhs.Everywhere (f.overview m).Admits) :
    Settles E (fun o => ∀ exit ∈ o, exit.start.Everywhere (f.overview m).Admits ∧
        exit.bound.Everywhere (f.overview m).Admits)
      ((Scope.ofFunction m f).countedExit? l pred lhs rhs) := by
  rw [Scope.countedExit?]
  cases hright : rhs.counterStart? l with
  | none =>
    cases hleft : lhs.counterStart? l with
    | none => exact .none
    | some start =>
      refine (settles_isInvariant hl hrhs).bind fun b _ => ?_
      cases b with
      | false => exact .none
      | true => exact .some ⟨everywhere_of_counterStart? hlhs hleft, hrhs⟩
  | some start =>
    have hswapped : Settles E (fun o => ∀ exit ∈ o,
        exit.start.Everywhere (f.overview m).Admits ∧ exit.bound.Everywhere (f.overview m).Admits)
        ((Context.ofFunction m f).isInvariant l lhs >>= fun b =>
          if b = true then pure (some ⟨pred.swapped, start, lhs⟩ : Option Scope.CountedExit)
          else pure none) := by
      refine (settles_isInvariant hl hlhs).bind fun b _ => ?_
      cases b with
      | false => exact .none
      | true => exact .some ⟨everywhere_of_counterStart? hrhs hright, hlhs⟩
    -- the other side is looked at if the left one is no counter, or its bound changes
    cases hleft : lhs.counterStart? l with
    | none => exact hswapped
    | some start' =>
      refine (settles_isInvariant hl hrhs).bind fun b _ => ?_
      cases b with
      | false => exact hswapped
      | true => exact .some ⟨everywhere_of_counterStart? hlhs hleft, hrhs⟩

theorem settles_roundsUntil {exit : Scope.CountedExit}
    (hexit : exit.start.Everywhere (f.overview m).Admits ∧
      exit.bound.Everywhere (f.overview m).Admits) :
    Settles E (fun e => e = .indeterminate ∨ e.Everywhere (f.overview m).Admits)
      ((Scope.ofFunction m f).roundsUntil exit) := by
  have hrounds : Settles E (fun e => e.Everywhere (f.overview m).Admits)
      ((Context.ofFunction m f).difference exit.bound exit.start) :=
    (Viewpoint.settles_difference hexit.2 hexit.1).mono id fun e he => he.1
  rw [Scope.roundsUntil]
  cases exit.pred with
  | slt | ult | ne => exact hrounds.mono id fun e he => .inr he
  | sle | ule =>
    refine hrounds.bind fun e he => ?_
    have hsum : AllEverywhere (f.overview m).Admits [e, .constant 1] := by
      simpa using ⟨he, everywhere_constant Viewpoint.stable_admits 1⟩
    exact (Viewpoint.settles_sum hsum).mono id fun e he => .inr he.1
  | _ => exact .ok (.inl rfl)

namespace WellReferenced

/-- The evolution of a value that is there refers to what is there, unless evolutions run in a
circle. -/
theorem settles_evolution (hf : f.WellReferenced m) (hm : m.WellReferenced) (hv : m.Has f v) :
    Settles (Scope.ofFunction m f).RunsInCircle (fun e => e.Everywhere (f.overview m).Admits)
      ((Scope.ofFunction m f).evolution v) := by
  have h : Settles True ((f.overview m).Tells v) ((Scope.ofFunction m f).evolution v) :=
    (hf.refers_evolutions hm).settles_lookup hv
  cases hr : (Scope.ofFunction m f).evolution v with
  | ok e =>
    rw [hr] at h
    cases h with
    | ok he => exact .ok he.1
  | error fault =>
    rw [hr] at h
    cases h with
    | endless _ =>
      -- arguments and constants have their evolution from the start
      cases v with
      | instruction i => exact .endless ⟨i, hr⟩
      | argument n => cases hr
      | constant c => cases c <;> cases hr

theorem settles_sides (hf : f.WellReferenced m) {cond : Value} (hcond : m.Has f cond) :
    Settles E (fun o => ∀ c ∈ o, m.Has f c.lhs ∧ m.Has f c.rhs)
      ((Context.ofFunction m f).comparison? cond) := by
  refine Settles.mono (Viewpoint.settles_comparison? ?_) id fun o ho c hc => ?_
  · rintro j rfl
    exact hcond
  · obtain ⟨j, -, hop⟩ := ho c hc
    exact ⟨hf.has_operand hop (by simp [Operation.operands]),
      hf.has_operand hop (by simp [Operation.operands])⟩

theorem has_condition (hf : f.WellReferenced m) {loop : Loop} {cond : Value} {onTrue onFalse : Nat}
    (h : (Context.ofFunction m f).latchBranch? loop = some (.branchIf cond onTrue onFalse)) :
    m.Has f cond := by
  obtain ⟨b, -, hb⟩ := Option.bind_eq_some_iff.1 h
  obtain ⟨i, hop⟩ := exists_operation_of_terminator? hb
  exact hf.has_operand hop List.mem_cons_self

/-- The comparison on which a loop goes on is of values that are there. -/
theorem settles_continuation? (hf : f.WellReferenced m) (loop : Loop) :
    Settles E (fun o => ∀ c ∈ o, m.Has f c.lhs ∧ m.Has f c.rhs)
      ((Context.ofFunction m f).continuation? loop) := by
  rw [Context.continuation?]
  split
  · rename_i cond onTrue onFalse hbranch
    have hsides := hf.settles_sides (E := E) (hf.has_condition hbranch)
    split
    · exact hsides
    · refine hsides.map fun o ho c hc => ?_
      obtain ⟨c', hc', rfl⟩ := Option.map_eq_some_iff.1 hc
      exact ho c' hc'
    · exact .none
  · exact .none

/-- The number of rounds of a loop refers to what is there, if it is known. -/
theorem settles_tripCount (hf : f.WellReferenced m) (hm : m.WellReferenced)
    (hl : l < f.loops.loops.size) :
    Settles (Scope.ofFunction m f).RunsInCircle
      (fun e => e = .indeterminate ∨ e.Everywhere (f.overview m).Admits)
      ((Scope.ofFunction m f).tripCount l) := by
  refine (Settles.fetch hl).bind fun loop _ => ?_
  refine (hf.settles_continuation? loop).bind fun o ho => ?_
  cases o with
  | none => exact .ok (.inl rfl)
  | some c =>
    obtain ⟨hlhs, hrhs⟩ := ho c rfl
    refine (hf.settles_evolution hm hlhs).bind fun lhs hlhs => ?_
    refine (hf.settles_evolution hm hrhs).bind fun rhs hrhs => ?_
    refine (settles_countedExit? hl c.pred hlhs hrhs).bind fun o ho => ?_
    cases o with
    | none => exact .ok (.inl rfl)
    | some exit => exact settles_roundsUntil (ho exit rfl)

theorem settles_hasInvariantTripCount (hf : f.WellReferenced m) (hm : m.WellReferenced)
    (hl : l < f.loops.loops.size) :
    Settles (Scope.ofFunction m f).RunsInCircle (fun b => b = true → ∀ count,
        (Scope.ofFunction m f).tripCount l = .ok count →
          count.Everywhere (f.overview m).Admits ∧
            (Context.ofFunction m f).isInvariant l count = .ok true)
      ((Scope.ofFunction m f).hasInvariantTripCount l) := by
  refine (hf.settles_tripCount hm hl).self.bind ?_
  rintro count ⟨rfl | hcount, htrip⟩
  · exact .ok nofun
  · split
    · exact .ok nofun
    · refine (settles_isInvariant hl hcount).mono id fun b hb htrue count' htrip' => ?_
      obtain rfl := Except.ok.inj (htrip.symm.trans htrip')
      exact ⟨hcount, htrue ▸ hb⟩

/-- The head of a loop that is there. The number of rounds that it shows refers to what is there,
and is invariant in the loop. -/
theorem settles_loopHead (hf : f.WellReferenced m) (hm : m.WellReferenced)
    (hl : l < f.loops.loops.size) :
    Settles (Scope.ofFunction m f).RunsInCircle (fun h => ∀ count ∈ h.rounds,
        count.Everywhere (f.overview m).Admits ∧
          (Context.ofFunction m f).isInvariant l count = .ok true)
      ((Scope.ofFunction m f).loopHead l) := by
  refine (Settles.fetch hl).bind fun loop _ => ?_
  refine (hf.settles_hasInvariantTripCount hm hl).bind fun b hb => ?_
  cases b with
  | false => exact .ok nofun
  | true =>
    refine (hf.settles_tripCount hm hl).self.bind fun count hcount => .ok ?_
    rintro _ ⟨⟩
    exact hb rfl count hcount.2

end WellReferenced

end Function

end GridAccess
