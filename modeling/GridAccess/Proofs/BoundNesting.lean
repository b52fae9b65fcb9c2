import GridAccess.Proofs.AffineEvolutions
import GridAccess.Proofs.Endings
import GridAccess.Proofs.EvolutionDescent
import GridAccess.Proofs.LatchBound
import GridAccess.Proofs.PhiGuard

set_option autoImplicit false

/-!
# Bounds inside bounds

The formula of a recurrence is written with the number of rounds of its loop, which is no part of
the recurrence and can hold recurrences itself. These belong to loops around the loop, since the
number of rounds is the same in every round (`Scope.onLoops_rounds`), and so do all recurrences in
the formula of that number, numbers of rounds of further loops included
(`Scope.liesAround_of_writes`). A loop around another one has the greater number, so bounds come to
an end (`Scope.acc_writes`): the formula of an evolution is written or fails, if the evolutions and
the formulas of values do (`Writer.ends_ofEvolution`).
-/

namespace GridAccess

open Evolution

/-! ## Numbers of rounds -/

namespace Scope

variable {S : Scope} {l : Nat}

theorem countedExit?_ne_endless (S : Scope) (l : Nat) (pred : Predicate) (lhs rhs : Evolution) :
    S.countedExit? l pred lhs rhs ≠ .error .endless := by
  rw [countedExit?]
  cases rhs.counterStart? l with
  | none =>
    cases lhs.counterStart? l with
    | none => exact pure_ne_error
    | some start =>
      refine bind_ne_error (S.isInvariant_ne_endless l rhs) fun invariant _ => ?_
      cases invariant <;> exact pure_ne_error
  | some start =>
    have hswapped : (S.isInvariant l lhs >>= fun invariant =>
        if invariant = true then pure (some ⟨pred.swapped, start, lhs⟩ : Option CountedExit)
        else pure none) ≠ .error .endless := by
      refine bind_ne_error (S.isInvariant_ne_endless l lhs) fun invariant _ => ?_
      cases invariant <;> exact pure_ne_error
    -- the other side is looked at if the left one is no counter, or its bound changes
    cases lhs.counterStart? l with
    | none => exact hswapped
    | some start' =>
      refine bind_ne_error (S.isInvariant_ne_endless l rhs) fun invariant _ => ?_
      cases invariant with
      | false => exact hswapped
      | true => exact pure_ne_error

theorem roundsUntil_ne_endless (S : Scope) (exit : CountedExit) :
    S.roundsUntil exit ≠ .error .endless := by
  obtain ⟨pred, start, bound⟩ := exit
  cases pred with
  | slt | ult | ne => exact S.difference_ne_endless bound start
  | sle | ule => exact bind_ne_error (S.difference_ne_endless bound start) fun _ _ => S.sum_ne_endless _
  | _ => exact pure_ne_error

variable (hevolution : ∀ v, S.evolution v ≠ .error .endless)

include hevolution

theorem tripCount_ne_endless (l : Nat) : S.tripCount l ≠ .error .endless := by
  refine bind_ne_error (fetch_ne_endless _ _) fun loop _ => ?_
  refine bind_ne_error (S.continuation?_ne_endless loop) fun c _ => ?_
  cases c with
  | none => exact pure_ne_error
  | some c =>
    refine bind_ne_error (hevolution c.lhs) fun lhs _ => ?_
    refine bind_ne_error (hevolution c.rhs) fun rhs _ => ?_
    refine bind_ne_error (S.countedExit?_ne_endless l c.pred lhs rhs) fun exit _ => ?_
    cases exit with
    | none => exact pure_ne_error
    | some exit => exact S.roundsUntil_ne_endless exit

theorem loopHead_ne_endless (l : Nat) : S.loopHead l ≠ .error .endless := by
  have hcount := tripCount_ne_endless hevolution l
  have hinvariant : S.hasInvariantTripCount l ≠ .error .endless := by
    refine bind_ne_error hcount fun count _ => ?_
    split
    · exact pure_ne_error
    · exact S.isInvariant_ne_endless l count
  refine bind_ne_error (fetch_ne_endless _ _) fun loop _ => ?_
  refine bind_ne_error hinvariant fun invariant _ => ?_
  cases invariant with
  | false => exact pure_ne_error
  | true => exact bind_ne_error hcount fun count _ => pure_ne_error

end Scope

/-! ## Loops of recurrences -/

/-- The recurrences in an evolution belong to loops with a property. -/
def Evolution.OnLoops (Q : Nat → Prop) (e : Evolution) : Prop :=
  e.Everywhere fun n => ∀ a steps k, n = recurrence a steps k → Q k

/-- Loop `k` lies around loop `l`. -/
def Function.LiesAround (f : Function) (k l : Nat) : Prop :=
  ∃ inner outer, f.loops.loops[l]? = some inner ∧ f.loops.loops[k]? = some outer ∧
    inner.Inside outer

namespace Function.LiesAround

variable {f : Function} {j k l : Nat}

theorem trans (hjk : f.LiesAround j k) (hkl : f.LiesAround k l) : f.LiesAround j l := by
  obtain ⟨middle, outer, hk, hj, hin⟩ := hjk
  obtain ⟨inner, middle', hl, hk', hin'⟩ := hkl
  obtain rfl := Option.some.inj (hk.symm.trans hk')
  exact ⟨inner, outer, hl, hj, hin'.trans hin⟩

theorem lt (h : f.LiesAround k l) : l < k := by
  obtain ⟨inner, outer, hl, hk, hin⟩ := h
  exact Cfg.lt_of_inside f.closed_cfg hl hk hin

end Function.LiesAround

namespace Evolution.OnLoops

variable {Q Q' : Nat → Prop} {e : Evolution}

theorem mono (h : e.OnLoops Q) (hQ : ∀ k, Q k → Q' k) : e.OnLoops Q' :=
  Everywhere.mono (fun _ hn a steps k heq => hQ k (hn a steps k heq)) h

theorem loop {a : Evolution} {steps : List Evolution} {k : Nat}
    (h : (recurrence a steps k).OnLoops Q) : Q k := Everywhere.top h a steps k rfl

theorem of_forall (hQ : ∀ k, Q k) (e : Evolution) : e.OnLoops Q :=
  everywhere_of_forall (fun _ _ _ k _ => hQ k) e

/-- The step of a recurrence is a part of it, or a recurrence of the same loop. -/
theorem stepOf {a : Evolution} {steps : List Evolution} {k : Nat}
    (h : (recurrence a steps k).OnLoops Q) : (Evolution.stepOf steps k).OnLoops Q := by
  obtain ⟨-, -, hsteps⟩ := everywhere_recurrence_iff.1 h
  cases steps with
  | nil => exact .node (fun _ _ _ heq => by cases heq) (by simp [Evolution.stepOf, zero, operands])
  | cons s rest =>
    cases rest with
    | nil => exact hsteps s List.mem_cons_self
    | cons s' rest =>
      refine everywhere_recurrence_iff.2 ⟨?_, hsteps s List.mem_cons_self, fun c hc => ?_⟩
      · rintro _ _ _ ⟨⟩
        exact h.loop
      · exact hsteps c (List.mem_cons_of_mem s hc)

end Evolution.OnLoops

namespace Scope

variable {m : Module} {f : Function} {l : Nat} {head : LoopHead} {count e n : Evolution}
  {Q : Nat → Prop}

/-- The recurrences in a number of rounds belong to loops around the loop. -/
theorem onLoops_rounds (h : (ofFunction m f).loopHead l = .ok head)
    (hrounds : head.rounds = some count) : count.OnLoops (f.LiesAround · l) := by
  obtain ⟨-, -, hinvariant⟩ := tripCount_of_loopHead h hrounds
  refine (Context.isInvariant_iff.1 hinvariant).mono fun n hn a steps k heq => ?_
  subst heq
  exact Context.inside_of_contains hn.1 hn.2

/-- What a formula is written with keeps to loops with a property, if with each of them the
property holds of the loops around it. -/
theorem Writes.onLoops (hQ : ∀ k j, Q k → f.LiesAround j k → Q j)
    (h : (ofFunction m f).Writes e n) (he : e.OnLoops Q) : n.OnLoops Q := by
  cases h with
  | operand hn => exact Everywhere.operand he hn
  | step => exact he.stepOf
  | rounds hhead hrounds => exact (onLoops_rounds hhead hrounds).mono fun j => hQ _ j he.loop

/-- All recurrences in the formula of a number of rounds belong to loops around the loop. -/
theorem liesAround_of_writes {a : Evolution} {steps : List Evolution} {k : Nat}
    (hhead : (ofFunction m f).loopHead l = .ok head) (hrounds : head.rounds = some count)
    (h : Relation.ReflTransGen (ofFunction m f).Writes count (recurrence a steps k)) :
    f.LiesAround k l := by
  suffices hall : ∀ n, Relation.ReflTransGen (ofFunction m f).Writes count n →
      n.OnLoops (f.LiesAround · l) from (hall _ h).loop
  intro n hn
  induction hn with
  | refl => exact onLoops_rounds hhead hrounds
  | tail _ hstep ih => exact hstep.onLoops (fun k j hk hj => hj.trans hk) ih

theorem sizeOf_stepOf_lt (a s : Evolution) (steps : List Evolution) (l : Nat) :
    sizeOf (stepOf (s :: steps) l) < sizeOf (recurrence a (s :: steps) l) := by
  cases steps with
  | nil => simp [stepOf]; omega
  | cons s' rest => simp [stepOf]

/-- An evolution comes to an end if the numbers of rounds of the loops of its recurrences do. The
induction is on the size of the evolution, which an operand and the step have less of. -/
theorem acc_writes_of_rounds {S : Scope} (he : e.OnLoops fun l => ∀ head count,
      S.loopHead l = .ok head → head.rounds = some count → Acc (fun y x => S.Writes x y) count) :
    Acc (fun y x => S.Writes x y) e := by
  induction hsize : sizeOf e using Nat.strong_induction_on generalizing e with
  | _ size ih =>
    subst hsize
    refine Acc.intro e fun n hn => ?_
    cases hn with
    | operand hn => exact ih _ (sizeOf_lt_of_mem_operands hn) (Everywhere.operand he hn) rfl
    | @step a steps l =>
      cases steps with
      | nil =>
        -- without steps nothing is added, and zero has no parts
        refine Acc.intro _ fun n hn => ?_
        cases hn with
        | operand hn => cases hn
      | cons s rest => exact ih _ (sizeOf_stepOf_lt a s rest l) he.stepOf rfl
    | rounds hhead hrounds => exact he.loop _ _ hhead hrounds

theorem lt_size_of_loopHead (h : (ofFunction m f).loopHead l = .ok head) :
    l < f.loops.loops.size :=
  (Array.getElem?_eq_some_iff.1 (fetch_eq_ok_iff.1 (Writer.loop_of_loopHead h))).1

/-- An evolution on the last loops, of which there are at most `room`, comes to an end. Numbers of
rounds can be of any size, but leave less room. -/
theorem acc_writes_of_onLoops (room n : Nat) (hroom : f.loops.loops.size ≤ n + room)
    (he : e.OnLoops (n ≤ ·)) : Acc (fun y x => (ofFunction m f).Writes x y) e := by
  induction room generalizing n e with
  | zero =>
    -- there are no such loops, so there are no rounds to write
    refine acc_writes_of_rounds (he.mono fun l hl head count hhead _ => ?_)
    have hlt := lt_size_of_loopHead hhead
    omega
  | succ room ih =>
    refine acc_writes_of_rounds (he.mono fun l hl head count hhead hrounds => ?_)
    refine ih (n + 1) (by omega) ((onLoops_rounds hhead hrounds).mono fun k hk => ?_)
    exact Nat.lt_of_le_of_lt hl hk.lt

theorem acc_writes (m : Module) (f : Function) (e : Evolution) :
    Acc (fun y x => (ofFunction m f).Writes x y) e :=
  acc_writes_of_onLoops f.loops.loops.size 0 (by omega) (.of_forall Nat.zero_le e)

end Scope

/-! ## Formulas come to an end -/

namespace Writer

variable {W : Writer} {inPhi : Bool}

section Parts

variable {head : Nat → Except Fault LoopHead} {bound : LoopHead → Marked String} {l : Nat}
  {e : Evolution} {es : List Evolution}

theorem ends_ofEvolutionsWith {wanted : Evolution → Bool}
    (h : ∀ c ∈ es, (W.ofEvolutionWith head bound inPhi c).Ends) :
    (W.ofEvolutionsWith head bound inPhi wanted es).Ends := by
  induction es with
  | nil => exact Marked.ends_pure []
  | cons e es ih =>
    have hrest := ih fun c hc => h c (List.mem_cons_of_mem e hc)
    rw [ofEvolutionsWith]
    split
    · exact (h e List.mem_cons_self).bind fun first _ => hrest.bind_pure _
    · exact hrest

variable (hhead : ∀ l, head l ≠ .error .endless)

include hhead

theorem ends_recurrence {start step : Marked String}
    (hbound : ∀ h, head l = .ok h → (bound h).Ends) (hstart : start.Ends) (hstep : step.Ends) :
    (do
      let h ← Marked.lift (head l)
      let s ← start
      let limit ← bound h
      let k ← step
      return recurrenceText h.loop.depth s limit k : Marked String).Ends := by
  refine Marked.ends_lift_bind (hhead l) fun h hh => ?_
  refine hstart.bind fun s _ => ?_
  exact (hbound h hh).bind fun limit _ => hstep.bind_pure _

theorem ends_ofStepsWith (hbound : ∀ h, head l = .ok h → (bound h).Ends)
    (h : ∀ c ∈ es, (W.ofEvolutionWith head bound inPhi c).Ends) :
    (W.ofStepsWith head bound inPhi l es).Ends := by
  induction es with
  | nil => exact Marked.ends_pure _
  | cons e es ih =>
    have hfirst := h e List.mem_cons_self
    have hrest := ih fun c hc => h c (List.mem_cons_of_mem e hc)
    cases es with
    | nil => exact hfirst
    | cons e' es => exact ends_recurrence hhead hbound hfirst hrest

variable (hvalue : ∀ v, (W.ofValue v inPhi).Ends)

include hvalue

/-- Writing an evolution comes to an end if writing the bounds of the loops of its recurrences
does. -/
theorem ends_ofEvolutionWith (he : e.OnLoops fun l => ∀ h, head l = .ok h → (bound h).Ends) :
    (W.ofEvolutionWith head bound inPhi e).Ends := by
  rw [OnLoops] at he
  induction he with
  | @node e top _ ih =>
    cases e with
    | unknown v => exact hvalue v
    | constant w | indeterminate => exact Marked.ends_pure _
    | sizeOf t | alignOf t => exact Marked.ends_unsupported _ _
    | quotient a b =>
      exact (ih a (by simp [operands])).bind fun _ _ => (ih b (by simp [operands])).bind_pure _
    | product es | smax es | umax es => exact (ends_ofEvolutionsWith ih).bind_pure _
    | sum es =>
      refine (ends_ofEvolutionsWith ih).bind fun symbolic _ => ?_
      refine (ends_ofEvolutionsWith ih).bind fun positive _ => ?_
      exact (ends_ofEvolutionsWith ih).bind_pure _
    | zext e | sext e | trunc e => exact ih e (by simp [operands])
    | recurrence a es l =>
      have hbound := top a es l rfl
      refine ends_recurrence hhead hbound (ih a List.mem_cons_self) ?_
      exact ends_ofStepsWith hhead hbound fun c hc => ih c (List.mem_cons_of_mem a hc)

end Parts

section Bounds

variable {m : Module} {f : Function} {l : Nat} {head : LoopHead} {e : Evolution}

/-- An evolution is written in the same way with bounds that are the same. -/
theorem ofEvolutionWith_eq {head : Nat → Except Fault LoopHead}
    {bound bound' : LoopHead → Marked String}
    (he : e.OnLoops fun l => ∀ h, head l = .ok h → bound h = bound' h) :
    W.ofEvolutionWith head bound inPhi e = W.ofEvolutionWith head bound' inPhi e := by
  have hoccurs : e.Everywhere (Occurs Eq W W head bound bound' inPhi) := by
    refine Everywhere.mono (fun n hn => ?_) he
    cases n with
    | unknown v => exact .of_eq rfl
    | recurrence a steps l => exact fun h hh => .of_eq (hn a steps l rfl h hh)
    | _ => trivial
  exact (ofEvolutionWith_related additive_eq hoccurs).eq

/-- The bound of a loop is the same at all depths for which there are loops from this one on. -/
theorem boundWithin_eq {depth depth' : Nat} (hl : (Scope.ofFunction m f).loopHead l = .ok head)
    (hdepth : f.loops.loops.size ≤ depth + l) (hdepth' : f.loops.loops.size ≤ depth' + l) :
    W.boundWithin (Scope.ofFunction m f) inPhi depth head =
      W.boundWithin (Scope.ofFunction m f) inPhi depth' head := by
  induction depth generalizing l head depth' with
  | zero =>
    have hlt := Scope.lt_size_of_loopHead hl
    omega
  | succ depth ih =>
    cases depth' with
    | zero =>
      have hlt := Scope.lt_size_of_loopHead hl
      omega
    | succ depth' =>
      rw [boundWithin, boundWithin]
      cases hrounds : head.rounds with
      | none => rfl
      | some count =>
        -- loops around this one have greater numbers and need less depth
        refine ofEvolutionWith_eq ((Scope.onLoops_rounds hl hrounds).mono fun k hk h hh => ?_)
        have hlt := hk.lt
        exact ih hh (by omega) (by omega)

/-- The formula of an evolution is written with bounds in which the number of rounds of a loop is
written in the same way, at any depth. -/
theorem ofEvolution_eq (W : Writer) (m : Module) (f : Function) (inPhi : Bool) (e : Evolution) :
    W.ofEvolution (Scope.ofFunction m f) e inPhi =
      W.ofEvolutionWith (Scope.ofFunction m f).loopHead
        (fun head => head.rounds.elim (W.latchBound (Scope.ofFunction m f) inPhi head.loop)
          (W.ofEvolution (Scope.ofFunction m f) · inPhi)) inPhi e := by
  refine ofEvolutionWith_eq (.of_forall (fun l head hl => ?_) e)
  rw [boundWithin]
  cases hrounds : head.rounds with
  | none => rfl
  | some count =>
    -- inside a bound one level of depth is used up, which is left over
    refine ofEvolutionWith_eq ((Scope.onLoops_rounds hl hrounds).mono fun k _ h hh => ?_)
    have hsize : (Scope.ofFunction m f).forest.loops.size = f.loops.loops.size := rfl
    exact boundWithin_eq hh (by omega) (by omega)

variable (hvalue : ∀ v, (W.ofValue v inPhi).Ends)

include hvalue

theorem ends_latchBound (S : Scope) (loop : Loop) : (W.latchBound S inPhi loop).Ends := by
  rw [latchBound]
  split
  · rintro ⟨⟩
  · split
    · refine Marked.ends_lift_bind (S.comparison?_ne_endless _) fun c _ => ?_
      cases c with
      | none => exact Marked.ends_unsupported _ _
      | some c => exact hvalue c.rhs
    · rintro ⟨⟩

variable (hevolution : ∀ v, (Scope.ofFunction m f).evolution v ≠ .error .endless)

include hevolution

/-- Writing the bound of a loop comes to an end, if bounds may nest as deep as there are loops from
this one on. -/
theorem ends_boundWithin {depth : Nat} (hl : (Scope.ofFunction m f).loopHead l = .ok head)
    (hdepth : f.loops.loops.size ≤ depth + l) :
    (W.boundWithin (Scope.ofFunction m f) inPhi depth head).Ends := by
  induction depth generalizing l head with
  | zero =>
    have hlt := Scope.lt_size_of_loopHead hl
    omega
  | succ depth ih =>
    rw [boundWithin]
    cases hrounds : head.rounds with
    | none => exact ends_latchBound hvalue _ head.loop
    | some count =>
      refine ends_ofEvolutionWith (Scope.loopHead_ne_endless hevolution) hvalue
        ((Scope.onLoops_rounds hl hrounds).mono fun k hk h hh => ?_)
      have hlt := hk.lt
      exact ih hh (by omega)

theorem ends_ofEvolution (e : Evolution) :
    (W.ofEvolution (Scope.ofFunction m f) e inPhi).Ends := by
  refine ends_ofEvolutionWith (Scope.loopHead_ne_endless hevolution) hvalue
    (.of_forall (fun l head hl => ?_) e)
  have hsize : (Scope.ofFunction m f).forest.loops.size = f.loops.loops.size := rfl
  exact ends_boundWithin hvalue hevolution hl (by omega)

end Bounds

/-- Writing the formulas of evolutions comes to an end. If finding the evolutions of values and
writing values do, then writing any evolution does: it writes the numbers of rounds of loops in the
same way, no evolution is written with others for ever, and all recurrences that are met in the
number of rounds of a loop belong to loops that lie around it. -/
theorem formulas_of_evolutions_terminate (W : Writer)
    (hevolution : ∀ v, (Scope.ofFunction W.module W.function).evolution v ≠ .error .endless)
    (hvalue : ∀ v inPhi, (W.ofValue v inPhi).Ends) :
    let S := Scope.ofFunction W.module W.function
    (∀ e inPhi, (W.ofEvolution S e inPhi).Ends ∧
      W.ofEvolution S e inPhi = W.ofEvolutionWith S.loopHead (fun head =>
        head.rounds.elim (W.latchBound S inPhi head.loop) (W.ofEvolution S · inPhi)) inPhi e) ∧
    (∀ e, Acc (fun y x => S.Writes x y) e) ∧
    ∀ l head count, S.loopHead l = .ok head → head.rounds = some count →
      ∀ a steps k, Relation.ReflTransGen S.Writes count (.recurrence a steps k) →
        W.function.LiesAround k l := by
  intro S
  refine ⟨fun e inPhi => ⟨?_, ofEvolution_eq W _ _ inPhi e⟩, Scope.acc_writes _ _, ?_⟩
  · exact ends_ofEvolution (hvalue · inPhi) hevolution e
  · intro l head count hhead hrounds a steps k h
    exact Scope.liesAround_of_writes hhead hrounds h

end Writer

theorem evolution_triangle_ne_endless (v : Value) :
    (Scope.ofFunction triangular triangle).evolution v ≠ .error .endless := by
  by_cases hv : ∃ i, v = .instruction i ∧ triangle.instructions.size ≤ i
  · obtain ⟨i, rfl, hi⟩ := hv
    have habsent : (Scope.ofFunction triangular triangle).evolution (.instruction i) =
        .error .dangling := Scope.evolution_of_absent hi
    rw [habsent]
    rintro ⟨⟩
  · have hssa : triangle.StrictSSA := by decide +kernel
    refine hssa.evolution_ne_endless layered_triangular measured_triangle fun i hi => ?_
    have hlisted : ∀ i < 11, ∃ b < 5, triangle.Relevant b ∧ i ∈ triangle.listed b := by
      decide +kernel
    obtain ⟨b, -, hb⟩ := hlisted i (Nat.not_le.1 fun hle => hv ⟨i, hi, hle⟩)
    exact ⟨b, hb⟩

/-- The formula of the counter of the inner loop of `triangle` shows the number of rounds of that
loop, which is a recurrence of the outer one. The formula of that recurrence shows the number of
rounds of the outer loop in turn. -/
theorem formulas_of_evolutions_terminate_triangle :
    let W : Writer := ⟨triangular, triangle, {}, .blockIndex⟩
    let S := Scope.ofFunction triangular triangle
    let e : Evolution := .recurrence (.constant 0) [.constant 1] 0
    let count : Evolution := .recurrence (.constant (-1)) [.constant 1] 1
    S.Writes e count ∧ triangle.LiesAround 1 0 ∧ Acc (fun y x => S.Writes x y) e ∧
    (W.ofEvolution S e false).Ends ∧ (W.ofEvolution S e false).result =
      .ok "\x7b2\x7d<0 : \x7b1\x7d<-1 : (#PARAM:n + -1) , 1> , 1>" := by
  intro W S e count
  have htriangle : triangle.WellReferenced triangular :=
    wellReferenced_triangular.function triangle (by simp [triangular])
  have hsupplied := htriangle.wellSupplied wellReferenced_triangular
  obtain ⟨hends, hacc, haround⟩ := W.formulas_of_evolutions_terminate
    evolution_triangle_ne_endless (Writer.ofValue_ends hsupplied.acyclic)
  have hhead : (fun head => head.rounds) <$> S.loopHead 0 = .ok (some count) := by decide +kernel
  obtain ⟨head, hhead, hrounds⟩ := map_eq_ok_iff.1 hhead
  refine ⟨.rounds hhead hrounds, ?_, hacc e, (hends e false).1, by decide +kernel⟩
  exact haround 0 head count hhead hrounds _ _ 1 .refl

end GridAccess
