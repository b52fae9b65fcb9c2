import GridAccess.Proofs.EvolutionEquations
import GridAccess.Proofs.RelatedFormulas

set_option autoImplicit false

/-!
# Evolutions found so far

Evolutions need not be found all at once. Someone who asks for one after another notes each that is
found, and finds the next from those noted already (`Context.Notes`). What has been noted is right,
in whatever order it was found (`Context.firms_of_notes`): it is the evolution that all rounds
together lead to. And whatever has been noted, going on comes to an end
(`Context.exists_complete`), where every evolution there is has been noted
(`Context.lags_evolutions`).

Everything computed from evolutions does nothing with a look-up but go on with its result. With
fewer evolutions it stops with a fault, or comes to the same (`Scope.refines_loopHead`,
`Writer.lags_ofEvolution`).
-/

namespace GridAccess

namespace Context

variable {C : Context} {t t' : Table}

/-! ## One evolution after another -/

/-- One more evolution is found from those in a table, and noted. -/
inductive Notes (C : Context) : Table → Table → Prop
  | note {t : Table} {i : Nat} {inst : Instruction} {e : Evolution}
      (hinst : C.function.instructions[i]? = some inst) (hopen : t[i]? = some (.error .endless))
      (hfound : C.ofInstruction (lookup t) i inst = .ok e) :
      Notes C t (t.setIfInBounds i (.ok e))

/-- The table before anything has been found. -/
def openTable (C : Context) : Table :=
  Array.replicate C.function.instructions.size (.error .endless)

theorem Table.getElem?_of_open {i : Nat} (h : lookup t (.instruction i) = .error .endless) :
    t[i]? = some (.error .endless) := by
  rw [lookup] at h
  split at h
  · rename_i r hr
    rw [hr, h]
  · cases h

theorem Table.getElem?_noted {i j : Nat} {r x : Except Fault Evolution} (h : t[i]? = some r) :
    (t.setIfInBounds i x)[j]? = if i = j then some x else t[j]? := by
  have hi := (Array.getElem?_eq_some_iff.1 h).1
  rw [Array.getElem?_setIfInBounds, if_pos hi]

theorem Table.Firms.entry (h : t.Firms t') {i : Nat} {r r' : Except Fault Evolution}
    (hr : t[i]? = some r) (hr' : t'[i]? = some r') : Refines (· = .endless) r r' := by
  have hlookup := h.lookup (.instruction i)
  rwa [Context.lookup, Context.lookup, hr, hr'] at hlookup

/-- What has not been found is open, so nothing in an open table is wrong. -/
theorem firms_openTable (C : Context) : C.openTable.Firms C.evolutions := by
  refine Table.Firms.of_entries (by rw [C.size_evolutions]; simp [openTable]) fun i r r' hr _ => ?_
  rw [openTable, Array.getElem?_replicate] at hr
  split at hr
  · exact Or.inl ⟨_, rfl, (Option.some.inj hr).symm⟩
  · cases hr

/-- What is found from right entries is right. -/
theorem evolution_of_firms (ht : t.Firms C.evolutions) {i : Nat} {inst : Instruction}
    {e : Evolution} (hinst : C.function.instructions[i]? = some inst)
    (hfound : C.ofInstruction (lookup t) i inst = .ok e) :
    lookup C.evolutions (.instruction i) = .ok e :=
  (Scope.evolution_instruction hinst).trans ((refines_ofInstruction ht.lookup i inst).eq_ok hfound)

namespace Notes

/-- Noting an evolution decides an entry that was open. -/
theorem grows (h : C.Notes t t') : t.Firms t' := by
  cases h with
  | @note i inst e hinst hopen hfound =>
    refine Table.Firms.of_entries (by simp) fun j r r' hr hr' => ?_
    rw [Table.getElem?_noted hopen] at hr'
    split at hr'
    · subst_vars
      exact Or.inl ⟨_, rfl, Option.some.inj (hr.symm.trans hopen)⟩
    · exact Or.inr (Option.some.inj (hr.symm.trans hr'))

/-- Noting an evolution keeps a table right. -/
theorem firms (h : C.Notes t t') (ht : t.Firms C.evolutions) : t'.Firms C.evolutions := by
  cases h with
  | @note i inst e hinst hopen hfound =>
    refine Table.Firms.of_entries (by simpa using ht.size_eq) fun j r r' hr hr' => ?_
    rw [Table.getElem?_noted hopen] at hr
    -- the entry that has been noted, and the others
    split at hr
    · rename_i hij
      subst hij
      have hright := evolution_of_firms ht hinst hfound
      rw [lookup, hr'] at hright
      exact Or.inr ((Option.some.inj hr).symm.trans hright.symm)
    · exact ht.entry hr hr'

theorem openCount_lt (h : C.Notes t t') : t'.openCount < t.openCount := by
  refine h.grows.eq_or_openCount_lt.resolve_left fun heq => ?_
  cases h with
  | @note i inst e hinst hopen hfound =>
    have hnoted : (t.setIfInBounds i (.ok e))[i]? = some (.ok e) := by
      rw [Table.getElem?_noted hopen, if_pos rfl]
    rw [← heq, hopen] at hnoted
    cases hnoted

end Notes

/-- However many evolutions are noted, a table stays right. -/
theorem firms_of_notes (ht : t.Firms C.evolutions) (h : Relation.ReflTransGen C.Notes t t') :
    t'.Firms C.evolutions := by
  induction h with
  | refl => exact ht
  | tail _ hnote ih => exact hnote.firms ih

/-- Noting evolutions comes to an end. -/
theorem exists_complete (C : Context) (t : Table) :
    ∃ t', Relation.ReflTransGen C.Notes t t' ∧ ∀ t'', ¬ C.Notes t' t'' := by
  -- each note leaves fewer entries open
  induction hn : t.openCount using Nat.strong_induction_on generalizing t with
  | _ n ih =>
    by_cases hmore : ∃ t', C.Notes t t'
    · obtain ⟨t', ht'⟩ := hmore
      obtain ⟨t'', hnotes, hend⟩ := ih _ (hn ▸ ht'.openCount_lt) t' rfl
      exact ⟨t'', .head ht' hnotes, hend⟩
    · exact ⟨t, .refl, fun t' ht' => hmore ⟨t', ht'⟩⟩

/-- A round from evolutions that a table has finds none that the table has not, if nothing more can
be noted there. -/
theorem lags_round (hend : ∀ t', ¬ C.Notes t t') (ht : t.Firms C.evolutions) {s : Table}
    (hs : ∀ v, Refines (fun _ => True) (lookup s v) (lookup t v)) (v : Value) :
    Refines (fun _ => True) (lookup (C.round s) v) (lookup t v) := by
  cases v with
  | argument n => exact .refl _
  | constant c => cases c <;> exact .refl _
  | instruction i =>
    cases hinst : C.function.instructions[i]? with
    | none =>
      rw [lookup, round, Array.getElem?_mapIdx, hinst]
      exact .of_error trivial _
    | some inst =>
      rw [Function.lookup_round hinst]
      cases hr : C.ofInstruction (lookup s) i inst with
      | error f => exact .of_error trivial _
      | ok e =>
        -- the table has what it takes to find the evolution, so it has the evolution
        have hfound := (refines_ofInstruction hs i inst).eq_ok hr
        have hright := evolution_of_firms ht hinst hfound
        rcases ht.lookup (.instruction i) with ⟨f, rfl, hopen⟩ | heq
        · exact absurd (.note hinst (Table.getElem?_of_open hopen) hfound) (hend _)
        · exact Or.inr (hright.symm.trans heq.symm)

/-- Where nothing more can be noted, all evolutions have been. -/
theorem lags_evolutions (hend : ∀ t', ¬ C.Notes t t') (ht : t.Firms C.evolutions) (v : Value) :
    Refines (fun _ => True) (lookup C.evolutions v) (lookup t v) := by
  -- the induction is on the rounds that lead to the evolutions
  have hsettle : ∀ (rounds : Nat) (s : Table),
      (∀ v, Refines (fun _ => True) (lookup s v) (lookup t v)) →
      ∀ v, Refines (fun _ => True) (lookup (C.settle rounds s) v) (lookup t v) := by
    intro rounds
    induction rounds with
    | zero => exact fun s hs => hs
    | succ rounds ih =>
      intro s hs
      rw [settle]
      split
      · exact hs
      · exact ih _ (lags_round hend ht hs)
  apply hsettle
  intro v
  cases v with
  | argument n => exact .refl _
  | constant c => cases c <;> exact .refl _
  | instruction i =>
    rw [lookup, Array.getElem?_replicate]
    by_cases hi : i < C.function.instructions.size
    · rw [if_pos hi]
      exact .of_error trivial _
    · rw [if_neg hi]
      exact .of_error trivial _

end Context

/-! ## Rounds of loops -/

namespace Scope

variable {C : Context} {F : Fault → Prop} {t t' : Context.Table}
  (ht : ∀ v, Refines F (Context.lookup t v) (Context.lookup t' v))

include ht

theorem refines_tripCount (l : Nat) :
    Refines F ((⟨C, t⟩ : Scope).tripCount l) ((⟨C, t'⟩ : Scope).tripCount l) := by
  apply (Refines.refl (C.forest.loop l)).bind
  intro loop
  apply (Refines.refl (C.continuation? loop)).bind
  intro c
  cases c with
  | none => exact .refl _
  | some c =>
    apply (ht c.lhs).bind
    intro lhs
    apply (ht c.rhs).bind
    intro rhs
    exact .refl _

theorem refines_hasInvariantTripCount (l : Nat) :
    Refines F ((⟨C, t⟩ : Scope).hasInvariantTripCount l)
      ((⟨C, t'⟩ : Scope).hasInvariantTripCount l) := by
  apply (refines_tripCount ht l).bind
  intro count
  exact .refl _

theorem refines_loopHead (l : Nat) :
    Refines F ((⟨C, t⟩ : Scope).loopHead l) ((⟨C, t'⟩ : Scope).loopHead l) := by
  apply (Refines.refl (C.forest.loop l)).bind
  intro loop
  apply (refines_hasInvariantTripCount ht l).bind
  intro invariant
  cases invariant with
  | false => exact .refl _
  | true =>
    apply (refines_tripCount ht l).bind
    intro count
    exact .refl _

end Scope

/-! ## Formulas -/

namespace Marked

variable {α β : Type}

/-- The first computation is stopped by a fault, or the two are the same. -/
def Lags (x y : Marked α) : Prop := (∃ f, x.result = .error (.fault f)) ∨ x = y

theorem Lags.refl (x : Marked α) : Lags x x := Or.inr rfl

/-- A computation that is compared with itself, or stopped by a fault, can be gone on with. -/
theorem congruence_lags : Congruence Lags where
  unmarked _ := .refl _
  bind {α β x y g k} hxy hgk := by
    rcases hxy with ⟨f, hf⟩ | rfl
    · left
      exact ⟨f, by rw [bind_def, Marked.bind, hf]⟩
    · rw [bind_def, bind_def, Marked.bind, Marked.bind]
      -- the marks of a part that went well are the same on both sides
      cases hx : x.result with
      | error e => exact .refl _
      | ok a =>
        rcases hgk a hx with ⟨f, hf⟩ | heq
        · exact Or.inl ⟨f, hf⟩
        · right
          dsimp only
          rw [heq]

theorem Lags.lift {F : Fault → Prop} {x y : Except Fault α} (h : Refines F x y) :
    Lags (Marked.lift x) (Marked.lift y) := by
  rcases h with ⟨f, -, rfl⟩ | rfl
  · exact Or.inl ⟨f, rfl⟩
  · exact .refl _

end Marked

namespace Writer

variable {C : Context} {t t' : Context.Table} (W : Writer) (inPhi : Bool)
  (ht : ∀ v, Refines (fun _ => True) (Context.lookup t v) (Context.lookup t' v))

include ht

/-- The formula of an evolution depends on other evolutions through the bounds of loops only. -/
theorem lags_ofEvolutionWith {bound bound' : LoopHead → Marked String}
    (hbound : ∀ head, (bound head).Lags (bound' head)) (e : Evolution) :
    (W.ofEvolutionWith (⟨C, t⟩ : Scope).loopHead bound inPhi e).Lags
      (W.ofEvolutionWith (⟨C, t'⟩ : Scope).loopHead bound' inPhi e) := by
  apply ofEvolutionWith_congr Marked.congruence_lags
  apply Evolution.everywhere_of_forall
  intro n
  cases n with
  | unknown v => exact .refl _
  | recurrence a es l => exact ⟨.lift (Scope.refines_loopHead ht l), fun head _ => hbound head⟩
  | _ => trivial

theorem lags_boundWithin (depth : Nat) (head : LoopHead) :
    (W.boundWithin ⟨C, t⟩ inPhi depth head).Lags (W.boundWithin ⟨C, t'⟩ inPhi depth head) := by
  induction depth generalizing head with
  | zero => exact .refl _
  | succ depth ih =>
    rw [boundWithin, boundWithin]
    cases head.rounds with
    | some count => exact lags_ofEvolutionWith W inPhi ht ih count
    | none => exact .refl _

/-- With fewer evolutions, a formula is stopped by a fault or is the same. -/
theorem lags_ofEvolution (e : Evolution) :
    (W.ofEvolution ⟨C, t⟩ e inPhi).Lags (W.ofEvolution ⟨C, t'⟩ e inPhi) :=
  lags_ofEvolutionWith W inPhi ht (lags_boundWithin W inPhi ht _) e

end Writer

end GridAccess
