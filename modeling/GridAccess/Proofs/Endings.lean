import GridAccess.Proofs.FoldingDescent
import GridAccess.Proofs.HandleWalks
import GridAccess.Proofs.Marks

set_option autoImplicit false

/-!
# Computations that come to an end

A computation that follows references has the outcome `Fault.endless` if they run in a circle. It
comes to an end if its steps do (`bind_ne_error`, `Marked.Ends.bind`). Folding and questions about
loops always come to an end, and so does looking for the type of a value if constant expressions
refer to earlier ones only (`Module.Layered.typeOf_ne_endless`).
-/

namespace GridAccess

/-! ## One step after another -/

section Steps

variable {α β ε : Type} {x : Except ε α} {e : ε}

theorem bind_ne_error {g : α → Except ε β} (hx : x ≠ .error e)
    (hg : ∀ a, x = .ok a → g a ≠ .error e) : x >>= g ≠ .error e := by
  rw [Ne, bind_eq_error_iff]
  rintro (h | ⟨a, ha, h⟩)
  · exact hx h
  · exact hg a ha h

theorem map_ne_error (g : α → β) (hx : x ≠ .error e) : g <$> x ≠ .error e := by
  rwa [Ne, map_eq_error_iff]

end Steps

namespace Marked

variable {α β : Type} {x : Marked α} {r : Except Fault α}

/-- Writing a formula comes to an end, with a formula or without. -/
def Ends (x : Marked α) : Prop := x.result ≠ .error (.fault .endless)

theorem ends_pure (a : α) : (pure a : Marked α).Ends := by
  rintro ⟨⟩

theorem ends_unsupported (kind detail : String) : (unsupported kind detail : Marked α).Ends := by
  rintro ⟨⟩

theorem ends_lift_iff : (lift r).Ends ↔ r ≠ .error .endless := by
  cases r <;> simp [Ends, lift, Failure.lift]

theorem Ends.bind {g : α → Marked β} (hx : x.Ends) (hg : ∀ a, x.result = .ok a → (g a).Ends) :
    (x >>= g).Ends := by
  rw [Ends, bind_def, Marked.bind]
  cases hr : x.result with
  | error e =>
    rw [Ends, hr] at hx
    simpa using hx
  | ok a => exact hg a hr

theorem Ends.bind_pure (hx : x.Ends) (g : α → β) : (x >>= fun a => pure (g a)).Ends :=
  hx.bind fun a _ => ends_pure (g a)

theorem ends_lift_bind {g : α → Marked β} (hr : r ≠ .error .endless)
    (hg : ∀ a, r = .ok a → (g a).Ends) : (lift r >>= g).Ends :=
  (ends_lift_iff.2 hr).bind fun a ha => hg a (Failure.lift_eq_ok_iff.1 ha)

theorem ends_mapM {g : α → Marked β} {xs : List α} (h : ∀ a ∈ xs, (g a).Ends) :
    (xs.mapM g).Ends := by
  induction xs with
  | nil => exact ends_pure []
  | cons a xs ih =>
    rw [List.mapM_cons]
    have hrest := ih fun b hb => h b (List.mem_cons_of_mem a hb)
    exact (h a List.mem_cons_self).bind fun b _ => hrest.bind_pure _

end Marked

/-! ## Values and types -/

theorem Function.definition_ne_endless (f : Function) (v : Value) :
    f.definition v ≠ .error .endless := by
  cases v with
  | instruction i => exact map_ne_error _ (fetch_ne_endless _ _)
  | argument i | constant c => rintro ⟨⟩

theorem Function.valueName_ne_endless (f : Function) (v : Value) :
    f.valueName v ≠ .error .endless := by
  cases v with
  | instruction i | argument i => exact map_ne_error _ (fetch_ne_endless _ _)
  | constant c => rintro ⟨⟩

/-- Constant expressions refer to earlier ones only. -/
def Module.Layered (m : Module) : Prop :=
  ∀ (k : Nat) (e : ConstantExpr) (j : Nat), m.constantExprs[k]? = some e →
    .constant (.expr j) ∈ e.operands → j < k

theorem Module.typeOfWithin_ne_endless_of_ne_expr (m : Module) (f : Function) {v : Value}
    (hv : ∀ k, v ≠ .constant (.expr k)) (depth : Nat) :
    m.typeOfWithin f depth v ≠ .error .endless := by
  cases v with
  | argument i => cases depth <;> exact map_ne_error _ (fetch_ne_endless _ _)
  | instruction i => cases depth <;> exact map_ne_error _ (fetch_ne_endless _ _)
  | constant c =>
    cases c with
    | expr k => exact absurd rfl (hv k)
    | global g => cases depth <;> exact map_ne_error _ (fetch_ne_endless _ _)
    | int w | float bits | null | undef | aggregate => cases depth <;> rintro ⟨⟩

theorem Module.Layered.typeOfWithin_ne_endless {m : Module} (hm : m.Layered) (f : Function)
    {depth : Nat} {v : Value} (hv : ∀ k, v = .constant (.expr k) → k < depth) :
    m.typeOfWithin f depth v ≠ .error .endless := by
  induction depth generalizing v with
  | zero =>
    refine m.typeOfWithin_ne_endless_of_ne_expr f (fun k hk => ?_) 0
    exact Nat.not_lt_zero k (hv k hk)
  | succ depth ih =>
    by_cases hexpr : ∃ k, v = .constant (.expr k)
    · obtain ⟨k, rfl⟩ := hexpr
      rw [Module.typeOfWithin]
      refine bind_ne_error (fetch_ne_endless _ _) fun e he => ?_
      split
      · -- the base comes earlier, so that one expression less has to be followed
        rename_i base indices _ hoperands
        refine bind_ne_error (ih ?_) fun _ _ => pure_ne_error
        rintro j rfl
        have hearlier := hm k e j (fetch_eq_ok_iff.1 he) (hoperands ▸ List.mem_cons_self)
        have hk := hv k rfl
        omega
      · exact pure_ne_error
    · exact m.typeOfWithin_ne_endless_of_ne_expr f (fun k hk => hexpr ⟨k, hk⟩) _

theorem Module.Layered.typeOf_ne_endless {m : Module} (hm : m.Layered) (f : Function)
    (v : Value) : m.typeOf f v ≠ .error .endless := by
  by_cases hout : ∃ k, v = .constant (.expr k) ∧ m.constantExprs.size ≤ k
  · -- an expression that is not there is not followed
    obtain ⟨k, rfl, hk⟩ := hout
    rw [Module.typeOf, Module.typeOfWithin, fetch, Array.getElem?_eq_none hk]
    rintro ⟨⟩
  · refine hm.typeOfWithin_ne_endless f fun k hk => ?_
    by_contra hlt
    exact hout ⟨k, hk, by omega⟩

/-! ## Loops and folding -/

theorem Loop.isInvariant_ne_endless (l : Loop) (f : Function) (v : Value) :
    l.isInvariant f v ≠ .error .endless := by
  cases v with
  | instruction i => exact map_ne_error _ (fetch_ne_endless _ _)
  | argument i | constant c => rintro ⟨⟩

namespace Context

variable (C : Context)

theorem isInvariant_ne_endless (l : Nat) (e : Evolution) :
    C.isInvariant l e ≠ .error .endless := by
  intro h
  cases (isInvariant_eq_error h).1

theorem sum_ne_endless (es : List Evolution) : C.sum es ≠ .error .endless := by
  rcases C.sum_cases es with ⟨e, he, -⟩ | ⟨he, -⟩ <;> simp [he]

theorem product_ne_endless (a b : Evolution) : C.product a b ≠ .error .endless := by
  rcases C.product_cases a b with ⟨e, he, -⟩ | ⟨he, -⟩ <;> simp [he]

theorem difference_ne_endless (a b : Evolution) : C.difference a b ≠ .error .endless :=
  bind_ne_error (C.product_ne_endless _ _) fun _ _ => C.sum_ne_endless _

theorem comparison?_ne_endless (v : Value) : C.comparison? v ≠ .error .endless := by
  have hdefinition := C.function.definition_ne_endless v
  rw [comparison?]
  split
  · rename_i e he
    rw [he] at hdefinition
    simpa using hdefinition
  · rintro ⟨⟩
  · split <;> rintro ⟨⟩

theorem continuation?_ne_endless (l : Loop) : C.continuation? l ≠ .error .endless := by
  rw [continuation?]
  split
  · split
    · exact C.comparison?_ne_endless _
    · exact map_ne_error _ (C.comparison?_ne_endless _)
    · rintro ⟨⟩
  · rintro ⟨⟩

end Context

end GridAccess
