import GridAccess.Fault
import Mathlib.Tactic

set_option autoImplicit false

/-!
# Outcomes of computations that can fail

What the outcome of a computation says about its parts: one step after another, the same step for
each member of a list. Two computations run alongside each other (`Alongside`) if they have
related results or fail alike, and one refines another (`Refines`) if it only decides what the
other leaves open. A computation settles (`Settles`) if no dangling reference stops it.
-/

namespace GridAccess

variable {α β ε : Type}

theorem ok_bind (a : α) (f : α → Except ε β) : (Except.ok a : Except ε α) >>= f = f a := rfl

theorem error_bind (e : ε) (f : α → Except ε β) :
    (Except.error e : Except ε α) >>= f = .error e := rfl

theorem map_ok (f : α → β) (a : α) : f <$> (Except.ok a : Except ε α) = .ok (f a) := rfl

theorem bind_eq_ok_iff {x : Except ε α} {f : α → Except ε β} {b : β} :
    (x >>= f) = .ok b ↔ ∃ a, x = .ok a ∧ f a = .ok b := by
  cases x <;> simp [bind, Except.bind]

theorem bind_eq_error_iff {x : Except ε α} {f : α → Except ε β} {e : ε} :
    (x >>= f) = .error e ↔ x = .error e ∨ ∃ a, x = .ok a ∧ f a = .error e := by
  cases x <;> simp [bind, Except.bind]

theorem map_eq_ok_iff {x : Except ε α} {f : α → β} {b : β} :
    (f <$> x) = .ok b ↔ ∃ a, x = .ok a ∧ f a = b := by
  cases x <;> simp [Functor.map, Except.map]

theorem map_eq_error_iff {x : Except ε α} {f : α → β} {e : ε} :
    (f <$> x) = .error e ↔ x = .error e := by
  cases x <;> simp [Functor.map, Except.map]

theorem pure_eq_ok_iff {a b : α} : (pure a : Except ε α) = .ok b ↔ a = b := by
  simp [pure, Except.pure]

theorem pure_ne_error {a : α} {e : ε} : (pure a : Except ε α) ≠ .error e := by
  simp [pure, Except.pure]

/-- A step for each member of a list: all of them went well, and the results stand in order. -/
theorem mapM_eq_ok {f : α → Except ε β} {xs : List α} {ys : List β} (h : xs.mapM f = .ok ys) :
    xs.length = ys.length ∧ ∀ z ∈ xs.zip ys, f z.1 = .ok z.2 := by
  induction xs generalizing ys with
  | nil =>
    obtain rfl := pure_eq_ok_iff.1 h
    simp
  | cons x xs ih =>
    rw [List.mapM_cons, bind_eq_ok_iff] at h
    obtain ⟨y, hy, h⟩ := h
    obtain ⟨zs, hzs, h⟩ := bind_eq_ok_iff.1 h
    obtain rfl := pure_eq_ok_iff.1 h
    obtain ⟨hlength, hall⟩ := ih hzs
    refine ⟨by simp [hlength], fun z hz => ?_⟩
    rw [List.zip_cons_cons, List.mem_cons] at hz
    rcases hz with rfl | hz
    · exact hy
    · exact hall z hz

theorem forall₂_of_mapM {f : α → Except ε β} {xs : List α} {ys : List β}
    (h : xs.mapM f = .ok ys) : List.Forall₂ (fun x y => f x = .ok y) xs ys := by
  obtain ⟨hlength, hall⟩ := mapM_eq_ok h
  exact List.forall₂_iff_zip.2 ⟨hlength, fun hz => hall _ hz⟩

/-- The member of a list that the member of a related list at the same place belongs to. -/
theorem exists_of_forall₂ {R : α → β → Prop} {xs : List α} {ys : List β}
    (h : List.Forall₂ R xs ys) {k : Nat} {y : β} (hy : ys[k]? = some y) :
    ∃ x, xs[k]? = some x ∧ R x y := by
  obtain ⟨hlt, rfl⟩ := List.getElem?_eq_some_iff.1 hy
  have hlt' : k < xs.length := h.length_eq ▸ hlt
  exact ⟨xs[k], List.getElem?_eq_getElem hlt', h.get hlt' hlt⟩

theorem exists_mem_of_forall₂ {R : α → β → Prop} {xs : List α} {ys : List β}
    (h : List.Forall₂ R xs ys) {y : β} (hy : y ∈ ys) : ∃ x ∈ xs, R x y := by
  obtain ⟨k, hk⟩ := List.mem_iff_getElem?.1 hy
  obtain ⟨x, hx, hxy⟩ := exists_of_forall₂ h hk
  exact ⟨x, List.mem_of_getElem? hx, hxy⟩

theorem exists_forall₂ {R : α → β → Prop} {xs : List α} (h : ∀ x ∈ xs, ∃ y, R x y) :
    ∃ ys, List.Forall₂ R xs ys := by
  induction xs with
  | nil => exact ⟨[], .nil⟩
  | cons x xs ih =>
    obtain ⟨y, hy⟩ := h x List.mem_cons_self
    obtain ⟨ys, hys⟩ := ih fun z hz => h z (List.mem_cons_of_mem x hz)
    exact ⟨y :: ys, .cons hy hys⟩

/-- A step for each member of a list goes well if it does for each member. -/
theorem exists_mapM_iff {f : α → Except ε β} {xs : List α} :
    (∃ ys, xs.mapM f = .ok ys) ↔ ∀ x ∈ xs, ∃ y, f x = .ok y := by
  constructor
  · rintro ⟨ys, h⟩ x hx
    obtain ⟨k, hk⟩ := List.mem_iff_getElem?.1 hx
    obtain ⟨y, -, hy⟩ := exists_of_forall₂ (forall₂_of_mapM h).flip hk
    exact ⟨y, hy⟩
  · intro h
    induction xs with
    | nil => exact ⟨[], rfl⟩
    | cons x xs ih =>
      obtain ⟨y, hy⟩ := h x List.mem_cons_self
      obtain ⟨ys, hys⟩ := ih fun z hz => h z (List.mem_cons_of_mem x hz)
      exact ⟨y :: ys, by rw [List.mapM_cons, hy, ok_bind, hys, ok_bind]; rfl⟩

/-- A step for each member of a list fails where it fails for a member. -/
theorem exists_of_mapM_eq_error {f : α → Except ε β} {xs : List α} {e : ε}
    (h : xs.mapM f = .error e) : ∃ x ∈ xs, f x = .error e := by
  induction xs with
  | nil => exact absurd h pure_ne_error
  | cons x xs ih =>
    rw [List.mapM_cons, bind_eq_error_iff] at h
    rcases h with h | ⟨y, -, h⟩
    · exact ⟨x, List.mem_cons_self, h⟩
    · rcases bind_eq_error_iff.1 h with h | ⟨zs, -, h⟩
      · obtain ⟨z, hz, he⟩ := ih h
        exact ⟨z, List.mem_cons_of_mem x hz, he⟩
      · exact absurd h pure_ne_error

/-- Two computations in two steps agree if their steps do. -/
theorem bind_eq_bind {x y : Except ε α} {f g : α → Except ε β} (hxy : x = y)
    (hfg : ∀ a, x = .ok a → f a = g a) : x >>= f = y >>= g := by
  subst hxy
  cases x with
  | error e => rfl
  | ok a => exact hfg a rfl

theorem mapM_eq_mapM {f g : α → Except ε β} {xs : List α} (h : ∀ x ∈ xs, f x = g x) :
    xs.mapM f = xs.mapM g := by
  induction xs with
  | nil => rfl
  | cons x xs ih =>
    rw [List.mapM_cons, List.mapM_cons, h x List.mem_cons_self,
      ih fun y hy => h y (List.mem_cons_of_mem x hy)]

/-- Two ways to go through a list agree if they agree at each place, on what came before it. -/
theorem foldlM_eq_foldlM {f g : β → α → Except ε β} {xs : List α} {b : β}
    (h : ∀ pre x post c, xs = pre ++ x :: post → pre.foldlM f b = .ok c → f c x = g c x) :
    xs.foldlM f b = xs.foldlM g b := by
  induction xs generalizing b with
  | nil => rfl
  | cons x xs ih =>
    rw [List.foldlM_cons, List.foldlM_cons]
    refine bind_eq_bind (h [] x xs b rfl rfl) fun c hc => ih fun pre y post d hxs hd => ?_
    refine h (x :: pre) y post d (by rw [hxs, List.cons_append]) ?_
    rw [List.foldlM_cons, hc]
    exact hd

/-- Going through a list fails at one of its places, after what came before it went well. -/
theorem exists_of_foldlM_eq_error {f : β → α → Except ε β} {xs : List α} {b : β} {e : ε}
    (h : xs.foldlM f b = .error e) :
    ∃ pre x post c, xs = pre ++ x :: post ∧ pre.foldlM f b = .ok c ∧ f c x = .error e := by
  induction xs generalizing b with
  | nil => exact absurd h pure_ne_error
  | cons x xs ih =>
    rw [List.foldlM_cons] at h
    rcases bind_eq_error_iff.1 h with h | ⟨c, hc, h⟩
    · exact ⟨[], x, xs, b, rfl, rfl, h⟩
    · obtain ⟨pre, y, post, d, rfl, hd, he⟩ := ih h
      refine ⟨x :: pre, y, post, d, rfl, ?_, he⟩
      rw [List.foldlM_cons, hc]
      exact hd

/-- Results that agree with the members of a list, one by one, agree with the list. -/
theorem map_eq_map_of_zip {γ : Type} {xs : List α} {ys : List β} {f : α → γ} {g : β → γ}
    (hlength : xs.length = ys.length) (h : ∀ z ∈ xs.zip ys, g z.2 = f z.1) :
    ys.map g = xs.map f := by
  induction xs generalizing ys with
  | nil => simp [List.eq_nil_of_length_eq_zero hlength.symm]
  | cons x xs ih =>
    cases ys with
    | nil => simp at hlength
    | cons y ys =>
      rw [List.zip_cons_cons] at h
      rw [List.map_cons, List.map_cons, h (x, y) List.mem_cons_self,
        ih (by simpa using hlength) fun z hz => h z (List.mem_cons_of_mem _ hz)]

/-- Each member of a list of results belongs to a member of the list they come from. -/
theorem exists_zip_of_mem {xs : List α} {ys : List β} (hlength : xs.length = ys.length) {y : β}
    (hy : y ∈ ys) : ∃ x, x ∈ xs ∧ (x, y) ∈ xs.zip ys := by
  induction xs generalizing ys with
  | nil => simp [List.eq_nil_of_length_eq_zero hlength.symm] at hy
  | cons x xs ih =>
    cases ys with
    | nil => cases hy
    | cons z ys =>
      rcases List.mem_cons.1 hy with rfl | hy
      · exact ⟨x, List.mem_cons_self, by simp⟩
      · obtain ⟨x', hx', hz⟩ := ih (by simpa using hlength) hy
        exact ⟨x', List.mem_cons_of_mem x hx', List.mem_cons_of_mem _ hz⟩

theorem fetch_eq_ok_iff {table : Array α} {i : Nat} {a : α} :
    fetch table i = .ok a ↔ table[i]? = some a := by
  rw [fetch]
  cases table[i]? <;> simp

/-! ## Faults and failures that are reported -/

namespace Failure

theorem lift_eq_ok_iff {x : Except Fault α} {a : α} :
    (lift x : Except (Failure ε) α) = .ok a ↔ x = .ok a := by
  cases x <;> simp [lift]

theorem lift_ne_reported {x : Except Fault α} {e : ε} :
    (lift x : Except (Failure ε) α) ≠ .error (.reported e) := by
  cases x <;> simp [lift]

theorem map_eq_reported_iff {δ : Type} {g : ε → δ} {x : Failure ε} {d : δ} :
    x.map g = .reported d ↔ ∃ e, x = .reported e ∧ g e = d := by
  cases x <;> simp [map]

/-- The failure is a fault. -/
def IsFault : Failure ε → Prop
  | fault _ => True
  | reported _ => False

theorem report_eq_ok_ok_iff {x : Except (Failure ε) α} {a : α} :
    report x = .ok (.ok a) ↔ x = .ok a := by
  rcases x with (f | e) | b <;> simp [report]

theorem report_eq_ok_error_iff {x : Except (Failure ε) α} {e : ε} :
    report x = .ok (.error e) ↔ x = .error (.reported e) := by
  rcases x with (f | e) | b <;> simp [report]

end Failure

/-! ## Properties of results -/

/-- Every result of the computation has the property. -/
def Yields (x : Except ε α) (P : α → Prop) : Prop := ∀ a, x = .ok a → P a

namespace Yields

variable {x : Except ε α} {P Q : α → Prop}

theorem ok {a : α} (ha : P a) : Yields (.ok a : Except ε α) P := by
  rintro _ ⟨⟩
  exact ha

theorem error (e : ε) : Yields (.error e) P := by
  intro a ha
  cases ha

theorem any (x : Except ε α) : Yields x fun _ => True := fun _ _ => trivial

theorem mono (h : Yields x P) (hPQ : ∀ a, P a → Q a) : Yields x Q := fun a ha => hPQ a (h a ha)

theorem bind {R : β → Prop} {g : α → Except ε β} (h : Yields x P)
    (hg : ∀ a, P a → Yields (g a) R) : Yields (x >>= g) R := by
  intro b hb
  obtain ⟨a, ha, hb⟩ := bind_eq_ok_iff.1 hb
  exact hg a (h a ha) b hb

/-- A computation that finds nothing. -/
theorem none : Yields (.ok Option.none : Except ε (Option α)) fun o => ∀ a ∈ o, P a := .ok nofun

theorem some {a : α} (ha : P a) :
    Yields (.ok (Option.some a) : Except ε (Option α)) fun o => ∀ a ∈ o, P a := by
  refine .ok ?_
  rintro _ ⟨⟩
  exact ha

theorem mapSome (h : Yields x P) :
    Yields (Option.some <$> x) fun o : Option α => ∀ a ∈ o, P a := by
  intro o ho
  obtain ⟨a, ha, rfl⟩ := map_eq_ok_iff.1 ho
  rintro _ ⟨⟩
  exact h a ha

end Yields

/-! ## Two computations side by side -/

/-- Two computations have related results, or fail alike. -/
inductive Alongside (P : α → β → Prop) : Except ε α → Except ε β → Prop
  | ok {a : α} {b : β} (h : P a b) : Alongside P (.ok a) (.ok b)
  | error (e : ε) : Alongside P (.error e) (.error e)

namespace Alongside

variable {γ δ : Type} {P : α → β → Prop} {Q : γ → δ → Prop}

theorem bind {x : Except ε α} {y : Except ε β} {g : α → Except ε γ} {k : β → Except ε δ}
    (h : Alongside P x y) (hgk : ∀ a b, P a b → Alongside Q (g a) (k b)) :
    Alongside Q (x >>= g) (y >>= k) := by
  cases h with
  | ok h => exact hgk _ _ h
  | error e => exact .error e

/-- Two computations that begin alike. -/
theorem same_bind {x : Except ε α} {g : α → Except ε γ} {k : α → Except ε δ}
    (hgk : ∀ a, Alongside Q (g a) (k a)) : Alongside Q (x >>= g) (x >>= k) := by
  cases x with
  | ok a => exact hgk a
  | error e => exact .error e

theorem mapM {g : α → Except ε γ} {k : β → Except ε δ} {as : List α} {bs : List β}
    (h : List.Forall₂ P as bs) (hgk : ∀ a b, P a b → Alongside Q (g a) (k b)) :
    Alongside (List.Forall₂ Q) (as.mapM g) (bs.mapM k) := by
  induction h with
  | nil => exact .ok .nil
  | cons hab _ ih =>
    rw [List.mapM_cons, List.mapM_cons]
    apply (hgk _ _ hab).bind
    intro c d hcd
    apply ih.bind
    intro cs ds hcds
    exact .ok (.cons hcd hcds)

theorem lift {x : Except Fault α} {y : Except Fault β} (h : Alongside P x y) :
    Alongside P (Failure.lift x : Except (Failure ε) α) (Failure.lift y) := by
  cases h with
  | ok h => exact .ok h
  | error e => exact .error _

theorem eq {P : α → α → Prop} {x y : Except ε α} (h : Alongside P x y)
    (hP : ∀ a b, P a b → a = b) : x = y := by
  cases h with
  | ok h => rw [hP _ _ h]
  | error e => rfl

end Alongside

/-! ## Outcomes that are open -/

/-- An outcome that is open, having an error of `F`, may become any other one; all others stay as
they are. -/
def Refines (F : ε → Prop) (x y : Except ε α) : Prop := (∃ e, F e ∧ x = .error e) ∨ x = y

namespace Refines

variable {F : ε → Prop} {x y z : Except ε α}

theorem refl (x : Except ε α) : Refines F x x := Or.inr rfl

theorem of_error {e : ε} (he : F e) (y : Except ε α) : Refines F (.error e) y :=
  Or.inl ⟨e, he, rfl⟩

theorem mono {G : ε → Prop} (h : Refines F x y) (hFG : ∀ e, F e → G e) : Refines G x y :=
  h.imp_left fun ⟨e, he, hx⟩ => ⟨e, hFG e he, hx⟩

/-- A result is kept. -/
theorem eq_ok {a : α} (h : Refines F x y) (hx : x = .ok a) : y = .ok a := by
  rcases h with ⟨e, -, he⟩ | rfl
  · rw [hx] at he
    cases he
  · exact hx

theorem bind {g k : α → Except ε β} (h : Refines F x y) (hgk : ∀ a, Refines F (g a) (k a)) :
    Refines F (x >>= g) (y >>= k) := by
  rcases h with ⟨e, he, rfl⟩ | rfl
  · exact of_error he _
  · cases x with
    | error e => exact Or.inr rfl
    | ok a => exact hgk a

theorem map (g : α → β) (h : Refines F x y) : Refines F (g <$> x) (g <$> y) := by
  rcases h with ⟨e, he, rfl⟩ | rfl
  · exact of_error he _
  · exact Or.inr rfl

theorem lift {F : Fault → Prop} {x y : Except Fault α} (h : Refines F x y) :
    Refines Failure.IsFault (Failure.lift x : Except (Failure ε) α) (Failure.lift y) := by
  rcases h with ⟨f, -, rfl⟩ | rfl
  · exact of_error (e := Failure.fault f) trivial _
  · exact .refl _

/-- What is found or reported is kept, if only faults are open. -/
theorem report_eq {x y : Except (Failure ε) α} (h : Refines Failure.IsFault x y) {r : Except ε α}
    (hx : Failure.report x = .ok r) : Failure.report y = .ok r := by
  rcases h with ⟨e, he, rfl⟩ | rfl
  · cases e with
    | fault f => cases hx
    | reported e => exact he.elim
  · exact hx

end Refines

/-! ## Computations that are not stopped by dangling references -/

/-- The computation has a result with property `P`; or it runs in a circle, and then `E` is the
case. -/
inductive Settles (E : Prop) (P : α → Prop) : Except Fault α → Prop
  | ok {a : α} (ha : P a) : Settles E P (.ok a)
  | endless (hE : E) : Settles E P (.error .endless)

namespace Settles

variable {E E' : Prop} {P Q : α → Prop} {x : Except Fault α}

theorem mono (h : Settles E P x) (hE : E → E') (hP : ∀ a, P a → Q a) : Settles E' Q x := by
  cases h with
  | ok ha => exact .ok (hP _ ha)
  | endless h => exact .endless (hE h)

/-- A computation that runs in no circle has a result. -/
theorem exists_ok (h : Settles False P x) : ∃ a, x = .ok a ∧ P a := by
  cases h with
  | ok ha => exact ⟨_, rfl, ha⟩
  | endless h => exact h.elim

theorem self (h : Settles E P x) : Settles E (fun a => P a ∧ x = .ok a) x := by
  cases h with
  | ok ha => exact .ok ⟨ha, rfl⟩
  | endless h => exact .endless h

theorem bind {R : β → Prop} {g : α → Except Fault β} (h : Settles E P x)
    (hg : ∀ a, P a → Settles E R (g a)) : Settles E R (x >>= g) := by
  cases h with
  | ok ha => exact hg _ ha
  | endless h => exact .endless h

/-- A computation that finds nothing settles. -/
theorem none : Settles E (fun o : Option α => ∀ a ∈ o, P a) (.ok Option.none) := .ok nofun

theorem some {a : α} (ha : P a) :
    Settles E (fun o : Option α => ∀ a ∈ o, P a) (.ok (Option.some a)) := by
  refine .ok ?_
  rintro _ ⟨⟩
  exact ha

theorem mapSome (h : Settles E P x) (hP : ∀ a, P a → Q a) :
    Settles E (fun o : Option α => ∀ a ∈ o, Q a) (Option.some <$> x) := by
  cases h with
  | ok ha => exact .some (hP _ ha)
  | endless h => exact .endless h

theorem map {R : β → Prop} {g : α → β} (h : Settles E P x) (hg : ∀ a, P a → R (g a)) :
    Settles E R (g <$> x) := by
  cases h with
  | ok ha => exact .ok (hg _ ha)
  | endless h => exact .endless h

theorem fetch {table : Array α} {i : Nat} (hi : i < table.size) :
    Settles E (fun a => table[i]? = Option.some a) (GridAccess.fetch table i) := by
  rw [GridAccess.fetch, Array.getElem?_eq_getElem hi]
  exact .ok rfl

theorem mapM {R : β → Prop} {g : α → Except Fault β} {xs : List α}
    (h : ∀ a ∈ xs, Settles E R (g a)) : Settles E (fun ys => ∀ b ∈ ys, R b) (xs.mapM g) := by
  induction xs with
  | nil => exact .ok (by simp)
  | cons a xs ih =>
    rw [List.mapM_cons]
    refine (h a List.mem_cons_self).bind fun b hb => ?_
    refine (ih fun c hc => h c (List.mem_cons_of_mem a hc)).bind fun bs hbs => ?_
    refine .ok fun c hc => ?_
    rcases List.mem_cons.1 hc with rfl | hc
    · exact hb
    · exact hbs c hc

theorem foldlM {g : β → α → Except Fault β} {xs : List α} {b : β}
    (h : ∀ b, ∀ a ∈ xs, Settles E (fun _ => True) (g b a)) :
    Settles E (fun _ => True) (xs.foldlM g b) := by
  induction xs generalizing b with
  | nil => exact .ok trivial
  | cons a xs ih =>
    rw [List.foldlM_cons]
    refine (h b a List.mem_cons_self).bind fun c _ => ?_
    exact ih fun d y hy => h d y (List.mem_cons_of_mem a hy)

end Settles

/-- The computation has a result or reports a failure; or it runs in a circle, and then `E` is the
case. -/
inductive Concludes (E : Prop) : Except (Failure ε) α → Prop
  | ok (a : α) : Concludes E (.ok a)
  | reported (e : ε) : Concludes E (.error (.reported e))
  | endless (hE : E) : Concludes E (.error (.fault .endless))

namespace Concludes

variable {E : Prop} {x : Except (Failure ε) α}

theorem bind {g : α → Except (Failure ε) β} (h : Concludes E x) (hg : ∀ a, Concludes E (g a)) :
    Concludes E (x >>= g) := by
  cases h with
  | ok a => exact hg a
  | reported e => exact .reported e
  | endless hE => exact .endless hE

/-- A computation that can only be stopped by faults comes first. -/
theorem lift_bind {P : α → Prop} {r : Except Fault α} {g : α → Except (Failure ε) β}
    (h : Settles E P r) (hg : ∀ a, P a → Concludes E (g a)) :
    Concludes E (Failure.lift r >>= g) := by
  cases h with
  | ok ha => exact hg _ ha
  | endless hE => exact .endless hE

end Concludes

end GridAccess
