import GridAccess.Flow.Walk
import Mathlib.Data.Finset.Card
import Mathlib.Tactic
import Mathlib.Logic.Relation

set_option autoImplicit false

/-!
# What a depth-first walk enters and leaves

A walk from some sources enters exactly the vertices that can be reached from them
(`mem_entered_fromAll_iff`), and leaves each of these once (`mem_postOrder_fromAll_iff`,
`nodup_postOrder_fromAll`). The bound on the depth of a walk never cuts it short: every visit that
goes one deeper has entered one more of the finitely many vertices.

The walk is followed through `Explores`, which says what a part of it has done to the lists of
vertices: it has entered its sources and everything behind the vertices it has entered, and has
left all of these. In a graph without cycles a vertex is left after everything behind it
(`fromAll_postordered`, `Postordered.pairwise`): what is still open leads to the vertex at hand.

Where a finite relation has no cycles, following it downwards ends: what lies below something has
fewer members below it (`card_below_lt`).
-/

namespace GridAccess

section Below

variable {α : Type} {R : α → α → Prop} [DecidableRel R] {s : Finset α} {a b : α}

/-- What lies below something has less below it. -/
theorem card_below_lt (hR : ∀ a b c, R a b → R b c → R a c) (ha : ¬ R a a) (hmem : a ∈ s)
    (hab : R a b) : (s.filter (R · a)).card < (s.filter (R · b)).card := by
  refine Finset.card_lt_card ⟨fun c hc => ?_, fun hsub => ?_⟩
  · rw [Finset.mem_filter] at hc ⊢
    exact ⟨hc.1, hR c a b hc.2 hab⟩
  · have hself := hsub (Finset.mem_filter.2 ⟨hmem, hab⟩)
    exact ha (Finset.mem_filter.1 hself).2

theorem card_below_lt_card (ha : ¬ R a a) (hmem : a ∈ s) : (s.filter (R · a)).card < s.card :=
  Finset.card_lt_card (Finset.filter_ssubset.2 ⟨a, hmem, ha⟩)

end Below

namespace Walk

/-- One vertex is a neighbour of another. -/
def Edge (next : Nat → List Nat) (u v : Nat) : Prop := v ∈ next u

/-- The lists of a walk over vertices below `size`: no vertex stands twice in a list, and only
entered vertices have been left. -/
structure Tidy (size : Nat) (w : Walk) : Prop where
  bounded : ∀ v ∈ w.entered, v < size
  nodup_entered : w.entered.Nodup
  nodup_left : w.left.Nodup
  left_subset : ∀ v ∈ w.left, v ∈ w.entered

/-- The walk `w'` comes from `w` by going on from `sources`. -/
structure Explores (next : Nat → List Nat) (size : Nat) (sources : List Nat) (w w' : Walk) :
    Prop where
  tidy : w'.Tidy size
  sources_entered : ∀ s ∈ sources, s ∈ w'.entered
  kept : ∀ v ∈ w.entered, v ∈ w'.entered
  closed : ∀ v ∈ w'.entered, v ∉ w.entered → ∀ u ∈ next v, u ∈ w'.entered
  reached : ∀ v ∈ w'.entered, v ∉ w.entered →
    ∃ s ∈ sources, Relation.ReflTransGen (Edge next) s v
  left_iff : ∀ v, v ∈ w'.left ↔ v ∈ w.left ∨ (v ∈ w'.entered ∧ v ∉ w.entered)

variable {next : Nat → List Nat} {size : Nat}

theorem tidy_empty : Tidy size {} :=
  ⟨by simp, List.nodup_nil, List.nodup_nil, by simp⟩

/-- A walk enters no more vertices than there are. -/
theorem Tidy.length_le {w : Walk} (h : w.Tidy size) : w.entered.length ≤ size := by
  have hsub : w.entered ⊆ List.range size := fun v hv => List.mem_range.2 (h.bounded v hv)
  simpa using (h.nodup_entered.subperm hsub).length_le

/-- Entering one more vertex keeps the lists tidy. -/
theorem Tidy.enter {w : Walk} (h : w.Tidy size) {u : Nat} (hu : u < size)
    (hnew : u ∉ w.entered) : Tidy size { w with entered := u :: w.entered } where
  bounded := by
    intro v hv
    rcases List.mem_cons.1 hv with rfl | hv
    · exact hu
    · exact h.bounded v hv
  nodup_entered := List.nodup_cons.2 ⟨hnew, h.nodup_entered⟩
  nodup_left := h.nodup_left
  left_subset := fun v hv => List.mem_cons_of_mem u (h.left_subset v hv)

namespace Explores

theorem refl {w : Walk} (h : w.Tidy size) {sources : List Nat}
    (hs : ∀ s ∈ sources, s ∈ w.entered) : Explores next size sources w w where
  tidy := h
  sources_entered := hs
  kept := fun _ hv => hv
  closed := fun _ hv hn => absurd hv hn
  reached := fun _ hv hn => absurd hv hn
  left_iff := fun v => by simp

theorem trans {s₁ s₂ : List Nat} {w w₁ w₂ : Walk} (h₁ : Explores next size s₁ w w₁)
    (h₂ : Explores next size s₂ w₁ w₂) : Explores next size (s₂ ++ s₁) w w₂ where
  tidy := h₂.tidy
  sources_entered := by
    intro s hs
    rcases List.mem_append.1 hs with hs | hs
    · exact h₂.sources_entered s hs
    · exact h₂.kept s (h₁.sources_entered s hs)
  kept := fun v hv => h₂.kept v (h₁.kept v hv)
  closed := by
    intro v hv hn u hu
    by_cases hv₁ : v ∈ w₁.entered
    · exact h₂.kept u (h₁.closed v hv₁ hn u hu)
    · exact h₂.closed v hv hv₁ u hu
  reached := by
    intro v hv hn
    by_cases hv₁ : v ∈ w₁.entered
    · obtain ⟨s, hs, hsv⟩ := h₁.reached v hv₁ hn
      exact ⟨s, List.mem_append_right _ hs, hsv⟩
    · obtain ⟨s, hs, hsv⟩ := h₂.reached v hv hv₁
      exact ⟨s, List.mem_append_left _ hs, hsv⟩
  left_iff := by
    intro v
    have hk₁ := h₁.kept v
    have hk₂ := h₂.kept v
    rw [h₂.left_iff v, h₁.left_iff v]
    tauto

/-- The number of entered vertices does not go down. -/
theorem length_le {sources : List Nat} {w w' : Walk} (hw : w.Tidy size)
    (h : Explores next size sources w w') : w.entered.length ≤ w'.entered.length :=
  (hw.nodup_entered.subperm fun v hv => h.kept v hv).length_le

/-- A vertex is left once everything behind its neighbours has been explored. -/
theorem leave {w below : Walk} {u : Nat} (hw : w.Tidy size) (hnew : u ∉ w.entered)
    (h : Explores next size (next u) { w with entered := u :: w.entered } below) :
    Explores next size [u] w { below with left := u :: below.left } := by
  have hu : u ∈ below.entered := h.kept u List.mem_cons_self
  have hnotleft : u ∉ below.left := by
    intro hleft
    rcases (h.left_iff u).1 hleft with hl | ⟨-, hn⟩
    · exact hnew (hw.left_subset u hl)
    · exact hn List.mem_cons_self
  refine ⟨⟨h.tidy.bounded, h.tidy.nodup_entered, ?_, ?_⟩, ?_, ?_, ?_, ?_, ?_⟩
  · exact List.nodup_cons.2 ⟨hnotleft, h.tidy.nodup_left⟩
  · intro v hv
    rcases List.mem_cons.1 hv with rfl | hv
    · exact hu
    · exact h.tidy.left_subset v hv
  · intro s hs
    obtain rfl := List.mem_singleton.1 hs
    exact hu
  · exact fun v hv => h.kept v (List.mem_cons_of_mem u hv)
  · -- the neighbours of `u` are the sources of the part below, all else lies within that part
    intro v hv hn x hx
    by_cases hvu : v = u
    · subst hvu
      exact h.sources_entered x hx
    · exact h.closed v hv (by simp [hvu, hn]) x hx
  · intro v hv hn
    refine ⟨u, List.mem_singleton_self u, ?_⟩
    by_cases hvu : v = u
    · subst hvu
      exact Relation.ReflTransGen.refl
    · obtain ⟨s, hs, hsv⟩ := h.reached v hv (by simp [hvu, hn])
      exact Relation.ReflTransGen.head hs hsv
  · intro v
    have hl := h.left_iff v
    by_cases hvu : v = u
    · subst hvu
      simp [hu, hnew]
    · simp only [List.mem_cons, hvu, false_or] at hl ⊢
      exact hl

end Explores

section Bounded

variable (hnext : ∀ u v, v ∈ next u → v < size)

/-- Visits one after the other explore what each of them explores. -/
theorem foldr_visit_explores {depth : Nat}
    (hvisit : ∀ (w : Walk) (u : Nat), w.Tidy size → u < size → size < depth + w.entered.length →
      Explores next size [u] w (visit next depth w u)) (w : Walk) (hw : w.Tidy size)
    (hdepth : size < depth + w.entered.length) :
    ∀ sources : List Nat, (∀ s ∈ sources, s < size) →
      Explores next size sources w (sources.foldr (fun v w => visit next depth w v) w) := by
  intro sources
  induction sources with
  | nil => exact fun _ => Explores.refl hw (by simp)
  | cons s rest ih =>
    intro hs
    have hrest := ih fun v hv => hs v (List.mem_cons_of_mem s hv)
    have hlen := hrest.length_le hw
    exact hrest.trans (hvisit _ s hrest.tidy (hs s List.mem_cons_self) (by omega))

include hnext in
/-- A visit explores its vertex, if its depth exceeds the number of vertices not yet entered. -/
theorem visit_explores (depth : Nat) : ∀ (w : Walk) (u : Nat), w.Tidy size → u < size →
    size < depth + w.entered.length → Explores next size [u] w (visit next depth w u) := by
  induction depth with
  | zero =>
    -- with no depth left all vertices have been entered, `u` among them
    intro w u hw _ hdepth
    have := hw.length_le
    omega
  | succ depth ih =>
    intro w u hw hu hdepth
    rw [visit]
    by_cases hmem : u ∈ w.entered
    · rw [if_pos (by simpa using hmem)]
      exact Explores.refl hw (by simpa using hmem)
    · rw [if_neg (by simpa using hmem)]
      -- the vertex just entered makes up for the depth that the neighbours have less
      have hdepth' : size < depth + (u :: w.entered).length := by
        simp only [List.length_cons]
        omega
      exact (foldr_visit_explores ih _ (hw.enter hu hmem) hdepth' (next u) (hnext u)).leave hw hmem

variable {sources : List Nat} (hsources : ∀ s ∈ sources, s < size)

include hnext hsources

theorem fromAll_explores : Explores next size sources {} (fromAll next size sources) :=
  foldr_visit_explores (visit_explores hnext (size + 1)) {} tidy_empty (by simp) sources hsources

/-- A walk enters exactly what can be reached from its sources. -/
theorem mem_entered_fromAll_iff (v : Nat) : v ∈ (fromAll next size sources).entered ↔
    ∃ s ∈ sources, Relation.ReflTransGen (Edge next) s v := by
  have h := fromAll_explores hnext hsources
  constructor
  · exact fun hv => h.reached v hv (by simp)
  · rintro ⟨s, hs, hsv⟩
    induction hsv with
    | refl => exact h.sources_entered s hs
    | tail _ huv ih => exact h.closed _ ih (by simp) _ huv

/-- A walk leaves exactly what it enters. -/
theorem mem_postOrder_fromAll_iff (v : Nat) : v ∈ (fromAll next size sources).postOrder ↔
    ∃ s ∈ sources, Relation.ReflTransGen (Edge next) s v := by
  rw [← mem_entered_fromAll_iff hnext hsources, postOrder, List.mem_reverse,
    (fromAll_explores hnext hsources).left_iff]
  simp

/-- A walk leaves no vertex twice. -/
theorem nodup_postOrder_fromAll : (fromAll next size sources).postOrder.Nodup :=
  List.nodup_reverse.2 (fromAll_explores hnext hsources).tidy.nodup_left

end Bounded

/-! ## The order in which vertices are left -/

/-- Vertices that were left, the latest first: the neighbours of a vertex were left before it, but
for those that lead back to it. -/
inductive Postordered (next : Nat → List Nat) : List Nat → Prop
  | nil : Postordered next []
  | cons {u : Nat} {left : List Nat}
      (hbelow : ∀ v ∈ next u, v ∈ left ∨ Relation.ReflTransGen (Edge next) v u)
      (rest : Postordered next left) : Postordered next (u :: left)

/-- The vertices that have been entered but not left lead to `u`. -/
def OpensTo (next : Nat → List Nat) (w : Walk) (u : Nat) : Prop :=
  ∀ v ∈ w.entered, v ∉ w.left → Relation.ReflTransGen (Edge next) v u

/-- A part of a walk leaves all that it enters, so no more vertices are open after it. -/
theorem Explores.opensTo {sources : List Nat} {w w' : Walk}
    (h : Explores next size sources w w') {u : Nat} (hu : w.OpensTo next u) :
    w'.OpensTo next u := by
  intro v hv hopen
  rw [h.left_iff, not_or, not_and_not_right] at hopen
  exact hu v (hopen.2 hv) hopen.1

section Bounded

variable (hnext : ∀ u v, v ∈ next u → v < size)

include hnext

theorem foldr_visit_postordered {depth : Nat}
    (hvisit : ∀ (w : Walk) (u : Nat), w.Tidy size → u < size → size < depth + w.entered.length →
      w.OpensTo next u → Postordered next w.left → Postordered next (visit next depth w u).left)
    (w : Walk) (hw : w.Tidy size) (hdepth : size < depth + w.entered.length)
    (hleft : Postordered next w.left) (sources : List Nat) (hs : ∀ s ∈ sources, s < size)
    (hopen : ∀ s ∈ sources, w.OpensTo next s) :
    Postordered next (sources.foldr (fun v w => visit next depth w v) w).left := by
  induction sources with
  | nil => exact hleft
  | cons s rest ih =>
    have hexplores := foldr_visit_explores (visit_explores hnext depth) w hw hdepth rest
      fun v hv => hs v (List.mem_cons_of_mem s hv)
    have hlen := hexplores.length_le hw
    have hrest := ih (fun v hv => hs v (List.mem_cons_of_mem s hv))
      fun v hv => hopen v (List.mem_cons_of_mem s hv)
    exact hvisit _ s hexplores.tidy (hs s List.mem_cons_self) (by omega)
      (hexplores.opensTo (hopen s List.mem_cons_self)) hrest

theorem visit_postordered (depth : Nat) : ∀ (w : Walk) (u : Nat), w.Tidy size → u < size →
    size < depth + w.entered.length → w.OpensTo next u → Postordered next w.left →
      Postordered next (visit next depth w u).left := by
  induction depth with
  | zero => exact fun w u _ _ _ _ hleft => hleft
  | succ depth ih =>
    intro w u hw hu hdepth hopen hleft
    rw [visit]
    by_cases hmem : u ∈ w.entered
    · rw [if_pos (by simpa using hmem)]
      exact hleft
    · rw [if_neg (by simpa using hmem)]
      have hdepth' : size < depth + (u :: w.entered).length := by
        simp only [List.length_cons]
        omega
      have hentered := hw.enter hu hmem
      -- now `u` itself is open as well
      have hopen' : OpensTo next { w with entered := u :: w.entered } u := by
        intro v hv hvleft
        rcases List.mem_cons.1 hv with rfl | hv
        · exact .refl
        · exact hopen v hv hvleft
      have hexplores := foldr_visit_explores (visit_explores hnext depth) _ hentered hdepth'
        (next u) (hnext u)
      refine .cons (fun v hv => ?_) (foldr_visit_postordered hnext ih _ hentered hdepth' hleft
        (next u) (hnext u) fun s hs v hv hvleft => (hopen' v hv hvleft).tail hs)
      exact or_iff_not_imp_left.2
        (hexplores.opensTo hopen' v (hexplores.sources_entered v hv))

/-- A walk leaves vertices in postorder. -/
theorem fromAll_postordered {sources : List Nat} (hsources : ∀ s ∈ sources, s < size) :
    Postordered next (fromAll next size sources).left :=
  foldr_visit_postordered hnext (visit_postordered hnext (size + 1)) {} tidy_empty (by simp) .nil
    sources hsources (by simp [OpensTo])

end Bounded

namespace Postordered

variable {left : List Nat} (hacyclic : ∀ u, ¬ Relation.TransGen (Edge next) u u)

include hacyclic

/-- Without cycles, everything behind a vertex that was left was left, too. -/
theorem mem_of_transGen (h : Postordered next left) {u v : Nat} (hu : u ∈ left)
    (huv : Relation.TransGen (Edge next) u v) : v ∈ left := by
  have hedge : ∀ {x y : Nat}, x ∈ left → y ∈ next x → y ∈ left := by
    clear huv hu
    induction h with
    | nil => exact fun hx => absurd hx List.not_mem_nil
    | @cons u left hbelow _ ih =>
      intro x y hx hxy
      rcases List.mem_cons.1 hx with rfl | hx
      · exact List.mem_cons_of_mem x ((hbelow y hxy).resolve_right fun hback =>
          hacyclic x (.head' hxy hback))
      · exact List.mem_cons_of_mem u (ih hx hxy)
  induction huv with
  | single huv => exact hedge hu huv
  | tail _ hvw ih => exact hedge ih hvw

/-- Without cycles, no vertex was left before one that lies behind it. -/
theorem pairwise (h : Postordered next left) (hnodup : left.Nodup) :
    left.Pairwise fun v u => ¬ Relation.TransGen (Edge next) u v := by
  induction h with
  | nil => exact .nil
  | @cons u left _ rest ih =>
    obtain ⟨hnew, hnodup⟩ := List.nodup_cons.1 hnodup
    exact .cons (fun v hv hvu => hnew (rest.mem_of_transGen hacyclic hv hvu)) (ih hnodup)

end Postordered

end Walk

end GridAccess
