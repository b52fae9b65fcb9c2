import GridAccess.Flow.Cfg
import GridAccess.Proofs.Walk

set_option autoImplicit false

/-!
# Paths through a control-flow graph

A path lists the blocks control passes, from the first to the last. Reachability and dominance are
statements about all paths from block 0: a block is reached if a path leads to it, and dominated
by the blocks that lie on every path to it.

Dominance is a partial order on the reached blocks, and the dominators of one block form a chain
(`Dominates.total`). Both rest on cutting a path at a block, after its first or before its last
passage. The walks over a graph enter the ends of its paths (`mem_reachable_iff`,
`mem_reachableAvoiding_iff`).
-/

namespace GridAccess

namespace Cfg

/-- Every edge leads to a block of the graph, and predecessors mirror successors. -/
structure Closed (g : Cfg) : Prop where
  lt_size : ∀ {a b : Nat}, b ∈ g.successors a → b < g.size
  mem_predecessors_iff : ∀ {a b : Nat}, a ∈ g.predecessors b ↔ b ∈ g.successors a

theorem lt_size_of_mem_successors {g : Cfg} {a b : Nat} (h : b ∈ g.successors a) :
    a < g.size := by
  by_contra hlt
  rw [successors, Array.getElem?_eq_none (by simpa [size] using hlt)] at h
  simp at h

section OfTargets

variable (n : Nat) (targets : Nat → List Nat)

@[simp] theorem size_ofTargets : (ofTargets n targets).size = n := by
  simp [ofTargets, size]

theorem successors_ofTargets {b : Nat} (hb : b < n) :
    (ofTargets n targets).successors b = ((targets b).filter (· < n)).eraseDups := by
  simp [ofTargets, successors, hb]

theorem predecessors_ofTargets {b : Nat} (hb : b < n) :
    (ofTargets n targets).predecessors b =
      (List.range n).filter fun a => ((targets a).filter (· < n)).eraseDups.contains b := by
  simp [ofTargets, predecessors, hb]

/-- The predecessors of a block stand in ascending order. -/
theorem pairwise_predecessors_ofTargets (b : Nat) :
    ((ofTargets n targets).predecessors b).Pairwise (· < ·) := by
  by_cases hb : b < n
  · rw [predecessors_ofTargets n targets hb]
    exact List.pairwise_lt_range.filter _
  · rw [predecessors, Array.getElem?_eq_none (by simpa [ofTargets] using hb)]
    exact .nil

/-- A graph made from branch targets has an edge to each of them that is a block. -/
theorem mem_successors_ofTargets_iff {a b : Nat} :
    b ∈ (ofTargets n targets).successors a ↔ a < n ∧ b < n ∧ b ∈ targets a := by
  by_cases ha : a < n
  · rw [successors_ofTargets n targets ha, List.mem_eraseDups, List.mem_filter]
    simp [ha, and_comm]
  · refine ⟨fun h => absurd ?_ ha, fun h => absurd h.1 ha⟩
    simpa using lt_size_of_mem_successors h

theorem closed_ofTargets : (ofTargets n targets).Closed where
  lt_size := by
    intro a b h
    rw [size_ofTargets]
    exact ((mem_successors_ofTargets_iff n targets).1 h).2.1
  mem_predecessors_iff := by
    intro a b
    by_cases hb : b < n
    · rw [predecessors_ofTargets n targets hb, List.mem_filter, List.mem_range,
        mem_successors_ofTargets_iff, List.contains_iff_mem, List.mem_eraseDups, List.mem_filter]
      simp [hb]
    · constructor
      · intro h
        rw [predecessors, Array.getElem?_eq_none (by simpa [ofTargets] using hb)] at h
        simp at h
      · exact fun h => absurd ((mem_successors_ofTargets_iff n targets).1 h).2.1 hb

end OfTargets

/-! ## Paths -/

/-- A path from one block to another, as the list of the blocks it passes. -/
inductive Path (g : Cfg) : Nat → Nat → List Nat → Prop
  | here {a : Nat} (ha : a < g.size) : Path g a a [a]
  | step {a b c : Nat} {p : List Nat} (hab : b ∈ g.successors a) (rest : Path g b c p) :
      Path g a c (a :: p)

namespace Path

variable {g : Cfg} {a b c x : Nat} {p q : List Nat}

theorem source_mem (h : g.Path a b p) : a ∈ p := by
  cases h <;> exact List.mem_cons_self

theorem target_mem (h : g.Path a b p) : b ∈ p := by
  induction h with
  | here _ => exact List.mem_cons_self
  | step _ _ ih => exact List.mem_cons_of_mem _ ih

theorem source_lt (h : g.Path a b p) : a < g.size := by
  cases h with
  | here ha => exact ha
  | step hab _ => exact lt_size_of_mem_successors hab

/-- Two paths in a row are a path that passes no other blocks. -/
theorem append (hp : g.Path a b p) (hq : g.Path b c q) :
    ∃ r, g.Path a c r ∧ ∀ x ∈ r, x ∈ p ∨ x ∈ q := by
  induction hp with
  | here _ => exact ⟨q, hq, fun x hx => Or.inr hx⟩
  | step hab _ ih =>
    obtain ⟨r, hr, hsub⟩ := ih hq
    refine ⟨_, .step hab hr, fun x hx => ?_⟩
    rcases List.mem_cons.1 hx with rfl | hx
    · exact Or.inl List.mem_cons_self
    · exact (hsub x hx).imp_left (List.mem_cons_of_mem _)

theorem lt_size_of_mem (h : g.Path a b p) (hx : x ∈ p) : x < g.size := by
  induction h with
  | here ha => exact (List.mem_singleton.1 hx) ▸ ha
  | step hab _ ih =>
    rcases List.mem_cons.1 hx with rfl | hx
    · exact lt_size_of_mem_successors hab
    · exact ih hx

/-- The part of a path up to a passage of a block. -/
theorem until_mem (h : g.Path a b p) (hx : x ∈ p) : ∃ q, g.Path a x q ∧ ∀ y ∈ q, y ∈ p := by
  induction h with
  | @here a ha =>
    obtain rfl := List.mem_singleton.1 hx
    exact ⟨[x], .here ha, fun y hy => hy⟩
  | @step a b c p hab rest ih =>
    by_cases hxa : x = a
    · subst hxa
      exact ⟨[x], .here (lt_size_of_mem_successors hab), by simp⟩
    · obtain ⟨q, hq, hsub⟩ := ih ((List.mem_cons.1 hx).resolve_left hxa)
      exact ⟨a :: q, .step hab hq, fun y hy => List.cons_subset_cons a hsub hy⟩

/-- The part of a path from the last passage of a block on. -/
theorem from_last (h : g.Path a b p) (hx : x ∈ p) :
    ∃ r, g.Path x b (x :: r) ∧ x ∉ r ∧ ∀ y ∈ r, y ∈ p := by
  induction h with
  | @here a ha =>
    obtain rfl := List.mem_singleton.1 hx
    exact ⟨[], .here ha, by simp, by simp⟩
  | @step a b c p hab rest ih =>
    by_cases hxp : x ∈ p
    · obtain ⟨r, hr, hnot, hsub⟩ := ih hxp
      exact ⟨r, hr, hnot, fun y hy => List.mem_cons_of_mem _ (hsub y hy)⟩
    · obtain rfl : x = a := (List.mem_cons.1 hx).resolve_right hxp
      exact ⟨p, .step hab rest, hxp, fun y hy => List.mem_cons_of_mem _ hy⟩

/-- A path that goes on by one edge. -/
theorem snoc (hg : g.Closed) (h : g.Path a b p) (hbc : c ∈ g.successors b) :
    ∃ r, g.Path a c r ∧ ∀ x ∈ r, x ∈ p ∨ x = c := by
  obtain ⟨r, hr, hsub⟩ := h.append (.step hbc (.here (hg.lt_size hbc)))
  refine ⟨r, hr, fun x hx => ?_⟩
  rcases hsub x hx with hx | hx
  · exact Or.inl hx
  · rcases List.mem_cons.1 hx with rfl | hx
    · exact Or.inl h.target_mem
    · exact Or.inr (List.mem_singleton.1 hx)

/-- The edge by which a path first arrives at its end. -/
theorem first_arrival (h : g.Path a b p) (hab : a ≠ b) :
    ∃ c q, b ∈ g.successors c ∧ g.Path a c q ∧ b ∉ q ∧ ∀ x ∈ q, x ∈ p := by
  induction h with
  | here _ => exact absurd rfl hab
  | @step a d b p had rest ih =>
    by_cases hdb : d = b
    · subst hdb
      exact ⟨a, [a], had, .here (lt_size_of_mem_successors had), by simp [Ne.symm hab], by simp⟩
    · obtain ⟨c, q, hc, hq, hnot, hsub⟩ := ih hdb
      exact ⟨c, a :: q, hc, .step had hq, by simp [Ne.symm hab, hnot],
        fun x hx => List.cons_subset_cons a hsub hx⟩

/-- Of its end and another block, a path arrives first at one of them. -/
theorem first_of_two (h : g.Path a b p) (hbx : b ≠ x) :
    (∃ q, g.Path a x q ∧ b ∉ q) ∨ (∃ q, g.Path a b q ∧ x ∉ q) := by
  induction h with
  | here ha => exact Or.inr ⟨_, .here ha, by simpa using hbx.symm⟩
  | @step a d b p had rest ih =>
    have ha : a < g.size := lt_size_of_mem_successors had
    by_cases hab : a = b
    · subst hab
      exact Or.inr ⟨_, .here ha, by simpa using hbx.symm⟩
    · by_cases hax : a = x
      · subst hax
        exact Or.inl ⟨_, .here ha, by simpa using hbx⟩
      · rcases ih hbx with ⟨q, hq, hnot⟩ | ⟨q, hq, hnot⟩
        · exact Or.inl ⟨_, .step had hq, by simp [Ne.symm hab, hnot]⟩
        · exact Or.inr ⟨_, .step had hq, by simp [Ne.symm hax, hnot]⟩

/-- Of two blocks on a path, one is passed after the last passage of the other. -/
theorem last_of_two {x y : Nat} (h : g.Path a b p) (hx : x ∈ p) (hxy : x ≠ y) :
    (∃ q, g.Path x b q ∧ y ∉ q) ∨ (∃ q, g.Path y b q ∧ x ∉ q) := by
  induction h with
  | here ha =>
    obtain rfl := List.mem_singleton.1 hx
    exact Or.inl ⟨_, .here ha, by simpa using hxy.symm⟩
  | @step a d b p had rest ih =>
    by_cases hxp : x ∈ p
    · exact ih hxp
    · -- this is the last passage of `x`; `y` may still be passed after it
      obtain rfl : x = a := (List.mem_cons.1 hx).resolve_right hxp
      by_cases hyp : y ∈ p
      · obtain ⟨r, hr, -, hsub⟩ := rest.from_last hyp
        refine Or.inr ⟨_, hr, fun hxr => ?_⟩
        rcases List.mem_cons.1 hxr with hxr | hxr
        · exact hxy hxr
        · exact hxp (hsub x hxr)
      · exact Or.inl ⟨_, .step had rest, by simp [Ne.symm hxy, hyp]⟩

end Path

/-! ## Reached blocks and dominance -/

/-- A path leads from block 0 to the block. -/
def Reaches (g : Cfg) (b : Nat) : Prop := ∃ p, g.Path 0 b p

/-- Every path from block 0 to `b` passes `a`. -/
def Dominates (g : Cfg) (a b : Nat) : Prop := ∀ p, g.Path 0 b p → a ∈ p

/-- `a` dominates `b` and is another block. -/
def ProperlyDominates (g : Cfg) (a b : Nat) : Prop := g.Dominates a b ∧ a ≠ b

variable {g : Cfg} {a b c d : Nat}

theorem Reaches.lt_size (h : g.Reaches b) : b < g.size := by
  obtain ⟨p, hp⟩ := h
  exact hp.lt_size_of_mem hp.target_mem

theorem reaches_zero (h : 0 < g.size) : g.Reaches 0 := ⟨[0], .here h⟩

theorem Reaches.of_edge (hg : g.Closed) (ha : g.Reaches a) (hab : b ∈ g.successors a) :
    g.Reaches b := by
  obtain ⟨p, hp⟩ := ha
  obtain ⟨r, hr, -⟩ := hp.snoc hg hab
  exact ⟨r, hr⟩

/-- A reached block that is not dominated by `a` can be reached around `a`. -/
theorem exists_path_avoiding (h : ¬ g.Dominates a b) : ∃ p, g.Path 0 b p ∧ a ∉ p := by
  simpa [Dominates] using h

theorem Dominates.refl (g : Cfg) (b : Nat) : g.Dominates b b := fun _ hp => hp.target_mem

theorem zero_dominates (g : Cfg) (b : Nat) : g.Dominates 0 b := fun _ hp => hp.source_mem

theorem Dominates.trans (hab : g.Dominates a b) (hbc : g.Dominates b c) : g.Dominates a c := by
  intro p hp
  obtain ⟨q, hq, hsub⟩ := hp.until_mem (hbc p hp)
  exact hsub a (hab q hq)

/-- A dominator of a reached block is reached. -/
theorem Dominates.reaches (hab : g.Dominates a b) (hb : g.Reaches b) : g.Reaches a := by
  obtain ⟨p, hp⟩ := hb
  obtain ⟨q, hq, -⟩ := hp.until_mem (hab p hp)
  exact ⟨q, hq⟩

/-- Two reached blocks that dominate each other are the same: a path arrives first at one of
them. -/
theorem Dominates.antisymm (hab : g.Dominates a b) (hba : g.Dominates b a) (ha : g.Reaches a) :
    a = b := by
  by_contra hne
  obtain ⟨p, hp⟩ := ha
  rcases hp.first_of_two hne with ⟨q, hq, hnot⟩ | ⟨q, hq, hnot⟩
  · exact hnot (hab q hq)
  · exact hnot (hba q hq)

/-- The dominators of a reached block are a chain: a path that goes around one of two of them
could go on from the other as a path passes them last. -/
theorem Dominates.total (hac : g.Dominates a c) (hbc : g.Dominates b c) (hc : g.Reaches c) :
    g.Dominates a b ∨ g.Dominates b a := by
  by_contra hnot
  rw [not_or] at hnot
  obtain ⟨pb, hpb, hapb⟩ := exists_path_avoiding hnot.1
  obtain ⟨pa, hpa, hbpa⟩ := exists_path_avoiding hnot.2
  have hne : a ≠ b := by
    rintro rfl
    exact hnot.1 (.refl g a)
  obtain ⟨p, hp⟩ := hc
  -- a path to `c` that is around one of the two from the start on
  rcases hp.last_of_two (hac p hp) hne with ⟨q, hq, hbq⟩ | ⟨q, hq, haq⟩
  · obtain ⟨r, hr, hsub⟩ := hpa.append hq
    exact (hsub b (hbc r hr)).elim hbpa hbq
  · obtain ⟨r, hr, hsub⟩ := hpb.append hq
    exact (hsub a (hac r hr)).elim hapb haq

/-- A dominator of a block other than the block itself dominates the blocks control comes from. -/
theorem Dominates.of_edge (hg : g.Closed) (hdb : g.Dominates d b) (hne : d ≠ b)
    (hab : b ∈ g.successors a) : g.Dominates d a := by
  intro p hp
  obtain ⟨r, hr, hsub⟩ := hp.snoc hg hab
  exact (hsub d (hdb r hr)).resolve_right hne

theorem ProperlyDominates.trans_dominates (hab : g.ProperlyDominates a b)
    (hbc : g.Dominates b c) (hc : g.Reaches c) : g.ProperlyDominates a c := by
  refine ⟨hab.1.trans hbc, ?_⟩
  rintro rfl
  exact hab.2 (hab.1.antisymm hbc hc)

theorem Dominates.trans_properly (hab : g.Dominates a b) (hbc : g.ProperlyDominates b c)
    (hc : g.Reaches c) : g.ProperlyDominates a c := by
  refine ⟨hab.trans hbc.1, ?_⟩
  rintro rfl
  exact hbc.2 (hbc.1.antisymm hab (hbc.1.reaches hc))

/-! ## Walks and paths -/

theorem Path.reflTransGen_keep {p : List Nat} {keep : Nat → Bool} (hp : g.Path a b p)
    (hall : ∀ x ∈ p, keep x = true) :
    Relation.ReflTransGen (Walk.Edge fun a => (g.successors a).filter keep) a b := by
  induction hp with
  | here _ => exact Relation.ReflTransGen.refl
  | @step u v c q huv rest ih =>
    have hv : keep v = true := hall v (List.mem_cons_of_mem u rest.source_mem)
    exact Relation.ReflTransGen.head (List.mem_filter.2 ⟨huv, hv⟩)
      (ih fun x hx => hall x (List.mem_cons_of_mem u hx))

theorem lt_size_of_mem_entry (h : a ∈ g.entry) : a < g.size := by
  rw [entry] at h
  split at h
  · simp at h
  · obtain rfl := List.mem_singleton.1 h
    omega

/-- A walk that keeps to some blocks enters the ends of the paths that keep to them. -/
theorem mem_entered_keep_iff (hg : g.Closed) (keep : Nat → Bool) :
    b ∈ (Walk.fromAll (fun a => (g.successors a).filter keep) g.size
        (g.entry.filter keep)).entered ↔
      ∃ p, g.Path 0 b p ∧ ∀ x ∈ p, keep x = true := by
  have hentry : ∀ s ∈ g.entry.filter keep, s < g.size :=
    fun s hs => lt_size_of_mem_entry (List.mem_filter.1 hs).1
  rw [Walk.mem_entered_fromAll_iff (fun u v hv => hg.lt_size (List.mem_filter.1 hv).1) hentry]
  constructor
  · rintro ⟨s, hs, hsb⟩
    obtain ⟨hs0, hkeep⟩ := List.mem_filter.1 hs
    have hpos : 0 < g.size := Nat.zero_lt_of_lt (hentry s hs)
    obtain rfl : s = 0 := by simpa [entry, Nat.pos_iff_ne_zero.1 hpos] using hs0
    induction hsb with
    | refl => exact ⟨[0], .here hpos, by simpa using hkeep⟩
    | tail _ huv ih =>
      obtain ⟨p, hp, hall⟩ := ih
      obtain ⟨huv, hv⟩ := List.mem_filter.1 huv
      obtain ⟨r, hr, hsub⟩ := hp.snoc hg huv
      refine ⟨r, hr, fun x hx => ?_⟩
      rcases hsub x hx with hx | rfl
      · exact hall x hx
      · exact hv
  · rintro ⟨p, hp, hall⟩
    have hpos : g.size ≠ 0 := Nat.ne_of_gt hp.source_lt
    exact ⟨0, List.mem_filter.2 ⟨by simp [entry, hpos], hall 0 hp.source_mem⟩,
      hp.reflTransGen_keep hall⟩

theorem mem_reachable_iff (hg : g.Closed) : b ∈ g.reachable ↔ g.Reaches b := by
  have h := mem_entered_keep_iff (b := b) hg fun _ => true
  simpa [reachable, walk, Reaches, List.filter_true] using h

theorem mem_reachableAvoiding_iff (hg : g.Closed) :
    b ∈ g.reachableAvoiding a ↔ ∃ p, g.Path 0 b p ∧ a ∉ p := by
  rw [reachableAvoiding, mem_entered_keep_iff hg]
  refine exists_congr fun p => and_congr_right fun _ => ⟨fun h ha => ?_, fun h x hx => ?_⟩
  · simpa using h a ha
  · simpa using fun hxa : x = a => h (hxa ▸ hx)

/-- The postorder of a graph holds the reached blocks. -/
theorem mem_postOrder_iff (hg : g.Closed) : b ∈ g.postOrder ↔ g.Reaches b := by
  rw [← mem_reachable_iff hg, postOrder, reachable, walk,
    Walk.mem_postOrder_fromAll_iff (fun _ _ => hg.lt_size) (fun _ => lt_size_of_mem_entry),
    Walk.mem_entered_fromAll_iff (fun _ _ => hg.lt_size) (fun _ => lt_size_of_mem_entry)]

theorem nodup_postOrder (hg : g.Closed) : g.postOrder.Nodup :=
  Walk.nodup_postOrder_fromAll (fun _ _ => hg.lt_size) (fun _ => lt_size_of_mem_entry)

end Cfg

/-- The graph of a function. -/
theorem Function.closed_cfg (f : Function) : f.cfg.Closed :=
  Cfg.closed_ofTargets f.blocks.size f.targetsOf

theorem Function.size_cfg (f : Function) : f.cfg.size = f.blocks.size :=
  Cfg.size_ofTargets f.blocks.size f.targetsOf

end GridAccess
