import GridAccess.Flow.Dominance
import GridAccess.Proofs.Ascent
import GridAccess.Proofs.Paths

set_option autoImplicit false

/-!
# The dominator tree and paths

What the dominator tree of a graph says about its blocks is what all paths from block 0 say. For
a reached block, `DomTree.dominates` is dominance on paths (`dominates_domTree_iff`), and its
parent is the proper dominator that all its proper dominators dominate
(`nearest_of_parent?_domTree`); it exists because the dominators are a chain
(`exists_parent?_domTree`). Going up from parent to parent one meets exactly the dominators of a
block (`dominates_iff_reflTransGen`), so that dominance and reachability can be read off the
parents alone (`climbsTo_domTree`, `isRooted_domTree`). The postorder of the tree lists the reached
blocks, each after all blocks that it dominates (`pairwise_postOrder_domTree`).

The same holds of the postorder of the graph itself (`pairwise_postOrder`): when the walk enters a
block it has entered nothing that the block dominates, and it leaves all of that before it leaves
the block.
-/

namespace GridAccess

namespace DomTree

/-- One meets `a` on the way up the tree from `b`. -/
def climbsTo (t : DomTree) (a b : Nat) : Except Fault Bool :=
  Ascent.meets t.parents a (t.parents.size + 1) b

/-- The block is block 0 or has a parent in the tree. -/
def isRooted (t : DomTree) (b : Nat) : Bool := b == 0 || (t.parent? b).isSome

end DomTree

namespace Cfg

variable {g : Cfg} {a b d : Nat}

/-! ## Chains of dominators -/

/-- Of some dominators of a reached block, one is dominated by all of them. -/
theorem exists_nearest (hb : g.Reaches b) :
    ∀ ds : List Nat, ds ≠ [] → (∀ d ∈ ds, g.Dominates d b) →
      ∃ d ∈ ds, ∀ a ∈ ds, g.Dominates a d := by
  intro ds
  induction ds with
  | nil => exact fun h => absurd rfl h
  | cons d ds ih =>
    intro _ hds
    by_cases hnil : ds = []
    · subst hnil
      exact ⟨d, List.mem_cons_self, fun a ha => List.mem_singleton.1 ha ▸ .refl g a⟩
    · obtain ⟨m, hm, hall⟩ := ih hnil fun e he => hds e (List.mem_cons_of_mem d he)
      have hdb := hds d List.mem_cons_self
      have hmb := hds m (List.mem_cons_of_mem d hm)
      -- the dominators are a chain, so one of the two is dominated by the other
      rcases hdb.total hmb hb with hdm | hmd
      · refine ⟨m, List.mem_cons_of_mem d hm, fun a ha => ?_⟩
        rcases List.mem_cons.1 ha with rfl | ha
        · exact hdm
        · exact hall a ha
      · refine ⟨d, List.mem_cons_self, fun a ha => ?_⟩
        rcases List.mem_cons.1 ha with rfl | ha
        · exact .refl g a
        · exact (hall a ha).trans hmd

/-- Going from reached blocks to proper dominators comes to an end. -/
theorem wellFounded_properlyDominates (g : Cfg) :
    WellFounded fun a b => g.Reaches b ∧ g.ProperlyDominates a b := by
  classical
  -- a proper dominator of a reached block has fewer dominators
  let count (b : Nat) : Nat := ((Finset.range g.size).filter fun x => g.Dominates x b).card
  refine Subrelation.wf (fun {a b} h => ?_) (measure count).wf
  obtain ⟨hb, hab⟩ := h
  refine Finset.card_lt_card (Finset.ssubset_iff_of_subset ?_ |>.2 ⟨b, ?_, ?_⟩)
  · intro x hx
    rw [Finset.mem_filter] at hx ⊢
    exact ⟨hx.1, hx.2.trans hab.1⟩
  · exact Finset.mem_filter.2 ⟨Finset.mem_range.2 hb.lt_size, .refl g b⟩
  · intro hba
    exact hab.2 (hab.1.antisymm (Finset.mem_filter.1 hba).2 (hab.1.reaches hb))

/-! ## What the tree says -/

theorem dominatorsOf_domTree (hb : b < g.size) : g.domTree.dominatorsOf b =
    dominatorsFrom g.reachable (g.blocks.map g.reachableAvoiding).toArray g.blocks b := by
  simp [domTree, DomTree.dominatorsOf, blocks, hb]

theorem isReachable_domTree_iff (hg : g.Closed) :
    g.domTree.isReachable b = true ↔ g.Reaches b := by
  rw [← mem_reachable_iff hg]
  simp [domTree, DomTree.isReachable]

/-- For a reached block, the tree says which blocks lie on every path to it. -/
theorem dominates_domTree_iff (hg : g.Closed) (hb : g.Reaches b) :
    g.domTree.dominates a b = true ↔ g.Dominates a b := by
  rw [DomTree.dominates, dominatorsOf_domTree hb.lt_size, dominatorsFrom,
    if_pos (by simpa using (mem_reachable_iff hg).2 hb), List.contains_iff_mem, List.mem_filter,
    blocks, List.mem_range]
  constructor
  · rintro ⟨ha, hab⟩
    rw [List.getElem?_toArray, List.getElem?_map, List.getElem?_range ha] at hab
    by_contra hnot
    have havoid := (mem_reachableAvoiding_iff hg).2 (exists_path_avoiding hnot)
    have hne : a ≠ b := by
      rintro rfl
      exact hnot (.refl g a)
    simp [hne, havoid] at hab
  · intro hab
    have ha : a < g.size := (hab.reaches hb).lt_size
    refine ⟨ha, ?_⟩
    rw [List.getElem?_toArray, List.getElem?_map, List.getElem?_range ha]
    have hnot : b ∉ g.reachableAvoiding a := by
      rw [mem_reachableAvoiding_iff hg]
      rintro ⟨p, hp, hap⟩
      exact hap (hab p hp)
    simp [hnot]

/-- A block that is not reached is dominated by itself alone. -/
theorem dominates_domTree_of_not_reaches (hg : g.Closed) (hlt : b < g.size)
    (hb : ¬ g.Reaches b) : g.domTree.dominates a b = true ↔ a = b := by
  rw [DomTree.dominates, dominatorsOf_domTree hlt, dominatorsFrom,
    if_neg (by simpa using fun h => hb ((mem_reachable_iff hg).1 h))]
  simp

/-! ## Parents -/

/-- The proper dominators of a block according to the tree. -/
theorem mem_proper_iff (hg : g.Closed) (hb : g.Reaches b) :
    a ∈ (g.domTree.dominatorsOf b).filter (· != b) ↔ g.ProperlyDominates a b := by
  rw [List.mem_filter, ← List.contains_iff_mem, ← DomTree.dominates, dominates_domTree_iff hg hb]
  simp [ProperlyDominates]

theorem proper_eq_nil (hg : g.Closed) (hlt : b < g.size) (hb : b = 0 ∨ ¬ g.Reaches b) :
    (g.domTree.dominatorsOf b).filter (· != b) = [] := by
  refine List.eq_nil_iff_forall_not_mem.2 fun a ha => ?_
  rcases em (g.Reaches b) with hreach | hreach
  · obtain ⟨hdom, hne⟩ := (mem_proper_iff hg hreach).1 ha
    obtain rfl := hb.resolve_right (not_not.2 hreach)
    exact hne (List.mem_singleton.1 (hdom [0] (.here hlt)))
  · obtain ⟨hmem, hne⟩ := List.mem_filter.1 ha
    have := (dominates_domTree_of_not_reaches hg hlt hreach).1 (List.contains_iff_mem.2 hmem)
    simp [this] at hne

theorem parent?_domTree (hb : b < g.size) : g.domTree.parent? b =
    ((g.domTree.dominatorsOf b).filter (· != b)).find? fun d =>
      ((g.domTree.dominatorsOf b).filter (· != b)).all fun a => g.domTree.dominates a d := by
  have h : g.domTree.parent? b = nearest g.domTree.dominators b := by
    simp [domTree, DomTree.parent?, blocks, hb]
  rw [h]
  rfl

theorem parent?_domTree_eq_none (hg : g.Closed) (hlt : b < g.size)
    (hb : b = 0 ∨ ¬ g.Reaches b) : g.domTree.parent? b = none := by
  rw [parent?_domTree hlt, proper_eq_nil hg hlt hb, List.find?_nil]

/-- A parent in the tree is dominated by all proper dominators. -/
theorem nearest_of_parent?_domTree (hg : g.Closed) (hb : g.Reaches b)
    (h : g.domTree.parent? b = some d) :
    g.ProperlyDominates d b ∧ ∀ a, g.ProperlyDominates a b → g.Dominates a d := by
  rw [parent?_domTree hb.lt_size] at h
  have hd := (mem_proper_iff hg hb).1 (List.mem_of_find?_eq_some h)
  refine ⟨hd, fun a ha => ?_⟩
  have hall := List.find?_some h
  rw [List.all_eq_true] at hall
  exact (dominates_domTree_iff hg (hd.1.reaches hb)).1 (hall a ((mem_proper_iff hg hb).2 ha))

/-- Every reached block but block 0 has a parent in the tree. -/
theorem exists_parent?_domTree (hg : g.Closed) (hb : g.Reaches b) (hb0 : b ≠ 0) :
    ∃ d, g.domTree.parent? b = some d := by
  have hzero := (mem_proper_iff hg hb).2 ⟨zero_dominates g b, Ne.symm hb0⟩
  obtain ⟨d, hd, hall⟩ := exists_nearest hb _ (List.ne_nil_of_mem hzero)
    fun e he => ((mem_proper_iff hg hb).1 he).1
  have hreach : g.Reaches d := ((mem_proper_iff hg hb).1 hd).1.reaches hb
  rw [parent?_domTree hb.lt_size, ← Option.isSome_iff_exists, List.find?_isSome]
  exact ⟨d, hd, List.all_eq_true.2 fun a ha => (dominates_domTree_iff hg hreach).2 (hall a ha)⟩

/-- Two proper dominators that all proper dominators dominate are the same. -/
theorem nearest_unique {e : Nat} (hb : g.Reaches b) (hd : g.ProperlyDominates d b)
    (hdall : ∀ a, g.ProperlyDominates a b → g.Dominates a d) (he : g.ProperlyDominates e b)
    (heall : ∀ a, g.ProperlyDominates a b → g.Dominates a e) : e = d :=
  (hdall e he).antisymm (heall d hd) (he.1.reaches hb)

/-- Going up the tree from a reached block one meets its dominators. -/
theorem dominates_iff_reflTransGen (hg : g.Closed) (hb : g.Reaches b) :
    g.Dominates a b ↔
      Relation.ReflTransGen (fun x y => g.domTree.parent? x = some y) b a := by
  constructor
  · intro hab
    induction b using (wellFounded_properlyDominates g).induction with
    | _ b ih =>
      by_cases hne : a = b
      · exact hne ▸ Relation.ReflTransGen.refl
      · have hb0 : b ≠ 0 := by
          rintro rfl
          exact hne (List.mem_singleton.1 (hab [0] (.here hb.lt_size)))
        obtain ⟨d, hd⟩ := exists_parent?_domTree hg hb hb0
        obtain ⟨hdb, hall⟩ := nearest_of_parent?_domTree hg hb hd
        exact Relation.ReflTransGen.head hd
          (ih d ⟨hb, hdb⟩ (hdb.1.reaches hb) (hall a ⟨hab, hne⟩))
  · intro h
    induction h with
    | refl => exact .refl g b
    | tail _ hxy ih =>
      have hx := ih.reaches hb
      exact (nearest_of_parent?_domTree hg hx hxy).1.1.trans ih

/-! ## Dominance and reachability from the parents -/

theorem size_parents_domTree : g.domTree.parents.size = g.size := by
  simp [domTree, blocks]

theorem getElem?_parents_domTree (hb : b < g.size) :
    g.domTree.parents[b]? = some (g.domTree.parent? b) := by
  rw [DomTree.parent?, Array.getElem?_eq_getElem (by rwa [size_parents_domTree])]
  rfl

theorem exists_climbs_domTree (hg : g.Closed) (hb : g.Reaches b) :
    ∃ cs, Ascent.Climbs g.domTree.parents b cs := by
  induction b using (wellFounded_properlyDominates g).induction with
  | _ b ih =>
    have hparent := getElem?_parents_domTree hb.lt_size
    cases hd : g.domTree.parent? b with
    | none => exact ⟨[b], .top (hd ▸ hparent)⟩
    | some d =>
      obtain ⟨hdb, -⟩ := nearest_of_parent?_domTree hg hb hd
      obtain ⟨cs, hcs⟩ := ih d ⟨hb, hdb⟩ (hdb.1.reaches hb)
      exact ⟨b :: cs, .up (hd ▸ hparent) hcs⟩

/-- The way up the tree from a block answers which blocks dominate it. -/
theorem climbsTo_domTree (hg : g.Closed) (hb : b < g.size) (a : Nat) :
    g.domTree.climbsTo a b = .ok (g.domTree.dominates a b) := by
  have hedge (x y : Nat) :
      g.domTree.parents[x]? = some (some y) ↔ g.domTree.parent? x = some y := by
    rw [DomTree.parent?]
    cases g.domTree.parents[x]? <;> simp
  by_cases hreach : g.Reaches b
  · obtain ⟨cs, hcs⟩ := exists_climbs_domTree hg hreach
    rw [DomTree.climbsTo, hcs.meets_eq, Except.ok.injEq, Bool.eq_iff_iff, List.contains_iff_mem,
      hcs.mem_iff, dominates_domTree_iff hg hreach, dominates_iff_reflTransGen hg hreach]
    simp only [hedge]
  · have htop : Ascent.Climbs g.domTree.parents b [b] := by
      refine .top ?_
      rw [getElem?_parents_domTree hb, parent?_domTree_eq_none hg hb (.inr hreach)]
    rw [DomTree.climbsTo, htop.meets_eq, Except.ok.injEq, Bool.eq_iff_iff, List.contains_iff_mem,
      List.mem_singleton, dominates_domTree_of_not_reaches hg hb hreach]

/-- Of the blocks other than block 0, those that are reached have parents. -/
theorem isRooted_domTree (hg : g.Closed) (hb : b < g.size) :
    g.domTree.isRooted b = g.domTree.isReachable b := by
  rw [Bool.eq_iff_iff, isReachable_domTree_iff hg, DomTree.isRooted, Bool.or_eq_true, beq_iff_eq,
    Option.isSome_iff_exists]
  constructor
  · rintro (rfl | ⟨d, hd⟩)
    · exact reaches_zero hb
    · by_contra hnot
      rw [parent?_domTree_eq_none hg hb (.inr hnot)] at hd
      cases hd
  · exact fun hreach => or_iff_not_imp_left.2 (exists_parent?_domTree hg hreach)

/-! ## The postorder of the tree -/

theorem mem_children_domTree_iff : a ∈ g.domTree.children b ↔
    a < g.size ∧ g.domTree.parent? a = some b := by
  rw [DomTree.children, List.mem_filter, List.mem_range, size_parents_domTree, beq_iff_eq]

theorem lt_size_of_parent?_domTree (h : g.domTree.parent? b = some d) : b < g.size := by
  by_contra hlt
  rw [DomTree.parent?, Array.getElem?_eq_none (by simpa [size_parents_domTree] using hlt)] at h
  cases h

/-- Only reached blocks have parents. -/
theorem reaches_of_parent?_domTree (hg : g.Closed) (h : g.domTree.parent? b = some d) :
    g.Reaches b := by
  by_contra hnot
  rw [parent?_domTree_eq_none hg (lt_size_of_parent?_domTree h) (Or.inr hnot)] at h
  cases h

theorem lt_size_of_mem_roots
    (h : a ∈ if g.domTree.parents.isEmpty then [] else [0]) : a < g.domTree.parents.size := by
  split at h
  · simp at h
  · rename_i hne
    obtain rfl := List.mem_singleton.1 h
    rw [Array.isEmpty_iff_size_eq_zero] at hne
    omega

theorem lt_size_of_mem_children (h : a ∈ g.domTree.children b) :
    a < g.domTree.parents.size := by
  rw [size_parents_domTree]
  exact (mem_children_domTree_iff.1 h).1

/-- The postorder of the tree holds the reached blocks: every one of them lies below block 0. -/
theorem mem_postOrder_domTree_iff (hg : g.Closed) :
    b ∈ g.domTree.postOrder ↔ g.Reaches b := by
  rw [DomTree.postOrder, Walk.mem_postOrder_fromAll_iff (fun _ _ => lt_size_of_mem_children)
    (fun _ => lt_size_of_mem_roots)]
  constructor
  · rintro ⟨s, hs, hsb⟩
    have hlt := lt_size_of_mem_roots hs
    rw [size_parents_domTree] at hlt
    cases hsb with
    | refl =>
      split at hs
      · simp at hs
      · exact List.mem_singleton.1 hs ▸ reaches_zero (Nat.zero_lt_of_lt hlt)
    | tail _ hb => exact reaches_of_parent?_domTree hg (mem_children_domTree_iff.1 hb).2
  · intro hb
    have hne : ¬ g.domTree.parents.isEmpty := by
      rw [Array.isEmpty_iff_size_eq_zero, size_parents_domTree]
      exact Nat.ne_of_gt (Nat.zero_lt_of_lt hb.lt_size)
    refine ⟨0, by simp [hne], ?_⟩
    have hup := (dominates_iff_reflTransGen hg hb).1 (zero_dominates g b)
    have hdown : ∀ x y, g.domTree.parent? y = some x → Walk.Edge g.domTree.children x y :=
      fun x y hyx => mem_children_domTree_iff.2 ⟨lt_size_of_parent?_domTree hyx, hyx⟩
    exact Relation.ReflTransGen.mono hdown 0 b hup.swap

theorem nodup_postOrder_domTree (g : Cfg) : g.domTree.postOrder.Nodup :=
  Walk.nodup_postOrder_fromAll (fun _ _ => lt_size_of_mem_children) (fun _ => lt_size_of_mem_roots)

theorem properlyDominates_of_transGen (hg : g.Closed)
    (h : Relation.TransGen (Walk.Edge g.domTree.children) a b) : g.ProperlyDominates a b := by
  have hedge : ∀ {x y : Nat}, Walk.Edge g.domTree.children x y →
      g.Reaches y ∧ g.ProperlyDominates x y := by
    intro x y hxy
    have hparent := (mem_children_domTree_iff.1 hxy).2
    have hy := reaches_of_parent?_domTree hg hparent
    exact ⟨hy, (nearest_of_parent?_domTree hg hy hparent).1⟩
  induction h with
  | single hab => exact (hedge hab).2
  | @tail c d _ hcd ih =>
    obtain ⟨hd, hcd⟩ := hedge hcd
    refine ⟨ih.1.trans hcd.1, ?_⟩
    rintro rfl
    exact hcd.2 (hcd.1.antisymm ih.1 (hcd.1.reaches hd))

theorem transGen_of_properlyDominates (hg : g.Closed) (hb : g.Reaches b)
    (h : g.ProperlyDominates a b) : Relation.TransGen (Walk.Edge g.domTree.children) a b := by
  have hup := (dominates_iff_reflTransGen hg hb).1 h.1
  have hdown := Relation.ReflTransGen.mono (fun x y hyx =>
    mem_children_domTree_iff.2 ⟨lt_size_of_parent?_domTree hyx, hyx⟩) a b hup.swap
  exact (Relation.reflTransGen_iff_eq_or_transGen.1 hdown).resolve_left h.2.symm

/-- In the postorder of the tree a block stands after the blocks that it dominates. -/
theorem pairwise_postOrder_domTree (hg : g.Closed) :
    g.domTree.postOrder.Pairwise fun a b => ¬ g.ProperlyDominates a b := by
  have hpair : g.domTree.postOrder.Pairwise fun a b =>
      ¬ Relation.TransGen (Walk.Edge g.domTree.children) a b := by
    rw [DomTree.postOrder, Walk.postOrder, List.pairwise_reverse]
    exact (Walk.fromAll_postordered (fun _ _ => lt_size_of_mem_children)
      fun _ => lt_size_of_mem_roots).pairwise
        (fun u hu => (properlyDominates_of_transGen hg hu).2 rfl)
        (List.nodup_reverse.1 (nodup_postOrder_domTree g))
  refine hpair.imp_of_mem fun _ hb hab hdom => hab ?_
  exact transGen_of_properlyDominates hg ((mem_postOrder_domTree_iff hg).1 hb) hdom

/-! ## The postorder of the graph -/

/-- The walk has come to the blocks that it has entered on paths through such blocks. -/
def Rooted (g : Cfg) (w : Walk) : Prop :=
  ∀ v ∈ w.entered, ∃ p, g.Path 0 v p ∧ ∀ x ∈ p, x ∈ w.entered

/-- A path to the block passes no other blocks than those that the walk has entered. -/
def Approaches (g : Cfg) (w : Walk) (u : Nat) : Prop :=
  ∃ p, g.Path 0 u p ∧ ∀ x ∈ p, x ∈ w.entered ∨ x = u

/-- Blocks that were left, the latest first: all that a block properly dominates was left before
it. -/
inductive LeftAbove (g : Cfg) : List Nat → Prop
  | nil : LeftAbove g []
  | cons {u : Nat} {left : List Nat}
      (hbelow : ∀ v, g.Reaches v → g.ProperlyDominates u v → v ∈ left)
      (rest : LeftAbove g left) : LeftAbove g (u :: left)

theorem Rooted.enter {w : Walk} {u : Nat} (h : g.Rooted w) (hu : g.Approaches w u) :
    g.Rooted { w with entered := u :: w.entered } := by
  intro v hv
  rcases List.mem_cons.1 hv with rfl | hv
  · obtain ⟨p, hp, hsub⟩ := hu
    refine ⟨p, hp, fun x hx => ?_⟩
    exact (hsub x hx).elim (List.mem_cons_of_mem v) fun heq => heq ▸ List.mem_cons_self
  · obtain ⟨p, hp, hsub⟩ := h v hv
    exact ⟨p, hp, fun x hx => List.mem_cons_of_mem u (hsub x hx)⟩

theorem Rooted.approaches (hg : g.Closed) {w : Walk} {u v : Nat} (h : g.Rooted w)
    (hu : u ∈ w.entered) (huv : v ∈ g.successors u) : g.Approaches w v := by
  obtain ⟨p, hp, hsub⟩ := h u hu
  obtain ⟨r, hr, hr'⟩ := hp.snoc hg huv
  exact ⟨r, hr, fun x hx => (hr' x hx).imp_left (hsub x)⟩

theorem Approaches.mono {w w' : Walk} {u : Nat} (h : g.Approaches w u)
    (hsub : ∀ v ∈ w.entered, v ∈ w'.entered) : g.Approaches w' u := by
  obtain ⟨p, hp, hp'⟩ := h
  exact ⟨p, hp, fun x hx => (hp' x hx).imp_left (hsub x)⟩

/-- No block that `u` dominates was entered before `u`. -/
theorem Rooted.not_mem {w : Walk} {u v : Nat} (h : g.Rooted w) (hnew : u ∉ w.entered)
    (hdom : g.Dominates u v) : v ∉ w.entered := by
  intro hv
  obtain ⟨p, hp, hsub⟩ := h v hv
  exact hnew (hsub u (hdom p hp))

/-- A block from which a path around `u` leads to a block that `u` dominates is dominated, too. -/
theorem Dominates.of_path {u v : Nat} {q : List Nat} (hdom : g.Dominates u v) (hq : g.Path a v q)
    (hnot : u ∉ q) : g.Dominates u a := by
  intro r hr
  obtain ⟨s, hs, hsub⟩ := hr.append hq
  exact (hsub u (hdom s hs)).resolve_right hnot

section Below

variable {w below : Walk} {u v : Nat}

/-- What `u` dominates is entered while the walk is below `u`. -/
theorem mem_entered_below (hrooted : g.Rooted w) (hnew : u ∉ w.entered)
    (hbelow : Walk.Explores g.successors g.size (g.successors u)
      { w with entered := u :: w.entered } below)
    (hdom : g.Dominates u v) {q : List Nat} (hq : g.Path a v q) (hnot : u ∉ q)
    (ha : a ∈ below.entered) : v ∈ below.entered := by
  induction hq with
  | here _ => exact ha
  | @step a b c q hab rest ih =>
    have hau : a ≠ u := fun heq => hnot (heq ▸ List.mem_cons_self)
    have hfresh := hrooted.not_mem hnew (hdom.of_path (.step hab rest) hnot)
    refine ih hdom (fun hmem => hnot (List.mem_cons_of_mem a hmem)) ?_
    exact hbelow.closed a ha (by simp [hau, hfresh]) b hab

theorem mem_left_below (hrooted : g.Rooted w) (hnew : u ∉ w.entered)
    (hbelow : Walk.Explores g.successors g.size (g.successors u)
      { w with entered := u :: w.entered } below)
    (hv : g.Reaches v) (hdom : g.ProperlyDominates u v) : v ∈ below.left := by
  obtain ⟨p, hp⟩ := hv
  -- from its last passage of `u` on, a path to `v` passes only blocks that `u` dominates
  obtain ⟨r, hr, hnot, -⟩ := hp.from_last (hdom.1 p hp)
  have hentered : v ∈ below.entered := by
    cases hr with
    | here _ => exact absurd rfl hdom.2
    | step hub rest =>
      exact mem_entered_below hrooted hnew hbelow hdom.1 rest hnot
        (hbelow.sources_entered _ hub)
  have hfresh := hrooted.not_mem hnew hdom.1
  exact (hbelow.left_iff v).2 (.inr ⟨hentered, by simp [hdom.2.symm, hfresh]⟩)

end Below

section Visit

variable (hg : g.Closed)

include hg

theorem visits_explore {depth : Nat} {w : Walk} (hw : w.Tidy g.size)
    (hdepth : g.size < depth + w.entered.length) (sources : List Nat)
    (hs : ∀ s ∈ sources, s < g.size) : Walk.Explores g.successors g.size sources w
      (sources.foldr (fun v w => Walk.visit g.successors depth w v) w) := by
  have hnext : ∀ u v, v ∈ g.successors u → v < g.size := fun _ _ => hg.lt_size
  exact Walk.foldr_visit_explores (Walk.visit_explores hnext depth) w hw hdepth sources hs

theorem foldr_visit_leftAbove {depth : Nat}
    (hvisit : ∀ (w : Walk) (u : Nat), w.Tidy g.size → u < g.size →
      g.size < depth + w.entered.length → g.Rooted w → g.Approaches w u → g.LeftAbove w.left →
      g.Rooted (Walk.visit g.successors depth w u) ∧
        g.LeftAbove (Walk.visit g.successors depth w u).left)
    (w : Walk) (hw : w.Tidy g.size) (hdepth : g.size < depth + w.entered.length)
    (hrooted : g.Rooted w) (hleft : g.LeftAbove w.left) (sources : List Nat)
    (hs : ∀ s ∈ sources, s < g.size) (happroach : ∀ s ∈ sources, g.Approaches w s) :
    g.Rooted (sources.foldr (fun v w => Walk.visit g.successors depth w v) w) ∧
      g.LeftAbove (sources.foldr (fun v w => Walk.visit g.successors depth w v) w).left := by
  induction sources with
  | nil => exact ⟨hrooted, hleft⟩
  | cons s rest ih =>
    have hlt : ∀ v ∈ rest, v < g.size := fun v hv => hs v (List.mem_cons_of_mem s hv)
    have hexplores := visits_explore hg hw hdepth rest hlt
    have hlen := hexplores.length_le hw
    obtain ⟨hrooted', hleft'⟩ := ih hlt fun v hv => happroach v (List.mem_cons_of_mem s hv)
    exact hvisit _ s hexplores.tidy (hs s List.mem_cons_self) (by omega) hrooted'
      ((happroach s List.mem_cons_self).mono hexplores.kept) hleft'

theorem visit_leftAbove (depth : Nat) : ∀ (w : Walk) (u : Nat), w.Tidy g.size → u < g.size →
    g.size < depth + w.entered.length → g.Rooted w → g.Approaches w u → g.LeftAbove w.left →
      g.Rooted (Walk.visit g.successors depth w u) ∧
        g.LeftAbove (Walk.visit g.successors depth w u).left := by
  induction depth with
  | zero => exact fun w u _ _ _ hrooted _ hleft => ⟨hrooted, hleft⟩
  | succ depth ih =>
    intro w u hw hu hdepth hrooted happroach hleft
    rw [Walk.visit]
    by_cases hmem : u ∈ w.entered
    · rw [if_pos (by simpa using hmem)]
      exact ⟨hrooted, hleft⟩
    · rw [if_neg (by simpa using hmem)]
      have hdepth' : g.size < depth + (u :: w.entered).length := by
        simp only [List.length_cons]
        omega
      have hentered := hw.enter hu hmem
      have hrooted' := hrooted.enter happroach
      have hexplores := visits_explore hg hentered hdepth' (g.successors u) fun _ => hg.lt_size
      obtain ⟨hbelow, hleft'⟩ := foldr_visit_leftAbove hg ih _ hentered hdepth' hrooted' hleft
        (g.successors u) (fun _ => hg.lt_size)
        fun s hs => hrooted'.approaches hg List.mem_cons_self hs
      exact ⟨hbelow, .cons (fun v => mem_left_below hrooted hmem hexplores) hleft'⟩

end Visit

theorem LeftAbove.mem {left : List Nat} (h : g.LeftAbove left) (ha : a ∈ left) (hb : g.Reaches b)
    (hab : g.ProperlyDominates a b) : b ∈ left := by
  induction h with
  | nil => cases ha
  | @cons u left hbelow _ ih =>
    rcases List.mem_cons.1 ha with rfl | ha
    · exact List.mem_cons_of_mem a (hbelow b hb hab)
    · exact List.mem_cons_of_mem u (ih ha)

/-- In the postorder of the graph, too, a block stands after the blocks that it properly
dominates. -/
theorem pairwise_postOrder (hg : g.Closed) :
    g.postOrder.Pairwise fun a b => ¬ g.ProperlyDominates a b := by
  have hentry : ∀ s ∈ g.entry, g.Approaches {} s := by
    intro s hs
    have hlt := lt_size_of_mem_entry hs
    obtain rfl : s = 0 := by
      rw [entry] at hs
      split at hs
      · cases hs
      · exact List.mem_singleton.1 hs
    exact ⟨[0], .here hlt, by simp⟩
  have hleft : g.LeftAbove g.walk.left :=
    (foldr_visit_leftAbove hg (visit_leftAbove hg (g.size + 1)) {} Walk.tidy_empty (by simp)
      (by simp [Rooted]) .nil g.entry (fun _ => lt_size_of_mem_entry) hentry).2
  have hnodup : g.walk.left.Nodup := List.nodup_reverse.1 (nodup_postOrder hg)
  have hreach : ∀ v ∈ g.walk.left, g.Reaches v :=
    fun v hv => (mem_postOrder_iff hg).1 (List.mem_reverse.2 hv)
  rw [postOrder, Walk.postOrder, List.pairwise_reverse]
  generalize g.walk.left = left at hleft hnodup hreach
  induction hleft with
  | nil => exact .nil
  | @cons u left _ rest ih =>
    obtain ⟨hnew, hnodup⟩ := List.nodup_cons.1 hnodup
    refine .cons (fun v hv hvu => ?_) (ih hnodup fun v hv => hreach v (List.mem_cons_of_mem u hv))
    exact hnew (rest.mem hv (hreach u List.mem_cons_self) hvu)

end Cfg

/-! ## Functions -/

/-- The dominator tree of a function means dominance on paths. A block is reachable if a path
from block 0 leads to it. Its dominators are the blocks on all these paths, or the block alone if
there is no path. Its parent is its one proper dominator that all its proper dominators dominate;
only block 0 and blocks that are not reached have none. The way up from parent to parent, and the
question whether there is a parent at all, give the same answers. -/
theorem domTree_iff_paths (f : Function) (a b : Nat) (hb : b < f.blocks.size) :
    (f.cfg.domTree.isReachable b = true ↔ f.cfg.Reaches b) ∧
    (f.cfg.Reaches b → (f.cfg.domTree.dominates a b = true ↔ f.cfg.Dominates a b)) ∧
    (¬ f.cfg.Reaches b → (f.cfg.domTree.dominates a b = true ↔ a = b)) ∧
    (b = 0 ∨ ¬ f.cfg.Reaches b → f.cfg.domTree.parent? b = none) ∧
    (b ≠ 0 → f.cfg.Reaches b → ∃ d, f.cfg.domTree.parent? b = some d ∧
      f.cfg.ProperlyDominates d b ∧
      (∀ c, f.cfg.ProperlyDominates c b → f.cfg.Dominates c d) ∧
      ∀ e, f.cfg.ProperlyDominates e b →
        (∀ c, f.cfg.ProperlyDominates c b → f.cfg.Dominates c e) → e = d) ∧
    f.cfg.domTree.climbsTo a b = .ok (f.cfg.domTree.dominates a b) ∧
    f.cfg.domTree.isRooted b = f.cfg.domTree.isReachable b := by
  have hg := f.closed_cfg
  have hlt : b < f.cfg.size := f.size_cfg ▸ hb
  refine ⟨Cfg.isReachable_domTree_iff hg, Cfg.dominates_domTree_iff hg,
    Cfg.dominates_domTree_of_not_reaches hg hlt, Cfg.parent?_domTree_eq_none hg hlt, ?_,
    Cfg.climbsTo_domTree hg hlt a, Cfg.isRooted_domTree hg hlt⟩
  intro hb0 hreach
  obtain ⟨d, hd⟩ := Cfg.exists_parent?_domTree hg hreach hb0
  obtain ⟨hdb, hall⟩ := Cfg.nearest_of_parent?_domTree hg hreach hd
  exact ⟨d, hd, hdb, hall, fun e he heall => Cfg.nearest_unique hreach hdb hall he heall⟩

/-- Two ways from block 0 to block 3, and a block 4 that nothing leads to. -/
def diamond : Function where
  name := "diamond"
  blocks := #[⟨"entry", [0]⟩, ⟨"left", [1]⟩, ⟨"right", [2]⟩, ⟨"join", [3]⟩, ⟨"dead", [4]⟩]
  instructions := #[
    ⟨0, .void, none, .branchIf (.int 1) 1 2⟩,
    ⟨1, .void, none, .branch 3⟩,
    ⟨2, .void, none, .branch 3⟩,
    ⟨3, .void, none, .ret none⟩,
    ⟨4, .void, none, .branch 3⟩]

theorem diamond_paths : diamond.cfg.Reaches 3 ∧ ¬ diamond.cfg.Dominates 1 3 ∧
    ¬ diamond.cfg.Reaches 4 ∧
    ∀ d, diamond.cfg.ProperlyDominates d 3 → diamond.cfg.Dominates d 0 := by
  have h3 := domTree_iff_paths diamond 1 3 (by decide)
  have h4 := domTree_iff_paths diamond 1 4 (by decide)
  have hreach : diamond.cfg.Reaches 3 := h3.1.1 (by decide)
  obtain ⟨d, hd, -, hall, -⟩ := h3.2.2.2.2.1 (by decide) hreach
  have hzero : diamond.cfg.domTree.parent? 3 = some 0 := by decide
  obtain rfl : 0 = d := Option.some.inj (hzero.symm.trans hd)
  refine ⟨hreach, fun h => ?_, fun h => ?_, hall⟩
  · exact absurd ((h3.2.1 hreach).2 h) (by decide)
  · exact absurd (h4.1.2 h) (by decide)

end GridAccess
