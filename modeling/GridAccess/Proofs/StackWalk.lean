import GridAccess.Proofs.Dominance

set_option autoImplicit false

/-!
# Depth-first walks with a stack

A walk can keep the vertices it still has to look at on a stack (`StackWalk`). A vertex on top that
was not discovered is marked, stays where it is, and gets its undiscovered neighbours put on top of
it; one that was discovered is taken off, and given out unless it was finished before. A vertex may
stand on the stack several times: neighbours are marked when they come to the top and not when they
are put there.

Such a walk gives out the vertices in the order in which the recursive walk leaves them
(`gives_postOrder`). While a visit to `u` is under way, the stack above `u` holds vertices that were
not discovered when `u` was; of these, the ones discovered since then have been finished
(`foldr_visit_follows`). So no vertex is given out through a second copy before its neighbours are
done, and the copies left over are dropped.

For the tree of dominators this is the order in which loops are found: a block comes after all
blocks that it dominates.
-/

namespace GridAccess

/-- A depth-first walk: the vertices to be looked at, the top of the stack first, and the vertices
discovered and finished so far, the latest first. -/
structure StackWalk where
  stack : List Nat
  discovered : List Nat := []
  finished : List Nat := []
deriving DecidableEq, Repr

namespace StackWalk

/-- One look at the top of the stack: the vertex that it gives out, if it does, and what follows.
There is none when the stack is empty. -/
def look (next : Nat → List Nat) (s : StackWalk) : Option (Option Nat × StackWalk) :=
  match s.stack with
  | [] => none
  | u :: rest =>
    if s.discovered.contains u then
      if s.finished.contains u then some (none, { s with stack := rest })
      else some (some u, { s with stack := rest, finished := u :: s.finished })
    else
      let discovered := u :: s.discovered
      let fresh := (next u).filter fun v => !discovered.contains v
      -- the neighbours are put on the stack one by one, so that the last is on top
      some (none, { s with stack := fresh.reverse ++ s.stack, discovered := discovered })

/-- Some looks in a row, with the vertices that they give out. -/
inductive Runs (next : Nat → List Nat) : StackWalk → List Nat → StackWalk → Prop
  | refl (s : StackWalk) : Runs next s [] s
  | pass {s t r : StackWalk} {vs : List Nat} (hlook : s.look next = some (none, t))
      (rest : Runs next t vs r) : Runs next s vs r
  | give {s t r : StackWalk} {v : Nat} {vs : List Nat} (hlook : s.look next = some (some v, t))
      (rest : Runs next t vs r) : Runs next s (v :: vs) r

/-- The walk gives out these vertices, one after the other, and then comes to its end. -/
def Gives (next : Nat → List Nat) (s : StackWalk) (vs : List Nat) : Prop :=
  ∃ t, Runs next s vs t ∧ t.stack = []

variable {next : Nat → List Nat} {s t r : StackWalk} {vs ws : List Nat}

theorem Runs.trans (h : Runs next s vs t) (h' : Runs next t ws r) :
    Runs next s (vs ++ ws) r := by
  induction h with
  | refl s => exact h'
  | pass hlook _ ih => exact .pass hlook (ih h')
  | give hlook _ ih => exact .give hlook (ih h')

theorem look_eq_none_iff : s.look next = none ↔ s.stack = [] := by
  rw [look]
  split
  · simp_all
  · rename_i hstack
    simp only [hstack, reduceCtorEq, iff_false]
    split
    · split <;> simp
    · simp

/-- What a walk gives out is determined. -/
theorem Gives.unique (h : Gives next s vs) (h' : Gives next s ws) : vs = ws := by
  obtain ⟨t, hrun, ht⟩ := h
  obtain ⟨t', hrun', ht'⟩ := h'
  -- there is one way to look at the top, so two runs that come to their ends are the same
  induction hrun generalizing ws with
  | refl s =>
    have hend : s.look next = none := look_eq_none_iff.2 ht
    cases hrun' with
    | refl => rfl
    | pass hlook _ | give hlook _ => exact absurd (hend.symm.trans hlook) (by simp)
  | pass hlook _ ih =>
    cases hrun' with
    | refl => exact absurd ((look_eq_none_iff.2 ht').symm.trans hlook) (by simp)
    | pass hlook' rest' =>
      obtain ⟨-, rfl⟩ := Prod.mk.inj (Option.some.inj (hlook.symm.trans hlook'))
      exact ih ht rest'
    | give hlook' _ => exact absurd (hlook.symm.trans hlook') (by simp)
  | give hlook _ ih =>
    cases hrun' with
    | refl => exact absurd ((look_eq_none_iff.2 ht').symm.trans hlook) (by simp)
    | pass hlook' _ => exact absurd (hlook.symm.trans hlook') (by simp)
    | give hlook' rest' =>
      obtain ⟨hv, rfl⟩ := Prod.mk.inj (Option.some.inj (hlook.symm.trans hlook'))
      rw [Option.some.inj hv, ih ht rest']

end StackWalk

namespace Walk

open StackWalk

/-- The vertices that a recursive walk has entered and left, with a stack. -/
def withStack (w : Walk) (stack : List Nat) : StackWalk := ⟨stack, w.entered, w.left⟩

/-- From the one walk and stack, the walk with a stack comes to the other ones. On the way it gives
out what is left. -/
def Follows (next : Nat → List Nat) (stack : List Nat) (w : Walk) (stack' : List Nat) (w' : Walk) :
    Prop :=
  ∃ vs, Runs next (w.withStack stack) vs (w'.withStack stack') ∧ w'.left = vs.reverse ++ w.left

variable {next : Nat → List Nat} {size u : Nat} {stack rest stack' stack'' : List Nat}
variable {w w' w'' : Walk}

theorem Follows.refl : Follows next stack w stack w := ⟨[], .refl _, rfl⟩

theorem Follows.trans (h : Follows next stack w stack' w')
    (h' : Follows next stack' w' stack'' w'') : Follows next stack w stack'' w'' := by
  obtain ⟨vs, hrun, hleft⟩ := h
  obtain ⟨ws, hrun', hleft'⟩ := h'
  refine ⟨vs ++ ws, hrun.trans hrun', ?_⟩
  rw [hleft', hleft, List.reverse_append, List.append_assoc]

/-- A copy of a vertex that was left is dropped. -/
theorem follows_drop (hentered : u ∈ w.entered) (hleft : u ∈ w.left) :
    Follows next (u :: rest) w rest w := by
  refine ⟨[], .pass ?_ (.refl _), rfl⟩
  simp [look, withStack, hentered, hleft]

/-- A vertex that was entered and not left is left. -/
theorem follows_leave (hentered : u ∈ w.entered) (hleft : u ∉ w.left) :
    Follows next (u :: rest) w rest { w with left := u :: w.left } := by
  refine ⟨[u], .give ?_ (.refl _), rfl⟩
  simp [look, withStack, hentered, hleft]

/-- A vertex that was not entered is entered, and its neighbours come on top of it. -/
theorem follows_enter (hnew : u ∉ w.entered) :
    Follows next (u :: rest) w
      (((next u).filter fun v => !(u :: w.entered).contains v).reverse ++ u :: rest)
      { w with entered := u :: w.entered } := by
  refine ⟨[], .pass ?_ (.refl _), rfl⟩
  simp [look, withStack, hnew]

theorem visit_of_mem {depth : Nat} (h : u ∈ w.entered) : visit next depth w u = w := by
  cases depth with
  | zero => rfl
  | succ depth => rw [visit, if_pos (by simpa using h)]

section Bounded

variable (hnext : ∀ u v, v ∈ next u → v < size)

include hnext

/-- The stack holds those of the vertices still to be visited that had not been entered in `w`, the
last on top. Visiting all of them from the last to the first does the same. -/
theorem foldr_visit_follows {depth : Nat}
    (hvisit : ∀ (w : Walk) (u : Nat) (rest : List Nat), w.Tidy size → u < size →
      size < depth + w.entered.length → (u ∈ w.entered → u ∈ w.left) →
      Follows next (u :: rest) w rest (visit next depth w u))
    (hw : w.Tidy size) (hdepth : size < depth + w.entered.length) (sources : List Nat)
    (hs : ∀ s ∈ sources, s < size) (rest : List Nat) :
    Follows next ((sources.filter fun v => !w.entered.contains v).reverse ++ rest) w rest
      (sources.foldr (fun v w => visit next depth w v) w) := by
  induction sources generalizing rest with
  | nil => exact .refl
  | cons s sources ih =>
    have hlt : ∀ v ∈ sources, v < size := fun v hv => hs v (List.mem_cons_of_mem s hv)
    have hexplores := foldr_visit_explores (visit_explores hnext depth) w hw hdepth sources hlt
    have hlen := hexplores.length_le hw
    by_cases hmem : s ∈ w.entered
    · -- it was entered before and is not on the stack; a visit does nothing
      rw [List.filter_cons_of_neg (by simpa using hmem), List.foldr_cons,
        visit_of_mem (hexplores.kept s hmem)]
      exact ih hlt rest
    · rw [List.filter_cons_of_pos (by simpa using hmem), List.reverse_cons, List.append_assoc]
      refine (ih hlt (s :: rest)).trans ?_
      refine hvisit _ s rest hexplores.tidy (hs s List.mem_cons_self) (by omega) fun hentered => ?_
      -- entered since then, and all that was entered since then has been left
      exact (hexplores.left_iff s).2 (Or.inr ⟨hentered, hmem⟩)

/-- The walk with a stack does what a visit does to the vertex on top, unless that vertex is still
open. -/
theorem visit_follows (depth : Nat) : ∀ (w : Walk) (u : Nat) (rest : List Nat), w.Tidy size →
    u < size → size < depth + w.entered.length → (u ∈ w.entered → u ∈ w.left) →
      Follows next (u :: rest) w rest (visit next depth w u) := by
  induction depth with
  | zero =>
    -- with no depth left all vertices have been entered, which the depth excludes
    intro w u rest hw _ hdepth _
    have := hw.length_le
    omega
  | succ depth ih =>
    intro w u rest hw hu hdepth hleft
    by_cases hmem : u ∈ w.entered
    · rw [visit_of_mem hmem]
      exact follows_drop hmem (hleft hmem)
    · rw [visit, if_neg (by simpa using hmem)]
      have hentered := hw.enter hu hmem
      have hdepth' : size < depth + (u :: w.entered).length := by
        simp only [List.length_cons]
        omega
      have hexplores := foldr_visit_explores (visit_explores hnext depth) _ hentered hdepth'
        (next u) (hnext u)
      have hbelow := foldr_visit_follows hnext ih hentered hdepth' (next u) (hnext u) (u :: rest)
      refine (follows_enter hmem).trans (hbelow.trans (follows_leave ?_ ?_))
      · exact hexplores.kept u List.mem_cons_self
      · -- the part below leaves only what it enters
        rw [hexplores.left_iff]
        rintro (hl | ⟨-, hn⟩)
        · exact hmem (hw.left_subset u hl)
        · exact hn List.mem_cons_self

/-- A walk with a stack gives out vertices in the order in which the recursive walk leaves
them. -/
theorem gives_postOrder {root : Nat} (hroot : root < size) :
    Gives next ⟨[root], [], []⟩ (fromAll next size [root]).postOrder := by
  obtain ⟨vs, hrun, hleft⟩ := visit_follows hnext (size + 1) {} root [] tidy_empty hroot (by simp)
    (by simp)
  have hvs : (fromAll next size [root]).postOrder = vs := by
    rw [postOrder, fromAll, List.foldr_cons, List.foldr_nil, hleft]
    simp
  rw [hvs]
  exact ⟨_, hrun, rfl⟩

end Bounded

/-- A walk from one vertex leaves it last. -/
theorem getLast?_postOrder_fromAll (root : Nat) :
    (fromAll next size [root]).postOrder.getLast? = some root := by
  simp [fromAll, visit, postOrder]

end Walk

/-- In the postorder of the tree of dominators a block has its place after those of the blocks that
it properly dominates. -/
theorem Cfg.idxOf_postOrder_lt {g : Cfg} {a b : Nat} (hg : g.Closed) (hb : g.Reaches b)
    (hab : g.ProperlyDominates a b) :
    g.domTree.postOrder.idxOf b < g.domTree.postOrder.idxOf a := by
  have ha : a ∈ g.domTree.postOrder := (mem_postOrder_domTree_iff hg).2 (hab.1.reaches hb)
  have hb' : b ∈ g.domTree.postOrder := (mem_postOrder_domTree_iff hg).2 hb
  by_contra hle
  have hne : g.domTree.postOrder.idxOf a ≠ g.domTree.postOrder.idxOf b := by
    rw [Ne, List.idxOf_inj ha]
    exact hab.2
  have hpair := List.pairwise_iff_getElem.1 (pairwise_postOrder_domTree hg)
    (g.domTree.postOrder.idxOf a) (g.domTree.postOrder.idxOf b) (List.idxOf_lt_length_of_mem ha)
    (List.idxOf_lt_length_of_mem hb') (by omega)
  rw [List.getElem_idxOf, List.getElem_idxOf] at hpair
  exact hpair hab

/-- The blocks of a function that has any, as a walk with a stack over the tree of dominators gives
them out from block 0 on: it comes to an end, and gives out the reached blocks and no others, each
of them once and after all blocks that it properly dominates. So block 0 comes last. -/
theorem dominated_blocks_first (f : Function) (hf : 0 < f.blocks.size) :
    let t := f.cfg.domTree
    (∀ vs, StackWalk.Gives t.children ⟨[0], [], []⟩ vs ↔ vs = t.postOrder) ∧
    (∀ b, b ∈ t.postOrder ↔ f.cfg.Reaches b) ∧ t.postOrder.Nodup ∧
    (∀ a b, f.cfg.Reaches b → f.cfg.ProperlyDominates a b →
      t.postOrder.idxOf b < t.postOrder.idxOf a) ∧
    t.postOrder.getLast? = some 0 := by
  intro t
  have hg := f.closed_cfg
  have hpos : 0 < t.parents.size := by
    rw [Cfg.size_parents_domTree, f.size_cfg]
    exact hf
  have hwalk : t.postOrder = (Walk.fromAll t.children t.parents.size [0]).postOrder := by
    rw [DomTree.postOrder, if_neg]
    rw [Array.isEmpty_iff_size_eq_zero]
    exact hpos.ne'
  have hgives : StackWalk.Gives t.children ⟨[0], [], []⟩ t.postOrder := by
    rw [hwalk]
    exact Walk.gives_postOrder (fun _ _ => Cfg.lt_size_of_mem_children) hpos
  refine ⟨fun vs => ⟨fun h => h.unique hgives, fun h => h ▸ hgives⟩,
    fun b => Cfg.mem_postOrder_domTree_iff hg, f.cfg.nodup_postOrder_domTree, ?_, ?_⟩
  · intro a b hb hab
    exact Cfg.idxOf_postOrder_lt hg hb hab
  · rw [hwalk]
    exact Walk.getLast?_postOrder_fromAll 0

/-- In `diamond` block 0 has three children in the tree, of which the last is visited first. Block 4
is not reached. -/
theorem dominated_blocks_first_diamond :
    StackWalk.Gives diamond.cfg.domTree.children ⟨[0], [], []⟩ [3, 2, 1, 0] ∧
    diamond.cfg.Reaches 3 ∧ ¬ diamond.cfg.Reaches 4 := by
  have horder : diamond.cfg.domTree.postOrder = [3, 2, 1, 0] := by decide
  obtain ⟨hgives, hreaches, -⟩ := dominated_blocks_first diamond (by decide)
  rw [horder] at hgives hreaches
  exact ⟨(hgives _).2 rfl, (hreaches 3).1 (by decide), fun h => absurd ((hreaches 4).2 h) (by decide)⟩

end GridAccess
