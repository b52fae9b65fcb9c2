import GridAccess.Proofs.Drafts
import GridAccess.Proofs.Paths

set_option autoImplicit false

/-!
# Edges written one by one

The edges of a function can be written into two tables, one for the successors and one for the
predecessors of each block: all lists are cleared, and then the targets of the last instruction of
each block are gone through in order. An edge is added at the end of each of its two lists, unless
that list has it already (`Cfg.link`, `Cfg.relink`).

The two lists of an edge are checked apart from each other, so that they are mirrors of each other
only because every step keeps them so (`Neat.addEdge`). After every edge the tables are the graph of
the targets gone through so far (`link_ofTargets`), and in the end they are the graph of the
function, whatever they held before. An edge to a block that is not there cannot be written, and
that is the only reason why a draft cannot be finished (`Draft.relink_function`).
-/

namespace GridAccess

namespace Cfg

/-- The list with one more member at its end, unless it has that member. -/
def addNew (x : Nat) (xs : List Nat) : List Nat := if xs.contains x then xs else xs ++ [x]

/-- The graph with one more edge, in each of the two lists unless it is there. -/
def addEdge (g : Cfg) (b t : Nat) : Cfg :=
  ⟨g.succs.modify b (addNew t), g.preds.modify t (addNew b)⟩

/-- Writes an edge between two blocks of the graph. -/
def link (b : Nat) (g : Cfg) (t : Nat) : Except Fault Cfg :=
  if b < g.succs.size ∧ t < g.preds.size then .ok (g.addEdge b t) else .error .dangling

/-- The same blocks without edges. -/
def clear (g : Cfg) : Cfg := ⟨g.succs.map fun _ => [], g.preds.map fun _ => []⟩

/-- The edges from `size` blocks to their targets, written over those that are there. -/
def relink (size : Nat) (targets : Nat → List Nat) (g : Cfg) : Except Fault Cfg :=
  (List.range size).foldlM (fun g b => (targets b).foldlM (link b) g) g.clear

variable {g : Cfg} {n a b t u : Nat} {targets : Nat → List Nat}

/-! ## Lists without repetitions -/

theorem mem_addNew_iff {x y : Nat} {xs : List Nat} : y ∈ addNew x xs ↔ y ∈ xs ∨ y = x := by
  rw [addNew]
  split
  · rename_i hx
    rw [List.contains_iff_mem] at hx
    exact ⟨Or.inl, fun h => h.elim id fun hyx => hyx ▸ hx⟩
  · rw [List.mem_append, List.mem_singleton]

theorem addNew_eraseDups (x : Nat) (xs : List Nat) :
    addNew x xs.eraseDups = (xs ++ [x]).eraseDups := by
  rw [List.eraseDups_append, addNew]
  by_cases h : x ∈ xs
  · simp [h, List.removeAll]
  · simp [h, List.removeAll, List.eraseDups_cons]

theorem nodup_eraseDups (xs : List Nat) : xs.eraseDups.Nodup := by
  induction xs using List.reverseRecOn with
  | nil => exact List.nodup_nil
  | append_singleton xs x ih =>
    rw [← addNew_eraseDups, addNew]
    split
    · exact ih
    · rename_i hnew
      rw [List.contains_iff_mem] at hnew
      refine List.nodup_append.2 ⟨ih, List.nodup_singleton x, ?_⟩
      rintro y hy z hz rfl
      exact hnew (List.mem_singleton.1 hz ▸ hy)

/-! ## Two tables that mirror each other -/

/-- A graph of `n` blocks whose lists mirror each other, with predecessors in ascending order. -/
structure Neat (n : Nat) (g : Cfg) : Prop where
  size_succs : g.succs.size = n
  size_preds : g.preds.size = n
  closed : g.Closed
  ascending : ∀ b, (g.predecessors b).Pairwise (· < ·)

theorem neat_ofTargets (n : Nat) (targets : Nat → List Nat) : (ofTargets n targets).Neat n where
  size_succs := by simp [ofTargets]
  size_preds := by simp [ofTargets]
  closed := closed_ofTargets n targets
  ascending := pairwise_predecessors_ofTargets n targets

theorem nodup_successors_ofTargets (n : Nat) (targets : Nat → List Nat) (b : Nat) :
    ((ofTargets n targets).successors b).Nodup := by
  by_cases hb : b < n
  · rw [successors_ofTargets n targets hb]
    exact nodup_eraseDups _
  · rw [successors, Array.getElem?_eq_none (by simpa [ofTargets] using hb)]
    exact List.nodup_nil

/-- The successors of a neat graph say what its predecessors are. -/
theorem Neat.ext {g' : Cfg} (h : g.Neat n) (h' : g'.Neat n)
    (hs : ∀ b < n, g.successors b = g'.successors b) : g = g' := by
  have hsuccs : g.succs = g'.succs := by
    refine Array.ext (h.size_succs.trans h'.size_succs.symm) fun b hb hb' => ?_
    simpa [successors, hb, hb'] using hs b (h.size_succs ▸ hb)
  have hsuccessors : ∀ b, g.successors b = g'.successors b := fun b => by
    rw [successors, successors, hsuccs]
  have hpreds : g.preds = g'.preds := by
    refine Array.ext (h.size_preds.trans h'.size_preds.symm) fun b hb hb' => ?_
    -- ascending lists with the same members are the same
    have hlists : g.predecessors b = g'.predecessors b := by
      refine (h.ascending b).eq_of_mem_iff (h'.ascending b) fun a => ?_
      rw [h.closed.mem_predecessors_iff, h'.closed.mem_predecessors_iff, hsuccessors]
    simpa [predecessors, hb, hb'] using hlists
  cases g
  cases g'
  rw [Cfg.mk.injEq]
  exact ⟨hsuccs, hpreds⟩

/-! ## One more edge -/

theorem successors_addEdge (hb : b < g.succs.size) (t : Nat) :
    (g.addEdge b t).successors a = if a = b then addNew t (g.successors a) else g.successors a := by
  rw [successors, addEdge, Array.getElem?_modify]
  by_cases hab : a = b
  · subst hab
    simp [successors, hb]
  · rw [if_neg (Ne.symm hab), if_neg hab, successors]

theorem predecessors_addEdge (b : Nat) (ht : t < g.preds.size) :
    (g.addEdge b t).predecessors u =
      if u = t then addNew b (g.predecessors u) else g.predecessors u := by
  rw [predecessors, addEdge, Array.getElem?_modify]
  by_cases hut : u = t
  · subst hut
    simp [predecessors, ht]
  · rw [if_neg (Ne.symm hut), if_neg hut, predecessors]

theorem mem_successors_addEdge_iff (hb : b < g.succs.size) :
    u ∈ (g.addEdge b t).successors a ↔ u ∈ g.successors a ∨ (a = b ∧ u = t) := by
  rw [successors_addEdge hb]
  split
  · rename_i hab
    simp [mem_addNew_iff, hab]
  · rename_i hab
    simp [hab]

theorem mem_predecessors_addEdge_iff (ht : t < g.preds.size) :
    a ∈ (g.addEdge b t).predecessors u ↔ a ∈ g.predecessors u ∨ (a = b ∧ u = t) := by
  rw [predecessors_addEdge b ht]
  split
  · rename_i hut
    simp [mem_addNew_iff, hut]
  · rename_i hut
    simp [hut]

/-- An edge from the last block that has edges keeps the graph neat. -/
theorem Neat.addEdge (h : g.Neat n) (hb : b < n) (ht : t < n)
    (hlast : ∀ c, b < c → g.successors c = []) : (g.addEdge b t).Neat n := by
  have hbs : b < g.succs.size := h.size_succs.symm ▸ hb
  have htp : t < g.preds.size := h.size_preds.symm ▸ ht
  have hsize : (g.addEdge b t).succs.size = n := by simpa [Cfg.addEdge] using h.size_succs
  refine ⟨hsize, by simpa [Cfg.addEdge] using h.size_preds, ⟨?_, ?_⟩, ?_⟩
  · intro a u hu
    rw [size, hsize]
    rcases (mem_successors_addEdge_iff hbs).1 hu with hu | ⟨-, rfl⟩
    · exact h.size_succs ▸ h.closed.lt_size hu
    · exact ht
  · -- each list gets the edge exactly if it lacks it, so both have it afterwards
    intro a u
    rw [mem_predecessors_addEdge_iff htp, mem_successors_addEdge_iff hbs,
      h.closed.mem_predecessors_iff]
  · intro u
    rw [predecessors_addEdge b htp]
    split
    · rw [addNew]
      split
      · exact h.ascending u
      · -- the predecessors so far have edges and are other blocks, so they come before `b`
        rename_i hnew
        refine List.pairwise_append.2 ⟨h.ascending u, List.pairwise_singleton _ _, ?_⟩
        intro a ha c hc
        obtain rfl := List.mem_singleton.1 hc
        have hedge := h.closed.mem_predecessors_iff.1 ha
        have hle : ¬ c < a := fun hlt => by simp [hlast a hlt] at hedge
        have hne : a ≠ c := by
          rintro rfl
          exact hnew (List.contains_iff_mem.2 ha)
        omega
    · exact h.ascending u

/-! ## All edges -/

/-- Writing an edge is going through one more target of the last block that has any. -/
theorem link_ofTargets (hb : b < n) (hlast : ∀ c, b < c → targets c = []) (t : Nat) :
    link b (ofTargets n targets) t = if t < n then
      .ok (ofTargets n (Function.update targets b (targets b ++ [t]))) else .error .dangling := by
  have hneat := neat_ofTargets n targets
  rw [link, hneat.size_succs, hneat.size_preds]
  by_cases ht : t < n
  · rw [if_pos ⟨hb, ht⟩, if_pos ht]
    have hempty : ∀ c, b < c → (ofTargets n targets).successors c = [] := by
      intro c hc
      refine List.eq_nil_iff_forall_not_mem.2 fun u hu => ?_
      simp [mem_successors_ofTargets_iff, hlast c hc] at hu
    refine congrArg _ ((hneat.addEdge hb ht hempty).ext (neat_ofTargets _ _) fun a ha => ?_)
    rw [successors_addEdge (hneat.size_succs.symm ▸ hb), successors_ofTargets _ _ ha,
      successors_ofTargets _ _ ha]
    by_cases hab : a = b
    · subst hab
      rw [if_pos rfl, addNew_eraseDups, Function.update_self, List.filter_append]
      simp [ht]
    · rw [if_neg hab, Function.update_of_ne hab]
  · rw [if_neg (fun h => ht h.2), if_neg ht]

/-- Writing some edges of one block. -/
theorem foldlM_link_ofTargets (hb : b < n) (hlast : ∀ c, b < c → targets c = []) (ts : List Nat) :
    ts.foldlM (link b) (ofTargets n targets) = if ts.all (· < n) then
      .ok (ofTargets n (Function.update targets b (targets b ++ ts))) else .error .dangling := by
  induction ts generalizing targets with
  | nil => simp [pure, Except.pure]
  | cons t ts ih =>
    rw [List.foldlM_cons, link_ofTargets hb hlast]
    by_cases ht : t < n
    · rw [if_pos ht, ok_bind, ih fun c hc => by rw [Function.update_of_ne hc.ne', hlast c hc]]
      simp [ht]
    · rw [if_neg ht, error_bind]
      simp [ht]

/-- The targets of the blocks before `k`. -/
def targetsBefore (targets : Nat → List Nat) (k b : Nat) : List Nat :=
  if b < k then targets b else []

theorem update_targetsBefore (targets : Nat → List Nat) (k : Nat) :
    Function.update (targetsBefore targets k) k (targetsBefore targets k k ++ targets k) =
      targetsBefore targets (k + 1) := by
  funext b
  by_cases hbk : b = k
  · subst hbk
    simp [targetsBefore]
  · have hiff : b < k ↔ b < k + 1 := by omega
    rw [Function.update_of_ne hbk, targetsBefore, targetsBefore, if_congr hiff rfl rfl]

/-- Writing the edges of the blocks before `k`. -/
theorem foldlM_relink {k : Nat} (hk : k ≤ n) :
    (List.range k).foldlM (fun g b => (targets b).foldlM (link b) g) (ofTargets n fun _ => []) =
      if (List.range k).all fun b => (targets b).all (· < n) then
        .ok (ofTargets n (targetsBefore targets k)) else .error .dangling := by
  induction k with
  | zero => rfl
  | succ k ih =>
    -- the blocks after `k` have no edges yet, so that the edges of block `k` come last
    have hlast : ∀ c, k < c → targetsBefore targets k c = [] := fun c hc => by
      rw [targetsBefore, if_neg (by omega)]
    have hblock := foldlM_link_ofTargets (show k < n by omega) hlast (targets k)
    rw [update_targetsBefore] at hblock
    rw [List.range_succ, List.foldlM_append, ih (by omega), List.all_append]
    by_cases hall : ((List.range k).all fun b => (targets b).all (· < n)) = true
    · rw [if_pos hall, ok_bind, List.foldlM_cons, hblock, hall]
      by_cases hts : (targets k).all (· < n) = true
      · simp [hts]
      · simp [hts]
    · rw [if_neg hall, error_bind]
      simp [hall]

theorem neat_clear (hsuccs : g.succs.size = n) (hpreds : g.preds.size = n) : g.clear.Neat n := by
  have hnone : ∀ b, g.clear.successors b = [] ∧ g.clear.predecessors b = [] := by
    intro b
    simp only [successors, predecessors, clear, Array.getElem?_map]
    constructor
    · cases g.succs[b]? <;> rfl
    · cases g.preds[b]? <;> rfl
  refine ⟨by simpa [clear] using hsuccs, by simpa [clear] using hpreds, ⟨?_, ?_⟩, ?_⟩
  · intro a b hab
    simp [(hnone a).1] at hab
  · intro a b
    simp [(hnone a).1, (hnone b).2]
  · intro b
    rw [(hnone b).2]
    exact .nil

/-- Writing all edges gives the graph of the targets, whatever was written before, unless a target
is no block. -/
theorem relink_eq (hsuccs : g.succs.size = n) (hpreds : g.preds.size = n) :
    relink n targets g = if (List.range n).all fun b => (targets b).all (· < n) then
      .ok (ofTargets n targets) else .error .dangling := by
  have hclear : g.clear = ofTargets n fun _ => [] := by
    refine (neat_clear hsuccs hpreds).ext (neat_ofTargets _ _) fun b hb => ?_
    rw [successors_ofTargets _ _ hb, successors, clear, Array.getElem?_map]
    cases g.succs[b]? <;> rfl
  have hall : ofTargets n (targetsBefore targets n) = ofTargets n targets := by
    refine (neat_ofTargets _ _).ext (neat_ofTargets _ _) fun b hb => ?_
    rw [successors_ofTargets _ _ hb, successors_ofTargets _ _ hb, targetsBefore, if_pos hb]
  rw [relink, hclear, foldlM_relink (Nat.le_refl n), hall]

end Cfg

namespace Function

variable {f : Function} {b t : Nat} {op : Operation}

/-- The edges of a function, written over those that are there. -/
def relink (f : Function) (g : Cfg) : Except Fault Cfg := g.relink f.blocks.size f.targetsOf

/-- The last instruction that a block lists does this. -/
def ClosesWith (f : Function) (b : Nat) (op : Operation) : Prop :=
  ∃ block i inst, f.blocks[b]? = some block ∧ block.instructions.getLast? = some i ∧
    f.instructions[i]? = some inst ∧ inst.operation = op

theorem ClosesWith.targetsOf_eq (h : f.ClosesWith b op) : f.targetsOf b = op.targets := by
  obtain ⟨block, i, inst, hblock, hlast, hinst, rfl⟩ := h
  have hend : f.terminator? b =
      if inst.operation.isTerminator then some inst.operation else none := by
    simp [terminator?, hblock, hlast, hinst]
  rw [targetsOf, hend]
  -- what does not end a block has no targets
  cases inst.operation <;> rfl

/-- Control goes from the end of a block to the targets of its last instruction. -/
theorem mem_targetsOf_iff : t ∈ f.targetsOf b ↔ ∃ op, f.ClosesWith b op ∧ t ∈ op.targets := by
  constructor
  · intro ht
    rw [targetsOf] at ht
    split at ht
    · rename_i op hop
      simp only [terminator?, Option.bind_eq_bind, Option.bind_eq_some_iff] at hop
      obtain ⟨block, hblock, i, hlast, inst, hinst, hop⟩ := hop
      split at hop
      · obtain rfl := Option.some.inj hop
        exact ⟨_, ⟨block, i, inst, hblock, hlast, hinst, rfl⟩, ht⟩
      · cases hop
    · cases ht
  · rintro ⟨op, hop, ht⟩
    rwa [hop.targetsOf_eq]

theorem ClosesWith.lt_size (h : f.ClosesWith b op) : b < f.blocks.size := by
  obtain ⟨block, _, _, hblock, -⟩ := h
  exact (Array.getElem?_eq_some_iff.1 hblock).1

end Function

namespace Draft

variable {d : Draft} {f : Function}

/-- A draft can be finished if its edges can be written, and that gives the graph of the finished
function. -/
theorem relink_function (d : Draft) {g : Cfg} (hsuccs : g.succs.size = d.function.blocks.size)
    (hpreds : g.preds.size = d.function.blocks.size) :
    d.function.relink g = Function.cfg <$> d.finish := by
  rw [Function.relink, Cfg.relink_eq hsuccs hpreds, finish]
  split <;> rfl

theorem lt_size_of_finish {b t : Nat} (h : d.finish = .ok f) (hb : b < f.blocks.size)
    (ht : t ∈ f.targetsOf b) : t < f.blocks.size := by
  obtain rfl := eq_of_finish h
  rw [finish] at h
  split at h
  · rename_i hall
    simp only [List.all_eq_true, decide_eq_true_eq] at hall
    exact hall b (List.mem_range.2 hb) t ht
  · cases h

end Draft

/-- The edges of a function that was built step by step and finished mirror the last instructions of
its blocks. A block is a successor of another, and the other its predecessor, if the last
instruction of the other is a branch to it. Successors stand there once, the true target before the
false one, and predecessors in ascending order. Every instruction is listed once, by the block that
it belongs to, and every block lists its instructions in ascending order. Writing the edges over any
others gives them again; so writing them a second time changes nothing. -/
theorem edges_mirror_branches {d : Draft} {f : Function} (hd : d.Made) (hf : d.finish = .ok f) :
    (∀ b t, (t ∈ f.cfg.successors b ↔ ∃ op, f.ClosesWith b op ∧ t ∈ op.targets) ∧
      (b ∈ f.cfg.predecessors t ↔ ∃ op, f.ClosesWith b op ∧ t ∈ op.targets)) ∧
    (∀ b, (f.cfg.successors b).Nodup ∧ (f.cfg.predecessors b).Pairwise (· < ·)) ∧
    (∀ b c t u, f.ClosesWith b (.branchIf c t u) →
      f.cfg.successors b = if t = u then [t] else [t, u]) ∧
    (∀ i, (f.blocks.toList.flatMap Block.instructions).count i =
      if i < f.instructions.size then 1 else 0) ∧
    (∀ (i : Nat) (inst : Instruction), f.instructions[i]? = some inst →
      ∃ block : Block, f.blocks[inst.parent]? = some block ∧ i ∈ block.instructions) ∧
    f.Ordered ∧
    (∀ g : Cfg, g.succs.size = f.blocks.size → g.preds.size = f.blocks.size →
      f.relink g = .ok f.cfg) ∧
    f.relink f.cfg = .ok f.cfg := by
  have hneat : f.cfg.Neat f.blocks.size := Cfg.neat_ofTargets _ _
  have hedge : ∀ b t, t ∈ f.cfg.successors b ↔ ∃ op, f.ClosesWith b op ∧ t ∈ op.targets := by
    intro b t
    rw [Function.cfg, Cfg.mem_successors_ofTargets_iff, Function.mem_targetsOf_iff]
    refine ⟨fun h => h.2.2, fun h => ?_⟩
    obtain ⟨op, hop, ht⟩ := h
    have hb := hop.lt_size
    -- the target is a block, or the draft could not have been finished
    exact ⟨hb, Draft.lt_size_of_finish hf hb (hop.targetsOf_eq ▸ ht), op, hop, ht⟩
  have hwrite : ∀ g : Cfg, g.succs.size = f.blocks.size → g.preds.size = f.blocks.size →
      f.relink g = .ok f.cfg := by
    intro g hsuccs hpreds
    obtain rfl := Draft.eq_of_finish hf
    rw [d.relink_function hsuccs hpreds, hf, map_ok]
  obtain rfl := Draft.eq_of_finish hf
  have hlisted := hd.sound.listed
  refine ⟨fun b t => ⟨hedge b t, ?_⟩, fun b => ⟨?_, hneat.ascending b⟩, ?_, hlisted.count_eq,
    fun i inst => hlisted.mem_parent, hd.ordered, hwrite, ?_⟩
  · rw [hneat.closed.mem_predecessors_iff]
    exact hedge b t
  · exact Cfg.nodup_successors_ofTargets _ _ b
  · intro b c t u hop
    have hb := hop.lt_size
    have hall : ∀ v ∈ [t, u], v < d.function.blocks.size := fun v hv =>
      Draft.lt_size_of_finish hf hb (hop.targetsOf_eq ▸ hv)
    rw [Function.cfg, Cfg.successors_ofTargets _ _ hb, hop.targetsOf_eq, Operation.targets,
      List.filter_eq_self.2 (by simpa using hall)]
    by_cases htu : t = u
    · simp [htu, List.eraseDups_cons]
    · simp [htu, Ne.symm htu, List.eraseDups_cons]
  · exact hwrite _ hneat.size_succs hneat.size_preds

/-- Three blocks that were filled out of turn. Block 2 branches before its end, and its last branch
names one target twice. -/
def turnBack : Function where
  name := "turn_back"
  blocks := #[⟨"entry", [2]⟩, ⟨"body", [0, 1]⟩, ⟨"exit", [3, 4]⟩]
  instructions := #[
    ⟨1, .truth, none, .compare .eq (.int 0) (.int 1)⟩,
    ⟨1, .void, none, .branchIf (.instruction 0) 1 2⟩,
    ⟨0, .void, none, .branch 1⟩,
    ⟨2, .void, none, .branch 0⟩,
    ⟨2, .void, none, .branchIf (.int 1) 1 1⟩]

theorem made_turnBack : Draft.Made { function := turnBack, current := some 2 } := by
  have hempty : Draft.Made { function := { name := "turn_back" } } := ⟨_, rfl, rfl, .refl⟩
  have hblocks := ((hempty.tail (.block _ "entry")).tail (.block _ "body")).tail (.block _ "exit")
  have hbody := ((hblocks.tail (.switchTo 1 rfl)).tail
    (.push none .truth (.compare .eq (.int 0) (.int 1)) rfl)).tail
    (.push none .void (.branchIf (.instruction 0) 1 2) rfl)
  have hentry := (hbody.tail (.switchTo 0 rfl)).tail (.push none .void (.branch 1) rfl)
  exact ((hentry.tail (.switchTo 2 rfl)).tail (.push none .void (.branch 0) rfl)).tail
    (.push none .void (.branchIf (.int 1) 1 1) rfl)

theorem edges_mirror_branches_turnBack :
    turnBack.cfg.successors 1 = [1, 2] ∧ turnBack.cfg.successors 2 = [1] ∧
    2 ∈ turnBack.cfg.predecessors 1 ∧ 2 ∉ turnBack.cfg.predecessors 0 ∧
    turnBack.relink ⟨#[[0], [1, 1], []], #[[], [2], [7]]⟩ = .ok turnBack.cfg := by
  obtain ⟨hedges, -, horder, -, -, -, hwrite, -⟩ := edges_mirror_branches made_turnBack rfl
  have hclose : turnBack.ClosesWith 2 (.branchIf (.int 1) 1 1) := ⟨_, 4, _, rfl, rfl, rfl, rfl⟩
  refine ⟨horder 1 _ 1 2 ⟨_, 1, _, rfl, rfl, rfl, rfl⟩, horder 2 _ 1 1 hclose,
    (hedges 2 1).2.2 ⟨_, hclose, by decide⟩, ?_, hwrite _ rfl rfl⟩
  rw [(hedges 2 0).2, ← Function.mem_targetsOf_iff]
  decide

end GridAccess
