import GridAccess.Proofs.LoopDiscovery

set_option autoImplicit false

/-!
# Blocks and inner loops are listed

Once all loops are discovered, the survey lacks the lists of blocks and of inner loops, and the
depths. The blocks come in postorder. After some of them, each loop lists those of its blocks, and
those of its inner loops by their headers, that have come; in reverse order as soon as its own
header has come (`Loop.filledBy`). A block is added to the loops on the way up from its innermost
loop, which are all of its loops (`Cfg.around_eq_cons`), so each block keeps the survey in this form
(`Cfg.insert_filledBy`).

Nothing is added to a loop after its header, because a header dominates the blocks of its loop, and
a block comes in postorder after the blocks that it dominates (`Cfg.header_not_mem_of_postOrder`).
So in the end all lists are complete and stand in reverse postorder, and the survey is that of the
loops of the graph (`Cfg.surveys_iff`).
-/

namespace GridAccess

/-! ## Walks -/

namespace Cfg

variable {g : Cfg} {i : Nat} {l : Loop}

theorem gives_blocks (hg : g.Closed) :
    StackWalk.Gives g.successors ⟨g.entry, [], []⟩ g.postOrder := by
  by_cases hsize : g.size = 0
  · rw [postOrder, walk, entry, if_pos hsize]
    exact ⟨_, .refl _, rfl⟩
  · rw [postOrder, walk, entry, if_neg hsize]
    exact Walk.gives_postOrder (fun _ _ => hg.lt_size) (Nat.pos_of_ne_zero hsize)

theorem gives_headers (g : Cfg) :
    StackWalk.Gives g.domTree.children ⟨g.entry, [], []⟩ g.domTree.postOrder := by
  by_cases hsize : g.size = 0
  · rw [DomTree.postOrder, entry, if_pos hsize, if_pos]
    · exact ⟨_, .refl _, rfl⟩
    · rw [Array.isEmpty_iff_size_eq_zero, size_parents_domTree, hsize]
  · rw [DomTree.postOrder, entry, if_neg hsize, if_neg]
    · refine Walk.gives_postOrder (fun _ _ => lt_size_of_mem_children) ?_
      rw [size_parents_domTree]
      exact Nat.pos_of_ne_zero hsize
    · rwa [Array.isEmpty_iff_size_eq_zero, size_parents_domTree]

/-- The way up from a loop passes the loops around it. -/
theorem climbs_enclosing (hg : g.Closed) (hl : (g.loops g.domTree).loops[i]? = some l) :
    Ascent.Climbs ((g.loops g.domTree).loops.map Loop.parent?) i (i :: l.enclosing) := by
  have hget : ((g.loops g.domTree).loops.map Loop.parent?)[i]? = some l.parent? := by
    rw [Array.getElem?_map, hl, Option.map_some]
  -- one loop fewer is around the parent
  induction hlength : l.enclosing.length generalizing i l with
  | zero =>
    have hnil := List.length_eq_zero_iff.1 hlength
    rw [hnil]
    refine .top (hget.trans (congrArg some ?_))
    rw [Loop.parent?, hnil, List.head?_nil]
  | succ n ih =>
    cases hp : l.parent? with
    | none =>
      rw [enclosing_eq_nil hp] at hlength
      cases hlength
    | some p =>
      obtain ⟨⟨outer, houter, -⟩, -⟩ := (parent?_eq_some_iff hg hl).1 hp
      have henclosing := enclosing_of_parent? hg hl houter hp
      rw [henclosing] at hlength ⊢
      refine .up (hp ▸ hget) (ih houter ?_ (Nat.succ.inj hlength))
      rw [Array.getElem?_map, houter, Option.map_some]

end Cfg

/-! ## Changes of a survey -/

namespace Survey

variable {s : Survey} {b id p : Nat} {x : LoopRecord} {ids : List Nat}

theorem getElem?_modify (s : Survey) (id : Nat) (change : LoopRecord → LoopRecord) (i : Nat) :
    (s.modify id change).loops[i]? = s.loops[i]?.map fun x => if i = id then change x else x := by
  rw [modify, Array.getElem?_modify]
  by_cases h : id = i
  · simp [h]
  · simp [h, Ne.symm h]

theorem parents_modify (s : Survey) (id : Nat) (change : LoopRecord → LoopRecord)
    (h : ∀ x, (change x).parent = x.parent) : (s.modify id change).parents = s.parents := by
  refine Array.ext_getElem? fun i => ?_
  rw [getElem?_parents, getElem?_parents, getElem?_modify, Option.map_map]
  refine congrArg (fun f => s.loops[i]?.map f) (funext fun x => ?_)
  simp only [Function.comp_apply]
  split
  · exact h x
  · rfl

theorem loopOf_modify (s : Survey) (id : Nat) (change : LoopRecord → LoopRecord) :
    (s.modify id change).loopOf = s.loopOf := rfl

theorem loopOf_addTo (s : Survey) (b : Nat) (ids : List Nat) :
    (s.addTo b ids).loopOf = s.loopOf := by
  induction ids generalizing s with
  | nil => rfl
  | cons id ids ih => exact ih _

theorem getElem?_addTo (hids : ids.Nodup) (i : Nat) : (s.addTo b ids).loops[i]? =
    s.loops[i]?.map fun x => if i ∈ ids then x.addBlock b else x := by
  induction hids generalizing s with
  | nil => simp [addTo]
  | @cons id ids hid _ ih =>
    have hid : id ∉ ids := fun h => hid id h rfl
    show ((s.modify id (LoopRecord.addBlock b)).addTo b ids).loops[i]? = _
    rw [ih, getElem?_modify, Option.map_map]
    refine congrArg (fun f => s.loops[i]?.map f) (funext fun x => ?_)
    by_cases h : i = id
    · simp [h, hid]
    · simp [h]

/-- What a header changes: its loop is turned, the parent has one more loop inside, and the loops
around have one more block. -/
theorem getElem?_addTo_header (hids : ids.Nodup) (hid : id ∉ ids) (hp : p ∈ ids) (i : Nat) :
    (((s.modify id LoopRecord.turned).modify p (LoopRecord.addChild id)).addTo b ids).loops[i]? =
      s.loops[i]?.map fun x => if i = id then x.turned
        else if i ∈ ids then if p = i then (x.addBlock b).addChild id else x.addBlock b
        else x := by
  rw [getElem?_addTo hids, getElem?_modify, getElem?_modify, Option.map_map, Option.map_map]
  refine congrArg (fun f => s.loops[i]?.map f) (funext fun x => ?_)
  simp only [Function.comp_apply]
  by_cases hi : i = id
  · subst i
    have hne : id ≠ p := fun h => hid (h ▸ hp)
    simp only [hid, hne, if_true, if_false]
  · by_cases hip : i = p
    · subst i
      simp only [hi, hp, if_true, if_false]
      rfl
    · simp only [hi, hip, Ne.symm hip, if_false]

section Insert

variable (hb : s.loopOf b = some id) (hx : s.loops[id]? = some x)

include hb hx

theorem insert_other (hheader : x.header? ≠ some b) (hway : s.wayUp id = .ok ids) :
    s.insert b = .ok (s.addTo b ids) := by
  simp only [insert, hb, fetch_eq_ok_iff.2 hx, ok_bind, hheader, if_false, hway]
  rfl

theorem insert_header (hheader : x.header? = some b) (hparent : x.parent = none) :
    s.insert b = .ok (s.modify id LoopRecord.turned) := by
  simp only [insert, hb, fetch_eq_ok_iff.2 hx, ok_bind, hheader, if_true, hparent]
  rfl

theorem insert_header_of_parent (hheader : x.header? = some b) (hparent : x.parent = some p)
    (hway : s.wayUp p = .ok ids) : s.insert b =
      .ok (((s.modify id LoopRecord.turned).modify p (LoopRecord.addChild id)).addTo b ids) := by
  have hparents : ((s.modify id LoopRecord.turned).modify p (LoopRecord.addChild id)).parents =
      s.parents := by
    rw [parents_modify _ p (LoopRecord.addChild id) fun _ => rfl,
      parents_modify s id LoopRecord.turned fun _ => rfl]
  have hway' : ((s.modify id LoopRecord.turned).modify p (LoopRecord.addChild id)).wayUp p =
      .ok ids := by
    rw [wayUp, hparents]
    exact hway
  simp only [insert, hb, fetch_eq_ok_iff.2 hx, ok_bind, hheader, if_true, hparent, hway']
  rfl

end Insert

end Survey

/-! ## The loops while blocks are added -/

/-- The loop that the block is the header of. -/
def LoopForest.headed? (F : LoopForest) (b : Nat) : Option Nat :=
  (F.innermost? b).filter fun j => (F.loops[j]?.map Loop.header) == some b

/-- The loop that the block is the header of, if its parent is loop `i`. -/
def LoopForest.childAt? (F : LoopForest) (i b : Nat) : Option Nat :=
  (F.headed? b).filter fun j => (F.loops[j]?.bind Loop.parent?) == some i

/-- A list that is turned round once its loop is complete. -/
def turnIf (complete : Prop) [Decidable complete] (ns : List Nat) : List Nat :=
  if complete then ns.reverse else ns

/-- Loop `i` after some blocks. -/
def Loop.filledBy (F : LoopForest) (seen : List Nat) (i : Nat) (l : Loop) : LoopRecord where
  blocks := l.header ::
    turnIf (l.header ∈ seen) (seen.filter fun b => b != l.header && l.contains b)
  parent := l.parent?
  children := turnIf (l.header ∈ seen) (seen.filterMap (F.childAt? i))

/-- The survey after some blocks. -/
def LoopForest.filledBy (F : LoopForest) (seen : List Nat) : Survey where
  loopOf := F.innermost?
  loops := F.loops.mapIdx fun i l => l.filledBy F seen i

theorem LoopForest.getElem?_filledBy (F : LoopForest) (seen : List Nat) (i : Nat) :
    (F.filledBy seen).loops[i]? = F.loops[i]?.map fun l => l.filledBy F seen i := by
  rw [filledBy, Array.getElem?_mapIdx]

theorem LoopForest.zipIdx_filledBy (F : LoopForest) (seen : List Nat) :
    (F.filledBy seen).loops.toList.zipIdx =
      F.loops.toList.zipIdx.map fun x => (x.1.filledBy F seen x.2, x.2) := by
  refine List.ext_getElem? fun i => ?_
  rw [List.getElem?_zipIdx, Array.getElem?_toList, getElem?_filledBy, List.getElem?_map,
    List.getElem?_zipIdx, Array.getElem?_toList, Option.map_map, Option.map_map]
  simp [Function.comp_def]

theorem LoopForest.parents_filledBy (F : LoopForest) (seen : List Nat) :
    (F.filledBy seen).parents = F.loops.map Loop.parent? := by
  refine Array.ext_getElem? fun i => ?_
  rw [Survey.getElem?_parents, getElem?_filledBy, Array.getElem?_map, Option.map_map]
  rfl

theorem Loop.header?_filledBy (F : LoopForest) (seen : List Nat) (i : Nat) (l : Loop) :
    (l.filledBy F seen i).header? = some l.header := rfl

theorem Loop.blocks_filledBy_of_mem {F : LoopForest} {seen : List Nat} {i : Nat} {l : Loop}
    (h : l.header ∈ seen) : (l.filledBy F seen i).blocks =
      l.header :: (seen.filter fun b => b != l.header && l.contains b).reverse := by
  rw [filledBy, turnIf, if_pos h]

theorem Loop.children_filledBy_of_mem {F : LoopForest} {seen : List Nat} {i : Nat} {l : Loop}
    (h : l.header ∈ seen) :
    (l.filledBy F seen i).children = (seen.filterMap (F.childAt? i)).reverse := if_pos h

theorem Loop.parent_filledBy (F : LoopForest) (seen : List Nat) (i : Nat) (l : Loop) :
    (l.filledBy F seen i).parent = l.parent? := rfl

theorem LoopForest.loopOf_filledBy (F : LoopForest) (seen : List Nat) :
    (F.filledBy seen).loopOf = F.innermost? := rfl

theorem LoopForest.eq_filledBy_of_getElem? {F : LoopForest} {s : Survey} {seen : List Nat}
    (hloopOf : s.loopOf = F.innermost?)
    (hloops : ∀ i : Nat, s.loops[i]? = F.loops[i]?.map fun l => l.filledBy F seen i) :
    s = F.filledBy seen := by
  have hloops : s.loops = (F.filledBy seen).loops :=
    Array.ext_getElem? fun i => (hloops i).trans (F.getElem?_filledBy seen i).symm
  exact Survey.ext hloopOf hloops

/-- Each loop changes as one more block, or several, would have it. -/
theorem LoopForest.eq_filledBy {F : LoopForest} {s : Survey} {seen seen' : List Nat}
    (change : Nat → LoopRecord → LoopRecord) (hloopOf : s.loopOf = (F.filledBy seen).loopOf)
    (hloops : ∀ i : Nat, s.loops[i]? = (F.filledBy seen).loops[i]?.map (change i))
    (hchange : ∀ (i : Nat) (l : Loop), F.loops[i]? = some l →
      l.filledBy F seen' i = change i (l.filledBy F seen i)) : s = F.filledBy seen' := by
  refine eq_filledBy_of_getElem? (hloopOf.trans (F.loopOf_filledBy seen)) fun i => ?_
  rw [hloops, getElem?_filledBy, Option.map_map]
  exact Option.map_congr fun l hl => (hchange i l hl).symm

theorem LoopForest.headed?_eq_some_iff {F : LoopForest} {b j : Nat} : F.headed? b = some j ↔
    F.innermost? b = some j ∧ ∃ l, F.loops[j]? = some l ∧ l.header = b := by
  rw [headed?, Option.filter_eq_some_iff, beq_iff_eq, Option.map_eq_some_iff]

namespace Cfg

variable {g : Cfg} {b i j : Nat} {l l' : Loop} {seen : List Nat}

theorem headed?_loops_eq_some_iff (hg : g.Closed) : (g.loops g.domTree).headed? b = some j ↔
    ∃ l, (g.loops g.domTree).loops[j]? = some l ∧ l.header = b := by
  rw [LoopForest.headed?_eq_some_iff]
  refine and_iff_right_of_imp ?_
  rintro ⟨l, hl, rfl⟩
  exact innermost?_header hg hl

theorem childAt?_loops_eq_some_iff (hg : g.Closed) :
    (g.loops g.domTree).childAt? i b = some j ↔
      ∃ l, (g.loops g.domTree).loops[j]? = some l ∧ l.header = b ∧ l.parent? = some i := by
  rw [LoopForest.childAt?, Option.filter_eq_some_iff, headed?_loops_eq_some_iff hg, beq_iff_eq]
  constructor
  · rintro ⟨⟨l, hl, hb⟩, hparent⟩
    rw [hl, Option.bind_some] at hparent
    exact ⟨l, hl, hb, hparent⟩
  · rintro ⟨l, hl, hb, hparent⟩
    exact ⟨⟨l, hl, hb⟩, by rw [hl, Option.bind_some, hparent]⟩

/-- A block that is not in a loop is no header of a loop directly inside it. -/
theorem childAt?_eq_none (hg : g.Closed) (hl : (g.loops g.domTree).loops[i]? = some l)
    (hb : b ∉ l.blocks) : (g.loops g.domTree).childAt? i b = none := by
  rw [Option.eq_none_iff_forall_ne_some]
  intro j hj
  obtain ⟨inner, hinner, rfl, hparent⟩ := (childAt?_loops_eq_some_iff hg).1 hj
  obtain ⟨⟨outer, houter, hin⟩, -⟩ := (parent?_eq_some_iff hg hinner).1 hparent
  obtain rfl := Option.some.inj (hl.symm.trans houter)
  exact hb (hin.1 _ (header_mem_blocks hg hinner))

/-- The parent of a loop is another one. -/
theorem childAt?_header (hg : g.Closed) (hl : (g.loops g.domTree).loops[i]? = some l) :
    (g.loops g.domTree).childAt? i l.header = none := by
  rw [Option.eq_none_iff_forall_ne_some]
  intro j hj
  obtain ⟨inner, hinner, hheader, hparent⟩ := (childAt?_loops_eq_some_iff hg).1 hj
  obtain ⟨⟨outer, houter, hin⟩, -⟩ := (parent?_eq_some_iff hg hinner).1 hparent
  obtain rfl := Option.some.inj (hl.symm.trans houter)
  obtain rfl := Option.some.inj ((innermost?_header hg hinner).symm.trans
    (hheader ▸ innermost?_header hg hl))
  exact Nat.lt_irrefl _ (lt_of_inside hg hinner hl hin)

section OneMore

variable (hg : g.Closed) (hl : (g.loops g.domTree).loops[i]? = some l)

include hg hl

theorem filledBy_snoc_of_not_mem (hb : b ∉ l.blocks) :
    l.filledBy (g.loops g.domTree) (seen ++ [b]) i = l.filledBy (g.loops g.domTree) seen i := by
  have hne : l.header ≠ b := fun h => hb (h ▸ header_mem_blocks hg hl)
  have hcontains : l.contains b = false := by simpa [Loop.contains] using hb
  simp only [Loop.filledBy, turnIf, List.mem_append, List.mem_singleton, hne, or_false,
    List.filter_append, List.filterMap_append, List.filter_cons, hcontains, Bool.and_false,
    List.filter_nil, List.filterMap_cons, childAt?_eq_none hg hl hb, List.filterMap_nil,
    List.append_nil, Bool.false_eq_true, if_false]

/-- The header completes its loop. -/
theorem filledBy_snoc_header (hb : l.header ∉ seen) :
    l.filledBy (g.loops g.domTree) (seen ++ [l.header]) i =
      (l.filledBy (g.loops g.domTree) seen i).turned := by
  simp only [Loop.filledBy, LoopRecord.turned, turnIf, List.mem_append, List.mem_singleton, hb,
    or_true, if_true, if_false, List.filter_append, List.filterMap_append, List.filter_cons,
    bne_self_eq_false, Bool.false_and, Bool.false_eq_true, List.filter_nil, List.append_nil,
    List.filterMap_cons, childAt?_header hg hl, List.filterMap_nil, List.take_succ_cons,
    List.take_zero, List.drop_succ_cons, List.drop_zero, List.singleton_append]

end OneMore

/-- A block other than the header is added to its loop, and the loop that it is the header of is
added if it is directly inside. -/
theorem filledBy_snoc (hb : b ∈ l.blocks) (hne : b ≠ l.header) (hseen : l.header ∉ seen) :
    l.filledBy (g.loops g.domTree) (seen ++ [b]) i =
      ((g.loops g.domTree).childAt? i b).elim id LoopRecord.addChild
        ((l.filledBy (g.loops g.domTree) seen i).addBlock b) := by
  have hcontains : l.contains b = true := by simpa [Loop.contains] using hb
  cases hchild : (g.loops g.domTree).childAt? i b with
  | none =>
    simp [Loop.filledBy, LoopRecord.addBlock, turnIf, hne.symm, hne, hseen, hcontains, hchild]
  | some j =>
    simp [Loop.filledBy, LoopRecord.addBlock, LoopRecord.addChild, turnIf, hne.symm, hne, hseen,
      hcontains, hchild]

/-! ## One more block -/

theorem wayUp_filledBy (hg : g.Closed) (hl : (g.loops g.domTree).loops[i]? = some l)
    (seen : List Nat) : ((g.loops g.domTree).filledBy seen).wayUp i = .ok (i :: l.enclosing) := by
  rw [Survey.wayUp, LoopForest.parents_filledBy]
  exact (climbs_enclosing hg hl).way_eq

theorem getElem?_filledBy_of_getElem? (hl : (g.loops g.domTree).loops[i]? = some l)
    (seen : List Nat) : ((g.loops g.domTree).filledBy seen).loops[i]? =
      some (l.filledBy (g.loops g.domTree) seen i) := by
  rw [LoopForest.getElem?_filledBy, hl, Option.map_some]

section Step

variable (hg : g.Closed)
  (hnew : ∀ (i : Nat) (l : Loop), (g.loops g.domTree).loops[i]? = some l → b ∈ l.blocks →
    l.header ∉ seen)

include hg hnew

/-- What a block that is no header changes in a loop. -/
theorem filledBy_snoc_other (hb : (g.loops g.domTree).headed? b = none)
    (hi : (g.loops g.domTree).loops[i]? = some l) :
    l.filledBy (g.loops g.domTree) (seen ++ [b]) i =
      if i ∈ (g.loops g.domTree).around b then (l.filledBy (g.loops g.domTree) seen i).addBlock b
      else l.filledBy (g.loops g.domTree) seen i := by
  split
  · rename_i hin
    obtain ⟨l', hl', hmem⟩ := LoopForest.mem_around_iff.1 hin
    obtain rfl := Option.some.inj (hi.symm.trans hl')
    have hne : b ≠ l.header := by
      rintro rfl
      cases hb.symm.trans ((headed?_loops_eq_some_iff hg).2 ⟨l, hi, rfl⟩)
    rw [filledBy_snoc hmem hne (hnew i l hi hmem), LoopForest.childAt?, hb]
    rfl
  · rename_i hout
    refine filledBy_snoc_of_not_mem hg hi fun hmem => hout ?_
    exact LoopForest.mem_around_iff.2 ⟨l, hi, hmem⟩

/-- What the header of loop `j` changes in a loop. -/
theorem filledBy_snoc_headed (hj : (g.loops g.domTree).loops[j]? = some l') (hb : l'.header = b)
    (hi : (g.loops g.domTree).loops[i]? = some l) :
    l.filledBy (g.loops g.domTree) (seen ++ [b]) i =
      if i = j then (l.filledBy (g.loops g.domTree) seen i).turned
      else if i ∈ l'.enclosing then
        if l'.parent? = some i then
          ((l.filledBy (g.loops g.domTree) seen i).addBlock b).addChild j
        else (l.filledBy (g.loops g.domTree) seen i).addBlock b
      else l.filledBy (g.loops g.domTree) seen i := by
  have hheaded := (headed?_loops_eq_some_iff hg).2 ⟨l', hj, hb⟩
  split
  · subst i
    obtain rfl := Option.some.inj (hi.symm.trans hj)
    rw [← hb]
    exact filledBy_snoc_header hg hi (hnew j l hi (hb ▸ header_mem_blocks hg hi))
  · rename_i hne
    split
    · rename_i hin
      obtain ⟨outer, houter, hin⟩ := (mem_enclosing_loops_iff hg hj).1 hin
      obtain rfl := Option.some.inj (hi.symm.trans houter)
      have hmem : b ∈ l.blocks := hb ▸ hin.1 _ (header_mem_blocks hg hj)
      have hbl : b ≠ l.header := by
        rintro rfl
        have hself := (headed?_loops_eq_some_iff hg).2 ⟨l, hi, rfl⟩
        exact hne (Option.some.inj (hself.symm.trans hheaded))
      have hchild : (g.loops g.domTree).childAt? i b =
          if l'.parent? = some i then some j else none := by
        rw [LoopForest.childAt?, hheaded, Option.filter_some, hj, Option.bind_some]
        simp only [beq_iff_eq]
      rw [filledBy_snoc hmem hbl (hnew i l hi hmem), hchild]
      split <;> rfl
    · rename_i hout
      refine filledBy_snoc_of_not_mem hg hi fun hmem => hout ?_
      exact (mem_enclosing_loops_iff hg hj).2
        ⟨l, hi, (header_mem_iff hg hj hi (Ne.symm hne)).1 (hb ▸ hmem)⟩

/-- A block is added to its loop and to those around it. -/
theorem insert_filledBy_other (hb : (g.loops g.domTree).innermost? b = some j)
    (hl : (g.loops g.domTree).loops[j]? = some l) (hheader : l.header ≠ b) :
    ((g.loops g.domTree).filledBy seen).insert b =
      .ok ((g.loops g.domTree).filledBy (seen ++ [b])) := by
  have hheaded : (g.loops g.domTree).headed? b = none := by
    rw [Option.eq_none_iff_forall_ne_some]
    intro k hk
    obtain ⟨hinnermost, l', hl', hheader'⟩ := LoopForest.headed?_eq_some_iff.1 hk
    obtain rfl := Option.some.inj (hb.symm.trans hinnermost)
    obtain rfl := Option.some.inj (hl.symm.trans hl')
    exact hheader hheader'
  have hnodup : ((g.loops g.domTree).around b).Nodup :=
    ((g.loops g.domTree).increasing_around b).imp Nat.ne_of_lt
  have hfirst : (l.filledBy (g.loops g.domTree) seen j).header? ≠ some b := by
    rw [Loop.header?_filledBy]
    exact fun h => hheader (Option.some.inj h)
  have hloopOf : ((g.loops g.domTree).filledBy seen).loopOf b = some j := by
    rw [LoopForest.loopOf_filledBy, hb]
  rw [Survey.insert_other hloopOf (getElem?_filledBy_of_getElem? hl seen) hfirst
    (wayUp_filledBy hg hl seen), ← around_eq_cons hg hl hb]
  exact congrArg Except.ok (LoopForest.eq_filledBy _ (Survey.loopOf_addTo _ b _)
    (Survey.getElem?_addTo hnodup) fun i l hi => filledBy_snoc_other hg hnew hheaded hi)

/-- A header completes its loop, and is added to those around it. -/
theorem insert_filledBy_headed (hl : (g.loops g.domTree).loops[j]? = some l)
    (hheader : l.header = b) : ((g.loops g.domTree).filledBy seen).insert b =
      .ok ((g.loops g.domTree).filledBy (seen ++ [b])) := by
  have hb : ((g.loops g.domTree).filledBy seen).loopOf b = some j := by
    rw [LoopForest.loopOf_filledBy, ← hheader]
    exact innermost?_header hg hl
  have hrecord := getElem?_filledBy_of_getElem? hl seen
  have hfirst : (l.filledBy (g.loops g.domTree) seen j).header? = some b := by
    rw [Loop.header?_filledBy, hheader]
  have hparent := Loop.parent_filledBy (g.loops g.domTree) seen j l
  cases hp : l.parent? with
  | none =>
    rw [Survey.insert_header hb hrecord hfirst (hparent.trans hp)]
    refine congrArg Except.ok (LoopForest.eq_filledBy _ (Survey.loopOf_modify _ j _)
      (Survey.getElem?_modify _ j _) fun i l' hi => ?_)
    rw [filledBy_snoc_headed hg hnew hl hheader hi, enclosing_eq_nil hp, if_neg List.not_mem_nil]
  | some p =>
    obtain ⟨⟨outer, houter, -⟩, -⟩ := (parent?_eq_some_iff hg hl).1 hp
    obtain ⟨hlt, hincreasing⟩ := List.pairwise_cons.1 (increasing_enclosing hg hl)
    have henclosing := enclosing_of_parent? hg hl houter hp
    have hmem : p ∈ l.enclosing := henclosing ▸ List.mem_cons_self
    -- the way up starts from the parent
    rw [Survey.insert_header_of_parent hb hrecord hfirst (hparent.trans hp)
      (wayUp_filledBy hg houter seen), ← henclosing]
    have hnot : j ∉ l.enclosing := fun h => Nat.lt_irrefl j (hlt j h)
    refine congrArg Except.ok (LoopForest.eq_filledBy _ ?_
      (Survey.getElem?_addTo_header (hincreasing.imp Nat.ne_of_lt) hnot hmem) fun i l' hi => ?_)
    · rw [Survey.loopOf_addTo, Survey.loopOf_modify, Survey.loopOf_modify]
    · rw [filledBy_snoc_headed hg hnew hl hheader hi]
      simp only [hp, Option.some.injEq]

/-- One more block is added to all of its loops. -/
theorem insert_filledBy : ((g.loops g.domTree).filledBy seen).insert b =
    .ok ((g.loops g.domTree).filledBy (seen ++ [b])) := by
  cases hb : (g.loops g.domTree).innermost? b with
  | none =>
    have hout : ∀ (i : Nat) (l : Loop), (g.loops g.domTree).loops[i]? = some l → b ∉ l.blocks := by
      intro i l hi hmem
      obtain ⟨j, -, hj⟩ := LoopForest.exists_innermost? hi hmem
      cases hb.symm.trans hj
    rw [Survey.insert, LoopForest.loopOf_filledBy, hb]
    refine congrArg Except.ok (LoopForest.eq_filledBy (fun _ x => x) rfl (fun i => ?_)
      fun i l hi => filledBy_snoc_of_not_mem hg hi (hout i l hi))
    rw [Option.map_id']
  | some j =>
    obtain ⟨⟨l, hl, -⟩, -⟩ := LoopForest.innermost?_eq_some_iff.1 hb
    by_cases hheader : l.header = b
    · exact insert_filledBy_headed hg hnew hl hheader
    · exact insert_filledBy_other hg hnew hb hl hheader

end Step

/-- No block of a loop comes after the header in postorder. -/
theorem header_not_mem_of_postOrder (hg : g.Closed) {rest : List Nat}
    (hsplit : g.postOrder = seen ++ b :: rest) (hl : (g.loops g.domTree).loops[i]? = some l)
    (hb : b ∈ l.blocks) : l.header ∉ seen := by
  intro hmem
  have horder := pairwise_postOrder hg
  have hnodup := nodup_postOrder hg
  rw [hsplit, List.pairwise_append] at horder
  rw [hsplit, List.nodup_append] at hnodup
  -- the header dominates the block, so it cannot have come before
  refine horder.2.2 l.header hmem b List.mem_cons_self ⟨?_, ?_⟩
  · exact ((mem_blocks_getElem?_iff hg hl).1 hb).dominates
  · exact hnodup.2.2 l.header hmem b List.mem_cons_self

/-- The blocks of the graph, one after the other, fill the loops. -/
theorem foldlM_insert (hg : g.Closed) {rest : List Nat} (hsplit : g.postOrder = seen ++ rest) :
    rest.foldlM Survey.insert ((g.loops g.domTree).filledBy seen) =
      .ok ((g.loops g.domTree).filledBy g.postOrder) := by
  induction rest generalizing seen with
  | nil =>
    rw [hsplit, List.append_nil]
    rfl
  | cons b rest ih =>
    rw [List.foldlM_cons,
      insert_filledBy hg fun i l hl hb => header_not_mem_of_postOrder hg hsplit hl hb, ok_bind]
    exact ih (by rw [hsplit, List.append_assoc, List.singleton_append])

end Cfg

/-! ## The survey of a forest -/

/-- What a survey has to say of a loop. -/
def Loop.record (l : Loop) : LoopRecord := ⟨l.blocks, l.parent?, l.children, l.depth⟩

/-- What a survey has to say of a forest. -/
def LoopForest.survey (F : LoopForest) : Survey := ⟨F.innermost?, F.loops.map Loop.record⟩

theorem LoopForest.upTo_zero (F : LoopForest) : F.upTo 0 = {} := by
  have hloopOf : (F.upTo 0).loopOf = fun _ => none := by
    funext b
    rw [loopOf_upTo]
    simp
  have hloops : (F.upTo 0).loops = #[] := by simp [upTo]
  exact Survey.ext hloopOf hloops

namespace Cfg

variable {g : Cfg} {b i j : Nat} {l : Loop}

theorem upTo_size (hg : g.Closed) :
    (g.loops g.domTree).upTo (g.loops g.domTree).loops.size = (g.loops g.domTree).filledBy [] := by
  -- all loops that are mentioned exist
  have hfilter : ∀ {F : LoopForest} {final : Option Nat},
      (∀ j, final = some j → ∃ l, F.loops[j]? = some l) →
        final.filter (· < F.loops.size) = final := by
    intro F final h
    cases final with
    | none => rfl
    | some j =>
      obtain ⟨l, hl⟩ := h j rfl
      rw [Option.filter_some, if_pos (by simpa using (Array.getElem?_eq_some_iff.1 hl).1)]
  refine LoopForest.eq_filledBy_of_getElem? (funext fun b => ?_) fun i => ?_
  · rw [LoopForest.loopOf_upTo]
    refine hfilter fun j hj => ?_
    obtain ⟨⟨l, hl, -⟩, -⟩ := LoopForest.innermost?_eq_some_iff.1 hj
    exact ⟨l, hl⟩
  · rw [LoopForest.getElem?_upTo]
    cases hi : (g.loops g.domTree).loops[i]? with
    | none => simp
    | some l =>
      have hlt := (Array.getElem?_eq_some_iff.1 hi).1
      rw [if_pos hlt, Option.map_some, Option.map_some, hfilter fun p hp => ?_]
      · rfl
      · obtain ⟨⟨outer, houter, -⟩, -⟩ := (parent?_eq_some_iff hg hi).1 hp
        exact ⟨outer, houter⟩

/-- All blocks of a loop are listed in the end. -/
theorem blocks_filledBy_postOrder (hg : g.Closed) (hl : (g.loops g.domTree).loops[i]? = some l) :
    (l.filledBy (g.loops g.domTree) g.postOrder i).blocks = l.blocks := by
  have hmem := Array.mem_toList_iff.2 (Array.mem_of_getElem? hl)
  have hheader := (mem_postOrder_iff hg).2 (isHeader_of_getElem? hg hl).1
  rw [blocks_of_mem_loops hmem, List.filter_reverse, Loop.blocks_filledBy_of_mem hheader]
  refine congrArg (fun bs => l.header :: bs.reverse) (List.filter_congr fun b _ => ?_)
  by_cases hb : b = l.header
  · simp [hb]
  · rw [bne_iff_ne.2 hb, Bool.true_and, Bool.true_and, Bool.eq_iff_iff, List.contains_iff_mem,
      mem_loopRegion_iff hg hb, Loop.contains, List.contains_iff_mem, mem_blocks_iff hg hmem]

/-- The loops with a header that lie directly inside loop `i`. -/
theorem children_at (hg : g.Closed) (i b : Nat) :
    (((((g.loopBlocks g.domTree).zipIdx.filter fun x => x.1.1 == b).map fun x =>
      (x.1.1, x.2)).filter fun x =>
        (((g.loops g.domTree).around x.1).filter (· != x.2)).head? == some i).map Prod.snd) =
          ((g.loops g.domTree).childAt? i b).toList := by
  have hincreasing : ((g.loopBlocks g.domTree).zipIdx.map Prod.snd).Pairwise (· < ·) := by
    rw [List.zipIdx_map_snd]
    exact List.pairwise_lt_range'
  -- both sides are increasing, so only their members count; the right one has one member at most
  refine List.Pairwise.eq_of_mem_iff (r := (· < ·)) ?_ ?_ fun j => ?_
  · rw [List.filter_map, List.map_map]
    exact hincreasing.sublist ((List.filter_sublist.trans List.filter_sublist).map Prod.snd)
  · cases (g.loops g.domTree).childAt? i b with
    | none => exact .nil
    | some j => exact List.pairwise_singleton _ j
  · rw [Option.mem_toList, childAt?_loops_eq_some_iff hg]
    simp only [List.mem_map, List.mem_filter, mem_zipIdx_loopBlocks_iff, beq_iff_eq]
    constructor
    · rintro ⟨_, ⟨⟨⟨_, j⟩, ⟨⟨l, hl, rfl⟩, rfl⟩, rfl⟩, hparent⟩, rfl⟩
      exact ⟨l, hl, rfl, (parent?_loops hl).trans hparent⟩
    · rintro ⟨l, hl, rfl, hparent⟩
      exact ⟨(l.header, j), ⟨⟨((l.header, l.blocks), j), ⟨⟨l, hl, rfl⟩, rfl⟩, rfl⟩,
        (parent?_loops hl).symm.trans hparent⟩, rfl⟩

/-- All loops directly inside a loop are listed in the end. -/
theorem children_filledBy_postOrder (hg : g.Closed) (hl : (g.loops g.domTree).loops[i]? = some l) :
    (l.filledBy (g.loops g.domTree) g.postOrder i).children = l.children := by
  have hheader := (mem_postOrder_iff hg).2 (isHeader_of_getElem? hg hl).1
  rw [(lists_of_loops hl).2, numberedHeaders, List.filter_flatMap, List.map_flatMap,
    Loop.children_filledBy_of_mem hheader, ← List.filterMap_reverse,
    List.filterMap_eq_flatMap_toList]
  exact List.flatMap_congr fun b _ => (children_at hg i b).symm

/-- The depth is all that a loop lacks in the end. -/
theorem atDepth_filledBy_postOrder (hg : g.Closed)
    (hl : (g.loops g.domTree).loops[i]? = some l) :
    (l.filledBy (g.loops g.domTree) g.postOrder i).atDepth (i :: l.enclosing).length =
      l.record := by
  rw [LoopRecord.atDepth, blocks_filledBy_postOrder hg hl, children_filledBy_postOrder hg hl,
    Loop.parent_filledBy]
  rfl

theorem withDepths_filledBy (hg : g.Closed) :
    ((g.loops g.domTree).filledBy g.postOrder).withDepths = .ok (g.loops g.domTree).survey := by
  have hdepth : ∀ x ∈ (g.loops g.domTree).loops.toList.zipIdx,
      (fun way => (x.1.filledBy (g.loops g.domTree) g.postOrder x.2).atDepth way.length) <$>
        ((g.loops g.domTree).filledBy g.postOrder).wayUp x.2 = pure x.1.record := by
    intro x hx
    rw [List.mem_zipIdx_iff_getElem?, Array.getElem?_toList] at hx
    rw [wayUp_filledBy hg hx, ← atDepth_filledBy_postOrder hg hx]
    rfl
  have hrecords : (g.loops g.domTree).loops.toList.zipIdx.map (fun x => x.1.record) =
      ((g.loops g.domTree).loops.map Loop.record).toList := by
    rw [Array.toList_map]
    conv_rhs => rw [← List.zipIdx_map_fst 0 (g.loops g.domTree).loops.toList, List.map_map]
    rfl
  have hloops : (((g.loops g.domTree).filledBy g.postOrder).loops.toList.zipIdx.mapM fun x =>
      (fun way => x.1.atDepth way.length) <$>
        ((g.loops g.domTree).filledBy g.postOrder).wayUp x.2) =
        .ok ((g.loops g.domTree).loops.map Loop.record).toList := by
    rw [LoopForest.zipIdx_filledBy, List.mapM_map, ← hrecords]
    exact (mapM_eq_mapM hdepth).trans List.mapM_pure
  rw [Survey.withDepths, hloops, ok_bind, Array.toArray_toList, LoopForest.loopOf_filledBy]
  rfl

/-- The traversals come to the survey of the loops, and to no other. -/
theorem surveys_iff (hg : g.Closed) {r : Survey} :
    g.Surveys g.domTree r ↔ r = (g.loops g.domTree).survey := by
  have hsurvey : g.Surveys g.domTree (g.loops g.domTree).survey := by
    refine ⟨g.domTree.postOrder, g.postOrder, _, _, gives_headers g, gives_blocks hg, ?_,
      foldlM_insert hg (List.nil_append _).symm, withDepths_filledBy hg⟩
    rw [← LoopForest.upTo_zero (g.loops g.domTree), ← upTo_size hg]
    exact Survey.discovers_upTo hg _ (Nat.zero_le _) (by rw [List.drop_zero, map_header_loops])
  exact ⟨fun h => h.unique hsurvey, fun h => h ▸ hsurvey⟩

end Cfg

end GridAccess
