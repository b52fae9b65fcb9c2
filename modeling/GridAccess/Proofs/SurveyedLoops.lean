import GridAccess.Proofs.LoopFilling

set_option autoImplicit false

/-!
# What a survey says

A function has one survey (`Cfg.surveys_iff`). The loops in it are the natural loops of the
function, with their blocks after the header in reverse postorder (`loops_are_natural`).

A survey can tell in four ways how loops are nested: by the loop that is kept for each block, by the
parents, by the lists of inner loops, and by the lists of blocks. Depths and the answer to whether a
loop lies inside another are found on the way from parent to parent. `Survey.Nested` says that all
of this agrees with the lists of blocks. It does in the survey of every function
(`loops_form_forest`).
-/

namespace GridAccess

namespace LoopRecord

/-- All blocks of the loop are blocks of `outer`, which has more. -/
def Inside (l outer : LoopRecord) : Prop :=
  (∀ b ∈ l.blocks, b ∈ outer.blocks) ∧ ∃ b ∈ outer.blocks, b ∉ l.blocks

/-- The loops have no block in common. -/
def Apart (l l' : LoopRecord) : Prop := ∀ b ∈ l.blocks, b ∉ l'.blocks

end LoopRecord

namespace Survey

/-- Loop `i` is the smallest of the loops with a property: it lies inside all others. -/
def Smallest (s : Survey) (P : LoopRecord → Prop) (i : Nat) : Prop :=
  ∃ l, s.loops[i]? = some l ∧ P l ∧
    ∀ (j : Nat) (l' : LoopRecord), s.loops[j]? = some l' → P l' → j = i ∨ l.Inside l'

/-- The loops are a forest, and all that is said about their nesting agrees with their blocks. -/
structure Nested (s : Survey) : Prop where
  apart_or_inside : ∀ {i j : Nat} {l l' : LoopRecord}, s.loops[i]? = some l →
    s.loops[j]? = some l' → i ≠ j → l.Apart l' ∨ l.Inside l' ∨ l'.Inside l
  /-- The parent of a loop is the smallest loop that it lies inside. -/
  parent_iff : ∀ {i : Nat} {l : LoopRecord}, s.loops[i]? = some l →
    ∀ p, l.parent = some p ↔ s.Smallest l.Inside p
  parent_none_iff : ∀ {i : Nat} {l : LoopRecord}, s.loops[i]? = some l →
    (l.parent = none ↔ ∀ outer ∈ s.loops.toList, ¬ l.Inside outer)
  lt_parent : ∀ {i p : Nat} {l : LoopRecord}, s.loops[i]? = some l → l.parent = some p → i < p
  nodup_children : ∀ {i : Nat} {l : LoopRecord}, s.loops[i]? = some l → l.children.Nodup
  mem_children_iff : ∀ {i : Nat} {l : LoopRecord}, s.loops[i]? = some l →
    ∀ j, j ∈ l.children ↔ ∃ inner, s.loops[j]? = some inner ∧ inner.parent = some i
  contains_eq : ∀ {i j : Nat} {l outer : LoopRecord}, s.loops[i]? = some l →
    s.loops[j]? = some outer → s.contains j i = .ok (decide (∀ b ∈ l.blocks, b ∈ outer.blocks))
  /-- The loop kept for a block is the smallest loop that has the block. -/
  loopOf_iff : ∀ b i, s.loopOf b = some i ↔ s.Smallest (b ∈ ·.blocks) i
  loopOf_none_iff : ∀ b, s.loopOf b = none ↔ ∀ l ∈ s.loops.toList, b ∉ l.blocks
  depth_eq : ∀ {i : Nat} {l : LoopRecord}, s.loops[i]? = some l →
    ∃ h, l.header? = some h ∧ l.depth = s.loops.toList.countP fun outer => h ∈ outer.blocks
  depthOf_eq : ∀ b, s.depthOf b = .ok (s.loops.toList.countP fun l => b ∈ l.blocks)

end Survey

/-! ## A forest and its survey -/

namespace LoopForest

variable {F : LoopForest} {i : Nat} {x : LoopRecord}

theorem loopOf_survey (F : LoopForest) : F.survey.loopOf = F.innermost? := rfl

theorem getElem?_survey (F : LoopForest) (i : Nat) :
    F.survey.loops[i]? = F.loops[i]?.map Loop.record := by
  rw [survey, Array.getElem?_map]

theorem toList_survey (F : LoopForest) :
    F.survey.loops.toList = F.loops.toList.map Loop.record := by
  rw [survey, Array.toList_map]

theorem getElem?_survey_eq_some_iff :
    F.survey.loops[i]? = some x ↔ ∃ l, F.loops[i]? = some l ∧ l.record = x := by
  rw [getElem?_survey, Option.map_eq_some_iff]

theorem parents_survey (F : LoopForest) : F.survey.parents = F.loops.map Loop.parent? := by
  rw [Survey.parents, survey, Array.map_map]
  rfl

/-- The number of loops with a property of their blocks. -/
theorem countP_survey (F : LoopForest) (b : Nat) :
    F.survey.loops.toList.countP (fun l => b ∈ l.blocks) = F.depthOf b := by
  rw [depthOf_eq_countP, toList_survey, List.countP_map]
  rfl

theorem forall_survey_iff {P : LoopRecord → Prop} :
    (∀ x ∈ F.survey.loops.toList, P x) ↔ ∀ l ∈ F.loops.toList, P l.record := by
  rw [toList_survey, List.forall_mem_map]

end LoopForest

namespace Cfg

variable {g : Cfg} {b i j : Nat} {l l' : Loop}

theorem header?_record (hl : l ∈ (g.loops g.domTree).loops.toList) :
    l.record.header? = some l.header := by
  rw [LoopRecord.header?, Loop.record, blocks_of_mem_loops hl, List.head?_cons]

/-- The first loop with a property is the smallest one, if all loops with the property have a
block in common. -/
theorem smallest_iff (hg : g.Closed) {P : LoopRecord → Prop} (hP : ∀ x, P x → b ∈ x.blocks) :
    (g.loops g.domTree).survey.Smallest P i ↔
      (∃ l, (g.loops g.domTree).loops[i]? = some l ∧ P l.record) ∧
        ∀ j l, (g.loops g.domTree).loops[j]? = some l → P l.record → i ≤ j := by
  constructor
  · rintro ⟨_, hx, hPl, hall⟩
    obtain ⟨l, hl, rfl⟩ := LoopForest.getElem?_survey_eq_some_iff.1 hx
    refine ⟨⟨l, hl, hPl⟩, fun j l' hl' hPl' => ?_⟩
    rcases hall j _ (LoopForest.getElem?_survey_eq_some_iff.2 ⟨l', hl', rfl⟩) hPl' with rfl | hin
    · exact Nat.le_refl j
    · exact (lt_of_inside hg hl hl' hin).le
  · rintro ⟨⟨l, hl, hPl⟩, hall⟩
    refine ⟨l.record, LoopForest.getElem?_survey_eq_some_iff.2 ⟨l, hl, rfl⟩, hPl, ?_⟩
    intro j _ hx' hPl'
    obtain ⟨l', hl', rfl⟩ := LoopForest.getElem?_survey_eq_some_iff.1 hx'
    rcases Nat.eq_or_lt_of_le (hall j l' hl' hPl') with rfl | hlt
    · exact .inl rfl
    · exact .inr (inside_of_lt hg hl hl' hlt (hP _ hPl) (hP _ hPl')).1

/-- The way from parent to parent meets the loops around a loop. -/
theorem contains_survey (hg : g.Closed) (hl : (g.loops g.domTree).loops[i]? = some l) (j : Nat) :
    (g.loops g.domTree).survey.contains j i = (g.loops g.domTree).contains j i := by
  have hloop : (g.loops g.domTree).loop i = .ok l := fetch_eq_ok_iff.2 hl
  rw [Survey.contains, LoopForest.parents_survey, (climbs_enclosing hg hl).meets_eq,
    LoopForest.contains, hloop]
  by_cases hij : i = j
  · simp [hij]
  · rw [if_neg hij, List.contains_cons, beq_eq_false_iff_ne.2 (Ne.symm hij), Bool.false_or]
    rfl

/-- The depth of the loop kept for a block is the number of loops around the block. -/
theorem depthOf_survey (hg : g.Closed) (b : Nat) :
    (g.loops g.domTree).survey.depthOf b = .ok ((g.loops g.domTree).depthOf b) := by
  rw [Survey.depthOf, LoopForest.loopOf_survey, LoopForest.depthOf]
  cases hb : (g.loops g.domTree).innermost? b with
  | none =>
    rw [List.head?_eq_none_iff.1 hb]
    rfl
  | some i =>
    obtain ⟨⟨l, hl, -⟩, -⟩ := LoopForest.innermost?_eq_some_iff.1 hb
    have hrecord := LoopForest.getElem?_survey_eq_some_iff.2 ⟨l, hl, rfl⟩
    rw [around_eq_cons hg hl hb]
    show LoopRecord.depth <$> fetch (g.loops g.domTree).survey.loops i = _
    rw [fetch_eq_ok_iff.2 hrecord]
    rfl

theorem nested_survey (hg : g.Closed) : (g.loops g.domTree).survey.Nested := by
  constructor
  case apart_or_inside =>
    intro i j _ _ hx hx' hij
    obtain ⟨l, hl, rfl⟩ := LoopForest.getElem?_survey_eq_some_iff.1 hx
    obtain ⟨l', hl', rfl⟩ := LoopForest.getElem?_survey_eq_some_iff.1 hx'
    exact apart_or_inside hg hl hl' hij
  case parent_iff =>
    intro i _ hx p
    obtain ⟨l, hl, rfl⟩ := LoopForest.getElem?_survey_eq_some_iff.1 hx
    have hcommon : ∀ x, l.record.Inside x → l.header ∈ x.blocks :=
      fun x hin => hin.1 _ (header_mem_blocks hg hl)
    rw [smallest_iff hg hcommon]
    exact parent?_eq_some_iff hg hl
  case parent_none_iff =>
    intro i _ hx
    obtain ⟨l, hl, rfl⟩ := LoopForest.getElem?_survey_eq_some_iff.1 hx
    rw [LoopForest.forall_survey_iff]
    exact LoopForest.head?_eq_none_iff_forall fun j => mem_enclosing_loops_iff hg hl
  case lt_parent =>
    intro i p _ hx hp
    obtain ⟨l, hl, rfl⟩ := LoopForest.getElem?_survey_eq_some_iff.1 hx
    obtain ⟨⟨outer, houter, hin⟩, -⟩ := (parent?_eq_some_iff hg hl).1 hp
    exact lt_of_inside hg hl houter hin
  case nodup_children =>
    intro i _ hx
    obtain ⟨l, hl, rfl⟩ := LoopForest.getElem?_survey_eq_some_iff.1 hx
    exact nodup_children_loops hg hl
  case mem_children_iff =>
    intro i _ hx j
    obtain ⟨l, hl, rfl⟩ := LoopForest.getElem?_survey_eq_some_iff.1 hx
    refine (mem_children_loops_iff hg hl).trans ⟨?_, ?_⟩
    · rintro ⟨inner, hinner, hp⟩
      exact ⟨inner.record, LoopForest.getElem?_survey_eq_some_iff.2 ⟨inner, hinner, rfl⟩, hp⟩
    · rintro ⟨_, hx, hp⟩
      obtain ⟨inner, hinner, rfl⟩ := LoopForest.getElem?_survey_eq_some_iff.1 hx
      exact ⟨inner, hinner, hp⟩
  case contains_eq =>
    intro i j _ _ hx hx'
    obtain ⟨l, hl, rfl⟩ := LoopForest.getElem?_survey_eq_some_iff.1 hx
    obtain ⟨l', hl', rfl⟩ := LoopForest.getElem?_survey_eq_some_iff.1 hx'
    rw [contains_survey hg hl]
    exact contains_loops hg hl hl'
  case loopOf_iff =>
    intro b i
    rw [LoopForest.loopOf_survey, smallest_iff hg fun x hb => hb]
    exact LoopForest.innermost?_eq_some_iff
  case loopOf_none_iff =>
    intro b
    rw [LoopForest.loopOf_survey, LoopForest.forall_survey_iff]
    exact LoopForest.head?_eq_none_iff_forall fun j => LoopForest.mem_around_iff
  case depth_eq =>
    intro i _ hx
    obtain ⟨l, hl, rfl⟩ := LoopForest.getElem?_survey_eq_some_iff.1 hx
    refine ⟨l.header, header?_record (Array.mem_toList_iff.2 (Array.mem_of_getElem? hl)), ?_⟩
    rw [LoopForest.countP_survey]
    exact depth_loops hg hl
  case depthOf_eq =>
    intro b
    rw [depthOf_survey hg, LoopForest.countP_survey]

end Cfg

/-- The traversals of a function come to one survey, that of its loops. The loops in it are the
natural loops of the function, one for each header. The blocks of a loop begin with its header,
stand once each, and are those of the natural loop; after the header they stand in reverse
postorder. -/
theorem loops_are_natural (f : Function) : ∃ s : Survey,
    (∀ r, f.cfg.Surveys f.cfg.domTree r ↔ r = s) ∧ (f.cfg.loops f.cfg.domTree).survey = s ∧
    (∀ h, f.cfg.IsHeader h ↔ ∃ l ∈ s.loops.toList, l.header? = some h) ∧
    (s.loops.toList.map LoopRecord.header?).Nodup ∧
    ∀ l ∈ s.loops.toList, ∃ h, l.header? = some h ∧ l.blocks.Nodup ∧
      (∀ b, b ∈ l.blocks ↔ f.cfg.InNaturalLoop h b) ∧
      l.blocks.tail.Sublist f.cfg.postOrder.reverse := by
  have hg := f.closed_cfg
  have hheaders : (f.cfg.loops f.cfg.domTree).survey.loops.toList.map LoopRecord.header? =
      ((f.cfg.loops f.cfg.domTree).loops.toList.map Loop.header).map some := by
    rw [LoopForest.toList_survey, List.map_map, List.map_map]
    exact List.map_congr_left fun l hl => Cfg.header?_record hl
  refine ⟨_, fun r => Cfg.surveys_iff hg, rfl, fun h => ?_, ?_, LoopForest.forall_survey_iff.2 ?_⟩
  · rw [← Cfg.mem_headers_iff hg, ← List.mem_map, hheaders,
      List.mem_map_of_injective (Option.some_injective _)]
  · rw [hheaders, Cfg.map_header_loops]
    exact ((Cfg.nodup_postOrder_domTree f.cfg).filter _).map (Option.some_injective _)
  · intro l hl
    refine ⟨l.header, Cfg.header?_record hl, Cfg.nodup_blocks hg hl,
      fun b => Cfg.mem_blocks_iff hg hl, ?_⟩
    rw [Loop.record, Cfg.blocks_of_mem_loops hl, List.tail_cons]
    exact List.filter_sublist

/-- The loops of a function are one forest. Two of them have no block in common or one lies
inside the other; parents, inner loops, the loops kept for the blocks and depths say what the blocks
of the loops say. -/
theorem loops_form_forest (f : Function) : ∃ s : Survey,
    (∀ r, f.cfg.Surveys f.cfg.domTree r ↔ r = s) ∧ (f.cfg.loops f.cfg.domTree).survey = s ∧
    s.Nested ∧
    (∀ i < s.loops.size, ∀ j, s.contains j i = (f.cfg.loops f.cfg.domTree).contains j i) ∧
    ∀ b, s.depthOf b = .ok ((f.cfg.loops f.cfg.domTree).depthOf b) := by
  have hg := f.closed_cfg
  refine ⟨_, fun r => Cfg.surveys_iff hg, rfl, Cfg.nested_survey hg, fun i hi j => ?_,
    Cfg.depthOf_survey hg⟩
  obtain ⟨l, hl, -⟩ := LoopForest.getElem?_survey_eq_some_iff.1 (Array.getElem?_eq_getElem hi)
  exact Cfg.contains_survey hg hl j

end GridAccess
