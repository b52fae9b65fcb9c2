import GridAccess.Proofs.NaturalLoops
import GridAccess.Proofs.Outcome

set_option autoImplicit false

/-!
# The forest of loops

Two loops of a graph have no block in common or one lies inside the other. A shared block has
both headers among its dominators, and these are a chain; the loop of the lower header then lies
inside that of the upper one (`InNaturalLoop.nested`). Inner loops have smaller numbers, because
the headers are numbered in the postorder of the dominator tree. So the loops around a block, in
the order of their numbers, stand from the inside out (`inside_of_lt`).

The loops around a loop are its parent and those around its parent (`enclosing_of_parent?`). The
innermost loop of a block and the loops around that are all loops of the block (`around_eq_cons`).
-/

namespace GridAccess

namespace Loop

/-- All blocks of the loop are blocks of `outer`, which has more. -/
def Inside (l outer : Loop) : Prop :=
  (∀ b ∈ l.blocks, b ∈ outer.blocks) ∧ ∃ b ∈ outer.blocks, b ∉ l.blocks

/-- The loops have no block in common. -/
def Apart (l l' : Loop) : Prop := ∀ b ∈ l.blocks, b ∉ l'.blocks

theorem Inside.asymm {l l' : Loop} (h : l.Inside l') : ¬ l'.Inside l := by
  rintro ⟨-, b, hb, hnot⟩
  exact hnot (h.1 b hb)

theorem Inside.trans {l l' l'' : Loop} (h : l.Inside l') (h' : l'.Inside l'') : l.Inside l'' := by
  obtain ⟨hsub, b, hb, hnot⟩ := h
  exact ⟨fun x hx => h'.1 x (hsub x hx), b, h'.1 b hb, hnot⟩

end Loop

/-- The first entry of an increasing list is its smallest one. -/
theorem head?_eq_some_iff_of_increasing {ns : List Nat} (h : ns.Pairwise (· < ·)) {n : Nat} :
    ns.head? = some n ↔ n ∈ ns ∧ ∀ m ∈ ns, m = n ∨ n < m := by
  cases h with
  | nil => simp
  | @cons k ns hk _ =>
    rw [List.head?_cons, Option.some.injEq]
    constructor
    · rintro rfl
      refine ⟨List.mem_cons_self, fun m hm => ?_⟩
      exact (List.mem_cons.1 hm).imp_right (hk m)
    · rintro ⟨hn, hall⟩
      rcases List.mem_cons.1 hn with rfl | hn
      · rfl
      · have := hk n hn
        have := hall k List.mem_cons_self
        omega

namespace LoopForest

variable {F : LoopForest} {b i : Nat} {l : Loop}

/-! ## The loops around a block -/

theorem mem_around_iff : i ∈ F.around b ↔ ∃ l, F.loops[i]? = some l ∧ b ∈ l.blocks := by
  rw [around, List.mem_filter, List.mem_range]
  constructor
  · rintro ⟨hi, hb⟩
    rw [Array.getElem?_eq_getElem hi] at hb ⊢
    exact ⟨_, rfl, by simpa [Loop.contains] using hb⟩
  · rintro ⟨l, hl, hb⟩
    obtain ⟨hi, -⟩ := Array.getElem?_eq_some_iff.1 hl
    exact ⟨hi, by simpa [hl, Loop.contains] using hb⟩

theorem increasing_around (F : LoopForest) (b : Nat) : (F.around b).Pairwise (· < ·) :=
  List.pairwise_lt_range.filter _

/-- The innermost loop of a block is the first one that has it. -/
theorem innermost?_eq_some_iff : F.innermost? b = some i ↔
    (∃ l, F.loops[i]? = some l ∧ b ∈ l.blocks) ∧
      ∀ j l, F.loops[j]? = some l → b ∈ l.blocks → i ≤ j := by
  rw [innermost?, head?_eq_some_iff_of_increasing (F.increasing_around b), mem_around_iff]
  refine and_congr_right fun _ => ⟨fun h j l hl hb => ?_, fun h j hj => ?_⟩
  · rcases h j (mem_around_iff.2 ⟨l, hl, hb⟩) with rfl | hlt <;> omega
  · obtain ⟨l, hl, hb⟩ := mem_around_iff.1 hj
    exact (Nat.eq_or_lt_of_le (h j l hl hb)).imp_left Eq.symm

theorem exists_innermost? (hl : F.loops[i]? = some l) (hb : b ∈ l.blocks) :
    ∃ j ≤ i, F.innermost? b = some j := by
  cases h : F.innermost? b with
  | none =>
    have hnil := List.head?_eq_none_iff.1 h
    have hmem := mem_around_iff.2 ⟨l, hl, hb⟩
    rw [hnil] at hmem
    cases hmem
  | some j => exact ⟨j, (innermost?_eq_some_iff.1 h).2 i l hl hb, rfl⟩

/-- The loops around a block, out of the numbered loops. -/
theorem around_eq (F : LoopForest) (b : Nat) :
    F.around b = (F.loops.toList.zipIdx.filter fun x => x.1.contains b).map Prod.snd := by
  have hrange : List.range F.loops.size = F.loops.toList.zipIdx.map Prod.snd := by
    rw [List.zipIdx_map_snd, Array.length_toList, List.range_eq_range']
  rw [around, hrange, List.filter_map]
  refine congrArg _ (List.filter_congr fun x hx => ?_)
  have hx := List.mk_mem_zipIdx_iff_getElem?.1 (show (x.1, x.2) ∈ F.loops.toList.zipIdx from hx)
  rw [Array.getElem?_toList] at hx
  simp [hx]

theorem depthOf_eq_countP (F : LoopForest) (b : Nat) :
    F.depthOf b = F.loops.toList.countP fun l => b ∈ l.blocks := by
  have hmap := List.zipIdx_map_fst 0 F.loops.toList
  rw [depthOf, around_eq, List.length_map, ← List.countP_eq_length_filter]
  conv_rhs => rw [← hmap, List.countP_map]
  refine List.countP_congr fun x _ => ?_
  simp [Loop.contains]

/-- No loop has a property if the list of the loops that have it is empty. -/
theorem head?_eq_none_iff_forall {P : Loop → Prop} {ns : List Nat}
    (hmem : ∀ j, j ∈ ns ↔ ∃ l, F.loops[j]? = some l ∧ P l) :
    ns.head? = none ↔ ∀ l ∈ F.loops.toList, ¬ P l := by
  rw [List.head?_eq_none_iff, List.eq_nil_iff_forall_not_mem]
  simp only [List.mem_iff_getElem?, Array.getElem?_toList, hmem]
  constructor
  · rintro hnone l ⟨j, hj⟩ hPl
    exact hnone j ⟨l, hj, hPl⟩
  · rintro hall j ⟨l, hj, hPl⟩
    exact hall l ⟨j, hj⟩ hPl

end LoopForest

namespace Cfg

variable {g : Cfg} {b h h' i j p : Nat} {l l' outer : Loop}

/-! ## Natural loops are nested -/

/-- Of two natural loops with a common block, that of the lower header lies inside the other. -/
theorem InNaturalLoop.nested (hh : g.IsHeader h) (hb : g.InNaturalLoop h b)
    (hb' : g.InNaturalLoop h' b) (hdom : g.ProperlyDominates h h') :
    (∀ x, g.InNaturalLoop h' x → g.InNaturalLoop h x) ∧ ¬ g.InNaturalLoop h' h := by
  have hlower : g.InNaturalLoop h h' := hb.of_between hh hdom.1 hb'.dominates
  have hnot : ¬ g.Dominates h' h := fun hback => hdom.2 (hdom.1.antisymm hback hh.1)
  refine ⟨fun x hx => ?_, fun hin => hnot hin.dominates⟩
  rcases hx with rfl | ⟨hx, p, q, hp, hq, hnotq⟩
  · exact hlower
  · have hp' : g.InNaturalLoop h p := by
      have hph : p ≠ h := fun heq => hnot (heq ▸ hp.2.2)
      exact hlower.of_path hp.2.1 (.step hp.1 (.here (hlower.reaches hh).lt_size))
        (by simp [Ne.symm hph, hdom.2])
    -- the way from `x` back to the lower header does not pass the upper one, which would then
    -- be in the loop of the lower header and be dominated by it
    refine hp'.of_path hx hq fun hmem => ?_
    obtain ⟨r, hr, -, hsub⟩ := hq.from_last hmem
    have hnotr : h' ∉ h :: r := by
      intro hin
      rcases List.mem_cons.1 hin with heq | hin
      · exact hdom.2 heq.symm
      · exact hnotq (hsub h' hin)
    exact hnot (InNaturalLoop.dominates (Or.inr ⟨hh.1, p, _, hp, hr, hnotr⟩))

/-! ## The order of the loops -/

theorem isHeader_of_getElem? (hg : g.Closed) (hl : (g.loops g.domTree).loops[i]? = some l) :
    g.IsHeader l.header := by
  rw [← mem_headers_iff hg]
  exact List.mem_map_of_mem (Array.mem_toList_iff.2 (Array.mem_of_getElem? hl))

theorem mem_blocks_getElem?_iff (hg : g.Closed)
    (hl : (g.loops g.domTree).loops[i]? = some l) : b ∈ l.blocks ↔ g.InNaturalLoop l.header b :=
  mem_blocks_iff hg (Array.mem_toList_iff.2 (Array.mem_of_getElem? hl))

theorem header_mem_blocks (hg : g.Closed) (hl : (g.loops g.domTree).loops[i]? = some l) :
    l.header ∈ l.blocks :=
  (mem_blocks_getElem?_iff hg hl).2 (.inl rfl)

/-- A loop has a smaller number than another one only if its header does not dominate the header
of the other. -/
theorem not_properlyDominates_of_lt (hg : g.Closed)
    (hl : (g.loops g.domTree).loops[i]? = some l)
    (hl' : (g.loops g.domTree).loops[j]? = some l') (hij : i < j) :
    l.header ≠ l'.header ∧ ¬ g.ProperlyDominates l.header l'.header := by
  have horder : ((g.loops g.domTree).loops.toList.map Loop.header).Pairwise fun a b =>
      a ≠ b ∧ ¬ g.ProperlyDominates a b := by
    rw [map_header_loops]
    exact ((nodup_postOrder_domTree g).and (pairwise_postOrder_domTree hg)).filter _
  rw [List.pairwise_map, List.pairwise_iff_getElem] at horder
  obtain ⟨hi, rfl⟩ := Array.getElem?_eq_some_iff.1 hl
  obtain ⟨hj, rfl⟩ := Array.getElem?_eq_some_iff.1 hl'
  exact horder i j hi hj hij

/-- Of two loops with a common block the one with the smaller number lies inside the other, and
without the header of the other. -/
theorem inside_of_lt (hg : g.Closed) (hl : (g.loops g.domTree).loops[i]? = some l)
    (hl' : (g.loops g.domTree).loops[j]? = some l') (hij : i < j) (hb : b ∈ l.blocks)
    (hb' : b ∈ l'.blocks) : l.Inside l' ∧ l'.header ∉ l.blocks := by
  have hh := isHeader_of_getElem? hg hl
  have hh' := isHeader_of_getElem? hg hl'
  obtain ⟨hne, hnot⟩ := not_properlyDominates_of_lt hg hl hl' hij
  rw [mem_blocks_getElem?_iff hg hl] at hb
  rw [mem_blocks_getElem?_iff hg hl'] at hb'
  have hdom : g.ProperlyDominates l'.header l.header := by
    rcases hb.dominates.total hb'.dominates (hb.reaches hh) with hdom | hdom
    · exact absurd ⟨hdom, hne⟩ hnot
    · exact ⟨hdom, hne.symm⟩
  obtain ⟨hsub, hout⟩ := hb'.nested hh' hb hdom
  rw [← mem_blocks_getElem?_iff hg hl] at hout
  refine ⟨⟨fun x hx => ?_, l'.header, ?_, hout⟩, hout⟩
  · exact (mem_blocks_getElem?_iff hg hl').2 (hsub x ((mem_blocks_getElem?_iff hg hl).1 hx))
  · exact header_mem_blocks hg hl'

/-- A loop has the header of another one if and only if the other lies inside it. -/
theorem header_mem_iff (hg : g.Closed) (hl : (g.loops g.domTree).loops[i]? = some l)
    (hl' : (g.loops g.domTree).loops[j]? = some l') (hij : i ≠ j) :
    l.header ∈ l'.blocks ↔ l.Inside l' := by
  have hself := header_mem_blocks hg hl
  constructor
  · intro hb
    rcases Nat.lt_or_gt_of_ne hij with hlt | hgt
    · exact (inside_of_lt hg hl hl' hlt hself hb).1
    · exact absurd hb (inside_of_lt hg hl' hl hgt hb hself).2
  · exact fun hin => hin.1 l.header hself

theorem lt_of_inside (hg : g.Closed) (hl : (g.loops g.domTree).loops[i]? = some l)
    (hl' : (g.loops g.domTree).loops[j]? = some l') (hin : l.Inside l') : i < j := by
  have hself := header_mem_blocks hg hl
  rcases Nat.lt_trichotomy i j with hlt | rfl | hgt
  · exact hlt
  · obtain rfl := Option.some.inj (hl.symm.trans hl')
    exact absurd hin hin.asymm
  · exact absurd (inside_of_lt hg hl' hl hgt (hin.1 _ hself) hself).1 hin.asymm

/-- Two loops have no block in common or one lies inside the other. -/
theorem apart_or_inside (hg : g.Closed) (hl : (g.loops g.domTree).loops[i]? = some l)
    (hl' : (g.loops g.domTree).loops[j]? = some l') (hij : i ≠ j) :
    l.Apart l' ∨ l.Inside l' ∨ l'.Inside l := by
  by_cases hshare : ∃ b, b ∈ l.blocks ∧ b ∈ l'.blocks
  · obtain ⟨b, hb, hb'⟩ := hshare
    rcases Nat.lt_or_gt_of_ne hij with hlt | hgt
    · exact .inr (.inl (inside_of_lt hg hl hl' hlt hb hb').1)
    · exact .inr (.inr (inside_of_lt hg hl' hl hgt hb' hb).1)
  · exact .inl fun b hb hb' => hshare ⟨b, hb, hb'⟩

/-- The innermost loop of a header is its own. -/
theorem innermost?_header (hg : g.Closed) (hl : (g.loops g.domTree).loops[i]? = some l) :
    (g.loops g.domTree).innermost? l.header = some i := by
  have hself := header_mem_blocks hg hl
  refine LoopForest.innermost?_eq_some_iff.2 ⟨⟨l, hl, hself⟩, fun j l' hl' hb => ?_⟩
  by_contra hlt
  exact (inside_of_lt hg hl' hl (Nat.not_le.1 hlt) hb hself).2 hb

/-! ## The lists of a loop -/

/-- The loops around a block, out of the headers and their blocks. -/
theorem around_loops (g : Cfg) (t : DomTree) (b : Nat) : (g.loops t).around b =
    ((g.loopBlocks t).zipIdx.filter fun x => x.1.2.contains b).map Prod.snd := by
  rw [LoopForest.around_eq, ← map_loops, List.zipIdx_map, List.filter_map, List.map_map]
  rfl

/-- The headers of the loops with the numbers of the loops, in reverse postorder. -/
def numberedHeaders (g : Cfg) (t : DomTree) : List (Nat × Nat) :=
  g.postOrder.reverse.flatMap fun b =>
    ((g.loopBlocks t).zipIdx.filter fun x => x.1.1 == b).map fun x => (x.1.1, x.2)

theorem lists_of_loops {t : DomTree} (hl : (g.loops t).loops[i]? = some l) :
    l.enclosing = ((g.loops t).around l.header).filter (· != i) ∧
    l.children = ((g.numberedHeaders t).filter fun x =>
      (((g.loops t).around x.1).filter (· != x.2)).head? == some i).map Prod.snd := by
  simp only [around_loops]
  rw [loops, List.getElem?_toArray, List.getElem?_map, List.getElem?_zipIdx, Option.map_map,
    Option.map_eq_some_iff] at hl
  obtain ⟨x, -, rfl⟩ := hl
  rw [Nat.zero_add]
  exact ⟨rfl, rfl⟩

theorem parent?_loops {t : DomTree} (hl : (g.loops t).loops[i]? = some l) :
    l.parent? = (((g.loops t).around l.header).filter (· != i)).head? :=
  congrArg List.head? (lists_of_loops hl).1

theorem mem_zipIdx_loopBlocks_iff {t : DomTree} {x : (Nat × List Nat) × Nat} :
    x ∈ (g.loopBlocks t).zipIdx ↔
      ∃ l, (g.loops t).loops[x.2]? = some l ∧ (l.header, l.blocks) = x.1 := by
  rw [List.mem_zipIdx_iff_getElem?, ← map_loops, List.getElem?_map, Option.map_eq_some_iff,
    Array.getElem?_toList]

theorem mem_numberedHeaders_iff (hg : g.Closed) : (h, j) ∈ g.numberedHeaders g.domTree ↔
    ∃ l, (g.loops g.domTree).loops[j]? = some l ∧ l.header = h := by
  simp only [numberedHeaders, List.mem_flatMap, List.mem_map, List.mem_filter,
    mem_zipIdx_loopBlocks_iff]
  constructor
  · rintro ⟨b, -, ⟨x, k⟩, ⟨⟨l, hl, rfl⟩, -⟩, heq⟩
    obtain ⟨rfl, rfl⟩ := Prod.mk.inj heq
    exact ⟨l, hl, rfl⟩
  · rintro ⟨l, hl, rfl⟩
    -- a header is reached, so the postorder has it
    have hreach := (mem_postOrder_iff hg).2 (isHeader_of_getElem? hg hl).1
    exact ⟨l.header, List.mem_reverse.2 hreach, ((l.header, l.blocks), j),
      ⟨⟨l, hl, rfl⟩, by simp⟩, rfl⟩

theorem nodup_numberedHeaders (hg : g.Closed) (t : DomTree) :
    (g.numberedHeaders t).Nodup := by
  rw [numberedHeaders, List.nodup_flatMap]
  constructor
  · intro b _
    have hnodup : ((g.loopBlocks t).zipIdx.map Prod.snd).Nodup := by
      rw [List.zipIdx_map_snd]
      exact List.nodup_range'
    -- the numbers alone are without repetition
    refine List.Nodup.of_map Prod.snd ?_
    rw [List.map_map]
    exact hnodup.sublist (List.filter_sublist.map Prod.snd)
  · refine (List.nodup_reverse.2 (nodup_postOrder hg)).imp fun {a b} hab => ?_
    intro x hxa hxb
    obtain ⟨y, hy, rfl⟩ := List.mem_map.1 hxa
    obtain ⟨z, hz, hzy⟩ := List.mem_map.1 hxb
    have hya : y.1.1 = a := by simpa using (List.mem_filter.1 hy).2
    have hzb : z.1.1 = b := by simpa using (List.mem_filter.1 hz).2
    have heq : z.1.1 = y.1.1 := (Prod.mk.inj hzy).1
    exact hab (by rw [← hya, ← hzb, heq])

/-! ## What a loop is said to lie in -/

theorem mem_enclosing_iff (hg : g.Closed) (hl : (g.loops g.domTree).loops[i]? = some l) :
    j ∈ ((g.loops g.domTree).around l.header).filter (· != i) ↔
      ∃ outer, (g.loops g.domTree).loops[j]? = some outer ∧ l.Inside outer := by
  rw [List.mem_filter, LoopForest.mem_around_iff, bne_iff_ne]
  constructor
  · rintro ⟨⟨outer, houter, hb⟩, hji⟩
    exact ⟨outer, houter, (header_mem_iff hg hl houter hji.symm).1 hb⟩
  · rintro ⟨outer, houter, hin⟩
    have hji : j ≠ i := (lt_of_inside hg hl houter hin).ne'
    exact ⟨⟨outer, houter, (header_mem_iff hg hl houter hji.symm).2 hin⟩, hji⟩

theorem parent?_eq_some_iff (hg : g.Closed) (hl : (g.loops g.domTree).loops[i]? = some l) :
    l.parent? = some p ↔
      (∃ outer, (g.loops g.domTree).loops[p]? = some outer ∧ l.Inside outer) ∧
        ∀ j outer, (g.loops g.domTree).loops[j]? = some outer → l.Inside outer → p ≤ j := by
  rw [parent?_loops hl, head?_eq_some_iff_of_increasing
    ((LoopForest.increasing_around _ l.header).filter _), mem_enclosing_iff hg hl]
  refine and_congr_right fun _ => ⟨fun h j outer houter hin => ?_, fun h j hj => ?_⟩
  · rcases h j ((mem_enclosing_iff hg hl).2 ⟨outer, houter, hin⟩) with rfl | hlt <;> omega
  · obtain ⟨outer, houter, hin⟩ := (mem_enclosing_iff hg hl).1 hj
    exact (Nat.eq_or_lt_of_le (h j outer houter hin)).imp_left Eq.symm

theorem exists_parent? (hg : g.Closed) (hl : (g.loops g.domTree).loops[i]? = some l)
    (hl' : (g.loops g.domTree).loops[j]? = some l') (hin : l.Inside l') :
    ∃ p ≤ j, l.parent? = some p := by
  cases hp : l.parent? with
  | none =>
    rw [parent?_loops hl, List.head?_eq_none_iff] at hp
    have hmem := (mem_enclosing_iff hg hl).2 ⟨l', hl', hin⟩
    rw [hp] at hmem
    cases hmem
  | some p => exact ⟨p, ((parent?_eq_some_iff hg hl).1 hp).2 j l' hl' hin, rfl⟩

theorem contains_loops (hg : g.Closed) (hl : (g.loops g.domTree).loops[i]? = some l)
    (hl' : (g.loops g.domTree).loops[j]? = some l') :
    (g.loops g.domTree).contains j i = .ok (decide (∀ b ∈ l.blocks, b ∈ l'.blocks)) := by
  rw [LoopForest.contains]
  by_cases hij : i = j
  · subst hij
    obtain rfl := Option.some.inj (hl.symm.trans hl')
    rw [if_pos rfl, decide_eq_true fun b hb => hb]
  · have hloop : (g.loops g.domTree).loop i = .ok l := fetch_eq_ok_iff.2 hl
    rw [if_neg hij, hloop]
    refine congrArg Except.ok ?_
    show l.enclosing.contains j = _
    rw [(lists_of_loops hl).1, Bool.eq_iff_iff, List.contains_iff_mem, decide_eq_true_iff,
      mem_enclosing_iff hg hl]
    constructor
    · rintro ⟨outer, houter, hin⟩
      obtain rfl := Option.some.inj (hl'.symm.trans houter)
      exact hin.1
    · intro hall
      have hb := hall l.header (header_mem_blocks hg hl)
      exact ⟨l', hl', (header_mem_iff hg hl hl' hij).1 hb⟩

theorem mem_children_loops_iff (hg : g.Closed) (hl : (g.loops g.domTree).loops[i]? = some l) :
    j ∈ l.children ↔
      ∃ inner, (g.loops g.domTree).loops[j]? = some inner ∧ inner.parent? = some i := by
  rw [(lists_of_loops hl).2, List.mem_map]
  constructor
  · rintro ⟨⟨h, k⟩, hx, rfl⟩
    obtain ⟨hx, hparent⟩ := List.mem_filter.1 hx
    obtain ⟨inner, hinner, rfl⟩ := (mem_numberedHeaders_iff hg).1 hx
    rw [beq_iff_eq, ← parent?_loops hinner] at hparent
    exact ⟨inner, hinner, hparent⟩
  · rintro ⟨inner, hinner, hparent⟩
    refine ⟨(inner.header, j), List.mem_filter.2 ⟨?_, ?_⟩, rfl⟩
    · exact (mem_numberedHeaders_iff hg).2 ⟨inner, hinner, rfl⟩
    · rw [beq_iff_eq, ← parent?_loops hinner]
      exact hparent

theorem nodup_children_loops (hg : g.Closed) (hl : (g.loops g.domTree).loops[i]? = some l) :
    l.children.Nodup := by
  rw [(lists_of_loops hl).2]
  refine List.Nodup.map_on ?_ ((nodup_numberedHeaders hg _).filter _)
  rintro ⟨h, k⟩ hx ⟨h', k'⟩ hx' hkk
  obtain rfl : k = k' := hkk
  obtain ⟨inner, hinner, rfl⟩ := (mem_numberedHeaders_iff hg).1 (List.mem_filter.1 hx).1
  obtain ⟨inner', hinner', rfl⟩ := (mem_numberedHeaders_iff hg).1 (List.mem_filter.1 hx').1
  obtain rfl := Option.some.inj (hinner.symm.trans hinner')
  rfl

theorem depth_loops (hg : g.Closed) (hl : (g.loops g.domTree).loops[i]? = some l) :
    l.depth = (g.loops g.domTree).depthOf l.header := by
  have hself : i ∈ (g.loops g.domTree).around l.header :=
    LoopForest.mem_around_iff.2 ⟨l, hl, header_mem_blocks hg hl⟩
  have hnodup : ((g.loops g.domTree).around l.header).Nodup :=
    ((g.loops g.domTree).increasing_around l.header).imp Nat.ne_of_lt
  rw [Loop.depth, (lists_of_loops hl).1, ← hnodup.erase_eq_filter, List.length_erase_of_mem hself,
    LoopForest.depthOf]
  have := List.length_pos_of_mem hself
  omega

/-! ## The loops around a loop -/

theorem enclosing_eq (hl : (g.loops g.domTree).loops[i]? = some l) :
    l.enclosing = ((g.loops g.domTree).around l.header).filter (· != i) :=
  (lists_of_loops hl).1

theorem mem_enclosing_loops_iff (hg : g.Closed) (hl : (g.loops g.domTree).loops[i]? = some l) :
    j ∈ l.enclosing ↔ ∃ outer, (g.loops g.domTree).loops[j]? = some outer ∧ l.Inside outer := by
  rw [enclosing_eq hl, mem_enclosing_iff hg hl]

theorem increasing_enclosing (hg : g.Closed) (hl : (g.loops g.domTree).loops[i]? = some l) :
    (i :: l.enclosing).Pairwise (· < ·) := by
  refine .cons (fun j hj => ?_) ?_
  · obtain ⟨outer, houter, hin⟩ := (mem_enclosing_loops_iff hg hl).1 hj
    exact lt_of_inside hg hl houter hin
  · rw [enclosing_eq hl]
    exact (LoopForest.increasing_around _ _).filter _

/-- The loops around a block are its innermost loop and those around that. -/
theorem around_eq_cons (hg : g.Closed) (hl : (g.loops g.domTree).loops[i]? = some l)
    (hb : (g.loops g.domTree).innermost? b = some i) :
    (g.loops g.domTree).around b = i :: l.enclosing := by
  obtain ⟨⟨l', hl', hmem⟩, hmin⟩ := LoopForest.innermost?_eq_some_iff.1 hb
  obtain rfl := Option.some.inj (hl.symm.trans hl')
  refine (LoopForest.increasing_around _ b).eq_of_mem_iff (increasing_enclosing hg hl) fun j => ?_
  rw [LoopForest.mem_around_iff, List.mem_cons, mem_enclosing_loops_iff hg hl]
  constructor
  · rintro ⟨outer, houter, hmem'⟩
    rcases Nat.eq_or_lt_of_le (hmin j outer houter hmem') with rfl | hlt
    · exact .inl rfl
    · exact .inr ⟨outer, houter, (inside_of_lt hg hl houter hlt hmem hmem').1⟩
  · rintro (rfl | ⟨outer, houter, hin⟩)
    · exact ⟨l, hl, hmem⟩
    · exact ⟨outer, houter, hin.1 b hmem⟩

/-- The loops around a loop are its parent and those around that. -/
theorem enclosing_of_parent? (hg : g.Closed) (hl : (g.loops g.domTree).loops[i]? = some l)
    (houter : (g.loops g.domTree).loops[p]? = some outer) (hp : l.parent? = some p) :
    l.enclosing = p :: outer.enclosing := by
  obtain ⟨⟨outer', houter', hin⟩, hmin⟩ := (parent?_eq_some_iff hg hl).1 hp
  obtain rfl := Option.some.inj (houter.symm.trans houter')
  have hself := header_mem_blocks hg hl
  refine (increasing_enclosing hg hl).of_cons.eq_of_mem_iff (increasing_enclosing hg houter)
    fun j => ?_
  rw [List.mem_cons, mem_enclosing_loops_iff hg hl, mem_enclosing_loops_iff hg houter]
  constructor
  · rintro ⟨l', hl', hin'⟩
    rcases Nat.eq_or_lt_of_le (hmin j l' hl' hin') with rfl | hlt
    · exact .inl rfl
    · exact .inr ⟨l', hl', (inside_of_lt hg houter hl' hlt (hin.1 _ hself) (hin'.1 _ hself)).1⟩
  · rintro (rfl | ⟨l', hl', hin'⟩)
    · exact ⟨outer, houter, hin⟩
    · exact ⟨l', hl', hin.trans hin'⟩

theorem enclosing_eq_nil (h : l.parent? = none) : l.enclosing = [] := List.head?_eq_none_iff.1 h

end Cfg

end GridAccess
