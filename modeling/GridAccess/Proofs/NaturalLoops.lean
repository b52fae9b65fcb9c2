import GridAccess.Flow.Loops
import GridAccess.Proofs.Dominance

set_option autoImplicit false

/-!
# Natural loops

The loops that are found in a graph are its natural loops. An edge from a reached block to one
that dominates it closes a loop; the block it leads to is the header. The loop of a header holds
the header and all reached blocks from which such an edge can be reached on a path around the
header (`mem_loopRegion_iff`). Each header has one loop (`mem_headers_iff`), whose blocks are those
of the natural loop (`mem_blocks_iff`).

A header dominates the blocks of its loop (`InNaturalLoop.dominates`), and a block between the
header and a block of the loop, in the order of dominance, is in the loop
(`InNaturalLoop.of_between`).
-/

namespace GridAccess

namespace Cfg

variable {g : Cfg} {a b h p : Nat}

/-- An edge leads back from the reached block `p` to the block `h`, which dominates it. -/
def BackSource (g : Cfg) (h p : Nat) : Prop :=
  h ∈ g.successors p ∧ g.Reaches p ∧ g.Dominates h p

/-- The block is reached and an edge leads back to it. -/
def IsHeader (g : Cfg) (h : Nat) : Prop := g.Reaches h ∧ ∃ p, g.BackSource h p

/-- The block is `h`, or is reached and has a path around `h` to where an edge leads back to
`h`. -/
def InNaturalLoop (g : Cfg) (h b : Nat) : Prop :=
  b = h ∨ (g.Reaches b ∧ ∃ p q, g.BackSource h p ∧ g.Path b p q ∧ h ∉ q)

/-! ## The shape of a natural loop -/

theorem InNaturalLoop.reaches (hh : g.IsHeader h) (hb : g.InNaturalLoop h b) : g.Reaches b := by
  rcases hb with rfl | ⟨hreach, -⟩
  · exact hh.1
  · exact hreach

/-- The source of an edge back to a header is in its loop. -/
theorem BackSource.inNaturalLoop (hp : g.BackSource h p) : g.InNaturalLoop h p := by
  by_cases hph : p = h
  · exact Or.inl hph
  · exact Or.inr ⟨hp.2.1, p, [p], hp, .here hp.2.1.lt_size, by simpa using Ne.symm hph⟩

/-- A header dominates the blocks of its loop. -/
theorem InNaturalLoop.dominates (hb : g.InNaturalLoop h b) : g.Dominates h b := by
  rcases hb with rfl | ⟨-, p, q, hp, hq, hnot⟩
  · exact .refl g b
  · intro r hr
    obtain ⟨r', hr', hsub⟩ := hr.append hq
    exact (hsub h (hp.2.2 r' hr')).resolve_right hnot

/-- Control stays in a loop as long as it comes to a block of the loop other than the header. -/
theorem InNaturalLoop.of_path {q : List Nat} (hb : g.InNaturalLoop h b) (ha : g.Reaches a)
    (hab : g.Path a b q) (hnot : h ∉ q) : g.InNaturalLoop h a := by
  rcases hb with rfl | ⟨-, p, r, hp, hr, hnotr⟩
  · exact absurd hab.target_mem hnot
  · obtain ⟨s, hs, hsub⟩ := hab.append hr
    exact Or.inr ⟨ha, p, s, hp, hs, fun hmem => (hsub h hmem).elim hnot hnotr⟩

/-- Control that comes to a block of a loop other than the header comes from the loop. -/
theorem InNaturalLoop.of_edge (hb : g.InNaturalLoop h b) (hbh : b ≠ h) (hp : g.Reaches p)
    (hpb : b ∈ g.successors p) : g.InNaturalLoop h p := by
  by_cases hph : p = h
  · exact .inl hph
  · have hlt : b < g.size := (hb.resolve_left hbh).1.lt_size
    exact hb.of_path hp (.step hpb (.here hlt)) (by simp [Ne.symm hph, Ne.symm hbh])

/-- A block that the header dominates and that dominates a block of the loop is in the loop: a
path to the latter passes it after its last passage of the header. -/
theorem InNaturalLoop.of_between (hh : g.IsHeader h) (hb : g.InNaturalLoop h b)
    (hha : g.Dominates h a) (hab : g.Dominates a b) : g.InNaturalLoop h a := by
  by_cases hah : a = h
  · exact Or.inl hah
  have hreach := hb.reaches hh
  have hareach := hab.reaches hreach
  obtain ⟨p, hp⟩ := hreach
  rcases hp.last_of_two (hab p hp) hah with ⟨q, hq, hnot⟩ | ⟨q, hq, hnot⟩
  · exact hb.of_path hareach hq hnot
  · -- otherwise a path around `a` leads to the header and on to `b`
    obtain ⟨r, hr, hnotr⟩ := exists_path_avoiding fun hdom => hah (hdom.antisymm hha hareach)
    obtain ⟨s, hs, hsub⟩ := hr.append hq
    exact absurd (hab s hs) fun hmem => (hsub a hmem).elim hnotr hnot

/-- A block outside a loop that dominates a block of the loop comes before the header. -/
theorem InNaturalLoop.properlyDominates_of_outside (hh : g.IsHeader h) (hb : g.InNaturalLoop h b)
    (hab : g.Dominates a b) (hout : ¬ g.InNaturalLoop h a) : g.ProperlyDominates a h := by
  refine ⟨?_, fun heq => hout (Or.inl heq)⟩
  rcases hab.total hb.dominates (hb.reaches hh) with hah | hha
  · exact hah
  · exact absurd (hb.of_between hh hha hab) hout

/-- If edges to a header come from its loop and from block `p` only, every path to the header
arrives there from `p`. -/
theorem arrives_from_source {r : List Nat} (hzero : h ≠ 0)
    (hsources : ∀ c, h ∈ g.successors c → g.Reaches c → c = p ∨ g.InNaturalLoop h c)
    (hr : g.Path 0 h r) : p ∈ r ∧ h ∈ g.successors p := by
  obtain ⟨c, r', hedge, hr', hnot, hsub⟩ := hr.first_arrival hzero.symm
  rcases hsources c hedge ⟨r', hr'⟩ with rfl | hin
  · exact ⟨hsub c hr'.target_mem, hedge⟩
  · exact absurd (hin.dominates r' hr') hnot

/-! ## The blocks that are found -/

theorem mem_backSources_iff (hg : g.Closed) :
    p ∈ g.backSources g.domTree h ↔ g.BackSource h p := by
  rw [backSources, List.mem_filter, hg.mem_predecessors_iff, Bool.and_eq_true,
    isReachable_domTree_iff hg, BackSource]
  constructor
  · rintro ⟨hedge, hdom, hreach⟩
    exact ⟨hedge, hreach, (dominates_domTree_iff hg hreach).1 hdom⟩
  · rintro ⟨hedge, hreach, hdom⟩
    exact ⟨hedge, (dominates_domTree_iff hg hreach).2 hdom, hreach⟩

/-- One step back from a block other than the header to a reached block before it. -/
theorem edge_back_iff (hg : g.Closed) {u v : Nat} :
    Walk.Edge (fun b => if b = h then [] else (g.predecessors b).filter g.domTree.isReachable) u v
      ↔ u ≠ h ∧ u ∈ g.successors v ∧ g.Reaches v := by
  rw [Walk.Edge]
  by_cases hu : u = h
  · simp [hu]
  · rw [if_neg hu, List.mem_filter, hg.mem_predecessors_iff, isReachable_domTree_iff hg]
    simp [hu]

/-- Going back from a reached block around the header means going forward on a path around it. -/
theorem path_of_back (hg : g.Closed) (hp : g.Reaches p) (hph : Relation.ReflTransGen
      (Walk.Edge fun b => if b = h then [] else (g.predecessors b).filter g.domTree.isReachable)
      p b) (hbh : b ≠ h) : g.Reaches b ∧ ∃ q, g.Path b p q ∧ h ∉ q := by
  induction hph with
  | refl => exact ⟨hp, [p], .here hp.lt_size, by simpa using hbh.symm⟩
  | @tail u v _ huv ih =>
    obtain ⟨huh, huv, hv⟩ := (edge_back_iff hg).1 huv
    obtain ⟨-, q, hq, hnot⟩ := ih huh
    exact ⟨hv, v :: q, .step huv hq, by simp [hbh.symm, hnot]⟩

theorem back_of_path (hg : g.Closed) {q : List Nat} (hb : g.Reaches b) (hq : g.Path b p q)
    (hnot : h ∉ q) : Relation.ReflTransGen
      (Walk.Edge fun b => if b = h then [] else (g.predecessors b).filter g.domTree.isReachable)
      p b := by
  induction hq with
  | here _ => exact Relation.ReflTransGen.refl
  | @step u v c q huv rest ih =>
    simp only [List.mem_cons, not_or] at hnot
    have hvh : v ≠ h := fun heq => hnot.2 (heq ▸ rest.source_mem)
    exact (ih (hb.of_edge hg huv) hnot.2).tail ((edge_back_iff hg).2 ⟨hvh, huv, hb⟩)

/-- Apart from the header, the region of a loop holds the blocks of the natural loop. -/
theorem mem_loopRegion_iff (hg : g.Closed) (hbh : b ≠ h) :
    b ∈ g.loopRegion g.domTree h ↔ g.InNaturalLoop h b := by
  have hnext : ∀ u v, v ∈ (if u = h then [] else
      (g.predecessors u).filter g.domTree.isReachable) → v < g.size :=
    fun u v huv => ((edge_back_iff hg).1 huv).2.2.lt_size
  have hsources : ∀ s ∈ g.backSources g.domTree h, s < g.size :=
    fun s hs => ((mem_backSources_iff hg).1 hs).2.1.lt_size
  rw [loopRegion, Walk.mem_entered_fromAll_iff hnext hsources, InNaturalLoop,
    or_iff_right hbh]
  constructor
  · rintro ⟨p, hp, hpb⟩
    have hback := (mem_backSources_iff hg).1 hp
    obtain ⟨hb, q, hq, hnot⟩ := path_of_back hg hback.2.1 hpb hbh
    exact ⟨hb, p, q, hback, hq, hnot⟩
  · rintro ⟨hb, p, q, hback, hq, hnot⟩
    exact ⟨p, (mem_backSources_iff hg).2 hback, back_of_path hg hb hq hnot⟩

/-! ## The loops that are found -/

theorem map_loops (g : Cfg) (t : DomTree) :
    (g.loops t).loops.toList.map (fun l => (l.header, l.blocks)) = g.loopBlocks t := by
  simp only [loops, List.map_map]
  exact List.zipIdx_map_fst 0 (g.loopBlocks t)

/-- The blocks after the header are those of the natural loop, in reverse postorder. -/
theorem mem_loop_tail_iff (hg : g.Closed) :
    b ∈ (g.postOrder.reverse.filter fun b =>
        b != h && (g.loopRegion g.domTree h).contains b) ↔ b ≠ h ∧ g.InNaturalLoop h b := by
  rw [List.mem_filter, List.mem_reverse, mem_postOrder_iff hg, Bool.and_eq_true, bne_iff_ne,
    List.contains_iff_mem]
  constructor
  · rintro ⟨-, hbh, hb⟩
    exact ⟨hbh, (mem_loopRegion_iff hg hbh).1 hb⟩
  · rintro ⟨hbh, hb⟩
    exact ⟨(hb.resolve_left hbh).1, hbh, (mem_loopRegion_iff hg hbh).2 hb⟩

/-- The headers of the loops, in the order of the loops. -/
theorem map_header_loops (g : Cfg) : (g.loops g.domTree).loops.toList.map Loop.header =
    g.domTree.postOrder.filter fun h => !(g.backSources g.domTree h).isEmpty := by
  have h := congrArg (List.map Prod.fst) (map_loops g g.domTree)
  rw [List.map_map, loopBlocks, List.map_map] at h
  simpa [Function.comp_def] using h

theorem mem_headers_iff (hg : g.Closed) :
    h ∈ (g.loops g.domTree).loops.toList.map Loop.header ↔ g.IsHeader h := by
  rw [map_header_loops, List.mem_filter, mem_postOrder_domTree_iff hg, IsHeader]
  refine and_congr_right fun _ => ?_
  rw [Bool.not_eq_true', List.isEmpty_eq_false_iff_exists_mem]
  exact exists_congr fun p => mem_backSources_iff hg

/-- The blocks of a loop that is found. -/
theorem blocks_of_mem_loops {l : Loop} (hl : l ∈ (g.loops g.domTree).loops.toList) :
    l.blocks = l.header :: g.postOrder.reverse.filter fun b =>
      b != l.header && (g.loopRegion g.domTree l.header).contains b := by
  have hmem : (l.header, l.blocks) ∈ g.loopBlocks g.domTree := by
    rw [← map_loops]
    exact List.mem_map_of_mem hl
  rw [loopBlocks, List.mem_map] at hmem
  obtain ⟨h, -, heq⟩ := hmem
  simp only [Prod.mk.injEq] at heq
  obtain ⟨rfl, hblocks⟩ := heq
  exact hblocks.symm

theorem mem_blocks_iff (hg : g.Closed) {l : Loop} (hl : l ∈ (g.loops g.domTree).loops.toList) :
    b ∈ l.blocks ↔ g.InNaturalLoop l.header b := by
  rw [blocks_of_mem_loops hl, List.mem_cons, mem_loop_tail_iff hg]
  constructor
  · rintro (hb | hb)
    · exact Or.inl hb
    · exact hb.2
  · intro hb
    by_cases hbh : b = l.header
    · exact Or.inl hbh
    · exact Or.inr ⟨hbh, hb⟩

theorem nodup_blocks (hg : g.Closed) {l : Loop} (hl : l ∈ (g.loops g.domTree).loops.toList) :
    l.blocks.Nodup := by
  rw [blocks_of_mem_loops hl, List.nodup_cons]
  refine ⟨fun hmem => ?_, (List.nodup_reverse.2 (nodup_postOrder hg)).filter _⟩
  exact ((mem_loop_tail_iff hg).1 hmem).1 rfl

end Cfg

end GridAccess
