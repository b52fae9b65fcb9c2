import GridAccess.Proofs.AffineEvolutions

set_option autoImplicit false

/-!
# Entry and closing edge of a loop

A loop is entered at its header alone: an edge from a reached block outside the loop to a block
of the loop leads to the header (`Cfg.InNaturalLoop.eq_header_of_enters`). The blocks of the loop
that lead to the header are the sources of the edges back to it (`Cfg.backSource_iff`), so the
latch of a loop is the source of its closing edge if there is one such edge, and there is no latch
otherwise (`Loop.latch?_eq_some_iff`).

A loop that goes on as long as a comparison holds ends in a branch with the header on one side and
a block outside the loop on the other (`Context.branch_of_continuation?`).
-/

namespace GridAccess

namespace Cfg

variable {g : Cfg} {a b h p : Nat}

/-- From a reached block outside a loop, an edge leads to no block of the loop but the header. -/
theorem InNaturalLoop.eq_header_of_enters (hb : g.InNaturalLoop h b) (ha : g.Reaches a)
    (hout : ¬ g.InNaturalLoop h a) (hab : b ∈ g.successors a) : b = h := by
  rcases hb with rfl | ⟨-, p, q, hp, hq, hnot⟩
  · rfl
  · -- the path from `b` around the header could start at `a`, which would be in the loop then
    have hah : h ≠ a := fun heq => hout (Or.inl heq.symm)
    have hin : g.InNaturalLoop h a :=
      Or.inr ⟨ha, p, a :: q, hp, .step hab hq, by simp [hah, hnot]⟩
    exact absurd hin hout

/-- The edges back to a header are the edges to it from the blocks of its loop. -/
theorem backSource_iff (hh : g.IsHeader h) :
    g.BackSource h p ↔ h ∈ g.successors p ∧ g.InNaturalLoop h p := by
  constructor
  · exact fun hp => ⟨hp.1, hp.inNaturalLoop⟩
  · rintro ⟨hedge, hin⟩
    exact ⟨hedge, hin.reaches hh, hin.dominates⟩

end Cfg

namespace Loop

variable {f : Function} {i p : Nat} {l : Loop}

theorem mem_sources_iff (hl : f.loops.loops[i]? = some l) :
    p ∈ (f.cfg.predecessors l.header).filter l.contains ↔ f.cfg.BackSource l.header p := by
  have hg := f.closed_cfg
  rw [List.mem_filter, hg.mem_predecessors_iff, contains, List.contains_iff_mem,
    Cfg.mem_blocks_getElem?_iff hg hl, Cfg.backSource_iff (Cfg.isHeader_of_getElem? hg hl)]

/-- The latch of a loop is the only block with an edge back to the header. -/
theorem latch?_eq_some_iff (hl : f.loops.loops[i]? = some l) :
    l.latch? f.cfg = some p ↔ ∀ q, f.cfg.BackSource l.header q ↔ q = p := by
  have hnodup : ((f.cfg.predecessors l.header).filter l.contains).Nodup :=
    ((Cfg.pairwise_predecessors_ofTargets _ _ _).imp Nat.ne_of_lt).filter _
  simp only [← mem_sources_iff hl, latch?]
  generalize (f.cfg.predecessors l.header).filter l.contains = sources at hnodup
  cases sources with
  | nil => simp
  | cons a rest =>
    cases rest with
    | nil =>
      simp only [Option.some.injEq, List.mem_singleton]
      exact ⟨fun hap q => by rw [hap], fun hall => ((hall a).1 rfl)⟩
    | cons b rest =>
      -- two sources differ, so they cannot both be `p`
      have hab : a ≠ b := by
        rintro rfl
        simp at hnodup
      refine ⟨by simp, fun hall => absurd ?_ hab⟩
      rw [(hall a).1 (by simp), (hall b).1 (by simp)]

end Loop

/-- One side of the branch that ends the latch of a loop is the header. -/
theorem Loop.header_of_latch? {f : Function} {i p onTrue onFalse : Nat} {l : Loop} {cond : Value}
    (hl : f.loops.loops[i]? = some l) (hp : l.latch? f.cfg = some p)
    (hbranch : f.terminator? p = some (.branchIf cond onTrue onFalse)) :
    l.header = onTrue ∨ l.header = onFalse := by
  have hback : f.cfg.BackSource l.header p := ((latch?_eq_some_iff hl).1 hp p).2 rfl
  have htarget : l.header ∈ f.targetsOf p := ((Cfg.mem_successors_ofTargets_iff _ _).1 hback.1).2.2
  rw [Function.targetsOf, hbranch] at htarget
  simpa [Operation.targets] using htarget

/-- The loops of a function have one entry and close at their latch. The header of a loop dominates
the blocks of the loop, and control enters the loop at the header alone. The edges to the header
from blocks of the loop are those from reached blocks that the header dominates; the latch is the
source of such an edge if there is only one. If the loop goes on as long as a comparison holds, then
the latch ends in a branch that has the header on the side of the answer on which the loop goes on
and a block outside the loop on the other. -/
theorem loops_close_at_latch (m : Module) (f : Function) (i : Nat) (l : Loop)
    (hl : f.loops.loops[i]? = some l) :
    (∀ b ∈ l.blocks, f.cfg.Reaches b ∧ f.cfg.Dominates l.header b) ∧
    (∀ a b, f.cfg.Reaches a → a ∉ l.blocks → b ∈ l.blocks → b ∈ f.cfg.successors a →
      b = l.header) ∧
    (∀ p, p ∈ f.cfg.predecessors l.header ∧ p ∈ l.blocks ↔ f.cfg.BackSource l.header p) ∧
    (∀ p, l.latch? f.cfg = some p ↔ ∀ q, f.cfg.BackSource l.header q ↔ q = p) ∧
    ∀ c, (Context.ofFunction m f).continuation? l = .ok (some c) →
      ∃ (p : Nat) (cond : Value) (onTrue onFalse : Nat) (answer : Bool)
        (compared : Context.Comparison),
        l.latch? f.cfg = some p ∧ f.terminator? p = some (.branchIf cond onTrue onFalse) ∧
        (Context.ofFunction m f).comparison? cond = .ok (some compared) ∧
        c = { compared with pred := if answer then compared.pred else compared.pred.inverse } ∧
        (if answer then onTrue else onFalse) = l.header ∧
        (if answer then onFalse else onTrue) ∉ l.blocks := by
  have hg := f.closed_cfg
  have hh := Cfg.isHeader_of_getElem? hg hl
  have hblocks (b : Nat) : b ∈ l.blocks ↔ f.cfg.InNaturalLoop l.header b :=
    Cfg.mem_blocks_getElem?_iff hg hl
  refine ⟨fun b hb => ?_, fun a b ha hout hb hab => ?_, fun p => ?_,
    fun p => Loop.latch?_eq_some_iff hl, fun c hc => ?_⟩
  · have hin := (hblocks b).1 hb
    exact ⟨hin.reaches hh, hin.dominates⟩
  · rw [hblocks] at hout hb
    exact hb.eq_header_of_enters ha hout hab
  · rw [hblocks, hg.mem_predecessors_iff, Cfg.backSource_iff hh]
  · obtain ⟨cond, onTrue, onFalse, answer, compared, hbranch, hcompared, rfl, hstays, hleaves⟩ :=
      Context.branch_of_continuation? hc
    obtain ⟨p, hp, hterminator⟩ := Option.bind_eq_some_iff.1 hbranch
    refine ⟨p, cond, onTrue, onFalse, answer, compared, hp, hterminator, hcompared, rfl, ?_,
      hleaves⟩
    -- the header is one of the two sides, and it is not the one that leaves the loop
    have hheader : l.header ∈ l.blocks := (hblocks _).2 (Or.inl rfl)
    have hne : ∀ b, b ∉ l.blocks → l.header ≠ b := fun b hb heq => hb (heq ▸ hheader)
    have hside := Loop.header_of_latch? hl hp hterminator
    cases answer with
    | true => exact (hside.resolve_right (hne _ hleaves)).symm
    | false => exact (hside.resolve_left (hne _ hleaves)).symm

/-- The outer loop of `triangle` is entered at block 1 and closed by block 3. -/
theorem loops_close_at_latch_triangle :
    let l : Loop := ⟨1, [1, 2, 3], [], [0]⟩
    triangle.loops.loops[1]? = some l ∧
    (∀ q, triangle.cfg.BackSource 1 q ↔ q = 3) ∧
    ∃ (p : Nat) (cond : Value) (onTrue onFalse : Nat) (answer : Bool)
      (compared : Context.Comparison),
      l.latch? triangle.cfg = some p ∧
      triangle.terminator? p = some (.branchIf cond onTrue onFalse) ∧
      (Context.ofFunction triangular triangle).comparison? cond = .ok (some compared) ∧
      ⟨.slt, .instruction 7, .argument 0⟩ =
        ({ compared with pred := if answer then compared.pred else compared.pred.inverse } :
          Context.Comparison) ∧
      (if answer then onTrue else onFalse) = 1 ∧ (if answer then onFalse else onTrue) ∉ l.blocks := by
  intro l
  have hl : triangle.loops.loops[1]? = some l := by decide
  obtain ⟨-, -, -, hlatch, hclose⟩ := loops_close_at_latch triangular triangle 1 l hl
  exact ⟨hl, (hlatch 3).1 (by decide), hclose ⟨.slt, .instruction 7, .argument 0⟩ (by decide)⟩

end GridAccess
