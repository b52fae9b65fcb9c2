import GridAccess.Proofs.LoopSurvey

set_option autoImplicit false

/-!
# Discovery finds the loops

The worklists of a survey find the loops of the graph and how they are nested. After the first `k`
headers, each block is mapped to its innermost loop and each loop has its parent, as far as these
are among the first `k` loops (`LoopForest.upTo`).

While loop `k` is mapped, what is said in the end about loops before it is known, and what is said
about loop `k` is either known or open (`Known`). A block is covered once the way up from its loop
leads to loop `k` (`Survey.Covers`). All sources of edges back to the header are covered or still to
be visited, and so is all that lies before a covered block other than the header
(`Survey.Pending`). Putting a loop inside loop `k` covers all of its blocks at once; before such a
block, unless it is the header of the inner loop, lie only blocks of the inner loop. At the end of
the worklist all blocks of the loop are covered (`Survey.covers_of_pending_nil`). It has an end
because each visit that brings more blocks gives a loop to a block, or a parent to a loop
(`Survey.openings`).
-/

namespace GridAccess

/-! ## What is known after some loops -/

/-- Of what is said about a block or a loop in the end, all that concerns loops before loop `k` is
known now, and of loop `k` perhaps something. -/
structure Known (k : Nat) (final now : Option Nat) : Prop where
  sound : ∀ j, now = some j → final = some j ∧ j ≤ k
  complete : ∀ j, final = some j → j < k → now = some j

namespace Known

variable {k j : Nat} {final now : Option Nat}

theorem of_filter : Known k final (final.filter (· < k)) := by
  refine ⟨fun j hj => ?_, fun j hj hlt => ?_⟩
  · obtain ⟨hfinal, hlt⟩ := Option.filter_eq_some_iff.1 hj
    exact ⟨hfinal, Nat.le_of_lt (of_decide_eq_true hlt)⟩
  · exact Option.filter_eq_some_iff.2 ⟨hj, decide_eq_true hlt⟩

theorem of_none (h : ∀ j, final = some j → k ≤ j) : Known k final none :=
  ⟨nofun, fun j hj hlt => absurd (h j hj) (Nat.not_le.2 hlt)⟩

theorem of_some (h : final = some k) : Known k final (some k) := by
  refine ⟨fun j hj => ?_, fun j hj hlt => ?_⟩
  · obtain rfl := Option.some.inj hj
    exact ⟨h, le_rfl⟩
  · obtain rfl := Option.some.inj (h.symm.trans hj)
    exact absurd hlt (Nat.lt_irrefl _)

/-- All is known of loop `k`, too. -/
theorem eq_filter (h : Known k final now) (hk : final = some k → now ≠ none) :
    now = final.filter (· < k + 1) := by
  cases now with
  | some j =>
    obtain ⟨hj, hle⟩ := h.sound j rfl
    exact (Option.filter_eq_some_iff.2 ⟨hj, decide_eq_true (Nat.lt_succ_of_le hle)⟩).symm
  | none =>
    cases hfilter : final.filter (· < k + 1) with
    | none => rfl
    | some j =>
      obtain ⟨hj, hlt⟩ := Option.filter_eq_some_iff.1 hfilter
      rcases Nat.lt_or_eq_of_le (Nat.le_of_lt_succ (of_decide_eq_true hlt)) with hlt | rfl
      · exact h.complete j hj hlt
      · exact absurd rfl (hk hj)

end Known

/-- A loop of which the header and perhaps the parent are recorded. -/
def Loop.outlined (l : Loop) (parent : Option Nat) : LoopRecord :=
  { blocks := [l.header], parent := parent }

/-- The survey after the first `k` loops. -/
def LoopForest.upTo (F : LoopForest) (k : Nat) : Survey where
  loopOf b := (F.innermost? b).filter (· < k)
  loops := ((F.loops.toList.take k).map fun l => l.outlined (l.parent?.filter (· < k))).toArray

theorem LoopForest.loopOf_upTo (F : LoopForest) (k b : Nat) :
    (F.upTo k).loopOf b = (F.innermost? b).filter (· < k) := rfl

theorem LoopForest.getElem?_upTo (F : LoopForest) (k i : Nat) : (F.upTo k).loops[i]? =
    if i < k then F.loops[i]?.map fun l => l.outlined (l.parent?.filter (· < k)) else none := by
  rw [upTo, List.getElem?_toArray, List.getElem?_map, List.getElem?_take]
  split <;> simp

theorem LoopForest.size_upTo {F : LoopForest} {k : Nat} (hk : k ≤ F.loops.size) :
    (F.upTo k).loops.size = k := by
  rw [upTo, List.size_toArray, List.length_map, List.length_take, Array.length_toList,
    Nat.min_eq_left hk]

theorem LoopForest.loopOf_addLoop_upTo (F : LoopForest) (k h b : Nat) :
    ((F.upTo k).addLoop h).loopOf b = (F.innermost? b).filter (· < k) := rfl

/-- The survey after the first `k` loops and with the header of one more. -/
theorem LoopForest.getElem?_addLoop_upTo {F : LoopForest} {k : Nat} (hk : k ≤ F.loops.size)
    (l : Loop) (i : Nat) : ((F.upTo k).addLoop l.header).loops[i]? =
      if i = k then some (l.outlined none) else
        if i < k then F.loops[i]?.map fun l => l.outlined (l.parent?.filter (· < k))
        else none := by
  rw [Survey.addLoop, Array.getElem?_push, size_upTo hk, getElem?_upTo]
  rfl

namespace Survey

variable {g : Cfg} {b c h i j k p r top : Nat} {l outer : Loop} {s : Survey}

/-! ## While a loop is mapped -/

/-- The survey while loop `k` is mapped. -/
structure Partway (g : Cfg) (k : Nat) (s : Survey) : Prop where
  size : s.loops.size = k + 1
  record : ∀ (i : Nat) (x : LoopRecord), s.loops[i]? = some x → ∃ l : Loop,
    (g.loops g.domTree).loops[i]? = some l ∧ x = l.outlined x.parent ∧ Known k l.parent? x.parent
  loopOf : ∀ b, Known k ((g.loops g.domTree).innermost? b) (s.loopOf b)

/-- Loop `j` is recorded as the parent of loop `i`. -/
def Up (s : Survey) (i j : Nat) : Prop := s.parents[i]? = some (some j)

/-- From the innermost loop of the block one comes up to loop `k`. -/
def Covers (s : Survey) (k b : Nat) : Prop :=
  ∃ j, s.loopOf b = some j ∧ Relation.ReflTransGen s.Up j k

theorem getElem?_parents (s : Survey) (i : Nat) :
    s.parents[i]? = s.loops[i]?.map (·.parent) := by
  rw [parents, Array.getElem?_map]

theorem up_iff : s.Up i j ↔ ∃ x, s.loops[i]? = some x ∧ x.parent = some j := by
  rw [Up, getElem?_parents, Option.map_eq_some_iff]

namespace Partway

theorem exists_record (hs : s.Partway g k) (hi : i ≤ k) : ∃ x, s.loops[i]? = some x :=
  ⟨_, Array.getElem?_eq_getElem (by rw [hs.size]; omega)⟩

section Closed

variable (hg : g.Closed) (hs : s.Partway g k)

include hg hs

/-- A recorded parent is the parent. -/
theorem parent_of_up (hup : s.Up i j) : j ≤ k ∧ i < j ∧ ∃ l outer,
    (g.loops g.domTree).loops[i]? = some l ∧ l.parent? = some j ∧
    (g.loops g.domTree).loops[j]? = some outer ∧ l.Inside outer := by
  obtain ⟨x, hx, hparent⟩ := up_iff.1 hup
  obtain ⟨l, hl, -, hknown⟩ := hs.record i x hx
  obtain ⟨hp, hle⟩ := hknown.sound j hparent
  obtain ⟨⟨outer, houter, hin⟩, -⟩ := (Cfg.parent?_eq_some_iff hg hl).1 hp
  exact ⟨hle, Cfg.lt_of_inside hg hl houter hin, l, outer, hl, hp, houter, hin⟩

theorem subset_of_ups (hups : Relation.ReflTransGen s.Up i j)
    (hl : (g.loops g.domTree).loops[i]? = some l) :
    ∃ outer, (g.loops g.domTree).loops[j]? = some outer ∧ ∀ b ∈ l.blocks, b ∈ outer.blocks := by
  induction hups with
  | refl => exact ⟨l, hl, fun _ hb => hb⟩
  | tail _ hup ih =>
    obtain ⟨middle, hmiddle, hsub⟩ := ih
    obtain ⟨-, -, middle', outer, hmiddle', -, houter, hin⟩ := hs.parent_of_up hg hup
    obtain rfl := Option.some.inj (hmiddle.symm.trans hmiddle')
    exact ⟨outer, houter, fun b hb => hin.1 b (hsub b hb)⟩

/-- Between loops before loop `k` that share a block, all parents are recorded. -/
theorem ups_of_mem (hl : (g.loops g.domTree).loops[i]? = some l)
    (houter : (g.loops g.domTree).loops[j]? = some outer) (hb : b ∈ l.blocks)
    (hb' : b ∈ outer.blocks) (hij : i ≤ j) (hjk : j < k) : Relation.ReflTransGen s.Up i j := by
  induction hdistance : j - i using Nat.strong_induction_on generalizing i l with
  | _ n ih =>
    rcases Nat.eq_or_lt_of_le hij with rfl | hlt
    · exact .refl
    · have hin := (Cfg.inside_of_lt hg hl houter hlt hb hb').1
      obtain ⟨p, hpj, hp⟩ := Cfg.exists_parent? hg hl houter hin
      obtain ⟨⟨middle, hmiddle, hinside⟩, -⟩ := (Cfg.parent?_eq_some_iff hg hl).1 hp
      have hip := Cfg.lt_of_inside hg hl hmiddle hinside
      obtain ⟨x, hx⟩ := hs.exists_record (i := i) (by omega)
      obtain ⟨l', hl', -, hknown⟩ := hs.record i x hx
      obtain rfl := Option.some.inj (hl.symm.trans hl')
      have hup : s.Up i p := up_iff.2 ⟨x, hx, hknown.complete p hp (by omega)⟩
      exact .head hup (ih (j - p) (by omega) hmiddle (hinside.1 b hb) hpj rfl)

/-- A loop inside loop `k` without a recorded parent is directly inside it: any other parent would
be before loop `k`, and known. -/
theorem parent_of_outermost (hl : (g.loops g.domTree).loops[i]? = some l)
    (hnone : s.parents[i]? = some none) (hk : (g.loops g.domTree).loops[k]? = some outer)
    (hin : l.Inside outer) : l.parent? = some k := by
  obtain ⟨p, hpk, hp⟩ := Cfg.exists_parent? hg hl hk hin
  obtain ⟨x, hx⟩ := hs.exists_record (Cfg.lt_of_inside hg hl hk hin).le
  obtain ⟨l', hl', -, hknown⟩ := hs.record i x hx
  obtain rfl := Option.some.inj (hl.symm.trans hl')
  rcases Nat.lt_or_eq_of_le hpk with hlt | rfl
  · have hup : s.Up i p := up_iff.2 ⟨x, hx, hknown.complete p hp hlt⟩
    cases hnone.symm.trans hup
  · exact hp

/-- The way up from a loop ends at a loop without a recorded parent. -/
theorem exists_outermost (hi : i ≤ k) : ∃ top, s.outermost i = .ok top ∧ top ≤ k ∧
    Relation.ReflTransGen s.Up i top ∧ s.parents[top]? = some none := by
  have hsize : s.parents.size = k + 1 := by rw [parents, Array.size_map, hs.size]
  have hincreasing : ∀ a b, s.parents[a]? = some (some b) → a < b ∧ b < s.parents.size := by
    intro a b hup
    obtain ⟨hle, hlt, -⟩ := hs.parent_of_up hg hup
    exact ⟨hlt, by omega⟩
  obtain ⟨cs, hcs⟩ := Ascent.exists_climbs hincreasing (a := i) (by omega)
  obtain ⟨top, hlast, hnone⟩ := hcs.exists_getLast?
  have hmem := List.mem_of_getLast? hlast
  have hlt := hcs.lt_size hmem
  refine ⟨top, ?_, by omega, hcs.mem_iff.1 hmem, hnone⟩
  rw [outermost, wayUp, hcs.way_eq, map_ok, List.getLastD_eq_getLast?, hlast]
  rfl

end Closed

end Partway

/-! ## The worklist -/

/-- What the worklist for loop `k` with header `h` has done and has still to do. -/
structure Pending (g : Cfg) (k h : Nat) (s : Survey) (blocks : List Nat) : Prop where
  within : ∀ b ∈ blocks, g.Reaches b → g.InNaturalLoop h b
  sources : ∀ p, g.BackSource h p → s.Covers k p ∨ p ∈ blocks
  closed : ∀ b p, s.Covers k b → b ≠ h → b ∈ g.successors p → g.Reaches p →
    s.Covers k p ∨ p ∈ blocks

theorem Covers.mono {s' : Survey} (hb : s.Covers k b)
    (hloopOf : ∀ b j, s.loopOf b = some j → s'.loopOf b = some j)
    (hup : ∀ i j, s.Up i j → s'.Up i j) : s'.Covers k b := by
  obtain ⟨j, hj, hups⟩ := hb
  exact ⟨j, hloopOf b j hj, Relation.ReflTransGen.mono hup j k hups⟩

/-- The worklist goes on, if nothing is lost that was covered or to be visited and what is covered
only now is provided for. -/
theorem Pending.step {s' : Survey} {blocks blocks' : List Nat} (hw : Pending g k h s blocks)
    (hwithin : ∀ b ∈ blocks', g.Reaches b → g.InNaturalLoop h b)
    (hkeep : ∀ p, g.Reaches p → s.Covers k p ∨ p ∈ blocks → s'.Covers k p ∨ p ∈ blocks')
    (hnew : ∀ c p, s'.Covers k c → ¬ s.Covers k c → c ≠ h → c ∈ g.successors p → g.Reaches p →
      s'.Covers k p ∨ p ∈ blocks') : Pending g k h s' blocks' where
  within := hwithin
  sources := fun p hp => hkeep p hp.2.1 (hw.sources p hp)
  closed := by
    intro c p hc hch hedge hp
    by_cases hbefore : s.Covers k c
    · exact hkeep p hp (hw.closed c p hbefore hch hedge hp)
    · exact hnew c p hc hbefore hch hedge hp

/-- A block that is done with may be dropped, if it is covered or not reached. -/
theorem Pending.drop {rest : List Nat} (hw : Pending g k h s (b :: rest))
    (hb : g.Reaches b → s.Covers k b) : Pending g k h s rest := by
  refine hw.step (fun c hc => hw.within c (List.mem_cons_of_mem b hc)) ?_
    fun c p hc hnot => absurd hc hnot
  rintro p hp (hcovers | hmem)
  · exact .inl hcovers
  · rcases List.mem_cons.1 hmem with rfl | hmem
    · exact .inl (hb hp)
    · exact .inr hmem

/-- The number of blocks without a loop and of loops without a parent. -/
def openings (g : Cfg) (s : Survey) : Nat :=
  ((Finset.range g.size).filter fun b => s.loopOf b = none).card +
    ((Finset.range s.loops.size).filter fun i => s.parents[i]? = some none).card

/-! ## A loop comes to lie inside loop `k` -/

section Nest

theorem getElem?_nest (s : Survey) (top k i : Nat) : (s.nest top k).loops[i]? =
    if top = i then s.loops[i]?.map fun x => { x with parent := some k } else s.loops[i]? := by
  rw [nest, modify, Array.getElem?_modify]

theorem up_nest_self (htop : top < s.loops.size) : (s.nest top k).Up top k :=
  up_iff.2 ⟨_, by rw [getElem?_nest, if_pos rfl, Array.getElem?_eq_getElem htop]; rfl, rfl⟩

theorem up_nest_of_ne (hi : i ≠ top) : (s.nest top k).Up i j ↔ s.Up i j := by
  rw [up_iff, up_iff, getElem?_nest, if_neg hi.symm]

theorem up_nest_of_up (htop : s.parents[top]? = some none) (hup : s.Up i j) :
    (s.nest top k).Up i j := by
  refine (up_nest_of_ne ?_).2 hup
  rintro rfl
  cases htop.symm.trans hup

theorem Partway.nest (hs : s.Partway g k) (hl : (g.loops g.domTree).loops[top]? = some l)
    (hparent : l.parent? = some k) : (s.nest top k).Partway g k where
  size := by rw [Survey.nest, modify, Array.size_modify, hs.size]
  record := by
    intro i x hx
    rw [getElem?_nest] at hx
    split at hx
    · subst top
      obtain ⟨y, hy, rfl⟩ := Option.map_eq_some_iff.1 hx
      obtain ⟨l', hl', hrecord, -⟩ := hs.record i y hy
      obtain rfl := Option.some.inj (hl.symm.trans hl')
      rw [hrecord]
      exact ⟨l, hl, rfl, .of_some hparent⟩
    · exact hs.record i x hx
  loopOf := hs.loopOf

/-- What comes up to loop `k` now came up to it before or comes up to the loop that was put inside
it. -/
theorem ups_of_nest (hups : Relation.ReflTransGen (s.nest top k).Up i k) :
    Relation.ReflTransGen s.Up i k ∨ Relation.ReflTransGen s.Up i top := by
  induction hups using Relation.ReflTransGen.head_induction_on with
  | refl => exact .inl .refl
  | @head i j hup _ ih =>
    by_cases hi : i = top
    · exact .inr (hi ▸ .refl)
    · have hup := (up_nest_of_ne hi).1 hup
      exact ih.imp (.head hup) (.head hup)

variable (hg : g.Closed) (hs : s.Partway g k) (hl : (g.loops g.domTree).loops[top]? = some l)
  (htop : s.parents[top]? = some none) (hlt : top < k)

include hg hs hl

theorem mem_or_covers_of_nest (hc : (s.nest top k).Covers k c) : s.Covers k c ∨ c ∈ l.blocks := by
  obtain ⟨j, hj, hups⟩ := hc
  refine (ups_of_nest hups).imp (fun hups => ⟨j, hj, hups⟩) fun hups => ?_
  obtain ⟨⟨inner, hinner, hmem⟩, -⟩ :=
    LoopForest.innermost?_eq_some_iff.1 ((hs.loopOf c).sound j hj).1
  obtain ⟨outer, houter, hsub⟩ := hs.subset_of_ups hg hups hinner
  obtain rfl := Option.some.inj (hl.symm.trans houter)
  exact hsub c hmem

include htop hlt

theorem covers_nest_of_mem (hc : c ∈ l.blocks) : (s.nest top k).Covers k c := by
  obtain ⟨j, hjtop, hj⟩ := LoopForest.exists_innermost? hl hc
  obtain ⟨⟨inner, hinner, hmem⟩, -⟩ := LoopForest.innermost?_eq_some_iff.1 hj
  have hups := hs.ups_of_mem hg hinner hl hmem hc hjtop hlt
  refine ⟨j, (hs.loopOf c).complete j hj (by omega), ?_⟩
  refine (Relation.ReflTransGen.mono (fun _ _ => up_nest_of_up htop) j top hups).tail ?_
  exact up_nest_self (by rw [hs.size]; omega)

theorem pending_nest {rest : List Nat} (hw : Pending g k h s (b :: rest)) (hb : b ∈ l.blocks)
    (hk : ∀ c ∈ l.blocks, g.InNaturalLoop h c) (hh : l.header ≠ h) :
    Pending g k h (s.nest top k)
      (((g.predecessors l.header).filter fun p => s.loopOf p != some top).reverse ++ rest) := by
  have hmem : ∀ {c}, c ∈ l.blocks → (s.nest top k).Covers k c :=
    covers_nest_of_mem hg hs hl htop hlt
  refine hw.step (fun c hc hreach => ?_) ?_ fun c p hc hnot _ hedge hp => ?_
  · rcases List.mem_append.1 hc with hc | hc
    · have hedge := hg.mem_predecessors_iff.1 (List.mem_filter.1 (List.mem_reverse.1 hc)).1
      exact (hk _ (Cfg.header_mem_blocks hg hl)).of_edge hh hreach hedge
    · exact hw.within c (List.mem_cons_of_mem b hc) hreach
  · rintro p - (hp | hp)
    · exact .inl (hp.mono (fun _ _ hj => hj) fun _ _ => up_nest_of_up htop)
    · rcases List.mem_cons.1 hp with rfl | hp
      · exact .inl (hmem hb)
      · exact .inr (List.mem_append_right _ hp)
  · have hc := (mem_or_covers_of_nest hg hs hl hc).resolve_left hnot
    -- before the header of the inner loop, the worklist goes on; all else comes from inside
    by_cases hheader : c = l.header
    · by_cases hmap : s.loopOf p = some top
      · obtain ⟨⟨l', hl', hmem'⟩, -⟩ :=
          LoopForest.innermost?_eq_some_iff.1 ((hs.loopOf p).sound top hmap).1
        obtain rfl := Option.some.inj (hl.symm.trans hl')
        exact .inl (hmem hmem')
      · refine .inr (List.mem_append_left _ (List.mem_reverse.2 (List.mem_filter.2 ⟨?_, ?_⟩)))
        · exact hg.mem_predecessors_iff.2 (hheader ▸ hedge)
        · simpa using hmap
    · rw [Cfg.mem_blocks_getElem?_iff hg hl] at hc
      exact .inl (hmem ((Cfg.mem_blocks_getElem?_iff hg hl).2 (hc.of_edge hheader hp hedge)))

end Nest

/-! ## A block comes to loop `k` -/

section Assign

theorem loopOf_assign_self (s : Survey) (b k : Nat) : (s.assign b k).loopOf b = some k := by
  simp [assign]

theorem loopOf_assign_of_ne (hcb : c ≠ b) : (s.assign b k).loopOf c = s.loopOf c := by
  simp [assign, hcb]

theorem Partway.assign (hs : s.Partway g k)
    (hb : (g.loops g.domTree).innermost? b = some k) : (s.assign b k).Partway g k where
  size := hs.size
  record := hs.record
  loopOf := by
    intro c
    by_cases hcb : c = b
    · subst hcb
      rw [loopOf_assign_self]
      exact .of_some hb
    · rw [loopOf_assign_of_ne hcb]
      exact hs.loopOf c

theorem covers_assign_iff (hb : s.loopOf b = none) :
    (s.assign b k).Covers k c ↔ s.Covers k c ∨ c = b := by
  have hups : (s.assign b k).Up = s.Up := rfl
  rw [Covers, Covers, hups]
  by_cases hcb : c = b
  · subst hcb
    exact ⟨fun _ => .inr rfl, fun _ => ⟨k, s.loopOf_assign_self c k, .refl⟩⟩
  · rw [loopOf_assign_of_ne hcb, or_iff_left hcb]

theorem pending_assign (hg : g.Closed) {rest : List Nat} (hw : Pending g k h s (b :: rest))
    (hb : s.loopOf b = none) (hreach : g.Reaches b) : Pending g k h (s.assign b k)
      ((if some h = some b then [] else g.predecessors b).reverse ++ rest) := by
  refine hw.step (fun c hc hc' => ?_) ?_ fun c p hc hnot hch hedge _ => ?_
  · rcases List.mem_append.1 hc with hc | hc
    · split at hc
      · cases hc
      · rename_i hne
        have hbh : b ≠ h := fun heq => hne (heq ▸ rfl)
        exact (hw.within b List.mem_cons_self hreach).of_edge hbh hc'
          (hg.mem_predecessors_iff.1 (List.mem_reverse.1 hc))
    · exact hw.within c (List.mem_cons_of_mem b hc) hc'
  · rintro p - (hp | hp)
    · exact .inl ((covers_assign_iff hb).2 (.inl hp))
    · rcases List.mem_cons.1 hp with rfl | hp
      · exact .inl ((covers_assign_iff hb).2 (.inr rfl))
      · exact .inr (List.mem_append_right _ hp)
  · -- only the block itself is covered now and was not before
    obtain rfl := ((covers_assign_iff hb).1 hc).resolve_left hnot
    refine .inr (List.mem_append_left _ (List.mem_reverse.2 ?_))
    rw [if_neg fun heq => hch (Option.some.inj heq).symm]
    exact hg.mem_predecessors_iff.2 hedge

end Assign

/-! ## One visit -/

/-- A visit to a block for loop `k` keeps what is known of the worklist. It closes an opening, or
changes nothing and brings no other blocks. -/
def Advances (g : Cfg) (k h : Nat) (s : Survey) (rest : List Nat) (s' : Survey)
    (more : List Nat) : Prop :=
  s'.Partway g k ∧ Pending g k h s' (more.reverse ++ rest) ∧
    (s'.openings g < s.openings g ∨ s' = s ∧ more = [])

theorem openings_nest_lt (htop : s.parents[top]? = some none) :
    (s.nest top k).openings g < s.openings g := by
  have hlt : top < s.loops.size := by
    have := (Array.getElem?_eq_some_iff.1 htop).1
    rwa [parents, Array.size_map] at this
  have hsize : (s.nest top k).loops.size = s.loops.size := by rw [nest, modify, Array.size_modify]
  refine Nat.add_lt_add_left (Finset.card_lt_card (Finset.ssubset_iff_of_subset ?_ |>.2
    ⟨top, Finset.mem_filter.2 ⟨Finset.mem_range.2 hlt, htop⟩, ?_⟩)) _
  · intro i hi
    rw [Finset.mem_filter, hsize] at hi
    refine Finset.mem_filter.2 ⟨hi.1, ?_⟩
    have hne : i ≠ top := by
      rintro rfl
      cases hi.2.symm.trans (up_nest_self (k := k) hlt)
    rw [← hi.2, getElem?_parents, getElem?_parents, getElem?_nest, if_neg hne.symm]
  · intro hmem
    cases (Finset.mem_filter.1 hmem).2.symm.trans (up_nest_self (k := k) hlt)

theorem openings_assign_lt (hlt : b < g.size) (hb : s.loopOf b = none) :
    (s.assign b k).openings g < s.openings g := by
  refine Nat.add_lt_add_right (Finset.card_lt_card (Finset.ssubset_iff_of_subset ?_ |>.2
    ⟨b, Finset.mem_filter.2 ⟨Finset.mem_range.2 hlt, hb⟩, ?_⟩)) _
  · intro c hc
    rw [Finset.mem_filter] at hc ⊢
    have hne : c ≠ b := by
      rintro rfl
      cases (s.loopOf_assign_self c k).symm.trans hc.2
    exact ⟨hc.1, (loopOf_assign_of_ne hne).symm.trans hc.2⟩
  · intro hmem
    cases (s.loopOf_assign_self b k).symm.trans (Finset.mem_filter.1 hmem).2

section Visit

variable (hg : g.Closed) (hk : (g.loops g.domTree).loops[k]? = some l) (hs : s.Partway g k)
  {rest : List Nat} (hw : Pending g k l.header s (b :: rest))

include hg hk hs hw

/-- A block that belongs to a loop leads to the outermost loop around it. -/
theorem visit_mapped (hj : s.loopOf b = some j) : ∃ s' more,
    s.visit g g.domTree k b = .ok (s', more) ∧ s.Advances g k l.header rest s' more := by
  obtain ⟨hinnermost, hjk⟩ := (hs.loopOf b).sound j hj
  obtain ⟨⟨inner, hinner, hb⟩, -⟩ := LoopForest.innermost?_eq_some_iff.1 hinnermost
  obtain ⟨top, houtermost, htopk, hups, htop⟩ := hs.exists_outermost hg hjk
  by_cases heq : top = k
  · subst heq
    refine ⟨s, [], ?_, hs, hw.drop fun _ => ⟨j, hj, hups⟩, .inr ⟨rfl, rfl⟩⟩
    simp only [visit, hj, houtermost, ok_bind]
    rfl
  · obtain ⟨x, hx⟩ := hs.exists_record htopk
    obtain ⟨outer, houter, hrecord, -⟩ := hs.record top x hx
    have hlt : top < k := by omega
    -- both loops have the block, so the one that is found now lies around the other
    have hreach : g.Reaches b := by
      have hheader := Cfg.isHeader_of_getElem? hg hinner
      exact ((Cfg.mem_blocks_getElem?_iff hg hinner).1 hb).reaches hheader
    have hbk : b ∈ l.blocks :=
      (Cfg.mem_blocks_getElem?_iff hg hk).2 (hw.within b List.mem_cons_self hreach)
    obtain ⟨outer', houter', hsub⟩ := hs.subset_of_ups hg hups hinner
    obtain rfl := Option.some.inj (houter.symm.trans houter')
    obtain ⟨hin, hnot⟩ := Cfg.inside_of_lt hg houter hk hlt (hsub b hb) hbk
    have hparent := hs.parent_of_outermost hg houter htop hk hin
    have hheader : outer.header ≠ l.header :=
      fun h => hnot (h ▸ Cfg.header_mem_blocks hg houter)
    refine ⟨s.nest top k, _, ?_, hs.nest houter hparent,
      pending_nest hg hs houter htop hlt hw (hsub b hb) (fun c hc => ?_) hheader,
      .inl (openings_nest_lt htop)⟩
    · have hhead : x.header? = some outer.header := by rw [hrecord]; rfl
      simp only [visit, hj, houtermost, ok_bind, if_neg heq, fetch_eq_ok_iff.2 hx, hhead]
      rfl
    · exact (Cfg.mem_blocks_getElem?_iff hg hk).1 (hin.1 c hc)

/-- A block that belongs to no loop yet comes to loop `k`, if it is reached. -/
theorem visit_unmapped (hb : s.loopOf b = none) : ∃ s' more,
    s.visit g g.domTree k b = .ok (s', more) ∧ s.Advances g k l.header rest s' more := by
  by_cases hreach : g.Reaches b
  · have hreachable := (Cfg.isReachable_domTree_iff hg).2 hreach
    have hbk : b ∈ l.blocks :=
      (Cfg.mem_blocks_getElem?_iff hg hk).2 (hw.within b List.mem_cons_self hreach)
    have hinnermost : (g.loops g.domTree).innermost? b = some k := by
      obtain ⟨j, hjk, hj⟩ := LoopForest.exists_innermost? hk hbk
      rcases Nat.lt_or_eq_of_le hjk with hlt | rfl
      · cases hb.symm.trans ((hs.loopOf b).complete j hj hlt)
      · exact hj
    obtain ⟨x, hx⟩ := hs.exists_record le_rfl
    obtain ⟨l', hl', hrecord, -⟩ := hs.record k x hx
    obtain rfl := Option.some.inj (hk.symm.trans hl')
    have hhead : x.header? = some l.header := by rw [hrecord]; rfl
    refine ⟨s.assign b k, _, ?_, hs.assign hinnermost, pending_assign hg hw hb hreach,
      .inl (openings_assign_lt hreach.lt_size hb)⟩
    simp only [visit, hb, hreachable, if_true, fetch_eq_ok_iff.2 hx, ok_bind, hhead]
    rfl
  · have hreachable : g.domTree.isReachable b = false := by
      rw [Bool.eq_false_iff]
      exact fun h => hreach ((Cfg.isReachable_domTree_iff hg).1 h)
    refine ⟨s, [], ?_, hs, hw.drop fun h => absurd h hreach, .inr ⟨rfl, rfl⟩⟩
    simp only [visit, hb, hreachable]
    rfl

end Visit

/-! ## The whole worklist -/

section Finish

variable (hg : g.Closed) (hk : (g.loops g.domTree).loops[k]? = some l)

include hg hk

/-- When nothing is left to visit, all blocks of the loop come up to it. -/
theorem covers_of_pending_nil (hw : Pending g k l.header s []) (hb : b ∈ l.blocks) :
    s.Covers k b := by
  have hcovers : ∀ {a q p}, g.Path a p q → s.Covers k p → g.Reaches a → l.header ∉ q →
      s.Covers k a := by
    intro a q p hq hp ha hnot
    induction hq with
    | here _ => exact hp
    | @step a c p q hac rest ih =>
      have hc := ih hp (ha.of_edge hg hac) fun hmem => hnot (List.mem_cons_of_mem a hmem)
      have hne : c ≠ l.header := fun h => hnot (List.mem_cons_of_mem a (h ▸ rest.source_mem))
      exact (hw.closed c a hc hne hac ha).resolve_right List.not_mem_nil
  have hsources : ∀ p, g.BackSource l.header p → s.Covers k p :=
    fun p hp => (hw.sources p hp).resolve_right List.not_mem_nil
  have hheader := Cfg.isHeader_of_getElem? hg hk
  rcases (Cfg.mem_blocks_getElem?_iff hg hk).1 hb with rfl | ⟨hreach, p, q, hp, hq, hnot⟩
  · -- the header lies before the blocks on a path from it to a source
    obtain ⟨hreached, p, hp⟩ := hheader
    obtain ⟨q, hq⟩ := hp.2.1
    obtain ⟨r, hr, hnot, -⟩ := hq.from_last (hp.2.2 q hq)
    cases hr with
    | here _ => exact hsources _ hp
    | @step _ c _ _ hedge rest =>
      have hreach := hreached.of_edge hg hedge
      have hc := hcovers rest (hsources p hp) hreach hnot
      have hne : c ≠ l.header := fun h => hnot (h ▸ rest.source_mem)
      exact (hw.closed c _ hc hne hedge hreached).resolve_right List.not_mem_nil
  · exact hcovers hq (hsources p hp) hreach hnot

/-- Then loops whose parent is loop `k` have it recorded: a header comes up to loop `k` by way of
its own loop. -/
theorem parent_ne_none_of_pending_nil {x : LoopRecord} {inner : Loop} (hs : s.Partway g k)
    (hw : Pending g k l.header s []) (hx : s.loops[i]? = some x)
    (hinner : (g.loops g.domTree).loops[i]? = some inner) (hparent : inner.parent? = some k) :
    x.parent ≠ none := by
  intro hnone
  obtain ⟨⟨outer, houter, hin⟩, -⟩ := (Cfg.parent?_eq_some_iff hg hinner).1 hparent
  obtain rfl := Option.some.inj (hk.symm.trans houter)
  have hmem := hin.1 _ (Cfg.header_mem_blocks hg hinner)
  obtain ⟨j, hj, hups⟩ := covers_of_pending_nil hg hk hw hmem
  obtain rfl := Option.some.inj
    ((Cfg.innermost?_header hg hinner).symm.trans ((hs.loopOf _).sound j hj).1)
  rcases hups.cases_head with rfl | ⟨p, hup, -⟩
  · exact Nat.lt_irrefl _ (Cfg.lt_of_inside hg hinner hk hin)
  · obtain ⟨x', hx', hparent'⟩ := up_iff.1 hup
    obtain rfl := Option.some.inj (hx.symm.trans hx')
    cases hnone.symm.trans hparent'

theorem eq_upTo_of_pending_nil (hs : s.Partway g k) (hw : Pending g k l.header s []) :
    s = (g.loops g.domTree).upTo (k + 1) := by
  refine Survey.ext (funext fun b => ?_) (Array.ext_getElem? fun i => ?_)
  · rw [LoopForest.loopOf_upTo]
    refine (hs.loopOf b).eq_filter fun hinnermost hnone => ?_
    obtain ⟨⟨l', hl', hb⟩, -⟩ := LoopForest.innermost?_eq_some_iff.1 hinnermost
    obtain rfl := Option.some.inj (hk.symm.trans hl')
    obtain ⟨j, hj, -⟩ := covers_of_pending_nil hg hk hw hb
    cases hnone.symm.trans hj
  · rw [LoopForest.getElem?_upTo]
    split
    · rename_i hi
      obtain ⟨x, hx⟩ := hs.exists_record (Nat.le_of_lt_succ hi)
      obtain ⟨inner, hinner, hrecord, hknown⟩ := hs.record i x hx
      rw [hx, hinner, Option.map_some, hrecord, ← hknown.eq_filter]
      exact parent_ne_none_of_pending_nil hg hk hs hw hx hinner
    · rename_i hi
      exact Array.getElem?_eq_none (by rw [hs.size]; omega)

/-- The worklist for loop `k` comes to its end with all that is to be known of the loop. -/
theorem drains_of_pending {blocks : List Nat} (hs : s.Partway g k)
    (hw : Pending g k l.header s blocks) :
    Drains g g.domTree k s blocks ((g.loops g.domTree).upTo (k + 1)) := by
  induction hn : s.openings g using Nat.strong_induction_on generalizing s blocks with
  | _ n ih =>
    induction blocks with
    | nil =>
      rw [← eq_upTo_of_pending_nil hg hk hs hw]
      exact .done s
    | cons b rest ihrest =>
      have hvisit : ∃ s' more, s.visit g g.domTree k b = .ok (s', more) ∧
          s.Advances g k l.header rest s' more := by
        cases hb : s.loopOf b with
        | none => exact visit_unmapped hg hk hs hw hb
        | some j => exact visit_mapped hg hk hs hw hb
      obtain ⟨s', more, hvisit, hs', hw', hless | ⟨rfl, rfl⟩⟩ := hvisit
      · exact .visit hvisit (ih _ (hn ▸ hless) hs' hw' rfl)
      · exact .visit hvisit (ihrest hw')

end Finish

/-! ## All loops -/

section Discovery

variable (hg : g.Closed) (hk : (g.loops g.domTree).loops[k]? = some l)

include hg hk

theorem known_of_getElem?_addLoop {x : LoopRecord}
    (hx : (((g.loops g.domTree).upTo k).addLoop l.header).loops[i]? = some x) : ∃ l : Loop,
      (g.loops g.domTree).loops[i]? = some l ∧ x = l.outlined x.parent ∧
      Known k l.parent? x.parent := by
  rw [LoopForest.getElem?_addLoop_upTo (Array.getElem?_eq_some_iff.1 hk).1.le] at hx
  split at hx
  · subst i
    obtain rfl := Option.some.inj hx
    refine ⟨l, hk, rfl, .of_none fun j hj => ?_⟩
    obtain ⟨⟨outer, houter, hin⟩, -⟩ := (Cfg.parent?_eq_some_iff hg hk).1 hj
    exact (Cfg.lt_of_inside hg hk houter hin).le
  · split at hx
    · obtain ⟨inner, hinner, rfl⟩ := Option.map_eq_some_iff.1 hx
      exact ⟨inner, hinner, rfl, .of_filter⟩
    · cases hx

theorem partway_addLoop : (((g.loops g.domTree).upTo k).addLoop l.header).Partway g k := by
  have hlt : k < (g.loops g.domTree).loops.size := (Array.getElem?_eq_some_iff.1 hk).1
  refine ⟨?_, fun i x => known_of_getElem?_addLoop hg hk, fun b => ?_⟩
  · rw [addLoop, Array.size_push, LoopForest.size_upTo hlt.le]
  · rw [LoopForest.loopOf_addLoop_upTo]
    exact .of_filter

theorem pending_addLoop : Pending g k l.header (((g.loops g.domTree).upTo k).addLoop l.header)
    (g.backSources g.domTree l.header).reverse := by
  refine ⟨fun b hb _ => ?_, fun p hp => .inr ?_, fun b p hb => ?_⟩
  · exact ((Cfg.mem_backSources_iff hg).1 (List.mem_reverse.1 hb)).inNaturalLoop
  · exact List.mem_reverse.2 ((Cfg.mem_backSources_iff hg).2 hp)
  · -- nothing comes up to the loop yet
    exfalso
    obtain ⟨j, hj, hups⟩ := hb
    rw [LoopForest.loopOf_addLoop_upTo] at hj
    have hlt : ∀ {final : Option Nat} {i}, final.filter (· < k) = some i → i < k :=
      fun h => of_decide_eq_true (Option.filter_eq_some_iff.1 h).2
    rcases hups.cases_tail with rfl | ⟨i, -, hup⟩
    · exact Nat.lt_irrefl _ (hlt hj)
    · obtain ⟨x, hx, hparent⟩ := up_iff.1 hup
      rw [LoopForest.getElem?_addLoop_upTo (Array.getElem?_eq_some_iff.1 hk).1.le] at hx
      split at hx
      · obtain rfl := Option.some.inj hx
        cases hparent
      · split at hx
        · obtain ⟨inner, -, rfl⟩ := Option.map_eq_some_iff.1 hx
          exact Nat.lt_irrefl _ (hlt hparent)
        · cases hx

end Discovery

/-- All loops are found, in the order of their headers. -/
theorem discovers_upTo (hg : g.Closed) (headers : List Nat)
    (hk : k ≤ (g.loops g.domTree).loops.size)
    (hheaders : (headers.filter fun h => !(g.backSources g.domTree h).isEmpty) =
      ((g.loops g.domTree).loops.toList.drop k).map Loop.header) :
    Discovers g g.domTree headers ((g.loops g.domTree).upTo k)
      ((g.loops g.domTree).upTo (g.loops g.domTree).loops.size) := by
  induction headers generalizing k with
  | nil =>
    have hend : (g.loops g.domTree).loops.size ≤ k := by
      simpa using (List.map_eq_nil_iff.1 hheaders.symm)
    rw [Nat.le_antisymm hk hend]
    exact .done _
  | cons h headers ih =>
    by_cases hnone : g.backSources g.domTree h = []
    · rw [List.filter_cons_of_neg (by simp [hnone])] at hheaders
      exact .skip hnone (ih hk hheaders)
    · rw [List.filter_cons_of_pos (by simpa using hnone)] at hheaders
      obtain ⟨l, rest, hdrop, rfl, hrest⟩ := List.map_eq_cons_iff.1 hheaders.symm
      have hget : (g.loops g.domTree).loops[k]? = some l := by
        rw [← Array.getElem?_toList, ← List.head?_drop, hdrop, List.head?_cons]
      have hlt := (Array.getElem?_eq_some_iff.1 hget).1
      refine .found hnone ?_ (ih hlt ?_)
      · rw [LoopForest.size_upTo hk]
        exact drains_of_pending hg hget (partway_addLoop hg hget) (pending_addLoop hg hget)
      · rw [← List.tail_drop, hdrop, List.tail_cons, hrest]

end Survey

end GridAccess
