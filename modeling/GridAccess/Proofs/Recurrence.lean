import GridAccess.Proofs.Lowering

set_option autoImplicit false

/-!
# Phis of loop headers

The phi of a loop header that gets, from inside the loop, itself moved by something invariant is a
recurrence: after `n` rounds it is worth its value on entry plus `n` times the step
(`Function.SSA.tells_recurrence`). This is proved along the execution. When control enters the
loop, the phi takes the value on entry and no round has been counted. When control comes back to
the header, the phi is moved by the step and one more round is counted. In between nothing that
the recurrence refers to changes: values and loops outside the loop change only where the phi is
no longer available.

For this the loop has one entry, and the block before it dominates the header
(`Function.SSA.loopPhi`).
-/

namespace GridAccess

open Evolution

namespace Viewpoint

variable {C : Context}

/-- What one viewpoint allows, the other allows, and what is right from the one is right from the
other. -/
structure Covers (V W : Viewpoint C) : Prop where
  inputs : V.inputs = W.inputs
  reads : ∀ i, V.reads i → W.reads i
  counts : ∀ l, V.counts l → W.counts l
  asks : ∀ n, V.asks n → W.asks n := by exact fun _ h => h
  holds : ∀ s, W.holds s → V.holds s

theorem admits_mono {V W : Viewpoint C} (hreads : ∀ i, V.reads i → W.reads i)
    (hcounts : ∀ l, V.counts l → W.counts l) (hasks : ∀ n, V.asks n → W.asks n) {n : Evolution}
    (hn : V.Admits n) : W.Admits n := by
  refine ⟨hasks n hn.1, ?_⟩
  cases n with
  | unknown v =>
    cases v with
    | instruction i => exact hreads i hn.2
    | _ => trivial
  | recurrence _ _ l => exact hcounts l hn.2
  | _ => trivial

theorem Tells.of_covers {V W : Viewpoint C} (h : V.Covers W) {v : Value} {e : Evolution}
    (he : V.Tells v e) : W.Tells v e := by
  refine ⟨he.1.mono fun _ => admits_mono h.reads h.counts h.asks, fun s hs => ?_⟩
  rw [valuation, ← h.inputs]
  exact he.2 s (h.holds s hs)

/-- An evolution has the same value in two states that agree on what it may refer to. -/
theorem eval_eq_of_agree {V : Viewpoint C} {e : Evolution} (he : e.Everywhere V.Admits)
    {s s' : State} (hvals : ∀ i, V.reads i → s'.vals i = s.vals i)
    (hrounds : ∀ l, V.counts l → s'.rounds l = s.rounds l) :
    (V.valuation s').eval e = (V.valuation s).eval e := by
  refine Valuation.eval_congr (he.mono fun n hn => ?_)
  cases n with
  | unknown v =>
    cases v with
    | instruction i => exact hvals i hn.2
    | argument _ => rfl
    | constant c => cases c <;> rfl
  | recurrence _ _ l => exact hrounds l hn.2
  | sizeOf _ | alignOf _ | quotient _ _ => rfl
  | _ => trivial

end Viewpoint

/-- A recurrence with one step is affine. -/
theorem eval_affine (ρ : Valuation) (a b : Evolution) (l : Nat) :
    ρ.eval (.recurrence a [b] l) = ρ.eval a + ρ.eval b * BitVec.ofNat 64 (ρ.rounds l) := by
  simp [Word.newton]

namespace Function

variable {m : Module} {f : Function} {b c d h i j k : Nat}

/-! ## Viewpoints of instructions -/

/-- Evolutions seen from an instruction: they read it and what precedes it, count loops whose
headers dominate it, and are right whenever it is available. -/
def SSA.viewpoint (hf : f.SSA m) (x : Inputs) (i : Nat) : Viewpoint (Context.ofFunction m f) where
  inputs := x
  reads k := (∃ d, f.At k d) ∧ (k = i ∨ f.Precedes k i)
  counts l := ∃ loop d, f.loops.loops[l]? = some loop ∧ f.At i d ∧ f.cfg.Dominates loop.header d
  holds s := Reached m f x s ∧ s.Available f i
  lt_of_reads := fun _ hk => hf.lt_size hk.1.choose_spec
  lt_of_counts := by
    rintro l ⟨loop, d, hl, -⟩
    exact (Array.getElem?_eq_some_iff.1 hl).1

/-- Evolutions seen from before a block: they read instructions of its proper dominators and count
loops with such headers. -/
def SSA.viewpointBefore (hf : f.SSA m) (x : Inputs) (h : Nat) (holds : State → Prop) :
    Viewpoint (Context.ofFunction m f) where
  inputs := x
  reads k := ∃ d, f.At k d ∧ f.cfg.ProperlyDominates d h
  counts l := ∃ loop, f.loops.loops[l]? = some loop ∧ f.cfg.ProperlyDominates loop.header h
  holds := holds
  lt_of_reads := fun _ hk => hf.lt_size hk.choose_spec.1
  lt_of_counts := by
    rintro l ⟨loop, hl, -⟩
    exact (Array.getElem?_eq_some_iff.1 hl).1

variable {x : Inputs} {holds : State → Prop}

theorem SSA.viewpoint_covers (hf : f.SSA m) (hki : f.Precedes k i) :
    (hf.viewpoint x k).Covers (hf.viewpoint x i) where
  inputs := rfl
  reads := by
    rintro j ⟨hj, rfl | hjk⟩
    · exact ⟨hj, Or.inr hki⟩
    · exact ⟨hj, Or.inr (hf.precedes_trans hjk hki)⟩
  counts := by
    rintro l ⟨loop, c, hl, hc, hdom⟩
    obtain ⟨c', d, hc', hd, hcd⟩ := hki
    obtain rfl := hf.at_unique hc hc'
    refine ⟨loop, d, hl, hd, ?_⟩
    rcases hcd with hcd | ⟨rfl, -, -⟩
    · exact hdom.trans hcd.1
    · exact hdom
  holds := fun s hs => ⟨hs.1, hs.1.inside.available_of_precedes hf hki hs.2⟩

theorem SSA.viewpoint_covers_before (hf : f.SSA m) (hk : f.At k d) (hh : f.cfg.Reaches h)
    (hdh : f.cfg.ProperlyDominates d h)
    (hholds : ∀ s, holds s → Reached m f x s ∧ s.Available f k) :
    (hf.viewpoint x k).Covers (hf.viewpointBefore x h holds) where
  inputs := rfl
  reads := by
    rintro j ⟨-, rfl | ⟨c, d', hc, hd', hcd⟩⟩
    · exact ⟨d, hk, hdh⟩
    · obtain rfl := hf.at_unique hk hd'
      refine ⟨c, hc, ?_⟩
      rcases hcd with hcd | ⟨rfl, -, -⟩
      · exact hcd.trans_dominates hdh.1 hh
      · exact hdh
  counts := by
    rintro l ⟨loop, d', hl, hd', hdom⟩
    obtain rfl := hf.at_unique hk hd'
    exact ⟨loop, hl, hdom.trans_properly hdh hh⟩
  holds := hholds

/-- What is seen from before a block is seen from its instructions. -/
theorem SSA.admits_of_before (hf : f.SSA m) (hi : f.At i h) {n : Evolution}
    (hn : (hf.viewpointBefore x h holds).Admits n) : (hf.viewpoint x i).Admits n := by
  refine Viewpoint.admits_mono ?_ ?_ ?_ hn
  · rintro k ⟨d, hk, hdh⟩
    exact ⟨⟨d, hk⟩, Or.inr ⟨d, h, hk, hi, Or.inl hdh⟩⟩
  · rintro l ⟨loop, hl, hdom⟩
    exact ⟨loop, h, hl, hi, hdom.1⟩
  · exact fun _ hdefinite => hdefinite

/-! ## What steps keep -/

variable {s s' : State} {e : Evolution}

/-- A step keeps the value of an evolution seen from an instruction that is still available. -/
theorem SSA.eval_keep (hf : f.SSA m) (hs : Reached m f x s) (hstep : Step m f x s s')
    (hi : s'.Available f i) (hnot : i ∉ s'.fresh)
    (he : e.Everywhere (hf.viewpoint x i).Admits) :
    (s'.valuation m x).eval e = (s.valuation m x).eval e := by
  refine Viewpoint.eval_eq_of_agree he ?_ ?_
  · rintro k ⟨-, rfl | hki⟩
    · exact ((hstep.available_cases hf hs.inside hi).resolve_left hnot).2
    · exact (hstep.keeps_preceding hf hs hi hki).2
  · rintro l ⟨loop, d, hl, hd, hdom⟩
    exact hstep.keeps_rounds hf hi hnot hl hd hdom

/-- Entering a block keeps the value of an evolution seen from before it. -/
theorem SSA.eval_enter (hf : f.SSA m) (hh : f.cfg.Reaches h)
    (hkeep : ∀ k, k ∉ f.phis h → s'.vals k = s.vals k)
    (hrounds : s'.rounds = f.loops.count s.rounds s.block h)
    (he : e.Everywhere (hf.viewpointBefore x h holds).Admits) :
    (s'.valuation m x).eval e = (s.valuation m x).eval e := by
  refine Viewpoint.eval_eq_of_agree he ?_ ?_
  · rintro k ⟨d, hk, hdh⟩
    refine hkeep k fun hphi => hdh.2 ?_
    exact hf.at_unique hk ⟨hh, (mem_phis_iff.1 hphi).1⟩
  · rintro l ⟨loop, hl, hdom⟩
    simp [hrounds, LoopForest.count, hl, hdom.2]

/-! ## Loops with one entry -/

/-- A phi of a loop header that has two entries: `entry` from block `p`, where control enters the
loop, and `back` from block `q`, where it comes back. -/
structure LoopPhi (f : Function) (l : Loop) (incoming : List (Nat × Value)) (entry back : Value)
    (p q : Nat) : Prop where
  mem_entry : (p, entry) ∈ incoming
  mem_back : (q, back) ∈ incoming
  only : ∀ y ∈ incoming, y = (p, entry) ∨ y = (q, back)
  outside : l.contains p = false
  inside : l.contains q = true
  edge : l.header ∈ f.cfg.successors p
  dominates : f.cfg.ProperlyDominates p l.header
  backSource : f.cfg.BackSource l.header q

variable {l : Loop} {incoming : List (Nat × Value)} {entry back : Value} {p q : Nat}

theorem contains_iff (hl : l ∈ f.loops.loops.toList) :
    l.contains b = true ↔ f.cfg.InNaturalLoop l.header b := by
  rw [Loop.contains, List.contains_iff_mem, Cfg.mem_blocks_iff f.closed_cfg hl]

theorem exists_of_entryAndBack? (hentry : Context.entryAndBack? l incoming = some (entry, back)) :
    ∃ p q, (p, entry) ∈ incoming ∧ (q, back) ∈ incoming ∧
      (∀ y ∈ incoming, y = (p, entry) ∨ y = (q, back)) ∧
      l.contains p = false ∧ l.contains q = true := by
  unfold Context.entryAndBack? at hentry
  split at hentry
  · rename_i b v c w
    split at hentry
    · cases hentry
      exact ⟨b, c, by simp, by simp, by simp, ‹_›, ‹_›⟩
    · cases hentry
      exact ⟨c, b, by simp, by simp, by simp [or_comm], ‹_›, ‹_›⟩
    · cases hentry
  · cases hentry

/-- If a phi of a loop header has one entry from outside the loop and one from inside, all paths
to the header come from the block of the former. -/
theorem SSA.loopPhi (hf : f.SSA m) (hi : f.At i l.header) (hphi : f.incoming? i = some incoming)
    (hzero : l.header ≠ 0) (hl : l ∈ f.loops.loops.toList)
    (hentry : Context.entryAndBack? l incoming = some (entry, back)) :
    ∃ p q, f.LoopPhi l incoming entry back p q := by
  obtain ⟨p, q, hp, hq, honly, hout, hin⟩ := exists_of_entryAndBack? hentry
  have hheader : f.cfg.IsHeader l.header :=
    (Cfg.mem_headers_iff f.closed_cfg).1 (List.mem_map_of_mem hl)
  -- control comes to the header from the blocks of the two entries only
  have hpred : ∀ c, l.header ∈ f.cfg.successors c → f.cfg.Reaches c → c = p ∨ c = q := by
    intro c hedge hc
    have hcount := (hf.incoming hi.1 hi.2 hphi
      (f.closed_cfg.mem_predecessors_iff.2 hedge) hc).1
    have hmem : c ∈ incoming.map Prod.fst := List.count_pos_iff.1 (by omega)
    obtain ⟨y, hy, rfl⟩ := List.mem_map.1 hmem
    exact (honly y hy).imp (congrArg Prod.fst) (congrArg Prod.fst)
  have harrive : ∀ r, f.cfg.Path 0 l.header r → p ∈ r ∧ l.header ∈ f.cfg.successors p := by
    intro r hr
    refine Cfg.arrives_from_source hzero (fun c hedge hc => ?_) hr
    rcases hpred c hedge hc with rfl | rfl
    · exact Or.inl rfl
    · exact Or.inr ((contains_iff hl).1 hin)
  have hback : f.cfg.BackSource l.header q := by
    obtain ⟨c, hc⟩ := hheader.2
    rcases hpred c hc.1 hc.2.1 with rfl | rfl
    · rw [(contains_iff hl).2 hc.inNaturalLoop] at hout
      cases hout
    · exact hc
  obtain ⟨r, hr⟩ := hi.1
  refine ⟨p, q, hp, hq, honly, hout, hin, (harrive r hr).2,
    ⟨fun r hr => (harrive r hr).1, ?_⟩, hback⟩
  rintro rfl
  rw [(contains_iff hl).2 (Or.inl rfl)] at hout
  cases hout

namespace LoopPhi

/-- What the phi gets on entry is defined before the header. -/
theorem entry_before (H : f.LoopPhi l incoming entry back p q) (hf : f.SSA m)
    (hi : f.At i l.header) (hphi : f.incoming? i = some incoming)
    (hk : entry = .instruction k) :
    ∃ d, f.At k d ∧ f.cfg.Dominates d p ∧ f.cfg.ProperlyDominates d l.header := by
  have hp := H.dominates.1.reaches hi.1
  obtain ⟨d, hd, hlisted⟩ := (hf.incoming hi.1 hi.2 hphi
    (f.closed_cfg.mem_predecessors_iff.2 H.edge) hp).2 (hk ▸ H.mem_entry)
  exact ⟨d, ⟨hd.reaches hp, hlisted⟩, hd, hd.trans_properly H.dominates hi.1⟩

/-- What the phi gets from inside the loop is defined on all paths to where control comes back. -/
theorem back_before (H : f.LoopPhi l incoming entry back p q) (hf : f.SSA m)
    (hi : f.At i l.header) (hphi : f.incoming? i = some incoming)
    (hk : back = .instruction k) : ∃ d, f.At k d ∧ f.cfg.Dominates d q := by
  obtain ⟨hedge, hq, -⟩ := H.backSource
  obtain ⟨d, hd, hlisted⟩ := (hf.incoming hi.1 hi.2 hphi
    (f.closed_cfg.mem_predecessors_iff.2 hedge) hq).2 (hk ▸ H.mem_back)
  exact ⟨d, ⟨hd.reaches hq, hlisted⟩, hd⟩

/-- What moves the phi is defined before the header if it is not computed inside the loop: its
block dominates that of the instruction that moves the phi, and with it where control comes
back. -/
theorem operand_before (H : f.LoopPhi l incoming entry back p q) (hf : f.SSA m)
    (hi : f.At i l.header) (hphi : f.incoming? i = some incoming)
    (hl : l ∈ f.loops.loops.toList) (hj : back = .instruction j) {op : Operation}
    (hop : f.operation? j = some op) (hnone : f.incoming? j = none)
    (hk : .instruction k ∈ op.operands) (hinv : l.isInvariant f (.instruction k) = .ok true) :
    ∃ d, f.At k d ∧ f.cfg.ProperlyDominates d l.header := by
  have hheader : f.cfg.IsHeader l.header := ⟨hi.1, q, H.backSource⟩
  obtain ⟨d, hd, hdq⟩ := H.back_before hf hi hphi hj
  obtain ⟨c, d', hc, hd', hcd⟩ := hf.precedes_operand hd hop hnone hk
  obtain rfl := hf.at_unique hd hd'
  have hdom : f.cfg.Dominates c d := by
    rcases hcd with hcd | ⟨rfl, -, -⟩
    · exact hcd.1
    · exact .refl _ _
  have hout : ¬ f.cfg.InNaturalLoop l.header c := by
    rw [← contains_iff hl]
    obtain ⟨inst, hinst, rfl⟩ := hf.placed hc.1 hc.2
    rw [Loop.isInvariant, Function.instruction, fetch, hinst] at hinv
    simpa [Functor.map, Except.map] using hinv
  have hin := H.backSource.inNaturalLoop
  exact ⟨c, hc, hin.properlyDominates_of_outside hheader (hdom.trans hdq) hout⟩

end LoopPhi

/-! ## The value of a loop phi -/

theorem available_of_dominates (hrest : s.rest = []) (hd : f.At j d)
    (hdom : f.cfg.Dominates d s.block) : s.Available f j := by
  refine ⟨d, hd, ?_⟩
  by_cases heq : d = s.block
  · exact Or.inr ⟨heq, by simp [hrest]⟩
  · exact Or.inl ⟨hdom, heq⟩

/-- A phi that has just taken its value did so as control entered its block. -/
theorem SSA.enter_of_fresh_phi (hf : f.SSA m) (hs : Reached m f x s) (hstep : Step m f x s s')
    (hi : f.At i h) (hphi : f.incoming? i = some incoming) (hfresh : i ∈ s'.fresh) :
    s.rest = [] ∧ s'.block = h ∧ s'.rounds = f.loops.count s.rounds s.block h ∧
      (∀ k, k ∉ f.phis h → s'.vals k = s.vals k) ∧
      ∃ v, (s.block, v) ∈ incoming ∧ s'.vals i = x.read s.vals v := by
  cases hstep with
  | @run k rest w hrest _ =>
    obtain rfl := List.mem_singleton.1 hfresh
    have hbody : i ∈ f.body s.block := hs.inside.mem_body_of_mem_rest (hrest ▸ List.mem_cons_self)
    rw [mem_body_iff, hphi] at hbody
    cases hbody.2
  | @enter b vals hrest hb hvals hkeep =>
    obtain rfl := hf.at_unique hi ⟨hs.inside.reaches.of_edge f.closed_cfg hb,
      (mem_phis_iff.1 hfresh).1⟩
    obtain ⟨incoming', v, hincoming, hv, hval⟩ := hvals i hfresh
    rw [hphi, Option.some.injEq] at hincoming
    refine ⟨hrest, rfl, ?_, hkeep, v, hincoming ▸ hv, hval⟩
    dsimp only

section Arrival

variable {start step : Evolution}

/-- Where control enters the loop, the start is worth what the phi gets. -/
theorem SSA.eval_entry (hf : f.SSA m) (hi : f.At i l.header)
    (hphi : f.incoming? i = some incoming) (H : f.LoopPhi l incoming entry back p q)
    (hs : Reached m f x s) (hrest : s.rest = []) (hblock : s.block = p)
    (hstart : (hf.viewpointBefore x l.header fun s => Reached m f x s ∧
      ∀ k, entry = .instruction k → s.Available f k).Tells entry start) :
    (s.valuation m x).eval start = x.read s.vals entry := by
  refine hstart.2 s ⟨hs, fun k hk => ?_⟩
  obtain ⟨d, hd, hdom, -⟩ := H.entry_before hf hi hphi hk
  exact available_of_dominates hrest hd (hblock ▸ hdom)

/-- Where control comes back to the header, the phi gets its word moved by the step. -/
theorem SSA.read_back (hf : f.SSA m) (hi : f.At i l.header)
    (hphi : f.incoming? i = some incoming) (H : f.LoopPhi l incoming entry back p q)
    (hs : Reached m f x s) (hrest : s.rest = []) (hblock : s.block = q)
    (hstep : (hf.viewpointBefore x l.header fun s => Reached m f x s ∧
      f.cfg.Dominates l.header s.block).Advances (.instruction i) back step) :
    x.read s.vals back = s.vals i + (s.valuation m x).eval step := by
  obtain ⟨-, j, op, rfl, hop, -, hnone, hmoved⟩ := hstep
  obtain ⟨d, hd, hdom⟩ := H.back_before hf hi hphi rfl
  have hav := available_of_dominates hrest hd (hblock ▸ hdom)
  exact hs.equation hf hav hop hnone (hmoved s ⟨hs, hblock ▸ H.backSource.2.2⟩)

end Arrival

/-- A phi of a loop header that is moved by a step is worth its value on entry plus the step times
the number of rounds. -/
theorem SSA.tells_recurrence (hf : f.SSA m) (hi : f.At i l.header)
    (hphi : f.incoming? i = some incoming) {id : Nat} (hl : f.loops.loops[id]? = some l)
    (H : f.LoopPhi l incoming entry back p q) {start step : Evolution}
    (hstart : (hf.viewpointBefore x l.header fun s => Reached m f x s ∧
      ∀ k, entry = .instruction k → s.Available f k).Tells entry start)
    (hstep : (hf.viewpointBefore x l.header fun s => Reached m f x s ∧
      f.cfg.Dominates l.header s.block).Advances (.instruction i) back step) :
    (hf.viewpoint x i).Tells (.instruction i) (.recurrence start [step] id) := by
  have hseen : (recurrence start [step] id).Everywhere (hf.viewpoint x i).Admits := by
    refine everywhere_recurrence_iff.2 ⟨⟨trivial, l, l.header, hl, hi, .refl _ _⟩, ?_, ?_⟩
    · exact hstart.1.mono fun _ => hf.admits_of_before hi
    · simpa using hstep.1.mono fun _ => hf.admits_of_before hi
  refine ⟨hseen, ?_⟩
  rintro s ⟨hs, hav⟩
  change (s.valuation m x).eval _ = s.vals i
  induction hs with
  | start hsize hphis => exact absurd hav (State.not_available_start hphis)
  | @step s s' hs hnext ih =>
    by_cases hfresh : i ∈ s'.fresh
    · -- start and step are worth the same before and after the arrival at the header
      obtain ⟨hrest, hblock, hrounds, hkeep, v, hv, hval⟩ :=
        hf.enter_of_fresh_phi hs hnext hi hphi hfresh
      have hcount : (s'.valuation m x).rounds id =
          if l.contains s.block then (s.valuation m x).rounds id + 1 else 0 := by
        simp [State.valuation, hrounds, LoopForest.count, hl]
      rw [eval_affine, hf.eval_enter hi.1 hkeep hrounds hstart.1,
        hf.eval_enter hi.1 hkeep hrounds hstep.1, hval, hcount]
      rcases H.only _ hv with heq | heq
      · -- control enters the loop
        obtain ⟨hblock, rfl⟩ := Prod.mk.inj heq
        rw [hblock, H.outside, hf.eval_entry hi hphi H hs hrest hblock hstart]
        simp
      · -- control comes back to the header
        obtain ⟨hblock, rfl⟩ := Prod.mk.inj heq
        have hprev := ih (available_of_dominates hrest hi (hblock ▸ H.backSource.2.2))
        rw [eval_affine] at hprev
        rw [hblock, H.inside, if_pos rfl, BitVec.ofNat_add,
          hf.read_back hi hphi H hs hrest hblock hstep, ← hprev]
        simp only [mul_add, BitVec.mul_one, add_assoc]
    · -- the phi stays available, so nothing the recurrence refers to has changed
      obtain ⟨hav', hval⟩ := (hnext.available_cases hf hs.inside hav).resolve_left hfresh
      rw [hf.eval_keep hs hnext hav hfresh hseen, ih hav', hval]

end Function

end GridAccess
