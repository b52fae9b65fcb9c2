import GridAccess.Proofs.Addresses
import GridAccess.Proofs.Recurrence

set_option autoImplicit false

/-!
# Evolutions are sound

In every execution of a valid function, each instruction that has just run has the word that its
evolution is worth at that moment (`evolution_sound`).

The evolutions of all instructions are found in rounds. An instruction's evolution needs those of
instructions that precede it, so it is found in the round after theirs; as there are no more rounds
needed than instructions, all of them are found (`Function.SSA.tells_evolutions`), unless there are
addresses to which the layout gives no offset. What a round finds is sound if what it looks up is:
by the rules of the operations for most instructions, and along the execution for phis.
-/

namespace GridAccess

open Evolution

/-! ## Ranks -/

namespace Function

variable {m : Module} {f : Function} {b d i j k : Nat}

open Classical in
/-- The number of instructions that precede an instruction. -/
noncomputable def rank (f : Function) (i : Nat) : Nat :=
  ((Finset.range f.instructions.size).filter fun j => f.Precedes j i).card

theorem SSA.rank_lt_of_precedes (hf : f.SSA m) (hji : f.Precedes j i) : f.rank j < f.rank i := by
  classical
  have hj : j < f.instructions.size := by
    obtain ⟨c, -, hc, -, -⟩ := hji
    exact hf.lt_size hc
  exact card_below_lt (R := f.Precedes) (fun _ _ _ => hf.precedes_trans) hf.precedes_irrefl
    (Finset.mem_range.2 hj) hji

theorem SSA.rank_lt_size (hf : f.SSA m) (hi : f.At i b) : f.rank i < f.instructions.size := by
  classical
  have hcard := card_below_lt_card (R := f.Precedes) hf.precedes_irrefl
    (Finset.mem_range.2 (hf.lt_size hi))
  exact hcard.trans_eq (Finset.card_range _)

/-! ## Looking values up -/

variable {x : Inputs} {t : Context.Table}

/-- The evolution of instruction `i` may be missing while those of rank `k` and higher are, and if
the layout does not tell all offsets. -/
def Open (m : Module) (f : Function) (k i : Nat) : Prop := k ≤ f.rank i ∨ ¬ f.LaidOut m

theorem SSA.open_of_precedes (hf : f.SSA m) (hji : f.Precedes j i) (h : f.Open m k j) :
    f.Open m (k + 1) i :=
  h.imp_left fun hk => Nat.succ_le_of_lt (hk.trans_lt (hf.rank_lt_of_precedes hji))

theorem open_or_laid (m : Module) (k i : Nat) (hj : f.At j b) : f.Open m k i ∨ f.Laid m j := by
  by_cases h : f.LaidOut m
  · exact .inr (h j b hj)
  · exact .inl (.inr h)

/-- A table that tells the words of all instructions, as far as they are known. -/
def SSA.Tabulates (hf : f.SSA m) (x : Inputs) (k : Nat) (t : Context.Table) : Prop :=
  ∀ i b, f.At i b → Settles (f.Open m k i) ((hf.viewpoint x i).Tells (.instruction i))
    (Context.lookup t (.instruction i))

theorem SSA.Tabulates.settles_lookup {hf : f.SSA m} (ht : hf.Tabulates x k t) {E : Prop}
    {V : Viewpoint (Context.ofFunction m f)} (hV : ∀ n, Definite n → V.asks n) {v : Value}
    (hv : ∀ j, v = .instruction j → ∃ d, f.At j d ∧ (hf.viewpoint x j).Covers V ∧
      (f.Open m k j → E)) : Settles E (V.Tells v) (Context.lookup t v) := by
  cases v with
  | argument n => exact .ok ⟨.node ⟨hV _ trivial, trivial⟩ (by simp [operands]), fun s hs => rfl⟩
  | constant c =>
    cases c with
    | int w => exact .ok ⟨everywhere_constant Viewpoint.stable_admits w, fun s hs => rfl⟩
    | _ => exact .ok ⟨.node ⟨hV _ trivial, trivial⟩ (by simp [operands]), fun s hs => rfl⟩
  | instruction j =>
    obtain ⟨d, hd, hcovers, hE⟩ := hv j rfl
    exact (ht j d hd).mono hE fun e he => he.of_covers hcovers

/-- The operands of an instruction that is no phi are looked up one round before it. -/
theorem SSA.Tabulates.settles_operand {hf : f.SSA m} (ht : hf.Tabulates x k t) (hi : f.At i b)
    {op : Operation} (hop : f.operation? i = some op) (hnone : f.incoming? i = none) {v : Value}
    (hv : v ∈ op.operands) :
    Settles (f.Open m (k + 1) i) ((hf.viewpoint x i).Tells v) (Context.lookup t v) := by
  refine ht.settles_lookup (fun _ hn => hn) fun j hj => ?_
  have hji := hf.precedes_operand hi hop hnone (hj ▸ hv)
  obtain ⟨c, -, hc, -, -⟩ := id hji
  exact ⟨c, hc, hf.viewpoint_covers hji, hf.open_of_precedes hji⟩

/-- Values that are defined before the header of a loop are looked up one round before its phis. -/
theorem SSA.Tabulates.settles_before {hf : f.SSA m} (ht : hf.Tabulates x k t) {h : Nat}
    (hi : f.At i h) {holds : State → Prop} {v : Value}
    (hv : ∀ j, v = .instruction j → ∃ d, f.At j d ∧ f.cfg.ProperlyDominates d h ∧
      ∀ s, holds s → Reached m f x s ∧ s.Available f j) :
    Settles (f.Open m (k + 1) i) ((hf.viewpointBefore x h holds).Tells v) (Context.lookup t v) := by
  refine ht.settles_lookup (fun _ hn => hn) fun j hj => ?_
  obtain ⟨d, hd, hdh, hholds⟩ := hv j hj
  exact ⟨d, hd, hf.viewpoint_covers_before hd hi.1 hdh hholds,
    hf.open_of_precedes ⟨d, h, hd, hi, Or.inl hdh⟩⟩

/-! ## One round -/

theorem exists_loop_of_innermost? {F : LoopForest} {id : Nat} (h : F.innermost? b = some id) :
    ∃ l, F.loops[id]? = some l := by
  have hmem := List.mem_of_mem_head? h
  rw [LoopForest.around, List.mem_filter, List.mem_range] at hmem
  exact ⟨_, Array.getElem?_eq_getElem hmem.1⟩

section LoopPhi

variable {hf : f.SSA m} {l : Loop} {incoming : List (Nat × Value)} {entry back : Value} {p q : Nat}

/-- What a loop phi has on entry is looked up one round before it. -/
theorem SSA.Tabulates.settles_entry (ht : hf.Tabulates x k t) (hi : f.At i l.header)
    (hphi : f.incoming? i = some incoming) (H : f.LoopPhi l incoming entry back p q) :
    Settles (f.Open m (k + 1) i) ((hf.viewpointBefore x l.header fun s => Reached m f x s ∧
      ∀ k, entry = .instruction k → s.Available f k).Tells entry) (Context.lookup t entry) := by
  refine ht.settles_before hi fun j hj => ?_
  obtain ⟨d, hd, -, hdh⟩ := H.entry_before hf hi hphi hj
  exact ⟨d, hd, hdh, fun s hs => ⟨hs.1, hs.2 j hj⟩⟩

/-- What moves a loop phi is looked up one round before it. -/
theorem SSA.Tabulates.settles_step (ht : hf.Tabulates x k t) (hi : f.At i l.header)
    (hphi : f.incoming? i = some incoming) (hl : l ∈ f.loops.loops.toList)
    (H : f.LoopPhi l incoming entry back p q) :
    Settles (f.Open m (k + 1) i) (fun o => ∀ e ∈ o,
        (hf.viewpointBefore x l.header fun s => Reached m f x s ∧
          f.cfg.Dominates l.header s.block).Advances (.instruction i) back e)
      ((Context.ofFunction m f).increment? (Context.lookup t) l (.instruction i) back) := by
  refine Viewpoint.settles_increment? (fun j hj => ?_) fun j op hj hop => ?_
  · obtain ⟨d, hd, -⟩ := H.back_before hf hi hphi hj
    exact hf.lt_size hd
  · obtain ⟨d, hd, -⟩ := H.back_before hf hi hphi hj
    refine ⟨hop, fun v hv => hf.typed hd.1 hd.2 hop hv, open_or_laid m _ i hd,
      fun hnone _ v hv hinv => ?_⟩
    refine ht.settles_before hi fun c hc => ?_
    subst hc
    obtain ⟨d', hd', hdh⟩ := H.operand_before hf hi hphi hl hj hop hnone hv hinv
    refine ⟨d', hd', hdh, fun s hs => ⟨hs.1, d', hd', Or.inl ?_⟩⟩
    exact hdh.trans_dominates hs.2 hs.1.inside.reaches

end LoopPhi

/-- A phi for which a recurrence is found is worth the recurrence. -/
theorem SSA.Tabulates.settles_ofPhi {hf : f.SSA m} (ht : hf.Tabulates x k t)
    (hstart : f.phis 0 = []) (hi : f.At i b) {incoming : List (Nat × Value)}
    (hphi : f.incoming? i = some incoming) :
    Settles (f.Open m (k + 1) i)
      (fun o => ∀ e ∈ o, (hf.viewpoint x i).Tells (.instruction i) e)
      ((Context.ofFunction m f).ofPhi (Context.lookup t) (.instruction i) b incoming) := by
  rw [Context.ofPhi]
  cases hin : (Context.ofFunction m f).forest.innermost? b with
  | none => exact .none
  | some id =>
    obtain ⟨l, hl⟩ := exists_loop_of_innermost? hin
    have hloop : Settles (f.Open m (k + 1) i) (· = l)
        ((Context.ofFunction m f).forest.loop id) := by
      rw [LoopForest.loop, fetch, hl]
      exact .ok rfl
    refine hloop.bind ?_
    rintro l rfl
    by_cases hb : l.header = b
    · rw [if_neg (not_not.2 hb)]
      subst hb
      have hmem : l ∈ f.loops.loops.toList := Array.mem_toList_iff.2 (Array.mem_of_getElem? hl)
      -- block 0 has no phis, so it is not the header
      have hzero : l.header ≠ 0 := by
        intro hzero
        have hmem : i ∈ f.phis l.header := by
          rw [mem_phis_iff, mem_body_iff, hphi]
          exact ⟨hi.2, by simp⟩
        rw [hzero, hstart] at hmem
        cases hmem
      cases hentry : Context.entryAndBack? l incoming with
      | none => exact .none
      | some values =>
        obtain ⟨entry, back⟩ := values
        obtain ⟨p, q, H⟩ := hf.loopPhi hi hphi hzero hmem hentry
        refine (ht.settles_step hi hphi hmem H).bind fun o ho => ?_
        cases o with
        | none => exact .none
        | some step =>
          refine (ht.settles_entry hi hphi H).bind fun start hstart => ?_
          exact .some (hf.tells_recurrence hi hphi hl H hstart (ho step rfl))
    · rw [if_pos hb]
      exact .none

theorem SSA.tells_of_computes (hf : f.SSA m) {op : Operation} (hop : f.operation? i = some op)
    (hnone : f.incoming? i = none) {e : Evolution} (he : (hf.viewpoint x i).Computes op e) :
    (hf.viewpoint x i).Tells (.instruction i) e :=
  ⟨he.1, fun s hs => (hs.1.equation hf hs.2 hop hnone (he.2 s hs)).symm⟩

/-- An instruction for which nothing is found is not looked into. -/
theorem SSA.settles_looked (hf : f.SSA m) (hi : f.At i b) {E : Prop}
    {r : Except Fault (Option Evolution)}
    (hr : Settles E (fun o => ∀ e ∈ o, (hf.viewpoint x i).Tells (.instruction i) e) r) :
    Settles E ((hf.viewpoint x i).Tells (.instruction i))
      (r >>= fun o => pure (o.getD (.unknown (.instruction i)))) := by
  refine hr.bind fun o ho => ?_
  cases o with
  | none =>
    exact .ok ⟨.node ⟨trivial, ⟨b, hi⟩, Or.inl rfl⟩ (by simp [operands]), fun s hs => rfl⟩
  | some e => exact .ok (ho e rfl)

theorem SSA.settles_computed (hf : f.SSA m) (hi : f.At i b) {E : Prop} {op : Operation}
    {r : Except Fault (Option Evolution)} (hop : f.operation? i = some op)
    (hnone : f.incoming? i = none)
    (hr : Settles E (fun o => ∀ e ∈ o, (hf.viewpoint x i).Computes op e) r) :
    Settles E ((hf.viewpoint x i).Tells (.instruction i))
      (r >>= fun o => pure (o.getD (.unknown (.instruction i)))) := by
  refine hf.settles_looked hi (hr.mono id fun o ho e he => ?_)
  exact hf.tells_of_computes hop hnone (ho e he)

/-- A choice is looked up one round after the values it chooses between; the comparison it depends
on has the word of its operands' present words. -/
theorem SSA.Tabulates.settles_select {hf : f.SSA m} (ht : hf.Tabulates x k t) (hi : f.At i b)
    {cond onTrue onFalse : Value} (hop : f.operation? i = some (.select cond onTrue onFalse))
    (hnone : f.incoming? i = none) :
    Settles (f.Open m (k + 1) i)
      (fun o => ∀ e ∈ o, (hf.viewpoint x i).Computes (.select cond onTrue onFalse) e)
      ((Context.ofFunction m f).ofSelect (Context.lookup t) cond onTrue onFalse) := by
  have hcond : ∀ j, cond = .instruction j → f.Precedes j i :=
    fun j hj => hf.precedes_operand hi hop hnone (by simp [Operation.operands, hj])
  refine Viewpoint.settles_ofSelect (fun j hj => ?_) (fun j pred lhs rhs hj hopj s hs => ?_)
    (ht.settles_operand hi hop hnone (by simp [Operation.operands]))
    (ht.settles_operand hi hop hnone (by simp [Operation.operands]))
  · obtain ⟨c, -, hc, -, -⟩ := hcond j hj
    exact hf.lt_size hc
  · have hopj : f.operation? j = some (.compare pred lhs rhs) := hopj
    have hnonej : f.incoming? j = none := by rw [incoming?, hopj]
    exact hs.1.equation hf (hs.1.inside.available_of_precedes hf (hcond j hj) hs.2) hopj hnonej rfl

/-- A round finds out about all instructions of one rank more. -/
theorem SSA.Tabulates.settles_ofInstruction {hf : f.SSA m} (ht : hf.Tabulates x k t)
    (hstart : f.phis 0 = []) (hi : f.At i b) {inst : Instruction}
    (hinst : f.instructions[i]? = some inst) :
    Settles (f.Open m (k + 1) i) ((hf.viewpoint x i).Tells (.instruction i))
      ((Context.ofFunction m f).ofInstruction (Context.lookup t) i inst) := by
  have hop := operation?_of_getElem? hinst
  obtain ⟨inst', hinst', hparent⟩ := hf.placed hi.1 hi.2
  obtain rfl : inst = inst' := Option.some.inj (hinst.symm.trans hinst')
  rw [Context.ofInstruction]
  cases hcase : inst.operation with
  | binary op lhs rhs =>
    rw [hcase] at hop
    have hnone : f.incoming? i = none := by rw [incoming?, hop]
    exact hf.settles_computed hi hop hnone (Viewpoint.settles_ofBinary
      (ht.settles_operand hi hop hnone (by simp [Operation.operands]))
      (ht.settles_operand hi hop hnone (by simp [Operation.operands])))
  | cast op operand =>
    rw [hcase] at hop
    have hnone : f.incoming? i = none := by rw [incoming?, hop]
    exact hf.settles_computed hi hop hnone (Viewpoint.settles_ofCast
      (ht.settles_operand hi hop hnone (by simp [Operation.operands])))
  | element base indices =>
    rw [hcase] at hop
    have hnone : f.incoming? i = none := by rw [incoming?, hop]
    obtain ⟨t, htyped⟩ := hf.typed hi.1 hi.2 hop (List.mem_append_right indices List.mem_cons_self)
    exact hf.settles_computed hi hop hnone (Viewpoint.settles_ofElement htyped
      (fun t hne hpointee => (open_or_laid m _ i hi).imp_right fun h => h _ _ t hop hne hpointee)
      fun v hv => ht.settles_operand hi hop hnone hv)
  | select cond onTrue onFalse =>
    rw [hcase] at hop
    have hnone : f.incoming? i = none := by rw [incoming?, hop]
    exact hf.settles_computed hi hop hnone (ht.settles_select hi hop hnone)
  | phi incoming =>
    rw [hcase] at hop
    have hphi : f.incoming? i = some incoming := by rw [incoming?, hop]
    rw [hparent]
    exact hf.settles_looked hi (ht.settles_ofPhi hstart hi hphi)
  | _ => exact hf.settles_looked hi .none

/-! ## All rounds -/

theorem lookup_round {C : Context} {inst : Instruction}
    (hinst : C.function.instructions[i]? = some inst) :
    Context.lookup (C.round t) (.instruction i) = C.ofInstruction (Context.lookup t) i inst := by
  rw [Context.lookup, Context.round, Array.getElem?_mapIdx, hinst]
  rfl

theorem SSA.Tabulates.round {hf : f.SSA m} (ht : hf.Tabulates x k t) (hstart : f.phis 0 = []) :
    hf.Tabulates x (k + 1) ((Context.ofFunction m f).round t) := by
  intro i b hi
  obtain ⟨inst, hinst, -⟩ := hf.placed hi.1 hi.2
  rw [lookup_round hinst]
  exact ht.settles_ofInstruction hstart hi hinst

theorem SSA.tabulates_open (hf : f.SSA m) (x : Inputs) :
    hf.Tabulates x 0 (Array.replicate f.instructions.size (.error .endless)) := by
  intro i b hi
  have hlt := hf.lt_size hi
  rw [Context.lookup, Array.getElem?_replicate, if_pos hlt]
  exact .endless (.inl (Nat.zero_le _))

/-- Rounds beyond the ranks of all instructions, or until nothing is open, tell all words. -/
theorem SSA.Tabulates.settle {hf : f.SSA m} (ht : hf.Tabulates x k t) (hstart : f.phis 0 = [])
    {r : Nat} (hi : f.At i b) (hlt : f.rank i < k + r) :
    Settles (¬ f.LaidOut m) ((hf.viewpoint x i).Tells (.instruction i))
      (Context.lookup ((Context.ofFunction m f).settle r t) (.instruction i)) := by
  induction r generalizing k t with
  | zero => exact (ht i b hi).mono (fun h => h.resolve_left (by omega)) fun _ he => he
  | succ r ih =>
    rw [Context.settle]
    split
    · -- nothing is open any more, so what is known is all there is
      rename_i hall
      have hi := ht i b hi
      cases hr : t[i]? with
      | none =>
        rw [Context.lookup, hr] at hi
        cases hi
      | some r =>
        rw [Context.lookup, hr] at hi ⊢
        cases hi with
        | ok he => exact .ok he
        | endless _ =>
          have hsettled := Array.all_eq_true_iff_forall_mem.1 hall _ (Array.mem_of_getElem? hr)
          cases hsettled
    · exact ih (ht.round hstart) (by omega)

theorem SSA.tells_evolutions (hf : f.SSA m) (x : Inputs) (hstart : f.phis 0 = [])
    (hi : f.At i b) : Settles (¬ f.LaidOut m) ((hf.viewpoint x i).Tells (.instruction i))
      ((Scope.ofFunction m f).evolution (.instruction i)) := by
  have hrank : f.rank i < 0 + (f.instructions.size + 1) := by
    have := hf.rank_lt_size hi
    omega
  exact (hf.tabulates_open x).settle hstart hi hrank

end Function

theorem Reached.phis_zero {m : Module} {f : Function} {x : Inputs} {s : State}
    (hs : Reached m f x s) : f.phis 0 = [] := by
  induction hs with
  | start _ hphis => exact hphis
  | step _ _ ih => exact ih

/-- In every execution of a valid function, each instruction that has just run has the word that
its evolution is worth in that state; and it has an evolution, if the layout tells the byte offsets
of the addresses. -/
theorem evolution_sound (m : Module) (f : Function) (hf : f.SSA m) (x : Inputs) (s : State)
    (hs : Reached m f x s) (i : Nat) (hi : i ∈ s.fresh) :
    (∀ e, (Scope.ofFunction m f).evolution (.instruction i) = .ok e →
      e.Everywhere (· ≠ .indeterminate) ∧ (s.valuation m x).eval e = s.vals i) ∧
    (f.LaidOut m → ∃ e, (Scope.ofFunction m f).evolution (.instruction i) = .ok e) := by
  have htells := hf.tells_evolutions x hs.phis_zero (hs.inside.at_of_mem_fresh hi)
  generalize (Scope.ofFunction m f).evolution (.instruction i) = r at htells
  cases htells with
  | @ok e he =>
    refine ⟨?_, fun _ => ⟨e, rfl⟩⟩
    rintro _ ⟨⟩
    refine ⟨he.1.mono fun n hn => ?_, ?_⟩
    · rintro rfl
      exact hn.1
    · exact he.2 s ⟨hs, hs.inside.available_of_mem_fresh hf hi⟩
  | endless hE => exact ⟨nofun, fun h => absurd h hE⟩

/-- A loop whose phi starts from five and moves by a loaded word in each round. -/
def strider : Function where
  name := "strider"
  params := #[⟨"p", .pointerTo .word⟩]
  blocks := #[⟨"entry", [0, 1]⟩, ⟨"loop", [2, 3, 4]⟩, ⟨"exit", [5]⟩]
  instructions := #[
    ⟨0, .word, none, .load (.argument 0)⟩,
    ⟨0, .void, none, .branch 1⟩,
    ⟨1, .word, none, .phi [(0, .int 5), (1, .instruction 3)]⟩,
    ⟨1, .word, none, .binary .add (.instruction 2) (.instruction 0)⟩,
    ⟨1, .void, none, .branchIf (.argument 0) 1 2⟩,
    ⟨2, .void, none, .ret none⟩]

/-- The module of the function. -/
def striders : Module := { name := "striders" }

theorem strider_ssa : strider.SSA striders :=
  Function.CheckedSSA.ssa (by decide +kernel)

/-- All inputs are zero. -/
def zeros : Inputs := ⟨fun _ => 0, fun _ => 0, fun _ => 0⟩

theorem strider_enters {s : State} {b : Nat} {v : Value} (hs : Reached striders strider zeros s)
    (hblock : s.block = b) (hrest : s.rest = []) (hb : 1 ∈ strider.cfg.successors b)
    (hv : (b, v) ∈ [(0, Value.int 5), (1, .instruction 3)]) :
    Reached striders strider zeros ⟨1, [3, 4], [2],
      Function.update s.vals 2 (zeros.read s.vals v), strider.loops.count s.rounds b 1⟩ := by
  subst hblock
  refine hs.step (.enter hrest hb (fun i hi => ?_) fun i hi => ?_)
  · obtain rfl : i = 2 := List.mem_singleton.1 hi
    exact ⟨_, v, rfl, hv, Function.update_self _ _ _⟩
  · refine Function.update_of_ne ?_ _ _
    rintro rfl
    exact hi (List.mem_singleton_self 2)

/-- The loop may go round any number of times while the loaded word is seven. -/
theorem strider_rounds (n : Nat) : ∃ s, Reached striders strider zeros s ∧ s.block = 1 ∧
    s.rest = [3, 4] ∧ s.fresh = [2] ∧ s.rounds 0 = n ∧ s.vals 0 = 7 ∧
    s.vals 2 = 5 + BitVec.ofNat 64 n * 7 := by
  have hcount (rounds : Nat → Nat) : strider.loops.count rounds 1 1 0 = rounds 0 + 1 := by
    have hloop : strider.loops.loops[0]? = some ⟨1, [1], [], []⟩ := by decide
    rw [LoopForest.count, hloop]
    rfl
  induction n with
  | zero =>
    have h0 : Reached striders strider zeros ⟨0, [0, 1], [], fun _ => 0, fun _ => 0⟩ :=
      .start (by decide) (by decide)
    have h1 := h0.step (.run (w := 7) rfl fun op v hop hv => by cases hop; cases hv)
    have h2 := h1.step (.run (w := 0) rfl fun op v hop hv => by cases hop; cases hv)
    exact ⟨_, strider_enters h2 rfl rfl (by decide) List.mem_cons_self, rfl, rfl, rfl, by decide,
      rfl, rfl⟩
  | succ n ih =>
    obtain ⟨s, hs, hblock, hrest, -, rfl, hload, hphi⟩ := ih
    have h3 := hs.step (.run (w := s.vals 2 + s.vals 0) hrest fun op v hop hv => by
      cases hop
      exact Option.some.inj hv)
    have h4 := h3.step (.run (w := 0) rfl fun op v hop hv => by cases hop; cases hv)
    have hmoved : s.vals 2 + s.vals 0 = 5 + BitVec.ofNat 64 (s.rounds 0 + 1) * 7 := by
      rw [hphi, hload, BitVec.ofNat_add, BitVec.add_mul, BitVec.add_assoc]
      rfl
    exact ⟨_, strider_enters h4 hblock rfl (by decide) (.tail _ (.head _)), rfl, rfl, rfl,
      hcount s.rounds, hload, hmoved⟩

/-- In the third round the phi has gone from five to twenty-six. -/
theorem strider_evolution : strider.SSA striders ∧ strider.LaidOut striders ∧
    ∃ s, Reached striders strider zeros s ∧ 2 ∈ s.fresh ∧ s.rounds 0 = 3 ∧
      ∃ e, (Scope.ofFunction striders strider).evolution (.instruction 2) = .ok e ∧
        e = .recurrence (.constant 5) [.unknown (.instruction 0)] 0 ∧
        (s.valuation striders zeros).eval e = 26 := by
  obtain ⟨s, hs, -, -, hfresh, hrounds, -, hphi⟩ := strider_rounds 3
  have hmem : 2 ∈ s.fresh := by
    rw [hfresh]
    exact List.mem_singleton_self 2
  have hlaid : strider.LaidOut striders :=
    fun i _ _ => strider.laid_of_nonRecursive (Layout.nonRecursive_of_nil rfl) i
  have hsound := evolution_sound striders strider strider_ssa zeros s hs 2 hmem
  obtain ⟨e, he⟩ := hsound.2 hlaid
  have hrec : (Scope.ofFunction striders strider).evolution (.instruction 2) =
      .ok (.recurrence (.constant 5) [.unknown (.instruction 0)] 0) := by decide +kernel
  refine ⟨strider_ssa, hlaid, s, hs, hmem, hrounds, e, he, ?_, (hsound.1 e he).2.trans hphi⟩
  exact Except.ok.inj (he.symm.trans hrec)

/-- A loop that goes from a struct to the one inside it. -/
def descender : Function where
  name := "descender"
  params := #[⟨"p", .pointerTo (.struct "cell")⟩]
  blocks := #[⟨"entry", [0]⟩, ⟨"loop", [1, 2, 3]⟩, ⟨"exit", [4]⟩]
  instructions := #[
    ⟨0, .void, none, .branch 1⟩,
    ⟨1, .pointerTo (.struct "cell"), none, .phi [(0, .argument 0), (1, .instruction 2)]⟩,
    ⟨1, .pointerTo (.struct "cell"), none, .element (.instruction 1) [.int 0, .int 1]⟩,
    ⟨1, .void, none, .branchIf (.argument 0) 1 2⟩,
    ⟨2, .void, none, .ret none⟩]

/-- The phi of a valid function may have run before any address is taken, and still no evolution is
ever found for it, as the layout does not tell by how many bytes it is moved. -/
theorem descender_endless : descender.SSA Scope.selfNested ∧
    (∃ s, Reached Scope.selfNested descender zeros s ∧ s.fresh = [1]) ∧
    (Scope.ofFunction Scope.selfNested descender).evolution (.instruction 1) = .error .endless := by
  refine ⟨Function.CheckedSSA.ssa (by decide +kernel), ?_, by decide +kernel⟩
  have h0 : Reached Scope.selfNested descender zeros ⟨0, [0], [], fun _ => 0, fun _ => 0⟩ :=
    .start (by decide) (by decide)
  have h1 := h0.step (.run (w := 0) rfl fun op v hop hv => by cases hop; cases hv)
  have h2 : Reached Scope.selfNested descender zeros
      ⟨1, [2, 3], [1], fun _ => 0, descender.loops.count (fun _ => 0) 0 1⟩ := by
    refine h1.step (.enter rfl (by decide) (fun i hi => ?_) fun i _ => by simp)
    obtain rfl : i = 1 := List.mem_singleton.1 hi
    exact ⟨_, .argument 0, rfl, List.mem_cons_self, rfl⟩
  exact ⟨_, h2, rfl⟩

end GridAccess
