import GridAccess.Proofs.Execution
import GridAccess.Proofs.FoldingDescent
import GridAccess.Proofs.LoopNesting

set_option autoImplicit false

/-!
# Invariance in a loop

An evolution is invariant in a loop exactly if everything it speaks about lies outside: every
instruction it reads stands in a block that is not in the loop, and every recurrence in it belongs
to a loop around the loop (`Context.isInvariant_iff_outside`). It therefore has one value under all
valuations that differ only inside the loop, in what its instructions compute and in how often the
loop and the loops inside it have gone round (`Function.eval_eq_of_isInvariant`).

For a recurrence this needs the forest of loops: a loop around the loop is neither the loop nor
inside it, since containment of blocks is an order (`Loop.Inside.asymm`).
-/

namespace GridAccess

open Evolution

namespace Context

variable {C : Context} {m : Module} {f : Function} {e n : Evolution} {k l : Nat}

/-! ## One node at a time -/

/-- What invariance in loop `l` asks of a node apart from its operands. -/
def Steady (C : Context) (l : Nat) : Evolution → Prop
  | .unknown v => ∃ loop, C.forest.loop l = .ok loop ∧ loop.isInvariant C.function v = .ok true
  | .recurrence _ _ k => k ≠ l ∧ C.forest.contains k l = .ok true
  | _ => True

theorem stable_steady (C : Context) (l : Nat) : Stable (C.Steady l) where
  constant _ := trivial
  sum _ := trivial
  product _ := trivial
  quotient _ _ := trivial
  smax _ _ := trivial
  umax _ _ := trivial
  recurrence _ _ _ h := h
  zext _ := trivial
  sext _ := trivial
  trunc _ := trivial

theorem allInvariant_iff {es : List Evolution} :
    C.allInvariant l es = .ok true ↔ ∀ c ∈ es, C.isInvariant l c = .ok true := by
  induction es with
  | nil => simp [allInvariant]
  | cons e es ih =>
    rw [allInvariant, List.forall_mem_cons]
    split
    · rename_i he
      rw [ih, he]
      simp
    · rename_i hne
      exact ⟨fun h => absurd h hne, fun h => absurd h.1 hne⟩

/-- A node is invariant if it is steady itself and its operands are invariant. -/
theorem isInvariant_iff_operands : C.isInvariant l e = .ok true ↔
    C.Steady l e ∧ ∀ c ∈ e.operands, C.isInvariant l c = .ok true := by
  cases e with
  | constant _ | sizeOf _ | alignOf _ | indeterminate => simp [isInvariant, Steady, operands]
  | unknown v =>
    rw [isInvariant, Steady]
    cases C.forest.loop l <;> simp [operands]
  | sum es | product es | smax es | umax es =>
    simp only [isInvariant, Steady, allInvariant_iff, operands, true_and]
  | zext e | sext e | trunc e => simp [isInvariant, Steady, operands]
  | quotient a b =>
    rw [isInvariant]
    split
    · rename_i ha
      simp [Steady, operands, ha]
    · rename_i hne
      exact iff_of_false hne fun h => hne (h.2 a List.mem_cons_self)
  | recurrence a es k =>
    rw [isInvariant, Steady, operands, List.forall_mem_cons]
    split
    · rename_i hkl
      simp [hkl]
    · rename_i hkl
      split
      · rename_i hcontains
        split
        · rename_i ha
          simp [allInvariant_iff, hkl, hcontains, ha]
        · rename_i hne
          exact iff_of_false hne fun h => hne h.2.1
      · rename_i hne
        exact iff_of_false hne fun h => hne h.1.2

theorem isInvariant_iff : C.isInvariant l e = .ok true ↔ e.Everywhere (C.Steady l) := by
  induction e using induction_operands with
  | node e ih =>
    rw [isInvariant_iff_operands, everywhere_iff]
    exact and_congr_right fun _ => forall₂_congr ih

/-! ## Loops of a function -/

/-- A loop that contains another one lies around it. -/
theorem inside_of_contains (hne : k ≠ l) (h : f.loops.contains k l = .ok true) :
    ∃ inner outer, f.loops.loops[l]? = some inner ∧ f.loops.loops[k]? = some outer ∧
      inner.Inside outer := by
  rw [LoopForest.contains, if_neg hne.symm] at h
  obtain ⟨inner, hinner, henclosing⟩ := map_eq_ok_iff.1 h
  have hl : f.loops.loops[l]? = some inner := fetch_eq_ok_iff.1 hinner
  rw [List.contains_iff_mem, (Cfg.lists_of_loops hl).1, Cfg.mem_enclosing_iff f.closed_cfg hl]
    at henclosing
  obtain ⟨outer, houter, hin⟩ := henclosing
  exact ⟨inner, outer, hl, houter, hin⟩

/-- The loop that contains another one has the greater number. -/
theorem lt_of_contains (hne : k ≠ l) (h : f.loops.contains k l = .ok true) : l < k := by
  obtain ⟨inner, outer, hl, houter, hin⟩ := inside_of_contains hne h
  exact Cfg.lt_of_inside f.closed_cfg hl houter hin

/-- The recurrences in an evolution that is invariant in a loop belong to loops with greater
numbers. -/
theorem everywhere_lt_of_isInvariant (h : (ofFunction m f).isInvariant l e = .ok true) :
    e.Everywhere fun n => ∀ a es k, n = recurrence a es k → l < k := by
  refine (isInvariant_iff.1 h).mono fun n hn a es k hrec => ?_
  subst hrec
  exact lt_of_contains hn.1 hn.2

end Context

/-- What a node speaks about itself lies outside a loop: an instruction in another block, or the
rounds of a loop around it. -/
def Function.Outside (f : Function) (loop : Loop) : Evolution → Prop
  | .unknown (.instruction i) => ∃ inst, f.instructions[i]? = some inst ∧ inst.parent ∉ loop.blocks
  | .recurrence _ _ k => ∃ outer, f.loops.loops[k]? = some outer ∧ loop.Inside outer
  | _ => True

namespace Context

variable {m : Module} {f : Function} {loop : Loop} {e n : Evolution} {l : Nat}

theorem steady_iff_outside (hl : f.loops.loops[l]? = some loop) :
    (ofFunction m f).Steady l n ↔ f.Outside loop n := by
  have hfetch : (ofFunction m f).forest.loop l = .ok loop := fetch_eq_ok_iff.2 hl
  cases n with
  | unknown v =>
    simp only [Steady, hfetch, Except.ok.injEq, exists_eq_left']
    cases v with
    | constant _ | argument _ => simp [Loop.isInvariant, Function.Outside]
    | instruction i =>
      simp only [Loop.isInvariant, Function.Outside, map_eq_ok_iff, Function.instruction,
        fetch_eq_ok_iff, Bool.not_eq_true', Loop.contains, ← Bool.not_eq_true,
        List.contains_iff_mem]
      rfl
  | recurrence a es k =>
    have hforest : (ofFunction m f).forest = f.loops := rfl
    rw [hforest] at hfetch
    have hmem := Cfg.mem_enclosing_iff f.closed_cfg hl (j := k)
    rw [← (Cfg.lists_of_loops hl).1] at hmem
    simp only [Steady, Function.Outside, hforest, LoopForest.contains, hfetch]
    constructor
    · rintro ⟨hne, h⟩
      rw [if_neg hne.symm] at h
      exact hmem.1 (List.contains_iff_mem.1 (Except.ok.inj h))
    · rintro ⟨outer, houter, hin⟩
      -- no loop lies inside itself
      have hne : l ≠ k := by
        rintro rfl
        obtain rfl := Option.some.inj (hl.symm.trans houter)
        exact hin.asymm hin
      rw [if_neg hne]
      exact ⟨hne.symm, congrArg _ (List.contains_iff_mem.2 (hmem.2 ⟨outer, houter, hin⟩))⟩
  | _ => simp [Steady, Function.Outside]

/-- An evolution is invariant in a loop exactly if everything it speaks about lies outside. -/
theorem isInvariant_iff_outside (hl : f.loops.loops[l]? = some loop) :
    (ofFunction m f).isInvariant l e = .ok true ↔ e.Everywhere (f.Outside loop) := by
  rw [isInvariant_iff]
  exact ⟨.mono fun _ => (steady_iff_outside hl).1, .mono fun _ => (steady_iff_outside hl).2⟩

end Context

/-! ## Values inside and outside a loop -/

/-- Two valuations of what a function speaks about differ at most inside loop `l`: in the values
of instructions in its blocks, and in the rounds of the loop and of loops inside it. -/
structure Valuation.AgreeOutside (f : Function) (l : Nat) (loop : Loop) (ρ σ : Valuation) :
    Prop where
  size : ρ.size = σ.size
  align : ρ.align = σ.align
  byZero : ρ.byZero = σ.byZero
  constant : ∀ c, ρ.value (.constant c) = σ.value (.constant c)
  argument : ∀ n, ρ.value (.argument n) = σ.value (.argument n)
  instruction : ∀ i inst, f.instructions[i]? = some inst → inst.parent ∉ loop.blocks →
    ρ.value (.instruction i) = σ.value (.instruction i)
  rounds : ∀ k other, f.loops.loops[k]? = some other → k ≠ l → ¬ other.Inside loop →
    ρ.rounds k = σ.rounds k

namespace Function

variable {m : Module} {f : Function} {loop : Loop} {e n : Evolution} {l : Nat} {ρ σ : Valuation}

theorem Outside.agreeAt (hl : f.loops.loops[l]? = some loop) (h : ρ.AgreeOutside f l loop σ)
    (hn : f.Outside loop n) : ρ.AgreeAt σ n := by
  cases n with
  | unknown v =>
    cases v with
    | constant c => exact h.constant c
    | argument n => exact h.argument n
    | instruction i =>
      obtain ⟨inst, hinst, hparent⟩ := hn
      exact h.instruction i inst hinst hparent
  | recurrence a es k =>
    obtain ⟨outer, houter, hin⟩ := hn
    refine h.rounds k outer houter ?_ hin.asymm
    rintro rfl
    obtain rfl := Option.some.inj (hl.symm.trans houter)
    exact hin.asymm hin
  | sizeOf t => exact congrFun h.size t
  | alignOf t => exact congrFun h.align t
  | quotient a b => exact h.byZero
  | _ => trivial

/-- Invariance in a loop is what it says: it holds exactly if everything that an evolution speaks
about lies outside the loop, and then nothing that happens inside changes the value. -/
theorem eval_eq_of_isInvariant (m : Module) (f : Function) (l : Nat) (loop : Loop) (e : Evolution)
    (hl : f.loops.loops[l]? = some loop) :
    ((Context.ofFunction m f).isInvariant l e = .ok true ↔ e.Everywhere (f.Outside loop)) ∧
    ((Context.ofFunction m f).isInvariant l e = .ok true →
      ∀ ρ σ : Valuation, ρ.AgreeOutside f l loop σ → ρ.eval e = σ.eval e) := by
  have hiff := Context.isInvariant_iff_outside (m := m) (e := e) hl
  refine ⟨hiff, fun hinv ρ σ hagree => ?_⟩
  apply Valuation.eval_congr
  exact (hiff.1 hinv).mono fun n hn => hn.agreeAt hl hagree

/-- A loop inside another one. The outer loop counts in blocks 1 to 3, the inner one in block 2,
and the value that is loaded before both of them is read in block 2. -/
def twoLevels : Function where
  name := "twoLevels"
  params := #[⟨"p", .pointerTo .word⟩]
  blocks := #[⟨"entry", [0, 1]⟩, ⟨"outer", [2, 3]⟩, ⟨"inner", [4, 5, 6]⟩, ⟨"next", [7, 8]⟩,
    ⟨"exit", [9]⟩]
  instructions := #[
    ⟨0, .word, none, .load (.argument 0)⟩,
    ⟨0, .void, none, .branch 1⟩,
    ⟨1, .word, none, .phi [(0, .int 0), (3, .instruction 7)]⟩,
    ⟨1, .void, none, .branch 2⟩,
    ⟨2, .word, none, .phi [(1, .int 0), (2, .instruction 5)]⟩,
    ⟨2, .word, none, .binary .add (.instruction 4) (.instruction 0)⟩,
    ⟨2, .void, none, .branchIf (.argument 0) 2 3⟩,
    ⟨3, .word, none, .binary .add (.instruction 2) (.int 1)⟩,
    ⟨3, .void, none, .branchIf (.argument 0) 1 4⟩,
    ⟨4, .void, none, .ret none⟩]

/-- A moment of an execution in which the inner loop has run `n` rounds. -/
def innerRound (n : Nat) : Valuation where
  value v := if v = .instruction 4 ∨ v = .instruction 5 then BitVec.ofNat 64 n else 7
  size _ := 8
  align _ := 8
  rounds k := if k = 0 then n else 2
  byZero _ := 0

theorem agreeOutside_innerRound (m n : Nat) :
    (innerRound m).AgreeOutside twoLevels 0 ⟨2, [2], [1], []⟩ (innerRound n) where
  size := rfl
  align := rfl
  byZero := rfl
  constant _ := rfl
  argument _ := rfl
  instruction i inst hinst hparent := by
    have hinner : i ≠ 4 ∧ i ≠ 5 := by
      constructor <;> rintro rfl <;> cases hinst <;> exact hparent (by decide)
    simp [innerRound, hinner]
  rounds k other _ hk _ := by simp [innerRound, hk]

/-- The value that is loaded and the counter of the outer loop, by the argument. -/
def outerShare : Evolution :=
  .quotient (.sum [.unknown (.instruction 0), .recurrence .zero [.constant 1] 1])
    (.unknown (.argument 0))

theorem eval_eq_of_isInvariant_twoLevels :
    twoLevels.loops.loops[0]? = some ⟨2, [2], [1], []⟩ ∧
    (Context.ofFunction { name := "nest" } twoLevels).isInvariant 0 outerShare = .ok true ∧
    (innerRound 3).AgreeOutside twoLevels 0 ⟨2, [2], [1], []⟩ (innerRound 8) ∧
    (innerRound 3).value (.instruction 4) ≠ (innerRound 8).value (.instruction 4) ∧
    (innerRound 3).eval outerShare = (innerRound 8).eval outerShare := by
  have hl : twoLevels.loops.loops[0]? = some ⟨2, [2], [1], []⟩ := by decide +kernel
  have hinv : (Context.ofFunction { name := "nest" } twoLevels).isInvariant 0 outerShare =
      .ok true := by decide +kernel
  have hsound := eval_eq_of_isInvariant { name := "nest" } twoLevels 0 _ outerShare hl
  refine ⟨hl, hinv, agreeOutside_innerRound 3 8, by decide, ?_⟩
  exact hsound.2 hinv _ _ (agreeOutside_innerRound 3 8)

end Function

end GridAccess
