import GridAccess.IR.Module
import GridAccess.Proofs.NaturalLoops
import GridAccess.Proofs.StructLayout
import GridAccess.Proofs.Valuation

set_option autoImplicit false

/-!
# Executions

What running a function means. Every value is a 64-bit word. An execution starts in block 0 and
goes along the edges of the control-flow graph. On entering a block all its phis take their values
at once, each from its entry for the block that control came from; then the other instructions of
the block run one after the other. Arithmetic wraps around, casts keep the word, and addresses of
elements follow the data layout. Instructions that are not modelled, loads and calls among them,
may yield any word, and a branch may go to any of its targets.

For each loop the number of rounds is counted: it is zero when control comes to the header from
outside the loop, and one more when control comes from inside.

In a valid function the operands of an instruction are defined before it (`Function.SSA`). From
this it follows that an instruction that has run keeps the value its operation gives to the
present values of its operands (`Reached.equation`): before an operand changes, control passes a
place where the instruction is no longer available.
-/

namespace GridAccess

/-! ## Words of values and results of operations -/

/-- What an execution does not compute: the words of the parameters and of the constants that are
no integers, and the quotients by zero. -/
structure Inputs where
  argument : Nat → Word
  constant : Constant → Word
  byZero : Word → Word

/-- The word of a value, given those of the instructions. -/
def Inputs.read (x : Inputs) (vals : Nat → Word) : Value → Word
  | .argument i => x.argument i
  | .instruction i => vals i
  | .constant (.int w) => w
  | .constant c => x.constant c

/-- The comparison holds of two words. -/
def Predicate.holds : Predicate → Word → Word → Bool
  | eq, a, b => a == b
  | ne, a, b => a != b
  | ugt, a, b => b.ult a
  | uge, a, b => b.ule a
  | ult, a, b => a.ult b
  | ule, a, b => a.ule b
  | sgt, a, b => b.slt a
  | sge, a, b => b.sle a
  | slt, a, b => a.slt b
  | sle, a, b => a.sle b

namespace Module

/-- A number of bytes as a word. What the layout does not tell counts as zero, in executions and in
the values of evolutions alike. -/
def byteWord (bytes : Except Fault Nat) : Word := (bytes.toOption.map (BitVec.ofNat 64)).getD 0

/-- The size of a type as a word. -/
def sizeWord (m : Module) (t : Ty) : Word := byteWord (m.layout.sizeOf t)

/-- The bytes that indices after the first move within a type. -/
def bytesWithin? (m : Module) (word : Value → Word) (t : Ty) : List Value → Option Word
  | [] => some 0
  | index :: rest =>
    match t with
    | .struct name => do
      let (offset, field) ← (m.fieldAt? name index).toOption.join
      let more ← m.bytesWithin? word field rest
      return BitVec.ofNat 64 offset + more
    | .array element _ => do
      let more ← m.bytesWithin? word element rest
      return word index * m.sizeWord element + more
    | _ => none

/-- The bytes that indices move from a pointer to elements of type `t`. -/
def bytes? (m : Module) (word : Value → Word) (t : Ty) : List Value → Option Word
  | [] => some 0
  | index :: rest => do
    let more ← m.bytesWithin? word t rest
    return word index * m.sizeWord t + more

/-- What a value points to inside a function. -/
def pointeeOf? (m : Module) (f : Function) (v : Value) : Option Ty :=
  match m.typeOf f v with
  | .ok t => t.pointee?
  | .error _ => none

end Module

/-- The result of an operation on words; none if the operation is not modelled. -/
def Operation.result? (m : Module) (f : Function) (x : Inputs) (vals : Nat → Word) :
    Operation → Option Word
  | .binary .add a b => some (x.read vals a + x.read vals b)
  | .binary .sub a b => some (x.read vals a - x.read vals b)
  | .binary .mul a b => some (x.read vals a * x.read vals b)
  | .binary .udiv a b =>
    some (if x.read vals b = 0 then x.byZero (x.read vals a) else x.read vals a / x.read vals b)
  | .binary .shl a b =>
    if (x.read vals b).toNat < 64 then some (x.read vals a <<< (x.read vals b).toNat) else none
  | .compare pred a b => some (if pred.holds (x.read vals a) (x.read vals b) then 1 else 0)
  | .cast .ptrtoint _ | .cast .inttoptr _ => none
  | .cast _ v => some (x.read vals v)
  | .element base indices => do
    let t ← m.pointeeOf? f base
    let offset ← m.bytes? (x.read vals) t indices
    return x.read vals base + offset
  | .select c a b => some (if x.read vals c = 0 then x.read vals b else x.read vals a)
  | _ => none

namespace Function

variable (f : Function)

/-- The loops of a function. -/
def loops : LoopForest := f.cfg.loops f.cfg.domTree

/-- The instructions a block lists. -/
def listed (b : Nat) : List Nat := (f.blocks[b]?.map Block.instructions).getD []

/-- What an instruction does. -/
def operation? (i : Nat) : Option Operation := f.instructions[i]?.map Instruction.operation

theorem operation?_of_getElem? {f : Function} {i : Nat} {inst : Instruction}
    (hinst : f.instructions[i]? = some inst) : f.operation? i = some inst.operation := by
  rw [operation?, hinst, Option.map_some]

/-- The entries of an instruction that is a phi. -/
def incoming? (i : Nat) : Option (List (Nat × Value)) :=
  match f.operation? i with
  | some (.phi incoming) => some incoming
  | _ => none

/-- The phis of a block. -/
def phis (b : Nat) : List Nat := (f.listed b).filter fun i => (f.incoming? i).isSome

/-- The instructions of a block that are no phis. -/
def body (b : Nat) : List Nat := (f.listed b).filter fun i => (f.incoming? i).isNone

end Function

/-! ## Steps -/

/-- The rounds of all loops after control has gone from one block to another. -/
def LoopForest.count (F : LoopForest) (rounds : Nat → Nat) (source target l : Nat) : Nat :=
  match F.loops[l]? with
  | some loop =>
    if loop.header = target then if loop.contains source then rounds l + 1 else 0 else rounds l
  | none => rounds l

/-- A state of an execution: the block it is in, the instructions of the block that are still to
run, those that have just run, the latest words of all instructions, and the rounds of all
loops. -/
structure State where
  block : Nat
  rest : List Nat
  fresh : List Nat
  vals : Nat → Word
  rounds : Nat → Nat

/-- One step: the next instruction runs, or control goes on to another block and its phis take
their values. -/
inductive Step (m : Module) (f : Function) (x : Inputs) : State → State → Prop
  | run {s : State} {i : Nat} {rest : List Nat} {w : Word} (hrest : s.rest = i :: rest)
      (hw : ∀ op v, f.operation? i = some op → op.result? m f x s.vals = some v → w = v) :
      Step m f x s { s with rest := rest, fresh := [i], vals := Function.update s.vals i w }
  | enter {s : State} {b : Nat} {vals : Nat → Word} (hrest : s.rest = [])
      (hb : b ∈ f.cfg.successors s.block)
      (hphi : ∀ i ∈ f.phis b, ∃ incoming v, f.incoming? i = some incoming ∧
        (s.block, v) ∈ incoming ∧ vals i = x.read s.vals v)
      (hkeep : ∀ i, i ∉ f.phis b → vals i = s.vals i) :
      Step m f x s ⟨b, f.body b, f.phis b, vals, f.loops.count s.rounds s.block b⟩

/-- The states of executions. One starts in block 0, where control has not come from any block;
so there are no phis in it. -/
inductive Reached (m : Module) (f : Function) (x : Inputs) : State → Prop
  | start {vals : Nat → Word} (hsize : 0 < f.blocks.size) (hphis : f.phis 0 = []) :
      Reached m f x ⟨0, f.body 0, [], vals, fun _ => 0⟩
  | step {s s' : State} (hs : Reached m f x s) (h : Step m f x s s') : Reached m f x s'

/-- What evolutions stand for in a state. -/
def State.valuation (m : Module) (x : Inputs) (s : State) : Valuation where
  value := x.read s.vals
  size := m.sizeWord
  align t := Module.byteWord (m.layout.alignOf t)
  rounds := s.rounds
  byZero := x.byZero

/-! ## Valid functions -/

/-- A function of a module in which definitions come before uses, as far as control reaches. The
instructions of a block are there, listed once and by the block they belong to, and their operands
have types. The operands of an instruction that is no phi are defined earlier in its block or in
a block that properly dominates it. A phi has exactly one entry for each block control may come
from, and what it gets from there is defined in a block that dominates that one. -/
structure Function.SSA (m : Module) (f : Function) : Prop where
  placed : ∀ {b i : Nat}, f.cfg.Reaches b → i ∈ f.listed b →
    ∃ inst, f.instructions[i]? = some inst ∧ inst.parent = b
  once : ∀ {b : Nat}, f.cfg.Reaches b → (f.listed b).Nodup
  typed : ∀ {b i : Nat} {op : Operation} {v : Value}, f.cfg.Reaches b → i ∈ f.listed b →
    f.operation? i = some op → v ∈ op.operands → ∃ t, m.typeOf f v = .ok t
  defined : ∀ {b i j : Nat} {op : Operation} {before after : List Nat}, f.cfg.Reaches b →
    f.listed b = before ++ i :: after → f.operation? i = some op → f.incoming? i = none →
    .instruction j ∈ op.operands →
    j ∈ before ∨ ∃ d, f.cfg.ProperlyDominates d b ∧ j ∈ f.listed d
  incoming : ∀ {b i p : Nat} {incoming : List (Nat × Value)}, f.cfg.Reaches b → i ∈ f.listed b →
    f.incoming? i = some incoming → p ∈ f.cfg.predecessors b → f.cfg.Reaches p →
    (incoming.map Prod.fst).count p = 1 ∧
      ∀ {j : Nat}, (p, .instruction j) ∈ incoming → ∃ d, f.cfg.Dominates d p ∧ j ∈ f.listed d

namespace Function

/-- A block with a property lists the instruction. -/
def ListedBy (f : Function) (P : Nat → Bool) (i : Nat) : Prop :=
  ∃ b < f.blocks.size, P b = true ∧ i ∈ f.listed b

instance (f : Function) (P : Nat → Bool) (i : Nat) : Decidable (f.ListedBy P i) :=
  inferInstanceAs (Decidable (∃ b < f.blocks.size, P b = true ∧ i ∈ f.listed b))

/-- What `SSA` asks, of all blocks and with the dominators that are computed. -/
structure CheckedSSA (m : Module) (f : Function) : Prop where
  placed : ∀ b < f.blocks.size, ∀ i ∈ f.listed b, f.instructions[i]?.map (·.parent) = some b
  once : ∀ b < f.blocks.size, (f.listed b).Nodup
  typed : ∀ b < f.blocks.size, ∀ i ∈ f.listed b, ∀ op ∈ f.operation? i, ∀ v ∈ op.operands,
    (m.typeOf f v).isOk = true
  defined : ∀ b < f.blocks.size, ∀ i ∈ f.listed b, ∀ op ∈ f.operation? i,
    f.incoming? i = none → ∀ v ∈ op.operands, ∀ j ∈ v.instruction?,
      (f.listed b).idxOf j < (f.listed b).idxOf i ∨
        f.ListedBy (f.cfg.domTree.properlyDominates · b) j
  incoming : ∀ b < f.blocks.size, ∀ i ∈ f.listed b, ∀ incoming ∈ f.incoming? i,
    ∀ p ∈ f.cfg.predecessors b, (incoming.map Prod.fst).count p = 1 ∧
      ∀ entry ∈ incoming, entry.1 = p → ∀ j ∈ entry.2.instruction?,
        f.ListedBy (f.cfg.domTree.dominates · p) j

instance (m : Module) (f : Function) : Decidable (f.CheckedSSA m) :=
  decidable_of_iff (_ ∧ _ ∧ _ ∧ _ ∧ _) ⟨fun h => ⟨h.1, h.2.1, h.2.2.1, h.2.2.2.1, h.2.2.2.2⟩,
    fun h => ⟨h.1, h.2, h.3, h.4, h.5⟩⟩

theorem CheckedSSA.ssa {m : Module} {f : Function} (hf : f.CheckedSSA m) : f.SSA m := by
  have hlt : ∀ {b}, f.cfg.Reaches b → b < f.blocks.size := fun hb => f.size_cfg ▸ hb.lt_size
  have hdominates : ∀ {b j}, f.cfg.Reaches b → f.ListedBy (f.cfg.domTree.dominates · b) j →
      ∃ d, f.cfg.Dominates d b ∧ j ∈ f.listed d := by
    rintro b j hb ⟨d, -, hdom, hj⟩
    exact ⟨d, (Cfg.dominates_domTree_iff f.closed_cfg hb).1 hdom, hj⟩
  constructor
  case placed =>
    intro b i hb hi
    exact Option.map_eq_some_iff.1 (hf.placed b (hlt hb) i hi)
  case once => exact fun hb => hf.once _ (hlt hb)
  case typed =>
    intro b i op v hb hi hop hv
    have hok := hf.typed b (hlt hb) i hi op hop v hv
    cases ht : m.typeOf f v with
    | ok t => exact ⟨t, rfl⟩
    | error e =>
      rw [ht] at hok
      cases hok
  case defined =>
    intro b i j op before after hb hcut hop hnone hj
    have hi : i ∈ f.listed b := hcut ▸ List.mem_append_right before List.mem_cons_self
    rcases hf.defined b (hlt hb) i hi op hop hnone _ hj j rfl with hbefore | ⟨d, -, hdom, hd⟩
    · left
      -- what is not listed before `i` has no smaller place
      by_contra hnot
      rw [hcut, List.idxOf_append_of_notMem hnot] at hbefore
      have hle : (before ++ i :: after).idxOf i ≤ before.length := by
        by_cases hmem : i ∈ before
        · rw [List.idxOf_append_of_mem hmem]
          exact List.idxOf_le_length
        · rw [List.idxOf_append_of_notMem hmem, List.idxOf_cons_self, Nat.add_zero]
      omega
    · simp only [DomTree.properlyDominates, Bool.and_eq_true, bne_iff_ne] at hdom
      exact .inr ⟨d, ⟨(Cfg.dominates_domTree_iff f.closed_cfg hb).1 hdom.2, hdom.1⟩, hd⟩
  case incoming =>
    intro b i p incoming hb hi hincoming hp hreach
    obtain ⟨hcount, hvalues⟩ := hf.incoming b (hlt hb) i hi incoming hincoming p hp
    exact ⟨hcount, fun hj => hdominates hreach (hvalues _ hj rfl _ rfl)⟩

/-- The reached block `b` lists instruction `i`. -/
def At (f : Function) (i b : Nat) : Prop := f.cfg.Reaches b ∧ i ∈ f.listed b

/-- If instruction `i` is the address of an element, then its first index counts in something that
has a size: no struct in it contains itself. -/
def Laid (m : Module) (f : Function) (i : Nat) : Prop :=
  ∀ base indices t, f.operation? i = some (.element base indices) → indices ≠ [] →
    m.pointeeOf? f base = some t → m.layout.Bounded t

theorem laid_of_nonRecursive {m : Module} (h : m.layout.NonRecursive) (f : Function) (i : Nat) :
    f.Laid m i :=
  fun _ _ t _ _ _ => h.bounded t

/-- The layout tells the byte offsets of all addresses, as far as control reaches. -/
def LaidOut (m : Module) (f : Function) : Prop := ∀ i b, f.At i b → f.Laid m i

/-- Whenever instruction `i` has run, `j` has: it is listed in a block that properly dominates
that of `i`, or before `i` in the same block, `i` being no phi. -/
def Precedes (f : Function) (j i : Nat) : Prop :=
  ∃ c d, f.At j c ∧ f.At i d ∧ (f.cfg.ProperlyDominates c d ∨
    c = d ∧ i ∈ f.body d ∧ (f.listed d).idxOf j < (f.listed d).idxOf i)

variable {m : Module} {f : Function} {b c d i j k : Nat}

theorem mem_body_iff : i ∈ f.body b ↔ i ∈ f.listed b ∧ f.incoming? i = none := by
  rw [body, List.mem_filter, Option.isNone_iff_eq_none]

theorem mem_phis_iff : i ∈ f.phis b ↔ i ∈ f.listed b ∧ i ∉ f.body b := by
  rw [phis, List.mem_filter, mem_body_iff, Option.isSome_iff_ne_none]
  refine and_congr_right fun hi => ?_
  simp [hi]

namespace SSA

theorem at_unique (hf : f.SSA m) (hb : f.At i b) (hc : f.At i c) : b = c := by
  obtain ⟨inst, hinst, rfl⟩ := hf.placed hb.1 hb.2
  obtain ⟨inst', hinst', rfl⟩ := hf.placed hc.1 hc.2
  rw [hinst, Option.some.injEq] at hinst'
  rw [hinst']

theorem lt_size (hf : f.SSA m) (hb : f.At i b) : i < f.instructions.size := by
  obtain ⟨inst, hinst, -⟩ := hf.placed hb.1 hb.2
  exact (Array.getElem?_eq_some_iff.1 hinst).1

theorem precedes_irrefl (hf : f.SSA m) : ¬ f.Precedes i i := by
  rintro ⟨c, d, hc, hd, hdom | ⟨-, -, hlt⟩⟩
  · exact hdom.2 (hf.at_unique hc hd)
  · exact Nat.lt_irrefl _ hlt

theorem precedes_trans (hf : f.SSA m) (hkj : f.Precedes k j) (hji : f.Precedes j i) :
    f.Precedes k i := by
  obtain ⟨a, b, ha, hb, hab⟩ := hkj
  obtain ⟨c, d, hc, hd, hcd⟩ := hji
  obtain rfl := hf.at_unique hb hc
  refine ⟨a, d, ha, hd, ?_⟩
  -- one strict passage from block to block makes the whole strict
  rcases hab with hab | ⟨rfl, -, hlt⟩
  · rcases hcd with hcd | ⟨rfl, -, -⟩
    · exact Or.inl (hab.trans_dominates hcd.1 hd.1)
    · exact Or.inl hab
  · rcases hcd with hcd | ⟨rfl, hi, hlt'⟩
    · exact Or.inl hcd
    · exact Or.inr ⟨rfl, hi, hlt.trans hlt'⟩

end SSA

end Function

theorem idxOf_lt_of_sublist {i j : Nat} {l : List Nat} (hl : l.Nodup) (h : [j, i].Sublist l) :
    l.idxOf j < l.idxOf i := by
  induction l with
  | nil => cases h
  | cons a l ih =>
    rw [List.nodup_cons] at hl
    cases h with
    | cons _ h =>
      have hne : ∀ x ∈ [j, i], a ≠ x := by
        rintro x hx rfl
        exact hl.1 (h.subset hx)
      rw [List.idxOf_cons_ne _ (hne j (by simp)), List.idxOf_cons_ne _ (hne i (by simp))]
      exact Nat.succ_lt_succ (ih hl.2 h)
    | cons_cons _ h =>
      have hne : j ≠ i := by
        rintro rfl
        exact hl.1 (List.singleton_sublist.1 h)
      rw [List.idxOf_cons_self, List.idxOf_cons_ne _ hne]
      exact Nat.succ_pos _

namespace Function

variable {m : Module} {f : Function} {b c d i j k : Nat}

/-- The body of a block keeps the order in which the block lists its instructions. -/
theorem SSA.idxOf_lt_of_body (hf : f.SSA m) (hb : f.cfg.Reaches b) {before after : List Nat}
    (hcut : f.body b = before ++ after) (hi : i ∈ before) (hj : j ∈ after) :
    (f.listed b).idxOf i < (f.listed b).idxOf j := by
  have hsub : [i, j].Sublist (f.body b) := by
    rw [hcut]
    exact (List.singleton_sublist.2 hi).append (List.singleton_sublist.2 hj)
  exact idxOf_lt_of_sublist (hf.once hb) (hsub.trans List.filter_sublist)

/-- An operand that is defined by an instruction is defined before. -/
theorem SSA.precedes_operand (hf : f.SSA m) (hi : f.At i b) {op : Operation}
    (hop : f.operation? i = some op) (hphi : f.incoming? i = none)
    (hj : .instruction j ∈ op.operands) : f.Precedes j i := by
  obtain ⟨before, after, hcut⟩ := List.append_of_mem hi.2
  rcases hf.defined hi.1 hcut hop hphi hj with hbefore | ⟨d, hdom, hmem⟩
  · have hlisted : j ∈ f.listed b := by
      rw [hcut]
      exact List.mem_append_left _ hbefore
    refine ⟨b, b, ⟨hi.1, hlisted⟩, hi, Or.inr ⟨rfl, mem_body_iff.2 ⟨hi.2, hphi⟩, ?_⟩⟩
    refine idxOf_lt_of_sublist (hf.once hi.1) ?_
    rw [hcut]
    exact (List.singleton_sublist.2 hbefore).append
      (List.singleton_sublist.2 List.mem_cons_self)
  · exact ⟨d, b, ⟨hdom.1.reaches hi.1, hmem⟩, hi, Or.inl hdom⟩

end Function

/-! ## Where an execution is -/

/-- What has just run in a state and what is still to run lie next to each other in its block. -/
inductive State.Inside (f : Function) (s : State) : Prop
  | entered (hblock : f.cfg.Reaches s.block) (hfresh : s.fresh = f.phis s.block)
      (hrest : s.rest = f.body s.block)
  | amid (before : List Nat) (i : Nat) (hblock : f.cfg.Reaches s.block) (hfresh : s.fresh = [i])
      (hbody : f.body s.block = before ++ i :: s.rest)

/-- Instruction `i` has run in a state and keeps its word until it runs again: it belongs to a
block that properly dominates the present one, or to the present one and has run there. -/
def State.Available (f : Function) (s : State) (i : Nat) : Prop :=
  ∃ d, f.At i d ∧ (f.cfg.ProperlyDominates d s.block ∨ d = s.block ∧ i ∉ s.rest)

section Run

variable {m : Module} {f : Function} {x : Inputs} {s s' : State} {b c d i j k : Nat}

theorem Reached.inside (hs : Reached m f x s) : s.Inside f := by
  induction hs with
  | start hsize hphis =>
    exact .entered (Cfg.reaches_zero (f.size_cfg ▸ hsize)) hphis.symm rfl
  | @step s s' _ h ih =>
    cases h with
    | @run i rest w hrest _ =>
      cases ih with
      | entered hblock _ hbody =>
        exact .amid [] i hblock rfl (hbody ▸ hrest)
      | amid before j hblock _ hbody =>
        refine .amid (before ++ [j]) i hblock rfl ?_
        rw [hbody, hrest, List.append_assoc, List.singleton_append]
    | enter _ hb _ _ =>
      have hblock : f.cfg.Reaches s.block := by
        cases ih with
        | entered hblock _ _ => exact hblock
        | amid _ _ hblock _ _ => exact hblock
      exact .entered (hblock.of_edge f.closed_cfg hb) rfl rfl

/-- At the start no instruction has run: only the phis of block 0 would be available. -/
theorem State.not_available_start (hphis : f.phis 0 = []) {vals : Nat → Word}
    {rounds : Nat → Nat} : ¬ State.Available f ⟨0, f.body 0, [], vals, rounds⟩ i := by
  rintro ⟨d, hd, hav | ⟨rfl, hrest⟩⟩
  · exact hav.2 (hav.1.antisymm (Cfg.zero_dominates f.cfg d) hd.1)
  · have hmem : i ∈ f.phis 0 := Function.mem_phis_iff.2 ⟨hd.2, hrest⟩
    rw [hphis] at hmem
    cases hmem

namespace State.Inside

theorem reaches (hs : s.Inside f) : f.cfg.Reaches s.block := by
  cases hs with
  | entered hblock _ _ => exact hblock
  | amid _ _ hblock _ _ => exact hblock

theorem at_of_mem_fresh (hs : s.Inside f) (hi : i ∈ s.fresh) : f.At i s.block := by
  refine ⟨hs.reaches, ?_⟩
  cases hs with
  | entered _ hfresh _ =>
    rw [hfresh, Function.mem_phis_iff] at hi
    exact hi.1
  | amid _ _ _ hfresh hbody =>
    rw [hfresh, List.mem_singleton] at hi
    refine (Function.mem_body_iff.1 ?_).1
    rw [hbody, hi]
    simp

theorem mem_body_of_mem_rest (hs : s.Inside f) (hi : i ∈ s.rest) : i ∈ f.body s.block := by
  cases hs with
  | entered _ _ hrest => exact hrest ▸ hi
  | amid before k _ _ hbody =>
    rw [hbody]
    exact List.mem_append_right before (List.mem_cons_of_mem k hi)

theorem not_mem_rest_of_mem_fresh (hf : f.SSA m) (hs : s.Inside f) (hi : i ∈ s.fresh) :
    i ∉ s.rest := by
  cases hs with
  | entered _ hfresh hrest =>
    rw [hfresh, Function.mem_phis_iff] at hi
    rw [hrest]
    exact hi.2
  | amid _ _ hblock hfresh hbody =>
    rw [hfresh, List.mem_singleton] at hi
    have hnodup : (f.body s.block).Nodup := (hf.once hblock).filter _
    rw [hbody, List.nodup_append] at hnodup
    rw [hi]
    exact (List.nodup_cons.1 hnodup.2.1).1

theorem available_of_mem_fresh (hf : f.SSA m) (hs : s.Inside f) (hi : i ∈ s.fresh) :
    s.Available f i :=
  ⟨s.block, hs.at_of_mem_fresh hi, Or.inr ⟨rfl, hs.not_mem_rest_of_mem_fresh hf hi⟩⟩

/-- What has run in a block stands before what is still to run. -/
theorem idxOf_lt_of_mem_rest (hf : f.SSA m) (hs : s.Inside f) (hi : i ∈ f.body s.block)
    (hnot : i ∉ s.rest) (hj : j ∈ s.rest) :
    (f.listed s.block).idxOf i < (f.listed s.block).idxOf j := by
  cases hs with
  | entered _ _ hrest => exact absurd (hrest ▸ hi) hnot
  | amid before k hblock _ hbody =>
    have hran : i ∈ before ++ [k] := by
      rw [hbody] at hi
      simp only [List.mem_append, List.mem_cons, List.not_mem_nil, or_false] at hi ⊢
      tauto
    exact hf.idxOf_lt_of_body hblock (hbody.trans (List.append_cons before k s.rest)) hran hj

/-- What precedes an available instruction is available. -/
theorem available_of_precedes (hf : f.SSA m) (hs : s.Inside f) (hji : f.Precedes j i)
    (hi : s.Available f i) : s.Available f j := by
  obtain ⟨c, d, hc, hd, hcd⟩ := hji
  obtain ⟨d', hd', hav⟩ := hi
  obtain rfl := hf.at_unique hd hd'
  refine ⟨c, hc, ?_⟩
  rcases hcd with hcd | ⟨rfl, hbody, hlt⟩
  · rcases hav with hav | ⟨rfl, -⟩
    · exact Or.inl (hcd.trans_dominates hav.1 hs.reaches)
    · exact Or.inl hcd
  · rcases hav with hav | ⟨rfl, hnot⟩
    · exact Or.inl hav
    · refine Or.inr ⟨rfl, fun hj => ?_⟩
      exact Nat.lt_asymm hlt (hs.idxOf_lt_of_mem_rest hf hbody hnot hj)

/-- What has just run precedes nothing that is available. -/
theorem not_precedes_of_mem_fresh (hf : f.SSA m) (hs : s.Inside f) (hk : k ∈ s.fresh)
    (hj : s.Available f j) : ¬ f.Precedes k j := by
  rintro ⟨c, d, hc, hd, hcd⟩
  obtain ⟨d', hd', hav⟩ := hj
  obtain rfl := hf.at_unique hd hd'
  obtain rfl := hf.at_unique hc (hs.at_of_mem_fresh hk)
  rcases hcd with hcd | ⟨rfl, hbody, hlt⟩
  · -- the present block would properly dominate one that dominates it
    rcases hav with hav | ⟨rfl, -⟩
    · exact hcd.2 (hcd.1.antisymm hav.1 hs.reaches)
    · exact hcd.2 rfl
  · rcases hav with hav | ⟨-, hnot⟩
    · exact hav.2 rfl
    · -- `j` has run in the present block, so it stands before `k`
      cases hs with
      | entered _ _ hrest => exact hnot (hrest ▸ hbody)
      | amid before i hblock hfresh hcut =>
        obtain rfl := List.mem_singleton.1 (hfresh ▸ hk)
        have hbefore : j ∈ before := by
          rw [hcut] at hbody
          rcases List.mem_append.1 hbody with h | h
          · exact h
          · rcases List.mem_cons.1 h with rfl | h
            · exact absurd hlt (Nat.lt_irrefl _)
            · exact absurd h hnot
        exact Nat.lt_asymm hlt (hf.idxOf_lt_of_body hblock hcut hbefore List.mem_cons_self)

end State.Inside

/-! ## What a step keeps -/

/-- What is available after a step has just run, or was available before and kept its word. -/
theorem Step.available_cases (hf : f.SSA m) (hs : s.Inside f) (h : Step m f x s s')
    (hj : s'.Available f j) :
    j ∈ s'.fresh ∨ (s.Available f j ∧ s'.vals j = s.vals j) := by
  obtain ⟨d, hd, hav⟩ := hj
  cases h with
  | @run i rest w hrest _ =>
    by_cases hji : j = i
    · exact Or.inl (List.mem_singleton.2 hji)
    · refine Or.inr ⟨⟨d, hd, ?_⟩, Function.update_of_ne hji w s.vals⟩
      refine hav.imp_right fun ⟨hblock, hnot⟩ => ⟨hblock, ?_⟩
      rw [hrest]
      exact List.not_mem_cons_of_ne_of_not_mem hji hnot
  | @enter b vals hrest hb _ hkeep =>
    -- a dominator of the next block other than itself dominates the present one too
    rcases hav with hdom | ⟨rfl, hnot⟩
    · have hphi : j ∉ f.phis b := by
        intro hphi
        have hreach := hs.reaches.of_edge f.closed_cfg hb
        exact hdom.2 (hf.at_unique hd ⟨hreach, (Function.mem_phis_iff.1 hphi).1⟩)
      refine Or.inr ⟨⟨d, hd, ?_⟩, hkeep j hphi⟩
      by_cases hds : d = s.block
      · exact Or.inr ⟨hds, by simp [hrest]⟩
      · exact Or.inl ⟨hdom.1.of_edge f.closed_cfg hdom.2 hb, hds⟩
    · exact Or.inl (Function.mem_phis_iff.2 ⟨hd.2, hnot⟩)

/-- What precedes an available instruction was available before the step and kept its word. -/
theorem Step.keeps_preceding (hf : f.SSA m) (hs : Reached m f x s) (h : Step m f x s s')
    (hi : s'.Available f i) (hki : f.Precedes k i) :
    s.Available f k ∧ s'.vals k = s.vals k := by
  have hs' := (hs.step h).inside
  rcases h.available_cases hf hs.inside (hs'.available_of_precedes hf hki hi) with hk | hk
  · exact absurd hki (hs'.not_precedes_of_mem_fresh hf hk hi)
  · exact hk

/-- A step does not count a loop whose header dominates an instruction that is available after it
and has not just run. -/
theorem Step.keeps_rounds (hf : f.SSA m) (h : Step m f x s s')
    (hj : s'.Available f j) (hnot : j ∉ s'.fresh) {l : Nat} {loop : Loop}
    (hl : f.loops.loops[l]? = some loop) (hd : f.At j d) (hdom : f.cfg.Dominates loop.header d) :
    s'.rounds l = s.rounds l := by
  obtain ⟨d', hd', hav⟩ := hj
  obtain rfl := hf.at_unique hd hd'
  cases h with
  | run _ _ => rfl
  | @enter b vals _ hb _ _ =>
    -- at the header itself only its phis are available, and they have just run
    have hne : loop.header ≠ b := by
      rintro rfl
      rcases hav with hav | ⟨rfl, hrest⟩
      · exact hav.2 (hav.1.antisymm hdom hd.1)
      · exact hnot (Function.mem_phis_iff.2 ⟨hd.2, hrest⟩)
    simp [LoopForest.count, hl, hne]

/-! ## Equations -/

theorem Module.bytesWithin?_congr {word word' : Value → Word} {indices : List Value}
    (h : ∀ v ∈ indices, word v = word' v) (t : Ty) :
    m.bytesWithin? word t indices = m.bytesWithin? word' t indices := by
  induction indices generalizing t with
  | nil => cases t <;> rfl
  | cons index rest ih =>
    have hrest := ih fun v hv => h v (List.mem_cons_of_mem index hv)
    cases t with
    | struct name => simp only [bytesWithin?, hrest]
    | array element n => simp only [bytesWithin?, hrest, h index List.mem_cons_self]
    | _ => rfl

theorem Module.bytes?_congr {word word' : Value → Word} {indices : List Value}
    (h : ∀ v ∈ indices, word v = word' v) (t : Ty) :
    m.bytes? word t indices = m.bytes? word' t indices := by
  cases indices with
  | nil => rfl
  | cons index rest =>
    simp only [bytes?, h index List.mem_cons_self,
      bytesWithin?_congr fun v hv => h v (List.mem_cons_of_mem index hv)]

/-- The result of an operation depends on the words of its operands. -/
theorem Operation.result?_congr {vals vals' : Nat → Word} {op : Operation}
    (h : ∀ v ∈ op.operands, x.read vals v = x.read vals' v) :
    op.result? m f x vals = op.result? m f x vals' := by
  cases op with
  | binary op a b =>
    have ha := h a (by simp [operands])
    have hb := h b (by simp [operands])
    cases op <;> simp only [result?, ha, hb]
  | compare pred a b =>
    have ha := h a (by simp [operands])
    have hb := h b (by simp [operands])
    simp only [result?, ha, hb]
  | cast op v =>
    have hv := h v (by simp [operands])
    cases op <;> simp only [result?, hv]
  | element base indices =>
    have hbase := h base (by simp [operands])
    have hindices := m.bytes?_congr fun v (hv : v ∈ indices) => h v (by simp [operands, hv])
    simp only [result?, hbase, hindices]
  | select c a b =>
    have hc := h c (by simp [operands])
    have ha := h a (by simp [operands])
    have hb := h b (by simp [operands])
    simp only [result?, hc, ha, hb]
  | _ => rfl

/-- An available instruction has the word that its operation gives to the present words of its
operands. -/
theorem Reached.equation (hf : f.SSA m) (hs : Reached m f x s) (hi : s.Available f i)
    {op : Operation} (hop : f.operation? i = some op) (hphi : f.incoming? i = none) {w : Word}
    (hw : op.result? m f x s.vals = some w) : s.vals i = w := by
  induction hs with
  | @start vals _ hphis =>
    exact absurd hi (State.not_available_start hphis)
  | @step s s' hs h ih =>
    obtain ⟨b, hb, -⟩ := id hi
    -- the operands have the same words before and after the step
    have hsame : op.result? m f x s'.vals = op.result? m f x s.vals := by
      refine Operation.result?_congr fun v hv => ?_
      cases v with
      | argument _ => rfl
      | constant c => cases c <;> rfl
      | instruction k => exact (h.keeps_preceding hf hs hi (hf.precedes_operand hb hop hphi hv)).2
    rw [hsame] at hw
    rcases h.available_cases hf hs.inside hi with hfresh | ⟨hi', hkeep⟩
    · cases h with
      | @run k rest v _ hv =>
        obtain rfl := List.mem_singleton.1 hfresh
        exact (Function.update_self i v s.vals).trans (hv op w hop hw)
      | enter _ _ _ _ =>
        obtain ⟨hlisted, hnot⟩ := Function.mem_phis_iff.1 hfresh
        exact absurd (Function.mem_body_iff.2 ⟨hlisted, hphi⟩) hnot
    · exact hkeep.trans (ih hi' hw)

end Run

end GridAccess
