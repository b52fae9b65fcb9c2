import GridAccess.IR.Draft
import GridAccess.Proofs.Loading

set_option autoImplicit false

/-!
# Functions that were built

A function comes from a draft or from a text. Either way its blocks list every instruction exactly
once, and an instruction belongs to the block that lists it (`Built.listed`). For drafts this is an
invariant of the steps by which they grow (`Step.sound`, `Made.sound`). Their blocks also list
instructions in ascending order, since a new one gets a place after all others (`Made.ordered`).
-/

namespace GridAccess

/-- The blocks of a function list all its instructions, each once and in the block it belongs
to. -/
structure Function.Listed (f : Function) : Prop where
  perm : (f.blocks.toList.flatMap Block.instructions).Perm (List.range f.instructions.size)
  parent : ∀ (b : Nat) (block : Block), f.blocks[b]? = some block → ∀ i ∈ block.instructions,
    ∃ inst : Instruction, f.instructions[i]? = some inst ∧ inst.parent = b

/-- Every place that a block lists is the place of an instruction. -/
theorem Function.Listed.lt_size {f : Function} (h : f.Listed) {b i : Nat} {block : Block}
    (hblock : f.blocks[b]? = some block) (hi : i ∈ block.instructions) :
    i < f.instructions.size := by
  obtain ⟨inst, hinst, -⟩ := h.parent b block hblock i hi
  exact (Array.getElem?_eq_some_iff.1 hinst).1

/-- An instruction is listed by the block it belongs to. -/
theorem Function.Listed.mem_parent {f : Function} (h : f.Listed) {i : Nat} {inst : Instruction}
    (hinst : f.instructions[i]? = some inst) :
    ∃ block : Block, f.blocks[inst.parent]? = some block ∧ i ∈ block.instructions := by
  have hi : i ∈ List.range f.instructions.size :=
    List.mem_range.2 (Array.getElem?_eq_some_iff.1 hinst).1
  obtain ⟨block, hblock, hmem⟩ := List.mem_flatMap.1 (h.perm.mem_iff.2 hi)
  obtain ⟨b, hb⟩ := List.mem_iff_getElem?.1 hblock
  rw [Array.getElem?_toList] at hb
  obtain ⟨inst', hinst', rfl⟩ := h.parent b block hb i hmem
  obtain rfl := Option.some.inj (hinst.symm.trans hinst')
  exact ⟨block, hb, hmem⟩

theorem Function.Listed.count_eq {f : Function} (h : f.Listed) (i : Nat) :
    (f.blocks.toList.flatMap Block.instructions).count i =
      if i < f.instructions.size then 1 else 0 := by
  rw [h.perm.count_eq, List.count_range]

/-- Every block lists its instructions in the order of their places. -/
def Function.Ordered (f : Function) : Prop :=
  ∀ (b : Nat) (block : Block), f.blocks[b]? = some block → block.instructions.Pairwise (· < ·)

/-- An instruction listed at the end of one block is one more instruction in all. -/
theorem Block.flatMap_modify_perm (blocks : List Block) (b i : Nat) (hb : b < blocks.length) :
    ((blocks.modify b fun block =>
        { block with instructions := block.instructions ++ [i] }).flatMap Block.instructions).Perm
      (blocks.flatMap Block.instructions ++ [i]) := by
  induction blocks generalizing b with
  | nil => exact absurd hb (Nat.not_lt_zero b)
  | cons block blocks ih =>
    cases b with
    | zero =>
      simp only [List.modify_zero_cons, List.flatMap_cons, List.append_assoc]
      exact List.perm_append_comm.append_left block.instructions
    | succ b =>
      simp only [List.modify_succ_cons, List.flatMap_cons, List.append_assoc]
      exact (ih b (Nat.lt_of_succ_lt_succ hb)).append_left block.instructions

namespace Draft

variable {d d' : Draft}

/-- One step in the construction of a function. -/
inductive Step : Draft → Draft → Prop
  | demangled (d : Draft) (name : String) : Step d (d.demangled name)
  | noReturn (d : Draft) (never : Bool) : Step d (d.noReturn never)
  | block (d : Draft) (name : String) : Step d (d.block name).2
  | switchTo {d d' : Draft} (b : Nat) (h : d.switchTo b = .ok d') : Step d d'
  | push {d d' : Draft} {v : Value} (name : Option String) (type : Ty) (op : Operation)
      (h : d.push name type op = .ok (v, d')) : Step d d'
  | addIncoming {d d' : Draft} (phi : Value) (b : Nat) (v : Value)
      (h : d.addIncoming phi b v = .ok d') : Step d d'

/-- A draft that was begun without blocks and instructions, and has grown step by step. -/
def Made (d : Draft) : Prop :=
  ∃ f : Function, f.blocks = #[] ∧ f.instructions = #[] ∧
    Relation.ReflTransGen Step { function := f } d

/-! ## What the operations do -/

theorem switchTo_eq_ok {b : Nat} (h : d.switchTo b = .ok d') :
    b < d.function.blocks.size ∧ d' = { d with current := some b } := by
  rw [Draft.switchTo] at h
  split at h
  · rename_i hb
    exact ⟨hb, (Except.ok.inj h).symm⟩
  · cases h

theorem push_eq_ok {v : Value} {name : Option String} {type : Ty} {op : Operation}
    (h : d.push name type op = .ok (v, d')) : ∃ b, d.current = some b ∧
      d' = { d with function :=
        { d.function with
          instructions := d.function.instructions.push
            { parent := b, type := type, name := name, operation := op }
          blocks := d.function.blocks.modify b fun block =>
            { block with
              instructions := block.instructions ++ [d.function.instructions.size] } } } := by
  rw [Draft.push] at h
  cases hcurrent : d.current with
  | none =>
    rw [hcurrent] at h
    cases h
  | some b =>
    rw [hcurrent] at h
    exact ⟨b, rfl, (Prod.mk.inj (Except.ok.inj h)).2.symm⟩

theorem addIncoming_eq_ok {phi v : Value} {b : Nat} (h : d.addIncoming phi b v = .ok d') :
    ∃ (i : Nat) (inst : Instruction) (incoming : List (Nat × Value)), phi = .instruction i ∧
      d.function.instructions[i]? = some inst ∧ inst.operation = .phi incoming ∧
      d' = { d with function :=
        { d.function with
          instructions := d.function.instructions.setIfInBounds i
            { inst with operation := .phi (incoming ++ [(b, v)]) } } } := by
  cases phi with
  | instruction i =>
    rw [Draft.addIncoming] at h
    obtain ⟨inst, hinst, h⟩ := bind_eq_ok_iff.1 h
    cases hop : inst.operation with
    | phi incoming =>
      rw [hop] at h
      exact ⟨i, inst, incoming, rfl, fetch_eq_ok_iff.1 hinst, hop, (pure_eq_ok_iff.1 h).symm⟩
    | _ =>
      rw [hop] at h
      cases h
  | _ => cases h

theorem eq_of_finish {f : Function} (h : d.finish = .ok f) : d.function = f := by
  rw [finish] at h
  split at h
  · exact Except.ok.inj h
  · cases h

/-! ## What the steps keep -/

/-- What every step keeps: instructions are listed where they belong, and the selected block is
there. -/
structure Sound (d : Draft) : Prop where
  listed : d.function.Listed
  current : ∀ b, d.current = some b → b < d.function.blocks.size

theorem sound_of_empty {f : Function} (hblocks : f.blocks = #[]) (hinsts : f.instructions = #[]) :
    Sound { function := f } where
  listed :=
    { perm := by simp [hblocks, hinsts]
      parent := by
        intro b block hblock
        simp [hblocks] at hblock }
  current := by
    intro b hb
    cases hb

theorem Sound.demangled (hd : d.Sound) (name : String) : (d.demangled name).Sound :=
  ⟨⟨hd.listed.perm, hd.listed.parent⟩, hd.current⟩

theorem Sound.noReturn (hd : d.Sound) (never : Bool) : (d.noReturn never).Sound :=
  ⟨⟨hd.listed.perm, hd.listed.parent⟩, hd.current⟩

theorem Sound.block (hd : d.Sound) (name : String) : (d.block name).2.Sound where
  listed :=
    { perm := by simpa [Draft.block] using hd.listed.perm
      parent := by
        intro b block hblock i hi
        simp only [Draft.block, Array.getElem?_push] at hblock
        split at hblock
        · obtain rfl := Option.some.inj hblock
          cases hi
        · exact hd.listed.parent b block hblock i hi }
  current := by
    intro b hb
    obtain rfl := Option.some.inj hb
    simp [Draft.block]

theorem Sound.switchTo (hd : d.Sound) {b : Nat} (h : d.switchTo b = .ok d') : d'.Sound := by
  obtain ⟨hb, rfl⟩ := switchTo_eq_ok h
  refine ⟨hd.listed, ?_⟩
  intro b' hb'
  obtain rfl := Option.some.inj hb'
  exact hb

theorem Sound.push (hd : d.Sound) {v : Value} {name : Option String} {type : Ty} {op : Operation}
    (h : d.push name type op = .ok (v, d')) : d'.Sound := by
  obtain ⟨b, hcurrent, rfl⟩ := push_eq_ok h
  have hb := hd.current b hcurrent
  refine ⟨⟨?_, ?_⟩, ?_⟩
  · simp only [Array.toList_modify, Array.size_push, List.range_succ]
    exact (Block.flatMap_modify_perm _ b _ (by simpa using hb)).trans
      (hd.listed.perm.append_right _)
  · intro b' block hblock i hi
    -- the instructions that were there keep their places
    have hold : ∀ old : Block, d.function.blocks[b']? = some old → i ∈ old.instructions →
        ∃ inst : Instruction, (d.function.instructions.push
          { parent := b, type := type, name := name, operation := op })[i]? = some inst ∧
            inst.parent = b' := by
      intro old hblock' hi'
      obtain ⟨inst, hinst, hparent⟩ := hd.listed.parent b' old hblock' i hi'
      refine ⟨inst, ?_, hparent⟩
      rw [Array.getElem?_push_lt (Array.getElem?_eq_some_iff.1 hinst).1]
      exact (Array.getElem?_eq_getElem _).symm.trans hinst
    simp only [Array.getElem?_modify] at hblock
    split at hblock
    · rename_i hbb
      subst hbb
      obtain ⟨old, hblock', rfl⟩ := Option.map_eq_some_iff.1 hblock
      rcases List.mem_append.1 hi with hi | hi
      · exact hold old hblock' hi
      · obtain rfl := List.mem_singleton.1 hi
        exact ⟨_, Array.getElem?_push_size, rfl⟩
    · exact hold block hblock hi
  · intro b' hb'
    simpa using hd.current b' hb'

theorem Sound.addIncoming (hd : d.Sound) {phi v : Value} {b : Nat}
    (h : d.addIncoming phi b v = .ok d') : d'.Sound := by
  obtain ⟨i, inst, incoming, -, hinst, -, rfl⟩ := addIncoming_eq_ok h
  refine ⟨⟨by simpa using hd.listed.perm, ?_⟩, hd.current⟩
  intro b' block hblock j hj
  obtain ⟨inst', hinst', hparent⟩ := hd.listed.parent b' block hblock j hj
  by_cases hij : i = j
  · -- the phi stays in its block
    subst hij
    obtain rfl := Option.some.inj (hinst.symm.trans hinst')
    exact ⟨_, Array.getElem?_setIfInBounds_self_of_lt (Array.getElem?_eq_some_iff.1 hinst).1,
      hparent⟩
  · exact ⟨inst', by rw [← hinst']; exact Array.getElem?_setIfInBounds_ne hij, hparent⟩

theorem Step.sound (h : Step d d') (hd : d.Sound) : d'.Sound := by
  cases h with
  | demangled name => exact hd.demangled name
  | noReturn never => exact hd.noReturn never
  | block name => exact hd.block name
  | switchTo b h => exact hd.switchTo h
  | push name type op h => exact hd.push h
  | addIncoming phi b v h => exact hd.addIncoming h

theorem Made.tail (h : d.Made) (hstep : Step d d') : d'.Made := by
  obtain ⟨f, hblocks, hinsts, hsteps⟩ := h
  exact ⟨f, hblocks, hinsts, hsteps.tail hstep⟩

theorem Made.sound (h : d.Made) : d.Sound := by
  obtain ⟨f, hblocks, hinsts, hsteps⟩ := h
  induction hsteps with
  | refl => exact sound_of_empty hblocks hinsts
  | tail _ hstep ih => exact hstep.sound ih

/-- A step keeps the order in which blocks list their instructions: a new instruction comes after
all that are there. -/
theorem Step.ordered (h : Step d d') (hd : d.Sound) (ho : d.function.Ordered) :
    d'.function.Ordered := by
  cases h with
  | demangled | noReturn => exact ho
  | block name =>
    intro b block hblock
    simp only [Draft.block, Array.getElem?_push] at hblock
    split at hblock
    · obtain rfl := Option.some.inj hblock
      exact .nil
    · exact ho b block hblock
  | switchTo b h =>
    obtain ⟨-, rfl⟩ := switchTo_eq_ok h
    exact ho
  | push name type op h =>
    obtain ⟨b, -, rfl⟩ := push_eq_ok h
    intro b' block hblock
    simp only [Array.getElem?_modify] at hblock
    split at hblock
    · obtain ⟨old, hold, rfl⟩ := Option.map_eq_some_iff.1 hblock
      refine List.pairwise_append.2 ⟨ho b' old hold, List.pairwise_singleton _ _, ?_⟩
      intro i hi j hj
      obtain rfl := List.mem_singleton.1 hj
      exact hd.listed.lt_size hold hi
    · exact ho b' block hblock
  | addIncoming phi b v h =>
    obtain ⟨_, _, _, -, -, -, rfl⟩ := addIncoming_eq_ok h
    exact ho

theorem Made.ordered (h : d.Made) : d.function.Ordered := by
  obtain ⟨f, hblocks, hinsts, hsteps⟩ := h
  induction hsteps with
  | refl =>
    intro b block hblock
    simp [hblocks] at hblock
  | tail hbefore hstep ih => exact hstep.ordered (Made.sound ⟨f, hblocks, hinsts, hbefore⟩) ih

end Draft

namespace Function

/-- The function was finished from a draft, or read from a text. -/
inductive Built : Function → Prop
  | finished {d : Draft} {f : Function} (hd : d.Made) (h : d.finish = .ok f) : Built f
  | read {text : String} {m : Module} {f : Function} (hm : Module.read text = .ok m)
      (hf : f ∈ m.functions.toList) : Built f

theorem Grounded.listed {m : Module} {count : Nat} {f : Function} (h : f.Grounded m count) :
    f.Listed :=
  ⟨.of_eq h.order, h.parent⟩

theorem Built.listed {f : Function} (h : f.Built) : f.Listed := by
  cases h with
  | @finished d _ hd h =>
    obtain rfl := Draft.eq_of_finish h
    exact hd.sound.listed
  | @read text m _ hm hf =>
    obtain ⟨v, -, hv⟩ := Module.parse_of_read hm
    obtain ⟨heads, hheads⟩ := Module.exists_readInPasses hv
    obtain ⟨k, hk⟩ := List.mem_iff_getElem?.1 hf
    replace hk : m.functions[k]? = some f := by simpa using hk
    have hlt : k < (v.get "functions").items.length :=
      hheads.size ▸ (Array.getElem?_eq_some_iff.1 hk).1
    exact (hheads.grounded.function k f _ hk (List.getElem?_eq_getElem hlt)).listed

end Function

end GridAccess
