import GridAccess.IR.Decode
import GridAccess.Proofs.Outcome

set_option autoImplicit false

/-!
# References of a module that was read

The instructions of a function that was read from a text are numbered block by block, its operands
and branch targets are there, its calls go to the functions that the text names, and a constant
expression refers to globals and to earlier expressions only (`read_grounded`).

References to instructions are checked before the instructions have been read, against a number
counted beforehand. An object in the place of an array counts with its entries, though none of
them is read as an instruction, so a function can refer to as many instructions that it has not
(`stray_entry_dangles`). In a text without such entries no reference dangles.
-/

namespace GridAccess

/-! ## Uses -/

/-- A value that names a parameter, an instruction, a global or a constant expression names one of
so many. -/
def Value.Within (params instructions globals exprs : Nat) : Value → Prop
  | .argument i => i < params
  | .instruction i => i < instructions
  | .constant (.global i) => i < globals
  | .constant (.expr i) => i < exprs
  | .constant _ => True

namespace Operation

/-- The operation has the value as an operand. -/
inductive Uses : Operation → Value → Prop
  | binaryLeft (op : BinaryOp) (l r : Value) : Uses (.binary op l r) l
  | binaryRight (op : BinaryOp) (l r : Value) : Uses (.binary op l r) r
  | compareLeft (pred : Predicate) (l r : Value) : Uses (.compare pred l r) l
  | compareRight (pred : Predicate) (l r : Value) : Uses (.compare pred l r) r
  | castOperand (op : CastOp) (v : Value) : Uses (.cast op v) v
  | loadFrom (p : Value) : Uses (.load p) p
  | storeValue (v p : Value) : Uses (.store v p) v
  | storeTo (v p : Value) : Uses (.store v p) p
  | base (v : Value) (indices : List Value) : Uses (.element v indices) v
  | index (b : Value) {v : Value} {indices : List Value} (h : v ∈ indices) :
      Uses (.element b indices) v
  | aggregate (v : Value) (indices : List Nat) : Uses (.extractValue v indices) v
  | vector (v i : Value) : Uses (.extractElement v i) v
  | place (v i : Value) : Uses (.extractElement v i) i
  | argument (callee : Nat) {v : Value} {args : List Value} (h : v ∈ args) :
      Uses (.call callee args) v
  | incoming {b : Nat} {v : Value} {entries : List (Nat × Value)} (h : (b, v) ∈ entries) :
      Uses (.phi entries) v
  | choice (c t f : Value) : Uses (.select c t f) c
  | chosen (c t f : Value) : Uses (.select c t f) t
  | otherwise (c t f : Value) : Uses (.select c t f) f
  | condition (c : Value) (t f : Nat) : Uses (.branchIf c t f) c
  | result (v : Value) : Uses (.ret (some v)) v

/-- The operation names the block: control may go there, or a phi has an entry for it. -/
inductive Mentions : Operation → Nat → Prop
  | target (b : Nat) : Mentions (.branch b) b
  | onTrue (c : Value) (t f : Nat) : Mentions (.branchIf c t f) t
  | onFalse (c : Value) (t f : Nat) : Mentions (.branchIf c t f) f
  | incoming {b : Nat} {v : Value} {entries : List (Nat × Value)} (h : (b, v) ∈ entries) :
      Mentions (.phi entries) b

/-- The list of operands that is checked has every operand. -/
theorem Uses.mem_operands {op : Operation} {v : Value} (h : op.Uses v) : v ∈ op.operands := by
  cases h with
  | incoming h => exact List.mem_map_of_mem h
  | argument _ h => exact h
  | index _ h => exact List.mem_append_left _ h
  | _ => simp [operands]

/-- The list of blocks that is checked has every block. -/
theorem Mentions.mem_blocks {op : Operation} {b : Nat} (h : op.Mentions b) : b ∈ op.blocks := by
  cases h with
  | incoming h => exact List.mem_map_of_mem h
  | _ => simp [blocks, targets]

end Operation

/-- The references of a function of a module, with `count` instructions that may be referred to.
The blocks list the instructions in order, each belongs to the block that lists it, and operands
and blocks are among those there are. -/
structure Function.Grounded (m : Module) (count : Nat) (f : Function) : Prop where
  order : f.blocks.toList.flatMap Block.instructions = List.range f.instructions.size
  parent : ∀ (b : Nat) (block : Block), f.blocks[b]? = some block → ∀ i ∈ block.instructions,
    ∃ inst : Instruction, f.instructions[i]? = some inst ∧ inst.parent = b
  operand : ∀ inst ∈ f.instructions.toList, ∀ v, inst.operation.Uses v →
    v.Within f.params.size count m.globals.size m.constantExprs.size
  block : ∀ inst ∈ f.instructions.toList, ∀ b, inst.operation.Mentions b → b < f.blocks.size

/-! ## Descriptions of bodies -/

namespace Json

/-- The descriptions of the instructions of a body, block by block. -/
def instructionItems (body : Json) : List Json :=
  (body.get "blocks").items.flatMap fun b => (b.get "instructions").items

/-- The number of entries that stand in the place of instructions but are those of an object. -/
def strayEntries (body : Json) : Nat :=
  (body.get "blocks").items.foldl (fun n b => n + (b.get "instructions").fields.length) 0

theorem size_eq (v : Json) : v.size = v.items.length + v.fields.length := by
  cases v <;> simp [size, items, fields]

/-- What is counted as instructions: those that are listed, and the stray entries. -/
theorem foldl_size_eq (blocks : List Json) (n k : Nat) :
    blocks.foldl (fun n b => n + (b.get "instructions").size) (n + k) =
      n + (blocks.flatMap fun b => (b.get "instructions").items).length +
        blocks.foldl (fun n b => n + (b.get "instructions").fields.length) k := by
  induction blocks generalizing n k with
  | nil => simp
  | cons b blocks ih =>
    have hshift : n + k + (b.get "instructions").size =
        (n + (b.get "instructions").items.length) + (k + (b.get "instructions").fields.length) := by
      rw [size_eq]
      omega
    rw [List.foldl_cons, hshift, ih, List.foldl_cons, List.flatMap_cons, List.length_append]
    omega

theorem get_of_field {v w : Json} {name : String} (h : v.field name = .ok w) : v.get name = w := by
  rw [field] at h
  cases hw : v.get name <;> rw [hw] at h <;> cases h <;> rfl

theorem get_of_stringField {v : Json} {name s : String} (h : v.stringField name = .ok s) :
    v.get name = .string s := by
  rw [stringField, bind_eq_ok_iff] at h
  obtain ⟨w, hw, h⟩ := h
  rw [get_of_field hw]
  cases w with
  | string t =>
    obtain rfl := pure_eq_ok_iff.1 h
    rfl
  | _ => cases h

end Json

/-! ## Instructions -/

namespace Surroundings

variable {s : Surroundings} {name : String} {i : Nat}

theorem within_of_holds {v : Value} (h : s.holds v = true) :
    v.Within s.params s.instructions s.globals s.constantExprs := by
  cases v with
  | argument i | instruction i => simpa [holds, Value.Within] using h
  | constant c =>
    cases c with
    | global i | expr i => simpa [holds, Value.Within] using h
    | _ => trivial

/-- An operation that was checked refers to what there is. -/
theorem of_check {op : Operation} (h : s.check i op = .ok ()) :
    (∀ v, op.Uses v → v.Within s.params s.instructions s.globals s.constantExprs) ∧
      ∀ b, op.Mentions b → b < s.blocks := by
  rw [check] at h
  cases hv : op.operands.find? fun v => !s.holds v with
  | some v =>
    rw [hv] at h
    cases h
  | none =>
    rw [hv] at h
    cases hb : op.blocks.find? fun b => !decide (b < s.blocks) with
    | some b =>
      rw [hb] at h
      cases h
    | none =>
      constructor
      · intro v hv'
        have := List.find?_eq_none.1 hv v hv'.mem_operands
        exact within_of_holds (by simpa using this)
      · intro b hb'
        have := List.find?_eq_none.1 hb b hb'.mem_blocks
        simpa using this

/-- The function a name stands for has that name. -/
theorem name_of_function? (h : s.function? name = some i) : s.functionNames[i]? = some name := by
  rw [function?, Option.map_eq_some_iff] at h
  obtain ⟨j, hj, rfl⟩ := h
  have hj' : s.functionNames.reverse[j]? = some name := by
    rw [List.idxOf?, List.findIdx?_eq_some_iff_getElem] at hj
    obtain ⟨hlt, heq, -⟩ := hj
    rw [List.getElem?_eq_getElem hlt]
    simpa using heq
  have hlt := (List.getElem?_eq_some_iff.1 hj').1
  rw [List.getElem?_reverse (by simpa using hlt)] at hj'
  exact hj'

end Surroundings

namespace Operation

variable {s : Surroundings} {v : Json} {callee : Nat} {args : List Value}

theorem compareOfJson_ne_call : compareOfJson v ≠ .ok (.call callee args) := by
  intro h
  rw [compareOfJson, bind_eq_ok_iff] at h
  obtain ⟨name, -, h⟩ := h
  cases hpred : Predicate.ofMnemonic? name with
  | none => simp [hpred, throw, throwThe, MonadExceptOf.throw] at h
  | some pred => simp [hpred, bind_eq_ok_iff, map_eq_ok_iff] at h

theorem branchOfJson_ne_call : branchOfJson v ≠ .ok (.call callee args) := by
  intro h
  rw [branchOfJson] at h
  split at h <;> simp [bind_eq_ok_iff, map_eq_ok_iff] at h

theorem arithmeticOfJson_ne_call {op : String} :
    arithmeticOfJson op v ≠ .ok (.call callee args) := by
  intro h
  rw [arithmeticOfJson] at h
  cases hbinary : BinaryOp.ofMnemonic? op with
  | some b => simp [hbinary, bind_eq_ok_iff, map_eq_ok_iff] at h
  | none =>
    cases hcast : CastOp.ofMnemonic? op with
    | some c => simp [hbinary, hcast, map_eq_ok_iff] at h
    | none => simp [hbinary, hcast, throw, throwThe, MonadExceptOf.throw] at h

theorem callee_of_callOfJson (h : callOfJson s v = .ok (.call callee args)) :
    ∃ name, v.get "callee" = .string name ∧ s.function? name = some callee := by
  rw [callOfJson, bind_eq_ok_iff] at h
  obtain ⟨name, hname, h⟩ := h
  refine ⟨name, Json.get_of_stringField hname, ?_⟩
  cases hcallee : s.function? name with
  | none =>
    rw [hcallee] at h
    cases h
  | some i =>
    rw [hcallee] at h
    obtain ⟨as, has, h⟩ := bind_eq_ok_iff.1 h
    cases pure_eq_ok_iff.1 h
    rfl

/-- Only a call is read as a call, and its callee is the function that it names. -/
theorem callee_of_ofJson (h : Operation.ofJson s v = .ok (.call callee args)) :
    ∃ name, v.get "callee" = .string name ∧ s.function? name = some callee := by
  rw [Operation.ofJson, bind_eq_ok_iff] at h
  obtain ⟨op, -, h⟩ := h
  split at h
  case h_1 => exact absurd h compareOfJson_ne_call
  case h_7 => exact callee_of_callOfJson h
  case h_11 => exact absurd h branchOfJson_ne_call
  case h_12 =>
    dsimp only at h
    split at h
    · cases h
    · simp [map_eq_ok_iff] at h
  case h_13 => cases h
  case h_14 => exact absurd h arithmeticOfJson_ne_call
  -- each of the other words is read as an operation of its own
  all_goals simp [bind_eq_ok_iff, map_eq_ok_iff] at h

end Operation

theorem Instruction.of_ofJson {s : Surroundings} {b i : Nat} {v : Json} {inst : Instruction}
    (h : Instruction.ofJson s b i v = .ok inst) :
    inst.parent = b ∧ Operation.ofJson s v = .ok inst.operation ∧
      s.check i inst.operation = .ok () := by
  rw [Instruction.ofJson, bind_eq_ok_iff] at h
  obtain ⟨type, -, h⟩ := h
  obtain ⟨op, hop, h⟩ := bind_eq_ok_iff.1 h
  obtain ⟨⟨⟩, hcheck, h⟩ := bind_eq_ok_iff.1 h
  obtain rfl := pure_eq_ok_iff.1 h
  exact ⟨rfl, hop, hcheck⟩

/-- The instructions of a block: one for each description. -/
theorem Instruction.of_listOfJson {s : Surroundings} {b first : Nat} {vs : List Json}
    {insts : List Instruction} (h : Instruction.listOfJson s b first vs = .ok insts) :
    List.Forall₂ (fun v inst => ∃ i, Instruction.ofJson s b i v = .ok inst) vs insts := by
  induction vs generalizing first insts with
  | nil =>
    cases h
    exact .nil
  | cons v vs ih =>
    rw [Instruction.listOfJson, bind_eq_ok_iff] at h
    obtain ⟨inst, hinst, h⟩ := h
    obtain ⟨more, hmore, h⟩ := bind_eq_ok_iff.1 h
    obtain rfl := pure_eq_ok_iff.1 h
    exact .cons ⟨first, hinst⟩ (ih hmore)

/-! ## Bodies -/

namespace Function

/-- The function has been read, so far, from these descriptions of instructions: its blocks list
the instructions in order, and each instruction was read from the description at its place. -/
structure ReadFrom (s : Surroundings) (items : List Json) (f : Function) : Prop where
  order : f.blocks.toList.flatMap Block.instructions = List.range f.instructions.size
  parent : ∀ (b : Nat) (block : Block), f.blocks[b]? = some block → ∀ i ∈ block.instructions,
    ∃ inst : Instruction, f.instructions[i]? = some inst ∧ inst.parent = b
  read : List.Forall₂ (fun v inst => ∃ b i, Instruction.ofJson s b i v = .ok inst) items
    f.instructions.toList

variable {s : Surroundings} {items vs : List Json} {f f' : Function} {insts : List Instruction}

/-- A block is added whose instructions are numbered on. -/
def addBlock (f : Function) (name : String) (insts : List Instruction) : Function :=
  { f with
    blocks := f.blocks.push
      { name := name, instructions := (List.range insts.length).map (f.instructions.size + ·) }
    instructions := f.instructions ++ insts.toArray }

theorem ReadFrom.addBlock (h : f.ReadFrom s items) (name : String)
    (hinsts : Instruction.listOfJson s f.blocks.size f.instructions.size vs = .ok insts) :
    (f.addBlock name insts).ReadFrom s (items ++ vs) := by
  have hread := Instruction.of_listOfJson hinsts
  refine ⟨?_, ?_, ?_⟩
  · simp [Function.addBlock, h.order, List.range_add]
  · intro b block hblock i hi
    rw [Function.addBlock, Array.getElem?_push] at hblock
    split at hblock
    · -- the new block lists the new instructions
      rename_i hb
      obtain rfl := Option.some.inj hblock
      obtain ⟨j, hj, rfl⟩ := List.mem_map.1 hi
      have hlt : j < insts.length := List.mem_range.1 hj
      obtain ⟨place, hinst⟩ := hread.get (hread.length_eq ▸ hlt) hlt
      refine ⟨insts[j], ?_, ?_⟩
      · simp [Function.addBlock, hlt]
      · rw [hb]
        exact (Instruction.of_ofJson hinst).1
    · obtain ⟨inst, hinst, hparent⟩ := h.parent b block hblock i hi
      refine ⟨inst, ?_, hparent⟩
      have hlt := (Array.getElem?_eq_some_iff.1 hinst).1
      rw [Function.addBlock, Array.getElem?_append_left hlt]
      exact hinst
  · have hall : (f.addBlock name insts).instructions.toList =
        f.instructions.toList ++ insts := by
      simp [Function.addBlock]
    rw [hall]
    refine List.rel_append h.read (hread.imp fun v inst => ?_)
    rintro ⟨i, hi⟩
    exact ⟨f.blocks.size, i, hi⟩

/-- Reading the rest of the blocks. -/
theorem ReadFrom.addBlocks {blocks : List Json} (h : f.ReadFrom s items)
    (hblocks : Function.addBlocks s f f.blocks.size blocks = .ok f') :
    f'.ReadFrom s (items ++ blocks.flatMap fun b => (b.get "instructions").items) ∧
      f'.blocks.size = f.blocks.size + blocks.length ∧ f'.params = f.params ∧
      f'.name = f.name := by
  induction blocks generalizing f items with
  | nil =>
    cases hblocks
    simpa using h
  | cons v blocks ih =>
    rw [Function.addBlocks, bind_eq_ok_iff] at hblocks
    obtain ⟨insts, hinsts, hrest⟩ := hblocks
    have hstep := h.addBlock ((v.get "name").string?.getD "") hinsts
    obtain ⟨hread, hsize, hparams, hname⟩ := ih hstep (by simpa [Function.addBlock] using hrest)
    refine ⟨?_, ?_, hparams, hname⟩
    · rwa [List.flatMap_cons, ← List.append_assoc]
    · rw [hsize]
      simp [Function.addBlock]
      omega

/-- What surrounds the instructions of a function while its body is read. -/
def surroundings (names : List String) (globals constantExprs : Nat) (head : Function)
    (body : Json) : Surroundings where
  functionNames := names
  globals := globals
  constantExprs := constantExprs
  params := head.params.size
  blocks := (body.get "blocks").items.length
  instructions := body.instructionItems.length + body.strayEntries
  functionName := head.name

/-- A function that was read keeps its head, and has the body that was read after it. -/
theorem of_ofJson {names : List String} {globals exprs : Nat} {head : Function} {body : Json}
    (h : Function.ofJson names globals exprs head body = .ok f) (hblocks : head.blocks = #[])
    (hinsts : head.instructions = #[]) :
    f.name = head.name ∧ f.blocks.size = (body.get "blocks").items.length ∧
      f.ReadFrom (surroundings names globals exprs f body) body.instructionItems := by
  have hhead : head.ReadFrom (surroundings names globals exprs head body) [] := by
    refine ⟨by simp [hblocks, hinsts], ?_, by simp [hinsts]⟩
    intro b block hblock
    simp [hblocks] at hblock
  rw [Function.ofJson] at h
  dsimp only at h
  split at h
  · -- the body is added to a head without blocks
    have hcount : (body.get "blocks").items.foldl (fun n b => n + (b.get "instructions").size) 0 =
        body.instructionItems.length + body.strayEntries := by
      simpa [Json.instructionItems, Json.strayEntries] using
        Json.foldl_size_eq (body.get "blocks").items 0 0
    rw [hcount, show (0 : Nat) = head.blocks.size by rw [hblocks]; rfl] at h
    obtain ⟨hread, hsize, hparams, hname⟩ := hhead.addBlocks h
    refine ⟨hname, by simp [hsize, hblocks], ?_⟩
    rw [surroundings, hparams, hname]
    exact hread
  · rename_i harray
    obtain rfl := Except.ok.inj h
    have hitems : (body.get "blocks").items = [] := by
      cases hbody : body.get "blocks" with
      | array xs => simp [hbody, Json.isArray] at harray
      | _ => rfl
    refine ⟨rfl, by simp [hblocks, hitems], ?_⟩
    rw [Json.instructionItems, hitems]
    exact hhead

theorem ReadFrom.grounded {m : Module} (h : f.ReadFrom s items) (hparams : s.params = f.params.size)
    (hblocks : s.blocks = f.blocks.size) (hglobals : s.globals = m.globals.size)
    (hexprs : s.constantExprs = m.constantExprs.size) : f.Grounded m s.instructions := by
  have hchecked : ∀ inst ∈ f.instructions.toList, ∃ i, s.check i inst.operation = .ok () := by
    intro inst hinst
    obtain ⟨v, -, b, i, hi⟩ := exists_mem_of_forall₂ h.read hinst
    exact ⟨i, (Instruction.of_ofJson hi).2.2⟩
  refine ⟨h.order, h.parent, ?_, ?_⟩
  · intro inst hinst v hv
    obtain ⟨i, hi⟩ := hchecked inst hinst
    rw [← hparams, ← hglobals, ← hexprs]
    exact (Surroundings.of_check hi).1 v hv
  · intro inst hinst b hb
    obtain ⟨i, hi⟩ := hchecked inst hinst
    rw [← hblocks]
    exact (Surroundings.of_check hi).2 b hb

/-- The callee of a call that was read is the function that its description names. -/
theorem ReadFrom.callee {i callee : Nat} {inst : Instruction} {args : List Value}
    (h : f.ReadFrom s items) (hinst : f.instructions[i]? = some inst)
    (hcall : inst.operation = .call callee args) :
    ∃ item name, items[i]? = some item ∧ item.get "callee" = .string name ∧
      s.functionNames[callee]? = some name := by
  obtain ⟨item, hitem, b, j, hj⟩ := exists_of_forall₂ h.read (by simpa using hinst)
  have hop := (Instruction.of_ofJson hj).2.1
  rw [hcall] at hop
  obtain ⟨name, hname, hcallee⟩ := Operation.callee_of_ofJson hop
  exact ⟨item, name, hitem, hname, Surroundings.name_of_function? hcallee⟩

theorem of_headOfJson {v : Json} (h : Function.headOfJson v = .ok f) :
    v.get "name" = .string f.name ∧ f.blocks = #[] ∧ f.instructions = #[] := by
  rw [Function.headOfJson, bind_eq_ok_iff] at h
  obtain ⟨name, hname, h⟩ := h
  obtain ⟨params, -, h⟩ := bind_eq_ok_iff.1 h
  obtain ⟨ret, -, h⟩ := bind_eq_ok_iff.1 h
  obtain rfl := pure_eq_ok_iff.1 h
  exact ⟨Json.get_of_stringField hname, rfl, rfl⟩

end Function

/-! ## Constant expressions -/

/-- The operands of constant expression number `k`: constants, and of these no globals that are
not there and no expressions from `k` on. -/
def ConstantExpr.Grounded (globals k : Nat) (e : ConstantExpr) : Prop :=
  ∀ v ∈ e.operands, ∃ c, v = .constant c ∧ (∀ g, c = .global g → g < globals) ∧
    ∀ j, c = .expr j → j < k

theorem Value.of_fitsConstant {globals k : Nat} {v : Value}
    (h : v.fitsConstant globals k = true) :
    ∃ c, v = .constant c ∧ (∀ g, c = .global g → g < globals) ∧ ∀ j, c = .expr j → j < k := by
  cases v with
  | argument i | instruction i => cases h
  | constant c =>
    refine ⟨c, rfl, ?_, ?_⟩
    · rintro g rfl
      simpa [Value.fitsConstant] using h
    · rintro j rfl
      simpa [Value.fitsConstant] using h

namespace ConstantExpr

theorem grounded_of_ofJson {globals k : Nat} {v : Json} {e : ConstantExpr}
    (h : ConstantExpr.ofJson globals k v = .ok e) : e.Grounded globals k := by
  rw [ConstantExpr.ofJson, bind_eq_ok_iff] at h
  obtain ⟨name, -, h⟩ := h
  obtain ⟨op, -, h⟩ := bind_eq_ok_iff.1 h
  obtain ⟨operands, -, h⟩ := bind_eq_ok_iff.1 h
  cases hfind : operands.find? fun w => !w.fitsConstant globals k with
  | some w =>
    rw [hfind] at h
    cases h
  | none =>
    rw [hfind] at h
    obtain rfl := pure_eq_ok_iff.1 h
    intro w hw
    have := List.find?_eq_none.1 hfind w hw
    exact Value.of_fitsConstant (by simpa using this)

/-- Each expression is checked against those before it, and later ones do not change that. -/
theorem grounded_of_listOfJson {globals : Nat} {vs : List Json} {done es : List ConstantExpr}
    (hdone : ∀ (k : Nat) e, done[k]? = some e → e.Grounded globals k)
    (h : ConstantExpr.listOfJson globals done vs = .ok es) :
    ∀ (k : Nat) e, es[k]? = some e → e.Grounded globals k := by
  induction vs generalizing done with
  | nil =>
    cases h
    exact hdone
  | cons v vs ih =>
    rw [ConstantExpr.listOfJson, bind_eq_ok_iff] at h
    obtain ⟨e, he, h⟩ := h
    refine ih ?_ h
    intro k e' hk
    rw [List.getElem?_append] at hk
    split at hk
    · exact hdone k e' hk
    · obtain ⟨hlt, heq⟩ := List.getElem?_eq_some_iff.1 hk
      have hlast : k = done.length := by
        simp only [List.length_singleton] at hlt
        omega
      subst hlast
      simp only [Nat.sub_self, List.getElem_cons_zero] at heq
      subst heq
      exact grounded_of_ofJson he

end ConstantExpr

/-! ## Modules -/

/-- The references of a module, against the JSON value that describes it. -/
structure Module.Grounded (v : Json) (m : Module) : Prop where
  size : m.functions.size = (v.get "functions").items.length
  name : ∀ (k : Nat) (f : Function) (body : Json), m.functions[k]? = some f →
    (v.get "functions").items[k]? = some body → body.get "name" = .string f.name
  function : ∀ (k : Nat) (f : Function) (body : Json), m.functions[k]? = some f →
    (v.get "functions").items[k]? = some body →
      f.Grounded m (f.instructions.size + body.strayEntries)
  callee : ∀ (k : Nat) (f : Function) (body : Json), m.functions[k]? = some f →
    (v.get "functions").items[k]? = some body → ∀ (i : Nat) (inst : Instruction),
      f.instructions[i]? = some inst → ∀ callee args, inst.operation = .call callee args →
        ∃ item g, body.instructionItems[i]? = some item ∧ m.functions[callee]? = some g ∧
          item.get "callee" = .string g.name
  constantExpr : ∀ (k : Nat) (e : ConstantExpr), m.constantExprs[k]? = some e →
    e.Grounded m.globals.size k

namespace Module

variable {v : Json} {m : Module} {heads : List Function}

/-- The functions of a module were read in two passes, the heads before any body. -/
structure ReadInPasses (v : Json) (heads : List Function) (m : Module) : Prop where
  head : List.Forall₂ (fun v head => Function.headOfJson v = .ok head) (v.get "functions").items
    heads
  body : List.Forall₂
    (fun (p : Function × Json) f => Function.ofJson (heads.map (·.name)) m.globals.size
      m.constantExprs.size p.1 p.2 = .ok f)
    (heads.zip (v.get "functions").items) m.functions.toList
  constantExprs : ConstantExpr.listOfJson m.globals.size [] (v.get "constant_exprs").items =
    .ok m.constantExprs.toList

theorem exists_readInPasses (h : Module.ofJson v = .ok m) : ∃ heads, m.ReadInPasses v heads := by
  rw [Module.ofJson, bind_eq_ok_iff] at h
  obtain ⟨layout, -, h⟩ := h
  obtain ⟨globals, -, h⟩ := bind_eq_ok_iff.1 h
  obtain ⟨exprs, hexprs, h⟩ := bind_eq_ok_iff.1 h
  obtain ⟨heads, hheads, h⟩ := bind_eq_ok_iff.1 h
  obtain ⟨bodies, hbodies, h⟩ := bind_eq_ok_iff.1 h
  obtain rfl := pure_eq_ok_iff.1 h
  exact ⟨heads, forall₂_of_mapM hheads, by simpa using forall₂_of_mapM hbodies,
    by simpa using hexprs⟩

namespace ReadInPasses

theorem size (h : m.ReadInPasses v heads) :
    m.functions.size = (v.get "functions").items.length := by
  have hheads := h.head.length_eq
  have hbodies := h.body.length_eq
  simp only [List.length_zip, Array.length_toList] at hbodies
  omega

/-- The head of a function that was read, and its body. -/
theorem of_function (h : m.ReadInPasses v heads) {k : Nat} {f : Function} {body : Json}
    (hf : m.functions[k]? = some f) (hbody : (v.get "functions").items[k]? = some body) :
    (heads.map (·.name))[k]? = some f.name ∧ body.get "name" = .string f.name ∧
      f.blocks.size = (body.get "blocks").items.length ∧
      f.ReadFrom (Function.surroundings (heads.map (·.name)) m.globals.size m.constantExprs.size
        f body) body.instructionItems := by
  obtain ⟨⟨head, body'⟩, hzip, hread⟩ := exists_of_forall₂ h.body (by simpa using hf)
  obtain ⟨hhead, hbody'⟩ := List.getElem?_zip_eq_some.1 hzip
  obtain rfl : body' = body := Option.some.inj (hbody'.symm.trans hbody)
  obtain ⟨body'', hbody'', hhead'⟩ := exists_of_forall₂ h.head hhead
  obtain rfl : body'' = body' := Option.some.inj (hbody''.symm.trans hbody)
  obtain ⟨hname, hblocks, hinsts⟩ := Function.of_headOfJson hhead'
  obtain ⟨hname', hsize, hfrom⟩ := Function.of_ofJson hread hblocks hinsts
  refine ⟨?_, ?_, hsize, hfrom⟩
  · rw [List.getElem?_map, hhead, hname']
    rfl
  · rw [hname, hname']

/-- The names that calls are looked up in are those of the functions. -/
theorem exists_of_name (h : m.ReadInPasses v heads) {k : Nat} {name : String}
    (hname : (heads.map (·.name))[k]? = some name) :
    ∃ g, m.functions[k]? = some g ∧ g.name = name := by
  have hk : k < (v.get "functions").items.length := by
    have hlt := (List.getElem?_eq_some_iff.1 hname).1
    rwa [List.length_map, ← h.head.length_eq] at hlt
  have hk' : k < m.functions.size := h.size ▸ hk
  have hg : m.functions[k]? = some m.functions[k] := Array.getElem?_eq_getElem hk'
  have hname' := (h.of_function hg (List.getElem?_eq_getElem hk)).1
  exact ⟨_, hg, Option.some.inj (hname'.symm.trans hname)⟩

theorem grounded (h : m.ReadInPasses v heads) : m.Grounded v := by
  refine ⟨h.size, ?_, ?_, ?_, ?_⟩
  · intro k f body hf hbody
    exact (h.of_function hf hbody).2.1
  · intro k f body hf hbody
    obtain ⟨-, -, hsize, hread⟩ := h.of_function hf hbody
    rw [← Array.length_toList, ← hread.read.length_eq]
    exact hread.grounded rfl hsize.symm rfl rfl
  · intro k f body hf hbody i inst hinst callee args hcall
    obtain ⟨-, -, -, hread⟩ := h.of_function hf hbody
    obtain ⟨item, name, hitem, hname, hcallee⟩ := hread.callee hinst hcall
    -- the names of all heads are known before the first body is read, so a callee may come later
    obtain ⟨g, hg, rfl⟩ := h.exists_of_name hcallee
    exact ⟨item, g, hitem, hg, hname⟩
  · intro k e he
    refine ConstantExpr.grounded_of_listOfJson ?_ h.constantExprs k e (by simpa using he)
    simp

end ReadInPasses

theorem parse_of_read {text : String} (h : Module.read text = .ok m) :
    ∃ v, Json.parse text = .ok v ∧ Module.ofJson v = .ok m := by
  rw [Module.read] at h
  cases hv : Json.parse text with
  | error e =>
    rw [hv] at h
    cases h
  | ok v =>
    rw [hv] at h
    exact ⟨v, rfl, h⟩

/-- Every reference of a module that was read is to something the module has, except that a
reference to an instruction may exceed the instructions of its function by as many as the
description of the function has stray entries. -/
theorem read_grounded (text : String) (m : Module) (h : Module.read text = .ok m) :
    ∃ v, Json.parse text = .ok v ∧ m.Grounded v := by
  obtain ⟨v, hv, hm⟩ := parse_of_read h
  obtain ⟨heads, hheads⟩ := exists_readInPasses hm
  exact ⟨v, hv, hheads.grounded⟩

/-- A text in which a function calls one that comes after it. -/
def forwardCall : String :=
  "\x7b\"functions\":[\x7b\"name\":\"f\",\"blocks\":[\x7b\"instructions\":[" ++
    "\x7b\"op\":\"call\",\"callee\":\"g\"\x7d," ++
    "\x7b\"op\":\"ret\",\"value\":\x7b\"inst\":0\x7d\x7d]\x7d]\x7d,\x7b\"name\":\"g\"\x7d]\x7d"

theorem read_grounded_forward_call :
    ∃ m v, Module.read forwardCall = .ok m ∧ Json.parse forwardCall = .ok v ∧ m.Grounded v ∧
      m.functions.toList.map (fun f => (f.name, f.instructions.size)) = [("f", 2), ("g", 0)] := by
  have hread : (Module.read forwardCall).toOption.map (fun m =>
      m.functions.toList.map (fun f => (f.name, f.instructions.size))) =
        some [("f", 2), ("g", 0)] := by decide +kernel
  cases hm : Module.read forwardCall with
  | error e => simp [hm, Except.toOption] at hread
  | ok m =>
    obtain ⟨v, hv, hgrounded⟩ := read_grounded forwardCall m hm
    exact ⟨m, v, rfl, hv, hgrounded, by simpa [hm, Except.toOption] using hread⟩

/-- A text in which an object stands in the place of the instructions of the second block. -/
def strayEntry : String :=
  "\x7b\"functions\":[\x7b\"name\":\"f\",\"blocks\":[\x7b\"instructions\":[" ++
    "\x7b\"op\":\"ret\",\"value\":\x7b\"inst\":1\x7d\x7d]\x7d," ++
    "\x7b\"instructions\":\x7b\"a\":0\x7d\x7d]\x7d]\x7d"

/-- One stray entry lets the only instruction of a function refer to a second one. -/
theorem stray_entry_dangles :
    ∃ m f inst, Module.read strayEntry = .ok m ∧ m.functions[0]? = some f ∧
      f.instructions = #[inst] ∧ inst.operation.Uses (.instruction 1) := by
  have hread : (Module.read strayEntry).toOption.map (fun m => m.functions[0]?.map (fun f =>
      f.instructions.toList.map Instruction.operation)) =
        some (some [.ret (some (.instruction 1))]) := by decide +kernel
  cases hm : Module.read strayEntry with
  | error e => simp [hm, Except.toOption] at hread
  | ok m =>
    simp only [hm, Except.toOption, Option.map_some, Option.some.injEq,
      Option.map_eq_some_iff] at hread
    obtain ⟨f, hf, hops⟩ := hread
    obtain ⟨inst, hinsts, hop⟩ := List.map_eq_singleton_iff.1 hops
    refine ⟨m, f, inst, rfl, hf, ?_, hop ▸ .result _⟩
    rw [← hinsts]

end Module

end GridAccess
