import GridAccess.Proofs.LoopNesting
import GridAccess.Proofs.StackWalk

set_option autoImplicit false

/-!
# Loops found by three traversals

Loops can be found without comparing sets of blocks. A survey (`Survey`) keeps for each block the
innermost loop that is known to hold it, and for each loop its blocks, the loop around it, the loops
directly inside it and its depth. Three traversals fill it.

* Headers come in the postorder of the tree of dominators, so that inner loops are found first.
  From the sources of the edges back to a header, a worklist goes backwards (`Survey.visit`). A
  block that belongs to no loop yet is given to the loop of the header. A block that does leads to
  the outermost loop around it that is known; this loop comes to lie inside that of the header, and
  the worklist goes on before it. Neither its blocks nor the loops inside it are looked at again.
* Blocks then come in the postorder of the graph, and each is added to its loop and to all loops
  around it (`Survey.insert`). A header comes after the other blocks of its loop. The loop is then
  complete: its blocks after the header and the loops inside it are turned round, and it is added to
  the loop around it.
* The depth of a loop is the length of the way up from it (`Survey.withDepths`).

The worklist is followed as a relation (`Survey.Drains`), as nothing in a step says that it ends.
There is at most one way to go (`Cfg.Surveys.unique`).
-/

namespace GridAccess

/-- A loop in a survey: its blocks with the header first, the loop around it, the loops directly
inside it, and how deep it lies. -/
structure LoopRecord where
  blocks : List Nat
  parent : Option Nat := none
  children : List Nat := []
  depth : Nat := 1
deriving DecidableEq, Repr

/-- The innermost loop found for each block, and the loops by their numbers. -/
@[ext]
structure Survey where
  loopOf : Nat → Option Nat := fun _ => none
  loops : Array LoopRecord := #[]

namespace LoopRecord

def header? (l : LoopRecord) : Option Nat := l.blocks.head?

/-- The loop with one more block. -/
def addBlock (b : Nat) (l : LoopRecord) : LoopRecord := { l with blocks := l.blocks ++ [b] }

/-- The loop with one more loop directly inside. -/
def addChild (i : Nat) (l : LoopRecord) : LoopRecord := { l with children := l.children ++ [i] }

/-- The loop with its blocks after the header and the loops inside it in reverse order. -/
def turned (l : LoopRecord) : LoopRecord :=
  { l with
    blocks := l.blocks.take 1 ++ (l.blocks.drop 1).reverse
    children := l.children.reverse }

/-- The loop with its depth. -/
def atDepth (n : Nat) (l : LoopRecord) : LoopRecord := { l with depth := n }

end LoopRecord

namespace Survey

/-! ## Ways up -/

def parents (s : Survey) : Array (Option Nat) := s.loops.map (·.parent)

/-- A loop and the loops around it, from the inside out. -/
def wayUp (s : Survey) (id : Nat) : Except Fault (List Nat) :=
  Ascent.way s.parents (s.parents.size + 1) id

/-- The outermost loop around a loop. -/
def outermost (s : Survey) (id : Nat) : Except Fault Nat := (·.getLastD id) <$> s.wayUp id

/-- Loop `inner` is loop `outer` or lies inside it. -/
def contains (s : Survey) (outer inner : Nat) : Except Fault Bool :=
  Ascent.meets s.parents outer (s.parents.size + 1) inner

/-- How deep a block lies in loops. -/
def depthOf (s : Survey) (b : Nat) : Except Fault Nat :=
  match s.loopOf b with
  | none => .ok 0
  | some id => LoopRecord.depth <$> fetch s.loops id

/-! ## Discovery -/

/-- The survey with a changed loop. -/
def modify (s : Survey) (id : Nat) (change : LoopRecord → LoopRecord) : Survey :=
  { s with loops := s.loops.modify id change }

/-- The survey with one more loop, of which only the header is known. -/
def addLoop (s : Survey) (h : Nat) : Survey := { s with loops := s.loops.push { blocks := [h] } }

/-- The survey with a loop around another one. -/
def nest (s : Survey) (inner outer : Nat) : Survey :=
  s.modify inner fun l => { l with parent := some outer }

/-- The survey with a block in a loop. -/
def assign (s : Survey) (b id : Nat) : Survey :=
  { s with loopOf := Function.update s.loopOf b (some id) }

/-- A visit to block `b` for loop `id`, with the blocks to visit after it. -/
def visit (g : Cfg) (t : DomTree) (id : Nat) (s : Survey) (b : Nat) :
    Except Fault (Survey × List Nat) :=
  match s.loopOf b with
  | some inner => do
    -- all loops around the block that are known are taken at once
    let top ← s.outermost inner
    if top = id then return (s, [])
    else
      let l ← fetch s.loops top
      match l.header? with
      | none => return (s.nest top id, [])
      -- the ends of the inner loop are passed over
      | some h => return (s.nest top id, (g.predecessors h).filter fun p => s.loopOf p != some top)
  | none =>
    -- a block that control does not reach belongs to no loop
    if t.isReachable b then do
      let l ← fetch s.loops id
      return (s.assign b id, if l.header? = some b then [] else g.predecessors b)
    else return (s, [])

/-- From a survey and the blocks that are to be visited for loop `id`, the next one first, the
worklist comes to its end with another survey. -/
inductive Drains (g : Cfg) (t : DomTree) (id : Nat) : Survey → List Nat → Survey → Prop
  | done (s : Survey) : Drains g t id s [] s
  | visit {s s' r : Survey} {b : Nat} {rest more : List Nat}
      (hvisit : s.visit g t id b = .ok (s', more))
      (hrest : Drains g t id s' (more.reverse ++ rest) r) : Drains g t id s (b :: rest) r

/-- All loops with headers among some blocks are found, one after the other. -/
inductive Discovers (g : Cfg) (t : DomTree) : List Nat → Survey → Survey → Prop
  | done (s : Survey) : Discovers g t [] s s
  | skip {h : Nat} {hs : List Nat} {s r : Survey} (hnone : g.backSources t h = [])
      (hrest : Discovers g t hs s r) : Discovers g t (h :: hs) s r
  | found {h : Nat} {hs : List Nat} {s s' r : Survey} (hsome : g.backSources t h ≠ [])
      (hdrain : Drains g t s.loops.size (s.addLoop h) (g.backSources t h).reverse s')
      (hrest : Discovers g t hs s' r) : Discovers g t (h :: hs) s r

/-! ## Lists of blocks and of inner loops -/

/-- A block is added to some loops. -/
def addTo (s : Survey) (b : Nat) (ids : List Nat) : Survey :=
  ids.foldl (fun s id => s.modify id (LoopRecord.addBlock b)) s

/-- A block is added to its loop and the loops around it; if it is the header, the loop is
completed. -/
def insert (s : Survey) (b : Nat) : Except Fault Survey :=
  match s.loopOf b with
  | none => .ok s
  | some id => do
    let l ← fetch s.loops id
    if l.header? = some b then
      -- the header is listed already, and all other blocks of the loop have come
      let s := s.modify id LoopRecord.turned
      match l.parent with
      | none => return s
      | some p =>
        let s := s.modify p (LoopRecord.addChild id)
        return s.addTo b (← s.wayUp p)
    else return s.addTo b (← s.wayUp id)

/-! ## Depths -/

/-- The loops with their depths. -/
def withDepths (s : Survey) : Except Fault Survey := do
  let loops ← s.loops.toList.zipIdx.mapM fun x =>
    (fun way => x.1.atDepth way.length) <$> s.wayUp x.2
  return { s with loops := loops.toArray }

end Survey

/-- The traversals of a graph come to their ends with a survey of its loops. -/
def Cfg.Surveys (g : Cfg) (t : DomTree) (r : Survey) : Prop :=
  ∃ headers blocks found filled,
    StackWalk.Gives t.children ⟨g.entry, [], []⟩ headers ∧
    StackWalk.Gives g.successors ⟨g.entry, [], []⟩ blocks ∧
    Survey.Discovers g t headers {} found ∧
    blocks.foldlM Survey.insert found = .ok filled ∧ filled.withDepths = .ok r

namespace Survey

variable {g : Cfg} {t : DomTree} {id : Nat} {s r r' : Survey} {blocks headers : List Nat}

theorem Drains.unique (h : Drains g t id s blocks r) (h' : Drains g t id s blocks r') : r = r' := by
  induction h with
  | done s =>
    cases h'
    rfl
  | visit hvisit _ ih =>
    cases h' with
    | visit hvisit' hrest' =>
      obtain ⟨rfl, rfl⟩ := Prod.mk.inj (Except.ok.inj (hvisit.symm.trans hvisit'))
      exact ih hrest'

theorem Discovers.unique (h : Discovers g t headers s r) (h' : Discovers g t headers s r') :
    r = r' := by
  induction h with
  | done s =>
    cases h'
    rfl
  | skip hnone _ ih =>
    cases h' with
    | skip _ hrest' => exact ih hrest'
    | found hsome _ _ => exact absurd hnone hsome
  | found hsome hdrain _ ih =>
    cases h' with
    | skip hnone _ => exact absurd hnone hsome
    | found _ hdrain' hrest' =>
      obtain rfl := hdrain.unique hdrain'
      exact ih hrest'

end Survey

/-- There is one survey at most. -/
theorem Cfg.Surveys.unique {g : Cfg} {t : DomTree} {r r' : Survey} (h : g.Surveys t r)
    (h' : g.Surveys t r') : r = r' := by
  obtain ⟨headers, blocks, found, filled, hheaders, hblocks, hfound, hfilled, hr⟩ := h
  obtain ⟨headers', blocks', found', filled', hheaders', hblocks', hfound', hfilled', hr'⟩ := h'
  obtain rfl := hheaders.unique hheaders'
  obtain rfl := hblocks.unique hblocks'
  obtain rfl := hfound.unique hfound'
  obtain rfl := Except.ok.inj (hfilled.symm.trans hfilled')
  exact Except.ok.inj (hr.symm.trans hr')

end GridAccess
