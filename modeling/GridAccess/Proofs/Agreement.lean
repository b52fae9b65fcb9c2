import GridAccess.Formula.OfEvolution
import GridAccess.Proofs.Outcome

set_option autoImplicit false

/-!
# Contexts that agree

Sums, products and the addresses of elements look at a context in a few places only: at its loops,
at the types of values and the layout of data, and at where a value is computed. Contexts that
agree there (`Context.Agrees`) give the same answers.

A module resembles another (`Module.Resembles`) if they differ in nothing but the bodies of
functions. A function has the same evolutions in both, and its loops go round as often
(`Scope.ofFunction_inModule`, `Scope.loopHead_inModule`).
-/

namespace GridAccess

namespace Module

variable {m m' : Module} {f f' : Function}

theorem descend_congr (hlayout : m'.layout = m.layout) (indices : List Value) :
    ∀ t : Ty, m'.descend t indices = m.descend t indices := by
  induction indices with
  | nil => exact fun _ => rfl
  | cons v rest ih =>
    intro t
    cases t with
    | struct name => simp only [descend, ih, hlayout]
    | array element length => exact ih element
    | _ => rfl

/-- The type of a value depends on the types of parameters and instructions, and on what the module
says about data. -/
theorem typeOf_congr (hglobals : m'.globals = m.globals)
    (hexprs : m'.constantExprs = m.constantExprs) (hlayout : m'.layout = m.layout)
    (hparams : f'.params = f.params)
    (htypes : ∀ j, (·.type) <$> f'.instruction j = (·.type) <$> f.instruction j) (v : Value) :
    m'.typeOf f' v = m.typeOf f v := by
  have hwithin : ∀ depth v, m'.typeOfWithin f' depth v = m.typeOfWithin f depth v := by
    intro depth
    induction depth with
    | zero =>
      intro v
      cases v with
      | instruction j => exact htypes j
      | argument j => simp only [typeOfWithin, hparams]
      | constant c => cases c <;> simp only [typeOfWithin, hglobals]
    | succ depth ih =>
      intro v
      cases v with
      | instruction j => exact htypes j
      | argument j => simp only [typeOfWithin, hparams]
      | constant c =>
        cases c with
        | expr k => simp only [typeOfWithin, indexedType, descend_congr hlayout, ih, hexprs]
        | _ => simp only [typeOfWithin, hglobals]
  rw [typeOf, typeOf, hexprs]
  exact hwithin _ v

end Module

namespace Context

/-- Two contexts have the same loops, with the same values computed outside of each, and the same
types and layout. -/
structure Agrees (C D : Context) : Prop where
  forest : D.forest = C.forest
  outside : ∀ (l : Loop) (v : Value), l.isInvariant D.function v = l.isInvariant C.function v
  layout : D.module.layout = C.module.layout
  typeOf : ∀ v, D.module.typeOf D.function v = C.module.typeOf C.function v

namespace Agrees

variable {C D : Context}

/-! ## Folding -/

mutual

theorem isInvariant (h : C.Agrees D) (l : Nat) :
    (e : Evolution) → D.isInvariant l e = C.isInvariant l e
  | .constant _ | .sizeOf _ | .alignOf _ | .indeterminate => rfl
  | .unknown v => by
    rw [Context.isInvariant, Context.isInvariant, h.forest]
    cases C.forest.loop l with
    | error e => rfl
    | ok loop => exact h.outside loop v
  | .sum es | .product es | .smax es | .umax es => by
    rw [Context.isInvariant, Context.isInvariant, h.allInvariant l es]
  | .quotient a b => by
    rw [Context.isInvariant, Context.isInvariant, h.isInvariant l a, h.isInvariant l b]
  | .zext e | .sext e | .trunc e => by
    rw [Context.isInvariant, Context.isInvariant, h.isInvariant l e]
  | .recurrence a es k => by
    rw [Context.isInvariant, Context.isInvariant, h.isInvariant l a, h.allInvariant l es, h.forest]

theorem allInvariant (h : C.Agrees D) (l : Nat) :
    (es : List Evolution) → D.allInvariant l es = C.allInvariant l es
  | [] => rfl
  | e :: es => by
    rw [Context.allInvariant, Context.allInvariant, h.isInvariant l e, h.allInvariant l es]

end

variable (h : C.Agrees D)

include h

theorem absorbing? : D.absorbing? = C.absorbing? := by
  funext ps
  induction ps with
  | nil => rfl
  | cons p ps ih => rw [Context.absorbing?, Context.absorbing?, h.allInvariant, ih]

theorem sumWithin (depth : Nat) : D.sumWithin depth = C.sumWithin depth := by
  induction depth with
  | zero => rfl
  | succ depth ih =>
    funext es
    rw [Context.sumWithin, Context.sumWithin, ih, h.absorbing?]

theorem sum : D.sum = C.sum := by
  funext es
  rw [Context.sum, Context.sum, h.sumWithin]

theorem productWithin (depth : Nat) : D.productWithin depth = C.productWithin depth := by
  induction depth with
  | zero => rfl
  | succ depth ih =>
    funext a b
    rw [Context.productWithin, Context.productWithin, ih, h.absorbing?]

theorem product : D.product = C.product := by
  funext a b
  rw [Context.product, Context.product, h.productWithin]

theorem negate : D.negate = C.negate := by
  funext e
  rw [Context.negate, Context.negate, h.product]

theorem difference : D.difference = C.difference := by
  funext a b
  rw [Context.difference, Context.difference, h.negate, h.sum]

/-! ## Addresses and arithmetic -/

theorem offsetsWithin (find : Lookup) (indices : List Value) :
    ∀ t : Ty, D.offsetsWithin find t indices = C.offsetsWithin find t indices := by
  induction indices with
  | nil => exact fun _ => rfl
  | cons v rest ih =>
    intro t
    cases t with
    | struct name => simp only [Context.offsetsWithin, ih, Module.fieldAt?, h.layout]
    | array element length => simp only [Context.offsetsWithin, ih, h.product]
    | _ => rfl

theorem elementOffsets : D.elementOffsets = C.elementOffsets := by
  funext find base indices
  simp only [Context.elementOffsets, h.typeOf, h.product, h.offsetsWithin]

theorem ofElement : D.ofElement = C.ofElement := by
  funext find base indices
  rw [Context.ofElement, Context.ofElement, h.elementOffsets, h.sum]

theorem ofBinary : D.ofBinary = C.ofBinary := by
  funext find op lhs rhs
  rw [Context.ofBinary, Context.ofBinary, h.sum, h.difference, h.product]

theorem allOutside : D.allOutside = C.allOutside := by
  funext l vs
  induction vs with
  | nil => rfl
  | cons v vs ih => rw [Context.allOutside, Context.allOutside, ih, h.outside]

end Agrees

end Context

/-! ## The bodies of other functions -/

/-- The function without its body. -/
def Function.declared (f : Function) : Function := { f with blocks := #[], instructions := #[] }

/-- The modules are the same apart from the bodies of functions. -/
structure Module.Resembles (m m' : Module) : Prop where
  globals : m'.globals = m.globals
  constantExprs : m'.constantExprs = m.constantExprs
  layout : m'.layout = m.layout
  declared : m'.functions.map Function.declared = m.functions.map Function.declared

theorem Module.Resembles.refl (m : Module) : m.Resembles m := ⟨rfl, rfl, rfl, rfl⟩

namespace Context

variable {C : Context} {m : Module}

/-- The context with its function in another module. -/
def inModule (C : Context) (m : Module) : Context := { C with module := m }

theorem agrees_inModule (hm : C.module.Resembles m) : C.Agrees (C.inModule m) where
  forest := rfl
  outside _ _ := rfl
  layout := hm.layout
  typeOf := Module.typeOf_congr hm.globals hm.constantExprs hm.layout rfl fun _ => rfl

theorem increment?_inModule (hm : C.module.Resembles m) :
    (C.inModule m).increment? = C.increment? := by
  have h := agrees_inModule hm
  funext find l phi back
  rw [increment?, increment?, h.allOutside, h.elementOffsets, h.sum, h.negate]
  rfl

theorem ofInstruction_inModule (hm : C.module.Resembles m) :
    (C.inModule m).ofInstruction = C.ofInstruction := by
  have h := agrees_inModule hm
  have hphi : (C.inModule m).ofPhi = C.ofPhi := by
    funext find phi b incoming
    rw [ofPhi, ofPhi, increment?_inModule hm]
    rfl
  have hselect : (C.inModule m).ofSelect = C.ofSelect := rfl
  funext find i inst
  rw [ofInstruction, ofInstruction, h.ofBinary, h.ofElement, hphi, hselect]

theorem evolutions_inModule (hm : C.module.Resembles m) :
    (C.inModule m).evolutions = C.evolutions := by
  have hround : (C.inModule m).round = C.round := by
    funext t
    rw [round, round, ofInstruction_inModule hm]
    rfl
  have hsettle : ∀ rounds, (C.inModule m).settle rounds = C.settle rounds := by
    intro rounds
    induction rounds with
    | zero => rfl
    | succ rounds ih =>
      funext t
      rw [settle, settle, ih, hround]
  rw [evolutions, evolutions, hsettle]
  rfl

end Context

namespace Scope

variable {S : Scope} {m : Module}

/-- The scope with its function in another module. -/
def inModule (S : Scope) (m : Module) : Scope :=
  { toContext := S.toContext.inModule m, evolutions := S.evolutions }

theorem ofFunction_inModule {m m' : Module} (hm : m.Resembles m') (f : Function) :
    ofFunction m' f = (ofFunction m f).inModule m' := by
  have htable : (Context.ofFunction m' f).evolutions = (Context.ofFunction m f).evolutions :=
    Context.evolutions_inModule (C := Context.ofFunction m f) hm
  rw [ofFunction, ofFunction, ofContext, ofContext, htable]
  rfl

theorem tripCount_inModule (hm : S.module.Resembles m) :
    (S.inModule m).tripCount = S.tripCount := by
  have h : S.toContext.Agrees (S.inModule m).toContext := Context.agrees_inModule hm
  have hexit : (S.inModule m).countedExit? = S.countedExit? := by
    funext l pred lhs rhs
    rw [countedExit?, countedExit?, h.isInvariant, h.isInvariant]
  have hrounds : (S.inModule m).roundsUntil = S.roundsUntil := by
    funext exit
    rw [roundsUntil, roundsUntil, h.sum, h.difference]
  funext l
  rw [tripCount, tripCount, hexit, hrounds]
  rfl

theorem loopHead_inModule (hm : S.module.Resembles m) : (S.inModule m).loopHead = S.loopHead := by
  have h : S.toContext.Agrees (S.inModule m).toContext := Context.agrees_inModule hm
  have hknown : (S.inModule m).hasInvariantTripCount = S.hasInvariantTripCount := by
    funext l
    simp only [hasInvariantTripCount, tripCount_inModule hm, h.isInvariant]
  funext l
  rw [loopHead, loopHead, hknown, tripCount_inModule hm]
  rfl

end Scope

end GridAccess
