import GridAccess.IR.Module
import GridAccess.Text.Find

set_option autoImplicit false

/-!
# Kernel names

Kernels are told from other functions by their readable names.
-/

namespace GridAccess

/-- The name is that of a kernel: `_kernel` ends a name before its parameters or template
arguments, or stands inside a name that does not end in an underscore there. -/
def isKernelName (name : String) : Bool :=
  Text.contains name "_kernel(" || Text.contains name "_kernel<" ||
    (Text.contains name "_kernel_" && !Text.contains name "_<" && !Text.contains name "_(")

/-- The function is a kernel with a body. -/
def Function.isKernel (f : Function) : Bool := !f.isDeclaration && isKernelName f.displayName

/-- The kernels of a module, by their places. -/
def Module.kernels (m : Module) : List Nat :=
  (List.range m.functions.size).filter fun i => m.functions[i]?.any Function.isKernel

end GridAccess
