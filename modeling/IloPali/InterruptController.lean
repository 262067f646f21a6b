import IloPali.FdtRelocation
import IloPali.InterruptStacks

/-!
# The interrupt controller (`init_interrupts`)

`kinit` looks the controller up in the device tree, behind `fdt_phys2safe`, and sets its registers
through the direct map.
-/

namespace IloPali

open ByteMemory

/-! ## 1. The code -/

namespace Plic

/-- The priority of a source, in a controller at `base`. -/
def priority (base source : Nat) : Nat := base + 4 * source

end Plic

end IloPali
