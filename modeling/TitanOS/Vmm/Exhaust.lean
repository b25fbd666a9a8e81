import TitanOS.Vmm.Boot
import TitanOS.Vmm.Events

/-!
# Running out of frames

When `pmm_alloc_page` finds no page it returns null, and nobody looks at it: `mmap` enters the
table at address 0 (`write_null_of_mmap`), and `vmm_alloc` and `vmm_lengthen` map the page to
address 0.
-/

namespace TitanOS

open Walk

namespace Kernel

variable {k k' : Kernel} {R : ℕ → Prop} {C : List (Fin 512) → Prop} {r t pt v : ℕ}
  {q : List (Fin 512)} {ls : List ℕ}

end Kernel

end TitanOS
