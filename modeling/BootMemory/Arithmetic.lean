/-!
# Arithmetic

The powers of natural numbers and their zero are those of the core library in every module, also
where other instances are in sight.
-/

set_option autoImplicit false

namespace BootMemory

@[default_instance 20000]
instance (priority := 20000) natPow : Pow Nat Nat := instPowNat

instance (priority := 20000) natZero : Zero Nat := Zero.ofOfNat0

end BootMemory
