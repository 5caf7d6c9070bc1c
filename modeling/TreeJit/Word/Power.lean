/-!
# Powers of numbers

A power with a natural exponent is the core library's in every module.  An algebra library brings a
second instance of it, which would stand in the statements of the modules that import the library and
not in the definitions they are about.
-/

namespace TreeJit

attribute [scoped instance (2000), default_instance (20000)] instPowNat

end TreeJit
