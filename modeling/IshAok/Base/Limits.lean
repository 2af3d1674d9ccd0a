/-!
# Limits

The bounds that several modules compare with.
-/

namespace IshAok.Base

/-- `INT_MAX`. -/
def intMax : Nat := 0x7fffffff

/-- `UINT32_MAX`. -/
def uint32Max : Nat := 0xffffffff

/-- `PAGE_SIZE`. -/
def pageSize : Nat := 4096

/-- `MAX_PATH`: the longest path, with its end. -/
def maxPath : Nat := 4096

end IshAok.Base
