import Mathlib.Algebra.Order.Ring.Int

set_option autoImplicit false

namespace Ucore.Lib

-- The sizes of the index types whose elements are written as literals.
instance sizeOne : NeZero 1 := ⟨by decide⟩

instance sizeTwo : NeZero 2 := ⟨by decide⟩

instance sizeThree : NeZero 3 := ⟨by decide⟩

instance sizeFive : NeZero 5 := ⟨by decide⟩

instance sizePage : NeZero 512 := ⟨by decide⟩

end Ucore.Lib
