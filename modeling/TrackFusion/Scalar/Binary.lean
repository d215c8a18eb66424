import TrackFusion.Scalar

/-!
Binary floating point as scalars: double precision for coordinates and costs, single precision for
probabilities.
-/

set_option autoImplicit false
set_option relaxedAutoImplicit false

namespace TrackFusion

instance : Scalar Float where
  zero := 0.0
  one := 1.0
  decLt := inferInstanceAs (DecidableLT Float)
  decLe := inferInstanceAs (DecidableLE Float)
  sqrt := Float.sqrt
  cos := Float.cos
  isFinite := Float.isFinite

instance : ExtendedScalar Float where
  infinity := Float.ofBits 0x7FF0000000000000
  toInt64 v := v.round.toInt64.toInt

instance : Scalar Float32 where
  zero := 0.0
  one := 1.0
  decLt := inferInstanceAs (DecidableLT Float32)
  decLe := inferInstanceAs (DecidableLE Float32)
  sqrt := Float32.sqrt
  cos := Float32.cos
  isFinite := Float32.isFinite

end TrackFusion
