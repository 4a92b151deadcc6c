import Mathlib.Data.Rat.Init

/- The numbers of the sources, where a call is handed one of any kind. -/
namespace PerformanceHelpers

/-- A number as JavaScript has them, without their rounding. -/
inductive Number where
  | finite (q : ℚ)
  | infinity
  | negInfinity
  | nan
  deriving DecidableEq

instance : ToString Number where
  toString
    | .finite q => toString q
    | .infinity => "Infinity"
    | .negInfinity => "-Infinity"
    | .nan => "NaN"

end PerformanceHelpers
