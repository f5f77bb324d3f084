import DefFlow.Text.FixedPlaces

/-!
# Elapsed time

A duration in nanoseconds is shown in the largest unit that it fills: minutes and
seconds with two places, smaller units with one.
-/

set_option autoImplicit false

namespace DefFlow.Elapsed

/-- The duration in some unit of `unit` nanoseconds: the whole units and then the
rest of them. -/
def inUnits (ns unit : Nat) : Float :=
  (ns / unit).toFloat + (ns % unit).toFloat / unit.toFloat

def text (ns : Int) : String :=
  if 60000000000 ≤ ns then Text.fixedPlaces 2 (inUnits ns.toNat 60000000000) ++ "min"
  else if 1000000000 ≤ ns then Text.fixedPlaces 2 (inUnits ns.toNat 1000000000) ++ "s"
  else if 1000000 ≤ ns then Text.fixedPlaces 1 (ns.toNat.toFloat / 1000000.0) ++ "ms"
  else if 1000 ≤ ns then Text.fixedPlaces 1 (ns.toNat.toFloat / 1000.0) ++ "μs"
  else toString ns ++ "ns"

end DefFlow.Elapsed
