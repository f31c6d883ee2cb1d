/-!
# Random numbers

A linear congruential generator on 64 bits. Only its upper bits are used, since the lower ones repeat
early.
-/

namespace Scripting.Console

def nextSeed (seed : UInt64) : UInt64 := seed * 6364136223846793005 + 1442695040888963407

/-- A number from zero to below `max`, and the next seed. Without room for a choice it is zero, and
the seed stays. -/
def draw (max : Int32) (seed : UInt64) : Int32 × UInt64 :=
  if max ≤ 0 then (0, seed)
  else
    let seed := nextSeed seed
    (((seed >>> 33) % max.toUInt32.toUInt64).toUInt32.toInt32, seed)

end Scripting.Console
