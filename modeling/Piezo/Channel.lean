import Piezo.Text.Decimal

/-!
Channels: the tone output lines that players drive.
-/

namespace Piezo

/-- One physical tone output line. -/
structure Channel where
  number : UInt8
deriving DecidableEq, Repr

namespace Channel

/-- A channel is written as its number after a hash. -/
def text (c : Channel) : String := "#" ++ Text.Decimal.text c.number.toNat

end Channel

end Piezo
