/-!
What a decoder insists on beyond the layout. Left alone, it ignores reserved fields and takes any
packet length that 16 bits can say.
-/

namespace Olsr

def maxMessageSize : Nat := 65535

structure Policy where
  strictReserved : Bool := false
  maxPacketLength : Nat := maxMessageSize
  deriving DecidableEq

namespace Policy

def lenient : Policy := {}

def strict : Policy := { strictReserved := true }

end Policy
end Olsr
