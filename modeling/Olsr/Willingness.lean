/-!
Willingness of a node to carry traffic for others. Any byte is a willingness; five have names.
-/

namespace Olsr

structure Willingness where
  byte : UInt8
  deriving DecidableEq

namespace Willingness

def never : Willingness := ⟨0⟩
def low : Willingness := ⟨1⟩
def standard : Willingness := ⟨3⟩
def high : Willingness := ⟨6⟩
def always : Willingness := ⟨7⟩

/-- A willingness that nobody set is `never`, not `standard`. -/
instance : Inhabited Willingness := ⟨never⟩

def text (w : Willingness) : String :=
  if w = never then "NEVER"
  else if w = low then "LOW"
  else if w = standard then "DEFAULT"
  else if w = high then "HIGH"
  else if w = always then "ALWAYS"
  else Nat.repr w.byte.toNat

def sort (ws : List Willingness) : List Willingness := ws.mergeSort fun v w => v.byte ≤ w.byte

end Willingness
end Olsr
