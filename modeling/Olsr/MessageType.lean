/-!
The four message types whose bodies are interpreted, their type bytes and their names.
-/

namespace Olsr

inductive MessageType where
  | mid
  | hello
  | tc
  | hna
  deriving DecidableEq

namespace MessageType

def ofByte? (b : UInt8) : Option MessageType :=
  if b = 1 then some mid
  else if b = 2 then some hello
  else if b = 3 then some tc
  else if b = 4 then some hna
  else none

def byte : MessageType → UInt8
  | mid => 1
  | hello => 2
  | tc => 3
  | hna => 4

def name : MessageType → String
  | mid => "MID"
  | hello => "HELLO"
  | tc => "TC"
  | hna => "HNA"

@[simp] theorem ofByte?_byte (t : MessageType) : ofByte? t.byte = some t := by cases t <;> rfl

theorem byte_of_ofByte? {b : UInt8} {t : MessageType} (h : ofByte? b = some t) : t.byte = b := by
  unfold ofByte? at h
  repeat' split at h
  all_goals simp_all [byte] <;> subst h <;> rfl

end MessageType
end Olsr
