/-!
Why received octets are refused. Each cause has one constructor; the texts are made by three
functions that take the names and numbers they print.
-/

namespace Olsr

inductive LengthField where
  | packet
  | message
  | midBody
  | helloBody
  | linkMessage
  | tcBody
  | tcNeighborList
  | hnaBody
  deriving DecidableEq

def LengthField.name : LengthField → String
  | packet => "packet"
  | message => "message"
  | midBody => "MID body"
  | helloBody => "HELLO body"
  | linkMessage => "link message"
  | tcBody => "TC body"
  | tcNeighborList => "TC neighbor list"
  | hnaBody => "HNA body"

inductive LengthFault where
  | belowPacketHeader
  | aboveMaximum
  | belowMessageHeader
  | belowFixedFields
  | belowLinkHeader
  | trailingOctets
  | overrunsHello
  | partialAddress
  | partialAssociation
  deriving DecidableEq

def LengthFault.reason : LengthFault → String
  | belowPacketHeader => "shorter than the packet header"
  | aboveMaximum => "exceeds the configured maximum"
  | belowMessageHeader => "shorter than the message header"
  | belowFixedFields => "shorter than the fixed body fields"
  | belowLinkHeader => "shorter than the link message header"
  | trailingOctets => "trailing bytes shorter than a link message header"
  | overrunsHello => "overruns the HELLO body"
  | partialAddress => "not a multiple of the address size"
  | partialAssociation => "not a multiple of the association size"

inductive ReservedField where
  | hello
  | linkMessage
  | tc
  deriving DecidableEq

def ReservedField.name : ReservedField → String
  | hello => "HELLO reserved"
  | linkMessage => "link message reserved"
  | tc => "TC reserved"

inductive DecodeError where
  | malformedLength (field : LengthField) (declared : Nat) (fault : LengthFault)
  | bufferUnderrun (needed available : Nat)
  | reservedNonZero (field : ReservedField) (value : Nat)
  deriving DecidableEq

namespace DecodeError

def malformedLengthText (field : String) (declared : Nat) (reason : String) : String :=
  "malformed " ++ field ++ " length " ++ Nat.repr declared ++ ": " ++ reason

def bufferUnderrunText (needed available : Nat) : String :=
  "buffer underrun: need " ++ Nat.repr needed ++ " bytes, " ++ Nat.repr available ++ " remaining"

/-- The value is printed in base 16 with small letters. -/
def reservedNonZeroText (field : String) (value : Nat) : String :=
  "reserved field " ++ field ++ " is non-zero: 0x" ++ String.ofList (Nat.toDigits 16 value)

def message : DecodeError → String
  | malformedLength field declared fault => malformedLengthText field.name declared fault.reason
  | bufferUnderrun needed available => bufferUnderrunText needed available
  | reservedNonZero field value => reservedNonZeroText field.name value

end DecodeError
end Olsr
