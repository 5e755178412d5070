/-!
JSON values and the shapes that the JSON form of records and tagged values uses. A record is an
object with its fields under their names, or an array of the fields in their order.
-/

namespace Olsr

inductive Json where
  | null
  | bool (b : Bool)
  | integer (n : Int)
  /-- A number with a fraction: `mantissa` divided by ten to the power of `places`. -/
  | decimal (mantissa : Int) (places : Nat)
  | string (s : String)
  | array (items : List Json)
  | object (fields : List (String × Json))

namespace Json

instance : Inhabited Json := ⟨null⟩

def ofNat (n : Nat) : Json := integer n

def natBelow? (bound : Nat) : Json → Option Nat
  | integer n => if 0 ≤ n ∧ n < bound then some n.toNat else none
  | _ => none

def octet? (j : Json) : Option UInt8 := (j.natBelow? 256).map UInt8.ofNat

def word16? (j : Json) : Option UInt16 := (j.natBelow? 65536).map UInt16.ofNat

def list? {α : Type} (item : Json → Option α) : Json → Option (List α)
  | array items => items.mapM item
  | _ => none

/-- The fields of a record. Other fields of an object are passed over. -/
def record? (names : List String) : Json → Option (List Json)
  | object fields => names.mapM (List.lookup · fields)
  | array items => if items.length = names.length then some items else none
  | _ => none

def closedRecord? (names : List String) (j : Json) : Option (List Json) :=
  match j with
  | object fields => if fields.all (names.contains ·.1) then j.record? names else none
  | _ => j.record? names

def tagged? : Json → Option (String × Json)
  | object [field] => some field
  | _ => none

theorem natBelow?_ofNat {n bound : Nat} (h : n < bound) : (ofNat n).natBelow? bound = some n := by
  have : (0 : Int) ≤ n ∧ (n : Int) < bound := by omega
  simp only [ofNat, natBelow?, this, and_self, ↓reduceIte, Int.toNat_natCast]

theorem octet?_ofNat (x : UInt8) : (ofNat x.toNat).octet? = some x := by
  simp [octet?, natBelow?_ofNat x.toNat_lt]

theorem word16?_ofNat (w : UInt16) : (ofNat w.toNat).word16? = some w := by
  simp [word16?, natBelow?_ofNat w.toNat_lt]

end Json
end Olsr
