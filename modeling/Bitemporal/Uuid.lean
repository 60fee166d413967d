import Bitemporal.Digits

/-!
# Universally unique identifiers

A `Uuid` is a string of sixteen octets. It is what a component is known by
outside one store.
-/

namespace Bitemporal

/-- A universally unique identifier. -/
structure Uuid where
  /-- Its octets, in the order in which they are written. -/
  octets : List UInt8
  /-- There are sixteen of them. -/
  length_octets : octets.length = 16
deriving DecidableEq, Repr

namespace Uuid

/-- The identifier whose octets are all zero. -/
def zero : Uuid := ⟨List.replicate 16 0, by simp⟩

instance : Inhabited Uuid := ⟨zero⟩

/-- The identifier with the given octets, if there are sixteen. -/
def ofOctets? (octets : List UInt8) : Option Uuid :=
  if h : octets.length = 16 then some ⟨octets, h⟩ else none

theorem ofOctets?_octets (u : Uuid) : ofOctets? u.octets = some u := by
  simp [ofOctets?, u.length_octets]

theorem ofOctets?_eq_some_iff {octets : List UInt8} {u : Uuid} :
    ofOctets? octets = some u ↔ octets = u.octets := by
  constructor
  · intro h
    rw [ofOctets?] at h
    split at h
    · rw [← Option.some.inj h]
    · cases h
  · rintro rfl
    exact ofOctets?_octets u

/-- The text of an identifier: lower-case digits in groups of 8, 4, 4, 4 and 12. -/
def text (u : Uuid) : String :=
  let group (start count : Nat) : List Char := Hex.ofOctets ((u.octets.drop start).take count)
  String.ofList (group 0 4 ++ '-' :: group 4 2 ++ '-' :: group 6 2 ++ '-' :: group 8 2 ++
    '-' :: group 10 6)

instance : ToString Uuid := ⟨text⟩

/-- The identifier that a text stands for, wherever its hyphens are. -/
def ofText? (text : String) : Option Uuid :=
  (Hex.octets? (text.toList.filter fun c => c ≠ '-')).bind ofOctets?

end Uuid

end Bitemporal
