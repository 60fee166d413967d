import Bitemporal.Nid
import Bitemporal.Table

/-!
# Indices over semantics

A taxonomy has to find the semantics of an assemblage, those among them that are
about a component, and those that hold a component number in a field, without
looking at every history.

An index only grows: an entry is made when a semantic is created and when a
version is committed, and no later version removes it. What an index answers is
therefore a superset of what is visible anywhere, and each hit is looked at again
by whoever asks.
-/

namespace Bitemporal

/-- Lists of component numbers, filed under component numbers. -/
structure Postings where
  /-- What is filed under each key. -/
  table : Table Nid NidSet := .empty
deriving DecidableEq, Repr

namespace Postings

/-- The postings without keys. -/
def empty : Postings := {}

/-- What is filed under a key, if the key is there at all. -/
def get? (p : Postings) (key : Nid) : Option NidSet :=
  p.table.get? key

/-- What is filed under a key. -/
def members (p : Postings) (key : Nid) : NidSet :=
  (p.get? key).getD ∅

/-- Files a number under a key. -/
def insert (p : Postings) (key member : Nid) : Postings :=
  ⟨p.table.insert key ((p.members key).insert member)⟩

/-- The number of keys. -/
def size (p : Postings) : Nat :=
  p.table.size

/-- Whether there is no key. -/
def isEmpty (p : Postings) : Bool :=
  p.table.isEmpty

/-- Filing adds one number under one key. -/
theorem mem_members_insert {p : Postings} {key member key' x : Nid} :
    x ∈ (p.insert key member).members key' ↔ (key' = key ∧ x = member) ∨ x ∈ p.members key' := by
  unfold members get? insert
  rw [Table.get?_insert]
  by_cases h : key = key'
  · subst h
    simp [members, get?]
  · simp [h, Ne.symm h]

end Postings

/-- The indices of a store. -/
structure Index where
  /-- The semantics of each assemblage. -/
  byAssemblage : Postings := .empty
  /-- Per assemblage, the semantics about each component. -/
  byReferenced : Table Nid Postings := .empty
  /-- The semantics that hold each component number in a field. -/
  byValue : Postings := .empty
deriving DecidableEq, Repr

namespace Index

/-- The indices without entries. -/
def empty : Index := {}

/-- The semantics of an assemblage. -/
def ofAssemblage (i : Index) (assemblage : Nid) : NidSet :=
  i.byAssemblage.members assemblage

/-- The semantics of an assemblage about a component. -/
def referencing (i : Index) (assemblage referenced : Nid) : NidSet :=
  ((i.byReferenced.get? assemblage).getD .empty).members referenced

/-- The semantics that hold a component number in a field. -/
def holding (i : Index) (value : Nid) : NidSet :=
  i.byValue.members value

/-- Whether no semantic and no field is filed. -/
def isEmpty (i : Index) : Bool :=
  i.byAssemblage.isEmpty && i.byValue.isEmpty

/-- Files a semantic under its assemblage and under what it is about. -/
def addSemantic (i : Index) (semantic assemblage referenced : Nid) : Index :=
  let postings := (i.byReferenced.get? assemblage).getD .empty
  { i with
    byAssemblage := i.byAssemblage.insert assemblage semantic
    byReferenced := i.byReferenced.insert assemblage (postings.insert referenced semantic) }

/-- Files a semantic under component numbers that its fields hold. -/
def addValues (i : Index) (semantic : Nid) (values : List Nid) : Index :=
  { i with byValue := values.foldl (fun p value => p.insert value semantic) i.byValue }

end Index

end Bitemporal
