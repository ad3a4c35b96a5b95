/-
This file models the dynamic values the codecs share, and how the repeated names of an object are
merged: by scanning a small object, by sorting the members of a large one by name.
-/

import ZeroServer.Http1.Types
import ZeroServer.Lib.Binary64
import ZeroServer.Lib.Utf8

namespace ZeroServer.Json

open Http1 Lib

/-- A dynamically typed value; strings are text. -/
inductive Value where
  | null
  | bool (flag : Bool)
  | int (number : Int64)
  | float (number : Binary64)
  | str (text : List Char)
  | bytes (octets : Bytes)
  | array (items : List Value)
  | object (members : List (List Char × Value))

/-- An object or an array. -/
def Value.isContainer : Value → Bool
  | .object _ | .array _ => true
  | _ => false

/-! ### Repeated names -/

abbrev Member := List Char × Value

/-- The member count up to which repeated names are found by scanning. -/
def scannedMembers : Nat := 16

/-- Give a name its latest value, in the place it has or at the end. -/
def mergeMember (merged : List Member) (member : Member) : List Member :=
  match merged.findIdx? fun existing => existing.1 = member.1 with
  | some place => merged.modify place fun kept => (kept.1, member.2)
  | none => merged ++ [member]

/-- Names in the order of their bytes, the ones of later members behind. -/
def nameOrder (members : List Member) (left right : Nat) : Bool :=
  let nameAt := fun index => ((members[index]?).map fun member => Utf8.encode member.1).getD []
  decide (nameAt left < nameAt right ∨ (nameAt left = nameAt right ∧ left ≤ right))

/-- The places of the members by name, those of one name together. -/
def nameGroups (members : List Member) : List (List Nat) :=
  let nameAt := fun index => (members[index]?).map Prod.fst
  ((List.range members.length).mergeSort (nameOrder members)).splitBy
    fun left right => nameAt left = nameAt right

/-- Swap the values of two members. -/
def swapValues (members : List Member) (places : Nat × Nat) : List Member :=
  match members[places.1]?, members[places.2]? with
  | some kept, some latest =>
    if places.1 < places.2 then
      (members.set places.1 (kept.1, latest.2)).set places.2 (latest.1, kept.2)
    else members
  | _, _ => members

/-- The first and the last place of a group of more than one. -/
def repeats (group : List Nat) : Option (Nat × Nat) :=
  match group.head?, group.getLast? with
  | some first, some last => if first = last then none else some (first, last)
  | _, _ => none

/-- The members of an object with every repeated name merged. -/
def mergeRepeated (members : List Member) : List Member :=
  if members.length ≤ scannedMembers then members.foldl mergeMember []
  else
    let groups := nameGroups members
    let dropped := (groups.filter fun group => (repeats group).isSome).flatMap List.tail
    let swapped := (groups.filterMap repeats).foldl swapValues members
    (swapped.zipIdx.filter fun entry => entry.2 ∉ dropped).map Prod.fst

end ZeroServer.Json
