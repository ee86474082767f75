import GStore.Lib.Sorted
import Mathlib.Data.Prod.Lex
import Mathlib.Data.Nat.Basic
import Mathlib.Data.ENat.Basic

/-! `Version`: the additions and deletions one transaction makes at one key, with the timestamps
that say who may see them. A `VDataSet` is an ordered `std::set` of pairs, kept as its increasing
list. -/
namespace GStore
open Lib

/-- `TYPE_TXN_ID`; `⊤` is `INVALID_TS`, the largest value. -/
abbrev Timestamp := WithTop Nat

abbrev VData := Nat ×ₗ Nat
abbrev VDataSet := List VData

/-- The membership tests on pairs find this instance first, whatever else a module imports. -/
instance VData.instLawfulBEq : LawfulBEq VData := inferInstance

structure Version where
  beginTs : Timestamp
  endTs : Timestamp
  adds : List VData
  dels : List VData
  deriving DecidableEq

def Version.dummy : Version := ⟨(0 : Nat), ⊤, [], []⟩

def Version.fresh (tid : Timestamp) : Version := ⟨⊤, tid, [], []⟩

def Version.add (v : Version) (p : VData) : Version := { v with adds := v.adds ++ [p] }
def Version.remove (v : Version) (p : VData) : Version := { v with dels := v.dels ++ [p] }

variable (sets : VDataSet × VDataSet)

def mergeAdd (p : VData) : VDataSet × VDataSet :=
  if p ∈ sets.2 then (sets.1, sets.2.erase p) else (insertSorted p sets.1, sets.2)

def mergeDel (p : VData) : VDataSet × VDataSet :=
  if p ∈ sets.1 then (sets.1.erase p, sets.2) else (sets.1, insertSorted p sets.2)

def pending (q : VData) : Option Bool :=
  if q ∈ sets.1 then some true else if q ∈ sets.2 then some false else none

def Version.getVersion (v : Version) (sets : VDataSet × VDataSet) : VDataSet × VDataSet :=
  v.dels.foldl mergeDel (v.adds.foldl mergeAdd sets)

end GStore
