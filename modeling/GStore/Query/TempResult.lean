import GStore.Lib.QuickSort
import GStore.Query.Varset
import GStore.KVstore.Layout

/-! `TempResult`: rows with id columns and string columns, their order, and the copying and converting of columns. -/
namespace GStore.Results

open Lib

variable {V : Type}

structure ResultPair where
  id : List Nat
  str : List String
  deriving DecidableEq, Repr, Inhabited

structure TempResult (V : Type) where
  idVarset : Varset V
  strVarset : Varset V
  result : List ResultPair

inductive Cell where
  | id (n : Nat)
  | str (s : String)
  deriving DecidableEq, Repr

def Cell.compare : Cell → Cell → Ordering
  | .id m, .id n => Ord.compare m n
  | .str s, .str t => Ord.compare s t
  | _, _ => .eq

def ResultPair.cell (row : ResultPair) (idCols p : Nat) : Cell :=
  if p < idCols then .id (row.id.getD p 0) else .str (row.str.getD (p - idCols) "")

def compareRow (x : ResultPair) (xIdCols : Nat) (xPos : List Nat) (y : ResultPair) (yIdCols : Nat) (yPos : List Nat) :
    Ordering :=
  (xPos.zip yPos).foldr (fun (px, py) rest => ((x.cell xIdCols px).compare (y.cell yIdCols py)).then rest) .eq

variable [DecidableEq V]

namespace TempResult

def getAllVarset (a : TempResult V) : Varset V := a.idVarset + a.strVarset

def idCols (a : TempResult V) : Nat := a.idVarset.size

def sort (a : TempResult V) (pos : List Nat) : TempResult V :=
  { a with result := quickSortList (fun x y => compareRow x a.idCols pos y a.idCols pos == .lt) a.result }

def convertId2Str (term : V → Nat → String) (a : TempResult V) (convert : Varset V) : TempResult V where
  idVarset := a.idVarset - convert
  strVarset := a.strVarset + convert
  result := a.result.map fun row =>
    ⟨Varset.copyTo (a.idVarset.mapTo (a.idVarset - convert)) row.id (List.replicate (a.idVarset - convert).size 0),
      row.str ++ (a.idVarset.vars.zip row.id).filterMap fun (v, id) =>
        if v ∈ a.idVarset - convert then none else some (term v id)⟩

def placeRow (a r : TempResult V) (row : ResultPair) : ResultPair :=
  ⟨Varset.copyTo (a.idVarset.mapTo r.idVarset) row.id (List.replicate r.idVarset.size 0),
    Varset.copyTo (a.strVarset.mapTo r.strVarset) row.str (List.replicate r.strVarset.size "")⟩

end TempResult

def strVarsets (as : List (TempResult V)) : Varset V := as.foldl (fun s a => s + a.strVarset) ∅

end GStore.Results
