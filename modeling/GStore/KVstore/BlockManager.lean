import GStore.Lib.Runs
import GStore.Lib.Run
import Mathlib.Data.Prod.Lex
import Mathlib.Logic.Function.Basic

/-! `IVBlockManager` and `ISBlockManager`: values in chains of blocks of a file, with the free runs
of blocks in a map by index and in a set by length. The two classes are one text with different
block and length types. Numbers of blocks are `unsigned`, so sums are taken modulo `2 ^ 32`. -/
namespace GStore

open Lib

/-- `BLOCK_DATA_SIZE`, the modulus of the type of value lengths, and the length above which the
array over the manager keeps values out of its cache (`VList::LENGTH_BORDER`). -/
structure BlockKind where
  dataSize : Nat
  lenWord : Nat
  border : Option Nat
  dataSize_pos : 0 < dataSize
  dataSize_lt : dataSize ≤ 2 ^ 8
  word_le : 2 ^ 32 ≤ lenWord

def ivBlocks : BlockKind := ⟨244, 2 ^ 64, some 1000000, by decide, by decide, by decide⟩
def isBlocks : BlockKind := ⟨120, 2 ^ 32, none, by decide, by decide, by decide⟩

/-- A block of the value file: the index of the next block (0 at the end), the number of bytes from
this block on, and the data bytes written so far. -/
structure Block where
  next : Nat
  lenLeft : Nat
  data : List UInt8

/-- `index_len_map` and `len_index_map`. -/
structure FreeMaps where
  byIndex : List (Nat × Nat)
  byLen : List (Nat ×ₗ Nat)
  deriving DecidableEq

/-- `allocated` counts the blocks ever asked for; `cur_block_num` is what `unsigned` keeps of it. -/
structure BlockManager (kind : BlockKind) where
  allocated : Nat
  free : FreeMaps
  valueFile : Nat → Block

namespace FreeMaps

variable (f : FreeMaps) (index len : Nat)

def add : FreeMaps :=
  ⟨assign index len f.byIndex, insertSorted (toLex (len, index)) f.byLen⟩

def erase : FreeMaps :=
  ⟨eraseKey index f.byIndex, f.byLen.filter fun r => r ≠ toLex (len, index)⟩

/-- The two merges and the insertion of `FreeBlocks` for one run of consecutive blocks. -/
def mergeBefore : FreeMaps × Nat × Nat :=
  match entryBefore index f.byIndex with
  | none => (f, index, len)
  | some run =>
    if (run.1 + run.2) % 2 ^ 32 = index then (f.erase run.1 run.2, run.1, (len + run.2) % 2 ^ 32)
    else (f, index, len)

def mergeAfter : FreeMaps × Nat :=
  match entryAfter index f.byIndex with
  | none => (f, len)
  | some run =>
    if (len + index) % 2 ^ 32 = run.1 then (f.erase run.1 run.2, (len + run.2) % 2 ^ 32)
    else (f, len)

def release : FreeMaps :=
  let (f, index, len) := f.mergeBefore index len
  let (f, len) := f.mergeAfter index len
  ⟨enter index len f.byIndex, insertSorted (toLex (len, index)) f.byLen⟩

def findRun (num : Nat) : Option (Nat × Nat) :=
  (f.byLen.find? fun r => toLex (num, 0) ≤ r).map fun r => ((ofLex r).2, (ofLex r).1)

/-- Take the first `num` blocks of a run: the rest is entered before the old run is erased. -/
def take (run : Nat × Nat) (num : Nat) : FreeMaps :=
  let f' := if 0 < run.2 - num then f.add ((run.1 + num) % 2 ^ 32) (run.2 - num) else f
  f'.erase run.1 run.2

end FreeMaps

namespace BlockManager

variable {kind : BlockKind} (bm : BlockManager kind)

def curBlockNum : Nat := bm.allocated % 2 ^ 32

def allocBlock (len : Nat) : BlockManager kind :=
  if len = 0 then bm
  else
    let allocLen := max len (2 ^ 8)
    { bm with
      allocated := bm.allocated + allocLen
      free := bm.free.add ((bm.curBlockNum + 1) % 2 ^ 32) allocLen }

def build (kind : BlockKind) (keynum : Nat) : BlockManager kind :=
  allocBlock ⟨0, ⟨[], []⟩, fun _ => ⟨0, 0, []⟩⟩ (max (2 ^ 8) keynum)

/-- `AllocNum`: the blocks for `len` bytes, as the length type and `unsigned` compute it. -/
def allocNum (kind : BlockKind) (len : Nat) : Nat :=
  (len + kind.dataSize - 1) % kind.lenWord / kind.dataSize % 2 ^ 32

def blockInfo (base num : Nat) : List Nat := (List.range num).map fun i => (base + i) % 2 ^ 32

def takeBlocks (num : Nat) : Option (List Nat × BlockManager kind) :=
  (bm.free.findRun num).map fun run =>
    (blockInfo run.1 num, { bm with free := bm.free.take run num })

/-- A result `none` is a recursion without end: nothing is free and nothing was allocated. -/
def getWhereToWrite (len : Nat) : Option (List Nat × BlockManager kind) :=
  let num := allocNum kind len
  match bm.takeBlocks num with
  | some found => some found
  | none => (bm.allocBlock num).takeBlocks num

def writeBlock (kind : BlockKind) (old : Block) (next : Nat) (str : List UInt8) : Block :=
  ⟨next, str.length, str.take kind.dataSize ++ old.data.drop (str.take kind.dataSize).length⟩

def writeBlocks (kind : BlockKind) : List Nat → List UInt8 → (Nat → Block) → Nat → Block
  | [], _, file => file
  | p :: rest, str, file =>
    writeBlocks kind rest (str.drop kind.dataSize)
      (Function.update file p (writeBlock kind (file p) (rest.headD 0) str))

/-- The index is 0 when the blocks do not hold the value; `none` also stands for the access through
the null pointer when there is nothing to write. -/
def writeValue (str : List UInt8) : Option (Nat × BlockManager kind) :=
  (bm.getWhereToWrite str.length).bind fun (nums, bm) =>
    let bm := { bm with valueFile := writeBlocks kind nums str bm.valueFile }
    if nums.length * kind.dataSize < str.length then some (0, bm) else nums.head?.map fun first =>
      (first, bm)

/-- The loop of `ReadValue`; each turn but the last reads a full block, which bounds the turns. -/
def readBlocks (bm : BlockManager kind) : Nat → Nat → Nat → List UInt8
  | 0, _, _ => []
  | turns + 1, block, left =>
    let bits := min kind.dataSize left
    let b := bm.valueFile block
    b.data.take bits ++ if 0 < b.next ∧ 0 < left - bits then bm.readBlocks turns b.next
    (left - bits) else []

def readValue (index : Nat) : Option (List UInt8) :=
  if index = 0 then none
  else
    let len := (bm.valueFile index).lenLeft
    some (bm.readBlocks (len / kind.dataSize + 1) index len)

/-- The loop of `FreeBlocks`: `index` is the block it is at, `cur` and `len` the run collected so
far. There are only `2 ^ 32` indexes, so a walk of more turns never ends. -/
def freeLoop (bm : BlockManager kind) : Nat → Nat → Nat → Nat → FreeMaps → Option FreeMaps
  | 0, _, _, _, _ => none
  | turns + 1, index, cur, len, maps =>
    if index = 0 then some maps
    else
      let next := (bm.valueFile index).next
      if (next + 2 ^ 32 - index) % 2 ^ 32 = 1 then bm.freeLoop turns next cur
        ((len + 1) % 2 ^ 32) maps
      else bm.freeLoop turns next next 0 (maps.release cur len)

def freeBlocks (index : Nat) : Option (BlockManager kind) :=
  if index = 0 then some bm
  else (bm.freeLoop (2 ^ 32 + 1) index index 1 bm.free).map fun maps => { bm with free := maps }

def chain (bm : BlockManager kind) : Nat → Nat → List Nat
  | 0, _ => []
  | turns + 1, index => if index = 0 then [] else index :: bm.chain turns (bm.valueFile index).next

end BlockManager
end GStore
