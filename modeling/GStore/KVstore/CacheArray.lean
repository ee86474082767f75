import GStore.KVstore.BlockStore
import GStore.KVstore.IVArray
import GStore.Lib.Links

/-! `IVArray` and `ISArray` with their caches: a value is in memory, in the block file or in both.
The two classes share all but `remove`, `modify` and `PinCache`. A result `none` is an access
outside the entries (an index from `2 ^ 31` on is negative as an `int`) or an exception. -/
namespace GStore

open Lib

structure CacheEntry where
  store : Nat
  value : Option (List UInt8)
  used : Bool
  dirty : Bool
  cached : Bool
  pinned : Bool

def CacheEntry.init : CacheEntry := ⟨0, none, false, true, false, false⟩

def CacheEntry.len (e : CacheEntry) : Nat := (e.value.getD []).length

/-- `IVfile` (the number of entries and their store indexes) and the words of `FreeBlockList`. -/
structure ArrayFiles where
  entryNum : Nat
  store : Nat → Nat
  freeBlockList : List Nat

/-- `entryNum` is `array_.getEntryNum()`, which can run ahead of `CurEntryNum`. -/
structure CacheArray (kind : BlockKind) where
  entry : Nat → CacheEntry
  entryNum : Nat
  curEntryNum : Nat
  curEntryNumChange : Bool
  lru : LinkedList Nat
  curCacheSize : Nat
  maxCacheSize : Nat
  manager : BlockManager kind
  files : ArrayFiles

abbrev IVCache := CacheArray ivBlocks
abbrev ISCache := CacheArray isBlocks

namespace CacheArray

variable {kind : BlockKind}

def blocksUpTo (key : Nat) : Nat := (key / entryBlockSize + 1) * entryBlockSize

def build (kind : BlockKind) (bufferSize keyNum : Nat) : CacheArray kind :=
  { entry := fun _ => CacheEntry.init, entryNum := blocksUpTo keyNum, curEntryNum := blocksUpTo keyNum,
    curEntryNumChange := true, lru := LinkedList.empty, curCacheSize := 0, maxCacheSize :=
      bufferSize,
    manager := BlockManager.build kind (blocksUpTo keyNum), files := ⟨0, fun _ => 0, []⟩ }

variable (a : CacheArray kind)

def setEntry (key : Nat) (e : CacheEntry) : CacheArray kind :=
  { a with entry := Function.update a.entry key e }

def setManager (manager : BlockManager kind) : CacheArray kind := { a with manager := manager }

def setQueue (lru : LinkedList Nat) : CacheArray kind := { a with lru := lru }

def addSize (len : Nat) : CacheArray kind :=
  { a with curCacheSize := (a.curCacheSize + len) % 2 ^ 32 }

def subSize (len : Nat) : CacheArray kind :=
  { a with curCacheSize := (a.curCacheSize + (2 ^ 32 - len % 2 ^ 32)) % 2 ^ 32 }

def access (key : Nat) : Option (CacheArray kind) :=
  if maxKeyNum ≤ key then none
  else if key < a.entryNum then some a
  else some { a with entryNum := blocksUpTo key }

/-- `WriteValue` of the entry's value into new blocks; the old ones, if any, are not given back. -/
def writeOut (key : Nat) : Option (CacheArray kind) :=
  (a.manager.writeValue ((a.entry key).value.getD [])).map fun (store, manager) =>
    (a.setManager manager).setEntry key { a.entry key with store := store }

/-- `none` also stands for the result false, on which the only caller throws. -/
def swapOut : Option (CacheArray kind) :=
  match a.lru.head with
  | none => none
  | some target =>
    let b := (a.setQueue (a.lru.popFront target)).subSize (a.entry target).len
    (if (a.entry target).dirty then b.writeOut target else some b).bind fun c =>
      if (a.entry target).dirty ∧ (c.entry target).store = 0 then none
      else some (c.setEntry target { c.entry target with value := none, cached := false })

def makeRoom : Nat → CacheArray kind → Nat → Option (CacheArray kind)
  | 0, _, _ => none
  | turns + 1, a, len =>
    if a.maxCacheSize < (a.curCacheSize + len) % kind.lenWord then a.swapOut.bind fun b =>
      makeRoom turns b len
    else some a

def addInCache (key : Nat) (str : List UInt8) : Option (CacheArray kind) :=
  if a.maxCacheSize < str.length then some a
  else
    (makeRoom (maxKeyNum + 1) a str.length).map fun b =>
      ((b.setQueue (b.lru.pushBack key)).addSize str.length).setEntry key
        { b.entry key with value := some str, cached := true }

def updateTime (key : Nat) : Option (CacheArray kind) :=
  if (a.entry key).pinned then some a else (a.lru.moveToBack key).map a.setQueue

def removeFromLRUQueue (key : Nat) : CacheArray kind :=
  if !(a.entry key).cached || (a.entry key).pinned then a
  else (a.setQueue (a.lru.unlink key)).setEntry key { a.entry key with cached := false }

/-- `VList::isLongList` takes the length as an `unsigned`. -/
def isLongList (kind : BlockKind) (len : Nat) : Bool :=
  kind.border.any fun border => decide (border < len % 2 ^ 32)

def search (key : Nat) : Option (Option (List UInt8) × CacheArray kind) :=
  if a.curEntryNum ≤ key then some (none, a)
  else if maxKeyNum ≤ key then none
  else if !(a.entry key).used then some (none, a)
  else if (a.entry key).cached then (a.updateTime key).map fun b => ((a.entry key).value, b)
  else
    match a.manager.readValue (a.entry key).store with
    | none => some (none, a)
    | some str =>
      if isLongList kind str.length then some (some str, a) else (a.addInCache key str).map fun b =>
        (some str, b)

def expand (key : Nat) : CacheArray kind :=
  if key < a.curEntryNum then a
  else
    let num := max a.entryNum (blocksUpTo key)
    { a with entryNum := num, curEntryNum := num, curEntryNumChange := true }

def writeLong (key : Nat) (str : List UInt8) : Option (Bool × CacheArray kind) :=
  (a.manager.writeValue str).map fun (store, manager) =>
    if store = 0 then (false, a.setManager manager)
    else (true, (a.setManager manager).setEntry key { a.entry key with store := store })

def insert (key : Nat) (str : List UInt8) : Option (Bool × CacheArray kind) :=
  if key < a.curEntryNum ∧ maxKeyNum ≤ key then none
  else if key < a.curEntryNum ∧ (a.entry key).used then some (false, a)
  else if maxKeyNum ≤ key then some (false, a)
  else
    let b := a.expand key
    (if isLongList kind str.length then
        (b.setEntry key { b.entry key with value := none }).writeLong key str
     else (b.addInCache key str).map fun c => (true, c)).map fun (ok, c) =>
      (ok, if ok then c.setEntry key { c.entry key with used := true, dirty := true } else c)

def saveEntry (key : Nat) : Option (CacheArray kind) :=
  if maxKeyNum ≤ key then none
  else if !(a.entry key).dirty then some a
  else
    (if (a.entry key).used ∧ (a.entry key).value.isSome then a.writeOut key else some a).map
        fun b =>
      { b.setEntry key { b.entry key with dirty := false } with
        files := { b.files with store := Function.update b.files.store key (b.entry key).store } }

def freeBlockWords (manager : BlockManager kind) : List Nat :=
  manager.curBlockNum :: manager.free.byIndex.flatMap (fun r => [r.1, r.2]) ++ [0]

def save : Option (CacheArray kind) :=
  let started := if a.curEntryNumChange then
    { a with files := { a.files with entryNum := a.curEntryNum }, curEntryNumChange := false } else
      a
  ((List.range a.curEntryNum).foldlM saveEntry started).map fun b =>
    let words := freeBlockWords b.manager
    { b with files := { b.files with freeBlockList := words ++ b.files.freeBlockList.drop words.length } }

def readFree : List Nat → FreeMaps → FreeMaps
  | index :: len :: rest, maps =>
    if index = 0 then maps
    else readFree rest ⟨enter index len maps.byIndex, insertSorted (toLex (len, index)) maps.byLen⟩
  | _, maps => maps

def reopen (bufferSize : Nat) : Option (CacheArray kind) :=
  if maxKeyNum < a.files.entryNum then none
  else
    let num := blocksUpTo (a.files.entryNum - 1)
    some
      { entry := fun key =>
          if key < a.files.entryNum then
            { CacheEntry.init with store := a.files.store key, dirty := false, used := decide (0 < a.files.store key) }
          else CacheEntry.init
        entryNum := num, curEntryNum := num, curEntryNumChange := false, lru :=
          LinkedList.empty, curCacheSize := 0,
        maxCacheSize := bufferSize, files := a.files,
        manager := ⟨a.files.freeBlockList.headD 0, readFree a.files.freeBlockList.tail ⟨[], []⟩,
            a.manager.valueFile⟩ }

/-- The end of both `remove` functions: blocks, flags, place in the queue and memory of a used
entry. -/
def discard (key : Nat) : Option (CacheArray kind) :=
  (a.manager.freeBlocks (a.entry key).store).map fun manager =>
    let b := (a.setManager manager).setEntry key
      { a.entry key with used := false, dirty := true, store := 0 }
    let c := if (a.entry key).cached then (b.removeFromLRUQueue key).subSize
      (a.entry key).len else b
    c.setEntry key { c.entry key with value := none, cached := false, pinned := false }

end CacheArray

namespace IVCache

open CacheArray

variable (a : IVCache)

/-- There is no test of the key against `CurEntryNum`. -/
def remove (key : Nat) : Option (Bool × IVCache) :=
  (a.access key).bind fun b => if !(b.entry key).used then some (false, b) else
    (b.discard key).map fun c => (true, c)

/-- What `modify` gives up of the old value: its place in the queue, its blocks and its memory. -/
def giveUp (key : Nat) : Option IVCache :=
  let b := if (a.entry key).cached then (a.removeFromLRUQueue key) else a
  let pinned := (a.entry key).pinned && !(a.entry key).cached
  (b.manager.freeBlocks (a.entry key).store).map fun manager =>
    let c := (b.setManager manager).setEntry key
      { b.entry key with dirty := true, value := none, pinned := pinned }
    if (a.entry key).cached then c.subSize (a.entry key).len else c

def modify (key : Nat) (str : List UInt8) : Option (Bool × IVCache) :=
  (a.access key).bind fun b =>
    if !(b.entry key).used then some (false, b)
    else
      (giveUp b key).bind fun c =>
        (if isLongList ivBlocks str.length then
          (c.writeLong key str).map fun (ok, d) =>
            (ok, if ok then d.setEntry key { d.entry key with cached := false } else d)
         else ((c.setEntry key { c.entry key with store := 0 }).addInCache key str).map fun d =>
             (true, d)).map fun (ok, d) =>
          (ok, if ok then d.setEntry key { d.entry key with used := true, dirty := true } else d)

def pinCache (key : Nat) : Option IVCache :=
  if a.curEntryNum ≤ key then some a
  else if maxKeyNum ≤ key then none
  else if !(a.entry key).used then some a
  else if (a.entry key).cached then
    let b := a.removeFromLRUQueue key
    some (b.setEntry key { b.entry key with pinned := true })
  else
    match a.manager.readValue (a.entry key).store with
    | none => some a
    | some str =>
      some (a.setEntry key { a.entry key with value := some str, cached := true, pinned := true })

end IVCache

namespace ISCache

open CacheArray

def remove (a : ISCache) (key : Nat) : Option (Bool × ISCache) :=
  if a.curEntryNum ≤ key then some (false, a)
  else if maxKeyNum ≤ key then none
  else if !(a.entry key).used then some (false, a)
  else (a.discard key).map fun b => (true, b)

/-- What `modify` gives up of the old value. The store index stays as it was when its blocks are
freed. -/
def giveUp (a : ISCache) (key : Nat) : Option ISCache :=
  let b := a.setEntry key { a.entry key with dirty := true }
  let c := if (a.entry key).cached then
    ((b.removeFromLRUQueue key).subSize (a.entry key).len) else b
  let d := if (a.entry key).cached then c.setEntry key
    { c.entry key with value := none, cached := false } else c
  (d.manager.freeBlocks (a.entry key).store).map d.setManager

def modify (a : ISCache) (key : Nat) (str : List UInt8) : Option (Bool × ISCache) :=
  if a.curEntryNum ≤ key then some (false, a)
  else if maxKeyNum ≤ key then none
  else if !(a.entry key).used then some (false, a)
  else (giveUp a key).bind fun b => (b.addInCache key str).map fun c => (true, c)

end ISCache
end GStore
