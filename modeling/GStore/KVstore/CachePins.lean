import GStore.KVstore.CacheOps

/-! The functions that `IVArray` and `ISArray` share pin no entry. -/
namespace GStore

open Lib Option

namespace CacheArray

variable {kind : BlockKind}

def Unpinned (a : CacheArray kind) : Prop := ∀ k, (a.entry k).pinned = false

section Pins

variable {a b : CacheArray kind} {key len : Nat} {str : List UInt8}

theorem Unpinned.setEntry {e : CacheEntry} (free : a.Unpinned) (unpinned : e.pinned = false) :
    (a.setEntry key e).Unpinned := by
  intro k
  by_cases here : k = key
  · rw [here, setEntry_self]
    exact unpinned
  · rw [setEntry_ne here]
    exact free k

theorem writeOut_unpinned (free : a.Unpinned) (written : a.writeOut key = some b) : b.Unpinned := by
  obtain ⟨⟨store, manager⟩, -, rfl⟩ := map_eq_some_iff.mp written
  exact Unpinned.setEntry (a := a.setManager manager) free (free key)

theorem swapOut_unpinned (free : a.Unpinned) (swapped : a.swapOut = some b) : b.Unpinned := by
  unfold swapOut at swapped
  split at swapped
  · cases swapped
  · rename_i target first
    obtain ⟨c, out, rest⟩ := bind_eq_some_iff.mp swapped
    have freeC : c.Unpinned := by
      split at out
      · exact writeOut_unpinned (by exact free) out
      · cases Option.some.inj out
        exact free
    split at rest
    · cases rest
    · cases Option.some.inj rest
      exact freeC.setEntry (freeC target)

theorem makeRoom_unpinned {turns : Nat} (free : a.Unpinned) (made : makeRoom turns a len = some b) :
    b.Unpinned := by
  induction turns generalizing a with
  | zero => cases made
  | succ turns ih =>
    unfold makeRoom at made
    split at made
    · obtain ⟨c, swapped, rest⟩ := bind_eq_some_iff.mp made
      exact ih (swapOut_unpinned free swapped) rest
    · cases Option.some.inj made
      exact free

theorem addInCache_unpinned (free : a.Unpinned) (added : a.addInCache key str = some b) :
    b.Unpinned := by
  unfold addInCache at added
  split at added
  · cases Option.some.inj added
    exact free
  · obtain ⟨c, made, rfl⟩ := map_eq_some_iff.mp added
    have freeC := makeRoom_unpinned free made
    exact Unpinned.setEntry (a := (c.setQueue (c.lru.pushBack key)).addSize str.length) freeC
      (freeC key)

theorem writeLong_unpinned {ok : Bool} (free : a.Unpinned)
    (written : a.writeLong key str = some (ok, b)) : b.Unpinned := by
  obtain ⟨⟨store, manager⟩, -, same⟩ := map_eq_some_iff.mp written
  dsimp only at same
  split at same
  · cases same
    exact free
  · cases same
    exact Unpinned.setEntry (a := a.setManager manager) free (free key)

theorem search_unpinned {found : Option (List UInt8)} (free : a.Unpinned)
    (searched : a.search key = some (found, b)) : b.Unpinned := by
  unfold search at searched
  split at searched
  · cases searched
    exact free
  split at searched
  · cases searched
  split at searched
  · cases searched
    exact free
  split at searched
  · obtain ⟨c, moved, same⟩ := map_eq_some_iff.mp searched
    cases same
    unfold updateTime at moved
    rw [if_neg (by simp [free key])] at moved
    obtain ⟨lru, -, rfl⟩ := map_eq_some_iff.mp moved
    exact free
  split at searched
  · cases searched
    exact free
  split at searched
  · cases searched
    exact free
  · obtain ⟨c, added, same⟩ := map_eq_some_iff.mp searched
    cases same
    exact addInCache_unpinned free added

theorem insert_unpinned {ok : Bool} (free : a.Unpinned)
    (inserted : a.insert key str = some (ok, b)) : b.Unpinned := by
  have freeB : (a.expand key).Unpinned := fun k => by rw [expand_entry]; exact free k
  unfold insert at inserted
  split at inserted
  · cases inserted
  split at inserted
  · cases inserted
    exact free
  split at inserted
  · cases inserted
    exact free
  obtain ⟨⟨stored, c⟩, done, same⟩ := map_eq_some_iff.mp inserted
  have freeC : c.Unpinned := by
    split at done
    · exact writeLong_unpinned (Unpinned.setEntry freeB (by exact freeB key)) done
    · obtain ⟨d, added, same⟩ := map_eq_some_iff.mp done
      cases same
      exact addInCache_unpinned freeB added
  cases same
  split
  · exact freeC.setEntry (freeC key)
  · exact freeC

theorem saveEntry_unpinned (free : a.Unpinned) (saved : a.saveEntry key = some b) : b.Unpinned := by
  unfold saveEntry at saved
  split at saved
  · cases saved
  split at saved
  · cases saved
    exact free
  obtain ⟨c, out, rfl⟩ := map_eq_some_iff.mp saved
  have freeC : c.Unpinned := by
    split at out
    · exact writeOut_unpinned free out
    · cases out
      exact free
  exact freeC.setEntry (freeC key)

theorem saveEntries_unpinned {keys : List Nat} (free : a.Unpinned)
    (saved : keys.foldlM saveEntry a = some b) : b.Unpinned := by
  induction keys generalizing a with
  | nil =>
    cases saved
    exact free
  | cons key keys ih =>
    rw [List.foldlM_cons] at saved
    obtain ⟨c, first, rest⟩ := bind_eq_some_iff.mp saved
    exact ih (saveEntry_unpinned free first) rest

theorem save_unpinned (free : a.Unpinned) (saved : a.save = some b) : b.Unpinned := by
  obtain ⟨c, done, rfl⟩ := map_eq_some_iff.mp saved
  have freeC : c.Unpinned := saveEntries_unpinned (by split <;> exact free) done
  exact freeC

theorem reopen_unpinned {bufferSize : Nat} (opened : a.reopen bufferSize = some b) :
    b.Unpinned := by
  unfold reopen at opened
  split at opened
  · cases opened
  · cases opened
    intro k
    dsimp only
    split <;> rfl

theorem discard_unpinned (free : a.Unpinned) (discarded : a.discard key = some b) : b.Unpinned := by
  rw [discard_eq (free key)] at discarded
  obtain ⟨manager, -, rfl⟩ := map_eq_some_iff.mp discarded
  refine Unpinned.setEntry (fun k => ?_) rfl
  have same : ((a.dequeue key).setManager manager).entry = a.entry := dequeue_entry a key
  rw [same]
  exact free k

theorem access_unpinned (free : a.Unpinned) (accessed : a.access key = some b) : b.Unpinned := by
  unfold access at accessed
  split at accessed
  · cases accessed
  split at accessed <;> cases accessed <;> exact free

end Pins
end CacheArray
end GStore
