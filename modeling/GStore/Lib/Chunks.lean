import GStore.Lib.Sorted
import Mathlib.Data.Set.Basic

/-! One pass over a sorted list with repetitions that collects the members of one key and stores
them when the key changes, looking at the next member only. -/
namespace GStore.Lib
open List

variable {σ κ τ : Type} [LinearOrder τ]

structure Collected (key : τ → κ) (chunk rest : List τ) : Prop where
  increasing : Increasing chunk
  before : ∀ u ∈ chunk, ∀ v ∈ rest, u < v
  sorted : rest.Pairwise (· ≤ ·)
  same : ∀ u ∈ chunk, ∃ v ∈ rest.head?, key u = key v

theorem collected_nil {key : τ → κ} {rest : List τ} (sorted : rest.Pairwise (· ≤ ·)) :
    Collected key [] rest :=
  ⟨List.Pairwise.nil, by simp, sorted, by simp⟩

section Step

variable {key : τ → κ} {chunk ts : List τ} {t : τ} (collected : Collected key chunk (t :: ts))
include collected

theorem Collected.tail_sorted : ts.Pairwise (· ≤ ·) := (pairwise_cons.mp collected.sorted).2

theorem Collected.push : Increasing (chunk ++ [t]) ∧ ∀ u ∈ chunk ++ [t], key u = key t := by
  constructor
  · refine pairwise_append.mpr ⟨collected.increasing, pairwise_singleton _ _, ?_⟩
    intro u member v last
    exact collected.before u member v (by simp_all)
  · intro u member
    rcases mem_append.mp member with inside | last
    · simpa using collected.same u inside
    · rw [mem_singleton.mp last]

theorem Collected.above (differs : ts.head? ≠ some t) :
    ∀ v ∈ ts, ∃ n ∈ ts.head?, t < n ∧ n ≤ v := by
  obtain ⟨first, sorted⟩ := pairwise_cons.mp collected.sorted
  intro v hv
  cases ts with
  | nil => cases hv
  | cons n ns =>
    have less : t < n := lt_of_le_of_ne (first n (by simp)) fun equal => differs (by simp [equal])
    rcases mem_cons.mp hv with rfl | hv
    · exact ⟨v, rfl, less, le_refl v⟩
    · exact ⟨n, rfl, less, (pairwise_cons.mp sorted).1 v hv⟩

theorem Collected.skip (again : ts.head? = some t) : Collected key chunk ts where
  increasing := collected.increasing
  before u hu v hv := collected.before u hu v (mem_cons_of_mem t hv)
  sorted := collected.tail_sorted
  same u hu := ⟨t, again, collected.push.2 u (mem_append_left _ hu)⟩

theorem Collected.stay (differs : ts.head? ≠ some t) {n : τ} (next : n ∈ ts.head?)
    (stays : key n = key t) :
    Collected key (chunk ++ [t]) ts where
  increasing := collected.push.1
  before u hu v hv := by
    obtain ⟨n, -, less, le⟩ := collected.above differs v hv
    rcases mem_append.mp hu with inside | last
    · exact collected.before u inside v (mem_cons_of_mem t hv)
    · exact mem_singleton.mp last ▸ less.trans_le le
  sorted := collected.tail_sorted
  same u hu := ⟨n, next, (collected.push.2 u hu).trans stays.symm⟩

end Step

variable [LinearOrder κ]

/-- `chunk` has what has been collected for the key of the next member; of equal members the last
one counts. -/
def storeChunks (key : τ → κ) (store : σ → κ → List τ → σ) : σ → List τ → List τ → σ
  | s, _, [] => s
  | s, chunk, t :: ts =>
    if ts.head? = some t then storeChunks key store s chunk ts
    else if ts.head?.all fun u => decide (key u ≠ key t) then
      storeChunks key store (store s (key t) (chunk ++ [t])) [] ts
    else storeChunks key store s (chunk ++ [t]) ts

theorem storeChunks_stores {key : τ → κ} {store : σ → κ → List τ → σ} (mono : Monotone key)
    {Good : σ → Set τ → Prop}
    {valid : τ → Prop} (stores : ∀ s D x chunk, Good s D → (∀ u ∈ D, key u ≠ x) →
      (∀ u ∈ chunk, valid u) → chunk ≠ [] →
      Increasing chunk → (∀ u ∈ chunk, key u = x) → Good (store s x chunk) (D ∪ {u | u ∈ chunk}))
    {s : σ} {D : Set τ} {chunk ts : List τ} (good : Good s D) (collected : Collected key chunk ts)
    (fresh : ∀ u ∈ D, ∀ v ∈ ts, key u ≠ key v) (all_valid : ∀ v ∈ chunk ++ ts, valid v) :
    Good (storeChunks key store s chunk ts) (D ∪ {u | u ∈ chunk ++ ts}) := by
  induction ts generalizing s D chunk with
  | nil =>
    have empty : chunk = [] := eq_nil_iff_forall_not_mem.mpr fun u member => by
      simpa using collected.same u member
    simpa [storeChunks, empty] using good
  | cons t ts ih =>
    obtain ⟨increasing, own⟩ := collected.push
    have later : ∀ u ∈ D, ∀ v ∈ ts, key u ≠ key v :=
      fun u hu v hv => fresh u hu v (mem_cons_of_mem t hv)
    have pushed_valid : ∀ v ∈ chunk ++ [t] ++ ts, valid v := by simpa using all_valid
    have rest_valid : ∀ v ∈ [] ++ ts, valid v := fun v hv => pushed_valid v (mem_append_right _ hv)
    have old_valid : ∀ v ∈ chunk ++ ts, valid v := fun v hv => all_valid v (by
      rcases mem_append.mp hv with inside | later
      · exact mem_append_left _ inside
      · exact mem_append_right _ (mem_cons_of_mem t later))
    unfold storeChunks
    split
    · rename_i again
      have first : t ∈ ts := mem_of_mem_head? again
      refine cast (congrArg _ (Set.ext fun u => ?_))
        (ih good (collected.skip again) later old_valid)
      by_cases same : u = t <;> simp [same, first]
    · rename_i differs
      split
      · rename_i changes
        have passed : ∀ v ∈ ts, key t < key v := by
          intro v hv
          obtain ⟨n, head, less, le⟩ := collected.above differs v hv
          have other : key n ≠ key t := by
            rw [Option.mem_def.mp head] at changes
            simpa using changes
          exact lt_of_lt_of_le (lt_of_le_of_ne (mono less.le) other.symm) (mono le)
        have stored := stores s D (key t) (chunk ++ [t]) good (fun u hu => fresh u hu t (by simp))
          (fun u hu => pushed_valid u (mem_append_left _ hu)) (by simp) increasing own
        refine cast (congrArg _ (Set.ext fun u => ?_))
          (ih stored (collected_nil collected.tail_sorted) ?_ rest_valid)
        · simp [or_assoc]
        · rintro u (old | new) v hv
          · exact later u old v hv
          · exact own u new ▸ (passed v hv).ne
      · rename_i stays
        obtain ⟨n, next, same⟩ : ∃ n ∈ ts.head?, key n = key t := by
          simpa [Option.all_eq_true] using stays
        refine cast (congrArg _ (Set.ext fun u => ?_))
          (ih good (collected.stay differs next same) later pushed_valid)
        simp

end GStore.Lib
