import GStore.KVstore.FreeRuns

/-! Values in the blocks of a manager: what is written is read back, the blocks of the live values and
the free runs share the file between them. -/
namespace GStore

open Lib Function List Option

namespace BlockManager

variable {kind : BlockKind}

def blocksFor (kind : BlockKind) (len : Nat) : Nat := (len + kind.dataSize - 1) / kind.dataSize

/-- The value is in the consecutive blocks from `index` on. -/
inductive Stored (kind : BlockKind) (file : Nat → Block) : Nat → List UInt8 → Prop
  | last {index str} : str ≠ [] → str.length ≤ kind.dataSize → (file index).next = 0 →
      (file index).lenLeft = str.length → (file index).data.take str.length = str → Stored kind file index str
  | more {index str} : kind.dataSize < str.length → (file index).next = index + 1 →
      (file index).lenLeft = str.length → (file index).data.take kind.dataSize = str.take kind.dataSize →
      Stored kind file (index + 1) (str.drop kind.dataSize) → Stored kind file index str

variable {str : List UInt8}

theorem blocksFor_last (filled : str ≠ []) (short : str.length ≤ kind.dataSize) :
    blocksFor kind str.length = 1 := by
  have positive := length_pos_iff.mpr filled
  unfold blocksFor
  rw [Nat.div_eq_iff kind.dataSize_pos]
  omega

theorem blocksFor_more (long : kind.dataSize < str.length) :
    blocksFor kind str.length = blocksFor kind (str.drop kind.dataSize).length + 1 := by
  have positive := kind.dataSize_pos
  unfold blocksFor
  rw [length_drop, ← Nat.add_div_right _ positive]
  congr 1
  omega

theorem blocksFor_pos {str : List UInt8} (filled : str ≠ []) : 0 < blocksFor kind str.length := by
  have positive := length_pos_iff.mpr filled
  exact Nat.div_pos (by omega) kind.dataSize_pos

theorem le_blocksFor (len : Nat) : len ≤ blocksFor kind len * kind.dataSize := by
  have positive := kind.dataSize_pos
  have bound := Nat.lt_div_mul_add positive (a := len + kind.dataSize - 1)
  unfold blocksFor
  omega

variable {index : Nat} {file : Nat → Block}

theorem Stored.filled (stored : Stored kind file index str) : str ≠ [] := by
  cases stored with
  | last filled => exact filled
  | more long => exact length_pos_iff.mp (by omega)

theorem Stored.lenLeft_eq (stored : Stored kind file index str) : (file index).lenLeft = str.length := by
  cases stored with
  | last _ _ _ same => exact same
  | more _ _ same => exact same

theorem Stored.congr {other : Nat → Block} (stored : Stored kind file index str)
    (same : ∀ b, Within (index, blocksFor kind str.length) b → other b = file b) : Stored kind other index str := by
  induction stored with
  | @last index str filled short ends left data =>
    have here := same index ⟨le_rfl, by rw [blocksFor_last filled short]; exact Nat.lt_succ_self _⟩
    exact .last filled short (here ▸ ends) (here ▸ left) (here ▸ data)
  | @more index str long next left data _ ih =>
    have count := blocksFor_more long
    have here := same index ⟨le_rfl, by simp only [count]; omega⟩
    refine .more long (here ▸ next) (here ▸ left) (here ▸ data) (ih fun b within => same b ?_)
    simp only [Within] at within ⊢
    omega

variable {nums : List Nat}

theorem writeBlocks_frame {b : Nat} (outside : b ∉ nums) : writeBlocks kind nums str file b = file b := by
  induction nums generalizing str file with
  | nil => rfl
  | cons p rest ih =>
    obtain ⟨differs, later⟩ := not_or.mp (mt mem_cons.mpr outside)
    rw [writeBlocks, ih later, update_of_ne differs]

theorem writeBlocks_head {p : Nat} {rest : List Nat} {str : List UInt8} {file : Nat → Block} (fresh : p ∉ rest) :
    writeBlocks kind (p :: rest) str file p = writeBlock kind (file p) (rest.headD 0) str := by
  rw [writeBlocks, writeBlocks_frame fresh, update_self]

theorem writeBlock_take {old : Block} {next : Nat} {str : List UInt8} :
    (writeBlock kind old next str).data.take (min kind.dataSize str.length) = str.take kind.dataSize := by
  have length : (str.take kind.dataSize).length = min kind.dataSize str.length := length_take
  rw [writeBlock, ← length]
  exact take_left

theorem writeBlocks_stored (filled : str ≠ []) (file : Nat → Block) :
    Stored kind (writeBlocks kind (List.range' index (blocksFor kind str.length)) str file) index str := by
  generalize count : blocksFor kind str.length = num
  induction num generalizing index str file with
  | zero => exact absurd count (blocksFor_pos filled).ne'
  | succ num ih =>
    have fresh : index ∉ List.range' (index + 1) num := by simp
    have here := @writeBlocks_head kind index (List.range' (index + 1) num) str file fresh
    rw [range'_succ]
    by_cases short : str.length ≤ kind.dataSize
    · have none : num = 0 := by
        have := blocksFor_last filled short
        omega
      subst none
      have taken := @writeBlock_take kind (file index) 0 str
      rw [Nat.min_eq_right short, take_of_length_le short] at taken
      exact .last filled short (by rw [here]; rfl) (by rw [here]; rfl) (by rw [here]; exact taken)
    · have long := Nat.lt_of_not_le short
      have rest : blocksFor kind (str.drop kind.dataSize).length = num := by
        have := blocksFor_more long
        omega
      have more : str.drop kind.dataSize ≠ [] := by
        rw [ne_eq, drop_eq_nil_iff]
        exact short
      have some : 0 < num := rest ▸ blocksFor_pos more
      have next : (List.range' (index + 1) num).headD 0 = index + 1 := by
        obtain ⟨m, rfl⟩ := Nat.exists_eq_add_of_lt some
        simp [range'_succ]
      have taken := @writeBlock_take kind (file index) (index + 1) str
      rw [Nat.min_eq_left long.le] at taken
      rw [next] at here
      refine .more long (by rw [here]; rfl) (by rw [here]; rfl) (by rw [here]; exact taken) ?_
      rw [writeBlocks]
      exact ih more _ rest

variable {bm : BlockManager kind}

theorem Stored.readBlocks_eq {turns : Nat}
    (stored : Stored kind bm.valueFile index str) (enough : blocksFor kind str.length ≤ turns) :
    bm.readBlocks turns index str.length = str := by
  induction stored generalizing turns with
  | @last index str filled short ends left data =>
    rw [blocksFor_last filled short] at enough
    obtain ⟨turns, rfl⟩ := Nat.exists_eq_add_of_le' enough
    simp [readBlocks, ends, Nat.min_eq_right short, data]
  | @more index str long next left data _ ih =>
    rw [blocksFor_more long] at enough
    obtain ⟨turns, rfl⟩ := Nat.exists_eq_add_of_le' (Nat.le_of_add_left_le enough)
    have rest := @ih turns (by omega)
    rw [length_drop] at rest
    have further : 0 < str.length - kind.dataSize := by omega
    simp [readBlocks, next, Nat.min_eq_left long.le, data, further, rest]

theorem Stored.readValue_eq
    (stored : Stored kind bm.valueFile index str) (positive : 0 < index) : bm.readValue index = some str := by
  have turns : blocksFor kind str.length ≤ str.length / kind.dataSize + 1 := by
    rw [blocksFor, ← Nat.add_div_right _ kind.dataSize_pos]
    exact Nat.div_le_div_right (by omega)
  simp only [readValue, if_neg positive.ne', stored.lenLeft_eq, stored.readBlocks_eq turns]

theorem Stored.chain_eq {turns : Nat}
    (stored : Stored kind bm.valueFile index str) (positive : 0 < index) (enough : blocksFor kind str.length < turns) :
    bm.chain turns index = List.range' index (blocksFor kind str.length) := by
  induction stored generalizing turns with
  | @last index str filled short ends left data =>
    rw [blocksFor_last filled short] at enough ⊢
    obtain ⟨turns, rfl⟩ := Nat.exists_eq_add_of_le' enough
    simp [chain, positive.ne', ends]
  | @more index str long next left data _ ih =>
    rw [blocksFor_more long] at enough ⊢
    obtain ⟨turns, rfl⟩ := Nat.exists_eq_add_of_le' (Nat.le_of_lt (Nat.lt_of_le_of_lt (Nat.le_add_left 1 _) enough))
    rw [chain, if_neg positive.ne', next, ih (Nat.succ_pos index) (by omega), range'_succ]

variable {bm : BlockManager kind}

theorem Stored.freeLoop_eq {index turns cur len : Nat} {str : List UInt8} {maps : FreeMaps}
    (stored : Stored kind bm.valueFile index str) (positive : 0 < index) (small : index + blocksFor kind str.length < 2 ^ 32)
    (run : cur + len = index + 1) (enough : blocksFor kind str.length < turns) :
    bm.freeLoop turns index cur len maps = some (maps.release cur (len + blocksFor kind str.length - 1)) := by
  induction stored generalizing turns len with
  | @last index str filled short ends left data =>
    rw [blocksFor_last filled short] at enough small ⊢
    obtain ⟨turns, rfl⟩ := Nat.exists_eq_add_of_le' enough
    have stops : (0 + 2 ^ 32 - index) % 2 ^ 32 ≠ 1 := by
      rw [Nat.mod_eq_of_lt (by omega)]
      omega
    simp only [freeLoop, if_neg positive.ne', ends, if_neg stops]
    simp
  | @more index str long next left data rest ih =>
    have further := @blocksFor_pos kind _ rest.filled
    rw [blocksFor_more long] at enough small ⊢
    obtain ⟨turns, rfl⟩ := Nat.exists_eq_add_of_le' (Nat.le_of_lt (Nat.lt_of_le_of_lt (Nat.le_add_left 1 _) enough))
    have goes : (index + 1 + 2 ^ 32 - index) % 2 ^ 32 = 1 := by omega
    have wrap : (len + 1) % 2 ^ 32 = len + 1 := Nat.mod_eq_of_lt (by omega)
    rw [freeLoop, if_neg positive.ne', next, if_pos goes, wrap,
      ih (Nat.succ_pos index) (by omega) (by omega) (by omega)]
    congr 2
    omega

theorem blockInfo_eq {base num : Nat} (small : base + num ≤ 2 ^ 32) : blockInfo base num = List.range' base num := by
  rw [blockInfo, range'_eq_map_range]
  apply map_congr_left
  intro i inside
  have := mem_range.mp inside
  exact Nat.mod_eq_of_lt (by omega)

theorem allocNum_eq {len : Nat} (typed : len + kind.dataSize ≤ kind.lenWord) (small : blocksFor kind len < 2 ^ 32) :
    allocNum kind len = blocksFor kind len := by
  have positive := kind.dataSize_pos
  rw [allocNum, Nat.mod_eq_of_lt (b := kind.lenWord) (by omega)]
  exact Nat.mod_eq_of_lt small

/-- A free run is long enough for the value, or `cur_block_num` can grow by what it needs and stay
below the limit. -/
def Room (bm : BlockManager kind) (limit len : Nat) : Prop :=
  (∃ r ∈ bm.free.byIndex, blocksFor kind len ≤ r.2) ∨ bm.curBlockNum + max (blocksFor kind len) (2 ^ 8) < limit

instance {bm : BlockManager kind} {limit len : Nat} : Decidable (bm.Room limit len) := inferInstanceAs (Decidable (_ ∨ _))

/-- What `getWhereToWrite` hands out: blocks that were free or are new. -/
structure Handout (bm next : BlockManager kind) (limit base num : Nat) : Prop where
  file : next.valueFile = bm.valueFile
  grows : bm.allocated ≤ next.allocated
  bounded : next.allocated < limit
  sound : next.free.Sound next.allocated
  positive : 0 < base
  inside : base + num ≤ next.allocated + 1
  covers : ∀ b, Covers next.free.byIndex b ↔
    (Covers bm.free.byIndex b ∨ bm.allocated < b ∧ b ≤ next.allocated) ∧ ¬ Within (base, num) b
  fresh : ∀ b, Within (base, num) b → Covers bm.free.byIndex b ∨ bm.allocated < b

theorem takeBlocks_spec {run : Nat × Nat} {num limit : Nat} (inType : limit ≤ 2 ^ 32)
    (fits : bm.free.Fits run bm.allocated) (bounded : bm.allocated < limit) (found : bm.free.findRun num = some run)
    (some : 0 < num) :
    ∃ next, bm.takeBlocks num = .some (List.range' run.1 num, next) ∧ bm.Handout next limit run.1 num := by
  obtain ⟨member, enough⟩ := fits.findRun_some found
  obtain ⟨positive, inside⟩ := fits.inside run member
  obtain ⟨sound, covers⟩ := fits.take_spec member some enough (bounded.trans_le inType)
  refine ⟨{ bm with free := bm.free.take run num }, ?_, ⟨rfl, le_rfl, bounded, sound, positive, by simp only; omega,
    fun b => ?_, fun b within => .inl ⟨run, member, ?_⟩⟩⟩
  · rw [takeBlocks, found, map_some, blockInfo_eq (by omega)]
  · rw [covers]
    have none : ¬ (bm.allocated < b ∧ b ≤ bm.allocated) := by omega
    simp only [none, or_false]
  · simp only [Within] at within ⊢
    omega

theorem takeBlocks_allocated {next : BlockManager kind} {num : Nat}
    (taken : bm.takeBlocks num = some (nums, next)) : next.allocated = bm.allocated := by
  obtain ⟨run, -, same⟩ := map_eq_some_iff.mp taken
  exact (congrArg (fun r => r.2.allocated) same).symm

theorem allocBlock_free {num : Nat} (some : 0 < num) (bounded : bm.allocated + 1 < 2 ^ 32) :
    bm.allocBlock num = { bm with allocated := bm.allocated + max num (2 ^ 8), free := bm.free.add (bm.allocated + 1) (max num (2 ^ 8)) } := by
  have cur : bm.curBlockNum = bm.allocated := Nat.mod_eq_of_lt (Nat.lt_of_succ_lt bounded)
  have wrap : (bm.allocated + 1) % 2 ^ 32 = bm.allocated + 1 := Nat.mod_eq_of_lt bounded
  simp only [allocBlock, if_neg some.ne', cur, wrap]

theorem takeNew_spec {num limit : Nat} (inType : limit ≤ 2 ^ 32)
    (sound : bm.free.Sound bm.allocated) (some : 0 < num) (lacking : ∀ r ∈ bm.free.byIndex, r.2 < num)
    (room : bm.allocated + max num (2 ^ 8) < limit) :
    ∃ next, (bm.allocBlock num).takeBlocks num = .some (List.range' (bm.allocated + 1) num, next) ∧
      bm.Handout next limit (bm.allocated + 1) num := by
  rw [allocBlock_free some (by omega)]
  generalize grown : max num (2 ^ 8) = len at room ⊢
  obtain ⟨fits, members⟩ := @FreeMaps.Sound.append bm.free len bm.allocated sound (by omega)
  have found := @FreeMaps.Sound.findRun_new bm.free len bm.allocated num sound some (by omega) lacking
  obtain ⟨next, taken, handed⟩ := @takeBlocks_spec kind
    { bm with allocated := bm.allocated + len, free := bm.free.add (bm.allocated + 1) len } (bm.allocated + 1, len) num
    limit inType fits room found some
  have same : next.allocated = bm.allocated + len := takeBlocks_allocated taken
  refine ⟨next, taken, handed.file, same ▸ Nat.le_add_right _ _, handed.bounded, handed.sound, handed.positive,
    handed.inside, fun b => ?_, fun b within => .inr within.1⟩
  have cover : Covers (bm.free.add (bm.allocated + 1) len).byIndex b ↔
      Covers bm.free.byIndex b ∨ bm.allocated < b ∧ b ≤ bm.allocated + len := by
    have new : Within (bm.allocated + 1, len) b ↔ bm.allocated < b ∧ b ≤ bm.allocated + len := by
      simp only [Within]
      omega
    simp only [Covers, members, ← new]
    constructor
    · rintro ⟨r, rfl | old, within⟩
      · exact .inr within
      · exact .inl ⟨r, old, within⟩
    · rintro (⟨r, old, within⟩ | within)
      · exact ⟨r, .inr old, within⟩
      · exact ⟨_, .inl rfl, within⟩
  have none : ¬ (bm.allocated + len < b ∧ b ≤ bm.allocated + len) := by omega
  have covers := handed.covers b
  simp only [same, none, or_false, cover] at covers
  rw [covers, same]

theorem getWhereToWrite_spec {len limit : Nat} (inType : limit ≤ 2 ^ 32)
    (sound : bm.free.Sound bm.allocated) (bounded : bm.allocated < limit) (typed : len + kind.dataSize ≤ kind.lenWord)
    (filled : 0 < len) (room : bm.Room limit len) :
    ∃ base next, bm.getWhereToWrite len = some (List.range' base (blocksFor kind len), next) ∧
      bm.Handout next limit base (blocksFor kind len) := by
  have some : 0 < blocksFor kind len := Nat.div_pos (by omega) kind.dataSize_pos
  have small : blocksFor kind len < 2 ^ 32 := by
    rcases room with ⟨r, there, enough⟩ | grows
    · have := sound.inside r there
      omega
    · omega
  simp only [getWhereToWrite, allocNum_eq typed small]
  cases found : bm.free.findRun (blocksFor kind len) with
  | some run =>
    obtain ⟨next, taken, handed⟩ := takeBlocks_spec inType (sound.fits run) bounded found some
    exact ⟨run.1, next, by rw [taken], handed⟩
  | none =>
    have lacking := (sound.fits (0, 0)).findRun_none found
    have grows : bm.allocated + max (blocksFor kind len) (2 ^ 8) < limit := by
      rcases room with ⟨r, there, enough⟩ | grows
      · exact absurd enough (Nat.not_le_of_lt (lacking r there))
      · rwa [curBlockNum, Nat.mod_eq_of_lt (bounded.trans_le inType)] at grows
    have missing : bm.takeBlocks (blocksFor kind len) = none := by rw [takeBlocks, found, map_none]
    obtain ⟨next, taken, handed⟩ := takeNew_spec inType sound some lacking grows
    exact ⟨bm.allocated + 1, next, by rw [missing, taken], handed⟩

/-- `live` gives the value written at an index. The free runs and the blocks of the live values have no
block in common and together are all blocks; the two maps agree; the values are in their blocks. -/
structure Exclusive (bm : BlockManager kind) (live : Nat → Option (List UInt8)) : Prop where
  bounded : bm.allocated < 2 ^ 32
  sound : bm.free.Sound bm.allocated
  stored : ∀ i v, live i = some v → Stored kind bm.valueFile i v
  inside : ∀ i v, live i = some v → 0 < i ∧ i + blocksFor kind v.length ≤ bm.allocated + 1
  covered : ∀ b, 0 < b → b ≤ bm.allocated →
    Covers bm.free.byIndex b ∨ ∃ i v, live i = some v ∧ Within (i, blocksFor kind v.length) b
  notFree : ∀ i v b, live i = some v → Within (i, blocksFor kind v.length) b → ¬ Covers bm.free.byIndex b
  notShared : ∀ i v j w b, live i = some v → live j = some w → Within (i, blocksFor kind v.length) b →
    Within (j, blocksFor kind w.length) b → i = j

variable {live : Nat → Option (List UInt8)} {v : List UInt8}

theorem Exclusive.mem_chain (exclusive : bm.Exclusive live) {i b : Nat} (lives : live i = some v) :
    b ∈ bm.chain (2 ^ 32) i ↔ Within (i, blocksFor kind v.length) b := by
  obtain ⟨positive, inside⟩ := exclusive.inside i v lives
  have bounded := exclusive.bounded
  rw [(exclusive.stored i v lives).chain_eq positive (by omega), mem_range'_1, Within]

theorem Exclusive.used (exclusive : bm.Exclusive live)
    {i b : Nat} (lives : live i = some v) (within : Within (i, blocksFor kind v.length) b) :
    0 < b ∧ b ≤ bm.allocated := by
  have := exclusive.inside i v lives
  simp only [Within] at within
  omega

theorem Exclusive.free_inside (exclusive : bm.Exclusive live)
    {b : Nat} (covered : Covers bm.free.byIndex b) : 0 < b ∧ b ≤ bm.allocated := by
  obtain ⟨r, there, within⟩ := covered
  have := exclusive.sound.inside r there
  simp only [Within] at within
  omega

theorem live_update_cases {i j : Nat} {new : Option (List UInt8)} {w : List UInt8}
    (lives : Function.update live i new j = some w) : j = i ∧ new = some w ∨ j ≠ i ∧ live j = some w := by
  obtain rfl | same := eq_or_ne j i
  · rw [update_self] at lives
    exact .inl ⟨rfl, lives⟩
  · rw [update_of_ne same] at lives
    exact .inr ⟨same, lives⟩

section Write

variable {bm next : BlockManager kind} {live : Nat → Option (List UInt8)} {limit base num : Nat}

variable (exclusive : bm.Exclusive live)
include exclusive

theorem Exclusive.apart (handed : bm.Handout next limit base num) {i b : Nat} {v : List UInt8}
    (lives : live i = some v) (within : Within (i, blocksFor kind v.length) b) : ¬ Within (base, num) b := by
  intro taken
  rcases handed.fresh b taken with free | new
  · exact exclusive.notFree i v b lives within free
  · exact absurd (exclusive.used lives within).2 (Nat.not_le_of_lt new)

theorem Exclusive.vacant (handed : bm.Handout next limit base num) (some : 0 < num) : live base = none := by
  cases lives : live base with
  | none => rfl
  | some v =>
    have filled := @blocksFor_pos kind v (exclusive.stored base v lives).filled
    refine absurd ?_ (@Exclusive.apart kind bm next live limit base num exclusive handed base base v lives ?_)
    · simp only [Within]
      omega
    · simp only [Within]
      omega

theorem Exclusive.extend (filled : str ≠ [])
    (inType : limit ≤ 2 ^ 32) (handed : bm.Handout next limit base (blocksFor kind str.length)) :
    ({ next with valueFile := writeBlocks kind (List.range' base (blocksFor kind str.length)) str next.valueFile } :
      BlockManager kind).Exclusive (Function.update live base (some str)) := by
  have vacant := exclusive.vacant handed (blocksFor_pos filled)
  refine ⟨handed.bounded.trans_le inType, handed.sound, fun i v lives => ?_, fun i v lives => ?_, fun b positive inside => ?_,
    fun i v b lives within free => ?_, fun i v j w b livesLeft livesRight left right => ?_⟩
  · rcases live_update_cases lives with ⟨rfl, same⟩ | ⟨differs, old⟩
    · cases Option.some.inj same
      exact writeBlocks_stored filled _
    · refine (exclusive.stored i v old).congr fun b within => ?_
      have outside : b ∉ List.range' base (blocksFor kind str.length) := by
        rw [mem_range'_1]
        exact exclusive.apart handed old within
      exact (writeBlocks_frame outside).trans (congrFun handed.file b)
  · rcases live_update_cases lives with ⟨rfl, same⟩ | ⟨differs, old⟩
    · cases Option.some.inj same
      exact ⟨handed.positive, handed.inside⟩
    · obtain ⟨positive, inside⟩ := exclusive.inside i v old
      exact ⟨positive, inside.trans (Nat.succ_le_succ handed.grows)⟩
  · by_cases taken : Within (base, blocksFor kind str.length) b
    · exact .inr ⟨base, str, update_self .., taken⟩
    by_cases old : b ≤ bm.allocated
    · rcases exclusive.covered b positive old with free | ⟨i, v, lives, within⟩
      · exact .inl ((handed.covers b).mpr ⟨.inl free, taken⟩)
      · have differs : i ≠ base := fun same => by
          rw [same, vacant] at lives
          cases lives
        exact .inr ⟨i, v, by rw [update_of_ne differs, lives], within⟩
    · exact .inl ((handed.covers b).mpr ⟨.inr ⟨Nat.lt_of_not_le old, inside⟩, taken⟩)
  · obtain ⟨before, outside⟩ := (handed.covers b).mp free
    rcases live_update_cases lives with ⟨rfl, same⟩ | ⟨differs, old⟩
    · cases Option.some.inj same
      exact outside within
    · rcases before with free | new
      · exact exclusive.notFree i v b old within free
      · exact absurd (exclusive.used old within).2 (Nat.not_le_of_lt new.1)
  · rcases live_update_cases livesLeft with ⟨rfl, sameLeft⟩ | ⟨differsLeft, oldLeft⟩
    · rcases live_update_cases livesRight with ⟨rfl, -⟩ | ⟨differsRight, oldRight⟩
      · rfl
      · cases Option.some.inj sameLeft
        exact absurd left (exclusive.apart handed oldRight right)
    · rcases live_update_cases livesRight with ⟨rfl, sameRight⟩ | ⟨differsRight, oldRight⟩
      · cases Option.some.inj sameRight
        exact absurd right (exclusive.apart handed oldLeft left)
      · exact exclusive.notShared i v j w b oldLeft oldRight left right

end Write

theorem writeValue_spec {limit : Nat}
    (inType : limit ≤ 2 ^ 32) (exclusive : bm.Exclusive live) (below : bm.allocated < limit) (filled : str ≠ [])
    (typed : str.length + kind.dataSize ≤ kind.lenWord) (room : bm.Room limit str.length) :
    ∃ i next, bm.writeValue str = some (i, next) ∧ 0 < i ∧ live i = none ∧ next.allocated < limit ∧
      next.Exclusive (Function.update live i (some str)) := by
  obtain ⟨base, next, handedOut, handed⟩ := getWhereToWrite_spec inType exclusive.sound below typed
    (length_pos_iff.mpr filled) room
  have some := @blocksFor_pos kind str filled
  have fits : ¬ (List.range' base (blocksFor kind str.length)).length * kind.dataSize < str.length := by
    rw [length_range']
    exact Nat.not_lt_of_le (le_blocksFor _)
  have head : (List.range' base (blocksFor kind str.length)).head? = .some base := by
    rw [head?_range', if_neg some.ne']
  refine ⟨base, { next with valueFile := writeBlocks kind (List.range' base (blocksFor kind str.length)) str next.valueFile },
    ?_, handed.positive, exclusive.vacant handed some, handed.bounded, exclusive.extend filled inType handed⟩
  simp only [writeValue, handedOut, bind_some, if_neg fits, head, map_some]

theorem freeBlocks_spec {i : Nat}
    (exclusive : bm.Exclusive live) (lives : live i = some v) (small : i + blocksFor kind v.length < 2 ^ 32) :
    ∃ next, bm.freeBlocks i = some next ∧ next.allocated = bm.allocated ∧
      next.Exclusive (Function.update live i none) := by
  obtain ⟨positive, inside⟩ := exclusive.inside i v lives
  have stored := exclusive.stored i v lives
  have some := @blocksFor_pos kind v stored.filled
  have disjoint : ∀ r ∈ bm.free.byIndex, r.1 + r.2 ≤ i ∨ i + blocksFor kind v.length ≤ r.1 := by
    intro r there
    by_contra overlap
    have := exclusive.sound.separated.filled r there
    refine exclusive.notFree i v (max i r.1) lives ?_ ⟨r, there, ?_⟩ <;> simp only [Within] <;> omega
  obtain ⟨sound, covers⟩ := FreeMaps.release_spec exclusive.sound positive some small exclusive.bounded inside disjoint
  have loop := @Stored.freeLoop_eq kind bm i (2 ^ 32 + 1) i 1 v bm.free stored positive small rfl (by omega)
  rw [Nat.add_sub_cancel_left] at loop
  -- a value that is still live was live before, at another index
  have old : ∀ j w, Function.update live i none j = .some w → j ≠ i ∧ live j = .some w := by
    intro j w still
    rcases live_update_cases still with ⟨-, gone⟩ | before
    · cases gone
    · exact before
  refine ⟨{ bm with free := bm.free.release i (blocksFor kind v.length) }, ?_, rfl, exclusive.bounded, sound,
    fun j w still => exclusive.stored j w (old j w still).2, fun j w still => exclusive.inside j w (old j w still).2,
    fun b positiveB below => ?_, fun j w b still within free => ?_, fun j w k x b left right => ?_⟩
  · simp only [freeBlocks, if_neg positive.ne', loop, map_some]
  · rcases exclusive.covered b positiveB below with free | ⟨j, w, livesToo, within⟩
    · exact .inl ((covers b).mpr (.inr free))
    obtain rfl | same := eq_or_ne j i
    · cases Option.some.inj (lives.symm.trans livesToo)
      exact .inl ((covers b).mpr (.inl within))
    · exact .inr ⟨j, w, by rw [update_of_ne same, livesToo], within⟩
  · obtain ⟨differs, before⟩ := old j w still
    rcases (covers b).mp free with gone | free
    · exact differs (exclusive.notShared j w i v b before lives within gone)
    · exact exclusive.notFree j w b before within free
  · exact exclusive.notShared j w k x b (old j w left).2 (old k x right).2

inductive BlockCall where
  | writeValue (str : List UInt8)
  | freeBlocks (index : Nat)

structure Ledger (kind : BlockKind) where
  manager : BlockManager kind
  live : Nat → Option (List UInt8)

namespace Ledger

def build (kind : BlockKind) (keynum : Nat) : Ledger kind := ⟨BlockManager.build kind keynum, fun _ => none⟩

def step (s : Ledger kind) : BlockCall → Option (Ledger kind)
  | .writeValue str => (s.manager.writeValue str).map fun (index, next) => ⟨next, Function.update s.live index (some str)⟩
  | .freeBlocks index => (s.manager.freeBlocks index).map fun next => ⟨next, Function.update s.live index none⟩

def allowed (s : Ledger kind) : BlockCall → Prop
  | .writeValue str => str ≠ []
  | .freeBlocks index => s.live index ≠ none

/-- The numbers of the blocks stay in the type: a value finds room below `2 ^ 32`, and the last block
of a value to be freed is not the last `unsigned` (the end mark 0 would pass for its successor). -/
def numbered (s : Ledger kind) : BlockCall → Prop
  | .writeValue str => str.length + kind.dataSize ≤ kind.lenWord ∧ s.manager.Room (2 ^ 32) str.length
  | .freeBlocks index => ∀ v ∈ s.live index, index + blocksFor kind v.length ≠ 2 ^ 32

structure Partitioned (s : Ledger kind) : Prop where
  blocks : ∀ b, 0 < b ∧ b ≤ s.manager.curBlockNum ↔ Covers s.manager.free.byIndex b ∨
    ∃ i v, s.live i = some v ∧ b ∈ s.manager.chain (2 ^ 32) i
  freeOrLive : ∀ b i v, Covers s.manager.free.byIndex b → s.live i = some v → b ∉ s.manager.chain (2 ^ 32) i
  oneOwner : ∀ b i v j w, s.live i = some v → s.live j = some w → b ∈ s.manager.chain (2 ^ 32) i →
    b ∈ s.manager.chain (2 ^ 32) j → i = j
  sameRuns : ∀ index len, toLex (len, index) ∈ s.manager.free.byLen ↔ (index, len) ∈ s.manager.free.byIndex
  notAdjacent : Separated s.manager.free.byIndex
  readBack : ∀ i v, s.live i = some v → s.manager.readValue i = some v

instance (s : Ledger kind) (c : BlockCall) : Decidable (s.allowed c) :=
  match c with
  | .writeValue str => inferInstanceAs (Decidable (str ≠ []))
  | .freeBlocks index => inferInstanceAs (Decidable (s.live index ≠ none))

instance (s : Ledger kind) (c : BlockCall) : Decidable (s.numbered c) :=
  match c with
  | .writeValue _ => inferInstanceAs (Decidable (_ ∧ _))
  | .freeBlocks index => inferInstanceAs (Decidable (∀ v ∈ s.live index, index + blocksFor kind v.length ≠ 2 ^ 32))

theorem build_exclusive {keynum : Nat} (typed : keynum < 2 ^ 32) :
    (build kind keynum).manager.Exclusive (build kind keynum).live := by
  have empty : (FreeMaps.mk [] []).Sound 0 :=
    ⟨⟨List.Pairwise.nil, by simp, by simp⟩, List.Pairwise.nil, by simp, by simp⟩
  generalize grown : max (2 ^ 8) keynum = len
  have built : BlockManager.build kind keynum =
      ⟨len, (FreeMaps.mk [] []).add 1 len, fun _ => ⟨0, 0, []⟩⟩ := by
    have some : 0 < len := by omega
    have wider : max len (2 ^ 8) = len := by omega
    rw [BlockManager.build, grown, allocBlock_free some (by decide : 0 + 1 < 2 ^ 32)]
    simp only [wider, Nat.zero_add]
  obtain ⟨fits, members⟩ := @FreeMaps.Sound.append ⟨[], []⟩ len 0 empty (by omega)
  have only : ∀ r, r ∈ ((FreeMaps.mk [] []).add 1 len).byIndex ↔ r = (1, len) := fun r =>
    (members r).trans (or_iff_left not_mem_nil)
  simp only [build, built]
  refine ⟨by simp only; omega, ⟨⟨fits.ordered, fits.filled, fun r left s right below => ?_⟩, fits.sorted, fits.mirrored,
    fun r there => ?_⟩, by simp, by simp, fun b positive inside => .inl ⟨(1, len), (only _).mpr rfl, ?_⟩, by simp, by simp⟩
  · rw [(only r).mp left, (only s).mp right] at below
    exact absurd below (lt_irrefl _)
  · rw [(only r).mp there]
    simp only
    omega
  · simp only [Within]
    simp only at inside
    omega

variable {s : Ledger kind}

theorem step_exclusive {c : BlockCall} (exclusive : s.manager.Exclusive s.live) (allowed : s.allowed c)
    (numbered : s.numbered c) : ∃ t, s.step c = some t ∧ t.manager.Exclusive t.live := by
  cases c with
  | writeValue str =>
    obtain ⟨i, next, written, -, -, -, kept⟩ := writeValue_spec le_rfl exclusive exclusive.bounded allowed numbered.1 numbered.2
    exact ⟨⟨next, Function.update s.live i (some str)⟩, by simp [step, written, map_some], kept⟩
  | freeBlocks index =>
    obtain ⟨v, lives⟩ := ne_none_iff_exists'.mp allowed
    have := exclusive.inside index v lives
    have := exclusive.bounded
    have := numbered v lives
    obtain ⟨next, freed, -, kept⟩ := freeBlocks_spec exclusive lives (by omega)
    exact ⟨⟨next, Function.update s.live index none⟩, by simp [step, freed, map_some], kept⟩

theorem partitioned_of_exclusive (exclusive : s.manager.Exclusive s.live) : s.Partitioned := by
  have cur : s.manager.curBlockNum = s.manager.allocated := Nat.mod_eq_of_lt exclusive.bounded
  refine ⟨fun b => ⟨fun inside => ?_, ?_⟩, fun b i v free lives member => ?_, fun b i v j w left right inLeft inRight => ?_,
    exclusive.sound.mirrored, exclusive.sound.separated, fun i v lives => ?_⟩
  · rw [cur] at inside
    rcases exclusive.covered b inside.1 inside.2 with free | ⟨i, v, lives, within⟩
    · exact .inl free
    · exact .inr ⟨i, v, lives, (exclusive.mem_chain lives).mpr within⟩
  · rw [cur]
    rintro (free | ⟨i, v, lives, member⟩)
    · exact exclusive.free_inside free
    · exact exclusive.used lives ((exclusive.mem_chain lives).mp member)
  · exact exclusive.notFree i v b lives ((exclusive.mem_chain lives).mp member) free
  · exact exclusive.notShared i v j w b left right ((exclusive.mem_chain left).mp inLeft) ((exclusive.mem_chain right).mp inRight)
  · exact (exclusive.stored i v lives).readValue_eq (exclusive.inside i v lives).1

/-- As long as the block numbers stay in their type, the free runs and the chains of the live values
share out the blocks in every state, and every live value is read back. -/
theorem calls_keep_partition (kind : BlockKind) (keynum : Nat) (typed : keynum < 2 ^ 32) (calls : List BlockCall)
    (guarded : Guarded step (fun s c => s.allowed c ∧ s.numbered c) (build kind keynum) calls) (n : Nat) :
    ∃ s, run step (build kind keynum) (calls.take n) = some s ∧ s.Partitioned := by
  have keeps : ∀ (s : Ledger kind) c, s.manager.Exclusive s.live → s.allowed c ∧ s.numbered c →
      ∃ t, s.step c = some t ∧ t.manager.Exclusive t.live :=
    fun s c exclusive met => step_exclusive exclusive met.1 met.2
  obtain ⟨s, reached, exclusive⟩ := run_guarded keeps (build_exclusive typed) (guarded.take n)
  exact ⟨s, reached, partitioned_of_exclusive exclusive⟩

theorem partition_of_reused_block :
    ∃ s, run step (build ivBlocks 1000) [.writeValue [1], .writeValue [2, 3], .freeBlocks 1, .writeValue [4]] = some s ∧
      s.Partitioned :=
  calls_keep_partition ivBlocks 1000 (by decide)
    [.writeValue [1], .writeValue [2, 3], .freeBlocks 1, .writeValue [4]] (by decide +kernel) 4

theorem write_wraps {num : Nat} (count : allocNum kind str.length = num) (more : 256 < num)
    (enough : str.length ≤ num * kind.dataSize) (wraps : 256 + num = 2 ^ 32) :
    ∃ s, step (build kind 256) (.writeValue str) = some s ∧ s.manager.curBlockNum = 0 ∧ s.live 257 = some str := by
  have sound : (BlockManager.build kind 256).free.Sound 256 := (@build_exclusive kind 256 (by decide)).sound
  have short : ∀ r ∈ (BlockManager.build kind 256).free.byIndex, r.2 < num := by
    intro r there
    rw [mem_singleton.mp there]
    exact more
  have missing : (BlockManager.build kind 256).takeBlocks num = none := by
    cases found : (BlockManager.build kind 256).free.findRun num with
    | none => rw [takeBlocks, found, map_none]
    | some run =>
      obtain ⟨member, fitting⟩ := (sound.fits run).findRun_some found
      exact absurd fitting (Nat.not_le_of_lt (short run member))
  have grown := @allocBlock_free kind (BlockManager.build kind 256) num (by omega) (by decide : 256 + 1 < 2 ^ 32)
  have start : (BlockManager.build kind 256).allocated = 256 := rfl
  rw [show max num (2 ^ 8) = num by omega, start] at grown
  have found := @FreeMaps.Sound.findRun_new _ num 256 num sound (by omega) le_rfl short
  obtain ⟨next, given, total⟩ : ∃ next, (BlockManager.build kind 256).getWhereToWrite str.length = some (blockInfo 257 num, next) ∧
      next.allocated = 256 + num := by
    simp only [getWhereToWrite, count, missing, grown]
    rw [takeBlocks, found]
    exact ⟨_, rfl, rfl⟩
  have holds : ¬ (blockInfo 257 num).length * kind.dataSize < str.length := by
    rw [blockInfo, length_map, length_range]
    exact Nat.not_lt_of_le enough
  have head : (blockInfo 257 num).head? = some 257 := by
    rw [blockInfo, head?_map, head?_range, if_neg (by omega)]
    rfl
  obtain ⟨last, written, same⟩ : ∃ last, (BlockManager.build kind 256).writeValue str = some (257, last) ∧
      last.allocated = next.allocated := by
    simp only [writeValue, given, bind_some, if_neg holds, head, map_some]
    exact ⟨_, rfl, rfl⟩
  refine ⟨⟨last, Function.update (build kind 256).live 257 (some str)⟩, ?_, ?_, ?_⟩
  · simp [step, build, written, map_some]
  · rw [curBlockNum, same, total, wraps, Nat.mod_self]
  · simp [update_self]

/-- One value of 1047971957760 bytes in a new manager. -/
theorem last_block_wraps : ∃ s, run step (build ivBlocks 256) [.writeValue (List.replicate (244 * (2 ^ 32 - 256)) 0)] = some s ∧
    (build ivBlocks 256).allowed (.writeValue (List.replicate (244 * (2 ^ 32 - 256)) 0)) ∧ ¬ s.Partitioned := by
  have length : (List.replicate (244 * (2 ^ 32 - 256)) (0 : UInt8)).length = 244 * (2 ^ 32 - 256) := length_replicate
  generalize List.replicate (244 * (2 ^ 32 - 256)) (0 : UInt8) = str at length ⊢
  have count : allocNum ivBlocks str.length = 2 ^ 32 - 256 := by
    rw [length]
    decide
  obtain ⟨s, written, cur, lives⟩ := write_wraps count (by decide) (by rw [length]; decide) (by decide)
  refine ⟨s, run_cons.mpr ⟨s, written, rfl⟩, fun empty => ?_, fun whole => ?_⟩
  · rw [empty] at length
    exact absurd length (by decide)
  · have chained : 257 ∈ s.manager.chain (4294967295 + 1) 257 := by
      rw [chain, if_neg (by decide)]
      exact mem_cons_self
    have inside := (whole.blocks 257).mpr (.inr ⟨257, str, lives, chained⟩)
    rw [cur] at inside
    exact absurd inside.2 (by decide)

end Ledger
end BlockManager
end GStore
