import GStore.KVstore.KeyLists
import Mathlib.Data.Finset.Sort
import Mathlib.Data.Finset.Image

/-! The index reads of `KVstore`. Outside and inside a transaction a read decodes the list of its
key in the same way; the two differ in where the list comes from (`getValueByKey`, or the base list
merged with the visible versions), so the reads take the lists of the keys as a parameter `values`.
The return value `false` is `none`. -/
namespace GStore
open Lib List Triple

variable (k : Side)

def predicatesIn (tmp : List Nat) : List Nat := (List.range' 0 (word tmp 1)).map (preAt k tmp)

def membersIn (tmp : List Nat) : List Nat := copyWords tmp (k.base + 2 * word tmp 1) (endOf k tmp)

def sublistOf (tmp : List Nat) (preid : Nat) : Option (List Nat) :=
  (binarySearch preid (preAt k tmp) (word tmp 1)).map fun result =>
    copyWords tmp (offAt k tmp result) (nextOff k tmp result)

def removeDuplicate : List Nat → List Nat
  | [] => []
  | [x] => [x]
  | x :: y :: l => if x ≠ y then x :: removeDuplicate (y :: l) else removeDuplicate (y :: l)

def sortIds (ids : List Nat) (noDuplicate : Bool) : List Nat :=
  if noDuplicate then removeDuplicate (ids.mergeSort (· ≤ ·)) else ids.mergeSort (· ≤ ·)

def flattenPairs (ps : List VData) : List Nat := ps.flatMap fun q => [(ofLex q).1, (ofLex q).2]

/-- What a read of pairs hands out: `_list_len` is the `unsigned` `2 * _tmp[0]`. -/
def pairList (tmp : List Nat) (ps : List VData) : List Nat :=
  (flattenPairs ps).take (2 * word tmp 0 % 2 ^ 32)

/-- The loop of `getpreIDlistBysubIDobjID` over the common predicates. `_result` goes on from one
predicate to the next, and an entry that the code marks with `INVALID` is left out. -/
def keepPredicates (tmp : List Nat) (objid : Nat) : List Nat → Nat → List Nat
  | [], _ => []
  | preid :: list, start =>
    let result := start + ((List.range' start (word tmp 1 - start)).takeWhile
      fun j => decide (preAt .sub tmp j ≠ preid)).length
    if result = word tmp 1 then []
    else
      let offset := offAt .sub tmp result
      if binarySearch objid (fun j => word tmp (offset + j)) (nextOff .sub tmp result - offset) =
        none then
        keepPredicates tmp objid list result
      else preid :: keepPredicates tmp objid list result

section Reads

variable (values : Key → Option (List Nat))

def getpreIDlistBysubID (subid : Nat) (_noDuplicate : Bool) : Option (List Nat) :=
  if !isEntityEle subid then none else (values ⟨.subject, subid⟩).map (predicatesIn .sub)

def getobjIDlistBysubID (subid : Nat) (noDuplicate : Bool) : Option (List Nat) :=
  if !isEntityEle subid then none else (values ⟨.subject, subid⟩).map fun tmp => sortIds
    (membersIn .sub tmp) noDuplicate

def getobjIDlistBysubIDpreID (subid preid : Nat) (_noDuplicate : Bool) : Option (List Nat) :=
  if !isEntityEle subid then none else (values ⟨.subject, subid⟩).bind fun tmp =>
    sublistOf .sub tmp preid

def getpreIDobjIDlistBysubID (subid : Nat) (_noDuplicate : Bool) : Option (List Nat) :=
  if !isEntityEle subid then none
  else (values ⟨.subject, subid⟩).map fun tmp => pairList tmp ((listPairs .sub tmp).map toLex)

def getpreIDlistByobjID (objid : Nat) (_noDuplicate : Bool) : Option (List Nat) :=
  if objid = invalidID then none else (values ⟨.object, objid⟩).map (predicatesIn .obj)

def getsubIDlistByobjID (objid : Nat) (noDuplicate : Bool) : Option (List Nat) :=
  if objid = invalidID then none else (values ⟨.object, objid⟩).map fun tmp => sortIds
    (membersIn .obj tmp) noDuplicate

def getsubIDlistByobjIDpreID (objid preid : Nat) (_noDuplicate : Bool) : Option (List Nat) :=
  if objid = invalidID then none else (values ⟨.object, objid⟩).bind fun tmp =>
    sublistOf .obj tmp preid

def getpreIDsubIDlistByobjID (objid : Nat) (_noDuplicate : Bool) : Option (List Nat) :=
  if objid = invalidID then none
  else (values ⟨.object, objid⟩).map fun tmp => pairList tmp ((listPairs .obj tmp).map toLex)

def getsubIDlistBypreID (preid : Nat) (noDuplicate : Bool) : Option (List Nat) :=
  (values ⟨.predicate, preid⟩).map fun tmp =>
    let list := copyWords tmp 1 (1 + word tmp 0)
    if noDuplicate then removeDuplicate list else list

def getobjIDlistBypreID (preid : Nat) (noDuplicate : Bool) : Option (List Nat) :=
  (values ⟨.predicate, preid⟩).map fun tmp =>
    sortIds (copyWords tmp (1 + word tmp 0) (1 + word tmp 0 + word tmp 0)) noDuplicate

def getsubIDobjIDlistBypreID (preid : Nat) (_noDuplicate : Bool) : Option (List Nat) :=
  (values ⟨.predicate, preid⟩).map fun tmp => pairList tmp (columnPairs tmp)

def getpreIDlistBysubIDobjID (subid objid : Nat) (_noDuplicate : Bool) : Option (List Nat) :=
  (getpreIDlistBysubID values subid true).bind fun list1 =>
    (getpreIDlistByobjID values objid true).bind fun list2 =>
      let list := interSorted list1 list2
      if list = [] then none
      else (values ⟨.subject, subid⟩).bind fun tmp =>
        let kept := keepPredicates tmp objid list 0
        if kept = [] then none else some kept

def getEntityInDegree (entityId : Nat) : Nat := firstWord (values ⟨.object, entityId⟩)
def getEntityOutDegree (entityId : Nat) : Nat := firstWord (values ⟨.subject, entityId⟩)
def getEntityDegree (entityId : Nat) : Nat :=
  (getEntityInDegree values entityId + getEntityOutDegree values entityId) % 2 ^ 32
def getLiteralDegree (literalId : Nat) : Nat := firstWord (values ⟨.object, literalId⟩)
def getPredicateDegree (predicateId : Nat) : Nat := firstWord (values ⟨.predicate, predicateId⟩)

def sublistDegree (k : Side) (value : Option (List Nat)) (preid : Nat) : Nat :=
  (value.bind fun tmp => (binarySearch preid (preAt k tmp) (word tmp 1)).map fun result =>
    nextOff k tmp result - offAt k tmp result).getD 0

def getSubjectPredicateDegree (subid preid : Nat) : Nat :=
  sublistDegree .sub (values ⟨.subject, subid⟩) preid
def getObjectPredicateDegree (objid preid : Nat) : Nat :=
  sublistDegree .obj (values ⟨.object, objid⟩) preid

end Reads

def idsOf (matching : Finset Triple) (id : Triple → Nat) (noDuplicate : Bool) : Option (List Nat) :=
  if matching = ∅ then none
  else some (if noDuplicate then (matching.image id).sort (· ≤ ·) else (matching.val.map id).sort
      (· ≤ ·))

def pairsOf (matching : Finset Triple) (pair : Triple → VData) : Option (List Nat) :=
  if matching = ∅ then none else some (flattenPairs ((matching.image pair).sort (· ≤ ·)))

/-- Every read of ids answers with the matching triples of `S`. The lists of predicates have each
predicate once, also when duplicates are not to be removed. -/
structure ReadsExactly (values : Key → Option (List Nat)) (S : Finset Triple) : Prop where
  preIDlistBysubID : ∀ s nd, getpreIDlistBysubID values s nd = idsOf
    (S.filter (·.sub = s)) Triple.pre true
  objIDlistBysubID : ∀ s nd, getobjIDlistBysubID values s nd = idsOf
    (S.filter (·.sub = s)) Triple.obj nd
  objIDlistBysubIDpreID : ∀ s p nd, getobjIDlistBysubIDpreID values s p nd =
    idsOf (S.filter fun t => t.sub = s ∧ t.pre = p) Triple.obj nd
  preIDlistByobjID : ∀ o nd, getpreIDlistByobjID values o nd = idsOf
    (S.filter (·.obj = o)) Triple.pre true
  subIDlistByobjID : ∀ o nd, getsubIDlistByobjID values o nd = idsOf
    (S.filter (·.obj = o)) Triple.sub nd
  subIDlistByobjIDpreID : ∀ o p nd, getsubIDlistByobjIDpreID values o p nd =
    idsOf (S.filter fun t => t.obj = o ∧ t.pre = p) Triple.sub nd
  subIDlistBypreID : ∀ p nd, getsubIDlistBypreID values p nd = idsOf
    (S.filter (·.pre = p)) Triple.sub nd
  objIDlistBypreID : ∀ p nd, getobjIDlistBypreID values p nd = idsOf
    (S.filter (·.pre = p)) Triple.obj nd
  preIDlistBysubIDobjID : ∀ s o nd, getpreIDlistBysubIDobjID values s o nd =
    idsOf (S.filter fun t => t.sub = s ∧ t.obj = o) Triple.pre nd
  entityInDegree : ∀ e, getEntityInDegree values e = (S.filter (·.obj = e)).card
  entityOutDegree : ∀ e, getEntityOutDegree values e = (S.filter (·.sub = e)).card
  literalDegree : ∀ l, getLiteralDegree values l = (S.filter (·.obj = l)).card
  predicateDegree : ∀ p, getPredicateDegree values p = (S.filter (·.pre = p)).card
  subjectPredicateDegree : ∀ s p, getSubjectPredicateDegree values s p =
    (S.filter fun t => t.sub = s ∧ t.pre = p).card
  objectPredicateDegree : ∀ o p, getObjectPredicateDegree values o p =
    (S.filter fun t => t.obj = o ∧ t.pre = p).card

/-- Every read of pairs answers with the matching triples of `S`, and the degree of an entity counts
both of its lists. -/
structure ReadsPairs (values : Key → Option (List Nat)) (S : Finset Triple) : Prop where
  preIDobjIDlistBysubID : ∀ s nd, getpreIDobjIDlistBysubID values s nd =
    pairsOf (S.filter (·.sub = s)) fun t => toLex (t.pre, t.obj)
  preIDsubIDlistByobjID : ∀ o nd, getpreIDsubIDlistByobjID values o nd =
    pairsOf (S.filter (·.obj = o)) fun t => toLex (t.pre, t.sub)
  subIDobjIDlistBypreID : ∀ p nd, getsubIDobjIDlistBypreID values p nd =
    pairsOf (S.filter (·.pre = p)) fun t => toLex (t.sub, t.obj)
  entityDegree : ∀ e, getEntityDegree values e = (S.filter (·.obj = e)).card +
    (S.filter (·.sub = e)).card

/-- No list has `2 ^ 32` words: a triple takes at most three, and the header three more. -/
def FewTriples (S : Finset Triple) : Prop :=
  ∀ type id, 3 * (S.filter fun t => (t.key type).id = id).card + 3 < 2 ^ 32

def Shows (values : Key → Option (List Nat)) (S : Finset Triple) : Prop :=
  ∀ type id, Lists type (values ⟨type, id⟩) fun q => ∃ t, t ∈ S ∧ t.entry type = toLex (id, q)

theorem length_flattenPairs (ps : List VData) : (flattenPairs ps).length = 2 * ps.length := by
  simp [flattenPairs, length_flatMap, Nat.mul_comm]

variable {l : List Nat}

theorem removeDuplicate_spec (sorted : l.Pairwise (· ≤ ·)) :
    Increasing (removeDuplicate l) ∧ ∀ x, x ∈ removeDuplicate l ↔ x ∈ l := by
  fun_induction removeDuplicate l with
  | case1 => simp
  | case2 x => simp
  | case3 x y l differs ih =>
    obtain ⟨first, rest⟩ := pairwise_cons.mp sorted
    obtain ⟨increasing, members⟩ := ih rest
    refine ⟨pairwise_cons.mpr ⟨fun z hz => ?_, increasing⟩, fun z => by simp [members]⟩
    have less : x < y := lt_of_le_of_ne (first y (by simp)) differs
    rcases mem_cons.mp ((members z).mp hz) with rfl | later
    · exact less
    · exact less.trans_le ((pairwise_cons.mp rest).1 z later)
  | case4 x y l same ih =>
    obtain ⟨increasing, members⟩ := ih (pairwise_cons.mp sorted).2
    refine ⟨increasing, fun z => ?_⟩
    rw [members, mem_cons (l := y :: l), not_not.mp same]
    simp

theorem sort_of_increasing {α : Type} [LinearOrder α] {l : List α} {F : Finset α}
    (increasing : Increasing l)
    (members : ∀ x, x ∈ l ↔ x ∈ F) : F.sort (· ≤ ·) = l :=
  increasing_ext F.sortedLT_sort.pairwise increasing fun x => by rw [Finset.mem_sort, members]

variable {matching : Finset Triple} {id : Triple → Nat}

theorem idsOf_sortIds (filled : matching ≠ ∅) (entries : matching.val.map id = ↑l)
    (noDuplicate : Bool) :
    idsOf matching id noDuplicate = some (sortIds l noDuplicate) := by
  have sorted : (l.mergeSort (· ≤ ·)).Pairwise (· ≤ ·) := by
    simpa using @List.pairwise_mergeSort _ (fun a b : Nat => decide (a ≤ b)) (by grind) (by grind) l
  rw [idsOf, if_neg filled]
  cases noDuplicate with
  | false => simp only [sortIds, Bool.false_eq_true, if_false, entries, Multiset.coe_sort]
  | true =>
    obtain ⟨increasing, members⟩ := removeDuplicate_spec sorted
    simp only [sortIds, if_true]
    rw [sort_of_increasing increasing fun x => ?_]
    rw [members, mem_mergeSort, Finset.mem_image, ← Multiset.mem_coe, ← entries, Multiset.mem_map]
    rfl

theorem idsOf_increasing (filled : l ≠ [])
    (increasing : Increasing l) (members : ∀ x, x ∈ l ↔ ∃ t ∈ matching, id t = x)
      (noDuplicate : Bool)
    (apart : noDuplicate = false → Set.InjOn id matching) :
        idsOf matching id noDuplicate = some l := by
  have nonempty : matching ≠ ∅ := by
    obtain ⟨x, hx⟩ := exists_mem_of_ne_nil l filled
    obtain ⟨t, ht, -⟩ := (members x).mp hx
    exact Finset.ne_empty_of_mem ht
  have image : (matching.image id).sort (· ≤ ·) = l :=
    sort_of_increasing increasing fun x => by rw [members, Finset.mem_image]
  rw [idsOf, if_neg nonempty]
  cases noDuplicate with
  | true => rw [if_pos rfl, image]
  | false =>
    rw [if_neg Bool.false_ne_true, ← Finset.image_val_of_injOn (apart rfl)]
    exact congrArg some image

variable (gs : List (Nat × List Nat))

theorem map_second_pairs : (pairs gs).map Prod.snd = body gs := by
  simp [pairs, body, map_flatMap, Function.comp_def]

theorem predicatesIn_pack : predicatesIn k (pack k gs) = gs.map Prod.fst := by
  apply ext_getElem
  · simp [predicatesIn]
  · intro i bound _
    have inside : i < gs.length := by simpa [predicatesIn] using bound
    simp [predicatesIn, preAt_pack_get k inside]

theorem membersIn_pack : membersIn k (pack k gs) = body gs := by
  rw [membersIn, endOf_pack, word_pack_one]
  exact copyWords_pack [] (body gs) [] (by simp) (by simp) rfl

theorem sublistOf_pack {k : Side} {gs : List (Nat × List Nat)} (whole : Grouped gs) (p : Nat) :
    (sublistOf k (pack k gs) p = none ∧ ∀ x, (p, x) ∉ pairs gs) ∨
      ∃ xs, sublistOf k (pack k gs) p = some xs ∧ xs ≠ [] ∧ Increasing xs ∧ ∀ x, x ∈ xs ↔
          (p, x) ∈ pairs gs := by
  rw [sublistOf, word_pack_one]
  rcases grouped_split whole p with ⟨lo, hi, rfl, before, after⟩ | ⟨lo, xs, hi, rfl, before, after⟩
  · rw [binarySearch_missed whole before after]
    exact .inl ⟨rfl, fun x => not_mem_pairs_around before after⟩
  · have found := @binarySearch_found k lo hi p xs whole
    obtain ⟨filled, sorted⟩ := whole.members (p, xs) (by simp)
    have start := offAt_pack k lo hi p xs
    refine .inr ⟨xs, ?_, filled, sorted, fun x => ?_⟩
    · rw [found, Option.map_some, start, nextOff_pack]
      exact congrArg some (copyWords_pack (body lo) xs (body hi) (body_middle lo hi p xs) rfl rfl)
    · have outside := @not_mem_pairs_around _ _ lo hi _ p x before after
      rw [mem_pairs_middle, or_iff_right outside]
      simp

theorem sublistDegree_eq (value : Option (List Nat)) (p : Nat) :
    sublistDegree k value p = ((value.bind fun tmp => sublistOf k tmp p).getD []).length := by
  cases value with
  | none => rfl
  | some tmp =>
    simp only [sublistDegree, sublistOf, Option.bind_some]
    cases binarySearch p (preAt k tmp) (word tmp 1) with
    | none => rfl
    | some result => simp [copyWords]

variable {gs : List (Nat × List Nat)}

theorem keys_lt_iff (whole : Grouped gs) {a b : Nat} (ha : a < gs.length) (hb : b < gs.length) :
    gs[a].1 < gs[b].1 ↔ a < b := by
  have ordered := @increasing_preAt .sub gs whole
  rw [← preAt_pack_get .sub ha, ← preAt_pack_get .sub hb]
  rcases Nat.lt_trichotomy a b with less | rfl | more
  · exact iff_of_true (ordered a b less hb) less
  · simp
  · exact iff_of_false (ordered b a more ha).not_gt more.not_gt

theorem mem_pairs_get (whole : Grouped gs) {i : Nat} (inside : i < gs.length) (x : Nat) :
    (gs[i].1, x) ∈ pairs gs ↔ x ∈ gs[i].2 := by
  rw [mem_pairs]
  constructor
  · rintro ⟨xs, member, hx⟩
    obtain ⟨j, bound, same⟩ := mem_iff_getElem.mp member
    have key : gs[j].1 = gs[i].1 := by rw [same]
    have position : j = i := by
      rcases Nat.lt_trichotomy j i with less | equal | more
      · exact absurd key ((keys_lt_iff whole bound inside).mpr less).ne
      · exact equal
      · exact absurd key ((keys_lt_iff whole inside bound).mpr more).ne'
    subst position
    rwa [same]
  · intro hx
    exact ⟨gs[i].2, getElem_mem inside, hx⟩

theorem searches_sublist (whole : Grouped gs) {i : Nat} (inside : i < gs.length) (objid : Nat) :
    binarySearch objid (fun j => word (pack .sub gs) (offAt .sub (pack .sub gs) i + j))
      (nextOff .sub (pack .sub gs) i - offAt .sub (pack .sub gs) i) = none ↔ objid ∉ gs[i].2 := by
  obtain ⟨stop, content⟩ := sublist_pack .sub inside
  have sorted := (whole.members gs[i] (getElem_mem inside)).2
  rw [stop, Nat.add_sub_cancel_left, binarySearch, bisect_eq_none_iff]
  · constructor
    · intro missed member
      obtain ⟨j, bound, same⟩ := mem_iff_getElem.mp member
      exact missed j bound (by rw [content j bound, same])
    · intro absent j bound hit
      rw [content j bound] at hit
      exact absent (hit ▸ getElem_mem bound)
  · intro a b less bound
    rw [content a (less.trans bound), content b bound]
    exact pairwise_iff_getElem.mp sorted a b (less.trans bound) bound less

theorem keepPredicates_pack {gs : List (Nat × List Nat)} (whole : Grouped gs) (objid : Nat)
    {ps : List Nat} {start : Nat}
    (sorted : Increasing ps) (known : ∀ p ∈ ps, ∃ i, start ≤ i ∧ ∃ h : i < gs.length, gs[i].1 = p) :
    keepPredicates (pack .sub gs) objid ps start = ps.filter fun p => decide
        ((p, objid) ∈ pairs gs) := by
  induction ps generalizing start with
  | nil => rfl
  | cons p ps ih =>
    obtain ⟨larger, rest⟩ := pairwise_cons.mp sorted
    obtain ⟨i, le, inside, rfl⟩ := known p (by simp)
    have scanned : start + ((List.range' start (gs.length - start)).takeWhile
        fun j => decide (preAt .sub (pack .sub gs) j ≠ gs[i].1)).length = i := by
      rw [length_takeWhile_range' (m := i - start)]
      · omega
      · omega
      · intro j bound
        have early : start + j < gs.length := by omega
        rw [preAt_pack_get .sub early]
        exact decide_eq_true ((keys_lt_iff whole early inside).mpr (by omega)).ne
      · intro _
        rw [Nat.add_sub_cancel' le, preAt_pack_get .sub inside]
        simp
    have later := @ih i rest fun q member => by
      obtain ⟨j, -, bound, rfl⟩ := known q (mem_cons_of_mem _ member)
      exact ⟨j, ((keys_lt_iff whole inside bound).mp (larger _ member)).le, bound, rfl⟩
    unfold keepPredicates
    simp only [word_pack_one, scanned]
    rw [if_neg inside.ne, filter_cons, later]
    by_cases member : objid ∈ gs[i].2
    · rw [if_neg fun none => (searches_sublist whole inside objid).mp none member,
        if_pos (decide_eq_true ((mem_pairs_get whole inside objid).mpr member))]
    · rw [if_pos ((searches_sublist whole inside objid).mpr member), if_neg]
      simpa using fun hit => member ((mem_pairs_get whole inside objid).mp hit)

variable {S : Finset Triple}

theorem mem_matching_pairs {k : Side} {id : Nat}
    (listed : (S.filter fun t => (t.key k.type).id = id).val.map (fun t => (t.pre, k.partner t)) =
        ↑(pairs gs))
    (p x : Nat) : (p, x) ∈ pairs gs ↔ ∃ t ∈ S, (t.key k.type).id = id ∧ t.pre = p ∧
        k.partner t = x := by
  rw [← Multiset.mem_coe, ← listed, Multiset.mem_map]
  simp [Finset.mem_val, Prod.mk.injEq, and_assoc]

section Shown

variable {values : Key → Option (List Nat)} {S : Finset Triple} (shows : Shows values S)
include shows

variable (type : IDType)

theorem Shows.none_iff (id : Nat) :
    values ⟨type, id⟩ = none ↔ S.filter (fun t => (t.key type).id = id) = ∅ := by
  rw [lists_none_iff (shows type id), Finset.filter_eq_empty_iff]
  constructor
  · intro none t member same
    exact none (t.pair type) ⟨t, member, by rw [entry, same]⟩
  · rintro none q ⟨t, member, same⟩
    exact none member (congrArg (fun e => (ofLex e).1) same)

theorem Shows.pairs_eq (id : Nat) :
    (S.filter fun t => (t.key type).id = id).val.map (fun t => t.pair type) =
        ↑(pairsIn type (values ⟨type, id⟩)) := by
  have distinct : ((S.filter fun t => (t.key type).id = id).val.map fun t =>
        t.pair type).Nodup := by
    refine Multiset.Nodup.map_on (fun t ht u hu same => entry_injective type ?_) (Finset.nodup _)
    rw [entry, entry, (Finset.mem_filter.mp ht).2, (Finset.mem_filter.mp hu).2, same]
  have nodup := Multiset.coe_nodup.mpr (increasing_nodup (pairsIn_sorted (shows type id)).1)
  refine (distinct.ext nodup).mpr fun q => ?_
  rw [Multiset.mem_coe, mem_pairsIn (shows type id), Multiset.mem_map]
  constructor
  · rintro ⟨t, member, rfl⟩
    obtain ⟨inside, same⟩ := Finset.mem_filter.mp member
    exact ⟨t, inside, by rw [entry, same]⟩
  · rintro ⟨t, inside, same⟩
    obtain ⟨key, pair⟩ := Prod.mk.inj (toLex_inj.mp same)
    exact ⟨t, Finset.mem_filter.mpr ⟨inside, key⟩, pair⟩

theorem Shows.degree (id : Nat) :
    firstWord (values ⟨type, id⟩) = (S.filter fun t => (t.key type).id = id).card := by
  rw [(pairsIn_sorted (shows type id)).2, ← Multiset.coe_card, ← shows.pairs_eq, Multiset.card_map]
  rfl

theorem Shows.packed {k : Side} {id : Nat} {tmp : List Nat}
    (found : values ⟨k.type, id⟩ = some tmp) :
    ∃ gs, Grouped gs ∧ gs ≠ [] ∧ tmp = pack k gs ∧
      (S.filter fun t => (t.key k.type).id = id).val.map (fun t => (t.pre, k.partner t)) =
          ↑(pairs gs) := by
  have pair : ∀ t : Triple, t.pair k.type = toLex (t.pre, k.partner t) :=
    fun t => by cases k <;> rfl
  have shown : Represents k (values ⟨k.type, id⟩) fun p x => ∃ t, t ∈ S ∧
      t.entry k.type = toLex (id, toLex (p, x)) := by
    have lists := shows k.type id
    cases k <;> exact lists
  obtain ⟨gs, whole, layout, members⟩ := shown
  rw [found] at layout
  by_cases empty : gs = []
  · simp [stored, empty] at layout
  · rw [stored, if_neg empty, Option.some.injEq] at layout
    have listed : pairsIn k.type (values ⟨k.type, id⟩) = (pairs gs).map toLex := by
      rw [found, layout, ← listPairs_pack k gs]
      cases k <;> rfl
    have pairs := congrArg (Multiset.map ofLex) (shows.pairs_eq k.type id)
    rw [listed, Multiset.map_map, Multiset.map_coe, map_map] at pairs
    refine ⟨gs, whole, empty, layout, ?_⟩
    simpa [Function.comp_def, pair] using pairs

theorem Shows.predicates_read (k : Side) (id : Nat) : (values ⟨k.type, id⟩).map (predicatesIn k) =
    idsOf (S.filter fun t => (t.key k.type).id = id) Triple.pre true := by
  cases found : values ⟨k.type, id⟩ with
  | none => rw [idsOf, if_pos ((shows.none_iff _ _).mp found), Option.map_none]
  | some tmp =>
    obtain ⟨gs, whole, nonempty, rfl, listed⟩ := shows.packed found
    rw [Option.map_some, predicatesIn_pack]
    refine (idsOf_increasing (by simpa using nonempty) whole.keys (fun p => ?_) true (by simp)).symm
    simp only [mem_map, Finset.mem_filter]
    constructor
    · rintro ⟨g, member, rfl⟩
      obtain ⟨x, hx⟩ := exists_mem_of_ne_nil _ (whole.members g member).1
      obtain ⟨t, inside, key, pre, -⟩ :=
        (mem_matching_pairs listed g.1 x).mp (mem_pairs.mpr ⟨g.2, member, hx⟩)
      exact ⟨t, ⟨inside, key⟩, pre⟩
    · rintro ⟨t, ⟨inside, key⟩, rfl⟩
      obtain ⟨xs, member, -⟩ :=
        mem_pairs.mp ((mem_matching_pairs listed t.pre (k.partner t)).mpr
            ⟨t, inside, key, rfl, rfl⟩)
      exact ⟨_, member, rfl⟩

theorem Shows.members_read (k : Side) (id : Nat) (noDuplicate : Bool) :
    (values ⟨k.type, id⟩).map (fun tmp => sortIds (membersIn k tmp) noDuplicate) =
      idsOf (S.filter fun t => (t.key k.type).id = id) k.partner noDuplicate := by
  cases found : values ⟨k.type, id⟩ with
  | none => rw [idsOf, if_pos ((shows.none_iff _ _).mp found), Option.map_none]
  | some tmp =>
    have filled : S.filter (fun t => (t.key k.type).id = id) ≠ ∅ := fun empty => by
      simp [(shows.none_iff k.type id).mpr empty] at found
    obtain ⟨gs, whole, nonempty, rfl, listed⟩ := shows.packed found
    rw [Option.map_some, membersIn_pack]
    refine (idsOf_sortIds filled ?_ noDuplicate).symm
    rw [← map_second_pairs, ← Multiset.map_coe, ← listed, Multiset.map_map]
    rfl

theorem Shows.sublist_read (k : Side) (id p : Nat) (noDuplicate : Bool) :
    (values ⟨k.type, id⟩).bind (fun tmp => sublistOf k tmp p) =
      idsOf (S.filter fun t => (t.key k.type).id = id ∧ t.pre = p) k.partner noDuplicate := by
  cases found : values ⟨k.type, id⟩ with
  | none =>
    have none := (shows.none_iff _ _).mp found
    rw [Option.bind_none, idsOf, if_pos]
    exact Finset.filter_eq_empty_iff.mpr fun t member both =>
      Finset.filter_eq_empty_iff.mp none member both.1
  | some tmp =>
    obtain ⟨gs, whole, nonempty, rfl, listed⟩ := shows.packed found
    rw [Option.bind_some]
    rcases sublistOf_pack (k := k) whole p with ⟨missed, none⟩ | ⟨xs, hit, filled, sorted, members⟩
    · rw [missed, idsOf, if_pos]
      refine Finset.filter_eq_empty_iff.mpr fun t member both => none (k.partner t) ?_
      exact (mem_matching_pairs listed p _).mpr ⟨t, member, both.1, both.2, rfl⟩
    · rw [hit]
      refine (idsOf_increasing filled sorted (fun x => ?_) noDuplicate fun _ t ht u hu same =>
          ?_).symm
      · rw [members, mem_matching_pairs listed]
        simp [Finset.mem_filter, and_assoc]
      · obtain ⟨-, key, pre⟩ := Finset.mem_filter.mp (Finset.mem_coe.mp ht)
        obtain ⟨-, key', pre'⟩ := Finset.mem_filter.mp (Finset.mem_coe.mp hu)
        cases k <;> simp_all [Triple.ext_iff, Triple.key, Side.type, Side.partner]

theorem Shows.sublist_degree (k : Side) (id p : Nat) : sublistDegree k (values ⟨k.type, id⟩) p =
    (S.filter fun t => (t.key k.type).id = id ∧ t.pre = p).card := by
  rw [sublistDegree_eq, shows.sublist_read k id p false, idsOf]
  split
  · rename_i empty
    rw [empty]
    rfl
  · rw [if_neg Bool.false_ne_true, Option.getD_some, Multiset.length_sort, Multiset.card_map]
    rfl

theorem Shows.pairs_read (few : FewTriples S) (id : Nat) :
    (values ⟨type, id⟩).map (fun tmp => pairList tmp (pairsIn type (some tmp))) =
      pairsOf (S.filter fun t => (t.key type).id = id) fun t => t.pair type := by
  cases found : values ⟨type, id⟩ with
  | none => rw [pairsOf, if_pos ((shows.none_iff _ _).mp found), Option.map_none]
  | some tmp =>
    have filled : S.filter (fun t => (t.key type).id = id) ≠ ∅ := fun empty => by
      simp [(shows.none_iff type id).mpr empty] at found
    have sorted := sort_of_increasing
      (F := (S.filter fun t => (t.key type).id = id).image fun t => t.pair type)
      (pairsIn_sorted (shows type id)).1 fun q => by
        rw [← Multiset.mem_coe, ← shows.pairs_eq, Finset.mem_image, Multiset.mem_map]
        rfl
    have number : word tmp 0 = (pairsIn type (some tmp)).length := by
      have counted := (pairsIn_sorted (shows type id)).2
      rwa [found] at counted
    have whole : 2 * word tmp 0 % 2 ^ 32 = (flattenPairs (pairsIn type (some tmp))).length := by
      have degree : word tmp 0 = (S.filter fun t => (t.key type).id = id).card := by
        simpa [found, firstWord] using shows.degree type id
      have bound := few type id
      rw [length_flattenPairs, ← number, Nat.mod_eq_of_lt (by omega)]
    rw [Option.map_some, pairsOf, if_neg filled, sorted, found, pairList, whole, take_length]

theorem Shows.columns {p : Nat} {tmp : List Nat} (found : values ⟨.predicate, p⟩ = some tmp) :
    ∃ ps, Increasing ps ∧ ps ≠ [] ∧ tmp = GStore.columns ps ∧
      (S.filter fun t => t.pre = p).val.map (fun t => toLex (t.sub, t.obj)) = ↑ps := by
  have listed := shows.pairs_eq .predicate p
  obtain ⟨ps, sorted, layout, -⟩ := shows .predicate p
  rw [found] at layout listed
  by_cases empty : ps = []
  · simp [storedColumns, empty] at layout
  · rw [storedColumns, if_neg empty, Option.some.injEq] at layout
    refine ⟨ps, sorted, empty, layout, ?_⟩
    rw [layout, pairsIn, columnPairs_columns] at listed
    exact listed

/-- A read of one column of the list of a predicate: only what it makes of the stored columns is
left to show. -/
theorem Shows.column_read {read : List Nat → List Nat} {id : Triple → Nat} (column : VData → Nat)
    (p : Nat)
    (noDuplicate : Bool) (same : ∀ t : Triple, column (toLex (t.sub, t.obj)) = id t)
    (reads : ∀ ps, Increasing ps → read (GStore.columns ps) = sortIds (ps.map column) noDuplicate) :
    (values ⟨.predicate, p⟩).map read = idsOf (S.filter (·.pre = p)) id noDuplicate := by
  cases found : values ⟨.predicate, p⟩ with
  | none =>
    have empty : S.filter (·.pre = p) = ∅ := (shows.none_iff .predicate p).mp found
    rw [idsOf, if_pos empty, Option.map_none]
  | some tmp =>
    have filled : S.filter (·.pre = p) ≠ ∅ := fun empty => by
      simp [(shows.none_iff .predicate p).mpr empty] at found
    obtain ⟨ps, sorted, nonempty, rfl, listed⟩ := shows.columns found
    have entries : (S.filter (·.pre = p)).val.map id = ↑(ps.map column) := by
      rw [← Multiset.map_coe, ← listed, Multiset.map_map]
      exact Multiset.map_congr rfl fun t _ => (same t).symm
    rw [Option.map_some, reads ps sorted, idsOf_sortIds filled entries noDuplicate]

theorem Shows.subIDlist_read (p : Nat) (noDuplicate : Bool) :
    getsubIDlistBypreID values p noDuplicate = idsOf
        (S.filter (·.pre = p)) Triple.sub noDuplicate := by
  refine shows.column_read (fun q => (ofLex q).1) p noDuplicate (fun t => rfl) fun ps sorted => ?_
  have copied : copyWords (GStore.columns ps) 1 (1 + ps.length) = subjects ps :=
    copyWords_segment [ps.length] (subjects ps) (objects ps) rfl (by simp)
  have ordered : (subjects ps).Pairwise (· ≤ ·) :=
    pairwise_map.mpr (sorted.imp fun less => (Prod.Lex.lt_iff.mp less).elim le_of_lt fun h =>
        h.1.le)
  rw [word_columns_zero]
  simp only [copied, sortIds]
  rw [← subjects, mergeSort_of_pairwise (by simpa using ordered)]

theorem Shows.objIDlist_read (p : Nat) (noDuplicate : Bool) :
    getobjIDlistBypreID values p noDuplicate = idsOf
        (S.filter (·.pre = p)) Triple.obj noDuplicate := by
  refine shows.column_read (fun q => (ofLex q).2) p noDuplicate (fun t => rfl) fun ps sorted => ?_
  have copied : copyWords (GStore.columns ps) (1 + ps.length) (1 + ps.length + ps.length) =
      objects ps := by
    have whole := @copyWords_segment (ps.length :: subjects ps) (objects ps) [] (1 + ps.length)
      (1 + ps.length + ps.length) (by simp [Nat.add_comm]) (by simp)
    simpa [GStore.columns] using whole
  rw [word_columns_zero, copied, objects]

theorem Shows.preIDlist_read (entities : ∀ t ∈ S, isEntityEle t.sub = true)
    (valid : ∀ t ∈ S, t.obj ≠ invalidID)
    (s o : Nat) (noDuplicate : Bool) : getpreIDlistBysubIDobjID values s o noDuplicate =
      idsOf (S.filter fun t => t.sub = s ∧ t.obj = o) Triple.pre noDuplicate := by
  have vacant : (∀ t ∈ S, ¬ (t.sub = s ∧ t.obj = o)) →
      none = idsOf (S.filter fun t => t.sub = s ∧ t.obj = o) Triple.pre noDuplicate :=
          fun none => by
    rw [idsOf, if_pos (Finset.filter_eq_empty_iff.mpr fun t member => none t member)]
  unfold getpreIDlistBysubIDobjID getpreIDlistBysubID getpreIDlistByobjID
  by_cases entity : isEntityEle s = true
  · rw [entity, Bool.not_true, if_neg Bool.false_ne_true]
    cases subject : values ⟨.subject, s⟩ with
    | none =>
      refine vacant fun t member both => ?_
      exact Finset.filter_eq_empty_iff.mp ((shows.none_iff .subject s).mp subject) member both.1
    | some tmp =>
      obtain ⟨gs, whole, -, rfl, listed⟩ := shows.packed (k := .sub) subject
      rw [Option.map_some, Option.bind_some]
      by_cases invalid : o = invalidID
      · rw [if_pos invalid]
        exact vacant fun t member both => valid t member (both.2.trans invalid)
      · rw [if_neg invalid]
        cases object : values ⟨.object, o⟩ with
        | none =>
          refine vacant fun t member both => ?_
          exact Finset.filter_eq_empty_iff.mp ((shows.none_iff .object o).mp object) member both.2
        | some tmp =>
          obtain ⟨hs, grouped, -, rfl, others⟩ := shows.packed (k := .obj) object
          rw [Option.map_some, Option.bind_some, predicatesIn_pack, predicatesIn_pack]
          have sorted := whole.keys.sublist
            (interSorted_sublist (gs.map Prod.fst) (hs.map Prod.fst))
          have kept := @keepPredicates_pack gs whole o _ 0 sorted fun p member => by
            obtain ⟨g, inside, rfl⟩ :=
              mem_map.mp ((mem_interSorted whole.keys grouped.keys).mp member).1
            obtain ⟨i, bound, rfl⟩ := mem_iff_getElem.mp inside
            exact ⟨i, Nat.zero_le i, bound, rfl⟩
          have members : ∀ p, p ∈ (interSorted (gs.map Prod.fst) (hs.map Prod.fst)).filter
              (fun p => decide ((p, o) ∈ pairs gs)) ↔ ∃ t ∈ S.filter fun t => t.sub = s ∧
                  t.obj = o, t.pre = p := by
            intro p
            have here := mem_matching_pairs listed p o
            rw [mem_filter, mem_interSorted whole.keys grouped.keys, decide_eq_true_iff, here]
            constructor
            · rintro ⟨-, t, member, sub, pre, obj⟩
              exact ⟨t, Finset.mem_filter.mpr ⟨member, sub, obj⟩, pre⟩
            · rintro ⟨t, member, rfl⟩
              obtain ⟨inside, sub, obj⟩ := Finset.mem_filter.mp member
              obtain ⟨xs, left, -⟩ := mem_pairs.mp (here.mpr ⟨t, inside, sub, rfl, obj⟩)
              obtain ⟨ys, right, -⟩ := mem_pairs.mp
                ((mem_matching_pairs others t.pre s).mpr ⟨t, inside, obj, rfl, sub⟩)
              exact ⟨⟨mem_map_of_mem left, mem_map_of_mem right⟩, t, inside, sub, rfl, obj⟩
          simp only [kept, Option.bind_some]
          by_cases empty : (interSorted (gs.map Prod.fst) (hs.map Prod.fst)).filter
              (fun p => decide ((p, o) ∈ pairs gs)) = []
          · rw [if_pos empty, ite_self]
            refine vacant fun t member both => ?_
            simpa [empty] using (members t.pre).mpr ⟨t, Finset.mem_filter.mpr ⟨member, both⟩, rfl⟩
          · rw [if_neg empty, if_neg fun none => empty (by rw [none]; rfl)]
            refine (idsOf_increasing empty (sorted.filter _) members noDuplicate
                fun _ t ht u hu same => ?_).symm
            obtain ⟨-, sub, obj⟩ := Finset.mem_filter.mp (Finset.mem_coe.mp ht)
            obtain ⟨-, sub', obj'⟩ := Finset.mem_filter.mp (Finset.mem_coe.mp hu)
            exact Triple.ext (sub.trans sub'.symm) same (obj.trans obj'.symm)
  · rw [Bool.eq_false_iff.mpr entity, Bool.not_false, if_pos rfl, Option.bind_none]
    exact vacant fun t member both => entity (both.1 ▸ entities t member)

end Shown

theorem guarded_read {α : Type} {guard : Prop} [Decidable guard] {read : Option α}
    {fits : Triple → Prop} [DecidablePred fits] (answer : Finset Triple → Option α)
      (nothing : answer ∅ = none)
    (outside : guard → ∀ t ∈ S, ¬ fits t) (inside : read = answer (S.filter fits)) :
    (if guard then none else read) = answer (S.filter fits) := by
  by_cases fails : guard
  · rw [if_pos fails, Finset.filter_eq_empty_iff.mpr fun t member => outside fails t member,
        nothing]
  · rw [if_neg fails, inside]

/-- The store holds the triples of `S`: their subjects are entities and no object is `INVALID`. -/
structure KVstore.Consistent (kv : KVstore) (S : Finset Triple) : Prop where
  holds : kv.Holds (· ∈ S)
  subjects : ∀ t ∈ S, isEntityEle t.sub = true
  objects : ∀ t ∈ S, t.obj ≠ invalidID

theorem KVstore.Consistent.noSubject {kv : KVstore} (consistent : kv.Consistent S) (s : Nat)
    (fails : (!isEntityEle s) = true) : ∀ t ∈ S, t.sub ≠ s := by
  intro t member same
  simp [← same, consistent.subjects t member] at fails

theorem KVstore.Consistent.noObject {kv : KVstore} (consistent : kv.Consistent S) (o : Nat)
    (fails : o = invalidID) : ∀ t ∈ S, t.obj ≠ o :=
  fun t member same => consistent.objects t member (same.trans fails)

theorem KVstore.Consistent.reads {kv : KVstore} (consistent : kv.Consistent S) :
    ReadsExactly kv.getValueByKey S := by
  have shows : Shows kv.getValueByKey S := holds_lists consistent.holds
  have noSubject := consistent.noSubject
  have noObject := consistent.noObject
  exact {
    preIDlistBysubID := fun s _ =>
      guarded_read (fun m => idsOf m Triple.pre true) rfl (noSubject s)
        (shows.predicates_read .sub s)
    objIDlistBysubID := fun s nd =>
      guarded_read (fun m => idsOf m Triple.obj nd) rfl (noSubject s) (shows.members_read .sub s nd)
    objIDlistBysubIDpreID := fun s p nd =>
      guarded_read (fun m => idsOf m Triple.obj nd) rfl
        (fun fails t member both => noSubject s fails t member both.1)
        (shows.sublist_read .sub s p nd)
    preIDlistByobjID := fun o _ =>
      guarded_read (fun m => idsOf m Triple.pre true) rfl (noObject o)
        (shows.predicates_read .obj o)
    subIDlistByobjID := fun o nd =>
      guarded_read (fun m => idsOf m Triple.sub nd) rfl (noObject o) (shows.members_read .obj o nd)
    subIDlistByobjIDpreID := fun o p nd =>
      guarded_read (fun m => idsOf m Triple.sub nd) rfl
        (fun fails t member both => noObject o fails t member both.1)
        (shows.sublist_read .obj o p nd)
    subIDlistBypreID := shows.subIDlist_read
    objIDlistBypreID := shows.objIDlist_read
    preIDlistBysubIDobjID := shows.preIDlist_read consistent.subjects consistent.objects
    entityInDegree := shows.degree .object
    entityOutDegree := shows.degree .subject
    literalDegree := shows.degree .object
    predicateDegree := shows.degree .predicate
    subjectPredicateDegree := shows.sublist_degree .sub
    objectPredicateDegree := shows.sublist_degree .obj }

theorem KVstore.Consistent.readsPairs {kv : KVstore} (consistent : kv.Consistent S)
    (few : FewTriples S) :
    ReadsPairs kv.getValueByKey S := by
  have shows : Shows kv.getValueByKey S := holds_lists consistent.holds
  exact {
    preIDobjIDlistBysubID := fun s _ => guarded_read
      (fun m => pairsOf m fun t => toLex (t.pre, t.obj)) rfl
      (consistent.noSubject s) (shows.pairs_read .subject few s)
    preIDsubIDlistByobjID := fun o _ => guarded_read
      (fun m => pairsOf m fun t => toLex (t.pre, t.sub)) rfl
      (consistent.noObject o) (shows.pairs_read .object few o)
    subIDobjIDlistBypreID := fun p _ => shows.pairs_read .predicate few p
    entityDegree := fun e => by
      have into := shows.degree .object e
      have out := shows.degree .subject e
      have fewIn := few .object e
      have fewOut := few .subject e
      rw [getEntityDegree, getEntityInDegree, getEntityOutDegree, into, out,
          Nat.mod_eq_of_lt (by omega)]
      rfl }

theorem index_reads_exact (kv : KVstore) (S : Finset Triple) (consistent : kv.Consistent S)
    (few : FewTriples S) :
    ReadsExactly kv.getValueByKey S ∧ ReadsPairs kv.getValueByKey S :=
  ⟨consistent.reads, consistent.readsPairs few⟩

def twoObjects : KVstore :=
  (KVstore.empty.updateTupleslistInsert 0 0 1).updateTupleslistInsert 0 0 2

theorem twoObjects_consistent : twoObjects.Consistent {⟨0, 0, 1⟩, ⟨0, 0, 2⟩} := by
  have first := updateTupleslistInsert_holds empty_holds
    ⟨⟨0, 0, 1⟩, by decide, by decide, by decide⟩ (by simp) (by decide)
  have both := updateTupleslistInsert_holds first
    ⟨⟨0, 0, 2⟩, by decide, by decide, by decide⟩ (by simp) (by decide)
  exact ⟨holds_congr both fun t => by simp [or_comm], by decide, by decide⟩

theorem index_reads_exact_two_objects :
    ReadsPairs twoObjects.getValueByKey {⟨0, 0, 1⟩, ⟨0, 0, 2⟩} := by
  refine (index_reads_exact _ _ twoObjects_consistent fun type id => ?_).2
  have two := Finset.card_filter_le ({⟨0, 0, 1⟩, ⟨0, 0, 2⟩} : Finset Triple) fun t =>
    (t.key type).id = id
  have all : ({⟨0, 0, 1⟩, ⟨0, 0, 2⟩} : Finset Triple).card = 2 := by decide
  omega

/-- The predicate is listed once, also when duplicates are not to be removed. -/
theorem predicate_listed_once :
    let S : Finset Triple := {⟨0, 0, 1⟩, ⟨0, 0, 2⟩}
    twoObjects.Consistent S ∧ getpreIDlistBysubID twoObjects.getValueByKey 0 false = some [0] ∧
      (idsOf (S.filter (·.sub = 0)) Triple.pre false).map List.length = some 2 := by
  refine ⟨twoObjects_consistent, by decide +kernel, ?_⟩
  have two : (Finset.filter (fun t : Triple => t.sub = 0) {⟨0, 0, 1⟩, ⟨0, 0, 2⟩}).card = 2 := by
    decide
  rw [idsOf, if_neg (by decide), Option.map_some, if_neg Bool.false_ne_true, Multiset.length_sort, Multiset.card_map]
  exact congrArg some two

end GStore
