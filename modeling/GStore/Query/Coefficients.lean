import Mathlib.Algebra.BigOperators.Ring.Finset
import Mathlib.Tactic

/-! `TopKUtil::getVarCoefficients`: the coefficients of the variables in an `ORDER BY` expression.
-/
namespace GStore.TopK
open List

/-- A `CompTreeNode` with no, one or two children. -/
inductive OrderNode where
  | leaf (val : String)
  | unary (oprt : String) (child : OrderNode)
  | binary (oprt : String) (left right : OrderNode)
  deriving DecidableEq

def isVar (val : String) : Bool := val.toList.head? = some '?'

def product (oprt : String) : OrderNode → OrderNode → Option (String × String)
  | .leaf a, .leaf b => if oprt = "+" ∨ oprt = "-" then none else some (a, b)
  | _, _ => none

variable {K : Type} [CommRing K] (num : String → K)

def signed (minusSigned : Bool) (c : K) : K := if minusSigned then -c else c

def scaled (leaves : String × String) : String × K :=
  if isVar leaves.1 then (leaves.1, num leaves.2) else (leaves.2, num leaves.1)

def assign (coefficients : List (String × K)) (entry : String × K) : List (String × K) :=
  entry :: coefficients.filter (·.1 ≠ entry.1)

def getVarCoefficientsTreeNode : OrderNode → Bool → List (String × K) → List (String × K)
  | .leaf val, minusSigned, coefficients => assign coefficients (val, signed minusSigned 1)
  | .unary oprt child, _, coefficients => getVarCoefficientsTreeNode child (oprt = "-") coefficients
  | .binary oprt left right, minusSigned, coefficients =>
    match product oprt left right with
    | some leaves =>
      assign coefficients ((scaled num leaves).1, signed minusSigned (scaled num leaves).2)
    | none =>
      getVarCoefficientsTreeNode right (oprt = "-")
      (getVarCoefficientsTreeNode left minusSigned coefficients)

def getVarCoefficients (root : OrderNode) : List (String × K) :=
  getVarCoefficientsTreeNode num root false []

namespace OrderNode

/-- Variables, products of a variable and a constant, and their sums, differences and negatives. -/
def Linear : OrderNode → Prop
  | .leaf val => isVar val = true
  | .unary oprt child => oprt = "-" ∧ child.Linear
  | .binary oprt left right => (oprt = "+" ∨ oprt = "-") ∧ left.Linear ∧ right.Linear ∨
      oprt = "*" ∧ ∃ v c, isVar v = true ∧ isVar c = false ∧
        (left = .leaf v ∧ right = .leaf c ∨ left = .leaf c ∧ right = .leaf v)

def value (env : String → K) : OrderNode → K
  | .leaf val => if isVar val then env val else num val
  | .unary oprt child => signed (oprt = "-") (child.value env)
  | .binary oprt left right =>
    if oprt = "*" then left.value env * right.value env
    else left.value env + signed (oprt = "-") (right.value env)

end OrderNode

/-- A variable of the expression with the constant it is multiplied by. It counts negatively by the
operator nearest to it that it stands below or right of (`nearest`), and by all such operators
together (`all`). -/
structure Occurrence (K : Type) where
  var : String
  coefficient : K
  nearest : Bool
  all : Bool

namespace Occurrence

variable (o : Occurrence K)

def term : K := signed o.all o.coefficient

def read : K := signed o.nearest o.coefficient

end Occurrence

/-- The occurrences of variables from left to right. -/
def OrderNode.occurrences : OrderNode → Bool → Bool → List (Occurrence K)
  | .leaf val, nearest, all => [⟨val, 1, nearest, all⟩]
  | .unary oprt child, _, all => child.occurrences (oprt = "-") (xor all (oprt = "-"))
  | .binary oprt left right, nearest, all =>
    match product oprt left right with
    | some leaves => [⟨(scaled num leaves).1, (scaled num leaves).2, nearest, all⟩]
    | none => left.occurrences nearest all ++ right.occurrences (oprt = "-") (xor all (oprt = "-"))

/-- For each variable the occurrences before the last cancel out, where the nearest operator gives
the last one its sign; where it gives the other sign, they make up for the difference. -/
def OrderNode.EarlierCancel (e : OrderNode) : Prop :=
  ∀ v earlier last, (e.occurrences num false false).filter (·.var = v) = earlier ++ [last] →
    (earlier.map Occurrence.term).sum = if last.nearest =
    last.all then 0 else -(last.term + last.term)

variable (l : List (String × K))

def lastCoefficient (v : String) : K := (((l.filter (·.1 = v)).map Prod.snd).getLast?).getD 0

def total (v : String) : K := ((l.filter (·.1 = v)).map Prod.snd).sum

def formValue (env : String → K) : K := (l.map fun entry => entry.2 * env entry.1).sum

theorem getVarCoefficientsTreeNode_eq (e : OrderNode) (nearest all : Bool)
    (coefficients : List (String × K)) :
    getVarCoefficientsTreeNode num e nearest coefficients =
      ((e.occurrences num nearest all).map fun o => (o.var, o.read)).foldl assign coefficients := by
  induction e generalizing nearest all coefficients with
  | leaf val => rfl
  | unary oprt child ih => exact ih _ _ _
  | binary oprt left right ihl ihr =>
    unfold getVarCoefficientsTreeNode OrderNode.occurrences
    cases product oprt left right with
    | some leaves => rfl
    | none =>
      dsimp only
      rw [map_append, foldl_append, ← ihl, ← ihr]

theorem signed_add (m : Bool) (a b : K) : signed m (a + b) = signed m a + signed m b := by
  cases m with
  | false => rfl
  | true => exact neg_add a b

theorem signed_signed (m n : Bool) (a : K) : signed m (signed n a) = signed (xor m n) a := by
  cases m <;> cases n <;> simp [signed]

theorem signed_mul (m : Bool) (a b : K) : signed m (a * b) = signed m a * b := by
  cases m with
  | false => rfl
  | true => exact (neg_mul a b).symm

theorem value_eq_formValue {e : OrderNode} (linear : e.Linear) (env : String → K)
    (nearest all : Bool) :
    signed all (e.value num env) =
      formValue ((e.occurrences num nearest all).map fun o => (o.var, o.term)) env := by
  induction e generalizing nearest all with
  | leaf val =>
    have named : isVar val = true := linear
    simp [OrderNode.value, OrderNode.occurrences, Occurrence.term, formValue, named, ← signed_mul]
  | unary oprt child ih => exact (signed_signed _ _ _).trans (ih linear.2 _ _)
  | binary oprt left right ihl ihr =>
    rcases linear with ⟨sum, leftLinear, rightLinear⟩ | ⟨rfl, v, c, isV, isC, leaves⟩
    · have none : product oprt left right = none := by
        unfold product
        split
        · exact if_pos sum
        · rfl
      have noProduct : oprt ≠ "*" := by rintro rfl; revert sum; decide
      simp only [OrderNode.value, if_neg noProduct, OrderNode.occurrences, none, formValue,
          map_append, sum_append]
      rw [signed_add, signed_signed, ihl leftLinear, ihr rightLinear]
      rfl
    · rcases leaves with ⟨rfl, rfl⟩ | ⟨rfl, rfl⟩
      · simp [OrderNode.value, OrderNode.occurrences, Occurrence.term, product, scaled, formValue,
            isV, isC, ← signed_mul,
          mul_comm (env v)]
      · simp [OrderNode.value, OrderNode.occurrences, Occurrence.term, product, scaled, formValue,
            isV, isC, ← signed_mul]

theorem total_cons (entry : String × K) (l : List (String × K)) (v : String) :
    total (entry :: l) v = (if entry.1 = v then entry.2 else 0) + total l v := by
  by_cases same : entry.1 = v
  · simp [total, same]
  · simp [total, same]

theorem total_assign (entry : String × K) (v : String) :
    total (assign l entry) v = if entry.1 = v then entry.2 else total l v := by
  rw [assign, total_cons, total, total, filter_filter]
  by_cases same : entry.1 = v
  · have gone : ∀ x ∈ l, ¬ (decide (x.1 = v) && decide (x.1 ≠ entry.1)) = true := by simp [same]
    rw [filter_eq_nil_iff.mpr gone, if_pos same, if_pos same]
    exact add_zero _
  · have kept : ∀ x ∈ l, (decide (x.1 = v) && decide (x.1 ≠ entry.1)) = decide (x.1 = v) := by
      intro x _
      by_cases here : x.1 = v
      · simp [here, Ne.symm same]
      · simp [here]
    rw [filter_congr kept, if_neg same, if_neg same, zero_add]

theorem total_foldl_assign (v : String) : total (l.foldl assign []) v = lastCoefficient l v := by
  induction l using List.reverseRecOn with
  | nil => rfl
  | append_singleton l entry ih =>
    rw [foldl_append, foldl_cons, foldl_nil, total_assign, ih]
    by_cases same : entry.1 = v
    · simp [lastCoefficient, same]
    · simp [lastCoefficient, same]

theorem formValue_eq_sum {keys : Finset String} {l : List (String × K)}
    (inside : ∀ entry ∈ l, entry.1 ∈ keys)
    (env : String → K) : formValue l env = ∑ v ∈ keys, total l v * env v := by
  induction l with
  | nil => simp [formValue, total]
  | cons entry l ih =>
    obtain ⟨here, later⟩ := forall_mem_cons.mp inside
    have rest : formValue (entry :: l) env = entry.2 * env entry.1 + formValue l env := sum_cons
    simp only [rest, ih later, total_cons, add_mul, Finset.sum_add_distrib, ite_mul, zero_mul]
    rw [Finset.sum_ite_eq, if_pos here]

theorem formValue_eq_iff {l m : List (String × K)} :
    (∀ env, formValue l env = formValue m env) ↔ ∀ v, total l v = total m v := by
  have inside : ∀ entry ∈ l ++ m, entry.1 ∈ ((l ++ m).map Prod.fst).toFinset := fun entry member =>
    mem_toFinset.mpr (mem_map_of_mem member)
  constructor
  · intro same v
    have coefficient : ∀ l : List (String × K), formValue l (fun k => if k = v then 1 else 0) =
        total l v := by
      intro l
      induction l with
      | nil => rfl
      | cons entry l ih =>
        rw [total_cons, ← ih]
        simp [formValue]
    rw [← coefficient l, same, coefficient m]
  · intro same env
    rw [formValue_eq_sum fun entry member => inside entry (mem_append_left m member),
      formValue_eq_sum fun entry member => inside entry (mem_append_right l member)]
    exact Finset.sum_congr rfl fun v _ => by rw [same]

section LastOccurrence

variable {num} {e : OrderNode} {occurrences earlier : List (Occurrence K)} {last : Occurrence K}
    {v : String}

theorem read_eq (o : Occurrence K) :
    o.read = o.term + if o.nearest = o.all then 0 else -(o.term + o.term) := by
  obtain ⟨var, c, nearest, all⟩ := o
  cases nearest <;> cases all <;> simp [Occurrence.read, Occurrence.term, signed]

theorem last_eq_total_iff (v : String) :
    lastCoefficient (occurrences.map fun o => (o.var, o.read)) v =
        total (occurrences.map fun o => (o.var, o.term)) v ↔
      ∀ earlier last, occurrences.filter (·.var = v) = earlier ++ [last] →
        (earlier.map Occurrence.term).sum = if last.nearest =
        last.all then 0 else -(last.term + last.term) := by
  have last : lastCoefficient (occurrences.map fun o => (o.var, o.read)) v =
      (((occurrences.filter (·.var = v)).map Occurrence.read).getLast?).getD 0 := by
    simp [lastCoefficient, filter_map, Function.comp_def]
  have sum : total (occurrences.map fun o => (o.var, o.term)) v =
      ((occurrences.filter (·.var = v)).map Occurrence.term).sum := by
    simp [total, filter_map, Function.comp_def]
  rw [last, sum]
  obtain none | ⟨earlier, last, some⟩ := eq_nil_or_concat (occurrences.filter (·.var = v))
  · simp [none]
  · simp only [some, concat_eq_append, map_append, map_cons, map_nil, getLast?_append, sum_append,
        sum_cons, sum_nil,
      add_zero, append_singleton_inj, getLast?_singleton, Option.some_or, Option.getD_some,
      read_eq last]
    rw [add_comm last.term, add_left_inj, eq_comm]
    exact ⟨fun cancel _ _ same => same.1 ▸ same.2 ▸ cancel,
        fun cancel => cancel earlier last ⟨rfl, rfl⟩⟩

omit [CommRing K] in
theorem earlier_nil_of_nodup (distinct : (occurrences.map Occurrence.var).Nodup)
    (split : occurrences.filter (·.var = v) = earlier ++ [last]) : earlier = [] := by
  have only : ∀ o ∈ earlier ++ [last], o.var = v := by
    intro o member
    rw [← split] at member
    exact of_decide_eq_true (mem_filter.mp member).2
  have nodup : ((earlier ++ [last]).map Occurrence.var).Nodup := by
    rw [← split]
    exact distinct.sublist (filter_sublist.map _)
  refine eq_nil_iff_forall_not_mem.mpr fun o member => ?_
  rw [map_append, nodup_append] at nodup
  exact nodup.2.2 _ (mem_map_of_mem member) last.var (by simp)
    ((only o (mem_append_left _ member)).trans (only last (by simp)).symm)

omit [CommRing K] in
theorem filter_of_nodup (distinct : (occurrences.map Occurrence.var).Nodup)
    (member : last ∈ occurrences) :
    occurrences.filter (·.var = last.var) = [last] := by
  have kept : last ∈ occurrences.filter (·.var = last.var) := by simp [member]
  obtain none | ⟨earlier, final, split⟩ := eq_nil_or_concat (occurrences.filter (·.var = last.var))
  · simp [none] at kept
  · rw [concat_eq_append] at split
    obtain rfl := earlier_nil_of_nodup distinct split
    rw [split] at kept ⊢
    rw [mem_singleton.mp kept]
    rfl

/-- Where no variable is repeated, each one has to get its sign from the nearest operator. -/
theorem earlierCancel_iff_of_nodup
    (distinct : ((e.occurrences num false false).map Occurrence.var).Nodup)
    (nonzero : ∀ o ∈ e.occurrences num false false, o.coefficient + o.coefficient ≠ 0) :
    e.EarlierCancel num ↔ ∀ o ∈ e.occurrences num false false, o.nearest = o.all := by
  constructor
  · intro cancel o member
    by_contra other
    have twice := cancel o.var [] o (filter_of_nodup distinct member)
    rw [if_neg other, map_nil, sum_nil, eq_comm, neg_eq_zero, Occurrence.term,
        ← signed_add] at twice
    refine nonzero o member ?_
    cases all : o.all with
    | false => simpa [signed, all] using twice
    | true => simpa only [signed, all, if_true, neg_eq_zero] using twice
  · intro own v earlier last split
    have member : last ∈ (e.occurrences num false false).filter (·.var = v) := by simp [split]
    rw [earlier_nil_of_nodup distinct split, if_pos (own last (mem_of_mem_filter member))]
    rfl

end LastOccurrence

/-- The stored coefficients are those of the expression exactly when the earlier occurrences of each
variable cancel out; for an expression that repeats no variable: when each variable gets its sign
from the nearest operator. -/
theorem coefficients_exact_iff {e : OrderNode} (linear : e.Linear) :
    ((∀ env, formValue (getVarCoefficients num e) env = e.value num env) ↔ e.EarlierCancel num) ∧
    (((e.occurrences num false false).map Occurrence.var).Nodup →
      (∀ o ∈ e.occurrences num false false, o.coefficient + o.coefficient ≠ 0) →
      ((∀ env, formValue (getVarCoefficients num e) env = e.value num env) ↔
        ∀ o ∈ e.occurrences num false false, o.nearest = o.all)) := by
  have exact : (∀ env, formValue (getVarCoefficients num e) env = e.value num env) ↔
      e.EarlierCancel num := by
    have form : ∀ env, e.value num env = formValue
        ((e.occurrences num false false).map fun o => (o.var, o.term)) env :=
      fun env => value_eq_formValue num linear env false false
    simp only [form]
    rw [formValue_eq_iff, getVarCoefficients, getVarCoefficientsTreeNode_eq num e false false]
    simp only [total_foldl_assign, last_eq_total_iff]
    rfl
  exact ⟨exact, fun distinct nonzero => exact.trans (earlierCancel_iff_of_nodup distinct nonzero)⟩

/-- For `?x + ?x` the coefficient of `?x` is set to 1 twice. -/
theorem repeated_variable_lost : let e := OrderNode.binary "+" (.leaf "?x") (.leaf "?x")
    e.Linear ∧ getVarCoefficients (fun _ => (0 : Int)) e = [("?x", 1)] ∧
    e.value (fun _ => (0 : Int)) (fun _ => 1) = 2 := by
  have named : (OrderNode.leaf "?x").Linear := show isVar "?x" = true by decide +kernel
  exact ⟨.inl ⟨.inl rfl, named, named⟩, by decide +kernel, by decide +kernel⟩

theorem negative_exact : formValue
    (getVarCoefficients (fun _ => (0 : Int)) (.unary "-" (.leaf "?x"))) (fun _ => 2) =
    OrderNode.value (fun _ => 0) (fun _ => 2) (.unary "-" (.leaf "?x")) := by
  have named : (OrderNode.leaf "?x").Linear := show isVar "?x" = true by decide +kernel
  have linear : (OrderNode.unary "-" (.leaf "?x")).Linear := ⟨rfl, named⟩
  refine ((coefficients_exact_iff _ linear).2 ?_ ?_).mpr ?_ _
  · simp [OrderNode.occurrences]
  · simp [OrderNode.occurrences]
  · simp [OrderNode.occurrences]

end GStore.TopK
