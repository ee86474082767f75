import Mathlib.Data.List.Induction
import Mathlib.Tactic

/-! Doubly linked lists as two link functions and two ends, and what appending, unlinking, removing
the first node and moving a node to the end do to the list of nodes. -/
namespace GStore.Lib
open Function List

variable {κ : Type}

structure LinkedList (κ : Type) where
  head : Option κ
  tail : Option κ
  next : κ → Option κ
  prev : κ → Option κ

namespace LinkedList

def empty : LinkedList κ := ⟨none, none, fun _ => none, fun _ => none⟩

/-- The nodes of `l` are linked one after the other, between `before` and `after`. -/
def Path (next prev : κ → Option κ) (before : Option κ) : List κ → Option κ → Prop
  | [], _ => True
  | a :: l, after => prev a = before ∧ next a = l.head?.or after ∧ Path next prev (some a) l after

/-- The linked list holds exactly the nodes of `l`, in this order. -/
structure Lists (c : LinkedList κ) (l : List κ) : Prop where
  nodup : l.Nodup
  head : c.head = l.head?
  tail : c.tail = l.getLast?
  path : Path c.next c.prev none l none

variable {l : List κ}

theorem Path.congr {next prev next' prev' : κ → Option κ} {before after : Option κ}
    (path : Path next prev before l after) (sameNext : ∀ x ∈ l, next' x = next x)
    (samePrev : ∀ x ∈ l, prev' x = prev x) :
    Path next' prev' before l after := by
  induction l generalizing before with
  | nil => trivial
  | cons a l ih =>
    obtain ⟨back, forth, rest⟩ := path
    refine ⟨(samePrev a mem_cons_self).trans back, (sameNext a mem_cons_self).trans forth,
        ih rest ?_ ?_⟩
    · exact fun x inside => sameNext x (mem_cons_of_mem a inside)
    · exact fun x inside => samePrev x (mem_cons_of_mem a inside)

variable {next prev : κ → Option κ}

theorem path_append {before after : Option κ} {l m : List κ} :
    Path next prev before (l ++ m) after ↔
      Path next prev before l (m.head?.or after) ∧
      Path next prev (l.getLast?.or before) m after := by
  induction l generalizing before with
  | nil => simp [Path]
  | cons a l ih =>
    have link : (l ++ m).head?.or after = l.head?.or (m.head?.or after) := by
      cases l <;> simp
    have last : (a :: l).getLast?.or before = l.getLast?.or (some a) := by
      cases l with
      | nil => rfl
      | cons b l => simp [getLast?_cons]
    simp only [cons_append, Path, link, last, ih, and_assoc]

variable {c : LinkedList κ}

theorem Lists.around {l m : List κ} {k : κ} (lists : c.Lists (l ++ k :: m)) :
    c.prev k = l.getLast? ∧ c.next k = m.head? ∧ Path c.next c.prev none l (some k) ∧
    Path c.next c.prev (some k) m none := by
  obtain ⟨front, back, forth, rest⟩ := path_append.mp lists.path
  simp only [Option.or_none, head?_cons] at front back forth
  exact ⟨back, forth, front, rest⟩

theorem empty_lists : (empty : LinkedList κ).Lists [] := ⟨nodup_nil, rfl, rfl, trivial⟩

variable [DecidableEq κ] (c : LinkedList κ) (k : κ)

def setNext (n : Option κ) : LinkedList κ := { c with next := Function.update c.next k n }
def setPrev (p : Option κ) : LinkedList κ := { c with prev := Function.update c.prev k p }
def setHead (k : Option κ) : LinkedList κ := { c with head := k }
def setTail (k : Option κ) : LinkedList κ := { c with tail := k }

/-- Let the node before (the head, if there is none) go on with `n`. -/
def linkNext (p n : Option κ) : LinkedList κ :=
  match p with
  | none => c.setHead n
  | some p => c.setNext p n

/-- Let the node behind (the tail, if there is none) go back to `p`. -/
def linkPrev (n p : Option κ) : LinkedList κ :=
  match n with
  | none => c.setTail p
  | some n => c.setPrev n p

def pushBack : LinkedList κ :=
  (((c.linkNext c.tail (some k)).setPrev k c.tail).setNext k none).setTail (some k)

def unlink : LinkedList κ :=
  (((c.linkNext (c.prev k) (c.next k)).linkPrev (c.next k) (c.prev k)).setPrev k none).setNext k
    none

def popFront : LinkedList κ :=
  (c.setHead (c.next k)).linkPrev (c.next k) none

/-- A node that is not the last and has no successor has no place to go: `none`. -/
def moveToBack : Option (LinkedList κ) :=
  if c.tail = some k then some c
  else
    match c.next k, c.tail with
    | some n, some t =>
      some ((((((c.linkNext (c.prev k) (some n)).setPrev n (c.prev k)).setPrev k (some t)).setNext k
        none).setNext t
        (some k)).setTail (some k))
    | _, _ => none

variable {before after other : Option κ}

theorem Path.setAfter {x : κ} (path : Path next prev before (l ++ [x]) after) (fresh : x ∉ l) :
    Path (Function.update next x other) prev before (l ++ [x]) other := by
  obtain ⟨front, back, -, -⟩ := path_append.mp path
  refine path_append.mpr ⟨front.congr (fun y inside => ?_) fun _ _ => rfl, back, ?_, trivial⟩
  · have differs : y ≠ x := fun same => fresh (same ▸ inside)
    exact update_of_ne differs ..
  · simp

theorem Path.setBefore {x : κ} (path : Path next prev before (x :: l) after) (fresh : x ∉ l) :
    Path next (Function.update prev x other) other (x :: l) after := by
  obtain ⟨-, forth, rest⟩ := path
  refine ⟨update_self .., forth, rest.congr (fun _ _ => rfl) fun y inside => ?_⟩
  have differs : y ≠ x := fun same => fresh (same ▸ inside)
  exact update_of_ne differs ..

variable (c : LinkedList κ)

@[simp] theorem setNext_next (k : κ) (n : Option κ) :
  (c.setNext k n).next = Function.update c.next k n := rfl
@[simp] theorem setNext_prev (k : κ) (n : Option κ) : (c.setNext k n).prev = c.prev := rfl
@[simp] theorem setNext_head (k : κ) (n : Option κ) : (c.setNext k n).head = c.head := rfl
@[simp] theorem setNext_tail (k : κ) (n : Option κ) : (c.setNext k n).tail = c.tail := rfl
@[simp] theorem setPrev_next (k : κ) (p : Option κ) : (c.setPrev k p).next = c.next := rfl
@[simp] theorem setPrev_prev (k : κ) (p : Option κ) :
  (c.setPrev k p).prev = Function.update c.prev k p := rfl
@[simp] theorem setPrev_head (k : κ) (p : Option κ) : (c.setPrev k p).head = c.head := rfl
@[simp] theorem setPrev_tail (k : κ) (p : Option κ) : (c.setPrev k p).tail = c.tail := rfl

variable {k : κ}

section

variable {c : LinkedList κ} (lists : c.Lists l) (outside : k ∉ l)
include lists outside

theorem Lists.setPrev (p : Option κ) : (c.setPrev k p).Lists l := by
  refine { lists with path := lists.path.congr (fun _ _ => rfl) fun x inside => ?_ }
  have differs : x ≠ k := fun same => outside (same ▸ inside)
  exact update_of_ne differs ..

theorem Lists.setNext (n : Option κ) : (c.setNext k n).Lists l := by
  refine { lists with path := lists.path.congr (fun x inside => ?_) fun _ _ => rfl }
  have differs : x ≠ k := fun same => outside (same ▸ inside)
  exact update_of_ne differs ..

theorem Lists.pushBack : (c.pushBack k).Lists (l ++ [k]) := by
  have nodup : (l ++ [k]).Nodup :=
      nodup_append.mpr ⟨lists.nodup, nodup_singleton k, fun x inside y last => by
    rw [mem_singleton.mp last]
    exact fun same => outside (same ▸ inside)⟩
  rcases eq_nil_or_concat' l with rfl | ⟨m, t, rfl⟩
  · have none : c.tail = Option.none := lists.tail
    refine ⟨nodup, ?_, rfl, ?_⟩
    · simp [LinkedList.pushBack, none, linkNext, setHead, setTail]
    · simp [LinkedList.pushBack, none, linkNext, setHead, setTail, Path]
  · have last : c.tail = some t := by rw [lists.tail]; simp
    have differs : t ≠ k := fun same => outside (by simp [same])
    have fresh : t ∉ m := fun inside =>
      (nodup_append.mp lists.nodup).2.2 t inside t (mem_singleton_self t) rfl
    refine ⟨nodup, ?_, by simp [LinkedList.pushBack, setTail], ?_⟩
    · have := lists.head
      cases m <;> simpa [LinkedList.pushBack, last, linkNext, setTail] using this
    · have extended : Path _ c.prev none (m ++ [t]) (some k) := lists.path.setAfter fresh
      simp only [LinkedList.pushBack, last, linkNext, setTail, setNext_next, setPrev_prev,
          setPrev_next, setNext_prev]
      refine path_append.mpr ⟨extended.congr (fun x inside => ?_) fun x inside => ?_, ?_, ?_,
          trivial⟩
      · exact update_of_ne (fun same : x = k => outside (same ▸ inside)) ..
      · exact update_of_ne (fun same : x = k => outside (same ▸ inside)) ..
      · simp
      · simp

end

theorem Lists.bypass {l m : List κ} {k : κ} (lists : c.Lists (l ++ k :: m)) :
    ((c.linkNext l.getLast? m.head?).linkPrev m.head? l.getLast?).Lists (l ++ m) := by
  obtain ⟨-, -, front, rest⟩ := lists.around
  have nodup : (l ++ m).Nodup := lists.nodup.sublist (sublist_append_right [k] m |>.append_left l)
  obtain ⟨leftNodup, rightNodup, apart⟩ := nodup_append.mp nodup
  have head := lists.head
  have tail := lists.tail
  rcases eq_nil_or_concat' l with rfl | ⟨l, p, rfl⟩
  · cases m with
    | nil => exact ⟨nodup, rfl, rfl, trivial⟩
    | cons n m =>
      exact ⟨nodup, rfl, by simpa [linkNext, linkPrev, setHead] using tail, rest.setBefore (nodup_cons.mp rightNodup).1⟩
  · have fresh : p ∉ l := fun inside => (nodup_append.mp leftNodup).2.2 p inside p
      (mem_singleton_self p) rfl
    have start : c.head = (l ++ [p]).head? := by
      cases l <;> simpa using head
    cases m with
    | nil =>
      rw [append_nil]
      exact ⟨leftNodup, by simpa [linkNext, linkPrev, setTail] using start, by simp [linkNext, linkPrev, setTail],
        by simpa [linkNext, linkPrev, setTail] using front.setAfter fresh⟩
    | cons n m =>
      refine ⟨nodup, ?_, by simpa [linkNext, linkPrev] using tail, path_append.mpr ⟨?_, ?_⟩⟩
      · rw [getLast?_concat, head?_cons]
        exact start.trans (by cases l <;> rfl)
      · simp only [getLast?_concat, head?_cons, linkNext, linkPrev, setPrev_next, setPrev_prev,
            setNext_next, setNext_prev]
        refine (front.setAfter fresh).congr (fun _ _ => rfl) fun x inside => ?_
        exact update_of_ne (apart x inside n mem_cons_self) ..
      · simp only [getLast?_concat, head?_cons, linkNext, linkPrev, setPrev_next, setPrev_prev,
            setNext_next, setNext_prev]
        refine (rest.setBefore (nodup_cons.mp rightNodup).1).congr (fun x inside => ?_) fun _ _ =>
          rfl
        exact update_of_ne (apart p (by simp) x inside).symm ..

theorem Lists.unlink {l m : List κ} (lists : c.Lists (l ++ k :: m)) :
    (c.unlink k).Lists (l ++ m) := by
  obtain ⟨back, forth, -, -⟩ := lists.around
  have outside : k ∉ l ++ m := (nodup_middle.mp lists.nodup |> nodup_cons.mp).1
  rw [LinkedList.unlink, back, forth]
  exact (lists.bypass.setPrev outside _).setNext outside _

theorem Lists.popFront (lists : c.Lists (k :: l)) : (c.popFront k).Lists l := by
  obtain ⟨-, forth, -, -⟩ := @Lists.around κ c [] l k lists
  rw [LinkedList.popFront, forth]
  exact @Lists.bypass κ _ c [] l k lists

theorem Lists.moveToBack {l m : List κ} (lists : c.Lists (l ++ k :: m)) :
    ∃ d, c.moveToBack k = some d ∧ d.Lists (l ++ m ++ [k]) := by
  have outside : k ∉ l ++ m := (nodup_middle.mp lists.nodup |> nodup_cons.mp).1
  obtain ⟨back, forth, -, -⟩ := lists.around
  unfold LinkedList.moveToBack
  cases m with
  | nil =>
    refine ⟨c, if_pos (by rw [lists.tail]; simp), ?_⟩
    rw [append_nil]
    exact lists
  | cons n m =>
    obtain ⟨t, last⟩ : ∃ t, c.tail = some t :=
      ⟨_, lists.tail.trans (getLast?_eq_getLast_of_ne_nil (by simp))⟩
    have inside : t ∈ n :: m := mem_of_getLast? (by rw [← last, lists.tail]; simp [getLast?_cons])
    have differs : t ≠ k := fun same => outside (same ▸ mem_append_right l inside)
    refine ⟨_, ?_, lists.bypass.pushBack outside⟩
    rw [last, forth, back, if_neg (by simpa using differs)]
    simp only [head?_cons, LinkedList.pushBack]
    -- the successors of `t` and `k` are set in the other order
    have tail : ((c.linkNext l.getLast? (some n)).linkPrev (some n) l.getLast?).tail = some t := by
      cases l.getLast? <;> exact last
    rw [tail]
    simp [linkNext, linkPrev, LinkedList.setNext, LinkedList.setPrev, setTail, update_comm differs]

end LinkedList
end GStore.Lib
