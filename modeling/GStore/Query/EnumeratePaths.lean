import GStore.Lib.SimplePaths
import GStore.Query.AllShortestPaths

/-! `kHopEnumeratePath`: the reverse search gives lower bounds, so that the recursive search leaves
out no path, and the budget takes the first paths of those that an unbounded search finds. -/
namespace GStore
open Lib List

section Bar

variable {n : Nat} {f : Int → Int} {vid cur level : Int}

theorem foldlM_barVisit (nonneg : 0 ≤ level) (here : f cur = level) (vertex : IsVertex n cur)
    (marked : level ≠ 0 ∨ cur = vid)
    {ns : List Int} (vertices : ∀ w ∈ ns, IsVertex n w) {bar q : List Int}
    (table : Tabulates bar n f) :
    ∃ bar' new, ns.foldlM (fun st dst => do
        let level ← readAt st.1 cur
        barVisit vid level st dst) (bar, q) = .ok (bar', q ++ new) ∧
      Tabulates bar' n (fun w => if w ∈ new then level + 1 else f w) ∧ new.Nodup ∧
      ∀ w, w ∈ new ↔ w ∈ ns ∧ f w = 0 ∧ w ≠ vid := by
  induction ns generalizing f bar q with
  | nil => exact ⟨bar, [], by simp [pure, Except.pure], by simpa using table, nodup_nil, by simp⟩
  | cons w ns ih =>
    obtain ⟨positive, below⟩ := vertices w mem_cons_self
    have later : ∀ w ∈ ns, IsVertex n w := fun x listed => vertices x (mem_cons_of_mem w listed)
    have readCur : readAt bar cur = .ok level := by rw [table.read cur vertex.1 vertex.2, here]
    have readW := table.read w positive below
    by_cases fresh : f w = 0 ∧ w ≠ vid
    · obtain ⟨bar₁, wrote, table₁⟩ := table.write positive below (level + 1)
      have away : cur ≠ w := by
        rintro rfl
        rcases marked with other | same
        · exact other (here ▸ fresh.1)
        · exact fresh.2 same
      obtain ⟨bar', new, ran, marks, once, members⟩ := @ih (Function.update f w (level + 1))
        (by rw [Function.update_of_ne away, here]) later bar₁ (q ++ [w]) table₁
      refine ⟨bar', w :: new, ?_, ?_, ?_, fun x => ?_⟩
      · rw [foldlM_cons]
        simp only [readCur, barVisit, if_neg (not_lt.mpr positive), readW, if_pos fresh, wrote,
            bind, Except.bind, pure, Except.pure]
          at ran ⊢
        rw [ran, append_assoc, singleton_append]
      · refine ⟨marks.length, fun i low high => ?_⟩
        rw [marks.read i low high]
        obtain rfl | same := eq_or_ne i w
        · simp
        · simp [same]
      · refine nodup_cons.mpr ⟨fun again => ?_, once⟩
        have := ((members w).mp again).2.1
        rw [Function.update_self] at this
        omega
      · rw [mem_cons, mem_cons, members]
        obtain rfl | same := eq_or_ne x w
        · simp [fresh]
        · simp [same]
    · obtain ⟨bar', new, ran, marks, once, members⟩ := @ih f here later bar q table
      refine ⟨bar', new, ?_, marks, once, fun x => ?_⟩
      · rw [foldlM_cons]
        simp only [readCur, barVisit, if_neg (not_lt.mpr positive), readW, if_neg fresh, bind,
            Except.bind, pure, Except.pure]
          at ran ⊢
        exact ran
      · rw [members, mem_cons]
        constructor
        · exact fun both => ⟨.inr both.1, both.2⟩
        · rintro ⟨rfl | listed, both⟩
          · exact absurd both fresh
          · exact ⟨listed, both⟩

variable {G : LabelledGraph} {csr : CSR × CSR} {directed : Bool} {predSet : List Nat}

theorem Stores.mem_backwards (stores : Stores csr G) {v w : Int} (vertex : v ∈ G.vertices) :
    w ∈ (predSet.flatMap fun p => csr.2.verts v p ++ if directed then [] else csr.1.verts v p) ↔
    G.Step directed predSet w v := by
  simp only [mem_flatMap, mem_append, LabelledGraph.Step, stores.into vertex]
  cases directed with
  | true => simp
  | false => simp [stores.out vertex]

theorem barSearch_spec (stores : Stores csr G) (ids : ∀ x ∈ G.vertices, IsVertex n x)
    (last : vid ∈ G.vertices) (k : Nat)
    {turns : Nat} {bar done queue : List Int}
    (bfs : Bfs (fun x y => G.Step directed predSet y x) (· ≤ k) vid done queue)
    (table : Tabulates bar n fun w => if w ∈ done ++
      queue then (distance (fun x y => G.Step directed predSet y x) vid w : Int) else 0)
    (enough : G.vertices.card < turns + done.length) :
    ∃ bar' f, barSearch csr directed predSet vid k turns (bar, queue) = .ok bar' ∧
    Tabulates bar' n f ∧
      ∀ w i, Walk (G.Step directed predSet) w i vid → f w ≤ i := by
  have closed : ∀ x w, G.Step directed predSet w x → w ∈ G.vertices := fun _ _ step => step.source
  induction turns generalizing bar done queue with
  | zero =>
    have := bfs.length_le last closed
    omega
  | succ turns ih =>
    cases queue with
    | nil =>
      refine ⟨bar, _, rfl, table, fun w i walk => ?_⟩
      split
      · exact_mod_cast walk.back.distance_le
      · omega
    | cons cur queue =>
      have found : cur ∈ done ++ cur :: queue := by simp
      have reach := bfs.reach cur found
      have vertex := reach.walk.inside last closed
      have cut := table.read cur (ids cur vertex).1 (ids cur vertex).2
      rw [if_pos found] at cut
      rw [barSearch, if_neg (not_lt.mpr (ids cur vertex).1), cut]
      simp only [bind, Except.bind]
      have shape : ∀ new, (done ++ [cur]) ++ (queue ++ new) = (done ++ cur :: queue) ++ new := by
        simp
      by_cases far : (k : Int) ≤ distance (fun x y => G.Step directed predSet y x) vid cur
      · rw [if_pos far]
        have next := @Bfs.step _ _ vid cur (· ≤ k) done queue []
          (fun i j le within => le.trans within) bfs nodup_nil
          (fun w member => by cases member) (fun within => by omega)
        refine ih (by simpa using next) ?_ (by simp; omega)
        simpa using table
      · rw [if_neg far]
        have marked : ((distance (fun x y => G.Step directed predSet y x) vid cur : Nat) : Int) ≠
            0 ∨ cur = vid := by
          by_cases zero : distance (fun x y => G.Step directed predSet y x) vid cur = 0
          · exact .inr (reach.distance_eq_zero.mp zero)
          · exact .inl (by exact_mod_cast zero)
        obtain ⟨bar', new, ran, marks, once, members⟩ := @foldlM_barVisit n
          (fun w => if w ∈ done ++ cur :: queue then
            (distance (fun x y => G.Step directed predSet y x) vid w : Int) else 0) vid cur
          (distance (fun x y => G.Step directed predSet y x) vid cur) (Int.natCast_nonneg _)
          (if_pos found) (ids cur vertex) marked
          (predSet.flatMap fun p => csr.2.verts cur p ++ if directed then [] else csr.1.verts cur p)
          (fun w listed => ids w ((stores.mem_backwards vertex).mp listed).source) bar queue table
        -- a mark of 0 is that of the goal and of the vertices that have not been found
        have unmarked : ∀ w, ((if w ∈ done ++ cur :: queue then
            (distance (fun x y => G.Step directed predSet y x) vid w : Int) else 0) = 0 ∧ w ≠ vid) ↔
            w ∉ done ++ cur :: queue := by
          intro w
          constructor
          · rintro ⟨zero, ne⟩ found
            rw [if_pos found] at zero
            exact ne ((bfs.reach w found).distance_eq_zero.mp (by exact_mod_cast zero))
          · intro new
            exact ⟨if_neg new, fun same => new (same ▸ bfs.source)⟩
        have fresh : ∀ w, w ∈ new ↔ G.Step directed predSet w cur ∧ w ∉ done ++ cur :: queue := by
          intro w
          rw [members, unmarked, stores.mem_backwards vertex]
        have down : ∀ i j, i ≤ j → j ≤ k → i ≤ k := fun i j le within => le.trans within
        have next := bfs.step down once
          (fun w member => ⟨((fresh w).mp member).1,
            ((fresh w).mp member).2, by omega⟩) fun _ w step => by
            by_cases found : w ∈ done ++ cur :: queue
            · exact .inl found
            · exact .inr ((fresh w).mpr ⟨step, found⟩)
        simp only [bind, Except.bind] at ran
        rw [ran]
        refine ih next ?_ (by simp; omega)
        refine ⟨marks.length, fun i low high => ?_⟩
        rw [marks.read i low high, shape]
        by_cases member : i ∈ new
        · have further := bfs.new_distance down ((fresh i).mp member).1 ((fresh i).mp member).2
          rw [if_pos member, if_pos (mem_append_right _ member), further]
          push_cast
          rfl
        · rw [if_neg member]
          by_cases found : i ∈ done ++ cur :: queue
          · rw [if_pos found, if_pos (mem_append_left _ found)]
          · rw [if_neg found, if_neg (by rw [mem_append, not_or]; exact ⟨found, member⟩)]

end Bar

section Search

variable {n k : Nat} {vid : Int} {bar : List Int} {f : Int → Int} {steps : Int → List (Int × Int)}

theorem foldlM_steps {dfs : Int → Paths → Except Fault (Int × Paths)} (table : Tabulates bar n f)
    {stack : List (Int × Int)}
    {turns : Nat} {l : List (Int × Int)} (vertices : ∀ step ∈ l, IsVertex n step.1)
    (safe : ∀ step ∈ l, step.1 ∉ stack.map Prod.fst → (k : Int) < stack.length + f step.1 →
      completions steps vid k turns step.1 (stack ++ [step]) = [])
    (deeper : ∀ step ∈ l, step.1 ∉ stack.map Prod.fst → ∀ budget ≠ 0, ∀ paths,
      ∃ d, dfs step.1 ⟨stack ++ [step], budget, paths⟩ = .ok (d, ⟨stack,
        spend budget (completions steps vid k turns step.1 (stack ++ [step])).length,
        paths ++ (takeBudget budget (completions steps vid k turns step.1 (stack ++ [step]))).map
        pathOf⟩)) (d : Int) (budget : Int)
    (paths : List (List Int)) :
    ∃ d', l.foldlM (fun (acc : Int × Paths) step => do
        if step.1 < 0 ∨ (bar.length : Int) ≤ step.1 then return acc
        if acc.2.stack.any (fun pr => pr.1 == step.1) then return acc
        let b ← readAt bar step.1
        if (acc.2.stack.length : Int) + b ≤ k ∧ acc.2.retBudget ≠ 0 then
          let r ← dfs step.1 { acc.2 with stack := acc.2.stack ++ [step] }
          return (if r.1 ≠ k + 1 ∧ acc.1 < r.1 + 1 then r.1 + 1 else acc.1, r.2)
        else return acc) (d, ⟨stack, budget, paths⟩) =
      .ok (d', ⟨stack,
        spend budget (l.flatMap fun step => if step.1 ∈ stack.map Prod.fst then [] else
          completions steps vid k turns step.1 (stack ++ [step])).length,
        paths ++ (takeBudget budget
          (l.flatMap fun step => if step.1 ∈ stack.map Prod.fst then [] else
          completions steps vid k turns step.1 (stack ++ [step]))).map pathOf⟩) := by
  induction l generalizing d budget paths with
  | nil => exact ⟨d, by simp [spend_none, pure, Except.pure]⟩
  | cons step l ih =>
    have rest := ih (fun s later => vertices s (mem_cons_of_mem step later))
      (fun s later => safe s (mem_cons_of_mem step later)) fun s later => deeper s
      (mem_cons_of_mem step later)
    obtain ⟨nonneg, below⟩ := vertices step mem_cons_self
    have inside : ¬(step.1 < 0 ∨ (bar.length : Int) ≤ step.1) := by
      have := table.length
      omega
    have read := table.read step.1 nonneg below
    have any : (stack.any fun pr => pr.1 == step.1) = true ↔ step.1 ∈ stack.map Prod.fst := by
      simp [any_eq_true, mem_map]
    rw [foldlM_cons, flatMap_cons, length_append, spend_add, takeBudget_append, map_append,
      ← append_assoc]
    by_cases old : step.1 ∈ stack.map Prod.fst
    · obtain ⟨d', ran⟩ := rest d budget paths
      refine ⟨d', ?_⟩
      rw [if_neg inside, if_pos (any.mpr old), if_pos old]
      simpa [spend_none, pure, Except.pure, bind, Except.bind] using ran
    · rw [if_neg inside, if_neg (mt any.mp old), if_neg old]
      by_cases taken : (stack.length : Int) + f step.1 ≤ k ∧ budget ≠ 0
      · obtain ⟨d₁, called⟩ := deeper step mem_cons_self old budget taken.2 paths
        obtain ⟨d', ran⟩ := rest (if d₁ ≠ k + 1 ∧ d < d₁ + 1 then d₁ + 1 else d)
          (spend budget (completions steps vid k turns step.1 (stack ++ [step])).length)
          (paths ++ (takeBudget budget (completions steps vid k turns step.1 (stack ++ [step]))).map
            pathOf)
        refine ⟨d', ?_⟩
        simp only [read, if_pos taken, called, bind, Except.bind, pure, Except.pure] at ran ⊢
        exact ran
      · have nothing : budget = 0 ∨ completions steps vid k turns step.1
          (stack ++ [step]) = [] := by
          rw [not_and_or, not_not] at taken
          exact taken.symm.imp id fun far => safe step mem_cons_self old (not_le.mp far)
        obtain ⟨d', ran⟩ := rest d budget paths
        refine ⟨d', ?_⟩
        simp only [read, if_neg taken, bind, Except.bind, pure, Except.pure] at ran ⊢
        rcases nothing with rfl | none
        · simpa using ran
        · simpa [none, spend_none] using ran

variable {G : LabelledGraph} {csr : CSR × CSR} {directed : Bool} {predSet : List Nat}

variable (stores : Stores csr G)
include stores

theorem Stores.mem_labelledSteps {x : Int} (vertex : x ∈ G.vertices) {step : Int × Int} :
    step ∈ labelledSteps csr directed predSet x ↔ G.Signed directed predSet step.2 x step.1 := by
  rw [LabelledGraph.Signed, ← @signedEdges_iff _ _ csr.1 csr.2 _ _ _ (fun p w => stores.out vertex)
    fun p w => stores.into vertex, labelledSteps, mem_map]
  exact ⟨fun ⟨e, listed, same⟩ => same ▸ listed, fun listed => ⟨_, listed, rfl⟩⟩

theorem Stores.labelledSteps_nodup {x : Int} (vertex : x ∈ G.vertices) (distinct : predSet.Nodup) :
    (labelledSteps csr directed predSet x).Nodup := by
  refine Nodup.map Prod.swap_injective
    (nodup_flatMap.mpr ⟨fun p _ => nodup_append.mpr ⟨?_, ?_, ?_⟩, distinct.imp ?_⟩)
  · exact (stores.outOnce p x vertex).map (Prod.mk_right_injective _)
  · cases directed with
    | true => exact nodup_nil
    | false => exact (stores.intoOnce p x vertex).map (Prod.mk_right_injective _)
  · rintro e forward e' backward rfl
    obtain ⟨w, -, rfl⟩ := mem_map.mp forward
    cases directed with
    | true => cases backward
    | false =>
      obtain ⟨w', -, same⟩ := mem_map.mp backward
      have := congrArg Prod.fst same
      simp only at this
      omega
  · intro p q ne e left right
    have label : ∀ r : Nat, e ∈ (csr.1.verts x r).map (Prod.mk (r : Int)) ++
        (if directed then [] else (csr.2.verts x r).map (Prod.mk (-(r : Int) - 1))) →
        e.1 = r ∨ e.1 = -(r : Int) - 1 := by
      intro r listed
      rcases mem_append.mp listed with forward | backward
      · obtain ⟨w, -, rfl⟩ := mem_map.mp forward
        exact .inl rfl
      · cases directed with
        | true => cases backward
        | false =>
          obtain ⟨w, -, rfl⟩ := mem_map.mp backward
          exact .inr rfl
    have one := label p left
    have two := label q right
    omega

section

variable {x z : Int} {rest : List (Int × Int)} (vertex : x ∈ G.vertices)
  (chained : Chained (labelledSteps csr directed predSet) x rest z)
include vertex chained

theorem Chained.walk : Walk (G.Step directed predSet) x rest.length z := by
  induction chained with
  | nil => exact .refl
  | @cons x z step rest listed _ ih =>
    have edge := step_of_signed ((stores.mem_labelledSteps vertex).mp listed)
    have first : Walk (G.Step directed predSet) x 1 step.1 := Walk.refl.tail edge
    rw [List.length_cons, Nat.add_comm]
    exact first.append (ih edge.target)

theorem Chained.inside : ∀ y ∈ rest.map Prod.fst, y ∈ G.vertices := by
  induction chained with
  | nil =>
    intro y member
    cases member
  | @cons x z step rest listed _ ih =>
    have target := (step_of_signed ((stores.mem_labelledSteps vertex).mp listed)).target
    exact forall_mem_cons.mpr ⟨target, ih target⟩

end

omit stores in
theorem stack_length_le {stack : List (Int × Int)} (once : (stack.map Prod.fst).Nodup)
    (inside : ∀ y ∈ stack.map Prod.fst, y ∈ G.vertices) : stack.length ≤ G.vertices.card := by
  rw [← length_map (f := Prod.fst), ← toFinset_card_of_nodup once]
  exact Finset.card_le_card fun y member => inside y (mem_toFinset.mp member)

theorem bcDfs_spec (ids : ∀ x ∈ G.vertices, IsVertex n x) (table : Tabulates bar n f)
    (lower : ∀ w i, Walk (G.Step directed predSet) w i vid → f w ≤ i) {turns : Nat} {x : Int}
    {stack : List (Int × Int)}
    (on : OnStack x stack) (inside : ∀ y ∈ stack.map Prod.fst, y ∈ G.vertices)
    (short : stack.length ≤ k + 1)
    (enough : G.vertices.card < turns + stack.length) {budget : Int} (some : budget ≠ 0)
    (paths : List (List Int)) :
    ∃ d, bcDfs csr directed predSet vid k bar turns x ⟨stack, budget, paths⟩ = .ok
    (d, ⟨stack.dropLast,
      spend budget (completions (labelledSteps csr directed predSet) vid k turns x stack).length,
      paths ++ (takeBudget budget
        (completions (labelledSteps csr directed predSet) vid k turns x stack)).map pathOf⟩) := by
  induction turns generalizing x stack budget paths with
  | zero =>
    have card := stack_length_le on.once inside
    omega
  | succ turns ih =>
    have vertex := inside x on.top
    rw [bcDfs, completions]
    by_cases arrived : x = vid
    · rw [if_pos arrived, if_pos arrived]
      refine ⟨0, ?_⟩
      have one : takeBudget budget [stack] = [stack] := by
        unfold takeBudget
        split
        · rfl
        · exact take_of_length_le (by simp; omega)
      have less : spend budget [stack].length = if 0 < budget then budget - 1 else budget := by
        unfold spend
        split
        · rw [if_neg (by omega)]
        · rw [if_pos (by omega), length_singleton]
          omega
      rw [one, less]
      rfl
    · rw [if_neg arrived, if_neg arrived]
      by_cases room : stack.length ≤ k
      · have targets : ∀ step ∈ labelledSteps csr directed predSet x, step.1 ∈ G.vertices :=
          fun step listed =>
          (step_of_signed ((stores.mem_labelledSteps vertex).mp listed)).target
        have grown : ∀ step ∈ labelledSteps csr directed predSet x, ∀ y ∈
            (stack ++ [step]).map Prod.fst, y ∈ G.vertices := by
          intro step listed y member
          rw [map_append, mem_append] at member
          rcases member with old | new
          · exact inside y old
          · rw [map_singleton, mem_singleton] at new
            exact new ▸ targets step listed
        have looped := @foldlM_steps n k vid bar f (labelledSteps csr directed predSet)
          (bcDfs csr directed predSet vid k bar turns) table stack turns
          (labelledSteps csr directed predSet x)
          (fun step listed => ids _ (targets step listed)) (fun step listed new far => ?_)
          (fun step listed new budget some paths => ?_) (k + 1) budget paths
        · obtain ⟨d, ran⟩ := looped
          refine ⟨d, ?_⟩
          rw [if_pos (by omega : (stack.length : Int) - 1 < k), if_pos room]
          simp only [bind, Except.bind, pure, Except.pure] at ran ⊢
          rw [ran]
        · refine eq_nil_iff_forall_not_mem.mpr fun found member => ?_
          obtain ⟨rest, rfl, chained, -, bounded⟩ :=
            completions_sound (on.push new) (by simpa using room) member
          have bound := lower _ _ (Chained.walk stores (targets step listed) chained)
          simp only [length_append, length_singleton] at bounded
          omega
        · obtain ⟨d, ran⟩ := ih (on.push new) (grown step listed)
            (by simpa using room) (by simp; omega) some paths
          rw [dropLast_concat] at ran
          exact ⟨d, ran⟩
      · refine ⟨k + 1, ?_⟩
        rw [if_neg (by omega : ¬(stack.length : Int) - 1 < k), if_neg room]
        simp [spend_none, bind, Except.bind, pure, Except.pure]

end Search

section Result

variable {G : LabelledGraph} {csr : CSR × CSR} {directed : Bool} {predSet : List Nat} {u v : Int}

theorem pathOf_snoc (u c : Int) (rest : List (Int × Int)) (step : Int × Int) :
    pathOf ((u, c) :: (rest ++ [step])) = pathOf ((u, c) :: rest) ++ [step.2, step.1] := by
  simp [pathOf]

theorem Chained.written (stores : Stores csr G) {x z : Int} {rest before : List (Int × Int)}
    {n : Nat} (vertex : x ∈ G.vertices)
    (chained : Chained (labelledSteps csr directed predSet) x rest z)
    (written : Written (G.Signed directed predSet) u (pathOf ((u, -1) :: before)) n x) :
    Written (G.Signed directed predSet) u (pathOf ((u, -1) :: (before ++ rest)))
    (n + rest.length) z := by
  induction chained generalizing before n with
  | nil => simpa using written
  | @cons x z step rest listed _ ih =>
    have signed := (stores.mem_labelledSteps vertex).mp listed
    have longer := written.snoc signed
    rw [← pathOf_snoc] at longer
    have whole := ih (step_of_signed signed).target longer
    rw [List.append_cons, List.length_cons, Nat.add_comm rest.length, ← Nat.add_assoc]
    exact whole

theorem Written.chained (stores : Stores csr G) (first : u ∈ G.vertices) {path : List Int} {n : Nat}
    {z : Int}
    (written : Written (G.Signed directed predSet) u path n z) :
    z ∈ G.vertices ∧ ∃ rest, path = pathOf ((u, -1) :: rest) ∧
    Chained (labelledSteps csr directed predSet) u rest z ∧
      rest.length = n := by
  induction written with
  | single => exact ⟨first, [], rfl, .nil, rfl⟩
  | @snoc path n c x w _ signed ih =>
    obtain ⟨vertex, rest, rfl, chained, length⟩ := ih
    refine ⟨(step_of_signed signed).target, rest ++ [(w, c)], (pathOf_snoc u (-1) rest (w, c)).symm,
      chained.snoc ((stores.mem_labelledSteps vertex).mpr signed), by simp [length]⟩

theorem verticesOf_pathOf (u c : Int) (rest : List (Int × Int)) :
    verticesOf (pathOf ((u, c) :: rest)) = ((u, c) :: rest).map Prod.fst := by
  rw [pathOf]
  induction rest generalizing u with
  | nil => rfl
  | cons step rest ih =>
    simp only [flatMap_cons, cons_append, nil_append, verticesOf, map_cons] at ih ⊢
    rw [ih]

theorem pathOf_injective {u c : Int} {one two : List (Int × Int)}
    (same : pathOf ((u, c) :: one) = pathOf ((u, c) :: two)) :
    one = two := by
  simp only [pathOf, List.cons.injEq, true_and] at same
  induction one generalizing two with
  | nil =>
    cases two with
    | nil => rfl
    | cons step two => simp at same
  | cons a one ih =>
    cases two with
    | nil => simp at same
    | cons b two =>
      simp only [flatMap_cons, cons_append, nil_append, List.cons.injEq] at same
      rw [ih same.2.2, Prod.ext same.2.1 same.1]

/-- Without a budget each simple path of at most `k` edges is returned once and nothing else; with a
budget of `r` paths the first `r` of them, or all if there are fewer. -/
def EnumeratesPaths (csr : CSR × CSR) (G : LabelledGraph) (turns : Nat) (u v : Int)
    (directed : Bool) (k : Int)
    (predSet : List Nat) : Prop :=
  ∃ paths, kHopEnumeratePath csr turns u v (-1) directed k predSet = .ok paths ∧ paths.Nodup ∧
    (∀ path, path ∈ paths ↔
      ∃ n : Nat, n ≤ k ∧ Written (G.Signed directed predSet) u path n v ∧ (verticesOf path).Nodup) ∧
    ∀ r : Nat, 1 ≤ r → ∃ chosen, kHopEnumeratePath csr turns u v r directed k predSet = .ok chosen ∧
      chosen.Sublist paths ∧ chosen.length = min r paths.length

section Between

variable (stores : Stores csr G) (ids : ∀ x ∈ G.vertices, IsVertex csr.2.n x)
    (last : v ∈ G.vertices) {turns : Nat}
  (enough : G.vertices.card < turns)
include stores ids last enough

theorem barSearch_start (k : Nat) :
    ∃ bar f, barSearch csr directed predSet v k turns (List.replicate csr.2.n 0, [v]) = .ok bar ∧
      Tabulates bar csr.2.n f ∧ ∀ w i, Walk (G.Step directed predSet) w i v → f w ≤ i := by
  have start : Tabulates (List.replicate csr.2.n (0 : Int)) csr.2.n fun w =>
      if w ∈ [] ++ [v] then (distance (fun x y => G.Step directed predSet y x) v w : Int) else
          0 := by
    refine ⟨length_replicate, fun i low high => ?_⟩
    rw [(tabulates_replicate _ 0).read i low high]
    split_ifs with here
    · rw [mem_singleton.mp here, distance_self]
      rfl
    · rfl
  exact @barSearch_spec csr.2.n v G csr directed predSet stores ids last k turns _ [] [v]
    (Bfs.init (Nat.zero_le k)) start (by simpa using enough)

theorem enumerates_between (first : u ∈ G.vertices) (distinct : predSet.Nodup) {k : Int}
    (nonneg : 0 ≤ k) :
    EnumeratesPaths csr G turns u v directed k predSet := by
  obtain ⟨k, rfl⟩ := Int.eq_ofNat_of_zero_le nonneg
  have vertexU := ids u first
  have vertexV := ids v last
  obtain ⟨bar, f, marked, table, lower⟩ :=
    @barSearch_start _ _ directed predSet _ stores ids last _ enough k
  -- the search from the stack of one vertex
  have on : OnStack u [(u, (-1 : Int))] := ⟨mem_singleton_self u, nodup_singleton _⟩
  have called := fun budget some => @bcDfs_spec csr.2.n k v bar f G csr directed predSet stores ids
    table lower turns u [(u, -1)] on
    (fun y member => mem_singleton.mp member ▸ first) (by simp) (by simp; omega) budget some []
  obtain ⟨found, same⟩ : ∃ found, completions (labelledSteps csr directed predSet) v k turns u
    [(u, -1)] = found := ⟨_, rfl⟩
  rw [same] at called
  have returns : ∀ budget : Int, budget ≠ 0 →
      kHopEnumeratePath csr turns u v budget directed k predSet = .ok
      ((takeBudget budget found).map pathOf) := by
    intro budget some
    obtain ⟨d, ran⟩ := called budget some
    have positive : csr.2.n ≠ 0 := by
      have := vertexU.1.trans_lt vertexU.2
      omega
    rw [kHopEnumeratePath, if_neg (by have := vertexU.1; have := vertexV.1; omega), if_neg positive]
    simp [marked, ran, bind, Except.bind, pure, Except.pure]
  -- what is found
  have shape : ∀ stack ∈ found, ∃ rest, stack = (u, -1) :: rest ∧
    Chained (labelledSteps csr directed predSet) u rest v ∧
      (stack.map Prod.fst).Nodup ∧ stack.length ≤ k + 1 := by
    intro stack member
    exact completions_sound on (by simp) (same ▸ member)
  have once : found.Nodup := by
    rw [← same]
    refine completions_nodup (P := (· ∈ G.vertices))
      (fun x vertex => stores.labelledSteps_nodup vertex distinct)
      (fun x vertex step listed => ?_) first on (by simp)
    exact (step_of_signed ((stores.mem_labelledSteps vertex).mp listed)).target
  refine ⟨found.map pathOf, returns (-1) (by decide), ?_, fun path => ?_, fun r positive => ?_⟩
  · refine (nodup_map_iff_inj_on once).mpr fun one left two right equal => ?_
    obtain ⟨rest, rfl, -⟩ := shape one left
    obtain ⟨rest', rfl, -⟩ := shape two right
    rw [pathOf_injective equal]
  · rw [mem_map]
    constructor
    · rintro ⟨stack, member, rfl⟩
      obtain ⟨rest, rfl, chained, simple, short⟩ := shape stack member
      rw [List.length_cons] at short
      refine ⟨rest.length, by omega, ?_, by rwa [verticesOf_pathOf]⟩
      have whole := @Chained.written G csr directed predSet u stores u v rest
        [] 0 first chained .single
      simpa using whole
    · rintro ⟨n, le, written, simple⟩
      obtain ⟨-, rest, rfl, chained, rfl⟩ := written.chained stores first
      rw [verticesOf_pathOf] at simple
      refine ⟨(u, -1) :: rest, ?_, rfl⟩
      have fewer := stack_length_le simple
        (forall_mem_cons.mpr ⟨first, Chained.inside stores first chained⟩)
      rw [List.length_cons] at fewer
      rw [← same]
      exact completions_complete on chained simple (by simpa using le) (by omega)
  · have taken : takeBudget (r : Int) found = found.take r := if_neg (by omega)
    refine ⟨(takeBudget r found).map pathOf, returns r (by omega), ?_, ?_⟩
    · rw [taken]
      exact (take_sublist r found).map pathOf
    · rw [taken, length_map, length_map, length_take]

end Between

/-- The graph with the ids `X` as further vertices, without edges. -/
def LabelledGraph.withVertices (G : LabelledGraph) (X : Finset Int) (nonneg : ∀ x ∈ X, 0 ≤ x) :
    LabelledGraph where
  vertices := X ∪ G.vertices
  edge := G.edge
  nonneg vertex := (Finset.mem_union.mp vertex).elim (nonneg _) G.nonneg
  source edge := Finset.mem_union_right X (G.source edge)
  target edge := Finset.mem_union_right X (G.target edge)

section Isolated

variable (stores : Stores csr G) (vacant : Vacant csr G)
    (ids : ∀ x ∈ G.vertices, IsVertex csr.2.n x)
include stores vacant

theorem Stores.withVertices {X : Finset Int} (nonneg : ∀ x ∈ X, 0 ≤ x) (int : ∀ x ∈ X, x < 2 ^ 31) :
    Stores csr (G.withVertices X nonneg) := by
  have cases : ∀ p, ∀ v ∈ (G.withVertices X nonneg).vertices,
      v ∈ G.vertices ∨ v ∉ G.vertices ∧ csr.1.verts v p = [] ∧ csr.2.verts v p = [] := by
    intro p v vertex
    by_cases inside : v ∈ G.vertices
    · exact .inl inside
    · have new := (Finset.mem_union.mp vertex).resolve_right inside
      exact .inr ⟨inside, vacant.verts p v (nonneg v new) (int v new) inside⟩
  constructor
  · intro p v vertex
    rcases cases p v vertex with inside | ⟨-, none, -⟩
    · exact stores.outOnce p v inside
    · exact none ▸ nodup_nil
  · intro p v w vertex
    rcases cases p v vertex with inside | ⟨outside, none, -⟩
    · exact stores.out inside
    · exact none ▸ iff_of_false not_mem_nil fun edge => outside (G.source edge)
  · intro p v vertex
    rcases cases p v vertex with inside | ⟨-, -, none⟩
    · exact stores.intoOnce p v inside
    · exact none ▸ nodup_nil
  · intro p v w vertex
    rcases cases p v vertex with inside | ⟨outside, -, none⟩
    · exact stores.into inside
    · exact none ▸ iff_of_false not_mem_nil fun edge => outside (G.target edge)

omit stores vacant in
theorem enumerates_nothing {turns : Nat} {k : Int} (ne : u ≠ v) (outside : u ∉ G.vertices)
    (returns : ∀ budget, kHopEnumeratePath csr turns u v budget directed k predSet = .ok []) :
    EnumeratesPaths csr G turns u v directed k predSet := by
  have stays : ∀ {path n z}, Written (G.Signed directed predSet) u path n z → z = u := by
    intro path n z written
    induction written with
    | single => rfl
    | snoc _ signed ih =>
      rw [ih] at signed
      exact absurd (step_of_signed signed).source outside
  refine ⟨[], returns _, nodup_nil, fun path => iff_of_false not_mem_nil ?_,
      fun r _ => ⟨[], returns _, Sublist.refl _, by simp⟩⟩
  rintro ⟨n, -, written, -⟩
  exact ne (stays written).symm

include ids

/-- From an id without edges the search takes no step. -/
theorem enumerates_from_outside (last : IsVertex csr.2.n v) (source : 0 ≤ u) (int : u < 2 ^ 31)
    (far : (csr.2.n : Int) ≤ u)
    {k : Int} (nonneg : 0 ≤ k) {turns : Nat} (enough : G.vertices.card + 2 < turns) :
    EnumeratesPaths csr G turns u v directed k predSet := by
  have outside : u ∉ G.vertices := fun vertex => not_le.mpr (ids u vertex).2 far
  have ne : u ≠ v := fun same => not_le.mpr last.2 (same ▸ far)
  obtain ⟨k, rfl⟩ := Int.eq_ofNat_of_zero_le nonneg
  have single : ∀ x ∈ ({v} : Finset Int), 0 ≤ x :=
    fun x member => Finset.mem_singleton.mp member ▸ last.1
  have small : ∀ x ∈ ({v} : Finset Int), x < 2 ^ 31 := fun x member => by
    have := vacant.int
    have := last.2
    rw [Finset.mem_singleton.mp member]
    omega
  obtain ⟨bar, f, marked, -⟩ :=
    @barSearch_start _ _ directed predSet v (stores.withVertices vacant single small)
    (fun x member => (Finset.mem_union.mp member).elim
      (fun same => Finset.mem_singleton.mp same ▸ last) (ids x))
    (Finset.mem_union_left _ (Finset.mem_singleton_self v)) turns
    (lt_of_le_of_lt (Finset.card_union_le _ _) (by rw [Finset.card_singleton]; omega)) k
  refine enumerates_nothing ne outside fun budget => ?_
  have positive : csr.2.n ≠ 0 := by have := last.1; have := last.2; omega
  have none := fun p => vacant.verts p u source int outside
  obtain ⟨turns, rfl⟩ : ∃ t, turns = t + 1 := ⟨turns - 1, by omega⟩
  rw [kHopEnumeratePath, if_neg (by have := last.1; omega), if_neg positive, marked]
  have still : labelledSteps csr directed predSet u = [] := by
    simp [labelledSteps, signedEdges, none]
  simp [bcDfs, ne, still, bind, Except.bind, pure, Except.pure]

end Isolated

/-- All paths between `u` and `v` are returned, within the budget, if and only if `v` is an index of
`bar`, or there are no vertices and `u` is not `v`. -/
theorem kHopEnumeratePath_exact_iff (stores : Stores csr G) (vacant : Vacant csr G)
    (ids : ∀ x ∈ G.vertices, IsVertex csr.2.n x) (source : 0 ≤ u ∧ u < 2 ^ 31)
    (goal : 0 ≤ v ∧ v < 2 ^ 31)
    (directed : Bool) {predSet : List Nat} (distinct : predSet.Nodup) {k : Int} (nonneg : 0 ≤ k)
    {turns : Nat}
    (enough : G.vertices.card + 2 < turns) :
    EnumeratesPaths csr G turns u v directed k predSet ↔ v < csr.2.n ∨ (csr.2.n = 0 ∧ u ≠ v) := by
  have guard : ¬ (u < 0 ∨ v < 0) := by omega
  constructor
  · rintro ⟨paths, ran, -, members, -⟩
    by_contra fails
    rw [not_or, not_lt, not_and_not_right] at fails
    rw [kHopEnumeratePath, if_neg guard] at ran
    by_cases empty : csr.2.n = 0
    · rw [if_pos empty] at ran
      obtain rfl := Except.ok.inj ran
      have listed := (members [u]).mpr ⟨0, nonneg, fails.2 empty ▸ .single, nodup_singleton u⟩
      cases listed
    · obtain ⟨turns, rfl⟩ : ∃ t, turns = t + 1 := ⟨turns - 1, by omega⟩
      have beyond : readAt (List.replicate csr.2.n (0 : Int)) v = .error .outOfBounds :=
        dif_neg (by rw [length_replicate]; omega)
      rw [if_neg empty, barSearch, if_neg (by omega), beyond] at ran
      cases ran
  · rintro (below | ⟨empty, ne⟩)
    · have last : IsVertex csr.2.n v := ⟨goal.1, below⟩
      rcases lt_or_ge u (csr.2.n : Int) with near | far
      · have both : ∀ x ∈ ({u, v} : Finset Int), (0 ≤ x ∧ x < 2 ^ 31) ∧ IsVertex csr.2.n x := by
          intro x member
          rcases Finset.mem_insert.mp member with rfl | member
          · exact ⟨source, source.1, near⟩
          · exact Finset.mem_singleton.mp member ▸ ⟨goal, last⟩
        have size : (({u, v} : Finset Int) ∪ G.vertices).card < turns :=
          lt_of_le_of_lt ((Finset.card_union_le _ _).trans
            (Nat.add_le_add_right Finset.card_le_two _)) (by omega)
        exact enumerates_between (stores.withVertices vacant (fun x member => (both x member).1.1)
            fun x member => (both x member).1.2)
          (fun x member => (Finset.mem_union.mp member).elim (fun new => (both x new).2) (ids x))
          (Finset.mem_union_left _ (by simp)) size (Finset.mem_union_left _ (by simp)) distinct nonneg
      · exact enumerates_from_outside stores vacant ids last source.1 source.2 far nonneg enough
    · refine enumerates_nothing ne
        (fun vertex => ?_) fun budget => by rw [kHopEnumeratePath, if_neg guard, if_pos empty]
      have := (ids u vertex).2
      omega

theorem twoLabels_kHopEnumeratePath : EnumeratesPaths (twoLabels.loadCSR 2)
    (entityGraph {0, 1, 2} {⟨0, 0, 1⟩, ⟨1, 0, 2⟩, ⟨2, 0, 0⟩, ⟨0, 1, 1⟩}) 6 0 2 true 2 [0, 1] :=
  (kHopEnumeratePath_exact_iff twoLabels_stores twoLabels_vacant
      (fun x vertex => (twoLabels_vertices x).mp vertex)
    (by decide) (by decide) true (by decide) (by decide) (by decide)).mpr (.inl (by decide))

/-- A destination that is not below the number of vertices, as the id of a literal, is read out of
the bounds of `bar`. -/
theorem destination_out_of_bounds :
    kHopEnumeratePath (twoLabels.loadCSR 2) 6 0 5 (-1) true 2 [0, 1] = .error .outOfBounds ∧
    ¬ EnumeratesPaths (twoLabels.loadCSR 2)
      (entityGraph {0, 1, 2} {⟨0, 0, 1⟩, ⟨1, 0, 2⟩, ⟨2, 0, 0⟩, ⟨0, 1, 1⟩}) 6 0 5 true 2 [0, 1] := by
  have stops : kHopEnumeratePath (twoLabels.loadCSR 2) 6 0 5 (-1) true 2
    [0, 1] = .error .outOfBounds := by decide +kernel
  refine ⟨stops, ?_⟩
  rintro ⟨paths, ran, -⟩
  rw [stops] at ran
  cases ran

end Result

end GStore
