import GStore.Util.Version

/-! `GLatch`, the latch of an index entry: an exclusive owner and a count of holders. A result
`none` is a failed `assert`; the functions run under the latch's own mutex. -/
namespace GStore

structure GLatch where
  tid : Timestamp
  rcnt : Nat
  deriving DecidableEq

def GLatch.init : GLatch := ⟨⊤, 0⟩

variable (g : GLatch) (tid : Timestamp)

def GLatch.tryexclusivelatch (isSR : Bool) : Option (Bool × GLatch) :=
  if g.tid = tid then
    if isSR && g.rcnt != 1 then none else some (true, g)
  else if isSR then
    if g.tid ≠ ⊤ ∨ g.rcnt ≠ 0 then some (false, g) else some (true, ⟨tid, 1⟩)
  else
    if g.tid ≠ ⊤ then some (false, g) else some (true, { g with tid := tid })

def GLatch.trysharedlatch : Option (Bool × GLatch) :=
  if g.tid = tid then
    if g.rcnt = 1 then some (true, g) else none
  else if g.tid ≠ ⊤ then some (false, g)
  else some (true, { g with rcnt := g.rcnt + 1 })

/-- `exclusive` is the latch type: X latches need the owner, S latches only a positive count. -/
def GLatch.unlatch (exclusive isSR : Bool) : Option (Bool × GLatch) :=
  if exclusive then
    if tid ≠ g.tid then some (false, g)
    else if isSR then
      if g.rcnt ≠ 1 then some (false, g) else some (true, ⟨⊤, g.rcnt - 1⟩)
    else some (true, { g with tid := ⊤ })
  else if !isSR then some (false, g)
  else if g.tid ≠ ⊤ then none
  else if g.rcnt = 0 then some (false, g)
  else some (true, { g with rcnt := g.rcnt - 1 })

def GLatch.tryupgradelatch : Option (Bool × GLatch) :=
  if g.tid ≠ ⊤ then none
  else if g.rcnt ≠ 1 then some (false, g)
  else some (true, { g with tid := tid })

def GLatch.trydowngradelatch : Bool × GLatch :=
  if g.tid ≠ tid then (false, g)
  else if g.rcnt ≠ 1 then (false, g)
  else (true, { g with tid := ⊤ })

variable {tid : Timestamp} {g g' : GLatch}

theorem trysharedlatch_granted (call : g.trysharedlatch tid = some (true, g')) :
    (g.tid = tid ∧ g' = g) ∨ (g.tid = ⊤ ∧ g' = ⟨⊤, g.rcnt + 1⟩) := by
  unfold GLatch.trysharedlatch at call
  split at call
  · rename_i own
    split at call <;> cases call
    exact .inl ⟨own, rfl⟩
  · split at call
    · cases call
    · rename_i free
      cases call
      have free := not_not.mp free
      exact .inr ⟨free, by rw [free]⟩

theorem trysharedlatch_refused (call : g.trysharedlatch tid = some (false, g')) : g' = g := by
  unfold GLatch.trysharedlatch at call
  split at call
  · split at call <;> cases call
  · split at call <;> cases call
    rfl

theorem tryexclusivelatch_granted (call : g.tryexclusivelatch tid true = some (true, g')) :
    g.tid = tid ∨ (g = GLatch.init ∧ g' = ⟨tid, 1⟩) := by
  unfold GLatch.tryexclusivelatch at call
  split at call
  · rename_i own
    exact .inl own
  · simp only [if_true] at call
    split at call <;> cases call
    rename_i free
    obtain ⟨owner, count⟩ := g
    simp only [ne_eq, not_or, not_not] at free
    exact .inr ⟨by rw [free.1, free.2]; rfl, rfl⟩

theorem tryexclusivelatch_refused {isSR : Bool}
    (call : g.tryexclusivelatch tid isSR = some (false, g')) : g' = g := by
  unfold GLatch.tryexclusivelatch at call
  split at call
  · split at call <;> cases call
  · split at call
    · split at call <;> cases call
      rfl
    · split at call <;> cases call
      rfl

theorem tryupgradelatch_granted (call : g.tryupgradelatch tid = some (true, g')) :
    g = ⟨⊤, 1⟩ ∧ g' = ⟨tid, 1⟩ := by
  unfold GLatch.tryupgradelatch at call
  split at call
  · cases call
  · rename_i free
    split at call <;> cases call
    rename_i single
    obtain ⟨owner, count⟩ := g
    obtain rfl : owner = ⊤ := not_not.mp free
    obtain rfl : count = 1 := not_not.mp single
    exact ⟨rfl, rfl⟩

theorem tryupgradelatch_refused (call : g.tryupgradelatch tid = some (false, g')) : g' = g := by
  unfold GLatch.tryupgradelatch at call
  split at call
  · cases call
  · split at call <;> cases call
    rfl

theorem unlatch_refused {exclusive isSR : Bool}
    (call : g.unlatch tid exclusive isSR = some (false, g')) : g' = g := by
  unfold GLatch.unlatch at call
  split at call
  · split at call
    · cases call
      rfl
    · split at call
      · split at call <;> cases call
        rfl
      · cases call
  · split at call
    · cases call
      rfl
    · split at call
      · cases call
      · split at call <;> cases call
        rfl

end GStore
