import AmlaSandbox.Runtime.Basic
import Mathlib.Algebra.BigOperators.Group.Finset.Basic
import Mathlib.Algebra.Ring.Nat

/-!
# The registry of runtimes

The functions of the boundary find a runtime by its id, take it out of the registry, operate on it
and put it back. A batch of results is grouped by runtime first, and the groups are visited in an
order that is not fixed.
-/

namespace AmlaSandbox.Runtimes

variable {E : Engine}

/-- The runtimes by id. -/
abbrev Registry (E : Engine) := AList fun _ : RuntimeId => Runtime E

/-- Results with the order in which the map they are grouped in is iterated. -/
structure Batch where
  results : List HostOpResult
  order : List RuntimeId
  nodup : order.Nodup
  mem_order : ∀ id, id ∈ order ↔ ∃ result ∈ results, result.runtimeId = id

namespace Runtime

/-- The loop over a group: each result is submitted on its own. -/
def submitEach : List HostOpResult → Runtime E → Nat × Runtime E
  | [], rt => (0, rt)
  | result :: rest, rt =>
    let (processed, rt) := submitResults [result] rt
    let (later, rt) := submitEach rest rt
    (processed + later, rt)

lemma submitEach_eq (results : List HostOpResult) (rt : Runtime E) :
    submitEach results rt = submitResults results rt := by
  induction results generalizing rt with
  | nil => rfl
  | cons result rest ih => simp only [submitEach, submitResults, ih, Nat.add_zero]

lemma submitResults_cons (result : HostOpResult) (rest : List HostOpResult) (rt : Runtime E) :
    submitResults (result :: rest) rt =
      ((rt.submitResult result).1 + (submitResults rest (rt.submitResult result).2).1,
        (submitResults rest (rt.submitResult result).2).2) := rfl

end Runtime

namespace Registry

/-- Take a runtime out, operate on it and put it back. -/
def operate {α : Type} (id : RuntimeId) (f : Runtime E → α × Runtime E) (reg : Registry E) :
    Option α × Registry E :=
  match reg.lookup id with
  | none => (none, reg)
  | some rt => (some (f rt).1, (reg.erase id).insert id (f rt).2)

def createCommand (id : RuntimeId) (command : Text) (reg : Registry E) :
    Option CommandHandle × Registry E :=
  reg.operate id (·.createCommand command)

def stepRuntime (id : RuntimeId) (reg : Registry E) : Option StepResponse × Registry E :=
  reg.operate id Runtime.step

def cancelCommand (id : RuntimeId) (handle : CommandHandle) (reg : Registry E) :
    Option (List PendingHostOp) × Registry E :=
  reg.operate id (·.cancelCommand handle)

def deleteCommand (id : RuntimeId) (handle : CommandHandle) (reg : Registry E) :
    Option Unit × Registry E :=
  reg.operate id fun rt => ((), rt.deleteCommand handle)

def removeRuntime (id : RuntimeId) (reg : Registry E) : Option (Runtime E) × Registry E :=
  (reg.lookup id, reg.erase id)

/-- The results of a batch that are addressed to a runtime. -/
def groupOf (results : List HostOpResult) (id : RuntimeId) : List HostOpResult :=
  results.filter (·.runtimeId = id)

/-- Submit the groups of a batch in an order; the sum of what was processed. -/
def submitGroups (results : List HostOpResult) :
    List RuntimeId → Registry E → Nat × Registry E
  | [], reg => (0, reg)
  | id :: rest, reg =>
    let (processed, reg) := reg.operate id (Runtime.submitEach (groupOf results id))
    let (later, reg) := submitGroups results rest reg
    (processed.getD 0 + later, reg)

/-- Submit results to all runtimes. -/
def submitAll (batch : Batch) (reg : Registry E) : Nat × Registry E :=
  submitGroups batch.results batch.order reg

variable {α : Type} {reg : Registry E} {id j : RuntimeId}

@[simp] lemma operate_fst (f : Runtime E → α × Runtime E) :
    (reg.operate id f).1 = (reg.lookup id).map fun rt => (f rt).1 := by
  rw [operate]
  cases reg.lookup id <;> rfl

lemma lookup_operate (f : Runtime E → α × Runtime E) :
    (reg.operate id f).2.lookup id = (reg.lookup id).map fun rt => (f rt).2 := by
  rw [operate]
  cases h : reg.lookup id with
  | none => simp [h]
  | some rt => simp

lemma lookup_operate_ne (f : Runtime E → α × Runtime E) (h : j ≠ id) :
    (reg.operate id f).2.lookup j = reg.lookup j := by
  rw [operate]
  cases reg.lookup id with
  | none => rfl
  | some rt => rw [AList.lookup_insert_ne h, AList.lookup_erase_ne h]

/-! ### What a batch does -/

/-- What a runtime processes of the results addressed to it. -/
def share (results : List HostOpResult) (reg : Registry E) (id : RuntimeId) : Nat :=
  (reg.lookup id).elim 0 fun rt => (Runtime.submitResults (groupOf results id) rt).1

lemma getD_operate_submitEach (results : List HostOpResult) :
    (reg.operate id (Runtime.submitEach (groupOf results id))).1.getD 0 = share results reg id := by
  rw [operate_fst, share]
  cases reg.lookup id <;> simp [Runtime.submitEach_eq]

lemma share_congr {reg' : Registry E} (results : List HostOpResult)
    (h : reg'.lookup id = reg.lookup id) : share results reg' id = share results reg id := by
  rw [share, share, h]

lemma submitGroups_cons_fst (results : List HostOpResult) (rest : List RuntimeId) :
    (submitGroups results (id :: rest) reg).1 = share results reg id +
      (submitGroups results rest
        (reg.operate id (Runtime.submitEach (groupOf results id))).2).1 := by
  rw [← getD_operate_submitEach]
  rfl

/-- Each group reaches its own runtime and no other. -/
lemma lookup_submitGroups (results : List HostOpResult) {order : List RuntimeId}
    (hnodup : order.Nodup) (reg : Registry E) (j : RuntimeId) :
    (submitGroups results order reg).2.lookup j =
      if j ∈ order then
        (reg.lookup j).map fun rt => (Runtime.submitResults (groupOf results j) rt).2
      else reg.lookup j := by
  induction order generalizing reg with
  | nil => simp [submitGroups]
  | cons id rest ih =>
    obtain ⟨hid, hrest⟩ := List.nodup_cons.mp hnodup
    rw [submitGroups, ih hrest]
    by_cases hj : j = id
    · subst hj
      simp [hid, lookup_operate, Runtime.submitEach_eq]
    · simp [hj, lookup_operate_ne _ hj]

lemma submitGroups_fst (results : List HostOpResult) {order : List RuntimeId}
    (hnodup : order.Nodup) (reg : Registry E) :
    (submitGroups results order reg).1 = (order.map (share results reg)).sum := by
  induction order generalizing reg with
  | nil => rfl
  | cons id rest ih =>
    obtain ⟨hid, hrest⟩ := List.nodup_cons.mp hnodup
    have hshares : rest.map (share results
        (reg.operate id (Runtime.submitEach (groupOf results id))).2) =
        rest.map (share results reg) := by
      refine List.map_congr_left fun j hj => share_congr results (lookup_operate_ne _ ?_)
      rintro rfl
      exact hid hj
    rw [submitGroups_cons_fst, ih hrest, hshares, List.map_cons, List.sum_cons]

/-- A batch submits to every runtime the results addressed to it, in their order. -/
lemma lookup_submitAll (batch : Batch) (reg : Registry E) (j : RuntimeId) :
    (reg.submitAll batch).2.lookup j =
      (reg.lookup j).map fun rt => (Runtime.submitResults (groupOf batch.results j) rt).2 := by
  rw [submitAll, lookup_submitGroups _ batch.nodup]
  split_ifs with hj
  · rfl
  · have hnone : groupOf batch.results j = [] := by
      refine List.filter_eq_nil_iff.mpr fun result hresult heq => hj ?_
      exact (batch.mem_order j).mpr ⟨result, hresult, by simpa using heq⟩
    simp [hnone, Runtime.submitResults]

/-- The value of a batch is the sum of the shares. -/
lemma submitAll_fst (batch : Batch) (reg : Registry E) :
    (reg.submitAll batch).1 = ∑ id ∈ batch.order.toFinset, share batch.results reg id := by
  rw [submitAll, submitGroups_fst _ batch.nodup, List.sum_toFinset _ batch.nodup]

end Registry

end AmlaSandbox.Runtimes
