import AmlaSandbox.Runtime.Registry
import Mathlib.Algebra.BigOperators.Group.Finset.Piecewise

/-!
# Runtimes do not interfere

What a run of calls on the registry does to one runtime is what the calls on that runtime and the
results addressed to it do alone.
-/

namespace AmlaSandbox.Runtimes

variable {E : Engine}

/-! ### Calls -/

namespace Batch

/-- The results for one runtime. -/
def only (batch : Batch) (id : RuntimeId) : Batch where
  results := Registry.groupOf batch.results id
  order := batch.order.filter (· = id)
  nodup := batch.nodup.filter _
  mem_order j := by
    simp only [List.mem_filter, batch.mem_order, decide_eq_true_eq, Registry.groupOf]
    constructor
    · rintro ⟨⟨result, hresult, rfl⟩, rfl⟩
      exact ⟨result, ⟨hresult, rfl⟩, rfl⟩
    · rintro ⟨result, ⟨hresult, rfl⟩, rfl⟩
      exact ⟨⟨result, hresult, rfl⟩, rfl⟩

/-- One result on its own. -/
def single (result : HostOpResult) : Batch where
  results := [result]
  order := [result.runtimeId]
  nodup := List.nodup_singleton _
  mem_order id := by simp [eq_comm]

end Batch

/-- A call on the registry. -/
inductive Call
  | createCommand (id : RuntimeId) (command : Text)
  | step (id : RuntimeId)
  | cancelCommand (id : RuntimeId) (handle : CommandHandle)
  | deleteCommand (id : RuntimeId) (handle : CommandHandle)
  | removeRuntime (id : RuntimeId)
  | submitAll (batch : Batch)

/-- What a call returns; `none` stands for a runtime that does not exist. -/
inductive Response (E : Engine)
  | created (handle : Option CommandHandle)
  | stepped (response : Option StepResponse)
  | cancelled (ops : Option (List PendingHostOp))
  | deleted (done : Option Unit)
  | removed (runtime : Option (Runtime E))
  | submitted (processed : Nat)

namespace Call

/-- The runtime a call is for; a batch is for all of them. -/
def target : Call → Option RuntimeId
  | createCommand id _ | step id | cancelCommand id _ | deleteCommand id _ | removeRuntime id =>
    some id
  | submitAll _ => none

def apply (reg : Registry E) : Call → Response E × Registry E
  | createCommand id command => (reg.createCommand id command).map .created fun reg => reg
  | step id => (reg.stepRuntime id).map .stepped fun reg => reg
  | cancelCommand id handle => (reg.cancelCommand id handle).map .cancelled fun reg => reg
  | deleteCommand id handle => (reg.deleteCommand id handle).map .deleted fun reg => reg
  | removeRuntime id => (reg.removeRuntime id).map .removed fun reg => reg
  | submitAll batch => (reg.submitAll batch).map .submitted fun reg => reg

/-- The call as far as it concerns one runtime. -/
def only (id : RuntimeId) : Call → Option Call
  | submitAll batch => some (submitAll (batch.only id))
  | call => if call.target = some id then some call else none

/-- What a call returns about one runtime; of a batch, how many of its results it processed. -/
def answerTo (id : RuntimeId) (reg : Registry E) : Call → Option (Response E)
  | submitAll batch => some (.submitted (reg.share batch.results id))
  | call => if call.target = some id then some (call.apply reg).1 else none

end Call

/-- Make calls one after the other. -/
def runCalls : List Call → Registry E → List (Response E) × Registry E
  | [], reg => ([], reg)
  | call :: calls, reg =>
    let (response, reg) := call.apply reg
    let (responses, reg) := runCalls calls reg
    (response :: responses, reg)

/-- What a run of calls returns about one runtime. -/
def answersTo (id : RuntimeId) : List Call → Registry E → List (Response E)
  | [], _ => []
  | call :: calls, reg => (call.answerTo id reg).toList ++ answersTo id calls (call.apply reg).2

/-! ### One call -/

section Agreement

variable {reg reg' : Registry E} {id j : RuntimeId}

lemma groupOf_groupOf (results : List HostOpResult) :
    Registry.groupOf (Registry.groupOf results id) id = Registry.groupOf results id := by
  simp [Registry.groupOf]

lemma Registry.operate_congr {α : Type} (f : Runtime E → α × Runtime E)
    (h : reg.lookup id = reg'.lookup id) :
    (reg.operate id f).1 = (reg'.operate id f).1 ∧
      (reg.operate id f).2.lookup id = (reg'.operate id f).2.lookup id := by
  simp only [Registry.operate_fst, Registry.lookup_operate, h, and_self]

lemma Registry.lookup_submitAll_congr (batch : Batch) (h : reg.lookup id = reg'.lookup id) :
    (reg.submitAll batch).2.lookup id = (reg'.submitAll (batch.only id)).2.lookup id := by
  simp only [Registry.lookup_submitAll, Batch.only, groupOf_groupOf, h]

/-- The share of a runtime is what its part of the batch returns. -/
lemma Registry.submitAll_only (batch : Batch) (reg : Registry E) (id : RuntimeId) :
    (reg.submitAll (batch.only id)).1 = reg.share batch.results id := by
  have hshare : reg.share (batch.only id).results id = reg.share batch.results id := by
    simp only [Registry.share, Batch.only, groupOf_groupOf]
  rw [Registry.submitAll_fst, ← hshare]
  by_cases hid : id ∈ batch.order
  · have horder : (batch.only id).order.toFinset = {id} := by
      ext k
      simp only [Batch.only, List.mem_toFinset, List.mem_filter, decide_eq_true_eq,
        Finset.mem_singleton, and_iff_right_iff_imp]
      rintro rfl
      exact hid
    rw [horder, Finset.sum_singleton]
  · have horder : (batch.only id).order = [] := by
      refine List.filter_eq_nil_iff.mpr fun k hk heq => hid ?_
      rwa [decide_eq_true_eq.mp heq] at hk
    have hnone : Registry.groupOf batch.results id = [] := by
      refine List.filter_eq_nil_iff.mpr fun result hresult heq => hid ?_
      exact (batch.mem_order id).mpr ⟨result, hresult, by simpa using heq⟩
    rw [horder, List.toFinset_nil, Finset.sum_empty, hshare, Registry.share, hnone]
    cases reg.lookup id <;> rfl

/-- A call for another runtime leaves a runtime as it is. -/
lemma Call.lookup_apply_of_ne {call : Call} (htarget : call.target = some j) (hne : id ≠ j)
    (reg : Registry E) : (call.apply reg).2.lookup id = reg.lookup id := by
  cases call with
  | submitAll batch => cases htarget
  | removeRuntime k =>
    cases htarget
    exact AList.lookup_erase_ne hne
  | createCommand k command | step k | cancelCommand k handle | deleteCommand k handle =>
    cases htarget
    exact Registry.lookup_operate_ne _ hne

/-- A call for a runtime depends on that runtime alone. -/
lemma Call.apply_congr {call : Call} (htarget : call.target = some id)
    (h : reg.lookup id = reg'.lookup id) :
    (call.apply reg).1 = (call.apply reg').1 ∧
      (call.apply reg).2.lookup id = (call.apply reg').2.lookup id := by
  cases call with
  | submitAll batch => cases htarget
  | removeRuntime k =>
    cases htarget
    simp [Call.apply, Registry.removeRuntime, h, AList.lookup_erase]
  | createCommand k command =>
    cases htarget
    exact (Registry.operate_congr _ h).imp_left (congrArg Response.created)
  | step k =>
    cases htarget
    exact (Registry.operate_congr _ h).imp_left (congrArg Response.stepped)
  | cancelCommand k handle =>
    cases htarget
    exact (Registry.operate_congr _ h).imp_left (congrArg Response.cancelled)
  | deleteCommand k handle =>
    cases htarget
    exact (Registry.operate_congr _ h).imp_left (congrArg Response.deleted)

lemma Call.only_of_target {call : Call} (htarget : call.target = some j) :
    call.only id = if j = id then some call else none := by
  cases call with
  | submitAll batch => cases htarget
  | createCommand k command | step k | cancelCommand k handle | deleteCommand k handle
  | removeRuntime k =>
    cases htarget
    simp [Call.only, Call.target]

lemma Call.answerTo_of_target {call : Call} (htarget : call.target = some j) :
    call.answerTo id reg = if j = id then some (call.apply reg).1 else none := by
  cases call with
  | submitAll batch => cases htarget
  | createCommand k command | step k | cancelCommand k handle | deleteCommand k handle
  | removeRuntime k =>
    cases htarget
    simp [Call.answerTo, Call.target]

/-- A call does to a runtime, and returns about it, what the part of the call that concerns it does
and returns alone. -/
lemma Call.agrees (call : Call) (h : reg.lookup id = reg'.lookup id) :
    call.answerTo id reg = (call.only id).map (fun part => (part.apply reg').1) ∧
      (call.apply reg).2.lookup id =
        ((call.only id).elim reg' fun part => (part.apply reg').2).lookup id := by
  cases htarget : call.target with
  | none =>
    cases call with
    | submitAll batch =>
      refine ⟨?_, Registry.lookup_submitAll_congr batch h⟩
      simp [Call.answerTo, Call.only, Call.apply, Registry.submitAll_only, Registry.share_congr _ h]
    | createCommand k command | step k | cancelCommand k handle | deleteCommand k handle
    | removeRuntime k => cases htarget
  | some j =>
    rw [Call.answerTo_of_target htarget, Call.only_of_target htarget]
    by_cases hj : j = id
    · subst hj
      obtain ⟨hfst, hsnd⟩ := Call.apply_congr htarget h
      rw [if_pos rfl, if_pos rfl]
      exact ⟨congrArg some hfst, hsnd⟩
    · rw [if_neg hj, if_neg hj]
      exact ⟨rfl, (Call.lookup_apply_of_ne htarget (Ne.symm hj) reg).trans h⟩

/-- The two runs agree about a runtime from registries that agree about it. -/
lemma answersTo_eq (calls : List Call) (reg reg' : Registry E)
    (h : reg.lookup id = reg'.lookup id) :
    answersTo id calls reg = (runCalls (calls.filterMap (Call.only id)) reg').1 ∧
      (runCalls calls reg).2.lookup id =
        (runCalls (calls.filterMap (Call.only id)) reg').2.lookup id := by
  induction calls generalizing reg reg' with
  | nil => exact ⟨rfl, h⟩
  | cons call calls ih =>
    obtain ⟨hanswer, hlookup⟩ := call.agrees h
    rw [answersTo, List.filterMap_cons, hanswer]
    cases hpart : call.only id with
    | none =>
      rw [hpart] at hlookup
      exact ih _ _ hlookup
    | some part =>
      rw [hpart] at hlookup
      obtain ⟨hanswers, hfinal⟩ := ih _ _ hlookup
      exact ⟨congrArg (List.cons _) hanswers, hfinal⟩

end Agreement

/-! ### One result at a time -/

/-- Submit each result as a batch of its own; the sum of what was processed. -/
def submitSingly : List HostOpResult → Registry E → Nat × Registry E
  | [], reg => (0, reg)
  | result :: rest, reg =>
    let (processed, reg) := reg.submitAll (Batch.single result)
    let (later, reg) := submitSingly rest reg
    (processed + later, reg)

section Singly

variable {reg : Registry E} {id : RuntimeId}

lemma lookup_submitAll_single (result : HostOpResult) (reg : Registry E) (id : RuntimeId) :
    (reg.submitAll (Batch.single result)).2.lookup id =
      if result.runtimeId = id then (reg.lookup id).map fun rt => (rt.submitResult result).2
      else reg.lookup id := by
  rw [Registry.lookup_submitAll, Batch.single, Registry.groupOf, List.filter_singleton]
  by_cases hid : result.runtimeId = id
  · simp [hid, Runtime.submitResults]
  · simp [hid, Runtime.submitResults]

lemma lookup_submitSingly (results : List HostOpResult) (reg : Registry E) (id : RuntimeId) :
    (submitSingly results reg).2.lookup id =
      (reg.lookup id).map fun rt => (Runtime.submitResults (Registry.groupOf results id) rt).2 := by
  induction results generalizing reg with
  | nil => simp [submitSingly, Registry.groupOf, Runtime.submitResults]
  | cons result rest ih =>
    rw [submitSingly, ih, lookup_submitAll_single]
    by_cases hid : result.runtimeId = id
    · simp [hid, Registry.groupOf, Runtime.submitResults_cons, Function.comp_def]
    · simp [hid, Registry.groupOf]

/-- What a result adds to the share of its runtime. -/
lemma share_cons (result : HostOpResult) (rest : List HostOpResult) (reg : Registry E)
    (id : RuntimeId) :
    reg.share (result :: rest) id =
      (if result.runtimeId = id then (reg.submitAll (Batch.single result)).1 else 0) +
        (reg.submitAll (Batch.single result)).2.share rest id := by
  rw [Registry.share, Registry.share, lookup_submitAll_single]
  by_cases hid : result.runtimeId = id
  · subst hid
    rw [Registry.submitAll_fst]
    cases hlookup : reg.lookup result.runtimeId <;>
      simp [Batch.single, Registry.groupOf, Registry.share, hlookup, Runtime.submitResults]
  · simp [hid, Registry.groupOf]

lemma submitSingly_fst (results : List HostOpResult) (reg : Registry E) (ids : Finset RuntimeId)
    (hids : ∀ result ∈ results, result.runtimeId ∈ ids) :
    (submitSingly results reg).1 = ∑ id ∈ ids, reg.share results id := by
  induction results generalizing reg with
  | nil =>
    refine (Finset.sum_eq_zero fun id _ => ?_).symm
    rw [Registry.share]
    cases reg.lookup id <;> rfl
  | cons result rest ih =>
    obtain ⟨hid, hrest⟩ := List.forall_mem_cons.mp hids
    simp only [share_cons, Finset.sum_add_distrib, Finset.sum_ite_eq, hid, if_true]
    rw [← ih _ hrest]
    rfl

end Singly

/-- For every run of calls, what is returned about a runtime and the state it ends in are those of
the run of what concerns it alone; and the value of a batch is the sum of what its runtimes
processed, which is what its results are worth one at a time. -/
theorem runtimes_isolated (E : Engine) (reg : Registry E) :
    (∀ (calls : List Call) (id : RuntimeId),
      answersTo id calls reg = (runCalls (calls.filterMap (Call.only id)) reg).1 ∧
        (runCalls calls reg).2.lookup id =
          (runCalls (calls.filterMap (Call.only id)) reg).2.lookup id) ∧
    ∀ batch : Batch,
      (reg.submitAll batch).1 = ∑ id ∈ batch.order.toFinset, reg.share batch.results id ∧
        (reg.submitAll batch).1 = (submitSingly batch.results reg).1 ∧
        ∀ id, (reg.submitAll batch).2.lookup id = (submitSingly batch.results reg).2.lookup id := by
  refine ⟨fun calls id => answersTo_eq calls reg reg rfl, fun batch => ?_⟩
  have hids : ∀ result ∈ batch.results, result.runtimeId ∈ batch.order.toFinset := by
    intro result hresult
    exact List.mem_toFinset.mpr ((batch.mem_order _).mpr ⟨result, hresult, rfl⟩)
  refine ⟨Registry.submitAll_fst batch reg, ?_, fun id => ?_⟩
  · rw [Registry.submitAll_fst, submitSingly_fst _ _ _ hids]
  · rw [Registry.lookup_submitAll, lookup_submitSingly]

end AmlaSandbox.Runtimes
