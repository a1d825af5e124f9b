import AmlaSandbox.Host.Channel

/-!
# The slots of the host channel

The slots, their generations and the free list are a generational table. Every operation under an id
changes or frees the slot that the id is current for, and no other; submission adds a slot under a
fresh id, as long as ids have not run out.
-/

namespace AmlaSandbox.Host

open Async Library

/-- What the host does under an operation id. -/
inductive HostCall
  | complete (result : HostResult)
  | chunk (data : List UInt8) (eof : Bool)
  | clearBuffer
deriving DecidableEq

/-- What a call does to the slot of its id; a cancelled one is freed. -/
def HostCall.onSlot (slot : PendingSlot) : HostCall → Option PendingSlot
  | .complete result =>
    if slot.cancelled then none else some { slot with result := some result, waker := none }
  | .chunk data eof =>
    if slot.cancelled then none
    else if slot.buffer.length + data.length > slot.bufferLimit then
      some
        { slot with
          result := some (.error (HostChannelInner.overflowError slot.bufferLimit))
          waker := none }
    else if eof then
      some { slot with result := some (.ok (slot.buffer ++ data)), buffer := [], waker := none }
    else some { slot with buffer := slot.buffer ++ data }
  | .clearBuffer => some { slot with buffer := [] }

namespace HostChannelInner

/-- The slot that an id is current for. -/
def lookup (c : HostChannelInner) (id : HostOpId) : Option PendingSlot :=
  if c.isValidId id then c.slot? id.index else none

/-- Change the slot of an id, or free it. -/
def update (c : HostChannelInner) (id : HostOpId) (f : PendingSlot → Option PendingSlot) :
    HostChannelInner :=
  match c.lookup id with
  | none => c
  | some slot =>
    match f slot with
    | some slot' => c.setSlot id.index slot'
    | none => c.freeSlot id

/-- The slot table of the channel. -/
def table (c : HostChannelInner) : GenTable PendingSlot :=
  ⟨c.slots, c.slotInfo.map HostOpId.rank, c.freeSlots, c.slots.countP Option.isSome⟩

/-- The channels agree on their slots. -/
structure SameSlots (c c' : HostChannelInner) : Prop where
  slots_eq : c'.slots = c.slots
  slotInfo_eq : c'.slotInfo = c.slotInfo
  freeSlots_eq : c'.freeSlots = c.freeSlots

variable {c c' : HostChannelInner} {id id' : HostOpId} {slot : PendingSlot}
  {f : PendingSlot → Option PendingSlot} {result : HostResult} {data : List UInt8} {eof : Bool}
  {waker : Waker} {wakers : List Waker}

/-! ### Lookups -/

lemma lookup_eq_some :
    c.lookup id = some slot ↔ c.isValidId id = true ∧ c.slots[id.index]? = some (some slot) := by
  unfold lookup slot?
  split_ifs with hvalid
  · rw [Option.join_eq_some_iff]
    simp [hvalid]
  · simp [hvalid]

lemma SameSlots.lookup (h : c.SameSlots c') : c'.lookup id = c.lookup id := by
  unfold HostChannelInner.lookup isValidId slot?
  rw [h.slots_eq, h.slotInfo_eq]

lemma SameSlots.table (h : c.SameSlots c') : c'.table = c.table := by
  unfold HostChannelInner.table
  rw [h.slots_eq, h.slotInfo_eq, h.freeSlots_eq]

lemma sameSlots_wakeAll : c.SameSlots (c.wakeAll wakers) := ⟨rfl, rfl, rfl⟩

@[simp] lemma lookup_wakeAll : (c.wakeAll wakers).lookup id = c.lookup id := rfl

@[simp] lemma table_wakeAll : (c.wakeAll wakers).table = c.table := rfl

lemma isValidId_eq (hlookup : c.lookup id = some slot) : c.isValidId id = true :=
  (lookup_eq_some.mp hlookup).1

lemma freeSlot_eq (h : c.lookup id = some slot) :
    c.freeSlot id =
      { c with slots := c.slots.set id.index none, freeSlots := id.index :: c.freeSlots } := by
  obtain ⟨hvalid, hslot⟩ := lookup_eq_some.mp h
  obtain ⟨hlt, _⟩ := List.getElem?_eq_some_iff.mp hslot
  rw [freeSlot, if_pos ⟨hlt, hvalid⟩]

/-- Two ids that are current for one slot are the same. -/
lemma eq_of_isValidId (h : c.isValidId id = true) (h' : c.isValidId id' = true)
    (hindex : id.index = id'.index) : id = id' := by
  simp only [isValidId, beq_iff_eq] at h h'
  rw [hindex, h'] at h
  exact HostOpId.ext_index hindex (Option.some.inj h).symm

lemma update_of_none (h : c.lookup id = none) : c.update id f = c := by
  rw [update, h]

lemma update_of_some (h : c.lookup id = some slot) : c.update id f =
    match f slot with
    | some slot' => c.setSlot id.index slot'
    | none => c.freeSlot id := by
  rw [update, h]

/-- An update changes what is found under its id and nothing else. -/
lemma lookup_update : (c.update id f).lookup id' =
    if id' = id then (c.lookup id).bind f else c.lookup id' := by
  cases hlookup : c.lookup id with
  | none =>
    rw [update_of_none hlookup]
    split_ifs with heq
    · rw [heq, hlookup, Option.bind_none]
    · rfl
  | some slot =>
    obtain ⟨hvalid, hslot⟩ := lookup_eq_some.mp hlookup
    obtain ⟨hlt, _⟩ := List.getElem?_eq_some_iff.mp hslot
    have hset : ∀ o : Option PendingSlot,
        (if c.isValidId id' then (c.slots.set id.index o)[id'.index]?.join else none) =
          if id' = id then o else c.lookup id' := by
      intro o
      by_cases heq : id' = id
      · subst heq
        simp [hvalid, hlt]
      · rw [if_neg heq]
        by_cases hvalid' : c.isValidId id' = true
        · have hne : id.index ≠ id'.index := fun hindex =>
            heq (eq_of_isValidId hvalid' hvalid hindex.symm)
          rw [HostChannelInner.lookup, slot?, List.getElem?_set_ne hne]
        · simp [HostChannelInner.lookup, hvalid']
    rw [update_of_some hlookup, Option.bind_some]
    cases hf : f slot with
    | none =>
      rw [freeSlot_eq hlookup]
      exact hset none
    | some slot' => exact hset (some slot')

lemma table_setSlot (h : c.lookup id = some slot) (slot' : PendingSlot) :
    (c.setSlot id.index slot').table = c.table.modify id.index fun _ => slot' := by
  obtain ⟨_, hslot⟩ := lookup_eq_some.mp h
  have hset : c.slots.set id.index (some slot') =
      c.slots.modify id.index (Option.map fun _ => slot') := by
    apply List.ext_getElem?
    intro i
    rw [List.getElem?_modify, List.getElem?_set']
    by_cases hi : id.index = i
    · subst hi
      simp [hslot]
    · simp [hi]
  have hcount : (c.slots.modify id.index (Option.map fun _ => slot')).countP Option.isSome =
      c.slots.countP Option.isSome := GenTable.occupied_modify (T := c.table)
  simp only [table, setSlot, GenTable.modify, hset, hcount]

lemma table_freeSlot (h : c.lookup id = some slot) :
    (c.freeSlot id).table = c.table.clear id.index := by
  obtain ⟨_, hslot⟩ := lookup_eq_some.mp h
  obtain ⟨hlt, hsome⟩ := List.getElem?_eq_some_iff.mp hslot
  have hget : (c.table.get? id.index).isSome := by
    rw [GenTable.get?_eq_some.mpr hslot]
    rfl
  have hcount := GenTable.occupied_set (T := c.table) hlt none
  rw [freeSlot_eq h, GenTable.clear, if_pos hget]
  simp only [table, GenTable.occupied, hsome, Option.isSome_some, Bool.toNat_true,
    Option.isSome_none, Bool.toNat_false] at hcount ⊢
  congr 1
  omega

/-- An update keeps the free list exactly the empty slots. -/
lemma wf_update (h : c.table.Wf) : (c.update id f).table.Wf := by
  cases hlookup : c.lookup id with
  | none => rwa [update_of_none hlookup]
  | some slot =>
    rw [update_of_some hlookup]
    cases f slot with
    | some slot' => exact table_setSlot hlookup slot' ▸ h.modify
    | none => exact table_freeSlot hlookup ▸ h.clear

lemma issued_update {key : Key} : (c.update id f).table.Issued key ↔ c.table.Issued key := by
  cases hlookup : c.lookup id with
  | none => rw [update_of_none hlookup]
  | some slot =>
    rw [update_of_some hlookup]
    cases f slot with
    | some slot' =>
      show (c.setSlot id.index slot').table.Issued key ↔ _
      rw [table_setSlot hlookup, GenTable.issued_modify]
    | none =>
      show (c.freeSlot id).table.Issued key ↔ _
      rw [freeSlot_eq hlookup]
      simp [GenTable.Issued, table, GenTable.gen]

/-- An update leaves everything but the slots as it is. -/
lemma update_frame : (c.update id f).pendingRequests = c.pendingRequests ∧
    (c.update id f).maxPending = c.maxPending ∧
    (c.update id f).submitWakers = c.submitWakers ∧ (c.update id f).woken = c.woken := by
  cases hlookup : c.lookup id with
  | none => simp [update_of_none hlookup]
  | some slot =>
    rw [update_of_some hlookup]
    cases f slot with
    | some slot' => exact ⟨rfl, rfl, rfl, rfl⟩
    | none =>
      show (c.freeSlot id).pendingRequests = _ ∧ (c.freeSlot id).maxPending = _ ∧
        (c.freeSlot id).submitWakers = _ ∧ (c.freeSlot id).woken = _
      rw [freeSlot_eq hlookup]
      exact ⟨rfl, rfl, rfl, rfl⟩

@[simp] lemma pendingRequests_update :
    (c.update id f).pendingRequests = c.pendingRequests := update_frame.1

@[simp] lemma maxPending_update : (c.update id f).maxPending = c.maxPending := update_frame.2.1

@[simp] lemma submitWakers_update :
    (c.update id f).submitWakers = c.submitWakers := update_frame.2.2.1

@[simp] lemma woken_update : (c.update id f).woken = c.woken := update_frame.2.2.2

/-! ### Submission -/

/-- A slot whose generations have run out is not reused, and there is an index for a new one. -/
structure Fits (c : HostChannelInner) : Prop where
  generation_left : ∀ idx ∈ c.freeSlots.head?, c.slotInfo[idx]? ≠ some 0
  index_left : c.freeSlots = [] → c.slots.length < 2 ^ 32

lemma fits_of_no_free (hfree : c.freeSlots = []) (hlt : c.slots.length < 2 ^ 32) : c.Fits :=
  ⟨by simp [hfree], fun _ => hlt⟩

structure Wf (c : HostChannelInner) : Prop where
  table_wf : c.table.Wf
  length_le : c.slots.length ≤ 2 ^ 32

lemma lookup_eq_table (h : c.table.Wf) : c.lookup id = c.table.lookup id.key := by
  have hlen : c.slotInfo.length = c.slots.length := by
    simpa [HostChannelInner.table] using h.gens_length
  unfold HostChannelInner.lookup GenTable.lookup isValidId GenTable.gen GenTable.get? slot?
  simp only [HostChannelInner.table, HostOpId.key, List.getElem?_map]
  cases hinfo : c.slotInfo[id.index]? with
  | none =>
    have hslots : c.slots[id.index]? = none := by
      rw [List.getElem?_eq_none_iff] at hinfo ⊢
      omega
    simp [hslots]
  | some g =>
    by_cases hg : g = id.generation
    · simp [hg]
    · have hrank : HostOpId.rank g ≠ HostOpId.rank id.generation := fun heq =>
        hg (HostOpId.rank_injective heq)
      simp [hg, hrank]

lemma table_eq {T : GenTable PendingSlot} (h : T.Wf) (hslots : c.slots = T.slots)
    (hgens : c.slotInfo.map HostOpId.rank = T.gens) (hfree : c.freeSlots = T.free) :
    c.table = T := by
  obtain ⟨slots, gens, free, count⟩ := T
  have hcount := h.count_eq
  simp only [GenTable.occupied] at hslots hgens hfree hcount
  rw [table, hslots, hgens, hfree, hcount]

lemma Wf.update (h : c.Wf) : (c.update id f).Wf := by
  refine ⟨wf_update h.table_wf, ?_⟩
  have hle := h.length_le
  cases hlookup : c.lookup id with
  | none => rwa [update_of_none hlookup]
  | some slot =>
    rw [update_of_some hlookup]
    cases f slot with
    | some slot' => simpa [setSlot] using hle
    | none => simpa [freeSlot_eq hlookup] using hle

lemma SameSlots.wf (h : c.SameSlots c') (hwf : c.Wf) : c'.Wf :=
  ⟨h.table ▸ hwf.table_wf, h.slots_eq ▸ hwf.length_le⟩

/-- A submitted operation is put into the table under the next key, as a fresh slot. -/
lemma submit_insert (kind : HostOpKind) (h : c.Wf) (hfits : c.Fits) :
    (c.submit kind).2.table = c.table.insert {} ∧ (c.submit kind).1.key = c.table.nextKey := by
  have hwf := h.table_wf.insert (a := ({} : PendingSlot))
  have hlen : c.slotInfo.length = c.slots.length := by
    simpa [table] using h.table_wf.gens_length
  cases hfree : c.freeSlots with
  | nil =>
    have hlt := hfits.index_left hfree
    have hrank : HostOpId.rank 1 = 0 := rfl
    constructor
    · apply table_eq hwf <;>
        simp [submit, allocateId, hfree, GenTable.insert, table, HostOpId.index_encode hlt, hrank]
    · simp [submit, allocateId, hfree, GenTable.nextKey, table, HostOpId.index_encode hlt,
        HostOpId.generation_encode hlt, HostOpId.key, hrank]
  | cons idx free =>
    have hempty : c.slots[idx]? = some none :=
      (h.table_wf.mem_free idx).mp (by simp [table, hfree])
    obtain ⟨hidx, hnone⟩ := List.getElem?_eq_some_iff.mp hempty
    have hlt : idx < 2 ^ 32 := Nat.lt_of_lt_of_le hidx h.length_le
    obtain ⟨g, hg⟩ : ∃ g, c.slotInfo[idx]? = some g :=
      ⟨c.slotInfo[idx], List.getElem?_eq_getElem (by omega)⟩
    have hne : g ≠ 0 := fun hzero => hfits.generation_left idx (by simp [hfree]) (hzero ▸ hg)
    have hrank := HostOpId.rank_succ hne
    constructor
    · apply table_eq hwf
      · simp [submit, allocateId, hfree, GenTable.insert, table, HostOpId.index_encode hlt]
      · have hmap : (c.slotInfo.modify idx (· + 1)).map HostOpId.rank =
            (c.slotInfo.map HostOpId.rank).set idx (HostOpId.rank g + 1) := by
          rw [List.modify_eq_set_getElem?, hg, ← hrank, ← List.map_set]
          rfl
        simpa [submit, allocateId, hfree, GenTable.insert, GenTable.gen, table, hg] using hmap
      · simp [submit, allocateId, hfree, GenTable.insert, table]
    · simp [submit, allocateId, hfree, GenTable.nextKey, GenTable.gen, table,
        HostOpId.index_encode hlt, HostOpId.generation_encode hlt, HostOpId.key, hg, hrank]

/-- Submission appends the request and leaves all else but the slots as it is. -/
lemma submit_frame (c : HostChannelInner) (kind : HostOpKind) :
    (c.submit kind).2.pendingRequests =
      c.pendingRequests ++ [⟨(c.submit kind).1, kind, c.currentTask⟩] ∧
    (c.submit kind).2.maxPending = c.maxPending ∧
    (c.submit kind).2.submitWakers = c.submitWakers ∧ (c.submit kind).2.woken = c.woken := by
  cases hfree : c.freeSlots <;> simp [submit, allocateId, hfree]

lemma Wf.submit (h : c.Wf) (kind : HostOpKind) (hfits : c.Fits) : (c.submit kind).2.Wf := by
  refine ⟨(submit_insert kind h hfits).1 ▸ h.table_wf.insert, ?_⟩
  have hle := h.length_le
  cases hfree : c.freeSlots with
  | nil =>
    have hlt := hfits.index_left hfree
    simp [HostChannelInner.submit, allocateId, hfree]
    omega
  | cons idx free => simpa [HostChannelInner.submit, allocateId, hfree] using hle

/-- Submission puts an empty slot under a new id and leaves the slots of the others alone. -/
lemma lookup_submit (h : c.Wf) (kind : HostOpKind) (hfits : c.Fits) :
    (c.submit kind).2.lookup id =
      if id = (c.submit kind).1 then some {} else c.lookup id := by
  obtain ⟨htable, hkey⟩ := submit_insert kind h hfits
  have hiff : id.key = c.table.nextKey ↔ id = (c.submit kind).1 := by
    rw [← hkey]
    exact ⟨HostOpId.key_injective, congrArg HostOpId.key⟩
  rw [lookup_eq_table (h.submit kind hfits).table_wf, htable, h.table_wf.lookup_insert_eq,
    lookup_eq_table h.table_wf]
  simp only [hiff]

/-! ### Operations on one slot -/

def call (c : HostChannelInner) (id : HostOpId) : HostCall → HostChannelInner
  | .complete result => c.completeResult id result
  | .chunk data eof => (c.appendChunk id data eof).2
  | .clearBuffer => c.clearBuffer id

/-- What a poll does to a slot: the result is taken away with it. -/
def pollSlot (waker : Waker) (slot : PendingSlot) : Option PendingSlot :=
  if slot.result.isSome then none else some { slot with waker := register slot.waker waker }

/-- What the drop of its future does to a slot. -/
def cancelSlot (slot : PendingSlot) : Option PendingSlot :=
  if slot.result.isSome then none else some { slot with cancelled := true }

lemma wakeAll_nil : c.wakeAll [] = c := by
  rw [wakeAll, List.append_nil]

lemma slot?_eq (h : c.lookup id = some slot) : c.slot? id.index = some slot := by
  rw [slot?, (lookup_eq_some.mp h).2]
  rfl

lemma slot?_eq_none (h : c.lookup id = none) (hvalid : c.isValidId id = true) :
    c.slot? id.index = none := by
  rwa [lookup, if_pos hvalid] at h

/-- A call under an id that is current for no slot does nothing. -/
lemma call_of_none (h : c.lookup id = none) (call : HostCall) : c.call id call = c := by
  by_cases hvalid : c.isValidId id = true
  · have hslot := slot?_eq_none h hvalid
    cases call <;>
      simp [HostChannelInner.call, completeResult, appendChunk, HostChannelInner.clearBuffer,
        hvalid, hslot]
  · cases call <;>
      simp [HostChannelInner.call, completeResult, appendChunk, HostChannelInner.clearBuffer,
        hvalid]

/-- A call under an id is an update of its slot, and wakes the future that waits for it. -/
lemma call_eq (c : HostChannelInner) (id : HostOpId) (call : HostCall) :
    ∃ wakers, c.call id call = (c.update id call.onSlot).wakeAll wakers := by
  cases hlookup : c.lookup id with
  | none => exact ⟨[], by rw [call_of_none hlookup, update_of_none hlookup, wakeAll_nil]⟩
  | some slot =>
    have hvalid := isValidId_eq hlookup
    have hslot := slot?_eq hlookup
    rw [update_of_some hlookup]
    cases call with
    | complete result =>
      simp only [HostChannelInner.call, completeResult, HostCall.onSlot, hvalid, hslot,
        Bool.not_true, Bool.false_eq_true, if_false]
      split_ifs with hcancelled
      · exact ⟨[], wakeAll_nil.symm⟩
      · exact ⟨_, rfl⟩
    | chunk data eof =>
      simp only [HostChannelInner.call, appendChunk, HostCall.onSlot, hvalid, hslot,
        Bool.not_true, Bool.false_eq_true, if_false]
      split_ifs with hcancelled hlimit heof
      · exact ⟨[], wakeAll_nil.symm⟩
      · exact ⟨_, rfl⟩
      · exact ⟨_, rfl⟩
      · exact ⟨[], wakeAll_nil.symm⟩
    | clearBuffer =>
      refine ⟨[], ?_⟩
      simp [HostChannelInner.call, HostChannelInner.clearBuffer, HostCall.onSlot, hvalid, hslot,
        wakeAll_nil]

/-- A cancelled slot is freed when its request is taken. -/
def purgeSlot (slot : PendingSlot) : Option PendingSlot :=
  if slot.cancelled then none else some slot

lemma purge_eq (c : HostChannelInner) (id : HostOpId) :
    (if (c.slot? id.index).any (·.cancelled) then c.freeSlot id else c) =
    c.update id purgeSlot := by
  cases hlookup : c.lookup id with
  | none =>
    rw [update_of_none hlookup]
    by_cases hvalid : c.isValidId id = true
    · simp [slot?_eq_none hlookup hvalid]
    · simp [freeSlot, hvalid]
  | some slot =>
    rw [update_of_some hlookup, slot?_eq hlookup]
    cases hcancelled : slot.cancelled with
    | true => simp [purgeSlot, hcancelled]
    | false =>
      have hset : c.setSlot id.index slot = c := by
        obtain ⟨hlt, hslot⟩ := List.getElem?_eq_some_iff.mp (lookup_eq_some.mp hlookup).2
        rw [setSlot, ← hslot, List.set_getElem_self]
      simp [purgeSlot, hcancelled, hset]

lemma cancel_eq : c.cancel id = c.update id cancelSlot := by
  cases hlookup : c.lookup id with
  | none =>
    rw [update_of_none hlookup]
    by_cases hvalid : c.isValidId id = true
    · simp [cancel, hvalid, slot?_eq_none hlookup hvalid]
    · simp [cancel, hvalid]
  | some slot =>
    rw [update_of_some hlookup]
    simp only [cancel, isValidId_eq hlookup, slot?_eq hlookup, cancelSlot]
    cases slot.result <;> rfl

lemma lookup_setSlot (h : c.lookup id = some slot) (slot' : PendingSlot) :
    (c.setSlot id.index slot').lookup id = some slot' := by
  have hupdate : c.update id (fun _ => some slot') = c.setSlot id.index slot' := update_of_some h
  rw [← hupdate, lookup_update, if_pos rfl, h, Option.bind_some]

/-- A poll of an operation that has no slot of its own. -/
lemma pollResult_of_none (waker : Waker) (h : c.lookup id = none) :
    ∃ e, c.pollResult waker id = (.ready (.error e), c) := by
  by_cases hvalid : c.isValidId id = true
  · exact ⟨_, by simp [pollResult, hvalid, slot?_eq_none h hvalid]; rfl⟩
  · exact ⟨_, by simp [pollResult, hvalid]; rfl⟩

/-- A poll hands out the result once, or waits for it. -/
lemma pollResult_of_some (waker : Waker) (h : c.lookup id = some slot) :
    c.pollResult waker id =
    (match slot.result with
      | some result => .ready result
      | none => .pending, c.update id (pollSlot waker)) := by
  rw [update_of_some h]
  simp only [pollResult, isValidId_eq h, slot?_eq h, pollSlot]
  cases slot.result with
  | none => rfl
  | some result =>
    have hfree : (c.setSlot id.index { slot with result := none }).freeSlot id = c.freeSlot id := by
      rw [freeSlot_eq h, freeSlot_eq (lookup_setSlot h _)]
      simp [setSlot]
    simp [hfree]

lemma pollResult_eq : (c.pollResult waker id).2 = c.update id (pollSlot waker) := by
  cases hlookup : c.lookup id with
  | none =>
    obtain ⟨e, heq⟩ := pollResult_of_none waker hlookup
    rw [heq, update_of_none hlookup]
  | some slot => rw [pollResult_of_some waker hlookup]

lemma pollResult_frame (c : HostChannelInner) (waker : Waker) (id : HostOpId) :
    (c.pollResult waker id).2.pendingRequests = c.pendingRequests ∧
    (c.pollResult waker id).2.maxPending = c.maxPending ∧
    (c.pollResult waker id).2.submitWakers = c.submitWakers ∧
    (c.pollResult waker id).2.woken = c.woken := by
  rw [pollResult_eq]
  exact update_frame

lemma sameSlots_register {willWake : Waker → Waker → Bool} :
    c.SameSlots (c.registerSubmitWaker willWake waker) := by
  unfold registerSubmitWaker
  split_ifs <;> exact ⟨rfl, rfl, rfl⟩

lemma register_frame (c : HostChannelInner) (willWake : Waker → Waker → Bool) (waker : Waker) :
    (c.registerSubmitWaker willWake waker).pendingRequests = c.pendingRequests ∧
    (c.registerSubmitWaker willWake waker).maxPending = c.maxPending ∧
    (c.registerSubmitWaker willWake waker).woken = c.woken := by
  unfold registerSubmitWaker
  split_ifs <;> exact ⟨rfl, rfl, rfl⟩

/-! ### Taking requests -/

/-- The first request leaves the queue, and a blocked submitter is woken. -/
def popRequest (c : HostChannelInner) (rest : List HostOpRequest) : HostChannelInner :=
  { c with pendingRequests := rest }.wakeSubmitter

lemma takeLoop_cons (req : HostOpRequest) (rest : List HostOpRequest) : c.takeLoop (req :: rest) =
    let c' := (c.popRequest rest).update req.id purgeSlot
    if (c.slot? req.id.index).any (·.cancelled) then c'.takeLoop rest else (some req, c') := by
  have hpurge := purge_eq (c.popRequest rest) req.id
  have hslot : (c.popRequest rest).slot? req.id.index = c.slot? req.id.index := rfl
  rw [hslot] at hpurge
  rw [takeLoop, ← hpurge]
  by_cases hcancelled : (c.slot? req.id.index).any (·.cancelled) = true
  · rw [if_pos hcancelled, if_pos hcancelled]
    exact if_pos hcancelled
  · rw [if_neg hcancelled, if_neg hcancelled]
    exact if_neg hcancelled

/-- A request that was not cancelled is taken. -/
lemma takeLoop_live {req : HostOpRequest} {rest : List HostOpRequest}
    (h : (c.slot? req.id.index).any (·.cancelled) = false) :
    c.takeLoop (req :: rest) = (some req, c.popRequest rest) := by
  rw [takeLoop]
  exact if_neg (by rw [← Bool.not_eq_true] at h; exact h)

/-- What is kept when a request is popped and when a cancelled slot is freed is kept when a request
is taken. -/
lemma takePending_keeps {P : HostChannelInner → Prop} (h : P c)
    (hpop : ∀ c req rest, P c → c.pendingRequests = req :: rest → P (c.popRequest rest))
    (hpurge : ∀ c id, P c → P (c.update id purgeSlot)) : P c.takePending.2 := by
  have hloop : ∀ reqs c, P c → c.pendingRequests = reqs → P (c.takeLoop reqs).2 := by
    intro reqs
    induction reqs with
    | nil =>
      intro c hc hreqs
      rw [takeLoop, ← hreqs]
      exact hc
    | cons req rest ih =>
      intro c hc hreqs
      have hpopped := hpop c req rest hc hreqs
      have hpurged := hpurge _ req.id hpopped
      rw [takeLoop_cons]
      dsimp only
      split_ifs
      · exact ih _ hpurged pendingRequests_update
      · exact hpurged
  exact hloop _ c h rfl

end HostChannelInner

end AmlaSandbox.Host
