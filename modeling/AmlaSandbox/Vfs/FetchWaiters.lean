import AmlaSandbox.Vfs.LazyStore

/-!
# Readers of lazily fetched files

A parked reader waits in the slot of the host operation that its store polls, or in the list that
the cache keeps for the block. The slot holds one waker, and a store that is dropped leaves its
block listed; where neither happens to a reader that still waits, nobody is stranded.
-/

namespace AmlaSandbox.Vfs

open Host Async Library

/-! ### Futures and the channel -/

namespace FetchFuture

variable {future : FetchFuture} {room : Bool} {waker : Waker}

/-- The poll is the one of the channel, as long as the operation has its slot. -/
lemma pollSubmitted_channel {c : HostChannelInner} {id : HostOpId} {slot : PendingSlot}
    (h : c.lookup id = some slot) :
    (pollSubmitted waker (some slot)).1 = (c.pollResult waker id).1 ∧
      (pollSubmitted waker (some slot)).2 = .submitted ((c.pollResult waker id).2.lookup id) := by
  rw [HostChannelInner.pollResult_of_some waker h, HostChannelInner.lookup_update, if_pos rfl, h,
    Option.bind_some, pollSubmitted, HostChannelInner.pollSlot]
  cases slot.result <;> exact ⟨rfl, rfl⟩

/-- What the host does under the id of an operation is what it does to the channel. -/
lemma call_channel {c : HostChannelInner} {id : HostOpId} {slot : PendingSlot}
    (h : c.lookup id = some slot) (call : HostCall) :
    (FetchFuture.call call (.submitted (some slot))).1 = .submitted ((c.call id call).lookup id) ∧
      (c.call id call).woken =
        c.woken ++ (FetchFuture.call call (.submitted (some slot))).2 := by
  constructor
  · obtain ⟨wakers, heq⟩ := c.call_eq id call
    rw [heq, HostChannelInner.lookup_wakeAll, HostChannelInner.lookup_update, if_pos rfl, h]
    rfl
  · have hvalid := HostChannelInner.isValidId_eq h
    have hslot := HostChannelInner.slot?_eq h
    have hfree : (c.freeSlot id).woken = c.woken := by
      rw [HostChannelInner.freeSlot]
      split_ifs <;> rfl
    cases call with
    | complete result =>
      cases hcancelled : slot.cancelled <;>
        simp [HostChannelInner.call, HostChannelInner.completeResult, FetchFuture.call,
          HostCall.onSlot, hvalid, hslot, hcancelled, hfree, HostChannelInner.wakeAll,
          HostChannelInner.setSlot]
    | chunk data eof =>
      cases hcancelled : slot.cancelled with
      | true =>
        simp [HostChannelInner.call, HostChannelInner.appendChunk, FetchFuture.call,
          HostCall.onSlot, hvalid, hslot, hcancelled, hfree]
      | false =>
        by_cases hlimit : slot.buffer.length + data.length > slot.bufferLimit
        · simp [HostChannelInner.call, HostChannelInner.appendChunk, FetchFuture.call,
            HostCall.onSlot, hvalid, hslot, hcancelled, hlimit, HostChannelInner.wakeAll,
            HostChannelInner.setSlot]
        · cases eof <;> cases hwaker : slot.waker <;>
            simp [HostChannelInner.call, HostChannelInner.appendChunk, FetchFuture.call,
              HostCall.onSlot, hvalid, hslot, hcancelled, hlimit, hwaker,
              HostChannelInner.wakeAll, HostChannelInner.setSlot]
    | clearBuffer =>
      cases hwaker : slot.waker <;>
        simp [HostChannelInner.call, HostChannelInner.clearBuffer, FetchFuture.call,
          HostCall.onSlot, hvalid, hslot, hwaker, HostChannelInner.setSlot]

/-- The operation is not cancelled; only the drop of its future does that. -/
def Uncancelled : FetchFuture → Prop
  | .pending _ => True
  | .submitted slot => ∃ s, slot = some s ∧ s.cancelled = false

/-- The next call that ends the operation wakes the waker, or there is no operation yet. -/
def Armed (waker : Waker) : FetchFuture → Prop
  | .pending _ => True
  | .submitted slot => ∃ s, slot = some s ∧ s.result = none ∧ s.waker = some waker

/-- A poll that returns `Pending` leaves its waker behind. -/
lemma poll_pending (hlive : future.Uncancelled) (h : (future.poll room waker).1 = .pending) :
    (future.poll room waker).2.Armed waker ∧ (future.poll room waker).2.Uncancelled := by
  have hsubmitted : ∀ s : PendingSlot, s.cancelled = false →
      (pollSubmitted waker (some s)).1 = .pending →
      (pollSubmitted waker (some s)).2.Armed waker ∧
        (pollSubmitted waker (some s)).2.Uncancelled := by
    intro s hs hpending
    cases hresult : s.result with
    | some result => simp [pollSubmitted, hresult] at hpending
    | none => simp [pollSubmitted, hresult, Armed, Uncancelled, hs]
  cases future with
  | pending kind =>
    cases room with
    | false => exact ⟨trivial, trivial⟩
    | true => exact hsubmitted {} rfl h
  | submitted slot =>
    obtain ⟨s, rfl, hs⟩ := hlive
    exact hsubmitted s hs h

/-- Only a poll of a finished operation returns a result. -/
lemma not_armed_of_ready {result : HostResult} (h : (future.poll room waker).1 = .ready result)
    (other : Waker) : ¬ future.Armed other := by
  cases future with
  | pending kind => cases room <;> cases h
  | submitted slot =>
    rintro ⟨s, rfl, hresult, _⟩
    simp [poll, pollSubmitted, hresult] at h

/-- A call takes the waker out of the slot, or leaves what the slot waits for. -/
lemma onSlot_spec {s : PendingSlot} (hs : s.cancelled = false) (call : HostCall) :
    ∃ s', call.onSlot s = some s' ∧ s'.cancelled = false ∧
      (s'.waker = none ∨ s'.waker = s.waker ∧ s'.result = s.result) := by
  cases call with
  | complete result => simp [HostCall.onSlot, hs]
  | clearBuffer => exact ⟨_, rfl, hs, Or.inr ⟨rfl, rfl⟩⟩
  | chunk data eof =>
    simp only [HostCall.onSlot, hs, Bool.false_eq_true, if_false]
    split_ifs
    · exact ⟨_, rfl, rfl, Or.inl rfl⟩
    · exact ⟨_, rfl, rfl, Or.inl rfl⟩
    · exact ⟨_, rfl, rfl, Or.inr ⟨rfl, rfl⟩⟩

lemma uncancelled_call (hlive : future.Uncancelled) (call : HostCall) :
    (future.call call).1.Uncancelled := by
  cases future with
  | pending kind => trivial
  | submitted slot =>
    obtain ⟨s, rfl, hs⟩ := hlive
    obtain ⟨s', hslot, hcancelled, _⟩ := onSlot_spec hs call
    exact ⟨s', hslot, hcancelled⟩

/-- A call wakes the waker in the slot, or leaves it there. -/
lemma armed_call (hlive : future.Uncancelled) (harmed : future.Armed waker) (call : HostCall) :
    waker ∈ (future.call call).2 ∨ (future.call call).1.Armed waker := by
  cases future with
  | pending kind => exact Or.inr trivial
  | submitted slot =>
    obtain ⟨s, rfl, hresult, hwaker⟩ := harmed
    obtain ⟨_, hs', hs⟩ := hlive
    obtain rfl := Option.some.inj hs'
    obtain ⟨s', hslot, _, htaken | ⟨hkept, hsame⟩⟩ := onSlot_spec hs call
    · left
      simp [FetchFuture.call, hslot, htaken, hwaker]
    · exact Or.inr ⟨s', hslot, hsame.trans hresult, hkept.trans hwaker⟩

end FetchFuture

/-! ### What a poll of a store does -/

/-- The two caches differ at most in the blocks they hold. -/
def SharedCache.SameFetches (c c' : SharedCache) : Prop :=
  c'.pendingFetches = c.pendingFetches ∧ c'.woken = c.woken ∧ c'.started = c.started ∧
    c'.ended = c.ended

namespace Fetching

/-- What a poll through a store can do to the store and to the fetches in progress. -/
inductive Move (waker : Waker) :
    LazyBlockStore × SharedCache → LazyBlockStore × SharedCache → Prop
  | repoll {store : LazyBlockStore} {c : SharedCache} {fetch : PendingFetch}
    {future : FetchFuture} :
    store.pending = some fetch → future.Armed waker → future.Uncancelled →
      Move waker (store, c) ({ store with pending := some { fetch with future } }, c)
  | finish {store store' : LazyBlockStore} {c c' : SharedCache} {fetch : PendingFetch} :
    store.pending = some fetch → (∀ other, ¬ fetch.future.Armed other) → store'.pending = none →
      (c.cancelFetch fetch.blockNum).SameFetches c' → Move waker (store, c) (store', c')
  | start {store : LazyBlockStore} {c : SharedCache} {blockNum : ℕ} {future : FetchFuture} :
    store.pending = none → c.pendingFetches.lookup blockNum = none → future.Armed waker →
      future.Uncancelled →
      Move waker (store, c)
        ({ store with pending := some { blockNum, future, fetch := c.started } },
          { c with
            pendingFetches := c.pendingFetches.insert blockNum { fetch := c.started }
            started := c.started + 1 })
  | empty {store : LazyBlockStore} {c c' : SharedCache} {blockNum : ℕ} :
    c.pendingFetches.lookup blockNum = none →
      c'.pendingFetches = (c.pendingFetches.insert blockNum { fetch := c.started }).erase blockNum →
      c'.woken = c.woken → c'.started = c.started + 1 → c'.ended = c.started :: c.ended →
      Move waker (store, c) (store, c')
  | wait {store : LazyBlockStore} {c : SharedCache} {blockNum : ℕ} {entry : FetchEntry}
    {wakers : List Waker} :
    c.pendingFetches.lookup blockNum = some entry → (∀ w ∈ entry.wakers, w ∈ wakers) →
      Move waker (store, c)
        (store, { c with
          pendingFetches := c.pendingFetches.insert blockNum { entry with wakers } })

/-- Any number of moves. -/
abbrev Moves (waker : Waker) :
    LazyBlockStore × SharedCache → LazyBlockStore × SharedCache → Prop :=
  Relation.ReflTransGen (Move waker)

/-- A reader with this waker that has been left waiting is in the place that its fetch wakes. -/
def Parks (waker : Waker) (blockNum : ℕ) (store : LazyBlockStore) (c : SharedCache) : Prop :=
  match store.pending with
  | some fetch => fetch.future.Armed waker
  | none => ∃ entry, c.pendingFetches.lookup blockNum = some entry ∧ waker ∈ entry.wakers

/-- The future of a store's pending fetch is not cancelled. -/
def Uncancelled (store : LazyBlockStore) : Prop :=
  ∀ fetch, store.pending = some fetch → fetch.future.Uncancelled

section Polls

variable {store : LazyBlockStore} (c : SharedCache) (blockNum : ℕ) (room : Bool) (waker : Waker)

lemma cancelFetch_insert (data : List UInt8) :
    (c.cancelFetch blockNum).SameFetches (c.completeFetch blockNum data) := by
  rw [SharedCache.completeFetch, SharedCache.cancelFetch, SharedCache.cancelFetch]
  cases c.pendingFetches.lookup blockNum <;> exact ⟨rfl, rfl, rfl, rfl⟩

/-- A poll of the pending fetch ends it, or leaves it to wake the waker. -/
lemma pollPendingFetch_spec {fetch : PendingFetch} (hlive : Uncancelled store)
    (hpending : store.pending = some fetch) :
    ∃ result store' c', store.pollPendingFetch room waker c = (result, store', c') ∧
      Move waker (store, c) (store', c') ∧ Uncancelled store' ∧
      (result = .pending → Parks waker blockNum store' c') ∧
      (result ≠ .pending → store'.pending = none) := by
  rcases hpoll : fetch.future.poll room waker with ⟨_ | ⟨e | data⟩, future⟩ <;>
    simp only [LazyBlockStore.pollPendingFetch, hpending, hpoll]
  · obtain ⟨harmed, huncancelled⟩ :=
      FetchFuture.poll_pending (hlive fetch hpending) (congrArg Prod.fst hpoll)
    rw [hpoll] at harmed huncancelled
    refine ⟨_, _, _, rfl, .repoll hpending harmed huncancelled, ?_, fun _ => harmed,
      fun hne => absurd rfl hne⟩
    intro fetch' hfetch'
    obtain rfl := Option.some.inj hfetch'
    exact huncancelled
  · have hready := FetchFuture.not_armed_of_ready (congrArg Prod.fst hpoll)
    refine ⟨_, _, _, rfl, .finish hpending hready rfl ⟨rfl, rfl, rfl, rfl⟩, ?_, ?_, fun _ => rfl⟩
    · intro fetch' hfetch'
      cases hfetch'
    · intro hresult
      cases hresult
  · have hready := FetchFuture.not_armed_of_ready (congrArg Prod.fst hpoll)
    refine ⟨_, _, _, rfl, .finish hpending hready rfl (cancelFetch_insert c _ data), ?_, ?_,
      fun _ => rfl⟩
    · intro fetch' hfetch'
      cases hfetch'
    · intro hresult
      cases hresult

lemma tryStartFetch_cases :
    c.tryStartFetch blockNum = (.cached, c) ∨
      (∃ entry, c.pendingFetches.lookup blockNum = some entry ∧
        c.tryStartFetch blockNum = (.wait, c)) ∨
      (c.pendingFetches.lookup blockNum = none ∧
        c.tryStartFetch blockNum = (.fetch, { c with
          pendingFetches := c.pendingFetches.insert blockNum { fetch := c.started }
          started := c.started + 1 })) := by
  rw [SharedCache.tryStartFetch]
  split_ifs with hcached hlisted
  · exact Or.inl rfl
  · obtain ⟨entry, hentry⟩ := Option.isSome_iff_exists.mp hlisted
    exact Or.inr (Or.inl ⟨entry, hentry, rfl⟩)
  · exact Or.inr (Or.inr ⟨by simpa using hlisted, rfl⟩)

lemma registerFetchWaker_spec {entry : FetchEntry}
    (h : c.pendingFetches.lookup blockNum = some entry) :
    ∃ wakers, (∀ w ∈ entry.wakers, w ∈ wakers) ∧ waker ∈ wakers ∧
      (c.registerFetchWaker blockNum waker = { c with
          pendingFetches := c.pendingFetches.insert blockNum { entry with wakers } } ∨
        wakers = entry.wakers ∧ c.registerFetchWaker blockNum waker = c) := by
  simp only [SharedCache.registerFetchWaker, h]
  split_ifs with hnew
  · refine ⟨entry.wakers ++ [waker], fun w hw => List.mem_append_left _ hw, ?_, Or.inl rfl⟩
    exact List.mem_append_right _ (List.mem_singleton_self _)
  · refine ⟨entry.wakers, fun w hw => hw, ?_, Or.inr ⟨rfl, rfl⟩⟩
    simpa [Waker.willWake] using hnew

/-- Whatever a reader does for a block of its own. -/
lemma startFetch_spec (hlive : Uncancelled store) (hpending : store.pending = none) :
    ∃ result store' c', store.startFetch blockNum room waker c = (result, store', c') ∧
      Moves waker (store, c) (store', c') ∧ Uncancelled store' ∧
      (result = .pending → Parks waker blockNum store' c') := by
  rcases tryStartFetch_cases c blockNum with
    htry | ⟨entry, hentry, htry⟩ | ⟨hfree, htry⟩ <;>
    simp only [LazyBlockStore.startFetch, htry]
  · exact ⟨_, _, _, rfl, .refl, hlive, fun h => by cases h⟩
  · obtain ⟨wakers, hkept, hmem, hregister | ⟨rfl, hregister⟩⟩ :=
      registerFetchWaker_spec c blockNum waker hentry
    · refine ⟨_, _, _, rfl, .single ?_, hlive, fun _ => ?_⟩
      · rw [hregister]
        exact .wait hentry hkept
      · rw [Parks, hpending, hregister]
        exact ⟨_, AList.lookup_insert _, hmem⟩
    · refine ⟨_, _, _, rfl, ?_, hlive, fun _ => ?_⟩
      · rw [hregister]
      · rw [Parks, hpending, hregister]
        exact ⟨entry, hentry, hmem⟩
  · split_ifs with hlength
    · refine ⟨_, _, _, rfl, .single (.empty hfree ?_ ?_ ?_ ?_), hlive, fun h => by cases h⟩ <;>
        simp [SharedCache.completeFetch, SharedCache.cancelFetch]
    · have hfresh : Uncancelled { store with
          pending := some ⟨blockNum, .pending (.fileReadRange store.path
            (store.blockOffset blockNum) (store.blockLength blockNum)), c.started⟩ } := by
        intro fetch hfetch
        obtain rfl := Option.some.inj hfetch
        trivial
      obtain ⟨result, store', c', heq, hmove, hlive', hparks, _⟩ :=
        pollPendingFetch_spec _ blockNum room waker hfresh rfl
      refine ⟨result, store', c', heq, .head ?_ (.single hmove), hlive', hparks⟩
      exact .start hpending hfree trivial trivial

/-- Whatever a poll of a block does. -/
lemma pollReadBlock_spec (hlive : Uncancelled store) :
    ∃ result store' c', store.pollReadBlock blockNum room waker c = (result, store', c') ∧
      Moves waker (store, c) (store', c') ∧ Uncancelled store' ∧
      (result = .pending → Parks waker blockNum store' c') := by
  rw [LazyBlockStore.pollReadBlock]
  split
  · exact ⟨_, _, _, rfl, .refl, hlive, fun h => by cases h⟩
  · split
    · rename_i hpending
      exact startFetch_spec c blockNum room waker hlive hpending
    · rename_i fetch hpending
      obtain ⟨result, store', c', heq, hmove, hlive', hparks, hnone⟩ :=
        pollPendingFetch_spec c blockNum room waker hlive hpending
      split_ifs
      · exact ⟨result, store', c', heq, .single hmove, hlive', hparks⟩
      · rw [heq]
        rcases result with _ | e | _
        · exact ⟨_, _, _, rfl, .single hmove, hlive', hparks⟩
        · exact ⟨_, _, _, rfl, .single hmove, hlive', hparks⟩
        · obtain ⟨result, store'', c'', heq', hmoves, hlive'', hparks'⟩ :=
            startFetch_spec c' blockNum room waker hlive' (hnone (by simp))
          exact ⟨result, store'', c'', heq', .head hmove hmoves, hlive'', hparks'⟩

end Polls

/-! ### The invariant -/

namespace Machine

variable {m : Machine} {i j b n : ℕ} {waker : Waker} {store store' : LazyBlockStore}
  {shared shared' : SharedCache}

/-- The fetch of a number, for a block, is kept by a live store. -/
def Holds (m : Machine) (i b n : ℕ) : Prop :=
  ∃ store fetch, m.stores i = some store ∧ store.pending = some fetch ∧ fetch.blockNum = b ∧
    fetch.fetch = n

/-- What a parked reader waits for will wake it. -/
def Armed (m : Machine) (w : FetchWait) : Prop :=
  (w.direct ∧ ∃ i store fetch, m.stores i = some store ∧ store.pending = some fetch ∧
    fetch.fetch = w.fetch ∧ fetch.future.Armed w.parked.waker) ∨
  (w.direct = false ∧ ∃ b entry, m.shared.pendingFetches.lookup b = some entry ∧
    entry.fetch = w.fetch ∧ w.parked.waker ∈ entry.wakers)

structure Inv (m : Machine) : Prop where
  listed : ∀ b entry, m.shared.pendingFetches.lookup b = some entry → ∃ i, m.Holds i b entry.fetch
  held : ∀ i b n, m.Holds i b n → ∃ entry, m.shared.pendingFetches.lookup b = some entry ∧
    entry.fetch = n
  one : ∀ i j b b' n, m.Holds i b n → m.Holds j b' n → i = j
  fresh : ∀ i b n, m.Holds i b n → n < m.shared.started
  past : ∀ n ∈ m.shared.ended, n < m.shared.started
  going : ∀ i b n, m.Holds i b n → n ∉ m.shared.ended
  live : ∀ i store, m.stores i = some store → Uncancelled store
  waits : ∀ r w, m.readers r = some w → Waits w.parked m.shared.woken (m.Armed w)

lemma Inv.armed_open (hinv : m.Inv) {w : FetchWait} (h : m.Armed w) :
    w.fetch < m.shared.started ∧ w.fetch ∉ m.shared.ended := by
  rcases h with ⟨_, i, store, fetch, hstore, hpending, hfetch, _⟩ | ⟨_, b, entry, hentry, hfetch, _⟩
  · have hholds : m.Holds i fetch.blockNum w.fetch := ⟨store, fetch, hstore, hpending, rfl, hfetch⟩
    exact ⟨hinv.fresh _ _ _ hholds, hinv.going _ _ _ hholds⟩
  · obtain ⟨i, hholds⟩ := hinv.listed b entry hentry
    rw [hfetch] at hholds
    exact ⟨hinv.fresh _ _ _ hholds, hinv.going _ _ _ hholds⟩

lemma Inv.sound (hinv : m.Inv) : m.Sound where
  listed b hb := by
    obtain ⟨entry, hentry⟩ := Option.isSome_iff_exists.mp hb
    obtain ⟨i, store, fetch, hstore, hpending, hblock, _⟩ := hinv.listed b entry hentry
    exact ⟨i, store, fetch, hstore, hpending, hblock⟩
  woken r w hw hended :=
    (hinv.waits r w hw).woken_or_armed.resolve_right fun harmed =>
      (hinv.armed_open harmed).2 hended

/-- Another reader that waits for the pending fetch of a store has the waker that polls it now, or
has been woken. -/
def Undisturbed (m : Machine) (store : LazyBlockStore) (waker : Waker) : Prop :=
  ∀ fetch, store.pending = some fetch → ∀ r w, m.readers r = some w → w.direct →
    w.fetch = fetch.fetch → ¬ w.parked.Woken m.shared.woken → w.parked.waker = waker

@[simp] lemma stores_put_self : (m.put i store' shared').stores i = some store' :=
  Function.update_self ..

lemma stores_put_of_ne (hij : j ≠ i) : (m.put i store' shared').stores j = m.stores j :=
  Function.update_of_ne hij ..

lemma holds_put : (m.put i store' shared').Holds j b n ↔
    if j = i then ∃ fetch, store'.pending = some fetch ∧ fetch.blockNum = b ∧ fetch.fetch = n
    else m.Holds j b n := by
  by_cases hij : j = i
  · subst hij
    simp [Holds, put]
  · simp [Holds, put, hij]

lemma armed_put {w : FetchWait} (hdirect : w.direct → ∀ fetch, store.pending = some fetch →
      fetch.fetch = w.fetch → fetch.future.Armed w.parked.waker →
      ∃ fetch', store'.pending = some fetch' ∧ fetch'.fetch = w.fetch ∧
        fetch'.future.Armed w.parked.waker)
    (hlisted : w.direct = false → ∀ b entry, m.shared.pendingFetches.lookup b = some entry →
      entry.fetch = w.fetch → w.parked.waker ∈ entry.wakers →
      ∃ entry', shared'.pendingFetches.lookup b = some entry' ∧ entry'.fetch = w.fetch ∧
        w.parked.waker ∈ entry'.wakers)
    (hstore : m.stores i = some store) (h : m.Armed w) : (m.put i store' shared').Armed w := by
  rcases h with
    ⟨hd, j, s, fetch, hs, hpending, hfetch, harmed⟩ | ⟨hd, b, entry, hentry, hfetch, hmem⟩
  · left
    refine ⟨hd, ?_⟩
    by_cases hij : j = i
    · subst hij
      obtain rfl := Option.some.inj (hstore.symm.trans hs)
      obtain ⟨fetch', hpending', hfetch', harmed'⟩ := hdirect hd fetch hpending hfetch harmed
      exact ⟨j, store', fetch', stores_put_self, hpending', hfetch', harmed'⟩
    · exact ⟨j, s, fetch, (stores_put_of_ne hij).trans hs, hpending, hfetch, harmed⟩
  · right
    obtain ⟨entry', hentry', hfetch', hmem'⟩ := hlisted hd b entry hentry hfetch hmem
    exact ⟨hd, b, entry', hentry', hfetch', hmem'⟩

lemma live_put (hinv : m.Inv) (hlive : Uncancelled store') :
    ∀ j s, (m.put i store' shared').stores j = some s → Uncancelled s := by
  intro j s hs
  by_cases hij : j = i
  · subst hij
    obtain rfl := Option.some.inj (stores_put_self.symm.trans hs)
    exact hlive
  · exact hinv.live j s ((stores_put_of_ne hij).symm.trans hs)

/-- The fetches that stores keep are the same. -/
lemma Inv.put_same (hinv : m.Inv) (hlive : Uncancelled store')
    (hholds : ∀ j b n, (m.put i store' shared').Holds j b n ↔ m.Holds j b n)
    (hlookup : ∀ b, (shared'.pendingFetches.lookup b).map (·.fetch) =
      (m.shared.pendingFetches.lookup b).map (·.fetch))
    (hstarted : m.shared.started ≤ shared'.started)
    (hended : ∀ n ∈ shared'.ended,
      n < shared'.started ∧ (n ∈ m.shared.ended ∨ m.shared.started ≤ n))
    (hwaits : ∀ r w, m.readers r = some w →
      Waits w.parked shared'.woken ((m.put i store' shared').Armed w)) :
    (m.put i store' shared').Inv where
  listed b entry hentry := by
    have hb := hlookup b
    rw [show shared'.pendingFetches.lookup b = some entry from hentry, Option.map_some] at hb
    obtain ⟨old, hold, hfetch⟩ := Option.map_eq_some_iff.mp hb.symm
    obtain ⟨j, hj⟩ := hinv.listed b old hold
    exact ⟨j, (hholds j b _).mpr (hfetch ▸ hj)⟩
  held j b n hj := by
    obtain ⟨old, hold, hfetch⟩ := hinv.held j b n ((hholds j b n).mp hj)
    have hb := hlookup b
    rw [hold, Option.map_some] at hb
    obtain ⟨entry, hentry, hsame⟩ := Option.map_eq_some_iff.mp hb
    exact ⟨entry, hentry, hsame.trans hfetch⟩
  one j k b b' n hj hk := hinv.one j k b b' n ((hholds j b n).mp hj) ((hholds k b' n).mp hk)
  fresh j b n hj := (hinv.fresh j b n ((hholds j b n).mp hj)).trans_le hstarted
  past n hn := (hended n hn).1
  going j b n hj hn := by
    have hold := (hholds j b n).mp hj
    rcases (hended n hn).2 with hn | hn
    · exact hinv.going j b n hold hn
    · exact absurd (hinv.fresh j b n hold) (Nat.not_lt.mpr hn)
  live := live_put hinv hlive
  waits := hwaits

lemma holds_put_of_pending (hstore : m.stores i = some store) {fetch fetch' : PendingFetch}
    (hpending : store.pending = some fetch) (hpending' : store'.pending = some fetch')
    (hblock : fetch'.blockNum = fetch.blockNum) (hfetch : fetch'.fetch = fetch.fetch)
    (j b n : ℕ) : (m.put i store' shared').Holds j b n ↔ m.Holds j b n := by
  rw [holds_put]
  split_ifs with hij
  · subst hij
    simp [Holds, hstore, hpending, hpending', hblock, hfetch]
  · exact Iff.rfl

lemma Inv.repoll (hinv : m.Inv) (hstore : m.stores i = some store) {fetch : PendingFetch}
    {future : FetchFuture} (hpending : store.pending = some fetch) (harmed : future.Armed waker)
    (hlive : future.Uncancelled) (hundisturbed : m.Undisturbed store waker) :
    (m.put i { store with pending := some { fetch with future } } m.shared).Inv := by
  refine hinv.put_same ?_ (holds_put_of_pending hstore hpending rfl rfl rfl) (fun _ => rfl) le_rfl
    (fun n hn => ⟨hinv.past n hn, Or.inl hn⟩) fun r w hw => ?_
  · intro fetch' hfetch'
    obtain rfl := Option.some.inj hfetch'
    exact hlive
  · refine (hinv.waits r w hw).change fun hwoken h => armed_put ?_ ?_ hstore h
    · intro hdirect fetch' hfetch' hsame _
      obtain rfl := Option.some.inj (hpending.symm.trans hfetch')
      refine ⟨_, rfl, hsame, ?_⟩
      rw [hundisturbed fetch hpending r w hw hdirect hsame.symm hwoken]
      exact harmed
    · exact fun _ b entry hentry hfetch hmem => ⟨entry, hentry, hfetch, hmem⟩

lemma Inv.wait (hinv : m.Inv) (hstore : m.stores i = some store) {entry : FetchEntry}
    {wakers : List Waker} (hentry : m.shared.pendingFetches.lookup b = some entry)
    (hkept : ∀ w ∈ entry.wakers, w ∈ wakers) :
    (m.put i store { m.shared with
      pendingFetches := m.shared.pendingFetches.insert b { entry with wakers } }).Inv := by
  refine hinv.put_same (hinv.live i store hstore) (fun j b' n => ?_) (fun b' => ?_) le_rfl
    (fun n hn => ⟨hinv.past n hn, Or.inl hn⟩) fun r w hw => ?_
  · rw [holds_put]
    split_ifs with hij
    · simp [Holds, hij, hstore]
    · exact Iff.rfl
  · by_cases hb : b' = b
    · subst hb
      simp [hentry]
    · simp [AList.lookup_insert_ne hb]
  · refine (hinv.waits r w hw).change fun _ h => armed_put ?_ ?_ hstore h
    · exact fun _ fetch hfetch hsame harmed => ⟨fetch, hfetch, hsame, harmed⟩
    · intro _ b' old hold hfetch hmem
      by_cases hb : b' = b
      · subst hb
        obtain rfl := Option.some.inj (hentry.symm.trans hold)
        exact ⟨_, AList.lookup_insert _, hfetch, hkept _ hmem⟩
      · exact ⟨old, (AList.lookup_insert_ne hb).trans hold, hfetch, hmem⟩

lemma Inv.empty (hinv : m.Inv) (hstore : m.stores i = some store)
    (hfree : m.shared.pendingFetches.lookup b = none)
    (hpending : shared'.pendingFetches =
      (m.shared.pendingFetches.insert b { fetch := m.shared.started }).erase b)
    (hwoken : shared'.woken = m.shared.woken) (hstarted : shared'.started = m.shared.started + 1)
    (hended : shared'.ended = m.shared.started :: m.shared.ended) :
    (m.put i store shared').Inv := by
  have hlookup : ∀ b', shared'.pendingFetches.lookup b' = m.shared.pendingFetches.lookup b' := by
    intro b'
    rw [hpending]
    by_cases hb : b' = b
    · subst hb
      rw [AList.lookup_erase, hfree]
    · rw [AList.lookup_erase_ne hb, AList.lookup_insert_ne hb]
  refine hinv.put_same (hinv.live i store hstore) (fun j b' n => ?_) (fun b' => ?_)
    (hstarted ▸ Nat.le_succ _) (fun n hn => ?_) fun r w hw => ?_
  · rw [holds_put]
    split_ifs with hij
    · simp [Holds, hij, hstore]
    · exact Iff.rfl
  · rw [hlookup]
  · rw [hended] at hn
    rw [hstarted]
    rcases List.mem_cons.mp hn with rfl | hn
    · exact ⟨Nat.lt_succ_self _, Or.inr le_rfl⟩
    · exact ⟨Nat.lt_succ_of_lt (hinv.past n hn), Or.inl hn⟩
  · rw [hwoken]
    refine (hinv.waits r w hw).change fun _ h => armed_put ?_ ?_ hstore h
    · exact fun _ fetch hfetch hsame harmed => ⟨fetch, hfetch, hsame, harmed⟩
    · exact fun _ b' old hold hfetch hmem => ⟨old, (hlookup b').trans hold, hfetch, hmem⟩

lemma Inv.start (hinv : m.Inv) (hstore : m.stores i = some store)
    (hnone : store.pending = none) (hfree : m.shared.pendingFetches.lookup b = none)
    {future : FetchFuture} (hlive : future.Uncancelled) :
    (m.put i { store with pending := some ⟨b, future, m.shared.started⟩ } { m.shared with
      pendingFetches := m.shared.pendingFetches.insert b { fetch := m.shared.started }
      started := m.shared.started + 1 }).Inv := by
  have hne : ∀ {j b' n}, m.Holds j b' n → j ≠ i := by
    rintro j b' n ⟨s, fetch, hs, hfetch, _⟩ rfl
    obtain rfl := Option.some.inj (hstore.symm.trans hs)
    rw [hnone] at hfetch
    cases hfetch
  have hcases : ∀ {j b' n}, (m.put i { store with
      pending := some ⟨b, future, m.shared.started⟩ } { m.shared with
      pendingFetches := m.shared.pendingFetches.insert b { fetch := m.shared.started }
      started := m.shared.started + 1 }).Holds j b' n ↔
      (j = i ∧ b' = b ∧ n = m.shared.started) ∨ m.Holds j b' n := by
    intro j b' n
    rw [holds_put]
    by_cases hij : j = i
    · subst hij
      have hempty : ¬ m.Holds j b' n := fun h => hne h rfl
      simp [hempty, eq_comm]
    · simp [hij]
  exact {
    listed := by
      intro b' entry hentry
      by_cases hb : b' = b
      · subst hb
        obtain rfl := Option.some.inj ((AList.lookup_insert _).symm.trans hentry)
        exact ⟨i, hcases.mpr (Or.inl ⟨rfl, rfl, rfl⟩)⟩
      · obtain ⟨j, hj⟩ := hinv.listed b' entry ((AList.lookup_insert_ne hb).symm.trans hentry)
        exact ⟨j, hcases.mpr (Or.inr hj)⟩
    held := by
      intro j b' n hj
      rcases hcases.mp hj with ⟨_, rfl, rfl⟩ | hj
      · exact ⟨_, AList.lookup_insert _, rfl⟩
      · obtain ⟨entry, hentry, hfetch⟩ := hinv.held j b' n hj
        refine ⟨entry, (AList.lookup_insert_ne ?_).trans hentry, hfetch⟩
        rintro rfl
        rw [hfree] at hentry
        cases hentry
    one := by
      intro j k b' b'' n hj hk
      rcases hcases.mp hj with ⟨hj, _, hn⟩ | hj <;> rcases hcases.mp hk with ⟨hk, _, hn'⟩ | hk
      · rw [hj, hk]
      · exact absurd hn (hinv.fresh k b'' n hk).ne
      · exact absurd hn' (hinv.fresh j b' n hj).ne
      · exact hinv.one j k b' b'' n hj hk
    fresh := by
      intro j b' n hj
      rcases hcases.mp hj with ⟨_, _, rfl⟩ | hj
      · exact Nat.lt_succ_self _
      · exact Nat.lt_succ_of_lt (hinv.fresh j b' n hj)
    past := fun n hn => Nat.lt_succ_of_lt (hinv.past n hn)
    going := by
      intro j b' n hj hn
      rcases hcases.mp hj with ⟨_, _, rfl⟩ | hj
      · exact absurd (hinv.past _ hn) (lt_irrefl _)
      · exact hinv.going j b' n hj hn
    live := by
      refine live_put hinv fun fetch hfetch => ?_
      obtain rfl := Option.some.inj hfetch
      exact hlive
    waits := by
      intro r w hw
      refine (hinv.waits r w hw).change fun _ h => armed_put ?_ ?_ hstore h
      · intro _ fetch hfetch
        rw [hnone] at hfetch
        cases hfetch
      · intro _ b' entry hentry hfetch hmem
        refine ⟨entry, (AList.lookup_insert_ne ?_).trans hentry, hfetch, hmem⟩
        rintro rfl
        rw [hfree] at hentry
        cases hentry }

lemma Inv.finish (hinv : m.Inv) (hstore : m.stores i = some store) {fetch : PendingFetch}
    (hpending : store.pending = some fetch) (hready : ∀ other, ¬ fetch.future.Armed other)
    (hnone : store'.pending = none)
    (hsame : (m.shared.cancelFetch fetch.blockNum).SameFetches shared') :
    (m.put i store' shared').Inv := by
  have hmine : m.Holds i fetch.blockNum fetch.fetch := ⟨store, fetch, hstore, hpending, rfl, rfl⟩
  obtain ⟨entry, hentry, hfetch⟩ := hinv.held _ _ _ hmine
  rw [SharedCache.cancelFetch, hentry] at hsame
  obtain ⟨hfetches, hwoken, hstarted, hended⟩ := hsame
  have hcases : ∀ {j b n}, (m.put i store' shared').Holds j b n ↔ j ≠ i ∧ m.Holds j b n := by
    intro j b n
    rw [holds_put]
    by_cases hij : j = i
    · simp [hij, hnone]
    · simp [hij]
  have hother : ∀ {j b n}, m.Holds j b n → j ≠ i → b ≠ fetch.blockNum ∧ n ≠ fetch.fetch := by
    intro j b n hj hij
    have hn : n ≠ fetch.fetch := by
      rintro rfl
      exact hij (hinv.one j i _ _ _ hj hmine)
    refine ⟨?_, hn⟩
    rintro rfl
    obtain ⟨entry', hentry', hfetch'⟩ := hinv.held _ _ _ hj
    obtain rfl := Option.some.inj (hentry.symm.trans hentry')
    exact hn (hfetch'.symm.trans hfetch)
  exact {
    listed := by
      intro b e he
      rw [show (m.put i store' shared').shared.pendingFetches = _ from hfetches] at he
      by_cases hb : b = fetch.blockNum
      · subst hb
        rw [AList.lookup_erase] at he
        cases he
      · rw [AList.lookup_erase_ne hb] at he
        obtain ⟨j, hj⟩ := hinv.listed b e he
        refine ⟨j, hcases.mpr ⟨?_, hj⟩⟩
        rintro rfl
        obtain ⟨s, f, hs, hf, rfl, _⟩ := hj
        obtain rfl := Option.some.inj (hstore.symm.trans hs)
        obtain rfl := Option.some.inj (hpending.symm.trans hf)
        exact hb rfl
    held := by
      intro j b n hj
      obtain ⟨hij, hj⟩ := hcases.mp hj
      obtain ⟨e, he, hn⟩ := hinv.held j b n hj
      refine ⟨e, ?_, hn⟩
      rw [show (m.put i store' shared').shared.pendingFetches = _ from hfetches,
        AList.lookup_erase_ne (hother hj hij).1]
      exact he
    one := fun j k b b' n hj hk => hinv.one j k b b' n (hcases.mp hj).2 (hcases.mp hk).2
    fresh := by
      intro j b n hj
      rw [show (m.put i store' shared').shared.started = _ from hstarted]
      exact hinv.fresh j b n (hcases.mp hj).2
    past := by
      intro n hn
      rw [show (m.put i store' shared').shared.started = _ from hstarted]
      rw [show (m.put i store' shared').shared.ended = _ from hended] at hn
      rcases List.mem_cons.mp hn with rfl | hn
      · exact hfetch ▸ hinv.fresh _ _ _ hmine
      · exact hinv.past n hn
    going := by
      intro j b n hj hn
      obtain ⟨hij, hj⟩ := hcases.mp hj
      rw [show (m.put i store' shared').shared.ended = _ from hended] at hn
      rcases List.mem_cons.mp hn with rfl | hn
      · exact (hother hj hij).2 hfetch
      · exact hinv.going j b n hj hn
    live := by
      refine live_put hinv fun f hf => ?_
      rw [hnone] at hf
      cases hf
    waits := by
      intro r w hw
      rw [show (m.put i store' shared').shared.woken = _ from hwoken]
      refine (hinv.waits r w hw).wake fun _ h => ?_
      by_cases hlisted : w.direct = false ∧ w.fetch = entry.fetch ∧ w.parked.waker ∈ entry.wakers
      · exact Or.inl hlisted.2.2
      · refine Or.inr (armed_put ?_ ?_ hstore h)
        · intro _ f hf _ harmed
          obtain rfl := Option.some.inj (hpending.symm.trans hf)
          exact absurd harmed (hready _)
        · intro hdirect b e he hefetch hmem
          refine ⟨e, ?_, hefetch, hmem⟩
          rw [hfetches, AList.lookup_erase_ne, he]
          rintro rfl
          obtain rfl := Option.some.inj (hentry.symm.trans he)
          exact hlisted ⟨hdirect, hefetch.symm, hmem⟩ }

/-! ### Polls -/

lemma Inv.of_move (hinv : m.Inv) (hstore : m.stores i = some store)
    (hundisturbed : m.Undisturbed store waker)
    (hmove : Move waker (store, m.shared) (store', shared')) :
    (m.put i store' shared').Inv ∧ (m.put i store' shared').Undisturbed store' waker := by
  cases hmove with
  | repoll hpending harmed hlive =>
    refine ⟨hinv.repoll hstore hpending harmed hlive hundisturbed, ?_⟩
    intro fetch' hfetch' r w hw hdirect hsame
    obtain rfl := Option.some.inj hfetch'
    exact hundisturbed _ hpending r w hw hdirect hsame
  | finish hpending hready hnone hsame =>
    refine ⟨hinv.finish hstore hpending hready hnone hsame, ?_⟩
    intro fetch' hfetch'
    rw [hnone] at hfetch'
    cases hfetch'
  | start hnone hfree _ hlive =>
    refine ⟨hinv.start hstore hnone hfree hlive, ?_⟩
    -- nobody waits for the new fetch yet
    intro fetch' hfetch' r w hw _ hfetch hwoken
    obtain rfl := Option.some.inj hfetch'
    have harmed := (hinv.waits r w hw).woken_or_armed.resolve_left hwoken
    exact absurd hfetch (hinv.armed_open harmed).1.ne
  | empty hfree hpending hwoken hstarted hended =>
    refine ⟨hinv.empty hstore hfree hpending hwoken hstarted hended, ?_⟩
    intro fetch hfetch r w hw hdirect hsame hunwoken
    rw [show (m.put i store shared').shared.woken = _ from hwoken] at hunwoken
    exact hundisturbed fetch hfetch r w hw hdirect hsame hunwoken
  | wait hentry hkept => exact ⟨hinv.wait hstore hentry hkept, hundisturbed⟩

lemma put_put : (m.put i store shared).put i store' shared' = m.put i store' shared' := by
  simp [put]

lemma Inv.of_moves (hinv : m.Inv) (hstore : m.stores i = some store)
    (hundisturbed : m.Undisturbed store waker)
    {s : LazyBlockStore × SharedCache} (hmoves : Moves waker (store, m.shared) s) :
    (m.put i s.1 s.2).Inv ∧ (m.put i s.1 s.2).Undisturbed s.1 waker := by
  induction hmoves with
  | refl =>
    have hput : m.put i store m.shared = m := by rw [put, ← hstore, Function.update_eq_self]
    rw [hput]
    exact ⟨hinv, hundisturbed⟩
  | tail _ hmove ih =>
    rename_i s s' _
    obtain ⟨hinv', hundisturbed'⟩ := ih
    have hnext := hinv'.of_move stores_put_self hundisturbed' hmove
    rw [put_put] at hnext
    exact hnext

lemma Inv.readers (hinv : m.Inv) {readers : ℕ → Option FetchWait}
    (h : ∀ r w, readers r = some w → Waits w.parked m.shared.woken (m.Armed w)) :
    { m with readers }.Inv where
  listed := hinv.listed
  held := hinv.held
  one := hinv.one
  fresh := hinv.fresh
  past := hinv.past
  going := hinv.going
  live := hinv.live
  waits := h

lemma waits_waitAfter (hstore : m.stores i = some store) {result : Poll (Except VfsError Unit)}
    (hparks : result = .pending → Parks waker b store m.shared) {w : FetchWait}
    (hw : waitAfter result store b waker m.shared = some w) :
    Waits w.parked m.shared.woken (m.Armed w) := by
  cases result with
  | ready value => cases hw
  | pending =>
    have hparks := hparks rfl
    cases hpending : store.pending with
    | some fetch =>
      simp only [waitAfter, hpending] at hw
      obtain rfl := Option.some.inj hw
      rw [Parks, hpending] at hparks
      exact waits_now (Or.inl ⟨rfl, i, store, fetch, hstore, hpending, rfl, hparks⟩)
    | none =>
      rw [Parks, hpending] at hparks
      obtain ⟨entry, hentry, hmem⟩ := hparks
      simp only [waitAfter, hpending, hentry, Option.map_some] at hw
      obtain rfl := Option.some.inj hw
      exact waits_now (Or.inr ⟨rfl, b, entry, hentry, rfl, hmem⟩)

/-- No store is dropped while it has a pending fetch, and no task polls a store with a pending fetch
that another parked task still waits for at this store. -/
def Careful (m : Machine) : Event → Prop
  | .dropStore i => ∀ store, m.stores i = some store → store.pending = none
  | .poll reader i _ _ waker => ∀ store, m.stores i = some store →
    Undisturbed { m with readers := Function.update m.readers reader none } store waker
  | _ => True

lemma Inv.poll (hinv : m.Inv) {reader : ℕ} {room : Bool}
    (hcareful : m.Careful (.poll reader i b room waker)) :
    (m.step (.poll reader i b room waker)).Inv := by
  rw [step]
  split
  · exact hinv
  · rename_i store hstore
    have hforgotten : { m with readers := Function.update m.readers reader none }.Inv := by
      refine hinv.readers fun r w hw => hinv.waits r w ?_
      by_cases hr : r = reader
      · subst hr
        rw [Function.update_self] at hw
        cases hw
      · rwa [Function.update_of_ne hr] at hw
    obtain ⟨result, store', shared', heq, hmoves, _, hparks⟩ :=
      pollReadBlock_spec m.shared b room waker (hinv.live i store hstore)
    have hafter := (hforgotten.of_moves hstore (hcareful store hstore) hmoves).1
    rw [heq]
    refine hafter.readers fun r w hw => ?_
    by_cases hr : r = reader
    · subst hr
      rw [Function.update_self] at hw
      exact waits_waitAfter stores_put_self hparks hw
    · rw [Function.update_of_ne hr] at hw
      exact hafter.waits r w ((Function.update_of_ne hr ..).trans hw)

/-! ### The other events -/

lemma Inv.host (hinv : m.Inv) (call : HostCall) : (m.step (.host i call)).Inv := by
  rw [step]
  split
  · exact hinv
  · rename_i store hstore
    split
    · exact hinv
    · rename_i fetch hpending
      refine hinv.put_same ?_ (holds_put_of_pending hstore hpending rfl rfl rfl) (fun _ => rfl)
        le_rfl (fun n hn => ⟨hinv.past n hn, Or.inl hn⟩) fun r w hw => ?_
      · intro fetch' hfetch'
        obtain rfl := Option.some.inj hfetch'
        exact FetchFuture.uncancelled_call (hinv.live i store hstore fetch hpending) call
      · refine (hinv.waits r w hw).wake fun _ h => ?_
        by_cases hwoken : w.parked.waker ∈ (fetch.future.call call).2
        · exact Or.inl hwoken
        · refine Or.inr (armed_put ?_ ?_ hstore h)
          · intro _ fetch' hfetch' hsame harmed
            obtain rfl := Option.some.inj (hpending.symm.trans hfetch')
            have hlive := hinv.live i store hstore fetch hpending
            exact ⟨_, rfl, hsame, (FetchFuture.armed_call hlive harmed call).resolve_left hwoken⟩
          · exact fun _ b entry hentry hfetch hmem => ⟨entry, hentry, hfetch, hmem⟩

/-- The store of a number is opened, or dropped without a pending fetch. -/
lemma Inv.of_idle (hinv : m.Inv) {stores : ℕ → Option LazyBlockStore}
    (hidle : ∀ store, m.stores i = some store → store.pending = none)
    (hidle' : ∀ store, stores i = some store → store.pending = none)
    (hother : ∀ j, j ≠ i → stores j = m.stores j) : { m with stores }.Inv := by
  have hholds : ∀ {j b n}, { m with stores }.Holds j b n ↔ m.Holds j b n := by
    intro j b n
    by_cases hij : j = i
    · subst hij
      constructor
      · rintro ⟨s, fetch, hs, hfetch, _⟩
        rw [hidle' s hs] at hfetch
        cases hfetch
      · rintro ⟨s, fetch, hs, hfetch, _⟩
        rw [hidle s hs] at hfetch
        cases hfetch
    · simp [Holds, hother j hij]
  exact {
    listed := fun b entry hentry => by
      obtain ⟨j, hj⟩ := hinv.listed b entry hentry
      exact ⟨j, hholds.mpr hj⟩
    held := fun j b n hj => hinv.held j b n (hholds.mp hj)
    one := fun j k b b' n hj hk => hinv.one j k b b' n (hholds.mp hj) (hholds.mp hk)
    fresh := fun j b n hj => hinv.fresh j b n (hholds.mp hj)
    past := hinv.past
    going := fun j b n hj => hinv.going j b n (hholds.mp hj)
    live := by
      intro j s hs fetch hfetch
      by_cases hij : j = i
      · subst hij
        rw [hidle' s hs] at hfetch
        cases hfetch
      · exact hinv.live j s ((hother j hij).symm.trans hs) fetch hfetch
    waits := by
      intro r w hw
      refine (hinv.waits r w hw).change fun _ h => ?_
      rcases h with ⟨hdirect, j, s, fetch, hs, hfetch, hrest⟩ | hlisted
      · refine Or.inl ⟨hdirect, j, s, fetch, (hother j ?_).trans hs, hfetch, hrest⟩
        rintro rfl
        rw [hidle s hs] at hfetch
        cases hfetch
      · exact Or.inr hlisted }

lemma Inv.dropStore (hinv : m.Inv)
    (hidle : ∀ store, m.stores i = some store → store.pending = none) :
    (m.step (.dropStore i)).Inv := by
  have hpending : (m.stores i).bind (·.pending) = none := by
    cases hstore : m.stores i with
    | none => rfl
    | some store => exact hidle store hstore
  rw [step, hpending]
  refine hinv.of_idle hidle (fun store hstore => ?_) fun j hij => Function.update_of_ne hij ..
  rw [Function.update_self] at hstore
  cases hstore

lemma Inv.openStore (hinv : m.Inv) (path : String) (fileSize blockSize : UInt64) :
    (m.step (.openStore i path fileSize blockSize)).Inv := by
  rw [step]
  split
  · rename_i hnone
    refine hinv.of_idle (fun store hstore => ?_) (fun store hstore => ?_)
      fun j hij => Function.update_of_ne hij ..
    · rw [hnone] at hstore
      cases hstore
    · rw [Function.update_self] at hstore
      obtain rfl := Option.some.inj hstore
      rfl
  · exact hinv

lemma Inv.wake (hinv : m.Inv) : (m.step (.wake waker)).Inv where
  listed := hinv.listed
  held := hinv.held
  one := hinv.one
  fresh := hinv.fresh
  past := hinv.past
  going := hinv.going
  live := hinv.live
  waits r w hw := (hinv.waits r w hw).wake fun _ h => Or.inr h

lemma Inv.dropRead (hinv : m.Inv) (reader : ℕ) : (m.step (.dropRead reader)).Inv := by
  refine hinv.readers fun r w hw => hinv.waits r w ?_
  by_cases hr : r = reader
  · subst hr
    rw [Function.update_self] at hw
    cases hw
  · rwa [Function.update_of_ne hr] at hw

lemma Inv.step (hinv : m.Inv) {e : Event} (hcareful : m.Careful e) : (m.step e).Inv := by
  cases e with
  | openStore i path fileSize blockSize => exact hinv.openStore path fileSize blockSize
  | poll reader i b room waker => exact hinv.poll hcareful
  | host i call => exact hinv.host call
  | wake waker => exact hinv.wake
  | dropStore i => exact hinv.dropStore hcareful
  | dropRead reader => exact hinv.dropRead reader

lemma Inv.new (cache : PageCache) : (new cache).Inv where
  listed b entry hentry := by simp [Machine.new] at hentry
  held := by simp [Machine.new, Holds]
  one := by simp [Machine.new, Holds]
  fresh := by simp [Machine.new, Holds]
  past := by simp [Machine.new]
  going := by simp [Machine.new]
  live := by simp [Machine.new]
  waits := by simp [Machine.new]

/-! ### Runs -/

variable {cache : PageCache}

/-- In every run in which no store is dropped while it has a pending fetch, and no store is polled
by a second task while the first waits there, no reader is stranded. -/
theorem sound_of_careful (h : Reachable Careful cache m) : m.Sound := by
  refine (Reach.invariant h (Inv.new cache) fun s e s' hinv hcareful hstep => ?_).sound
  rw [hstep]
  exact hinv.step hcareful

/-- One store whose first block a reader waits for. -/
def oneReader : List Event := [.openStore 0 "data" 8 4, .poll 1 0 0 true 5]

def run (events : List Event) : Machine := events.foldl step (Machine.new (.new 4 8))

/-- Two stores and a reader of the same block at each, of which the first one is told that the block
has arrived. -/
def twoReaders : List Event :=
  oneReader ++ [.openStore 1 "data" 8 4, .poll 2 1 0 true 6, .host 0 (.complete (.ok [1, 2, 3, 4])),
    .poll 1 0 0 true 5]

/-- The second reader is woken by the poll of the first one. -/
theorem sound_twoReaders : (run twoReaders).Sound ∧ ((run twoReaders).readers 2).isSome ∧
    6 ∈ (run twoReaders).shared.woken := by
  have hadmits : Admits Careful step (new (.new 4 8)) twoReaders := by
    refine ⟨trivial, ?_, trivial, ?_, trivial, ?_, trivial⟩
    · intro store hstore fetch hfetch
      obtain rfl := Option.some.inj hstore
      cases hfetch
    · intro store hstore fetch hfetch
      obtain rfl := Option.some.inj hstore
      cases hfetch
    · -- the other reader waits at the cache
      intro store hstore fetch hfetch r w hw hdirect
      rcases r with _ | _ | _ | r
      · cases hw
      · cases hw
      · obtain rfl := Option.some.inj hw
        cases hdirect
      · cases hw
  have hreach : Reachable Careful (.new 4 8) (run twoReaders) :=
    reach_foldl (fun m e => .inr (show Step m e (m.step e) from rfl)) twoReaders hadmits
  exact ⟨sound_of_careful hreach, rfl, by decide⟩

/-- A store that is dropped leaves its block listed, so that nobody fetches it again; and of two
tasks that read through one store, only the one that polled it last is woken. -/
theorem not_sound : ¬ (run (oneReader ++ [.dropStore 0])).Sound ∧
    ¬ (run (oneReader ++ [.poll 2 0 0 true 6, .host 0 (.complete (.ok [1, 2, 3, 4])),
      .poll 2 0 0 true 6])).Sound := by
  constructor
  · intro h
    obtain ⟨i, store, fetch, hstore, _⟩ := h.listed 0 rfl
    cases i <;> cases hstore
  · intro h
    exact absurd (h.woken 1 ⟨⟨5, 0⟩, 0, true⟩ rfl List.mem_cons_self) (by decide)

end Machine

end Fetching

end AmlaSandbox.Vfs
