import AmlaSandbox.Protocol.Pca
import Mathlib.Data.List.Nodup

/-!
# Keyed capability matching

Chain validation and the CTA match capabilities by key with the same two loops and different errors.
`keyedTransitions` is the loops over the errors to report; `Attenuates` is what they decide.
-/

namespace AmlaSandbox.Protocol

open Library

/-- How a caller of the keyed matching reports its failures. -/
structure KeyedErrors (ε : Type) where
  duplicateParent : String → ε
  duplicateChild : String → ε
  unknown : String → ε
  invalid : TransitionError → ε

variable {ε : Type} (err : KeyedErrors ε) (validator : TransitionValidator)

/-- Insert the parent capabilities into the map by key; a key that is already there is an error. -/
def indexParent (map : List CapabilityData) : List CapabilityData → Except ε (List CapabilityData)
  | [] => .ok map
  | cap :: caps =>
    if map.any (·.key = cap.key) then .error (err.duplicateParent cap.key)
    else indexParent (cap :: map) caps

/-- Match each child capability with the parent capability of its key. -/
def matchChildren (map : List CapabilityData) (seen : List String) :
    List CapabilityData → Except ε Unit
  | [] => .ok ()
  | child :: rest =>
    if child.key ∈ seen then .error (err.duplicateChild child.key)
    else
      match map.find? (·.key = child.key) with
      | none => .error (err.unknown child.key)
      | some parent => do
        (validator parent child).mapError err.invalid
        matchChildren map (child.key :: seen) rest

/-- Keyed capability matching: index the parent, then match every child. -/
def keyedTransitions (parentCaps childCaps : List CapabilityData) : Except ε Unit := do
  let map ← indexParent err [] parentCaps
  matchChildren err validator map [] childCaps

/-- Neither list repeats a key, and every child capability has a parent capability of its key from
which the validator accepts the transition. -/
structure Attenuates (parentCaps childCaps : List CapabilityData) : Prop where
  parentNodup : (parentCaps.map (·.key)).Nodup
  childNodup : (childCaps.map (·.key)).Nodup
  origin : ∀ child ∈ childCaps, ∃ parent ∈ parentCaps,
    parent.key = child.key ∧ validator parent child = .ok ()

variable {err validator}

/-- Indexing succeeds exactly on lists without duplicates, and keeps every capability. -/
lemma indexParent_eq_ok {map caps result : List CapabilityData} (hmap : (map.map (·.key)).Nodup) :
    indexParent err map caps = .ok result ↔
      result = caps.reverse ++ map ∧ (result.map (·.key)).Nodup := by
  induction caps generalizing map with
  | nil =>
    simp only [indexParent, Except.ok.injEq, List.reverse_nil, List.nil_append]
    exact ⟨fun h => ⟨h.symm, h ▸ hmap⟩, fun h => h.1.symm⟩
  | cons cap caps ih =>
    rw [indexParent]
    split_ifs with hdup
    · -- the key was there before, so the reversed list would repeat it
      obtain ⟨other, hother, hkey⟩ := List.any_eq_true.mp hdup
      have hkey : other.key = cap.key := of_decide_eq_true hkey
      simp only [false_iff]
      rintro ⟨rfl, hnd⟩
      simp only [List.reverse_cons, List.append_assoc, List.map_append, List.map_cons,
        List.singleton_append] at hnd
      apply (List.nodup_cons.mp (List.nodup_append.mp hnd).2.1).1
      exact List.mem_map.mpr ⟨other, hother, hkey⟩
    · rw [ih]
      · simp
      · refine List.nodup_cons.mpr ⟨fun hmem => hdup ?_, hmap⟩
        obtain ⟨other, hother, hkey⟩ := List.mem_map.mp hmem
        exact List.any_eq_true.mpr ⟨other, hother, decide_eq_true hkey⟩

lemma find?_key_eq_some {map : List CapabilityData} (hmap : (map.map (·.key)).Nodup)
    {key : String} {cap : CapabilityData} :
    map.find? (·.key = key) = some cap ↔ cap ∈ map ∧ cap.key = key := by
  induction map with
  | nil => simp
  | cons head map ih =>
    obtain ⟨hhead, hmap⟩ := List.nodup_cons.mp hmap
    rw [List.find?_cons]
    by_cases hkey : head.key = key
    · simp only [hkey, decide_true, Option.some.injEq, List.mem_cons]
      constructor
      · rintro rfl
        exact ⟨.inl rfl, hkey⟩
      · rintro ⟨rfl | hmem, hcap⟩
        · rfl
        · exact absurd (List.mem_map.mpr ⟨cap, hmem, hcap.trans hkey.symm⟩) hhead
    · simp only [hkey, decide_false, ih hmap, List.mem_cons]
      constructor
      · exact fun h => ⟨.inr h.1, h.2⟩
      · rintro ⟨rfl | hmem, hcap⟩
        · exact absurd hcap hkey
        · exact ⟨hmem, hcap⟩

lemma matchChildren_eq_ok {map caps : List CapabilityData} {seen : List String}
    (hmap : (map.map (·.key)).Nodup) :
    matchChildren err validator map seen caps = .ok () ↔
      (caps.map (·.key)).Nodup ∧ (∀ child ∈ caps, child.key ∉ seen) ∧
        ∀ child ∈ caps, ∃ parent ∈ map, parent.key = child.key ∧
          validator parent child = .ok () := by
  induction caps generalizing seen with
  | nil => simp [matchChildren]
  | cons child rest ih =>
    have hfind := fun p => @find?_key_eq_some map hmap child.key p
    simp only [List.map_cons, List.nodup_cons, List.mem_cons, forall_eq_or_imp]
    rw [matchChildren]
    split_ifs with hseen
    · simp [hseen]
    · cases hp : map.find? (·.key = child.key) with
      | none =>
        simp only [reduceCtorEq, false_iff]
        rintro ⟨_, _, ⟨parent, hparent, hkey, _⟩, _⟩
        exact absurd ((hfind parent).mpr ⟨hparent, hkey⟩) (by simp [hp])
      | some parent =>
        obtain ⟨hparent, hkey⟩ := (hfind parent).mp hp
        -- the map has one capability of this key, so the validator sees the one the spec names
        have honly : (∃ p ∈ map, p.key = child.key ∧ validator p child = .ok ()) ↔
            validator parent child = .ok () := by
          constructor
          · rintro ⟨p, hmem, hpkey, hval⟩
            obtain rfl : p = parent := by simpa [hp] using ((hfind p).mpr ⟨hmem, hpkey⟩).symm
            exact hval
          · exact fun hval => ⟨parent, hparent, hkey, hval⟩
        simp only [honly, bind_eq_ok, exists_unit, mapError_eq_ok, ih, List.mem_cons, not_or,
          List.mem_map]
        constructor
        · rintro ⟨hval, hnd, hnew, horigin⟩
          refine ⟨⟨?_, hnd⟩, ⟨hseen, fun c hc => (hnew c hc).2⟩, hval, horigin⟩
          rintro ⟨c, hc, hck⟩
          exact (hnew c hc).1 hck
        · rintro ⟨⟨hne, hnd⟩, ⟨_, hnew⟩, hval, horigin⟩
          exact ⟨hval, hnd, fun c hc => ⟨fun hck => hne ⟨c, hc, hck⟩, hnew c hc⟩, horigin⟩

/-- The loops accept exactly the attenuations, whatever errors they report. -/
theorem keyedTransitions_eq_ok {parentCaps childCaps : List CapabilityData} :
    keyedTransitions err validator parentCaps childCaps = .ok () ↔
      Attenuates validator parentCaps childCaps := by
  have hindex : ∀ map, indexParent err [] parentCaps = .ok map ↔
      map = parentCaps.reverse ++ [] ∧ (map.map (·.key)).Nodup :=
    fun _ => indexParent_eq_ok (by simp)
  simp only [keyedTransitions, bind_eq_ok, hindex, List.append_nil]
  constructor
  · rintro ⟨_, ⟨rfl, hnd⟩, hmatch⟩
    obtain ⟨hchild, _, horigin⟩ := (matchChildren_eq_ok hnd).mp hmatch
    rw [List.map_reverse, List.nodup_reverse] at hnd
    exact ⟨hnd, hchild, by simpa using horigin⟩
  · rintro ⟨hparent, hchild, horigin⟩
    have hnd : (parentCaps.reverse.map (·.key)).Nodup := by
      rwa [List.map_reverse, List.nodup_reverse]
    exact ⟨_, ⟨rfl, hnd⟩, (matchChildren_eq_ok hnd).mpr ⟨hchild, by simp, by simpa using horigin⟩⟩

lemma Attenuates.keys_subset {parentCaps childCaps : List CapabilityData}
    (h : Attenuates validator parentCaps childCaps) :
    childCaps.map (·.key) ⊆ parentCaps.map (·.key) := by
  intro key hkey
  obtain ⟨child, hchild, rfl⟩ := List.mem_map.mp hkey
  obtain ⟨parent, hparent, hkey, _⟩ := h.origin child hchild
  exact List.mem_map.mpr ⟨parent, hparent, hkey⟩

end AmlaSandbox.Protocol
