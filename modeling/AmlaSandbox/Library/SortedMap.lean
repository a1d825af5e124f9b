import Mathlib.Data.List.Lex
import Mathlib.Data.List.Nodup
import Mathlib.Order.Lattice
import Mathlib.Tactic.Common

/-!
# Sorted maps

Maps as lists of entries in the order of their keys. Keys are compared by a rank; an entry with the
key of an older one replaces it.
-/

namespace AmlaSandbox.Library

variable {κ β ι : Type*} [LinearOrder ι] (rank : κ → ι)

/-- Entries are listed in key order, one for each key. -/
def InKeyOrder (map : List (κ × β)) : Prop :=
  map.Pairwise fun entry later => rank entry.1 < rank later.1

instance {map : List (κ × β)} : Decidable (InKeyOrder rank map) :=
  inferInstanceAs (Decidable (List.Pairwise _ map))

def insertEntry (entry : κ × β) : List (κ × β) → List (κ × β)
  | [] => [entry]
  | first :: rest =>
    if rank entry.1 < rank first.1 then entry :: first :: rest
    else if rank entry.1 = rank first.1 then entry :: rest
    else first :: insertEntry entry rest

/-- The map of a list of entries that are inserted one after the other. -/
def collectEntries (entries : List (κ × β)) : List (κ × β) :=
  entries.foldl (fun map entry => insertEntry rank entry map) []

variable {rank} {map entries entries' : List (κ × β)} {entry : κ × β}

lemma mem_of_mem_insertEntry {e : κ × β} (h : e ∈ insertEntry rank entry map) :
    e = entry ∨ e ∈ map := by
  induction map with
  | nil => exact .inl (List.mem_singleton.mp h)
  | cons first rest ih =>
    rw [insertEntry] at h
    split_ifs at h with hlt heq
    · exact List.mem_cons.mp h
    · exact (List.mem_cons.mp h).imp_right (List.mem_cons_of_mem first)
    · rcases List.mem_cons.mp h with rfl | h
      · exact .inr List.mem_cons_self
      · exact (ih h).imp_right (List.mem_cons_of_mem first)

lemma InKeyOrder.insert (h : InKeyOrder rank map) :
    InKeyOrder rank (insertEntry rank entry map) := by
  induction map with
  | nil => exact List.pairwise_singleton _ _
  | cons first rest ih =>
    obtain ⟨hfirst, hrest⟩ := List.pairwise_cons.mp h
    rw [insertEntry]
    split_ifs with hlt heq
    · refine List.pairwise_cons.mpr ⟨fun e he => ?_, h⟩
      rcases List.mem_cons.mp he with rfl | he
      · exact hlt
      · exact hlt.trans (hfirst e he)
    · exact List.pairwise_cons.mpr ⟨fun e he => heq ▸ hfirst e he, hrest⟩
    · refine List.pairwise_cons.mpr ⟨fun e he => ?_, ih hrest⟩
      rcases mem_of_mem_insertEntry he with rfl | he
      · exact lt_of_le_of_ne (not_lt.mp hlt) (Ne.symm heq)
      · exact hfirst e he

/-- An entry behind all others goes to the end. -/
lemma insertEntry_last (h : ∀ e ∈ map, rank e.1 < rank entry.1) :
    insertEntry rank entry map = map ++ [entry] := by
  induction map with
  | nil => rfl
  | cons first rest ih =>
    obtain ⟨hfirst, hrest⟩ := List.forall_mem_cons.mp h
    rw [insertEntry, if_neg (not_lt_of_gt hfirst), if_neg hfirst.ne', ih hrest, List.cons_append]

lemma insertEntry_perm (h : ∀ e ∈ map, rank e.1 ≠ rank entry.1) :
    (insertEntry rank entry map).Perm (entry :: map) := by
  induction map with
  | nil => exact .refl _
  | cons first rest ih =>
    obtain ⟨hfirst, hrest⟩ := List.forall_mem_cons.mp h
    rw [insertEntry]
    split_ifs with hlt heq
    · exact .refl _
    · exact absurd heq.symm hfirst
    · exact ((ih hrest).cons first).trans (.swap entry first rest)

/-! ### Collecting -/

lemma mem_of_mem_collect {e : κ × β} (h : e ∈ collectEntries rank entries) : e ∈ entries := by
  have hfold : ∀ map, e ∈ entries.foldl (fun map entry => insertEntry rank entry map) map →
      e ∈ map ∨ e ∈ entries := by
    clear h
    induction entries with
    | nil => exact fun map h => .inl h
    | cons entry entries ih =>
      intro map h
      rcases ih _ h with h | h
      · rcases mem_of_mem_insertEntry h with rfl | h
        · exact .inr List.mem_cons_self
        · exact .inl h
      · exact .inr (List.mem_cons_of_mem entry h)
  exact (hfold [] h).resolve_left List.not_mem_nil

lemma inKeyOrder_collect : InKeyOrder rank (collectEntries rank entries) := by
  have hfold : ∀ map, InKeyOrder rank map →
      InKeyOrder rank (entries.foldl (fun map entry => insertEntry rank entry map) map) := by
    induction entries with
    | nil => exact fun map h => h
    | cons entry entries ih => exact fun map h => ih _ h.insert
  exact hfold [] .nil

/-- Entries that are in key order stay as they are. -/
lemma InKeyOrder.collect_eq (h : InKeyOrder rank entries) :
    collectEntries rank entries = entries := by
  have hfold : ∀ map, InKeyOrder rank (map ++ entries) →
      entries.foldl (fun map entry => insertEntry rank entry map) map = map ++ entries := by
    clear h
    induction entries with
    | nil => simp
    | cons entry entries ih =>
      intro map h
      have hlast : ∀ e ∈ map, rank e.1 < rank entry.1 := fun e he =>
        (List.pairwise_append.mp h).2.2 e he entry List.mem_cons_self
      rw [List.foldl_cons, insertEntry_last hlast, ih _ (by simpa using h), List.append_assoc]
      rfl
  exact hfold [] h

/-- Entries with different keys are all kept. -/
lemma collect_perm (h : (entries.map fun e => rank e.1).Nodup) :
    (collectEntries rank entries).Perm entries := by
  have hfold : ∀ map, ((map ++ entries).map fun e => rank e.1).Nodup →
      (entries.foldl (fun map entry => insertEntry rank entry map) map).Perm (map ++ entries) := by
    clear h
    induction entries with
    | nil => simp
    | cons entry entries ih =>
      intro map h
      have hmiddle : (map ++ entry :: entries).Perm (entry :: map ++ entries) := List.perm_middle
      have hnodup := (hmiddle.map fun e => rank e.1).nodup h
      have hfresh : ∀ e ∈ map, rank e.1 ≠ rank entry.1 := by
        intro e he heq
        exact (List.nodup_cons.mp hnodup).1
          (List.mem_map.mpr ⟨e, List.mem_append_left _ he, heq⟩)
      have hinsert := (insertEntry_perm hfresh).append_right entries
      have hrest := ih (insertEntry rank entry map)
        ((hinsert.map fun e => rank e.1).symm.nodup hnodup)
      exact (hrest.trans hinsert).trans hmiddle.symm
  exact hfold [] h

/-- The order in which entries with different keys are inserted does not matter. -/
lemma collect_eq_of_perm (hperm : entries.Perm entries')
    (h : (entries.map fun e => rank e.1).Nodup) :
    collectEntries rank entries = collectEntries rank entries' := by
  have h' := (hperm.map fun e => rank e.1).nodup h
  refine List.Perm.eq_of_pairwise (fun a b _ _ hab hba => absurd (hab.trans hba) (lt_irrefl _))
    inKeyOrder_collect inKeyOrder_collect ?_
  exact ((collect_perm h).trans hperm).trans (collect_perm h').symm

end AmlaSandbox.Library
