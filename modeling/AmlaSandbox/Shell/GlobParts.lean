import AmlaSandbox.Library.Pieces
import AmlaSandbox.Shell.Glob

/-!
# The parts of a glob pattern

A pattern, as bytes or as characters, is cut into stars, question marks, brackets, escapes and
literals. A bracket runs to the first closing bracket behind its first member.
-/

namespace AmlaSandbox.Shell

open Library

/-! ### Parts -/

/-- A member of a bracket. -/
inductive Item (α : Type)
  | one (a : α)
  | range (first last : α)
  deriving DecidableEq

/-- A closed bracket: `closer` is a closing bracket as its first member. -/
structure Bracket (α : Type) where
  negate : Bool
  closer : Bool
  inner : List α
  deriving DecidableEq

inductive Part (α : Type)
  | star
  | one
  | bracket (b : Bracket α)
  /-- An opening bracket that is never closed. -/
  | unclosed
  | escaped (a : α)
  | literal (a : α)
  deriving DecidableEq

section Parse

variable {α : Type} [DecidableEq α] (mark : Char → α)

/-- The members between the brackets. -/
def items : List α → List (Item α)
  | [] => []
  | [a] => [.one a]
  | a :: dash :: rest =>
    match rest with
    | [] => .one a :: items [dash]
    | last :: rest =>
      if dash = mark '-' then .range a last :: items rest
      else .one a :: items (dash :: last :: rest)

/-- Whether a bracket is negated, whether a closing bracket is its first member, and the rest. -/
def bracketHead (rest : List α) : Bool × Bool × List α :=
  let negate : Bool := rest.head? = some (mark '!') ∨ rest.head? = some (mark '^')
  let rest := rest.drop negate.toNat
  let closer : Bool := rest.head? = some (mark ']')
  (negate, closer, rest.drop closer.toNat)

/-- The bracket whose opening bracket comes before, and what follows it. -/
def bracketOf (rest : List α) : Option (Bracket α × List α) :=
  let (negate, closer, body) := bracketHead mark rest
  if mark ']' ∈ body then
    let inner := body.takeWhile (· ≠ mark ']')
    some ({ negate, closer, inner }, body.drop (inner.length + 1))
  else none

variable {mark} in
lemma bracketOf_suffix {rest rest' : List α} {b : Bracket α}
    (h : bracketOf mark rest = some (b, rest')) : rest' <:+ rest := by
  unfold bracketOf bracketHead at h
  dsimp only at h
  split_ifs at h with hmem
  obtain ⟨-, rfl⟩ := Prod.mk.inj (Option.some.inj h)
  rw [List.drop_drop, List.drop_drop]
  exact List.drop_suffix _ _

/-- The parts of a pattern. -/
def partsOf : List α → List (Part α)
  | [] => []
  | a :: rest =>
    if a = mark '\\' then
      match rest with
      | [] => [.literal a]
      | escaped :: rest => .escaped escaped :: partsOf rest
    else if a = mark '*' then .star :: partsOf rest
    else if a = mark '?' then .one :: partsOf rest
    else if a = mark '[' then
      match _h : bracketOf mark rest with
      | some (b, rest') => .bracket b :: partsOf rest'
      | none => .unclosed :: partsOf rest
    else .literal a :: partsOf rest
termination_by pattern => pattern.length
decreasing_by
  · simp only [List.length_cons]
    omega
  · simp
  · simp
  · exact Nat.lt_succ_of_le (bracketOf_suffix _h).length_le
  · simp
  · simp

/-! ### The first part -/

/-- The marks are different. -/
def Marks : Prop := (['\\', '*', '?', '['].map mark).Nodup

variable {mark} {a : α} {rest rest' : List α} {b : Bracket α}

@[simp] lemma partsOf_nil : partsOf mark [] = [] := by rw [partsOf]

lemma partsOf_escaped :
    partsOf mark (mark '\\' :: a :: rest) = .escaped a :: partsOf mark rest := by
  rw [partsOf.eq_def]
  exact if_pos rfl

lemma partsOf_backslash : partsOf mark [mark '\\'] = [.literal (mark '\\')] := by
  rw [partsOf.eq_def]
  exact if_pos rfl

lemma partsOf_star (h : Marks mark) :
    partsOf mark (mark '*' :: rest) = .star :: partsOf mark rest := by
  simp only [Marks, List.map_cons, List.map_nil, List.nodup_cons, List.mem_cons, not_or] at h
  rw [partsOf.eq_def]
  simp [Ne.symm h.1.1]

lemma partsOf_one (h : Marks mark) :
    partsOf mark (mark '?' :: rest) = .one :: partsOf mark rest := by
  simp only [Marks, List.map_cons, List.map_nil, List.nodup_cons, List.mem_cons, not_or] at h
  rw [partsOf.eq_def]
  simp [Ne.symm h.1.2.1, Ne.symm h.2.1.1]

lemma partsOf_opening (h : Marks mark) :
    partsOf mark (mark '[' :: rest) =
      match bracketOf mark rest with
      | some (b, rest') => .bracket b :: partsOf mark rest'
      | none => .unclosed :: partsOf mark rest := by
  simp only [Marks, List.map_cons, List.map_nil, List.nodup_cons, List.mem_cons, not_or] at h
  rw [partsOf.eq_def]
  simp only [Ne.symm h.1.2.2.1, Ne.symm h.2.1.2.1, Ne.symm h.2.2.1.1, if_false, if_true]
  split <;> rename_i heq <;> rw [heq]

lemma partsOf_literal (hescape : a ≠ mark '\\') (hstar : a ≠ mark '*') (hone : a ≠ mark '?')
    (hopening : a ≠ mark '[') : partsOf mark (a :: rest) = .literal a :: partsOf mark rest := by
  rw [partsOf.eq_def]
  simp [hescape, hstar, hone, hopening]

end Parse

/-! ### Brackets -/

section Cut

variable {α : Type} [DecidableEq α] {a : α} {body : List α}

/-- A list is cut at the first occurrence. -/
lemma takeWhile_append_drop (hmem : a ∈ body) :
    body = body.takeWhile (· ≠ a) ++ a :: body.drop ((body.takeWhile (· ≠ a)).length + 1) := by
  induction body with
  | nil => cases hmem
  | cons a' body ih =>
    by_cases ha : a' = a
    · simp [ha]
    · have hmem' : a ∈ body := by
        rcases List.mem_cons.mp hmem with h | h
        · exact absurd h.symm ha
        · exact h
      have htake : (a' :: body).takeWhile (· ≠ a) = a' :: body.takeWhile (· ≠ a) :=
        List.takeWhile_cons_of_pos (by simpa using ha)
      rw [htake, List.length_cons, List.drop_succ_cons, List.cons_append, ← ih hmem']

lemma not_mem_takeWhile : a ∉ body.takeWhile (· ≠ a) := by
  intro h
  have := List.mem_takeWhile_imp h
  simp at this

end Cut

section Accepts

variable {α : Type} [DecidableEq α] [LE α] [DecidableLE α]

def Item.accepts (ch : α) : Item α → Bool
  | .one a => a = ch
  | .range first last => first ≤ ch ∧ ch ≤ last

def Bracket.accepts (mark : Char → α) (b : Bracket α) (ch : α) : Bool :=
  let matched := (b.closer && ch == mark ']') || (items mark b.inner).any (·.accepts ch)
  if b.negate then !matched else matched

end Accepts

variable {ch : UInt8} {rest rest' inner : List UInt8} {b : Bracket UInt8} {i : ℕ} {matched : Bool}

lemma matchBracketLoop_closer :
    matchBracketLoop ch (byte ']' :: rest) i matched = some (matched, i + 1) := by
  rw [matchBracketLoop.eq_def]
  exact if_pos rfl

lemma matchBracketLoop_range {start stop : UInt8} (hstart : start ≠ byte ']')
    (hstop : stop ≠ byte ']') :
    matchBracketLoop ch (start :: byte '-' :: stop :: rest) i matched =
      matchBracketLoop ch rest (i + 3) (matched || (Item.range start stop).accepts ch) := by
  rw [matchBracketLoop, if_neg hstart, if_pos ⟨rfl, hstop⟩]
  simp [Item.accepts]

lemma matchBracketLoop_one {start : UInt8} (hstart : start ≠ byte ']')
    (hrange : ∀ last rest', rest = byte '-' :: last :: rest' → last = byte ']') :
    matchBracketLoop ch (start :: rest) i matched =
      matchBracketLoop ch rest (i + 1) (matched || (Item.one start).accepts ch) := by
  have haccepts : (Item.one start).accepts ch = (start == ch) := rfl
  rw [haccepts, matchBracketLoop.eq_def]
  dsimp only
  rw [if_neg hstart]
  match rest with
  | [] => rfl
  | [dash] => rfl
  | dash :: stop :: rest =>
    dsimp only
    rw [if_neg]
    rintro ⟨rfl, hstop⟩
    exact hstop (hrange stop rest rfl)

/-- The loop stops at the first closing bracket. -/
lemma matchBracketLoop_closed (hinner : byte ']' ∉ inner) :
    matchBracketLoop ch (inner ++ byte ']' :: rest) i matched =
      some (matched || (items byte inner).any (·.accepts ch), i + (inner.length + 1)) := by
  have hdash : byte ']' ≠ byte '-' := by decide
  induction inner using items.induct byte generalizing i matched with
  | case1 => simp [matchBracketLoop_closer, items]
  | case2 a =>
    have ha : a ≠ byte ']' := fun h => hinner (h ▸ List.mem_cons_self)
    rw [List.singleton_append, matchBracketLoop_one ha (by simp [hdash]), matchBracketLoop_closer]
    simp [items]
  | case3 a dash ih =>
    rw [List.mem_cons, not_or] at hinner
    obtain ⟨ha, hrest⟩ := hinner
    rw [List.cons_append, matchBracketLoop_one (Ne.symm ha), ih hrest]
    · simp [items, Bool.or_assoc, Nat.add_assoc, Nat.add_comm]
    · simp
  | case4 a last rest' ih =>
    simp only [List.mem_cons, not_or] at hinner
    obtain ⟨ha, -, hlast, hrest⟩ := hinner
    rw [List.cons_append, List.cons_append, List.cons_append,
      matchBracketLoop_range (Ne.symm ha) (Ne.symm hlast), ih hrest]
    simp [items, Bool.or_assoc, Nat.add_assoc, Nat.add_comm, Nat.add_left_comm]
  | case5 a dash last rest' hne ih =>
    rw [List.mem_cons, not_or] at hinner
    obtain ⟨ha, hrest⟩ := hinner
    rw [List.cons_append, matchBracketLoop_one (Ne.symm ha), ih hrest]
    · simp [items, hne, Bool.or_assoc, Nat.add_assoc, Nat.add_comm, Nat.add_left_comm]
    · intro last' rest'' heq
      exact absurd (List.cons.inj heq).1 hne

lemma matchBracketLoop_unclosed (hrest : byte ']' ∉ rest) :
    matchBracketLoop ch rest i matched = none := by
  induction rest, i, matched using matchBracketLoop.induct ch with
  | case1 i matched => rfl
  | case2 i matched rest => exact absurd List.mem_cons_self hrest
  | case3 start i matched hstart dash stop rest hrange ih =>
    rw [matchBracketLoop, if_neg hstart, if_pos hrange]
    exact ih fun h => hrest (List.mem_cons_of_mem _ (List.mem_cons_of_mem _ (.tail _ h)))
  | case4 start i matched hstart dash stop rest hrange ih =>
    rw [matchBracketLoop, if_neg hstart, if_neg hrange]
    exact ih fun h => hrest (List.mem_cons_of_mem _ h)
  | case5 start i matched hstart rest hshort ih =>
    rw [matchBracketLoop_one hstart fun last rest' h => (hshort _ _ _ h).elim]
    exact ih fun h => hrest (List.mem_cons_of_mem _ h)

lemma matchBracketLoop_of_mem (hmem : byte ']' ∈ rest) :
    matchBracketLoop ch rest i matched =
      some (matched || (items byte (rest.takeWhile (· ≠ byte ']'))).any (·.accepts ch),
        i + ((rest.takeWhile (· ≠ byte ']')).length + 1)) := by
  conv_lhs => rw [takeWhile_append_drop hmem]
  exact matchBracketLoop_closed not_mem_takeWhile

/-- The first members of a bracket. -/
lemma matchBracket_of_bracketHead {negate closer : Bool} {body : List UInt8}
    (h : bracketHead byte rest = (negate, closer, body)) (ch : UInt8) :
    let i := 1 + negate.toNat + closer.toNat
    (byte '[' :: rest).drop i = body ∧
      matchBracket (byte '[' :: rest) ch =
        (matchBracketLoop ch body i (closer && ch == byte ']')).map
          fun (matched, i) => (if negate then !matched else matched, i) := by
  obtain ⟨hnegate, hrest⟩ := Prod.mk.inj h
  obtain ⟨hcloser, hbody⟩ := Prod.mk.inj hrest
  rw [hnegate] at hcloser hbody
  rw [hcloser] at hbody
  constructor
  · rw [← hbody, List.drop_drop, Nat.add_assoc, Nat.add_comm 1, List.drop_succ_cons]
  · cases negate <;> cases closer <;>
      simp only [decide_eq_false_iff_not, decide_eq_true_eq] at hnegate hcloser <;>
      simp_all [matchBracket]

/-- The source reads a bracket as it is cut here. -/
lemma matchBracket_of_bracketOf (h : bracketOf byte rest = some (b, rest')) (ch : UInt8) :
    ∃ n, matchBracket (byte '[' :: rest) ch = some (b.accepts byte ch, n) ∧
      (byte '[' :: rest).drop n = rest' := by
  obtain ⟨⟨negate, closer, body⟩, hhead⟩ : ∃ head, bracketHead byte rest = head := ⟨_, rfl⟩
  obtain ⟨hdrop, hmatch⟩ := matchBracket_of_bracketHead hhead ch
  unfold bracketOf at h
  rw [hhead] at h
  dsimp only at h
  split_ifs at h with hmem
  obtain ⟨rfl, rfl⟩ := Prod.mk.inj (Option.some.inj h)
  rw [hmatch, matchBracketLoop_of_mem hmem]
  refine ⟨_, rfl, ?_⟩
  rw [← List.drop_drop, hdrop]

lemma matchBracket_of_bracketOf_none (h : bracketOf byte rest = none) (ch : UInt8) :
    matchBracket (byte '[' :: rest) ch = none := by
  obtain ⟨⟨negate, closer, body⟩, hhead⟩ : ∃ head, bracketHead byte rest = head := ⟨_, rfl⟩
  obtain ⟨_, hmatch⟩ := matchBracket_of_bracketHead hhead ch
  unfold bracketOf at h
  rw [hhead] at h
  dsimp only at h
  split_ifs at h with hmem
  rw [hmatch, matchBracketLoop_unclosed hmem]
  rfl

end AmlaSandbox.Shell
