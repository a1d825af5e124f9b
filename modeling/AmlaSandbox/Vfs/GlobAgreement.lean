import Mathlib.Data.Bool.AllAny
import AmlaSandbox.Vfs.Glob

/-!
# Where the search agrees with its documentation

The pieces of a pattern and the pieces of its expression take the same segments, except for `**`,
which stops at a line break, for `<` and `>`, whose escapes are assertions, and for the characters
that cannot be escaped. A path that tells the difference is made from the pattern itself, which is a
path that it matches.
-/

namespace AmlaSandbox.Vfs

open Library GlobItem RegexItem

variable {isAlphanumeric isWord : Char → Bool} {new : Text → Option (Text → Bool)}
variable {vfs : Vfs} {pattern p q w : Text} {c : Char} {item : GlobItem}

/-! ### The pieces of a pattern -/

def GlobItem.spell : GlobItem → Text
  | anything => ['*', '*']
  | run => ['*']
  | one => ['?']
  | self c => [c]

lemma flatMap_spell (q : Text) : (globItems q).flatMap spell = q := by
  fun_induction globItems q with
  | case1 => rfl
  | case2 q ih => rw [List.flatMap_cons, ih, spell, List.cons_append, List.singleton_append]
  | case3 c q _ ih =>
    rw [List.flatMap_cons, ih]
    split_ifs with hstar hone
    · rw [spell, hstar, List.singleton_append]
    · rw [spell, hone, List.singleton_append]
    · rw [spell, List.singleton_append]

lemma mem_of_self_mem (h : self c ∈ globItems q) : c ∈ q ∧ c ≠ '*' ∧ c ≠ '?' := by
  fun_induction globItems q with
  | case1 => cases h
  | case2 q ih =>
    simp only [List.mem_cons, reduceCtorEq, false_or] at h
    obtain ⟨hmem, hne⟩ := ih h
    exact ⟨by simp [hmem], hne⟩
  | case3 d q _ ih =>
    rcases List.mem_cons.mp h with h | h
    · split_ifs at h with hstar hone
      cases h
      exact ⟨List.mem_cons_self, hstar, hone⟩
    · obtain ⟨hmem, hne⟩ := ih h
      exact ⟨List.mem_cons_of_mem d hmem, hne⟩

lemma self_mem_globItems (h : c ∈ q) (hstar : c ≠ '*') (hone : c ≠ '?') :
    self c ∈ globItems q := by
  fun_induction globItems q with
  | case1 => cases h
  | case2 q ih =>
    simp only [List.mem_cons, hstar, false_or] at h
    exact List.mem_cons_of_mem _ (ih h)
  | case3 d q _ ih =>
    rcases List.mem_cons.mp h with rfl | h
    · rw [if_neg hstar, if_neg hone]
      exact List.mem_cons_self
    · exact List.mem_cons_of_mem _ (ih h)

/-- `**` is where two stars are next to each other. -/
lemma anything_mem_iff : anything ∈ globItems q ↔ ['*', '*'] <:+: q := by
  constructor
  · intro h
    obtain ⟨front, back, hsplit⟩ := List.append_of_mem h
    have hq := flatMap_spell q
    rw [hsplit, List.flatMap_append, List.flatMap_cons] at hq
    exact ⟨_, _, by simpa [spell] using hq⟩
  · intro h
    fun_induction globItems q with
    | case1 => simp at h
    | case2 q ih => exact List.mem_cons_self
    | case3 d q hne ih =>
      rcases List.infix_cons_iff.mp h with hfront | h
      · obtain ⟨rest, hrest⟩ := hfront
        obtain ⟨rfl, rfl⟩ := List.cons.inj hrest
        exact absurd rfl (hne rest rfl)
      · exact List.mem_cons_of_mem _ (ih h)

lemma takes_spell (item : GlobItem) (before after : Text) :
    item.Takes before item.spell after := by
  cases item with
  | anything => trivial
  | run => exact (by decide : '/' ∉ ['*'])
  | one => exact ⟨'?', by decide, rfl⟩
  | self c => rfl

/-- A pattern is a path that it matches. -/
lemma globMatches_self (q : Text) : GlobMatches q q := by
  have hcut : Cut GlobItem.Takes (globItems q ++ []) [] ((globItems q).flatMap spell ++ []) :=
    Cut.flatMap_append (fun item _ => takes_spell item) fun _ => Cut.nil_iff.mpr rfl
  rwa [List.append_nil, List.append_nil, flatMap_spell] at hcut

/-- A character that stands for itself is in every path that the pattern matches. -/
lemma mem_of_globMatches (h : GlobMatches q p) (hc : self c ∈ globItems q) : c ∈ p := by
  refine Cut.mem_of_takes hc (fun before u after htakes => ?_) h
  rw [show u = [c] from htakes]
  exact List.mem_singleton_self c

/-! ### The pieces of the expression -/

/-- The piece of the expression that `glob` writes for a piece of the pattern. -/
def ofGlob (isAlphanumeric : Char → Bool) : GlobItem → RegexItem
  | anything => dotStar
  | .run => notSlashStar
  | one => notSlash
  | self c =>
    if c ≠ '.' ∧ (c = '/' ∨ c = '-' ∨ c = '_' ∨ isAlphanumeric c) then plain c else escaped c

lemma regexPattern_eq (isAlphanumeric : Char → Bool) (q : Text) :
    regexPattern isAlphanumeric q =
      ((globItems q).map (ofGlob isAlphanumeric)).flatMap RegexItem.text := by
  fun_induction globItems q with
  | case1 => rfl
  | case2 q ih => rw [regexPattern, ih, List.map_cons, List.flatMap_cons, ofGlob, RegexItem.text]
  | case3 c q hne ih =>
    rw [regexPattern.eq_3 _ _ _ hne, ih, List.map_cons, List.flatMap_cons]
    by_cases hstar : c = '*'
    · simp only [if_pos hstar, ofGlob, RegexItem.text]
    by_cases hone : c = '?'
    · simp only [if_neg hstar, if_pos hone, ofGlob, RegexItem.text]
    by_cases hdot : c = '.'
    · simp [hdot, ofGlob, RegexItem.text]
    by_cases hplain : c = '/' ∨ c = '-' ∨ c = '_' ∨ isAlphanumeric c
    · simp only [if_neg hstar, if_neg hone, if_neg hdot, if_pos hplain, ofGlob,
        if_pos (show c ≠ '.' ∧ _ from ⟨hdot, hplain⟩), RegexItem.text, List.singleton_append]
    · simp only [if_neg hstar, if_neg hone, if_neg hdot, if_neg hplain, ofGlob,
        if_neg (show ¬ (c ≠ '.' ∧ _) from fun h => hplain h.2), RegexItem.text, List.cons_append,
        List.nil_append]

/-! ### Validity -/

/-- A character that stands for itself in the expression as it does in the pattern. -/
def Writable (isAlphanumeric : Char → Bool) (c : Char) : Prop :=
  c ≠ '<' ∧ c ≠ '>' ∧ (isAscii c ∨ isAlphanumeric c)

instance : DecidablePred (Writable isAlphanumeric) :=
  fun _ => inferInstanceAs (Decidable (_ ∧ _ ∧ (_ ∨ _)))

lemma isAlphanumeric_meta (hunicode : IsUnicode isAlphanumeric isWord) (hc : c ∈ metacharacters) :
    isAlphanumeric c = false := by
  have hmeta : ∀ c ∈ metacharacters, isAscii c ∧ c.isAlphanum = false :=
    List.all_iff_forall_prop.mp (by decide)
  obtain ⟨hascii, halnum⟩ := hmeta c hc
  rw [hunicode.alphanumeric c hascii, halnum]

/-- A character is refused if it is not ASCII and has to be escaped. -/
lemma valid_self (hunicode : IsUnicode isAlphanumeric isWord)
    (h : isAscii c ∨ isAlphanumeric c) : (ofGlob isAlphanumeric (self c)).Valid := by
  rw [ofGlob]
  split_ifs with hplain
  · intro hmeta
    have hpunct : ∀ c ∈ metacharacters, c ≠ '/' ∧ c ≠ '-' ∧ c ≠ '_' :=
      List.all_iff_forall_prop.mp (by decide)
    obtain ⟨hslash, hdash, hunder⟩ := hpunct c hmeta
    rcases hplain.2 with heq | heq | heq | heq
    · exact hslash heq
    · exact hdash heq
    · exact hunder heq
    · simp [isAlphanumeric_meta hunicode hmeta] at heq
  · by_cases hdot : c = '.'
    · subst hdot
      decide
    have hnot : isAlphanumeric c = false := by
      by_contra halnum
      exact hplain ⟨hdot, .inr (.inr (.inr (by simpa using halnum)))⟩
    have hascii : isAscii c := h.resolve_right (by simp [hnot])
    exact ⟨hascii, by rw [← hunicode.alphanumeric c hascii, hnot]⟩

lemma refused_self (h : ¬ (isAscii c ∨ isAlphanumeric c)) :
    (ofGlob isAlphanumeric (self c)).Refused := by
  obtain ⟨hascii, halnum⟩ := not_or.mp h
  have hnot : ¬ (c ≠ '.' ∧ (c = '/' ∨ c = '-' ∨ c = '_' ∨ isAlphanumeric c)) := by
    rintro ⟨-, rfl | rfl | rfl | h⟩
    · exact hascii (by decide)
    · exact hascii (by decide)
    · exact hascii (by decide)
    · exact halnum h
  rw [ofGlob, if_neg hnot]
  exact hascii

lemma valid_ofGlob (hunicode : IsUnicode isAlphanumeric isWord)
    (h : ∀ c ∈ q, isAscii c ∨ isAlphanumeric c) :
    ∀ x ∈ (globItems q).map (ofGlob isAlphanumeric), x.Valid := by
  intro x hx
  obtain ⟨item, hitem, rfl⟩ := List.mem_map.mp hx
  cases item with
  | self c => exact valid_self hunicode (h c (mem_of_self_mem hitem).1)
  | anything => trivial
  | run => trivial
  | one => trivial

lemma valid_or_refused (hunicode : IsUnicode isAlphanumeric isWord) :
    ∀ x ∈ (globItems q).map (ofGlob isAlphanumeric), x.Valid ∨ x.Refused := by
  intro x hx
  obtain ⟨item, _, rfl⟩ := List.mem_map.mp hx
  cases item with
  | self c =>
    by_cases h : isAscii c ∨ isAlphanumeric c
    · exact .inl (valid_self hunicode h)
    · exact .inr (refused_self h)
  | anything => exact .inl trivial
  | run => exact .inl trivial
  | one => exact .inl trivial

/-! ### Segments -/

/-- A character that is no angle bracket takes itself. -/
lemma takes_self_iff (hless : c ≠ '<') (hgreater : c ≠ '>') {before u after : Text} :
    (ofGlob isAlphanumeric (self c)).Takes isWord before u after ↔ u = [c] := by
  rw [ofGlob]
  split_ifs
  · rfl
  · rw [RegexItem.Takes, if_neg hless, if_neg hgreater]

/-- Along a pattern of writable characters, whose runs of anything do not meet a line break, both
take the same segments. -/
lemma cut_ofGlob_iff (hself : ∀ c ∈ q, Writable isAlphanumeric c)
    (hrun : anything ∉ globItems q ∨ '\n' ∉ w) :
    Cut (RegexItem.Takes isWord) ((globItems q).map (ofGlob isAlphanumeric)) [] w ↔
      GlobMatches q w := by
  have hsame : ∀ item ∈ globItems q, ∀ before u after, (∀ a ∈ u, a ∈ w) →
      ((ofGlob isAlphanumeric item).Takes isWord before u after ↔
        item.Takes before u after) := by
    intro item hitem before u after hsub
    cases item with
    | self c =>
      obtain ⟨hless, hgreater, _⟩ := hself c (mem_of_self_mem hitem).1
      exact takes_self_iff hless hgreater
    | anything =>
      refine iff_of_true (fun hmem => ?_) trivial
      rcases hrun with hrun | hrun
      · exact hrun hitem
      · exact hrun (hsub _ hmem)
    | run => rfl
    | one => rfl
  rw [Cut.map_iff]
  constructor
  · exact Cut.imp fun item hitem before u after hsub => (hsame item hitem before u after hsub).mp
  · exact Cut.imp fun item hitem before u after hsub => (hsame item hitem before u after hsub).mpr

/-! ### The result of a search -/

/-- A search finds what is documented if and only if the expression matches the same keys as the
pattern. -/
lemma isGlobOf_iff (hq : normalizePath pattern = .ok q) {keys : List Text}
    (hkeys : ∀ p, p ∈ keys → vfs.containsKey p) (hnodup : keys.Nodup) :
    IsGlobOf vfs pattern (keys.insertionSort (· ≤ ·)) ↔
      ∀ p, vfs.containsKey p → (p ∈ keys ↔ GlobMatches q p) := by
  have hmatched : ∀ p, (∃ q, normalizePath pattern = .ok q ∧ GlobMatches q p) ↔
      GlobMatches q p := by
    intro p
    constructor
    · rintro ⟨q', hq', hmatches⟩
      rw [hq] at hq'
      exact Except.ok.inj hq' ▸ hmatches
    · exact fun hmatches => ⟨q, hq, hmatches⟩
  constructor
  · intro h p hp
    rw [← List.mem_insertionSort (· ≤ ·), h.mem_iff, hmatched]
    exact ⟨And.right, fun hmatches => ⟨hp, hmatches⟩⟩
  · intro h
    refine ⟨?_, fun p => ?_⟩
    · have hsorted := List.pairwise_insertionSort (· ≤ ·) keys
      have hne := (List.perm_insertionSort (· ≤ ·) keys).nodup_iff.mpr hnodup
      exact (hsorted.and hne).imp fun hle => lt_of_le_of_ne hle.1 hle.2
    · rw [List.mem_insertionSort, hmatched]
      constructor
      · exact fun hp => ⟨hkeys p hp, (h p (hkeys p hp)).mp hp⟩
      · exact fun hp => (h p hp.1).mpr hp.2

lemma containsKey_iff_mem_keys : vfs.containsKey p ↔ p ∈ vfs.entries.keys := by
  rw [containsKey, get, AList.lookup_isSome, AList.mem_keys]

/-- With an expression, the search agrees where the expression and the pattern match the same
keys. -/
lemma isGlobOf_glob_iff (hq : normalizePath pattern = .ok q) {isMatch : Text → Bool}
    (hnew : new (anchored ((globItems q).map (ofGlob isAlphanumeric))) = some isMatch) :
    IsGlobOf vfs pattern (glob isAlphanumeric new vfs pattern) ↔
      ∀ p, vfs.containsKey p → (isMatch p = true ↔ GlobMatches q p) := by
  rw [anchored, ← regexPattern_eq] at hnew
  simp only [glob, hq, hnew]
  rw [isGlobOf_iff hq (fun p hp => containsKey_iff_mem_keys.mpr (List.mem_filter.mp hp).1)
    ((AList.keys_nodup _).filter _)]
  refine forall₂_congr fun p hp => ?_
  rw [List.mem_filter, and_iff_right (containsKey_iff_mem_keys.mp hp)]

/-- Without one, it agrees where the pattern matches no key. -/
lemma isGlobOf_glob_none_iff (hq : normalizePath pattern = .ok q)
    (hnew : new (anchored ((globItems q).map (ofGlob isAlphanumeric))) = none) :
    IsGlobOf vfs pattern (glob isAlphanumeric new vfs pattern) ↔
      ∀ p, vfs.containsKey p → ¬ GlobMatches q p := by
  rw [anchored, ← regexPattern_eq] at hnew
  simp only [glob, hq, hnew]
  have hnil : ([] : List Text) = ([] : List Text).insertionSort (· ≤ ·) := rfl
  rw [hnil, isGlobOf_iff hq (by simp) List.nodup_nil]
  simp

/-! ### Where they agree -/

/-- The normalised pattern has no `<`, no `>` and no character beyond ASCII that is not
alphanumeric; and it has no `**`, or no stored path has a line break. -/
def GlobAgrees (isAlphanumeric : Char → Bool) (vfs : Vfs) (pattern : Text) : Prop :=
  ∀ q, normalizePath pattern = .ok q → (∀ c ∈ q, Writable isAlphanumeric c) ∧
    (¬ ['*', '*'] <:+: q ∨ ∀ p, vfs.containsKey p → '\n' ∉ p)

lemma isGlobOf_of_globAgrees (hunicode : IsUnicode isAlphanumeric isWord)
    (hregex : IsRegex isWord new) (h : GlobAgrees isAlphanumeric vfs pattern) :
    IsGlobOf vfs pattern (glob isAlphanumeric new vfs pattern) := by
  cases hq : normalizePath pattern with
  | error e =>
    simp only [glob, hq]
    exact ⟨.nil, by simp [hq]⟩
  | ok q =>
    obtain ⟨hself, hrun⟩ := h q hq
    obtain ⟨isMatch, hnew, hmatch⟩ := hregex.reads _
      (valid_ofGlob hunicode fun c hc => (hself c hc).2.2)
    rw [isGlobOf_glob_iff hq hnew]
    intro p hp
    rw [hmatch, cut_ofGlob_iff hself]
    rw [anything_mem_iff]
    exact hrun.imp_right fun hkeys => hkeys p hp

/-! ### A path without the angle brackets -/

/-- A dash in the place of `<` and `>`, which is no word character either. -/
def dash (c : Char) : Char := if c = '<' ∨ c = '>' then '-' else c

lemma dash_eq_iff {d : Char} (hless : d ≠ '<') (hgreater : d ≠ '>') (hdash : d ≠ '-') :
    dash c = d ↔ c = d := by
  unfold dash
  split_ifs with h
  · constructor
    · exact fun heq => absurd heq.symm hdash
    · rintro rfl
      exact absurd h (not_or.mpr ⟨hless, hgreater⟩)
  · rfl

lemma mem_map_dash {d : Char} (hless : d ≠ '<') (hgreater : d ≠ '>') (hdash : d ≠ '-') :
    d ∈ w.map dash ↔ d ∈ w := by
  simp only [List.mem_map, dash_eq_iff hless hgreater hdash, exists_eq_right]

lemma isWord_dash (hunicode : IsUnicode isAlphanumeric isWord) (c : Char) :
    isWord (dash c) = isWord c := by
  unfold dash
  split_ifs with h
  · rcases h with rfl | rfl
    · rw [hunicode.word _ (by decide), hunicode.word _ (by decide)]
      rfl
    · rw [hunicode.word _ (by decide), hunicode.word _ (by decide)]
      rfl
  · rfl

lemma any_getLast?_map_dash (hunicode : IsUnicode isAlphanumeric isWord) (w : Text) :
    (w.map dash).getLast?.any isWord = w.getLast?.any isWord := by
  rw [List.getLast?_map]
  cases w.getLast? with
  | none => rfl
  | some c => exact isWord_dash hunicode c

lemma any_head?_map_dash (hunicode : IsUnicode isAlphanumeric isWord) (w : Text) :
    (w.map dash).head?.any isWord = w.head?.any isWord := by
  rw [List.head?_map]
  cases w.head? with
  | none => rfl
  | some c => exact isWord_dash hunicode c

/-- No piece of the expression tells an angle bracket from a dash. -/
lemma takes_map_dash (hunicode : IsUnicode isAlphanumeric isWord) (item : GlobItem)
    {before u after : Text} (h : (ofGlob isAlphanumeric item).Takes isWord before u after) :
    (ofGlob isAlphanumeric item).Takes isWord (before.map dash) (u.map dash) (after.map dash) := by
  cases item with
  | anything => exact fun hmem => h ((mem_map_dash (by decide) (by decide) (by decide)).mp hmem)
  | run => exact fun hmem => h ((mem_map_dash (by decide) (by decide) (by decide)).mp hmem)
  | one =>
    obtain ⟨c, hc, rfl⟩ := h
    exact ⟨dash c, fun heq => hc ((dash_eq_iff (by decide) (by decide) (by decide)).mp heq), rfl⟩
  | self c =>
    by_cases hbracket : c = '<' ∨ c = '>'
    · have hnot : isAlphanumeric c = false := by
        rcases hbracket with rfl | rfl
        · exact hunicode.alphanumeric _ (by decide)
        · exact hunicode.alphanumeric _ (by decide)
      have hescaped : ofGlob isAlphanumeric (self c) = escaped c := by
        rcases hbracket with rfl | rfl
        · simp [ofGlob, hnot]
        · simp [ofGlob, hnot]
      rw [hescaped] at h ⊢
      rcases hbracket with rfl | rfl
      · obtain ⟨rfl, hbefore, hafter⟩ := h
        refine ⟨rfl, ?_, ?_⟩
        · rwa [any_getLast?_map_dash hunicode]
        · rwa [any_head?_map_dash hunicode]
      · obtain ⟨rfl, hbefore, hafter⟩ := h
        refine ⟨rfl, ?_, ?_⟩
        · rwa [any_getLast?_map_dash hunicode]
        · rwa [any_head?_map_dash hunicode]
    · obtain ⟨hless, hgreater⟩ := not_or.mp hbracket
      rw [takes_self_iff hless hgreater] at h ⊢
      rw [h, List.map_cons, List.map_nil, dash, if_neg hbracket]

/-- Dots come from dots. -/
lemma map_dash_of_dots (h : ∀ c ∈ w.map dash, c = '.') : w.map dash = w := by
  have hfix : ∀ c ∈ w, dash c = c := by
    intro c hc
    have hdot : dash c = '.' := h _ (List.mem_map_of_mem hc)
    rw [hdot, (dash_eq_iff (by decide) (by decide) (by decide)).mp hdot]
  exact (List.map_congr_left hfix).trans (List.map_id' w)

lemma isComponent_map_dash {name : Text} (h : IsComponent name) : IsComponent (name.map dash) := by
  rw [isComponent_iff] at h ⊢
  obtain ⟨hnil, hdot, hdots, hslash, hnul⟩ := h
  refine ⟨by simpa using hnil, fun heq => ?_, fun heq => ?_, ?_, ?_⟩
  · exact hdot ((map_dash_of_dots (by simp [heq])).symm.trans heq)
  · exact hdots ((map_dash_of_dots (by simp [heq])).symm.trans heq)
  · rwa [mem_map_dash (by decide) (by decide) (by decide)]
  · rwa [mem_map_dash (by decide) (by decide) (by decide)]

/-- With the brackets replaced, a normalised path is still one. -/
lemma exists_names_map_dash {names : List Text} (hnames : ∀ name ∈ names, IsComponent name) :
    ∃ names', (∀ name ∈ names', IsComponent name) ∧ (ofNames names).map dash = ofNames names' := by
  refine ⟨names.map (·.map dash), fun name hname => ?_, ?_⟩
  · obtain ⟨n, hn, rfl⟩ := List.mem_map.mp hname
    exact isComponent_map_dash (hnames n hn)
  · cases names with
    | nil => rfl
    | cons name names =>
      rw [ofNames_of_ne_nil (by simp), ofNames_of_ne_nil (by simp)]
      induction name :: names with
      | nil => rfl
      | cons name names ih =>
        rw [slashed_cons, List.map_cons, List.map_append, ih, List.map_cons, slashed_cons]
        rfl

/-! ### A path with many line breaks -/

/-- Within a path of names, a letter that is no slash is within a name. -/
lemma exists_name_of_slashed_eq {names : List Text} {front back : Text} (hc : c ≠ '/')
    (h : slashed names = front ++ c :: back) :
    ∃ before s t after, names = before ++ (s ++ c :: t) :: after ∧
      front = slashed before ++ '/' :: s ∧ back = t ++ slashed after := by
  induction names generalizing front with
  | nil => simp at h
  | cons name names ih =>
    rw [slashed_cons] at h
    cases front with
    | nil => exact absurd (List.cons.inj h).1.symm hc
    | cons d front =>
      rw [List.cons_append] at h
      obtain ⟨rfl, hrest⟩ := List.cons.inj h
      rcases List.append_eq_append_iff.mp hrest with ⟨a, rfl, hback⟩ | ⟨a, rfl, hback⟩
      · obtain ⟨before, s, t, after, rfl, rfl, rfl⟩ := ih hback
        exact ⟨name :: before, s, t, after, rfl, by simp, rfl⟩
      · cases a with
        | nil =>
          cases names with
          | nil => cases hback
          | cons next names => exact absurd (List.cons.inj hback).1 hc
        | cons d t =>
          obtain ⟨rfl, rfl⟩ := List.cons.inj hback
          exact ⟨[], front, t, names, rfl, rfl, rfl⟩

/-- Line breaks between slashes, each a name of its own. -/
def breaks (n : ℕ) : Text := (List.replicate n ['/', '\n']).flatten

lemma breaks_succ_append {n : ℕ} {t : Text} {after : List Text} :
    breaks (n + 1) ++ (t ++ slashed after) =
      slashed (List.replicate n ['\n'] ++ ('\n' :: t) :: after) := by
  induction n with
  | zero => simp [breaks]
  | succ n ih =>
    rw [breaks, List.replicate_succ, List.flatten_cons, List.append_assoc, ← breaks, ih,
      List.replicate_succ (a := ['\n'])]
    rfl

lemma isComponent_of_break {name : Text} (hmem : '*' ∈ name ∨ '\n' ∈ name) (hslash : '/' ∉ name)
    (hnul : Char.ofNat 0 ∉ name) : IsComponent name := by
  rw [isComponent_iff]
  refine ⟨?_, ?_, ?_, hslash, hnul⟩
  all_goals
    rintro rfl
    revert hmem
    decide

/-- A normalised path is still one when line breaks are put behind a star. -/
lemma exists_names_breaks {names : List Text} (hnames : ∀ name ∈ names, IsComponent name)
    {front back : Text} (h : ofNames names = front ++ '*' :: back) (n : ℕ) :
    ∃ names', (∀ name ∈ names', IsComponent name) ∧
      front ++ '*' :: (breaks (n + 1) ++ back) = ofNames names' := by
  have hne : names ≠ [] := by
    rintro rfl
    have hmem : '*' ∈ root := by
      rw [← ofNames_nil, h]
      simp
    exact absurd hmem (by decide)
  rw [ofNames_of_ne_nil hne] at h
  obtain ⟨before, s, t, after, rfl, rfl, rfl⟩ := exists_name_of_slashed_eq (by decide) h
  obtain ⟨_, _, _, hslash, hnul⟩ := isComponent_iff.mp (hnames (s ++ '*' :: t) (by simp))
  simp only [List.mem_append, List.mem_cons, not_or] at hslash hnul
  refine ⟨before ++ (s ++ ['*']) :: (List.replicate n ['\n'] ++ ('\n' :: t) :: after), ?_, ?_⟩
  · intro name hname
    simp only [List.mem_append, List.mem_cons, List.mem_replicate] at hname
    rcases hname with hname | rfl | ⟨_, rfl⟩ | rfl | hname
    · exact hnames name (by simp [hname])
    · refine isComponent_of_break (.inl (by simp)) ?_ ?_
      · simp [hslash]
      · simp [hnul]
    · exact isComponent_of_break (.inr (by simp)) (by decide) (by decide)
    · refine isComponent_of_break (.inr (by simp)) ?_ ?_
      · simp [hslash]
      · simp [hnul]
    · exact hnames name (by simp [hname])
  · rw [ofNames_of_ne_nil (by simp), breaks_succ_append]
    simp

/-- An expression without assertions and with fewer pieces than a path has line breaks behind
slashes does not match it. -/
lemma not_cut_breaks (hself : ∀ c ∈ q, Writable isAlphanumeric c) {front back : Text} {n : ℕ}
    (hlong : (globItems q).length < n) :
    ¬ Cut (RegexItem.Takes isWord) ((globItems q).map (ofGlob isAlphanumeric)) []
      (front ++ (breaks n ++ back)) := by
  intro hcut
  have hle : adjacent '/' '\n' (front ++ (breaks n ++ back)) ≤ (globItems q).length := by
    rw [← List.length_map (f := ofGlob isAlphanumeric)]
    refine Cut.measure_le rfl (fun _ _ => adjacent_append_le) ?_ hcut
    intro x hx before u after htakes
    obtain ⟨item, hitem, rfl⟩ := List.mem_map.mp hx
    apply adjacent_eq_zero
    cases item with
    | anything => exact .inr htakes
    | run => exact .inl htakes
    | one =>
      obtain ⟨c, hc, rfl⟩ := htakes
      exact .inl (by simpa using hc.symm)
    | self c =>
      obtain ⟨hless, hgreater, _⟩ := hself c (mem_of_self_mem hitem).1
      rw [takes_self_iff hless hgreater] at htakes
      rw [htakes]
      by_cases hc : c = '/'
      · exact .inr (by simp [hc])
      · exact .inl (by simpa using Ne.symm hc)
  have hge : n ≤ adjacent '/' '\n' (front ++ (breaks n ++ back)) :=
    le_adjacent_replicate.trans adjacent_append_right
  omega

/-- The pattern matches the path with line breaks in the place of one of its `**`. -/
lemma globMatches_breaks (h : anything ∈ globItems q) (n : ℕ) :
    ∃ front back, q = front ++ '*' :: back ∧
      GlobMatches q (front ++ '*' :: (breaks n ++ back)) := by
  obtain ⟨items, rest, hsplit⟩ := List.append_of_mem h
  refine ⟨items.flatMap spell ++ ['*'], rest.flatMap spell, ?_, ?_⟩
  · conv_lhs => rw [← flatMap_spell q, hsplit]
    simp [spell]
  · have hword : items.flatMap spell ++ ['*'] ++ '*' :: (breaks n ++ rest.flatMap spell) =
        items.flatMap spell ++ ('*' :: '*' :: breaks n ++ rest.flatMap spell) := by simp
    rw [GlobMatches, hsplit, hword]
    refine Cut.flatMap_append (fun item _ => takes_spell item) fun before => ?_
    refine Cut.cons trivial ?_
    have hrest : Cut GlobItem.Takes (rest ++ []) (before ++ '*' :: '*' :: breaks n)
        (rest.flatMap spell ++ []) :=
      Cut.flatMap_append (fun item _ => takes_spell item) fun _ => Cut.nil_iff.mpr rfl
    rwa [List.append_nil, List.append_nil] at hrest

/-! ### The patterns that always agree -/

/-- The normalised pattern has no `<`, no `>`, no character beyond ASCII that is not alphanumeric,
and no `**`. -/
def Expressible (isAlphanumeric : Char → Bool) (pattern : Text) : Prop :=
  ∀ q, normalizePath pattern = .ok q →
    (∀ c ∈ q, Writable isAlphanumeric c) ∧ ¬ ['*', '*'] <:+: q

/-- A pattern that agrees in every filesystem is expressible. -/
lemma expressible_of_isGlobOf (hunicode : IsUnicode isAlphanumeric isWord)
    (hregex : IsRegex isWord new)
    (h : ∀ vfs, NormalTree vfs → IsGlobOf vfs pattern (glob isAlphanumeric new vfs pattern)) :
    Expressible isAlphanumeric pattern := by
  intro q hq
  obtain ⟨names, hnames, rfl⟩ := exists_names_of_normalizePath hq
  have hletters : ∀ c ∈ ofNames names, isAscii c ∨ isAlphanumeric c := by
    intro c hc
    by_contra hnot
    have hnew := hregex.refuses _ (valid_or_refused (q := ofNames names) hunicode)
      ⟨_, List.mem_map_of_mem (self_mem_globItems hc ?_ ?_), refused_self hnot⟩
    · obtain ⟨vfs, htree, d, hd, _⟩ := exists_normalTree hnames
      exact (isGlobOf_glob_none_iff hq hnew).mp (h vfs htree) _ (by simp [containsKey, hd])
        (globMatches_self _)
    · rintro rfl
      exact hnot (.inl (by decide))
    · rintro rfl
      exact hnot (.inl (by decide))
  obtain ⟨isMatch, hnew, hmatch⟩ := hregex.reads _ (valid_ofGlob hunicode hletters)
  -- the expression and the pattern match the same normalised paths
  have hagree : ∀ names', (∀ name ∈ names', IsComponent name) →
      (Cut (RegexItem.Takes isWord) ((globItems (ofNames names)).map (ofGlob isAlphanumeric)) []
        (ofNames names') ↔ GlobMatches (ofNames names) (ofNames names')) := by
    intro names' hnames'
    obtain ⟨vfs, htree, d, hd, _⟩ := exists_normalTree hnames'
    rw [← hmatch]
    exact (isGlobOf_glob_iff hq hnew).mp (h vfs htree) _ (by simp [containsKey, hd])
  have hself : ∀ c ∈ ofNames names, Writable isAlphanumeric c := by
    obtain ⟨names', hnames', heq⟩ := exists_names_map_dash hnames
    have hcut := (hagree names hnames).mpr (globMatches_self _)
    have hdash : Cut (fun item => (ofGlob isAlphanumeric item).Takes isWord)
        (globItems (ofNames names)) [] ((ofNames names).map dash) :=
      Cut.map_letters (fun item _ _ _ _ => takes_map_dash hunicode item) (Cut.map_iff.mp hcut)
    rw [heq] at hdash
    have hmatches := (hagree names' hnames').mp (Cut.map_iff.mpr hdash)
    have hbracket : ∀ c, c = '<' ∨ c = '>' → c ∉ ofNames names := by
      intro c hc hmem
      have hstar : c ≠ '*' ∧ c ≠ '?' := by
        rcases hc with rfl | rfl <;> decide
      have hin := mem_of_globMatches hmatches (self_mem_globItems hmem hstar.1 hstar.2)
      rw [← heq, List.mem_map] at hin
      obtain ⟨d, _, hd⟩ := hin
      unfold dash at hd
      split_ifs at hd with hbracket
      · rcases hc with rfl | rfl <;> cases hd
      · exact hbracket (hd ▸ hc)
    intro c hc
    exact ⟨fun heq => hbracket c (.inl heq) hc, fun heq => hbracket c (.inr heq) hc,
      hletters c hc⟩
  refine ⟨hself, fun hstars => ?_⟩
  obtain ⟨front, back, hsplit, hmatches⟩ := globMatches_breaks (anything_mem_iff.mpr hstars)
    ((globItems (ofNames names)).length + 1)
  obtain ⟨names', hnames', heq⟩ := exists_names_breaks hnames hsplit
    (globItems (ofNames names)).length
  rw [heq] at hmatches
  have hcut := (hagree names' hnames').mpr hmatches
  rw [← heq, ← List.singleton_append, ← List.append_assoc] at hcut
  exact not_cut_breaks hself (Nat.lt_succ_self _) hcut

/-- The search finds the documented paths in every filesystem exactly for the expressible patterns,
and in a filesystem without line breaks in its paths for those with `**` as well. -/
theorem isGlobOf_iff_expressible (hunicode : IsUnicode isAlphanumeric isWord)
    (hregex : IsRegex isWord new) (pattern : Text) :
    ((∀ vfs, NormalTree vfs → IsGlobOf vfs pattern (glob isAlphanumeric new vfs pattern)) ↔
        Expressible isAlphanumeric pattern) ∧
      ∀ vfs, GlobAgrees isAlphanumeric vfs pattern →
        IsGlobOf vfs pattern (glob isAlphanumeric new vfs pattern) := by
  refine ⟨⟨expressible_of_isGlobOf hunicode hregex, fun h vfs _ => ?_⟩,
    fun vfs => isGlobOf_of_globAgrees hunicode hregex⟩
  refine isGlobOf_of_globAgrees hunicode hregex fun q hq => ?_
  exact ⟨(h q hq).1, .inl (h q hq).2⟩

/-! ### An engine for the expressions of a search -/

namespace RegexItem

/-- The pieces of an expression, read from the left. -/
def read : Text → List RegexItem
  | [] => []
  | '.' :: '*' :: rest => dotStar :: read rest
  | '[' :: '^' :: '/' :: ']' :: '*' :: rest => notSlashStar :: read rest
  | '[' :: '^' :: '/' :: ']' :: rest => notSlash :: read rest
  | '\\' :: c :: rest => escaped c :: read rest
  | c :: rest => plain c :: read rest

instance (item : RegexItem) (before u after : Text) :
    Decidable (item.Takes isWord before u after) :=
  match item with
  | dotStar | notSlashStar => inferInstanceAs (Decidable (¬ _))
  | notSlash => decidable_of_iff (u.length = 1 ∧ '/' ∉ u) (by
      rw [List.length_eq_one_iff, Takes]
      constructor
      · rintro ⟨⟨c, rfl⟩, hc⟩
        exact ⟨c, fun heq => hc (List.mem_singleton.mpr heq.symm), rfl⟩
      · rintro ⟨c, hc, rfl⟩
        exact ⟨⟨c, rfl⟩, by simpa using hc.symm⟩)
  | plain c => inferInstanceAs (Decidable (u = [c]))
  | escaped c => inferInstanceAs (Decidable (if c = '<' then _ else if c = '>' then _ else _))

/-- An engine that tries every way to cut a word. -/
def engine (isWord : Char → Bool) (expression : Text) : Option (Text → Bool) :=
  let items := read (expression.drop 1).dropLast
  if ∀ x ∈ items, x.Valid then some fun w => decide (Cut (Takes isWord) items [] w) else none

variable {items : List RegexItem}

lemma head?_text_ne_star (h : ∀ x ∈ items, x.Valid ∨ x.Refused) (rest : Text) :
    items.flatMap text ≠ '*' :: rest := by
  cases items with
  | nil => simp
  | cons x items =>
    intro heq
    cases x with
    | plain c =>
      obtain ⟨rfl, _⟩ := List.cons.inj heq
      rcases h _ List.mem_cons_self with hvalid | hrefused
      · exact hvalid (by decide)
      · exact hrefused
    | _ => exact absurd (List.cons.inj heq).1 (by decide)

lemma read_text (h : ∀ x ∈ items, x.Valid ∨ x.Refused) : read (items.flatMap text) = items := by
  induction items with
  | nil => rfl
  | cons x items ih =>
    have hitems : ∀ x ∈ items, x.Valid ∨ x.Refused :=
      fun y hy => h y (List.mem_cons_of_mem x hy)
    rw [List.flatMap_cons]
    cases x with
    | dotStar => exact congrArg (dotStar :: ·) (ih hitems)
    | notSlashStar => exact congrArg (notSlashStar :: ·) (ih hitems)
    | notSlash =>
      have hread := read.eq_4 (items.flatMap text) (head?_text_ne_star hitems)
      exact hread.trans (congrArg (notSlash :: ·) (ih hitems))
    | escaped c => exact congrArg (escaped c :: ·) (ih hitems)
    | plain c =>
      have hvalid : c ∉ metacharacters :=
        (h (plain c) List.mem_cons_self).resolve_right id
      have hread : read (c :: items.flatMap text) = plain c :: read (items.flatMap text) := by
        refine read.eq_6 _ _ ?_ ?_ ?_ ?_
        all_goals
          intros
          subst_vars
          exact hvalid (by decide)
      exact hread.trans (congrArg (plain c :: ·) (ih hitems))

lemma read_anchored (h : ∀ x ∈ items, x.Valid ∨ x.Refused) :
    read ((anchored items).drop 1).dropLast = items := by
  rw [anchored, List.drop_one, List.tail_cons, List.dropLast_concat, read_text h]

lemma isRegex_engine (isWord : Char → Bool) : IsRegex isWord (engine isWord) where
  reads items h := by
    refine ⟨fun w => decide (Cut (Takes isWord) items [] w), ?_, fun w => decide_eq_true_iff⟩
    simp only [engine, read_anchored fun x hx => .inl (h x hx)]
    exact if_pos h
  refuses items h hrefused := by
    obtain ⟨x, hx, hnot⟩ := hrefused
    simp only [engine, read_anchored h]
    refine if_neg fun hvalid => ?_
    cases x with
    | escaped c => exact hnot (hvalid _ hx).1
    | _ => exact hnot

end RegexItem

/-- The word characters and the alphanumeric characters of ASCII. -/
lemma isUnicode_ascii : IsUnicode Char.isAlphanum fun c => c.isAlphanum || c == '_' :=
  ⟨fun _ _ => rfl, fun _ _ => rfl⟩

/-- A pattern for the text files of a directory. -/
theorem isGlobOf_iff_expressible_textFiles : IsGlobOf Vfs.new "/tmp/*.txt".toList
    (glob Char.isAlphanum (engine fun c => c.isAlphanum || c == '_') Vfs.new
      "/tmp/*.txt".toList) := by
  have hnormal : normalizePath "/tmp/*.txt".toList = .ok "/tmp/*.txt".toList := by decide +kernel
  refine (isGlobOf_iff_expressible isUnicode_ascii (isRegex_engine _) _).2 Vfs.new fun q hq => ?_
  rw [hnormal] at hq
  cases hq
  exact ⟨List.all_iff_forall_prop.mp (by decide), .inl (by decide)⟩

/-- A file with an angle bracket in its name is not found under its own path. -/
theorem not_isGlobOf_angleBracket :
    ¬ ∀ isAlphanumeric isWord new, IsUnicode isAlphanumeric isWord → IsRegex isWord new →
      ∀ vfs, NormalTree vfs → ∀ pattern,
        IsGlobOf vfs pattern (glob isAlphanumeric new vfs pattern) := by
  intro hall
  let vfs := (empty.insert root (.directory .readWrite)).insert "/a<b".toList (.file [] .readWrite)
  have htree : NormalTree vfs := normalTree_of_entries (by decide +kernel)
  have hnormal : normalizePath "/a<b".toList = .ok "/a<b".toList := by decide +kernel
  have hnone : glob Char.isAlphanum (engine fun c => c.isAlphanum || c == '_') vfs
      "/a<b".toList = [] := by decide +kernel
  have hglob := hall _ _ _ isUnicode_ascii (isRegex_engine _) vfs htree "/a<b".toList
  rw [hnone] at hglob
  have hmem := (hglob.mem_iff "/a<b".toList).mpr
    ⟨by decide +kernel, _, hnormal, globMatches_self _⟩
  cases hmem

end AmlaSandbox.Vfs
