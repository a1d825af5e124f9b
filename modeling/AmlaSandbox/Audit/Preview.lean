import AmlaSandbox.Text.Utf8

/-!
# Text or binary

The audit log shows data as text or as bytes, which is decided by the first 512 bytes of the data.
These may end inside a character.
-/

namespace AmlaSandbox.Audit

open Text

def isControl (b : UInt8) : Bool := b < 32 && b ≠ 10 && b ≠ 13 && b ≠ 9

def isLikelyText (data : List UInt8) : Bool :=
  if data = [] then true
  else
    let sample := data.take (min data.length 512)
    if 0 ∈ sample then false
    else if isUtf8 sample = false then false
    else
      let controlCount := sample.countP isControl
      controlCount * 10 < sample.length || controlCount = 0

/-- Valid UTF-8 in which the only control characters are tabs, newlines and carriage returns. -/
def IsPlainText (data : List UInt8) : Prop :=
  ∃ s, data = utf8 s ∧ ∀ c ∈ s, c.toNat < 32 → c = '\t' ∨ c = '\n' ∨ c = '\r'

variable {data : List UInt8} {b : UInt8}

lemma IsPlainText.isControl_eq_false (h : IsPlainText data) (hb : b ∈ data) :
    isControl b = false := by
  obtain ⟨s, rfl, hs⟩ := h
  rw [utf8, List.mem_flatMap] at hb
  obtain ⟨c, hc, hmem⟩ := hb
  by_cases hlt : b < 32
  · have hnat : b.toNat < 32 := UInt8.lt_iff_toNat_lt.mp hlt
    have hbyte : b < 128 := UInt8.lt_iff_toNat_lt.mpr (hnat.trans (by decide))
    obtain ⟨hascii, rfl⟩ := eq_of_mem_encode hmem hbyte
    rw [toNat_toUInt8 hascii] at hnat
    rcases hs c hc hnat with rfl | rfl | rfl <;> rfl
  · simp [isControl, hlt]

lemma isLikelyText_of_no_control (h : ∀ b ∈ data, isControl b = false) :
    isLikelyText data = isUtf8 (data.take 512) := by
  have hsample : data.take (min data.length 512) = data.take 512 := by
    rw [min_comm, ← List.take_eq_take_min]
  have hzero : (0 : UInt8) ∉ data.take 512 :=
    fun hmem => absurd (h 0 (List.mem_of_mem_take hmem)) (by decide)
  have hcount : (data.take 512).countP isControl = 0 := by
    rw [List.countP_eq_zero]
    intro b hb
    simp [h b (List.mem_of_mem_take hb)]
  rw [isLikelyText]
  split_ifs with hnil
  · subst hnil
    exact (isUtf8_iff.mpr ⟨[], rfl⟩).symm
  · simp only [hsample, if_neg hzero, hcount, decide_true, Bool.or_true]
    cases isUtf8 (data.take 512) <;> rfl

/-- Text is taken for text if and only if the first 512 bytes do not end inside a character. -/
theorem isLikelyText_iff (h : IsPlainText data) :
    isLikelyText data = true ↔ ∀ b, data[512]? = some b → b.IsUTF8FirstByte := by
  rw [isLikelyText_of_no_control fun b hb => h.isControl_eq_false hb]
  obtain ⟨s, rfl, -⟩ := h
  exact isUtf8_take_iff

/-- Letters of one byte, then `n` characters of two. -/
def umlautsBehind (letters n : ℕ) : Text := List.replicate letters 'a' ++ List.replicate n 'ä'

lemma isPlainText_umlautsBehind (letters n : ℕ) : IsPlainText (utf8 (umlautsBehind letters n)) := by
  refine ⟨_, rfl, fun c hc hlt => ?_⟩
  rcases List.mem_append.mp hc with hc | hc
  · obtain rfl := List.eq_of_mem_replicate hc
    exact absurd hlt (by decide)
  · obtain rfl := List.eq_of_mem_replicate hc
    exact absurd hlt (by decide)

theorem isLikelyText_umlautsBehind :
    isLikelyText (utf8 (umlautsBehind 510 2)) = true :=
  (isLikelyText_iff (isPlainText_umlautsBehind 510 2)).mpr (by decide +kernel)

/-- The 512 bytes end in the middle of the last character. -/
theorem not_isLikelyText :
    IsPlainText (utf8 (umlautsBehind 511 1)) ∧
      isLikelyText (utf8 (umlautsBehind 511 1)) = false := by
  have htext := isPlainText_umlautsBehind 511 1
  have hinside : ¬ ∀ b, (utf8 (umlautsBehind 511 1))[512]? = some b → b.IsUTF8FirstByte := by
    decide +kernel
  refine ⟨htext, ?_⟩
  rw [isLikelyText_of_no_control fun b hb => htext.isControl_eq_false hb, ← Bool.not_eq_true,
    isUtf8_take_iff]
  exact hinside

end AmlaSandbox.Audit
