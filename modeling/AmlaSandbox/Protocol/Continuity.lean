import AmlaSandbox.Library.Segments
import AmlaSandbox.Protocol.CanonicalCbor
import AmlaSandbox.Protocol.Cta
import Mathlib.Data.Countable.Basic
import Mathlib.Logic.Equiv.List
import Mathlib.Tactic.DeriveCountable

/-!
# The message of a proof of continuity

What a signature over the message of a proof of continuity binds: the parent, the challenge, the
request and the proof of a characteristic, written one after the other.
-/

namespace AmlaSandbox.Protocol

open Json Library

/-! ### Heads of items -/

lemma bigEndian_succ (size n : ℕ) :
    bigEndian (size + 1) n = UInt8.ofNat (n / 256 ^ size) :: bigEndian size n := by
  simp [bigEndian, List.range_succ]

lemma length_bigEndian (size n : ℕ) : (bigEndian size n).length = size := by
  simp [bigEndian]

lemma bigEndian_inj {size n m : ℕ} (h : bigEndian size n = bigEndian size m) :
    n % 256 ^ size = m % 256 ^ size := by
  induction size with
  | zero => simp [Nat.mod_one]
  | succ size ih =>
    rw [bigEndian_succ, bigEndian_succ] at h
    obtain ⟨hhead, hrest⟩ := List.cons.inj h
    have hdigit : n / 256 ^ size % 256 = m / 256 ^ size % 256 := by
      simpa using congrArg UInt8.toNat hhead
    rw [pow_succ, Nat.mod_mul, Nat.mod_mul, ih hrest, hdigit]

/-- The low bits of the first byte, which tell how many bytes the argument takes. -/
def lowBits (arg : ℕ) : ℕ :=
  if arg < 24 then arg
  else if arg < 2 ^ 8 then 24 else if arg < 2 ^ 16 then 25 else if arg < 2 ^ 32 then 26 else 27

def argSize (low : ℕ) : ℕ :=
  if low < 24 then 0
  else if low = 24 then 1 else if low = 25 then 2 else if low = 26 then 4 else 8

lemma header_eq (major arg : ℕ) :
    header major arg =
      UInt8.ofNat (32 * major + lowBits arg) :: bigEndian (argSize (lowBits arg)) arg := by
  rw [header, lowBits]
  split_ifs with h₁ h₂ h₃ h₄
  · rw [argSize, if_pos h₁]
    rfl
  all_goals rfl

lemma lowBits_lt (arg : ℕ) : lowBits arg < 28 := by
  rw [lowBits]
  split_ifs <;> omega

lemma lt_of_lowBits {arg : ℕ} (h : arg < 2 ^ 64) (hlow : ¬ lowBits arg < 24) :
    arg < 256 ^ argSize (lowBits arg) := by
  by_cases hshort : arg < 24
  · rw [lowBits, if_pos hshort] at hlow
    exact absurd hshort hlow
  · rw [lowBits, if_neg hshort]
    split_ifs with h₁ h₂ h₃
    · exact h₁
    · exact h₂
    · exact h₃
    · exact h

lemma lowBits_eq {arg : ℕ} (h : lowBits arg < 24) : lowBits arg = arg := by
  simp only [lowBits] at h ⊢
  split_ifs at h ⊢ <;> omega

/-- An argument of up to 64 bits can be read from the head that it is written in. -/
lemma header_inj {major n m : ℕ} (hn : n < 2 ^ 64) (hm : m < 2 ^ 64) {x y : Bytes}
    (h : header major n ++ x = header major m ++ y) : n = m ∧ x = y := by
  rw [header_eq, header_eq] at h
  obtain ⟨hfirst, hrest⟩ := List.cons.inj h
  have hlow : lowBits n = lowBits m := by
    have hmod : (32 * major + lowBits n) % 256 = (32 * major + lowBits m) % 256 := by
      simpa using congrArg UInt8.toNat hfirst
    have hn' := lowBits_lt n
    have hm' := lowBits_lt m
    omega
  rw [hlow] at hrest
  obtain ⟨hbytes, hxy⟩ := List.append_inj hrest (by simp only [length_bigEndian])
  refine ⟨?_, hxy⟩
  by_cases hshort : lowBits m < 24
  · rw [← lowBits_eq hshort, ← hlow]
    exact (lowBits_eq (hlow ▸ hshort)).symm
  · have hn' := lt_of_lowBits hn (hlow ▸ hshort)
    have hm' := lt_of_lowBits hm hshort
    have hmod := bigEndian_inj hbytes
    rwa [Nat.mod_eq_of_lt (hlow ▸ hn'), Nat.mod_eq_of_lt hm'] at hmod

/-! ### Challenges -/

/-- The value that a challenge is serialised as. -/
def FreshnessChallenge.toCbor : FreshnessChallenge → CborValue
  | .random nonce => .map [(.text "type", .text "random"), (.text "value", .bytes nonce.toList)]
  | .timestamp unixMillis maxSkewMs => .map [(.text "type", .text "timestamp"),
    (.text "value", .map [(.text "unix_millis", .integer unixMillis.toNat),
      (.text "max_skew_ms", .integer maxSkewMs.toNat)])]

section Messages

variable {floatBytes : CborFloat → Bytes}

lemma encode_random (nonce : Vector UInt8 32) :
    ((FreshnessChallenge.random nonce).toCbor).encode floatBytes =
      (header 5 2 ++ (CborValue.text "type").encode floatBytes) ++
        ((CborValue.text "random").encode floatBytes ++
          (CborValue.text "value").encode floatBytes ++ header 2 32) ++ nonce.toList := by
  simp [FreshnessChallenge.toCbor, CborValue.encode, CborValue.encodeEntries]

lemma encode_timestamp (unixMillis : UInt64) (maxSkewMs : UInt32) :
    ((FreshnessChallenge.timestamp unixMillis maxSkewMs).toCbor).encode floatBytes =
      (header 5 2 ++ (CborValue.text "type").encode floatBytes) ++
        ((CborValue.text "timestamp").encode floatBytes ++
          (CborValue.text "value").encode floatBytes ++ header 5 2 ++
          (CborValue.text "unix_millis").encode floatBytes) ++ header 0 unixMillis.toNat ++
        (CborValue.text "max_skew_ms").encode floatBytes ++ header 0 maxSkewMs.toNat := by
  simp [FreshnessChallenge.toCbor, CborValue.encode, CborValue.encodeEntries]

/-- The two kinds of challenge are told apart by their tags. -/
lemma encode_tags_ne (x y : Bytes) :
    (CborValue.text "random").encode floatBytes ++ x ≠
      (CborValue.text "timestamp").encode floatBytes ++ y := by
  have hrandom : header 3 (utf8 "random").length = [0x66] := by decide +kernel
  have htimestamp : header 3 (utf8 "timestamp").length = [0x69] := by decide +kernel
  rw [CborValue.encode, CborValue.encode, hrandom, htimestamp]
  intro h
  exact absurd (List.cons.inj h).1 (by decide)

lemma selfDelimiting_challenge :
    SelfDelimiting fun c : FreshnessChallenge => c.toCbor.encode floatBytes := by
  rintro (nonce | ⟨millis, skew⟩) (nonce' | ⟨millis', skew'⟩) x y h
  · simp only [encode_random, List.append_assoc, List.append_cancel_left_eq] at h
    obtain ⟨hnonce, hxy⟩ := List.append_inj h (by simp)
    exact ⟨by rw [Vector.toList_inj.mp hnonce], hxy⟩
  · simp only [encode_random, encode_timestamp, List.append_assoc,
      List.append_cancel_left_eq] at h
    exact absurd h (encode_tags_ne _ _)
  · simp only [encode_random, encode_timestamp, List.append_assoc,
      List.append_cancel_left_eq] at h
    exact absurd h.symm (encode_tags_ne _ _)
  · simp only [encode_timestamp, List.append_assoc, List.append_cancel_left_eq] at h
    have hskew : ∀ skew : UInt32, skew.toNat < 2 ^ 64 := fun skew => by
      have := skew.toNat_lt
      omega
    obtain ⟨hmillis, h⟩ := header_inj millis.toNat_lt millis'.toNat_lt h
    obtain ⟨hskew, hxy⟩ := header_inj (hskew skew) (hskew skew') (List.append_cancel_left h)
    exact ⟨by rw [UInt64.toNat_inj.mp hmillis, UInt32.toNat_inj.mp hskew], hxy⟩

/-! ### Messages -/

variable {P : Primitives} {poc poc' : ProofOfContinuity} {request request' : ContinuationRequest}

lemma selfDelimiting_hash : SelfDelimiting fun hash : PcaHash => hash.bytes.toList :=
  .of_length (n := 32) (fun hash => by simp) fun ⟨_⟩ ⟨_⟩ h =>
    congrArg PcaHash.mk (Vector.toList_inj.mp h)

/-- A message tells the parent, the challenge and the request, and the proof of the characteristic
up to an empty one. -/
theorem buildMessage_eq_iff
    (hchallenge : ∀ c, P.cborChallenge c = c.toCbor.encode floatBytes)
    (hrequest : SelfDelimiting P.cborRequest) :
    poc.buildMessage P request = poc'.buildMessage P request' ↔
      poc.parentHash = poc'.parentHash ∧ poc.challenge = poc'.challenge ∧ request = request' ∧
        poc.characteristicProof.getD [] = poc'.characteristicProof.getD [] := by
  have hmessage : SelfDelimiting fun t : (PcaHash × FreshnessChallenge) × ContinuationRequest =>
      pocDomainSeparator ++
        ((t.1.1.bytes.toList ++ P.cborChallenge t.1.2) ++ P.cborRequest t.2) := by
    have hchallenge' : SelfDelimiting P.cborChallenge := by
      rw [funext hchallenge]
      exact selfDelimiting_challenge
    exact ((selfDelimiting_hash.pair hchallenge').pair hrequest).cons_lead pocDomainSeparator
  have hsplit : ∀ (poc : ProofOfContinuity) (request : ContinuationRequest),
      poc.buildMessage P request = pocDomainSeparator ++
        ((poc.parentHash.bytes.toList ++ P.cborChallenge poc.challenge) ++ P.cborRequest request) ++
          poc.characteristicProof.getD [] := by
    intro poc request
    simp [ProofOfContinuity.buildMessage]
  rw [hsplit, hsplit, hmessage.append_inj_iff (a := ((poc.parentHash, poc.challenge), request))
    (b := ((poc'.parentHash, poc'.challenge), request'))]
  simp only [Prod.mk.injEq, and_assoc]

/-! ### An empty proof and none -/

instance countable_uint8 : Countable UInt8 :=
  Function.Injective.countable (f := UInt8.toNat) fun _ _ => UInt8.toNat_inj.mp

instance countable_string : Countable String := keyBytes_injective.countable

instance countable_vector {n : ℕ} : Countable (Vector UInt8 n) :=
  Function.Injective.countable (f := Vector.toList) fun _ _ => Vector.toList_inj.mp

deriving instance Countable for CapabilityData
deriving instance Countable for PublicKey
deriving instance Countable for ExecutorCharacteristic
deriving instance Countable for CtaReference
deriving instance Countable for DesignatedExecutor
deriving instance Countable for ContinuationRequest

/-- A request at the epoch, without capabilities. -/
def emptyRequest : ContinuationRequest where
  capabilities := []
  designatedExecutor := .publicKey (.ed25519 (.replicate 32 0))
  expiresAt := 0
  payload := none

/-- What it is serialised as. -/
def emptyRequestCbor : CborValue :=
  .map [(.text "capabilities", .array []),
    (.text "designated_executor", .map [(.text "type", .text "pubkey"),
      (.text "value", .array [.integer 0, .bytes (List.replicate 32 0)])]),
    (.text "expires_at", .text "1970-01-01T00:00:00Z")]

/-- Encoders as the message assumes them, and as they are on that request. -/
lemma exists_encoders (floatBytes : CborFloat → Bytes) : ∃ P : Primitives,
    (∀ c, P.cborChallenge c = c.toCbor.encode floatBytes) ∧ SelfDelimiting P.cborRequest ∧
      P.cborRequest emptyRequest = emptyRequestCbor.encode floatBytes := by
  have hhead : emptyRequestCbor.encode floatBytes =
      0xa3 :: (emptyRequestCbor.encode floatBytes).tail := rfl
  obtain ⟨code, hcode, hempty⟩ := exists_selfDelimiting (0 : UInt8) 1 0xa3
    (by decide) (by decide) (by decide) emptyRequest (emptyRequestCbor.encode floatBytes).tail
  exact ⟨{ Primitives.transparent with
    cborRequest := code
    cborChallenge := fun c => c.toCbor.encode floatBytes }, fun c => rfl, hcode,
    hempty.trans hhead.symm⟩

/-- A proof of continuity whose only parts of interest are the challenge and the characteristic. -/
def bareProof (challenge : FreshnessChallenge) (characteristicProof : Option Bytes) :
    ProofOfContinuity where
  parentHash := ⟨.replicate 32 0⟩
  executorKey := .ed25519 (.replicate 32 0)
  signature := .ed25519 (.replicate 64 0)
  challenge
  characteristicProof

/-- Two timestamps never make the same message. -/
theorem buildMessage_eq_iff_timestamps : ∃ P : Primitives,
    P.cborRequest emptyRequest = emptyRequestCbor.encode (fun _ => []) ∧
      (bareProof (.timestamp 1 5) none).buildMessage P emptyRequest ≠
        (bareProof (.timestamp 2 5) none).buildMessage P emptyRequest := by
  obtain ⟨P, hchallenge, hrequest, hempty⟩ := exists_encoders fun _ => []
  refine ⟨P, hempty, fun h => ?_⟩
  exact absurd ((buildMessage_eq_iff hchallenge hrequest).mp h).2.1 (by decide)

/-- Without a proof of the characteristic the message is that of an empty proof. -/
theorem not_buildMessage_injective : ¬ ∀ (P : Primitives) (floatBytes : CborFloat → Bytes),
    (∀ c, P.cborChallenge c = c.toCbor.encode floatBytes) → SelfDelimiting P.cborRequest →
      ∀ (poc poc' : ProofOfContinuity) request request',
        poc.buildMessage P request = poc'.buildMessage P request' →
          poc.parentHash = poc'.parentHash ∧ poc.challenge = poc'.challenge ∧
            request = request' ∧ poc.characteristicProof = poc'.characteristicProof := by
  intro hall
  obtain ⟨P, hchallenge, hrequest, _⟩ := exists_encoders fun _ => []
  have hproof := hall P _ hchallenge hrequest (bareProof (.timestamp 1 5) none)
    (bareProof (.timestamp 1 5) (some [])) emptyRequest emptyRequest rfl
  exact absurd hproof.2.2.2 (by decide)

end Messages

end AmlaSandbox.Protocol
