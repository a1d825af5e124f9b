import AmlaSandbox.Protocol.Continuity
import AmlaSandbox.Protocol.Pca
import Mathlib.Tactic.IntervalCases

/-!
# Decoding a PCA

The wire form of a PCA, and how it is read back. The decoder checks the capability keys again, but
not that the root hash goes with a parent.
-/

namespace AmlaSandbox.Protocol

open Library

/-! ### Hexadecimal -/

inductive FromHexError
  | invalidHexCharacter (c : Char) (index : ℕ)
  | oddLength
  | invalidStringLength
deriving DecidableEq

/-- The protocol errors that decoding a PCA can return. -/
inductive DecodeError
  | invalidKeyLength (expected got : ℕ)
  | invalidSignatureLength (got : ℕ)
  | invalidHashLength (got : ℕ)
  | invalidHex (e : FromHexError)
  | invalidAlgorithm (name : String)
  | invalidKeyFormat (message : String)
  | cborDeserialize (message : String)
  | pca (e : Error)
deriving DecidableEq

/-- The value of a digit, in either case. -/
def hexVal (c : UInt8) (index : ℕ) : Except FromHexError UInt8 :=
  if 65 ≤ c ∧ c ≤ 70 then .ok (c - 65 + 10)
  else if 97 ≤ c ∧ c ≤ 102 then .ok (c - 97 + 10)
  else if 48 ≤ c ∧ c ≤ 57 then .ok (c - 48)
  else .error (.invalidHexCharacter (Char.ofNat c.toNat) index)

/-- The loop of `hex::decode_to_slice`. -/
def hexPairs (index : ℕ) : Bytes → Except FromHexError Bytes
  | high :: low :: rest => do
    let high ← hexVal high index
    let low ← hexVal low (index + 1)
    let bytes ← hexPairs (index + 2) rest
    return (high <<< 4 ||| low) :: bytes
  | _ => .ok []

/-- `hex::decode_to_slice` into an array. -/
def decodeToSlice (data : Bytes) (n : ℕ) : Except FromHexError (Vector UInt8 n) := do
  failIf (data.length % 2 ≠ 0) .oddLength
  failIf (data.length / 2 ≠ n) .invalidStringLength
  let bytes ← hexPairs 0 data
  return .ofFn fun i => bytes.getD i 0

lemma utf8_ofList (cs : List Char) :
    utf8 (String.ofList cs) = cs.flatMap String.utf8EncodeChar := by
  simp [utf8, String.ofList, List.utf8Encode]

lemma utf8_digitChar {n : ℕ} (h : n < 16) :
    String.utf8EncodeChar n.digitChar = [UInt8.ofNat n.digitChar.toNat] := by
  interval_cases n <;> rfl

lemma hexVal_digitChar {n : ℕ} (h : n < 16) (index : ℕ) :
    hexVal (UInt8.ofNat n.digitChar.toNat) index = .ok (UInt8.ofNat n) := by
  interval_cases n <;> rfl

/-- A byte is put together from its halves. -/
lemma shiftLeft_or_eq (b : UInt8) :
    UInt8.ofNat (b.toNat / 16) <<< 4 ||| UInt8.ofNat (b.toNat % 16) = b := by
  have hall : ∀ n : Fin 256, UInt8.ofNat (n / 16 : ℕ) <<< 4 ||| UInt8.ofNat (n % 16 : ℕ) =
      UInt8.ofNat n := by decide +kernel
  simpa using hall ⟨b.toNat, b.toNat_lt⟩

/-- The bytes of the two digits of a byte. -/
def digits (b : UInt8) : Bytes :=
  [UInt8.ofNat (b.toNat / 16).digitChar.toNat, UInt8.ofNat (b.toNat % 16).digitChar.toNat]

lemma utf8_hexEncode (bytes : Bytes) : utf8 (hexEncode bytes) = bytes.flatMap digits := by
  rw [hexEncode, utf8_ofList, List.flatMap_assoc]
  refine List.flatMap_congr fun b _ => ?_
  have hhigh : b.toNat / 16 < 16 := by have := b.toNat_lt; omega
  have hlow : b.toNat % 16 < 16 := Nat.mod_lt _ (by decide)
  simp [digits, utf8_digitChar hhigh, utf8_digitChar hlow]

lemma hexPairs_digits (bytes : Bytes) (index : ℕ) :
    hexPairs index (bytes.flatMap digits) = .ok bytes := by
  induction bytes generalizing index with
  | nil => rfl
  | cons b bytes ih =>
    have hhigh : b.toNat / 16 < 16 := by have := b.toNat_lt; omega
    have hlow : b.toNat % 16 < 16 := Nat.mod_lt _ (by decide)
    simp only [List.flatMap_cons, digits, List.cons_append, List.nil_append, hexPairs,
      hexVal_digitChar hhigh, hexVal_digitChar hlow, bind, Except.bind, pure, Except.pure]
    rw [ih, shiftLeft_or_eq]

lemma length_digits (bytes : Bytes) : (bytes.flatMap digits).length = 2 * bytes.length := by
  induction bytes with
  | nil => rfl
  | cons b bytes ih => simp [digits, ih]; omega

/-- What was written in hexadecimal is read back. -/
lemma decodeToSlice_hexEncode {n : ℕ} (bytes : Vector UInt8 n) :
    decodeToSlice (utf8 (hexEncode bytes.toList)) n = .ok bytes := by
  have hlength : (bytes.toList.flatMap digits).length = 2 * n := by
    rw [length_digits, Vector.length_toList]
  have heven : ¬ (2 * n % 2 ≠ 0) := by omega
  have hhalf : ¬ (2 * n / 2 ≠ n) := by omega
  rw [utf8_hexEncode, decodeToSlice, hexPairs_digits, hlength, failIf, if_neg heven, failIf,
    if_neg hhalf]
  refine congrArg Except.ok (Vector.ext fun i hi => ?_)
  simp

/-! ### Keys, signatures and hashes -/

/-- `s.split_once(c)` -/
def splitOnce (s : String) (c : Char) : Option (String × String) :=
  let before := s.toList.takeWhile (· ≠ c)
  match s.toList.drop before.length with
  | _ :: after => some (String.ofList before, String.ofList after)
  | [] => none

def Algorithm.parse (s : String) : Except DecodeError Algorithm :=
  if s = "ed25519" then .ok .ed25519 else .error (.invalidAlgorithm s)

/-- The `n` bytes behind the prefix of an algorithm. -/
def fromPrefixedHex (n : ℕ) (wrongLength : ℕ → DecodeError) (s : String) :
    Except DecodeError (Vector UInt8 n) := do
  let (algoStr, hexBytes) ← okOr (splitOnce s ':') (.invalidKeyFormat "missing algorithm prefix")
  match ← Algorithm.parse algoStr with
  | .ed25519 =>
    failIf ((utf8 hexBytes).length % 2 ≠ 0)
      (.invalidKeyFormat "hex string must have even length")
    failIf ((utf8 hexBytes).length ≠ 2 * n) (wrongLength ((utf8 hexBytes).length / 2))
    (decodeToSlice (utf8 hexBytes) n).mapError .invalidHex

def PublicKey.fromHex (s : String) : Except DecodeError PublicKey :=
  (fromPrefixedHex 32 (.invalidKeyLength 32) s).map .ed25519

def Signature.fromHex (s : String) : Except DecodeError Signature :=
  (fromPrefixedHex 64 .invalidSignatureLength s).map .ed25519

def Signature.toHex (signature : Signature) : String :=
  match signature with
  | .ed25519 bytes => signature.algorithm.asStr ++ ":" ++ hexEncode bytes.toList

def PcaHash.fromHex (s : String) : Except DecodeError PcaHash := do
  failIf ((utf8 s).length ≠ 64) (.invalidHashLength ((utf8 s).length / 2))
  let bytes ← (decodeToSlice (utf8 s) 32).mapError .invalidHex
  return ⟨bytes⟩

lemma splitOnce_append (before after : List Char) {c : Char} (h : c ∉ before) :
    splitOnce (String.ofList (before ++ c :: after)) c =
      some (String.ofList before, String.ofList after) := by
  have htake : (before ++ c :: after).takeWhile (· ≠ c) = before := by
    rw [List.takeWhile_append_of_pos]
    · simp
    · intro d hd
      have hne : d ≠ c := fun heq => h (heq ▸ hd)
      simpa using hne
  simp only [splitOnce, String.toList_ofList, htake, List.drop_left]

lemma length_utf8_hexEncode (bytes : Bytes) :
    (utf8 (hexEncode bytes)).length = 2 * bytes.length := by
  rw [utf8_hexEncode, length_digits]

lemma fromPrefixedHex_eq {n : ℕ} (wrongLength : ℕ → DecodeError) (bytes : Vector UInt8 n) :
    fromPrefixedHex n wrongLength (Algorithm.ed25519.asStr ++ ":" ++ hexEncode bytes.toList) =
      .ok bytes := by
  have hsplit : splitOnce (Algorithm.ed25519.asStr ++ ":" ++ hexEncode bytes.toList) ':' =
      some ("ed25519", hexEncode bytes.toList) := by
    have heq : Algorithm.ed25519.asStr ++ ":" ++ hexEncode bytes.toList =
        String.ofList ("ed25519".toList ++ ':' :: (hexEncode bytes.toList).toList) := by
      apply String.toList_inj.mp
      simp [Algorithm.asStr]
    rw [heq, splitOnce_append _ _ (by decide)]
    simp
  have hlength : (utf8 (hexEncode bytes.toList)).length = 2 * n := by
    rw [length_utf8_hexEncode, Vector.length_toList]
  have heven : ¬ (2 * n % 2 ≠ 0) := by omega
  simp only [fromPrefixedHex, hsplit, okOr, bind, Except.bind, Algorithm.parse, if_true, hlength,
    failIf, if_neg heven, ne_eq, not_true_eq_false, if_false, decodeToSlice_hexEncode,
    Except.mapError]

lemma PublicKey.fromHex_toHex (key : PublicKey) : PublicKey.fromHex key.toHex = .ok key := by
  cases key with
  | ed25519 bytes => exact congrArg (Except.map _) (fromPrefixedHex_eq _ bytes)

lemma Signature.fromHex_toHex (signature : Signature) :
    Signature.fromHex signature.toHex = .ok signature := by
  cases signature with
  | ed25519 bytes => exact congrArg (Except.map _) (fromPrefixedHex_eq _ bytes)

lemma PcaHash.fromHex_toHex (hash : PcaHash) : PcaHash.fromHex hash.toHex = .ok hash := by
  have hlength : (utf8 (hexEncode hash.bytes.toList)).length = 64 := by
    rw [length_utf8_hexEncode, Vector.length_toList]
  simp only [PcaHash.fromHex, PcaHash.toHex, hlength, failIf, ne_eq, not_true_eq_false, if_false,
    decodeToSlice_hexEncode, Except.mapError, bind, Except.bind, pure, Except.pure]

/-! ### Wires -/

/-- Wire format of a full PCA. -/
structure PcaWire where
  signable : PcaSignable
  signature : String

/-- What decoding takes from libraries: CBOR and the reader of RFC 3339 times. -/
structure WireCodec where
  encode : PcaWire → Except String Bytes
  decode : Bytes → Except String PcaWire
  parseRfc3339 : String → Except String DateTime

variable {P : Primitives} {C : WireCodec} {pca : Pca} {wire : PcaWire} {data : Bytes}

namespace Pca

def toWire (P : Primitives) (pca : Pca) : PcaWire where
  signable := buildSignable P pca.version pca.capabilities pca.designatedExecutor pca.prevHash
    pca.rootHash pca.expiresAt pca.issuer pca.payload
  signature := pca.signature.toHex

/-- Serialize to CBOR wire format, which includes the signature. -/
def toCbor (P : Primitives) (C : WireCodec) (pca : Pca) : Except Error Bytes :=
  (C.encode (pca.toWire P)).mapError .cborSerialize

/-- A hash that may be absent. -/
def hashFromHex : Option String → Except DecodeError (Option PcaHash)
  | none => .ok none
  | some s => (PcaHash.fromHex s).map some

/-- Create from wire format. -/
def fromWire (C : WireCodec) (wire : PcaWire) : Except DecodeError Pca := do
  (rejectDuplicateKeys wire.signable.capabilities).mapError .pca
  let prevHash ← hashFromHex wire.signable.prevHash
  let rootHash ← hashFromHex wire.signable.rootHash
  let expiresAt ← (C.parseRfc3339 wire.signable.expiresAt).mapError fun e =>
    .pca (.invalidPca ("invalid expires_at: " ++ e))
  let issuer ← PublicKey.fromHex wire.signable.issuer
  let signature ← Signature.fromHex wire.signature
  return {
    version := ⟨wire.signable.version.1, wire.signable.version.2⟩
    capabilities := wire.signable.capabilities
    designatedExecutor := wire.signable.designatedExecutor
    prevHash, rootHash, expiresAt, issuer, signature, payload := wire.signable.payload }

/-- Deserialize from CBOR. -/
def fromCbor (C : WireCodec) (data : Bytes) : Except DecodeError Pca := do
  let wire ← (C.decode data).mapError .cborDeserialize
  fromWire C wire

/-- What the builder sees to: the keys are distinct, and the root hash goes with a parent. -/
structure WellBuilt (pca : Pca) : Prop where
  nodup : pca.keys.Nodup
  paired : pca.rootHash.isSome ↔ pca.prevHash.isSome

/-- The PCA is encoded, and read back with all its fields. -/
def RoundTrips (P : Primitives) (C : WireCodec) (pca : Pca) : Prop :=
  ∃ data, pca.toCbor P C = .ok data ∧ fromCbor C data = .ok pca

end Pca

/-- The instant lies in the years 0 to 9999 of the Gregorian calendar. -/
def FourDigitYear (time : DateTime) : Prop :=
  -62167219200 * 10 ^ 9 ≤ time ∧ time < 253402300800 * 10 ^ 9

/-- The root hash of a wire goes with the hash of a parent. -/
def PcaWire.Paired (wire : PcaWire) : Prop :=
  wire.signable.rootHash.isSome ↔ wire.signable.prevHash.isSome

/-- What the libraries document: CBOR writes every wire and reads it back, and RFC 3339 has room for
years of four digits and no others. -/
structure WireCodec.Documented (C : WireCodec) (P : Primitives) : Prop where
  encode : ∀ wire, ∃ data, C.encode wire = .ok data
  decode : ∀ wire data, C.encode wire = .ok data → C.decode data = .ok wire
  reads : ∀ time, FourDigitYear time → C.parseRfc3339 (P.toRfc3339 time) = .ok time
  refuses : ∀ time, ¬ FourDigitYear time → ∃ e, C.parseRfc3339 (P.toRfc3339 time) = .error e

/-! ### Reading wires -/

namespace Pca

lemma hashFromHex_toHex (hash : Option PcaHash) :
    hashFromHex (hash.map PcaHash.toHex) = .ok hash := by
  cases hash with
  | none => rfl
  | some hash => exact congrArg (Except.map _) hash.fromHex_toHex

lemma isSome_of_hashFromHex {s : Option String} {hash : Option PcaHash}
    (h : hashFromHex s = .ok hash) : hash.isSome = s.isSome := by
  cases s with
  | none =>
    cases h
    rfl
  | some s =>
    rw [hashFromHex] at h
    cases hdecoded : PcaHash.fromHex s with
    | error e =>
      rw [hdecoded] at h
      cases h
    | ok decoded =>
      rw [hdecoded] at h
      cases h
      rfl

/-- What an accepted wire and the PCA read from it have in common. -/
lemma of_fromWire (h : fromWire C wire = .ok pca) :
    pca.keys.Nodup ∧ pca.prevHash.isSome = wire.signable.prevHash.isSome ∧
      pca.rootHash.isSome = wire.signable.rootHash.isSome := by
  simp only [fromWire, bind_eq_ok, exists_unit, mapError_eq_ok, rejectDuplicateKeys_eq_ok, pure,
    Except.pure, Except.ok.injEq] at h
  obtain ⟨hnodup, prevHash, hprev, rootHash, hroot, _, _, _, _, _, _, rfl⟩ := h
  exact ⟨hnodup, isSome_of_hashFromHex hprev, isSome_of_hashFromHex hroot⟩

/-- Of what the decoder checks, only the expiry time can differ in the wire of a PCA with distinct
keys. -/
lemma fromWire_toWire (h : pca.keys.Nodup) :
    fromWire C (pca.toWire P) =
      ((C.parseRfc3339 (P.toRfc3339 pca.expiresAt)).mapError fun e =>
        .pca (.invalidPca ("invalid expires_at: " ++ e))).map
          fun time => { pca with expiresAt := time } := by
  have hkeys : rejectDuplicateKeys pca.capabilities = .ok () := rejectDuplicateKeys_eq_ok.mpr h
  simp only [fromWire, toWire, buildSignable, hkeys, hashFromHex_toHex, Signature.fromHex_toHex,
    PublicKey.fromHex_toHex, bind, Except.bind, pure, Except.pure]
  cases C.parseRfc3339 (P.toRfc3339 pca.expiresAt) <;> rfl

/-- An accepted wire is as the builder would have it if its hashes go together. -/
lemma wellBuilt_iff (h : fromWire C wire = .ok pca) : pca.WellBuilt ↔ wire.Paired := by
  obtain ⟨hnodup, hprev, hroot⟩ := of_fromWire h
  rw [PcaWire.Paired, ← hprev, ← hroot]
  exact ⟨WellBuilt.paired, fun hpaired => ⟨hnodup, hpaired⟩⟩

lemma roundTrips_iff (hcodec : C.Documented P) (h : pca.keys.Nodup) :
    pca.RoundTrips P C ↔ FourDigitYear pca.expiresAt := by
  obtain ⟨data, hdata⟩ := hcodec.encode (pca.toWire P)
  have hencoded : pca.toCbor P C = .ok data := by
    rw [toCbor, hdata]
    rfl
  have hdecoded : fromCbor C data = fromWire C (pca.toWire P) := by
    rw [fromCbor, hcodec.decode _ _ hdata]
    rfl
  constructor
  · rintro ⟨data', hencoded', hback⟩
    obtain rfl := Except.ok.inj (hencoded.symm.trans hencoded')
    by_contra hyear
    obtain ⟨e, he⟩ := hcodec.refuses _ hyear
    rw [hdecoded, fromWire_toWire h, he] at hback
    cases hback
  · intro hyear
    refine ⟨data, hencoded, ?_⟩
    rw [hdecoded, fromWire_toWire h, hcodec.reads _ hyear]
    rfl

end Pca

open PcaBuilder in
/-- A built PCA is read back just when its expiry time has a year of four digits, and an accepted
wire meets the rules of the builder just when its hashes go together. -/
theorem decoding_iff (hcodec : C.Documented P) :
    (∀ (builder : PcaBuilder) (issuer : KeyPair P) pca, builder.buildAndSign issuer = .ok pca →
      (pca.RoundTrips P C ↔ FourDigitYear pca.expiresAt)) ∧
    (∀ wire pca, Pca.fromWire C wire = .ok pca → (pca.WellBuilt ↔ wire.Paired)) ∧
    (∀ data pca, Pca.fromCbor C data = .ok pca →
      (pca.WellBuilt ↔ ∃ wire, C.decode data = .ok wire ∧ wire.Paired)) := by
  refine ⟨fun builder issuer pca hbuild => ?_, fun wire pca h => Pca.wellBuilt_iff h, ?_⟩
  · exact Pca.roundTrips_iff hcodec (built_of_buildAndSign hbuild).nodup
  · intro data pca h
    rw [Pca.fromCbor, bind_eq_ok] at h
    obtain ⟨wire, hdecode, hwire⟩ := h
    rw [mapError_eq_ok] at hdecode
    rw [Pca.wellBuilt_iff hwire, hdecode]
    simp

/-! ### A PCA that expires at the epoch -/

instance countable_uint32 : Countable UInt32 :=
  Function.Injective.countable (f := UInt32.toNat) fun _ _ => UInt32.toNat_inj.mp

deriving instance Countable for PcaSignable
deriving instance Countable for PcaWire

def zeroKey : PublicKey := .ed25519 (.replicate 32 0)

def epochText : String := "1970-01-01T00:00:00+00:00"

def epochCapability : CapabilityData := ⟨"cap:call", "function", [0xa0]⟩

/-- A root PCA that expires at the epoch, signed by zeros. -/
def epochPca : Pca where
  version := ⟨0, 1⟩
  capabilities := [epochCapability]
  designatedExecutor := .publicKey zeroKey
  prevHash := none
  rootHash := none
  expiresAt := 0
  issuer := zeroKey
  signature := .ed25519 (.replicate 64 0)
  payload := none

def epochWire : PcaWire where
  signable :=
    { version := (0, 1), capabilities := [epochCapability], designatedExecutor := .publicKey zeroKey
      prevHash := none, rootHash := none, expiresAt := epochText, issuer := zeroKey.toHex
      payload := none }
  signature := epochPca.signature.toHex

/-- The bytes of that wire, a map of which the length is not announced. -/
def epochBytes : Bytes :=
  0xbf :: (CborValue.encodeEntries (fun _ => [])
    [(.text "version", .array [.integer 0, .integer 1]),
      (.text "capabilities", .array [.map [(.text "key", .text "cap:call"),
        (.text "type", .text "function"), (.text "data", .bytes [0xa0])]]),
      (.text "designated_executor", .map [(.text "type", .text "pubkey"),
        (.text "value", .array [.integer 0, .bytes (List.replicate 32 0)])]),
      (.text "expires_at", .text epochText), (.text "issuer", .text zeroKey.toHex),
      (.text "signature", .text epochPca.signature.toHex)] ++ [0xff])

/-- Primitives that print times by a given code. -/
def Primitives.printing (code : DateTime → List Char) : Primitives :=
  { Primitives.transparent with toRfc3339 := fun time => String.ofList (code time) }

/-- Libraries that do as they document, and on that wire as they really do. -/
lemma exists_documented : ∃ (code : DateTime → List Char) (C : WireCodec),
    C.Documented (.printing code) ∧ code 0 = epochText.toList ∧
      C.encode epochWire = .ok epochBytes := by
  classical
  obtain ⟨print, hprint, hepoch⟩ := exists_selfDelimiting 'x' 'y' '1' (by decide) (by decide)
    (by decide) (0 : DateTime) "970-01-01T00:00:00+00:00".toList
  obtain ⟨code, hcode, hwire⟩ := exists_selfDelimiting (0 : UInt8) 1 0xbf (by decide) (by decide)
    (by decide) epochWire epochBytes.tail
  have hread : ∀ time time', String.ofList (print time) = String.ofList (print time') →
      time = time' := fun time time' h => hprint.injective (String.ofList_injective h)
  refine ⟨print, ⟨fun wire => .ok (code wire),
    fun data => if h : ∃ wire, code wire = data then .ok h.choose else .error "",
    fun s => if h : ∃ time, FourDigitYear time ∧ String.ofList (print time) = s then .ok h.choose
      else .error ""⟩, ⟨fun wire => ⟨_, rfl⟩, ?_, ?_, ?_⟩, ?_, ?_⟩
  · rintro wire _ ⟨⟩
    have hexists : ∃ wire', code wire' = code wire := ⟨wire, rfl⟩
    simp only [hexists, dif_pos]
    rw [hcode.injective hexists.choose_spec]
  · intro time hyear
    have hexists : ∃ time', FourDigitYear time' ∧
        String.ofList (print time') = String.ofList (print time) := ⟨time, hyear, rfl⟩
    show (if h : ∃ time', FourDigitYear time' ∧
      String.ofList (print time') = String.ofList (print time) then Except.ok h.choose
        else Except.error "") = Except.ok time
    rw [dif_pos hexists, hread _ _ hexists.choose_spec.2]
  · intro time hyear
    refine ⟨"", dif_neg ?_⟩
    rintro ⟨time', hyear', heq⟩
    exact hyear (hread _ _ heq ▸ hyear')
  · rw [hepoch]
    rfl
  · exact congrArg Except.ok hwire

/-- The PCA is built, and its bytes are read back. -/
theorem decoding_iff_epoch : ∃ (P : Primitives) (C : WireCodec) (builder : PcaBuilder)
    (issuer : KeyPair P), builder.buildAndSign issuer = .ok epochPca ∧
      epochPca.toCbor P C = .ok epochBytes ∧ epochPca.RoundTrips P C := by
  obtain ⟨code, C, hcodec, hepoch, hbytes⟩ := exists_documented
  have hbuild : PcaBuilder.buildAndSign ⟨some ⟨0, 1⟩, [epochCapability], some (.publicKey zeroKey),
      none, none, some 0, none⟩ (KeyPair.ed25519 (P := .printing code) (Vector.replicate 32 0)) =
        .ok epochPca := by
    have hzeros : Primitives.transparent.sign (Vector.replicate 32 (0 : UInt8)) [] =
        Vector.replicate 64 (0 : UInt8) := by decide +kernel
    have hsign : KeyPair.sign (KeyPair.ed25519 (P := .printing code) (Vector.replicate 32 0)) [] =
        .ed25519 (.replicate 64 0) := congrArg Signature.ed25519 hzeros
    have hencode : ∀ signable : PcaSignable, signable.payload = none →
        canonicalCborEncode (.printing code) signable = .ok [] := fun signable hnone =>
      congrArg (fun payload : Option Bytes => Except.ok (payload.getD [])) hnone
    simp only [PcaBuilder.buildAndSign, bind_eq_ok, exists_unit, okOr_eq_ok, failIf_eq_ok,
      rejectDuplicateKeys_eq_ok, pure, Except.pure, Except.ok.injEq, List.isEmpty_iff]
    refine ⟨_, rfl, by simp, by decide, _, rfl, _, rfl, none, rfl, [], hencode _ rfl, ?_⟩
    rw [hsign]
    rfl
  have htime : (Primitives.printing code).toRfc3339 0 = epochText := by
    show String.ofList (code 0) = epochText
    rw [hepoch, String.ofList_toList]
  have hwire : epochPca.toWire (.printing code) = epochWire := by
    rw [Pca.toWire, buildSignable, show epochPca.expiresAt = 0 from rfl, htime]
    rfl
  refine ⟨_, C, _, _, hbuild, ?_, ?_⟩
  · rw [Pca.toCbor, hwire, hbytes]
    rfl
  · exact ((decoding_iff hcodec).1 _ _ _ hbuild).mpr ⟨by decide, by decide⟩

/-- The PCA with a root hash, but no parent. -/
def strayPca : Pca := { epochPca with rootHash := some ⟨.replicate 32 0⟩ }

/-- The wire of that PCA is accepted. -/
theorem not_decoding_strayRoot : ¬ ∀ (P : Primitives) (C : WireCodec), C.Documented P →
    (∀ (builder : PcaBuilder) (issuer : KeyPair P) pca, builder.buildAndSign issuer = .ok pca →
      pca.RoundTrips P C) ∧
    ∀ wire pca, Pca.fromWire C wire = .ok pca → pca.WellBuilt := by
  intro hall
  obtain ⟨code, C, hcodec, _, _⟩ := exists_documented
  have hkeys : strayPca.keys.Nodup := by decide
  have htime : C.parseRfc3339 ((Primitives.printing code).toRfc3339 strayPca.expiresAt) =
      .ok strayPca.expiresAt := hcodec.reads _ ⟨by decide, by decide⟩
  have hread : Pca.fromWire C (strayPca.toWire (.printing code)) = .ok strayPca := by
    rw [Pca.fromWire_toWire hkeys, htime]
    rfl
  exact absurd ((hall _ C hcodec).2 _ _ hread).paired (by decide)

end AmlaSandbox.Protocol
