import FastSigner.Lib.Frames
import FastSigner.Basic

/-!
# The APK Signing Block

Encoders for the v2 and v3 scheme blocks and for the block around them, and a
decoder that follows the reference verifier: walk the pairs between the two size
fields, take the value of a scheme, and descend through the length-prefixed
levels to the list of digests.

`decodeDigests_v2` and `decodeDigests_v3` say that the decoder finds exactly the
digest that was encoded, as long as the block is below 4 GiB, and `sigBlock_layout`
that both size fields and the magic stand where `zip::parse` looks for them.
-/

namespace FastSigner.SigBlock

open Lib

def v2BlockId : Nat := 0x7109871a
def v3BlockId : Nat := 0xf05368c0
def verityPaddingBlockId : Nat := 0x42726577
def strippingProtectionAttrId : Nat := 0xbeeff00d
def schemeV3Version : Nat := 3
def pageAlignment : Nat := 4096
def apkSigningBlockMagic : Bytes := ascii "APK Sig Block 42"
def v3MinSdk : Nat := 24
def v3MaxSdk : Nat := 0x7fffffff

structure SignerInput where
  algId : UInt32
  digest : Bytes
  certs : List Bytes
  spki : Bytes

def putU32 (x : Nat) : Bytes := leBytes 4 x

def putLp (b : Bytes) : Bytes := putU32 b.length ++ b

def seqLp (items : List Bytes) : Bytes := items.flatMap putLp

/-- Repeated `{ u32 len; u32 id; u32 value_len; value }`. -/
def seqLpPairs (pairs : List (Nat × Bytes)) : Bytes :=
  pairs.flatMap fun p => putU32 (8 + p.2.length) ++ putU32 p.1 ++ putLp p.2

def v2AdditionalAttributes (v3Enabled : Bool) : Bytes :=
  if v3Enabled then putU32 8 ++ putU32 strippingProtectionAttrId ++ putU32 schemeV3Version else []

/-- The bytes that a v2 signature signs. -/
def v2SignedData (inp : SignerInput) (v3Enabled : Bool) : Bytes :=
  let digests := seqLpPairs [(inp.algId.toNat, inp.digest)]
  let certs := seqLp inp.certs
  let attrs := v2AdditionalAttributes v3Enabled
  seqLp [digests, certs, attrs, []]

def v2Signer (inp : SignerInput) (v3Enabled : Bool) (sign : Bytes → Except Error Bytes) :
    Except Error Bytes := do
  let signedData := v2SignedData inp v3Enabled
  let signature ← sign signedData
  let signatures := seqLpPairs [(inp.algId.toNat, signature)]
  .ok (seqLp [signedData, signatures, inp.spki])

/-- The bytes that a v3 signature signs. -/
def v3SignedData (inp : SignerInput) (minSdk maxSdk : Nat) : Bytes :=
  let digests := seqLpPairs [(inp.algId.toNat, inp.digest)]
  let certs := seqLp inp.certs
  putLp digests ++ putLp certs ++ putU32 minSdk ++ putU32 maxSdk ++ putLp []

def v3Signer (inp : SignerInput) (minSdk maxSdk : Nat) (sign : Bytes → Except Error Bytes) :
    Except Error Bytes := do
  let signedData := v3SignedData inp minSdk maxSdk
  let signature ← sign signedData
  let signatures := seqLpPairs [(inp.algId.toNat, signature)]
  .ok (putLp signedData ++ putU32 minSdk ++ putU32 maxSdk ++ putLp signatures ++ putLp inp.spki)

def schemeBlock (signers : List Bytes) : Bytes := seqLp [seqLp signers]

def unpaddedSize (pairs : List (Nat × Bytes)) : Nat :=
  8 + 8 + 16 + (pairs.map fun p => 8 + 4 + p.2.length).sum

def signingBlockSize (pairs : List (Nat × Bytes)) : Nat :=
  let size := unpaddedSize pairs
  if size % pageAlignment ≠ 0 then
    let pad := pageAlignment - size % pageAlignment
    size + if pad < 12 then pad + pageAlignment else pad
  else size

def putPair (p : Nat × Bytes) : Bytes := leBytes 8 (4 + p.2.length) ++ putU32 p.1 ++ p.2

def apkSigningBlock (pairs : List (Nat × Bytes)) : Bytes :=
  let total := signingBlockSize pairs
  let sizeField := leBytes 8 (total - 8)
  let v := sizeField ++ pairs.flatMap putPair
  let used := v.length + 8 + 16
  let padding := if used < total then
      let pad := total - used
      leBytes 8 (pad - 8) ++ putU32 verityPaddingBlockId ++ List.replicate (pad - 12) 0
    else []
  v ++ padding ++ sizeField ++ apkSigningBlockMagic

/-- Zeros before the block, so that it starts on a 4096 boundary. -/
def paddingBeforeBlock (entriesEnd : Nat) : Nat :=
  (pageAlignment - entriesEnd % pageAlignment) % pageAlignment

/-! ### The decoder -/

def splitPair (b : Bytes) : Option (Nat × Bytes) :=
  if 4 ≤ b.length then some (u32le b 0, b.drop 4) else none

/-- The pairs between the leading size field and the trailing one. -/
def blockPairs (block : Bytes) : Option (List (Nat × Bytes)) := do
  let bodies ← unframes 8 (slice block 8 (block.length - 24))
  bodies.mapM splitPair

def splitDigest (b : Bytes) : Option (Nat × Bytes) := do
  let (alg, rest) ← splitPair b
  let (digest, _) ← unframe 4 rest
  some (alg, digest)

/-- The digests of the first signer of a scheme block. -/
def embeddedDigests (value : Bytes) : Option (List (Nat × Bytes)) := do
  let (signers, _) ← unframe 4 value
  let (signer, _) ← unframe 4 signers
  let (signedData, _) ← unframe 4 signer
  let (digests, _) ← unframe 4 signedData
  let items ← unframes 4 digests
  items.mapM splitDigest

/-- The digests of the scheme with this id, if the block holds it exactly once. -/
def decodeDigests (block : Bytes) (id : Nat) : Option (List (Nat × Bytes)) := do
  let pairs ← blockPairs block
  match pairs.filter (·.1 == id) with
  | [p] => embeddedDigests p.2
  | _ => none

/-! ### Sizes -/

theorem putLp_eq (b : Bytes) : putLp b = frame 4 b := rfl

theorem seqLp_eq (items : List Bytes) : seqLp items = frames 4 items := rfl

theorem putPair_eq (p : Nat × Bytes) : putPair p = frame 8 (putU32 p.1 ++ p.2) := by
  rw [putPair, frame, List.append_assoc, putU32, List.length_append, length_leBytes]

theorem seqLpPairs_singleton (id : Nat) (b : Bytes) :
    seqLpPairs [(id, b)] = frames 4 [putU32 id ++ frame 4 b] := by
  have hlen : (putU32 id ++ frame 4 b).length = 8 + b.length := by
    rw [List.length_append, length_frame, putU32, length_leBytes]
    omega
  rw [seqLpPairs, frames, List.flatMap_singleton, List.flatMap_singleton, putLp_eq,
    List.append_assoc, ← hlen]
  rfl

theorem length_flatMap_putPair (pairs : List (Nat × Bytes)) :
    (pairs.flatMap putPair).length = (pairs.map fun p => 8 + 4 + p.2.length).sum := by
  rw [List.length_flatMap]
  congr 1
  apply List.map_congr_left
  intro p _
  rw [putPair_eq, length_frame, List.length_append, putU32, length_leBytes]
  omega

/-- The gap that the padding pair fills: none, or room for its length and id. -/
theorem signingBlockSize_cases (pairs : List (Nat × Bytes)) :
    signingBlockSize pairs % pageAlignment = 0 ∧
      (signingBlockSize pairs = unpaddedSize pairs ∨
        unpaddedSize pairs + 12 ≤ signingBlockSize pairs) := by
  have hpage : pageAlignment = 4096 := rfl
  rw [signingBlockSize]
  by_cases hz : unpaddedSize pairs % pageAlignment = 0
  · simp only [hz, ne_eq, not_true_eq_false, if_false]
    simp
  · by_cases hp : pageAlignment - unpaddedSize pairs % pageAlignment < 12
    · simp only [hz, hp, ne_eq, not_false_eq_true, if_true]
      rw [hpage] at hz hp ⊢
      omega
    · simp only [hz, hp, ne_eq, not_false_eq_true, if_true, if_false]
      rw [hpage] at hz hp ⊢
      omega

theorem unpaddedSize_le (pairs : List (Nat × Bytes)) :
    unpaddedSize pairs ≤ signingBlockSize pairs := by
  have := signingBlockSize_cases pairs
  omega

def storedPairs (pairs : List (Nat × Bytes)) : List (Nat × Bytes) :=
  if unpaddedSize pairs < signingBlockSize pairs then
    pairs ++ [(verityPaddingBlockId,
      List.replicate (signingBlockSize pairs - unpaddedSize pairs - 12) 0)]
  else pairs

/-- **The block is its pairs between two size fields, and the magic.** -/
theorem apkSigningBlock_eq (pairs : List (Nat × Bytes)) :
    apkSigningBlock pairs = leBytes 8 (signingBlockSize pairs - 8)
      ++ (storedPairs pairs).flatMap putPair ++ leBytes 8 (signingBlockSize pairs - 8)
      ++ apkSigningBlockMagic := by
  have hused : (leBytes 8 (signingBlockSize pairs - 8) ++ pairs.flatMap putPair).length + 8 + 16
      = unpaddedSize pairs := by
    rw [List.length_append, length_leBytes, length_flatMap_putPair, unpaddedSize]
    omega
  rw [apkSigningBlock]
  simp only [hused]
  rw [storedPairs]
  obtain ⟨-, h⟩ := signingBlockSize_cases pairs
  split
  · have hlen : signingBlockSize pairs - unpaddedSize pairs - 8
        = 4 + (List.replicate (signingBlockSize pairs - unpaddedSize pairs - 12)
            (0 : UInt8)).length := by
      rw [List.length_replicate]
      omega
    rw [List.flatMap_append, List.flatMap_singleton, putPair, ← hlen]
    simp only [List.append_assoc]
  · simp only [List.append_nil]

theorem length_storedPairs (pairs : List (Nat × Bytes)) :
    ((storedPairs pairs).flatMap putPair).length + 32 = signingBlockSize pairs := by
  have h := signingBlockSize_cases pairs
  have hu : unpaddedSize pairs = 32 + (pairs.map fun p => 8 + 4 + p.2.length).sum := rfl
  rw [storedPairs]
  split
  · rw [List.flatMap_append, List.length_append, length_flatMap_putPair,
      length_flatMap_putPair, List.map_singleton, List.sum_singleton, List.length_replicate]
    omega
  · rw [length_flatMap_putPair]
    omega

theorem length_magic : apkSigningBlockMagic.length = 16 := by decide

theorem length_apkSigningBlock (pairs : List (Nat × Bytes)) :
    (apkSigningBlock pairs).length = signingBlockSize pairs := by
  have h := length_storedPairs pairs
  rw [apkSigningBlock_eq]
  simp only [List.length_append, length_leBytes, length_magic]
  omega

/-- **Size fields and magic stand where the parser looks for them.** -/
theorem sigBlock_layout {pairs : List (Nat × Bytes)} (h : signingBlockSize pairs < 2 ^ 64) :
    let B := apkSigningBlock pairs
    B.length % pageAlignment = 0 ∧ 32 ≤ B.length ∧ u64le B 0 = B.length - 8 ∧
      u64le B (B.length - 24) = B.length - 8 ∧
      slice B (B.length - 16) B.length = apkSigningBlockMagic := by
  intro B
  have hlen : B.length = signingBlockSize pairs := length_apkSigningBlock pairs
  have hstored := length_storedPairs pairs
  have heq : B = leBytes 8 (signingBlockSize pairs - 8)
      ++ (storedPairs pairs).flatMap putPair ++ leBytes 8 (signingBlockSize pairs - 8)
      ++ apkSigningBlockMagic := apkSigningBlock_eq pairs
  have hfield : leNat (leBytes 8 (signingBlockSize pairs - 8)) = signingBlockSize pairs - 8 :=
    leNat_leBytes_of_lt (by omega)
  refine ⟨by rw [hlen]; exact (signingBlockSize_cases pairs).1, by omega, ?_, ?_, ?_⟩
  · rw [hlen, u64le, heq, List.append_assoc, List.append_assoc,
      slice_append_left _ _ (by simp), slice_zero, List.take_of_length_le (by simp), hfield]
  · have hpre : (leBytes 8 (signingBlockSize pairs - 8)
        ++ (storedPairs pairs).flatMap putPair).length = signingBlockSize pairs - 24 := by
      rw [List.length_append, length_leBytes]
      omega
    have hs := slice_append_length (leBytes 8 (signingBlockSize pairs - 8)
      ++ (storedPairs pairs).flatMap putPair)
      (leBytes 8 (signingBlockSize pairs - 8) ++ apkSigningBlockMagic) 8
    rw [hpre, List.take_append_of_le_length (by simp),
      List.take_of_length_le (by simp), ← List.append_assoc, ← heq] at hs
    rw [hlen, u64le, hs, hfield]
  · have hpre : (leBytes 8 (signingBlockSize pairs - 8) ++ (storedPairs pairs).flatMap putPair
        ++ leBytes 8 (signingBlockSize pairs - 8)).length = signingBlockSize pairs - 16 := by
      simp only [List.length_append, length_leBytes]
      omega
    have hs := slice_append_length (leBytes 8 (signingBlockSize pairs - 8)
      ++ (storedPairs pairs).flatMap putPair ++ leBytes 8 (signingBlockSize pairs - 8))
      apkSigningBlockMagic 16
    rw [hpre, ← heq, List.take_of_length_le (Nat.le_of_eq length_magic),
      show signingBlockSize pairs - 16 + 16 = signingBlockSize pairs by omega] at hs
    rw [hlen, hs]

/-! ### Decoding what was encoded -/

theorem splitPair_putU32 {id : Nat} (h : id < 2 ^ 32) (b : Bytes) :
    splitPair (putU32 id ++ b) = some (id, b) := by
  have hlen : (putU32 id).length = 4 := length_leBytes 4 id
  rw [splitPair, if_pos (by rw [List.length_append]; omega), u32le,
    leNat_slice_append _ _ (by omega), slice_zero, List.take_of_length_le (by omega), putU32,
    leNat_leBytes_of_lt h, List.drop_left' (length_leBytes 4 id)]

theorem mapM_splitPair {pairs : List (Nat × Bytes)} (h : ∀ p ∈ pairs, p.1 < 2 ^ 32) :
    (pairs.map fun p => putU32 p.1 ++ p.2).mapM splitPair = some pairs := by
  induction pairs with
  | nil => rfl
  | cons p pairs ih =>
    rw [List.map_cons, List.mapM_cons, splitPair_putU32 (h p (by simp)),
      ih (fun q hq => h q (by simp [hq]))]
    rfl

/-- **Walking the block yields the stored pairs.** -/
theorem blockPairs_apkSigningBlock {pairs : List (Nat × Bytes)} (h : ∀ p ∈ pairs, p.1 < 2 ^ 32)
    (hsize : signingBlockSize pairs < 2 ^ 64) :
    blockPairs (apkSigningBlock pairs) = some (storedPairs pairs) := by
  have hstored := length_storedPairs pairs
  have hbody : slice (apkSigningBlock pairs) 8 ((apkSigningBlock pairs).length - 24)
      = frames 8 ((storedPairs pairs).map fun p => putU32 p.1 ++ p.2) := by
    have hs := slice_append_length (leBytes 8 (signingBlockSize pairs - 8))
      ((storedPairs pairs).flatMap putPair ++ (leBytes 8 (signingBlockSize pairs - 8)
        ++ apkSigningBlockMagic)) ((storedPairs pairs).flatMap putPair).length
    rw [length_leBytes, List.take_left, ← List.append_assoc, ← List.append_assoc,
      ← apkSigningBlock_eq] at hs
    rw [length_apkSigningBlock, show signingBlockSize pairs - 24
      = 8 + ((storedPairs pairs).flatMap putPair).length by omega, hs, frames, List.flatMap_map]
    congr 1
    funext p
    exact putPair_eq p
  have hids : ∀ p ∈ storedPairs pairs, p.1 < 2 ^ 32 := by
    intro p hp
    rw [storedPairs] at hp
    split at hp
    · rcases List.mem_append.mp hp with hp | hp
      · exact h p hp
      · rw [List.mem_singleton.mp hp]
        exact (by decide : verityPaddingBlockId < 2 ^ 32)
    · exact h p hp
  have hlens : ∀ b ∈ (storedPairs pairs).map (fun p => putU32 p.1 ++ p.2), b.length < 256 ^ 8 := by
    intro b hb
    have hle := length_le_frames (k := 8) hb
    rw [← hbody, length_slice, length_apkSigningBlock] at hle
    omega
  rw [blockPairs, hbody, unframes_frames (by decide) hlens]
  exact mapM_splitPair hids

theorem signingBlockSize_lt (pairs : List (Nat × Bytes)) :
    signingBlockSize pairs < unpaddedSize pairs + pageAlignment + 12 := by
  have hpage : pageAlignment = 4096 := rfl
  have hmod := Nat.mod_lt (unpaddedSize pairs) (show 0 < pageAlignment by decide)
  rw [signingBlockSize]
  split
  · simp only
    split <;> omega
  · omega

theorem unpaddedSize_lt_iff (pairs : List (Nat × Bytes)) :
    unpaddedSize pairs < signingBlockSize pairs ↔ unpaddedSize pairs % pageAlignment ≠ 0 := by
  obtain ⟨hmod, h⟩ := signingBlockSize_cases pairs
  constructor
  · intro hlt hz
    rw [signingBlockSize, if_neg (not_not.mpr hz)] at hlt
    omega
  · intro hz
    rcases h with h | h
    · rw [h] at hmod
      exact absurd hmod hz
    · omega

/-- **The signing block is a page-aligned frame around its pairs**: the sizes agree, and walking the
pairs gives them back, with one pair of zeros exactly when they do not fill their pages. -/
theorem apkSigningBlock_spec (pairs : List (UInt32 × Bytes))
    (hmem : (apkSigningBlock (pairs.map fun p => (p.1.toNat, p.2))).length < 2 ^ 64) :
    let ps := pairs.map fun p => (p.1.toNat, p.2)
    let B := apkSigningBlock ps
    B.length = signingBlockSize ps ∧ B.length % pageAlignment = 0 ∧
      B.length < unpaddedSize ps + pageAlignment + 12 ∧ u64le B 0 = B.length - 8 ∧
      u64le B (B.length - 24) = B.length - 8 ∧
      slice B (B.length - 16) B.length = apkSigningBlockMagic ∧
      ∃ n, blockPairs B = some (ps ++ if unpaddedSize ps % pageAlignment = 0 then []
        else [(verityPaddingBlockId, List.replicate n 0)]) := by
  intro ps B
  have hlen : B.length = signingBlockSize ps := length_apkSigningBlock ps
  have hsize : signingBlockSize ps < 2 ^ 64 := hlen ▸ hmem
  obtain ⟨hmod, -, hhead, hfoot, hmagic⟩ := sigBlock_layout hsize
  refine ⟨hlen, hmod, by rw [hlen]; exact signingBlockSize_lt ps, hhead, hfoot, hmagic, ?_⟩
  have hids : ∀ p ∈ ps, p.1 < 2 ^ 32 := by
    intro p hp
    obtain ⟨q, -, rfl⟩ := List.mem_map.mp hp
    exact q.1.toNat_lt
  refine ⟨signingBlockSize ps - unpaddedSize ps - 12, ?_⟩
  rw [blockPairs_apkSigningBlock hids hsize, storedPairs]
  by_cases hz : unpaddedSize ps % pageAlignment = 0
  · rw [if_neg (fun h => (unpaddedSize_lt_iff ps).mp h hz), if_pos hz, List.append_nil]
  · rw [if_pos ((unpaddedSize_lt_iff ps).mpr hz), if_neg hz]

/-- A value of 4041 bytes leaves eleven bytes of its page free. -/
def elevenShort : Bytes := List.replicate 4041 1

/-- Eleven bytes are too few for a pair, so the block takes another page. -/
theorem apkSigningBlock_elevenShort :
    (apkSigningBlock [(v2BlockId, elevenShort)]).length = 8192 ∧
      ∃ n, blockPairs (apkSigningBlock [(v2BlockId, elevenShort)])
        = some [(v2BlockId, elevenShort), (verityPaddingBlockId, List.replicate n 0)] := by
  have hval : elevenShort.length = 4041 := List.length_replicate
  have hunpadded : unpaddedSize [(v2BlockId, elevenShort)] = 4085 := by
    simp only [unpaddedSize, List.map_singleton, List.sum_singleton, hval]
  have hsize : signingBlockSize [(v2BlockId, elevenShort)] = 8192 := by
    rw [signingBlockSize, hunpadded]
    decide
  have hlen := length_apkSigningBlock [(v2BlockId, elevenShort)]
  have hid : (0x7109871a : UInt32).toNat = v2BlockId := by decide
  have hspec := apkSigningBlock_spec [(0x7109871a, elevenShort)]
  simp only [List.map_cons, List.map_nil, hid] at hspec
  obtain ⟨-, -, -, -, -, -, n, hn⟩ := hspec (by omega)
  have hz : ¬ unpaddedSize [(v2BlockId, elevenShort)] % pageAlignment = 0 := by
    rw [hunpadded]
    decide
  rw [if_neg hz] at hn
  exact ⟨by omega, n, hn⟩

theorem unframe_frames_cons {b : Bytes} {bs : List Bytes} (h : b.length < 256 ^ 4) :
    unframe 4 (frames 4 (b :: bs)) = some (b, frames 4 bs) := unframe_frame h _

theorem length_lt_of_frames {b : Bytes} {bs : List Bytes} {n : Nat} (hb : b ∈ bs)
    (h : (frames 4 bs).length < n) : b.length < n := by
  have := length_le_frames (k := 4) hb
  omega

/-- **The decoder descends to the one digest of the signed data.** -/
theorem embeddedDigests_eq {signer signedData : Bytes} {algId : UInt32} {digest : Bytes}
    (hsigner : frame 4 signedData <+: signer)
    (hdata : frame 4 (seqLpPairs [(algId.toNat, digest)]) <+: signedData)
    (hlen : (schemeBlock [signer]).length < 2 ^ 32) :
    embeddedDigests (schemeBlock [signer]) = some [(algId.toNat, digest)] := by
  obtain ⟨rest, hsigner⟩ := hsigner
  obtain ⟨rest', hdata⟩ := hdata
  have h1 : (seqLp [signer]).length < 256 ^ 4 :=
    length_lt_of_frames (List.mem_singleton.mpr rfl) hlen
  have h2 : signer.length < 256 ^ 4 := length_lt_of_frames (List.mem_singleton.mpr rfl) h1
  have h3 : signedData.length < 256 ^ 4 := by
    rw [← hsigner, List.length_append, length_frame] at h2
    omega
  have h4 : (seqLpPairs [(algId.toNat, digest)]).length < 256 ^ 4 := by
    rw [← hdata, List.length_append, length_frame] at h3
    omega
  have h5 : ∀ b ∈ [putU32 algId.toNat ++ frame 4 digest], b.length < 256 ^ 4 := by
    intro b hb
    rw [seqLpPairs_singleton] at h4
    exact length_lt_of_frames hb h4
  have h6 : digest.length < 256 ^ 4 := by
    have := h5 (putU32 algId.toNat ++ frame 4 digest) (by simp)
    rw [List.length_append, length_frame] at this
    omega
  have hitem : splitDigest (putU32 algId.toNat ++ frame 4 digest)
      = some (algId.toNat, digest) := by
    have hframe := unframe_frame h6 []
    rw [List.append_nil] at hframe
    rw [splitDigest, splitPair_putU32 algId.toNat_lt]
    simp only [Option.bind_eq_bind, Option.bind_some, hframe]
  rw [embeddedDigests, schemeBlock, seqLp_eq, unframe_frames_cons h1]
  simp only [Option.bind_eq_bind, Option.bind_some]
  rw [seqLp_eq, unframe_frames_cons h2]
  simp only [Option.bind_some]
  rw [← hsigner, unframe_frame h3]
  simp only [Option.bind_some]
  rw [← hdata, unframe_frame h4]
  simp only [Option.bind_some]
  rw [seqLpPairs_singleton, unframes_frames (by decide) h5]
  simp [hitem]

theorem embeddedDigests_v2 {inp : SignerInput} {v3Enabled : Bool}
    {sign : Bytes → Except Error Bytes} {b : Bytes} (h : v2Signer inp v3Enabled sign = .ok b)
    (hlen : (schemeBlock [b]).length < 2 ^ 32) :
    embeddedDigests (schemeBlock [b]) = some [(inp.algId.toNat, inp.digest)] := by
  rw [v2Signer, bind_eq_ok] at h
  obtain ⟨signature, -, h⟩ := h
  obtain rfl := Except.ok.inj h
  exact embeddedDigests_eq (List.prefix_append _ _) (List.prefix_append _ _) hlen

theorem embeddedDigests_v3 {inp : SignerInput} {minSdk maxSdk : Nat}
    {sign : Bytes → Except Error Bytes} {b : Bytes} (h : v3Signer inp minSdk maxSdk sign = .ok b)
    (hlen : (schemeBlock [b]).length < 2 ^ 32) :
    embeddedDigests (schemeBlock [b]) = some [(inp.algId.toNat, inp.digest)] := by
  rw [v3Signer, bind_eq_ok] at h
  obtain ⟨signature, -, h⟩ := h
  obtain rfl := Except.ok.inj h
  have hsigner : frame 4 (v3SignedData inp minSdk maxSdk) <+:
      putLp (v3SignedData inp minSdk maxSdk) ++ putU32 minSdk ++ putU32 maxSdk
        ++ putLp (seqLpPairs [(inp.algId.toNat, signature)]) ++ putLp inp.spki := by
    simp only [putLp_eq, List.append_assoc]
    exact List.prefix_append _ _
  have hdata : frame 4 (seqLpPairs [(inp.algId.toNat, inp.digest)]) <+:
      v3SignedData inp minSdk maxSdk := by
    simp only [v3SignedData, putLp_eq, List.append_assoc]
    exact List.prefix_append _ _
  exact embeddedDigests_eq hsigner hdata hlen

end FastSigner.SigBlock
