import FastSigner.SigBlock

/-!
# The grammar of the scheme blocks

A strict decoder for the v2 and v3 scheme blocks.  Unlike the reference verifier,
which skips what it does not need, it reads every field and rejects a string with
a byte left over on any level.

`schemeBlock_decodes` says that it returns exactly what was encoded, and that the
signature was made over the very signed data that is embedded.  Two signed data
strings are therefore equal only if their contents are.
-/

namespace FastSigner.SigBlock

open Lib

/-! ### The decoder -/

/-- What a signer signs.  Only v3 has an SDK range. -/
structure SignedData where
  digests : List (Nat × Bytes)
  certs : List Bytes
  sdk : Option (Nat × Nat)
  attributes : List (Nat × Bytes)
  deriving DecidableEq

structure SignerBlock where
  signedData : Bytes -- The signed data as it stands in the block.
  data : SignedData
  sdk : Option (Nat × Nat)
  signatures : List (Nat × Bytes)
  spki : Bytes
  deriving DecidableEq

def decodeLpPair (b : Bytes) : Option (Nat × Bytes) := do
  let (id, rest) ← splitPair b
  let value ← unframeAll 4 rest
  some (id, value)

def decodeLpPairs (b : Bytes) : Option (List (Nat × Bytes)) := do
  let items ← unframes 4 b
  items.mapM decodeLpPair

def decodeAttributes (b : Bytes) : Option (List (Nat × Bytes)) := do
  let items ← unframes 4 b
  items.mapM splitPair

/-- v2: digests, certificates, attributes, and an empty fourth element. -/
def decodeV2SignedData (b : Bytes) : Option SignedData := do
  let elements ← unframes 4 b
  match elements with
  | [digests, certs, attributes, []] =>
    let digests ← decodeLpPairs digests
    let certs ← unframes 4 certs
    let attributes ← decodeAttributes attributes
    some ⟨digests, certs, none, attributes⟩
  | _ => none

/-- v3: the SDK range stands between the certificates and the attributes. -/
def decodeV3SignedData (b : Bytes) : Option SignedData := do
  let (digests, b) ← unframe 4 b
  let (certs, b) ← unframe 4 b
  let (minSdk, b) ← splitPair b
  let (maxSdk, b) ← splitPair b
  let attributes ← unframeAll 4 b
  let digests ← decodeLpPairs digests
  let certs ← unframes 4 certs
  let attributes ← decodeAttributes attributes
  some ⟨digests, certs, some (minSdk, maxSdk), attributes⟩

def decodeV2Signer (b : Bytes) : Option SignerBlock := do
  let elements ← unframes 4 b
  match elements with
  | [signedData, signatures, spki] =>
    let data ← decodeV2SignedData signedData
    let signatures ← decodeLpPairs signatures
    some ⟨signedData, data, none, signatures, spki⟩
  | _ => none

def decodeV3Signer (b : Bytes) : Option SignerBlock := do
  let (signedData, b) ← unframe 4 b
  let (minSdk, b) ← splitPair b
  let (maxSdk, b) ← splitPair b
  let (signatures, b) ← unframe 4 b
  let spki ← unframeAll 4 b
  let data ← decodeV3SignedData signedData
  let signatures ← decodeLpPairs signatures
  some ⟨signedData, data, some (minSdk, maxSdk), signatures, spki⟩

/-- All signers of a scheme block. -/
def decodeScheme (signer : Bytes → Option SignerBlock) (value : Bytes) :
    Option (List SignerBlock) := do
  let signers ← unframeAll 4 value
  let items ← unframes 4 signers
  items.mapM signer

/-! ### One level at a time -/

theorem splitPair_frame {id : Nat} (h : id < 2 ^ 32) (b : Bytes) :
    decodeLpPair (putU32 id ++ b) = (unframeAll 4 b).bind fun v => some (id, v) := by
  rw [decodeLpPair, splitPair_putU32 h]
  rfl

theorem decodeLpPairs_singleton {id : Nat} {v : Bytes} (hid : id < 2 ^ 32)
    (hlen : (seqLpPairs [(id, v)]).length < 256 ^ 4) :
    decodeLpPairs (seqLpPairs [(id, v)]) = some [(id, v)] := by
  rw [seqLpPairs_singleton] at hlen ⊢
  have hitem : ∀ b ∈ [putU32 id ++ frame 4 v], b.length < 256 ^ 4 :=
    fun b hb => length_lt_of_frames hb hlen
  have hv : v.length < 256 ^ 4 := by
    have := hitem _ (List.mem_singleton.mpr rfl)
    rw [List.length_append, length_frame] at this
    omega
  rw [decodeLpPairs, unframes_frames (by decide) hitem]
  simp only [Option.bind_eq_bind, Option.bind_some, List.mapM_cons, List.mapM_nil,
    splitPair_frame hid, unframeAll_frame hv]
  rfl

def v2Attributes (v3Enabled : Bool) : List (Nat × Bytes) :=
  if v3Enabled then [(strippingProtectionAttrId, putU32 schemeV3Version)] else []

theorem decodeAttributes_v2 (v3Enabled : Bool) :
    decodeAttributes (v2AdditionalAttributes v3Enabled) = some (v2Attributes v3Enabled) := by
  cases v3Enabled with
  | false => decide
  | true => decide

section SignedData

variable (inp : SignerInput)

theorem decodeV2SignedData_eq {v3Enabled : Bool}
    (hlen : (v2SignedData inp v3Enabled).length < 256 ^ 4) :
    decodeV2SignedData (v2SignedData inp v3Enabled)
      = some ⟨[(inp.algId.toNat, inp.digest)], inp.certs, none, v2Attributes v3Enabled⟩ := by
  rw [v2SignedData, seqLp_eq] at hlen ⊢
  have hall : ∀ b ∈ [seqLpPairs [(inp.algId.toNat, inp.digest)], seqLp inp.certs,
      v2AdditionalAttributes v3Enabled, []], b.length < 256 ^ 4 :=
    fun b hb => length_lt_of_frames hb hlen
  have hcerts : ∀ c ∈ inp.certs, c.length < 256 ^ 4 :=
    fun c hc => length_lt_of_frames hc (hall (seqLp inp.certs) (by simp))
  rw [decodeV2SignedData, unframes_frames (by decide) hall]
  simp only [Option.bind_eq_bind, Option.bind_some]
  rw [decodeLpPairs_singleton inp.algId.toNat_lt (hall _ (by simp)), seqLp_eq,
    unframes_frames (by decide) hcerts, decodeAttributes_v2]
  rfl

theorem decodeV3SignedData_eq {minSdk maxSdk : UInt32}
    (hlen : (v3SignedData inp minSdk.toNat maxSdk.toNat).length < 256 ^ 4) :
    decodeV3SignedData (v3SignedData inp minSdk.toNat maxSdk.toNat)
      = some ⟨[(inp.algId.toNat, inp.digest)], inp.certs, some (minSdk.toNat, maxSdk.toNat), []⟩ := by
  simp only [v3SignedData, putLp_eq, List.append_assoc] at hlen ⊢
  have hdigests : (seqLpPairs [(inp.algId.toNat, inp.digest)]).length < 256 ^ 4 := by
    rw [List.length_append, length_frame] at hlen
    omega
  have hseq : (seqLp inp.certs).length < 256 ^ 4 := by
    simp only [List.length_append, length_frame] at hlen
    omega
  have hcerts : ∀ c ∈ inp.certs, c.length < 256 ^ 4 :=
    fun c hc => length_lt_of_frames hc hseq
  have hattrs : decodeAttributes [] = some [] := by decide
  rw [decodeV3SignedData, unframe_frame hdigests]
  simp only [Option.bind_eq_bind, Option.bind_some]
  rw [unframe_frame hseq]
  simp only [Option.bind_some, splitPair_putU32 minSdk.toNat_lt, splitPair_putU32 maxSdk.toNat_lt]
  rw [unframeAll_frame (by simp)]
  simp only [Option.bind_some]
  rw [decodeLpPairs_singleton inp.algId.toNat_lt hdigests, seqLp_eq,
    unframes_frames (by decide) hcerts, hattrs]
  rfl

end SignedData

theorem decodeScheme_singleton {signer : Bytes → Option SignerBlock} {b : Bytes} {r : SignerBlock}
    (hlen : (schemeBlock [b]).length < 256 ^ 4) (h : b.length < 256 ^ 4 → signer b = some r) :
    decodeScheme signer (schemeBlock [b]) = some [r] := by
  have hinner : (frames 4 [b]).length < 256 ^ 4 :=
    length_lt_of_frames (List.mem_singleton.mpr rfl) hlen
  have hb : ∀ c ∈ [b], c.length < 256 ^ 4 := fun c hc => length_lt_of_frames hc hinner
  have hone : schemeBlock [b] = frame 4 (frames 4 [b]) := by
    rw [schemeBlock, seqLp_eq, seqLp_eq, frames, List.flatMap_singleton]
  rw [decodeScheme, hone, unframeAll_frame hinner]
  simp only [Option.bind_eq_bind, Option.bind_some]
  rw [unframes_frames (by decide) hb]
  simp [h (hb b (by simp))]

theorem decodeV2Signer_eq {inp : SignerInput} {v3Enabled : Bool} {signature : Bytes}
    (hlen : (seqLp [v2SignedData inp v3Enabled, seqLpPairs [(inp.algId.toNat, signature)],
      inp.spki]).length < 256 ^ 4) :
    decodeV2Signer (seqLp [v2SignedData inp v3Enabled, seqLpPairs [(inp.algId.toNat, signature)],
        inp.spki])
      = some ⟨v2SignedData inp v3Enabled,
        ⟨[(inp.algId.toNat, inp.digest)], inp.certs, none, v2Attributes v3Enabled⟩, none,
        [(inp.algId.toNat, signature)], inp.spki⟩ := by
  rw [seqLp_eq] at hlen ⊢
  have hall : ∀ b ∈ [v2SignedData inp v3Enabled, seqLpPairs [(inp.algId.toNat, signature)],
      inp.spki], b.length < 256 ^ 4 := fun b hb => length_lt_of_frames hb hlen
  rw [decodeV2Signer, unframes_frames (by decide) hall]
  simp only [Option.bind_eq_bind, Option.bind_some]
  rw [decodeV2SignedData_eq inp (hall _ (by simp)),
    decodeLpPairs_singleton inp.algId.toNat_lt (hall _ (by simp))]
  rfl

theorem decodeV3Signer_eq {inp : SignerInput} {minSdk maxSdk : UInt32} {signature b : Bytes}
    (hb : b = putLp (v3SignedData inp minSdk.toNat maxSdk.toNat) ++ putU32 minSdk.toNat
      ++ putU32 maxSdk.toNat ++ putLp (seqLpPairs [(inp.algId.toNat, signature)])
      ++ putLp inp.spki) (hlen : b.length < 256 ^ 4) :
    decodeV3Signer b = some ⟨v3SignedData inp minSdk.toNat maxSdk.toNat,
        ⟨[(inp.algId.toNat, inp.digest)], inp.certs, some (minSdk.toNat, maxSdk.toNat), []⟩,
        some (minSdk.toNat, maxSdk.toNat), [(inp.algId.toNat, signature)], inp.spki⟩ := by
  simp only [putLp_eq, List.append_assoc] at hb
  subst hb
  simp only [List.length_append, length_frame] at hlen
  have hdata : (v3SignedData inp minSdk.toNat maxSdk.toNat).length < 256 ^ 4 := by omega
  have hsigs : (seqLpPairs [(inp.algId.toNat, signature)]).length < 256 ^ 4 := by omega
  have hspki : inp.spki.length < 256 ^ 4 := by omega
  rw [decodeV3Signer, unframe_frame hdata]
  simp only [Option.bind_eq_bind, Option.bind_some, splitPair_putU32 minSdk.toNat_lt,
    splitPair_putU32 maxSdk.toNat_lt]
  rw [unframe_frame hsigs]
  simp only [Option.bind_some]
  rw [unframeAll_frame hspki]
  simp only [Option.bind_some]
  rw [decodeV3SignedData_eq inp hdata, decodeLpPairs_singleton inp.algId.toNat_lt hsigs]
  rfl

/-! ### The round trip -/

/-- **A scheme block decodes to what was encoded, every byte of it**, for v2 and v3; the signature
is the one made over the embedded signed data, and signed data tells its contents apart. -/
theorem schemeBlock_decodes (inp : SignerInput) (sign : Bytes → Except Error Bytes) :
    (∀ v3Enabled b, v2Signer inp v3Enabled sign = .ok b → (schemeBlock [b]).length < 2 ^ 32 →
      ∃ signature, sign (v2SignedData inp v3Enabled) = .ok signature ∧
        decodeScheme decodeV2Signer (schemeBlock [b])
          = some [⟨v2SignedData inp v3Enabled,
            ⟨[(inp.algId.toNat, inp.digest)], inp.certs, none, v2Attributes v3Enabled⟩, none,
            [(inp.algId.toNat, signature)], inp.spki⟩]) ∧
    (∀ (minSdk maxSdk : UInt32) (b : Bytes), v3Signer inp minSdk.toNat maxSdk.toNat sign = .ok b →
      (schemeBlock [b]).length < 2 ^ 32 →
      ∃ signature, sign (v3SignedData inp minSdk.toNat maxSdk.toNat) = .ok signature ∧
        decodeScheme decodeV3Signer (schemeBlock [b])
          = some [⟨v3SignedData inp minSdk.toNat maxSdk.toNat,
            ⟨[(inp.algId.toNat, inp.digest)], inp.certs, some (minSdk.toNat, maxSdk.toNat), []⟩,
            some (minSdk.toNat, maxSdk.toNat), [(inp.algId.toNat, signature)], inp.spki⟩]) ∧
    (∀ (inp' : SignerInput) (v v' : Bool), (v2SignedData inp v).length < 2 ^ 32 →
      v2SignedData inp v = v2SignedData inp' v' →
      (inp.algId, inp.digest, inp.certs, v2Attributes v)
        = (inp'.algId, inp'.digest, inp'.certs, v2Attributes v')) ∧
    (∀ (inp' : SignerInput) (a b a' b' : UInt32),
      (v3SignedData inp a.toNat b.toNat).length < 2 ^ 32 →
      v3SignedData inp a.toNat b.toNat = v3SignedData inp' a'.toNat b'.toNat →
      (inp.algId, inp.digest, inp.certs, a, b)
        = (inp'.algId, inp'.digest, inp'.certs, a', b')) := by
  refine ⟨?_, ?_, ?_, ?_⟩
  · intro v3Enabled b h hlen
    rw [v2Signer, bind_eq_ok] at h
    obtain ⟨signature, hsign, h⟩ := h
    obtain rfl := Except.ok.inj h
    exact ⟨signature, hsign, decodeScheme_singleton hlen decodeV2Signer_eq⟩
  · intro minSdk maxSdk b h hlen
    rw [v3Signer, bind_eq_ok] at h
    obtain ⟨signature, hsign, h⟩ := h
    exact ⟨signature, hsign,
      decodeScheme_singleton hlen (decodeV3Signer_eq (Except.ok.inj h).symm)⟩
  · intro inp' v v' hlen heq
    have h1 := decodeV2SignedData_eq inp hlen
    rw [heq, decodeV2SignedData_eq inp' (heq ▸ hlen)] at h1
    simp only [Option.some.injEq, SignedData.mk.injEq, List.cons.injEq, Prod.mk.injEq, and_true,
      UInt32.toNat_inj, true_and] at h1
    obtain ⟨⟨halg, hdigest⟩, hcerts, hattrs⟩ := h1
    rw [halg, hdigest, hcerts, hattrs]
  · intro inp' a b a' b' hlen heq
    have h1 := decodeV3SignedData_eq inp hlen
    rw [heq, decodeV3SignedData_eq inp' (heq ▸ hlen)] at h1
    simp only [Option.some.injEq, SignedData.mk.injEq, List.cons.injEq, Prod.mk.injEq, and_true,
      UInt32.toNat_inj] at h1
    obtain ⟨⟨halg, hdigest⟩, hcerts, ha, hb⟩ := h1
    rw [halg, hdigest, hcerts, ha, hb]

/-- Two certificates, and a sign function that returns what it was given. -/
def echoInput : SignerInput := ⟨0x103, [1, 2], [[3], [4, 5]], [6]⟩

theorem echoInput_decodes :
    (∃ b, v2Signer echoInput true .ok = .ok b ∧ decodeScheme decodeV2Signer (schemeBlock [b])
      = some [⟨v2SignedData echoInput true,
        ⟨[(0x103, [1, 2])], [[3], [4, 5]], none, v2Attributes true⟩, none,
        [(0x103, v2SignedData echoInput true)], [6]⟩]) ∧
    ∃ b, v3Signer echoInput 24 0x7fffffff .ok = .ok b ∧
      decodeScheme decodeV3Signer (schemeBlock [b])
        = some [⟨v3SignedData echoInput 24 0x7fffffff,
          ⟨[(0x103, [1, 2])], [[3], [4, 5]], some (24, 0x7fffffff), []⟩, some (24, 0x7fffffff),
          [(0x103, v3SignedData echoInput 24 0x7fffffff)], [6]⟩] := by
  obtain ⟨hv2, hv3, -, -⟩ := schemeBlock_decodes echoInput .ok
  refine ⟨⟨_, rfl, ?_⟩, ⟨_, rfl, ?_⟩⟩
  · obtain ⟨signature, hsign, hdec⟩ := hv2 true _ rfl (by decide +kernel)
    obtain rfl := Except.ok.inj hsign
    exact hdec
  · obtain ⟨signature, hsign, hdec⟩ := hv3 24 0x7fffffff _ rfl (by decide +kernel)
    obtain rfl := Except.ok.inj hsign
    exact hdec

end FastSigner.SigBlock
