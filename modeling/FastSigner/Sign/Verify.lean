import FastSigner.Keys.Pkcs12.Recover
import FastSigner.Lib.TreeHash
import FastSigner.SigBlock.Grammar
import FastSigner.Sign.Load
import FastSigner.Sign.Reparse

/-!
# Verification

What the signatures are for: a verifier takes the parts of a signed APK, finds the
signers of a scheme in the signing block, and accepts one (`Accepted`) if its
signatures are good under the public key of its first certificate, its digests are
those of the contents, and its attributes do not ask for another scheme that is
missing.  It reads every byte of the scheme block and checks every signature, so it
accepts less than a verifier that picks one.

`signOne_decodes`: the digest in the block is that of the parts.
`run_verifies`: when the program ends with success, every output is accepted under
each scheme that was asked for.  `signOne_binds`: nothing else is accepted for the
data that was signed, unless the hash function fails.
-/

namespace FastSigner.Sign

open Lib Zip Digest SigBlock Keys Script

/-! ### The verifier -/

inductive Scheme
  | v2
  | v3
  deriving DecidableEq, Repr

namespace Scheme

def enabled (opts : Opts) : Scheme → Bool
  | v2 => opts.v2
  | v3 => opts.v3

def blockId : Scheme → Nat
  | v2 => v2BlockId
  | v3 => v3BlockId

def decodeData : Scheme → Bytes → Option SignedData
  | v2 => decodeV2SignedData
  | v3 => decodeV3SignedData

def decodeSigner : Scheme → Bytes → Option SignerBlock
  | v2 => decodeV2Signer
  | v3 => decodeV3Signer

end Scheme

/-- The parts of a signed APK: the contents of the entries with the padding, the signing block, the
Central Directory and the EOCD record. -/
structure Parts where
  contents : Bytes
  block : Bytes
  cd : Bytes
  eocd : Bytes

namespace Parts

def file (p : Parts) : Bytes := p.contents ++ p.block ++ p.cd ++ p.eocd

/-- The EOCD record as it is digested, with the offset of the signing block. -/
def digestedEocd (p : Parts) : Bytes := setEocdCdOffset p.eocd p.contents.length

def digest (R : Crypto) (alg : Algorithm) (p : Parts) : Bytes :=
  contentDigestSpec R alg [p.contents, p.cd, p.digestedEocd]

/-- The signers of a scheme that the block holds once. -/
def signers (p : Parts) (sch : Scheme) : Option (List SignerBlock) := do
  let pairs ← blockPairs p.block
  match pairs.filter (·.1 == sch.blockId) with
  | [q] => decodeScheme sch.decodeSigner q.2
  | _ => none

/-- The block has a pair for the scheme. -/
def holds (p : Parts) (sch : Scheme) : Bool :=
  ((blockPairs p.block).getD []).any (·.1 == sch.blockId)

end Parts

variable {K : RingCrate} {R : Crypto}

/-- The verifier accepts a signer of a scheme block. -/
structure Accepted (K : RingCrate) (R : Crypto) (p : Parts) (b : SignerBlock) : Prop where
  signed : b.signatures ≠ []
  signatures : ∀ x ∈ b.signatures, ∃ alg verify key, K.algorithm x.1 = some (alg, verify) ∧
    spkiPublicKeyBits b.spki = .ok key ∧ verify key b.signedData x.2 = true
  algorithms : b.data.digests.map Prod.fst = b.signatures.map Prod.fst
  certificate : ∃ cert ∈ b.data.certs.head?, spkiFromCert cert = .ok b.spki
  sdk : b.data.sdk = b.sdk
  digests : ∀ x ∈ b.data.digests, ∃ alg verify, K.algorithm x.1 = some (alg, verify) ∧
    x.2 = p.digest R alg
  -- A signer that was signed with v3 as well is not accepted without it.
  protection : (strippingProtectionAttrId, putU32 schemeV3Version) ∈ b.data.attributes →
    p.holds .v3 = true

/-- The verifier accepts the parts under a scheme. -/
def Verified (K : RingCrate) (R : Crypto) (sch : Scheme) (p : Parts) : Prop :=
  ∃ bs, p.signers sch = some bs ∧ bs ≠ [] ∧ ∀ b ∈ bs, Accepted K R p b

/-- The parts of a file. -/
def partsOf (F : Bytes) (s : ZipSections) : Parts where
  contents := F.take s.entriesEnd
  block := slice F s.entriesEnd s.cdOff
  cd := slice F s.cdOff (s.cdOff + s.cdSize)
  eocd := s.eocd

/-- The verifier accepts a file. -/
def FileVerified (K : RingCrate) (R : Crypto) (sch : Scheme) (F : Bytes) : Prop :=
  ∃ s, Zip.parse (ReadAt.ofBytes F) = .ok s ∧ s.sigBlock.isSome ∧ Verified K R sch (partsOf F s)

/-! ### What is written -/

namespace Scheme

def signedData (opts : Opts) (inp : SignerInput) : Scheme → Bytes
  | v2 => v2SignedData inp opts.v3
  | v3 => v3SignedData inp v3MinSdk v3MaxSdk

def sdk : Scheme → Option (Nat × Nat)
  | v2 => none
  | v3 => some (v3MinSdk, v3MaxSdk)

def attributes (opts : Opts) : Scheme → List (Nat × Bytes)
  | v2 => v2Attributes opts.v3
  | v3 => []

def seed (seeds : Nat × Nat) : Scheme → Nat
  | v2 => seeds.1
  | v3 => seeds.2

def encodeSigner (opts : Opts) (inp : SignerInput) (sign : Bytes → Except Error Bytes) :
    Scheme → Except Error Bytes
  | v2 => v2Signer inp opts.v3 sign
  | v3 => v3Signer inp v3MinSdk v3MaxSdk sign

def signerBlock (opts : Opts) (inp : SignerInput) (signature : Bytes) (sch : Scheme) : SignerBlock where
  signedData := sch.signedData opts inp
  data := ⟨[(inp.algId.toNat, inp.digest)], inp.certs, sch.sdk, sch.attributes opts⟩
  sdk := sch.sdk
  signatures := [(inp.algId.toNat, signature)]
  spki := inp.spki

end Scheme

section Written

variable {opts : Opts} {signer : Signer} {seeds : Nat × Nat} {digest : Bytes} {p : Parts}

theorem filter_storedPairs {pairs l : List (Nat × Bytes)} {id : Nat}
    (h : pairs.filter (·.1 == id) = l) (hid : id ≠ verityPaddingBlockId) :
    (storedPairs pairs).filter (·.1 == id) = l := by
  rw [storedPairs]
  split
  · rw [List.filter_append, h, List.filter_cons_of_neg (by simpa using hid.symm)]
    exact List.append_nil l
  · exact h

/-- The signer of a scheme block is read as it was written. -/
theorem decodeScheme_written {sch : Scheme} {inp : SignerInput} {b : Bytes}
    {sign : Bytes → Except Error Bytes} (h : sch.encodeSigner opts inp sign = .ok b)
    (hlen : (schemeBlock [b]).length < 256 ^ 4) :
    ∃ signature, sign (sch.signedData opts inp) = .ok signature ∧
      decodeScheme sch.decodeSigner (schemeBlock [b]) = some [sch.signerBlock opts inp signature] := by
  cases sch with
  | v2 =>
    obtain ⟨signature, hsign, h⟩ := bind_eq_ok.mp h
    obtain rfl := Except.ok.inj h
    exact ⟨signature, hsign, decodeScheme_singleton hlen decodeV2Signer_eq⟩
  | v3 =>
    obtain ⟨signature, hsign, h⟩ := bind_eq_ok.mp h
    refine ⟨signature, hsign, decodeScheme_singleton hlen ?_⟩
    exact @decodeV3Signer_eq inp 24 0x7fffffff signature b (Except.ok.inj h).symm

/-- **The signing block holds one signer for each enabled scheme**, with the signature of its signed
data. -/
theorem signers_of_signBlock (h : signBlock opts signer seeds digest = .ok p.block)
    (hsize : p.block.length < 2 ^ 32) {sch : Scheme} (hsch : sch.enabled opts = true) :
    p.holds sch = true ∧ ∃ signature,
      signer.sign (sch.seed seeds)
        (sch.signedData opts ⟨signer.algId, digest, signer.certs, signer.spki⟩) = .ok signature ∧
      p.signers sch = some [sch.signerBlock opts ⟨signer.algId, digest, signer.certs, signer.spki⟩
        signature] := by
  obtain ⟨pairs, hblock, hids, hv2, hv3⟩ := signBlock_eq_ok h
  have hlen := length_apkSigningBlock pairs
  have hpairs : blockPairs p.block = some (storedPairs pairs) := by
    rw [hblock]
    exact blockPairs_apkSigningBlock hids (by rw [hblock] at hsize; omega)
  have hone : ∃ b, pairs.filter (·.1 == sch.blockId) = [(sch.blockId, schemeBlock [b])] ∧
      sch.encodeSigner opts ⟨signer.algId, digest, signer.certs, signer.spki⟩
        (signer.sign (sch.seed seeds)) = .ok b := by
    cases sch with
    | v2 => exact hv2 hsch
    | v3 => exact hv3 hsch
  obtain ⟨b, hone, hb⟩ := hone
  have hid : sch.blockId ≠ verityPaddingBlockId := by
    cases sch with
    | v2 => decide
    | v3 => decide
  have hstored := filter_storedPairs hone hid
  have hmem : (sch.blockId, schemeBlock [b]) ∈ pairs :=
    List.mem_of_mem_filter (hone ▸ List.mem_singleton.mpr rfl)
  have hvalue := length_value_lt hmem
  rw [← hblock] at hvalue
  obtain ⟨signature, hsign, hdec⟩ := decodeScheme_written hb (Nat.lt_trans hvalue hsize)
  refine ⟨?_, signature, hsign, ?_⟩
  · rw [Parts.holds, hpairs, Option.getD_some, List.any_eq_true]
    refine ⟨(sch.blockId, schemeBlock [b]), ?_, beq_self_eq_true _⟩
    exact List.mem_of_mem_filter (hstored ▸ List.mem_singleton.mpr rfl)
  · rw [Parts.signers, hpairs]
    simp only [Option.bind_eq_bind, Option.bind_some, hstored]
    exact hdec

/-- **A written signer is accepted**, if the block has its digest, and the v3 signer where there is to
be one. -/
theorem accepted_signerBlock {s : Keys.Signer K} {seed : Nat} {signature : Bytes} {sch : Scheme}
    {inp : SignerInput} (hinp : inp = ⟨s.algId, p.digest R s.contentDigest, s.certs, s.spki⟩)
    (hsign : (asSigner s).sign seed (sch.signedData opts inp) = .ok signature)
    (hv3 : opts.v3 = true → p.holds .v3 = true) :
    Accepted K R p (sch.signerBlock opts inp signature) := by
  obtain ⟨-, bits, hbits, hverify⟩ := Signer.sign_eq_ok_iff.mp (mapError_eq_ok.mp hsign)
  have halg := s.algorithm_algId
  obtain rfl := hinp
  refine ⟨List.cons_ne_nil _ _, ?_, rfl, s.spki_first, rfl, ?_, ?_⟩
  · intro x hx
    obtain rfl := List.mem_singleton.mp hx
    exact ⟨_, _, bits, halg, hbits, hverify⟩
  · intro x hx
    obtain rfl := List.mem_singleton.mp hx
    exact ⟨_, _, halg, rfl⟩
  · intro hmem
    apply hv3
    cases sch with
    | v2 =>
      by_contra h
      have hnil : v2Attributes opts.v3 = [] := if_neg h
      exact List.ne_nil_of_mem hmem hnil
    | v3 => cases hmem

end Written

/-! ### What is verified -/

section Output

variable {opts : Opts} {seeds : Nat × Nat} {eocdTemplate : Bytes} {c : Content} {F B : Bytes}

def Content.parts (c : Content) (eocdTemplate B : Bytes) : Parts where
  contents := Align.padded c.entries
  block := B
  cd := c.cd
  eocd := c.eocd eocdTemplate B.length

theorem digest_parts (ht : IsEocd eocdTemplate) (alg : Algorithm) :
    (c.parts eocdTemplate B).digest R alg = c.digest R alg eocdTemplate := by
  rw [Parts.digest, Parts.digestedEocd, Content.parts]
  simp only
  rw [Content.eocd, setEocdCdOffset_setEocdCdOffset (ht.layout c), Content.digest,
    ← blockStart_eq c eocdTemplate]
  rfl

/-- **A sealed content is accepted under the schemes it was signed with.** -/
theorem verified_of_signBlock {s : Keys.Signer K} (ht : IsEocd eocdTemplate)
    (hblock : signBlock opts (asSigner s) seeds (c.digest R s.contentDigest eocdTemplate) = .ok B)
    (hsize : B.length < 2 ^ 32) {sch : Scheme} (hsch : sch.enabled opts = true) :
    Verified K R sch (c.parts eocdTemplate B) := by
  obtain ⟨-, signature, hsign, hsigners⟩ :=
    signers_of_signBlock (p := c.parts eocdTemplate B) hblock hsize hsch
  refine ⟨_, hsigners, List.cons_ne_nil _ _, fun b hb => ?_⟩
  obtain rfl := List.mem_singleton.mp hb
  have hholds : opts.v3 = true → (c.parts eocdTemplate B).holds .v3 = true := fun hv3 =>
    (@signers_of_signBlock opts _ seeds _ (c.parts eocdTemplate B) hblock hsize .v3 hv3).1
  refine accepted_signerBlock ?_ hsign hholds
  rw [digest_parts ht]
  rfl

/-- **The block holds one signer for each enabled scheme, and in it the one digest of the parts.** -/
theorem digests_of_signBlock {signer : Signer} (ht : IsEocd eocdTemplate)
    (hblock : signBlock opts signer seeds (c.digest R signer.contentDigest eocdTemplate) = .ok B)
    (hsize : B.length < 2 ^ 32) {sch : Scheme} (hsch : sch.enabled opts = true) :
    ∃ b, (c.parts eocdTemplate B).signers sch = some [b] ∧ b.data.digests
      = [(signer.algId.toNat, (c.parts eocdTemplate B).digest R signer.contentDigest)] := by
  obtain ⟨-, signature, -, hsigners⟩ :=
    signers_of_signBlock (p := c.parts eocdTemplate B) hblock hsize hsch
  rw [digest_parts ht]
  exact ⟨_, hsigners, rfl⟩

/-- The reader that finds the sections finds the parts. -/
theorem partsOf_signedSections (p : Parts) :
    partsOf p.file (signedSections p.contents p.block p.cd p.eocd) = p := by
  have h1 : p.file = p.contents ++ (p.block ++ (p.cd ++ p.eocd)) := by
    simp only [Parts.file, List.append_assoc]
  have h2 : p.file = (p.contents ++ p.block) ++ (p.cd ++ p.eocd) := by
    simp only [Parts.file, List.append_assoc]
  obtain ⟨contents, block, cd, eocd⟩ := p
  simp only [partsOf, signedSections, Parts.mk.injEq, and_true] at h1 h2 ⊢
  refine ⟨?_, ?_, ?_⟩
  · rw [h1, List.take_left]
  · rw [h1, slice_append_length, List.take_left]
  · rw [h2, ← List.length_append, slice_append_length, List.take_left]

/-- The record and the directory can be found where they were written. -/
def Parts.Readable (p : Parts) : Prop := u16le p.eocd 10 ≠ 0xffff ∧ Findable p.cd p.eocd

/-- What signing leaves. -/
structure Output (K : RingCrate) (R : Crypto) (opts : Opts) (s : Keys.Signer K) (p : Parts) : Prop where
  eocd : IsEocd p.eocd
  small : p.contents.length < 2 ^ 32
  written : ∀ sch : Scheme, sch.enabled opts = true → ∃ signature, p.signers sch =
    some [sch.signerBlock opts ⟨s.algId, p.digest R s.contentDigest, s.certs, s.spki⟩ signature]
  verified : ∀ sch : Scheme, sch.enabled opts = true → Verified K R sch p
  parsed : p.Readable → Zip.parse (ReadAt.ofBytes p.file)
    = .ok (signedSections p.contents p.block p.cd p.eocd)

theorem exists_output {s : Keys.Signer K} {k : Luck} {apk : Bytes}
    (h : signSpec R opts (some (asSigner s)) k apk = .ok F) :
    ∃ p, p.file = F ∧ Output K R opts s p := by
  obtain ⟨signer, P, cd, c, hkey, hparse, hlen, hc, hseal⟩ := signSpec_eq_ok_iff.mp h
  obtain rfl := Option.some.inj hkey
  have hp := isParsed_of_parseInput hlen hparse
  obtain ⟨B, rs, hm⟩ := exists_made hp hc hseal
  have ht := hp.bounds.isEocd
  have hB : B.length < 2 ^ 32 := by
    have := hm.room
    omega
  have hfile : (c.parts P.sections.eocd B).file = F := hm.signed.file.symm
  refine ⟨c.parts P.sections.eocd B, hfile, hm.signed.eocd, ?_, ?_, ?_, ?_⟩
  · have := hm.room
    simp only [Content.parts]
    omega
  · intro sch hsch
    obtain ⟨-, signature, -, hsigners⟩ :=
      signers_of_signBlock (p := c.parts P.sections.eocd B) hm.block hB hsch
    refine ⟨signature, ?_⟩
    rw [digest_parts ht]
    exact hsigners
  · exact fun sch hsch => verified_of_signBlock ht hm.block hB hsch
  · rintro ⟨hcount, hfind⟩
    rw [hfile]
    refine (hm.parse_iff hp (length_cd_le_of_contentSpec hp hc)).mpr ⟨?_, hfind⟩
    rw [← hm.count, ← (counts_eocd ht c B.length).2]
    exact hcount

/-- **The file is accepted**, if a reader finds its parts. -/
theorem Output.fileVerified {s : Keys.Signer K} {p : Parts} (h : Output K R opts s p)
    (hread : p.Readable) {sch : Scheme} (hsch : sch.enabled opts = true) :
    FileVerified K R sch p.file := by
  refine ⟨_, h.parsed hread, rfl, ?_⟩
  rw [partsOf_signedSections]
  exact h.verified sch hsch

end Output

/-! ### What a signature covers -/

section Binding

variable {p q : Parts} {sch : Scheme} {b b' : SignerBlock}

theorem mem_of_mapM {α β : Type} {f : α → Option β} {y : β} :
    ∀ {xs : List α} {ys : List β}, xs.mapM f = some ys → y ∈ ys → ∃ x ∈ xs, f x = some y := by
  intro xs
  induction xs with
  | nil =>
    intro ys h hy
    obtain rfl := Option.some.inj h
    cases hy
  | cons x xs ih =>
    intro ys h hy
    rw [List.mapM_cons] at h
    obtain ⟨z, hz, h⟩ := Option.bind_eq_some_iff.mp h
    obtain ⟨zs, hzs, h⟩ := Option.bind_eq_some_iff.mp h
    obtain rfl := Option.some.inj h
    rcases List.mem_cons.mp hy with rfl | hy
    · exact ⟨x, List.mem_cons_self, hz⟩
    · obtain ⟨x', hx', hy⟩ := ih hzs hy
      exact ⟨x', List.mem_cons_of_mem _ hx', hy⟩

theorem decodeData_of_decodeSigner {raw : Bytes} (h : sch.decodeSigner raw = some b) :
    sch.decodeData b.signedData = some b.data := by
  cases sch with
  | v2 =>
    obtain ⟨elements, -, h⟩ := Option.bind_eq_some_iff.mp h
    split at h
    · obtain ⟨data, hdata, h⟩ := Option.bind_eq_some_iff.mp h
      obtain ⟨sigs, -, h⟩ := Option.bind_eq_some_iff.mp h
      obtain rfl := Option.some.inj h
      exact hdata
    · cases h
  | v3 =>
    simp only [Scheme.decodeSigner, decodeV3Signer, Option.bind_eq_bind, Option.bind_eq_some_iff] at h
    obtain ⟨x, -, min, -, max, -, y, -, spki, -, data, hdata, sigs, -, h⟩ := h
    obtain rfl := Option.some.inj h
    exact hdata

theorem decodeData_of_signers {bs : List SignerBlock} (h : p.signers sch = some bs) (hb : b ∈ bs) :
    sch.decodeData b.signedData = some b.data := by
  rw [Parts.signers] at h
  obtain ⟨pairs, -, h⟩ := Option.bind_eq_some_iff.mp h
  split at h
  · obtain ⟨value, -, h⟩ := Option.bind_eq_some_iff.mp h
    obtain ⟨items, -, h⟩ := Option.bind_eq_some_iff.mp h
    obtain ⟨raw, -, hraw⟩ := mem_of_mapM h hb
    exact decodeData_of_decodeSigner hraw
  · cases h

/-- The digest of the scheme as a hash tree. -/
def schemeTree (R : Crypto) (alg : Algorithm) : TreeHash where
  H := R.digest alg
  width := alg.outputLen
  width_pos := by cases alg <;> decide
  length_H := R.length_digest alg
  leafHead n := 0xa5 :: leBytes 4 n
  leafHeadLen := 5
  length_leafHead n := by rw [List.length_cons, length_leBytes]
  rootHead n := 0x5a :: leBytes 4 n
  rootHeadLen := 5
  length_rootHead n := by rw [List.length_cons, length_leBytes]

theorem contentDigestSpec_eq_hash (R : Crypto) (alg : Algorithm) (sections : List Bytes) :
    contentDigestSpec R alg sections
      = (schemeTree R alg).hash (sections.flatMap (chunks chunkSize)) := rfl

/-- All messages that are hashed for the digest of the parts. -/
def Parts.messages (R : Crypto) (alg : Algorithm) (p : Parts) : List Bytes :=
  (schemeTree R alg).messages ([p.contents, p.cd, p.digestedEocd].flatMap (chunks chunkSize))

/-- Everything but the signing block, and the offset that depends on its size, is the same. -/
structure Parts.Same (p q : Parts) : Prop where
  contents : p.contents = q.contents
  cd : p.cd = q.cd
  eocd : p.digestedEocd = q.digestedEocd

theorem digestedEocd_chunk (h : IsEocd p.eocd) :
    p.digestedEocd ≠ [] ∧ p.digestedEocd.length ≤ chunkSize := by
  have hle := h.le
  have hcomment := u16le_lt p.eocd 20
  have hlen : p.digestedEocd.length = p.eocd.length := by
    refine length_patch ?_
    rw [length_leBytes]
    omega
  have hmin : eocdMinLen = 22 := rfl
  have hchunk : chunkSize = 1048576 := rfl
  have := h.len
  refine ⟨List.length_pos_iff.mp (by omega), by omega⟩

/-- **The digest of the scheme tells the parts apart**, unless the hash function fails on what is
hashed for them: the record says where the contents end. -/
theorem same_or_collides {alg : Algorithm} (hp : IsEocd p.eocd) (hq : IsEocd q.eocd)
    (hpl : p.contents.length < 2 ^ 32) (hql : q.contents.length < 2 ^ 32)
    (h : p.digest R alg = q.digest R alg) :
    p.Same q ∨ Collides (R.digest alg) (p.messages R alg) (q.messages R alg) := by
  rw [Parts.digest, Parts.digest, contentDigestSpec_eq_hash, contentDigestSpec_eq_hash] at h
  rcases TreeHash.eq_or_collides h with heq | hcol
  · have hlen : p.digestedEocd = q.digestedEocd → p.contents.length = q.contents.length := by
      intro he
      have hpoff : u32le p.digestedEocd 16 = p.contents.length := by
        have := hp.le
        exact u32le_patch (by omega) hpl
      have hqoff : u32le q.digestedEocd 16 = q.contents.length := by
        have := hq.le
        exact u32le_patch (by omega) hql
      rw [← hpoff, he, hqoff]
    obtain ⟨h1, h2, h3⟩ :=
      sections_of_chunks (digestedEocd_chunk hp) (digestedEocd_chunk hq) hlen heq
    exact Or.inl ⟨h1, h2, h3⟩
  · exact Or.inr hcol

/-- Some signer of the one and some signer of the other were signed for the same data. -/
def Parts.Shares (p q : Parts) (sch : Scheme) : Prop :=
  ∃ bs ∈ p.signers sch, ∃ bs' ∈ q.signers sch, ∃ b ∈ bs, ∃ b' ∈ bs', b.signedData = b'.signedData

/-- **What a signature covers.**  Parts that are accepted with the signed data of an output are those
of the output, unless the hash function fails; and they have a v3 signer if the output has one. -/
theorem Output.binds {opts : Opts} {s : Keys.Signer K} (h : Output K R opts s p)
    (hsch : sch.enabled opts = true) (hq : IsEocd q.eocd) (hql : q.contents.length < 2 ^ 32)
    (hver : Verified K R sch q) (hshares : p.Shares q sch) :
    (p.Same q ∨ Collides (R.digest s.contentDigest) (p.messages R s.contentDigest)
      (q.messages R s.contentDigest)) ∧
    (sch = .v2 → opts.v3 = true → q.holds .v3 = true) := by
  obtain ⟨bs, hbs, bs', hbs', b, hb, b', hb', hdata⟩ := hshares
  obtain ⟨signature, hwritten⟩ := h.written sch hsch
  obtain rfl := Option.some.inj (hbs.symm.trans hwritten)
  obtain rfl := List.mem_singleton.mp hb
  obtain ⟨bs'', hbs'', -, hall⟩ := hver
  obtain rfl := Option.some.inj (hbs'.symm.trans hbs'')
  have hacc := hall b' hb'
  have hsame := decodeData_of_signers hwritten hb
  rw [hdata, decodeData_of_signers hbs' hb'] at hsame
  have hsame := Option.some.inj hsame
  refine ⟨?_, fun hv2 hv3 => hacc.protection ?_⟩
  · refine same_or_collides h.eocd hq h.small hql ?_
    obtain ⟨alg, verify, halg, hdigest⟩ := hacc.digests (s.algId.toNat, p.digest R s.contentDigest)
      (by rw [hsame]; exact List.mem_singleton.mpr rfl)
    rw [s.algorithm_algId] at halg
    obtain rfl := (Prod.mk.inj (Option.some.inj halg)).1
    exact hdigest
  · rw [hsame, hv2]
    show _ ∈ v2Attributes opts.v3
    rw [hv3]
    exact List.mem_singleton.mpr rfl

end Binding

/-! ### Runs -/

section Runs

variable {J : Job} {s : Keys.Signer K} {w : World} {env : Nat → Chance}

theorem isEocd_partsOf {G : Bytes} {t : ZipSections} (hG : G.length < 2 ^ 64)
    (ht : Zip.parse (ReadAt.ofBytes G) = .ok t) :
    IsEocd (partsOf G t).eocd ∧ (partsOf G t).contents.length < 2 ^ 32 := by
  have hb := bounds_of_parse hG ht
  have hoff : t.cdOff < 2 ^ 32 := by
    obtain ⟨-, -, -, hoff, -⟩ := (parseWith_eq_ok_iff .wrap hG).mp ht
    rw [hoff]
    exact u32le_lt _ _
  have hle := hb.entries_le
  refine ⟨hb.isEocd, ?_⟩
  rw [partsOf, List.length_take]
  omega

/-- **Decoding what a run leaves yields its digest.**  The file is laid out as a signed APK, and the
block has one signer for each enabled scheme, whose one digest is that of the other three parts. -/
theorem signOne_decodes (R : Crypto) (J : Job) (w : World) (env : Nat → Chance)
    (h : (run (exec R) (signOne R J) env w).1 = .ok ()) :
    ∃ (signer : Signer) (p : Parts), J.key = some signer ∧
      Signed R J.opts signer ((run (exec R) (signOne R J) env w).2.content J.dest) p.contents p.block
        p.cd p.eocd ∧
      ∀ sch : Scheme, sch.enabled J.opts = true → ∃ b, p.signers sch = some [b] ∧
        b.data.digests = [(signer.algId.toNat, p.digest R signer.contentDigest)] := by
  obtain ⟨k, -, hspec⟩ := (finished_of_run h).content
  obtain ⟨signer, P, cd, c, B, rs, hkey, -, hp, -, hm⟩ := made_of_signSpec hspec
  have hroom := hm.room
  exact ⟨signer, c.parts P.sections.eocd B, hkey, hm.signed, fun sch hsch =>
    digests_of_signBlock hp.bounds.isEocd hm.block (by omega) hsch⟩

theorem signOne_decodes_mixed : ∃ (p : Parts) (b : SignerBlock),
    p.signers .v2 = some [b] ∧ b.data.digests = [(0x0103, p.digest sha256Crypto .sha256)] := by
  generalize sha256Crypto = R
  obtain ⟨signer, p, hkey, -, hdecode⟩ :=
    signOne_decodes R exampleJob exampleWorld (fun _ => calmChance) (run_exampleJob R)
  obtain rfl := Option.some.inj hkey
  obtain ⟨b, hb, hdigests⟩ := hdecode .v2 rfl
  exact ⟨p, b, hb, hdigests⟩

end Runs

section Program

variable {S : Setting} {L : Loader K} {threads : Nat → Nat × Unit} {text : KeyError → String}
  {argv : List String} {X : Prepared} {files : Files} {sched : Nat → Nat × Chance} {fuel : Nat}

theorem enabled_of_prepare {S : Setting} (h : prepare S argv = .ok X) :
    ∃ sch : Scheme, sch.enabled X.args.opts = true := by
  rw [prepare, bind_eq_ok] at h
  obtain ⟨a, -, h⟩ := h
  split at h
  · cases h
  · split at h
    · cases h
    · rename_i hany
      obtain ⟨outs, -, h⟩ := bind_eq_ok.mp h
      simp only at h
      split at h
      · cases h
      · obtain rfl := Except.ok.inj h
        by_contra hnone
        push Not at hnone
        exact hany ⟨Bool.eq_false_iff.mpr (hnone .v2), Bool.eq_false_iff.mpr (hnone .v3)⟩

theorem loadSigner_of_loading {src : KeySource} {signer : Signer}
    (h : (S.loading L threads text).loadSigner src = .ok signer) :
    ∃ s, loadSigner L threads src = some (.ok s) ∧ signer = asSigner s := by
  simp only [Setting.loading] at h
  split at h
  · rename_i s hs
    exact ⟨s, hs, (Except.ok.inj h).symm⟩
  · cases h
  · cases h

/-- **If the program ends with success, every output is accepted** under each scheme that was asked
for, of which there is one at least, with the key that was loaded; as a file, if a reader finds its
parts. -/
theorem run_verifies (hprep : prepare (S.loading L threads text) argv = .ok X)
    (hiso : Isolated X.jobs)
    (hend : Ended R X.jobs X.workers (batchRun R X.jobs X.workers files sched fuel))
    (hok : finish X (batchRun R X.jobs X.workers files sched fuel) = .ok ()) :
    (∃ sch : Scheme, sch.enabled X.args.opts = true) ∧
    ∃ s, loadSigner L threads X.args.keysrc = some (.ok s) ∧ ∀ J ∈ X.jobs, ∃ p : Parts,
      (batchRun R X.jobs X.workers files sched fuel).store J.dest = some p.file ∧
      ∀ sch : Scheme, sch.enabled X.args.opts = true →
        Verified K R sch p ∧ (p.Readable → FileVerified K R sch p.file) := by
  refine ⟨enabled_of_prepare hprep, ?_⟩
  obtain ⟨outs, -, hkey, hw, -⟩ := prepare_eq_ok hprep
  obtain ⟨⟨signer, hsigner⟩, hall⟩ := finish_eq_ok_iff.mp hok
  obtain ⟨s, hs, rfl⟩ := loadSigner_of_loading (hkey ▸ hsigner)
  refine ⟨s, hs, fun J hJ => ?_⟩
  obtain ⟨hopts, hJkey⟩ := like_of_prepare hprep hJ
  obtain ⟨i, hi⟩ := List.getElem?_of_mem hJ
  obtain ⟨env, -, hres, hstore⟩ := report_alone hiso hw hend hi
  have hfin := finished_of_run (hall _ ((hres _).mpr rfl))
  obtain ⟨k, F, -, hspec, hF⟩ := hfin.file
  rw [hopts, hJkey, hsigner] at hspec
  obtain ⟨p, rfl, hout⟩ := exists_output hspec
  refine ⟨p, (hstore _ (mem_looksAt.mpr (Or.inr (Or.inl rfl)))).trans hF, fun sch hsch => ?_⟩
  exact ⟨hout.verified sch hsch, fun hread => hout.fileVerified hread hsch⟩

end Program

/-! ### A library that repeats the message -/

/-- Its signatures are the messages. -/
def echoRing : RingCrate where
  RsaPair := Unit
  EcPair := Unit
  rsaFromPkcs8 _ := some ()
  rsaFromDer _ := none
  modulusLen _ := 256
  rsaSign _ _ _ data := some data
  rsaVerify _ _ data sig := decide (sig = data)
  ecFromPkcs8 _ _ := none
  ecFromKeys _ _ _ := none
  ecSign _ _ _ := none
  ecVerify _ _ _ := false

def echoSpki : Bytes := [0x30, 5, 0x30, 0, 0x03, 1, 0]

/-- A certificate whose names and algorithms are empty. -/
def echoCert : Bytes :=
  [0x30, 0x19, 0x30, 0x12, 0x02, 1, 1, 0x30, 0, 0x30, 0, 0x30, 0, 0x30, 0] ++ echoSpki
    ++ [0x30, 0, 0x03, 1, 0]

def echoSigner : Keys.Signer echoRing where
  key := .rsa () .sha256
  algId := algRsaPkcs1Sha256
  contentDigest := .sha256
  certs := [echoCert]
  spki := echoSpki
  description := (Key.rsa () .sha256 : Key echoRing).describe.2.2
  described := rfl
  spki_first := ⟨echoCert, rfl, rfl⟩
  spki_key := ⟨[], rfl⟩

def echoJob : Job := { locatedJob with key := some (asSigner echoSigner) }

def echoLoader : Loader echoRing where
  prims := Pkcs12.mixPrims
  sha1 := ⟨fun _ => List.replicate 20 0, fun _ => rfl⟩
  seed := 0
  env _ := none
  fileLine _ := .error .notFound
  stdinLine _ := .error .notFound
  file path := if path = "cert.pem" then .ok echoCert else .ok []

def echoPrepared : Prepared := ⟨exampleArgs, .ok (asSigner echoSigner), [echoJob], 1⟩

theorem prepare_echo (threads : Nat → Nat × Unit) (text : KeyError → String) :
    prepare (exampleSetting.loading echoLoader threads text) exampleCommand = .ok echoPrepared := rfl

theorem sign_echo (seed : Nat) (data : Bytes) : (asSigner echoSigner).sign seed data = .ok data := by
  have h : echoSigner.sign seed data = .ok data := by
    refine Signer.sign_eq_ok_iff.mpr ⟨rfl, [], rfl, ?_⟩
    exact decide_eq_true rfl
  show (echoSigner.sign seed data).mapError Error.sign = .ok data
  rw [h]
  rfl

theorem length_echoBlock {digest : Bytes} (h : digest.length = 32) :
    (apkSigningBlock [(v2BlockId, schemeBlock [seqLp
      [v2SignedData ⟨0x0103, digest, [echoCert], echoSpki⟩ false, seqLpPairs [(0x0103,
        v2SignedData ⟨0x0103, digest, [echoCert], echoSpki⟩ false)], echoSpki]])]).length ≤ 16384 := by
  rw [length_apkSigningBlock]
  refine Nat.le_of_lt (Nat.lt_of_lt_of_le (signingBlockSize_lt _) ?_)
  have hpage : pageAlignment = 4096 := rfl
  have hcert : echoCert.length = 27 := rfl
  have hspki : echoSpki.length = 7 := rfl
  simp [unpaddedSize, schemeBlock, v2SignedData, v2AdditionalAttributes, seqLp, seqLpPairs, putLp,
    putU32, h, hpage, hcert, hspki]

theorem signSpec_echo (R : Crypto) (seeds : Nat × Nat) :
    ∃ F, signSpec R echoJob.opts echoJob.key ⟨.apart, fun _ _ => none, seeds⟩ mixedApk = .ok F := by
  have hsmall : mixedApk.length < 2 ^ 64 := by
    rw [length_mixedApk]
    decide
  have hpad : (Align.padded Align.mixedOutput).length = 4096 := by
    rw [Align.length_padded, Align.length_mixedOutput]
    decide
  have hsign : (asSigner echoSigner).sign seeds.1 = Except.ok := funext (sign_echo seeds.1)
  refine ⟨_, signSpec_eq_ok_iff.mpr ⟨asSigner echoSigner, _, _, _, rfl, parseInput_mixedApk, hsmall,
    contentSpec_mixedApk R seeds, sealContent_eq_ok_iff.mpr ⟨_, by rw [signBlock, hsign]; rfl, ?_, rfl⟩⟩⟩
  have hdigest : (mixedContent.digest R .sha256 mixedEocd).length = 32 := R.length_digest _ _
  have := length_echoBlock hdigest
  exact Nat.le_trans (Nat.add_le_add (Nat.le_of_eq hpad) this) (by decide)

theorem run_verifies_echo : ∃ fuel p,
    (batchRun sha256Crypto [echoJob] 1 locatedFiles turns fuel).store locatedJob.dest = some (Parts.file p) ∧
      Verified echoRing sha256Crypto .v2 p := by
  generalize sha256Crypto = R
  obtain ⟨fuel, hend⟩ := exists_ended R [echoJob] 1 locatedFiles turns
  have hone : ∀ {Q : Job → Prop}, Q echoJob → ∀ J ∈ echoPrepared.jobs, Q J := by
    intro Q h J hJ
    rw [List.mem_singleton.mp hJ]
    exact h
  have hprep := prepare_echo (fun k => (k, ())) (fun _ => "")
  have hiso : Isolated echoPrepared.jobs := isolated_single echoJob
  have hok : finish echoPrepared (batchRun R [echoJob] 1 locatedFiles turns fuel) = .ok () :=
    finish_ok hprep hiso hend (fun _ => calm_calmChance) (hone (by decide)) (hone (by decide))
      ⟨asSigner echoSigner, rfl, hone (signSpec_echo R)⟩
  obtain ⟨-, s, -, hall⟩ := run_verifies hprep hiso hend hok
  obtain ⟨p, hp, hver⟩ := hall echoJob List.mem_cons_self
  exact ⟨fuel, p, hp, (hver .v2 rfl).1⟩

end FastSigner.Sign
