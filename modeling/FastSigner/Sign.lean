import FastSigner.Align.Rewrite
import FastSigner.Digest.Parallel
import FastSigner.Zip.Partition

/-!
# The signed file

What is signed is a content: an entries section, a Central Directory and the
number of its records.  `layout` prepares the EOCD record and the padding,
`signBlock` makes the signing block, and `sealContent` puts them together.  The
code takes the digest before the file exists, from sections that it writes later
in another place; `sealContent` is the file that all of its paths produce.

`signed_of_sealContent`: a sealed file is content, block, directory and EOCD record,
and the digests that a verifier decodes from the block are those of the file.
-/

namespace FastSigner.Sign

open Lib Zip Digest SigBlock

inductive ZipAlign
  | off
  | check
  | always
  deriving DecidableEq, Repr

structure Opts where
  v2 : Bool
  v3 : Bool
  zipalign : ZipAlign
  libPageSize : Nat
  deriving DecidableEq, Repr

structure Signer where
  algId : UInt32
  contentDigest : Algorithm
  certs : List Bytes
  spki : Bytes
  -- Signatures may draw on the system's random numbers.
  sign : (seed : Nat) → Bytes → Except Error Bytes

def Signer.Deterministic (s : Signer) : Prop := ∀ seed m, s.sign seed m = s.sign 0 m

/-! ### Layout -/

structure Layout where
  eocd : Bytes -- EOCD with entry count and CD size patched; the CD offset is still to be set.
  -- The variant used for digesting: its CD offset is the start of the signing block.
  eocdForDigest : Bytes
  pad : Nat
  blockStart : Nat

def layout (entriesEnd cdLen : Nat) (eocdTemplate : Bytes) (entryCount : Nat) : Layout :=
  let pad := paddingBeforeBlock entriesEnd
  let blockStart := entriesEnd + pad
  let eocd := setEocdCdSize (setEocdEntryCount eocdTemplate entryCount) cdLen
  ⟨eocd, setEocdCdOffset eocd blockStart, pad, blockStart⟩

/-- The sections that `digest_layout` digests. -/
def digestSources (head cd : Bytes) (L : Layout) : List Source :=
  [Source.file 0 head (List.replicate L.pad 0), Source.bytes cd, Source.bytes L.eocdForDigest]

/-- The rewrite digested the entries section while it was written; the directory and the EOCD
record remain. -/
def finishRewrittenDigest (R : Crypto) (rw_ : Align.Rewritten) (eocdTemplate : Bytes)
    (alg : Algorithm) : Bytes × Layout :=
  let L := layout rw_.entriesEnd rw_.cd.length eocdTemplate rw_.entries
  let (nCd, dCd) := chunkDigestsOf R alg rw_.cd
  let (nEocd, dEocd) := chunkDigestsOf R alg L.eocdForDigest
  (topDigest R alg (rw_.chunkCount + nCd + nEocd) [rw_.chunkDigests, dCd, dEocd], L)

/-! ### Signing -/

def schemePair (enabled : Bool) (id : Nat) (signer : Except Error Bytes) :
    Except Error (List (Nat × Bytes)) :=
  if enabled then do
    let b ← signer
    .ok [(id, schemeBlock [b])]
  else .ok []

def signBlock (opts : Opts) (signer : Signer) (seeds : Nat × Nat) (digest : Bytes) :
    Except Error Bytes := do
  let inp : SignerInput := ⟨signer.algId, digest, signer.certs, signer.spki⟩
  let v2 ← schemePair opts.v2 v2BlockId (v2Signer inp opts.v3 (signer.sign seeds.1))
  let v3 ← schemePair opts.v3 v3BlockId (v3Signer inp v3MinSdk v3MaxSdk (signer.sign seeds.2))
  .ok (apkSigningBlock (v2 ++ v3))

/-- The EOCD record of the output; its CD offset must fit in 32 bits. -/
def finalEocd (L : Layout) (block : Bytes) : Except Error Bytes :=
  let newCdOff := L.blockStart + block.length
  if 0xffffffff < newCdOff then .error .exceeds4GiB else .ok (setEocdCdOffset L.eocd newCdOff)

/-- What is signed. -/
structure Content where
  entries : Bytes
  cd : Bytes
  count : Nat
  deriving DecidableEq

def Content.layout (c : Content) (eocdTemplate : Bytes) : Layout :=
  Sign.layout c.entries.length c.cd.length eocdTemplate c.count

def Content.digest (R : Crypto) (alg : Algorithm) (eocdTemplate : Bytes) (c : Content) : Bytes :=
  let L := c.layout eocdTemplate
  contentDigestSpec R alg [c.entries ++ List.replicate L.pad 0, c.cd, L.eocdForDigest]

/-- What is written behind the entries: the padding with the block, and the EOCD record. -/
def signTail (R : Crypto) (opts : Opts) (signer : Signer) (seeds : Nat × Nat)
    (eocdTemplate : Bytes) (c : Content) : Except Error (Bytes × Bytes) := do
  let L := c.layout eocdTemplate
  let block ← signBlock opts signer seeds (c.digest R signer.contentDigest eocdTemplate)
  let eocd ← finalEocd L block
  .ok (List.replicate L.pad 0 ++ block, eocd)

/-- The signed file. -/
def sealContent (R : Crypto) (opts : Opts) (signer : Signer) (seeds : Nat × Nat)
    (eocdTemplate : Bytes) (c : Content) : Except Error Bytes := do
  let L := c.layout eocdTemplate
  let block ← signBlock opts signer seeds (c.digest R signer.contentDigest eocdTemplate)
  let eocd ← finalEocd L block
  .ok (c.entries ++ List.replicate L.pad 0 ++ block ++ c.cd ++ eocd)

/-! ### The digests of the code's paths -/

theorem map_all_digestSources (head cd : Bytes) (L : Layout) :
    (digestSources head cd L).map Source.all
      = [head ++ List.replicate L.pad 0, cd, L.eocdForDigest] := by
  simp [digestSources, Source.all, Source.file, Source.bytes]

/-- **Splicing digests the content.** -/
theorem contentDigest_digestSources (R : Crypto) (sched : Schedule) (alg : Algorithm) (threads : Nat)
    (eocdTemplate : Bytes) (c : Content) :
    (contentDigest R sched (digestSources c.entries c.cd (c.layout eocdTemplate)) alg threads).digest
      = c.digest R alg eocdTemplate := by
  rw [contentDigest_spec, map_all_digestSources, Content.digest]

/-- What a rewrite leaves: the section and the digests of its chunks. -/
structure RewrittenTo (R : Crypto) (alg : Algorithm) (rw_ : Align.Rewritten) (file : Bytes) :
    Prop where
  stop : rw_.entriesEnd = file.length
  digests : (rw_.chunkCount, rw_.chunkDigests) = chunkDigestsOf R alg (Align.padded file)

theorem topDigest_three (R : Crypto) (alg : Algorithm) (f : Bytes → Nat × Bytes) (a b c : Bytes) :
    topDigest R alg (([a, b, c].map fun s => (f s).1).sum) ([a, b, c].map fun s => (f s).2)
      = topDigest R alg ((f a).1 + (f b).1 + (f c).1) [(f a).2, (f b).2, (f c).2] := by
  simp [Nat.add_assoc]

/-- **Finishing the digest of a rewrite digests the content.** -/
theorem finishRewrittenDigest_eq {R : Crypto} {alg : Algorithm} {rw_ : Align.Rewritten}
    {file : Bytes} (h : RewrittenTo R alg rw_ file) (eocdTemplate : Bytes) :
    finishRewrittenDigest R rw_ eocdTemplate alg
      = (Content.digest R alg eocdTemplate ⟨file, rw_.cd, rw_.entries⟩,
        Content.layout ⟨file, rw_.cd, rw_.entries⟩ eocdTemplate) := by
  have hpad : file ++ List.replicate (Content.layout ⟨file, rw_.cd, rw_.entries⟩ eocdTemplate).pad 0
      = Align.padded file := by
    rw [Align.padded, Content.layout, layout]
  have hL : layout rw_.entriesEnd rw_.cd.length eocdTemplate rw_.entries
      = Content.layout ⟨file, rw_.cd, rw_.entries⟩ eocdTemplate := by
    rw [h.stop, Content.layout]
  rw [finishRewrittenDigest, hL, Content.digest, hpad, ← topDigest_chunkDigestsOf, topDigest_three,
    ← h.digests]

/-! ### The signed file -/

/-- An EOCD record with its comment. -/
structure IsEocd (e : Bytes) : Prop where
  sig : slice e 0 4 = eocdSig
  len : e.length = eocdMinLen + u16le e 20

theorem IsEocd.le {e : Bytes} (h : IsEocd e) : 22 ≤ e.length := by
  have := h.len
  simp only [eocdMinLen] at this
  omega

theorem IsEocd.patch {e : Bytes} (h : IsEocd e) {i : Nat} {v : Bytes} (hi : 4 ≤ i)
    (hv : i + v.length ≤ 20) : IsEocd (Lib.patch e i v) := by
  have hle := h.le
  have hlen := h.len
  have hin : i + v.length ≤ e.length := by omega
  refine ⟨?_, ?_⟩
  · rw [slice_patch_of_disjoint hin (by omega), h.sig]
  · rw [length_patch hin, u16le, slice_patch_of_disjoint hin (by omega), hlen, u16le]

theorem IsEocd.setEocdEntryCount {e : Bytes} (h : IsEocd e) (n : Nat) :
    IsEocd (Zip.setEocdEntryCount e n) := by
  refine IsEocd.patch (IsEocd.patch h (by decide) ?_) (by decide) ?_
  · rw [length_leBytes]
    decide
  · rw [length_leBytes]
    decide

theorem IsEocd.layout {e : Bytes} (h : IsEocd e) (c : Content) : IsEocd (c.layout e).eocd := by
  refine IsEocd.patch (h.setEocdEntryCount c.count) (by decide) ?_
  rw [length_leBytes]
  decide

/-- The file `F` is a signed APK of four parts: contents, signing block, Central Directory and
EOCD record. -/
structure Signed (R : Crypto) (opts : Opts) (signer : Signer) (F C B D E : Bytes) : Prop where
  file : F = C ++ B ++ D ++ E
  contents_page : C.length % pageAlignment = 0
  block_page : B.length % pageAlignment = 0
  block_head : u64le B 0 = B.length - 8
  block_foot : u64le B (B.length - 24) = B.length - 8
  magic : slice B (B.length - 16) B.length = apkSigningBlockMagic
  eocd : IsEocd E
  cdOff : u32le E 16 = C.length + B.length
  cdSize : u32le E 12 = D.length
  v2 : opts.v2 = true → decodeDigests B v2BlockId = some [(signer.algId.toNat,
    contentDigestSpec R signer.contentDigest [C, D, setEocdCdOffset E C.length])]
  v3 : opts.v3 = true → decodeDigests B v3BlockId = some [(signer.algId.toNat,
    contentDigestSpec R signer.contentDigest [C, D, setEocdCdOffset E C.length])]

theorem schemePair_enabled {enabled : Bool} {id : Nat} {signer : Except Error Bytes}
    {l : List (Nat × Bytes)} (he : enabled = true) (h : schemePair enabled id signer = .ok l) :
    ∃ b, l = [(id, schemeBlock [b])] ∧ signer = .ok b := by
  rw [schemePair, if_pos he, bind_eq_ok] at h
  obtain ⟨b, hb, h⟩ := h
  exact ⟨b, (Except.ok.inj h).symm, hb⟩

theorem schemePair_id {enabled : Bool} {id : Nat} {signer : Except Error Bytes}
    {l : List (Nat × Bytes)} (h : schemePair enabled id signer = .ok l) : ∀ p ∈ l, p.1 = id := by
  cases enabled with
  | false =>
    obtain rfl := Except.ok.inj h
    intro p hp
    cases hp
  | true =>
    obtain ⟨b, rfl, -⟩ := schemePair_enabled rfl h
    intro p hp
    rw [List.mem_singleton.mp hp]

/-- The pairs of the enabled schemes. -/
theorem signBlock_eq_ok {opts : Opts} {signer : Signer} {seeds : Nat × Nat} {digest block : Bytes}
    (h : signBlock opts signer seeds digest = .ok block) :
    ∃ pairs, block = apkSigningBlock pairs ∧ (∀ p ∈ pairs, p.1 < 2 ^ 32) ∧
      (opts.v2 = true → ∃ b, pairs.filter (·.1 == v2BlockId) = [(v2BlockId, schemeBlock [b])] ∧
        v2Signer ⟨signer.algId, digest, signer.certs, signer.spki⟩ opts.v3 (signer.sign seeds.1)
          = .ok b) ∧
      (opts.v3 = true → ∃ b, pairs.filter (·.1 == v3BlockId) = [(v3BlockId, schemeBlock [b])] ∧
        v3Signer ⟨signer.algId, digest, signer.certs, signer.spki⟩ v3MinSdk v3MaxSdk
          (signer.sign seeds.2) = .ok b) := by
  rw [signBlock, bind_eq_ok] at h
  obtain ⟨l2, h2, h⟩ := h
  rw [bind_eq_ok] at h
  obtain ⟨l3, h3, h⟩ := h
  refine ⟨l2 ++ l3, (Except.ok.inj h).symm, ?_, ?_, ?_⟩
  · intro p hp
    rcases List.mem_append.mp hp with hp | hp
    · rw [schemePair_id h2 p hp]
      decide
    · rw [schemePair_id h3 p hp]
      decide
  · intro hv2
    obtain ⟨b, rfl, hb⟩ := schemePair_enabled hv2 h2
    have hnil : l3.filter (·.1 == v2BlockId) = [] := by
      refine List.filter_eq_nil_iff.mpr fun p hp => ?_
      rw [schemePair_id h3 p hp]
      decide
    exact ⟨b, by rw [List.filter_append, hnil]; rfl, hb⟩
  · intro hv3
    obtain ⟨b, rfl, hb⟩ := schemePair_enabled hv3 h3
    have hnil : l2.filter (·.1 == v3BlockId) = [] := by
      refine List.filter_eq_nil_iff.mpr fun p hp => ?_
      rw [schemePair_id h2 p hp]
      decide
    exact ⟨b, by rw [List.filter_append, hnil]; rfl, hb⟩

theorem decodeDigests_apkSigningBlock {pairs : List (Nat × Bytes)} (hids : ∀ p ∈ pairs, p.1 < 2 ^ 32)
    (hsize : signingBlockSize pairs < 2 ^ 64) {id : Nat} {value : Bytes}
    (hone : pairs.filter (·.1 == id) = [(id, value)]) (hid : id ≠ verityPaddingBlockId) :
    decodeDigests (apkSigningBlock pairs) id = embeddedDigests value := by
  have hfilter : (storedPairs pairs).filter (·.1 == id) = [(id, value)] := by
    rw [storedPairs]
    split
    · rw [List.filter_append, hone, List.filter_cons_of_neg (by simpa using hid.symm)]
      rfl
    · exact hone
  rw [decodeDigests, blockPairs_apkSigningBlock hids hsize]
  simp only [Option.bind_eq_bind, Option.bind_some, hfilter]

theorem length_value_lt {pairs : List (Nat × Bytes)} {p : Nat × Bytes} (hp : p ∈ pairs) :
    p.2.length < (apkSigningBlock pairs).length := by
  have hle := length_le_frames (k := 8) (List.mem_map_of_mem (f := fun p => putU32 p.1 ++ p.2) hp)
  have hframes : frames 8 (pairs.map fun p => putU32 p.1 ++ p.2) = pairs.flatMap putPair := by
    rw [frames, List.flatMap_map]
    exact List.flatMap_congr fun q _ => (putPair_eq q).symm
  have hunpadded := unpaddedSize_le pairs
  rw [hframes, length_flatMap_putPair, List.length_append] at hle
  rw [length_apkSigningBlock]
  rw [unpaddedSize] at hunpadded
  omega

theorem setEocdCdOffset_setEocdCdOffset {e : Bytes} (h : IsEocd e) (a b : Nat) :
    setEocdCdOffset (setEocdCdOffset e a) b = setEocdCdOffset e b := by
  have hle := h.le
  exact patch_patch (by simp) (by rw [length_leBytes]; omega)

section Sealed

variable {R : Crypto} {opts : Opts} {signer : Signer} {seeds : Nat × Nat} {eocdTemplate : Bytes}
  {c : Content} {F : Bytes}

def Content.eocd (c : Content) (eocdTemplate : Bytes) (n : Nat) : Bytes :=
  setEocdCdOffset (c.layout eocdTemplate).eocd ((Align.padded c.entries).length + n)

theorem blockStart_eq (c : Content) (eocdTemplate : Bytes) :
    (c.layout eocdTemplate).blockStart = (Align.padded c.entries).length := by
  rw [Align.length_padded]
  rfl

theorem sealContent_eq : sealContent R opts signer seeds eocdTemplate c
    = (signTail R opts signer seeds eocdTemplate c).map
      fun t => c.entries ++ (t.1 ++ c.cd ++ t.2) := by
  rw [sealContent, signTail]
  cases signBlock opts signer seeds (c.digest R signer.contentDigest eocdTemplate) with
  | error e => rw [error_bind, error_bind, Except.map]
  | ok block =>
    rw [ok_bind, ok_bind]
    cases finalEocd (c.layout eocdTemplate) block with
    | error e => rw [error_bind, error_bind, Except.map]
    | ok eocd =>
      rw [ok_bind, ok_bind, Except.map]
      simp only [List.append_assoc]

theorem sealContent_eq_ok_iff :
    sealContent R opts signer seeds eocdTemplate c = .ok F ↔
      ∃ block, signBlock opts signer seeds (c.digest R signer.contentDigest eocdTemplate)
          = .ok block ∧ (Align.padded c.entries).length + block.length ≤ 0xffffffff ∧
        F = Align.padded c.entries ++ block ++ c.cd ++ c.eocd eocdTemplate block.length := by
  have hfinal : ∀ block, finalEocd (c.layout eocdTemplate) block
      = if 0xffffffff < (Align.padded c.entries).length + block.length then .error .exceeds4GiB
        else .ok (c.eocd eocdTemplate block.length) := by
    intro block
    rw [finalEocd, blockStart_eq]
    rfl
  rw [sealContent]
  simp only [hfinal]
  constructor
  · intro h
    rw [bind_eq_ok] at h
    obtain ⟨block, hblock, h⟩ := h
    split at h
    · cases h
    · exact ⟨block, hblock, by omega, (Except.ok.inj h).symm⟩
  · rintro ⟨block, hblock, hle, rfl⟩
    rw [hblock, ok_bind, if_neg (by omega)]
    rfl

theorem length_padded_mod (b : Bytes) : (Align.padded b).length % pageAlignment = 0 := by
  have hpage : pageAlignment = 4096 := rfl
  rw [Align.length_padded, paddingBeforeBlock, hpage]
  omega

theorem isEocd_eocd (ht : IsEocd eocdTemplate) (c : Content) (n : Nat) :
    IsEocd (c.eocd eocdTemplate n) :=
  (ht.layout c).patch (by decide) (by rw [length_leBytes])

theorem u32le_patch {e : Bytes} {i n : Nat} (hi : i + 4 ≤ e.length) (hn : n < 2 ^ 32) :
    u32le (patch e i (leBytes 4 n)) i = n := by
  have hs := slice_patch_self (l := e) (v := leBytes 4 n) (i := i) (by rw [length_leBytes]; omega)
  rw [length_leBytes] at hs
  rw [u32le, hs, leNat_leBytes_of_lt (by simpa using hn)]

theorem fields_eocd (ht : IsEocd eocdTemplate) (hcd : c.cd.length < 2 ^ 32) {n : Nat}
    (hn : (Align.padded c.entries).length + n < 2 ^ 32) :
    u32le (c.eocd eocdTemplate n) 16 = (Align.padded c.entries).length + n ∧
      u32le (c.eocd eocdTemplate n) 12 = c.cd.length := by
  have hle := (ht.layout c).le
  have hcount := (ht.setEocdEntryCount c.count).le
  refine ⟨u32le_patch (by omega) hn, ?_⟩
  rw [Content.eocd, u32le, setEocdCdOffset, slice_patch_of_disjoint (by
    rw [length_leBytes]; omega) (by omega)]
  exact u32le_patch (by omega) hcd

/-- **A sealed file is a signed APK.** -/
theorem signed_of_sealContent (ht : IsEocd eocdTemplate) (hcd : c.cd.length < 2 ^ 32)
    (h : sealContent R opts signer seeds eocdTemplate c = .ok F) :
    ∃ B, signBlock opts signer seeds (c.digest R signer.contentDigest eocdTemplate) = .ok B ∧
      (Align.padded c.entries).length + B.length ≤ 0xffffffff ∧
      Signed R opts signer F (Align.padded c.entries) B c.cd (c.eocd eocdTemplate B.length) := by
  obtain ⟨B, hblock, hle, rfl⟩ := sealContent_eq_ok_iff.mp h
  obtain ⟨pairs, rfl, hids, hv2, hv3⟩ := signBlock_eq_ok hblock
  have hlen := length_apkSigningBlock pairs
  have hsize : signingBlockSize pairs < 2 ^ 64 := by omega
  obtain ⟨hpage, -, hhead, hfoot, hmagic⟩ := sigBlock_layout hsize
  obtain ⟨hoff, hcdsize⟩ := @fields_eocd eocdTemplate c ht hcd (apkSigningBlock pairs).length (by omega)
  -- the variant that was digested differs in the offset of the directory
  have hdigest : c.digest R signer.contentDigest eocdTemplate
      = contentDigestSpec R signer.contentDigest [Align.padded c.entries, c.cd,
        setEocdCdOffset (c.eocd eocdTemplate (apkSigningBlock pairs).length)
          (Align.padded c.entries).length] := by
    rw [Content.eocd, setEocdCdOffset_setEocdCdOffset (ht.layout c), Content.digest,
      ← blockStart_eq c eocdTemplate]
    rfl
  have hvalue : ∀ {id : Nat} {v : Bytes}, pairs.filter (·.1 == id) = [(id, v)] →
      v.length < 2 ^ 32 := by
    intro id v hone
    have hmem : (id, v) ∈ pairs := List.mem_of_mem_filter (hone ▸ List.mem_singleton.mpr rfl)
    have := length_value_lt hmem
    simp only at this
    omega
  refine ⟨_, hblock, hle, rfl, length_padded_mod _, hpage, hhead, hfoot, hmagic,
    isEocd_eocd ht c _, hoff, hcdsize, ?_, ?_⟩
  · intro h2
    obtain ⟨b, hone, hb⟩ := hv2 h2
    rw [decodeDigests_apkSigningBlock hids hsize hone (by decide), embeddedDigests_v2 hb (hvalue hone),
      ← hdigest]
  · intro h3
    obtain ⟨b, hone, hb⟩ := hv3 h3
    rw [decodeDigests_apkSigningBlock hids hsize hone (by decide), embeddedDigests_v3 hb (hvalue hone),
      ← hdigest]

end Sealed

end FastSigner.Sign
