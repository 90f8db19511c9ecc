import FastSigner.Lib.Sha2

/-!
# Streaming SHA-256

`Sha256` is the hasher that runs on the CPU's SHA instructions: a chaining
state, a partial block and the number of bytes absorbed.  The compression
function of one 64-byte block is a parameter `c` throughout.

`Sha256.hash c m` is the value of FIPS 180-4, with `c` for the compression function;
it names nothing of the hasher (`hash_eq` says how the hasher's own words give it).
`Absorbed c h m` says that the hasher `h` stands for the message `m`; `update`
appends to the message (`Absorbed.update`), so does the two-way `update2`
(`Absorbed.update2`), and `finish` returns the hash of it (`Absorbed.finish`).
-/

namespace FastSigner

open Lib

abbrev Sha256.State := Vector UInt32 8

/-- The compression function: absorb one 64-byte block. -/
abbrev Sha256.Compress := Sha256.State → Bytes → Sha256.State

/-- Streaming SHA-256.  `buf` holds the bytes of the partial block only. -/
structure Sha256 where
  state : Sha256.State
  buf : Bytes
  len : Nat
  deriving DecidableEq, Repr

namespace Sha256

/-- Initial hash value (FIPS 180-4 §5.3.3). -/
def h0 : State :=
  #v[0x6a09e667, 0xbb67ae85, 0x3c6ef372, 0xa54ff53a, 0x510e527f, 0x9b05688c, 0x1f83d9ab, 0x5be0cd19]

/-- `ShaExt::compress`: absorb whole blocks. -/
def compressBlocks (c : Compress) (s : State) (blocks : Bytes) : State :=
  (chunks 64 blocks).foldl c s

def stateBytes (s : State) : Bytes := s.toList.flatMap fun w => beBytes 4 w.toNat

def new : Sha256 := ⟨h0, [], 0⟩

/-- The end of `update`, once no partial block is left: absorb the whole blocks and buffer the
rest. -/
def absorb (c : Compress) (state : State) (len : Nat) (data : Bytes) : Sha256 :=
  let whole := data.length / 64 * 64
  ⟨compressBlocks c state (data.take whole), data.drop whole, len⟩

def update (c : Compress) (h : Sha256) (data : Bytes) : Sha256 :=
  let len := h.len + data.length
  if 0 < h.buf.length then
    let take := min (64 - h.buf.length) data.length
    let buf := h.buf ++ data.take take
    if buf.length < 64 then ⟨h.state, buf, len⟩
    else absorb c (compressBlocks c h.state buf) len (data.drop take)
  else absorb c h.state len data

/-- Bytes still needed to complete the partial block; `0` at a block boundary. -/
def gap (h : Sha256) : Nat := (64 - h.buf.length) % 64

def finish (c : Compress) (h : Sha256) : Bytes :=
  let bits := h.len * 8
  let zeros := (2 ^ 64 + 55 - h.buf.length) % 64
  stateBytes (update c h (0x80 :: List.replicate zeros 0 ++ beBytes 8 bits)).state

/-- Absorb whole blocks of equal number into two hashers, both at a block boundary. -/
def update2 (c : Compress) (a b : Sha256) (da db : Bytes) : Sha256 × Sha256 :=
  ({ a with state := compressBlocks c a.state da, len := a.len + da.length },
    { b with state := compressBlocks c b.state db, len := b.len + db.length })

/-- `H^n(x)` for a 32-byte `x`: every step is a single block. -/
def iterate (c : Compress) (x : Bytes) : Nat → Bytes
  | 0 => x
  | n + 1 =>
    iterate c (stateBytes (compressBlocks c h0
      (x ++ 0x80 :: List.replicate 29 0 ++ beBytes 2 256))) n

/-- The hasher that has absorbed one 64-byte block into `state`. -/
def resume (state : State) : Sha256 := ⟨state, [], 64⟩

/-- One iteration of `pbkdf2_hmac_sha256`: the HMAC of `u`, with the pads already absorbed. -/
def hmacStep (c : Compress) (inner outer : State) (u : Bytes) : Bytes :=
  let last (d : Bytes) : Bytes := d ++ 0x80 :: List.replicate 29 0 ++ beBytes 2 768
  let d := stateBytes (compressBlocks c inner (last u))
  stateBytes (compressBlocks c outer (last d))

/-- The loop over the iterations: `t` is the sum so far, `u` the last term. -/
def pbkdf2Loop (c : Compress) (inner outer : State) : Nat → (u t : Bytes) → Bytes
  | 0, _, t => t
  | n + 1, u, t =>
    let u := hmacStep c inner outer u
    pbkdf2Loop c inner outer n u (List.zipWith (· ^^^ ·) t u)

def pbkdf2Block (c : Compress) (inner outer : State) (salt : Bytes) (iterations i : Nat) : Bytes :=
  let h := update c (update c (resume inner) salt) (beBytes 4 (i + 1))
  let u := finish c (update c (resume outer) (finish c h))
  pbkdf2Loop c inner outer (iterations - 1) u u

/-- `ShaExt::pbkdf2_hmac_sha256`, with `n` bytes of output. -/
def pbkdf2HmacSha256 (c : Compress) (password salt : Bytes) (iterations n : Nat) : Bytes :=
  let key :=
    if 64 < password.length then finish c (update c new password) ++ List.replicate 32 0
    else password ++ List.replicate (64 - password.length) 0
  let inner := compressBlocks c h0 (key.map (· ^^^ 0x36))
  let outer := compressBlocks c h0 (key.map (· ^^^ 0x5c))
  ((List.range ((n + 31) / 32)).flatMap (pbkdf2Block c inner outer salt iterations)).take n

/-! ### The value -/

/-- The hash of a message, as FIPS 180-4 defines it. -/
def hash (c : Compress) (m : Bytes) : Bytes := Sha2.hashWith c m

theorem h0_eq : h0 = Sha2.initial := by decide

theorem beBytes_toNat (w : UInt32) : beBytes 4 w.toNat = Sha2.wordBytes w := by
  have hbyte : ∀ (v : UInt32) (n : Nat), v.toNat = n → UInt8.ofNat n = v.toUInt8 := by
    rintro v _ rfl
    exact UInt8.toNat_inj.mp (by simp)
  have hshift : ∀ k : UInt32, k.toNat < 32 → (w >>> k).toNat = w.toNat / 2 ^ k.toNat := by
    intro k hk
    rw [UInt32.toNat_shiftRight, Nat.mod_eq_of_lt hk, Nat.shiftRight_eq_div_pow]
  have h24 : UInt8.ofNat (w.toNat / (256 * 256 * 256)) = (w >>> 24).toUInt8 :=
    hbyte _ _ (hshift 24 (by decide))
  have h16 : UInt8.ofNat (w.toNat / (256 * 256)) = (w >>> 16).toUInt8 :=
    hbyte _ _ (hshift 16 (by decide))
  have h8 : UInt8.ofNat (w.toNat / 256) = (w >>> 8).toUInt8 := hbyte _ _ (hshift 8 (by decide))
  rw [beBytes, Sha2.wordBytes, ← h24, ← h16, ← h8, ← hbyte w _ rfl]
  simp only [leBytes, Nat.div_div_eq_div_mul, List.reverse_cons, List.reverse_nil, List.nil_append,
    List.cons_append]

/-- **The digest's bytes are the standard's.** -/
theorem stateBytes_eq (s : State) : stateBytes s = Sha2.digestBytes s := by
  rw [stateBytes, Sha2.digestBytes, funext beBytes_toNat]

theorem hash_eq (c : Compress) (m : Bytes) :
    hash c m = stateBytes (compressBlocks c h0 (m ++ Sha2.padding m.length)) := by
  rw [stateBytes_eq, h0_eq]
  rfl

theorem length_stateBytes (s : State) : (stateBytes s).length = 32 := by
  rw [stateBytes, List.length_flatMap, List.map_congr_left (g := fun _ => 4)
    (fun w _ => by rw [length_beBytes]), List.map_const', Vector.length_toList]
  rfl

theorem length_hash (c : Compress) (m : Bytes) : (hash c m).length = 32 := by
  rw [hash_eq, length_stateBytes]

/-! ### What a hasher stands for -/

theorem compressBlocks_append (c : Compress) (s : State) {a : Bytes} (b : Bytes)
    (h : a.length % 64 = 0) :
    compressBlocks c s (a ++ b) = compressBlocks c (compressBlocks c s a) b := by
  rw [compressBlocks, chunks_append (by decide) b (a.length / 64) a (by omega), List.foldl_append]
  rfl

theorem compressBlocks_nil (c : Compress) (s : State) : compressBlocks c s [] = s := by
  rw [compressBlocks, chunks_nil (by decide), List.foldl_nil]

/-- The hasher has absorbed the message `m`: whole blocks into the state, the rest buffered. -/
def Absorbed (c : Compress) (h : Sha256) (m : Bytes) : Prop :=
  ∃ whole, m = whole ++ h.buf ∧ whole.length % 64 = 0 ∧ h.buf.length < 64 ∧
    h.state = compressBlocks c h0 whole ∧ h.len = m.length

theorem Absorbed.new (c : Compress) : Absorbed c new [] :=
  ⟨[], rfl, rfl, by decide, (compressBlocks_nil c h0).symm, rfl⟩

theorem absorbed_absorb (c : Compress) {whole : Bytes} (hw : whole.length % 64 = 0) (data : Bytes) :
    Absorbed c (absorb c (compressBlocks c h0 whole) (whole ++ data).length data)
      (whole ++ data) := by
  have hlen : (data.take (data.length / 64 * 64)).length = data.length / 64 * 64 := by
    rw [List.length_take]
    omega
  refine ⟨whole ++ data.take (data.length / 64 * 64), ?_, ?_, ?_, ?_, rfl⟩
  · rw [absorb, List.append_assoc, List.take_append_drop]
  · rw [List.length_append, hlen]
    omega
  · simp only [absorb, List.length_drop]
    omega
  · rw [compressBlocks_append c h0 _ hw]
    rfl

/-- **`update` appends to the message.** -/
theorem Absorbed.update {c : Compress} {h : Sha256} {m : Bytes} (ha : Absorbed c h m)
    (data : Bytes) : Absorbed c (update c h data) (m ++ data) := by
  obtain ⟨whole, hm, hw, hbuf, hstate, hlen⟩ := ha
  have htotal : h.len + data.length = (m ++ data).length := by rw [hlen, List.length_append]
  rw [Sha256.update]
  simp only [htotal]
  by_cases hpos : 0 < h.buf.length
  · rw [if_pos hpos]
    by_cases hpart : (h.buf ++ data.take (min (64 - h.buf.length) data.length)).length < 64
    · rw [if_pos hpart]
      have hall : data.take (min (64 - h.buf.length) data.length) = data := by
        apply List.take_of_length_le
        simp only [List.length_append, List.length_take] at hpart
        omega
      rw [hall] at hpart ⊢
      exact ⟨whole, by rw [hm, List.append_assoc], hw, hpart, hstate, rfl⟩
    · rw [if_neg hpart]
      have hfull : (h.buf ++ data.take (min (64 - h.buf.length) data.length)).length = 64 := by
        simp only [List.length_append, List.length_take] at hpart ⊢
        omega
      -- the completed block joins the whole ones, the rest of `data` starts at a boundary
      have hsplit : m ++ data
          = (whole ++ (h.buf ++ data.take (min (64 - h.buf.length) data.length)))
            ++ data.drop (min (64 - h.buf.length) data.length) := by
        rw [hm]
        simp only [List.append_assoc, List.take_append_drop]
      rw [hstate, ← compressBlocks_append c h0 _ hw, hsplit]
      exact absorbed_absorb c (by rw [List.length_append, hfull]; omega) _
  · have hnil : h.buf = [] := List.eq_nil_of_length_eq_zero (by omega)
    rw [if_neg hpos, hstate, show m = whole by rw [hm, hnil, List.append_nil]]
    exact absorbed_absorb c hw data

theorem gap_eq_zero_iff {h : Sha256} (hbuf : h.buf.length < 64) : gap h = 0 ↔ h.buf = [] := by
  rw [gap]
  constructor
  · intro hg
    exact List.eq_nil_of_length_eq_zero (by omega)
  · intro hnil
    rw [hnil]
    rfl

theorem Absorbed.compressBlocks {c : Compress} {h : Sha256} {m : Bytes} (ha : Absorbed c h m)
    (hgap : gap h = 0) {data : Bytes} (hd : data.length % 64 = 0) :
    Absorbed c { h with state := compressBlocks c h.state data, len := h.len + data.length }
      (m ++ data) := by
  obtain ⟨whole, hm, hw, hbuf, hstate, hlen⟩ := ha
  have hnil : h.buf = [] := (gap_eq_zero_iff hbuf).mp hgap
  refine ⟨whole ++ data, ?_, ?_, hbuf, ?_, ?_⟩
  · simp only [hm, hnil, List.append_nil]
  · rw [List.length_append]
    omega
  · rw [hstate, compressBlocks_append c h0 _ hw]
  · rw [hlen, List.length_append]

/-- **`update2` appends to both messages.** -/
theorem Absorbed.update2 {c : Compress} {a b : Sha256} {ma mb da db : Bytes}
    (ha : Absorbed c a ma) (hb : Absorbed c b mb) (hga : gap a = 0) (hgb : gap b = 0)
    (hda : da.length % 64 = 0) (hdb : db.length % 64 = 0) :
    Absorbed c (Sha256.update2 c a b da db).1 (ma ++ da) ∧
      Absorbed c (Sha256.update2 c a b da db).2 (mb ++ db) :=
  ⟨ha.compressBlocks hga hda, hb.compressBlocks hgb hdb⟩

/-! ### The end of a message -/

/-- What `finish` absorbs: `0x80`, the zeros and the bit length. -/
def pad (h : Sha256) : Bytes :=
  0x80 :: List.replicate ((2 ^ 64 + 55 - h.buf.length) % 64) 0 ++ beBytes 8 (h.len * 8)

theorem finish_eq (c : Compress) (h : Sha256) : finish c h = stateBytes (update c h h.pad).state :=
  rfl

theorem length_pad_le (h : Sha256) : h.pad.length ≤ 72 := by
  simp only [pad, List.length_append, List.length_cons, List.length_replicate, length_beBytes]
  have hz := Nat.mod_lt (2 ^ 64 + 55 - h.buf.length) (show 0 < 64 by decide)
  omega

theorem Absorbed.length_buf {c : Compress} {h : Sha256} {m : Bytes} (ha : Absorbed c h m) :
    h.buf.length = m.length % 64 := by
  obtain ⟨whole, hm, hw, hbuf, -, -⟩ := ha
  rw [hm, List.length_append]
  omega

theorem Absorbed.len {c : Compress} {h : Sha256} {m : Bytes} (ha : Absorbed c h m) :
    h.len = m.length := by
  obtain ⟨_, -, -, -, -, hlen⟩ := ha
  exact hlen

theorem Absorbed.buf {c : Compress} {h : Sha256} {m : Bytes} (ha : Absorbed c h m) :
    h.buf = m.drop (m.length / 64 * 64) := by
  obtain ⟨whole, hm, hw, hbuf, -, -⟩ := ha
  have hat : m.length / 64 * 64 = whole.length := by
    rw [hm, List.length_append]
    omega
  rw [hat, hm, List.drop_left]

theorem Absorbed.gap {c : Compress} {h : Sha256} {m : Bytes} (ha : Absorbed c h m) :
    gap h < 64 ∧ (m.length + gap h) % 64 = 0 := by
  have hbuf := ha.length_buf
  rw [Sha256.gap]
  omega

theorem Absorbed.pad {c : Compress} {h : Sha256} {m : Bytes} (ha : Absorbed c h m) :
    h.pad = Sha2.padding m.length := by
  have hzeros : (2 ^ 64 + 55 - m.length % 64) % 64 = (Sha2.zeroBits (8 * m.length) - 7) / 8 := by
    rw [Sha2.zeroBits]
    omega
  rw [Sha256.pad, Sha2.padding, ha.len, ha.length_buf, hzeros, Nat.mul_comm]

theorem Absorbed.buf_update_pad {c : Compress} {h : Sha256} {m : Bytes} (ha : Absorbed c h m) :
    (Sha256.update c h h.pad).buf = [] := by
  have hlen := (ha.update h.pad).length_buf
  rw [ha.pad, List.length_append, Sha2.length_padding] at hlen
  rw [ha.pad]
  exact List.eq_nil_of_length_eq_zero hlen

/-- **`finish` returns the hash of the message.** -/
theorem Absorbed.finish {c : Compress} {h : Sha256} {m : Bytes} (ha : Absorbed c h m) :
    finish c h = hash c m := by
  have hnil := ha.buf_update_pad
  obtain ⟨whole, hm, -, -, hstate, -⟩ := ha.update h.pad
  rw [finish_eq, hash_eq, ← ha.pad, hstate, hm, hnil, List.append_nil]

theorem Absorbed.foldl_update {c : Compress} (us : List Bytes) :
    ∀ {h : Sha256} {m : Bytes}, Absorbed c h m →
      Absorbed c (us.foldl (Sha256.update c) h) (m ++ us.flatten) := by
  induction us with
  | nil =>
    intro h m ha
    rw [List.foldl_nil, List.flatten_nil, List.append_nil]
    exact ha
  | cons u us ih =>
    intro h m ha
    rw [List.foldl_cons, List.flatten_cons, ← List.append_assoc]
    exact ih (ha.update u)

theorem absorbed_updates (c : Compress) (us : List Bytes) :
    Absorbed c (us.foldl (Sha256.update c) new) us.flatten := by
  have h := (Absorbed.new c).foldl_update us
  rwa [List.nil_append] at h

/-- **However a message is split into updates, `finish` returns its FIPS 180-4 value**, and after
every update the buffer and `gap` are where the message so far puts them. -/
theorem finish_updates (c : Compress) (us : List Bytes) (hlen : us.flatten.length < 2 ^ 61) :
    (∀ vs, vs <+: us →
      (vs.foldl (update c) new).buf = vs.flatten.drop (vs.flatten.length / 64 * 64) ∧
      (vs.foldl (update c) new).gap < 64 ∧
      (vs.flatten.length + (vs.foldl (update c) new).gap) % 64 = 0) ∧
    (us.foldl (update c) new).len * 8 < 2 ^ 64 ∧
    (us.foldl (update c) new).pad.length ≤ 72 ∧
    (update c (us.foldl (update c) new) (us.foldl (update c) new).pad).buf = [] ∧
    ∃ z < 64, (us.flatten.length + 1 + z) % 64 = 56 ∧
      finish c (us.foldl (update c) new) = Sha2.digestBytes ((chunks 64
        (us.flatten ++ 0x80 :: List.replicate z 0 ++ beBytes 8 (us.flatten.length * 8))).foldl c
          Sha2.initial) := by
  have ha := absorbed_updates c us
  have hspec := Sha2.zeroBits_spec (8 * us.flatten.length)
  refine ⟨?_, ?_, length_pad_le _, ha.buf_update_pad,
    (Sha2.zeroBits (8 * us.flatten.length) - 7) / 8, ?_, ?_, ?_⟩
  · intro vs _
    have hv := absorbed_updates c vs
    exact ⟨hv.buf, hv.gap⟩
  · rw [ha.len]
    omega
  · omega
  · omega
  · rw [ha.finish, hash, Sha2.hashWith, Sha2.padding, List.cons_append, List.append_assoc,
      List.cons_append, Nat.mul_comm 8]

theorem finish_updates_abc :
    (([[0x61], [], [0x62, 0x63]] : List Bytes).foldl (update fun s _ => s) new).gap = 61 ∧
    ∃ z < 64, (([[0x61], [], [0x62, 0x63]] : List Bytes).flatten.length + 1 + z) % 64 = 56 := by
  obtain ⟨-, -, -, -, z, hz, hmod, -⟩ :=
    finish_updates (fun s _ => s) [[0x61], [], [0x62, 0x63]] (by decide)
  exact ⟨by decide, z, hz, hmod⟩

end Sha256

end FastSigner
