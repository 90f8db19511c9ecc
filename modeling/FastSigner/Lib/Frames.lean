import FastSigner.Lib.Bytes

/-!
# Length-prefixed byte strings

`frame k b` is `b` behind its length in `k` little-endian bytes.  A sequence of
frames laid end to end is read back by `unframes`, one frame at a time
(`unframes_frames`), as long as every length fits its field.
-/

namespace Lib

/-- `b` behind its length in `k` bytes. -/
def frame (k : Nat) (b : Bytes) : Bytes := leBytes k b.length ++ b

/-- Read one frame; its contents and what follows it. -/
def unframe (k : Nat) (b : Bytes) : Option (Bytes × Bytes) :=
  let n := leNat (b.take k)
  if k + n ≤ b.length then some (slice b k (k + n), b.drop (k + n)) else none

def unframeAll (k : Nat) (b : Bytes) : Option Bytes := do
  let (x, rest) ← unframe k b
  if rest = [] then some x else none

/-- Read frames up to the end, at most `fuel` of them. -/
def unframesFuel (k : Nat) : Nat → Bytes → Option (List Bytes)
  | 0, b => if b = [] then some [] else none
  | fuel + 1, b =>
    if b = [] then some []
    else do
      let (x, rest) ← unframe k b
      let xs ← unframesFuel k fuel rest
      some (x :: xs)

def unframes (k : Nat) (b : Bytes) : Option (List Bytes) := unframesFuel k b.length b

def frames (k : Nat) (bs : List Bytes) : Bytes := bs.flatMap (frame k)

@[simp] theorem length_frame (k : Nat) (b : Bytes) : (frame k b).length = k + b.length := by
  rw [frame, List.length_append, length_leBytes]

theorem length_le_frames {k : Nat} {bs : List Bytes} {b : Bytes} (h : b ∈ bs) :
    k + b.length ≤ (frames k bs).length := by
  induction bs with
  | nil => cases h
  | cons c bs ih =>
    rw [frames, List.flatMap_cons, List.length_append, length_frame]
    rcases List.mem_cons.mp h with rfl | h
    · omega
    · have hb := ih h
      rw [frames] at hb
      omega

/-- **A frame reads back**, whatever follows it. -/
theorem unframe_frame {k : Nat} {b : Bytes} (h : b.length < 256 ^ k) (rest : Bytes) :
    unframe k (frame k b ++ rest) = some (b, rest) := by
  have hlen : (leBytes k b.length).length = k := length_leBytes k _
  have hn : leNat ((frame k b ++ rest).take k) = b.length := by
    rw [frame, List.append_assoc, List.take_append_of_le_length (by omega),
      List.take_of_length_le (by omega), leNat_leBytes_of_lt h]
  have hslice : slice (frame k b ++ rest) k (k + b.length) = b := by
    have hs := slice_append_length (leBytes k b.length) (b ++ rest) b.length
    rw [hlen, List.take_left, ← List.append_assoc] at hs
    exact hs
  have hdrop : (frame k b ++ rest).drop (k + b.length) = rest := by
    rw [← length_frame, List.drop_left]
  rw [unframe]
  simp only [hn, hslice, hdrop]
  rw [if_pos (by simp)]

theorem unframeAll_frame {k : Nat} {b : Bytes} (h : b.length < 256 ^ k) :
    unframeAll k (frame k b) = some b := by
  have hf := unframe_frame h []
  rw [List.append_nil] at hf
  simp [unframeAll, hf]

theorem unframesFuel_frames {k : Nat} (hk : 0 < k) :
    ∀ (bs : List Bytes) (fuel : Nat), (∀ b ∈ bs, b.length < 256 ^ k) →
      (frames k bs).length ≤ fuel → unframesFuel k fuel (frames k bs) = some bs := by
  intro bs
  induction bs with
  | nil =>
    intro fuel _ _
    cases fuel with
    | zero => rfl
    | succ fuel => rfl
  | cons b bs ih =>
    intro fuel h hfuel
    rw [frames, List.flatMap_cons] at hfuel ⊢
    have hne : frame k b ++ bs.flatMap (frame k) ≠ [] := by
      intro he
      have := congrArg List.length he
      simp only [List.length_append, length_frame, List.length_nil] at this
      omega
    rw [List.length_append, length_frame] at hfuel
    cases fuel with
    | zero => omega
    | succ fuel =>
      have hrest := ih fuel (fun c hc => h c (by simp [hc])) (by rw [frames]; omega)
      rw [frames] at hrest
      rw [unframesFuel, if_neg hne, unframe_frame (h b (by simp))]
      simp only [Option.bind_eq_bind, Option.bind_some, hrest]

/-- **A sequence of frames reads back.** -/
theorem unframes_frames {k : Nat} (hk : 0 < k) {bs : List Bytes}
    (h : ∀ b ∈ bs, b.length < 256 ^ k) : unframes k (frames k bs) = some bs :=
  unframesFuel_frames hk bs _ h (Nat.le_refl _)

end Lib
