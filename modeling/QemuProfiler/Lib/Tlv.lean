/-
  QemuProfiler.Lib.Tlv
  ────────────────────
  TAG–LENGTH–VALUE FRAMING with a `w`-byte little-endian length.

  A `Frame w` carries the proof that its payload fits its length field, so an
  unencodable frame cannot be built.  `frames` splits a byte string into the
  frames it starts with and stops at the first incomplete one.

    • `frames_encodeAll` — a log of whole frames splits into exactly them,
    • `frames_encodeAll_take` — **the torn-tail law**: a log cut at ANY byte
      splits into the frames that end at or before the cut.
-/
import QemuProfiler.Lib.Bytes

namespace QemuProfiler.Lib

/-- A tagged payload whose length fits `w` bytes. -/
structure Frame (w : Nat) where
  /-- The tag byte. -/
  tag : UInt8
  /-- The value. -/
  payload : List UInt8
  /-- The length field can hold the payload length. -/
  fits : payload.length < 256 ^ w

namespace Frame

variable {w : Nat}

/-- What a reader learns from a frame. -/
def view (f : Frame w) : UInt8 × List UInt8 := (f.tag, f.payload)

/-- Tag, length, value. -/
def encode (f : Frame w) : List UInt8 :=
  f.tag :: (leBytes w f.payload.length ++ f.payload)

/-- The frame of a payload, cut to what the length field can say. -/
def clip (tag : UInt8) (payload : List UInt8) : Frame w where
  tag := tag
  payload := payload.take (256 ^ w - 1)
  fits := by
    have hpos : 0 < 256 ^ w := Nat.pow_pos (by omega)
    rw [List.length_take]
    omega

theorem view_clip {tag : UInt8} {payload : List UInt8} (h : payload.length < 256 ^ w) :
    (clip (w := w) tag payload).view = (tag, payload) := by
  show (tag, payload.take (256 ^ w - 1)) = _
  rw [List.take_of_length_le (by omega)]

theorem encode_clip {tag : UInt8} {payload : List UInt8} (h : payload.length < 256 ^ w) :
    (clip (w := w) tag payload).encode = tag :: (leBytes w payload.length ++ payload) := by
  have hp : (clip (w := w) tag payload).payload = payload :=
    List.take_of_length_le (by omega)
  unfold encode
  rw [hp]
  rfl

theorem length_encode (f : Frame w) : f.encode.length = 1 + w + f.payload.length := by
  simp only [encode, List.length_cons, List.length_append, length_leBytes]
  omega

end Frame

/-! ## §1. Reading one frame. -/

/-- Read one frame: its view and the bytes after it; `none` when the input
ends inside the frame. -/
def readFrame (w : Nat) : List UInt8 → Option ((UInt8 × List UInt8) × List UInt8)
  | [] => none
  | tag :: rest =>
      if rest.length < w then none
      else
        let n := ofLeBytes (rest.take w)
        let body := rest.drop w
        if body.length < n then none
        else some ((tag, body.take n), body.drop n)

theorem readFrame_encode_append {w : Nat} (f : Frame w) (tail : List UInt8) :
    readFrame w (f.encode ++ tail) = some (f.view, tail) := by
  have hlen : (leBytes w f.payload.length).length = w := length_leBytes w _
  have htake : ((leBytes w f.payload.length ++ f.payload) ++ tail).take w
      = leBytes w f.payload.length := by
    rw [List.append_assoc, List.take_left' hlen]
  have hdrop : ((leBytes w f.payload.length ++ f.payload) ++ tail).drop w
      = f.payload ++ tail := by
    rw [List.append_assoc, List.drop_left' hlen]
  simp only [Frame.encode, List.cons_append, readFrame, htake, hdrop,
    ofLeBytes_leBytes w _ f.fits]
  rw [if_neg (by simp only [List.length_append, hlen]; omega),
      if_neg (by rw [List.length_append]; omega), List.take_left, List.drop_left]
  rfl

/-- **A proper prefix of a frame is not a frame.**  The cut may fall before
the tag, inside the length or inside the value. -/
theorem readFrame_encode_take {w : Nat} (f : Frame w) (n : Nat)
    (h : n < f.encode.length) : readFrame w (f.encode.take n) = none := by
  cases n with
  | zero => rfl
  | succ n =>
      rw [Frame.length_encode] at h
      have hlen : (leBytes w f.payload.length).length = w := length_leBytes w _
      simp only [Frame.encode, List.take_succ_cons, readFrame]
      by_cases hn : n < w
      · -- the cut falls inside the length field
        rw [if_pos (by simp only [List.length_take, List.length_append, hlen]; omega)]
      · -- the length is whole, the value is cut short
        have hsplit : (leBytes w f.payload.length ++ f.payload).take n
            = leBytes w f.payload.length ++ f.payload.take (n - w) := by
          rw [List.take_append, List.take_of_length_le (by omega), hlen]
        rw [hsplit, if_neg (by simp only [List.length_append, hlen]; omega),
            List.take_left' hlen, List.drop_left' hlen, ofLeBytes_leBytes w _ f.fits,
            if_pos (by rw [List.length_take]; omega)]

/-- Reading a frame consumes its tag at least. -/
theorem length_lt_of_readFrame {w : Nat} {bytes rest : List UInt8} {v : UInt8 × List UInt8}
    (h : readFrame w bytes = some (v, rest)) : rest.length < bytes.length := by
  cases bytes with
  | nil => simp [readFrame] at h
  | cons tag tl =>
      simp only [readFrame] at h
      split at h
      · exact absurd h (by simp)
      · split at h
        · exact absurd h (by simp)
        · simp only [Option.some.injEq, Prod.mk.injEq] at h
          rw [← h.2]
          simp only [List.length_drop, List.length_cons]
          omega

/-! ## §2. Splitting a log. -/

/-- The frames a byte string starts with, with `fuel` bounding their number. -/
def framesFuel (w : Nat) : Nat → List UInt8 → List (UInt8 × List UInt8)
  | 0, _ => []
  | fuel + 1, bytes =>
      match readFrame w bytes with
      | none => []
      | some (v, rest) => v :: framesFuel w fuel rest

/-- The frames a byte string starts with. -/
def frames (w : Nat) (bytes : List UInt8) : List (UInt8 × List UInt8) :=
  framesFuel w bytes.length bytes

/-- Any fuel from the input length on gives the same frames. -/
theorem framesFuel_eq {w : Nat} (fuel fuel' : Nat) :
    ∀ bytes : List UInt8, bytes.length ≤ fuel → bytes.length ≤ fuel' →
      framesFuel w fuel bytes = framesFuel w fuel' bytes := by
  induction fuel generalizing fuel' with
  | zero =>
      intro bytes h _
      rw [List.eq_nil_of_length_eq_zero (by omega : bytes.length = 0)]
      cases fuel' <;> rfl
  | succ fuel ih =>
      intro bytes h h'
      cases fuel' with
      | zero =>
          rw [List.eq_nil_of_length_eq_zero (by omega : bytes.length = 0)]
          rfl
      | succ fuel' =>
          simp only [framesFuel]
          cases hr : readFrame w bytes with
          | none => rfl
          | some vr =>
              obtain ⟨v, rest⟩ := vr
              have hlt := length_lt_of_readFrame hr
              simp only
              rw [ih fuel' rest (by omega) (by omega)]

theorem frames_of_readFrame {w : Nat} {bytes rest : List UInt8} {v : UInt8 × List UInt8}
    (h : readFrame w bytes = some (v, rest)) : frames w bytes = v :: frames w rest := by
  have hlt := length_lt_of_readFrame h
  unfold frames
  obtain ⟨k, hk⟩ : ∃ k, bytes.length = k + 1 := ⟨bytes.length - 1, by omega⟩
  rw [hk]
  simp only [framesFuel, h]
  rw [framesFuel_eq k rest.length rest (by omega) (Nat.le_refl _)]

theorem frames_of_readFrame_none {w : Nat} {bytes : List UInt8}
    (h : readFrame w bytes = none) : frames w bytes = [] := by
  unfold frames
  cases bytes.length with
  | zero => rfl
  | succ k => simp only [framesFuel, h]

/-- A log: its frames one after the other. -/
def encodeAll {w : Nat} (fs : List (Frame w)) : List UInt8 := fs.flatMap Frame.encode

@[simp] theorem encodeAll_nil {w : Nat} : encodeAll ([] : List (Frame w)) = [] := rfl

@[simp] theorem encodeAll_cons {w : Nat} (f : Frame w) (fs : List (Frame w)) :
    encodeAll (f :: fs) = f.encode ++ encodeAll fs := rfl

@[simp] theorem encodeAll_append {w : Nat} (fs gs : List (Frame w)) :
    encodeAll (fs ++ gs) = encodeAll fs ++ encodeAll gs := by
  simp [encodeAll]

/-- Whole frames come off the front, whatever bytes follow. -/
theorem frames_encodeAll_append {w : Nat} (fs : List (Frame w)) (tail : List UInt8) :
    frames w (encodeAll fs ++ tail) = fs.map Frame.view ++ frames w tail := by
  induction fs with
  | nil => rfl
  | cons f fs ih =>
      rw [encodeAll_cons, List.append_assoc,
          frames_of_readFrame (readFrame_encode_append f (encodeAll fs ++ tail)), ih]
      rfl

/-- **A log of whole frames splits into exactly those frames.** -/
theorem frames_encodeAll {w : Nat} (fs : List (Frame w)) :
    frames w (encodeAll fs) = fs.map Frame.view := by
  have h := frames_encodeAll_append fs []
  rwa [List.append_nil, show frames w [] = [] from rfl, List.append_nil] at h

/-! ## §3. A log cut at any byte. -/

/-- `boundary fs k` is the offset at which the first `k` frames end. -/
def boundary {w : Nat} (fs : List (Frame w)) (k : Nat) : Nat := (encodeAll (fs.take k)).length

theorem boundary_le_of_le {w : Nat} (fs : List (Frame w)) {j k : Nat} (h : j ≤ k) :
    boundary fs j ≤ boundary fs k := by
  unfold boundary
  have hsplit : fs.take k = fs.take j ++ (fs.take k).drop j := by
    conv_lhs => rw [← List.take_append_drop j (fs.take k)]
    rw [List.take_take, Nat.min_eq_left h]
  rw [hsplit, encodeAll_append, List.length_append]
  omega

theorem encodeAll_take_boundary {w : Nat} (fs : List (Frame w)) (k : Nat) :
    (encodeAll fs).take (boundary fs k) = encodeAll (fs.take k) := by
  unfold boundary
  conv_lhs => rw [← List.take_append_drop k fs, encodeAll_append]
  rw [List.take_left' (by rw [List.take_append_drop])]

/-- The number of frames that end at or before byte `n`. -/
def wholeFrames {w : Nat} : List (Frame w) → Nat → Nat
  | [], _ => 0
  | f :: fs, n => if f.encode.length ≤ n then 1 + wholeFrames fs (n - f.encode.length) else 0

theorem wholeFrames_le {w : Nat} (fs : List (Frame w)) :
    ∀ n, wholeFrames fs n ≤ fs.length := by
  induction fs with
  | nil => intro n; exact Nat.le_refl 0
  | cons f fs ih =>
      intro n
      simp only [wholeFrames]
      split
      · have := ih (n - f.encode.length)
        rw [List.length_cons]
        omega
      · exact Nat.zero_le _

/-- `wholeFrames` is the LAST boundary at or before the cut. -/
theorem boundary_wholeFrames {w : Nat} (fs : List (Frame w)) :
    ∀ n, boundary fs (wholeFrames fs n) ≤ n
      ∧ ∀ k, k ≤ fs.length → boundary fs k ≤ n → k ≤ wholeFrames fs n := by
  induction fs with
  | nil =>
      intro n
      exact ⟨Nat.zero_le n, fun k hk _ => hk⟩
  | cons f fs ih =>
      intro n
      -- offsets in the rest of the log are relative to the end of `f`
      have hcons : ∀ k, boundary (f :: fs) (k + 1) = f.encode.length + boundary fs k := by
        intro k
        simp [boundary]
      obtain ⟨hle, hmax⟩ := ih (n - f.encode.length)
      simp only [wholeFrames]
      by_cases hn : f.encode.length ≤ n
      · rw [if_pos hn, Nat.add_comm 1]
        refine ⟨by rw [hcons]; omega, ?_⟩
        intro k hk hkn
        cases k with
        | zero => exact Nat.zero_le _
        | succ k =>
            rw [hcons] at hkn
            have := hmax k (by simpa using hk) (by omega)
            omega
      · rw [if_neg hn]
        refine ⟨by simp [boundary], ?_⟩
        intro k _ hkn
        cases k with
        | zero => exact Nat.le_refl 0
        | succ k =>
            rw [hcons] at hkn
            omega

/-- **THE TORN-TAIL LAW**: a log cut at byte `n` splits into the frames that
end at or before `n`; the half-written frame contributes nothing. -/
theorem frames_encodeAll_take {w : Nat} (fs : List (Frame w)) :
    ∀ n, frames w ((encodeAll fs).take n) = (fs.take (wholeFrames fs n)).map Frame.view := by
  induction fs with
  | nil =>
      intro n
      rw [encodeAll_nil, List.take_nil]
      rfl
  | cons f fs ih =>
      intro n
      rw [encodeAll_cons]
      simp only [wholeFrames]
      by_cases hn : f.encode.length ≤ n
      · -- the first frame survives whole and the cut falls later
        rw [if_pos hn, List.take_append, List.take_of_length_le hn,
            frames_of_readFrame (readFrame_encode_append f _), ih, Nat.add_comm 1]
        rfl
      · -- the cut falls inside the first frame, and nothing can be read
        rw [if_neg hn, List.take_append_of_le_length (by omega),
            frames_of_readFrame_none (readFrame_encode_take f n (by omega))]
        rfl

end QemuProfiler.Lib
