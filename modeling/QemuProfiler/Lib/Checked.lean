/-
  QemuProfiler.Lib.Checked
  ────────────────────────
  Machine arithmetic and slices that can FAIL: a debug build stops at a sum or
  a difference that overflows, a release build wraps, and both stop at a slice
  that is out of bounds.

  A run in `Except Fault` that succeeds in a debug build has met no overflow
  and no slice out of bounds.  The rules come in pairs: what an operation
  gives when it fits (`add_of_fits`, `sub_of_le`, `slice_of_le`), and what is
  known after it succeeded (`add_eq_ok`, `slice_eq_ok`, `bind_eq_ok`).
-/
import QemuProfiler.Lib.Bytes

namespace QemuProfiler.Lib

/-- Why a run stops. -/
inductive Fault where
  | overflow
  | outOfBounds
  deriving DecidableEq, Repr

/-- With overflow checks, or with sums that wrap. -/
inductive Build where
  | debug
  | release
  deriving DecidableEq, Repr

/-! ## §1. Runs. -/

theorem ok_bind {α β : Type} (a : α) (f : α → Except Fault β) : (Except.ok a >>= f) = f a := rfl

theorem bind_eq_ok {α β : Type} {x : Except Fault α} {f : α → Except Fault β} {b : β}
    (h : (x >>= f) = .ok b) : ∃ a, x = .ok a ∧ f a = .ok b := by
  cases x with
  | error fault => cases h
  | ok a => exact ⟨a, rfl, h⟩

/-- A pass that changes nothing. -/
theorem mapM_eq_ok_self {α : Type} {f : α → Except Fault α} {l : List α}
    (h : ∀ a ∈ l, f a = .ok a) : l.mapM f = .ok l := by
  induction l with
  | nil => rfl
  | cons a l ih =>
      rw [List.mapM_cons, h a List.mem_cons_self, ih fun b hb => h b (List.mem_cons_of_mem a hb)]
      rfl

namespace Build

/-! ## §2. Sums and differences. -/

def add (build : Build) (a b : UInt64) : Except Fault UInt64 :=
  if build = .debug ∧ 2 ^ 64 ≤ a.toNat + b.toNat then .error .overflow else .ok (a + b)

def sub (build : Build) (a b : UInt64) : Except Fault UInt64 :=
  if build = .debug ∧ a < b then .error .overflow else .ok (a - b)

theorem add_of_fits (build : Build) {a b : UInt64} (h : a.toNat + b.toNat < 2 ^ 64) :
    build.add a b = .ok (a + b) := by
  unfold add
  rw [if_neg (fun hover => absurd hover.2 (Nat.not_le_of_lt h))]

theorem add_release (a b : UInt64) : release.add a b = .ok (a + b) := by
  unfold add
  rw [if_neg (fun hover => nomatch hover.1)]

theorem add_overflow {a b : UInt64} (h : 2 ^ 64 ≤ a.toNat + b.toNat) :
    debug.add a b = .error .overflow := by
  unfold add
  rw [if_pos ⟨rfl, h⟩]

theorem add_eq_ok {build : Build} {a b c : UInt64} (h : build.add a b = .ok c) : c = a + b := by
  unfold add at h
  split at h
  · cases h
  · exact (Except.ok.inj h).symm

theorem sub_of_le (build : Build) {a b : UInt64} (h : b ≤ a) : build.sub a b = .ok (a - b) := by
  unfold sub
  rw [if_neg (fun hover => absurd hover.2 (UInt64.not_lt.mpr h))]

theorem sub_release (a b : UInt64) : release.sub a b = .ok (a - b) := by
  unfold sub
  rw [if_neg (fun hover => nomatch hover.1)]

end Build

theorem toNat_add_of_fits {a b : UInt64} (h : a.toNat + b.toNat < 2 ^ 64) :
    (a + b).toNat = a.toNat + b.toNat := by
  rw [UInt64.toNat_add]
  exact Nat.mod_eq_of_lt h

/-- A sum of two words that did not get smaller has not wrapped. -/
theorem toNat_add_of_le {a b : UInt64} (h : a.toNat ≤ (a + b).toNat) :
    (a + b).toNat = a.toNat + b.toNat := by
  have ha := a.toNat_lt
  have hb := b.toNat_lt
  rw [UInt64.toNat_add] at h ⊢
  omega

/-- `a & !(2^k - 1)` rounds down to a multiple of `2^k`. -/
theorem toNat_and_not_mask (a : UInt64) {k : Nat} (hk : k < 64) :
    (a &&& ~~~ UInt64.ofNat (2 ^ k - 1)).toNat = a.toNat / 2 ^ k * 2 ^ k := by
  have hpow : 2 ^ k < 2 ^ 64 := Nat.pow_lt_pow_right (by decide) hk
  have hpos : 0 < 2 ^ k := Nat.two_pow_pos k
  have hmask : (~~~ UInt64.ofNat (2 ^ k - 1)).toNat = 2 ^ 64 - (2 ^ k - 1 + 1) := by
    rw [UInt64.toNat_not, UInt64.toNat_ofNat_of_lt' (by show _ < 2 ^ 64; omega)]
    show 2 ^ 64 - 1 - (2 ^ k - 1) = _
    omega
  rw [UInt64.toNat_and, hmask]
  apply Nat.eq_of_testBit_eq
  intro i
  rw [Nat.testBit_and, Nat.testBit_two_pow_sub_succ (by omega), Nat.testBit_two_pow_sub_one,
      Nat.testBit_mul_two_pow, Nat.testBit_div_two_pow]
  -- the bits below `k` are cleared, the others stay
  by_cases hik : i < k
  · simp [hik, Nat.not_le_of_lt hik]
  · rw [Nat.sub_add_cancel (Nat.le_of_not_lt hik)]
    by_cases hi : i < 64
    · simp [hik, hi, Nat.le_of_not_lt hik]
    · have hzero : a.toNat.testBit i = false := by
        apply Nat.testBit_lt_two_pow
        exact Nat.lt_of_lt_of_le a.toNat_lt (Nat.pow_le_pow_right (by decide) (by omega))
      simp [hzero]

/-! ## §3. Slices. -/

/-- `&data[lo..hi]`. -/
def sliceAt (data : List UInt8) (lo hi : UInt64) : Except Fault (List UInt8) :=
  match slice data lo.toNat hi.toNat with
  | some bytes => .ok bytes
  | none => .error .outOfBounds

theorem slice_of_le {data : List UInt8} {lo hi : UInt64} (n : Nat) (hhi : hi.toNat = lo.toNat + n)
    (h : hi.toNat ≤ data.length) : sliceAt data lo hi = .ok (bytesAt data lo.toNat n) := by
  unfold sliceAt
  rw [slice_eq_some n hhi h]

theorem slice_eq_ok {data bytes : List UInt8} {lo hi : UInt64} (h : sliceAt data lo hi = .ok bytes) :
    lo.toNat ≤ hi.toNat ∧ hi.toNat ≤ data.length
      ∧ bytes = bytesAt data lo.toNat (hi.toNat - lo.toNat) := by
  unfold sliceAt slice at h
  by_cases hin : lo.toNat ≤ hi.toNat ∧ hi.toNat ≤ data.length
  · rw [if_pos hin] at h
    exact ⟨hin.1, hin.2, (Except.ok.inj h).symm⟩
  · rw [if_neg hin] at h
    cases h

theorem slice_of_length_lt {data : List UInt8} {lo hi : UInt64} (h : data.length < hi.toNat) :
    sliceAt data lo hi = .error .outOfBounds := by
  unfold sliceAt slice
  rw [if_neg (fun hin => absurd hin.2 (Nat.not_le_of_lt h))]

/-- A slice up to a sum: it succeeds only where the sum has not wrapped. -/
theorem slice_add_eq_ok {data bytes : List UInt8} {lo n : UInt64}
    (h : sliceAt data lo (lo + n) = .ok bytes) :
    (lo + n).toNat = lo.toNat + n.toNat ∧ lo.toNat + n.toNat ≤ data.length
      ∧ bytes = bytesAt data lo.toNat n.toNat := by
  obtain ⟨hle, hin, hbytes⟩ := slice_eq_ok h
  have hsum := toNat_add_of_le hle
  rw [hsum] at hin hbytes
  rw [Nat.add_sub_cancel_left] at hbytes
  exact ⟨hsum, hin, hbytes⟩

theorem length_bytesAt {data : List UInt8} {off n : Nat} (h : off + n ≤ data.length) :
    (bytesAt data off n).length = n := by
  unfold bytesAt
  rw [List.length_take, List.length_drop]
  omega

theorem bytesAt_infix (data : List UInt8) (off n : Nat) : bytesAt data off n <:+: data :=
  ( List.take_prefix n (data.drop off)).isInfix.trans ( List.drop_suffix off data).isInfix

end QemuProfiler.Lib
