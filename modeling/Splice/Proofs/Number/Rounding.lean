import Splice.Proofs.Number.Line
/-!
# Integers in the line of floats

The float of an integer has its 53 leading digits, rounded by the digits that are left out; rounding up may carry into
a digit more.  **Rounding keeps the order** (`rank_ofInt64_le`): of two integers with equally many digits the larger
one has the larger leading digits, or the same ones and no less beyond them; and a carry reaches at most the first
integer with a digit more.

It does not keep integers apart.  From `2 ^ 53` on there are more integers than floats, up to there **integers with one
float are one integer** (`eq_of_rank_ofInt64`).
-/
namespace Splice.Binary64

open Float.Model (Format UnpackedFloat totalExponent)
open Float.Model.UnpackedFloat

/-! ## Shifting and rounding a mantissa -/

def whole (n : Nat) : ExtendedMantissa := ⟨n, false, false⟩

/-- A mantissa and what was shifted out of it, as one number.  Shifts and rounding are monotone in it. -/
def weight (x : ExtendedMantissa) : Nat := 4 * x.mantissa + 2 * x.roundBit.toNat + x.stickyBit.toNat

theorem weight_shiftRightOne (x : ExtendedMantissa) :
    weight x.shiftRightOne = 2 * x.mantissa + (x.roundBit || x.stickyBit).toNat := by
  obtain ⟨m, r, s⟩ := x
  have hbit : (m % 2 != 0).toNat = m % 2 := by
    rcases Nat.mod_two_eq_zero_or_one m with h | h <;> rw [h] <;> rfl
  simp only [weight, ExtendedMantissa.shiftRightOne, hbit]
  omega

theorem weight_shiftRightOne_le {x y : ExtendedMantissa} (h : weight x ≤ weight y) :
    weight x.shiftRightOne ≤ weight y.shiftRightOne := by
  obtain ⟨m, r, s⟩ := x
  obtain ⟨n, r', s'⟩ := y
  rw [weight_shiftRightOne, weight_shiftRightOne]
  unfold weight at h
  revert h
  cases r <;> cases s <;> cases r' <;> cases s' <;> simp <;> omega

theorem weight_shift_le {x y : ExtendedMantissa} (h : weight x ≤ weight y) (k : Nat) :
    weight (x >>> k) ≤ weight (y >>> k) := by
  induction k with
  | zero => exact h
  | succ k ih => exact weight_shiftRightOne_le ih

theorem mantissa_shift (x : ExtendedMantissa) (k : Nat) : (x >>> k).mantissa = x.mantissa / 2 ^ k := by
  induction k with
  | zero => exact (Nat.div_one _).symm
  | succ k ih =>
    show (x >>> k).mantissa / 2 = _
    rw [ih, Nat.div_div_eq_div_mul, Nat.pow_succ]

theorem roundedMantissa_eq (x : ExtendedMantissa) :
    x.roundedMantissa = x.mantissa + if x.roundBit then (if x.stickyBit then 1 else x.mantissa % 2) else 0 := by
  obtain ⟨m, r, s⟩ := x
  cases r <;> cases s <;> rfl

theorem roundedMantissa_le {x y : ExtendedMantissa} (h : weight x ≤ weight y) :
    x.roundedMantissa ≤ y.roundedMantissa := by
  obtain ⟨m, r, s⟩ := x
  obtain ⟨n, r', s'⟩ := y
  rw [roundedMantissa_eq, roundedMantissa_eq]
  unfold weight at h
  revert h
  cases r <;> cases s <;> cases r' <;> cases s' <;> simp <;> omega

theorem roundedMantissa_bounds (x : ExtendedMantissa) :
    x.mantissa ≤ x.roundedMantissa ∧ x.roundedMantissa ≤ x.mantissa + 1 := by
  rw [roundedMantissa_eq]
  split
  · split <;> omega
  · omega

/-! ## The leading digits of a positive integer -/

/-- The binary digits, with zeros after them up to 53. -/
def digits (n : Nat) : Nat := n <<< (52 - n.log2)

/-- How many digits there are beyond 53. -/
def excess (n : Nat) : Nat := n.log2 - 52

/-- The 53 leading digits, rounded by the others. -/
def leading (n : Nat) : Nat := (whole (digits n) >>> excess n).roundedMantissa

/-- Mantissa and exponent of the nearest float, after a carry. -/
def nearest (n : Nat) : Nat × Int :=
  if leading n < 2 ^ 53 then (leading n, (n.log2 : Int) - 52) else (2 ^ 52, (n.log2 : Int) - 51)

section

variable {n : Nat} (hn : 0 < n)
include hn

theorem digits_pos : 0 < digits n := by
  unfold digits
  rw [Nat.shiftLeft_eq]
  exact Nat.mul_pos hn (Nat.two_pow_pos _)

theorem log2_digits : (digits n).log2 = 52 + excess n := by
  have hlog : n.log2 + (52 - n.log2) = 52 + excess n := by
    unfold excess
    omega
  rw [← hlog, Nat.log2_eq_iff (Nat.pos_iff_ne_zero.1 (digits_pos hn)), digits, Nat.shiftLeft_eq]
  constructor
  · rw [Nat.pow_add]
    exact Nat.mul_le_mul_right _ (Nat.log2_self_le (Nat.pos_iff_ne_zero.1 hn))
  · rw [Nat.add_right_comm, Nat.pow_add]
    exact Nat.mul_lt_mul_of_pos_right Nat.lt_log2_self (Nat.two_pow_pos _)

theorem leading_bounds : 2 ^ 52 ≤ leading n ∧ leading n ≤ 2 ^ 53 := by
  have hlog := log2_digits hn
  have hlow : 2 ^ 52 ≤ digits n / 2 ^ excess n := by
    rw [Nat.le_div_iff_mul_le (Nat.two_pow_pos _), ← Nat.pow_add, ← hlog]
    exact Nat.log2_self_le (Nat.pos_iff_ne_zero.1 (digits_pos hn))
  have hhigh : digits n / 2 ^ excess n < 2 ^ 53 := by
    rw [Nat.div_lt_iff_lt_mul (Nat.two_pow_pos _), ← Nat.pow_add, show 53 + excess n = (digits n).log2 + 1 by omega]
    exact Nat.lt_log2_self
  have hround := roundedMantissa_bounds (whole (digits n) >>> excess n)
  rw [mantissa_shift] at hround
  exact ⟨Nat.le_trans hlow hround.1, Nat.le_trans hround.2 hhigh⟩

theorem nearest_bounds : 2 ^ 52 ≤ (nearest n).1 ∧ (nearest n).1 < 2 ^ 53 := by
  unfold nearest
  split
  · exact ⟨(leading_bounds hn).1, ‹_›⟩
  · exact ⟨Nat.le_refl _, Nat.pow_lt_pow_right (by decide) (by decide)⟩

theorem nearest_exponent (hlt : n < 2 ^ 64) : -1074 ≤ (nearest n).2 ∧ (nearest n).2 ≤ 971 := by
  have hlog : n.log2 < 64 := (Nat.log2_lt (Nat.pos_iff_ne_zero.1 hn)).2 hlt
  unfold nearest
  split <;> (dsimp only; omega)

/-- Up to 53 digits nothing is rounded. -/
theorem nearest_of_lt (hlt : n < 2 ^ 53) : nearest n = (n * 2 ^ (52 - n.log2), (n.log2 : Int) - 52) := by
  have hexcess : excess n = 0 := by
    have hlog : n.log2 < 53 := (Nat.log2_lt (Nat.pos_iff_ne_zero.1 hn)).2 hlt
    unfold excess
    omega
  have hleading : leading n = digits n := by
    unfold leading
    rw [hexcess]
    rfl
  have hdigits : digits n < 2 ^ 53 :=
    (Nat.log2_lt (Nat.pos_iff_ne_zero.1 (digits_pos hn))).1 (by rw [log2_digits hn, hexcess]; decide)
  unfold nearest
  rw [hleading, if_pos hdigits, digits, Nat.shiftLeft_eq]

end

theorem nearest_le {m n : Nat} (hm : 0 < m) (h : m ≤ n) :
    (nearest m).2 < (nearest n).2 ∨ (nearest m).2 = (nearest n).2 ∧ (nearest m).1 ≤ (nearest n).1 := by
  have hbound := nearest_bounds (Nat.lt_of_lt_of_le hm h)
  have hlog : m.log2 ≤ n.log2 := (Nat.le_log2 (by omega)).2 (Nat.le_trans (Nat.log2_self_le (by omega)) h)
  rcases Nat.lt_or_eq_of_le hlog with hlt | heq
  · unfold nearest at hbound ⊢
    split <;> split <;> simp_all <;> omega
  · have hle : leading m ≤ leading n := by
      unfold leading digits excess
      rw [heq]
      refine roundedMantissa_le (weight_shift_le ?_ _)
      show 4 * (m <<< _) + 0 + 0 ≤ 4 * (n <<< _) + 0 + 0
      rw [Nat.shiftLeft_eq, Nat.shiftLeft_eq]
      have := Nat.mul_le_mul_right (2 ^ (52 - n.log2)) h
      omega
    unfold nearest
    rw [heq]
    split <;> split <;> simp <;> omega

theorem nearest_inj {m n : Nat} (hm : 0 < m) (hn : 0 < n) (hm' : m ≤ 2 ^ 53) (hn' : n ≤ 2 ^ 53)
    (h : nearest m = nearest n) : m = n := by
  have htop : nearest (2 ^ 53) = (2 ^ 52, 1) := by decide
  have hbelow : ∀ k, 0 < k → k < 2 ^ 53 → nearest k ≠ nearest (2 ^ 53) := by
    intro k hk hlt heq
    have hlog : k.log2 < 53 := (Nat.log2_lt (Nat.pos_iff_ne_zero.1 hk)).2 hlt
    have hexponent := congrArg Prod.snd heq
    rw [nearest_of_lt hk hlt, htop] at hexponent
    dsimp only at hexponent
    omega
  rcases Nat.lt_or_eq_of_le hm' with hm' | rfl
  · rcases Nat.lt_or_eq_of_le hn' with hn' | rfl
    · rw [nearest_of_lt hm hm', nearest_of_lt hn hn', Prod.mk.injEq] at h
      have hlog : m.log2 = n.log2 := by omega
      rw [hlog] at h
      exact Nat.eq_of_mul_eq_mul_right (Nat.two_pow_pos _) h.1
    · exact absurd h (hbelow m hm hm')
  · rcases Nat.lt_or_eq_of_le hn' with hn' | rfl
    · exact absurd h.symm (hbelow n hn hn')
    · rfl

/-! ## What the conversion computes -/

theorem target_eq (m : Nat) (e : Int) :
    Format.binary64.targetExponent (totalExponent m e) = max ((m.log2 : Int) + e - 52) (-1074) := by
  show max ((m.log2 : Int) + 1 + e - 53) (-1074) = _
  omega

theorem shiftToTarget_eq {m k : Nat} {e : Int} (hm : m.log2 = 52 + k) (he : -1074 ≤ e + k) :
    shiftToTargetExponent .binary64 m e .exact = (whole m >>> k, e + k) := by
  have hk : (Format.binary64.targetExponent (totalExponent m e) - e).toNat = k := by
    rw [target_eq]
    omega
  simp only [shiftToTargetExponent, shiftToExponent, hk]
  rfl

theorem round_eq (n : Nat) : UnpackedFloat.round .binary64 .positive n 0 =
    roundWithAccuracy .binary64 .positive (digits n) (-(52 - n.log2 : Nat)) .exact := by
  have hk : (0 - Format.binary64.targetExponent (totalExponent n 0)).toNat = 52 - n.log2 := by
    rw [target_eq]
    omega
  unfold UnpackedFloat.round decreaseExponent
  simp only [hk]
  rw [Int.zero_sub]
  rfl

section

variable {n : Nat} (hn : 0 < n)
include hn

theorem shift_digits : shiftToTargetExponent .binary64 (digits n) (-(52 - n.log2 : Nat)) .exact =
    (whole (digits n) >>> excess n, (n.log2 : Int) - 52) := by
  have he : -((52 - n.log2 : Nat) : Int) + excess n = (n.log2 : Int) - 52 := by
    unfold excess
    omega
  rw [shiftToTarget_eq (log2_digits hn) (by omega), he]

theorem shift_leading : shiftToTargetExponent .binary64 (leading n) ((n.log2 : Int) - 52) .exact =
    (whole (nearest n).1, (nearest n).2) := by
  have hleading := leading_bounds hn
  unfold nearest
  split
  case isTrue hlt =>
    have hlog : (leading n).log2 = 52 + 0 := (Nat.log2_eq_iff (by omega)).2 ⟨hleading.1, hlt⟩
    rw [shiftToTarget_eq hlog (by omega), Int.natCast_zero, Int.add_zero]
    rfl
  case isFalse hlt =>
    have hcarry : leading n = 2 ^ 53 := by omega
    have hlog : (leading n).log2 = 52 + 1 := by rw [hcarry, Nat.log2_two_pow]
    rw [shiftToTarget_eq hlog (by omega), hcarry, show (n.log2 : Int) - 52 + (1 : Nat) = n.log2 - 51 by omega]
    rfl

/-- **The float of a positive integer is the one with the nearest mantissa and exponent.** -/
theorem ofNat_eq (hpos : 0 < (nearest n).1) :
    UnpackedFloat.ofNat .binary64 n = .finite .positive (nearest n).1 (nearest n).2 hpos := by
  have hgt : compare (n : Int) 0 = .gt := Int.compare_eq_gt.2 (by omega)
  show UnpackedFloat.normalize .binary64 (n : Int) 0 .positive = _
  unfold UnpackedFloat.normalize
  rw [hgt]
  show UnpackedFloat.round .binary64 .positive n 0 = _
  rw [round_eq]
  unfold roundWithAccuracy
  rw [shift_digits hn]
  show (match shiftToTargetExponent .binary64 (leading n) ((n.log2 : Int) - 52) .exact with
    | (m, e) => if h : m.mantissa = 0 then UnpackedFloat.zero .positive
        else .finite .positive m.mantissa e (Nat.pos_of_ne_zero h)) = _
  rw [shift_leading hn]
  exact dif_neg (Nat.pos_iff_ne_zero.1 hpos)

end

/-! ## Reading the bits back -/

theorem toNat_one_append (m : BitVec 52) : (1#1 ++ m).toNat = 2 ^ 52 + m.toNat := by
  rw [BitVec.toNat_append, ← Nat.shiftLeft_add_eq_or_of_lt m.isLt]
  rfl

/-- The bits of a float with 53 digits. -/
theorem pack_eq (s : Sign) {m b : Nat} {e : Int} (hpos : 0 < m) (hm : 2 ^ 52 ≤ m ∧ m < 2 ^ 53) (hb : b < 2047)
    (he : (b : Int) = e + 1075) : UnpackedFloat.pack .binary64 (.finite s m e hpos) =
      packComponents .binary64 s (BitVec.ofNat 11 b) (BitVec.ofNat 52 m) := by
  have hlog : m.log2 = 52 := (Nat.log2_eq_iff (by omega)).2 hm
  have hbiased : (e + (1023 : Nat) + (52 : Nat)).toNat = b := by omega
  show (if 2 ^ 11 ≤ (e + (1023 : Nat) + (52 : Nat)).toNat + 1 then _ else if m.log2 + 1 = 53 then _ else _) = _
  rw [if_neg (by omega), if_pos (by omega)]
  exact congrArg (fun b => packComponents .binary64 s (BitVec.ofNat 11 b) (BitVec.ofNat 52 m)) hbiased

theorem unpack_packComponents (s : Sign) {m b : Nat} (hpos : 0 < m) (hm : 2 ^ 52 ≤ m ∧ m < 2 ^ 53)
    (hb : 0 < b ∧ b < 2047) :
    UnpackedFloat.unpack .binary64 (packComponents .binary64 s (BitVec.ofNat 11 b) (BitVec.ofNat 52 m)) =
      .finite s m ((b : Int) - 1075) hpos := by
  have hbiased : (BitVec.ofNat 11 b).toNat = b := by
    rw [BitVec.toNat_ofNat, Nat.mod_eq_of_lt (by omega)]
  have hmantissa : (1#1 ++ BitVec.ofNat 52 m).toNat = m := by
    rw [toNat_one_append, BitVec.toNat_ofNat]
    omega
  have hnotInfinite : BitVec.ofNat 11 b ≠ -1#11 := by
    intro h
    have hall := hbiased.symm.trans (congrArg BitVec.toNat h)
    rw [show (-1#11).toNat = 2047 from rfl] at hall
    omega
  have hnotSmall : BitVec.ofNat 11 b ≠ 0#11 := by
    intro h
    have hnone := hbiased.symm.trans (congrArg BitVec.toNat h)
    rw [show (0#11).toNat = 0 from rfl] at hnone
    omega
  have hexponent : (b : Int) - ((Format.binary64.exponentBias : Nat) + (52 : Nat)) = (b : Int) - 1075 := by
    show (b : Int) - ((1023 : Nat) + (52 : Nat)) = (b : Int) - 1075
    omega
  unfold UnpackedFloat.unpack
  simp only [unpackMantissa_packComponents, unpackExponent_packComponents, unpackSign_packComponents,
    if_neg hnotInfinite, if_neg hnotSmall, hmantissa, hbiased, Sign.ofBitVec_toBitVec, hexponent]

theorem unpack_pack (s : Sign) {m : Nat} {e : Int} (hpos : 0 < m) (hm : 2 ^ 52 ≤ m ∧ m < 2 ^ 53)
    (he : -1074 ≤ e ∧ e ≤ 971) : (Float.Model.pack (.finite s m e hpos)).unpack = .finite s m e hpos := by
  obtain ⟨b, hb⟩ : ∃ b : Nat, (b : Int) = e + 1075 := ⟨(e + 1075).toNat, by omega⟩
  show UnpackedFloat.unpack .binary64 (UnpackedFloat.pack .binary64 (.finite s m e hpos)) = _
  rw [pack_eq s hpos hm (by omega) hb, unpack_packComponents s hpos hm (by omega)]
  simp only [show (b : Int) - 1075 = e by omega]

theorem unpack_toFloat {n : UInt64} (hn : 0 < n.toNat) (hpos : 0 < (nearest n.toNat).1) :
    n.toFloat.toModel.unpack = .finite .positive (nearest n.toNat).1 (nearest n.toNat).2 hpos := by
  show (Float.Model.pack (UnpackedFloat.ofNat .binary64 n.toNat)).unpack = _
  rw [ofNat_eq hn hpos]
  exact unpack_pack _ _ (nearest_bounds hn) (nearest_exponent hn n.toNat_lt)

theorem unpack_neg {x : Float} {s : Sign} {m : Nat} {e : Int} {hpos : 0 < m}
    (hx : x.toModel.unpack = .finite s m e hpos) (hm : 2 ^ 52 ≤ m ∧ m < 2 ^ 53) (he : -1074 ≤ e ∧ e ≤ 971) :
    (-x).toModel.unpack = .finite (-s) m e hpos := by
  show (Float.Model.pack x.toModel.unpack.neg).unpack = _
  rw [hx]
  exact unpack_pack _ _ hm he

/-! ## The rank of an integer -/

/-- Where the float of an integer stands. -/
def intRank (n : Int) : Rank := ⟨n.sign, n.sign * (nearest n.natAbs).2, n.sign * (nearest n.natAbs).1⟩

theorem rank_toFloat {n : UInt64} (hn : 0 < n.toNat) :
    (n.toFloat.isNaN = false ∧ rank n.toFloat = intRank n.toNat) ∧
      (-n.toFloat).isNaN = false ∧ rank (-n.toFloat) = intRank (-n.toNat) := by
  have hbounds := nearest_bounds hn
  have hpos : 0 < (nearest n.toNat).1 := by omega
  have hunpack := unpack_toFloat hn hpos
  have hneg := unpack_neg hunpack hbounds (nearest_exponent hn n.toNat_lt)
  have hsign : (n.toNat : Int).sign = 1 := Int.sign_eq_one_of_pos (by omega)
  refine ⟨⟨?_, ?_⟩, ?_, ?_⟩
  · show n.toFloat.toModel.unpack.isNaN = false
    rw [hunpack]
    rfl
  · unfold rank
    rw [hunpack]
    simp [rankOf, intRank, Sign.apply, hsign]
  · show (-n.toFloat).toModel.unpack.isNaN = false
    rw [hneg]
    rfl
  · unfold rank
    rw [hneg]
    show Rank.mk (-1) (-(nearest n.toNat).2) (-(nearest n.toNat).1) = _
    simp [intRank, hsign]

theorem rank_ofInt64 (n : Int64) : (ofInt64 n).isNaN = false ∧ rank (ofInt64 n) = intRank n.toInt := by
  have hlo := Int64.le_toInt n
  unfold ofInt64
  split
  case isTrue hneg =>
    have hneg : n.toInt < 0 := Int64.lt_iff_toInt_lt.1 hneg
    have habs : (UInt64.ofNat n.toInt.natAbs).toNat = n.toInt.natAbs :=
      UInt64.toNat_ofNat_of_lt' (show n.toInt.natAbs < 2 ^ 64 by omega)
    obtain ⟨-, hnumber, hrank⟩ := rank_toFloat (n := UInt64.ofNat n.toInt.natAbs) (by omega)
    rw [hrank, habs, show -(n.toInt.natAbs : Int) = n.toInt by omega]
    exact ⟨hnumber, rfl⟩
  case isFalse hneg =>
    have hval : n.toUInt64.toNat = n.toInt := by
      rw [Int64.toNat_toUInt64_of_le (Int64.not_lt.1 hneg), Int64.cast_toNatClampNeg _ (Int64.not_lt.1 hneg)]
    by_cases hzero : n.toUInt64.toNat = 0
    · obtain rfl : n = 0 := Int64.toInt_inj.1 (by rw [← hval, hzero]; rfl)
      exact ⟨rfl, rfl⟩
    · obtain ⟨⟨hnumber, hrank⟩, -⟩ := rank_toFloat (n := n.toUInt64) (by omega)
      rw [hrank, hval]
      exact ⟨hnumber, rfl⟩

theorem intRank_le {m n : Int} (h : m ≤ n) : (intRank m).order (intRank n) ≠ .gt := by
  rw [Rank.order_ne_gt_iff]
  dsimp only [intRank]
  rcases Int.lt_trichotomy m 0 with hm | rfl | hm
  · rw [Int.sign_eq_neg_one_of_neg hm]
    rcases Int.lt_trichotomy n 0 with hn | rfl | hn
    · have := nearest_le (m := n.natAbs) (n := m.natAbs) (by omega) (by omega)
      rw [Int.sign_eq_neg_one_of_neg hn]
      omega
    · exact .inl (by decide)
    · rw [Int.sign_eq_one_of_pos hn]
      exact .inl (by decide)
  · rcases Int.lt_or_eq_of_le h with hn | rfl
    · rw [Int.sign_eq_one_of_pos hn]
      exact .inl (by decide)
    · exact .inr ⟨rfl, .inr ⟨rfl, Int.le_refl _⟩⟩
  · have := nearest_le (m := m.natAbs) (n := n.natAbs) (by omega) (by omega)
    rw [Int.sign_eq_one_of_pos hm, Int.sign_eq_one_of_pos (by omega)]
    omega

theorem intRank_inj {m n : Int} (hm : m.natAbs ≤ 2 ^ 53) (hn : n.natAbs ≤ 2 ^ 53) (h : intRank m = intRank n) :
    m = n := by
  simp only [intRank, Rank.mk.injEq] at h
  obtain ⟨hsign, hexponent, hmantissa⟩ := h
  rw [← hsign] at hexponent hmantissa
  by_cases hzero : m.sign = 0
  · rw [Int.sign_eq_zero_iff_zero.1 hzero, Int.sign_eq_zero_iff_zero.1 (hsign.symm.trans hzero)]
  · have hnearest : nearest m.natAbs = nearest n.natAbs :=
      Prod.ext (Int.ofNat_inj.1 (Int.eq_of_mul_eq_mul_left hzero hmantissa))
        (Int.eq_of_mul_eq_mul_left hzero hexponent)
    have hm0 : m ≠ 0 := mt Int.sign_eq_zero_iff_zero.2 hzero
    have hn0 : n ≠ 0 := mt Int.sign_eq_zero_iff_zero.2 (hsign ▸ hzero)
    have habs := nearest_inj (by omega) (by omega) hm hn hnearest
    rw [← Int.sign_mul_natAbs m, ← Int.sign_mul_natAbs n, hsign, habs]

/-- **Rounding keeps the order of integers.** -/
theorem rank_ofInt64_le {m n : Int64} (h : m ≤ n) : (rank (ofInt64 m)).order (rank (ofInt64 n)) ≠ .gt := by
  rw [(rank_ofInt64 m).2, (rank_ofInt64 n).2]
  exact intRank_le (Int64.le_iff_toInt_le.1 h)

/-- **Up to `2 ^ 53`, integers with one float are one integer.** -/
theorem eq_of_rank_ofInt64 {m n : Int64} (hm : m.toInt.natAbs ≤ 2 ^ 53) (hn : n.toInt.natAbs ≤ 2 ^ 53)
    (h : rank (ofInt64 m) = rank (ofInt64 n)) : m = n := by
  rw [(rank_ofInt64 m).2, (rank_ofInt64 n).2] at h
  exact Int64.toInt_inj.1 (intRank_inj hm hn h)

end Splice.Binary64
