import Mathlib
import StreamPlan.Proofs.Rows.Order

/-!
# Whole numbers among floats

A whole number is compared with a float through the float nearest to it. Many whole numbers
may have the same one, but rounding does not turn their order around: it is read here off the
bits of floats, as they are unpacked, rounded and packed again.

* `Value.place?`, `Value.unpacked_compare`: floats compare as their places do, lexicographically.
* `Value.nearest`, `Value.shift_rounded`: shifting a mantissa with its two residual bits and
  rounding it divides by a power of two and gives the nearest number, an even one between two.
* `Value.roundWithAccuracy_eq`, `Value.stored_finite`: a number of at least 53 bits is rounded to
  53 bits, once more shifted if there is a carry, and is infinite if its exponent is too large.
* `Value.unpack_ofNat`: what a positive number becomes, by either way of converting it.
* `Value.place?_ofInt`, `Value.wholePlace_mono`: a whole number becomes a float with a place, and
  **rounding keeps their order**.
-/

namespace StreamPlan

namespace Value

open Float.Model Float.Model.UnpackedFloat

/-- The place of a float in the order of floats, by sign, then by exponent, then by mantissa.
A float that is no number has none. -/
def place? : UnpackedFloat → Option (Int × Int × Int)
  | .notANumber => none
  | .infinity .negative => some (-2, 0, 0)
  | .finite .negative m e _ => some (-1, -e, -m)
  | .zero _ => some (0, 0, 0)
  | .finite .positive m e _ => some (1, e, m)
  | .infinity .positive => some (2, 0, 0)

/-- The order of places. -/
def comparePlaces : Int × Int × Int → Int × Int × Int → Ordering :=
  compareLex (compareOn (·.1)) (compareLex (compareOn (·.2.1)) (compareOn (·.2.2)))

instance : Std.TransCmp comparePlaces := inferInstanceAs (Std.TransCmp (compareLex _ _))

theorem compare_neg (m n : Int) : compare (-m) (-n) = (compare m n).swap := by
  simp only [compare, compareOfLessAndEq]
  split_ifs <;> first | rfl | omega

theorem compare_cast (m n : Nat) : compare (m : Int) (n : Int) = compare m n := by
  simp only [compare, compareOfLessAndEq]
  split_ifs <;> first | rfl | omega

/-- Floats compare as their places do. -/
theorem unpacked_compare (x y : UnpackedFloat) :
    x.compare y = (place? x).bind fun p => (place? y).map fun q => comparePlaces p q := by
  rcases x with (_ | _) | _ | _ | ⟨_ | _, m, e⟩ <;> rcases y with (_ | _) | _ | _ | ⟨_ | _, m', e'⟩
  all_goals first
    | rfl
    | simp only [place?, Option.bind_some, Option.map_some, comparePlaces, compareLex, compareOn,
        compare_neg, compare_cast, Std.ReflCmp.compare_self, ← Ordering.swap_then]
      rfl

/-- The whole number nearest to `m / 2 ^ k`, an even one between two. -/
def nearest (m k : Nat) : Nat :=
  if 2 * (m % 2 ^ k) < 2 ^ k then m / 2 ^ k
  else if 2 * (m % 2 ^ k) = 2 ^ k then m / 2 ^ k + m / 2 ^ k % 2
  else m / 2 ^ k + 1

/-- A mantissa after `k` shifts to the right: the last bit shifted out decides between the two
nearest mantissas, with the bits below it. -/
theorem shift_succ (m k : Nat) :
    ExtendedMantissa.ofMantissaAndAccuracy m .exact >>> (k + 1)
      = ⟨m / 2 ^ (k + 1), m / 2 ^ k % 2 != 0, m % 2 ^ k != 0⟩ := by
  induction k with
  | zero => simp [HShiftRight.hShiftRight, Nat.repeat, ExtendedMantissa.shiftRightOne,
      ExtendedMantissa.ofMantissaAndAccuracy, Nat.mod_one]
  | succ k ih =>
    have hstep : ExtendedMantissa.ofMantissaAndAccuracy m .exact >>> (k + 1 + 1)
      = (ExtendedMantissa.ofMantissaAndAccuracy m .exact >>> (k + 1)).shiftRightOne := rfl
    have hrest : m % 2 ^ (k + 1) = m % 2 ^ k + 2 ^ k * (m / 2 ^ k % 2) := Nat.mod_pow_succ
    rw [hstep, ih, ExtendedMantissa.shiftRightOne, Nat.div_div_eq_div_mul, ← Nat.pow_succ]
    congr 1
    rcases Nat.mod_two_eq_zero_or_one (m / 2 ^ k) with h | h
    · simp [hrest, h]
    · simp [hrest, h]

/-- Shifting and rounding gives the nearest mantissa. -/
theorem shift_rounded (m k : Nat) :
    (ExtendedMantissa.ofMantissaAndAccuracy m .exact >>> k).roundedMantissa = nearest m k := by
  cases k with
  | zero =>
    have hshift : ExtendedMantissa.ofMantissaAndAccuracy m .exact >>> 0 = ⟨m, false, false⟩ := rfl
    rw [hshift]
    simp [nearest, Nat.mod_one, ExtendedMantissa.roundedMantissa, ExtendedMantissa.accuracy,
      Accuracy.roundToNearestEven]
  | succ k =>
    have hrest : m % 2 ^ (k + 1) = m % 2 ^ k + 2 ^ k * (m / 2 ^ k % 2) := Nat.mod_pow_succ
    have hlt : m % 2 ^ k < 2 ^ k := Nat.mod_lt m (Nat.two_pow_pos k)
    rw [shift_succ, nearest, hrest, Nat.pow_succ]
    rcases Nat.mod_two_eq_zero_or_one (m / 2 ^ k) with hbit | hbit
    all_goals
      by_cases hlow : m % 2 ^ k = 0
      all_goals
        simp only [hbit, hlow, ExtendedMantissa.roundedMantissa, ExtendedMantissa.accuracy,
          Accuracy.roundToNearestEven, bne_self_eq_false, Nat.reduceBNe]
        try grind

theorem nearest_bounds (m k : Nat) : m / 2 ^ k ≤ nearest m k ∧ nearest m k ≤ m / 2 ^ k + 1 := by
  unfold nearest
  split_ifs <;> omega

/-- Rounding keeps the order. -/
theorem nearest_mono {m n : Nat} (k : Nat) (h : m ≤ n) : nearest m k ≤ nearest n k := by
  have hdiv : m / 2 ^ k ≤ n / 2 ^ k := Nat.div_le_div_right h
  rcases Nat.lt_or_eq_of_le hdiv with hlt | heq
  · have := (nearest_bounds m k).2
    have := (nearest_bounds n k).1
    omega
  · have hm := Nat.div_add_mod m (2 ^ k)
    have hn := Nat.div_add_mod n (2 ^ k)
    unfold nearest
    rw [heq] at hm ⊢
    split_ifs <;> omega

/-- Bits of zeros below are shifted out without a trace. -/
theorem nearest_scaled (m j k : Nat) : nearest (m * 2 ^ j) (k + j) = nearest m k := by
  have hpos : 0 < 2 ^ j := Nat.two_pow_pos j
  have hrest : m * 2 ^ j % 2 ^ (k + j) = m % 2 ^ k * 2 ^ j := by
    rw [Nat.pow_add, Nat.mul_mod_mul_right]
  have hdiv : m * 2 ^ j / 2 ^ (k + j) = m / 2 ^ k := by
    rw [Nat.pow_add, Nat.mul_div_mul_right _ _ hpos]
  have hlt : 2 * (m % 2 ^ k * 2 ^ j) < 2 ^ (k + j) ↔ 2 * (m % 2 ^ k) < 2 ^ k := by
    rw [Nat.pow_add, ← Nat.mul_assoc, Nat.mul_lt_mul_right hpos]
  have heq : 2 * (m % 2 ^ k * 2 ^ j) = 2 ^ (k + j) ↔ 2 * (m % 2 ^ k) = 2 ^ k := by
    rw [Nat.pow_add, ← Nat.mul_assoc, Nat.mul_left_inj hpos.ne']
  simp only [nearest, hrest, hdiv, hlt, heq]

/-- A mantissa of 53 bits, or the next power of two, which has one bit less to show. -/
theorem nearest_range {m k : Nat} (hlog : m.log2 = 52 + k) :
    2 ^ 52 ≤ nearest m k ∧ nearest m k ≤ 2 ^ 53 := by
  have hm : m ≠ 0 := by
    rintro rfl
    simp at hlog
    omega
  have hlo : 2 ^ 52 ≤ m / 2 ^ k := by
    rw [Nat.le_div_iff_mul_le (Nat.two_pow_pos k), ← Nat.pow_add, ← hlog]
    exact Nat.log2_self_le hm
  have hhi : m / 2 ^ k < 2 ^ 53 := by
    rw [Nat.div_lt_iff_lt_mul (Nat.two_pow_pos k), ← Nat.pow_add,
      show 53 + k = m.log2 + 1 by omega]
    exact Nat.lt_log2_self
  have := nearest_bounds m k
  omega

/-- The float with a sign, a mantissa of 53 bits or the next power of two, and an exponent. -/
def carried (s : Sign) (r : Nat) (e : Int) (h : 0 < r) : UnpackedFloat :=
  if r = 2 ^ 53 then .finite s (2 ^ 52) (e + 1) (by decide) else .finite s r e h

theorem targetExponent_eq {m : Nat} {e : Int} (h : -1074 ≤ m.log2 - 52 + e) :
    Format.binary64.targetExponent (totalExponent m e) = m.log2 - 52 + e := by
  have hleast : Format.binary64.minExponent = -1074 := rfl
  have hbits : Format.binary64.mantissaBits = 53 := rfl
  rw [Format.targetExponent, hleast, hbits, totalExponent]
  omega

theorem shiftToTarget_eq {m k : Nat} {e : Int} (hlog : m.log2 = 52 + k) (he : -1074 ≤ e + k) :
    shiftToTargetExponent Format.binary64 m e .exact
      = (ExtendedMantissa.ofMantissaAndAccuracy m .exact >>> k, e + k) := by
  have hk : (m.log2 - 52 + e - e).toNat = k := by omega
  rw [shiftToTargetExponent, targetExponent_eq (by omega), shiftToExponent, hk]

/-- A rounded mantissa is shifted once more if it takes too many bits. -/
theorem shift_carried {r : Nat} {e : Int} (hlo : 2 ^ 52 ≤ r) (hhi : r ≤ 2 ^ 53) (he : -1074 ≤ e) :
    shiftToTargetExponent Format.binary64 r e .exact
      = if r = 2 ^ 53 then (⟨2 ^ 52, false, false⟩, e + 1) else (⟨r, false, false⟩, e) := by
  split_ifs with hcarry
  · rw [hcarry, shiftToTarget_eq (k := 1) (by rw [Nat.log2_two_pow]) (by omega)]
    rfl
  · have hlog : r.log2 = 52 := (Nat.log2_eq_iff (by omega)).2 ⟨hlo, by omega⟩
    rw [shiftToTarget_eq (k := 0) (by rw [hlog]) (by simpa using he)]
    exact congrArg _ (Int.add_zero e)

/-- A number of at least 53 bits is rounded to the nearest mantissa. -/
theorem roundWithAccuracy_eq {s : Sign} {m k : Nat} {e : Int} (hlog : m.log2 = 52 + k)
    (he : -1074 ≤ e + k) :
    roundWithAccuracy Format.binary64 s m e .exact
      = carried s (nearest m k) (e + k) (Nat.lt_of_lt_of_le (by decide) (nearest_range hlog).1) := by
  obtain ⟨hlo, hhi⟩ := nearest_range hlog
  simp only [roundWithAccuracy, shiftToTarget_eq hlog he, shift_rounded, shift_carried hlo hhi he,
    carried]
  by_cases hcarry : nearest m k = 2 ^ 53
  · simp [hcarry]
  · have hpos : nearest m k ≠ 0 := by omega
    simp only [if_neg hcarry]
    rw [dif_neg hpos]

@[simp] theorem unpackSign_packComponents {s : Sign} {e : BitVec 11} {m : BitVec 52} :
    Sign.ofBitVec (unpackSign (packComponents Format.binary64 s e m)) = s := by
  simp only [unpackSign, packComponents, BitVec.extractLsb]
  rw [BitVec.extractLsb'_append_eq_of_le (by decide), BitVec.extractLsb'_append_eq_of_le (by decide)]
  cases s <;> rfl

/-- What is read back from the bits of a float. -/
def stored (x : UnpackedFloat) : UnpackedFloat :=
  UnpackedFloat.unpack Format.binary64 (UnpackedFloat.pack Format.binary64 x)

theorem toNat_implicit {w : Nat} (v : BitVec w) : (1#1 ++ v).toNat = 2 ^ w + v.toNat := by
  rw [BitVec.toNat_append, ← Nat.shiftLeft_add_eq_or_of_lt v.isLt]
  simp [Nat.shiftLeft_eq]

/-- A float with a mantissa of 53 bits is read back, but for one too large, which is infinite. -/
theorem stored_finite {s : Sign} {m : Nat} {e : Int} (hm : 0 < m) (hlo : 2 ^ 52 ≤ m)
    (hhi : m < 2 ^ 53) (he : -1074 ≤ e) :
    stored (.finite s m e hm) = if 972 ≤ e then .infinity s else .finite s m e hm := by
  have hlog : m.log2 = 52 := (Nat.log2_eq_iff (by omega)).2 ⟨hlo, hhi⟩
  have hbias : (Format.binary64.exponentBias : Int) = 1023 := rfl
  have hbits : (e + Format.binary64.exponentBias + Format.binary64.mantissaBitsWithoutImplicit).toNat
      = (e + 1075).toNat := congrArg Int.toNat (by simp only [hbias]; omega)
  have hwidth : 52 + 1 = Format.binary64.mantissaBits := rfl
  rw [stored, UnpackedFloat.pack]
  simp only [hlog, hbits]
  by_cases hbig : 972 ≤ e
  · rw [if_pos hbig, if_pos (by omega)]
    cases s <;> rfl
  · rw [if_neg hbig, if_neg (by omega), if_pos hwidth, UnpackedFloat.unpack]
    have hexponent : (BitVec.ofNat 11 (e + 1075).toNat).toNat = (e + 1075).toNat := by
      rw [BitVec.toNat_ofNat, Nat.mod_eq_of_lt (by omega)]
    have hne {b : BitVec 11} (h : (e + 1075).toNat ≠ b.toNat) : BitVec.ofNat 11 (e + 1075).toNat ≠ b :=
      fun hb => h (hexponent ▸ congrArg BitVec.toNat hb)
    have hmantissa : (1#1 ++ BitVec.ofNat 52 m).toNat = m := by
      rw [toNat_implicit, BitVec.toNat_ofNat]
      omega
    simp only [unpackMantissa_packComponents, unpackExponent_packComponents, unpackSign_packComponents]
    rw [if_neg (hne (by simp; omega)), if_neg (hne (by simp; omega))]
    simp only [hmantissa, hexponent, hbias]
    congr 1
    omega

theorem log2_scaled {n : Nat} (hn : 0 < n) (j : Nat) : (n * 2 ^ j).log2 = n.log2 + j := by
  have hpos : 0 < 2 ^ j := Nat.two_pow_pos j
  refine (Nat.log2_eq_iff (Nat.mul_pos hn hpos).ne').2 ⟨?_, ?_⟩
  · rw [Nat.pow_add]
    exact Nat.mul_le_mul_right _ (Nat.log2_self_le hn.ne')
  · rw [show n.log2 + j + 1 = n.log2 + 1 + j by omega, Nat.pow_add]
    exact Nat.mul_lt_mul_of_pos_right Nat.lt_log2_self hpos

/-- The leading 53 bits of a whole number, rounded. -/
def significand (n : Nat) : Nat := nearest (n * 2 ^ 53) (n.log2 + 1)

theorem significand_range {n : Nat} (hn : 0 < n) : 2 ^ 52 ≤ significand n ∧ significand n ≤ 2 ^ 53 :=
  nearest_range (by rw [log2_scaled hn]; omega)

/-- The float nearest to a positive number, with a sign. -/
def nearestFloat (s : Sign) (n : Nat) (hn : 0 < n) : UnpackedFloat :=
  carried s (significand n) (n.log2 - 52) (Nat.lt_of_lt_of_le (by decide) (significand_range hn).1)

/-- A number of up to 53 bits is its own significand, but for zeros behind it. -/
theorem significand_small {n : Nat} (h : n.log2 ≤ 52) :
    significand n = n * 2 ^ (52 - n.log2) := by
  have hsplit : n * 2 ^ 53 = n * 2 ^ (52 - n.log2) * 2 ^ (n.log2 + 1) := by
    rw [Nat.mul_assoc, ← Nat.pow_add]
    congr 2
    omega
  rw [significand, hsplit]
  have hscaled := nearest_scaled (n * 2 ^ (52 - n.log2)) (n.log2 + 1) 0
  rw [Nat.zero_add] at hscaled
  rw [hscaled]
  simp [nearest, Nat.mod_one]

theorem ofNat_large {n : Nat} (h : 2 ^ 53 ≤ n) :
    (Float.ofNat n).toModel.unpack = stored (nearestFloat .positive n (by omega)) := by
  have hn : 0 < n := by omega
  have hlog : (n * 2 ^ 53).log2 = 52 + (n.log2 + 1) := by
    rw [log2_scaled hn]
    omega
  have hmodel : Float.ofNat n = Float.ofModel (Float.Model.ofScientific n 0) := by
    change Float.ofScientific n false 0 = _
    rw [Float.ofScientific, dif_neg (by omega)]
    rfl
  have hlarge : ¬(0 : Int) < -((2 : Int) ^ Format.binary64.exponentBits + n.log2) := by
    have : (0 : Int) ≤ 2 ^ Format.binary64.exponentBits := by decide
    omega
  have hround : UnpackedFloat.ofScientific Format.binary64 n 0
      = roundWithAccuracy Format.binary64 .positive (n * 2 ^ 53) (-53) .exact := by
    rw [UnpackedFloat.ofScientific, dif_neg hn.ne', if_neg (by decide), if_neg hlarge,
      if_pos (Int.le_refl 0)]
    simp only [UnpackedFloat.mul, Nat.shiftLeft_eq, Int.toNat_zero, Nat.pow_zero, Nat.mul_one,
      Int.add_zero]
    rfl
  have hexponent : -53 + ((n.log2 + 1 : Nat) : Int) = n.log2 - 52 := by omega
  rw [hmodel, Float.Model.ofScientific, hround, roundWithAccuracy_eq hlog (by omega)]
  simp only [hexponent]
  rfl

/-- A number of up to 53 bits as a float. -/
theorem ofUInt64_small {n : Nat} (hn : 0 < n) (h : n < 2 ^ 53) :
    n.toUInt64.toFloat.toModel.unpack
      = .finite .positive (n * 2 ^ (52 - n.log2)) (n.log2 - 52)
          (Nat.mul_pos hn (Nat.two_pow_pos _)) := by
  have hword : n.toUInt64.toNat = n := Nat.mod_eq_of_lt (by omega)
  have hlog : n.log2 ≤ 52 := by
    have := (Nat.log2_lt hn.ne').2 h
    omega
  have hmantissa : (n * 2 ^ (52 - n.log2)).log2 = 52 + 0 := by
    rw [log2_scaled hn]
    omega
  have hround : UnpackedFloat.ofUInt64 Format.binary64 n.toUInt64
      = roundWithAccuracy Format.binary64 .positive (n * 2 ^ (52 - n.log2)) (n.log2 - 52) .exact := by
    have hsign : compare (n : Int) 0 = .gt := Std.compare_eq_gt.2 (by omega)
    have htarget : (0 - ((n.log2 : Int) - 52 + 0)).toNat = 52 - n.log2 := by omega
    have hexponent : (0 : Int) - ((52 - n.log2 : Nat) : Int) = n.log2 - 52 := by omega
    rw [UnpackedFloat.ofUInt64, hword, UnpackedFloat.ofNat, UnpackedFloat.ofInt,
      UnpackedFloat.normalize, hsign]
    simp only [UnpackedFloat.round, Int.toNat_natCast]
    rw [targetExponent_eq (by omega), decreaseExponent]
    simp only [htarget, hexponent, Nat.shiftLeft_eq]
  have hrange : 2 ^ 52 ≤ n * 2 ^ (52 - n.log2) ∧ n * 2 ^ (52 - n.log2) < 2 ^ 53 :=
    (Nat.log2_eq_iff (Nat.mul_pos hn (Nat.two_pow_pos _)).ne').1 hmantissa
  -- no bit is cut off, so nothing is rounded
  have hnear : nearest (n * 2 ^ (52 - n.log2)) 0 = n * 2 ^ (52 - n.log2) := by
    simp [nearest, Nat.mod_one]
  change stored (UnpackedFloat.ofUInt64 Format.binary64 n.toUInt64) = _
  rw [hround, roundWithAccuracy_eq hmantissa (by omega)]
  simp only [hnear, Int.natCast_zero, Int.add_zero]
  rw [carried, if_neg hrange.2.ne, stored_finite _ hrange.1 hrange.2 (by omega), if_neg (by omega)]

theorem ofNat_small {n : Nat} (hn : 0 < n) (h : n < 2 ^ 53) :
    (Float.ofNat n).toModel.unpack = stored (nearestFloat .positive n hn) := by
  have hlog : n.log2 ≤ 52 := by
    have := (Nat.log2_lt hn.ne').2 h
    omega
  have hmantissa : (n * 2 ^ (52 - n.log2) * 2 ^ 52).log2 = 52 + 52 := by
    rw [log2_scaled (Nat.mul_pos hn (Nat.two_pow_pos _)), log2_scaled hn]
    omega
  have hmodel : Float.ofNat n = n.toUInt64.toFloat * 1.0 := by
    change Float.ofScientific n false 0 = _
    rw [Float.ofScientific, dif_pos ⟨h, by decide⟩]
    rfl
  have hone : (1.0 : Float).toModel.unpack = .finite .positive (2 ^ 52) (-52) (by decide) := rfl
  have hproduct : (n.toUInt64.toFloat * 1.0).toModel.unpack
      = stored (UnpackedFloat.mul Format.binary64 n.toUInt64.toFloat.toModel.unpack
          (1.0 : Float).toModel.unpack) := rfl
  have hnear : nearest (n * 2 ^ (52 - n.log2) * 2 ^ 52) 52 = significand n := by
    have := nearest_scaled (n * 2 ^ (52 - n.log2)) 52 0
    rw [Nat.zero_add] at this
    rw [this, significand_small hlog]
    simp [nearest, Nat.mod_one]
  have hexponent : ((n.log2 : Int) - 52 + -52) + (52 : Nat) = n.log2 - 52 := by omega
  rw [hmodel, hproduct, ofUInt64_small hn h, hone, UnpackedFloat.mul]
  rw [roundWithAccuracy_eq hmantissa (by omega)]
  simp only [hnear, hexponent]
  rfl

/-- A positive number becomes the float nearest to it, or infinite. -/
theorem unpack_ofNat {n : Nat} (hn : 0 < n) :
    (Float.ofNat n).toModel.unpack = stored (nearestFloat .positive n hn) := by
  rcases Nat.lt_or_ge n (2 ^ 53) with h | h
  · exact ofNat_small hn h
  · exact ofNat_large h

/-- The place of a positive float with a mantissa of 53 bits. -/
def settled (m : Nat) (e : Int) : Int × Int × Int := if 972 ≤ e then (2, 0, 0) else (1, e, m)

/-- The place of the float nearest to a positive number. -/
def positivePlace (n : Nat) : Int × Int × Int :=
  if significand n = 2 ^ 53 then settled (2 ^ 52) (n.log2 - 51) else settled (significand n) (n.log2 - 52)

/-- The place of the float with the other sign. -/
def oppositePlace (p : Int × Int × Int) : Int × Int × Int := (-p.1, -p.2.1, -p.2.2)

theorem place?_neg (x : UnpackedFloat) : place? x.neg = (place? x).map oppositePlace := by
  rcases x with (_ | _) | _ | _ | ⟨_ | _, m, e⟩
  all_goals simp [UnpackedFloat.neg, place?, oppositePlace]

/-- A positive number becomes a float with a mantissa of 53 bits, or infinite. -/
theorem ofNat_normal {n : Nat} (hn : 0 < n) :
    ∃ (m : Nat) (e : Int) (hm : 0 < m), 2 ^ 52 ≤ m ∧ m < 2 ^ 53 ∧ -1074 ≤ e ∧ positivePlace n = settled m e ∧
      (Float.ofNat n).toModel.unpack = stored (.finite .positive m e hm) := by
  obtain ⟨hlo, hhi⟩ := significand_range hn
  rw [unpack_ofNat hn, nearestFloat, carried, positivePlace]
  split_ifs with hcarry
  · refine ⟨2 ^ 52, n.log2 - 52 + 1, by decide, by decide, by decide, by omega, ?_, rfl⟩
    congr 1
    omega
  · exact ⟨significand n, n.log2 - 52, by omega, hlo, by omega, by omega, rfl, rfl⟩

theorem place?_ofNat {n : Nat} (hn : 0 < n) :
    place? (Float.ofNat n).toModel.unpack = some (positivePlace n) := by
  obtain ⟨m, e, hm, hlo, hhi, he, hplace, hunpack⟩ := ofNat_normal hn
  rw [hunpack, hplace, stored_finite hm hlo hhi he, settled]
  split_ifs <;> rfl

theorem place?_neg_ofNat {n : Nat} (hn : 0 < n) :
    place? (Float.ofNat n).neg.toModel.unpack = some (oppositePlace (positivePlace n)) := by
  obtain ⟨m, e, hm, hlo, hhi, he, -, hunpack⟩ := ofNat_normal hn
  -- The float with the other sign is read back too.
  have hback : stored (Float.ofNat n).toModel.unpack.neg = (Float.ofNat n).toModel.unpack.neg := by
    rw [hunpack, stored_finite hm hlo hhi he]
    split_ifs with hbig
    · rfl
    · exact (stored_finite hm hlo hhi he).trans (if_neg hbig)
  have hneg : (Float.ofNat n).neg.toModel.unpack = stored (Float.ofNat n).toModel.unpack.neg := rfl
  rw [hneg, hback, place?_neg, place?_ofNat hn, Option.map_some]

theorem comparePlaces_isLE {p q : Int × Int × Int} : (comparePlaces p q).isLE ↔
    p.1 < q.1 ∨ p.1 = q.1 ∧ (p.2.1 < q.2.1 ∨ p.2.1 = q.2.1 ∧ p.2.2 ≤ q.2.2) := by
  simp only [comparePlaces, compareLex, compareOn, Ordering.isLE_then_iff_or, compare_lt_iff_lt,
    compare_eq_iff_eq, Std.isLE_compare]

theorem positivePlace_mono {m n : Nat} (hm : 0 < m) (h : m ≤ n) :
    (comparePlaces (positivePlace m) (positivePlace n)).isLE := by
  obtain ⟨hlo, hhi⟩ := significand_range hm
  obtain ⟨hlo', hhi'⟩ := significand_range (Nat.lt_of_lt_of_le hm h)
  have hlog : m.log2 ≤ n.log2 := (Nat.le_log2 (by omega)).2 ((Nat.log2_self_le hm.ne').trans h)
  have hsame : m.log2 = n.log2 → significand m ≤ significand n := by
    intro heq
    rw [significand, significand, heq]
    exact nearest_mono _ (Nat.mul_le_mul_right _ h)
  rw [comparePlaces_isLE]
  unfold positivePlace settled
  split_ifs <;> simp <;> omega

theorem positivePlace_pos (n : Nat) : 0 < (positivePlace n).1 := by
  unfold positivePlace settled
  split_ifs <;> simp

theorem comparePlaces_opposite {p q : Int × Int × Int} :
    (comparePlaces (oppositePlace p) (oppositePlace q)).isLE ↔ (comparePlaces q p).isLE := by
  simp only [comparePlaces_isLE, oppositePlace]
  omega

/-- The place of the float nearest to a whole number. -/
def wholePlace : Int → Int × Int × Int
  | .ofNat 0 => (0, 0, 0)
  | .ofNat (n + 1) => positivePlace (n + 1)
  | .negSucc n => oppositePlace (positivePlace (n + 1))

theorem place?_ofInt (n : Int) : place? (Float.ofInt n).toModel.unpack = some (wholePlace n) := by
  rcases n with (_ | n) | n
  · rfl
  · exact place?_ofNat (Nat.succ_pos n)
  · exact place?_neg_ofNat (Nat.succ_pos n)

theorem wholePlace_mono {m n : Int} (h : m ≤ n) :
    (comparePlaces (wholePlace m) (wholePlace n)).isLE := by
  -- Numbers with other signs, or one of them zero, are told apart by the first part of the place.
  have hfirst : ∀ {p q : Int × Int × Int}, p.1 < q.1 → (comparePlaces p q).isLE :=
    fun hlt => comparePlaces_isLE.2 (.inl hlt)
  rcases m with (_ | m) | m <;> rcases n with (_ | n) | n
  case ofNat.zero.ofNat.zero => rfl
  case ofNat.zero.ofNat.succ => exact hfirst (positivePlace_pos _)
  case ofNat.succ.ofNat.succ => exact positivePlace_mono (Nat.succ_pos m) (by simpa using h)
  case negSucc.ofNat.zero => exact hfirst (Int.neg_neg_of_pos (positivePlace_pos _))
  case negSucc.ofNat.succ =>
    exact hfirst ((Int.neg_neg_of_pos (positivePlace_pos _)).trans (positivePlace_pos _))
  case negSucc.negSucc =>
    exact comparePlaces_opposite.2 (positivePlace_mono (Nat.succ_pos n) (by omega))
  all_goals
    simp only [Int.ofNat_eq_natCast] at h
    omega

end Value
end StreamPlan
