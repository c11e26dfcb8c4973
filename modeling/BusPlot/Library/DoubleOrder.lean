import Mathlib

/-!
# The order of doubles

What `<` decides between two doubles of Lean's model, and that the conversion of
an integer, which rounds to the nearest double, keeps the order. A NaN has no
place among the doubles, and the two zeros share one.
-/

set_option autoImplicit false

namespace DoubleOrder
open Float.Model Float.Model.UnpackedFloat

abbrev Place := ℤ ×ₗ ℤ ×ₗ ℤ

def finitePlace (m : ℕ) (e : ℤ) : Place := toLex (1, toLex (e, (m : ℤ)))

def infinityPlace : Place := toLex (2, toLex (0, 0))

def rank : UnpackedFloat → Option Place
  | .notANumber => none
  | .zero _ => some 0
  | .finite .positive m e _ => some (finitePlace m e)
  | .finite .negative m e _ => some (-finitePlace m e)
  | .infinity .positive => some infinityPlace
  | .infinity .negative => some (-infinityPlace)

def place (x : Float) : Option Place := rank x.toModel.unpack

theorem finite_lt_iff (m n : ℕ) (e f : ℤ) :
    finitePlace m e < finitePlace n f ↔ e < f ∨ e = f ∧ m < n := by
  simp [finitePlace, Prod.Lex.toLex_lt_toLex]

theorem finite_pos (m : ℕ) (e : ℤ) : 0 < finitePlace m e :=
  Prod.Lex.toLex_lt_toLex.mpr (.inl Int.one_pos)

theorem finite_lt_infinity (m : ℕ) (e : ℤ) : finitePlace m e < infinityPlace :=
  Prod.Lex.toLex_lt_toLex.mpr (.inl (show (1 : ℤ) < 2 by decide))

theorem infinity_pos : 0 < infinityPlace :=
  Prod.Lex.toLex_lt_toLex.mpr (.inl (by decide))

theorem compare_lt_iff (m n : ℕ) (e f : ℤ) :
    (compare e f).then (compare m n) = .lt ↔ finitePlace m e < finitePlace n f := by
  rw [finite_lt_iff, Ordering.then_eq_lt, compare_lt_iff_lt, compare_lt_iff_lt,
    compare_eq_iff_eq]

theorem compare_gt_iff (m n : ℕ) (e f : ℤ) :
    (compare e f).then (compare m n) = .gt ↔ finitePlace n f < finitePlace m e := by
  rw [finite_lt_iff, Ordering.then_eq_gt, compare_gt_iff_gt, compare_gt_iff_gt,
    compare_eq_iff_eq, eq_comm]

theorem neg_lt_pos {p q : Place} (hp : 0 < p) (hq : 0 < q) : -p < q :=
  (neg_neg_of_pos hp).trans hq

theorem unpacked_lt_iff (x y : UnpackedFloat) :
    x.lt y = true ↔ ∃ p q, rank x = some p ∧ rank y = some q ∧ p < q := by
  have hinf := infinity_pos
  have hsign : compare Sign.negative Sign.positive = .lt := rfl
  have hpos : ∀ m e, 0 < finitePlace m e := finite_pos
  have htop : ∀ m e, finitePlace m e < infinityPlace := finite_lt_infinity
  have hleft : ∀ m e, -finitePlace m e < infinityPlace := fun m e => neg_lt_pos (hpos m e) hinf
  have hright : ∀ m e, -infinityPlace < finitePlace m e := fun m e => neg_lt_pos hinf (hpos m e)
  have hboth : ∀ m e n f, -finitePlace m e < finitePlace n f :=
    fun m e n f => neg_lt_pos (hpos m e) (hpos n f)
  rcases x with (_ | _) | _ | sx | ⟨_ | _, m, e, hm⟩ <;>
    rcases y with (_ | _) | _ | sy | ⟨_ | _, n, f, hn⟩ <;>
    simp [UnpackedFloat.lt, UnpackedFloat.compare, rank, compare_lt_iff, compare_gt_iff, hinf,
      hinf.le, hsign, hpos, (hpos _ _).le, htop, (htop _ _).le, hleft, (hleft _ _).le, hright,
      (hright _ _).le, hboth, (hboth _ _ _ _).le]

theorem lt_iff (x y : Float) :
    x < y ↔ ∃ p q, place x = some p ∧ place y = some q ∧ p < q := by
  rw [place, place, ← unpacked_lt_iff]
  show decide (x.toModel < y.toModel) = true ↔ _
  rw [decide_eq_true_eq]
  rfl

def weight (em : ExtendedMantissa) : ℕ :=
  4*em.mantissa+2*em.roundBit.toNat+em.stickyBit.toNat

theorem weight_shiftRightOne (a b : ExtendedMantissa) (h : weight a ≤ weight b) :
    weight a.shiftRightOne ≤ weight b.shiftRightOne := by
  have hbit : ∀ m : ℕ, (m % 2 != 0).toNat = m % 2 := fun m => by
    rcases Nat.mod_two_eq_zero_or_one m with hm | hm <;> simp [hm]
  obtain ⟨m, r, s⟩ := a
  obtain ⟨n, t, u⟩ := b
  simp only [weight, ExtendedMantissa.shiftRightOne, hbit] at h ⊢
  cases r <;> cases s <;> cases t <;> cases u <;> simp at h ⊢ <;> omega

theorem shiftRight_succ (a : ExtendedMantissa) (n : ℕ) :
    a >>> (n+1) = (a >>> n).shiftRightOne := rfl

theorem weight_shiftRight (a b : ExtendedMantissa) (n : ℕ) (h : weight a ≤ weight b) :
    weight (a >>> n) ≤ weight (b >>> n) := by
  induction n with
  | zero => exact h
  | succ n ih =>
    rw [shiftRight_succ, shiftRight_succ]
    exact weight_shiftRightOne _ _ ih

theorem mantissa_shiftRight (a : ExtendedMantissa) (n : ℕ) :
    (a >>> n).mantissa = a.mantissa/2^n := by
  induction n with
  | zero => exact (Nat.div_one _).symm
  | succ n ih =>
    rw [shiftRight_succ, ExtendedMantissa.shiftRightOne, ih, Nat.div_div_eq_div_mul, Nat.pow_succ]

theorem roundedMantissa_mono (a b : ExtendedMantissa) (h : weight a ≤ weight b) :
    a.roundedMantissa ≤ b.roundedMantissa := by
  obtain ⟨m, r, s⟩ := a
  obtain ⟨n, t, u⟩ := b
  simp only [weight] at h
  cases r <;> cases s <;> cases t <;> cases u <;>
    simp [ExtendedMantissa.roundedMantissa, ExtendedMantissa.accuracy,
      Accuracy.roundToNearestEven] at h ⊢ <;> omega

theorem roundedMantissa_bounds (a : ExtendedMantissa) :
    a.mantissa ≤ a.roundedMantissa ∧ a.roundedMantissa ≤ a.mantissa+1 := by
  obtain ⟨m, r, s⟩ := a
  have hodd := Nat.mod_lt m Nat.two_pos
  cases r <;> cases s <;>
    simp [ExtendedMantissa.roundedMantissa, ExtendedMantissa.accuracy,
      Accuracy.roundToNearestEven]
  omega

def near (k : ℕ) : ℕ :=
  ((⟨k <<< (52-k.log2), false, false⟩ : ExtendedMantissa) >>> (k.log2-52)).roundedMantissa

theorem near_bounds (k : ℕ) (hk : 0 < k) : 2^52 ≤ near k ∧ near k ≤ 2^53 := by
  obtain ⟨hlow, hhigh⟩ := roundedMantissa_bounds
    ((⟨k <<< (52-k.log2), false, false⟩ : ExtendedMantissa) >>> (k.log2-52))
  rw [mantissa_shiftRight] at hlow hhigh
  simp only [Nat.shiftLeft_eq] at hlow hhigh
  have hlog : 2^k.log2 ≤ k := Nat.log2_self_le (by omega)
  have hlt : k < 2^(k.log2+1) := Nat.lt_log2_self
  have hmant : 2^52 ≤ k*2^(52-k.log2)/2^(k.log2-52) ∧ k*2^(52-k.log2)/2^(k.log2-52) < 2^53 := by
    rcases Nat.le_total k.log2 52 with h | h
    · have hpow : 2^k.log2*2^(52-k.log2) = 2^52 := by rw [← Nat.pow_add]; congr 1; omega
      rw [Nat.sub_eq_zero_of_le h, Nat.pow_zero, Nat.div_one]
      constructor
      · rw [← hpow]
        exact Nat.mul_le_mul_right _ hlog
      · calc k*2^(52-k.log2)
          _ < 2^(k.log2+1)*2^(52-k.log2) := Nat.mul_lt_mul_of_pos_right hlt (Nat.two_pow_pos _)
          _ = 2^53 := by rw [Nat.pow_succ, Nat.mul_right_comm, hpow]; rfl
    · have hpow : 2^52*2^(k.log2-52) = 2^k.log2 := by rw [← Nat.pow_add]; congr 1; omega
      rw [Nat.sub_eq_zero_of_le h, Nat.pow_zero, Nat.mul_one]
      constructor
      · rw [Nat.le_div_iff_mul_le (Nat.two_pow_pos _), hpow]
        exact hlog
      · rw [Nat.div_lt_iff_lt_mul (Nat.two_pow_pos _)]
        calc k
          _ < 2^(k.log2+1) := hlt
          _ = 2^53*2^(k.log2-52) := by rw [Nat.pow_succ, ← hpow, Nat.mul_right_comm]; rfl
  simp only [near, Nat.shiftLeft_eq]
  omega

theorem near_mono (j k : ℕ) (h : j ≤ k) (hlog : j.log2 = k.log2) : near j ≤ near k := by
  apply roundedMantissa_mono
  rw [hlog]
  apply weight_shiftRight
  simp only [weight, Nat.shiftLeft_eq]
  have := Nat.mul_le_mul_right (2^(52-k.log2)) h
  omega

def carry (r : ℕ) (e : ℤ) : ℕ × ℤ := if r < 2^53 then (r, e) else (2^52, e+1)

theorem carry_bounds (r : ℕ) (e : ℤ) (hr : 2^52 ≤ r ∧ r ≤ 2^53) :
    2^52 ≤ (carry r e).1 ∧ (carry r e).1 < 2^53 ∧ e ≤ (carry r e).2 := by
  unfold carry
  split <;> refine ⟨?_, ?_, ?_⟩ <;> dsimp only <;> omega

theorem targetExponent_eq (m : ℕ) (e : ℤ) :
    Format.binary64.targetExponent (totalExponent m e) = max ((m.log2 : ℤ)-52+e) (-1074) := by
  simp only [Format.targetExponent, totalExponent, Format.mantissaBits, Format.minExponent]
  norm_num
  omega

/-- The mantissa is rounded where its residual bits are known, and one that has
become too long is halved. -/
theorem roundWithAccuracy_eq (sign : Sign) (m : ℕ) (e : ℤ) (accuracy : Accuracy) (k r : ℕ)
    (hk : k = (max ((m.log2 : ℤ)-52+e) (-1074)-e).toNat)
    (hr : r = (ExtendedMantissa.ofMantissaAndAccuracy m accuracy >>> k).roundedMantissa)
    (hbounds : 2^52 ≤ r ∧ r ≤ 2^53) (he : -1074 ≤ e+k) :
    ∃ h, roundWithAccuracy Format.binary64 sign m e accuracy =
      .finite sign (carry r (e+k)).1 (carry r (e+k)).2 h := by
  have hfirst : shiftToTargetExponent Format.binary64 m e accuracy =
      (ExtendedMantissa.ofMantissaAndAccuracy m accuracy >>> k, e+k) := by
    rw [shiftToTargetExponent, targetExponent_eq, shiftToExponent, ← hk]
  have hcarry : (shiftToTargetExponent Format.binary64 r (e+k) .exact).1.mantissa =
      (carry r (e+k)).1 ∧ (shiftToTargetExponent Format.binary64 r (e+k) .exact).2 =
        (carry r (e+k)).2 := by
    have hshift : ∀ n : ℕ, (max ((r.log2 : ℤ)-52+(e+k)) (-1074)-(e+k)).toNat = n →
        (shiftToTargetExponent Format.binary64 r (e+k) .exact).1.mantissa = r/2^n ∧
          (shiftToTargetExponent Format.binary64 r (e+k) .exact).2 = e+k+n := by
      rintro n hn
      rw [shiftToTargetExponent, targetExponent_eq, shiftToExponent, hn, mantissa_shiftRight]
      exact ⟨rfl, rfl⟩
    unfold carry
    split
    · rename_i hlt
      have hlog : r.log2 = 52 := (Nat.log2_eq_iff (by omega)).mpr ⟨hbounds.1, hlt⟩
      simpa using hshift 0 (by rw [hlog]; omega)
    · rename_i hge
      have hlast : r = 2^53 := by omega
      have hlog : r.log2 = 53 := by rw [hlast, Nat.log2_two_pow]
      obtain ⟨hm, hexp⟩ := hshift 1 (by rw [hlog]; omega)
      exact ⟨by rw [hm, hlast]; rfl, by rw [hexp]; rfl⟩
  have hpos : 0 < (carry r (e+k)).1 := by
    have := carry_bounds r (e+k) hbounds
    omega
  refine ⟨hpos, ?_⟩
  unfold roundWithAccuracy
  simp only [hfirst, ← hr, hcarry.1, hcarry.2]
  rw [dif_neg (by omega)]

theorem log2_shiftLeft (k n : ℕ) (hk : 0 < k) : (k <<< n).log2 = k.log2+n := by
  have hpow := Nat.two_pow_pos n
  rw [Nat.shiftLeft_eq, Nat.log2_eq_iff (Nat.mul_ne_zero (by omega) (by omega))]
  constructor
  · rw [Nat.pow_add]
    exact Nat.mul_le_mul_right _ (Nat.log2_self_le (by omega))
  · rw [show k.log2+n+1 = k.log2+1+n by omega, Nat.pow_add]
    exact Nat.mul_lt_mul_of_pos_right Nat.lt_log2_self hpow

theorem round_natural (sign : Sign) (k : ℕ) (hk : 0 < k) :
    ∃ h, UnpackedFloat.round Format.binary64 sign k 0 =
      .finite sign (carry (near k) (k.log2-52)).1 (carry (near k) (k.log2-52)).2 h := by
  have hlower : decreaseExponent k 0 (Format.binary64.targetExponent (totalExponent k 0)) =
      (k <<< (52-k.log2), -((52-k.log2 : ℕ) : ℤ)) := by
    have hshift : (0-max ((k.log2 : ℤ)-52+0) (-1074)).toNat = 52-k.log2 := by omega
    rw [decreaseExponent, targetExponent_eq, hshift, Int.zero_sub]
  have hexp : -((52-k.log2 : ℕ) : ℤ)+((k.log2-52 : ℕ) : ℤ) = k.log2-52 := by omega
  obtain ⟨h, heq⟩ := roundWithAccuracy_eq sign (k <<< (52-k.log2)) (-((52-k.log2 : ℕ) : ℤ)) .exact
    (k.log2-52) (near k) (by rw [log2_shiftLeft k _ hk]; omega) rfl (near_bounds k hk) (by omega)
  simp only [hexp] at h heq
  refine ⟨h, ?_⟩
  simp only [UnpackedFloat.round, hlower, heq]

theorem unpack_infinity (sign : Sign) :
    UnpackedFloat.unpack Format.binary64 (packedInfinity Format.binary64 sign) =
      .infinity sign := by
  simp only [UnpackedFloat.unpack, packedInfinity, unpackExponent_packComponents,
    unpackMantissa_packComponents, unpackSign_packComponents, Sign.ofBitVec_toBitVec]
  rfl

theorem unpack_normal (sign : Sign) (biased m : ℕ) (hb : 0 < biased ∧ biased < 2047)
    (hm : 2^52 ≤ m ∧ m < 2^53) :
    ∃ h, UnpackedFloat.unpack Format.binary64 (packComponents Format.binary64 sign
      (BitVec.ofNat 11 biased) (BitVec.ofNat 52 m)) = .finite sign m ((biased : ℤ)-1075) h := by
  have hnat : (BitVec.ofNat 11 biased).toNat = biased := by
    rw [BitVec.toNat_ofNat, Nat.mod_eq_of_lt (by omega)]
  have hmant : (1#1 ++ BitVec.ofNat 52 m).toNat = m := by
    rw [BitVec.toNat_append, ← Nat.shiftLeft_add_eq_or_of_lt (BitVec.isLt _), BitVec.toNat_ofNat]
    simp only [BitVec.toNat_ofNat, Nat.shiftLeft_eq]
    omega
  have hfull : BitVec.ofNat 11 biased ≠ -1#11 := by
    intro h
    rw [h] at hnat
    simp at hnat
    omega
  have hzero : BitVec.ofNat 11 biased ≠ 0#11 := by
    intro h
    rw [h] at hnat
    simp at hnat
    omega
  refine ⟨by omega, ?_⟩
  simp only [UnpackedFloat.unpack, unpackExponent_packComponents, unpackMantissa_packComponents,
    unpackSign_packComponents, Sign.ofBitVec_toBitVec]
  rw [if_neg hfull, if_neg hzero]
  simp only [hmant, hnat]
  rfl

/-- A double of fifty-three bits comes back as it was packed, or as an infinity. -/
theorem unpack_pack (sign : Sign) (m : ℕ) (e : ℤ) (hm : 0 < m) (hlow : 2^52 ≤ m)
    (hhigh : m < 2^53) (he : -1074 ≤ e) :
    (Float.Model.pack (.finite sign m e hm)).unpack =
      if 971 < e then .infinity sign else .finite sign m e hm := by
  have hlog : m.log2 = 52 := (Nat.log2_eq_iff (by omega)).mpr ⟨hlow, hhigh⟩
  have hbiased : (e+(Format.exponentBias Format.binary64)+(52 : ℕ)).toNat = (e+1075).toNat := by
    rw [show Format.exponentBias Format.binary64 = 1023 from rfl]
    omega
  show UnpackedFloat.unpack Format.binary64 (UnpackedFloat.pack Format.binary64 _) = _
  unfold UnpackedFloat.pack
  simp only [hlog, hbiased, Format.mantissaBits]
  by_cases hinf : 971 < e
  · rw [if_pos hinf, if_pos (by omega)]
    exact unpack_infinity sign
  · rw [if_neg hinf, if_neg (by omega), if_pos trivial]
    obtain ⟨h, heq⟩ := unpack_normal sign (e+1075).toNat m (by omega) ⟨hlow, hhigh⟩
    rw [heq]
    congr 1
    omega

def ofInt (n : ℤ) : Float := .ofModel (.ofInt n)

def naturalPlace (k : ℕ) : Place :=
  if 971 < (carry (near k) (k.log2-52)).2 then infinityPlace
  else finitePlace (carry (near k) (k.log2-52)).1 (carry (near k) (k.log2-52)).2

theorem naturalPlace_pos (k : ℕ) : 0 < naturalPlace k := by
  unfold naturalPlace
  split
  · exact infinity_pos
  · exact finite_pos _ _

theorem rank_round (k : ℕ) (hk : 0 < k) :
    rank (Float.Model.pack (UnpackedFloat.round Format.binary64 .positive k 0)).unpack =
      some (naturalPlace k) ∧
    rank (Float.Model.pack (UnpackedFloat.round Format.binary64 .negative k 0)).unpack =
      some (-naturalPlace k) := by
  have hbounds := near_bounds k hk
  obtain ⟨hlow, hhigh, hexp⟩ := carry_bounds (near k) (k.log2-52) hbounds
  constructor
  · obtain ⟨h, heq⟩ := round_natural .positive k hk
    rw [heq, unpack_pack .positive _ _ h hlow hhigh (by omega), naturalPlace]
    split <;> rfl
  · obtain ⟨h, heq⟩ := round_natural .negative k hk
    rw [heq, unpack_pack .negative _ _ h hlow hhigh (by omega), naturalPlace]
    split <;> rfl

/-- A larger number has a larger exponent, or the same one and no smaller mantissa. -/
theorem naturalPlace_mono (j k : ℕ) (hj : 0 < j) (h : j ≤ k) :
    naturalPlace j ≤ naturalPlace k := by
  have hnj := near_bounds j hj
  have hnk := near_bounds k (by omega)
  have hlog : j.log2 ≤ k.log2 := by
    rw [Nat.log2_eq_log_two, Nat.log2_eq_log_two]
    exact Nat.log_mono_right h
  have hcarry : (carry (near j) (j.log2-52)).2 < (carry (near k) (k.log2-52)).2 ∨
      (carry (near j) (j.log2-52)).2 = (carry (near k) (k.log2-52)).2 ∧
        (carry (near j) (j.log2-52)).1 ≤ (carry (near k) (k.log2-52)).1 := by
    have hsame : j.log2 = k.log2 → near j ≤ near k := near_mono j k h
    unfold carry
    split <;> split <;> dsimp only <;> omega
  unfold naturalPlace
  split
  · rw [if_pos (by omega)]
  · split
    · exact (finite_lt_infinity _ _).le
    · refine Prod.Lex.toLex_le_toLex.mpr (.inr ⟨rfl, Prod.Lex.toLex_le_toLex.mpr ?_⟩)
      simpa using hcarry

theorem place_ofInt (n : ℤ) :
    place (ofInt n) = some (if 0 < n then naturalPlace n.toNat
      else if n < 0 then -naturalPlace (-n).toNat else 0) := by
  have hnorm : place (ofInt n) =
      rank (Float.Model.pack (UnpackedFloat.normalize Format.binary64 n 0 .positive)).unpack := rfl
  rw [hnorm, UnpackedFloat.normalize]
  rcases lt_trichotomy n 0 with hn | rfl | hn
  · rw [compare_lt_iff_lt.mpr hn, if_neg (by omega), if_pos hn]
    exact (rank_round _ (by omega)).2
  · rfl
  · rw [compare_gt_iff_gt.mpr hn, if_pos hn]
    exact (rank_round _ (by omega)).1

theorem ofInt_mono (m n : ℤ) (h : m ≤ n) :
    ∃ p q, place (ofInt m) = some p ∧ place (ofInt n) = some q ∧ p ≤ q := by
  refine ⟨_, _, place_ofInt m, place_ofInt n, ?_⟩
  have hpos := naturalPlace_pos
  split
  · rw [if_pos (by omega)]
    exact naturalPlace_mono _ _ (by omega) (Int.toNat_le_toNat h)
  split
  · split
    · exact (neg_lt_pos (hpos _) (hpos _)).le
    split
    · exact neg_le_neg (naturalPlace_mono _ _ (by omega) (Int.toNat_le_toNat (by omega)))
    · exact (neg_neg_of_pos (hpos _)).le
  · split
    · exact (hpos _).le
    · rw [if_neg (by omega)]

theorem lt_asymm (x y : Float) (h : x < y) : ¬ y < x := by
  intro hlt
  obtain ⟨a, b, ha, hb, hab⟩ := (lt_iff _ _).mp h
  obtain ⟨c, d, hc, hd, hcd⟩ := (lt_iff _ _).mp hlt
  obtain rfl : b = c := Option.some.inj (hb.symm.trans hc)
  obtain rfl : a = d := Option.some.inj (ha.symm.trans hd)
  exact absurd hab hcd.asymm

theorem lt_ofInt_of_le (x : Float) (m n : ℤ) (h : m ≤ n) (hx : x < ofInt m) : x < ofInt n := by
  obtain ⟨p, q, hp, hq, hle⟩ := ofInt_mono m n h
  obtain ⟨a, b, ha, hb, hab⟩ := (lt_iff _ _).mp hx
  obtain rfl : p = b := Option.some.inj (hp.symm.trans hb)
  exact (lt_iff _ _).mpr ⟨a, q, ha, hq, hab.trans_le hle⟩

theorem ofInt_lt_of_le (x : Float) (m n : ℤ) (h : m ≤ n) (hx : ofInt n < x) : ofInt m < x := by
  obtain ⟨p, q, hp, hq, hle⟩ := ofInt_mono m n h
  obtain ⟨a, b, ha, hb, hab⟩ := (lt_iff _ _).mp hx
  obtain rfl : q = a := Option.some.inj (hq.symm.trans ha)
  exact (lt_iff _ _).mpr ⟨p, b, hp, hb, hle.trans_lt hab⟩

/-- Nothing is below the smaller of two converted integers and above the larger. -/
theorem not_between (x : Float) (m n : ℤ) (h : m ≤ n) (hx : x < ofInt m) : ¬ ofInt n < x :=
  lt_asymm x _ (lt_ofInt_of_le x m n h hx)

end DoubleOrder
