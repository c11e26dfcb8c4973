import BusPlot.Library.DoubleOrder

/-!
# How far a double is off

Products and quotients of doubles are rounded to the nearest mantissa of fifty-three
bits, so each of them is off by at most one part in `2^53`. An integer that is divided
by another one and multiplied by it again comes back closer than its neighbours, and
where the places of the quotient are small beside the divisor it comes back itself.
-/

set_option autoImplicit false

namespace DoubleRounding
open Float.Model hiding ofInt
open Float.Model.UnpackedFloat DoubleOrder

/-- Where a number lies between a mantissa and the next one, as the residual bits say. -/
def Lies (em : ExtendedMantissa) (t : ℚ) : Prop :=
  match em.roundBit, em.stickyBit with
  | false, false => t = em.mantissa
  | false, true => em.mantissa < t ∧ t < em.mantissa+1/2
  | true, false => t = em.mantissa+1/2
  | true, true => em.mantissa+1/2 < t ∧ t < em.mantissa+1

theorem lies_shiftRightOne (em : ExtendedMantissa) (t : ℚ) (h : Lies em t) :
    Lies em.shiftRightOne (t/2) := by
  obtain ⟨m, r, s⟩ := em
  have hm : (m : ℚ) = 2*((m/2 : ℕ) : ℚ)+((m%2 : ℕ) : ℚ) := by
    exact_mod_cast (Nat.div_add_mod m 2).symm
  unfold Lies at h ⊢
  rcases Nat.mod_two_eq_zero_or_one m with hpar | hpar <;> rw [hpar] at hm <;>
    cases r <;> cases s <;> simp [ExtendedMantissa.shiftRightOne, hpar] at h hm ⊢ <;>
    first | linarith | exact ⟨by linarith, by linarith⟩

theorem lies_shiftRight (em : ExtendedMantissa) (t : ℚ) (n : ℕ) (h : Lies em t) :
    Lies (em >>> n) (t/2^n) := by
  induction n with
  | zero =>
    rw [pow_zero, div_one]
    exact h
  | succ n ih =>
    rw [shiftRight_succ, pow_succ, ← div_div]
    exact lies_shiftRightOne _ _ ih

theorem lies_bounds (em : ExtendedMantissa) (t : ℚ) (h : Lies em t) :
    (em.mantissa : ℚ) ≤ t ∧ t < em.mantissa+1 := by
  obtain ⟨m, r, s⟩ := em
  unfold Lies at h
  cases r <;> cases s <;> simp only at h ⊢ <;> constructor <;> linarith

theorem lies_rounded (em : ExtendedMantissa) (t : ℚ) (h : Lies em t) :
    |(em.roundedMantissa : ℚ)-t| ≤ 1/2 := by
  obtain ⟨m, r, s⟩ := em
  unfold Lies at h
  rw [abs_le]
  cases r <;> cases s <;>
    simp only [ExtendedMantissa.roundedMantissa, ExtendedMantissa.accuracy,
      Accuracy.roundToNearestEven] at h ⊢
  · constructor <;> linarith
  · constructor <;> linarith
  · rcases Nat.mod_two_eq_zero_or_one m with hpar | hpar <;> rw [hpar] <;> push_cast <;>
      constructor <;> linarith
  · push_cast
    constructor <;> linarith

/-- The accuracy of a quotient says where the quotient lies. -/
theorem lies_quotient (n d : ℕ) (hd : 0 < d) :
    Lies (.ofMantissaAndAccuracy (n/d) (accuracyOfFraction (n%d) d)) ((n : ℚ)/d) := by
  have hd' : (0 : ℚ) < d := by exact_mod_cast hd
  have hn : (n : ℚ) = d*((n/d : ℕ) : ℚ)+((n%d : ℕ) : ℚ) := by
    exact_mod_cast (Nat.div_add_mod n d).symm
  have hlt : ((n%d : ℕ) : ℚ) < d := by exact_mod_cast Nat.mod_lt n hd
  have hquot : (n : ℚ)/d = ((n/d : ℕ) : ℚ)+((n%d : ℕ) : ℚ)/d := by
    rw [hn]
    field_simp
  rw [hquot, accuracyOfFraction]
  generalize n%d = r at hlt
  generalize n/d = q
  split
  · rename_i hr
    simp [Lies, ExtendedMantissa.ofMantissaAndAccuracy, hr]
  · rename_i hr
    have hr' : (0 : ℚ) < (r : ℚ)/d := div_pos (by exact_mod_cast Nat.pos_of_ne_zero hr) hd'
    have hone : (r : ℚ)/d < 1 := (div_lt_one hd').mpr hlt
    rcases lt_trichotomy (2*r) d with h | h | h
    · have hhalf : (r : ℚ)/d < 1/2 := by
        rw [div_lt_iff₀ hd']
        have : (2*r : ℚ) < d := by exact_mod_cast h
        linarith
      simp only [Lies, compare_lt_iff_lt.mpr h, ExtendedMantissa.ofMantissaAndAccuracy]
      constructor <;> linarith
    · have hhalf : (r : ℚ)/d = 1/2 := by
        rw [div_eq_iff hd'.ne']
        have : (2*r : ℚ) = d := by exact_mod_cast h
        linarith
      simp only [Lies, compare_eq_iff_eq.mpr h, ExtendedMantissa.ofMantissaAndAccuracy]
      linarith
    · have hhalf : 1/2 < (r : ℚ)/d := by
        rw [lt_div_iff₀ hd']
        have : (d : ℚ) < 2*r := by exact_mod_cast h
        linarith
      simp only [Lies, compare_gt_iff_gt.mpr h, ExtendedMantissa.ofMantissaAndAccuracy]
      constructor <;> linarith

theorem mantissa_ofAccuracy (m : ℕ) (accuracy : Accuracy) :
    (ExtendedMantissa.ofMantissaAndAccuracy m accuracy).mantissa = m := by
  rcases accuracy with _ | (_ | _ | _) <;> rfl

theorem shifted_bounds (m : ℕ) (hm : 2^52 ≤ m) :
    2^52 ≤ m/2^(m.log2-52) ∧ m/2^(m.log2-52) < 2^53 := by
  have hlog : 52 ≤ m.log2 := (Nat.le_log2 (by omega)).mpr hm
  have hlow : 2^m.log2 ≤ m := Nat.log2_self_le (by omega)
  have hhigh : m < 2^(m.log2+1) := Nat.lt_log2_self
  constructor
  · rw [Nat.le_div_iff_mul_le (Nat.two_pow_pos _), ← Nat.pow_add]
    exact (Nat.pow_le_pow_right Nat.two_pos (by omega)).trans hlow
  · rw [Nat.div_lt_iff_lt_mul (Nat.two_pow_pos _), ← Nat.pow_add]
    exact hhigh.trans_le (Nat.pow_le_pow_right Nat.two_pos (by omega))

theorem carry_exponent (r : ℕ) (e : ℤ) : (carry r e).2 ≤ e+1 := by
  unfold carry
  split <;> dsimp only <;> omega

theorem carry_value (r : ℕ) (e : ℤ) (hr : r ≤ 2^53) :
    ((carry r e).1 : ℚ)*2^(carry r e).2 = r*2^e := by
  unfold carry
  split
  · rfl
  · have hlast : r = 2^53 := by omega
    rw [hlast, zpow_add_one₀ two_ne_zero]
    push_cast
    ring

/-- One number is the other one rounded: it is off by at most one part in `2^53`, and
by at most half a unit in the last of the other one's fifty-three places. -/
def Near (s t : ℚ) : Prop := |s-t| ≤ t/2^53 ∧ ∀ k : ℤ, t < 2^(k+1) → |s-t| ≤ 2^(k-53)

theorem near_of_unit (s t : ℚ) (l : ℤ) (hunit : |s-t| ≤ 2^(l-53)) (hl : 2^l ≤ t) : Near s t := by
  have hpow : (2 : ℚ)^(l-53) = 2^l/2^53 := by
    rw [zpow_sub₀ two_ne_zero]
    rfl
  refine ⟨?_, ?_⟩
  · rw [hpow] at hunit
    exact hunit.trans (div_le_div_of_nonneg_right hl (by positivity))
  · rintro k hk
    have hlt := (zpow_lt_zpow_iff_right₀ (one_lt_two (α := ℚ))).mp (hl.trans_lt hk)
    exact hunit.trans (zpow_le_zpow_right₀ one_le_two (by omega))

theorem round_near (sign : Sign) (m : ℕ) (e : ℤ) (accuracy : Accuracy) (t : ℚ)
    (ht : Lies (.ofMantissaAndAccuracy m accuracy) t) (hm : 2^52 ≤ m)
    (he : -1074 ≤ (m.log2 : ℤ)-52+e) :
    ∃ r f h, roundWithAccuracy Format.binary64 sign m e accuracy = .finite sign r f h ∧
      2^52 ≤ r ∧ r < 2^53 ∧ -1074 ≤ f ∧ f ≤ (m.log2 : ℤ)-51+e ∧ Near (r*2^f) (t*2^e) := by
  have hlog : 52 ≤ m.log2 := (Nat.le_log2 (by omega)).mpr hm
  obtain ⟨hlow, hhigh⟩ := shifted_bounds m hm
  have hlies := lies_shiftRight _ t (m.log2-52) ht
  have hmantissa := mantissa_shiftRight (.ofMantissaAndAccuracy m accuracy) (m.log2-52)
  rw [mantissa_ofAccuracy] at hmantissa
  obtain ⟨r, hr⟩ : ∃ r, r =
      (ExtendedMantissa.ofMantissaAndAccuracy m accuracy >>> (m.log2-52)).roundedMantissa :=
    ⟨_, rfl⟩
  have hrounded := roundedMantissa_bounds
    (ExtendedMantissa.ofMantissaAndAccuracy m accuracy >>> (m.log2-52))
  have hnear := lies_rounded _ _ hlies
  have hbelow := (lies_bounds _ _ hlies).1
  rw [← hr] at hrounded hnear
  obtain ⟨h, heq⟩ := roundWithAccuracy_eq sign m e accuracy (m.log2-52) r (by omega) hr
    (by omega) (by omega)
  obtain ⟨hclow, hchigh, hcexp⟩ := carry_bounds r (e+(m.log2-52 : ℕ)) (by omega)
  have hctop := carry_exponent r (e+(m.log2-52 : ℕ))
  refine ⟨_, _, h, heq, hclow, hchigh, by omega, by omega,
    near_of_unit _ _ (e+(m.log2-52 : ℕ)+52) ?_ ?_⟩
  · have ht' : t*2^e = t/2^(m.log2-52)*2^(e+(m.log2-52 : ℕ)) := by
      rw [zpow_add₀ two_ne_zero, zpow_natCast]
      field_simp
    have hhalf : (2 : ℚ)^(e+(m.log2-52 : ℕ)+52-53) = 1/2*2^(e+(m.log2-52 : ℕ)) := by
      rw [show e+((m.log2-52 : ℕ) : ℤ)+52-53 = -1+(e+(m.log2-52 : ℕ)) by ring,
        zpow_add₀ two_ne_zero (-1 : ℤ), zpow_neg_one, one_div]
    have hpos : (0 : ℚ) < 2^(e+(m.log2-52 : ℕ)) := by positivity
    rw [carry_value r _ (by omega), ht', ← sub_mul, abs_mul, abs_of_pos hpos, hhalf]
    exact mul_le_mul_of_nonneg_right hnear hpos.le
  · have hfull : (2 : ℚ)^52 ≤ t/2^(m.log2-52) := by
      refine le_trans ?_ hbelow
      rw [hmantissa]
      exact_mod_cast hlow
    rw [le_div_iff₀ (by positivity)] at hfull
    calc (2 : ℚ)^(e+((m.log2-52 : ℕ) : ℤ)+52)
      _ = 2^52*2^(m.log2-52)*2^e := by
          rw [zpow_add₀ two_ne_zero, zpow_add₀ two_ne_zero, zpow_natCast, mul_comm, mul_comm (2^e),
            ← mul_assoc]
          rfl
      _ ≤ t*2^e := mul_le_mul_of_nonneg_right hfull (by positivity)

/-- A positive double of full precision stands for a number. -/
def Stands (x : Float) (q : ℚ) : Prop :=
  ∃ r f h, x.toModel.unpack = .finite .positive r f h ∧ 2^52 ≤ r ∧ r < 2^53 ∧ q = r*2^f

theorem value_lt (r s : ℕ) (f g : ℤ) (hr : r < 2^53) (hs : 2^52 ≤ s) (h : f < g) :
    (r : ℚ)*2^f < s*2^g := by
  have hr' : (r : ℚ) < 2^53 := by exact_mod_cast hr
  have hs' : (2 : ℚ)^52 ≤ s := by exact_mod_cast hs
  calc (r : ℚ)*2^f
    _ < 2^53*2^f := mul_lt_mul_of_pos_right hr' (by positivity)
    _ = 2^52*2^(f+1) := by rw [zpow_add_one₀ two_ne_zero]; ring
    _ ≤ s*2^g := mul_le_mul hs' (zpow_le_zpow_right₀ one_le_two h) (by positivity) (by positivity)

theorem stands_lt (x y : Float) (q p : ℚ) (hx : Stands x q) (hy : Stands y p) : x < y ↔ q < p := by
  obtain ⟨r, f, h, hux, hr, hr', rfl⟩ := hx
  obtain ⟨s, g, k, huy, hs, hs', rfl⟩ := hy
  have hplaces : x < y ↔ finitePlace r f < finitePlace s g := by
    rw [lt_iff, place, place, hux, huy]
    simp [rank]
  rw [hplaces, finite_lt_iff]
  rcases lt_trichotomy f g with hlt | rfl | hlt
  · exact iff_of_true (.inl hlt) (value_lt r s f g hr' hs hlt)
  · rw [mul_lt_mul_iff_left₀ (by positivity), Nat.cast_lt]
    simp
  · exact iff_of_false (by omega) (value_lt s r g f hs' hr hlt).asymm

theorem ofInt_zero_lt (x : Float) (q : ℚ) (hx : Stands x q) : ofInt 0 < x := by
  obtain ⟨r, f, h, hux, -, -, -⟩ := hx
  refine (lt_iff _ _).mpr ⟨0, finitePlace r f, place_ofInt 0, ?_, finite_pos r f⟩
  rw [place, hux]
  rfl

theorem stands_ofInt (n : ℕ) (hn : 0 < n) (hn' : n < 2^53) : Stands (ofInt n) n := by
  have hlog : n.log2 < 53 := (Nat.log2_lt (by omega)).mpr hn'
  obtain ⟨hlow, hhigh, hexp⟩ := carry_bounds (near n) (n.log2-52) (near_bounds n hn)
  have hctop := carry_exponent (near n) (n.log2-52)
  obtain ⟨h, heq⟩ := round_natural .positive n hn
  refine ⟨_, (carry (near n) ((n.log2 : ℤ)-52)).2, h, ?_, hlow, hhigh, ?_⟩
  · have hnorm : (ofInt n).toModel.unpack =
        (Float.Model.pack (UnpackedFloat.normalize Format.binary64 n 0 .positive)).unpack := rfl
    rw [hnorm, UnpackedFloat.normalize, compare_gt_iff_gt.mpr (by omega : (n : ℤ) > 0),
      Int.toNat_natCast, heq, unpack_pack .positive _ _ h hlow hhigh (by omega), if_neg (by omega)]
  · have hnear : near n = n*2^(52-n.log2) := by
      have hshift : n.log2-52 = 0 := by omega
      rw [near, hshift, Nat.shiftLeft_eq]
      rfl
    have hpow : ((2 : ℚ)^(52-n.log2))*2^((n.log2 : ℤ)-52) = 1 := by
      rw [← zpow_natCast, ← zpow_add₀ two_ne_zero, Nat.cast_sub (by omega)]
      simp
    rw [carry_value _ _ (near_bounds n hn).2, hnear]
    push_cast
    rw [mul_assoc, hpow, mul_one]

/-- A number of moderate size is rounded to a double that is off by at most one part
in `2^53`. -/
theorem round_stands (m : ℕ) (e : ℤ) (accuracy : Accuracy) (t : ℚ)
    (ht : Lies (.ofMantissaAndAccuracy m accuracy) t) (hm : 2^52 ≤ m)
    (hlow : (2 : ℚ)^(-1000 : ℤ) ≤ t*2^e) (hhigh : t*2^e ≤ (2 : ℚ)^(1000 : ℤ)) :
    ∃ s, Stands (.ofModel (Float.Model.pack
      (roundWithAccuracy Format.binary64 .positive m e accuracy))) s ∧
        Near s (t*2^e) := by
  have hmantissa := mantissa_ofAccuracy m accuracy
  obtain ⟨hbelow, habove⟩ := lies_bounds _ _ ht
  rw [hmantissa] at hbelow habove
  have hmin : (2 : ℚ)^(m.log2 : ℤ) ≤ t := by
    refine le_trans ?_ hbelow
    rw [zpow_natCast]
    exact_mod_cast Nat.log2_self_le (by omega)
  have hmax : t < (2 : ℚ)^((m.log2 : ℤ)+1) := by
    refine habove.trans_le ?_
    have hlt : m+1 ≤ 2^(m.log2+1) := Nat.lt_log2_self
    exact_mod_cast hlt
  have hexp : (m.log2 : ℤ)+e ≤ 1000 := by
    rw [← zpow_le_zpow_iff_right₀ (one_lt_two (α := ℚ)), zpow_add₀ two_ne_zero]
    exact (mul_le_mul_of_nonneg_right hmin (by positivity)).trans hhigh
  have hexp' : -1000 < (m.log2 : ℤ)+1+e := by
    rw [← zpow_lt_zpow_iff_right₀ (one_lt_two (α := ℚ)), zpow_add₀ two_ne_zero (_+1)]
    exact hlow.trans_lt (mul_lt_mul_of_pos_right hmax (by positivity))
  obtain ⟨r, f, h, heq, hr, hr', hf, hf', hnear⟩ :=
    round_near .positive m e accuracy t ht hm (by omega)
  refine ⟨_, ⟨r, f, h, ?_, hr, hr', rfl⟩, hnear⟩
  rw [heq]
  exact (unpack_pack .positive r f h hr hr' hf).trans (if_neg (by omega))

theorem mul_finite (r s : ℕ) (f g : ℤ) (h : 0 < r) (k : 0 < s) :
    UnpackedFloat.mul Format.binary64 (.finite .positive r f h) (.finite .positive s g k) =
      roundWithAccuracy Format.binary64 .positive (r*s) (f+g) .exact := by
  rw [UnpackedFloat.mul]
  rfl

theorem stands_mul (x y : Float) (q p : ℚ) (hx : Stands x q) (hy : Stands y p)
    (hlow : (2 : ℚ)^(-1000 : ℤ) ≤ q*p) (hhigh : q*p ≤ (2 : ℚ)^(1000 : ℤ)) :
    ∃ s, Stands (x*y) s ∧ Near s (q*p) := by
  obtain ⟨r, f, h, hux, hr, hr', rfl⟩ := hx
  obtain ⟨s, g, k, huy, hs, hs', rfl⟩ := hy
  have hproduct : (r : ℚ)*2^f*(s*2^g) = ((r*s : ℕ) : ℚ)*2^(f+g) := by
    rw [zpow_add₀ two_ne_zero, Nat.cast_mul]
    ring
  have hmodel : x*y = .ofModel (Float.Model.pack (UnpackedFloat.mul Format.binary64
      x.toModel.unpack y.toModel.unpack)) := rfl
  have hlies : Lies (.ofMantissaAndAccuracy (r*s) .exact) ((r*s : ℕ) : ℚ) := rfl
  have hfull : 2^52 ≤ r*s := hr.trans (Nat.le_mul_of_pos_right r k)
  rw [hproduct] at hlow hhigh ⊢
  rw [hmodel, hux, huy, mul_finite]
  exact round_stands (r*s) (f+g) .exact _ hlies hfull hlow hhigh

theorem div_finite (r s : ℕ) (f g : ℤ) (h : 0 < r) (k : 0 < s) (hr : r.log2 = 52)
    (hs : s.log2 = 52) (hexp : -1001 ≤ f-g) :
    UnpackedFloat.div Format.binary64 (.finite .positive r f h) (.finite .positive s g k) =
      roundWithAccuracy Format.binary64 .positive ((r <<< 53)/s) (f-g-53)
        (accuracyOfFraction ((r <<< 53)%s) s) := by
  have htarget : min (f-g) (Format.binary64.targetExponent
      (totalExponent r f-totalExponent s g)) = f-g-53 := by
    simp only [Format.targetExponent, totalExponent, hr, hs]
    rw [show Format.binary64.minExponent = -1074 from rfl,
      show Format.binary64.mantissaBits = 53 from rfl]
    omega
  have hshift : (f-g-(f-g-53)).toNat = 53 := by omega
  have hcore : divCore Format.binary64 r f s g =
      ((r <<< 53)/s, f-g-53, accuracyOfFraction ((r <<< 53)%s) s) := by
    simp only [divCore, htarget, hshift]
  rw [UnpackedFloat.div, hcore]
  rfl

theorem quotient_exponent (r s : ℕ) (f g : ℤ) (hr : r < 2^53) (hs : 2^52 ≤ s)
    (hlow : (2 : ℚ)^(-1000 : ℤ) ≤ r*(2 : ℚ)^f/(s*(2 : ℚ)^g)) : -1001 ≤ f-g := by
  have hs0 : (0 : ℚ) < s := by exact_mod_cast (by omega : 0 < s)
  have hratio : (r : ℚ)/s < 2 := by
    rw [div_lt_iff₀ hs0]
    exact_mod_cast (by omega : r < 2*s)
  have hsplit : (r : ℚ)*(2 : ℚ)^f/(s*(2 : ℚ)^g) = r/s*(2 : ℚ)^(f-g) := by
    rw [zpow_sub₀ two_ne_zero, mul_div_mul_comm]
  rw [hsplit] at hlow
  have hlt : (2 : ℚ)^(-1000 : ℤ) < 2^(f-g+1) := by
    rw [zpow_add_one₀ two_ne_zero, mul_comm _ (2 : ℚ)]
    exact hlow.trans_lt (mul_lt_mul_of_pos_right hratio (by positivity))
  have := (zpow_lt_zpow_iff_right₀ (one_lt_two (α := ℚ))).mp hlt
  omega

theorem quotient_value (r s : ℕ) (f g : ℤ) :
    (r : ℚ)*(2 : ℚ)^f/(s*(2 : ℚ)^g) = ((r <<< 53 : ℕ) : ℚ)/s*(2 : ℚ)^(f-g-53) := by
  have hpow : (2 : ℚ)^53*2^(f-g-53) = 2^(f-g) := by
    rw [← zpow_natCast, ← zpow_add₀ two_ne_zero, Nat.cast_ofNat, add_sub_cancel]
  rw [Nat.shiftLeft_eq, Nat.cast_mul, Nat.cast_pow, Nat.cast_ofNat,
    mul_div_right_comm (r : ℚ) (2^53), mul_assoc, hpow, zpow_sub₀ two_ne_zero, mul_div_mul_comm]

theorem quotient_stands (n d : ℕ) (e : ℤ) (hd : 0 < d) (hfull : 2^52 ≤ n/d)
    (hlow : (2 : ℚ)^(-1000 : ℤ) ≤ (n : ℚ)/d*2^e) (hhigh : (n : ℚ)/d*2^e ≤ (2 : ℚ)^(1000 : ℤ)) :
    ∃ s, Stands (.ofModel (Float.Model.pack (roundWithAccuracy Format.binary64 .positive (n/d) e
      (accuracyOfFraction (n%d) d)))) s ∧ Near s ((n : ℚ)/d*2^e) :=
  round_stands _ _ _ _ (lies_quotient n d hd) hfull hlow hhigh

theorem stands_div (x y : Float) (q p : ℚ) (hx : Stands x q) (hy : Stands y p)
    (hlow : (2 : ℚ)^(-1000 : ℤ) ≤ q/p) (hhigh : q/p ≤ (2 : ℚ)^(1000 : ℤ)) :
    ∃ s, Stands (x/y) s ∧ Near s (q/p) := by
  obtain ⟨r, f, h, hux, hr, hr', rfl⟩ := hx
  obtain ⟨s, g, k, huy, hs, hs', rfl⟩ := hy
  have hexp := quotient_exponent r s f g hr' hs hlow
  have hquotient := quotient_value r s f g
  have hmodel : x/y = .ofModel (Float.Model.pack (UnpackedFloat.div Format.binary64
      x.toModel.unpack y.toModel.unpack)) := rfl
  have hfull : 2^52 ≤ (r <<< 53)/s := by
    rw [Nat.le_div_iff_mul_le k, Nat.shiftLeft_eq]
    calc 2^52*s
      _ ≤ 2^52*2^53 := Nat.mul_le_mul_left _ hs'.le
      _ ≤ r*2^53 := Nat.mul_le_mul_right _ hr
  rw [hquotient] at hlow hhigh ⊢
  rw [hmodel, hux, huy, div_finite r s f g h k ((Nat.log2_eq_iff h.ne').mpr ⟨hr, hr'⟩)
    ((Nat.log2_eq_iff k.ne').mpr ⟨hs, hs'⟩) hexp]
  exact quotient_stands (r <<< 53) s (f-g-53) k hfull hlow hhigh

theorem two_zpow_bounds (x : ℚ) (hlow : 1/2^54 ≤ x) (hhigh : x ≤ 2^54) :
    (2 : ℚ)^(-1000 : ℤ) ≤ x ∧ x ≤ (2 : ℚ)^(1000 : ℤ) := by
  constructor
  · calc (2 : ℚ)^(-1000 : ℤ)
      _ ≤ 2^(-54 : ℤ) := zpow_le_zpow_right₀ one_le_two (by decide)
      _ = 1/2^54 := by rw [zpow_neg, one_div]; rfl
      _ ≤ x := hlow
  · calc x
      _ ≤ 2^(54 : ℤ) := hhigh
      _ ≤ 2^(1000 : ℤ) := zpow_le_zpow_right₀ one_le_two (by decide)

/-- An integer divided by another one and multiplied by it again, with the two numbers
that are kept of it. -/
theorem scaled_stands (n d : ℕ) (hn : 0 < n) (hn' : n < 2^52) (hd : 0 < d) (hd' : d < 2^53) :
    ∃ q s : ℚ, Near q (n/d) ∧ Near s (q*d) ∧ |q*d-n| ≤ n/2^53 ∧
      Stands (ofInt n/ofInt d*ofInt d) s := by
  have hn1 : (1 : ℚ) ≤ n := by exact_mod_cast hn
  have hnq : (n : ℚ) ≤ 2^52 := by exact_mod_cast hn'.le
  have hd1 : (1 : ℚ) ≤ d := by exact_mod_cast hd
  have hdq : (d : ℚ) ≤ 2^53 := by exact_mod_cast hd'.le
  have hd0 : (0 : ℚ) < d := one_pos.trans_le hd1
  obtain ⟨hlow, hhigh⟩ := two_zpow_bounds ((n : ℚ)/d)
    (by rw [div_le_div_iff₀ (by positivity) hd0]; linarith)
    (by rw [div_le_iff₀ hd0]; linarith)
  obtain ⟨q, hq, hqnear⟩ := stands_div _ _ _ _ (stands_ofInt n hn (by omega))
    (stands_ofInt d hd hd') hlow hhigh
  have hback : |q*d-n| ≤ n/2^53 := by
    have hsub : q*d-n = (q-n/d)*d := by field_simp
    have hdiv : (n : ℚ)/d/2^53*d = n/2^53 := by field_simp
    rw [hsub, abs_mul, abs_of_pos hd0, ← hdiv]
    exact mul_le_mul_of_nonneg_right hqnear.1 hd0.le
  obtain ⟨hqlow, hqhigh⟩ := abs_le.mp hback
  obtain ⟨hlow', hhigh'⟩ := two_zpow_bounds (q*d) (by linarith) (by linarith)
  obtain ⟨s, hs, hsnear⟩ := stands_mul _ _ _ _ hq (stands_ofInt d hd hd') hlow' hhigh'
  exact ⟨q, s, hqnear, hsnear, hback, hs⟩

theorem scaled_near (n d : ℕ) (hn : 0 < n) (hn' : n < 2^52) (hd : 0 < d) (hd' : d < 2^53) :
    ∃ s, Stands (ofInt n/ofInt d*ofInt d) s ∧ (n : ℚ)-1 < s ∧ s < n+1 := by
  obtain ⟨q, s, -, hsnear, hback, hs⟩ := scaled_stands n d hn hn' hd hd'
  have hnq : (n : ℚ)+1 ≤ 2^52 := by exact_mod_cast hn'
  obtain ⟨hqlow, hqhigh⟩ := abs_le.mp hback
  obtain ⟨hslow, hshigh⟩ := abs_le.mp hsnear.1
  exact ⟨s, hs, by linarith, by linarith⟩

theorem stands_integer (x : Float) (s : ℚ) (n : ℕ) (hx : Stands x s) (hn : 2^50 < n)
    (hnear : |s-n| < 1/4) : s = n := by
  obtain ⟨r, f, h, -, hr, hr', rfl⟩ := hx
  obtain ⟨hlow, hhigh⟩ := abs_lt.mp hnear
  have hn1 : (2 : ℚ)^50+1 ≤ n := by exact_mod_cast hn
  have hf : -2 ≤ f := by
    by_contra hlt
    have hsmall := value_lt r (2^52) f (-2) hr' (Nat.le_refl _) (by omega)
    norm_num at hsmall
    linarith
  obtain ⟨k, hk⟩ := Int.eq_ofNat_of_zero_le (by omega : 0 ≤ f+2)
  have hquarters : (r : ℚ)*2^f = ((r*2^k : ℕ) : ℚ)/4 := by
    rw [show f = (k : ℤ)-2 by omega, zpow_sub₀ two_ne_zero, zpow_natCast]
    push_cast
    ring
  rw [hquarters] at hlow hhigh ⊢
  have hbelow : 4*n < r*2^k+1 := by
    have : (4*n : ℚ) < ((r*2^k : ℕ) : ℚ)+1 := by linarith
    exact_mod_cast this
  have habove : r*2^k < 4*n+1 := by
    have : ((r*2^k : ℕ) : ℚ) < 4*n+1 := by linarith
    exact_mod_cast this
  have hsame : r*2^k = 4*n := by omega
  rw [hsame]
  push_cast
  ring

/-- Where the last place of the product is a quarter and the quotient is off by less
than an eighth of the divisor's inverse, the integer comes back itself. -/
theorem scaled_exact (n d : ℕ) (hn : 2^50 < n) (hn' : n < 2^31*d) (hd' : d < 2^20) :
    Stands (ofInt n/ofInt d*ofInt d) n := by
  have hd : 0 < d := by omega
  obtain ⟨q, s, hqnear, hsnear, -, hs⟩ := scaled_stands n d (by omega) (by omega) hd (by omega)
  have hd0 : (0 : ℚ) < d := by exact_mod_cast hd
  have hdq : (d : ℚ)+1 ≤ 2^20 := by exact_mod_cast hd'
  have hnq : (n : ℚ)+1 ≤ 2^51 := by
    have : n+1 ≤ 2^51 := by omega
    exact_mod_cast this
  have hquot : (n : ℚ)/d < 2^((30 : ℤ)+1) := by
    rw [div_lt_iff₀ hd0]
    exact_mod_cast hn'
  have hback : |q*d-n| < 1/8 := by
    have hsub : q*d-n = (q-n/d)*d := by field_simp
    have hunit : |q-n/d| ≤ 1/2^23 := (hqnear.2 30 hquot).trans_eq (by norm_num)
    rw [hsub, abs_mul, abs_of_pos hd0]
    have := mul_le_mul_of_nonneg_right hunit hd0.le
    linarith
  obtain ⟨hqlow, hqhigh⟩ := abs_lt.mp hback
  have hproduct : q*d < 2^((50 : ℤ)+1) := by
    refine (by linarith : q*d < 2^51).trans_eq ?_
    norm_num
  have hlast : |s-q*d| ≤ 1/8 := (hsnear.2 50 hproduct).trans_eq (by norm_num)
  obtain ⟨hslow, hshigh⟩ := abs_le.mp hlast
  have hnear : |s-n| < 1/4 := abs_lt.mpr ⟨by linarith, by linarith⟩
  rw [← stands_integer _ s n hs hn hnear]
  exact hs

/-- Only against the integer itself can the comparison of a scaled integer come out
the other way. -/
theorem scaled_lt_iff (n d : ℕ) (b : ℤ) (hn : 0 < n) (hn' : n < 2^52) (hd : 0 < d)
    (hd' : d < 2^53) (hb : (n : ℤ) ≠ b) :
    (ofInt n/ofInt d*ofInt d < ofInt b ↔ (n : ℤ) < b) ∧
      (ofInt b < ofInt n/ofInt d*ofInt d ↔ b < (n : ℤ)) := by
  obtain ⟨s, hs, hlow, hhigh⟩ := scaled_near n d hn hn' hd hd'
  rcases lt_or_gt_of_ne hb with hlt | hlt
  · have hnext : ofInt n/ofInt d*ofInt d < ofInt ((n+1 : ℕ) : ℤ) :=
      (stands_lt _ _ _ _ hs (stands_ofInt (n+1) n.succ_pos (by omega))).mpr
        (by rw [Nat.cast_succ]; exact hhigh)
    have hbound := lt_ofInt_of_le _ _ b (by omega) hnext
    exact ⟨iff_of_true hbound hlt, iff_of_false (lt_asymm _ _ hbound) hlt.asymm⟩
  · have hbound : ofInt b < ofInt n/ofInt d*ofInt d := by
      refine ofInt_lt_of_le _ b ((n-1 : ℕ) : ℤ) (by omega) ?_
      rcases Nat.eq_zero_or_pos (n-1) with hzero | hpos
      · rw [hzero]
        exact ofInt_zero_lt _ s hs
      · refine (stands_lt _ _ _ _ (stands_ofInt (n-1) hpos (by omega)) hs).mpr ?_
        rw [Nat.cast_sub hn]
        exact_mod_cast hlow
    exact ⟨iff_of_false (lt_asymm _ _ hbound) hlt.asymm, iff_of_true hbound hlt⟩

theorem scaled_exact_lt_iff (n d : ℕ) (b : ℤ) (hn : 2^50 < n) (hn' : n < 2^31*d)
    (hd' : d < 2^20) :
    (ofInt n/ofInt d*ofInt d < ofInt b ↔ (n : ℤ) < b) ∧
      (ofInt b < ofInt n/ofInt d*ofInt d ↔ b < (n : ℤ)) := by
  by_cases hb : (n : ℤ) = b
  · subst hb
    have hscaled := scaled_exact n d hn hn' hd'
    have hown := stands_ofInt n (by omega) (by omega)
    rw [stands_lt _ _ _ _ hscaled hown, stands_lt _ _ _ _ hown hscaled]
    simp
  · exact scaled_lt_iff n d b (by omega) (by omega) (by omega) (by omega) hb

end DoubleRounding
