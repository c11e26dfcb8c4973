import Mathlib.Data.BitVec
import Mathlib.Data.List.Basic
import Mathlib.Data.List.Nodup
import Mathlib.Tactic.Common

/-!
# The reflected shift register

A cyclic redundancy check in its bit-serial form: the register moves down one
place and takes the polynomial in when a one leaves it. Everything below holds
for any width and follows from one fact, that a shift is linear over exclusive
or.
-/

set_option autoImplicit false

namespace ReflectedRegister

variable {w : ℕ} (poly : BitVec w)

def shift (r : BitVec w) : BitVec w :=
  if r.getLsbD 0 then (r >>> 1) ^^^ poly else r >>> 1

def shifts : ℕ → BitVec w → BitVec w
  | 0, r => r
  | n+1, r => shifts n (shift poly r)

def lsb (b : Bool) : BitVec w := if b then 1#w else 0#w

def feed : BitVec w → List Bool → BitVec w
  | r, [] => r
  | r, b::bs => feed (shift poly (r ^^^ lsb b)) bs

theorem xor_exchange (a b c d : BitVec w) : (a ^^^ b) ^^^ (c ^^^ d) = (a ^^^ c) ^^^ (b ^^^ d) := by
  rw [BitVec.xor_assoc, BitVec.xor_assoc, ← BitVec.xor_assoc b, BitVec.xor_comm b c,
    BitVec.xor_assoc]

theorem xor_eq_zero (a b : BitVec w) : a ^^^ b = 0#w ↔ a = b := by
  constructor
  · intro h
    calc a = a ^^^ (b ^^^ b) := by simp
      _ = 0#w ^^^ b := by rw [← BitVec.xor_assoc, h]
      _ = b := by simp
  · rintro rfl
    exact BitVec.xor_self

theorem shift_xor (r s : BitVec w) : shift poly (r ^^^ s) = shift poly r ^^^ shift poly s := by
  unfold shift
  rw [BitVec.getLsbD_xor, BitVec.ushiftRight_xor_distrib]
  cases r.getLsbD 0 <;> cases s.getLsbD 0
  · rfl
  · simp [BitVec.xor_assoc]
  · simp only [Bool.xor_false, if_true, Bool.false_eq_true, if_false]
    rw [BitVec.xor_assoc, BitVec.xor_assoc, BitVec.xor_comm poly]
  · simp only [Bool.xor_self, if_true, Bool.false_eq_true, if_false]
    rw [xor_exchange, BitVec.xor_self, BitVec.xor_zero]

theorem shift_zero : shift poly 0#w = 0#w := by
  simp [shift]

theorem shifts_xor (n : ℕ) (r s : BitVec w) :
    shifts poly n (r ^^^ s) = shifts poly n r ^^^ shifts poly n s := by
  induction n generalizing r s with
  | zero => rfl
  | succ n ih => rw [shifts, shift_xor, ih]; rfl

theorem shifts_zero (n : ℕ) : shifts poly n 0#w = 0#w := by
  induction n with
  | zero => rfl
  | succ n ih => rw [shifts, shift_zero, ih]

theorem shifts_add (m n : ℕ) (r : BitVec w) :
    shifts poly (m+n) r = shifts poly n (shifts poly m r) := by
  induction m generalizing r with
  | zero => simp [shifts]
  | succ m ih => rw [Nat.succ_add, shifts, ih]; rfl

theorem feed_append (r : BitVec w) (as bs : List Bool) :
    feed poly r (as ++ bs) = feed poly (feed poly r as) bs := by
  induction as generalizing r with
  | nil => rfl
  | cons a as ih => exact ih _

/-- What the register held before a message is shifted by the length of the
message and added to what the message leaves by itself. -/
theorem feed_xor (r s : BitVec w) (bs : List Bool) :
    feed poly (r ^^^ s) bs = shifts poly bs.length r ^^^ feed poly s bs := by
  induction bs generalizing r s with
  | nil => rfl
  | cons b bs ih => rw [feed, BitVec.xor_assoc, shift_xor, ih]; rfl

theorem feed_from_zero (r : BitVec w) (bs : List Bool) :
    feed poly r bs = shifts poly bs.length r ^^^ feed poly 0#w bs := by
  simpa using feed_xor poly r 0#w bs

def bits {m : ℕ} (n : ℕ) (v : BitVec m) : List Bool := (List.range n).map v.getLsbD

theorem bits_length {m : ℕ} (n : ℕ) (v : BitVec m) : (bits n v).length = n := by
  simp [bits]

theorem bits_succ {m : ℕ} (n : ℕ) (v : BitVec m) :
    bits (n+1) v = v.getLsbD 0 :: bits n (v >>> 1) := by
  simp only [bits, List.range_succ_eq_map, List.map_cons, List.map_map]
  congr 1
  apply List.map_congr_left
  intro i _
  simp [Nat.add_comm]

theorem shift_split (v : BitVec w) :
    shift poly v = (v >>> 1) ^^^ shift poly (lsb (v.getLsbD 0)) := by
  by_cases hw : w = 0
  · subst hw
    exact Subsingleton.elim _ _
  · have h1 : (1#w).getLsbD 0 = true := by
      simp only [BitVec.getLsbD_one]
      simp
      omega
    have h2 : (1#w) >>> 1 = 0#w := by
      apply BitVec.eq_of_toNat_eq
      simp only [BitVec.toNat_ushiftRight, BitVec.toNat_ofNat]
      have : 1 % 2^w ≤ 1 := Nat.mod_le _ _
      rw [Nat.shiftRight_eq_div_pow]
      simp
      omega
    cases h : v.getLsbD 0
    · simp [shift, h, lsb]
    · simp [shift, h, lsb, h1, h2]

/-- `n` shifts put the low `n` bits through the register and move the rest
down. -/
theorem shifts_eq_feed (n : ℕ) (v : BitVec w) :
    shifts poly n v = feed poly 0#w (bits n v) ^^^ (v >>> n) := by
  induction n generalizing v with
  | zero => simp [shifts, bits, feed]
  | succ n ih =>
    rw [shifts, shift_split, shifts_xor, ih (v >>> 1), bits_succ, feed, BitVec.zero_xor,
      feed_from_zero poly (shift poly (lsb (v.getLsbD 0))), bits_length, Nat.add_comm n 1,
      BitVec.shiftRight_add]
    rw [BitVec.xor_comm, BitVec.xor_assoc]

/-- The bits of a word that fits below the register: shifting the word does
the work of feeding it. -/
theorem feed_bits (r v : BitVec w) (n : ℕ) (hv : v >>> n = 0#w) :
    feed poly r (bits n v) = shifts poly n (r ^^^ v) := by
  rw [feed_from_zero, bits_length, shifts_xor, shifts_eq_feed poly n v, hv, BitVec.xor_zero]

theorem shifts_low (n : ℕ) (v m : BitVec w) (hlow : bits n m = bits n v) (hm : m >>> n = 0#w) :
    shifts poly n v = (v >>> n) ^^^ shifts poly n m := by
  rw [shifts_eq_feed poly n v, shifts_eq_feed poly n m, hm, hlow, BitVec.xor_zero, BitVec.xor_comm]

theorem bits_append {m k : ℕ} (hi : BitVec m) (lo : BitVec k) :
    bits (k+m) (hi ++ lo) = bits k lo ++ bits m hi := by
  simp only [bits, List.range_add, List.map_append, List.map_map]
  congr 1
  · apply List.map_congr_left
    intro i hi
    simp [BitVec.getLsbD_append, List.mem_range.mp hi]
  · apply List.map_congr_left
    intro i _
    simp [BitVec.getLsbD_append]

theorem bits_setWidth {m : ℕ} (n : ℕ) (v : BitVec m) (hn : n ≤ w) :
    bits n (v.setWidth w) = bits n v := by
  apply List.map_congr_left
  intro i hi
  have : i < w := by have := List.mem_range.mp hi; omega
  simp [this]

theorem setWidth_high {m : ℕ} (v : BitVec m) : v.setWidth w >>> m = 0#w := by
  apply BitVec.eq_of_getLsbD_eq
  intro i hi
  rw [BitVec.getLsbD_ushiftRight, BitVec.getLsbD_setWidth, BitVec.getLsbD_of_ge v _ (by omega)]
  simp

/-- A word that is no wider than the register is fed by adding it at the low
end and shifting it out. -/
theorem feed_word {m : ℕ} (hm : m ≤ w) (r : BitVec w) (v : BitVec m) :
    feed poly r (bits m v) = shifts poly m (r ^^^ v.setWidth w) := by
  rw [← feed_bits poly r _ m (setWidth_high v), bits_setWidth m v hm]

theorem one_shiftLeft_bit (j i : ℕ) (hi : i < w) :
    (1#w <<< j).getLsbD i = decide (j = i) := by
  rw [BitVec.getLsbD_shiftLeft, BitVec.getLsbD_one]
  by_cases hj : i < j
  · have : ¬ j = i := by omega
    simp [hj, this]
  · simp only [hi, hj, decide_true, decide_false, Bool.not_false, Bool.true_and]
    have hw : 0 < w := by omega
    simp only [hw, decide_true, Bool.true_and]
    congr 1
    apply propext
    omega

theorem bits_flip {m : ℕ} (v : BitVec m) (k : ℕ) :
    bits m (v ^^^ (1#m <<< k)) = (bits m v).modify k (!·) := by
  apply List.ext_getElem
  · simp [bits_length]
  · intro i h1 h2
    have hi : i < m := by simpa [bits_length] using h1
    rw [List.getElem_modify]
    simp only [bits, List.getElem_map, List.getElem_range, BitVec.getLsbD_xor,
      one_shiftLeft_bit k i hi]
    by_cases hk : k = i <;> simp [hk]

theorem bits_injective (m : ℕ) : Function.Injective (bits m : BitVec m → List Bool) := by
  intro v u h
  apply BitVec.eq_of_getLsbD_eq
  intro i hi
  have hget := congrArg (fun bs => bs[i]?) h
  simpa [bits, hi] using hget

theorem shift_injective (hw : 0 < w) (hp : poly.getLsbD (w-1) = true) :
    Function.Injective (shift poly) := by
  -- the top bit of the result tells which bit left the register
  have top : ∀ r : BitVec w, (shift poly r).getLsbD (w-1) = r.getLsbD 0 := by
    intro r
    have hr : (r >>> 1).getLsbD (w-1) = false := by
      rw [BitVec.getLsbD_ushiftRight]
      exact BitVec.getLsbD_of_ge _ _ (by omega)
    unfold shift
    split <;> simp_all
  intro r s h
  have h0 : r.getLsbD 0 = s.getLsbD 0 := by rw [← top r, ← top s, h]
  have h1 : r >>> 1 = s >>> 1 := by
    unfold shift at h
    rw [h0] at h
    split at h
    · simpa using congrArg (· ^^^ poly) h
    · exact h
  apply BitVec.eq_of_getLsbD_eq
  intro i hi
  cases i with
  | zero => exact h0
  | succ i => simpa [Nat.add_comm] using congrArg (fun v => v.getLsbD i) h1

theorem shifts_injective (hw : 0 < w) (hp : poly.getLsbD (w-1) = true) (n : ℕ) :
    Function.Injective (shifts poly n) := by
  induction n with
  | zero => exact fun _ _ h => h
  | succ n ih => exact fun _ _ h => shift_injective poly hw hp (ih h)

theorem shifts_eq_zero (hw : 0 < w) (hp : poly.getLsbD (w-1) = true) (n : ℕ) (r : BitVec w) :
    shifts poly n r = 0#w ↔ r = 0#w := by
  constructor
  · intro h
    exact shifts_injective poly hw hp n (h.trans (shifts_zero poly n).symm)
  · rintro rfl
    exact shifts_zero poly n

def parityBelow (r : BitVec w) : ℕ → Bool
  | 0 => false
  | n+1 => parityBelow r n ^^ r.getLsbD n

def parity (r : BitVec w) : Bool := parityBelow r w

theorem parityBelow_xor (r s : BitVec w) (n : ℕ) :
    parityBelow (r ^^^ s) n = (parityBelow r n ^^ parityBelow s n) := by
  induction n with
  | zero => rfl
  | succ n ih =>
    rw [parityBelow, ih, BitVec.getLsbD_xor, parityBelow, parityBelow]
    cases parityBelow r n <;> cases parityBelow s n <;> cases r.getLsbD n <;>
      cases s.getLsbD n <;> rfl

theorem parity_xor (r s : BitVec w) : parity (r ^^^ s) = (parity r ^^ parity s) :=
  parityBelow_xor r s w

theorem parityBelow_shiftRight (r : BitVec w) (n : ℕ) :
    parityBelow (r >>> 1) n = (r.getLsbD 0 ^^ parityBelow r (n+1)) := by
  induction n with
  | zero => simp [parityBelow]
  | succ n ih =>
    rw [parityBelow, ih, parityBelow, BitVec.getLsbD_ushiftRight, Nat.add_comm 1 n]
    cases r.getLsbD 0 <;> simp [parityBelow]

theorem parity_shiftRight (r : BitVec w) : parity (r >>> 1) = (r.getLsbD 0 ^^ parity r) := by
  rw [parity, parityBelow_shiftRight, parityBelow, BitVec.getLsbD_of_ge r w (le_refl w)]
  simp [parity]

theorem parity_shift (hp : parity poly = true) (r : BitVec w) :
    parity (shift poly r) = parity r := by
  unfold shift
  split
  · rename_i h
    rw [parity_xor, parity_shiftRight, hp, h]
    cases parity r <;> rfl
  · rename_i h
    rw [parity_shiftRight, Bool.not_eq_true _ |>.mp h]
    exact Bool.false_xor _

theorem parity_shifts (hp : parity poly = true) (n : ℕ) (r : BitVec w) :
    parity (shifts poly n r) = parity r := by
  induction n generalizing r with
  | zero => rfl
  | succ n ih => rw [shifts, ih, parity_shift poly hp]

theorem parity_zero : parity 0#w = false := by
  have h : ∀ n, parityBelow 0#w n = false := by
    intro n
    induction n with
    | zero => rfl
    | succ n ih => simp [parityBelow, ih]
  exact h w

/-- Flipping one bit of a message changes what it leaves by a lone one, moved
through the rest of the message. -/
theorem feed_flip (r : BitVec w) (bs : List Bool) (k : ℕ) (hk : k < bs.length) :
    feed poly r (bs.modify k (!·)) = feed poly r bs ^^^ shifts poly (bs.length-k) (1#w) := by
  induction bs generalizing r k with
  | nil => simp at hk
  | cons b bs ih =>
    cases k with
    | zero =>
      have hb : lsb (w := w) (!b) = lsb b ^^^ 1#w := by cases b <;> simp [lsb]
      rw [List.modify_zero_cons, feed, hb, ← BitVec.xor_assoc, shift_xor, BitVec.xor_comm, feed_xor,
        BitVec.xor_comm]
      rfl
    | succ k =>
      rw [List.modify_succ_cons, feed, ih _ k (by simpa using hk), feed, List.length_cons,
        Nat.add_sub_add_right]

def flipAll (ks : List ℕ) (bs : List Bool) : List Bool :=
  ks.foldr (fun k cs => cs.modify k (!·)) bs

theorem flipAll_length (ks : List ℕ) (bs : List Bool) : (flipAll ks bs).length = bs.length := by
  induction ks with
  | nil => rfl
  | cons k ks ih => simpa [flipAll] using ih

theorem flipAll_getElem (ks : List ℕ) (hnd : ks.Nodup) (bs : List Bool) (i : ℕ) :
    (flipAll ks bs)[i]? = bs[i]?.map fun b => b ^^ decide (i ∈ ks) := by
  induction ks with
  | nil => simp [flipAll]
  | cons k ks ih =>
    obtain ⟨hk, hrest⟩ := List.nodup_cons.mp hnd
    have hcons : flipAll (k::ks) bs = (flipAll ks bs).modify k (!·) := rfl
    rw [hcons, List.getElem?_modify, ih hrest]
    by_cases hki : k = i
    · subst hki
      cases bs[k]? <;> simp [hk]
    · have hik : i ≠ k := fun h => hki h.symm
      cases bs[i]? <;> simp [hki, hik]

def differing (as bs : List Bool) : List ℕ :=
  (List.range as.length).filter fun i => as[i]? != bs[i]?

theorem differing_lt (as bs : List Bool) : ∀ k ∈ differing as bs, k < as.length := by
  intro k hk
  exact List.mem_range.mp (List.mem_of_mem_filter hk)

theorem differing_nodup (as bs : List Bool) : (differing as bs).Nodup :=
  List.nodup_range.filter _

theorem flipAll_differing (as bs : List Bool) (h : as.length = bs.length) :
    flipAll (differing as bs) as = bs := by
  apply List.ext_getElem?
  intro i
  rw [flipAll_getElem _ (differing_nodup as bs)]
  by_cases hi : i < as.length
  · have hb : i < bs.length := by omega
    have hmem : i ∈ differing as bs ↔ as[i] ≠ bs[i] := by simp [differing, hi, hb]
    rw [List.getElem?_eq_getElem hi, List.getElem?_eq_getElem hb, Option.map_some]
    simp only [hmem]
    cases as[i] <;> cases bs[i] <;> rfl
  · rw [List.getElem?_eq_none (by omega), List.getElem?_eq_none (by omega), Option.map_none]

def syndrome (n : ℕ) : List ℕ → BitVec w
  | [] => 0#w
  | k::ks => syndrome n ks ^^^ shifts poly (n-k) (1#w)

theorem feed_flipAll (r : BitVec w) (bs : List Bool) (ks : List ℕ)
    (hks : ∀ k ∈ ks, k < bs.length) :
    feed poly r (flipAll ks bs) = feed poly r bs ^^^ syndrome poly bs.length ks := by
  induction ks with
  | nil => simp [flipAll, syndrome]
  | cons k ks ih =>
    have hl := flipAll_length ks bs
    have h := feed_flip poly r (flipAll ks bs) k (by rw [hl]; exact hks k (by simp))
    rw [hl, ih fun j hj => hks j (by simp [hj])] at h
    rw [syndrome, ← BitVec.xor_assoc]
    exact h

theorem syndrome_parity (hp : parity poly = true) (hone : parity 1#w = true) (n : ℕ)
    (ks : List ℕ) : parity (syndrome poly n ks) = decide (ks.length % 2 = 1) := by
  induction ks with
  | nil => simp [syndrome, parity_zero]
  | cons k ks ih =>
    rw [syndrome, parity_xor, ih, parity_shifts poly hp, hone, List.length_cons]
    rcases Nat.mod_two_eq_zero_or_one ks.length with h | h <;> simp [h, Nat.add_mod]

theorem syndrome_odd (hp : parity poly = true) (hone : parity 1#w = true) (n : ℕ) (ks : List ℕ)
    (h : ks.length % 2 = 1) : syndrome poly n ks ≠ 0#w := by
  intro hs
  have := syndrome_parity poly hp hone n ks
  rw [hs, parity_zero, decide_eq_true h] at this
  cases this

def Aperiodic (n : ℕ) : Prop := ∀ d, 0 < d → d < n → shifts poly d (1#w) ≠ 1#w

theorem aperiodic_mono (m n : ℕ) (h : Aperiodic poly n) (hm : m ≤ n) : Aperiodic poly m :=
  fun d h0 hd => h d h0 (by omega)

theorem syndrome_pair (hw : 0 < w) (hp : poly.getLsbD (w-1) = true) (n : ℕ)
    (ha : Aperiodic poly n) (j k : ℕ) (hj : j < n) (hk : k < n) (hne : j ≠ k) :
    syndrome poly n [j, k] ≠ 0#w := by
  have key : ∀ a b, a < b → b < n → shifts poly (n-a) (1#w) ≠ shifts poly (n-b) (1#w) := by
    intro a b hab hb h
    rw [show n-a = (b-a)+(n-b) by omega, shifts_add] at h
    exact ha (b-a) (by omega) (by omega) (shifts_injective poly hw hp _ h)
  intro h
  simp only [syndrome, BitVec.zero_xor] at h
  rw [xor_eq_zero] at h
  rcases Nat.lt_or_gt_of_ne hne with hlt | hlt
  · exact key j k hlt hk h.symm
  · exact key k j hlt hj h

theorem feed_flipAll_eq (r : BitVec w) (bs : List Bool) (ks : List ℕ)
    (hks : ∀ k ∈ ks, k < bs.length) :
    feed poly r (flipAll ks bs) = feed poly r bs ↔ syndrome poly bs.length ks = 0#w := by
  rw [feed_flipAll poly r bs ks hks]
  constructor
  · intro h
    have := congrArg (feed poly r bs ^^^ ·) h
    simpa [← BitVec.xor_assoc] using this
  · intro h
    rw [h, BitVec.xor_zero]

theorem flips_detected (hw : 0 < w) (hp : poly.getLsbD (w-1) = true) (hodd : parity poly = true)
    (hone : parity 1#w = true) (r : BitVec w) (bs : List Bool) (ha : Aperiodic poly bs.length)
    (ks : List ℕ) (hks : ∀ k ∈ ks, k < bs.length) (hnd : ks.Nodup) (h0 : ks ≠ [])
    (h3 : ks.length ≤ 3) : feed poly r (flipAll ks bs) ≠ feed poly r bs := by
  intro h
  have hs := (feed_flipAll_eq poly r bs ks hks).mp h
  have hpar : ks.length % 2 ≠ 1 := by
    have := syndrome_parity poly hodd hone bs.length ks
    rw [hs, parity_zero] at this
    simpa using this.symm
  match ks, h0, h3, hs, hpar with
  | [j, k], _, _, hs, _ =>
    refine syndrome_pair poly hw hp _ ha j k (hks j (by simp)) (hks k (by simp)) ?_ hs
    simpa using hnd
  | [_], _, _, _, hpar => simp at hpar
  | [_, _, _], _, _, _, hpar => simp at hpar

/-- Two messages that leave the same differ in four places at least. -/
theorem differing_four (hw : 0 < w) (hp : poly.getLsbD (w-1) = true) (hodd : parity poly = true)
    (hone : parity 1#w = true) (r : BitVec w) (as bs : List Bool) (hlen : as.length = bs.length)
    (ha : Aperiodic poly as.length) (hne : as ≠ bs) (h : feed poly r as = feed poly r bs) :
    4 ≤ (differing as bs).length := by
  by_contra hlt
  have hflip := flipAll_differing as bs hlen
  have h0 : differing as bs ≠ [] := by
    intro hnil
    rw [hnil] at hflip
    exact hne hflip
  apply flips_detected poly hw hp hodd hone r as ha (differing as bs) (differing_lt as bs)
    (differing_nodup as bs) h0 (by omega)
  rw [hflip, h]

def window (a : ℕ) : List ℕ → BitVec w
  | [] => 0#w
  | k::ks => window a ks ^^^ (1#w <<< (k-a))

theorem window_bit (a : ℕ) (ks : List ℕ) (hnd : ks.Nodup) (hks : ∀ k ∈ ks, a ≤ k) (i : ℕ)
    (hi : i < w) : (window a ks : BitVec w).getLsbD i = decide (a+i ∈ ks) := by
  induction ks with
  | nil => simp [window]
  | cons k ks ih =>
    obtain ⟨hk, hrest⟩ := List.nodup_cons.mp hnd
    have ha := hks k (by simp)
    rw [window, BitVec.getLsbD_xor, ih hrest fun j hj => hks j (by simp [hj]),
      one_shiftLeft_bit _ i hi]
    by_cases hki : k-a = i
    · obtain rfl : k = a+i := by omega
      simp [hk]
    · have : a+i ≠ k := by omega
      simp [hki, this]

theorem shifts_shiftLeft (j : ℕ) (hj : j < w) : shifts poly j (1#w <<< j) = 1#w := by
  induction j with
  | zero => simp [shifts]
  | succ j ih =>
    have hlow : (1#w <<< (j+1)).getLsbD 0 = false := by simp
    have hdown : (1#w <<< (j+1)) >>> 1 = 1#w <<< j := by
      apply BitVec.eq_of_getLsbD_eq
      intro i hi
      rw [BitVec.getLsbD_ushiftRight, one_shiftLeft_bit j i hi]
      by_cases hlt : 1+i < w
      · rw [one_shiftLeft_bit _ _ hlt]
        congr 1
        apply propext
        omega
      · rw [BitVec.getLsbD_of_ge _ _ (by omega)]
        have : ¬ j = i := by omega
        simp [this]
    rw [shifts, shift, hlow, hdown]
    exact ih (by omega)

theorem syndrome_add (n d : ℕ) (ks : List ℕ) (hks : ∀ k ∈ ks, k ≤ n) :
    syndrome poly (n+d) ks = shifts poly d (syndrome poly n ks) := by
  induction ks with
  | nil => exact (shifts_zero poly d).symm
  | cons k ks ih =>
    have hk := hks k (by simp)
    rw [syndrome, ih fun j hj => hks j (by simp [hj]), syndrome, shifts_xor, ← shifts_add,
      show n+d-k = n-k+d by omega]

theorem syndrome_append (n : ℕ) (ks js : List ℕ) :
    syndrome poly n (ks ++ js) = syndrome poly n ks ^^^ syndrome poly n js := by
  induction ks with
  | nil => simp [syndrome]
  | cons k ks ih =>
    rw [List.cons_append, syndrome, ih, syndrome, BitVec.xor_assoc, BitVec.xor_assoc,
      BitVec.xor_comm (syndrome poly n js)]

theorem syndrome_moved (n d : ℕ) (ks : List ℕ) :
    syndrome poly (n+d) (ks.map (·+d)) = syndrome poly n ks := by
  induction ks with
  | nil => rfl
  | cons k ks ih =>
    rw [List.map_cons, syndrome, ih, Nat.add_sub_add_right]
    rfl

/-- It does not matter for flipped bits where they lie, nor in how long a
message. -/
theorem syndrome_place (hw : 0 < w) (hp : poly.getLsbD (w-1) = true) (n m d : ℕ) (ks : List ℕ)
    (hn : ∀ k ∈ ks, k ≤ n) (hm : ∀ k ∈ ks, k+d ≤ m) :
    syndrome poly n ks = 0#w ↔ syndrome poly m (ks.map (·+d)) = 0#w := by
  have behind : ∀ a b, a ≤ b → (∀ k ∈ ks, k ≤ a) →
      (syndrome poly b ks = 0#w ↔ syndrome poly a ks = 0#w) := by
    intro a b hab ha
    obtain ⟨c, rfl⟩ := Nat.exists_eq_add_of_le hab
    rw [syndrome_add poly a c ks ha, shifts_eq_zero poly hw hp]
  cases ks with
  | nil => rfl
  | cons k ks =>
    have hd : d ≤ m := by
      have := hm k (by simp)
      omega
    obtain ⟨e, rfl⟩ := Nat.exists_eq_add_of_le' hd
    have he : ∀ j ∈ k::ks, j ≤ e := fun j hj => by
      have := hm j hj
      omega
    rw [syndrome_moved]
    rcases Nat.le_total n e with h | h
    · exact (behind n e h hn).symm
    · exact behind e n h he

/-- What a burst leaves is its word, shifted by the rest of the message. -/
theorem syndrome_window (n a : ℕ) (ks : List ℕ) (ha : a ≤ n)
    (hks : ∀ k ∈ ks, a ≤ k ∧ k < a+w) :
    syndrome poly (n+w) ks = shifts poly (n-a) (shifts poly w (window a ks)) := by
  induction ks with
  | nil => simp only [syndrome, window, shifts_zero]
  | cons k ks ih =>
    obtain ⟨hak, hkw⟩ := hks k (by simp)
    have hone : shifts poly (n+w-k) 1#w =
        shifts poly (n-a) (shifts poly w (1#w <<< (k-a))) := by
      have hw : shifts poly w (1#w <<< (k-a)) =
          shifts poly ((k-a)+(w-(k-a))) (1#w <<< (k-a)) := by
        rw [show (k-a)+(w-(k-a)) = w by omega]
      rw [hw, shifts_add, shifts_shiftLeft poly (k-a) (by omega), ← shifts_add]
      congr 1
      omega
    rw [syndrome, ih fun j hj => hks j (by simp [hj]), window, shifts_xor, shifts_xor, hone]

/-- A burst no longer than the register never leaves it as it was. -/
theorem burst_detected (hw : 0 < w) (hp : poly.getLsbD (w-1) = true) (r : BitVec w)
    (bs : List Bool) (a : ℕ) (ks : List ℕ) (hks : ∀ k ∈ ks, k < bs.length) (hnd : ks.Nodup)
    (h0 : ks ≠ []) (hburst : ∀ k ∈ ks, a ≤ k ∧ k < a+w) :
    feed poly r (flipAll ks bs) ≠ feed poly r bs := by
  intro h
  obtain ⟨k, hk⟩ := List.exists_mem_of_ne_nil ks h0
  obtain ⟨hak, hkw⟩ := hburst k hk
  have hs := syndrome_window poly bs.length a ks (by have := hks k hk; omega) hburst
  rw [syndrome_add poly _ w ks fun j hj => (hks j hj).le, (feed_flipAll_eq poly r bs ks hks).mp h,
    shifts_zero] at hs
  have hzero : (window a ks : BitVec w) = 0#w :=
    (shifts_eq_zero poly hw hp _ _).mp ((shifts_eq_zero poly hw hp _ _).mp hs.symm)
  have hbit := window_bit (w := w) a ks hnd (fun j hj => (hburst j hj).1) (k-a) (by omega)
  rw [hzero, show a+(k-a) = k by omega] at hbit
  simp [hk] at hbit

def avoids (t : BitVec w) : ℕ → BitVec w → Bool
  | 0, _ => true
  | n+1, r => shift poly r != t && avoids t n (shift poly r)

theorem avoids_shifts (t r : BitVec w) (n : ℕ) (h : avoids poly t n r = true) :
    ∀ d, 0 < d → d ≤ n → shifts poly d r ≠ t := by
  induction n generalizing r with
  | zero => intro d h0 hd; omega
  | succ n ih =>
    simp only [avoids, Bool.and_eq_true, bne_iff_ne] at h
    intro d h0 hd
    match d with
    | 1 => exact h.1
    | d+2 => exact ih _ h.2 (d+1) (by omega) (by omega)

theorem aperiodic_of_avoids (n : ℕ) (h : avoids poly 1#w n 1#w = true) : Aperiodic poly (n+1) :=
  fun d h0 hd => avoids_shifts poly 1#w 1#w n h d h0 (by omega)

end ReflectedRegister
