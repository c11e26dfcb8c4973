import BusPlot.Library.Framing
import Mathlib.Logic.Function.Iterate

/-!
# Positions of the search

Over an unending stream the receiver searches from one position, then from the
next: each is the end of the token before. What is ever put out is what the
tokens at these positions put out, so a frame is received exactly when a search
begins where it stands.
-/

set_option autoImplicit false

namespace Framing

variable {α κ ω : Type*} {F : Framing α κ ω}

def window (s : ℕ → α) (p m : ℕ) : List α := (List.range m).map fun i => s (p+i)

theorem window_length (s : ℕ → α) (p m : ℕ) : (window s p m).length = m := by
  simp [window]

theorem window_succ (s : ℕ → α) (p m : ℕ) : window s p (m+1) = s p::window s (p+1) m := by
  simp only [window, List.range_succ_eq_map, List.map_cons, List.map_map, Nat.add_zero]
  congr 1
  apply List.map_congr_left
  intro i _
  simp [Nat.add_assoc, Nat.add_comm 1]

theorem window_append (s : ℕ → α) (p m k : ℕ) :
    window s p (m+k) = window s p m ++ window s (p+m) k := by
  simp only [window, List.range_add, List.map_append, List.map_map]
  congr 1
  apply List.map_congr_left
  intro i _
  simp [Nat.add_assoc]

theorem window_eq (s t : ℕ → α) (p q m : ℕ) (h : ∀ i < m, s (p+i) = t (q+i)) :
    window s p m = window t q m :=
  List.map_congr_left fun i hi => h i (List.mem_range.mp hi)

theorem window_list (s : ℕ → α) (p : ℕ) (w : List α) :
    window s p w.length = w ↔ ∀ i (hi : i < w.length), s (p+i) = w[i] := by
  constructor
  · intro h i hi
    have := List.getElem_of_eq h (by simpa [window] using hi)
    simpa [window] using this
  · intro h
    apply List.ext_getElem (by simp [window])
    intro i h1 h2
    simpa [window] using h i h2

variable [DecidableEq α]

variable (F) in
def tokenAt (s : ℕ → α) (p : ℕ) : F.Token :=
  if hb : s p = F.sof then
    match hc : F.select (window s (p+1) F.headerLength) with
    | none => .rejected _ (window_length ..) hc
    | some k => .frame k _ (window s (p+1+F.headerLength) (F.bodyLength k)) (window_length ..) hc
        (window_length ..)
  else .idle (s p) hb

variable (F) in
def next (s : ℕ → α) (p : ℕ) : ℕ := p+(tokenAt F s p).word.length

theorem tokenAt_idle (s : ℕ → α) (p : ℕ) (h : s p ≠ F.sof) :
    tokenAt F s p = .idle (s p) h := by
  rw [tokenAt, dif_neg h]

theorem tokenAt_rejected (s : ℕ → α) (p : ℕ) (hb : s p = F.sof)
    (hc : F.select (window s (p+1) F.headerLength) = none) :
    tokenAt F s p = .rejected _ (window_length ..) hc := by
  unfold tokenAt
  rw [dif_pos hb]
  split
  · rfl
  · rename_i k hk
    cases hc.symm.trans hk

theorem tokenAt_frame (s : ℕ → α) (p : ℕ) (k : κ) (hb : s p = F.sof)
    (hc : F.select (window s (p+1) F.headerLength) = some k) :
    tokenAt F s p = .frame k _ (window s (p+1+F.headerLength) (F.bodyLength k))
      (window_length ..) hc (window_length ..) := by
  unfold tokenAt
  rw [dif_pos hb]
  split
  · rename_i hk
    cases hc.symm.trans hk
  · rename_i k' hk
    obtain rfl : k' = k := by simpa [hk] using hc
    rfl

theorem tokenAt_word (s : ℕ → α) (p : ℕ) :
    (tokenAt F s p).word = window s p (tokenAt F s p).word.length := by
  by_cases hb : s p = F.sof
  · cases hc : F.select (window s (p+1) F.headerLength) with
    | none => simp [tokenAt_rejected s p hb hc, Token.word, window_length, window_succ, hb]
    | some k =>
      simp [tokenAt_frame s p k hb hc, Token.word, window_length, window_succ, window_append, hb]
  · simp [tokenAt_idle s p hb, Token.word, window]

theorem next_idle (s : ℕ → α) (p : ℕ) (h : s p ≠ F.sof) : next F s p = p+1 := by
  simp [next, tokenAt_idle s p h, Token.word]

theorem lt_next (s : ℕ → α) (p : ℕ) : p < next F s p := by
  have : 0 < (tokenAt F s p).word.length := by
    cases tokenAt F s p <;> simp [Token.word]
  unfold next
  omega

theorem tokenAt_shift (s t : ℕ → α) (p q : ℕ) (h : ∀ i, s (p+i) = t (q+i)) :
    tokenAt F s p = tokenAt F t q := by
  have hwin : ∀ d m, window s (p+d) m = window t (q+d) m := fun d m =>
    window_eq s t _ _ m fun i _ => by simpa [Nat.add_assoc] using h (d+i)
  have h0 : s p = t q := h 0
  have h1 := hwin 1 F.headerLength
  have h2 := fun k => hwin (1+F.headerLength) (F.bodyLength k)
  simp only [← Nat.add_assoc] at h2
  by_cases hb : t q = F.sof
  · cases hc : F.select (window t (q+1) F.headerLength) with
    | none =>
      rw [tokenAt_rejected t q hb hc, tokenAt_rejected s p (h0.trans hb) (h1 ▸ hc)]
      simp only [h1]
    | some k =>
      rw [tokenAt_frame t q k hb hc, tokenAt_frame s p k (h0.trans hb) (h1 ▸ hc)]
      simp only [h1, h2]
  · rw [tokenAt_idle t q hb, tokenAt_idle s p (h0 ▸ hb)]
    simp only [h0]

theorem scan_positions (s : ℕ → α) (p i : ℕ) :
    p ≤ (next F s)^[i] p ∧ scan (.search : F.Phase) (window s p ((next F s)^[i] p-p)) =
      (.search, (List.range i).flatMap fun j => (tokenAt F s ((next F s)^[j] p)).output) := by
  induction i with
  | zero => simp [window, scan]
  | succ i ih =>
    obtain ⟨hle, hscan⟩ := ih
    have hstep : (next F s)^[i+1] p =
        (next F s)^[i] p+(tokenAt F s ((next F s)^[i] p)).word.length := by
      rw [Function.iterate_succ_apply', next]
    refine ⟨by omega, ?_⟩
    rw [show (next F s)^[i+1] p-p = ((next F s)^[i] p-p)+
        (tokenAt F s ((next F s)^[i] p)).word.length by omega,
      window_append, scan_append, hscan, Nat.add_sub_of_le hle, ← tokenAt_word, scan_token,
      List.range_succ, List.flatMap_append]
    simp

theorem le_iterate_next (s : ℕ → α) (p i : ℕ) : p+i ≤ (next F s)^[i] p := by
  induction i with
  | zero => exact Nat.le_refl p
  | succ i ih =>
    rw [Function.iterate_succ_apply']
    have := lt_next (F := F) s ((next F s)^[i] p)
    omega

theorem scan_longer (s : ℕ → α) (m n : ℕ) (h : m ≤ n) (o : ω)
    (ho : o ∈ (scan (.search : F.Phase) (window s 0 m)).2) :
    o ∈ (scan (.search : F.Phase) (window s 0 n)).2 := by
  rw [← Nat.add_sub_of_le h, window_append, scan_append]
  exact List.mem_append_left _ ho

/-- Something is put out at some time exactly when a token at a position of the
search puts it out. -/
theorem output_iff (s : ℕ → α) (o : ω) :
    (∃ m, o ∈ (scan (.search : F.Phase) (window s 0 m)).2) ↔
      ∃ i, o ∈ (tokenAt F s ((next F s)^[i] 0)).output := by
  constructor
  · rintro ⟨m, hm⟩
    have hle : m ≤ (next F s)^[m] 0 := by simpa using le_iterate_next (F := F) s 0 m
    have hscan := (scan_positions (F := F) s 0 m).2
    have := scan_longer s m _ hle o hm
    rw [Nat.sub_zero] at hscan
    rw [hscan] at this
    obtain ⟨j, -, hj⟩ := List.mem_flatMap.mp this
    exact ⟨j, hj⟩
  · rintro ⟨i, hi⟩
    refine ⟨(next F s)^[i+1] 0, ?_⟩
    have hscan := (scan_positions (F := F) s 0 (i+1)).2
    rw [Nat.sub_zero] at hscan
    rw [hscan]
    exact List.mem_flatMap.mpr ⟨i, List.mem_range.mpr (Nat.lt_succ_self i), hi⟩

variable (F) in
def repeated (w : List α) (i : ℕ) : α := w.getD (i % w.length) F.sof

def followed (w : List α) (s : ℕ → α) (i : ℕ) : α := w.getD i (s (i-w.length))

omit [DecidableEq α] in
theorem followed_after (w : List α) (s : ℕ → α) (i : ℕ) : followed w s (w.length+i) = s i := by
  simp [followed]

omit [DecidableEq α] in
theorem window_behind (w : List α) (s : ℕ → α) (p m : ℕ) :
    window (followed w s) (w.length+p) m = window s p m :=
  window_eq _ _ _ _ m fun i _ => by rw [Nat.add_assoc, followed_after]

omit [DecidableEq α] in
theorem window_followed (w : List α) (s : ℕ → α) (m : ℕ) :
    window (followed w s) 0 (w.length+m) = w ++ window s 0 m := by
  rw [window_append, (window_list (followed w s) 0 w).mpr fun i hi => by simp [followed, hi],
    Nat.zero_add]
  exact congrArg (w ++ ·) (window_behind w s 0 m)

omit [DecidableEq α] in
theorem window_turn (w : List α) (p : ℕ) (hp : p % w.length = 0) :
    window (repeated F w) p w.length = w := by
  rw [window_list]
  intro i hi
  have hmod : (p+i) % w.length = i := by
    rw [Nat.add_mod, hp, Nat.zero_add, Nat.mod_mod, Nat.mod_eq_of_lt hi]
  simp [repeated, hmod, hi]

omit [DecidableEq α] in
theorem window_repeated (w : List α) (hw : w ≠ []) (k : ℕ) :
    window (repeated F w) 0 (k*w.length) = (List.replicate k w).flatten := by
  have hpos := List.length_pos_of_ne_nil hw
  induction k with
  | zero => simp [window]
  | succ k ih =>
    rw [Nat.succ_mul, window_append, ih, Nat.zero_add,
      window_turn w _ (Nat.mul_mod_left k w.length), List.replicate_succ']
    simp

theorem output_repeated_iff (noise w : List α) (hw : w ≠ []) (o : ω) :
    (∃ k, o ∈ (scan (.search : F.Phase) (noise ++ (List.replicate k w).flatten)).2) ↔
      ∃ i, o ∈ (tokenAt F (followed noise (repeated F w))
        ((next F (followed noise (repeated F w)))^[i] 0)).output := by
  have hpos := List.length_pos_of_ne_nil hw
  rw [← output_iff]
  constructor
  · rintro ⟨k, hk⟩
    rw [← window_repeated (F := F) w hw, ← window_followed] at hk
    exact ⟨_, hk⟩
  · rintro ⟨m, hm⟩
    refine ⟨m, ?_⟩
    rw [← window_repeated (F := F) w hw, ← window_followed]
    refine scan_longer _ m _ ?_ o hm
    have := Nat.le_mul_of_pos_right m hpos
    omega

/-- Behind the noise the search moves as it does in the repeated word. -/
theorem next_followed (noise : List α) (s : ℕ → α) (p i : ℕ) :
    (next F (followed noise s))^[i] (noise.length+p) = noise.length+(next F s)^[i] p := by
  induction i with
  | zero => rfl
  | succ i ih =>
    rw [Function.iterate_succ_apply', ih, Function.iterate_succ_apply', next, next,
      tokenAt_shift (followed noise s) s _ ((next F s)^[i] p) fun j => by
        rw [Nat.add_assoc, followed_after], Nat.add_assoc]

theorem positions_reach (noise : List α) (s : ℕ → α) :
    ∃ i p, (next F (followed noise s))^[i] 0 = noise.length+p := by
  have h : 0+noise.length ≤ (next F (followed noise s))^[noise.length] 0 := le_iterate_next ..
  exact ⟨noise.length, (next F (followed noise s))^[noise.length] 0-noise.length, by omega⟩

omit [DecidableEq α] in
theorem repeated_other (w : List α) (htail : ∀ b ∈ w.tail, b ≠ F.sof) (p : ℕ)
    (hp : p % w.length ≠ 0) (hw : 0 < w.length) : repeated F w p ≠ F.sof := by
  have hlt := Nat.mod_lt p hw
  apply htail
  apply List.mem_of_getElem? (i := p % w.length-1)
  rw [List.getElem?_tail, show p % w.length-1+1 = p % w.length by omega,
    List.getElem?_eq_getElem hlt]
  simp [repeated, hlt]

/-- When only its first symbol is a start symbol, the search meets the word
from everywhere. -/
theorem meets_word (w : List α) (hw : w ≠ []) (htail : ∀ b ∈ w.tail, b ≠ F.sof) (p : ℕ) :
    ∃ i, window (repeated F w) ((next F (repeated F w))^[i] p) w.length = w := by
  have hpos := List.length_pos_of_ne_nil hw
  -- the induction is on the symbols left of the copy the search stands in
  have reach : ∀ d q, (q+d) % w.length = 0 →
      ∃ i, window (repeated F w) ((next F (repeated F w))^[i] q) w.length = w := by
    intro d
    induction d with
    | zero => exact fun q hq => ⟨0, window_turn w q hq⟩
    | succ d ih =>
      intro q hq
      by_cases hz : q % w.length = 0
      · exact ⟨0, window_turn w q hz⟩
      · obtain ⟨i, hi⟩ := ih (q+1) (by rw [Nat.add_right_comm]; exact hq)
        refine ⟨i+1, ?_⟩
        rw [Function.iterate_succ_apply, next_idle _ q (repeated_other w htail q hz hpos)]
        exact hi
  refine reach ((w.length-1)*p) p ?_
  rw [Nat.sub_one_mul, Nat.add_sub_of_le (Nat.le_mul_of_pos_left p hpos), Nat.mul_mod_right]

omit [DecidableEq α] in
theorem rotate_replicate (u v : List α) (k : ℕ) :
    (List.replicate k (u ++ v)).flatten ++ u = u ++ (List.replicate k (v ++ u)).flatten := by
  induction k with
  | zero => simp
  | succ k ih =>
    rw [List.replicate_succ, List.replicate_succ, List.flatten_cons, List.flatten_cons,
      List.append_assoc, ih]
    simp only [List.append_assoc]

/-- Noise that makes the search begin inside the word, at a place from where
it takes in a whole turn without an output, locks it there. -/
theorem locked (noise u v : List α) (hn : scan (.search : F.Phase) (noise ++ u) = (.search, []))
    (hturn : scan (.search : F.Phase) (v ++ u) = (.search, [])) (k : ℕ) :
    (scan (.search : F.Phase) (noise ++ (List.replicate k (u ++ v)).flatten)).2 = [] := by
  have hturns : scan (.search : F.Phase) (List.replicate k (v ++ u)).flatten = (.search, []) := by
    induction k with
    | zero => rfl
    | succ k ih =>
      rw [List.replicate_succ, List.flatten_cons, scan_append, hturn, ih]
      rfl
  have hall : scan (.search : F.Phase) (noise ++ (List.replicate k (u ++ v)).flatten ++ u) =
      (.search, []) := by
    rw [List.append_assoc, rotate_replicate, ← List.append_assoc, scan_append, hn, hturns]
    rfl
  rw [scan_append] at hall
  exact (List.append_eq_nil_iff.mp (congrArg Prod.snd hall)).1

end Framing
