import Mathlib.Data.List.Basic
import Mathlib.Tactic.Common

/-!
# Framed streams

A receiver looks for a start symbol, takes a header of fixed length, and lets
the header choose between going back to the search and taking a body whose
length the choice fixes. Nothing is escaped and no symbol is looked at twice.
The symbols, the choice and the acceptance test are parameters. `debt` is the number
of symbols that brings the receiver back to the search when none of them is a start
symbol.
-/

set_option autoImplicit false

structure Framing (α κ ω : Type*) where
  sof : α
  headerLength : ℕ
  select : List α → Option κ
  bodyLength : κ → ℕ
  accept : κ → List α → List α → Option ω
  headerLength_pos : 0 < headerLength
  bodyLength_pos : ∀ k, 0 < bodyLength k

namespace Framing

variable {α κ ω : Type*} (F : Framing α κ ω)

inductive Phase
  | search
  | header (got : List α) (short : got.length < F.headerLength)
  | body (k : κ) (head got : List α) (chosen : F.select head = some k)
      (short : got.length < F.bodyLength k)

variable {F}

def chosen (F : Framing α κ ω) (head : List α) : F.Phase :=
  match h : F.select head with
  | none => .search
  | some k => .body k head [] h (F.bodyLength_pos k)

theorem chosen_none {head : List α} (h : F.select head = none) : F.chosen head = .search := by
  unfold chosen
  split
  · rfl
  · simp_all

theorem chosen_some {head : List α} {k : κ} (h : F.select head = some k) :
    F.chosen head = .body k head [] h (F.bodyLength_pos k) := by
  unfold chosen
  split
  · simp_all
  · rename_i k' hk
    obtain rfl : k' = k := by simpa [hk] using h
    rfl

variable [DecidableEq α]

def feed : F.Phase → α → F.Phase × List ω
  | .search, b => if b = F.sof then (.header [] F.headerLength_pos, []) else (.search, [])
  | .header got _, b =>
    if h : (got ++ [b]).length < F.headerLength then (.header (got ++ [b]) h, [])
    else (F.chosen (got ++ [b]), [])
  | .body k head got hc _, b =>
    if h : (got ++ [b]).length < F.bodyLength k then (.body k head (got ++ [b]) hc h, [])
    else (.search, (F.accept k head (got ++ [b])).toList)

def scan : F.Phase → List α → F.Phase × List ω
  | ph, [] => (ph, [])
  | ph, b::bs => ((scan (feed ph b).1 bs).1, (feed ph b).2 ++ (scan (feed ph b).1 bs).2)

theorem scan_append (ph : F.Phase) (as bs : List α) :
    scan ph (as ++ bs) =
      ((scan (scan ph as).1 bs).1, (scan ph as).2 ++ (scan (scan ph as).1 bs).2) := by
  induction as generalizing ph with
  | nil => rfl
  | cons a as ih => simp [scan, ih]

theorem scan_idle (b : α) (hb : b ≠ F.sof) : scan (.search : F.Phase) [b] = (.search, []) := by
  simp [scan, feed, hb]

theorem scan_start (b : α) (hb : b = F.sof) :
    scan (.search : F.Phase) [b] = (.header [] F.headerLength_pos, []) := by
  simp [scan, feed, hb]

theorem feed_header_short (got : List α) (b : α) (hs : got.length < F.headerLength)
    (h : (got ++ [b]).length < F.headerLength) :
    feed (.header got hs : F.Phase) b = (.header (got ++ [b]) h, []) := by
  simp only [feed, dif_pos h]

theorem feed_header_full (got : List α) (b : α) (hs : got.length < F.headerLength)
    (h : (got ++ [b]).length = F.headerLength) :
    feed (.header got hs : F.Phase) b = (F.chosen (got ++ [b]), []) := by
  simp only [feed, dif_neg (show ¬ (got ++ [b]).length < F.headerLength by omega)]

theorem feed_body_short (k : κ) (hd got : List α) (b : α) (hc : F.select hd = some k)
    (hs : got.length < F.bodyLength k) (h : (got ++ [b]).length < F.bodyLength k) :
    feed (.body k hd got hc hs : F.Phase) b = (.body k hd (got ++ [b]) hc h, []) := by
  simp only [feed, dif_pos h]

theorem feed_body_full (k : κ) (hd got : List α) (b : α) (hc : F.select hd = some k)
    (hs : got.length < F.bodyLength k) (h : (got ++ [b]).length = F.bodyLength k) :
    feed (.body k hd got hc hs : F.Phase) b =
      (.search, (F.accept k hd (got ++ [b])).toList) := by
  simp only [feed, dif_neg (show ¬ (got ++ [b]).length < F.bodyLength k by omega)]

theorem scan_header_short (got bs : List α) (hs : got.length < F.headerLength)
    (hl : (got ++ bs).length < F.headerLength) :
    scan (.header got hs : F.Phase) bs = (.header (got ++ bs) hl, []) := by
  induction bs generalizing got with
  | nil => simp [scan]
  | cons b bs ih =>
    have h2 : (got ++ [b] ++ bs).length < F.headerLength := by simpa using hl
    have h1 : (got ++ [b]).length < F.headerLength := by
      rw [List.length_append] at h2
      omega
    rw [scan, feed_header_short got b hs h1, ih (got ++ [b]) h1 h2]
    simp

theorem scan_header_full (got bs : List α) (hs : got.length < F.headerLength)
    (hl : (got ++ bs).length = F.headerLength) :
    scan (.header got hs : F.Phase) bs = (F.chosen (got ++ bs), []) := by
  induction bs generalizing got with
  | nil => exact absurd (by simpa using hl) (Nat.ne_of_lt hs)
  | cons b bs ih =>
    have h2 : (got ++ [b] ++ bs).length = F.headerLength := by simpa using hl
    by_cases h1 : (got ++ [b]).length < F.headerLength
    · rw [scan, feed_header_short got b hs h1, ih (got ++ [b]) h1 h2]
      simp
    · rw [List.length_append] at h2
      obtain rfl : bs = [] := List.eq_nil_of_length_eq_zero (by omega)
      rw [scan, feed_header_full got b hs (by omega)]
      simp [scan]

theorem scan_body_short (k : κ) (hd got bs : List α) (hc : F.select hd = some k)
    (hs : got.length < F.bodyLength k) (hl : (got ++ bs).length < F.bodyLength k) :
    scan (.body k hd got hc hs : F.Phase) bs = (.body k hd (got ++ bs) hc hl, []) := by
  induction bs generalizing got with
  | nil => simp [scan]
  | cons b bs ih =>
    have h2 : (got ++ [b] ++ bs).length < F.bodyLength k := by simpa using hl
    have h1 : (got ++ [b]).length < F.bodyLength k := by
      rw [List.length_append] at h2
      omega
    rw [scan, feed_body_short k hd got b hc hs h1, ih (got ++ [b]) h1 h2]
    simp

theorem scan_body_full (k : κ) (hd got bs : List α) (hc : F.select hd = some k)
    (hs : got.length < F.bodyLength k) (hl : (got ++ bs).length = F.bodyLength k) :
    scan (.body k hd got hc hs : F.Phase) bs =
      (.search, (F.accept k hd (got ++ bs)).toList) := by
  induction bs generalizing got with
  | nil => exact absurd (by simpa using hl) (Nat.ne_of_lt hs)
  | cons b bs ih =>
    have h2 : (got ++ [b] ++ bs).length = F.bodyLength k := by simpa using hl
    by_cases h1 : (got ++ [b]).length < F.bodyLength k
    · rw [scan, feed_body_short k hd got b hc hs h1, ih (got ++ [b]) h1 h2]
      simp
    · rw [List.length_append] at h2
      obtain rfl : bs = [] := List.eq_nil_of_length_eq_zero (by omega)
      rw [scan, feed_body_full k hd got b hc hs (by omega)]
      simp [scan]

variable (F) in
inductive Token
  | idle (b : α) (other : b ≠ F.sof)
  | rejected (head : List α) (full : head.length = F.headerLength)
      (refused : F.select head = none)
  | frame (k : κ) (head body : List α) (full : head.length = F.headerLength)
      (chosen : F.select head = some k) (whole : body.length = F.bodyLength k)

def Token.word : F.Token → List α
  | .idle b _ => [b]
  | .rejected head _ _ => F.sof::head
  | .frame _ head body _ _ _ => F.sof::(head ++ body)

def Token.output : F.Token → List ω
  | .idle _ _ => []
  | .rejected _ _ _ => []
  | .frame k head body _ _ _ => (F.accept k head body).toList

theorem scan_sof (bs : List α) :
    scan (.search : F.Phase) (F.sof::bs) = scan (.header [] F.headerLength_pos) bs := by
  simp [scan, feed]

theorem scan_token (t : F.Token) : scan (.search : F.Phase) t.word = (.search, t.output) := by
  cases t with
  | idle b hb => exact scan_idle b hb
  | rejected head hl hn =>
    rw [Token.word, scan_sof, scan_header_full [] head F.headerLength_pos (by simpa using hl)]
    simp [Token.output, chosen_none hn]
  | frame k head body hl hc hw =>
    rw [Token.word, scan_sof, scan_append,
      scan_header_full [] head F.headerLength_pos (by simpa using hl)]
    simp only [List.nil_append, chosen_some hc]
    rw [scan_body_full k head [] body hc _ (by simpa using hw)]
    rfl

theorem scan_tokens (ts : List F.Token) :
    scan (.search : F.Phase) (ts.flatMap Token.word) = (.search, ts.flatMap Token.output) := by
  induction ts with
  | nil => rfl
  | cons t ts ih => simp [scan_append, scan_token, ih]

theorem scan_frame_part (k : κ) (head body as bs : List α) (hl : head.length = F.headerLength)
    (hc : F.select head = some k) (hw : body.length = F.bodyLength k) (hbs : bs ≠ [])
    (h : F.sof::(head ++ body) = as ++ bs) : (scan (.search : F.Phase) as).2 = [] := by
  have hpos := List.length_pos_iff.mpr hbs
  cases as with
  | nil => rfl
  | cons a as =>
    rw [List.cons_append] at h
    obtain ⟨rfl, htail⟩ := List.cons.inj h
    have hlen := congrArg List.length htail
    simp only [List.length_append] at hlen
    rw [scan_sof]
    by_cases hshort : as.length < F.headerLength
    · rw [scan_header_short [] as F.headerLength_pos (by simpa using hshort)]
    · have has : as = head ++ body.take (as.length-F.headerLength) := by
        have htake : (head ++ body).take as.length = as := by
          rw [htail, List.take_left' rfl]
        rw [List.take_append, List.take_of_length_le (by omega), hl] at htake
        exact htake.symm
      have hpart : (body.take (as.length-F.headerLength)).length < F.bodyLength k := by
        rw [List.length_take]
        omega
      rw [has, scan_append, scan_header_full [] head F.headerLength_pos (by simpa using hl)]
      simp only [List.nil_append, chosen_some hc]
      rw [scan_body_short k head [] _ hc _ (by simpa using hpart)]

/-- A stream begins with a whole token, or it is the beginning of one and has
produced nothing. -/
theorem first_token (w : List α) (hw : w ≠ []) :
    (∃ (t : F.Token) (v : List α), w = t.word ++ v ∧ v.length < w.length) ∨
      (scan (.search : F.Phase) w).2 = [] ∧ (scan (.search : F.Phase) w).1 ≠ .search := by
  cases w with
  | nil => exact absurd rfl hw
  | cons b w =>
    by_cases hb : b = F.sof
    · subst hb
      by_cases hlen : w.length < F.headerLength
      · refine .inr ?_
        rw [scan_sof, scan_header_short [] w F.headerLength_pos (by simpa using hlen)]
        exact ⟨rfl, by simp⟩
      · have hfull : (w.take F.headerLength).length = F.headerLength := by
          rw [List.length_take]
          omega
        have hsplit : w.take F.headerLength ++ w.drop F.headerLength = w :=
          List.take_append_drop _ _
        cases hsel : F.select (w.take F.headerLength) with
        | none =>
          refine .inl ⟨.rejected _ hfull hsel, w.drop F.headerLength, by simp [Token.word], ?_⟩
          rw [List.length_drop, List.length_cons]
          omega
        | some k =>
          by_cases hbody : (w.drop F.headerLength).length < F.bodyLength k
          · have hscan : scan (.header [] F.headerLength_pos : F.Phase) w =
                (.body k _ (w.drop F.headerLength) hsel hbody, []) := by
              conv => lhs; rw [← hsplit]
              rw [scan_append, scan_header_full [] _ F.headerLength_pos (by simpa using hfull)]
              simp only [List.nil_append, chosen_some hsel]
              rw [scan_body_short k _ [] _ hsel _ (by simpa using hbody)]
              rfl
            refine .inr ?_
            rw [scan_sof, hscan]
            exact ⟨rfl, by simp⟩
          · have hwhole : ((w.drop F.headerLength).take (F.bodyLength k)).length =
                F.bodyLength k := by
              rw [List.length_take]
              omega
            refine .inl ⟨.frame k _ _ hfull hsel hwhole,
              (w.drop F.headerLength).drop (F.bodyLength k), ?_, ?_⟩
            · simp only [Token.word, List.cons_append, List.append_assoc, List.take_append_drop]
            · rw [List.length_drop, List.length_drop, List.length_cons]
              omega
    · exact .inl ⟨.idle b hb, w, rfl, by simp⟩

/-- Every stream is a row of tokens and a last unfinished one, which has
produced nothing. -/
theorem tokenise (w : List α) : ∃ (ts : List F.Token) (rest : List α),
    w = ts.flatMap Token.word ++ rest ∧ (scan (.search : F.Phase) rest).2 = [] ∧
      ((scan (.search : F.Phase) rest).1 = .search → rest = []) := by
  induction hn : w.length using Nat.strongRecOn generalizing w with
  | ind n ih =>
    by_cases hw : w = []
    · exact ⟨[], w, by simp, by simp [hw, scan], fun _ => hw⟩
    · rcases first_token (F := F) w hw with ⟨t, v, hv, hlt⟩ | ⟨hquiet, hopen⟩
      · obtain ⟨ts, rest, hrest, hend⟩ := ih v.length (hn ▸ hlt) v rfl
        exact ⟨t::ts, rest, by simp [hv, hrest], hend⟩
      · exact ⟨[], w, by simp, hquiet, fun h => absurd h hopen⟩

theorem scan_search_iff (w : List α) (out : List ω) :
    scan (.search : F.Phase) w = (.search, out) ↔
      ∃ ts : List F.Token, w = ts.flatMap Token.word ∧ out = ts.flatMap Token.output := by
  constructor
  · intro h
    obtain ⟨ts, rest, hw, hopen, hend⟩ := tokenise (F := F) w
    rw [hw, scan_append, scan_tokens, hopen, List.append_nil, Prod.mk.injEq] at h
    have hrest := hend h.1
    exact ⟨ts, by simpa [hrest] using hw, h.2.symm⟩
  · rintro ⟨ts, rfl, rfl⟩
    exact scan_tokens ts

/-- Whatever is put out stems from a frame that stands in the stream. -/
theorem output_frame (w : List α) (o : ω) (ho : o ∈ (scan (.search : F.Phase) w).2) :
    ∃ pre k head body post, w = pre ++ F.sof::(head ++ body) ++ post ∧
      F.select head = some k ∧ head.length = F.headerLength ∧
      body.length = F.bodyLength k ∧ F.accept k head body = some o := by
  obtain ⟨ts, rest, hw, hopen, -⟩ := tokenise (F := F) w
  rw [hw, scan_append, scan_tokens, hopen, List.append_nil] at ho
  obtain ⟨t, ht, hot⟩ := List.mem_flatMap.mp ho
  obtain ⟨us, vs, rfl⟩ := List.append_of_mem ht
  cases t with
  | idle b hb => simp [Token.output] at hot
  | rejected head hl hn => simp [Token.output] at hot
  | frame k head body hl hc hbl =>
    refine ⟨us.flatMap Token.word, k, head, body, vs.flatMap Token.word ++ rest, ?_, hc, hl, hbl,
      by simpa [Token.output] using hot⟩
    simp [hw, Token.word]

def debt (M : ℕ) : F.Phase → ℕ
  | .search => 0
  | .header got _ => F.headerLength - got.length + M
  | .body k _ got _ _ => F.bodyLength k - got.length

omit [DecidableEq α] in
theorem debt_le (M : ℕ) (hM : ∀ hd k, F.select hd = some k → F.bodyLength k ≤ M)
    (ph : F.Phase) : debt M ph ≤ F.headerLength + M := by
  cases ph with
  | search => exact Nat.zero_le _
  | header got hs => simp only [debt]; omega
  | body k hd got hc hs =>
    have := hM hd k hc
    simp only [debt]
    omega

/-- A symbol other than the start symbol pays one off, and an output clears
the debt. -/
theorem feed_debt (M : ℕ) (hM : ∀ hd k, F.select hd = some k → F.bodyLength k ≤ M)
    (ph : F.Phase) (b : α) (hb : b ≠ F.sof) :
    debt M (feed ph b).1 ≤ debt M ph - 1 ∧
      ((feed ph b).2 = [] ∨ (feed ph b).2.length = 1 ∧ (feed ph b).1 = .search) := by
  cases ph with
  | search => simp [feed, hb, debt]
  | header got hs =>
    by_cases h : (got ++ [b]).length < F.headerLength
    · rw [feed_header_short got b hs h]
      refine ⟨?_, .inl rfl⟩
      simp only [debt, List.length_append, List.length_singleton]
      omega
    · have hl : (got ++ [b]).length = F.headerLength := by
        simp only [List.length_append, List.length_singleton] at h ⊢
        omega
      rw [feed_header_full got b hs hl]
      refine ⟨?_, .inl rfl⟩
      cases hsel : F.select (got ++ [b]) with
      | none => simp [chosen_none hsel, debt]
      | some k =>
        have := hM _ k hsel
        simp only [chosen_some hsel, debt, List.length_nil]
        omega
  | body k hd got hc hs =>
    by_cases h : (got ++ [b]).length < F.bodyLength k
    · rw [feed_body_short k hd got b hc hs h]
      refine ⟨?_, .inl rfl⟩
      simp only [debt, List.length_append, List.length_singleton]
      omega
    · have hl : (got ++ [b]).length = F.bodyLength k := by
        simp only [List.length_append, List.length_singleton] at h ⊢
        omega
      rw [feed_body_full k hd got b hc hs hl]
      cases F.accept k hd (got ++ [b]) <;> simp [debt]

theorem scan_idles (gap : List α) (hg : ∀ b ∈ gap, b ≠ F.sof) :
    scan (.search : F.Phase) gap = (.search, []) := by
  induction gap with
  | nil => rfl
  | cons b gap ih =>
    have hf : feed (.search : F.Phase) b = (.search, []) := by simp [feed, hg b (by simp)]
    rw [scan, hf, ih fun c hc => hg c (by simp [hc])]
    rfl

/-- A gap as long as the debt brings any phase back to the search, with at
most one output on the way. -/
theorem scan_gap (M : ℕ) (hM : ∀ hd k, F.select hd = some k → F.bodyLength k ≤ M)
    (ph : F.Phase) (gap : List α) (hg : ∀ b ∈ gap, b ≠ F.sof) (hd : debt M ph ≤ gap.length) :
    (scan ph gap).1 = .search ∧ (scan ph gap).2.length ≤ 1 := by
  induction gap generalizing ph with
  | nil =>
    cases ph with
    | search => simp [scan]
    | header got hs => simp only [debt, List.length_nil] at hd; omega
    | body k head got hc hs => simp only [debt, List.length_nil] at hd; omega
  | cons b gap ih =>
    obtain ⟨hpay, hout⟩ := feed_debt M hM ph b (hg b (by simp))
    have hrest := ih (feed ph b).1 (fun c hc => hg c (by simp [hc]))
      (by simp only [List.length_cons] at hd; omega)
    rw [scan]
    rcases hout with ho | ⟨ho, hs⟩
    · simpa [ho] using hrest
    · have hidle := scan_idles (F := F) gap fun c hc => hg c (by simp [hc])
      rw [hs, hidle]
      simp [ho]

end Framing
