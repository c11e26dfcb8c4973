import BusPlot.Library.PartialRun
import Mathlib.Data.List.Basic

/-!
# A mailbox

An unbounded queue with one writer and one reader, on which the writer may lose
the message it is handing in and then never writes again. It is what a reliable
link between two parties amounts to, and the rules below are what a link that is
simulated by it inherits.
-/

set_option autoImplicit false

structure Mailbox (α : Type*) where
  taken : List α
  waiting : List α
  lost : List α
  closed : Bool

namespace Mailbox

variable {α : Type*}

inductive Act (α : Type*)
  | put (a : α)
  | take
  | lose

def empty : Mailbox α := ⟨[], [], [], false⟩

def step (q : Mailbox α) : Act α → Option (Mailbox α)
  | .put a => if q.closed then none else some { q with waiting := q.waiting ++ [a] }
  | .take =>
    match q.waiting with
    | [] => none
    | a::rest => some { q with taken := q.taken ++ [a], waiting := rest }
  | .lose =>
    match q.closed, q.waiting.getLast? with
    | false, some a => some ⟨q.taken, q.waiting.dropLast, [a], true⟩
    | _, _ => none

def Act.message : Act α → Option α
  | .put a => some a
  | _ => none

def puts (acts : List (Act α)) : List α := acts.filterMap Act.message

theorem puts_append (acts more : List (Act α)) : puts (acts ++ more) = puts acts ++ puts more :=
  List.filterMap_append

structure Kept (acts : List (Act α)) (q : Mailbox α) : Prop where
  places : puts acts = q.taken ++ (q.waiting ++ q.lost)
  whole : q.closed = false → q.lost = []
  one : q.lost.length ≤ 1

theorem step_kept (acts : List (Act α)) (q q' : Mailbox α) (act : Act α) (hq : Kept acts q)
    (h : step q act = some q') : Kept (acts ++ [act]) q' := by
  obtain ⟨hplaces, hwhole, hone⟩ := hq
  cases act with
  | put a =>
    simp only [step] at h
    split at h
    · cases h
    · rename_i hopen
      cases h
      have hlost := hwhole (by simpa using hopen)
      refine ⟨?_, hwhole, hone⟩
      rw [puts_append, hplaces, hlost]
      simp [puts, Act.message]
  | take =>
    simp only [step] at h
    split at h
    · cases h
    · rename_i a rest hwaiting
      cases h
      refine ⟨?_, hwhole, hone⟩
      rw [puts_append, hplaces, hwaiting]
      simp [puts, Act.message]
  | lose =>
    simp only [step] at h
    split at h
    · rename_i a hopen hlast
      cases h
      have hlost := hwhole hopen
      have hsplit := List.dropLast_append_getLast? a hlast
      refine ⟨?_, by simp, by simp⟩
      rw [puts_append, hplaces, hlost]
      simp [puts, Act.message, hsplit]
    · cases h

theorem run_kept (acts : List (Act α)) (q : Mailbox α)
    (h : PartialRun.run step empty acts = some q) : Kept acts q :=
  PartialRun.run_history step Kept empty ⟨rfl, fun _ => rfl, Nat.zero_le _⟩
    (fun acts q act q' hq hstep => step_kept acts q q' act hq hstep) acts q h

theorem run_takes (q : Mailbox α) (as bs : List α) (h : q.waiting = as ++ bs) :
    PartialRun.run step q (List.replicate as.length .take) =
      some { q with taken := q.taken ++ as, waiting := bs } := by
  induction as generalizing q with
  | nil =>
    have hq : q.waiting = bs := h
    simp [PartialRun.run, ← hq]
  | cons a as ih =>
    have hstep : step q .take = some { q with taken := q.taken ++ [a], waiting := as ++ bs } := by
      simp [step, h]
    rw [List.length_cons, List.replicate_succ, PartialRun.run, hstep, Option.bind_some,
      ih { q with taken := q.taken ++ [a], waiting := as ++ bs } rfl]
    simp

end Mailbox
