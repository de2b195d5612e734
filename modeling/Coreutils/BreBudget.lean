import Coreutils.BreMatcher

/-!
# The budget of the backtracking matcher

A node cuts its search short only once the budget is spent, and the count never falls. So a search
without an error has searched everything, and one cut short ends in the error.
-/

namespace Coreutils.BreMatcher
open Budgets GoText

variable (host : Host) (s : Bytes)

theorem honest_counted {α : Type} (a : α) : Honest (counted a) :=
  honest_tick.bind fun _ => honest_pure a

theorem honest_matchElements (maxElementBytes : ℕ) (re : Bytes→Bool) (st : State) (fuel stop : ℕ)
    (states : List State) : Honest (matchElements s maxElementBytes re st fuel stop states) := by
  induction fuel generalizing stop states with
  | zero => exact honest_pure states
  | succ fuel ih =>
    rw [matchElements]
    split
    · exact honest_tick.bind fun _ => (ih _ _).unlessSpent _
    · exact honest_pure states

theorem honest_matchClass (maxElementBytes : ℕ) (re : Bytes→Bool) (cutf8 : Bool) (st : State) :
    Honest (matchClass s maxElementBytes re cutf8 st) := by
  have helements := honest_matchElements s maxElementBytes re st s.length st.pos []
  refine honest_tick.bind fun _ => honest_ite (honest_pure _) (honest_ite helements ?_)
  exact honest_ite (honest_pure _) (honest_pure _)

section
variable {f : State→Metered (List State)} (hf : ∀st,Honest (f st))
include hf

theorem honest_matchEach (sts : List State) : Honest (matchEach f sts) := by
  induction sts with
  | nil => exact honest_pure _
  | cons st sts ih => exact (hf st).bind fun outs => (ih.map _).unlessSpent _

theorem honest_matchTurn (sts : List State) : Honest (matchTurn f sts) := by
  induction sts with
  | nil => exact honest_pure _
  | cons st sts ih => exact (hf st).bind fun outs => ih.map _

theorem honest_matchLevels (turns : ℕ) (last : List State) (below : List (List State)) :
    Honest (matchLevels f turns last below) := by
  induction turns generalizing last below with
  | zero => exact honest_pure _
  | succ turns ih =>
    refine (honest_matchTurn hf last).bind fun next => honest_ite (honest_pure _) ?_
    exact (ih next _).unlessSpent _

theorem honest_matchRepeat (min : ℕ) (max : Option ℕ) (st : State) :
    Honest (matchRepeat s f min max st) := by
  refine (honest_matchLevels hf _ _ _).bind fun levels => ?_
  exact honest_ite (honest_pure _) (honest_pure _)

end

mutual
theorem honest_match (node : Node) (st : State) : Honest (node.match host s st) := by
  cases node with
  | seq nodes => exact honest_matchSeq nodes [st]
  | alt nodes => exact honest_matchAlt nodes st []
  | literal | dot | anchor | wordEdge | wordBoundary | builtinClass | backref =>
    exact honest_counted _
  | cls => exact honest_matchClass s _ _ _ st
  | group num child => exact (honest_match child st).map _
  | rep child min max => exact honest_matchRepeat s (honest_match child) min max st

theorem honest_matchSeq (nodes : List Node) (sts : List State) :
    Honest (matchSeq host s nodes sts) := by
  cases nodes with
  | nil => exact honest_pure _
  | cons child rest =>
    refine (honest_matchEach (honest_match child) sts).bind fun next => ?_
    match next with
    | none | some [] => exact honest_pure _
    | some (st::sts) => exact honest_matchSeq rest (st::sts)

theorem honest_matchAlt (nodes : List Node) (st : State) (out : List State) :
    Honest (matchAlt host s nodes st out) := by
  cases nodes with
  | nil => exact honest_pure _
  | cons child rest =>
    exact (honest_match child st).bind fun outs => (honest_matchAlt rest st _).unlessSpent _
end

variable (p : Prog)

theorem honest_matchAt (start : ℕ) : Honest (p.matchAt host s start) :=
  (honest_match host s p.root _).bind fun outs => (honest_pure outs).unlessSpent _

theorem honest_findFrom (n : ℤ) (fuel start : ℕ) (out : List (List ℤ)) :
    Honest (p.findFrom host s n fuel start out) := by
  induction fuel generalizing start out with
  | zero => exact honest_pure _
  | succ fuel ih =>
    have hnext : ∀out,Honest (if p.anchored ∨ start=s.length then pure (some (out,none))
        else p.findFrom host s n fuel (p.advance s start) out) :=
      fun out => honest_ite (honest_pure _) (ih _ out)
    refine honest_ite (honest_pure _) ((honest_matchAt host s p start).bind fun outs => ?_)
    refine Honest.unlessSpent ?_ _
    cases p.pick outs with
    | none => exact hnext out
    | some st => exact honest_ite (honest_pure _) (honest_ite (ih _ _) (hnext _))

theorem lt_advance {start : ℕ} (h : start<s.length) : start<p.advance s start := by
  unfold Prog.advance
  split
  · have hrune := decodeRune_size (s := s.drop start) (by simpa using h)
    omega
  · omega

/-- A run that has ended: within the limit, or past it with the error and no matches. -/
def Settled (limit : Option ℕ) (r : Option Found×ℕ) : Prop :=
  (∃out,r.1=some (out,none) ∧ exceeded limit r.2=none) ∨
    ∃l,r.1=some ([],some ⟨l⟩) ∧ limit=some l

theorem settled_findFrom (n : ℤ) {limit : Option ℕ} {fuel start steps : ℕ} (out : List (List ℤ))
    (hfuel : s.length+1<start+fuel) (hpos : 0<fuel) (h : exceeded limit steps=none) :
    Settled limit (run (p.findFrom host s n fuel start out) limit steps) := by
  induction fuel generalizing start steps out with
  | zero => omega
  | succ fuel ih =>
    rw [Prog.findFrom]
    split
    · exact .inl ⟨out,rfl,h⟩
    rw [run_bind]
    generalize run (p.matchAt host s start) limit steps=r
    cases hl : exceeded limit r.2 with
    | some l =>
      rw [run_unlessSpent_some hl]
      exact .inr ⟨l,rfl,eq_of_exceeded hl⟩
    | none =>
      rw [run_unlessSpent_none hl]
      have hnext : ∀out,Settled limit (run
          (if p.anchored ∨ start=s.length then pure (some (out,none))
            else p.findFrom host s n fuel (p.advance s start) out) limit r.2) := by
        intro out
        split
        · exact .inl ⟨out,rfl,hl⟩
        · have hadvance : start<p.advance s start := lt_advance s p (by omega)
          exact ih out (by omega) (by omega) hl
      cases p.pick r.1 with
      | none => exact hnext out
      | some st =>
        dsimp only
        split
        · exact .inl ⟨_,rfl,hl⟩
        · split
          · exact ih _ (by omega) (by omega) hl
          · exact hnext _

/-- A search ends, with its matches without a limit, or with the error and no matches. -/
theorem find_budget (n : ℤ) : ∃found,p.find host s n=some found ∧
      (found.2=none→p.findWithin host s none n=some found) ∧
      (found.2≠none→found=([],some ⟨maxBacktrackSteps⟩)) := by
  have hsettled : Settled (some maxBacktrackSteps)
      (run (p.findFrom host s n (s.length+2) 0 []) (some maxBacktrackSteps) 0) :=
    settled_findFrom host s p n [] (by omega) (by omega) rfl
  obtain ⟨out,hout,hwithin⟩ | ⟨l,hout,hl⟩ := hsettled
  · refine ⟨(out,none),hout,fun _ => ?_,fun h => absurd rfl h⟩
    have heq := (honest_findFrom host s p n (s.length+2) 0 []).eq hwithin
    rw [Prog.findWithin,←heq,hout]
  · obtain rfl : maxBacktrackSteps=l := by simpa using hl
    exact ⟨_,hout,fun h => (by cases h),fun _ => rfl⟩

end Coreutils.BreMatcher
