import Coreutils.BreParser

/-!
# Translation without a panic

Every slice of the scanners is in range but the name of a class `[:]` in a bracket expression. A
pattern is translated without a panic exactly when no scanner comes to one.
-/

namespace Coreutils.BreTotality
open BreBracket BreMatcher BreParser BreTranslate Faults GoText

variable (host : Host)

/-- No function panics on `p`: no translation, no parser under any flags, and, where `p` starts with
a bracket expression, no translation of it in any mode. -/
structure Total (p : Bytes) : Prop where
  toGo : (toGo host false none p).outcome≠.fault
  toGoERE : (toGoERE host false none p).outcome≠.fault
  ereRequiresBacktracking : (ereRequiresBacktracking host p).outcome≠.fault
  compileBackref (flags : Bytes) (extended : Bool) :
    (compileBackref host p flags extended).outcome≠.fault
  bracket (h : p.head?=some 91) (cutf8 : Bool) (tables : Option Tables) :
    translateBracketMode host p cutf8 tables≠.fault

/-- In `p` one of the functions comes to a bracket expression at the text `s`. -/
inductive ComesTo (p s : Bytes) : Prop where
  | toGo (h : s∈(toGo host false none p).calls)
  | toGoERE (h : s∈(toGoERE host false none p).calls)
  | ereRequiresBacktracking (h : s∈(ereRequiresBacktracking host p).calls)
  | compileBackref (flags : Bytes) (extended : Bool)
      (h : s∈(compileBackref host p flags extended).calls)

/-- A scanner that panics only at brackets panics exactly at a `[:]`. -/
theorem ne_fault_iff {α : Type} {m : Scan α} {post : α→Prop}
    (h : Traced.Exact (Faulty host false none) m post) :
    m.outcome≠.fault ↔ ∀s∈m.calls,¬ SharesColon s := by
  rw [ne_eq,h.fault_iff]
  simp only [not_exists,not_and]
  exact forall₂_congr fun s _ => not_congr (translateBracket_fault_iff host s)

theorem mem_calls_toGo {p : Bytes} (h : p.head?=some 91) : p∈(toGo host false none p).calls := by
  obtain ⟨t,rfl⟩ : ∃t,p=91::t := ⟨p.tail,List.eq_cons_of_mem_head? h⟩
  exact Traced.mem_calls_bind (List.mem_singleton_self _) _

/-- No function panics exactly when none comes to a bracket with a member `[:]`. -/
theorem total_iff (p : Bytes) : Total host p ↔ ∀s,ComesTo host p s→¬ SharesColon s := by
  have hgo := ne_fault_iff host (exact_toGo host false none p)
  have hgoERE := ne_fault_iff host (exact_toGoERE host false none p)
  have hrequires := ne_fault_iff host (exact_ereRequiresBacktracking host p)
  have hcompile := fun flags extended =>
    ne_fault_iff host (exact_compileBackrefMode host p flags extended false none)
  constructor
  · intro htotal s hs
    cases hs with
    | toGo h => exact hgo.mp htotal.toGo s h
    | toGoERE h => exact hgoERE.mp htotal.toGoERE s h
    | ereRequiresBacktracking h => exact hrequires.mp htotal.ereRequiresBacktracking s h
    | compileBackref flags extended h =>
      exact (hcompile flags extended).mp (htotal.compileBackref flags extended) s h
  · intro hnone
    refine ⟨hgo.mpr fun s h => hnone s (.toGo h),hgoERE.mpr fun s h => hnone s (.toGoERE h),
      hrequires.mpr fun s h => hnone s (.ereRequiresBacktracking h),fun flags extended =>
      (hcompile flags extended).mpr fun s h => hnone s (.compileBackref flags extended h),
      fun hhead cutf8 tables hfault => ?_⟩
    have hne : p≠[] := by
      rintro rfl
      cases hhead
    exact hnone p (.toGo (mem_calls_toGo host hhead))
      ((translateBracketMode_sound host hne cutf8 tables).1 hfault)

/-- `[[:]]` makes the translation slice past its end. -/
theorem not_total_sharedColon : ¬ ∃host : Host,Total host (ascii "[[:]]") := by
  rintro ⟨host,htotal⟩
  exact htotal.toGo rfl

end Coreutils.BreTotality
