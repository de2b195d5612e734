import Mathlib.Data.List.Basic

/-!
# Logs

A log is a list of events that grows at its end. A property of an event and of what stands before
and behind it speaks of the splits `pre ++ e :: post`; when a block is added, a split is an old one
or lies in the block.
-/

namespace Coreutils.Logs

variable {α : Type*}

theorem split_append {log block pre post : List α} {e : α} (h : log++block=pre++e::post) :
    (∃post',log=pre++e::post' ∧ post=post'++block) ∨ ∃pre',pre=log++pre' ∧ block=pre'++e::post := by
  rcases List.append_eq_append_iff.mp h with ⟨pre',hpre,hblock⟩ | ⟨rest,hlog,hrest⟩
  · exact .inr ⟨pre',hpre,hblock⟩
  cases rest with
  | nil => exact .inr ⟨[],by simpa using hlog.symm,by simpa using hrest.symm⟩
  | cons e' post' =>
    obtain ⟨rfl,rfl⟩ := hrest
    exact .inl ⟨post',hlog,rfl⟩

/-- A block changes the first event behind a split only at the end of the log. -/
theorem head_append_iff {post block : List α} {e : α} (h : ∀rest,block≠e::rest) :
    (∃rest,post++block=e::rest) ↔ ∃rest,post=e::rest := by
  cases post with
  | nil => simpa using h
  | cons e' post => simp

end Coreutils.Logs
