import Coreutils.PatchExact

/-!
# Where a hunk is placed

No search of `locateHunk` reads outside the target, whatever the hunk states, and the place it
returns leaves room for the lines it has compared.
-/

namespace Coreutils.PatchPlacement
open List GoText PatchParse PatchApply

variable {target : List Bytes} {lo hi : ℤ}

theorem lineAt?_isSome {i : ℤ} : (lineAt? target i).isSome ↔ 0 ≤ i ∧ i<target.length := by
  unfold lineAt?
  split
  · rw [Option.isSome_iff_ne_none,ne_eq,getElem?_eq_none_iff]
    omega
  · simp only [Option.isSome_none,Bool.false_eq_true,false_iff]
    omega

theorem matchAt_isSome (ws : Bool) (want : List Bytes) {pos : ℤ}
    (hpos : 0≤pos) (hfit : pos+want.length≤target.length) :
    ∃b,matchAt target ws want pos=some b := by
  induction want generalizing pos with
  | nil => exact ⟨true,rfl⟩
  | cons w want ih =>
    rw [length_cons] at hfit
    have hget : (lineAt? target pos).isSome := lineAt?_isSome.mpr ⟨hpos,by omega⟩
    obtain ⟨t,ht⟩ := Option.isSome_iff_exists.mp hget
    rw [matchAt,ht,Option.bind_eq_bind,Option.bind_some]
    split
    · exact ih (by omega) (by omega)
    · exact ⟨false,rfl⟩

theorem mem_searchOrderFrom {start c : ℤ} {fuel : ℕ} {d : ℤ} (hd : 0≤d) (hlo : lo ≤ start)
    (hhi : start≤hi) (h : c∈searchOrderFrom start lo hi fuel d) : lo≤c ∧ c≤hi := by
  induction fuel generalizing d with
  | zero => simp [searchOrderFrom] at h
  | succ fuel ih =>
    rw [searchOrderFrom] at h
    split at h
    · rw [mem_append,mem_append] at h
      rcases h with (h | h) | h
      · split at h
        · rw [mem_singleton] at h
          omega
        · simp at h
      · split at h
        · rw [mem_singleton] at h
          omega
        · simp at h
      · exact ih (by omega) h
    · simp at h

theorem mem_searchOrderWithin {start c : ℤ} (hlo : lo ≤ start) (hhi : start≤hi)
    (h : c∈searchOrderWithin start lo hi) : lo≤c ∧ c≤hi := by
  rw [searchOrderWithin,mem_cons] at h
  rcases h with rfl | h
  · exact ⟨hlo,hhi⟩
  · exact mem_searchOrderFrom (by omega) hlo hhi h

theorem firstMatch_spec {want : List Bytes} (ws : Bool) {cands : List ℤ}
    (h : ∀c∈cands,0≤c ∧ c+want.length≤target.length) : ∃r,firstMatch target want ws cands=some r ∧
      ∀c,r=some c→c∈cands ∧ matchAt target ws want c=some true := by
  induction cands with
  | nil => exact ⟨none,rfl,by simp⟩
  | cons c cands ih =>
    obtain ⟨b,hb⟩ := matchAt_isSome ws want (h c (by simp)).1 (h c (by simp)).2
    rw [firstMatch,hb,Option.bind_eq_bind]
    cases b with
    | true => exact ⟨some c,rfl,by rintro _ ⟨⟩; exact ⟨by simp,hb⟩⟩
    | false =>
      obtain ⟨r,hr,hspec⟩ := ih fun c hc => h c (by simp [hc])
      exact ⟨r,hr,fun c hc => ⟨by simp [(hspec c hc).1],(hspec c hc).2⟩⟩

theorem clampInt_mem {v : ℤ} (h : lo≤hi) : lo≤clampInt v lo hi ∧ clampInt v lo hi≤hi := by
  unfold clampInt
  split
  · omega
  · split <;> omega

/-- A search returns, and what it finds lies in its range and in the target. -/
theorem searchWithin_spec (target want : List Bytes) (hint lo hi : ℤ) (ws : Bool) :
    ∃r,searchWithin target want hint lo hi ws=some r ∧
      ∀c,r=some c→0≤c ∧ lo≤c ∧ c≤hi ∧ c+want.length≤target.length ∧
        matchAt target ws want c=some true := by
  unfold searchWithin
  simp only
  generalize hlo : (if lo<0 then (0 : ℤ) else lo)=a
  generalize hhi : (if hi>(target.length : ℤ)-want.length then (target.length : ℤ)-want.length
    else hi)=b
  split
  · exact ⟨none,rfl,by simp⟩
  rename_i hab
  obtain ⟨h₁,h₂⟩ := clampInt_mem (v := hint) (not_lt.mp hab)
  split_ifs with hw
  · refine ⟨_,rfl,?_⟩
    rintro _ ⟨⟩
    subst hw
    exact ⟨by omega,by omega,by omega,by omega,rfl⟩
  · have hin : ∀c∈searchOrderWithin (clampInt hint a b) a b,0≤c ∧
      c+want.length≤target.length := by
      intro c hc
      have := mem_searchOrderWithin h₁ h₂ hc
      omega
    obtain ⟨r,hr,hspec⟩ := firstMatch_spec ws hin
    refine ⟨r,hr,fun c hc => ?_⟩
    have := mem_searchOrderWithin h₁ h₂ (hspec c hc).1
    exact ⟨by omega,by omega,by omega,by omega,(hspec c hc).2⟩

variable (lines : List HunkLine)

theorem length_oldSeq_le : (oldSeq lines).length≤lines.length := by
  rw [oldSeq,length_map]
  exact length_filter_le ..

/-- A core keeps all but the peeled lines of the old side. -/
theorem length_oldSeq_core (p q : ℕ) :
    (oldSeq lines).length≤(oldSeq ((lines.take (lines.length-q)).drop p)).length+p+q := by
  have h₁ : oldSeq lines =
      oldSeq ((lines.take (lines.length-q)).take p) ++
        (oldSeq ((lines.take (lines.length-q)).drop p) ++
          oldSeq (lines.drop (lines.length-q))) := by
    rw [←oldSeq_append,←oldSeq_append,←append_assoc,take_append_drop,take_append_drop]
  have h₂ := length_oldSeq_le ((lines.take (lines.length-q)).take p)
  have h₃ := length_oldSeq_le (lines.drop (lines.length-q))
  rw [length_take] at h₂
  rw [length_drop] at h₃
  rw [h₁,length_append,length_append]
  omega

/-- A place found for the old side of a hunk: the lines it states fit, and those of its body but for
context peeled off its end. -/
structure Found (oldLines : List Bytes) (h : Hunk) (m : ℤ) : Prop where
  nonneg : 0 ≤ m
  fits : 0≤h.oldCount→m+h.oldCount≤oldLines.length
  reads : m+(oldSeq h.lines).length≤oldLines.length+(edgeContextCounts h.lines).2

section
variable {oldLines : List Bytes} {h : Hunk} (hn : (oldLines.length : ℤ)<2^62)
  (hc : h.oldCount<2^63)
include hn hc

variable (expected : ℤ)

theorem placeAt_spec (ws : Bool) (p : ℕ) {q : ℕ} (hq : q≤(edgeContextCounts h.lines).2) :
    ∃r,placeAt oldLines h expected ws p q=some r ∧ ∀m,r=some m→Found oldLines h m := by
  obtain ⟨r,hr,hspec⟩ := searchWithin_spec oldLines
    (oldSeq ((h.lines.take (h.lines.length-q)).drop p)) (wrap64 (expected+p)) p
    (wrap64 (wrap64 (oldLines.length-h.oldCount)+p)) ws
  refine ⟨r.map (·-(p : ℤ)),by rw [placeAt,hr]; rfl,fun m hm => ?_⟩
  obtain ⟨c,rfl,rfl⟩ := Option.map_eq_some_iff.mp hm
  obtain ⟨hc₀,hlo,hhi,hfit,-⟩ := hspec c rfl
  have hcore := length_oldSeq_core h.lines p q
  refine ⟨by omega,fun hpos => ?_,by omega⟩
  rw [wrap64_of_range (x := (oldLines.length : ℤ)-h.oldCount) (by omega) (by omega),
    wrap64_of_range (by omega) (by omega)] at hhi
  omega

theorem fuzzLoop_spec (opts : ApplyOptions) (fuel f : ℕ) :
    ∃r,fuzzLoop oldLines h expected opts fuel f=some r ∧ ∀m k o,r=some (m,k,o)→
        Found oldLines h m ∧ (o=.hunkApplied ∨ o=.hunkAppliedFuzzy) := by
  induction fuel generalizing f with
  | zero => exact ⟨none,rfl,by simp⟩
  | succ fuel ih =>
    rw [fuzzLoop]
    simp only
    split
    · obtain ⟨r,hr,hspec⟩ := placeAt_spec hn hc expected opts.ignoreWhitespace _
        (min_le_right f (edgeContextCounts h.lines).2)
      rw [hr,Option.bind_eq_bind,Option.bind_some]
      cases r with
      | some m =>
        refine ⟨_,rfl,?_⟩
        rintro _ _ _ ⟨⟩
        refine ⟨hspec m rfl,?_⟩
        split <;> simp
      | none =>
        simp only
        split
        · exact ⟨none,rfl,by simp⟩
        · exact ih (f+1)
    · exact ⟨none,rfl,by simp⟩

/-- What `locateHunk` returns, by its outcome. -/
theorem locateHunk_spec (opts : ApplyOptions) :
    ∃m f o,locateHunk oldLines h expected opts=some (m,f,o) ∧ 0 ≤ m ∧ match o with
      | .hunkFailed => m≤oldLines.length
      | .hunkAlreadyApplied => m+(newSeq h.lines).length≤oldLines.length
      | _ => Found oldLines h m := by
  obtain ⟨r,hr,hspec⟩ := fuzzLoop_spec hn hc expected opts (h.lines.length+2) 0
  have hfail : 0≤clampInt expected 0 oldLines.length ∧
      clampInt expected 0 oldLines.length≤oldLines.length := clampInt_mem (by omega)
  rw [locateHunk,hr,Option.bind_eq_bind,Option.bind_some]
  cases r with
  | some t =>
    obtain ⟨m,f,o⟩ := t
    obtain ⟨hfound,rfl | rfl⟩ := hspec m f o rfl
    · exact ⟨m,f,_,rfl,hfound.nonneg,hfound⟩
    · exact ⟨m,f,_,rfl,hfound.nonneg,hfound⟩
  | none =>
    simp only
    split
    · obtain ⟨r,hr,hspec⟩ := searchWithin_spec oldLines (newSeq h.lines) expected 0
        (oldLines.length-(newSeq h.lines).length) opts.ignoreWhitespace
      rw [search,hr,Option.bind_eq_bind]
      cases r with
      | some m =>
        obtain ⟨hm,-,-,hfit,-⟩ := hspec m rfl
        exact ⟨m,0,_,rfl,hm,hfit⟩
      | none => exact ⟨_,0,_,rfl,hfail.1,hfail.2⟩
    · exact ⟨_,0,_,rfl,hfail.1,hfail.2⟩

end

end Coreutils.PatchPlacement
