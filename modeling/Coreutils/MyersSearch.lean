import Coreutils.MyersBisect

/-!
# The diagonal loops of `bisect`

One turn of the outer loop visits the diagonals of one parity. What a turn needs from the tables
(`Prior`) and what it leaves (`After`) are the same for both directions; the middle of a turn
(`Mid`) records which diagonals are done.
-/

namespace Coreutils.MyersSearch
open List EditDistance MyersScript MyersBisect

section

variable {α : Type*} [DecidableEq α] {a b : List α} {st st₀ : Pass} {d : ℕ} {vOff : ℤ}
  {apart : ℤ→ℤ→Prop} {P : ℤ→Prop}

/-- The scan counters: even, and raised only when no optimal path is left on the diagonals they cut
off. `late` is the bound the current turn allows. -/
structure Counters (a b : List α) (late : ℤ) (st : Pass) : Prop where
  start_even : st.kstart%2=0
  end_even : st.kend%2=0
  start_nonneg : 0 ≤ st.kstart
  end_nonneg : 0 ≤ st.kend
  start_late : st.kstart=0 ∨ st.kstart+dist a b≤late+(a.length-b.length)
  end_late : st.kend=0 ∨ st.kend+dist a b+(a.length-b.length)≤late

/-- A table when turn `d` begins. The fresh entry `1` is no point of the grid until turn one. -/
structure Prior (a b : List α) (vOff : ℤ) (d : ℕ) (st : Pass) : Prop where
  len : (st.v.length : ℤ)=2*vOff+4
  counters : Counters a b (2*d-2) st
  ready : ∀k : ℤ,(k-d)%2=0→-d+st.kstart≤k→k≤d-st.kend→
    Ready a b vOff d k st.v
  sound : ∀j : ℤ,-vOff≤j→entry st.v vOff j ≠ -1→
    (d≤1 ∧ j=1) ∨ Reached a b d j (entry st.v vOff j)

structure After (a b : List α) (vOff : ℤ) (d : ℕ) (st : Pass) : Prop where
  len : (st.v.length : ℤ)=2*vOff+4
  counters : Counters a b (2*d) st
  present : ∀j : ℤ,(j-d)%2=0→-d+st.kstart≤j→j≤d-st.kend→
    0≤entry st.v vOff j
  covers : ∀j : ℤ,-vOff≤j→(j-d)%2=0 → Covers a b d j (entry st.v vOff j)
  sound : ∀j : ℤ,-vOff≤j→entry st.v vOff j ≠ -1→
    (d=0 ∧ j=1) ∨ Reached a b d j (entry st.v vOff j)

/-- A table in turn `d` from `st₀`, when the diagonals in `P` are done without an overlap. -/
structure Mid (a b : List α) (vOff : ℤ) (d : ℕ) (apart : ℤ→ℤ→Prop) (st₀ : Pass)
    (P : ℤ→Prop) (st : Pass) : Prop where
  len : (st.v.length : ℤ)=2*vOff+4
  counters : Counters a b (2*d) st
  start_mono : st₀.kstart ≤ st.kstart
  end_mono : st₀.kend ≤ st.kend
  end_hit : st.kend=st₀.kend ∨
    ∃j,P j ∧ dist a b+(a.length-b.length)+2≤d+j
  parity : ∀j,P j→(j-d)%2=0
  frame : ∀j : ℤ,-vOff≤j→¬ P j→entry st.v vOff j=entry st₀.v vOff j
  reached : ∀j,P j→Reached a b d j (entry st.v vOff j)
  covers : ∀j,P j → Covers a b d j (entry st.v vOff j)
  missed : ∀j,P j→apart j (entry st.v vOff j)

/-- A finished turn in which the overlap test failed on every diagonal of the scan range. -/
structure Missed (a b : List α) (vOff : ℤ) (d : ℕ) (apart : ℤ→ℤ→Prop) (st : Pass) : Prop where
  after : After a b vOff d st
  missed : ∀j : ℤ,(j-d)%2=0→-d+st.kstart≤j→j≤d-st.kend→
    apart j (entry st.v vOff j)

theorem Counters.later {late late' : ℤ} (h : Counters a b late st)
    (hl : late≤late') : Counters a b late' st := by
  obtain ⟨hse,hee,hs,he,hsl,hel⟩ := h
  exact ⟨hse,hee,hs,he,by omega,by omega⟩

/-- While the two searches have not met, the counters leave at least one diagonal. -/
theorem Counters.total_le (h : Counters a b (2*d) st)
    (hd : 2*(d+1)≤dist a b+1) : st.kstart+st.kend≤2*d := by
  have hn := length_le_add_dist a b
  have hm := length_le_add_dist' a b
  obtain ⟨-,-,-,-,hsl,hel⟩ := h
  omega

theorem Prior.mid (h : Prior a b vOff d st)
    (apart : ℤ→ℤ→Prop) : Mid a b vOff d apart st (fun _ => False) st :=
  ⟨h.len,h.counters.later (by omega),le_refl _,le_refl _,.inl rfl,by simp,
    fun _ _ _ => rfl,by simp,by simp,by simp⟩

theorem After.prior (h : After a b vOff d st)
    (hv : (d : ℤ)+1≤vOff) (hd : 2*(d+1)≤dist a b+1) : Prior a b vOff (d+1) st := by
  have htotal := h.counters.total_le hd
  have hs := h.counters.start_nonneg
  have he := h.counters.end_nonneg
  have hse := h.counters.start_even
  refine ⟨h.len,h.counters.later (by push_cast; omega),?_,?_⟩
  · intro k hpar hlo hhi
    have below : -d+st.kstart≤k-1→0≤entry st.v vOff (k-1) := fun hk =>
      h.present (k-1) (by omega) hk (by omega)
    have above : k+1≤d-st.kend→0≤entry st.v vOff (k+1) := fun hk =>
      h.present (k+1) (by omega) (by omega) hk
    -- entries of the parity of `d` never hold the fresh table's marker
    have reach : ∀j,-vOff≤j→(j-d)%2=0→entry st.v vOff j ≠ -1→
        Reached a b d j (entry st.v vOff j) := by
      intro j hj hp hne
      rcases h.sound j hj hne with ⟨rfl,rfl⟩ | hr
      · simp at hp
      · exact hr
    refine ready_succ h.len hv (by omega) (by omega)
      (fun hk => reach (k-1) (by omega) (by omega)) (reach (k+1) (by omega) (by omega))
      (fun hk => h.covers (k-1) (by omega) (by omega)) (h.covers (k+1) (by omega) (by omega))
      (fun hk => above (by omega)) (fun hk => below (by omega)) ?_
    by_cases hk : -d+st.kstart≤k-1
    · exact .inl (below hk)
    · exact .inr (above (by omega))
  · intro j hj hne
    rcases h.sound j hj hne with ⟨rfl,rfl⟩ | hr
    · exact .inl ⟨by omega,rfl⟩
    · exact .inr (hr.mono (by omega))

theorem freshPass_entry {maxD : ℕ} {j : ℤ} (hj : -maxD≤j) :
    entry (freshPass maxD).v maxD j=if j=1 then 0 else -1 := by
  have hset : (freshPass maxD).v =
      (replicate (2*maxD+4) (-1)).set ((maxD : ℤ)+1).toNat 0 := rfl
  rw [hset]
  by_cases h : j=1
  · subst h
    rw [entry_set_self _ (by omega) (by simp; omega),if_pos rfl]
  · rw [entry_set_ne _ (by omega) (by omega) h]
    simp only [entry,getD_eq_getElem?_getD,getElem?_replicate]
    split <;> rfl

theorem prior_fresh (a b : List α) (maxD : ℕ) : Prior a b maxD 0 (freshPass maxD) := by
  have hlen : ((freshPass maxD).v.length : ℤ)=2*maxD+4 := by simp [freshPass]
  refine ⟨hlen,⟨rfl,rfl,le_refl _,le_refl _,.inl rfl,.inl rfl⟩,?_,?_⟩
  · intro k hpar hlo hhi
    have hk : k=0 := by
      simp only [freshPass] at hlo hhi
      omega
    subst hk
    exact ready_zero hlen (by omega) (by rw [freshPass_entry (by omega)]; simp)
  · intro j hj hne
    rw [freshPass_entry hj] at hne
    left
    exact ⟨by omega,by by_contra h; simp [h] at hne⟩

/-- A visit inside the scan range adds its diagonal to the finished ones. The counters grow only on
diagonals too far out for an optimal path. -/
theorem Mid.visit {k : ℤ} (hprior : Prior a b vOff d st₀) (h : Mid a b vOff d apart st₀ P st)
    (hv : (d : ℤ)≤vOff) (hd : 2*d≤dist a b+1) (hpar : (k-d)%2=0)
    (hlo : -d+st.kstart≤k) (hhi : k≤d-st.kend) :
    ∃x st',MyersScript.visit a b vOff k d st=some (x,st') ∧
      Reached a b d k x ∧ st'.kstart ≤ st.kstart+2 ∧ st'.kend ≤ st.kend+2 ∧
      (apart k x→Mid a b vOff d apart st₀ (fun j => P j ∨ j=k) st') := by
  have hs := h.counters.start_nonneg
  have he := h.counters.end_nonneg
  have hother : ∀j,-vOff≤j→(j=k-1 ∨ j=k+1)→
      entry st.v vOff j=entry st₀.v vOff j := by
    intro j hj hjk
    refine h.frame j hj (fun hP => ?_)
    have := h.parity j hP
    omega
  have hready : Ready a b vOff d k st.v :=
    (hprior.ready k hpar (by have := h.start_mono; omega) (by have := h.end_mono; omega)).congr
      hprior.len h.len hv (by omega) (by omega) (fun hj => hother _ hj (.inl rfl))
      (hother _ (by omega) (.inr rfl))
  obtain ⟨x,st',hvis,hset,hreach,hcov,hcount⟩ :=
    visit_spec h.len (by omega) (by omega) hready
  have hself : entry st'.v vOff k=x := by
    rw [hset,entry_set_self x (by omega) (by have := h.len; omega)]
  have hne : ∀j,-vOff≤j→j≠k→entry st'.v vOff j=entry st.v vOff j := by
    intro j hj hjk
    rw [hset,entry_set_ne x (by omega) (by omega) hjk]
  have spread : ∀R : ℤ→ℤ→Prop,(∀j,P j→R j (entry st.v vOff j))→R k x→
      ∀j,P j ∨ j=k→R j (entry st'.v vOff j) := by
    rintro R hR hx j (hP | rfl)
    · by_cases hjk : j=k
      · subst hjk; rwa [hself]
      · rw [hne j (by have := (h.reached j hP).diagonal; omega) hjk]
        exact hR j hP
    · rwa [hself]
  have hcounters : Counters a b (2*d) st' ∧ st.kstart ≤ st'.kstart ∧ st.kend ≤ st'.kend ∧
      st'.kstart ≤ st.kstart+2 ∧ st'.kend ≤ st.kend+2 := by
    obtain ⟨hse,hee,-,-,hsl,hel⟩ := h.counters
    rcases hcount with ⟨hx,h₁,h₂⟩ | ⟨-,hx,h₁,h₂⟩ | ⟨-,-,h₁,h₂⟩
    · have := hreach.right_out hd hx
      refine ⟨⟨?_,?_,?_,?_,?_,?_⟩,?_,?_,?_,?_⟩ <;> omega
    · have := hreach.below_out hd hx
      refine ⟨⟨?_,?_,?_,?_,?_,?_⟩,?_,?_,?_,?_⟩ <;> omega
    · refine ⟨⟨?_,?_,?_,?_,?_,?_⟩,?_,?_,?_,?_⟩ <;> omega
  have hhit : st'.kend=st₀.kend ∨
      ∃j,(P j ∨ j=k) ∧ dist a b+(a.length-b.length)+2≤d+j := by
    by_cases hx : a.length<x
    · exact .inr ⟨k,.inr rfl,hreach.right_out hd hx⟩
    rcases h.end_hit with heq | ⟨j,hP,hj⟩
    · rcases hcount with ⟨hx',-,-⟩ | ⟨-,-,-,h₂⟩ | ⟨-,-,-,h₂⟩
      · exact absurd hx' hx
      · exact .inl (h₂.trans heq)
      · exact .inl (h₂.trans heq)
    · exact .inr ⟨j,.inl hP,hj⟩
  refine ⟨x,st',hvis,hreach,hcounters.2.2.2.1,hcounters.2.2.2.2,fun hapart =>
    ⟨?_,hcounters.1,?_,?_,hhit,?_,?_,?_,?_,?_⟩⟩
  · rw [hset,length_set,h.len]
  · exact h.start_mono.trans hcounters.2.1
  · exact h.end_mono.trans hcounters.2.2.1
  · rintro j (hP | rfl)
    · exact h.parity j hP
    · exact hpar
  · intro j hj hP
    rw [hne j hj (fun hjk => hP (.inr hjk)),h.frame j hj (fun hP' => hP (.inl hP'))]
  · exact spread _ h.reached hreach
  · exact spread _ h.covers hcov
  · exact spread _ h.missed hapart

/-- When every diagonal left in the scan range is done, the turn is over. -/
theorem Mid.finish (hprior : Prior a b vOff d st₀) (h : Mid a b vOff d apart st₀ P st)
    (hall : ∀j : ℤ,(j-d)%2=0→-d+st.kstart≤j→j≤d-st.kend→P j) : Missed a b vOff d apart st := by
  refine ⟨⟨h.len,h.counters,?_,?_,?_⟩,fun j hp hlo hhi => h.missed j (hall j hp hlo hhi)⟩
  · intro j hpar hlo hhi
    exact (h.reached j (hall j hpar hlo hhi)).nonneg
  · intro j hj hpar
    by_cases hP : P j
    · exact h.covers j hP
    -- a diagonal outside the range carries no optimal path at this cost
    intro X Y hp hb hk
    exfalso
    have hdiag := hp.diagonal
    have hcost := hp.cost
    have hsl := h.counters.start_late
    have hel := h.counters.end_late
    exact hP (hall j hpar (by omega) (by omega))
  · intro j hj hne
    by_cases hP : P j
    · exact .inr (h.reached j hP)
    rw [h.frame j hj hP] at hne ⊢
    rcases hprior.sound j hj hne with ⟨hd₁,rfl⟩ | hr
    · -- in turn one the diagonal `1` is always visited
      left
      refine ⟨?_,rfl⟩
      by_contra hd₀
      have hn := length_le_add_dist a b
      have hm := length_le_add_dist' a b
      have hsl := h.counters.start_late
      have hel := hprior.counters.end_late
      rcases h.end_hit with heq | ⟨i,hPi,hi⟩
      · exact hP (hall 1 (by omega) (by omega) (by omega))
      · have hdiag := (h.reached i hPi).diagonal
        have hi₁ : i=1 := by omega
        exact hP (hi₁ ▸ hPi)
    · exact .inr hr

theorem Mid.congr {Q : ℤ→Prop} (h : Mid a b vOff d apart st₀ P st) (hPQ : ∀j,P j ↔ Q j) :
    Mid a b vOff d apart st₀ Q st := by
  have : P=Q := funext fun j => propext (hPQ j)
  exact this ▸ h

/-- A point of an optimal path with half of its edits on either side. -/
structure Halfway (a b : List α) (X Y : ℕ) : Prop where
  onPath : OnPath a b X Y
  half : before a b X Y=(dist a b+1)/2

/-- An overlap of the two searches is a halfway point. -/
theorem halfway_of_overlap {p q : ℕ} {k j x x₂ : ℤ} (h : Reached a b p k x)
    (h₂ : Reached a.reverse b.reverse q j x₂) (hk : k+j=a.length-b.length)
    (hge : a.length≤x+x₂) (hp : 2*p≤dist a b+1) (hq : 2*q≤dist a b+1)
    (hpq : p+q≤dist a b) (hqp : q≤p) (hpq₁ : p≤q+1) : ∃X Y : ℕ,x=X ∧ x-k=Y ∧ Halfway a b X Y := by
  have hdiag := h.diagonal
  have hdiag₂ := h₂.diagonal
  obtain ⟨hx,hy⟩ := h.inside hp (q := q) (by omega) (by omega) (by omega)
  obtain ⟨hx₂,hy₂⟩ := h₂.inside (by rwa [dist_reverse]) (q := p)
    (by simp only [length_reverse]; omega) (by simp only [length_reverse]; omega)
    (by rw [dist_reverse]; omega)
  obtain ⟨X,Y,hX,hY,hc⟩ := h
  obtain ⟨X₂,Y₂,hX₂,hY₂,hc₂⟩ := h₂
  rw [before_reverse a b X₂ Y₂] at hc₂
  simp only [length_reverse] at hx₂ hy₂ hc₂
  -- along the diagonal the way out only gets cheaper
  have hout := after_anti a b (x := a.length-X₂) (y := b.length-Y₂) (X-(a.length-X₂))
  rw [show a.length-X₂+(X-(a.length-X₂))=X by omega,
    show b.length-Y₂+(X-(a.length-X₂))=Y by omega] at hout
  have hD := dist_le_before_add_after a b X Y
  exact ⟨X,Y,hX,hY,⟨by omega,by omega,by omega⟩,by omega⟩

/-- Two finished turns whose costs add up to the distance overlap on some diagonal. -/
theorem After.overlap {p q : ℕ} {fwd rev : Pass}
    (hf : After a b vOff p fwd) (hr : After a.reverse b.reverse vOff q rev)
    (hD : dist a b=p+q) (hp : (p : ℤ)≤vOff) (hq : (q : ℤ)≤vOff) (hpq : p≤q+1) (hqp : q≤p+1) :
    ∃k : ℤ,∃j : ℤ,k+j=a.length-b.length ∧ (k-p)%2=0 ∧ -p+fwd.kstart≤k ∧ k≤p-fwd.kend ∧
      (j-q)%2=0 ∧ -q+rev.kstart≤j ∧ j≤q-rev.kend ∧ a.length≤entry fwd.v vOff k+entry rev.v vOff j ∧
      Reached a b p k (entry fwd.v vOff k) ∧
      Reached a.reverse b.reverse q j (entry rev.v vOff j) := by
  obtain ⟨X,Y,hpath,hb⟩ := exists_onPath a b (c := p) (by omega)
  have hrev := hpath.reverse
  have hcost := hpath.cost
  have hdiag := hpath.diagonal
  have hX := hpath.left
  have hY := hpath.right
  have hb' : before a.reverse b.reverse (a.length-X) (b.length-Y)=q := by
    rw [before_reverse,Nat.sub_sub_self hX,Nat.sub_sub_self hY]
    omega
  have hparity : ((X : ℤ)-Y-p)%2=0 ∧ ((a.length : ℤ)-b.length-(X-Y)-q)%2=0 := by
    have h₁ := dist_parity (a.take X) (b.take Y)
    have h₂ := dist_parity a b
    simp only [length_take] at h₁
    simp only [before] at hb
    omega
  have hcov := hf.covers (X-Y) (by omega) hparity.1 X Y hpath hb rfl
  have hcov' := hr.covers (a.length-b.length-(X-Y)) (by omega) hparity.2 _ _ hrev hb'
    (by omega)
  have hfs := hf.counters.start_late
  have hfe := hf.counters.end_late
  have hrs := hr.counters.start_late
  have hre := hr.counters.end_late
  rw [dist_reverse] at hrs hre
  simp only [length_reverse] at hrs hre
  refine ⟨X-Y,a.length-b.length-(X-Y),by omega,hparity.1,by omega,by omega,
    hparity.2,by omega,by omega,by omega,?_,?_⟩
  · rcases hf.sound (X-Y) (by omega) (by omega) with ⟨rfl,h₁⟩ | h
    · simp [h₁] at hparity
    · exact h
  · rcases hr.sound (a.length-b.length-(X-Y)) (by omega) (by omega) with ⟨rfl,h₁⟩ | h
    · simp [h₁] at hparity
    · exact h

/-- The overlap test of a loop, when its turn makes one, fails at `x` on diagonal `k`. -/
def Apart (n m vOff : ℤ) (tests : Prop) (v : List ℤ) (k x : ℤ) : Prop :=
  x≤n→x-k ≤ m→tests→∀x₂,opposite v (vOff+(n-m)-k)=some x₂→x+x₂<n

/-- The end of a diagonal loop: a finished turn, or a halfway point. -/
def Outcome (a b : List α) (r : Option (Pass ⊕ ℤ×ℤ)) (done : Pass→Prop) : Prop :=
  (∃st,r=some (.inl st) ∧ done st) ∨
    ∃X Y : ℕ,r=some (.inr ((X : ℤ),(Y : ℤ))) ∧ Halfway a b X Y

/-- The overlap test of either loop: a hit is a halfway point, and after a miss the loop goes on. -/
theorem outcome_test {v : List ℤ} {k x : ℤ} {t : Prop} {p : ℤ→Prop} [Decidable t]
    [DecidablePred p] {f : ℤ→ℤ×ℤ} {next : Option (Pass ⊕ ℤ×ℤ)} {done : Pass→Prop}
    (hhit : ∀x₂,p x₂ ↔ a.length≤x+x₂)
    (hmeet : ∀x₂,x-k≤b.length→t → opposite v (vOff+(a.length-b.length)-k)=some x₂→
      a.length≤x+x₂→∃X Y : ℕ,(f x₂).1=X ∧ (f x₂).2=Y ∧ Halfway a b X Y)
    (hnext : Apart a.length b.length vOff t v k x→Outcome a b next done) :
    Outcome a b (if x≤a.length ∧ x-k≤b.length ∧ t then
        match opposite v (vOff+(a.length-b.length)-k) with
        | some x₂ => if p x₂ then some (.inr (f x₂)) else next
        | none => next
      else next) done := by
  split_ifs with htest
  · cases hx₂ : opposite v (vOff+(a.length-b.length)-k) with
    | none =>
      refine hnext fun _ _ _ y hy => ?_
      rw [hx₂] at hy
      cases hy
    | some x₂ =>
      simp only
      split_ifs with hp
      · obtain ⟨X,Y,hX,hY,hp⟩ := hmeet x₂ htest.2.1 htest.2.2 hx₂ ((hhit x₂).mp hp)
        exact .inr ⟨X,Y,by rw [←hX,←hY],hp⟩
      refine hnext fun _ _ _ y hy => ?_
      rw [hx₂] at hy
      cases hy
      have := (hhit x₂).not.mp hp
      omega
  · exact hnext fun h₁ h₂ h₃ => absurd ⟨h₁,h₂,h₃⟩ htest

theorem forwardPass_spec {v₂ : List ℤ}
    (hapart : apart=Apart a.length b.length vOff (((a.length : ℤ)-b.length)%2≠0) v₂)
    (hprior : Prior a b vOff d st₀) (hv : (d : ℤ)≤vOff) (hd : 2*d≤dist a b+1)
    (hmeet : ∀k x x₂ : ℤ,Reached a b d k x→x-k≤b.length→(k-d)%2=0→((a.length : ℤ)-b.length)%2≠0→
      opposite v₂ (vOff+(a.length-b.length)-k)=some x₂→a.length≤x+x₂→
      ∃X Y : ℕ,x=X ∧ x-k=Y ∧ Halfway a b X Y) (fuel : ℕ) (k : ℤ) (st : Pass)
    (hmid : Mid a b vOff d apart st₀ (fun j => (j-d)%2=0 ∧ k<j ∧ j≤d-st₀.kend) st)
    (hpar : (k-d)%2=0) (hk : k≤d-st.kend) (hfuel : k+d<2*fuel) :
    Outcome a b (forwardPass a b vOff d v₂ fuel k st) (Missed a b vOff d apart) := by
  induction fuel generalizing k st with
  | zero =>
    have hout : ¬ -d+st.kstart≤k := by
      have := hmid.counters.start_nonneg
      omega
    have hmono := hmid.end_mono
    exact .inl ⟨st,by rw [forwardPass,if_neg hout],
      hmid.finish hprior (fun j hp hlo hhi => ⟨hp,by omega,by omega⟩)⟩
  | succ fuel ih =>
    have hmono := hmid.end_mono
    by_cases hin : -d+st.kstart≤k
    · obtain ⟨x,st',hvis,hreach,-,hkend,hmid'⟩ := hmid.visit hprior hv hd hpar hin hk
      have next : apart k x→Outcome a b (forwardPass a b vOff d v₂ fuel (k-2) st')
          (Missed a b vOff d apart) := fun hx =>
        ih (k-2) st' ((hmid' hx).congr (fun j => by omega)) (by omega) (by omega)
          (by push_cast at hfuel; omega)
      rw [forwardPass,if_pos hin,hvis]
      subst hapart
      exact outcome_test (fun x₂ => by omega)
        (fun x₂ hy hodd => hmeet k x x₂ hreach hy hpar hodd) next
    · exact .inl ⟨st,by rw [forwardPass,if_neg hin],
        hmid.finish hprior (fun j hp hlo hhi => ⟨hp,by omega,by omega⟩)⟩

theorem reversePass_spec {v₁ : List ℤ}
    (hapart : apart=Apart a.length b.length vOff (((a.length : ℤ)-b.length)%2=0) v₁)
    (hprior : Prior a.reverse b.reverse vOff d st₀) (hv : (d : ℤ)≤vOff) (hd : 2*d≤dist a b+1)
    (hmeet : ∀k x x₁ : ℤ,Reached a.reverse b.reverse d k x→(k-d)%2=0→((a.length : ℤ)-b.length)%2=0→
      opposite v₁ (vOff+(a.length-b.length)-k)=some x₁→a.length≤x+x₁→
      ∃X Y : ℕ,x₁=X ∧ x₁-(a.length-b.length-k)=Y ∧ Halfway a b X Y) (fuel : ℕ) (k : ℤ) (st : Pass)
    (hmid : Mid a.reverse b.reverse vOff d apart st₀ (fun j => (j-d)%2=0 ∧ -d+st₀.kstart≤j ∧ j<k)
      st) (hpar : (k-d)%2=0) (hk : -d+st.kstart≤k) (hfuel : d-k<2*fuel) :
    Outcome a b (reversePass a b vOff d v₁ fuel k st)
      (Missed a.reverse b.reverse vOff d apart) := by
  have hmono := hmid.start_mono
  induction fuel generalizing k st with
  | zero =>
    have hout : ¬ k≤d-st.kend := by
      have := hmid.counters.end_nonneg
      omega
    exact .inl ⟨st,by rw [reversePass,if_neg hout],
      hmid.finish hprior (fun j hp hlo hhi => ⟨hp,by omega,by omega⟩)⟩
  | succ fuel ih =>
    by_cases hin : k≤d-st.kend
    · obtain ⟨x,st',hvis,hreach,hkstart,-,hmid'⟩ :=
        hmid.visit hprior hv (by rwa [dist_reverse]) hpar hk hin
      have next : apart k x→Outcome a b (reversePass a b vOff d v₁ fuel (k+2) st')
          (Missed a.reverse b.reverse vOff d apart) := fun hx =>
        ih (k+2) st' ((hmid' hx).congr (fun j => by omega)) (by omega) (by omega)
          (by push_cast at hfuel; omega) (hmid' hx).start_mono
      rw [reversePass,if_pos hin,hvis]
      subst hapart
      exact outcome_test (f := fun x₁ => (x₁,x₁-(a.length-b.length-k))) (fun x₁ => by omega)
        (fun x₁ _ => hmeet k x x₁ hreach hpar) next
    · exact .inl ⟨st,by rw [reversePass,if_neg hin],
        hmid.finish hprior (fun j hp hlo hhi => ⟨hp,by omega,by omega⟩)⟩

/-- A table between turns: ready for turn `d`, and the outcome of the turn before. -/
structure Between (a b : List α) (vOff : ℤ) (d : ℕ) (st : Pass) : Prop where
  prior : Prior a b vOff d st
  after : ∀e,d=e+1→After a b vOff e st
  first : d=0→∀j : ℤ,-vOff≤j→entry st.v vOff j ≠ -1→j=1 ∧ entry st.v vOff j=0

theorem forward_meets {rev : Pass}
    (hrev : Between a.reverse b.reverse vOff d rev) (hd : 2*d≤dist a b+1)
    (k x x₂ : ℤ) (hreach : Reached a b d k x) (hy : x-k≤b.length)
    (hpar : (k-d)%2=0) (hodd : ((a.length : ℤ)-b.length)%2≠0)
    (hx₂ : opposite rev.v (vOff+(a.length-b.length)-k)=some x₂)
    (hge : a.length≤x+x₂) : ∃X Y : ℕ,x=X ∧ x-k=Y ∧ Halfway a b X Y := by
  rw [add_sub_assoc] at hx₂
  obtain ⟨h₀,-,rfl,hne⟩ := opposite_entry hx₂
  cases d with
  | zero =>
    -- only the marker is set, and it stands beyond the end of the longer sequence
    obtain ⟨hj,he⟩ := hrev.first rfl _ (by omega) hne
    omega
  | succ d =>
    have hafter := hrev.after d rfl
    rcases hafter.sound _ (by omega) hne with ⟨rfl,h₁⟩ | hr
    · omega
    · exact halfway_of_overlap hreach hr (by ring) hge hd (by omega) (by omega) (by omega)
        (by omega)

theorem reverse_meets {fwd : Pass} (hfwd : After a b vOff d fwd) (hd : 2*d≤dist a b+1)
    (k x x₁ : ℤ) (hreach : Reached a.reverse b.reverse d k x) (hpar : (k-d)%2=0)
    (heven : ((a.length : ℤ)-b.length)%2=0)
    (hx₁ : opposite fwd.v (vOff+(a.length-b.length)-k)=some x₁) (hge : a.length≤x+x₁) :
    ∃X Y : ℕ,x₁=X ∧ x₁-(a.length-b.length-k)=Y ∧ Halfway a b X Y := by
  rw [add_sub_assoc] at hx₁
  obtain ⟨h₀,-,rfl,hne⟩ := opposite_entry hx₁
  have hparity := dist_parity a b
  rcases hfwd.sound _ (by omega) hne with ⟨rfl,h₁⟩ | hr
  · omega
  · exact halfway_of_overlap hr hreach (by ring) (by omega) hd hd (by omega) (le_refl _) (by omega)

/-- The outer loop finds a halfway point before its turns are used up. -/
theorem bisectFrom_spec (turns d : ℕ) (fwd rev : Pass)
    (hf : Between a b vOff d fwd) (hr : Between a.reverse b.reverse vOff d rev)
    (hd : 2*d≤dist a b+1) (hturns : dist a b+1<2*(d+turns)) (hv : (dist a b : ℤ)≤2*vOff) :
    ∃X Y : ℕ,bisectFrom a b vOff turns d fwd rev=some ((X : ℤ),(Y : ℤ),true) ∧ Halfway a b X Y := by
  induction turns generalizing d fwd rev with
  | zero => omega
  | succ turns ih =>
    have hparity := dist_parity a b
    have hdv : (d : ℤ)≤vOff := by omega
    have hfcnt := hf.prior.counters
    have hrcnt := hr.prior.counters
    rw [bisectFrom]
    rcases forwardPass_spec rfl hf.prior hdv hd (forward_meets hr hd) (d+1) (d-fwd.kend) fwd
      ((hf.prior.mid _).congr (fun j => ⟨False.elim,fun h => by omega⟩))
      (by have := hfcnt.end_even; omega) (le_refl _) (by have := hfcnt.end_nonneg; push_cast; omega)
      with ⟨fwd',hrun,hmiss⟩ | ⟨X,Y,hrun,hp⟩
    · -- an odd distance would have been met here
      have hodd : ¬ dist a b+1=2*d := by
        intro hD
        cases d with
        | zero => omega
        | succ e =>
          obtain ⟨k,j,hkj,hkp,hklo,hkhi,-,-,-,hge,hrk,hrj⟩ :=
            hmiss.after.overlap (hr.after e rfl) (by omega) hdv (by omega) (by omega) (by omega)
          have hdj := hrj.diagonal
          obtain ⟨hx,hy⟩ := hrk.inside hd (q := e) (by omega) (by omega) (by omega)
          have hlt := hmiss.missed k hkp hklo hkhi hx hy (by omega) (entry rev.v vOff j)
          rw [add_sub_assoc,←hkj,add_sub_cancel_left] at hlt
          have hlen := hr.prior.len
          have := hlt (opposite_eq_some (by omega) (by omega)
            (by have := hrj.nonneg; omega))
          omega
      rw [hrun]
      simp only [Option.bind_eq_bind,Option.bind_some]
      rcases reversePass_spec rfl hr.prior hdv hd (reverse_meets hmiss.after hd) (d+1)
        (-d+rev.kstart) rev ((hr.prior.mid _).congr (fun j => ⟨False.elim,fun h => by omega⟩))
        (by have := hrcnt.start_even; omega) (le_refl _)
        (by have := hrcnt.start_nonneg; push_cast; omega)
        with ⟨rev',hrun',hmiss'⟩ | ⟨X,Y,hrun',hp⟩
      · have heven : ¬ dist a b=2*d := by
          intro hD
          obtain ⟨k,j,hkj,-,-,-,hjp,hjlo,hjhi,hge,hrk,hrj⟩ :=
            hmiss.after.overlap hmiss'.after (by omega) hdv hdv (by omega) (by omega)
          have hdk := hrk.diagonal
          obtain ⟨hx,hy⟩ := hrj.inside (by rwa [dist_reverse]) (q := d)
            (by simp only [length_reverse]; omega)
            (by simp only [length_reverse]; omega) (by rw [dist_reverse]; omega)
          simp only [length_reverse] at hx hy
          have hlt := hmiss'.missed j hjp hjlo hjhi hx hy (by omega) (entry fwd'.v vOff k)
          rw [add_sub_assoc,←hkj,add_sub_cancel_right] at hlt
          have hlen := hmiss.after.len
          have := hlt (opposite_eq_some (by omega) (by omega)
            (by have := hrk.nonneg; omega))
          omega
        have hd' : 2*(d+1)≤dist a b+1 := by omega
        rw [hrun']
        exact ih (d+1) fwd' rev'
          ⟨hmiss.after.prior (by omega) hd',fun e he => by cases he; exact hmiss.after,by simp⟩
          ⟨hmiss'.after.prior (by omega) (by rwa [dist_reverse]),
            fun e he => by cases he; exact hmiss'.after,by simp⟩
          hd' (by omega)
      · rw [hrun']
        exact ⟨X,Y,rfl,hp⟩
    · rw [hrun]
      exact ⟨X,Y,rfl,hp⟩

theorem between_fresh (a b : List α) (maxD : ℕ) : Between a b maxD 0 (freshPass maxD) := by
  refine ⟨prior_fresh a b maxD,by simp,fun _ j hj hne => ?_⟩
  rw [freshPass_entry hj] at hne ⊢
  by_cases h : j=1
  · exact ⟨h,if_pos h⟩
  · simp [h] at hne

/-- `bisect` returns a point that halves some cheapest edit script. -/
theorem bisect_spec (a b : List α) :
    ∃X Y : ℕ,bisect a b=some ((X : ℤ),(Y : ℤ),true) ∧ Halfway a b X Y := by
  have hD := dist_le_length_add a b
  exact bisectFrom_spec _ 0 _ _ (between_fresh a b _) (between_fresh a.reverse b.reverse _)
    (by omega) (by omega) (by push_cast; omega)

end

end Coreutils.MyersSearch
