import Coreutils.MyersScript
import Mathlib.Tactic.Ring

/-!
# The two-sided search meets on an optimal path

After `d` turns the forward table holds, on every diagonal an optimal path can use, a point at least
as far as any that path reaches with `d` edits. Entries that ran off the grid are points of a grid
continued beyond the sequences, where nothing matches; they come so late that trimming the scan
loses no useful diagonal. Hence the first overlap is found in turn `⌈D / 2⌉`, inside the grid and on
an optimal path.
-/

namespace Coreutils.MyersBisect
open EditDistance MyersScript

def entry (v : List ℤ) (vOff k : ℤ) : ℤ := v.getD (vOff+k).toNat (-1)

variable {v : List ℤ} {vOff k : ℤ}

theorem index?_entry (h₀ : 0≤vOff+k) (h₁ : vOff+k<v.length) :
    index? v (vOff+k)=some (entry v vOff k) := by
  have hlt : (vOff+k).toNat<v.length := by omega
  simp [index?,h₀,entry,hlt]

theorem assign?_eq (x : ℤ) (h₀ : 0≤vOff+k) (h₁ : vOff+k<v.length) :
    assign? v (vOff+k) x=some (v.set (vOff+k).toNat x) := by
  simp [assign?,h₀,h₁]

theorem entry_set_self (x : ℤ) (h₀ : 0≤vOff+k)
    (h₁ : vOff+k<v.length) : entry (v.set (vOff+k).toNat x) vOff k=x := by
  have hlt : (vOff+k).toNat<v.length := by omega
  simp [entry,hlt]

theorem entry_set_ne {j : ℤ} (x : ℤ) (h₀ : 0≤vOff+k)
    (hj : 0≤vOff+j) (h : j≠k) : entry (v.set (vOff+k).toNat x) vOff j=entry v vOff j := by
  have hne : (vOff+k).toNat≠(vOff+j).toNat := by omega
  simp [entry,List.getElem?_set_ne hne]

theorem opposite_entry {x : ℤ} (h : opposite v (vOff+k)=some x) :
    0≤vOff+k ∧ vOff+k<v.length ∧ entry v vOff k=x ∧ x ≠ -1 := by
  unfold opposite at h
  split at h
  · rename_i y hy
    have h₀ : 0≤vOff+k := by
      by_contra hn
      simp [index?,hn] at hy
    have h₁ : vOff+k<v.length := by
      by_contra hn
      have : v.length≤(vOff+k).toNat := by omega
      simp [index?,List.getElem?_eq_none this] at hy
    rw [index?_entry h₀ h₁,Option.some.injEq] at hy
    split at h
    · simp at h
    · rename_i hne
      simp only [Option.some.injEq] at h
      exact ⟨h₀,h₁,hy.trans h,h ▸ hne⟩
  · simp at h

theorem opposite_eq_some (h₀ : 0≤vOff+k) (h₁ : vOff+k<v.length)
    (h : entry v vOff k ≠ -1) : opposite v (vOff+k)=some (entry v vOff k) := by
  simp [opposite,index?_entry h₀ h₁,h]

section

variable {α : Type*} [DecidableEq α] {a b : List α} {d : ℕ} {x : ℤ}

/-- The loop over the common prefix stops at an end or at the first difference. -/
theorem commonPrefix_split (a b : List α) : ∃P a' b',a=P++a' ∧ b=P++b' ∧ P.length=commonPrefix a b ∧
      (a'=[] ∨ b'=[] ∨ a'.head?≠b'.head?) := by
  induction a generalizing b with
  | nil => exact ⟨[],[],b,rfl,rfl,by simp [commonPrefix],.inl rfl⟩
  | cons x a ih =>
    cases b with
    | nil => exact ⟨[],x::a,[],rfl,rfl,by simp [commonPrefix],.inr (.inl rfl)⟩
    | cons y b =>
      by_cases h : x=y
      · subst h
        obtain ⟨P,a',b',ha,hb,hP,hend⟩ := ih b
        exact ⟨x::P,a',b',by rw [ha]; rfl,by rw [hb]; rfl,by simp [commonPrefix,hP],hend⟩
      · exact ⟨[],x::a,y::b,rfl,rfl,by simp [commonPrefix,h],.inr (.inr (by simpa using h))⟩

theorem commonPrefix_spec (a b : List α) : commonPrefix a b≤a.length ∧ commonPrefix a b≤b.length ∧
      (∀i<commonPrefix a b,a[i]?=b[i]?) ∧ (commonPrefix a b<a.length→commonPrefix a b<b.length→
        a[commonPrefix a b]?≠b[commonPrefix a b]?) := by
  obtain ⟨P,a',b',rfl,rfl,hP,hend⟩ := commonPrefix_split a b
  rw [←hP]
  refine ⟨by simp,by simp,fun i hi => ?_,fun ha hb => ?_⟩
  · rw [List.getElem?_append_left hi,List.getElem?_append_left hi]
  · rcases hend with rfl | rfl | hne
    · simp at ha
    · simp at hb
    · simpa [List.getElem?_append_right,List.head?_eq_getElem?] using hne

theorem snake_spec (a b : List α) (X Y : ℕ) : ∃t : ℕ,snake a b X Y=some ((X+t : ℕ) : ℤ) ∧
      (∀i<t,X+i<a.length ∧ Y+i<b.length ∧ a[X+i]?=b[Y+i]?) ∧
      (X+t<a.length→Y+t<b.length→a[X+t]?≠b[Y+t]?) := by
  by_cases h : X<a.length ∧ Y<b.length
  · obtain ⟨ha,hb,heq,hne⟩ := commonPrefix_spec (a.drop X) (b.drop Y)
    refine ⟨commonPrefix (a.drop X) (b.drop Y),?_,?_,?_⟩
    · simp [snake,h.1,h.2]
    · intro i hi
      simp only [List.length_drop] at ha hb
      exact ⟨by omega,by omega,by simpa using heq i hi⟩
    · intro h₁ h₂
      simpa using hne (by simp; omega) (by simp; omega)
  · refine ⟨0,?_,by simp,?_⟩
    · simp [snake,h]
    · intro h₁ h₂
      exact absurd ⟨h₁,h₂⟩ h

/-- `x` is reached on diagonal `k` with `d` edits, steps beyond the end of a sequence included. -/
def Reached (a b : List α) (d : ℕ) (k x : ℤ) : Prop :=
  ∃X Y : ℕ,x=X ∧ x-k=Y ∧ before a b X Y+(X-a.length)+(Y-b.length)≤d

theorem Reached.mono {d' : ℕ} (h : Reached a b d k x) (hd : d≤d') : Reached a b d' k x := by
  obtain ⟨X,Y,hX,hY,hc⟩ := h
  exact ⟨X,Y,hX,hY,hc.trans hd⟩

theorem Reached.nonneg (h : Reached a b d k x) : 0≤x := by
  obtain ⟨X,Y,hX,hY,hc⟩ := h
  omega

theorem Reached.diagonal (h : Reached a b d k x) : -d≤k ∧ k≤d := by
  obtain ⟨X,Y,hX,hY,hc⟩ := h
  have h₁ := length_le_add_dist (a.take X) (b.take Y)
  have h₂ := length_le_add_dist' (a.take X) (b.take Y)
  simp only [List.length_take,before] at h₁ h₂ hc
  omega

theorem Reached.step_right (h : Reached a b d (k-1) x) : Reached a b (d+1) k (x+1) := by
  obtain ⟨X,Y,hX,hY,hc⟩ := h
  refine ⟨X+1,Y,by push_cast; omega,by omega,?_⟩
  by_cases hx : X<a.length
  · have := before_succ_left_le a b (y := Y) hx
    omega
  have : before a b (X+1) Y=before a b X Y := by
    simp only [before]
    rw [List.take_of_length_le (by omega : a.length≤X+1),
      List.take_of_length_le (by omega : a.length≤X)]
  omega

theorem Reached.step_down (h : Reached a b d (k+1) x) : Reached a b (d+1) k x := by
  obtain ⟨X,Y,hX,hY,hc⟩ := h
  refine ⟨X,Y+1,hX,by push_cast; omega,?_⟩
  by_cases hy : Y<b.length
  · have := before_succ_right_le a b (x := X) hy
    omega
  have : before a b X (Y+1)=before a b X Y := by
    simp only [before]
    rw [List.take_of_length_le (by omega : b.length≤Y+1),
      List.take_of_length_le (by omega : b.length≤Y)]
  omega

theorem before_snake (a b : List α) {X Y t : ℕ}
    (h : ∀i<t,X+i<a.length ∧ Y+i<b.length ∧ a[X+i]?=b[Y+i]?) :
    before a b (X+t) (Y+t)=before a b X Y := by
  induction t with
  | zero => rfl
  | succ t ih =>
    obtain ⟨hx,hy,he⟩ := h t (by omega)
    rw [List.getElem?_eq_getElem hx,List.getElem?_eq_getElem hy,Option.some.injEq] at he
    rw [←add_assoc,←add_assoc,before_diagonal a b hx hy he]
    exact ih (fun i hi => h i (by omega))

/-- Beyond the right edge the rest of the second sequence is still to be inserted. -/
theorem Reached.right_out (h : Reached a b d k x) (hd : 2*d≤dist a b+1) (hx : (a.length : ℤ)<x) :
    (dist a b : ℤ)+(a.length-b.length)+2≤d+k := by
  obtain ⟨X,Y,hX,hY,hc⟩ := h
  have hb : before a b X Y=before a b a.length Y := by
    simp only [before]
    rw [List.take_of_length_le (by omega : a.length≤X),List.take_of_length_le (Nat.le_refl _)]
  have hD := dist_le_before_add_after a b a.length Y
  have ha : after a b a.length Y=b.length-Y := by simp [after]
  omega

/-- Beyond the lower edge the rest of the first sequence is still to be deleted. -/
theorem Reached.below_out (h : Reached a b d k x) (hd : 2*d≤dist a b+1) (hx : (b.length : ℤ)<x-k) :
    (dist a b : ℤ)+k+2≤d+(a.length-b.length) := by
  obtain ⟨X,Y,hX,hY,hc⟩ := h
  have hb : before a b X Y=before a b X b.length := by
    simp only [before]
    rw [List.take_of_length_le (by omega : b.length≤Y),List.take_of_length_le (Nat.le_refl _)]
  have hD := dist_le_before_add_after a b X b.length
  have ha : after a b X b.length=a.length-X := by simp [after]
  omega

/-- A point from which the other corner can still be reached cheaply lies in the grid. -/
theorem Reached.inside {p q : ℕ} (h : Reached a b p k x)
    (hp : 2*p≤dist a b+1) (hlo : -q≤a.length-b.length-k)
    (hhi : a.length-b.length-k≤q) (hpq : p+q≤dist a b+1) : x≤a.length ∧ x-k≤b.length := by
  constructor
  · by_contra hx
    have := h.right_out hp (by omega)
    omega
  · by_contra hx
    have := h.below_out hp (by omega)
    omega

/-- `x` is at least as far as every point an optimal path reaches on diagonal `k` with `d` edits. -/
def Covers (a b : List α) (d : ℕ) (k x : ℤ) : Prop :=
  ∀X Y : ℕ,OnPath a b X Y → before a b X Y=d→(X : ℤ)-Y=k→(X : ℤ)≤x

/-- The last table lets diagonal `k` be extended: the point the loop starts its snake from is
reached, and an optimal path that is further came there along the diagonal. -/
def Ready (a b : List α) (vOff : ℤ) (d : ℕ) (k : ℤ) (v : List ℤ) : Prop :=
  ∃X₀ Y₀ : ℕ,furthest v vOff k d=some (X₀ : ℤ) ∧ (X₀ : ℤ)-k=Y₀ ∧
    Reached a b d k X₀ ∧
    ∀X Y : ℕ,OnPath a b X Y → before a b X Y=d→(X : ℤ)-Y=k→
      X≤X₀ ∨ ∃X' Y',X=X'+1 ∧ Y=Y'+1 ∧ a[X']?=b[Y']? ∧
        X'<a.length ∧ Y'<b.length ∧ OnPath a b X' Y' ∧ before a b X' Y'=d

/-- The three outcomes of a visit for the scan counters. -/
def Counted (a b : List α) (k x : ℤ) (st st' : Pass) : Prop :=
  (a.length<x ∧ st'.kstart=st.kstart ∧ st'.kend=st.kend+2) ∨
    (x≤a.length ∧ b.length<x-k ∧ st'.kstart=st.kstart+2 ∧ st'.kend=st.kend) ∨
    (x≤a.length ∧ x-k≤b.length ∧ st'.kstart=st.kstart ∧ st'.kend=st.kend)

theorem covers_snake {X₀ Y₀ t : ℕ} (hk : (X₀ : ℤ)-Y₀=k)
    (stop : X₀+t<a.length→Y₀+t<b.length→a[X₀+t]?≠b[Y₀+t]?)
    (start : ∀X Y : ℕ,OnPath a b X Y → before a b X Y=d→(X : ℤ)-Y=k→
      X≤X₀ ∨ ∃X' Y',X=X'+1 ∧ Y=Y'+1 ∧ a[X']?=b[Y']? ∧
        X'<a.length ∧ Y'<b.length ∧ OnPath a b X' Y' ∧ before a b X' Y'=d) :
    Covers a b d k ((X₀+t : ℕ) : ℤ) := by
  intro X
  induction X using Nat.strongRecOn with
  | ind X ih =>
    intro Y hp hc hd
    rcases start X Y hp hc hd with h | ⟨X',Y',rfl,rfl,he,hx,hy,hp',hc'⟩
    · push_cast; omega
    have h := ih X' (by omega) Y' hp' hc' (by push_cast at hd; omega)
    by_cases heq : X'=X₀+t
    · have hY : Y'=Y₀+t := by push_cast at hd; omega
      subst heq hY
      exact absurd he (stop hx hy)
    · push_cast at h ⊢; omega

theorem visit_spec {st : Pass} (hlen : (st.v.length : ℤ)=2*vOff+4) (h₀ : 0≤vOff+k) (h₁ : k≤vOff)
    (hready : Ready a b vOff d k st.v) :
    ∃x st',visit a b vOff k d st=some (x,st') ∧ st'.v=st.v.set (vOff+k).toNat x ∧
      Reached a b d k x ∧ Covers a b d k x ∧ Counted a b k x st st' := by
  obtain ⟨X₀,Y₀,hf,hY,hr,hstart⟩ := hready
  obtain ⟨t,hs,hmatch,hstop⟩ := snake_spec a b X₀ Y₀
  have hv := assign?_eq ((X₀+t : ℕ) : ℤ) h₀ (v := st.v) (by omega)
  have hreach : Reached a b d k ((X₀+t : ℕ) : ℤ) := by
    obtain ⟨X,Y,hX,hY',hc⟩ := hr
    have hXe : X=X₀ := by omega
    have hYe : Y=Y₀ := by omega
    subst hXe hYe
    refine ⟨X+t,Y+t,rfl,by push_cast; omega,?_⟩
    rw [before_snake a b hmatch]
    rcases eq_zero_or_pos t with ht | ht
    · subst ht; exact hc
    · have := hmatch (t-1) (by omega)
      omega
  have hcov : Covers a b d k ((X₀+t : ℕ) : ℤ) := covers_snake (by omega) hstop hstart
  have hvisit : visit a b vOff k d st =
      (let x : ℤ := ((X₀+t : ℕ) : ℤ)
       if x>a.length then some (x,⟨st.v.set (vOff+k).toNat x,st.kstart,st.kend+2⟩)
       else if x-k>b.length then
         some (x,⟨st.v.set (vOff+k).toNat x,st.kstart+2,st.kend⟩)
       else some (x,⟨st.v.set (vOff+k).toNat x,st.kstart,st.kend⟩)) := by
    simp only [visit,hf,hY,hs,hv,Option.bind_eq_bind,Option.bind_some,Option.pure_def]
  by_cases hx : ((X₀+t : ℕ) : ℤ)>a.length
  · rw [if_pos hx] at hvisit
    exact ⟨_,_,hvisit,rfl,hreach,hcov,.inl ⟨hx,rfl,rfl⟩⟩
  rw [if_neg hx] at hvisit
  by_cases hy : ((X₀+t : ℕ) : ℤ)-k>b.length
  · rw [if_pos hy] at hvisit
    exact ⟨_,_,hvisit,rfl,hreach,hcov,.inr (.inl ⟨by omega,hy,rfl,rfl⟩)⟩
  · rw [if_neg hy] at hvisit
    exact ⟨_,_,hvisit,rfl,hreach,hcov,.inr (.inr ⟨by omega,by omega,rfl,rfl⟩)⟩

/-- Being ready depends on the two neighbouring entries only. -/
theorem Ready.congr {v' : List ℤ} (h : Ready a b vOff d k v) (hlen : (v.length : ℤ)=2*vOff+4)
    (hlen' : (v'.length : ℤ)=2*vOff+4) (hv : (d : ℤ)≤vOff) (hlo : -(d : ℤ)≤k) (hhi : k≤d)
    (hl : -vOff≤k-1→entry v' vOff (k-1)=entry v vOff (k-1))
    (hr : entry v' vOff (k+1)=entry v vOff (k+1)) : Ready a b vOff d k v' := by
  obtain ⟨X₀,Y₀,hf,hrest⟩ := h
  refine ⟨X₀,Y₀,?_,hrest⟩
  have right : index? v' (vOff+k+1)=index? v (vOff+k+1) := by
    rw [add_assoc,index?_entry (by omega) (by omega),index?_entry (by omega) (by omega),hr]
  have left : k ≠ -d→index? v' (vOff+k-1)=index? v (vOff+k-1) := by
    intro hk
    rw [add_sub_assoc,index?_entry (by omega) (by omega),index?_entry (by omega) (by omega),
      hl (by omega)]
  rw [←hf]
  unfold furthest
  by_cases hk : k = -d
  · rw [if_pos hk,if_pos hk,right]
  · rw [if_neg hk,if_neg hk,right,left hk]

theorem ready_zero (hlen : (v.length : ℤ)=2*vOff+4)
    (hv : 0≤vOff) (he : entry v vOff 1=0) : Ready a b vOff 0 0 v := by
  have hf : furthest v vOff 0 0=some 0 := by
    rw [furthest,if_pos (by simp),add_zero,index?_entry (by omega) (by omega),he]
  refine ⟨0,0,by simpa using hf,by simp,⟨0,0,by simp,by simp,by simp⟩,?_⟩
  intro X Y hp hb hk
  rcases hp.pred with ⟨rfl,rfl⟩ | ⟨X',Y',rfl,rfl,he,hx,hy,hp',hb'⟩ |
      ⟨X',rfl,hp',hb'⟩ | ⟨Y',rfl,hp',hb'⟩
  · exact .inl (le_refl _)
  · exact .inr ⟨X',Y',rfl,rfl,he,hx,hy,hp',by omega⟩
  · omega
  · omega

/-- The entries of the two neighbours after turn `d` make diagonal `k` ready in turn `d + 1`. -/
theorem ready_succ (hlen : (v.length : ℤ)=2*vOff+4) (hd : (d : ℤ)+1≤vOff)
    (hlo : -((d : ℤ)+1)≤k) (hhi : k≤d+1) (hl : k ≠ -((d : ℤ)+1)→entry v vOff (k-1) ≠ -1→
      Reached a b d (k-1) (entry v vOff (k-1)))
    (hr : entry v vOff (k+1) ≠ -1→Reached a b d (k+1) (entry v vOff (k+1)))
    (cl : k ≠ -((d : ℤ)+1) → Covers a b d (k-1) (entry v vOff (k-1)))
    (cr : Covers a b d (k+1) (entry v vOff (k+1)))
    (lowest : k = -((d : ℤ)+1)→0≤entry v vOff (k+1)) (highest : k=d+1→0≤entry v vOff (k-1))
    (some_nonneg : 0≤entry v vOff (k-1) ∨ 0≤entry v vOff (k+1)) : Ready a b vOff (d+1) k v := by
  generalize hel : entry v vOff (k-1)=l at *
  generalize her : entry v vOff (k+1)=r at *
  have readRight : index? v (vOff+k+1)=some r := by
    rw [add_assoc,index?_entry (by omega) (by omega),her]
  have readLeft : k ≠ -((d : ℤ)+1)→index? v (vOff+k-1)=some l := by
    intro hk
    rw [add_sub_assoc,index?_entry (by omega) (by omega),hel]
  -- the chosen start is at least one right of `l` and at least `r`, where these exist
  have choice : ∃x₀ : ℤ,furthest v vOff k (d+1)=some x₀ ∧ Reached a b (d+1) k x₀ ∧
      (k ≠ -((d : ℤ)+1)→l+1≤x₀) ∧ (k≠d+1 → r≤x₀) := by
    by_cases h₁ : k = -((d : ℤ)+1)
    · refine ⟨r,?_,?_,fun h => absurd h₁ h,fun _ => le_refl _⟩
      · rw [furthest,if_pos (by push_cast; omega),readRight]
      · exact (hr (by omega)).step_down
    by_cases h₂ : k=d+1
    · refine ⟨l+1,?_,?_,fun _ => le_refl _,fun h => absurd h₂ h⟩
      · rw [furthest,if_neg (by push_cast; omega),if_pos (by push_cast; omega),readLeft h₁]
        rfl
      · exact (hl h₁ (by omega)).step_right
    · have hf : furthest v vOff k (d+1)=some (if l<r then r else l+1) := by
        rw [furthest,if_neg (by push_cast; omega),if_neg (by push_cast; omega),
          readLeft h₁,readRight]
        rfl
      by_cases hlt : l<r
      · rw [if_pos hlt] at hf
        exact ⟨r,hf,(hr (by omega)).step_down,fun _ => by omega,fun _ => le_refl _⟩
      · rw [if_neg hlt] at hf
        exact ⟨l+1,hf,(hl h₁ (by omega)).step_right,fun _ => le_refl _,fun _ => by omega⟩
  obtain ⟨x₀,hf,hreach,hgl,hgr⟩ := choice
  obtain ⟨X₀,Y₀,hX,hY,hc⟩ := hreach
  refine ⟨X₀,Y₀,by rw [hf,hX],by omega,⟨X₀,Y₀,rfl,by omega,hc⟩,?_⟩
  intro X Y hp hb hk
  rcases hp.pred with ⟨rfl,rfl⟩ | ⟨X',Y',rfl,rfl,he,hx,hy,hp',hb'⟩ |
      ⟨X',rfl,hp',hb'⟩ | ⟨Y',rfl,hp',hb'⟩
  · simp at hb
  · exact .inr ⟨X',Y',rfl,rfl,he,hx,hy,hp',by omega⟩
  · have hdiag := hp'.diagonal
    have := cl (by push_cast at hk; omega) X' Y hp' (by omega) (by push_cast at hk; omega)
    left; omega
  · have hdiag := hp'.diagonal
    have := cr X Y' hp' (by omega) (by push_cast at hk; omega)
    left; omega

end

end Coreutils.MyersBisect
