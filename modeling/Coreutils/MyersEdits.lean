import Coreutils.MyersSearch

/-!
# The edit script of `myersOps`

Stripping the common ends leaves two sequences at distance at least two, so the halfway point splits
both properly and the recursion ends. The script has as few insertions and deletions as possible.
-/

namespace Coreutils.MyersEdits
open List EditDistance MyersScript MyersBisect MyersSearch

/-- A script consumes the old sequence with `opEq` and `opDel`, the new one with `opEq` and
`opIns`, and `opEq` only where both agree. -/
inductive Edits {α : Type*} : List OpKind→List α→List α→Prop
  | nil : Edits [] [] []
  | eq (x : α) {ops : List OpKind} {a b : List α} (h : Edits ops a b) :
      Edits (.opEq::ops) (x::a) (x::b)
  | del (x : α) {ops : List OpKind} {a b : List α} (h : Edits ops a b) :
      Edits (.opDel::ops) (x::a) b
  | ins (y : α) {ops : List OpKind} {a b : List α} (h : Edits ops a b) :
      Edits (.opIns::ops) a (y::b)

def cost : List OpKind→ℕ
  | [] => 0
  | .opEq::ops => cost ops
  | _::ops => cost ops+1

theorem cost_append (ops ops' : List OpKind) : cost (ops++ops')=cost ops+cost ops' := by
  induction ops with
  | nil => simp [cost]
  | cons k ops ih => cases k <;> simp [cost] <;> omega

@[simp] theorem cost_replicate (n : ℕ) (k : OpKind) :
    cost (replicate n k)=if k=.opEq then 0 else n := by
  induction n with
  | zero => simp [cost]
  | succ n ih => cases k <;> simpa [replicate_succ,cost] using ih

section

variable {α : Type*}

theorem Edits.append {ops ops' : List OpKind} {a b a' b' : List α} (h : Edits ops a b)
    (h' : Edits ops' a' b') : Edits (ops++ops') (a++a') (b++b') := by
  induction h with
  | nil => exact h'
  | eq x h ih => exact .eq x ih
  | del x h ih => exact .del x ih
  | ins y h ih => exact .ins y ih

theorem edits_eq (a : List α) : Edits (replicate a.length .opEq) a a := by
  induction a with
  | nil => exact .nil
  | cons x a ih => exact .eq x ih

theorem edits_del (a : List α) : Edits (replicate a.length .opDel) a [] := by
  induction a with
  | nil => exact .nil
  | cons x a ih => exact .del x ih

theorem edits_ins (b : List α) : Edits (replicate b.length .opIns) [] b := by
  induction b with
  | nil => exact .nil
  | cons y b ih => exact .ins y ih

theorem script_zero {a b : List α} (h : Script a b 0) : a=b := by
  generalize hc : 0=c at h
  induction h with
  | nil => rfl
  | keep x h ih => rw [ih hc]
  | delete | insert => simp at hc

variable [DecidableEq α]

variable (a b : List α)

/-- What `myersRec` strips, and what is left in the middle. -/
theorem strip_split : ∃P S ma mb,a=P++ma++S ∧ b=P++mb++S ∧ P.length=commonPrefix a b ∧
      S.length=commonPrefix (a.drop P.length).reverse (b.drop P.length).reverse ∧
      (ma=[] ∨ mb=[] ∨ (ma.head?≠mb.head? ∧ ma.getLast?≠mb.getLast?)) := by
  obtain ⟨P,a',b',rfl,rfl,hP,hhead⟩ := commonPrefix_split a b
  obtain ⟨Q,a'',b'',ha,hb,hQ,hlast⟩ := commonPrefix_split a'.reverse b'.reverse
  have ha' : a'=a''.reverse++Q.reverse := by rw [←reverse_append,←ha,reverse_reverse]
  have hb' : b'=b''.reverse++Q.reverse := by rw [←reverse_append,←hb,reverse_reverse]
  refine ⟨P,Q.reverse,a''.reverse,b''.reverse,by rw [ha',append_assoc],
    by rw [hb',append_assoc],hP,by simpa using hQ,?_⟩
  by_cases hae : a''=[]
  · exact .inl (by simp [hae])
  by_cases hbe : b''=[]
  · exact .inr (.inl (by simp [hbe]))
  refine .inr (.inr ⟨?_,?_⟩)
  · rw [ha',hb'] at hhead
    rcases hhead with h | h | h
    · simp [hae] at h
    · simp [hbe] at h
    · rwa [head?_append_of_ne_nil _ (by simpa using hae),
        head?_append_of_ne_nil _ (by simpa using hbe)] at h
  · simpa [hae,hbe] using hlast

/-- Sequences that differ at both ends are at least two edits apart. -/
theorem two_le_dist {a b : List α} (ha : a≠[]) (hb : b≠[]) (hhead : a.head?≠b.head?)
    (hlast : a.getLast?≠b.getLast?) : 2≤dist a b := by
  have hs := script_dist a b
  generalize dist a b=c at hs
  by_contra hc
  cases hs with
  | nil => simp at ha
  | keep x h => simp at hhead
  | @delete x a _ c h =>
    obtain rfl : c=0 := by omega
    obtain rfl := script_zero h
    obtain ⟨y,b',rfl⟩ := exists_cons_of_ne_nil hb
    exact hlast (getLast?_cons_cons)
  | @insert y _ b c h =>
    obtain rfl : c=0 := by omega
    obtain rfl := script_zero h
    obtain ⟨x,a',rfl⟩ := exists_cons_of_ne_nil ha
    exact hlast (getLast?_cons_cons).symm

theorem dist_common_ends (P S a b : List α) : dist (P++a++S) (P++b++S)=dist a b := by
  have front : ∀(P a b : List α),dist (P++a) (P++b)=dist a b := by
    intro P a b
    induction P with
    | nil => rfl
    | cons x P ih => simpa using ih
  rw [append_assoc,append_assoc,front,←dist_reverse,reverse_append,
    reverse_append,front,dist_reverse]

omit [DecidableEq α] in
private theorem middle_eq (P ma S : List α) :
    ((P++ma++S).take ((P++ma++S).length-S.length)).drop P.length=ma := by
  rw [length_append,Nat.add_sub_cancel,take_left' rfl,drop_left' rfl]

/-- What `myersRec` hands to `bisect`: the two sequences without their common ends. -/
def middle (a b : List α) : List α×List α :=
  let p := commonPrefix a b
  let s := commonPrefix (a.drop p).reverse (b.drop p).reverse
  ((a.take (a.length-s)).drop p,(b.take (b.length-s)).drop p)

theorem middle_split : ∃P S,a=P++(middle a b).1++S ∧ b=P++(middle a b).2++S ∧
      P.length=commonPrefix a b ∧
      S.length=commonPrefix (a.drop P.length).reverse (b.drop P.length).reverse ∧
      ((middle a b).1=[] ∨ (middle a b).2=[] ∨ ((middle a b).1.head?≠(middle a b).2.head? ∧
          (middle a b).1.getLast?≠(middle a b).2.getLast?)) := by
  obtain ⟨P,S,ma,mb,rfl,rfl,hP,hS,hends⟩ := strip_split a b
  have hmiddle : middle (P++ma++S) (P++mb++S)=(ma,mb) := by simp only [middle,←hP,←hS,middle_eq]
  rw [hmiddle]
  exact ⟨P,S,rfl,rfl,hP,hS,hends⟩

/-- Without common ends, and with both sides left, `bisect` finds a halfway point, no corner. -/
theorem bisect_middle {a b : List α} (ha : (middle a b).1≠[]) (hb : (middle a b).2≠[]) :
    ∃X Y : ℕ,bisect (middle a b).1 (middle a b).2=some ((X : ℤ),(Y : ℤ),true) ∧
      OnPath (middle a b).1 (middle a b).2 X Y ∧ ¬ (X=0 ∧ Y=0) ∧
      ¬ (X=(middle a b).1.length ∧ Y=(middle a b).2.length) := by
  obtain ⟨-,-,-,-,-,-,hends⟩ := middle_split a b
  obtain ⟨hhead,hlast⟩ := (hends.resolve_left ha).resolve_left hb
  have hD := two_le_dist ha hb hhead hlast
  obtain ⟨X,Y,hbisect,hhalf⟩ := bisect_spec (middle a b).1 (middle a b).2
  have hbefore := hhalf.half
  refine ⟨X,Y,hbisect,hhalf.onPath,?_,?_⟩
  · rintro ⟨rfl,rfl⟩
    simp only [before_zero] at hbefore
    omega
  · rintro ⟨rfl,rfl⟩
    rw [before_length] at hbefore
    omega

/-- With fuel for every level of the recursion the script is found, and it is a cheapest one. -/
theorem myersRec_spec (fuel : ℕ) (a b : List α) (hfuel : a.length+b.length<fuel) :
    ∃ops,myersRec fuel a b=some ops ∧ Edits ops a b ∧ cost ops=dist a b := by
  induction fuel generalizing a b with
  | zero => omega
  | succ fuel ih =>
    obtain ⟨P,S,ha,hb,hP,hS,-⟩ := middle_split a b
    have hsplit := @bisect_middle _ _ a b
    rw [myersRec]
    simp only [←hP,←hS]
    rw [show (a.take (a.length-S.length)).drop P.length=(middle a b).1 by rw [hS,hP]; rfl,
      show (b.take (b.length-S.length)).drop P.length=(middle a b).2 by rw [hS,hP]; rfl]
    generalize (middle a b).1=ma at *
    generalize (middle a b).2=mb at *
    subst ha hb
    simp only [length_append] at hfuel
    have around : ∀mid,Edits mid ma mb→cost mid=dist ma mb→
        Edits (replicate P.length .opEq++mid++replicate S.length .opEq)
          (P++ma++S) (P++mb++S) ∧
        cost (replicate P.length .opEq++mid++replicate S.length .opEq) =
          dist (P++ma++S) (P++mb++S) := by
      intro mid hmid hcost
      exact ⟨((edits_eq P).append hmid).append (edits_eq S),by
        rw [dist_common_ends]
        simp [cost_append,hcost]⟩
    by_cases hma : ma=[]
    · subst hma
      obtain ⟨h₁,h₂⟩ := around _ (edits_ins mb) (by simp)
      exact ⟨_,by simp,h₁,h₂⟩
    by_cases hmb : mb=[]
    · subst hmb
      obtain ⟨h₁,h₂⟩ := around _ (edits_del ma) (by simp)
      exact ⟨_,by simp [hma],h₁,h₂⟩
    obtain ⟨X,Y,hbisect,hpath,h₀,h₁⟩ := hsplit hma hmb
    have hX := hpath.left
    have hY := hpath.right
    obtain ⟨left,hl,hle,hlc⟩ := ih (ma.take X) (mb.take Y) (by simp; omega)
    obtain ⟨right,hr,hre,hrc⟩ := ih (ma.drop X) (mb.drop Y) (by simp; omega)
    have hmid : Edits (left++right) ma mb := by simpa using hle.append hre
    obtain ⟨h₂,h₃⟩ := around _ hmid (by rw [cost_append,hlc,hrc]; exact hpath.cost)
    refine ⟨_,?_,h₂,h₃⟩
    simp only [length_eq_zero_iff,hma,hmb,if_false,hbisect,Option.bind_eq_bind,Option.bind_some]
    rw [if_neg (by simp; omega),if_pos (by omega)]
    simp [hl,hr]

/-- `myersOps` always returns, and its script is valid and minimal. -/
theorem myersOps_spec : ∃ops,myersOps a b=some ops ∧ Edits ops a b ∧ cost ops=dist a b :=
  myersRec_spec _ a b (Nat.lt_succ_self _)

/-- The script of `myersOps` turns one sequence into the other and keeps a longest common
subsequence; what is left between common ends is always split properly, so the full replacement for
a degenerate split is never emitted. -/
theorem myersOps_minimal (a b : List α) :
    (∃ops s,myersOps a b=some ops ∧ Edits ops a b ∧ LongestCommon s a b ∧
      cost ops+2*s.length=a.length+b.length) ∧ ((middle a b).1≠[]→(middle a b).2≠[]→
      ∃X Y : ℕ,bisect (middle a b).1 (middle a b).2=some ((X : ℤ),(Y : ℤ),true) ∧
        X≤(middle a b).1.length ∧ Y≤(middle a b).2.length ∧ ¬ (X=0 ∧ Y=0) ∧
        ¬ (X=(middle a b).1.length ∧ Y=(middle a b).2.length)) := by
  constructor
  · obtain ⟨ops,hops,hedits,hcost⟩ := myersOps_spec a b
    obtain ⟨s,hs,hlen⟩ := dist_longestCommon a b
    exact ⟨ops,s,hops,hedits,hs,hcost ▸ hlen⟩
  · intro ha hb
    obtain ⟨X,Y,hbisect,hpath,h₀,h₁⟩ := bisect_middle ha hb
    exact ⟨X,Y,hbisect,hpath.left,hpath.right,h₀,h₁⟩

end

end Coreutils.MyersEdits
