import Coreutils.GrepContext

/-!
# Words and matches of `grep`

With `-w` and `-o` the matcher is run again on the rest of a line. The rest has lost what stands
before it, and of the matches at one place only the longest is seen.
-/

namespace Coreutils.GrepMatches
open List GoText GrepContext

/-- Whether a pattern matches a text between two places; its anchors see the whole text. -/
abbrev Pattern := Bytes→ℕ→ℕ→Bool

/-- The engine of one pattern, and the texts on which it gives up with an error. -/
structure Engine where
  pattern : Pattern
  failure : Bytes→Option Bytes := fun _ => none

/-- The first span is preferred: it begins earlier, or there and is longer. -/
def Preferred (a b : ℕ×ℕ) : Prop := a.1<b.1 ∨ a.1=b.1 ∧ b.2<a.2

instance (a b : ℕ×ℕ) : Decidable (Preferred a b) := inferInstanceAs (Decidable (_ ∨ _))

/-- The spans of a text from `i` on, the preferred ones first. -/
def candidates (text : Bytes) (i : ℕ) : List (ℕ×ℕ) :=
  (range' i (text.length+1-i)).flatMap fun s =>
    (range' s (text.length+1-s)).reverse.map fun e => (s,e)

def findFrom (p : Pattern) (text : Bytes) (i : ℕ) : Option (ℕ×ℕ) :=
  (candidates text i).find? fun x => p text x.1 x.2

def Engine.find (re : Engine) (text : Bytes) : Except Bytes (Option (ℕ×ℕ)) :=
  match re.failure text with
  | some err => .error err
  | none => .ok (findFrom re.pattern text 0)

def keepBest (best : Option (ℕ×ℕ)) : Option (ℕ×ℕ)→Option (ℕ×ℕ)
  | none => best
  | some loc => if best.all fun b => decide (Preferred loc b) then some loc else best

/-- `MatchStringErr` of a matcher of several patterns. -/
def matchString : List Engine→Bytes→Except Bytes Bool
  | [],_ => .ok false
  | re::m,text => do if (← re.find text).isSome then return true else matchString m text

/-- `FindStringIndexErr` of several patterns; with `line` the match is the whole text. The matcher
of the locale keeps an error for its caller instead. -/
def findStringIndex (line : Bool) (m : List Engine) (text : Bytes) :
    Except Bytes (Option (ℕ×ℕ)) := do
  let best ← m.foldlM (fun best re => return keepBest best (← re.find text)) none
  return if line && decide (best≠some (0,text.length)) then none else best

def wordBoundaryOK (text : Bytes) (s e : ℕ) : Bool :=
  (s == 0 || !(text[s-1]?.any isWordByte)) && (e == text.length || !(text[e]?.any isWordByte))

section
variable (lineRe : Bool) (m : List Engine) (line : Bytes)

/-- The loop of `matchLine`, the first argument being fuel. -/
def matchFrom : ℕ→ℕ→Except Bytes Bool
  | 0,_ => .ok false
  | n+1,i =>
    if line.length < i then .ok false
    else do
      match ← findStringIndex lineRe m (line.drop i) with
      | none => return false
      | some (a,b) =>
        if wordBoundaryOK line (i+a) (i+b) then return true else matchFrom n (i+a+1)

def matchLine (word : Bool) : Except Bytes Bool :=
  if word then matchFrom lineRe m line (line.length+1) 0
  else if lineRe then return (← findStringIndex lineRe m line).isSome
  else matchString m line

/-- The loop of `printMatches`: the spans it prints, and the error that ends it. -/
def spansFrom (word : Bool) : ℕ→ℕ→List (ℕ×ℕ)×Option Bytes
  | 0,_ => ([],none)
  | n+1,i =>
    if line.length < i then ([],none)
    else
      match findStringIndex lineRe m (line.drop i) with
      | .error err => ([],some err)
      | .ok none => ([],none)
      | .ok (some (a,b)) =>
        if a<b then
          let (rest,err) := spansFrom word n (i+b)
          (if !word || wordBoundaryOK line (i+a) (i+b) then (i+a,i+b)::rest else rest,err)
        else spansFrom word n (i+a+1)

def spans (word : Bool) : List (ℕ×ℕ)×Option Bytes :=
  spansFrom lineRe m line word (line.length+1) 0

def printMatches (o : Options) (word : Bool) (lineNo : ℕ) : Bytes×Option Bytes :=
  ((spans lineRe m line word).1.flatMap fun x =>
    fields o lineNo ((line.drop x.1).take (x.2-x.1)) true,(spans lineRe m line word).2)

end

theorem pairwise_candidates (text : Bytes) (i : ℕ) : (candidates text i).Pairwise Preferred := by
  refine pairwise_flatMap.mpr ⟨fun s _ => ?_,?_⟩
  · refine pairwise_map.mpr (pairwise_reverse.mpr ?_)
    exact (pairwise_lt_range' ..).imp fun h => .inr ⟨rfl,h⟩
  · refine (pairwise_lt_range' ..).imp fun h a ha b hb => ?_
    obtain ⟨_,-,rfl⟩ := mem_map.mp ha
    obtain ⟨_,-,rfl⟩ := mem_map.mp hb
    exact .inl h

theorem find?_or {l : List (ℕ×ℕ)} (h : l.Pairwise Preferred) (f g : ℕ×ℕ→Bool) :
    l.find? (fun x => f x || g x)=keepBest (l.find? f) (l.find? g) := by
  induction l with
  | nil => rfl
  | cons x l ih =>
    obtain ⟨hx,hl⟩ := pairwise_cons.mp h
    have hsym : ∀y∈l,¬ Preferred y x := fun y hy hyx => by
      have := hx y hy
      unfold Preferred at this hyx
      omega
    cases hf : f x <;> cases hg : g x <;> simp only [find?_cons,hf,hg]
    · exact ih hl
    · cases hr : l.find? f with
      | none => rfl
      | some y => simp [keepBest,hx y (mem_of_find?_eq_some hr)]
    · cases hr : l.find? g with
      | none => rfl
      | some y => simp [keepBest,hsym y (mem_of_find?_eq_some hr)]
    · simp [keepBest]

def anyOf (line : Bool) (m : List Engine) : Pattern := fun text s e =>
  (m.any fun re => re.pattern text s e) && (!line || (s == 0 && e == text.length))

theorem candidates_zero (text : Bytes) : ∃l,candidates text 0=(0,text.length)::l := by
  rw [candidates,Nat.sub_zero,range'_succ,flatMap_cons,Nat.sub_zero,
    range'_1_concat,reverse_append,zero_add]
  exact ⟨_,rfl⟩

section
variable {m : List Engine} {text : Bytes} (h : ∀re∈m,re.failure text=none)
include h

theorem foldlM_keepBest (q : Pattern) :
    m.foldlM (fun best re => do return keepBest best (← re.find text)) (findFrom q text 0) =
      .ok (findFrom (fun t s e => q t s e || m.any fun re => re.pattern t s e) text 0) := by
  induction m generalizing q with
  | nil => simp [pure,Except.pure]
  | cons re m ih =>
    rw [forall_mem_cons] at h
    have hmerge : keepBest (findFrom q text 0) (findFrom re.pattern text 0) =
        findFrom (fun t s e => q t s e || re.pattern t s e) text 0 :=
      (find?_or (pairwise_candidates text 0) _ _).symm
    have hfind : re.find text=.ok (findFrom re.pattern text 0) := by rw [Engine.find,h.1]
    rw [foldlM_cons,hfind]
    refine (congrArg (m.foldlM _) hmerge).trans ((ih h.2 _).trans ?_)
    simp [Bool.or_assoc]

theorem findStringIndex_eq (line : Bool) :
    findStringIndex line m text=.ok (findFrom (anyOf line m) text 0) := by
  have hfold := foldlM_keepBest h fun _ _ _ => false
  have hnone : findFrom (fun _ _ _ => false) text 0=none := by simp [findFrom]
  rw [hnone] at hfold
  rw [findStringIndex,hfold]
  refine congrArg Except.ok ?_
  simp only [Bool.false_or]
  cases line with
  | false =>
    rw [if_neg (by simp)]
    refine congrArg (fun p => findFrom p text 0) ?_
    funext t s e
    simp [anyOf]
  | true =>
    obtain ⟨l,hl⟩ := candidates_zero text
    cases hp : m.any fun re => re.pattern text 0 text.length with
    | true => simp [findFrom,hl,hp,anyOf]
    | false =>
      have hother : findFrom (fun t s e => m.any fun re => re.pattern t s e) text 0 ≠
          some (0,text.length) := fun h => by
        simpa [hp] using find?_some h
      rw [if_pos (by simpa using hother),findFrom,eq_comm,find?_eq_none]
      intro x _ hx
      simp only [anyOf,Bool.and_eq_true,Bool.not_true,Bool.false_or,beq_iff_eq] at hx
      rw [hx.2.1,hx.2.2,hp] at hx
      exact absurd hx.1 Bool.false_ne_true

end

/-- The pattern matches there, at `i` or later. -/
def Hit (p : Pattern) (text : Bytes) (i s e : ℕ) : Prop :=
  i ≤ s ∧ s≤e ∧ e≤text.length ∧ p text s e=true

section
variable {p : Pattern} {text : Bytes} {i s e : ℕ}

theorem mem_candidates : (s,e)∈candidates text i ↔ i ≤ s ∧ s≤e ∧ e≤text.length := by
  simp only [candidates,mem_flatMap,mem_map,mem_reverse,mem_range'_1,Prod.mk.injEq]
  constructor
  · rintro ⟨s,hs,e,he,rfl,rfl⟩
    omega
  · rintro ⟨h₀,h₁,h₂⟩
    exact ⟨s,by omega,e,by omega,rfl,rfl⟩

theorem findFrom_none (h : findFrom p text i=none) : ¬ Hit p text i s e := by
  rintro ⟨h₀,h₁,h₂,hp⟩
  exact find?_eq_none.mp h (s,e) (mem_candidates.mpr ⟨h₀,h₁,h₂⟩) hp

/-- What is found is the match that is preferred to every other. -/
theorem findFrom_iff : findFrom p text i=some (s,e) ↔ Hit p text i s e ∧
    ∀s' e',Hit p text i s' e'→¬ Preferred (s',e') (s,e) := by
  have hfound : ∀{s e},findFrom p text i=some (s,e)→Hit p text i s e ∧
      ∀s' e',Hit p text i s' e'→¬ Preferred (s',e') (s,e) := by
    intro s e h
    obtain ⟨hp,l,r,hl,hbefore⟩ := find?_eq_some_iff_append.mp h
    obtain ⟨h₀,h₁,h₂⟩ := mem_candidates.mp (mem_of_find?_eq_some h)
    refine ⟨⟨h₀,h₁,h₂,hp⟩,fun s' e' ⟨h₀,h₁,h₂,hp⟩ hpref => ?_⟩
    have hmem := mem_candidates.mpr ⟨h₀,h₁,h₂⟩
    have hsorted := pairwise_candidates text i
    rw [hl] at hmem hsorted
    rcases mem_append.mp hmem with hin | hin
    · simpa [hp] using hbefore _ hin
    have hafter := (pairwise_cons.mp (pairwise_append.mp hsorted).2.1).1 (s',e')
    rw [mem_cons,Prod.mk.injEq] at hin
    have hnot := hin.imp_right hafter
    unfold Preferred at hnot hpref
    omega
  refine ⟨hfound,fun ⟨hit,hbest⟩ => ?_⟩
  cases hx : findFrom p text i with
  | none => exact absurd hit (findFrom_none hx)
  | some x =>
    obtain ⟨hit',hbest'⟩ := hfound (s := x.1) (e := x.2) hx
    have h₁ := hbest _ _ hit'
    have h₂ := hbest' _ _ hit
    unfold Preferred at h₁ h₂
    rw [Option.some.injEq,Prod.ext_iff]
    omega

end

/-- What stands before a place of the line does not matter to the pattern there. -/
def LeftLocal (p : Pattern) (line : Bytes) : Prop :=
  ∀i≤line.length,∀s e,p (line.drop i) s e=p line (i+s) (i+e)

def Answers (m : List Engine) (line : Bytes) : Prop :=
  ∀re∈m,∀i≤line.length,re.failure (line.drop i)=none

/-- A match of the line stands between bytes that are not of words. -/
def WordMatch (p : Pattern) (line : Bytes) : Prop :=
  ∃s e,Hit p line 0 s e ∧ wordBoundaryOK line s e=true

/-- The longest match at one of the places stands so. -/
def LongestWord (p : Pattern) (line : Bytes) (i : ℕ) : Prop :=
  ∃s e,Hit p line i s e ∧ (∀e',Hit p line i s e'→e'≤e) ∧ wordBoundaryOK line s e=true

section
variable {lineRe : Bool} {m : List Engine} {line : Bytes} {p : Pattern} {n k i a b : ℕ}

theorem Answers.find (h : Answers m line) (hi : i≤line.length) :
    findStringIndex lineRe m (line.drop i)=.ok (findFrom (anyOf lineRe m) (line.drop i) 0) :=
  findStringIndex_eq (fun re hre => h re hre i hi) lineRe

theorem LeftLocal.hit (h : LeftLocal p line) (hi : i≤line.length) {s e : ℕ} :
    Hit p (line.drop i) 0 s e ↔ Hit p line i (i+s) (i+e) := by
  rw [Hit,Hit,h i hi,length_drop]
  constructor
  · rintro ⟨_,h₁,h₂,hp⟩
    exact ⟨by omega,by omega,by omega,hp⟩
  · rintro ⟨_,h₁,h₂,hp⟩
    exact ⟨by omega,by omega,by omega,hp⟩

/-- Without a match in the rest there is none in the line from there on. -/
theorem LeftLocal.none (h : LeftLocal p line) (hi : i≤line.length)
    (hf : findFrom p (line.drop i) 0=none) (s e : ℕ) : ¬ Hit p line i s e := by
  intro hit
  obtain ⟨s,rfl⟩ := Nat.exists_eq_add_of_le hit.1
  obtain ⟨e,rfl⟩ := Nat.exists_eq_add_of_le (hit.1.trans hit.2.1)
  exact findFrom_none hf ((h.hit hi).mpr hit)

/-- The match found in the rest is the preferred one of the line from there on. -/
theorem LeftLocal.some (h : LeftLocal p line) (hi : i≤line.length)
    (hf : findFrom p (line.drop i) 0=some (a,b)) : Hit p line i (i+a) (i+b) ∧
      ∀s e,Hit p line i s e→¬ Preferred (s,e) (i+a,i+b) := by
  obtain ⟨hit,hbest⟩ := findFrom_iff.mp hf
  refine ⟨(h.hit hi).mp hit,fun s e hse hpref => ?_⟩
  obtain ⟨s,rfl⟩ := Nat.exists_eq_add_of_le hse.1
  obtain ⟨e,rfl⟩ := Nat.exists_eq_add_of_le (hse.1.trans hse.2.1)
  refine hbest s e ((h.hit hi).mpr hse) ?_
  unfold Preferred at hpref ⊢
  omega

theorem matchFrom_iff (hm : Answers m line) (hp : LeftLocal (anyOf lineRe m) line)
    (hn : line.length+1≤n+i) : ∃r,matchFrom lineRe m line n i=.ok r ∧
      (r=true ↔ LongestWord (anyOf lineRe m) line i) := by
  induction n generalizing i with
  | zero =>
    refine ⟨false,rfl,by simp,?_⟩
    rintro ⟨s,e,⟨h₀,h₁,h₂,-⟩,-⟩
    omega
  | succ n ih =>
    rw [matchFrom]
    by_cases hi : line.length < i
    · refine ⟨false,if_pos hi,by simp,?_⟩
      rintro ⟨s,e,⟨h₀,h₁,h₂,-⟩,-⟩
      omega
    rw [if_neg hi,hm.find (by omega)]
    cases hf : findFrom (anyOf lineRe m) (line.drop i) 0 with
    | none =>
      refine ⟨false,rfl,by simp,?_⟩
      rintro ⟨s,e,hit,-⟩
      exact absurd hit (hp.none (by omega) hf s e)
    | some x =>
      obtain ⟨a,b⟩ := x
      obtain ⟨hit,hbest⟩ := hp.some (by omega) hf
      have hlongest : ∀e,Hit (anyOf lineRe m) line i (i+a) e→e ≤ i+b := fun e he => by
        have := hbest _ e he
        unfold Preferred at this
        omega
      by_cases hw : wordBoundaryOK line (i+a) (i+b)=true
      · exact ⟨true,if_pos hw,fun _ => ⟨_,_,hit,hlongest,hw⟩,fun _ => rfl⟩
      obtain ⟨r,hr,hiff⟩ := ih (i := i+a+1) (by omega)
      refine ⟨r,(if_neg hw).trans hr,hiff.trans ⟨?_,?_⟩⟩
      · rintro ⟨s,e,hse,hmax,hword⟩
        have hlater : i ≤ s := by have := hse.1; omega
        exact ⟨s,e,⟨hlater,hse.2⟩,fun e' h => hmax e' ⟨hse.1,h.2⟩,hword⟩
      rintro ⟨s,e,hse,hmax,hword⟩
      -- a longest match that is a word is not the one found, so it begins after it
      have hnot := hbest s e hse
      have hlater : i+a+1 ≤ s := by
        by_contra hs
        have hsa : s=i+a := by
          unfold Preferred at hnot
          omega
        subst hsa
        have heq : e=i+b := le_antisymm (hlongest e hse) (hmax _ hit)
        exact hw (heq ▸ hword)
      exact ⟨s,e,⟨hlater,hse.2⟩,fun e' h => hmax e' ⟨hse.1,h.2⟩,hword⟩

end

def literal (w : Bytes) : Pattern := fun text s e => (text.drop s).take (e-s) == w

theorem leftLocal_literals (ws : List Bytes) (line : Bytes) :
    LeftLocal (anyOf false (ws.map fun w => ⟨literal w,fun _ => none⟩)) line := by
  intro i _ s e
  simp only [anyOf,literal,any_map,Function.comp_def,drop_drop,Nat.add_sub_add_left,Bool.not_false,
    Bool.true_or]

theorem answers_literals (ws : List Bytes) (line : Bytes) :
    Answers (ws.map fun w => ⟨literal w,fun _ => none⟩) line := by
  intro re hre _ _
  obtain ⟨w,-,rfl⟩ := mem_map.mp hre
  rfl

def shorter : List Engine := [ascii "a",ascii "a-b"].map fun w => ⟨literal w,fun _ => none⟩

def next (p : Pattern) (line : Bytes) (i : ℕ) : Option (ℕ×ℕ) :=
  findFrom (fun text s e => p text s e && decide (s<e)) line i

def successiveFrom (p : Pattern) (line : Bytes) : ℕ→ℕ→List (ℕ×ℕ)
  | 0,_ => []
  | n+1,i =>
    match next p line i with
    | none => []
    | some (s,e) => (s,e)::successiveFrom p line n e

def successive (p : Pattern) (line : Bytes) : List (ℕ×ℕ) :=
  successiveFrom p line (line.length+1) 0

section
variable {lineRe : Bool} {m : List Engine} {line : Bytes} {p : Pattern} {n k i j s e : ℕ}

theorem hit_next : Hit (fun text s e => p text s e && decide (s<e)) line i s e ↔
    Hit p line i s e ∧ s<e := by
  simp only [Hit,Bool.and_eq_true,decide_eq_true_eq,and_assoc]

theorem next_none (h : ∀s e,Hit p line i s e→¬ s<e) : next p line i=none := by
  cases hx : next p line i with
  | none => rfl
  | some x =>
    obtain ⟨s,e⟩ := x
    have hit := hit_next.mp (findFrom_iff.mp hx).1
    exact absurd hit.2 (h _ _ hit.1)

/-- Places at which no match begins that is not empty are passed over. -/
theorem next_skip (hij : i≤j) (h : ∀s e,Hit p line i s e→s<e→j ≤ s) :
    next p line i=next p line j := by
  cases hx : next p line j with
  | none =>
    refine next_none fun s e hit hse => ?_
    exact findFrom_none hx (hit_next.mpr ⟨⟨h s e hit hse,hit.2⟩,hse⟩)
  | some x =>
    obtain ⟨hit,hbest⟩ := findFrom_iff.mp (show next p line j=some (x.1,x.2) from hx)
    refine findFrom_iff.mpr ⟨⟨hij.trans hit.1,hit.2⟩,fun s e hit' => hbest s e ?_⟩
    obtain ⟨hse,hlt⟩ := hit_next.mp hit'
    exact ⟨h s e hse hlt,hit'.2⟩

theorem spansFrom_eq (hm : Answers m line) (hp : LeftLocal (anyOf lineRe m) line)
    (hn : line.length+1≤n+i) (hk : line.length+1≤k+i) :
    spansFrom lineRe m line false n i=(successiveFrom (anyOf lineRe m) line k i,none) := by
  have hpast : ∀{i k},line.length < i→successiveFrom (anyOf lineRe m) line k i=[] := by
    intro i k hi
    cases k with
    | zero => rfl
    | succ k =>
      rw [successiveFrom,next_none]
      rintro s e ⟨h₀,h₁,h₂,-⟩
      omega
  induction n generalizing i k with
  | zero => rw [spansFrom,hpast (by omega)]
  | succ n ih =>
    rw [spansFrom]
    by_cases hi : line.length < i
    · rw [if_pos hi,hpast hi]
    obtain ⟨k,rfl⟩ : ∃k',k=k'+1 := ⟨k-1,by omega⟩
    rw [if_neg hi,hm.find (by omega)]
    cases hf : findFrom (anyOf lineRe m) (line.drop i) 0 with
    | none =>
      rw [successiveFrom,next_none fun s e hit => absurd hit (hp.none (by omega) hf s e)]
    | some x =>
      obtain ⟨a,b⟩ := x
      obtain ⟨hit,hbest⟩ := hp.some (by omega) hf
      by_cases hab : a<b
      · have hnext : next (anyOf lineRe m) line i=some (i+a,i+b) :=
          findFrom_iff.mpr ⟨hit_next.mpr ⟨hit,by omega⟩,fun s e h => hbest s e (hit_next.mp h).1⟩
        rw [successiveFrom,hnext]
        simp only [if_pos hab]
        rw [ih (i := i+b) (k := k) (by omega) (by omega)]
        rfl
      · -- an empty match: what is not empty begins after it
        have hskip : next (anyOf lineRe m) line i=next (anyOf lineRe m) line (i+a+1) := by
          refine next_skip (by omega) fun s e hse hlt => ?_
          have hle := hit.2.1
          have hnot := hbest s e hse
          unfold Preferred at hnot
          omega
        simp only [if_neg hab]
        rw [ih (i := i+a+1) (k := k+1) (by omega) (by omega),successiveFrom,successiveFrom,hskip]

end

/-- The pattern `^a`. -/
def caretA : Pattern := fun text s e => s == 0 && e == 1 && text.head? == some 97

end Coreutils.GrepMatches
