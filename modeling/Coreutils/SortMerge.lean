import Coreutils.SortOrder

/-!
# Merging sorted files

`mergeFiles` of `cmds/sort`: sorted runs are merged in pairs, round after round, with ties taken
from the earlier run, to the stable sort of all lines. The collation of a locale may fail: the first
failure is kept, and reported when the lines are merged.
-/

namespace Coreutils.SortMerge
open List GoText Comparators DigitOrder SortKeys SortOrder

structure CtypeTables where
  fold : UInt8→UInt8
  alnum : UInt8→Bool
  blank : UInt8→Bool
  print : UInt8→Bool

/-- The locale of `sorter`: a provider of collation, separators of numbers, classes of bytes. -/
structure Locale where
  collator : Option (Bytes→Bytes→Except Bytes ℤ) := none
  decPt : UInt8 := 0
  thousSep : UInt8 := 0
  ctype : Option CtypeTables := none

/-- Comparisons. The state is the error that the collator has kept, and `none` is a panic. -/
abbrev Comparing (α : Type) := StateT (Option Bytes) Option α

def CtypeTables.normalize (t : CtypeTables) (s : Bytes) (o : KeyOpts) : Bytes :=
  (s.filter fun c => (!o.dict || t.blank c || t.alnum c) && (!o.ignoreNP || t.print c)).map
    fun c => if o.fold then t.fold c else c

def localeFraction (decPt : UInt8) : Bytes→Bytes
  | c::t => if c=decPt then t.takeWhile isDigit else []
  | [] => []

def parseNumPartsLocale (s : Bytes) (decPt thousSep : UInt8) : ℤ×Bytes×Bytes :=
  let s := trimBlanks s
  let neg := s.head?=some 45
  let s := if neg then s.tail else s
  let whole := fun c => isDigit c || (thousSep != 0 && c == thousSep)
  let ip := trimZeros ((s.takeWhile whole).filter isDigit)
  let fp := trimZerosRight (localeFraction decPt (s.dropWhile whole))
  if ip=[] ∧ fp=[] then (0,[],[]) else (if neg then -1 else 1,ip,fp)

namespace Locale
variable (l : Locale) (g : Bytes→Bytes→ℤ)

def textCompare (a b : Bytes) : Comparing ℤ :=
  match l.collator with
  | none => return compareBytes a b
  | some provider => do
    match ← get,provider a b with
    | some _,_ => return 0
    | none,.ok d => return d
    | none,.error err => do
      set (some err)
      return 0

def normalizeTextKey (s : Bytes) (o : KeyOpts) : Bytes :=
  match l.ctype with
  | some t => t.normalize s o
  | none => SortKeys.normalizeTextKey s o

def textKeyCompare (a b : Bytes) (o : KeyOpts) : Comparing ℤ :=
  if o.dict || o.ignoreNP || o.fold then
    l.textCompare (l.normalizeTextKey a o) (l.normalizeTextKey b o)
  else l.textCompare a b

def numCompare (a b : Bytes) : ℤ :=
  if l.decPt=0 ∧ l.thousSep=0 then SortKeys.numCompare a b
  else
    let (sa,ia,fa) := parseNumPartsLocale a l.decPt l.thousSep
    let (sb,ib,fb) := parseNumPartsLocale b l.decPt l.thousSep
    if sa≠sb then cmpInt sa sb
    else
      let m := magCompare ia fa ib fb
      if sa<0 then -m else m

/-- The comparison of two keys; those of the other kinds do not depend on the locale. -/
def keyCompare (o : KeyOpts) (a b : Bytes) : Comparing ℤ :=
  match o.kind with
  | .numeric => return l.numCompare a b
  | .text => l.textKeyCompare a b o
  | _ => return SortKeys.keyCompare g o a b

def compareKeys (tab : Option UInt8) (a b : Bytes) : List KeySpec → Comparing ℤ
  | [] => return 0
  | k::ks => do
    let ka ← extractKey a k tab
    let kb ← extractKey b k tab
    let d ← l.keyCompare g k.opts ka kb
    if d≠0 then return if k.opts.reverse then -d else d else compareKeys tab a b ks

def compare (s : Sorter) (a b : Bytes) : Comparing ℤ := do
  let d ← l.compareKeys g s.tab a b s.keys
  if s.keys≠[] ∧ (d≠0 ∨ s.stable ∨ s.unique) then return d
  else
    let d ← l.textCompare a b
    return if s.reverse then -d else d

def compareEqual (s : Sorter) (a b : Bytes) : Comparing ℤ :=
  if s.keys≠[] then l.compareKeys g s.tab a b s.keys else l.textCompare a b

end Locale

section
variable (g : Bytes→Bytes→ℤ) (a b : Bytes)

theorem keyCompare_c (o : KeyOpts) (a b : Bytes) :
    Locale.keyCompare {} g o a b=pure (SortKeys.keyCompare g o a b) := by
  unfold Locale.keyCompare SortKeys.keyCompare Locale.textKeyCompare SortKeys.textKeyCompare
  cases o.kind with
  | text =>
    dsimp only
    split <;> rfl
  | _ => rfl

theorem compareKeys_c (tab : Option UInt8) (ks : List KeySpec) :
    Locale.compareKeys {} g tab a b ks=liftM (SortKeys.compareKeys g tab a b ks) := by
  induction ks with
  | nil => rfl
  | cons k ks ih =>
    simp only [Locale.compareKeys,SortKeys.compareKeys,liftM_bind,keyCompare_c,ih,pure_bind]
    congr! 5
    split <;> rfl

/-- In the C locale `compare` is the comparison of the keys and of the bytes. -/
theorem compare_c (s : Sorter) : Locale.compare {} g s a b=liftM (s.compare g a b) := by
  simp only [Locale.compare,Sorter.compare,liftM_bind,compareKeys_c]
  congr! 2
  split <;> rfl

end

section
variable (cmp : Bytes→Bytes → Comparing ℤ)

/-- The loop of `mergeRuns`, the first argument being fuel. -/
def mergeLoop : ℕ→List Bytes→List Bytes → Comparing (List Bytes)
  | fuel+1,x::a,y::b => do
    if (← cmp x y)≤0 then return x::(← mergeLoop fuel a (y::b))
    else return y::(← mergeLoop fuel (x::a) b)
  | _,a,b => return a++b

def mergeRuns (a b : List Bytes) : Comparing (List Bytes) := mergeLoop cmp (a.length+b.length) a b

/-- A round; an odd run is carried over. -/
def mergePairs : List (List Bytes) → Comparing (List (List Bytes))
  | a::b::runs => do return (← mergeRuns cmp a b)::(← mergePairs runs)
  | runs => return runs

def mergeRounds : ℕ→List (List Bytes) → Comparing (List (List Bytes))
  | 0,runs => return runs
  | fuel+1,runs => if runs.length>1 then do
      mergeRounds fuel (← mergePairs cmp runs)
    else return runs

/-- The lines after `last` that are not equal to the line kept before them. -/
def keepFrom : Bytes→List Bytes → Comparing (List Bytes)
  | _,[] => return []
  | last,l::ls => do
    if (← cmp last l)≠0 then return l::(← keepFrom l ls) else keepFrom last ls

def keepFirsts : List Bytes → Comparing (List Bytes)
  | [] => return []
  | l::ls => do return l::(← keepFrom cmp l ls)

end

variable {V : Type} [LinearOrder V] (parse : Bytes→Option (Option V))

/-- `parse` is `generalNumParse`, with `some none` for a NaN. -/
def generalNumCompare (a b : Bytes) : ℤ :=
  match parse a,parse b with
  | none,none => 0
  | none,some _ => -1
  | some _,none => 1
  | some none,some none => 0
  | some none,some (some _) => 1
  | some (some _),some none => -1
  | some (some x),some (some y) => if x<y then -1 else if x>y then 1 else 0

def writeStringLines (zeroTerm : Bool) (lines : List Bytes) : Bytes :=
  lines.flatMap (·++[if zeroTerm then 0 else newline])

def collationFailure (err : Bytes) : Bytes :=
  ascii "sort: LC_COLLATE comparison failed: " ++ err++[newline]

/-- After merging, and again after dropping equal lines, a kept error ends `mergeFiles`. -/
def unlessFailed {α : Type} (m : Comparing (Except Bytes α)) : Comparing (Except Bytes α) := do
  match ← get with
  | some err => return .error (collationFailure err)
  | none => m

/-- `mergeFiles` on the lines of the inputs: what it writes, or its diagnostic. -/
def mergeFiles (l : Locale) (g : Bytes→Bytes→ℤ) (s : Sorter) (zeroTerm : Bool)
    (runs : List (List Bytes)) : Comparing (Except Bytes Bytes) := do
  let rounds ← mergeRounds (l.compare g s) runs.length runs
  unlessFailed do
    let merged ← rounds.head?
    if s.unique then
      let merged ← keepFirsts (l.compareEqual g s) merged
      unlessFailed (return .ok (writeStringLines zeroTerm merged))
    else return .ok (writeStringLines zeroTerm merged)

theorem ranked_generalNumCompare : Ranked (generalNumCompare parse) := by
  let value : Bytes→WithBot (WithTop V) := fun s =>
    match parse s with
    | none => ⊥
    | some none => ((⊤ : WithTop V) : WithBot (WithTop V))
    | some (some v) => ((v : WithTop V) : WithBot (WithTop V))
  refine ⟨_,inferInstance,value,fun a b => ?_⟩
  simp only [generalNumCompare,value]
  rcases parse a with _ | _ | x <;> rcases parse b with _ | _ | y <;> simp [order]
  split_ifs <;> rfl

theorem ranked_key {g : Bytes→Bytes→ℤ} (hg : Ranked g) (o : KeyOpts) : Ranked (keyCompare g o) := by
  by_cases hgen : o.generalNum=false
  · exact ranked_keyCompare g hgen
  · unfold keyCompare
    by_cases hrandom : o.random=true
    · simpa [KeyOpts.kind,hrandom] using ranked_zero
    · simpa [KeyOpts.kind,hrandom,hgen] using hg

theorem digits_localeFraction (decPt : UInt8) (s : Bytes) : Digits (localeFraction decPt s) := by
  unfold localeFraction
  split
  · split
    · exact digits_takeWhile _
    · exact fun _ h => by simp at h
  · exact fun _ h => by simp at h

theorem ranked_numCompare (l : Locale) : Ranked l.numCompare := by
  have hspec : ∀s,∃v sg ip fp,
      parseNumPartsLocale s l.decPt l.thousSep=(sg,ip,fp) ∧ Parts v sg ip fp := fun s =>
    ⟨_,parts_trimmed _ (Digits.trimZeros fun c hc => (mem_filter.mp hc).2) (head_trimZeros _)
      (digits_localeFraction _ _).trimZerosRight (getLast_trimZerosRight _)⟩
  choose value sg ip fp hparse hparts using hspec
  have heq : ∀a b,l.numCompare a b =
      if l.decPt=0 ∧ l.thousSep=0 then order (numValue a) (numValue b)
      else order (value a) (value b) := by
    intro a b
    unfold Locale.numCompare
    split
    · exact numCompare_eq a b
    · rw [hparse a,hparse b]
      exact (hparts a).compare (hparts b)
  by_cases hc : l.decPt=0 ∧ l.thousSep=0
  · simpa [funext₂ heq,hc] using ranked_order numValue
  · simpa [funext₂ heq,hc] using ranked_order value

/-- The collation of the locale compares all texts, and as a total preorder. -/
structure Locale.Collates (l : Locale) (text : Bytes→Bytes→ℤ) : Prop where
  ranked : Ranked text
  bytes : l.collator=none→text=compareBytes
  answers : ∀provider∈l.collator,∀a b,provider a b=.ok (text a b)

theorem collates_c : ({} : Locale).Collates compareBytes where
  ranked := funext₂ compareBytes_eq ▸ ranked_order bytesValue
  bytes _ := rfl
  answers := nofun

section
variable (l : Locale) (g text : Bytes→Bytes→ℤ) (s : Sorter)

def keyVerdict (o : KeyOpts) (a b : Bytes) : ℤ :=
  match o.kind with
  | .numeric => l.numCompare a b
  | .text =>
    if o.dict || o.ignoreNP || o.fold then
      text (l.normalizeTextKey a o) (l.normalizeTextKey b o)
    else text a b
  | _ => keyCompare g o a b

def keysVerdict (a b : Bytes) : List KeySpec→ℤ
  | [] => 0
  | k::ks =>
    orElse (flip k (keyVerdict l g text k.opts (keyText k s.tab a) (keyText k s.tab b)))
      (keysVerdict a b ks)

/-- What `compare` gives for two lines whose keys can be cut. -/
def verdict (a b : Bytes) : ℤ :=
  let d := keysVerdict l g text s a b s.keys
  if s.keys≠[] ∧ (s.stable ∨ s.unique) then d
  else orElse d (if s.reverse then -text a b else text a b)

/-- What `compareEqual` gives for them. -/
def equalVerdict (a b : Bytes) : ℤ :=
  if s.keys≠[] then keysVerdict l g text s a b s.keys else text a b

variable {l g text} (hg : Ranked g) (htext : Ranked text)
include hg htext

theorem ranked_keysVerdict (ks : List KeySpec) :
    Ranked fun a b => keysVerdict l g text s a b ks := by
  have hkey : ∀o,Ranked (keyVerdict l g text o) := by
    intro o
    unfold keyVerdict
    cases o.kind with
    | numeric => exact ranked_numCompare l
    | text =>
      dsimp only
      split
      · exact htext.comp (l.normalizeTextKey · o)
      · exact htext
    | _ => exact ranked_key hg o
  induction ks with
  | nil => exact ranked_zero
  | cons k ks ih => exact (ranked_flip k ((hkey k.opts).comp (keyText k s.tab))).orElse ih

theorem ranked_verdict : Ranked (verdict l g text s) := by
  have hkeys := ranked_keysVerdict (l := l) s hg htext s.keys
  unfold verdict
  dsimp only
  split
  · exact hkeys
  · refine hkeys.orElse ?_
    split
    · exact htext.neg
    · exact htext

end

section
variable {α β : Type}

/-- The comparisons return, and the collator keeps no error. -/
def Gives (x : Comparing α) (v : α) : Prop := x none=some (v,none)

theorem Gives.bind {x : Comparing α} {v : α} {f : α → Comparing β} {w : β} (hx : Gives x v)
    (hf : Gives (f v) w) : Gives (x >>= f) w := by
  change (x none >>= fun p => f p.1 p.2)=some (w,none)
  rw [show x none=some (v,none) from hx]
  exact hf

theorem gives_pure (v : α) : Gives (pure v) v := rfl

theorem gives_lift {x : Option α} {v : α} (h : x=some v) : Gives (liftM x) v := by
  subst h
  rfl

theorem gives_unlessFailed {x : Comparing (Except Bytes α)} {v : Except Bytes α} (h : Gives x v) :
    Gives (unlessFailed x) v := h

end

section
variable {l : Locale} {g text : Bytes→Bytes→ℤ} {s : Sorter} {a b : Bytes}
  (hl : l.Collates text)
include hl

theorem gives_textCompare (a b : Bytes) : Gives (l.textCompare a b) (text a b) := by
  unfold Locale.textCompare
  cases hc : l.collator with
  | none =>
    rw [hl.bytes hc]
    exact gives_pure _
  | some provider =>
    have hok := hl.answers provider hc a b
    simp only [hok]
    rfl

theorem gives_keyCompare (o : KeyOpts) (a b : Bytes) :
    Gives (l.keyCompare g o a b) (keyVerdict l g text o a b) := by
  unfold Locale.keyCompare keyVerdict Locale.textKeyCompare
  cases o.kind with
  | text =>
    dsimp only
    split <;> exact gives_textCompare hl _ _
  | _ => exact gives_pure _

variable (ha : ∀k∈s.keys,Extracts k s.tab a) (hb : ∀k∈s.keys,Extracts k s.tab b)
include ha hb

theorem gives_compareKeys :
    Gives (l.compareKeys g s.tab a b s.keys) (keysVerdict l g text s a b s.keys) := by
  generalize s.keys=ks at ha hb
  induction ks with
  | nil => exact gives_pure _
  | cons k ks ih =>
    rw [forall_mem_cons] at ha hb
    refine (gives_lift (extractKey_eq ha.1)).bind ((gives_lift (extractKey_eq hb.1)).bind ?_)
    refine (gives_keyCompare hl k.opts _ _).bind ?_
    rw [keysVerdict]
    by_cases hz : keyVerdict l g text k.opts (keyText k s.tab a) (keyText k s.tab b)=0
    · simp only [hz,flip_zero,orElse_zero_left]
      exact ih ha.2 hb.2
    · rw [orElse_of_ne ((flip_ne_zero k _).mpr hz),if_pos hz]
      exact gives_pure _

theorem gives_compare : Gives (l.compare g s a b) (verdict l g text s a b) := by
  refine (gives_compareKeys hl ha hb).bind ?_
  unfold verdict
  generalize hd : keysVerdict l g text s a b s.keys=d
  dsimp only
  by_cases hk : s.keys=[]
  · obtain rfl : d=0 := by rw [←hd,hk,keysVerdict]
    simp only [hk,ne_eq,not_true_eq_false,false_and,if_false,orElse_zero_left]
    exact (gives_textCompare hl a b).bind (gives_pure _)
  by_cases hz : d=0
  · subst hz
    by_cases hend : s.stable=true ∨ s.unique=true
    · simp only [hk,hend,ne_eq,not_false_eq_true,true_and,or_true,if_true]
      exact gives_pure _
    · simp only [hk,hend,ne_eq,not_false_eq_true,not_true_eq_false,true_and,or_false,if_false,
        orElse_zero_left]
      exact (gives_textCompare hl a b).bind (gives_pure _)
  · rw [if_pos ⟨hk,.inl hz⟩,orElse_of_ne hz,ite_self]
    exact gives_pure _

theorem gives_compareEqual : Gives (l.compareEqual g s a b) (equalVerdict l g text s a b) := by
  unfold Locale.compareEqual equalVerdict
  split
  · exact gives_compareKeys hl ha hb
  · exact gives_textCompare hl a b

end

variable {runs : List (List Bytes)}

section
variable {cmp : Bytes→Bytes → Comparing ℤ} {c : Bytes→Bytes→ℤ} {lines : List Bytes}
  (hc : ∀a∈lines,∀b∈lines,Gives (cmp a b) (c a b))
include hc

theorem mergeLoop_gives {fuel : ℕ} {a b : List Bytes} (hfuel : a.length+b.length≤fuel)
    (ha : a ⊆ lines) (hb : b ⊆ lines) : Gives (mergeLoop cmp fuel a b) (merge a b (c · ·≤0)) := by
  induction fuel generalizing a b with
  | zero =>
    obtain ⟨rfl,rfl⟩ : a=[] ∧ b=[] := by simpa using hfuel
    simpa [mergeLoop] using gives_pure []
  | succ fuel ih =>
    rcases a with _ | ⟨x,a⟩
    · simpa [mergeLoop] using gives_pure b
    rcases b with _ | ⟨y,b⟩
    · simpa [mergeLoop] using gives_pure (x::a)
    simp only [cons_subset] at ha hb
    simp only [length_cons] at hfuel
    refine (hc x ha.1 y hb.1).bind ?_
    rw [cons_merge_cons]
    by_cases h : c x y≤0
    · simp only [h]
      exact (ih (by simp; omega) ha.2 (by simp [hb])).bind (gives_pure _)
    · simp only [h]
      exact (ih (by simp; omega) (by simp [ha]) hb.2).bind (gives_pure _)

variable [IsTrans Bytes (c · ·≤0)] [Std.Total (c · ·≤0)]

/-- A round concatenates neighbours, and keeps every run sorted. -/
theorem mergePairs_gives (hl : runs.flatten ⊆ lines) :
    ∃pairs : List (List Bytes),pairs.flatten=runs.flatten ∧ 2*pairs.length≤runs.length+1 ∧
      runs.length≤2*pairs.length ∧ Gives (mergePairs cmp (runs.map (insertionSort (c · ·≤0))))
        (pairs.map (insertionSort (c · ·≤0))) := by
  induction runs using mergePairs.induct with
  | case1 a b runs ih =>
    simp only [flatten_cons,append_subset] at hl
    obtain ⟨pairs,hf,h₁,h₂,hp⟩ := ih hl.2.2
    refine ⟨(a++b)::pairs,by simp [hf],by simp; omega,by simp; omega,?_⟩
    have hrun : Gives (mergeRuns cmp (a.insertionSort (c · ·≤0)) (b.insertionSort (c · ·≤0)))
        ((a++b).insertionSort (c · ·≤0)) := by
      rw [←merge_insertionSort]
      exact mergeLoop_gives hc le_rfl (fun x hx => hl.1 ((mem_insertionSort _).mp hx))
        fun x hx => hl.2.1 ((mem_insertionSort _).mp hx)
    exact hrun.bind (hp.bind (gives_pure _))
  | case2 runs hshort =>
    refine ⟨runs,rfl,?_⟩
    rcases runs with _ | ⟨a,_ | ⟨b,runs⟩⟩
    · exact ⟨by simp,by simp,gives_pure _⟩
    · exact ⟨by simp,by simp,gives_pure _⟩
    · exact absurd rfl (hshort a b runs)

theorem mergeRounds_gives {fuel : ℕ} (hfuel : runs.length≤fuel)
    (hne : runs≠[]) (hl : runs.flatten ⊆ lines) :
    Gives (mergeRounds cmp fuel (runs.map (insertionSort (c · ·≤0))))
      [runs.flatten.insertionSort (c · ·≤0)] := by
  have hpos := length_pos_iff.mpr hne
  induction fuel generalizing runs with
  | zero => omega
  | succ fuel ih =>
    rw [mergeRounds,length_map]
    split
    · obtain ⟨pairs,hf,h₁,h₂,hp⟩ := mergePairs_gives hc hl
      have hpairs : 0<pairs.length := by omega
      rw [←hf]
      exact hp.bind (ih (by omega) (length_pos_iff.mp hpairs) (hf ▸ hl) hpairs)
    · obtain ⟨run,rfl⟩ := length_eq_one_iff.mp (by omega : runs.length=1)
      simpa using gives_pure _

end

section
variable {cmp : Bytes→Bytes → Comparing ℤ} {c e : Bytes→Bytes→ℤ}
  {lines : List Bytes} (he : ∀a∈lines,∀b∈lines,Gives (cmp a b) (e a b)) (hr : Ranked c)
  (hz : ∀a b,e a b=0 ↔ c a b=0)
include he hr hz

/-- In sorted lines a line equals one before it exactly when it equals the last line kept. -/
theorem keepFrom_gives {seen l : List Bytes} {last : Bytes} (hlast : last∈seen)
    (hseen : ∀y∈seen,c y last≤0) (hsorted : (last::l).Pairwise (c · ·≤0)) (hl : last::l ⊆ lines) :
    Gives (keepFrom cmp last l) (firstsAfter (e · ·=0) seen l) := by
  obtain ⟨hsign,htotal,htrans⟩ := hr.total_preorder
  induction l generalizing seen last with
  | nil => exact gives_pure _
  | cons x l ih =>
    simp only [pairwise_cons,mem_cons,forall_eq_or_imp] at hsorted
    simp only [cons_subset] at hl
    have hequal : (∃y∈seen,e y x=0) ↔ e last x=0 := by
      refine ⟨?_,fun h => ⟨last,hlast,h⟩⟩
      rintro ⟨y,hy,h⟩
      have hxy := hsign y x
      rw [(hz y x).mp h,Int.sign_zero,neg_zero,Int.sign_eq_zero_iff_zero] at hxy
      have hback := htrans x y last hxy.le (hseen y hy)
      have hsame := hsign last x
      rw [hz]
      have hx := hsorted.1.1
      rcases hx.lt_or_eq with hlt | h
      · rw [Int.sign_eq_neg_one_of_neg hlt] at hsame
        have := Int.sign_eq_one_iff_pos.mp (by simpa using hsame)
        omega
      · exact h
    refine (he last hl.1 x hl.2.1).bind ?_
    by_cases h : e last x=0
    · simp only [h]
      rw [firstsAfter,if_pos (hequal.mpr h)]
      exact ih hlast hseen (pairwise_cons.mpr ⟨hsorted.1.2,hsorted.2.2⟩) (by simp [hl])
    simp only [h,ne_eq]
    rw [firstsAfter,if_neg (mt hequal.mp h)]
    refine (ih (by simp) ?_ (pairwise_cons.mpr hsorted.2) (by simp [hl])).bind (gives_pure _)
    rintro y (_ | ⟨_,hy⟩)
    · exact or_self_iff.mp (htotal x x)
    · exact htrans y last x (hseen y hy) hsorted.1.1

theorem keepFirsts_gives {l : List Bytes} (hsorted : l.Pairwise (c · ·≤0)) (hl : l ⊆ lines) :
    Gives (keepFirsts cmp l) (firstsAfter (e · ·=0) [] l) := by
  rcases l with _ | ⟨x,l⟩
  · exact gives_pure _
  · refine (keepFrom_gives he hr hz (by simp) ?_ hsorted hl).bind (gives_pure _)
    simpa using (or_self_iff.mp (hr.total_preorder.2.1 x x))

end

end Coreutils.SortMerge
