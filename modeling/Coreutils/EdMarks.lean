import Coreutils.EdUndo

/-!
# Marks follow lines

The recorded changes are replayed on lines with an identity. A mark names the line it was set on,
wherever that goes; the marks of the engine are compared with the positions of these lines.
-/

namespace Coreutils.EdMarks
open List GoText EdEngine EdExecute EdSteps EdTraces EdGlobals EdUndo LineRanges
open Programs

structure Line where
  id : ℕ
  text : Bytes
  deriving DecidableEq,Repr

def ids (lines : List Line) : List ℕ := lines.map Line.id

def fresh (next : ℕ) (texts : List Bytes) : List Line :=
  (texts.zipIdx next).map fun p => ⟨p.2,p.1⟩

def redirect (named : UInt8→Option ℕ) (old : List ℕ) (next : ℕ) : UInt8→Option ℕ := fun k =>
  (named k).map fun i => if i∈old then next else i

/-- The lines and what marks name, now and at the snapshot; `since` tells the marks set after. -/
structure Tracked where
  lines : List Line
  named : UInt8→Option ℕ
  next : ℕ
  undoLines : List Line := []
  undoNamed : UInt8→Option ℕ := fun _ => none
  since : UInt8→Bool := fun _ => false

/-- What a change does to the lines and to what the marks name: marks of joined lines name the
joined line, the last piece of a split line is that line, and an undo brings back the snapshot and
the names of all marks not set since. -/
def track (t : Tracked) : Change→Tracked
  | .insert after texts =>
    { t with lines := withAfter t.lines after (fresh t.next texts),next := t.next+texts.length }
  | .delete first last => { t with lines := without t.lines first last }
  | .join first last =>
    let old := range t.lines first last
    { t with
      lines := withAfter (without t.lines first last) (first-1)
        [⟨t.next,(old.map Line.text).flatten⟩]
      named := redirect t.named (ids old) t.next
      next := t.next+1 }
  | .move first last dest =>
    { t with
      lines := withAfter (without t.lines first last) (moveTo first last dest)
        (range t.lines first last) }
  | .split n pieces =>
    { t with
      lines := t.lines.take (n-1).toNat ++
        (fresh t.next pieces.dropLast++(range t.lines n n).map fun l =>
          ⟨l.id,pieces.getLastD []⟩) ++
        t.lines.drop n.toNat
      next := t.next+pieces.length }
  | .mark k n =>
    { t with
      named := fun j => if j=k then (ids t.lines)[(n-1).toNat]? else t.named j
      since := fun j => if j=k then true else t.since j }
  | .save => { t with undoLines := t.lines,undoNamed := t.named,since := fun _ => false }
  | .undo =>
    { t with
      lines := t.undoLines
      named := fun k => if t.since k then t.named k else t.undoNamed k
      undoLines := t.lines
      undoNamed := t.named
      since := fun _ => false }
  | .load texts =>
    { t with
      lines := fresh t.next texts
      named := fun _ => none
      next := t.next+texts.length
      since := fun _ => false }

def Spot (named : UInt8→Option ℕ) (l : List ℕ) (k : UInt8) (n : ℤ) : Prop :=
  ∃i,named k=some i ∧ At l n i

/-- The marks are the positions of the lines that they name. -/
def Names (named : UInt8→Option ℕ) (l : List ℕ) (marks : Marks) : Prop :=
  ∀k n,marks k=some n ↔ Spot named l k n

section
variable {marks old : Marks} {k : UInt8} {n first last after count : ℤ}

theorem insert_some (h : 0≤count) : marks.insert after count k=some n ↔
    n≤after ∧ marks k=some n ∨ after<n-count ∧ marks k=some (n-count) := by
  unfold Marks.insert
  cases hm : marks k with
  | none => simp
  | some m =>
    simp only [Option.map_some,Option.some.injEq]
    split <;> omega

theorem delete_some (h : first≤last) : marks.delete first last k=some n ↔
    n<first ∧ marks k=some n ∨ first≤n ∧ marks k=some (n+(last-first+1)) := by
  unfold Marks.delete
  cases hm : marks k with
  | none => simp
  | some m =>
    simp only [Option.bind_some]
    split_ifs <;> simp only [Option.some.injEq,false_iff] <;> omega

theorem replace_some {place : ℤ→ℤ} : marks.replace old first last place k=some n ↔
    (∃p,old k=some p ∧ first≤p ∧ p≤last ∧ n=place p) ∨
      (∀p,old k=some p→¬ (first≤p ∧ p≤last)) ∧ marks k=some n := by
  unfold Marks.replace
  cases ho : old k with
  | none => simp
  | some p =>
    by_cases hp : first≤p ∧ p≤last
    · simp [Option.filter,hp,eq_comm]
    simp only [Option.filter,hp,Option.some.injEq]
    constructor
    · intro h
      exact .inr ⟨fun q hq => hq ▸ hp,h⟩
    · rintro (⟨q,rfl,h₁,h₂,_⟩ | ⟨_,h⟩)
      · exact absurd ⟨h₁,h₂⟩ hp
      · exact h

end

section
variable {named : UInt8→Option ℕ} {l xs : List ℕ} {marks : Marks} {first last after dest n : ℤ}
  {k : UInt8}

theorem spot_withAfter (h₀ : 0≤after) (h₁ : after≤l.length) :
    Spot named (withAfter l after xs) k n ↔ n≤after ∧ Spot named l k n ∨ Spot named xs k (n-after) ∨
      after<n-xs.length ∧ Spot named l k (n-xs.length) := by
  simp only [Spot,at_withAfter h₀ h₁,and_or_left,exists_or,and_left_comm (a := named k=_),
    exists_and_left]

theorem Names.insert (h : Names named l marks) (hxs : ∀k i,named k=some i→i∉xs)
    (h₀ : 0≤after) (h₁ : after≤l.length) :
    Names named (withAfter l after xs) (marks.insert after xs.length) := by
  intro k n
  have hnew : ¬ Spot named xs k (n-after) := fun ⟨i,hi,hat⟩ => hxs k i hi hat.mem
  rw [insert_some (by omega),h k,h k,spot_withAfter h₀ h₁,or_iff_right hnew]

theorem Names.delete (h : Names named l marks) (h₀ : 1≤first) (h₁ : first≤last)
    (h₂ : last≤l.length) : Names named (without l first last) (marks.delete first last) := by
  intro k n
  rw [delete_some h₁,h k,h k]
  simp only [Spot,at_without h₀ h₁ h₂,and_or_left,exists_or,and_left_comm,exists_and_left]

/-- A mark that is left after a deletion was outside the range. -/
theorem outside_of_delete {p : ℤ} (h₁ : first≤last)
    (hd : marks.delete first last k=some n) (hp : marks k=some p) : ¬ (first≤p ∧ p≤last) := by
  rcases (delete_some h₁).mp hd with ⟨hn,hm⟩ | ⟨hn,hm⟩
  all_goals
    rw [hp,Option.some.injEq] at hm
    omega

theorem Names.move (h : Names named l marks) (h₀ : 1≤first) (h₁ : first≤last)
    (h₂ : last≤l.length) (h₃ : 0≤dest) (h₄ : dest≤(without l first last).length) :
    Names named (withAfter (without l first last) dest (range l first last))
      (((marks.delete first last).insert dest (last-first+1)).replace marks first last
        fun n => dest+1+(n-first)) := by
  have hdel := h.delete h₀ h₁ h₂
  have hlen : ((range l first last).length : ℤ)=last-first+1 := length_range h₀ h₁ h₂
  intro k n
  rw [replace_some,insert_some (by omega),hdel k,hdel k,spot_withAfter h₃ h₄,hlen]
  have hout : ∀{m},Spot named (without l first last) k m→∀p,marks k=some p→
    ¬ (first≤p ∧ p≤last) :=
    fun hm p hp => outside_of_delete h₁ ((hdel k _).mpr hm) hp
  constructor
  · rintro (⟨p,hp,hp₁,hp₂,rfl⟩ | ⟨_,hm | hm⟩)
    · obtain ⟨i,hi,hat⟩ := (h k p).mp hp
      refine .inr (.inl ⟨i,hi,(at_range h₀ h₁).mpr ⟨by omega,by omega,?_⟩⟩)
      rwa [show dest+1+(p-first)-dest+first-1=p by omega]
    · exact .inl hm
    · exact .inr (.inr hm)
  · rintro (hm | ⟨i,hi,hat⟩ | hm)
    · exact .inr ⟨hout hm.2,.inl hm⟩
    · obtain ⟨hn₁,hn₂,hat⟩ := (at_range h₀ h₁).mp hat
      exact .inl ⟨n-dest+first-1,(h k _).mpr ⟨i,hi,hat⟩,by omega,by omega,by omega⟩
    · exact .inr ⟨hout hm.2,.inr hm⟩

theorem Names.join {next : ℕ} (h : Names named l marks) (h₀ : 1≤first) (h₁ : first≤last)
    (h₂ : last≤l.length) (hl : next∉l) (hnamed : ∀k i,named k=some i→i≠next) :
    Names (redirect named (range l first last) next) (withAfter (without l first last) (first-1)
      [next])
      (((marks.delete first last).insert (first-1) 1).replace marks first last fun _ => first) := by
  have hdel := h.delete h₀ h₁ h₂
  have hw := @length_without _ l _ _ h₀ h₁ h₂
  have h₃ : 0≤first-1 := by omega
  have h₄ : first-1≤(without l first last).length := by omega
  have hsub : ∀{n},¬ At (without l first last) n next := fun hat =>
    hl ((perm_without h₁).subset (mem_append_left _ hat.mem))
  -- a mark is in the range exactly when the line it names is
  have hin : ∀{k i},named k=some i→
      (i∈range l first last ↔ ∃p,marks k=some p ∧ first≤p ∧ p≤last) := by
    intro k i hi
    rw [mem_range_iff h₀ h₁]
    constructor
    · rintro ⟨p,hp₁,hp₂,hat⟩
      exact ⟨p,(h k p).mpr ⟨i,hi,hat⟩,hp₁,hp₂⟩
    · rintro ⟨p,hp,hp₁,hp₂⟩
      obtain ⟨j,hj,hat⟩ := (h k p).mp hp
      rw [hi,Option.some.injEq] at hj
      exact ⟨p,hp₁,hp₂,hj ▸ hat⟩
  intro k n
  rw [replace_some,insert_some (by omega),hdel k,hdel k,spot_withAfter h₃ h₄]
  cases hk : named k with
  | none =>
    have hnone : ∀p,marks k≠some p := fun p hp => by
      obtain ⟨i,hi,_⟩ := (h k p).mp hp
      simp [hk] at hi
    simp [Spot,redirect,hk,hnone]
  | some i =>
    simp only [Spot,redirect,hk,Option.map_some,Option.some.injEq,exists_eq_left']
    by_cases hmem : i∈range l first last
    · obtain ⟨p,hp,hr⟩ := (hin hk).mp hmem
      have hone : At [next] (n-(first-1)) next ↔ n=first := by
        refine ⟨fun hat => ?_,fun hn =>
          ⟨by omega,by rw [hn,show first-(first-1)-1=0 by omega]; rfl⟩⟩
        have := hat.1
        have := hat.le
        simp only [length_singleton] at this
        omega
      simp only [if_pos hmem,hsub,and_false,or_false,false_or,hone]
      constructor
      · rintro (⟨q,_,_,_,hn⟩ | ⟨hout,_⟩)
        · exact hn
        · exact absurd hr (hout p hp)
      · intro hn
        exact .inl ⟨p,hp,hr.1,hr.2,hn⟩
    · have hout : ¬ ∃p,marks k=some p ∧ first≤p ∧ p≤last := fun hr => hmem ((hin hk).mpr hr)
      have hnew : ¬ At [next] (n-(first-1)) i := fun hat => hnamed k i hk (mem_singleton.mp hat.mem)
      rw [if_neg hmem,or_iff_right hnew,or_iff_right]
      · exact and_iff_right fun p hp hr => hout ⟨p,hp,hr⟩
      · rintro ⟨p,hp,hp₁,hp₂,_⟩
        exact hout ⟨p,hp,hp₁,hp₂⟩

end

/-- Lines with an identity stand for the lines of a buffer, and what is named for its marks. -/
structure Side (next : ℕ) (lines : List Line) (named : UInt8→Option ℕ) (texts : List Bytes)
    (marks : Marks) : Prop where
  texts : lines.map Line.text=texts
  nodup : (ids lines).Nodup
  below : ∀i∈ids lines,i<next
  namedBelow : ∀k i,named k=some i→i<next
  names : Names named (ids lines) marks

section
variable {next : ℕ} {lines : List Line} {named : UInt8→Option ℕ} {texts : List Bytes}
  {marks : Marks} {first last after dest : ℤ}

theorem ids_fresh (next : ℕ) (new : List Bytes) : ids (fresh next new)=range' next new.length := by
  rw [ids,fresh,map_map]
  exact zipIdx_map_snd next new

theorem texts_fresh (next : ℕ) (new : List Bytes) : (fresh next new).map Line.text=new := by
  rw [fresh,map_map]
  exact zipIdx_map_fst next new

theorem mem_fresh {new : List Bytes} {i : ℕ} :
    i∈ids (fresh next new) ↔ next ≤ i ∧ i<next+new.length := by
  rw [ids_fresh,mem_range'_1]

theorem nodup_fresh (next : ℕ) (new : List Bytes) : (ids (fresh next new)).Nodup := by
  rw [ids_fresh]
  exact nodup_range'

theorem withAfter_new {l xs : List ℕ} {next' : ℕ} (hl : l.Nodup) (hxs : xs.Nodup)
    (hbelow : ∀i∈l,i<next) (hnew : ∀i∈xs,next ≤ i ∧ i<next') (hle : next≤next') (after : ℤ) :
    (withAfter l after xs).Nodup ∧ ∀i∈withAfter l after xs,i<next' := by
  have hperm := @perm_withAfter _ l xs after
  constructor
  · rw [hperm.nodup_iff,nodup_append]
    refine ⟨hl,hxs,fun i hi j hj => ?_⟩
    exact ne_of_lt ((hbelow i hi).trans_le (hnew j hj).1)
  · intro i hi
    rw [hperm.mem_iff,mem_append] at hi
    exact hi.elim (fun hi => (hbelow i hi).trans_le hle) fun hi => (hnew i hi).2

variable (h : Side next lines named texts marks)
include h

theorem Side.mono {next' : ℕ} (hn : next≤next') : Side next' lines named texts marks :=
  ⟨h.texts,h.nodup,fun i hi => (h.below i hi).trans_le hn,
    fun k i hi => (h.namedBelow k i hi).trans_le hn,h.names⟩

theorem Side.length : (ids lines).length=texts.length := by rw [←h.texts,ids,length_map,length_map]

theorem Side.insert (new : List Bytes) (h₀ : 0≤after) (h₁ : after≤texts.length) :
    Side (next+new.length) (withAfter lines after (fresh next new)) named
      (withAfter texts after new) (marks.insert after new.length) := by
  have hids : ids (withAfter lines after (fresh next new)) =
      withAfter (ids lines) after (ids (fresh next new)) := map_withAfter _ _
  have hnew : ∀i,i<next→i∉ids (fresh next new) := fun i hi hmem => by
    have := mem_fresh.mp hmem
    omega
  have hall := withAfter_new h.nodup (nodup_fresh next new) h.below (fun _ => mem_fresh.mp)
    (Nat.le_add_right _ _) after
  refine ⟨?_,hids ▸ hall.1,hids ▸ hall.2,fun k i hi => ?_,?_⟩
  · rw [map_withAfter,h.texts,texts_fresh]
  · exact (h.namedBelow k i hi).trans_le (Nat.le_add_right _ _)
  · have hlen : (ids (fresh next new)).length=new.length := by rw [ids_fresh,length_range']
    rw [hids,←hlen]
    exact h.names.insert (fun k i hi => hnew i (h.namedBelow k i hi)) h₀
      (by rw [h.length]; exact h₁)

section
variable (h₀ : 1≤first) (h₁ : first≤last) (h₂ : last≤texts.length)
include h₀ h₁ h₂

theorem Side.delete : Side next (without lines first last) named
      (without texts first last) (marks.delete first last) := by
  have hids : ids (without lines first last)=without (ids lines) first last := map_without _ _ _
  have hsub : without (ids lines) first last ⊆ ids lines := fun i hi =>
    (perm_without h₁).subset (mem_append_left _ hi)
  refine ⟨?_,?_,fun i hi => ?_,h.namedBelow,?_⟩
  · rw [map_without,h.texts]
  · rw [hids]
    exact (nodup_append.mp ((perm_without h₁).nodup_iff.mpr h.nodup)).1
  · rw [hids] at hi
    exact h.below i (hsub hi)
  · rw [hids]
    exact h.names.delete h₀ h₁ (by rw [h.length]; exact h₂)

theorem Side.move (h₃ : 0≤dest) (h₄ : dest≤(without texts first last).length) :
    Side next (withAfter (without lines first last) dest (range lines first last)) named
      (withAfter (without texts first last) dest (range texts first last))
      (((marks.delete first last).insert dest (last-first+1)).replace marks first last
        fun n => dest+1+(n-first)) := by
  have hids : ids (withAfter (without lines first last) dest (range lines first last)) =
      withAfter (without (ids lines) first last) dest (range (ids lines) first last) := by
    rw [ids,map_withAfter,map_without,map_range]
    rfl
  have hperm : (withAfter (without (ids lines) first last) dest (range (ids lines) first last)).Perm
      (ids lines) := (perm_withAfter dest).trans (perm_without h₁)
  have hlen : (without (ids lines) first last).length=(without texts first last).length := by
    rw [←h.texts,ids,←map_without,←map_without,length_map,length_map]
  refine ⟨?_,?_,fun i hi => ?_,h.namedBelow,?_⟩
  · rw [map_withAfter,map_without,map_range,h.texts]
  · rw [hids]
    exact hperm.nodup_iff.mpr h.nodup
  · rw [hids] at hi
    exact h.below i (hperm.mem_iff.mp hi)
  · rw [hids]
    exact h.names.move h₀ h₁ (by rw [h.length]; exact h₂) h₃ (by rw [hlen]; exact h₄)

theorem Side.join : Side (next+1) (withAfter (without lines first last) (first-1)
        [⟨next,((range lines first last).map Line.text).flatten⟩])
      (redirect named (ids (range lines first last)) next)
      (withAfter (without texts first last) (first-1) [(range texts first last).flatten])
      (((marks.delete first last).insert (first-1) 1).replace marks first last fun _ => first) := by
  have hrange : ids (range lines first last)=range (ids lines) first last := map_range _ _ _
  have hids : ∀text,ids (withAfter (without lines first last) (first-1) [⟨next,text⟩]) =
      withAfter (ids (without lines first last)) (first-1) [next] := fun text => map_withAfter _ _
  have hdel := h.delete h₀ h₁ h₂
  have hall := withAfter_new hdel.nodup (nodup_singleton next) hdel.below
    (by simp : ∀i∈[next],next ≤ i ∧ i<next+1) (Nat.le_succ _) (first-1)
  refine ⟨?_,hids _ ▸ hall.1,hids _ ▸ hall.2,fun k i hi => ?_,?_⟩
  · rw [map_withAfter,map_without,map_range,h.texts]
    rfl
  · obtain ⟨j,hj,rfl⟩ := Option.map_eq_some_iff.mp hi
    split
    · exact Nat.lt_succ_self _
    · exact (h.namedBelow k j hj).trans (Nat.lt_succ_self _)
  · rw [hids,hrange,show ids (without lines first last)=_ from map_without _ _ _]
    exact h.names.join h₀ h₁ (by rw [h.length]; exact h₂)
      (fun hmem => absurd (h.below _ hmem) (lt_irrefl _)) fun k i hi =>
        ne_of_lt (h.namedBelow k i hi)

end

theorem Side.mark {k : UInt8} {n : ℤ} (h₀ : 1≤n) (h₁ : n≤texts.length) :
    Side next lines (fun j => if j=k then (ids lines)[(n-1).toNat]? else named j) texts
      (fun j => if j=k then some n else marks j) := by
  obtain ⟨i,hi⟩ : ∃i,(ids lines)[(n-1).toNat]?=some i := by
    have hlt : (n-1).toNat<(ids lines).length := by
      rw [h.length]
      omega
    exact ⟨_,getElem?_eq_getElem hlt⟩
  have hat : At (ids lines) n i := ⟨h₀,hi⟩
  refine ⟨h.texts,h.nodup,h.below,fun j i' hj => ?_,fun j m => ?_⟩
  · split at hj
    · exact h.below i' (mem_of_getElem? hj)
    · exact h.namedBelow j i' hj
  unfold Spot
  by_cases hj : j=k
  · simp only [hj,if_true,hi,Option.some.injEq,exists_eq_left']
    exact ⟨fun hm => hm ▸ hat,fun hm => hat.unique h.nodup hm⟩
  · simp only [hj]
    exact h.names j m

theorem Side.split {n : ℤ} {pieces : List Bytes}
    (hne : pieces≠[]) (h₀ : 1≤n) (h₁ : n≤texts.length) : Side (next+pieces.length)
      (lines.take (n-1).toNat++(fresh next pieces.dropLast ++
        (range lines n n).map fun l => ⟨l.id,pieces.getLastD []⟩)++lines.drop n.toNat) named
      (texts.take (n-1).toNat++pieces++texts.drop n.toNat)
      (fun k => (marks k).map fun m => if n ≤ m then m+(pieces.length-1) else m) := by
  have hlen := @length_range _ lines n n h₀ le_rfl (by
    rw [←h.texts,length_map] at h₁
    exact h₁)
  obtain ⟨line,hline⟩ : ∃line,range lines n n=[line] := by
    apply length_eq_one_iff.mp
    omega
  -- only the first pieces are new, so the identities are those of an insertion
  have hids : ids (lines.take (n-1).toNat++(fresh next pieces.dropLast ++
        (range lines n n).map fun l => ⟨l.id,pieces.getLastD []⟩)++lines.drop n.toNat) =
      ids (withAfter lines (n-1) (fresh next pieces.dropLast)) := by
    rw [←withAfter_before]
    simp [ids]
  have hins := h.insert pieces.dropLast (by omega : 0≤n-1) (by omega)
  have hpos : 0<pieces.length := length_pos_iff.mpr hne
  have hdrop : (pieces.dropLast.length : ℤ)=pieces.length-1 := by
    rw [length_dropLast]
    omega
  have hmarks : (fun k => (marks k).map fun m => if n ≤ m then m+(pieces.length-1) else m) =
      marks.insert (n-1) pieces.dropLast.length := by
    funext k
    rw [hdrop]
    congr 1
    funext m
    by_cases hm : n ≤ m
    · rw [if_pos hm,if_pos (by omega)]
    · rw [if_neg hm,if_neg (by omega)]
  refine ⟨?_,hids ▸ hins.nodup,fun i hi => ?_,fun k i hi => ?_,?_⟩
  · have hlast : pieces.dropLast++[pieces.getLastD []]=pieces := by
      rw [getLastD_eq_getLast?,getLast?_eq_getLast_of_ne_nil hne]
      exact dropLast_append_getLast hne
    rw [hline,←h.texts]
    simp only [map_append,texts_fresh,map_take,map_drop,map_cons,map_nil]
    rw [hlast]
  · rw [hids] at hi
    have := hins.below i hi
    omega
  · exact (h.namedBelow k i hi).trans_le (Nat.le_add_right _ _)
  · rw [hids,hmarks]
    exact hins.names

end

/-- The tracked lines stand for the buffer and the marks, the snapshot for what `u` restores. -/
structure Agrees (t : Tracked) (c : Core) : Prop where
  side : Side t.next t.lines t.named c.buffer.lines c.marks
  undoSide : c.undoValid=true→
    Side t.next t.undoLines t.undoNamed c.undoBuffer.lines c.undoMarks

/-- The line of a mark set since the snapshot is in it where the line was that it named then. -/
def Undoable (t : Tracked) : Prop :=
  ∀k,t.since k=true→∀n,Spot t.named (ids t.undoLines) k n ↔
    Spot t.undoNamed (ids t.undoLines) k n

/-- Every undo of a list of changes is of a state in which the marks can be restored. -/
def Keepable : Tracked→List Change→Prop
  | _,[] => True
  | t,x::xs => (x=.undo→Undoable t) ∧ Keepable (track t x) xs

variable {t : Tracked} {c c' : Core}

/-- The marks that a restored snapshot gives are the right ones exactly if it is undoable. -/
theorem undo_names_iff {marks : Marks} (h : Names t.undoNamed (ids t.undoLines) marks) :
    Names (track t .undo).named (ids (track t .undo).lines) marks ↔ Undoable t := by
  constructor
  · intro hn k hk n
    rw [←h k n,hn k n]
    simp [Spot,track,hk]
  intro hu k n
  rw [h k n]
  cases hk : t.since k with
  | true =>
    rw [←hu k hk n]
    simp [Spot,track,hk]
  | false => simp [Spot,track,hk]

theorem Agrees.step {a : Act} {x : Change} (ht : Agrees t c)
    (h : Step c a c') (hx : change? a=some x) (hu : x=.undo→Undoable t) :
    Agrees (track t x) c' := by
  obtain ⟨hside,hundo⟩ := ht
  cases h with
  | dot | touch | count | clean | enter | visit | leave => cases hx
  | save =>
    cases hx
    exact ⟨hside,fun _ => hside⟩
  | insert hne h₀ h₁ =>
    cases hx
    exact ⟨hside.insert _ h₀ h₁,fun hv => (hundo hv).mono (Nat.le_add_right _ _)⟩
  | delete h₀ h₁ h₂ =>
    cases hx
    exact ⟨hside.delete h₀ h₁ h₂,hundo⟩
  | join h₀ h₁ h₂ =>
    cases hx
    exact ⟨hside.join h₀ h₁.le h₂,fun hv => (hundo hv).mono (Nat.le_succ _)⟩
  | move h₀ h₁ h₂ h₃ h₄ h₅ =>
    cases hx
    have hto := moveTo_range h₀ h₃ h₄ h₅ h₂
    exact ⟨hside.move h₀ h₁ h₂ hto.1 (by rw [length_without h₀ h₁ h₂]; exact hto.2),hundo⟩
  | split hne h₀ h₁ hd =>
    cases hx
    exact ⟨hside.split hne h₀ h₁,fun hv => (hundo hv).mono (Nat.le_add_right _ _)⟩
  | mark h₀ h₁ =>
    cases hx
    exact ⟨hside.mark h₀ h₁,hundo⟩
  | undo hv =>
    cases hx
    have hold := hundo hv
    refine ⟨⟨hold.texts,hold.nodup,hold.below,fun k i hi => ?_,
      (undo_names_iff hold.names).mpr (hu rfl)⟩,fun _ => hside⟩
    simp only [track] at hi
    split at hi
    · exact hside.namedBelow k i hi
    · exact hold.namedBelow k i hi
  | load =>
    cases hx
    refine ⟨⟨texts_fresh _ _,nodup_fresh _ _,fun i hi => (mem_fresh.mp hi).2,
      fun k i (hi : none=some i) => (nomatch hi),fun k n => ?_⟩,fun (hv : false=true) => nomatch hv⟩
    simp [Spot,track]

theorem Agrees.quiet {a : Act} (ht : Agrees t c) (h : Step c a c')
    (hx : change? a=none) : Agrees t c' := by
  cases h <;> first | exact ⟨ht.side,ht.undoSide⟩ | cases hx

/-- Whole sequences of steps keep the tracked lines and the buffer together. -/
theorem Agrees.path {acts : List Act} (ht : Agrees t c)
    (h : Path Step c acts c') (hkeep : Keepable t (acts.filterMap change?)) :
    Agrees ((acts.filterMap change?).foldl track t) c' := by
  induction h generalizing t with
  | nil => exact ht
  | @cons c c' c'' a as hs _ ih =>
    cases hx : change? a with
    | none =>
      rw [filterMap_cons_none hx] at hkeep ⊢
      exact ih (ht.quiet hs hx) hkeep
    | some x =>
      rw [filterMap_cons_some hx] at hkeep ⊢
      exact ih (ht.step hs hx hkeep.1) hkeep.2

section
variable {W : Type} (host : Host W) {e e' : Engine W} {lines : List Bytes}

theorem inGlobal_edited {c c' : Core} (h : Edited c c') (hg : c.inGlobal=false) :
    c'.inGlobal=false := by
  rcases h with h | ⟨acts,hacts,_,hp⟩
  · exact (inside_dots h).inGlobal.trans hg
  rw [saves,if_neg (by simp [hg])] at hp
  cases hp with
  | cons hs hp =>
    have hinward : Trace Inward _ c' := ⟨acts,fun a ha => inward_of_editing (hacts a ha),hp⟩
    rw [inGlobal_enclosed (hinward.mono fun _ => enclosed_of_inward)]
    cases hs
    exact hg

/-- What a successful line did is a path of steps that ends outside a global command. -/
theorem execute_path {line : Bytes} {q : Bool} (hc : InRange (core e)) (hg : e.inGlobal=false)
    (h : execute host line e=.ok q e') :
    (∃acts,Path Step (core e) acts (core e')) ∧ e'.inGlobal=false := by
  obtain ⟨_,_,e₁,_,htrace,hdid⟩ := execute_ok host hc hg h
  have hg₁ : (core e₁).inGlobal=false := (inside_dots htrace).inGlobal.trans hg
  obtain ⟨dots,_,hp₁⟩ := htrace
  suffices hcmd : (∃acts,Path Step (core e₁) acts (core e')) ∧ (core e').inGlobal=false by
    obtain ⟨⟨acts,hp⟩,hg'⟩ := hcmd
    exact ⟨⟨dots++acts,hp₁.append hp⟩,hg'⟩
  rcases hdid with h | h | ⟨c₁,c₂,h₁,h₂,acts,hacts,hp⟩ | ⟨texts,c₁,h₁,h₂⟩ | h
  · refine ⟨?_,inGlobal_edited h hg₁⟩
    rcases h with ⟨acts,_,hp⟩ | ⟨acts,_,_,hp⟩
    · exact ⟨_,hp⟩
    · exact ⟨_,hp⟩
  · have hg' := (inside_marginal h).inGlobal.trans hg₁
    obtain ⟨acts,_,hp⟩ := h
    exact ⟨⟨acts,hp⟩,hg'⟩
  · refine ⟨⟨_,.cons h₁ (.cons h₂ hp)⟩,?_⟩
    rw [(inside_dots ⟨acts,hacts,hp⟩).inGlobal,(inside_counted (a := .undo) trivial h₁ h₂).inGlobal]
    exact hg₁
  · refine ⟨⟨_,.cons h₁ (.one h₂)⟩,?_⟩
    rw [(inside_counted (a := .load texts) trivial h₁ h₂).inGlobal]
    exact hg₁
  · obtain ⟨targets,c₁,c₂,c₃,c₄,hsave,henter,⟨⟨acts,_,hp⟩,_⟩,hleave,hend⟩ := h
    have hvisit : Path Step (core e₁) (.save::.enter targets::(acts++[.leave])) c₄ :=
      .cons hsave (.cons henter (hp.append (.one hleave)))
    have hg₄ : c₄.inGlobal=false := by
      cases hleave
      rfl
    rcases hend with ⟨_,hlast⟩ | ⟨_,hpath⟩
    · exact ⟨⟨_,hlast ▸ hvisit⟩,hlast ▸ hg₄⟩
    refine ⟨⟨_,hvisit.append hpath⟩,?_⟩
    cases hpath with
    | @cons _ d _ _ _ hs hp =>
      have hd : d.inGlobal=false := by
        cases hs
        exact hg₄
      exact (inGlobal_enclosed ⟨[.count],by simp [Enclosed],hp⟩).trans hd

abbrev Session : Engine W→List Bytes→Engine W→Prop :=
  Path fun e line e' => ∃q,execute host line e=.ok q e'

structure Started (e : Engine W) : Prop where
  inRange : InRange (core e)
  inGlobal : e.inGlobal=false
  undoValid : e.undoValid=false

def start (e : Engine W) : Tracked where
  lines := fresh 0 e.buffer.lines
  named := fun k => (e.marks k).map fun n => (n-1).toNat
  next := e.buffer.lines.length

def changesOf (e e' : Engine W) : List Change := e'.history.drop e.history.length

theorem agrees_start (h : Started e) : Agrees (start e) (core e) := by
  refine ⟨⟨texts_fresh _ _,nodup_fresh _ _,fun i hi => ?_,fun k i hi => ?_,fun k n => ?_⟩,fun hv =>
    ?_⟩
  · have := (mem_fresh.mp hi).2
    simpa [start] using this
  · obtain ⟨n,hn,rfl⟩ := Option.map_eq_some_iff.mp hi
    have := h.inRange.marks k n hn
    simp only [Buffer.last,core] at this
    simp only [start]
    omega
  · have hat : ∀i,At (ids (start e).lines) n i ↔ 1≤n ∧ n≤e.buffer.lines.length ∧
      i=(n-1).toNat := by
      intro i
      change At (ids (fresh 0 e.buffer.lines)) n i ↔ _
      rw [ids_fresh]
      refine and_congr_right fun hn => ?_
      by_cases hlt : (n-1).toNat<e.buffer.lines.length
      · rw [getElem?_range' hlt,Option.some.injEq]
        omega
      · rw [getElem?_eq_none (by simpa using hlt)]
        simp only [reduceCtorEq,false_iff]
        omega
    have hin : ∀m,e.marks k=some m→1 ≤ m ∧ m≤e.buffer.lines.length := h.inRange.marks k
    simp only [Spot,hat]
    change e.marks k=some n ↔ ∃i,(e.marks k).map (fun n => (n-1).toNat)=some i ∧ _
    constructor
    · intro hk
      have := hin n hk
      exact ⟨(n-1).toNat,by rw [hk]; rfl,this.1,this.2,rfl⟩
    rintro ⟨i,hi,hn₀,hn₁,rfl⟩
    obtain ⟨m,hm,hmn⟩ := Option.map_eq_some_iff.mp hi
    have := hin m hm
    rw [hm,Option.some.injEq]
    omega
  · rw [show (core e).undoValid=e.undoValid from rfl,h.undoValid] at hv
    cases hv

theorem session_path (hc : InRange (core e)) (hg : e.inGlobal=false) (h : Session host e lines e') :
    (∃acts,Path Step (core e) acts (core e')) ∧ InRange (core e') ∧ e'.inGlobal=false := by
  induction h with
  | nil e => exact ⟨⟨[],.nil _⟩,hc,hg⟩
  | cons hline _ ih =>
    obtain ⟨q,hline⟩ := hline
    obtain ⟨⟨acts,hp⟩,hg₁⟩ := execute_path host hc hg hline
    obtain ⟨⟨acts',hp'⟩,hc',hg'⟩ := ih
      (hp.invariant hc fun _ _ _ _ hi hs => hs.inRange hi) hg₁
    exact ⟨⟨acts++acts',hp.append hp'⟩,hc',hg'⟩

/-- The tracked lines are those of the buffer, and every mark is where the line is that it names. -/
def Follows (t : Tracked) (e : Engine W) : Prop :=
  t.lines.map Line.text=e.buffer.lines ∧ Names t.named (ids t.lines) e.marks

theorem session_agrees {e₀ : Engine W} (h₀ : Started e₀)
    (h : Session host e₀ lines e) (hkeep : Keepable (start e₀) (changesOf e₀ e)) :
    Agrees ((changesOf e₀ e).foldl track (start e₀)) (core e) := by
  obtain ⟨⟨acts,hp⟩,_⟩ := session_path host h₀.inRange h₀.inGlobal h
  have hchanges : changesOf e₀ e=acts.filterMap change? := by
    have hhist : e.history=e₀.history++acts.filterMap change? := history_path hp
    rw [changesOf,hhist,drop_left]
  rw [hchanges] at hkeep ⊢
  exact (agrees_start h₀).path hp hkeep

/-- In every session dot and the marks are within the buffer, and every mark is at its line as long
as no undo met a mark set after its snapshot that it could not restore; then an undo leaves the
marks at their lines exactly if it meets none. -/
theorem marks_follow_lines {e₀ : Engine W} (h₀ : Started e₀)
    (h : Session host e₀ lines e) : (0≤e.buffer.current ∧ e.buffer.current≤e.buffer.last) ∧
      (∀k n,e.marks k=some n→1≤n ∧ n≤e.buffer.last) ∧ (Keepable (start e₀) (changesOf e₀ e)→
        Follows ((changesOf e₀ e).foldl track (start e₀)) e ∧
        (e.undoValid=true→∃e',execute host (ascii "u") e=.ok false e' ∧
          (Follows (track ((changesOf e₀ e).foldl track (start e₀)) .undo) e' ↔
            Undoable ((changesOf e₀ e).foldl track (start e₀))))) := by
  have hc := (session_path host h₀.inRange h₀.inGlobal h).2.1
  refine ⟨hc.dot,hc.marks,fun hkeep => ?_⟩
  have hagrees := session_agrees host h₀ h hkeep
  refine ⟨⟨hagrees.side.texts,hagrees.side.names⟩,fun hv => ?_⟩
  obtain ⟨e',hrun,hlines,_,hmarks,_⟩ := execute_u host hv
  have hundo := hagrees.undoSide hv
  have hnames : Names _ _ e.undoMarks := hundo.names
  refine ⟨e',hrun,?_⟩
  rw [Follows,hlines,hmarks,undo_names_iff hnames]
  exact and_iff_right hundo.texts

end

/-- A line is copied, another one marked and moved, and the mark is where it went. -/
theorem marks_follow_moved :
    ∃e,Session bareHost threeLines [ascii "1t3",ascii "2ka",ascii "2m0"] e ∧
      Follows ((changesOf threeLines e).foldl track (start threeLines)) e ∧ e.marks 97=some 1 := by
  have hstarted : Started threeLines := ⟨threeLines_inRange,rfl,rfl⟩
  have hrun : Session bareHost threeLines [ascii "1t3",ascii "2ka",ascii "2m0"] _ :=
    .cons ⟨false,rfl⟩ (.cons ⟨false,rfl⟩ (.cons ⟨false,rfl⟩ (.nil _)))
  refine ⟨_,hrun,((marks_follow_lines bareHost hstarted hrun).2.2 ?_).1,rfl⟩
  exact ⟨nofun,nofun,nofun,nofun,nofun,trivial⟩

/-- A mark set after the last change is gone after an undo, though its line is still there. -/
theorem not_marks_follow_undone :
    ∃e,Session bareHost threeLines [ascii "1t3",ascii "2ka",ascii "u"] e ∧
      e.buffer.lines=threeLines.buffer.lines ∧ e.marks 97=none ∧
      ¬ Follows ((changesOf threeLines e).foldl track (start threeLines)) e := by
  refine ⟨_,.cons ⟨false,rfl⟩ (.cons ⟨false,rfl⟩ (.cons ⟨false,rfl⟩ (.nil _))),by decide,rfl,
    fun h => ?_⟩
  have hmark := (h.2 97 2).mpr ⟨1,rfl,by decide,rfl⟩
  cases hmark

end Coreutils.EdMarks
