import Coreutils.GoText

/-!
# tac reverses records

`tacWrite` of `cmds/tac/tac.go`. The spans of the records are found by searching the separator from
the end of the last one on, and written in reverse. With `-b` every span is cut short by the length
of the separator, also that of a text at the end that none follows.
-/

namespace Coreutils.TacRecords
open List GoText

/-- The spans of the records from `i` on; each turn of the loop but the last passes a separator. -/
def spans (data sep : Bytes) : ℕ→ℕ→Option (List (ℕ×ℕ))
  | 0,_ => none
  | fuel+1,i => do
    let rest ← slice? data i data.length
    match index sep rest with
    | some j =>
      let stop := i+j+sep.length
      let recs ← spans data sep fuel stop
      pure ((i,stop)::recs)
    | none => pure (if i<data.length then [(i,data.length)] else [])

/-- What the loop over the records writes; it starts with the last one. -/
def writeRecs (data sep : Bytes) (before : Bool) : List (ℕ×ℕ)→Option Bytes
  | [] => some []
  | (s,e)::recs => do
    let written ← writeRecs data sep before recs
    let text ← slice? data s (if before then e-sep.length else e)
    pure (written++(if before ∧ recs≠[] then sep else [])++text)

def tacWrite (data sep : Bytes) (before : Bool) : Option Bytes :=
  if data=[] then some []
  else do
    let recs ← spans data sep (data.length+1) 0
    writeRecs data sep before recs

/-- The data are texts `ts` up to the first separator each, and a text `last` without one. -/
inductive Cut (sep : Bytes) : Bytes→List Bytes→Bytes→Prop where
  | last {s : Bytes} (h : ¬ sep <:+: s) : Cut sep s [] s
  | text {t s : Bytes} {ts : List Bytes} {last : Bytes}
      (hfirst : ∀u,u++sep <+: t++sep++s→t.length≤u.length) (h : Cut sep s ts last) :
      Cut sep (t++sep++s) (t::ts) last

def final (last : Bytes) : List Bytes := if last=[] then [] else [last]

/-- `tac` prints the records, or with `-b` the texts joined by the separator, in reverse order. -/
def reversed (sep : Bytes) (before : Bool) (ts : List Bytes) (last : Bytes) : Bytes :=
  if before then sep.intercalate (ts++final last).reverse
  else (ts.map (·++sep)++final last).reverse.flatten

variable {sep data : Bytes} {ts : List Bytes} {recs : List (ℕ×ℕ)}

theorem Cut.unique {s : Bytes} {ts' : List Bytes} {last last' : Bytes}
    (h : Cut sep s ts last) (h' : Cut sep s ts' last') : ts'=ts ∧ last'=last := by
  induction h generalizing ts' with
  | last hnone =>
    cases h' with
    | last => exact ⟨rfl,rfl⟩
    | text => exact absurd (infix_append _ _ _) hnone
  | @text t s ts last hfirst _ ih =>
    generalize hdata : t++sep++s=data at h' hfirst
    cases h' with
    | last hnone => exact absurd (hdata ▸ infix_append _ _ _) hnone
    | @text t' s' ts' _ hfirst' h' =>
      have hlen : t.length=t'.length := by
        refine le_antisymm (hfirst t' (prefix_append _ _)) ?_
        exact hfirst' t (hdata ▸ prefix_append _ _)
      rw [append_assoc,append_assoc] at hdata
      obtain ⟨rfl,hrest⟩ := append_inj hdata hlen
      obtain rfl := append_cancel_left hrest
      obtain ⟨rfl,rfl⟩ := ih h'
      exact ⟨rfl,rfl⟩

def At (data : Bytes) (span : ℕ×ℕ) (r : Bytes) : Prop :=
  span.2=span.1+r.length ∧ r <+: data.drop span.1 ∧ span.1≤data.length

theorem At.slice {r t : Bytes} {span : ℕ×ℕ} (h : At data span r) (ht : t <+: r) :
    slice? data span.1 ((span.1+t.length : ℕ) : ℤ)=some t := by
  obtain ⟨-,hr,hle⟩ := h
  obtain ⟨rest,hrest⟩ := ht.trans hr
  have hlen : t.length+rest.length=data.length-span.1 := by rw [←length_append,hrest,length_drop]
  rw [slice?,if_pos (by omega)]
  congr 1
  rw [Int.toNat_natCast,Int.toNat_natCast,drop_take,Nat.add_sub_cancel_left,←hrest]
  exact take_left

/-- The loop finds the records of a cut. -/
theorem spans_spec (hsep : sep≠[]) {fuel i : ℕ} (hi : i≤data.length)
    (hfuel : data.length < i+fuel) :
    ∃ts last recs,Cut sep (data.drop i) ts last ∧ spans data sep fuel i=some recs ∧
      List.Forall₂ (At data) recs (ts.map (·++sep)++final last) := by
  have hpos : 0<sep.length := length_pos_iff.mpr hsep
  induction fuel generalizing i with
  | zero => omega
  | succ fuel ih =>
    have hrest : slice? data i data.length=some (data.drop i) := by
      rw [slice?,if_pos (by omega),Int.toNat_natCast,Int.toNat_natCast,take_length]
    rw [spans,hrest,Option.bind_eq_bind,Option.bind_some]
    cases hindex : index sep (data.drop i) with
    | none =>
      refine ⟨[],data.drop i,_,.last (index_none hindex),rfl,?_⟩
      rw [map_nil,final]
      by_cases hlt : i<data.length
      · rw [if_pos hlt,if_neg (by simpa using hlt)]
        refine .cons ⟨?_,prefix_refl _,hi⟩ .nil
        rw [length_drop]
        omega
      · rw [if_neg hlt,if_pos (by simpa using hlt)]
        exact .nil
    | some j =>
      obtain ⟨t,rest,heq,rfl,hfirst⟩ := index_some hindex
      have hlen := congrArg length heq
      simp only [length_drop,length_append] at hlen
      have hdrop : data.drop (i+t.length+sep.length)=rest := by
        rw [add_assoc,←drop_drop,heq,←length_append,drop_left]
      obtain ⟨ts,last,recs,hcut,hspans,hat⟩ :=
        ih (i := i+t.length+sep.length) (by omega) (by omega)
      rw [hdrop] at hcut
      rw [heq] at hfirst ⊢
      refine ⟨t::ts,last,(i,i+t.length+sep.length)::recs,.text hfirst hcut,?_,?_⟩
      · simp [hspans]
      · refine .cons ⟨?_,?_,hi⟩ hat
        · rw [length_append,add_assoc]
        · rw [heq]
          exact prefix_append _ _

/-- Without `-b` every record is written as it is. -/
theorem writeRecs_after {rs : List Bytes} (h : List.Forall₂ (At data) recs rs) :
    writeRecs data sep false recs=some rs.reverse.flatten := by
  induction h with
  | nil => rfl
  | @cons span r recs rs hat _ ih =>
    have hslice := hat.slice (prefix_refl r)
    rw [←hat.1] at hslice
    simp [writeRecs,ih,hslice]

/-- With `-b` a record loses the length of the separator; of one before another its text is left. -/
theorem writeRecs_before (h : List.Forall₂ (At data) recs (ts.map (·++sep))) (span : ℕ×ℕ) :
    writeRecs data sep true (recs++[span]) =
      (slice? data span.1 (span.2-sep.length)).map (·++ts.reverse.flatMap (sep++·)) := by
  induction ts generalizing recs with
  | nil =>
    cases h
    simp [writeRecs]
  | cons t ts ih =>
    cases h with
    | @cons span₀ _ recs _ hat h =>
      have hslice := hat.slice (prefix_append t sep)
      have hend : ((span₀.1+t.length : ℕ) : ℤ)=span₀.2-sep.length := by
        rw [hat.1,length_append]
        omega
      rw [hend] at hslice
      rw [cons_append,writeRecs,ih h]
      cases slice? data span.1 (span.2-sep.length) with
      | none => rfl
      | some text => simp [hslice]

theorem intercalate_cons (sep t : Bytes) (ts : List Bytes) :
    sep.intercalate (t::ts)=t++ts.flatMap (sep++·) := by
  induction ts generalizing t with
  | nil => simp
  | cons u ts ih =>
    rw [intercalate_cons_of_ne_nil (cons_ne_nil u ts),ih]
    simp

theorem forall₂_concat {α β : Type*} {R : α→β→Prop} {l : List α} {u : List β} {b : β}
    (h : List.Forall₂ R l (u++[b])) : ∃l' a,l=l'++[a] ∧ List.Forall₂ R l' u ∧ R a b := by
  induction u generalizing l with
  | nil =>
    cases h with
    | @cons a _ _ _ hab hnil =>
      cases hnil
      exact ⟨[],a,rfl,.nil,hab⟩
  | cons c u ih =>
    cases h with
    | @cons d _ rest _ hdc hrest =>
      obtain ⟨l',a,rfl,hl',hab⟩ := ih hrest
      exact ⟨d::l',a,rfl,.cons hdc hl',hab⟩

theorem writeRecs_terminated (h : List.Forall₂ (At data) recs (ts.map (·++sep))) :
    writeRecs data sep true recs=some (sep.intercalate ts.reverse) := by
  rcases eq_nil_or_concat' ts with rfl | ⟨ts,t,rfl⟩
  · cases h
    rfl
  rw [map_append] at h
  obtain ⟨recs,span,rfl,h,hat⟩ := forall₂_concat h
  have hslice := hat.slice (prefix_append t sep)
  have hend : ((span.1+t.length : ℕ) : ℤ)=span.2-sep.length := by
    rw [hat.1,length_append]
    omega
  rw [hend] at hslice
  rw [writeRecs_before h,hslice,reverse_append,reverse_singleton,singleton_append,intercalate_cons]
  rfl

/-- A text at the end that no separator follows is written too short, or not at all. -/
theorem writeRecs_unterminated (hsep : sep≠[]) {last : Bytes}
    (h : List.Forall₂ (At data) recs (ts.map (·++sep)++[last])) :
    writeRecs data sep true recs≠some (sep.intercalate (ts++[last]).reverse) := by
  have hpos : 0<sep.length := length_pos_iff.mpr hsep
  obtain ⟨recs,span,rfl,h,hat⟩ := forall₂_concat h
  rw [writeRecs_before h,reverse_append,reverse_singleton,singleton_append,intercalate_cons]
  intro heq
  obtain ⟨text,hslice,heq⟩ := Option.map_eq_some_iff.mp heq
  have htext := append_cancel_right heq
  unfold slice? at hslice
  split at hslice
  · have hlen := congrArg length (Option.some.inj hslice)
    have hend := hat.1
    simp only [length_drop,length_take,htext] at hlen
    omega
  · cases hslice

theorem tacWrite_eq (hsep : sep≠[])
    (h : spans data sep (data.length+1) 0=some recs) (before : Bool) :
    tacWrite data sep before=writeRecs data sep before recs := by
  rw [tacWrite]
  split_ifs with hnil
  · subst hnil
    have hnone : index sep []=none := by simp [index,hsep]
    have hrecs : spans [] sep 1 0=some [] := by simp [spans,slice?,hnone]
    obtain rfl := Option.some.inj (h.symm.trans hrecs)
    rfl
  · rw [h]
    rfl

/-- The data of every file are cut in one way, and `tac` prints their records, or with `-b` their
texts, in reverse order, exactly when `-b` is not given or a separator ends the data. -/
theorem tacWrite_reverses_iff (data : Bytes) {sep : Bytes} (hsep : sep≠[]) :
    (∃ts last,Cut sep data ts last) ∧ ∀ts last,Cut sep data ts last→∀before,
        (tacWrite data sep before=some (reversed sep before ts last) ↔ before=false ∨ last=[]) := by
  obtain ⟨ts,last,recs,hcut,hspans,hat⟩ :=
    spans_spec hsep (Nat.zero_le data.length) (by omega : data.length<0+(data.length+1))
  refine ⟨⟨ts,last,hcut⟩,fun ts' last' hcut' before => ?_⟩
  obtain ⟨rfl,rfl⟩ := hcut.unique hcut'
  rw [tacWrite_eq hsep hspans]
  cases before with
  | false => simp [writeRecs_after hat,reversed]
  | true =>
    by_cases hlast : last'=[]
    · simp only [hlast,final,if_true,append_nil] at hat
      simp [writeRecs_terminated hat,reversed,hlast,final]
    · rw [final,if_neg hlast] at hat
      have hne := writeRecs_unterminated hsep hat
      simpa [reversed,hlast,final] using hne

/-- `tac -b` of two lines, both ended. -/
theorem tacWrite_reverses_ended : Cut [newline] (ascii "a\nb\n") [ascii "a",ascii "b"] [] ∧
      tacWrite (ascii "a\nb\n") [newline] true=some (ascii "b\na") := by
  have hcut : Cut [newline] (ascii "a\nb\n") [ascii "a",ascii "b"] [] := by
    have hfirst : ∀(c : UInt8) (s u : Bytes),c≠newline→
        u++[newline] <+: [c]++[newline]++s → [c].length≤u.length := by
      intro c s u hc hu
      cases u with
      | nil => exact absurd (cons_prefix_cons.mp hu).1.symm hc
      | cons => simp
    exact .text (hfirst 97 _ · (by decide)) (.text (hfirst 98 _ · (by decide)) (.last (by decide)))
  exact ⟨hcut,(((tacWrite_reverses_iff _ (by decide)).2 _ _ hcut true).mpr (.inr rfl)).trans rfl⟩

/-- A record without separator loses its last byte, or is a slice out of range. -/
theorem not_tacWrite_reverses : Cut [newline] (ascii "ab") [] (ascii "ab") ∧
      reversed [newline] true [] (ascii "ab")=ascii "ab" ∧
      tacWrite (ascii "ab") [newline] true=some (ascii "a") ∧
      tacWrite (ascii "a") (ascii "--") true=none :=
  ⟨.last (by decide),by decide,by decide,by decide⟩

end Coreutils.TacRecords
