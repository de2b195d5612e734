import Coreutils.GoText
import Mathlib.Data.List.DropRight
import Mathlib.Data.List.OfFn

/-!
# Names in ustar headers

A ustar header has 100 bytes for the name of a member and 155 for a directory that is read before it
with a slash between. A longer name is cut at the last slash that leaves both parts short enough,
and the slash is put back only before a directory that is not empty. So the cut is lossless except
at a slash that begins the name.
-/

namespace Coreutils.PaxNames
open List GoText

abbrev Header := Fin 512→UInt8

def slash : UInt8 := 47

def slice (h : Header) (lo hi : ℕ) : Bytes := ((ofFn h).take hi).drop lo

/-- The loop that writes zeros from `lo` up to `hi`. -/
def clear (lo hi : ℕ) (h : Header) : Header := fun i => if lo ≤ i ∧ i<hi then 0 else h i

/-- `copy(header[lo:hi], s)`. -/
def copy (lo hi : ℕ) (s : Bytes) (h : Header) : Header :=
  fun i => if lo ≤ i ∧ i<hi then s.getD (i-lo) (h i) else h i

def trimRight (s : Bytes) : Bytes := s.rdropWhile (· == 0)

def rawTarName (h : Header) : Bytes :=
  let name := trimRight (slice h 0 100)
  let dir := trimRight (slice h 345 500)
  if dir≠[] then dir++slash::name else name

/-- The loops that look for a slash from the end of a name, here below `i`. -/
def cutBelow (name : Bytes) : ℕ→Option ℕ
  | 0 => none
  | i+1 =>
    if name[i]?=some slash ∧ i≤155 ∧ name.length-i-1≤100 then some i else cutBelow name i

def cut? (name : Bytes) : Option ℕ := cutBelow name name.length

/-- Both fields are cleared before they are written. -/
def writeName (h : Header) (dir name : Bytes) : Header :=
  copy 345 500 dir (copy 0 100 name (clear 345 500 (clear 0 100 h)))

inductive NameError
  | containsNUL
  | exceedsLimits (name : Bytes)
  deriving DecidableEq,Repr

def NameError.text (quote : Bytes→Bytes) : NameError→Bytes
  | containsNUL => ascii "extended-header name contains NUL"
  | exceedsLimits name => ascii "extended-header name " ++ quote name++ascii " exceeds ustar limits"

def setRawTarName (h : Header) (name : Bytes) : Except NameError Header :=
  if 0∈name then .error .containsNUL
  else if name.length>100 then
    match cut? name with
    | some i => .ok (writeName h (name.take i) (name.drop (i+1)))
    | none => .error (.exceedsLimits name)
  else .ok (writeName h [] name)

/-- Where paths are separated by slashes, `filepath.ToSlash` changes nothing. -/
def restoreRawMemberName (h : Header) (name : Bytes) : Header :=
  if name.length>100 then
    match cut? name with
    | some i => writeName h (name.take i) (name.drop (i+1))
    | none => writeName h [] (name.take (min name.length 100))
  else writeName h [] name

variable {h : Header} {name dir s : Bytes} {lo hi : ℕ}

theorem trimRight_zeros (hs : 0∉s) (n : ℕ) : trimRight (s++replicate n 0)=s := by
  induction n with
  | zero =>
    simp only [trimRight,replicate_zero,append_nil,rdropWhile_eq_self_iff,beq_iff_eq]
    intro hne hlast
    exact hs (hlast ▸ getLast_mem hne)
  | succ n ih =>
    rw [replicate_succ',←append_assoc,trimRight,rdropWhile_concat_pos _ _ _ (by simp)]
    exact ih

/-- A field that was cleared and written holds the text and zeros after it. -/
theorem slice_written {g : Header} (hg : ∀i : Fin 512,lo ≤ i→i<hi → g i=s.getD (i-lo) 0)
    (hs : s.length≤hi-lo) (hhi : hi≤512) : slice g lo hi=s++replicate (hi-lo-s.length) 0 := by
  apply ext_getElem
  · simp only [slice,length_drop,length_take,length_ofFn,length_append,length_replicate]
    omega
  intro k hk hk'
  simp only [slice,length_drop,length_take] at hk
  simp only [slice,getElem_drop,getElem_take,List.getElem_ofFn]
  rw [hg _ (Nat.le_add_right lo k) (by dsimp only; omega),Nat.add_sub_cancel_left,getElem_append]
  split_ifs with hk
  · rw [getD_eq_getElem?_getD,getElem?_eq_getElem hk,Option.getD_some]
  · rw [getD_eq_getElem?_getD,getElem?_eq_none (not_lt.mp hk),getElem_replicate]
    rfl

theorem rawTarName_writeName (hdir : 0∉dir) (hname : 0∉name) (hd : dir.length≤155)
    (hn : name.length≤100) :
    rawTarName (writeName h dir name)=if dir≠[] then dir++slash::name else name := by
  have hfirst : slice (writeName h dir name) 0 100=name++replicate (100-0-name.length) 0 := by
    refine slice_written (fun i h₀ h₁ => ?_) hn (by omega)
    simp [writeName,copy,clear,h₁,show ¬ 345≤(i : ℕ) by omega]
  have hsecond : slice (writeName h dir name) 345 500 = dir++replicate (500-345-dir.length) 0 := by
    refine slice_written (fun i h₀ h₁ => ?_) hd (by omega)
    simp [writeName,copy,clear,h₀,h₁,show ¬ (i : ℕ)<100 by omega]
  rw [rawTarName,hfirst,hsecond,trimRight_zeros hname,trimRight_zeros hdir]

theorem writeName_outside {i : Fin 512} (h₀ : 100≤(i : ℕ)) (h₁ : ¬ (345≤(i : ℕ) ∧ (i : ℕ)<500)) :
    writeName h dir name i=h i := by
  simp [writeName,copy,clear,h₁,show ¬ (i : ℕ)<100 by omega]

/-- The search finds the last slash that leaves both parts short enough. -/
theorem cutBelow_spec {n i : ℕ} (hc : cutBelow name n=some i) :
    name[i]?=some slash ∧ i≤155 ∧ name.length-i-1≤100 ∧
      ∀j,i<j→j<n→¬ (name[j]?=some slash ∧ j≤155 ∧ name.length-j-1≤100) := by
  induction n with
  | zero => cases hc
  | succ n ih =>
    rw [cutBelow] at hc
    split_ifs at hc with hn
    · cases hc
      exact ⟨hn.1,hn.2.1,hn.2.2,fun j h₀ h₁ => by omega⟩
    obtain ⟨hslash,hd,hs,hlast⟩ := ih hc
    refine ⟨hslash,hd,hs,fun j h₀ h₁ => ?_⟩
    rcases Nat.lt_succ_iff_lt_or_eq.mp h₁ with h₁ | rfl
    · exact hlast j h₀ h₁
    · exact hn

/-- The name is a slash and a hundred bytes that are none. -/
def LosesSlash (name : Bytes) : Prop :=
  ∃s,name=slash::s ∧ s.length=100 ∧ slash∉s ∧ 0∉s

theorem cut?_losesSlash (hl : LosesSlash name) : cut? name=some 0 := by
  obtain ⟨s,rfl,hlen,hslash,-⟩ := hl
  have hnone : ∀n≤100,cutBelow (slash::s) (n+1)=some 0 := by
    intro n hn
    induction n with
    | zero => simp [cutBelow,hlen]
    | succ n ih =>
      rw [cutBelow,if_neg,ih (by omega)]
      rintro ⟨hget,-⟩
      exact hslash (mem_of_getElem? (by simpa using hget))
  rw [cut?,length_cons,hlen]
  exact hnone 100 le_rfl

/-- A cut at the first byte leaves no other slash. -/
theorem losesSlash_of_cut? (hzero : 0∉name) (hlong : name.length>100) (hc : cut? name=some 0) :
    LosesSlash name := by
  obtain ⟨hslash,-,hlen,hlast⟩ := cutBelow_spec hc
  cases name with
  | nil => simp at hlong
  | cons c s =>
    simp only [getElem?_cons_zero,Option.some.injEq] at hslash
    simp only [length_cons,mem_cons,not_or] at hlong hlen hlast hzero
    refine ⟨s,by rw [hslash],by omega,fun hmem => ?_,hzero.2⟩
    obtain ⟨k,hk,hget⟩ := getElem_of_mem hmem
    exact hlast (k+1) (by omega) (by omega)
      ⟨by simp [hk,hget],by omega,by omega⟩

theorem rawTarName_cut {i : ℕ} (hzero : 0∉name) (hlong : name.length>100) (hc : cut? name=some i) :
    rawTarName (writeName h (name.take i) (name.drop (i+1)))=name ↔ ¬ LosesSlash name := by
  obtain ⟨hslash,hd,hs,-⟩ := cutBelow_spec hc
  rw [rawTarName_writeName (fun hm => hzero (mem_of_mem_take hm))
    (fun hm => hzero (mem_of_mem_drop hm)) (by rw [length_take]; omega)
      (by rw [length_drop]; omega)]
  obtain ⟨hi,hget⟩ := List.getElem?_eq_some_iff.mp hslash
  cases i with
  | zero =>
    have hlost := losesSlash_of_cut? hzero hlong hc
    simp only [take_zero,ne_eq,not_true,if_false,hlost,iff_false]
    intro heq
    have hlen := congrArg length heq
    rw [length_drop] at hlen
    omega
  | succ i =>
    rw [if_pos (by rw [ne_eq,take_eq_nil_iff]; rintro (h | rfl) <;> simp_all),←hget,
      ← drop_eq_getElem_cons hi,take_append_drop]
    simp only [true_iff]
    intro hl
    rw [cut?_losesSlash hl] at hc
    cases hc

/-- A name that fits is read back from any header, and no other byte of it is touched. -/
def Lossless (name : Bytes) : Prop :=
  ∀h h',setRawTarName h name=.ok h' → rawTarName h'=name ∧
    ∀k,rawTarName (restoreRawMemberName k name)=name ∧ ∀i : Fin 512,100≤(i : ℕ)→
      ¬ (345≤(i : ℕ) ∧ (i : ℕ)<500) → restoreRawMemberName k name i=k i

/-- Exactly the names that begin with their only slash and are a byte too long are not read back. -/
theorem lossless_iff (name : Bytes) : Lossless name ↔ ¬ LosesSlash name := by
  by_cases hzero : 0∈name
  · have hl : ¬ LosesSlash name := by
      rintro ⟨s,rfl,-,-,h₀⟩
      simp [h₀,slash] at hzero
    simp [Lossless,setRawTarName,hzero,hl]
  by_cases hlong : name.length>100
  · cases hc : cut? name with
    | none =>
      have hl : ¬ LosesSlash name := fun hl => by simp [cut?_losesSlash hl] at hc
      simp [Lossless,setRawTarName,hzero,hlong,hc,hl]
    | some i =>
      have hset : ∀h,setRawTarName h name=.ok (restoreRawMemberName h name) := by
        simp [setRawTarName,restoreRawMemberName,hzero,hlong,hc]
      have hread : ∀h,rawTarName (restoreRawMemberName h name)=name ↔ ¬ LosesSlash name := by
        simp [restoreRawMemberName,hlong,hc,rawTarName_cut hzero hlong hc]
      constructor
      · intro hall
        exact (hread 0).mp (hall 0 _ (hset 0)).1
      intro hl h h' hok
      rw [hset] at hok
      cases hok
      refine ⟨(hread h).mpr hl,fun k => ⟨(hread k).mpr hl,fun i h₀ h₁ => ?_⟩⟩
      simp only [restoreRawMemberName,hlong,hc]
      exact writeName_outside h₀ h₁
  · have hl : ¬ LosesSlash name := by
      rintro ⟨s,rfl,hlen,-,-⟩
      simp [hlen] at hlong
    have hread : ∀h,rawTarName (writeName h [] name)=name := by
      intro h
      exact rawTarName_writeName (by simp) hzero (Nat.zero_le _) (by omega)
    simp only [hl,not_false_iff,iff_true]
    intro h h' hok
    simp only [setRawTarName,hzero,hlong,if_false,Except.ok.injEq] at hok
    subst hok
    refine ⟨hread h,fun k => ?_⟩
    simp only [restoreRawMemberName,hlong]
    exact ⟨hread k,fun i h₀ h₁ => writeName_outside h₀ h₁⟩

/-- The slash before a hundred letters is lost on the way back. -/
theorem slash_lost : (setRawTarName (fun _ => 0) (slash::replicate 100 97)).map rawTarName =
    .ok (replicate 100 97) := by
  have hl : LosesSlash (slash::replicate 100 97) := ⟨_,rfl,by simp,by simp [slash],by simp⟩
  have hset : setRawTarName (fun _ => 0) (slash::replicate 100 97) =
      .ok (writeName (fun _ => 0) [] (replicate 100 97)) := by
    rw [setRawTarName,if_neg (by simp [slash]),cut?_losesSlash hl]
    rfl
  rw [hset,Except.map,rawTarName_writeName (by simp) (by simp) (by simp) (by simp)]
  rfl

end Coreutils.PaxNames
