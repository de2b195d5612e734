import Coreutils.GoText
import Coreutils.Numerals
import Mathlib.Tactic.Positivity
import Mathlib.Tactic.Zify

/-!
# The suffixes of split

The suffixer gives out one suffix with each call. How long they stay in byte order, and when they
run out, depends on the style: plain hexadecimal suffixes leave the order with the first change of
width, and the limits of a fixed length are computed in machine integers.
-/

namespace Coreutils.SplitSuffixes
open Function List GoText Numerals

structure Suffixer where
  radix : ℕ
  fixed : ℕ
  idx : ℤ := 0
  useHex : Bool := false
  hexStart : ℤ := 0
  deriving DecidableEq,Repr

/-- `suffixer.symbol`; `byte(d)` is taken of a digit that can be negative. -/
def symbol (radix : ℕ) (d : ℤ) : UInt8 :=
  if radix=10 then 48+UInt8.ofInt d
  else if radix=16 then if d<10 then 48+UInt8.ofInt d else 97+UInt8.ofInt (d-10)
  else 97+UInt8.ofInt d

def fillBuf (radix : ℕ) : ℕ→ℤ→Bytes
  | 0,_ => []
  | w+1,v => fillBuf radix w (v.tdiv radix)++[symbol radix (v.tmod radix)]

def hexDigits (n : ℕ) : Bytes := (Nat.toDigits 16 n).map Char.toUInt8

/-- `fmt.Sprintf("%0*x", width, x)`; width zero is `%x`. -/
def sprintfHex (width : ℕ) (x : ℤ) : Bytes :=
  if x<0 then
    45::(replicate (width-1-(hexDigits x.natAbs).length) 48++hexDigits x.natAbs)
  else replicate (width-(hexDigits x.natAbs).length) 48++hexDigits x.natAbs

def hexLimit (fixed : ℕ) : ℤ := (fun limit => wrap64 (limit*16))^[fixed] 1

def maxInt32 : ℤ := 2^31-1

/-- The loop for the limit of a fixed length in the other styles. -/
def limitFrom (radix : ℕ) : ℕ→ℤ→ℤ
  | 0,limit => limit
  | n+1,limit =>
    if maxInt32<limit*radix then maxInt32 else limitFrom radix n (limit*radix)

/-- The loop that widens; the last argument is fuel. -/
def widen (radix : ℕ) (remaining sub : ℤ) (nd : ℕ) : ℕ→Option (ℤ×ℕ)
  | 0 => none
  | fuel+1 =>
    if sub≤remaining then
      widen radix (wrap64 (remaining-sub)) (wrap64 (sub*radix)) (nd+1) fuel
    else some (remaining,nd)

def exhausted : Bytes := ascii "output file suffixes exhausted"

def Suffixer.suffix (s : Suffixer) : Option (Except Bytes Bytes) :=
  if s.useHex then
    let idx := wrap64 (s.idx+s.hexStart)
    if 0<s.fixed then
      some (if hexLimit s.fixed ≤ idx then .error exhausted else .ok (sprintfHex s.fixed idx))
    else some (.ok (sprintfHex 0 idx))
  else if 0<s.fixed then
    some (if limitFrom s.radix s.fixed 1 ≤ s.idx then .error exhausted
      else .ok (fillBuf s.radix s.fixed s.idx))
  else
    (widen s.radix s.idx ((s.radix-1)*s.radix) 2 64).map fun (remaining,nd) =>
      .ok (replicate (nd-2) (symbol s.radix (s.radix-1))++fillBuf s.radix nd remaining)

def Suffixer.next (s : Suffixer) : Option (Except Bytes Bytes×Suffixer) :=
  s.suffix.map fun r => (r,{ s with idx := wrap64 (s.idx+1) })

/-- The suffixes of the given number of calls, up to the first error. -/
def Suffixer.draw : ℕ→Suffixer→Option (List Bytes×Option Bytes)
  | 0,_ => some ([],none)
  | n+1,s =>
    s.next.bind fun
      | (.error e,_) => some ([],some e)
      | (.ok suf,s) => (s.draw n).map fun (sufs,e) => (suf::sufs,e)

/-- The styles of suffix that the options select. -/
inductive Style where
  | alphabetic
  | numeric
  | hexadecimal (start : ℕ) (inRange : start<2^63)

/-- The suffixer that `run` makes; the length is zero for automatic widening. -/
def Style.suffixer (fixed : ℕ) : Style→Suffixer
  | .alphabetic => { radix := 26,fixed }
  | .numeric => { radix := 10,fixed }
  | .hexadecimal start _ => { radix := 16,fixed,useHex := true,hexStart := start }

example : (Style.numeric.suffixer 0).draw 3 =
    some ([ascii "00",ascii "01",ascii "02"],none) := by decide
example : ({ Style.numeric.suffixer 0 with idx := 89 }).draw 2 =
    some ([ascii "89",ascii "9000"],none) := by decide

def named (pre post : Bytes) (sufs pieces : List Bytes) : List (Bytes×Bytes) :=
  (sufs.zip pieces).map fun (suf,piece) => (pre++suf++post,piece)

/-- The suffixes increase, and the files sorted by name give back the input. -/
structure InOrder (sufs : List Bytes) : Prop where
  increasing : sufs.Pairwise (·<·)
  reassembles : ∀pre post pieces,pieces.length ≤ sufs.length→
    ((named pre post sufs pieces).mergeSort fun a b => a.1≤b.1).flatMap Prod.snd=pieces.flatten

theorem named_snd (pre post : Bytes) {sufs pieces : List Bytes} (h : pieces.length ≤ sufs.length) :
    (named pre post sufs pieces).flatMap Prod.snd=pieces.flatten := by
  rw [named,flatMap_map,flatMap_def]
  have hsnd : (sufs.zip pieces).map (fun x => x.2)=pieces := map_snd_zip h
  rw [hsnd]

variable {sufs : List Bytes}

theorem inOrder_of_before (h : sufs.Pairwise Before) : InOrder sufs where
  increasing := h.imp Before.lt
  reassembles pre post pieces hlen := by
    have hsorted : (named pre post sufs pieces).Pairwise fun a b => a.1≤b.1 := by
      rw [pairwise_iff_getElem]
      intro i j hi hj hij
      simp only [named,length_map,length_zip] at hi hj
      have hbefore := pairwise_iff_getElem.mp h i j (by omega) (by omega) hij
      simp only [named,getElem_map,getElem_zip]
      exact List.le_of_lt ((hbefore.append_left pre).append post post).lt
    rw [mergeSort_of_pairwise (by simpa using hsorted),named_snd pre post hlen]

/-- The suffixer before the call with the given number. -/
def Suffixer.before (s : Suffixer) (k : ℕ) : Suffixer :=
  (fun s => { s with idx := wrap64 (s.idx+1) })^[k] s

section
variable {s : Suffixer} {f : ℕ→Bytes} {m n : ℕ}

theorem draw_add (h : ∀k < m,(s.before k).suffix=some (.ok (f k))) : s.draw (m+n) =
    ((s.before m).draw n).map fun (sufs,e) => ((range m).map f++sufs,e) := by
  induction m generalizing s f with
  | zero => simp [Suffixer.before]
  | succ m ih =>
    have hfirst : s.suffix=some (.ok (f 0)) := h 0 m.succ_pos
    have hrest := ih (s := s.before 1) fun k hk => h (k+1) (by omega)
    rw [add_right_comm,Suffixer.draw,Suffixer.next,hfirst,range_succ_eq_map,map_cons,map_map]
    change ((s.before 1).draw (m+n)).map _=_
    rw [hrest,Option.map_map]
    rfl

theorem draw_ok (h : ∀k<n,(s.before k).suffix=some (.ok (f k))) :
    s.draw n=some ((range n).map f,none) := by
  simpa [Suffixer.draw] using draw_add (n := 0) h

theorem draw_error {e : Bytes} (h : ∀k < m,(s.before k).suffix=some (.ok (f k)))
    (he : (s.before m).suffix=some (.error e)) (hm : m<n) :
    s.draw n=some ((range m).map f,some e) := by
  obtain ⟨k,rfl⟩ := Nat.exists_eq_add_of_lt hm
  rw [add_assoc,draw_add h,Suffixer.draw,Suffixer.next,he]
  simp

/-- Whatever follows, the first suffixes are those of the first calls. -/
theorem draw_starts (h : ∀k < m,(s.before k).suffix=some (.ok (f k))) (hm : m≤n) {e : Option Bytes}
    (hdraw : s.draw n=some (sufs,e)) : (range m).map f <+: sufs := by
  obtain ⟨k,rfl⟩ := Nat.exists_eq_add_of_le hm
  rw [draw_add h] at hdraw
  obtain ⟨r,-,hr⟩ := Option.map_eq_some_iff.mp hdraw
  cases hr
  exact prefix_append _ _

end

theorem before_eq {s : Suffixer} (h : s.idx=0) (k : ℕ) : s.before k={ s with idx := wrap64 k } := by
  induction k with
  | zero =>
    obtain ⟨radix,fixed,idx,useHex,hexStart⟩ := s
    subst h
    rfl
  | succ k ih =>
    rw [Suffixer.before,iterate_succ_apply',←Suffixer.before,ih]
    simp [wrap64_wrap64_add]

def Style.radix : Style→ℕ
  | .alphabetic => 26
  | .numeric => 10
  | .hexadecimal _ _ => 16

/-- The number that the first suffix spells. -/
def Style.start : Style→ℕ
  | .hexadecimal start _ => start
  | _ => 0

/-- The suffixes are in order, and run out only after the last one of the fixed length. -/
def Reassembles (style : Style) (fixed n : ℕ) : Prop :=
  ∃sufs e,(style.suffixer fixed).draw n=some (sufs,e) ∧ InOrder sufs ∧
    (e≠none→0<fixed ∧ style.radix^fixed ≤ style.start+sufs.length)

section
variable {style : Style} {fixed : ℕ} {f : ℕ→Bytes}

theorem inOrder_range {N : ℕ} (h : ∀i j,i<j→j<N→Before (f i) (f j)) {n : ℕ} (hn : n≤N) :
    InOrder ((range n).map f) := by
  refine inOrder_of_before (pairwise_map.mpr ?_)
  refine pairwise_lt_range.imp_of_mem fun _ hj hij => h _ _ hij ?_
  exact (mem_range.mp hj).trans_le hn

/-- The suffixes of a fixed length, with the limit at which the calls fail. -/
theorem reassembles_iff_of_limit {L : ℕ} {e : Bytes}
    (hok : ∀k<L,((style.suffixer fixed).before k).suffix=some (.ok (f k)))
    (herror : ((style.suffixer fixed).before L).suffix=some (.error e))
    (hbefore : ∀i j,i<j→j<L→Before (f i) (f j)) (n : ℕ) :
    Reassembles style fixed n ↔ n≤L ∨ 0<fixed ∧ style.radix^fixed ≤ style.start+L := by
  rcases lt_or_ge L n with hn | hn
  · have hdraw := draw_error hok herror hn
    constructor
    · rintro ⟨sufs,e',hdraw',-,hend⟩
      obtain ⟨rfl,rfl⟩ := Prod.mk.inj (Option.some.inj (hdraw.symm.trans hdraw'))
      exact .inr (by simpa using hend)
    · rintro (h | h)
      · omega
      · exact ⟨_,_,hdraw,inOrder_range hbefore le_rfl,fun _ => by simpa using h⟩
  · refine iff_of_true ⟨_,_,draw_ok fun k hk => hok k (by omega),?_,by simp⟩ (.inl hn)
    exact inOrder_range hbefore hn

/-- Suffixes without an end, with the call that leaves the order. -/
theorem reassembles_iff_of_order {N i : ℕ} (hi : i<N)
    (hok : ∀k≤N,((style.suffixer fixed).before k).suffix=some (.ok (f k)))
    (hbefore : ∀i j,i<j→j<N→Before (f i) (f j)) (hbad : ¬f i<f N) (n : ℕ) :
    Reassembles style fixed n ↔ n≤N := by
  constructor
  · rintro ⟨sufs,e,hdraw,horder,-⟩
    by_contra hn
    obtain ⟨rest,rfl⟩ := draw_starts (m := N+1) (fun k hk => hok k (by omega)) (by omega) hdraw
    have hincreasing := (pairwise_append.mp horder.increasing).1
    have := pairwise_iff_getElem.mp hincreasing i N (by simp; omega) (by simp) hi
    exact hbad (by simpa using this)
  · intro hn
    exact ⟨_,_,draw_ok fun k hk => hok k (by omega),inOrder_range hbefore hn,by simp⟩

end

theorem symbol_lt {radix : ℕ} (h : radix=26 ∨ radix=10 ∨ radix=16) :
    ∀c d : ℕ,c<d→d<radix→symbol radix c<symbol radix d := by
  have hall : ∀r∈[26,10,16],∀d<r,∀c<d,symbol r c<symbol r d := by decide
  intro c d hcd hd
  exact hall radix (by simpa using h) d hd c hcd

theorem fillBuf_natCast (radix w v : ℕ) :
    fillBuf radix w v=spell (fun d => symbol radix d) radix w v := by
  induction w generalizing v with
  | zero => rfl
  | succ w ih =>
    have hdiv : (v : ℤ).tdiv radix=(v/radix : ℕ) := by simp
    have hmod : (v : ℤ).tmod radix=(v%radix : ℕ) := (Int.ofNat_tmod v radix).symm
    rw [fillBuf,spell,hdiv,hmod,ih]

variable {k : ℕ}

theorem limitFrom_eq {radix : ℕ} (hr : 1<radix) (n : ℕ) (hk : (radix : ℤ)^k ≤ maxInt32) :
    limitFrom radix n (radix^k)=min ((radix : ℤ)^(k+n)) maxInt32 := by
  induction n generalizing k with
  | zero => simpa [limitFrom] using hk
  | succ n ih =>
    rw [limitFrom,←pow_succ]
    split
    · have hle : (radix : ℤ)^(k+1)≤radix^(k+(n+1)) := by
        exact_mod_cast Nat.pow_le_pow_right (by omega : 0<radix) (by omega)
      omega
    · rw [ih (by omega),add_assoc,add_comm 1 n]

variable {fixed : ℕ}

theorem hexLimit_eq (h : fixed≤15) : hexLimit fixed=16^fixed := by
  revert h fixed
  decide

theorem hexLimit_wide (h : 16≤fixed) : hexLimit fixed=0 := by
  obtain ⟨k,rfl⟩ := Nat.exists_eq_add_of_le' h
  exact iterate_fixed (by decide) k

theorem wrap64_natCast (h : k<2^63) : wrap64 k=k :=
  wrap64_of_range (by omega) (by omega)

/-- The styles that the widening loop serves. -/
def Style.Plain (style : Style) : Prop := style=.alphabetic ∨ style=.numeric

section
variable {style : Style}

theorem Style.Plain.suffixer_eq (h : style.Plain) (fixed : ℕ) :
    style.suffixer fixed={ radix := style.radix,fixed } := by
  obtain rfl | rfl := h <;> rfl

theorem Style.Plain.start_eq (h : style.Plain) : style.start=0 := by obtain rfl | rfl := h <;> rfl

theorem Style.Plain.radix_eq (h : style.Plain) : style.radix=26 ∨ style.radix=10 := by
  obtain rfl | rfl := h
  · exact .inl rfl
  · exact .inr rfl

theorem reassembles_fixed_iff (h : style.Plain) (hf : 0<fixed) (n : ℕ) :
    Reassembles style fixed n ↔ style.radix^fixed≤2^31-1 ∨ n≤2^31-1 := by
  have hr := h.radix_eq
  have hlimit : limitFrom style.radix fixed 1=(min (style.radix^fixed) (2^31-1) : ℕ) := by
    have := limitFrom_eq (by omega : 1<style.radix) fixed (k := 0) (by simp [maxInt32])
    simpa [maxInt32] using this
  have hsuffix : ∀k<2^63,((style.suffixer fixed).before k).suffix =
      some (if limitFrom style.radix fixed 1≤k then .error exhausted
        else .ok (spell (fun d => symbol style.radix d) style.radix fixed k)) := by
    intro k hk
    rw [h.suffixer_eq,before_eq rfl,wrap64_natCast hk,Suffixer.suffix,if_neg (by simp),
      if_pos hf,fillBuf_natCast]
  rw [hlimit] at hsuffix
  have hiff : Reassembles style fixed n ↔ _ := reassembles_iff_of_limit
    (L := min (style.radix^fixed) (2^31-1))
    (fun k hk => by rw [hsuffix k (by omega),if_neg (by omega)])
    (by rw [hsuffix _ (by omega),if_pos le_rfl])
    (fun i j hij hj => spell_before (symbol_lt (by omega)) hij (by omega)) n
  rw [hiff,h.start_eq]
  omega

end

section
variable (radix : ℕ)

/-- The value of `sub` after some rounds, with its overflow. -/
def subAt (j : ℕ) : ℤ := (fun sub => wrap64 (sub*radix))^[j] ((radix-1)*radix)

def taken : ℕ→ℤ
  | 0 => 0
  | j+1 => taken j+subAt radix j

/-- Every 63-bit index is served within the given number of rounds, and `sub` stays positive. -/
structure Widens (rounds : ℕ) : Prop where
  pos : ∀j≤rounds,0<subAt radix j
  covers : 2^63≤taken radix (rounds+1)
  fuel : rounds<64

theorem widens_alphabetic : Widens 26 13 := ⟨by decide,by decide,by decide⟩

theorem widens_numeric : Widens 10 17 := ⟨by decide,by decide,by decide⟩

/-- The index has been served in the given round: the suffix has that much filling, and its first
symbol is not the last one. -/
structure Widened (rounds : ℕ) (v : ℤ) (j rem : ℕ) : Prop where
  round : j≤rounds
  rem_eq : taken radix j+rem=v
  rem_lt : v<taken radix (j+1)

variable {radix} {rounds j rem : ℕ} (hw : Widens radix rounds) {v : ℤ}

theorem subAt_succ (j : ℕ) : subAt radix (j+1)=wrap64 (subAt radix j*radix) :=
  iterate_succ_apply' ..

theorem wrap64_le {x : ℤ} (h : 0≤x) : wrap64 x≤x := by
  simp only [wrap64]
  omega

include hw

/-- Overflow only makes `sub` smaller. -/
theorem subAt_le (hj : j≤rounds) : subAt radix j≤(radix-1)*radix^(j+1) := by
  induction j with
  | zero => simp [subAt]
  | succ j ih =>
    have hpos := hw.pos j (by omega)
    calc subAt radix (j+1) ≤ subAt radix j*radix := by
          rw [subAt_succ]
          exact wrap64_le (by positivity)
      _≤(radix-1)*radix^(j+1)*radix :=
          mul_le_mul_of_nonneg_right (ih (by omega)) (by positivity)
      _=(radix-1)*radix^(j+1+1) := by ring

theorem taken_mono {i : ℕ} (hij : i≤j) (hj : j≤rounds+1) : taken radix i≤taken radix j := by
  induction j,hij using Nat.le_induction with
  | base => exact le_rfl
  | succ j _ ih =>
    have := hw.pos j (by omega)
    rw [taken]
    omega

/-- The loop in a later round, with the fuel that is left. -/
theorem widen_from {v : ℕ} (hv : v<2^63) (fuel : ℕ) (hj : j≤rounds)
    (hfuel : rounds<j+fuel) (htaken : taken radix j≤v) : ∃k rem : ℕ,Widened radix rounds v k rem ∧
      widen radix (v-taken radix j) (subAt radix j) (j+2) fuel=some ((rem : ℤ),k+2) := by
  induction fuel generalizing j with
  | zero => omega
  | succ fuel ih =>
    obtain ⟨rem,hrem⟩ := Int.eq_ofNat_of_zero_le (by omega : 0≤(v : ℤ)-taken radix j)
    by_cases hsub : subAt radix j≤v-taken radix j
    · have hnonneg : 0≤taken radix j := taken_mono hw j.zero_le (by omega)
      have hpos := hw.pos j hj
      have hlt : j<rounds := by
        refine lt_of_le_of_ne hj fun heq => ?_
        have hcovers := hw.covers
        rw [←heq,taken] at hcovers
        omega
      have hwrap : wrap64 (v-taken radix j-subAt radix j)=v-taken radix (j+1) := by
        rw [wrap64_of_range (by omega) (by omega),taken]
        omega
      obtain ⟨k,rem,hk,hrun⟩ := ih hlt (by omega) (by rw [taken]; omega)
      refine ⟨k,rem,hk,?_⟩
      rw [widen,if_pos hsub,hwrap,←subAt_succ]
      exact hrun
    · refine ⟨j,rem,⟨hj,by omega,by rw [taken]; omega⟩,?_⟩
      rw [widen,if_neg hsub,hrem]

theorem widen_eq {v : ℕ} (hv : v<2^63) : ∃j rem : ℕ,Widened radix rounds v j rem ∧
      widen radix v ((radix-1)*radix) 2 64=some ((rem : ℤ),j+2) := by
  have := widen_from hw hv 64 rounds.zero_le (by have := hw.fuel; omega) (by simp [taken])
  simpa [taken,subAt] using this

theorem Widened.rem_bound (hr : 1<radix) (h : Widened radix rounds v j rem) :
    rem<radix^(j+1)*(radix-1) := by
  have hsub := subAt_le hw h.round
  have hlt := h.rem_lt
  rw [taken,←h.rem_eq] at hlt
  have hrem : (rem : ℤ)<radix^(j+1)*(radix-1) := by
    rw [mul_comm]
    omega
  zify [hr.le]
  exact hrem

theorem Widened.round_mono {v' : ℤ} {j' rem' : ℕ} (hv : v<v')
    (h : Widened radix rounds v j rem) (h' : Widened radix rounds v' j' rem') : j≤j' := by
  by_contra hlt
  have hmono := taken_mono hw (by omega : j'+1≤j) (by have := h.round; omega)
  have := h.rem_eq
  have := h'.rem_lt
  omega

def widenedSuffix (radix j rem : ℕ) : Bytes :=
  replicate j (symbol radix (radix-1))++spell (fun d => symbol radix d) radix (j+2) rem

/-- Suffixes of later indices come later. -/
theorem widened_before (hr : radix=26 ∨ radix=10) {v' : ℤ} {j' rem' : ℕ} (hv : v<v')
    (h : Widened radix rounds v j rem) (h' : Widened radix rounds v' j' rem') :
    Before (widenedSuffix radix j rem) (widenedSuffix radix j' rem') := by
  have hsym : ∀c d : ℕ,c<d→d<radix→symbol radix c<symbol radix d := symbol_lt (by omega)
  rcases lt_or_eq_of_le (h.round_mono hw hv h') with hj | rfl
  · -- the longer suffix still has its filling where the shorter one has its first symbol
    have hfirst : rem/radix^(j+1)<radix-1 :=
      Nat.div_lt_of_lt_mul (h.rem_bound hw (by omega))
    have hlast : symbol radix (rem/radix^(j+1)%radix : ℕ)<symbol radix (radix-1) := by
      have := hsym _ (radix-1) hfirst (by omega)
      rwa [Nat.cast_pred (by omega),←Nat.mod_eq_of_lt (by omega : rem/radix^(j+1)<radix)]
        at this
    obtain ⟨d,rfl⟩ := Nat.exists_eq_add_of_lt hj
    rw [widenedSuffix,widenedSuffix,spell_succ,add_assoc,←replicate_append_replicate,
      append_assoc,replicate_succ]
    exact (before_cons hlast _ _).append_left _
  · have hbound : rem'<radix^(j+2) := by
      refine (h'.rem_bound hw (by omega)).trans_le ?_
      exact Nat.mul_le_mul_left _ (Nat.sub_le radix 1)
    have hrem : rem<rem' := by
      have := h.rem_eq
      have := h'.rem_eq
      omega
    exact (spell_before hsym hrem hbound).append_left _

end

section
variable {style : Style} (h : style.Plain)

include h

theorem exists_widens : ∃rounds,Widens style.radix rounds := by
  obtain rfl | rfl := h
  · exact ⟨13,widens_alphabetic⟩
  · exact ⟨17,widens_numeric⟩

theorem suffix_widened {rounds : ℕ} (hw : Widens style.radix rounds) (hk : k<2^63) :
    ∃j rem,Widened style.radix rounds k j rem ∧
      ((style.suffixer 0).before k).suffix=some (.ok (widenedSuffix style.radix j rem)) := by
  obtain ⟨j,rem,hwidened,hrun⟩ := widen_eq hw hk
  refine ⟨j,rem,hwidened,?_⟩
  rw [h.suffixer_eq,before_eq rfl,wrap64_natCast hk]
  simp [Suffixer.suffix,hrun,fillBuf_natCast,widenedSuffix]

/-- After `2 ^ 63` calls the index is negative, and the suffix comes before the first one. -/
theorem suffix_overflow : ∃first last,((style.suffixer 0).before 0).suffix=some (.ok first) ∧
    ((style.suffixer 0).before (2^63)).suffix=some (.ok last) ∧ ¬first<last := by
  rw [before_eq (by obtain rfl | rfl := h <;> rfl),before_eq (by obtain rfl | rfl := h <;> rfl)]
  obtain rfl | rfl := h
  · exact ⟨_,_,rfl,rfl,by decide⟩
  · exact ⟨_,_,rfl,rfl,by decide⟩

theorem reassembles_widening_iff (n : ℕ) : Reassembles style 0 n ↔ n≤2^63 := by
  obtain ⟨rounds,hw⟩ := exists_widens h
  obtain ⟨first,last,hfirst,hlast,hbad⟩ := suffix_overflow h
  choose! j rem hj using fun k => suffix_widened h hw (k := k)
  have hiff : Reassembles style 0 n ↔ _ := reassembles_iff_of_order
    (N := 2^63) (i := 0) (by decide)
    (f := fun k => if k<2^63 then widenedSuffix style.radix (j k) (rem k) else last)
    (fun k hk => ?_) (fun i k hik hk => ?_) ?_ n
  · exact hiff
  · rcases lt_or_eq_of_le hk with hk | rfl
    · rw [if_pos hk,(hj k hk).2]
    · rw [if_neg (lt_irrefl _),hlast]
  · rw [if_pos (hik.trans hk),if_pos hk]
    exact widened_before hw h.radix_eq (by exact_mod_cast hik) (hj i (hik.trans hk)).1 (hj k hk).1
  · have h₀ := (hj 0 (by decide)).2
    rw [hfirst] at h₀
    rwa [←Except.ok.inj (Option.some.inj h₀)]

end

abbrev hexSpell : ℕ→ℕ→Bytes := spell (fun d => symbol 16 d) 16

theorem hexSpell_succ (w v : ℕ) : hexSpell (w+1) v=symbol 16 (v/16^w%16 : ℕ)::hexSpell w v :=
  spell_succ _ _ w v

theorem hexChar_toUInt8 {d : ℕ} (h : d<16) : d.digitChar.toUInt8=symbol 16 d := by
  revert h d
  decide

theorem hexDigits_eq (n : ℕ) :
    hexDigits n=if n<16 then [symbol 16 n] else hexDigits (n/16)++[symbol 16 (n%16 : ℕ)] := by
  rw [hexDigits,Nat.toDigits_eq_if (by omega)]
  split_ifs with h
  · simp [hexChar_toUInt8 h]
  · simp [hexDigits,hexChar_toUInt8 (Nat.mod_lt n (by omega : 0<16))]

theorem hexDigits_spell (n : ℕ) : hexDigits n=hexSpell (Nat.log 16 n+1) n := by
  induction n using Nat.strongRecOn with
  | ind n ih =>
    rw [hexDigits_eq]
    split_ifs with h
    · rw [Nat.log_of_lt h]
      simp [spell,Nat.mod_eq_of_lt h]
    · have hlog : Nat.log 16 n=Nat.log 16 (n/16)+1 :=
        Nat.log_of_one_lt_of_le (by decide) (by omega)
      rw [ih (n/16) (by omega),hlog]
      rfl

theorem sprintfHex_natCast {width n : ℕ} (hw : 0<width) (h : n<16^width) :
    sprintfHex width n=hexSpell width n := by
  have hlog : Nat.log 16 n+1≤width := Nat.log_lt_of_lt_pow' hw.ne' h
  have hpad := spell_pad (fun d => symbol 16 (d : ℕ)) 16
    (Nat.lt_pow_succ_log_self (by decide : 1<16) n) (width-(Nat.log 16 n+1))
  rw [Nat.sub_add_cancel hlog] at hpad
  rw [sprintfHex,hexDigits_spell,length_spell]
  exact hpad.symm

theorem sprintfHex_zero (n : ℕ) : sprintfHex 0 n=hexDigits n := by
  rw [sprintfHex]
  simp

section
variable {start : ℕ} (hs : start<2^63)

theorem hex_suffix (fixed : ℕ) (hk : k+start<2^63) :
    (((Style.hexadecimal start hs).suffixer fixed).before k).suffix =
      some (if 0<fixed ∧ hexLimit fixed≤(k+start : ℕ) then .error exhausted
        else .ok (sprintfHex fixed (k+start : ℕ))) := by
  rw [before_eq rfl]
  simp only [Style.suffixer,Suffixer.suffix,wrap64_wrap64_add,←Nat.cast_add,wrap64_natCast hk]
  rcases Nat.eq_zero_or_pos fixed with rfl | hf
  · simp
  · simp [hf]

theorem reassembles_hex_fixed_iff (hf : 0<fixed) (n : ℕ) :
    Reassembles (.hexadecimal start hs) fixed n ↔ fixed≤15 ∨ n=0 := by
  rcases lt_or_ge 15 fixed with hwide | hwide
  · -- the limit has overflowed to zero
    have hpow : 16^16≤16^fixed := Nat.pow_le_pow_right (by decide) hwide
    have hiff : Reassembles (.hexadecimal start hs) fixed n ↔ _ := reassembles_iff_of_limit
      (L := 0) (f := fun _ => []) (by simp)
      (by rw [hex_suffix hs fixed (by omega),if_pos ⟨hf,by rw [hexLimit_wide hwide]; omega⟩])
      (by simp) n
    rw [hiff]
    change n≤0 ∨ 0<fixed ∧ 16^fixed ≤ start+0 ↔ _
    omega
  · have hpow : 16^fixed≤16^15 := Nat.pow_le_pow_right (by decide) hwide
    have hlimit : hexLimit fixed=(16^fixed : ℕ) := by
      rw [hexLimit_eq hwide]
      norm_cast
    have hiff : Reassembles (.hexadecimal start hs) fixed n ↔ _ := reassembles_iff_of_limit
      (L := 16^fixed-start) (e := exhausted) (f := fun k => hexSpell fixed (k+start))
      (fun k hk => ?_) ?_
      (fun i j hij hj => spell_before (symbol_lt (by simp)) (by omega) (by omega)) n
    · rw [hiff]
      change _ ∨ 0<fixed ∧ 16^fixed ≤ start+(16^fixed-start) ↔ _
      omega
    · rw [hex_suffix hs fixed (by omega),if_neg (by omega),
        sprintfHex_natCast hf (by omega : k+start<16^fixed)]
    · rw [hex_suffix hs fixed (by omega),if_pos ⟨hf,by omega⟩]

theorem hexDigits_of_le {v : ℕ} (h : start≤v) (hv : v<16^(Nat.log 16 start+1)) :
    hexDigits v=hexSpell (Nat.log 16 start+1) v := by
  have hle : Nat.log 16 start≤Nat.log 16 v := Nat.log_mono_right h
  have hlt : Nat.log 16 v<Nat.log 16 start+1 := Nat.log_lt_of_lt_pow' (by omega) hv
  rw [hexDigits_spell,le_antisymm (by omega) hle]

theorem hex_suffix_overflow (hk : k+start=2^63) :
    (((Style.hexadecimal start hs).suffixer 0).before k).suffix =
      some (.ok (sprintfHex 0 (-2^63))) := by
  have hsum : (k : ℤ)+start=2^63 := by exact_mod_cast hk
  have hwrap : wrap64 (2^63) = -2^63 := by decide
  rw [before_eq rfl]
  simp only [Style.suffixer,Suffixer.suffix,wrap64_wrap64_add,hsum,hwrap,if_true,lt_irrefl,if_false]

theorem not_cons_lt {c d : UInt8} (h : d<c) (x y : Bytes) : ¬c::x<d::y :=
  List.lt_asymm (before_cons h y x).lt

/-- A change of width leaves the byte order. -/
theorem not_hexDigits_lt (w : ℕ) : ¬hexDigits (16^(w+1)-1)<hexDigits (16^(w+1)) := by
  have hpos : 0<16^w := by positivity
  have hlast : (16^(w+1)-1)/16^w=15 := by
    rw [Nat.div_eq_iff hpos]
    omega
  have hlog : Nat.log 16 (16^(w+1)-1)=w :=
    Nat.log_eq_of_pow_le_of_lt_pow (by omega) (by omega)
  rw [hexDigits_spell,hexDigits_spell,hlog,Nat.log_pow (by decide),hexSpell_succ,hexSpell_succ,
    hlast,Nat.div_self (by positivity)]
  exact not_cons_lt (by decide) _ _

theorem minus_lt_symbol {d : ℕ} (h : d<16) : 45<symbol 16 d := by
  revert h d
  decide

theorem reassembles_hex_iff (n : ℕ) : Reassembles (.hexadecimal start hs) 0 n ↔
      start+n ≤ min (16^(Nat.log 16 start+1)) (2^63) := by
  set w := Nat.log 16 start with hw
  have hstart : start<16^(w+1) := Nat.lt_pow_succ_log_self (by decide) start
  have hdigits : ∀v,start≤v→v<16^(w+1)→hexDigits v=hexSpell (w+1) v :=
    fun v => hexDigits_of_le
  have hiff : Reassembles (.hexadecimal start hs) 0 n ↔ _ := reassembles_iff_of_order
    (N := min (16^(w+1)) (2^63)-start) (i := min (16^(w+1)) (2^63)-start-1)
    (by omega)
    (f := fun k => if k+start<2^63 then hexDigits (k+start) else sprintfHex 0 (-2^63))
    (fun k hk => ?_) (fun i j hij hj => ?_) ?_ n
  · rw [hiff]
    omega
  · by_cases hlt : k+start<2^63
    · rw [hex_suffix hs 0 hlt,if_neg (by simp),if_pos hlt,sprintfHex_zero]
    · rw [hex_suffix_overflow hs (by omega),if_neg hlt]
  · rw [if_pos (by omega),if_pos (by omega),hdigits (i+start) (by omega) (by omega),
      hdigits (j+start) (by omega) (by omega)]
    exact spell_before (symbol_lt (by simp)) (by omega) (by omega)
  · rw [if_pos (by omega)]
    by_cases hlt : 16^(w+1)<2^63
    · have hlast : min (16^(w+1)) (2^63)-start-1+start=16^(w+1)-1 := by omega
      have hnext : min (16^(w+1)) (2^63)-start+start=16^(w+1) := by omega
      rw [hlast,hnext,if_pos hlt]
      exact not_hexDigits_lt w
    · rw [if_neg (by omega),hdigits _ (by omega) (by omega),hexSpell_succ]
      exact not_cons_lt (minus_lt_symbol (Nat.mod_lt _ (by decide))) _ _

end

/-- The calls whose suffixes are in order. -/
def Style.Lasts (fixed n : ℕ) (style : Style) : Prop :=
  match style with
  | .hexadecimal start _ =>
    if fixed=0 then start+n ≤ min (16^(Nat.log 16 start+1)) (2^63)
    else fixed≤15 ∨ n=0
  | _ => if fixed=0 then n≤2^63 else style.radix^fixed≤2^31-1 ∨ n≤2^31-1

theorem reassembles_iff (style : Style) (fixed n : ℕ) :
    Reassembles style fixed n ↔ style.Lasts fixed n := by
  have hplain : style.Plain→(Reassembles style fixed n ↔
      if fixed=0 then n≤2^63 else style.radix^fixed≤2^31-1 ∨ n≤2^31-1) := by
    intro h
    rcases Nat.eq_zero_or_pos fixed with rfl | hf
    · rw [reassembles_widening_iff h,if_pos rfl]
    · rw [reassembles_fixed_iff h hf,if_neg hf.ne']
  cases style with
  | alphabetic => exact hplain (.inl rfl)
  | numeric => exact hplain (.inr rfl)
  | hexadecimal start hs =>
    rcases Nat.eq_zero_or_pos fixed with rfl | hf
    · rw [reassembles_hex_iff,Style.Lasts,if_pos rfl]
    · rw [reassembles_hex_fixed_iff hs hf,Style.Lasts,if_neg hf.ne']

/-- The seventeenth hexadecimal suffix comes before the sixteenth. -/
theorem not_reassembles_hex : ¬Reassembles (.hexadecimal 0 (by decide)) 0 17 := by
  rintro ⟨sufs,e,hdraw,horder,-⟩
  have hvalue : ((Style.hexadecimal 0 (by decide)).suffixer 0).draw 17 =
      some ((List.range 17).map hexDigits,none) := by decide
  obtain ⟨rfl,-⟩ := Prod.mk.inj (Option.some.inj (hvalue.symm.trans hdraw))
  have : ¬((List.range 17).map hexDigits).Pairwise (·<·) := by decide
  exact this horder.increasing

end Coreutils.SplitSuffixes
