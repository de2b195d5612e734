import Coreutils.AtIncrements
import Coreutils.DigitOrder
import Mathlib.Data.List.DropRight
import Mathlib.Data.Nat.Digits.Defs

/-!
# Times in extended headers

An instant is a whole number of seconds and nanoseconds after it, also before 1970; a record has a
sign and a magnitude. Reading what was written gives the instant back. Reading any other decimal
cuts it to nanoseconds, except just before the first second there is, where it overflows.
-/

namespace Coreutils.PaxTimes
open List GoText DigitOrder AtIncrements

@[ext] structure Instant where
  sec : ℤ
  nsec : ℤ
  sec_lo : -2^63 ≤ sec
  sec_hi : sec<2^63
  nsec_lo : 0≤nsec
  nsec_hi : nsec<10^9

def Instant.nanos (t : Instant) : ℤ := t.sec*10^9+t.nsec

theorem carry_range (sec nsec : ℤ) : (-2^63≤wrap64 (sec+nsec/10^9) ∧ wrap64 (sec+nsec/10^9)<2^63) ∧
    0≤nsec%10^9 ∧ nsec%10^9<10^9 := by
  simp only [wrap64]
  omega

/-- `time.Unix`, which carries from the nanoseconds to the seconds. -/
def unix (sec nsec : ℤ) : Instant where
  sec := wrap64 (sec+nsec/10^9)
  nsec := nsec%10^9
  sec_lo := (carry_range sec nsec).1.1
  sec_hi := (carry_range sec nsec).1.2
  nsec_lo := (carry_range sec nsec).2.1
  nsec_hi := (carry_range sec nsec).2.2

def minus : UInt8 := 45

def point : UInt8 := 46

/-- `strings.SplitN(value, ".", 2)`. -/
def parts (value : Bytes) : Bytes×Option Bytes :=
  (value.takeWhile (· != point),(value.dropWhile (· != point)).tail?)

/-- The first nine digits of a fraction, filled up with zeros. -/
def nine (fraction : Bytes) : Bytes := fraction.take 9++replicate (9-fraction.length) 48

/-- The error of `strconv.ParseInt` is a parameter. -/
def parsePAXTime (numError : Bytes→Bytes) (value : Bytes) : Except Bytes Instant :=
  match atoi? (parts value).1 with
  | none => .error (numError (parts value).1)
  | some seconds =>
    match (parts value).2 with
    | none => .ok (unix seconds 0)
    | some fraction =>
      if fraction=[] then .error (ascii "missing fractional digits")
      else if ¬ fraction.all isDigit then .error (ascii "invalid fractional time")
      else
        match atoi? (nine fraction) with
        | none => .error (numError (nine fraction))
        | some nanos => .ok (unix seconds (if value.head?=some minus then -nanos else nanos))

/-- `fmt.Sprintf("%09d", nanos)`. -/
def padded (n : ℕ) : Bytes := replicate (9-(digits n).length) 48++digits n

/-- The seconds and nanoseconds to write after the sign. -/
def magnitude (t : Instant) : ℤ×ℤ :=
  if t.sec<0 then if t.nsec≠0 then (wrap64 (-t.sec-1),10^9-t.nsec) else (wrap64 (-t.sec),t.nsec)
  else (t.sec,t.nsec)

def formatPAXUnixTime (t : Instant) : Bytes :=
  let (seconds,nanos) := magnitude t
  (if t.sec<0 then [minus] else [])++itoa seconds ++
    if nanos≠0 then point::(padded nanos.toNat).rdropWhile (· == 48) else []

/-- The decimal in nanoseconds, cut towards zero; its digits denote a scaled magnitude. -/
def truncated (value : Bytes) : ℤ :=
  let fraction := (parts value).2.getD []
  let magnitude : ℕ := decimal ((signed (parts value).1).2++fraction)*10^9/10^fraction.length
  if value.head?=some minus then -(magnitude : ℤ) else magnitude

variable {n : ℕ} {fraction : Bytes}

theorem digits_replicate (k : ℕ) : Digits (replicate k 48) := by
  intro d hd
  rw [eq_of_mem_replicate hd]
  rfl

theorem decimal_replicate (k : ℕ) : decimal (replicate k 48)=0 := by
  induction k with
  | zero => rfl
  | succ k ih => simp [replicate_succ,decimal_cons,ih]

/-- Cutting a decimal to nine places is cutting its fraction to nine digits. -/
theorem nine_value (ds : Bytes) (h : Digits fraction) :
    decimal (ds++fraction)*10^9/10^fraction.length=decimal ds*10^9+decimal (nine fraction) := by
  rw [nine,decimal_append,decimal_append,decimal_replicate,length_replicate]
  by_cases hlen : fraction.length≤9
  · obtain ⟨k,hk⟩ := Nat.exists_eq_add_of_le hlen
    have hpos : 0<10^fraction.length := by positivity
    rw [take_of_length_le hlen,hk,Nat.add_sub_cancel_left,pow_add,←mul_assoc,mul_right_comm,
      Nat.mul_div_cancel _ hpos]
    ring
  · obtain ⟨k,hk⟩ := Nat.exists_eq_add_of_le (not_le.mp hlen).le
    have hdrop : (fraction.drop 9).length=k := by
      rw [length_drop]
      omega
    have hlt := decimal_lt (fun d hd => h d (mem_of_mem_drop hd) : Digits (fraction.drop 9))
    have hsplit : decimal fraction=decimal (fraction.take 9)*10^k+decimal (fraction.drop 9) := by
      rw [←hdrop,←decimal_append,take_append_drop]
    rw [hdrop] at hlt
    rw [hk,Nat.sub_eq_zero_of_le (by omega),pow_zero,pow_add,mul_comm (10^9)]
    apply Nat.div_eq_of_lt_le
    · ring_nf
      omega
    · ring_nf
      omega

theorem digits_nine (h : Digits fraction) : Digits (nine fraction) ∧
    decimal (nine fraction)<10^9 := by
  have hdigits : Digits (nine fraction) :=
    forall_mem_append.mpr ⟨fun d hd => h d (mem_of_mem_take hd),digits_replicate _⟩
  have hlen : (nine fraction).length=9 := by
    simp only [nine,length_append,length_take,length_replicate]
    omega
  exact ⟨hdigits,hlen ▸ decimal_lt hdigits⟩

theorem atoi?_nine (h : Digits fraction) :
    atoi? (nine fraction)=some (decimal (nine fraction) : ℤ) := by
  obtain ⟨hdigits,hlt⟩ := digits_nine h
  have hne : nine fraction≠[] := by
    intro hnil
    have := congrArg length hnil
    simp only [nine,length_append,length_take,length_replicate,length_nil] at this
    omega
  rw [atoi?_digits ⟨hne,all_eq_true.mpr hdigits⟩,if_pos (by omega)]

theorem atoi?_some {s : Bytes} {v : ℤ} (h : atoi? s=some v) :
    v=(if s.head?=some minus then -(decimal (signed s).2 : ℤ) else decimal (signed s).2) ∧
      s≠[] ∧ -2^63≤v ∧ v<2^63 := by
  have hsign : (signed s).1=true ↔ s.head?=some minus := by
    cases s with
    | nil => simp [signed]
    | cons c s =>
      simp only [signed,minus]
      split_ifs <;> simp_all
  simp only [atoi?,hsign] at h
  obtain ⟨hc,hv⟩ := Option.ite_none_right_eq_some.mp h
  cases hv
  refine ⟨rfl,?_,hc.2.2⟩
  rintro rfl
  simp [signed] at hc

theorem nanos_unix {sec nsec : ℤ} (h₀ : -2^63*10^9 ≤ sec*10^9+nsec) (h₁ : sec*10^9+nsec<2^63*10^9) :
    (unix sec nsec).nanos=sec*10^9+nsec := by
  simp only [Instant.nanos,unix]
  rw [wrap64_of_range (by omega) (by omega)]
  omega

variable (numError : Bytes→Bytes) {t : Instant}

/-- What is read is what the text says, unless that is before the first second. -/
theorem nanos_eq_truncated_iff {value : Bytes} (h : parsePAXTime numError value=.ok t) :
    t.nanos=truncated value ↔ -2^63*10^9≤truncated value := by
  have hlow : -2^63*10^9≤t.nanos := by
    have := t.sec_lo
    have := t.nsec_lo
    rw [Instant.nanos]
    omega
  refine ⟨fun heq => heq ▸ hlow,fun hle => ?_⟩
  rw [truncated] at hle ⊢
  rw [parsePAXTime] at h
  cases hs : atoi? (parts value).1 with
  | none => simp [hs] at h
  | some seconds =>
    obtain ⟨hv,hne,h₀,h₁⟩ := atoi?_some hs
    have hhead : (parts value).1.head?=value.head? := by
      cases value with
      | nil => rfl
      | cons c value =>
        simp only [parts,takeWhile_cons] at hne ⊢
        split at hne <;> simp_all
    rw [hhead] at hv
    cases hr : (parts value).2 with
    | none =>
      simp only [hs,hr,Except.ok.injEq] at h
      rw [←h,nanos_unix (by omega) (by omega),hv]
      split_ifs <;> simp
    | some fraction =>
      by_cases hempty : fraction=[]
      · simp [hs,hr,hempty] at h
      by_cases hdigits : fraction.all isDigit=true
      · have hlt := digits_nine (all_eq_true.mp hdigits)
        simp only [hs,hr,hempty,hdigits,if_false,not_true,atoi?_nine (all_eq_true.mp hdigits),
          Except.ok.injEq] at h
        simp only [hr,Option.getD_some,nine_value _ (all_eq_true.mp hdigits)] at hle ⊢
        rw [←h]
        split_ifs at hle hv ⊢ <;> (rw [nanos_unix] <;> omega)
      · simp [hs,hr,hempty,hdigits] at h

theorem length_padded (h : n<10^9) : (padded n).length=9 := by
  have hlen : (digits n).length≤9 := by
    rw [digits,length_map]
    exact Nat.toDigitsCore_length 10 _ n 9 (by omega) h
  rw [padded,length_append,length_replicate]
  omega

theorem decimal_padded (n : ℕ) : decimal (padded n)=n := by
  rw [padded,decimal_append,decimal_replicate,decimal_digits]
  omega

/-- The zeros that were trimmed are filled in again. -/
theorem nine_trim (h : n<10^9) : nine ((padded n).rdropWhile (· == 48))=padded n := by
  have hsplit : (padded n).rdropWhile (· == 48)++(padded n).rtakeWhile (· == 48)=padded n :=
    rdropWhile_append_rtakeWhile
  have hlen := congrArg length hsplit
  rw [length_append,length_padded h] at hlen
  have hzeros : (padded n).rtakeWhile (· == 48) =
      replicate (9-((padded n).rdropWhile (· == 48)).length) 48 :=
    eq_replicate_iff.mpr ⟨by omega,fun d hd => by simpa using mem_rtakeWhile_imp hd⟩
  rw [nine,take_of_length_le (by omega),←hzeros,hsplit]

theorem trim_padded (h : n≠0) : (padded n).rdropWhile (· == 48)≠[] ∧
    ((padded n).rdropWhile (· == 48)).all isDigit=true := by
  constructor
  · rw [ne_eq,rdropWhile_eq_nil_iff]
    intro hall
    have hzeros : padded n=replicate _ 48 :=
      eq_replicate_of_mem fun d hd => by simpa using hall d hd
    have hval := decimal_padded n
    rw [hzeros,decimal_replicate] at hval
    exact h hval.symm
  · rw [all_eq_true]
    intro d hd
    rcases mem_append.mp (( rdropWhile_prefix _ _).subset hd) with hd | hd
    · exact digits_replicate _ d hd
    · exact isDigit_of_mem_digits hd

/-- Seconds and nanoseconds that are written with one sign are read with it. -/
theorem parse_written (neg : Bool) {m : ℕ} (hm : m<2^63) (hn : n<10^9) :
    parsePAXTime numError ((if neg then [minus] else [])++digits m ++
        if n≠0 then point::(padded n).rdropWhile (· == 48) else []) =
      .ok (if neg then unix (-m) (-n) else unix m n) := by
  obtain ⟨c,cs,hc⟩ := exists_cons_of_ne_nil (digits_ne_nil m)
  have hall : ∀d∈digits m,isDigit d=true := fun d hd => isDigit_of_mem_digits hd
  have hother : c≠minus ∧ ∀d∈digits m,(d != point)=true := by
    refine ⟨?_,fun d hd => ?_⟩
    · rintro rfl
      simpa [isDigit,minus] using hall minus (by simp [hc])
    · rw [bne_iff_ne]
      rintro rfl
      simpa [isDigit,point] using hall point hd
  have hs : atoi? ((if neg then [minus] else [])++digits m)=some (if neg then -(m : ℤ) else m) := by
    cases neg
    · simp only [Bool.false_eq_true,if_false,nil_append,decimal_digits,hm,if_true,
        atoi?_digits ⟨digits_ne_nil m,all_eq_true.mpr hall⟩]
    · simp only [if_true,singleton_append,atoi?,signed,minus,decimal_digits]
      rw [if_pos ⟨digits_ne_nil m,all_eq_true.mpr hall,by omega,by omega⟩]
  have hbefore : ∀d∈(if neg then [minus] else [])++digits m,(d != point)=true := by
    refine forall_mem_append.mpr ⟨?_,hother.2⟩
    cases neg <;> simp [minus,point]
  have hhead : ∀s,((if neg then [minus] else [])++digits m++s).head?=some minus ↔ neg=true := by
    intro s
    cases neg <;> simp [hc,hother.1]
  by_cases hzero : n=0
  · subst hzero
    simp only [ne_eq,not_true,if_false,append_nil,parsePAXTime,parts,dropWhile_eq_nil_iff.mpr
      hbefore,takeWhile_eq_self_iff.mpr hbefore,hs]
    cases neg <;> rfl
  · obtain ⟨hne,hdigits⟩ := trim_padded hzero
    have hnanos := atoi?_nine (all_eq_true.mp hdigits)
    rw [nine_trim hn,decimal_padded] at hnanos
    rw [if_pos hzero,parsePAXTime,parts,takeWhile_append_of_pos hbefore,
      dropWhile_append_of_pos hbefore]
    simp only [hhead,takeWhile_cons,dropWhile_cons,bne_self_eq_false,Bool.false_eq_true,if_false,
      append_nil,tail?_cons,hs,hne,hdigits,nine_trim hn,hnanos]
    cases neg <;> rfl

theorem magnitude_spec (h : -2^63<t.sec) : ∃m n : ℕ,magnitude t=(↑m,↑n) ∧ m<2^63 ∧ n<10^9 ∧
    t=if t.sec<0 then unix (-m) (-n) else unix m n := by
  have h₀ := t.nsec_lo
  have h₁ := t.nsec_hi
  have h₂ := t.sec_hi
  refine ⟨(magnitude t).1.toNat,(magnitude t).2.toNat,?_⟩
  unfold magnitude
  split_ifs
  all_goals
    try rw [wrap64_of_range (by omega) (by omega)]
    refine ⟨Prod.ext (by simp; omega) (by simp; omega),by simp; omega,by simp; omega,?_⟩
    ext <;> simp only [unix]
    · rw [wrap64_of_range] <;> omega
    · omega

end Coreutils.PaxTimes
