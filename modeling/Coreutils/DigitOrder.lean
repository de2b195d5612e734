import Coreutils.SortKeys
import Mathlib.Data.List.TakeWhile
import Mathlib.Tactic.FieldSimp
import Mathlib.Tactic.Positivity

/-!
# Digit strings compared by their values

Whole parts are compared by length and then byte by byte, fractions byte by byte with missing digits
zero; both compare the numbers denoted.
-/

namespace Coreutils.DigitOrder
open List GoText Comparators SortKeys

def Digits (ds : Bytes) : Prop := ∀d∈ds,isDigit d=true

variable {d : UInt8} {ds as bs : Bytes}

theorem Digits.tail (h : Digits (d::ds)) : Digits ds :=
  fun c hc => h c (by simp [hc])

theorem digits_takeWhile (s : Bytes) : Digits (s.takeWhile isDigit) :=
  fun _ hd => mem_takeWhile_imp hd

theorem digit_range (h : isDigit d=true) : 48≤d.toNat ∧ d.toNat≤57 := by
  simp only [isDigit,Bool.and_eq_true,decide_eq_true_eq] at h
  exact h

theorem foldl_decimal (ds : Bytes) (v : ℕ) :
    ds.foldl (fun v d => 10*v+(d.toNat-48)) v=v*10^ds.length+decimal ds := by
  induction ds generalizing v with
  | nil => simp [decimal]
  | cons d ds ih =>
    rw [decimal,foldl_cons,foldl_cons,ih,ih (10*0+_),length_cons]
    ring

theorem decimal_cons (d : UInt8) (ds : Bytes) :
    decimal (d::ds)=(d.toNat-48)*10^ds.length+decimal ds := by
  rw [decimal,foldl_cons,foldl_decimal]
  simp

theorem decimal_append (as bs : Bytes) : decimal (as++bs)=decimal as*10^bs.length+decimal bs := by
  rw [decimal,foldl_append,foldl_decimal]
  rfl

theorem decimal_lt (h : Digits ds) : decimal ds<10^ds.length := by
  induction ds with
  | nil => simp [decimal]
  | cons d ds ih =>
    have hd := digit_range (h d (by simp))
    have hrest := ih h.tail
    rw [decimal_cons,length_cons]
    have : (d.toNat-48)*10^ds.length≤9*10^ds.length :=
      Nat.mul_le_mul_right _ (by omega)
    omega

/-- Strings of one length compare as their values. -/
theorem compareBytes_decimal (ha : Digits as) (hb : Digits bs)
    (hlen : as.length=bs.length) : compareBytes as bs=order (decimal as) (decimal bs) := by
  induction as generalizing bs with
  | nil =>
    obtain rfl : bs=[] := length_eq_zero_iff.mp hlen.symm
    simp [compareBytes]
  | cons a as ih =>
    cases bs with
    | nil => simp at hlen
    | cons b bs =>
      have hlen' : as.length=bs.length := by simpa using hlen
      have hra := digit_range (ha a (by simp))
      have hrb := digit_range (hb b (by simp))
      have hla := decimal_lt ha.tail
      have hlb := decimal_lt hb.tail
      -- the heads decide, since the rest stays below one unit of the head
      have hlt : ∀x y p u v : ℕ,x<y→u<p→x*p+u<y*p+v := by
        intro x y p u v hxy hu
        have : (x+1)*p≤y*p := Nat.mul_le_mul_right p hxy
        rw [Nat.succ_mul] at this
        omega
      rw [compareBytes,decimal_cons,decimal_cons,←hlen']
      rw [←hlen'] at hlb
      split
      · rename_i h
        have h' := UInt8.lt_iff_toNat_lt.mp h
        exact (order_of_lt (hlt _ _ _ _ _ (by omega) hla)).symm
      split
      · rename_i h
        have h' := UInt8.lt_iff_toNat_lt.mp h
        exact (order_of_gt (hlt _ _ _ _ _ (by omega) hlb)).symm
      rename_i h₁ h₂
      have heq : a.toNat=b.toNat := by
        rw [UInt8.lt_iff_toNat_lt] at h₁ h₂
        omega
      have hmono : StrictMono fun x : ℕ => (b.toNat-48)*10^as.length+x :=
        fun _ _ h => by simpa using h
      rw [heq,ih ha.tail hb.tail hlen']
      exact (order_strictMono hmono _ _).symm

theorem le_decimal (h : Digits (d::ds)) (hd : d≠48) : 10^ds.length≤decimal (d::ds) := by
  have hr := digit_range (h d (by simp))
  have hne : d.toNat≠48 := fun h => hd (UInt8.toNat_inj.mp h)
  rw [decimal_cons]
  have : 1*10^ds.length≤(d.toNat-48)*10^ds.length := Nat.mul_le_mul_right _ (by omega)
  omega

/-- Without a leading zero, a longer string is larger. -/
theorem decimal_lt_of_length (ha : Digits as) (hb : Digits bs)
    (hhead : bs.head?≠some 48) (hlen : as.length<bs.length) : decimal as<decimal bs := by
  cases bs with
  | nil => simp at hlen
  | cons b bs =>
    have h₁ := decimal_lt ha
    have h₂ := le_decimal hb (by simpa using hhead)
    have h₃ : 10^as.length≤10^bs.length :=
      Nat.pow_le_pow_right (by norm_num) (by simpa using Nat.le_of_lt_succ hlen)
    omega

theorem cmpInt_eq (a b : ℤ) : cmpInt a b=order a b := rfl

/-- Whole parts without leading zeros, by length and then byte by byte. -/
theorem compareWhole (ha : Digits as) (hb : Digits bs)
    (hha : as.head?≠some 48) (hhb : bs.head?≠some 48) :
    orElse (cmpInt as.length bs.length) (compareBytes as bs)=order (decimal as) (decimal bs) := by
  rw [cmpInt_eq]
  rcases lt_trichotomy as.length bs.length with h | h | h
  · rw [order_of_lt (by exact_mod_cast h),orElse_of_ne (by decide),
      order_of_lt (decimal_lt_of_length ha hb hhb h)]
  · rw [h,order_self,orElse_zero_left,compareBytes_decimal ha hb h]
  · rw [order_of_gt (by exact_mod_cast h),orElse_of_ne (by decide),
      order_of_gt (decimal_lt_of_length hb ha hha h)]

theorem decimal_trimZeros (ds : Bytes) : decimal (trimZeros ds)=decimal ds := by
  induction ds with
  | nil => rfl
  | cons d ds ih =>
    rw [trimZeros,dropWhile_cons]
    split_ifs with h
    · obtain rfl : d=48 := by simpa using h
      rw [decimal_cons,←ih]
      simp [trimZeros]
    · rfl

theorem head_trimZeros (ds : Bytes) : (trimZeros ds).head?≠some 48 := by
  intro h
  have := head?_dropWhile_not (fun d : UInt8 => d == 48) ds
  rw [show ds.dropWhile (fun d : UInt8 => d == 48)=trimZeros ds from rfl,h] at this
  simp at this

theorem Digits.trimZeros (h : Digits ds) : Digits (trimZeros ds) :=
  fun d hd => h d ((dropWhile_suffix _).subset hd)

def frac (ds : Bytes) : ℚ := decimal ds/10^ds.length

@[simp] theorem frac_nil : frac []=0 := by simp [frac,decimal]

theorem frac_cons (d : UInt8) (ds : Bytes) : frac (d::ds)=(((d.toNat-48 : ℕ) : ℚ)+frac ds)/10 := by
  rw [frac,frac,decimal_cons,length_cons]
  push_cast
  field_simp
  ring

theorem frac_nonneg (ds : Bytes) : 0≤frac ds := by
  unfold frac
  positivity

theorem frac_lt_one (h : Digits ds) : frac ds<1 := by
  rw [frac,div_lt_one (by positivity)]
  exact_mod_cast decimal_lt h

theorem frac_pos (h : isDigit d=true) (hd : d≠48) : 0<frac (d::ds) := by
  have hr := digit_range h
  have hne : d.toNat≠48 := fun h => hd (UInt8.toNat_inj.mp h)
  have hpos : (0 : ℚ)<((d.toNat-48 : ℕ) : ℚ) := by exact_mod_cast (by omega : 0<d.toNat-48)
  rw [frac_cons]
  have := frac_nonneg ds
  positivity

/-- The map that puts a digit before a fraction keeps its order. -/
theorem strictMono_digit (k : ℚ) : StrictMono fun x : ℚ => (k+x)/10 :=
  fun _ _ h => div_lt_div_of_pos_right (by linarith) (by norm_num)

theorem frac_zero_cons (ds : Bytes) : frac (48::ds)=(0+frac ds)/10 := by simpa using frac_cons 48 ds

theorem compareFraction_eq (ha : Digits as) (hb : Digits bs) :
    compareFraction as bs=order (frac as) (frac bs) := by
  fun_induction compareFraction as bs with
  | case1 => simp
  | case2 b bs h => exact (order_of_lt (by simpa using frac_pos (hb b (by simp)) h)).symm
  | case3 b bs h ih =>
    obtain rfl : b=48 := by simpa using h
    rw [ih ha hb.tail,frac_zero_cons,←order_strictMono (strictMono_digit 0) (frac [])]
    simp
  | case4 a as h => exact (order_of_gt (by simpa using frac_pos (ha a (by simp)) h)).symm
  | case5 a as h ih =>
    obtain rfl : a=48 := by simpa using h
    rw [ih ha.tail hb,frac_zero_cons,←order_strictMono (strictMono_digit 0) (frac as)]
    simp
  | case6 a as b bs h hlt =>
    refine (order_of_lt ?_).symm
    have hra := digit_range (ha a (by simp))
    have hlt' := UInt8.lt_iff_toNat_lt.mp hlt
    have h₁ := frac_lt_one ha.tail
    have h₂ := frac_nonneg bs
    have h₃ : ((a.toNat-48 : ℕ) : ℚ)+1≤((b.toNat-48 : ℕ) : ℚ) := by
      exact_mod_cast (by omega : a.toNat-48+1≤b.toNat-48)
    rw [frac_cons,frac_cons]
    exact div_lt_div_of_pos_right (by linarith) (by norm_num)
  | case7 a as b bs h hlt =>
    refine (order_of_gt ?_).symm
    have hrb := digit_range (hb b (by simp))
    have hne : a.toNat≠b.toNat := fun h' => h (UInt8.toNat_inj.mp h')
    rw [UInt8.lt_iff_toNat_lt] at hlt
    have h₁ := frac_lt_one hb.tail
    have h₂ := frac_nonneg as
    have h₃ : ((b.toNat-48 : ℕ) : ℚ)+1≤((a.toNat-48 : ℕ) : ℚ) := by
      exact_mod_cast (by omega : b.toNat-48+1≤a.toNat-48)
    rw [frac_cons,frac_cons]
    exact div_lt_div_of_pos_right (by linarith) (by norm_num)
  | case8 a as b bs h ih =>
    obtain rfl : a=b := by simpa using h
    rw [ih ha.tail hb.tail,frac_cons,frac_cons]
    exact (order_strictMono (strictMono_digit _) _ _).symm

theorem frac_concat_zero (ds : Bytes) : frac (ds++[48])=frac ds := by
  rw [frac,frac,decimal_append]
  have h : decimal [48]=0 := rfl
  rw [h]
  simp
  ring

theorem frac_trimZerosRight (ds : Bytes) : frac (trimZerosRight ds)=frac ds := by
  induction ds using reverseRecOn with
  | nil => rfl
  | append_singleton ds d ih =>
    by_cases h : d=48
    · subst h
      rw [frac_concat_zero,←ih]
      simp [trimZerosRight,trimZeros]
    · simp [trimZerosRight,trimZeros,h]

theorem Digits.trimZerosRight (h : Digits ds) : Digits (trimZerosRight ds) := by
  intro d hd
  rw [SortKeys.trimZerosRight,mem_reverse] at hd
  exact h d (by simpa using (dropWhile_suffix _).subset hd)

end Coreutils.DigitOrder
