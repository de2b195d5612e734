import Coreutils.DigitOrder

/-!
# sort compares values

Each comparator of a key compares values in a linear order, and these are the documented ones but
for two kinds of keys: a month key goes on to compare the texts of one month, and a human key gives
a zero the unit of its suffix.
-/

namespace Coreutils.SortOrder
open List GoText Comparators SortKeys DigitOrder

def magnitude (ip fp : Bytes) : ℚ := decimal ip+frac fp

/-- The number at the head of a text: an optional minus, digits, and digits after a point. -/
def leadingNumber (s : Bytes) : ℚ :=
  let t := if s.head?=some 45 then s.tail else s
  let m := magnitude (t.takeWhile isDigit) (fractionPart (t.dropWhile isDigit))
  if s.head?=some 45 then -m else m

/-- The value of an `n` key: the exact number its numeric prefix denotes. -/
def numValue (s : Bytes) : ℚ := leadingNumber (trimBlanks s)

variable (g : Bytes→Bytes→ℤ) (s : Bytes) {ds ia fa ib fb a b line : Bytes}
  {c : KeyOpts→Bytes→Bytes→ℤ} {o : KeyOpts} {k : KeySpec} {ks : List KeySpec}

theorem digits_fractionPart : Digits (fractionPart s) := by
  unfold fractionPart
  split
  · exact digits_takeWhile _
  · exact fun _ h => by simp at h

theorem magnitude_nonneg (ip fp : Bytes) : 0 ≤ magnitude ip fp :=
  add_nonneg (by positivity) (frac_nonneg fp)

theorem decimal_eq_zero (h : Digits ds) (hhead : ds.head?≠some 48) (hz : decimal ds=0) : ds=[] := by
  cases ds with
  | nil => rfl
  | cons d ds =>
    have hle := le_decimal h (by simpa using hhead)
    have : 0<10^ds.length := by positivity
    omega

theorem frac_eq_zero (h : Digits ds) (hlast : ds.getLast?≠some 48) (hz : frac ds=0) : ds=[] := by
  induction ds using reverseRecOn with
  | nil => rfl
  | append_singleton ds d _ =>
    have hd : d≠48 := by simpa using hlast
    have hr := digit_range (h d (by simp))
    have hne : d.toNat≠48 := fun h => hd (UInt8.toNat_inj.mp h)
    have hzero : decimal (ds++[d])=0 := by
      have hpow : (10 : ℚ)^(ds++[d]).length≠0 := by positivity
      rw [frac,div_eq_zero_iff,or_iff_left hpow] at hz
      exact_mod_cast hz
    rw [decimal_append,decimal_cons] at hzero
    simp at hzero
    omega

theorem getLast_trimZerosRight (ds : Bytes) : (trimZerosRight ds).getLast?≠some 48 := by
  rw [trimZerosRight,getLast?_reverse]
  exact head_trimZeros _

/-- A number as it is read: the sign, and trimmed digits of the magnitude. -/
structure Parts (v : ℚ) (sg : ℤ) (ip fp : Bytes) : Prop where
  whole : Digits ip
  whole_head : ip.head?≠some 48
  fraction : Digits fp
  sign : sg=0 ∨ sg=1 ∨ sg = -1
  value : v=sg*magnitude ip fp
  zero : sg=0 ↔ magnitude ip fp=0

theorem parts_trimmed (neg : Prop) [Decidable neg] {ip fp : Bytes} (hw : Digits ip)
    (hwh : ip.head?≠some 48) (hf : Digits fp) (hfl : fp.getLast?≠some 48) : ∃sg ip' fp',
      (if ip=[] ∧ fp=[] then (0,[],[]) else (if neg then -1 else 1,ip,fp))=((sg : ℤ),ip',fp') ∧
      Parts (if neg then -magnitude ip fp else magnitude ip fp) sg ip' fp' := by
  split
  · rename_i hnil
    obtain ⟨rfl,rfl⟩ := hnil
    have hm : magnitude [] []=0 := by simp [magnitude,decimal]
    exact ⟨0,[],[],rfl,hw,hwh,hf,.inl rfl,by simp [hm],by simp [hm]⟩
  · rename_i hne
    refine ⟨_,ip,fp,rfl,hw,hwh,hf,?_,?_,?_⟩
    · split <;> simp
    · split <;> simp
    have hsg : (if neg then (-1 : ℤ) else 1)≠0 := by split <;> decide
    have hm : magnitude ip fp≠0 := by
      intro hz
      have h₂ := frac_nonneg fp
      rw [magnitude] at hz
      have h₃ : (decimal ip : ℚ)=0 := by linarith
      have h₄ : frac fp=0 := by linarith
      exact hne ⟨decimal_eq_zero hw hwh (by exact_mod_cast h₃),frac_eq_zero hf hfl h₄⟩
    simp [hsg,hm]

theorem parseNumParts_spec : ∃sg ip fp,
    parseNumParts s=(sg,ip,fp) ∧ Parts (numValue s) sg ip fp := by
  have hval : numValue s=
      let t := if (trimBlanks s).head?=some 45 then (trimBlanks s).tail else trimBlanks s
      let m := magnitude (trimZeros (t.takeWhile isDigit))
        (trimZerosRight (fractionPart (t.dropWhile isDigit)))
      if (trimBlanks s).head?=some 45 then -m else m := by
    simp only [magnitude,decimal_trimZeros,frac_trimZerosRight]
    rfl
  rw [hval]
  exact parts_trimmed _ (digits_takeWhile _).trimZeros (head_trimZeros _)
    (digits_fractionPart _).trimZerosRight (getLast_trimZerosRight _)

/-- Magnitudes compare by their whole parts, then by their fractions. -/
theorem magCompare_eq (ha : Digits ia) (hfa : Digits fa) (hb : Digits ib)
    (hfb : Digits fb) (hha : ia.head?≠some 48) (hhb : ib.head?≠some 48) :
    magCompare ia fa ib fb=order (magnitude ia fa) (magnitude ib fb) := by
  have hcode : magCompare ia fa ib fb =
      orElse (orElse (cmpInt ia.length ib.length) (compareBytes ia ib))
        (compareFraction fa fb) := by
    unfold magCompare orElse
    split_ifs <;> simp_all
  rw [hcode,compareWhole ha hb hha hhb,compareFraction_eq hfa hfb,magnitude,magnitude]
  have h₁ := frac_nonneg fa
  have h₂ := frac_nonneg fb
  have h₃ := frac_lt_one hfa
  have h₄ := frac_lt_one hfb
  rcases lt_trichotomy (decimal ia) (decimal ib) with h | h | h
  · have hle : (decimal ia : ℚ)+1≤decimal ib := by exact_mod_cast h
    rw [order_of_lt h,orElse_of_ne (by decide),order_of_lt (by linarith)]
  · have hmono : StrictMono fun x : ℚ => (decimal ib : ℚ)+x := fun _ _ h => by simpa using h
    rw [h,order_self]
    exact (order_strictMono hmono _ _).symm
  · have hle : (decimal ib : ℚ)+1≤decimal ia := by exact_mod_cast h
    rw [order_of_gt h,orElse_of_ne (by decide),order_of_gt (by linarith)]

/-- A smaller sign makes a smaller number, whatever the magnitudes. -/
theorem Parts.lt_of_sign {v w : ℚ} {sa sb : ℤ} (ha : Parts v sa ia fa)
    (hb : Parts w sb ib fb) (h : sa<sb) : v<w := by
  have h₁ := magnitude_nonneg ia fa
  have h₂ := magnitude_nonneg ib fb
  have hposa : sa≠0→0 < magnitude ia fa := fun h => lt_of_le_of_ne h₁ (Ne.symm (mt ha.zero.mpr h))
  have hposb : sb≠0→0 < magnitude ib fb := fun h => lt_of_le_of_ne h₂ (Ne.symm (mt hb.zero.mpr h))
  rw [ha.value,hb.value]
  rcases hb.sign with rfl | rfl | rfl
  · obtain rfl : sa = -1 := by rcases ha.sign with rfl | rfl | rfl <;> omega
    push_cast
    linarith [hposa (by decide)]
  · have hpos := hposb (by decide)
    rcases ha.sign with rfl | rfl | rfl
    · push_cast
      linarith
    · omega
    · push_cast
      linarith
  · rcases ha.sign with rfl | rfl | rfl <;> omega

theorem Parts.compare {v w : ℚ} {sa sb : ℤ} (ha : Parts v sa ia fa) (hb : Parts w sb ib fb) :
    (if sa≠sb then cmpInt sa sb
      else if sa<0 then -magCompare ia fa ib fb else magCompare ia fa ib fb)=order v w := by
  have hmag := magCompare_eq ha.whole ha.fraction hb.whole hb.fraction ha.whole_head hb.whole_head
  simp only [hmag,cmpInt_eq]
  rcases lt_trichotomy sa sb with h | rfl | h
  · rw [if_pos h.ne,order_of_lt h,order_of_lt (ha.lt_of_sign hb h)]
  · rw [if_neg (not_not.mpr rfl),ha.value,hb.value]
    rcases ha.sign with rfl | rfl | rfl
    · have hz : magnitude ia fa=magnitude ib fb := by rw [ha.zero.mp rfl,hb.zero.mp rfl]
      simp [hz]
    · simp
    · rw [neg_order]
      simp [order]
  · rw [if_pos h.ne',order_of_gt h,order_of_gt (hb.lt_of_sign ha h)]

/-- `numCompare` compares exact values. -/
theorem numCompare_eq (a b : Bytes) : numCompare a b=order (numValue a) (numValue b) := by
  obtain ⟨sa,ia,fa,hpa,ha⟩ := parseNumParts_spec a
  obtain ⟨sb,ib,fb,hpb,hb⟩ := parseNumParts_spec b
  rw [numCompare,hpa,hpb]
  exact ha.compare hb

def bytesValue (s : Bytes) : List ℕ := s.map UInt8.toNat

theorem compareBytes_eq (a b : Bytes) : compareBytes a b=order (bytesValue a) (bytesValue b) := by
  induction a generalizing b with
  | nil =>
    cases b with
    | nil => simp [compareBytes]
    | cons b bs => exact (order_nil_cons _ _).symm
  | cons a as ih =>
    cases b with
    | nil => exact (order_cons_nil _ _).symm
    | cons b bs =>
      have hcons : ∀c s,bytesValue (c::s)=c.toNat::bytesValue s := fun _ _ => rfl
      rw [hcons,hcons,order_cons,←ih,compareBytes]
      simp only [UInt8.lt_iff_toNat_lt]
      exact ite_order _

/-- The value of a text key: its bytes, filtered by `-d` and `-i` and folded by `-f`. -/
def textValue (o : KeyOpts) (s : Bytes) : List ℕ := bytesValue (normalizeTextKey s o)

theorem textKeyCompare_eq (o : KeyOpts) (a b : Bytes) :
    textKeyCompare a b o=order (textValue o a) (textValue o b) := by
  unfold textKeyCompare
  split_ifs with h
  · exact compareBytes_eq _ _
  simp only [Bool.or_eq_true,not_or] at h
  have hid : ∀s,normalizeTextKey s o=s := by
    intro s
    simp [normalizeTextKey,h]
  rw [textValue,textValue,hid,hid,compareBytes_eq]

/-- The elements of a version: a byte that is no digit, or a run of digits as a number. Runs stand
where digits stand among the bytes. -/
def versionElements : ℕ→Bytes→List (ℕ ×ₗ ℕ)
  | _,[] | 0,_::_ => []
  | fuel+1,c::s =>
    if isDigit c then
      toLex (48,decimal ((c::s).takeWhile isDigit)) ::
        versionElements fuel ((c::s).dropWhile isDigit)
    else toLex (c.toNat,0)::versionElements fuel s

def versionValue (s : Bytes) : List (ℕ ×ₗ ℕ) := versionElements s.length (trimBlanks s)

/-- Two runs of digits compare by their numbers. -/
theorem compareRuns_eq {as bs : Bytes} (ha : Digits as) (hb : Digits bs) (rest : ℤ) :
    (if (trimZeros as).length<(trimZeros bs).length then -1
      else if (trimZeros as).length>(trimZeros bs).length then 1
      else if compareBytes (trimZeros as) (trimZeros bs)≠0 then
        compareBytes (trimZeros as) (trimZeros bs)
      else rest)=orElse (order (decimal as) (decimal bs)) rest := by
  rw [←decimal_trimZeros as,←decimal_trimZeros bs,
    ← compareWhole ha.trimZeros hb.trimZeros (head_trimZeros as) (head_trimZeros bs),cmpInt_eq,
    order_strictMono Nat.strictMono_cast,orElse_assoc]
  exact ite_order _

/-- A byte that is no digit compares with a digit as it does with any other. -/
theorem order_digit {a b : UInt8} (ha : isDigit a=true) (hb : isDigit b=false) :
    order 48 b.toNat=order a.toNat b.toNat := by
  have hr := digit_range ha
  have hn : b.toNat<48 ∨ 57<b.toNat := by
    by_contra hcon
    rw [Bool.eq_false_iff] at hb
    apply hb
    simp only [isDigit,Bool.and_eq_true,UInt8.le_iff_toNat_le]
    exact ⟨by simp; omega,by simp; omega⟩
  rcases hn with h | h
  · rw [order_of_gt h,order_of_gt (by omega)]
  · rw [order_of_lt (by omega),order_of_lt (by omega)]

/-- Elements that start with different bytes compare as the bytes do. -/
theorem order_unlike {a b : UInt8} (h : a≠b) {x y : ℕ} (hxy : order x y=order a.toNat b.toNat)
    (u v : ℕ) (xs ys : List (ℕ ×ₗ ℕ)) : (if a<b then -1 else 1)=order (toLex (x,u)::xs)
      (toLex (y,v)::ys) := by
  have hne : a.toNat≠b.toNat := fun h' => h (UInt8.toNat_inj.mp h')
  have hord := mt order_eq_zero.mp hne
  rw [order_cons,order_toLex,hxy,orElse_of_ne hord,orElse_of_ne hord,order]
  simp only [UInt8.lt_iff_toNat_lt]
  split_ifs <;> omega

theorem filevercmp_nil {b : Bytes} {n : ℕ} (fuel m : ℕ) (hn : b.length≤n) :
    filevercmp fuel [] b=order (versionElements m []) (versionElements n b) := by
  cases b with
  | nil => cases m <;> cases n <;> simp [filevercmp,versionElements]
  | cons b bs =>
    obtain ⟨n,rfl⟩ := Nat.exists_eq_add_of_le' (by simp at hn; omega : 1≤n)
    cases m <;> rw [filevercmp,versionElements,versionElements] <;> split <;>
      exact (order_nil_cons _ _).symm

theorem length_dropRun {c : UInt8} {s : Bytes} (h : isDigit c=true) :
    ((c::s).dropWhile isDigit).length ≤ s.length := by
  rw [dropWhile_cons,if_pos h]
  exact (dropWhile_suffix _).length_le

/-- `filevercmp` compares the elements of the two versions. -/
theorem filevercmp_eq {fuel m n : ℕ} (hf : a.length≤fuel) (hm : a.length ≤ m) (hn : b.length≤n) :
    filevercmp fuel a b=order (versionElements m a) (versionElements n b) := by
  induction fuel generalizing a b m n with
  | zero =>
    obtain rfl : a=[] := length_eq_zero_iff.mp (by omega)
    exact filevercmp_nil 0 m hn
  | succ fuel ih =>
    cases a with
    | nil => exact filevercmp_nil _ m hn
    | cons a as =>
      obtain ⟨m,rfl⟩ := Nat.exists_eq_add_of_le' (by simp at hm; omega : 1 ≤ m)
      simp only [length_cons] at hf hm
      cases b with
      | nil =>
        cases n <;> rw [versionElements,versionElements] <;> split <;>
          exact (order_cons_nil _ _).symm
      | cons b bs =>
        obtain ⟨n,rfl⟩ := Nat.exists_eq_add_of_le' (by simp at hn; omega : 1≤n)
        simp only [length_cons] at hn
        rw [filevercmp,versionElements,versionElements]
        cases hda : isDigit a with
        | true =>
          cases hdb : isDigit b with
          | true =>
            have hla := length_dropRun (s := as) hda
            have hlb := length_dropRun (s := bs) hdb
            simp only [Bool.and_self,if_true]
            rw [compareRuns_eq (digits_takeWhile _) (digits_takeWhile _),order_cons,order_toLex,
              order_self,orElse_zero_left,ih (by omega) (by omega : _ ≤ m) (by omega : _≤n)]
          | false =>
            have hab : a≠b := by
              rintro rfl
              simp [hda] at hdb
            rw [if_pos hab]
            exact order_unlike hab (order_digit hda hdb) _ _ _ _
        | false =>
          cases hdb : isDigit b with
          | true =>
            have hab : a≠b := by
              rintro rfl
              simp [hdb] at hda
            rw [if_pos hab]
            refine order_unlike hab ?_ _ _ _ _
            rw [←neg_order 48,order_digit hdb hda,neg_order]
          | false =>
            simp only [Bool.and_self,Bool.false_eq_true,if_false]
            by_cases hab : a=b
            · rw [if_neg (not_not.mpr hab),hab,order_cons,order_self,orElse_zero_left,
                ih (by omega) (by omega : _ ≤ m) (by omega : _≤n)]
            · rw [if_pos hab]
              exact order_unlike hab rfl _ _ _ _

theorem length_trimBlanks : (trimBlanks s).length ≤ s.length :=
  (dropWhile_suffix _).length_le

theorem versionCompare_eq (a b : Bytes) :
    versionCompare a b=order (versionValue a) (versionValue b) :=
  filevercmp_eq (length_trimBlanks a) (length_trimBlanks a) (length_trimBlanks b)

def suffixUnit (s : Bytes) : ℤ := unitOrder (trimBlanks s)

/-- The unit of an `h` key: that of its suffix, but none for a zero. -/
def humanUnit (s : Bytes) : ℤ := if numValue s=0 then 0 else suffixUnit s

theorem trimBlanks_trimBlanks : trimBlanks (trimBlanks s)=trimBlanks s := by
  unfold trimBlanks
  induction s with
  | nil => rfl
  | cons c s ih =>
    rw [dropWhile_cons]
    split_ifs with h
    · exact ih
    · rw [dropWhile_cons,if_neg h]

theorem humanCompare_eq (a b : Bytes) :
    humanCompare a b=order (toLex (suffixUnit a,numValue a)) (toLex (suffixUnit b,numValue b)) := by
  rw [order_toLex,humanCompare]
  simp only [numCompare_eq,numValue,trimBlanks_trimBlanks]
  rfl

theorem siOrder_nonneg (c : UInt8) : 0 ≤ siOrder c := by
  unfold siOrder
  split_ifs <;> omega

theorem suffix_nonneg : 0≤((afterNumber s).head?.map siOrder).getD 0 := by
  cases (afterNumber s).head? with
  | none => exact le_rfl
  | some c => exact siOrder_nonneg c

/-- A suffix carries the sign of its number. -/
theorem suffixUnit_sign : (0<numValue s→0 ≤ suffixUnit s) ∧ (numValue s<0→suffixUnit s≤0) := by
  have hunit := suffix_nonneg (trimBlanks s)
  unfold numValue leadingNumber suffixUnit unitOrder
  simp only
  split
  · refine ⟨fun h => absurd h ?_,fun _ => by omega⟩
    exact not_lt.mpr (neg_nonpos.mpr (magnitude_nonneg _ _))
  · exact ⟨fun _ => hunit,fun h => absurd h (not_lt.mpr (magnitude_nonneg _ _))⟩

/-- Where one of two numbers is zero, their units are in the order of the numbers. -/
def UnitsFollow (a b : Bytes) : Prop :=
  numValue a=0 ∨ numValue b=0→
    (numValue a<numValue b→suffixUnit a ≤ suffixUnit b) ∧
    (numValue b<numValue a→suffixUnit b ≤ suffixUnit a) ∧
    (numValue a=numValue b→suffixUnit a=suffixUnit b)

theorem order_lex_lt {u v : ℤ} {x y : ℚ} (h : x<y) :
    order (toLex (u,x)) (toLex (v,y)) = -1 ↔ u≤v := by
  rw [order_toLex,order_of_lt h]
  rcases lt_trichotomy u v with hlt | rfl | hgt
  · simp [order_of_lt hlt,orElse,hlt.le]
  · simp
  · simp [order_of_gt hgt,orElse,hgt]

/-- Leaving the suffix of a zero out changes no verdict between numbers whose units follow. -/
theorem human_order_iff (a b : Bytes) :
    order (toLex (suffixUnit a,numValue a)) (toLex (suffixUnit b,numValue b)) =
      order (toLex (humanUnit a,numValue a)) (toLex (humanUnit b,numValue b)) ↔
        UnitsFollow a b := by
  -- with a zero on one side the documented verdict is the order of the numbers
  have hzero : ∀s t : Bytes,numValue s=0 ∨ numValue t=0→numValue s<numValue t→
      (order (toLex (suffixUnit s,numValue s)) (toLex (suffixUnit t,numValue t)) =
        order (toLex (humanUnit s,numValue s)) (toLex (humanUnit t,numValue t)) ↔
      suffixUnit s ≤ suffixUnit t) := by
    intro s t hz hlt
    have hunits : humanUnit s≤humanUnit t := by
      unfold humanUnit
      rcases hz with h | h
      · rw [if_pos h,if_neg (h ▸ hlt).ne']
        exact (suffixUnit_sign t).1 (h ▸ hlt)
      · rw [if_neg (h ▸ hlt).ne,if_pos h]
        exact (suffixUnit_sign s).2 (h ▸ hlt)
    rw [(order_lex_lt hlt).mpr hunits,order_lex_lt hlt]
  unfold UnitsFollow
  by_cases hz : numValue a=0 ∨ numValue b=0
  · simp only [hz]
    rcases lt_trichotomy (numValue a) (numValue b) with h | h | h
    · simp [hzero a b hz h,h,h.not_gt,h.ne]
    · have ha : numValue a=0 := hz.elim id fun hb => h.trans hb
      have hb : numValue b=0 := h ▸ ha
      simp [humanUnit,ha,hb,order_eq_zero]
    · rw [←neg_order (toLex (suffixUnit b,_)),←neg_order (toLex (humanUnit b,_)),neg_inj,
        hzero b a hz.symm h]
      simp [h,h.not_gt,h.ne']
  · rw [not_or] at hz
    simp [humanUnit,hz.1,hz.2]

theorem monthCompare_eq (a b : Bytes) :
    monthCompare a b=orElse (order (monthIndex a) (monthIndex b))
      (order (bytesValue (trimBlanks a)) (bytesValue (trimBlanks b))) := by
  rw [←compareBytes_eq]
  rfl

def documentedKey (g : Bytes→Bytes→ℤ) (o : KeyOpts) (a b : Bytes) : ℤ :=
  match o.kind with
  | .random => 0
  | .generalNum => g a b
  | .numeric => order (numValue a) (numValue b)
  | .human => order (toLex (humanUnit a,numValue a)) (toLex (humanUnit b,numValue b))
  | .month => order (monthIndex a) (monthIndex b)
  | .version => order (versionValue a) (versionValue b)
  | .text => order (textValue o a) (textValue o b)

/-- The texts on which a key compares as documented: two of one month do not differ, and the suffix
of a zero agrees with its value. -/
def Faithful (o : KeyOpts) (a b : Bytes) : Prop :=
  match o.kind with
  | .month => monthIndex a≠monthIndex b ∨ bytesValue (trimBlanks a)=bytesValue (trimBlanks b)
  | .human => UnitsFollow a b
  | _ => True

/-- The verdict of a key where it does not compare as documented. -/
def strayVerdict (o : KeyOpts) (a b : Bytes) : ℤ :=
  match o.kind with
  | .month => order (bytesValue (trimBlanks a)) (bytesValue (trimBlanks b))
  | .human => order (toLex (suffixUnit a,numValue a)) (toLex (suffixUnit b,numValue b))
  | _ => 0

theorem keyCompare_of_faithful (h : Faithful o a b) : keyCompare g o a b=documentedKey g o a b := by
  unfold keyCompare documentedKey
  unfold Faithful at h
  cases hk : o.kind with
  | random | generalNum => rfl
  | numeric => exact numCompare_eq a b
  | human =>
    rw [hk] at h
    exact (humanCompare_eq a b).trans ((human_order_iff a b).mpr h)
  | month =>
    rw [hk] at h
    rw [monthCompare_eq]
    rcases h with h | h
    · exact orElse_of_ne (mt order_eq_zero.mp h) _
    · by_cases hi : monthIndex a=monthIndex b
      · rw [hi,h,order_self,order_self,orElse_zero_left]
      · exact orElse_of_ne (mt order_eq_zero.mp hi) _
  | version => exact versionCompare_eq a b
  | text => exact textKeyCompare_eq o a b

theorem keyCompare_of_not_faithful
    (h : ¬ Faithful o a b) : keyCompare g o a b=strayVerdict o a b ∧ strayVerdict o a b≠0 := by
  unfold keyCompare strayVerdict
  unfold Faithful at h
  cases hk : o.kind with
  | month =>
    rw [hk] at h
    simp only [not_or,not_not] at h
    rw [monthCompare_eq,h.1,order_self]
    exact ⟨rfl,mt order_eq_zero.mp h.2⟩
  | human =>
    rw [hk] at h
    simp only at h ⊢
    refine ⟨humanCompare_eq a b,fun hz => h ((human_order_iff a b).mp ?_)⟩
    have heq := toLex_inj.mp (order_eq_zero.mp hz)
    simp only [Prod.mk.injEq] at heq
    rw [hz,humanUnit,humanUnit,heq.1,heq.2,order_self]
  | _ =>
    rw [hk] at h
    exact absurd trivial h

theorem ranked_keyCompare (hg : o.generalNum=false) : Ranked (keyCompare g o) := by
  unfold keyCompare
  cases hk : o.kind with
  | random => exact ranked_zero
  | generalNum =>
    unfold KeyOpts.kind at hk
    simp only [hg,Bool.false_eq_true,if_false] at hk
    split_ifs at hk
  | numeric => simpa only [numCompare_eq] using ranked_order numValue
  | human =>
    simpa only [humanCompare_eq] using ranked_order fun s => toLex (suffixUnit s,numValue s)
  | month =>
    simp only [monthCompare_eq]
    exact (ranked_order monthIndex).orElse (ranked_order fun s => bytesValue (trimBlanks s))
  | version => simpa only [versionCompare_eq] using ranked_order versionValue
  | text => simpa only [textKeyCompare_eq] using ranked_order (textValue o)

def keyText (k : KeySpec) (tab : Option UInt8) (line : Bytes) : Bytes :=
  (extractKey line k tab).getD []

/-- The lines whose key `k` is cut within the line. -/
def Extracts (k : KeySpec) (tab : Option UInt8) (line : Bytes) : Prop :=
  (extractKey line k tab).isSome

theorem extractKey_eq {tab : Option UInt8} (h : Extracts k tab line) :
    extractKey line k tab=some (keyText k tab line) := by
  obtain ⟨t,ht⟩ := Option.isSome_iff_exists.mp h
  rw [keyText,ht]
  rfl

theorem length_skipWords (tab : Option UInt8) (n : ℕ) (s : Bytes) :
    (skipWords tab n s).length ≤ s.length := by
  induction n generalizing s with
  | zero => simp [skipWords]
  | succ n ih =>
    cases tab with
    | none =>
      rw [skipWords]
      split
      · simp
      · exact (ih _).trans (((dropWhile_suffix _).trans (dropWhile_suffix _)).length_le)
    | some tab =>
      rw [skipWords]
      split
      · simp
      · refine (ih _).trans ?_
        rw [skipTabField,if_neg (by decide),length_tail]
        exact (Nat.sub_le _ _).trans (dropWhile_suffix _).length_le

theorem begfield_nonneg (h₀ : 0≤k.schar) (tab : Option UInt8)
    (h : line.length+k.schar<2^63) : 0≤begfield line k tab := by
  have hbeg : ∀s : Bytes,s.length≤line.length→
      0 ≤ min (wrap64 (line.length-s.length+k.schar)) line.length := by
    intro s hs
    rw [wrap64_of_range (by omega) (by omega)]
    omega
  have hskip := length_skipWords tab k.sword.toNat line
  unfold begfield
  split
  · exact hbeg _ ((dropWhile_suffix _).length_le.trans hskip)
  · exact hbeg _ hskip

/-- A start position that does not wrap is cut within every line. -/
theorem extracts_of_lt (h₀ : 0≤k.schar) (tab : Option UInt8)
    (h : line.length+k.schar<2^63) : Extracts k tab line := by
  have hbeg := begfield_nonneg h₀ tab h
  unfold Extracts extractKey
  simp only
  split_ifs <;> first | rfl | omega

def flip (k : KeySpec) (d : ℤ) : ℤ := if k.opts.reverse then -d else d

theorem flip_ne_zero (k : KeySpec) (d : ℤ) : flip k d≠0 ↔ d≠0 := by
  unfold flip
  split <;> simp

theorem flip_zero (k : KeySpec) : flip k 0=0 := by simp [flip]

theorem sign_flip (k : KeySpec) (d : ℤ) : (flip k d).sign=flip k d.sign := by
  unfold flip
  split
  · exact Int.sign_neg d
  · rfl

def lastResort (s : Sorter) (a b : Bytes) : ℤ :=
  if s.keys≠[] ∧ (s.stable ∨ s.unique) then 0
  else if s.reverse then -order (bytesValue a) (bytesValue b)
  else order (bytesValue a) (bytesValue b)

/-- A comparison by the keys `ks` in order, and then by the last resort. -/
def byKeys (c : KeyOpts→Bytes→Bytes→ℤ) (s : Sorter) (a b : Bytes) : List KeySpec→ℤ
  | [] => lastResort s a b
  | k::ks =>
    orElse (flip k (c k.opts (keyText k s.tab a) (keyText k s.tab b))) (byKeys c s a b ks)

/-- The documented comparison of two lines: the lexicographic comparison of their keys' values. -/
def documented (g : Bytes→Bytes→ℤ) (s : Sorter) (a b : Bytes) : ℤ :=
  byKeys (documentedKey g) s a b s.keys

/-- The keys that are reached are cut within both lines and compare as documented, or the first that
does not happens to give the documented verdict from it on. -/
def Sound (g : Bytes→Bytes→ℤ) (s : Sorter) (a b : Bytes) : List KeySpec→Prop
  | [] => True
  | k::ks =>
    Extracts k s.tab a ∧ Extracts k s.tab b ∧
    ((Faithful k.opts (keyText k s.tab a) (keyText k s.tab b) ∧
        (documentedKey g k.opts (keyText k s.tab a) (keyText k s.tab b)=0→Sound g s a b ks)) ∨
      (¬ Faithful k.opts (keyText k s.tab a) (keyText k s.tab b) ∧
        flip k (strayVerdict k.opts (keyText k s.tab a) (keyText k s.tab b)) =
          byKeys (documentedKey g) s a b (k::ks)))

def verdict (g : Bytes→Bytes→ℤ) (s : Sorter) (a b : Bytes) (ks : List KeySpec) : Option ℤ :=
  (compareKeys g s.tab a b ks).map fun d => orElse d (lastResort s a b)

theorem verdict_cons (s : Sorter)
    (ks : List KeySpec) (ha : Extracts k s.tab a) (hb : Extracts k s.tab b) :
    verdict g s a b (k::ks) =
      if keyCompare g k.opts (keyText k s.tab a) (keyText k s.tab b)=0 then verdict g s a b ks
      else some (flip k (keyCompare g k.opts (keyText k s.tab a) (keyText k s.tab b))) := by
  unfold verdict
  simp only [compareKeys,extractKey_eq ha,extractKey_eq hb,Option.bind_eq_bind,Option.bind_some]
  by_cases hz : keyCompare g k.opts (keyText k s.tab a) (keyText k s.tab b)=0
  · simp [hz]
  · have hne := (flip_ne_zero k _).mpr hz
    simp only [hz,ne_eq,not_false_eq_true,if_true,if_false,Option.pure_def,Option.map_some]
    rw [←flip,orElse_of_ne hne]

theorem verdict_none (s : Sorter)
    (ks : List KeySpec) (h : ¬ (Extracts k s.tab a ∧ Extracts k s.tab b)) :
    verdict g s a b (k::ks)=none := by
  unfold verdict Extracts at *
  cases ha : extractKey a k s.tab <;> cases hb : extractKey b k s.tab <;> simp_all [compareKeys]

/-- `compare` breaks the ties of the keys by the last resort. -/
theorem compare_eq_verdict (s : Sorter) (a b : Bytes) : s.compare g a b=verdict g s a b s.keys := by
  unfold Sorter.compare verdict
  cases hd : compareKeys g s.tab a b s.keys with
  | none => rfl
  | some d =>
    simp only [Option.bind_eq_bind,Option.bind_some,Option.map_some,Option.pure_def,
      compareBytes_eq,lastResort]
    by_cases hz : d=0
    · subst hz
      simp only [ne_eq,not_true_eq_false,false_or]
      split <;> rfl
    rw [orElse_of_ne hz]
    by_cases hk : s.keys=[]
    · rw [hk] at hd
      cases hd
      exact absurd rfl hz
    · rw [if_pos ⟨hk,.inl hz⟩]

/-- One key at a time: a key whose verdict is not zero decides, and any other is as documented. -/
theorem verdict_iff_sound (s : Sorter) (a b : Bytes) (ks : List KeySpec) :
    verdict g s a b ks=some (byKeys (documentedKey g) s a b ks) ↔ Sound g s a b ks := by
  induction ks with
  | nil => simp [verdict,compareKeys,byKeys,Sound]
  | cons k ks ih =>
    by_cases hx : Extracts k s.tab a ∧ Extracts k s.tab b
    swap
    · rw [verdict_none g s ks hx,Sound,←and_assoc]
      simp [hx]
    rw [verdict_cons g s ks hx.1 hx.2]
    by_cases hf : Faithful k.opts (keyText k s.tab a) (keyText k s.tab b)
    · simp only [Sound,hx,hf,true_and,not_true_eq_false,false_and,or_false]
      rw [byKeys,keyCompare_of_faithful g hf]
      by_cases hz : documentedKey g k.opts (keyText k s.tab a) (keyText k s.tab b)=0
      · simp only [hz,flip_zero,forall_const]
        exact ih
      · have hne := (flip_ne_zero k _).mpr hz
        simp [orElse_of_ne hne,hz]
    · obtain ⟨hv,hne⟩ := keyCompare_of_not_faithful g hf
      simp only [Sound,hx,hf,false_and,not_false_eq_true,true_and,false_or]
      rw [hv,if_neg hne,Option.some_inj]

/-- Where every key can be cut, `compare` is the comparison by the keys' own verdicts. -/
theorem compare_eq_byKeys {s : Sorter}
    (ha : ∀k∈s.keys,Extracts k s.tab a) (hb : ∀k∈s.keys,Extracts k s.tab b) :
    s.compare g a b=some (byKeys (keyCompare g) s a b s.keys) := by
  rw [compare_eq_verdict]
  generalize hks : s.keys=ks at ha hb
  clear hks
  induction ks with
  | nil => simp [verdict,compareKeys,byKeys]
  | cons k ks ih =>
    rw [verdict_cons g s ks (ha k (by simp)) (hb k (by simp)),byKeys]
    have hrest := ih (fun k' hk' => ha k' (by simp [hk'])) (fun k' hk' => hb k' (by simp [hk']))
    by_cases hz : keyCompare g k.opts (keyText k s.tab a) (keyText k s.tab b)=0
    · rw [if_pos hz,hz,flip_zero,orElse_zero_left,hrest]
    · rw [if_neg hz,orElse_of_ne ((flip_ne_zero k _).mpr hz)]

theorem ranked_flip (k : KeySpec) {c : Bytes→Bytes→ℤ} (h : Ranked c) :
    Ranked fun a b => flip k (c a b) := by
  unfold flip
  split
  · exact h.neg
  · exact h

theorem ranked_lastResort (s : Sorter) : Ranked (lastResort s) := by
  unfold lastResort
  split
  · exact ranked_zero
  · split
    · exact (ranked_order bytesValue).neg
    · exact ranked_order bytesValue

theorem ranked_byKeys (s : Sorter)
    (hks : ∀k∈ks,Ranked (c k.opts)) : Ranked fun a b => byKeys c s a b ks := by
  induction ks with
  | nil => exact ranked_lastResort s
  | cons k ks ih =>
    exact (ranked_flip k ((hks k (by simp)).comp (keyText k s.tab))).orElse
      (ih fun k' hk' => hks k' (by simp [hk']))

theorem sign_documentedKey (hg : o.kind≠.generalNum)
    (a b : Bytes) : (documentedKey g o a b).sign=documentedKey g o a b := by
  unfold documentedKey
  cases hk : o.kind with
  | random => rfl
  | generalNum => exact absurd hk hg
  | _ => exact sign_order _ _

theorem sign_keyCompare (hg : o.kind≠.generalNum)
    (a b : Bytes) : (keyCompare g o a b).sign=keyCompare g o a b := by
  by_cases hf : Faithful o a b
  · rw [keyCompare_of_faithful g hf,sign_documentedKey g hg]
  rw [(keyCompare_of_not_faithful g hf).1]
  unfold strayVerdict
  split
  · exact sign_order _ _
  · exact sign_order _ _
  · rfl

theorem sign_lastResort (s : Sorter) (a b : Bytes) : (lastResort s a b).sign=lastResort s a b := by
  unfold lastResort
  split_ifs
  · rfl
  · rw [Int.sign_neg,sign_order]
  · exact sign_order _ _

theorem sign_byKeys (s : Sorter) (a b : Bytes) (hc : ∀k∈ks,∀x y,(c k.opts x y).sign=c k.opts x y) :
    (byKeys c s a b ks).sign=byKeys c s a b ks := by
  induction ks with
  | nil => exact sign_lastResort s a b
  | cons k ks ih =>
    rw [byKeys,sign_orElse,sign_flip,hc k (by simp),ih fun k' hk' => hc k' (by simp [hk'])]

theorem sign_verdict (s : Sorter) (a b : Bytes) (hg : ∀k∈ks,k.opts.kind≠.generalNum) :
    (verdict g s a b ks).map Int.sign=verdict g s a b ks := by
  induction ks with
  | nil => simp [verdict,compareKeys,sign_lastResort]
  | cons k ks ih =>
    by_cases hx : Extracts k s.tab a ∧ Extracts k s.tab b
    · rw [verdict_cons g s ks hx.1 hx.2]
      split
      · exact ih fun k' hk' => hg k' (by simp [hk'])
      · rw [Option.map_some,sign_flip,sign_keyCompare g (hg k (by simp))]
    · rw [verdict_none g s ks hx]
      rfl

theorem kind_ne_generalNum (h : o.generalNum=false) : o.kind≠.generalNum := by
  unfold KeyOpts.kind
  simp only [h,Bool.false_eq_true,if_false]
  split_ifs <;> simp

/-- Without `-g` and `-R` keys the verdict of `compare` has the sign of the documented comparison
exactly when the keys that decide are sound; on lines whose keys can be cut it is a total preorder.
-/
theorem compare_documented_iff (g : Bytes→Bytes→ℤ) (s : Sorter)
    (hs : ∀k∈s.keys,k.opts.random=false ∧ k.opts.generalNum=false) :
    (∀a b,(s.compare g a b).map Int.sign=some (documented g s a b).sign ↔ Sound g s a b s.keys) ∧
    ∃c : Bytes→Bytes→ℤ,((∀x y,(c y x).sign = -(c x y).sign) ∧ (∀x y,c x y≤0 ∨ c y x≤0) ∧
        ∀x y z,c x y≤0→c y z≤0→c x z≤0) ∧ ∀a b,(∀k∈s.keys,Extracts k s.tab a ∧ Extracts k s.tab b)→
        s.compare g a b=some (c a b) := by
  have hg : ∀k∈s.keys,k.opts.kind≠.generalNum := fun k hk => kind_ne_generalNum (hs k hk).2
  refine ⟨fun a b => ?_,fun a b => byKeys (keyCompare g) s a b s.keys,?_,fun a b hx => ?_⟩
  · rw [compare_eq_verdict,sign_verdict g s a b hg,documented,
      sign_byKeys s a b fun k hk => sign_documentedKey g (hg k hk),verdict_iff_sound]
  · exact (ranked_byKeys s fun k hk => ranked_keyCompare g (hs k hk).2).total_preorder
  · exact compare_eq_byKeys g (fun k hk => (hx k hk).1) fun k hk => (hx k hk).2

/-- Two lines under a numeric key with `-s`, whose texts differ and whose values do not. -/
theorem compare_documented_numeric :
    (Sorter.compare (fun _ _ => 0) { keys := [{ opts := { numeric := true } }],stable := true }
      (ascii "1.50 x") (ascii "01.5 y")).map Int.sign =
    some (documented (fun _ _ => 0) { keys := [{ opts := { numeric := true } }],stable := true }
      (ascii "1.50 x") (ascii "01.5 y")).sign :=
  ((compare_documented_iff (fun _ _ => 0) _ (by decide)).1 _ _).mpr
    ⟨extracts_of_lt le_rfl _ (by decide),extracts_of_lt le_rfl _ (by decide),
      Or.inl ⟨trivial,fun _ => trivial⟩⟩

/-- A month key tells spellings apart, and a zero with a suffix sorts after a plain number. -/
theorem compare_not_documented :
    Sorter.compare (fun _ _ => 0) { keys := [{ opts := { month := true } }],stable := true }
      (ascii "jan") (ascii "JAN")=some 1 ∧
    documented (fun _ _ => 0) { keys := [{ opts := { month := true } }],stable := true }
      (ascii "jan") (ascii "JAN")=0 ∧
    Sorter.compare (fun _ _ => 0) { keys := [{ opts := { human := true } }] }
      (ascii "0K") (ascii "1")=some 1 ∧
    documented (fun _ _ => 0) { keys := [{ opts := { human := true } }] }
      (ascii "0K") (ascii "1") = -1 := by
  decide +kernel
end Coreutils.SortOrder
