import Coreutils.BreTranslate

/-!
# The character escapes of sed

`SedEscapes` of `pkg/bre/bre.go` has its own scanner for bracket expressions. It agrees with
`translateBracketMode` but for the carets at the start: it passes over all of them, so that after
`[^^` a `]` is still a member.
-/

namespace Coreutils.SedEscapes
open List BreBracket BreMatcher BreText BreTranslate Faults GoText

def sedEscape (c : UInt8) : Option UInt8 :=
  if c=110 then some 10
  else if c=116 then some 9
  else if c=114 then some 13
  else if c=102 then some 12
  else if c=118 then some 11
  else if c=97 then some 7
  else none

def isDelim (c : UInt8) : Bool := c == 58 || c == 46 || c == 61

/-- Where the scanner stands: outside of bracket expressions, in one (`first` until its first
member), or in the text of a member, with `n` bytes to follow. -/
inductive Mode where
  | outside
  | inside (first : Bool)
  | copying (n : ℕ)

/-- Of the member that a `[` before `t` opens, the number of bytes after the first two. -/
def delimited (t : Bytes) : Option ℕ :=
  match t with
  | d::u => if isDelim d then (index [d,93] u).map (·+2) else none
  | [] => none

def rewrite : Mode→Bytes→Bytes
  | _,[] => []
  | .outside,91::t => 91::rewrite (.inside true) t
  | .outside,[92] => [92]
  | .outside,92::n::t =>
    match sedEscape n with
    | some c => c::rewrite .outside t
    | none => 92::n::rewrite .outside t
  | .outside,c::t => c::rewrite .outside t
  | .inside first,c::t =>
    if first ∧ c=94 then c::rewrite (.inside first) t
    else if c=91 then
      match delimited t with
      | some n => c::rewrite (.copying n) t
      | none => c::rewrite (.inside false) t
    else if c=93 ∧ !first then c::rewrite .outside t
    else c::rewrite (.inside false) t
  | .copying 0,c::t => c::rewrite (.inside false) t
  | .copying (n+1),c::t => c::rewrite (.copying n) t

def sedEscapes (p : Bytes) : Bytes := if 92∈p then rewrite .outside p else p

example : sedEscapes (ascii "a\\n[\\n[:]\\n:]]\\\\n")=ascii "a\n[\\n[:]\\n:]]\\\\n" := by decide

section
variable (host : Host)

/-- The rewriting of a pattern whose bracket expressions end where `translateBracketMode` ends them:
they are copied, and outside the escapes become their characters. -/
inductive Rewrites : Bytes→Bytes→Prop where
  | nil : Rewrites [] []
  | bracket {t cls out : Bytes} {n : ℕ}
      (h : translateBracketMode host (91::t) false none=.ok (cls,n))
      (hrest : Rewrites ((91::t).drop n) out) : Rewrites (91::t) ((91::t).take n++out)
  | escape {n c : UInt8} {t out : Bytes} (h : sedEscape n=some c) (hrest : Rewrites t out) :
      Rewrites (92::n::t) (c::out)
  | pair {n : UInt8} {t out : Bytes} (h : sedEscape n=none) (hrest : Rewrites t out) :
      Rewrites (92::n::t) (92::n::out)
  | byte {c : UInt8} {t out : Bytes} (hopen : c≠91) (hescape : c≠92)
      (hrest : Rewrites t out) : Rewrites (c::t) (c::out)

end

/-- The grammar of patterns without an escape to rewrite, when all the carets that start a bracket
expression are passed over. -/
inductive Plain : Mode→Bytes→Prop where
  | nil {mode : Mode} : Plain mode []
  | opens {t : Bytes} (h : Plain (.inside true) t) : Plain .outside (91::t)
  | last : Plain .outside [92]
  | pair {n : UInt8} {t : Bytes} (hn : sedEscape n=none) (h : Plain .outside t) :
      Plain .outside (92::n::t)
  | byte {c : UInt8} {t : Bytes} (hopen : c≠91) (hescape : c≠92) (h : Plain .outside t) :
      Plain .outside (c::t)
  | caret {t : Bytes} (h : Plain (.inside true) t) : Plain (.inside true) (94::t)
  | whole {first : Bool} {t : Bytes} {n : ℕ} (hn : delimited t=some n)
      (h : Plain (.inside false) (t.drop (n+1))) : Plain (.inside first) (91::t)
  | closes {t : Bytes} (h : Plain .outside t) : Plain (.inside false) (93::t)
  | member {first : Bool} {c : UInt8} {t : Bytes} (hcaret : c=94→first=false)
      (hopen : c=91→delimited t=none) (hclose : c=93→first=true)
      (h : Plain (.inside false) t) : Plain (.inside first) (c::t)

theorem rewrite_copying (n : ℕ) (t : Bytes) :
    rewrite (.copying n) t=t.take (n+1)++rewrite (.inside false) (t.drop (n+1)) := by
  induction n generalizing t with
  | zero =>
    cases t with
    | nil => rfl
    | cons c t => simp [rewrite]
  | succ n ih =>
    cases t with
    | nil => rfl
    | cons c t =>
      rw [rewrite,ih]
      rfl

theorem length_rewrite_le (mode : Mode) (t : Bytes) : (rewrite mode t).length≤t.length := by
  fun_induction rewrite mode t with
  | case1 | case3 => exact le_rfl
  | _ =>
    simp only [length_cons]
    omega

theorem rewrite_byte {c : UInt8} (hopen : c≠91) (hescape : c≠92) (t : Bytes) :
    rewrite .outside (c::t)=c::rewrite .outside t := by
  rw [rewrite.eq_def]
  split <;> simp_all

/-- The scanner leaves what the grammar describes. -/
theorem rewrite_of_plain {mode : Mode} {t : Bytes} (h : Plain mode t) : rewrite mode t=t := by
  induction h with
  | @nil mode => cases mode <;> rfl
  | opens _ ih => rw [rewrite,ih]
  | last => rfl
  | pair hn _ ih => rw [rewrite,hn,ih]
  | byte hopen hescape _ ih => rw [rewrite_byte hopen hescape,ih]
  | caret _ ih => rw [rewrite,if_pos ⟨rfl,rfl⟩,ih]
  | whole hn _ ih =>
    rw [rewrite,if_neg (by simp),if_pos rfl,hn]
    dsimp only
    rw [rewrite_copying,ih,take_append_drop]
  | closes _ ih => rw [rewrite,if_neg (by simp),if_neg (by simp),if_pos ⟨rfl,rfl⟩,ih]
  | @member first c t hcaret hopen hclose _ ih =>
    have hc : ¬ (first=true ∧ c=94) := fun ⟨hf,hc⟩ => by simp [hcaret hc] at hf
    have hclosed : ¬ (c=93 ∧ (!first)=true) := fun ⟨hc,hf⟩ => by simp [hclose hc] at hf
    rw [rewrite,if_neg hc]
    by_cases h : c=91
    · rw [if_pos h,hopen h]
      rw [ih]
    · rw [if_neg h,if_neg hclosed,ih]

/-- It leaves nothing else, since an escape that it rewrites makes the text shorter. In the middle
of a member the grammar goes on behind it. -/
theorem plain_of_rewrite (mode : Mode) (t : Bytes) : rewrite mode t=t→match mode with
    | .copying n => Plain (.inside false) (t.drop (n+1))
    | mode => Plain mode t := by
  fun_induction rewrite mode t with
  | case1 mode =>
    intro _
    cases mode with
    | outside | inside => exact .nil
    | copying n => simpa using Plain.nil
  | case2 t ih => exact fun h => .opens (ih (cons.inj h).2)
  | case3 => exact fun _ => .last
  | case4 n t c hc ih =>
    intro h
    have hlen := congrArg length h
    have hle := length_rewrite_le .outside t
    simp only [length_cons] at hlen
    omega
  | case5 n t hn ih => exact fun h => .pair hn (ih (cons.inj (cons.inj h).2).2)
  | case6 c t hopen hlast hescape ih =>
    intro h
    refine .byte hopen (fun hc => ?_) (ih (cons.inj h).2)
    cases t with
    | nil => exact hlast hc rfl
    | cons n u => exact hescape n u hc rfl
  | case7 first c t hcaret ih =>
    intro h
    obtain ⟨rfl,rfl⟩ := hcaret
    exact .caret (ih (cons.inj h).2)
  | case8 first t n hn _ ih => exact fun h => .whole hn (ih (cons.inj h).2)
  | case9 first t hn _ ih =>
    exact fun h => .member (by simp) (fun _ => hn) (by simp) (ih (cons.inj h).2)
  | case10 first c t hcaret hopen hclose ih =>
    intro h
    obtain ⟨rfl,hfirst⟩ := hclose
    obtain rfl : first=false := by simpa using hfirst
    exact .closes (ih (cons.inj h).2)
  | case11 first c t hcaret hopen hclose ih =>
    intro h
    refine .member (fun hc => ?_) (fun hc => absurd hc hopen) (fun hc => ?_)
      (ih (cons.inj h).2)
    · cases first with
      | true => exact absurd ⟨rfl,hc⟩ hcaret
      | false => rfl
    · cases first with
      | true => rfl
      | false => exact absurd ⟨hc,rfl⟩ hclose
  | case12 c t ih | case13 n c t ih => exact fun h => ih (cons.inj h).2

theorem rewrite_eq_iff (t : Bytes) : rewrite .outside t=t ↔ Plain .outside t :=
  ⟨plain_of_rewrite .outside t,rewrite_of_plain⟩

theorem rewrite_of_no_escape (mode : Mode) (t : Bytes) (h : 92∉t) : rewrite mode t=t := by
  fun_induction rewrite mode t with
  | case1 | case3 => rfl
  | case4 | case5 => simp at h
  | _ =>
    next ih =>
    rw [ih (fun hmem => h (by simp [hmem]))]

theorem sedEscapes_eq (p : Bytes) : sedEscapes p=rewrite .outside p := by
  unfold sedEscapes
  split
  · rfl
  · next h => exact (rewrite_of_no_escape .outside p h).symm

inductive Inert : Bytes→Prop where
  | nil : Inert []
  | byte {c : UInt8} {w : Bytes} (hopen : c≠91) (hescape : c≠92) (h : Inert w) : Inert (c::w)
  | pair {n : UInt8} {w : Bytes} (hn : sedEscape n=none) (h : Inert w) : Inert (92::n::w)

theorem Inert.append {w w' : Bytes} (h : Inert w) (h' : Inert w') : Inert (w++w') := by
  induction h with
  | nil => exact h'
  | byte hopen hescape _ ih => exact .byte hopen hescape ih
  | pair hn _ ih => exact .pair hn ih

theorem inert_of_forall {w : Bytes} (h : ∀c∈w,c≠91 ∧ c≠92) : Inert w := by
  induction w with
  | nil => exact .nil
  | cons c w ih =>
    obtain ⟨hopen,hescape⟩ := h c (by simp)
    exact .byte hopen hescape (ih fun d hd => h d (by simp [hd]))

theorem inert_digits {s : Bytes} (h : allDigits s=true) : Inert s := by
  refine inert_of_forall fun c hc => ?_
  have hdigit : isDigit c=true := by
    rw [allDigits,Bool.and_eq_true,all_eq_true] at h
    exact h.2 c hc
  constructor <;> rintro rfl <;> simp [isDigit] at hdigit

/-- Digits and commas are all there is in an interval. -/
theorem inert_interval {s norm : Bytes} (h : normalizeInterval s=some norm) : Inert s := by
  unfold normalizeInterval at h
  split at h
  · split at h
    · next hdigits =>
      rw [Bool.and_eq_true] at hdigits
      exact inert_digits hdigits.1
    · cases h
  · next lo hi hcut =>
    rw [cutComma_some hcut]
    split at h
    · cases h
    dsimp only at h
    generalize hlo' : (if lo=[] then [48] else lo)=lo' at h
    split at h
    · cases h
    next hdigits =>
    simp only [Bool.or_eq_true,Bool.not_eq_true',Bool.and_eq_true,decide_eq_true_eq,
      not_or,not_and,Bool.not_eq_false] at hdigits
    have hlo : Inert lo := by
      by_cases hnil : lo=[]
      · exact hnil ▸ .nil
      · rw [if_neg hnil] at hlo'
        exact inert_digits (hlo' ▸ hdigits.1)
    have hhi : Inert hi := by
      by_cases hnil : hi=[]
      · exact hnil ▸ .nil
      · exact inert_digits (hdigits.2 hnil)
    exact hlo.append (.byte (by decide) (by decide) hhi)

/-- The bytes of a rune that is not ASCII are all above ASCII. -/
theorem inert_rune {b : UInt8} (hb : 0x80≤b) (s : Bytes) :
    Inert ((b::s).take (decodeRune (b::s)).2) := by
  have hhigh : ∀c : UInt8,0x80≤c→c≠91 ∧ c≠92 := by
    intro c hc
    constructor <;> rintro rfl <;> exact absurd hc (by decide)
  refine inert_of_forall fun c hc => hhigh c ?_
  exact high_of_mem_rune hb hc

theorem mem_of_sedEscape {n : UInt8} (h : sedEscape n≠none) : n∈ascii "ntrfva" := by
  unfold sedEscape at h
  repeat' split at h
  all_goals first
    | (subst_vars; decide)
    | exact absurd rfl h

/-- An escape that `toGo` takes is inert with all that it takes. -/
theorem inert_escape {n : UInt8} {u rest : Bytes} (h : EscapeLeaves n u rest) :
    ∃w,Inert w ∧ 92::n::u=w++rest := by
  rcases h with ⟨rfl,hn⟩ | ⟨rfl,norm,hinterval⟩ | ⟨hn,rfl⟩
  · have hnone : sedEscape n=none := by
      by_contra hsome
      exact hn (mem_of_sedEscape hsome)
    exact ⟨[92,n],.pair hnone .nil,rfl⟩
  · obtain ⟨inner,hinner,rfl⟩ := interval_ok hinterval
    refine ⟨92::123::(inner++[92,125]),.pair (by decide) ?_,by simp⟩
    exact (inert_interval hinner).append (.pair (by decide) .nil)
  · refine ⟨92::(n::u).take (decodeRune (n::u)).2,?_,by simp⟩
    obtain ⟨hpos,-⟩ := decodeRune_size (cons_ne_nil n u)
    have hrune := inert_rune hn u
    obtain ⟨k,hk⟩ : ∃k,(decodeRune (n::u)).2=k+1 := ⟨_,(Nat.succ_pred hpos.ne').symm⟩
    rw [hk,take_succ_cons] at hrune ⊢
    have hnone : sedEscape n=none := by
      by_contra hsome
      have hmem : n∈[110,116,114,102,118,97] := mem_of_sedEscape hsome
      simp only [mem_cons,not_mem_nil,or_false] at hmem
      rcases hmem with rfl | rfl | rfl | rfl | rfl | rfl <;> exact absurd hn (by decide)
    generalize u.take k=v at hrune ⊢
    cases hrune with
    | byte _ _ h => exact .pair hnone h
    | pair => exact absurd hn (by decide)

section
variable (host : Host) {t p : Bytes}

/-- A pattern that is inert text and bracket expressions, with the texts at which these start. -/
inductive Reading : List Bytes→Bytes→Prop where
  | nil : Reading [] []
  | inert {w t : Bytes} {bs : List Bytes} (hw : Inert w) (h : Reading bs t) : Reading bs (w++t)
  | bracket {t cls : Bytes} {n : ℕ} {bs : List Bytes}
      (hread : translateBracket host (91::t)=.ok (cls,n))
      (h : Reading bs ((91::t).drop n)) : Reading ((91::t)::bs) (91::t)

theorem reading_of_accepted {fuel : ℕ} {state : Pos} {b out : Bytes}
    (h : (toGoFrom host false none fuel state t b).outcome=.ok out) :
    Reading host (toGoFrom host false none fuel state t b).calls t := by
  induction fuel generalizing state t b with
  | zero => cases h
  | succ fuel ih =>
    cases t with
    | nil => exact .nil
    | cons c t =>
      rw [toGoFrom] at h ⊢
      split at h
      · next hc =>
        subst hc
        rw [if_pos rfl]
        obtain ⟨⟨text,state',rest⟩,hesc,hrest,hcalls⟩ := Traced.bind_ok h
        rw [hcalls]
        cases t with
        | nil => cases hesc
        | cons n u =>
          obtain ⟨w,hw,heq⟩ := inert_escape ((safe_toGoEscaped state n u).post _ hesc)
          rw [heq]
          exact .inert hw (ih hrest)
      · next hc =>
        rw [if_neg hc]
        split at h
        · next hopen =>
          subst hopen
          rw [if_pos rfl]
          obtain ⟨⟨cls,n⟩,hread,hrest,hcalls⟩ := Traced.bind_ok h
          rw [hcalls]
          exact .bracket hread (ih hrest)
        · next hopen =>
          rw [if_neg hopen]
          exact .inert (.byte hopen hc .nil) (ih h)

/-- A pattern that is accepted has nothing to rewrite. -/
theorem rewrites_self {bs : List Bytes} (h : Reading host bs p) : Rewrites host p p := by
  induction h with
  | nil => exact .nil
  | inert hw _ ih =>
    induction hw with
    | nil => exact ih
    | byte hopen hescape _ ihw => exact .byte hopen hescape ihw
    | pair hn _ ihw => exact .pair hn ihw
  | @bracket t cls n bs hread _ ih =>
    have hself := Rewrites.bracket hread ih
    rwa [take_append_drop] at hself

/-- The rewriting of a pattern is determined. -/
theorem Rewrites.unique {out out' : Bytes} (h : Rewrites host p out) (h' : Rewrites host p out') :
    out=out' := by
  induction h generalizing out' with
  | nil =>
    cases h'
    rfl
  | bracket hread _ ih =>
    cases h' with
    | bracket hread' hrest' =>
      cases hread.symm.trans hread'
      rw [ih hrest']
    | byte hopen => exact absurd rfl hopen
  | escape hn _ ih =>
    cases h' with
    | escape hn' hrest' =>
      cases hn.symm.trans hn'
      rw [ih hrest']
    | pair hn' => cases hn.symm.trans hn'
    | byte _ hescape => exact absurd rfl hescape
  | pair hn _ ih =>
    cases h' with
    | escape hn' => cases hn.symm.trans hn'
    | pair _ hrest' => rw [ih hrest']
    | byte _ hescape => exact absurd rfl hescape
  | byte hopen hescape _ ih =>
    cases h' with
    | bracket => exact absurd rfl hopen
    | escape | pair => exact absurd rfl hescape
    | byte _ _ hrest' => rw [ih hrest']

theorem plain_inert {w : Bytes} (hw : Inert w) (h : Plain .outside t) : Plain .outside (w++t) := by
  induction hw with
  | nil => exact h
  | byte hopen hescape _ ih => exact .byte hopen hescape ih
  | pair hn _ ih => exact .pair hn ih

/-- From the first member on, both scanners end a bracket expression at the same `]`. -/
theorem plain_of_closes {first : Bool} {rest : Bytes} (h : Closes first t rest)
    (hcaret : first=true→t.head?≠some 94) (hrest : Plain .outside rest) :
    Plain (.inside first) t := by
  induction h with
  | here => exact .closes hrest
  | @next first t u rest hfirst hmember _ ih =>
    have hu : Plain (.inside false) u := ih (by simp) hrest
    cases hmember with
    | @named u k _ hk => exact .whole (by simp [delimited,isDelim,hk]) hu
    | @element delim u k hd hk _ =>
      have hdelim : isDelim delim=true := by rcases hd with rfl | rfl <;> rfl
      exact .whole (by simp [delimited,hdelim,hk]) hu
    | @byte c u hc =>
      refine .member (fun h => ?_) (fun h => ?_) (fun h => hfirst (by simp [h])) hu
      · cases first with
        | true => exact absurd (by simp [h]) (hcaret rfl)
        | false => rfl
      cases u with
      | nil => rfl
      | cons d u =>
        obtain ⟨hcolon,hdot,heq⟩ := hc h d rfl
        simp [delimited,isDelim,hcolon,hdot,heq]

/-- The scanners agree on a pattern none of whose bracket expressions starts with two carets. -/
theorem plain_of_reading {bs : List Bytes} (h : Reading host bs p)
    (hcarets : ∀s∈bs,¬ [91,94,94] <+: s) : Plain .outside p := by
  induction h with
  | nil => exact .nil
  | inert hw _ ih => exact plain_inert hw (ih hcarets)
  | @bracket t cls n bs hread _ ih =>
    have hrest := ih fun s hs => hcarets s (by simp [hs])
    have hcloses := translateBracket_closes host hread
    have htwo := hcarets (91::t) (by simp)
    refine .opens ?_
    by_cases hcaret : t.head?=some 94
    · obtain ⟨u,rfl⟩ : ∃u,t=94::u := ⟨t.tail,eq_cons_of_mem_head? hcaret⟩
      refine .caret (plain_of_closes hcloses (fun _ hu => htwo ?_) hrest)
      obtain ⟨v,rfl⟩ : ∃v,u=94::v := ⟨u.tail,eq_cons_of_mem_head? hu⟩
      exact ⟨v,rfl⟩
    · have hopened : (opened (91::t)).2=t := by
        rw [opened,drop_one,tail_cons]
        split
        · simp at hcaret
        · rfl
      rw [hopened] at hcloses
      exact plain_of_closes hcloses (fun _ => hcaret) hrest

/-- For a pattern that `ToGo` accepts, the rewriting is the one that `translateBracketMode` asks for
exactly when the pattern is plain with all leading carets passed over, as it is when no bracket
expression of it starts with two carets. -/
theorem rewrites_sedEscapes_iff {p out : Bytes} (h : (toGo host false none p).outcome=.ok out) :
    (Rewrites host p (sedEscapes p) ↔ Plain .outside p) ∧
      ((∀s∈(toGo host false none p).calls,¬ [91,94,94] <+: s)→Plain .outside p) := by
  have hreading := reading_of_accepted host h
  refine ⟨?_,plain_of_reading host hreading⟩
  have hself := rewrites_self host hreading
  rw [sedEscapes_eq,←rewrite_eq_iff]
  constructor
  · exact fun hrewrites => (hrewrites.unique host hself)
  · intro heq
    rwa [heq]

end

def lenientHost : Host := ⟨fun _ => some fun _ => true,fun a b => a == b,fun _ => none⟩

/-- The second bracket expression of `[^b]*[]\n]` keeps its backslash. -/
theorem rewrites_oneCaret :
    Rewrites lenientHost (ascii "[^b]*[]\\n]") (sedEscapes (ascii "[^b]*[]\\n]")) := by
  have h := rewrites_sedEscapes_iff lenientHost (p := ascii "[^b]*[]\\n]") rfl
  exact h.1.mpr (h.2 (by decide))

/-- That of `[^^][]\n]` does not. -/
theorem not_rewrites_twoCarets :
    (toGo lenientHost false none (ascii "[^^][]\\n]")).outcome=.ok (ascii "[^^][\\]\\\\n]") ∧
      sedEscapes (ascii "[^^][]\\n]")=ascii "[^^][]\n]" ∧
      ¬ Rewrites lenientHost (ascii "[^^][]\\n]") (sedEscapes (ascii "[^^][]\\n]")) := by
  have haccepted : (toGo lenientHost false none (ascii "[^^][]\\n]")).outcome =
      .ok (ascii "[^^][\\]\\\\n]") := rfl
  refine ⟨haccepted,by decide,fun h => ?_⟩
  have hself := rewrites_self lenientHost (reading_of_accepted lenientHost haccepted)
  exact absurd (h.unique lenientHost hself) (by decide)

end Coreutils.SedEscapes
