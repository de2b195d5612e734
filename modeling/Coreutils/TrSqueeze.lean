import Coreutils.GoText

/-!
# Squeezing characters that arrive byte by byte

After `tr -c` has worked on bytes, `characterSqueezer` drops repeated characters. It keeps the bytes
of an incomplete character and decodes as soon as more bytes cannot change the outcome, so it writes
what squeezing the decoded whole would leave.
-/

namespace Coreutils.TrSqueeze
open List GoText

def runeLength (b₀ : UInt8) : ℕ :=
  if b₀<0xC2 ∨ 0xF4<b₀ then 1 else if b₀<0xE0 then 2 else if b₀<0xF0 then 3 else 4

/-- `utf8.FullRune`: no byte that follows can change what is decoded. -/
def fullRune : Bytes→Bool
  | [] => false
  | b₀::s =>
    runeLength b₀ ≤ s.length+1 ||
      match s with
      | [] => false
      | [b₁] => !acceptsSecond b₀ b₁
      | b₁::b₂::_ => !acceptsSecond b₀ b₁ || !isContinuation b₂

def escapeBase : ℕ := 0xDC00

def escapeRune (b : UInt8) : ℕ := escapeBase+b.toNat

def isEscapedByte (r : ℤ) : Bool := escapeBase+0x80≤r && r≤escapeBase+0xFF

/-- `last` is nothing as long as `have` is false. -/
structure CharacterSqueezer where
  out : Bytes := []
  pending : Bytes := []
  last : Option ℕ := none

section
variable (matching : ℕ→Bool)

def drain (final : Bool) (s : CharacterSqueezer) : CharacterSqueezer :=
  if h : s.pending=[] then s
  else if !fullRune s.pending && !final then s
  else
    let size := (decodeRune s.pending).2
    let r := if (decodeRune s.pending).1=runeError ∧ size=1 then escapeRune (s.pending.head h)
      else (decodeRune s.pending).1
    drain final
      { out := s.out++if matching r && s.last == some r then [] else s.pending.take size
        pending := s.pending.drop size
        last := some r }
termination_by s.pending.length
decreasing_by
  have := decodeRune_size h
  simp only [length_drop]
  omega

def writeBytes (p : Bytes) (s : CharacterSqueezer) : CharacterSqueezer :=
  p.foldl (fun s b => drain matching false { s with pending := s.pending++[b] }) s

inductive Call
  | writeRune (r : ℤ)
  | writeBytes (p : Bytes)

/-- The bytes a call writes; an escaped byte is written as it is. -/
def Call.bytes : Call→Bytes
  | writeRune r =>
    if isEscapedByte r then [.ofNat (r-escapeBase).toNat]
    else encodeRune (if r<0 then runeError else r.toNat)
  | writeBytes p => p

def finish (s : CharacterSqueezer) : CharacterSqueezer := drain matching true s

def run (calls : List Call) : Bytes :=
  (finish matching (calls.foldl (fun s call => writeBytes matching call.bytes s) {})).out

/-- A decoded character; a byte that is not part of one stands for itself. -/
inductive Character
  | rune (r : ℕ)
  | byte (b : UInt8)
  deriving DecidableEq,Repr

def Character.code : Character→ℕ
  | rune r => r
  | byte b => escapeRune b

def firstCharacter (s : Bytes) (h : s≠[]) : Character :=
  if decodeRune s=(runeError,1) then .byte (s.head h) else .rune (decodeRune s).1

/-- The characters of a text, each with its bytes. -/
def characters (s : Bytes) : List (Character×Bytes) :=
  if h : s=[] then []
  else (firstCharacter s h,s.take (decodeRune s).2)::characters (s.drop (decodeRune s).2)
termination_by s.length
decreasing_by
  have := decodeRune_size h
  simp only [length_drop]
  omega

/-- What is left when matching characters that repeat the one before are dropped. -/
def squeezed : Option Character→List (Character×Bytes)→Bytes
  | _,[] => []
  | last,(c,raw)::cs =>
    (if matching c.code ∧ last=some c then [] else raw)++squeezed (some c) cs

end

theorem decodeRune_append {p : Bytes} (hfull : fullRune p=true) (q : Bytes) :
    decodeRune (p++q)=decodeRune p := by
  rcases p with _ | ⟨b₀,_ | ⟨b₁,_ | ⟨b₂,_ | ⟨b₃,p⟩⟩⟩⟩
  · cases hfull
  on_goal 4 => rfl
  all_goals
    simp only [fullRune,runeLength] at hfull
    simp only [decodeRune]
    grind

/-- No rune is a surrogate. -/
theorem decodeRune_scalar (s : Bytes) : (decodeRune s).1<0xD800 ∨ 0xE000≤(decodeRune s).1 := by
  unfold decodeRune acceptsSecond isContinuation
  simp only [UInt8.lt_iff_toNat_lt,UInt8.le_iff_toNat_le,←UInt8.toNat_inj,Bool.not_eq_true',
    UInt8.reduceToNat,runeError]
  repeat' split
  all_goals
    simp only [Bool.and_eq_false_iff,decide_eq_false_iff_not] at *
    omega

theorem code_firstCharacter (s : Bytes) (h : s≠[]) : (firstCharacter s h).code =
    if (decodeRune s).1=runeError ∧ (decodeRune s).2=1 then escapeRune (s.head h)
    else (decodeRune s).1 := by
  simp only [firstCharacter,Prod.ext_iff]
  split <;> rfl

/-- What is decoded never looks like an escaped byte, so equal codes are equal characters. -/
theorem firstCharacter_eq_iff {s t : Bytes} (hs : s≠[]) (ht : t≠[]) :
    (firstCharacter s hs).code=(firstCharacter t ht).code ↔
      firstCharacter s hs=firstCharacter t ht := by
  refine ⟨fun h => ?_,fun h => by rw [h]⟩
  have hs' := decodeRune_scalar s
  have ht' := decodeRune_scalar t
  have hb : ∀b : UInt8,b.toNat<256 := fun b => b.toNat_lt
  unfold firstCharacter at h ⊢
  split at h <;> split at h
  · rw [if_pos ‹_›,if_pos ‹_›,UInt8.toNat_inj.mp (add_left_cancel h)]
  · have := hb (s.head hs)
    simp only [Character.code,escapeRune,escapeBase] at h
    omega
  · have := hb (t.head ht)
    simp only [Character.code,escapeRune,escapeBase] at h
    omega
  · rw [if_neg ‹_›,if_neg ‹_›]
    exact congrArg _ h

variable {matching : ℕ→Bool} {s total : Bytes} {st : CharacterSqueezer}

/-- With `s` still to come the squeezer ends up with `total`: what it has written, and what is left
of its pending bytes and `s`. -/
def Leads (matching : ℕ→Bool) (st : CharacterSqueezer) (s total : Bytes) : Prop :=
  ∃last,(∀c∈last,∃t h,c=firstCharacter t h) ∧ st.last=last.map Character.code ∧
    total=st.out++squeezed matching last (characters (st.pending++s))

theorem leads_start : Leads matching {} s (squeezed matching none (characters s)) :=
  ⟨none,by simp,rfl,rfl⟩

/-- A character that is complete, or the last one, is decoded as in the whole. -/
theorem leads_drain {final : Bool} (hfinal : final=true→s=[])
    (h : Leads matching st s total) : Leads matching (drain matching final st) s total := by
  induction st using drain.induct matching final with
  | case1 st hp =>
    rw [drain,dif_pos hp]
    exact h
  | case2 st hp hwait =>
    rw [drain,dif_neg hp,if_pos hwait]
    exact h
  | case3 st hp hgo size r ih =>
    rw [drain,dif_neg hp,if_neg hgo]
    refine ih ?_
    obtain ⟨last,hlast,hcode,rfl⟩ := h
    have hdecode : decodeRune (st.pending++s)=decodeRune st.pending := by
      cases final with
      | true => rw [hfinal rfl,append_nil]
      | false => exact decodeRune_append (by simpa using hgo) s
    have hsize := (decodeRune_size hp).2
    have hne : st.pending++s≠[] := by simp [hp]
    have hfirst : firstCharacter (st.pending++s) hne=firstCharacter st.pending hp := by
      simp [firstCharacter,hdecode,hp]
    have hr : (firstCharacter st.pending hp).code=r := code_firstCharacter _ hp
    have hsame : st.last=some r ↔ last=some (firstCharacter st.pending hp) := by
      rw [hcode,←hr]
      cases last with
      | none => simp
      | some c =>
        obtain ⟨t,ht,rfl⟩ := hlast c rfl
        simp [firstCharacter_eq_iff]
    refine ⟨some (firstCharacter st.pending hp),?_,?_,?_⟩
    · rintro c ⟨⟩
      exact ⟨_,hp,rfl⟩
    · simp [hr]
    · rw [characters,dif_neg hne,squeezed,hfirst,hdecode,hr,take_append_of_le_length hsize,
        drop_append_of_le_length hsize]
      simp [←hsame,size]

theorem pending_drain (st : CharacterSqueezer) : (drain matching true st).pending=[] := by
  induction st using drain.induct matching true with
  | case1 st hp => rw [drain,dif_pos hp,hp]
  | case2 st hp hwait => simp at hwait
  | case3 st hp hgo size r ih =>
    rw [drain,dif_neg hp,if_neg hgo]
    exact ih

theorem leads_writeBytes (p : Bytes)
    (h : Leads matching st (p++s) total) : Leads matching (writeBytes matching p st) s total := by
  induction p generalizing st with
  | nil => exact h
  | cons b p ih =>
    refine ih (leads_drain (by simp) ?_)
    simpa [Leads] using h

/-- What the squeezer writes is the whole text without the characters that are to be squeezed. -/
theorem run_eq_squeezed (matching : ℕ→Bool) (calls : List Call) :
    run matching calls=squeezed matching none (characters (calls.flatMap Call.bytes)) := by
  have hcalls : ∀st,Leads matching st (calls.flatMap Call.bytes++[])
      (squeezed matching none (characters (calls.flatMap Call.bytes)))→
      Leads matching (calls.foldl (fun s call => writeBytes matching call.bytes s) st) []
        (squeezed matching none (characters (calls.flatMap Call.bytes))) := by
    generalize squeezed matching none (characters (calls.flatMap Call.bytes))=total
    induction calls with
    | nil => exact fun _ => id
    | cons call calls ih =>
      intro st h
      refine ih _ (leads_writeBytes call.bytes ?_)
      simpa using h
  obtain ⟨last,-,-,htotal⟩ := leads_drain (fun _ => rfl)
    (hcalls {} (by rw [append_nil]; exact leads_start))
  rw [pending_drain] at htotal
  rw [run,finish,htotal]
  simp [characters,squeezed]

end Coreutils.TrSqueeze
