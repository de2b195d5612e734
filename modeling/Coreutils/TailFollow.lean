import Coreutils.TailStream

/-!
# Following a file

After its initial output `tail` polls the file and writes what a read returns, while the file may
grow. A run loses and repeats nothing as long as nothing is appended between the end of the initial
output and the seek of `-f`, a poll by name finds the size unchanged fewer than
`--max-unchanged-stats` times in a row, and no poll wrongly takes the file for truncated.
-/

namespace Coreutils.TailFollow
open List GoText TailStream

/-- The options of `tailFollow` that matter for a regular file that is always there. -/
structure Config where
  sel : Selection
  lineEnd : UInt8 := newline
  followByName : Bool
  maxUnchanged : ℤ := 5

inductive Phase where
  /-- A read of `tailStream`. -/
  | stream (p : Progress)
  /-- The seek to the end, with `-f`. -/
  | streamed
  /-- The `Stat` before the loop. -/
  | seeked
  /-- The `Stat` of a poll by name; with `-f` the loop goes on to the read. -/
  | polling
  /-- The open after a poll found the file to be smaller, with the size it found. -/
  | truncated (size : ℕ)
  /-- The open after the size was the same for too long. -/
  | stale
  /-- The read of a poll. -/
  | reading
  deriving DecidableEq

structure State where
  content : Bytes
  phase : Phase
  offset : ℕ := 0
  out : Bytes := []
  lastSize : ℤ := -1
  unchanged : ℤ := 0

def State.chunk (s : State) (n : ℕ) : Bytes := (s.content.drop s.offset).take n

def State.AtEnd (s : State) : Prop := s.content.length ≤ s.offset

instance (s : State) : Decidable s.AtEnd := inferInstanceAs (Decidable (_≤_))

/-- A read may return `n` bytes, at most as many as there are. -/
def State.Offers (s : State) (n : ℕ) : Prop := 0<n ∧ s.offset+n ≤ s.content.length

instance (s : State) (n : ℕ) : Decidable (s.Offers n) := inferInstanceAs (Decidable (_ ∧ _))

section
variable (cfg : Config)

/-- The `Stat` of a poll by name and the branches on its result. -/
def poll (s : State) : State :=
  if (s.content.length : ℤ)=s.lastSize then
    if cfg.maxUnchanged ≤ s.unchanged+1 ∧ 0<cfg.maxUnchanged then
      { s with unchanged := s.unchanged+1,phase := .stale }
    else { s with unchanged := s.unchanged+1,phase := .reading }
  else if (s.content.length : ℤ)<s.lastSize then
    { s with unchanged := 0,phase := .truncated s.content.length }
  else { s with unchanged := 0,phase := .reading }

/-- The next call of `tailFollow`; a read that is not at the end returns `n` bytes. -/
def tailStep (s : State) (n : ℕ) : Option State :=
  match s.phase with
  | .stream p =>
    if s.AtEnd then
      some { s with
        out := s.out++finish cfg.sel p
        phase := if cfg.followByName then .seeked else .streamed }
    else if s.Offers n then
      some { s with
        out := s.out++(feed cfg.lineEnd cfg.sel p (s.chunk n)).2
        phase := .stream (feed cfg.lineEnd cfg.sel p (s.chunk n)).1
        offset := s.offset+n }
    else none
  | .streamed => some { s with offset := s.content.length,phase := .seeked }
  | .seeked => some { s with lastSize := s.content.length,phase := .polling }
  | .polling => some (if cfg.followByName then poll cfg s else { s with phase := .reading })
  | .truncated size => some { s with offset := 0,lastSize := size,phase := .reading }
  | .stale => some { s with offset := 0,unchanged := 0,lastSize := -1,phase := .polling }
  | .reading =>
    if s.AtEnd then some { s with phase := .polling }
    else if s.Offers n ∧ n≤32*1024 then
      some { s with
        out := s.out++s.chunk n
        offset := s.offset+n
        lastSize := if cfg.followByName then s.lastSize+n else s.lastSize
        phase := .polling }
    else none

inductive Action where
  | append (bs : Bytes)
  | truncate (size : ℕ)
  | tail (n : ℕ)

def step (s : State) : Action→Option State
  | .append bs => some { s with content := s.content++bs }
  | .truncate size => some { s with content := s.content.take size }
  | .tail n => tailStep cfg s n

def initial (content : Bytes) : State where
  content
  phase := .stream (start cfg.sel)

/-- The file only grows, not between the end of the initial output and the seek, and a poll finds
neither a smaller size than it remembers nor the same size too often. -/
def Harmless (s : State) : Action→Prop
  | .append _ => s.phase≠.streamed
  | .truncate _ => False
  | .tail _ => s.phase=.polling→cfg.followByName=true→
    s.lastSize ≤ s.content.length ∧
      (s.lastSize=s.content.length→s.unchanged+1<cfg.maxUnchanged ∨ cfg.maxUnchanged≤0)

instance (s : State) : (a : Action)→Decidable (Harmless cfg s a)
  | .append _ => inferInstanceAs (Decidable (_≠_))
  | .truncate _ => inferInstanceAs (Decidable False)
  | .tail _ => inferInstanceAs (Decidable (_→_→_))

def Runs : State→State→Prop :=
  Relation.ReflTransGen fun s s' => ∃a,Harmless cfg s a ∧ step cfg s a=some s'

end

variable {cfg : Config} {base text : Bytes} {s s' : State}

def Streams (cfg : Config) (s : State) : Prop :=
  ∃p,s.phase=.stream p ∧ s.offset ≤ s.content.length ∧
    Reads cfg.lineEnd cfg.sel (s.content.take s.offset) p s.out

/-- What was written follows the base, and so does what was read. -/
def Follows (base text : Bytes) (s : State) : Prop :=
  ∃done rest,s.content=base++done++rest ∧ s.offset=(base++done).length ∧
    s.out=text++done ∧
    (s.phase=.streamed ∧ rest=[] ∨ s.phase=.seeked ∨ s.phase=.polling ∨ s.phase=.reading)

theorem streams_initial (content : Bytes) : Streams cfg (initial cfg content) :=
  ⟨start cfg.sel,rfl,Nat.zero_le _,reads_start cfg.lineEnd cfg.sel⟩

theorem chunk_eq {rest : Bytes} (hcontent : s.content=base++rest)
    (hoffset : s.offset=base.length) (n : ℕ) : s.chunk n=rest.take n := by
  rw [State.chunk,hcontent,hoffset,drop_left]

/-- A harmless poll goes on to the read. -/
theorem poll_eq (hsize : s.lastSize ≤ s.content.length) (hsame : s.lastSize=s.content.length→
      s.unchanged+1<cfg.maxUnchanged ∨ cfg.maxUnchanged≤0) :
    ∃u,poll cfg s={ s with unchanged := u,phase := .reading } := by
  unfold poll
  split
  · rw [if_neg (by omega)]
    exact ⟨_,rfl⟩
  · rw [if_neg (by omega)]
    exact ⟨_,rfl⟩

section
variable (h : Follows base text s)
include h

/-- A file that grows is followed through every harmless step. -/
theorem Follows.step {a : Action}
    (ha : Harmless cfg s a) (hstep : step cfg s a=some s') : Follows base text s' := by
  obtain ⟨done,rest,hcontent,hoffset,hout,hphase⟩ := h
  cases a with
  | append bs =>
    obtain rfl := Option.some.inj hstep
    refine ⟨done,rest++bs,by simp [hcontent],hoffset,hout,?_⟩
    rcases hphase with ⟨hphase,-⟩ | hphase
    · exact absurd hphase ha
    · exact .inr hphase
  | truncate size => exact ha.elim
  | tail n =>
    simp only [TailFollow.step,tailStep] at hstep
    rcases hphase with ⟨hphase,rfl⟩ | hphase | hphase | hphase
    · -- the seek goes to where the read ended
      rw [hphase] at hstep
      obtain rfl := Option.some.inj hstep
      refine ⟨done,[],hcontent,?_,hout,.inr (.inl rfl)⟩
      simp [hcontent]
    · rw [hphase] at hstep
      obtain rfl := Option.some.inj hstep
      exact ⟨done,rest,hcontent,hoffset,hout,.inr (.inr (.inl rfl))⟩
    · have hnext : ∃u,s'={ s with unchanged := u,phase := .reading } := by
        rw [hphase] at hstep
        obtain rfl := Option.some.inj hstep
        by_cases hname : cfg.followByName=true
        · obtain ⟨hsize,hsame⟩ := ha hphase hname
          rw [if_pos hname]
          exact poll_eq hsize hsame
        · rw [if_neg hname]
          exact ⟨s.unchanged,rfl⟩
      obtain ⟨u,rfl⟩ := hnext
      exact ⟨done,rest,hcontent,hoffset,hout,.inr (.inr (.inr rfl))⟩
    · rw [hphase] at hstep
      simp only at hstep
      split at hstep
      · obtain rfl := Option.some.inj hstep
        exact ⟨done,rest,hcontent,hoffset,hout,.inr (.inr (.inl rfl))⟩
      split at hstep
      · rename_i hoffers
        obtain rfl := Option.some.inj hstep
        have hle : n≤rest.length := by
          have := hoffers.1.2
          simp only [hcontent,hoffset,length_append] at this
          omega
        refine ⟨done++rest.take n,rest.drop n,?_,?_,?_,.inr (.inr (.inl rfl))⟩
        · simp [hcontent]
        · simp only [hoffset,length_append,length_take]
          omega
        · simp only [hout,chunk_eq hcontent hoffset,append_assoc]
      · cases hstep

theorem Follows.runs (hrun : Runs cfg s s') : Follows base text s' := by
  induction hrun with
  | refl => exact h
  | tail _ hstep ih =>
    obtain ⟨a,ha,hstep⟩ := hstep
    exact ih.step ha hstep

theorem Follows.isPrefix : s.out <+: text++s.content.drop base.length := by
  obtain ⟨done,rest,hcontent,-,hout,-⟩ := h
  rw [hout,hcontent,append_assoc,drop_left,prefix_append_right_inj]
  exact prefix_append done rest

theorem Follows.complete (hend : s.AtEnd) : s.out=text++s.content.drop base.length := by
  obtain ⟨done,rest,hcontent,hoffset,hout,-⟩ := h
  have hrest : rest=[] := by
    have := hend
    simp only [State.AtEnd,hcontent,hoffset,length_append] at this
    exact length_eq_zero_iff.mp (by omega)
  rw [hout,hcontent,hrest,append_nil,drop_left]

end

/-- The read of `tailStream` that meets the end. -/
theorem Streams.finish {n : ℕ} (h : Streams cfg s) (hend : s.AtEnd)
    (hstep : tailStep cfg s n=some s') :
    Follows s.content (tailOf cfg.lineEnd cfg.sel s.content) s' := by
  obtain ⟨p,hphase,hle,hreads⟩ := h
  simp only [tailStep,hphase,hend,if_true,Option.some.injEq] at hstep
  subst hstep
  rw [take_of_length_le hend] at hreads
  have hoffset : s.offset=s.content.length := le_antisymm hle hend
  refine ⟨[],[],by simp,by simpa using hoffset,by simpa using finish_reads hreads,?_⟩
  cases cfg.followByName with
  | true => exact .inr (.inl rfl)
  | false => exact .inl ⟨rfl,rfl⟩

theorem Streams.step {a : Action} (h : Streams cfg s) (ha : Harmless cfg s a)
    (hstep : step cfg s a=some s') : Streams cfg s' ∨ ∃base text,Follows base text s' := by
  obtain ⟨p,hphase,hle,hreads⟩ := h
  cases a with
  | append bs =>
    obtain rfl := Option.some.inj hstep
    refine .inl ⟨p,hphase,?_,?_⟩
    · simp only [length_append]
      omega
    · simp only [take_append_of_le_length hle]
      exact hreads
  | truncate size => exact ha.elim
  | tail n =>
    by_cases hend : s.AtEnd
    · exact .inr ⟨_,_,Streams.finish ⟨p,hphase,hle,hreads⟩ hend hstep⟩
    simp only [TailFollow.step,tailStep,hphase,hend,if_false] at hstep
    split at hstep
    · rename_i hoffers
      obtain rfl := Option.some.inj hstep
      refine .inl ⟨_,rfl,hoffers.2,?_⟩
      have hmore := feed_reads hreads (s.chunk n)
      have htake : s.content.take s.offset++s.chunk n=s.content.take (s.offset+n) := by
        rw [State.chunk,take_add]
      rwa [htake] at hmore
    · cases hstep

theorem initial_runs {content : Bytes} (hrun : Runs cfg (initial cfg content) s) :
    Streams cfg s ∨ ∃base text,Follows base text s := by
  induction hrun with
  | refl => exact .inl (streams_initial content)
  | tail _ hstep ih =>
    obtain ⟨a,ha,hstep⟩ := hstep
    rcases ih with h | ⟨base,text,h⟩
    · exact h.step ha hstep
    · exact .inr ⟨base,text,h.step ha hstep⟩

theorem streams_of_phase {content : Bytes} {p : Progress}
    (hrun : Runs cfg (initial cfg content) s) (hphase : s.phase=.stream p) : Streams cfg s := by
  rcases initial_runs hrun with h | ⟨base,text,done,rest,-,-,-,h⟩
  · exact h
  · simp [hphase] at h

/-- After a poll that found the file to be smaller, it is read from its start. -/
theorem truncated_runs {size : ℕ} (hphase : s.phase=.truncated size) (hrun : Runs cfg s s') :
    s'.phase=.truncated size ∧ s'.out=s.out ∨ Follows [] s.out s' := by
  induction hrun with
  | refl => exact .inl ⟨hphase,rfl⟩
  | @tail t t' _ hstep ih =>
    obtain ⟨a,ha,hstep⟩ := hstep
    rcases ih with ⟨hphase,hout⟩ | h
    · cases a with
      | append bs =>
        obtain rfl := Option.some.inj hstep
        exact .inl ⟨hphase,hout⟩
      | truncate size => exact ha.elim
      | tail n =>
        simp only [TailFollow.step,tailStep,hphase,Option.some.injEq] at hstep
        subst hstep
        exact .inr ⟨[],t.content,by simp,rfl,by simpa using hout,.inr (.inr (.inr rfl))⟩
    · exact .inr (h.step ha hstep)

/-- In every run of harmless steps `tail` loses and repeats nothing. Before the end of the initial
output, what was written is a beginning of the tail of the file. After the read that met the end, it
is a beginning of the tail of the file at that read and of what was appended since, and all of that
when a read of a poll meets the end. After a poll by name that found a smaller file, what is written
is a beginning of what the file holds then. -/
theorem follow_lossless (cfg : Config) (content : Bytes) :
    (∀s p,Runs cfg (initial cfg content) s→s.phase=.stream p→
      s.out <+: tailOf cfg.lineEnd cfg.sel s.content) ∧
    (∀s₁ s₂ s p n,Runs cfg (initial cfg content) s₁→s₁.phase=.stream p→s₁.AtEnd→
      tailStep cfg s₁ n=some s₂→Runs cfg s₂ s→
      s.out <+: tailOf cfg.lineEnd cfg.sel s₁.content++s.content.drop s₁.content.length ∧
      (s.phase=.reading→s.AtEnd→
        s.out=tailOf cfg.lineEnd cfg.sel s₁.content++s.content.drop s₁.content.length)) ∧
    ∀s₁ s size,s₁.phase=.truncated size→Runs cfg s₁ s→
      ∃since,s.out=s₁.out++since ∧ since <+: s.content := by
  refine ⟨fun s p hrun hphase => ?_,fun s₁ s₂ s p n hrun hphase hend hstep hrun' => ?_,
    fun s₁ s size hphase hrun => ?_⟩
  · obtain ⟨p',-,hle,hreads⟩ := streams_of_phase hrun hphase
    have := hreads.isPrefix (s.content.drop s.offset)
    rwa [take_append_drop] at this
  · have hfollows := ((streams_of_phase hrun hphase).finish hend hstep).runs hrun'
    exact ⟨hfollows.isPrefix,fun _ => hfollows.complete⟩
  rcases truncated_runs hphase hrun with ⟨-,hout⟩ | ⟨done,rest,hcontent,-,hout,-⟩
  · exact ⟨[],by simpa using hout, nil_prefix⟩
  · refine ⟨done,hout,?_⟩
    rw [hcontent]
    exact prefix_append done rest

def byDescriptor : Config where
  sel := .linesLast 10
  followByName := false

def byName : Config where
  sel := .linesLast 10
  followByName := true

def run (cfg : Config) : State→List Action→Option State
  | s,[] => some s
  | s,a::actions => (step cfg s a).bind (run cfg · actions)

def harmlessRun (cfg : Config) : State→List Action→Option State
  | s,[] => some s
  | s,a::actions =>
    if Harmless cfg s a then (step cfg s a).bind (harmlessRun cfg · actions) else none

theorem runs_of_harmlessRun {actions : List Action}
    (h : harmlessRun cfg s actions=some s') : Runs cfg s s' := by
  induction actions generalizing s with
  | nil =>
    obtain rfl := Option.some.inj h
    exact .refl
  | cons a actions ih =>
    rw [harmlessRun] at h
    split at h
    · rename_i ha
      obtain ⟨t,hstep,ht⟩ := Option.bind_eq_some_iff.mp h
      exact .head ⟨a,ha,hstep⟩ (ih ht)
    · cases h

theorem follow_lossless_grown : ∃s : State,s.phase=.reading ∧ s.AtEnd ∧
      s.out=tailOf newline (.linesLast 10) (ascii "a\n")++s.content.drop 2 ∧
      s.out=ascii "a\nb\n" := by
  have hread : harmlessRun byDescriptor (initial byDescriptor (ascii "a\n")) [.tail 2] =
      some ⟨ascii "a\n",.stream { queue := [ascii "a\n"] },2,[],-1,0⟩ := rfl
  have hfollow : harmlessRun byDescriptor ⟨ascii "a\n",.streamed,2,ascii "a\n",-1,0⟩
      [.tail 0,.append (ascii "b\n"),.tail 0,.tail 0,.tail 2,.tail 0] =
      some ⟨ascii "a\nb\n",.reading,4,ascii "a\nb\n",4,0⟩ := rfl
  have hlossless := (follow_lossless byDescriptor (ascii "a\n")).2.1 _ _ _ _ 0
    (runs_of_harmlessRun hread) rfl (by decide) rfl (runs_of_harmlessRun hfollow)
  exact ⟨_,rfl,by decide,hlossless.2 rfl (by decide),rfl⟩

/-- `tail -F` on a file that stays as it is writes all of it again after five polls. `tail -f` never
writes what is appended before it seeks to the end. After a truncation to one byte `tail -F` writes
this byte again and again. -/
theorem not_follow_lossless : ((run byName (initial byName (ascii "a\n"))
      (.tail 2::replicate 13 (.tail 0)++[.tail 2])).map fun s => (s.content,s.out)) =
        some (ascii "a\n",ascii "a\na\n") ∧
    ¬ascii "a\na\n" <+: tailOf newline (.linesLast 10) (ascii "a\n")++(ascii "a\n").drop 2 ∧
    ((run byDescriptor (initial byDescriptor (ascii "a\n"))
      [.tail 2,.tail 0,.append (ascii "b\n"),.tail 0,.tail 0,.tail 0]).map fun s =>
        (s.content,s.out,decide (s.phase=.reading ∧ s.AtEnd))) =
        some (ascii "a\nb\n",ascii "a\n",true) ∧
    ascii "a\n" ≠ tailOf newline (.linesLast 10) (ascii "a\n")++(ascii "a\nb\n").drop 2 ∧
    ((run byName (initial byName (ascii "ab\n"))
      [.tail 3,.tail 0,.tail 0,.truncate 1,.tail 0]).bind fun s₁ =>
        (run byName s₁ [.tail 0,.tail 1,.tail 0,.tail 0,.tail 1]).map fun s =>
          (s₁.phase,s₁.out,s.content,s.out)) =
        some (.truncated 1,ascii "ab\n",ascii "a",ascii "ab\naa") ∧ ¬ascii "aa" <+: ascii "a" := by
  decide

end Coreutils.TailFollow
