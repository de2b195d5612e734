import Coreutils.XargsInput
import Mathlib.Data.Finset.Card
import Mathlib.Data.List.Chain

/-!
# The batches of xargs

`plan` outside replace mode. The inner loop appends items to one command as long as the three limits
allow it. What a batch may hold is stated on the items alone (`Within`); the counters follow it, and
the batches are the greedy cut of the items.
-/

namespace Coreutils.XargsPlan
open List GoText XargsInput

/-- The options that `plan` reads, `replace` apart. -/
structure Limits where
  maxArgs : ℤ := -1
  maxLines : ℤ := 0
  maxChars : ℤ := 0
  exactSize : Bool := false
  noRunEmpty : Bool := false
  strictSize : Bool := false
  deriving DecidableEq,Repr

def argvSize (argv : List Bytes) : ℕ := (argv.map (·.length+1)).sum

def sizeLimitExceeded (size : ℕ) (o : Limits) : Bool :=
  if o.maxChars≤0 then false
  else if o.strictSize then size≥o.maxChars
  else size>o.maxChars

def tooLarge (size : ℕ) (o : Limits) : Bool :=
  if o.strictSize then size≥o.maxChars else size>o.maxChars

/-- The variables of the inner loop; `count` is `end-start`. -/
structure Batch where
  argv : List Bytes
  size : ℕ
  lines : ℤ
  count : ℤ
  lastLine : ℤ

def Batch.add (b : Batch) (it : InputItem) : Batch where
  argv := b.argv++[it.value]
  size := b.size+(it.value.length+1)
  lines := if (it.line : ℤ)≠b.lastLine then b.lines+1 else b.lines
  count := b.count+1
  lastLine := it.line

/-- The inner loop: the arguments of one command and the items left. -/
def fill (o : Limits) (b : Batch) : List InputItem→Except Bytes (List Bytes×List InputItem)
  | [] => .ok (b.argv,[])
  | it::rest =>
    if (it.line : ℤ)≠b.lastLine ∧ 0<o.maxLines ∧ b.lines=o.maxLines then .ok (b.argv,it::rest)
    else if 0<o.maxArgs ∧ b.count=o.maxArgs then .ok (b.argv,it::rest)
    else if tooLarge (b.size+(it.value.length+1)) o then
      if o.exactSize ∨ b.count=0 then .error (ascii "constructed command exceeds size limit")
      else .ok (b.argv,it::rest)
    else fill o (b.add it) rest

/-- The outer loop; `none` stands for a loop that is still running when the fuel is used up. -/
def batchesFrom (o : Limits) (command : List Bytes) :
    ℕ→List InputItem→Option (Except Bytes (List (List Bytes)))
  | _,[] => some (.ok [])
  | 0,_::_ => none
  | n+1,it::items =>
    match fill o ⟨command,argvSize command,0,0,-1⟩ (it::items) with
    | .error e => some (.error e)
    | .ok (argv,rest) => (batchesFrom o command n rest).map (·.map (argv::·))

def plan (command : List Bytes) (items : List InputItem) (o : Limits) :
    Option (Except Bytes (List (List Bytes))) :=
  if items=[] ∧ o.noRunEmpty then some (.ok [])
  else if sizeLimitExceeded (argvSize command) o then
    some (.error (ascii "command exceeds -s size limit"))
  else if items=[] then some (.ok [command])
  else batchesFrom o command items.length items

def values (items : List InputItem) : List Bytes := items.map (·.value)

/-- How many lines the items come from. -/
def lineCount (items : List InputItem) : ℕ := (items.map (·.line)).toFinset.card

/-- The command with these items keeps the three limits. -/
@[mk_iff] structure Within (o : Limits) (command : List Bytes) (items : List InputItem) : Prop where
  size : ¬sizeLimitExceeded (argvSize (command++values items)) o
  args : 0<o.maxArgs→(items.length : ℤ)≤o.maxArgs
  lines : 0<o.maxLines→(lineCount items : ℤ)≤o.maxLines

/-- A cut into non-empty batches within the limits, none with room for the next item. -/
structure Greedy (o : Limits) (command : List Bytes) (items : List InputItem)
    (batches : List (List InputItem)) : Prop where
  complete : batches.flatten=items
  nonempty : ∀batch∈batches,batch≠[]
  within : ∀batch∈batches,Within o command batch
  maximal : batches.IsChain fun batch next => ∀it∈next.head?,¬Within o command (batch++[it])

/-- Some item does not fit, not even alone. -/
def Oversized (o : Limits) (command : List Bytes) (items : List InputItem) : Prop :=
  ∃it∈items,sizeLimitExceeded (argvSize (command++[it.value])) o

def Ascending (items : List InputItem) : Prop := items.Pairwise (·.line≤·.line)

/-- The counters of the inner loop after the items `taken`. -/
structure Tracks (command : List Bytes) (b : Batch) (taken : List InputItem) : Prop where
  argv : b.argv=command++values taken
  size : b.size=argvSize (command++values taken)
  lines : b.lines=lineCount taken
  count : b.count=taken.length
  last : b.lastLine=(taken.getLast?.map fun it => (it.line : ℤ)).getD (-1)

variable {o : Limits} {command : List Bytes} {items taken rest : List InputItem} {it : InputItem}
  {b : Batch} {batches : List (List InputItem)}

theorem Tracks.start : Tracks command ⟨command,argvSize command,0,0,-1⟩ [] := by
  constructor <;> simp [values,lineCount]

/-- Lines never go back, so a line number is new if it differs from the last one. -/
theorem Tracks.mem_line (h : Tracks command b taken) (hs : Ascending (taken++[it])) :
    (it.line : ℤ)=b.lastLine ↔ it.line∈taken.map (·.line) := by
  rw [h.last]
  cases eq_nil_or_concat taken with
  | inl hn => simp [hn]
  | inr hl =>
    obtain ⟨xs,x,rfl⟩ := hl
    simp only [Ascending,concat_eq_append,pairwise_append,mem_append,mem_singleton,forall_eq] at hs
    suffices ∀y∈xs,y.line=it.line→it.line=x.line by simpa
    intro y hy he
    have hyx := hs.1.2.2 y hy
    have hxi := hs.2.2 x (.inr rfl)
    omega

theorem lineCount_append : lineCount (taken++[it])=
    if it.line∈taken.map (·.line) then lineCount taken else lineCount taken+1 := by
  have he : ((taken++[it]).map (·.line)).toFinset=
      insert it.line (taken.map (·.line)).toFinset := by
    simp
  rw [lineCount,he,lineCount]
  split_ifs with hm
  · rw [Finset.insert_eq_of_mem (by simpa using hm)]
  · rw [Finset.card_insert_of_notMem (by simpa using hm)]

theorem Tracks.add (h : Tracks command b taken) (hs : Ascending (taken++[it])) :
    Tracks command (b.add it) (taken++[it]) where
  argv := by simp [Batch.add,h.argv,values]
  size := by simp [Batch.add,h.size,values,argvSize,add_assoc]
  lines := by
    simp only [Batch.add,ne_eq,h.mem_line hs,h.lines,lineCount_append]
    split_ifs <;> simp_all
  count := by simp [Batch.add,h.count]
  last := by simp [Batch.add]

theorem Greedy.cons {batch : List InputItem} (h : Greedy o command rest batches) (hn : batch≠[])
    (hw : Within o command batch) (hm : ∀next∈rest.head?,¬Within o command (batch++[next])) :
    Greedy o command (batch++rest) (batch::batches) where
  complete := by simp [h.complete]
  nonempty := by simpa [hn] using h.nonempty
  within := by simpa [hw] using h.within
  maximal := by
    refine isChain_cons.mpr ⟨fun next hb => ?_,h.maximal⟩
    have he : next.head?=rest.head? := by
      rw [←h.complete,eq_cons_of_mem_head? hb,flatten_cons,
        head?_append_of_ne_nil _ (h.nonempty _ (mem_of_mem_head? hb))]
    rwa [he]

section Limited
variable (hc : 0<o.maxChars)
include hc

theorem sizeLimitExceeded_eq (n : ℕ) : sizeLimitExceeded n o=tooLarge n o := by
  rw [sizeLimitExceeded,if_neg (not_le.mpr hc),tooLarge]

section
variable (h : Tracks command b taken) (hw : Within o command taken)
include h hw

/-- The three tests of the inner loop say whether the command may hold the item as well. -/
theorem Within.add_iff (hs : Ascending (taken++[it])) : Within o command (taken++[it]) ↔
      ¬((it.line : ℤ)≠b.lastLine ∧ 0<o.maxLines ∧ b.lines=o.maxLines) ∧
      ¬(0<o.maxArgs ∧ b.count=o.maxArgs) ∧ ¬tooLarge (b.size+(it.value.length+1)) o := by
  have hadd := h.add hs
  have hargs := hw.args
  have hlines := hw.lines
  rw [←h.count] at hargs
  rw [←h.lines] at hlines
  rw [within_iff,←hadd.size,←hadd.count,←hadd.lines,sizeLimitExceeded_eq hc]
  simp only [Batch.add]
  constructor
  · rintro ⟨ht,ha,hl⟩
    refine ⟨fun hn => ?_,by omega,ht⟩
    omega
  · rintro ⟨hl,ha,ht⟩
    refine ⟨ht,by omega,fun hp => ?_⟩
    split_ifs <;> omega

/-- An item that the command may not hold ends it, or it is too large and the plan fails. -/
theorem fill_stop (hs : Ascending (taken++[it])) (ht : ¬Within o command (taken++[it])) :
    taken≠[] ∧ fill o b (it::rest)=.ok (b.argv,it::rest) ∨
    (∃e,fill o b (it::rest)=.error e) ∧ (o.exactSize ∨ Oversized o command (it::rest)) := by
  have hnil : taken=[] → b.lines=0 ∧ b.count=0 := by
    rintro rfl
    exact ⟨h.lines,h.count⟩
  rw [fill]
  split_ifs with hl ha hn hx
  · exact .inl ⟨fun he => by have := hnil he; omega,rfl⟩
  · exact .inl ⟨fun he => by have := hnil he; omega,rfl⟩
  · refine .inr ⟨⟨_,rfl⟩,hx.imp_right fun h0 => ⟨it,mem_cons_self,?_⟩⟩
    obtain rfl : taken=[] := by simpa [h0] using h.count.symm
    rw [sizeLimitExceeded_eq hc]
    simpa [h.size,values,argvSize] using hn
  · exact .inl ⟨fun he => hx (.inr (hnil he).2),rfl⟩
  · exact absurd ((Within.add_iff hc h hw hs).mpr ⟨hl,ha,hn⟩) ht

/-- One command takes as many items as it may hold, at least one. -/
theorem fill_spec (hs : Ascending (taken++items)) (hn : taken++items≠[]) :
    (∃new rest,items=new++rest ∧ fill o b items=.ok (command++values (taken++new),rest) ∧
      taken++new≠[] ∧ Within o command (taken++new) ∧
      ∀next∈rest.head?,¬Within o command (taken++new++[next])) ∨
    (∃e,fill o b items=.error e) ∧ (o.exactSize ∨ Oversized o command items) := by
  induction items generalizing b taken with
  | nil => exact .inl ⟨[],[],rfl,by simp [fill,h.argv],hn,by simpa using hw,by simp⟩
  | cons it rest ih =>
    have hs' : Ascending (taken++[it]) := hs.sublist (by simp)
    by_cases ht : Within o command (taken++[it])
    · obtain ⟨hl,ha,hb⟩ := (Within.add_iff hc h hw hs').mp ht
      rw [fill,if_neg hl,if_neg ha,if_neg hb]
      obtain ⟨new,left,rfl,hr⟩|⟨he,hx⟩ := ih (h.add hs') ht (by simpa using hs) (by simp)
      · exact .inl ⟨it::new,left,rfl,by simpa using hr⟩
      · exact .inr ⟨he,hx.imp_right fun ⟨i,hi,hl⟩ => ⟨i,mem_cons_of_mem _ hi,hl⟩⟩
    · refine (fill_stop hc h hw hs' ht).imp_left fun ⟨h0,hr⟩ => ⟨[],it::rest,rfl,?_⟩
      simpa [hr,h.argv,hw,h0] using ht

end

/-- The outer loop stops: every round takes an item. -/
theorem batchesFrom_spec (hb : ¬sizeLimitExceeded (argvSize command) o) {n : ℕ}
    (hs : Ascending items) (hn : items.length≤n) :
    (∃batches,batchesFrom o command n items=some (.ok (batches.map (command++values ·))) ∧
      Greedy o command items batches) ∨ (∃e,batchesFrom o command n items=some (.error e)) ∧
      (o.exactSize ∨ Oversized o command items) := by
  induction n generalizing items with
  | zero =>
    obtain rfl : items=[] := by simpa using hn
    exact .inl ⟨[],rfl,by constructor <;> simp⟩
  | succ n ih =>
    cases items with
    | nil => exact .inl ⟨[],rfl,by constructor <;> simp⟩
    | cons it items =>
      have h0 : Within o command [] := ⟨by simpa [values] using hb,fun h => by simpa using h.le,
        fun h => by simpa [lineCount] using h.le⟩
      rw [batchesFrom]
      obtain ⟨new,rest,he,hf,hne,hw,hm⟩|⟨⟨e,he⟩,hx⟩ := fill_spec hc .start h0 hs (by simp)
      · rw [nil_append] at hf hne hw hm
        rw [hf,he]
        rw [he] at hs hn
        have hl : rest.length≤n := by
          have := length_pos_of_ne_nil hne
          rw [length_append] at hn
          omega
        obtain ⟨batches,hr,hg⟩|⟨⟨e,hr⟩,hx⟩ := ih (hs.sublist (by simp)) hl
        · exact .inl ⟨new::batches,by simp [hr,Except.map],hg.cons hne hw hm⟩
        · exact .inr ⟨⟨e,by simp [hr,Except.map]⟩,
            hx.imp_right fun ⟨i,hi,hl⟩ => ⟨i,mem_append_right _ hi,hl⟩⟩
      · exact .inr ⟨⟨e,by rw [he]⟩,hx⟩

/-- The items of a greedy cut fit one by one. -/
theorem Greedy.not_oversized (h : Greedy o command items batches) : ¬Oversized o command items := by
  rintro ⟨it,hi,hx⟩
  rw [←h.complete,mem_flatten] at hi
  obtain ⟨batch,hb,hi⟩ := hi
  obtain ⟨xs,ys,rfl⟩ := append_of_mem hi
  have hw := (h.within _ hb).size
  have hle : argvSize (command++[it.value])≤argvSize (command++values (xs++it::ys)) := by
    simp [argvSize,values]
    omega
  rw [sizeLimitExceeded_eq hc,tooLarge] at *
  split_ifs at * <;> simp_all <;> omega

end Limited

/-- For a positive size limit, `plan` ends. It fails or cuts the items greedily, and without `-x` it
fails only if the command does not fit, alone or with one item. -/
theorem plan_greedy (command : List Bytes) (items : List InputItem) (o : Limits)
    (hne : items≠[]) (hs : Ascending items) (hc : 0<o.maxChars) :
    ((∃batches,plan command items o=some (.ok (batches.map (command++values ·))) ∧
      Greedy o command items batches) ∨ ∃e,plan command items o=some (.error e)) ∧
    (o.exactSize=false→((∃e,plan command items o=some (.error e)) ↔
      sizeLimitExceeded (argvSize command) o ∨ Oversized o command items)) := by
  rw [plan,if_neg (by simp [hne])]
  split_ifs with hb
  · simp [hb]
  · obtain ⟨batches,hr,hg⟩|⟨he,hx⟩ := batchesFrom_spec hc hb hs le_rfl
    · exact ⟨.inl ⟨batches,hr,hg⟩,fun _ => by simp [hr,hb,hg.not_oversized hc]⟩
    · exact ⟨.inr he,fun hf => ⟨fun _ => .inr (hx.resolve_left (by simp [hf])),fun _ => he⟩⟩

/-- `xargs -s 9 -L 1 a` on the lines `b`, `c d` and `eeee`. -/
theorem plan_three_lines : plan [ascii "a"]
      [⟨ascii "b",1⟩,⟨ascii "c",2⟩,⟨ascii "d",2⟩,⟨ascii "eeee",3⟩] {maxChars := 9,maxLines := 1}=
    some (.ok [[ascii "a",ascii "b"],[ascii "a",ascii "c",ascii "d"],[ascii "a",ascii "eeee"]]) ∧
    ¬∃e,plan [ascii "a"] [⟨ascii "b",1⟩,⟨ascii "c",2⟩,⟨ascii "d",2⟩,⟨ascii "eeee",3⟩]
      {maxChars := 9,maxLines := 1}=some (.error e) := by
  refine ⟨by decide,?_⟩
  rw [(plan_greedy _ _ _ (by decide) (by unfold Ascending; decide) (by decide)).2 rfl,Oversized]
  decide

end Coreutils.XargsPlan
