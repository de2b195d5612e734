import Coreutils.GoText
import Coreutils.Numerals

/-!
# Encodings of basenc

`z85` and `base58` of `cmds/basenc/basenc.go` write digits of a base: the first for words of 32
bits, the second for the whole input as one number.
-/

namespace Coreutils.Basenc
open List GoText Numerals

/-- `filterBytes`; `none` is `nil`. -/
def filterBytes (inAlphabet : UInt8→Bool) (ignore : Bool) : Bytes→Option Bytes
  | [] => some []
  | b::data =>
    if inAlphabet b then (filterBytes inAlphabet ignore data).map (b::·)
    else if ignore || b == newline then filterBytes inAlphabet ignore data
    else none

/-- `strings.IndexByte`; `none` is a negative index. -/
def indexByte (alphabet : Bytes) (b : UInt8) : Option ℕ :=
  if b∈alphabet then some (alphabet.idxOf b) else none

def symbol (alphabet : Bytes) (k : ℕ) : UInt8 := alphabet.getD k 0

def invalidInput : Bytes := ascii "invalid input"

theorem filterBytes_append (p : UInt8→Bool) (ignore : Bool) (s t : Bytes) :
    filterBytes p ignore (s++t) =
      (filterBytes p ignore s).bind fun a => (filterBytes p ignore t).map (a++·) := by
  induction s with
  | nil => simp [filterBytes]
  | cons b s ih =>
    simp only [cons_append,filterBytes,ih]
    split_ifs <;> cases filterBytes p ignore s <;> simp [Function.comp_def]

variable {p : UInt8→Bool} {s : Bytes} {vs ds : List ℕ}

theorem filterBytes_of_all (h : ∀b∈s,p b=true) (ignore : Bool) : filterBytes p ignore s=some s := by
  induction s with
  | nil => rfl
  | cons b s ih =>
    rw [filterBytes,if_pos (h b (by simp)),ih fun c hc => h c (by simp [hc])]
    rfl

section
variable {alphabet : Bytes} {b : UInt8} {k : ℕ}

theorem symbol_eq (h : k<alphabet.length) : symbol alphabet k=alphabet[k] := by simp [symbol,h]

theorem symbol_index (h : b∈alphabet) (hk : k=alphabet.idxOf b) : symbol alphabet k=b := by
  rw [hk,symbol_eq (idxOf_lt_length_of_mem h),getElem_idxOf]

theorem idxOf_symbol (hnodup : alphabet.Nodup) (h : k<alphabet.length) :
    alphabet.idxOf (symbol alphabet k)=k := by
  rw [symbol_eq h,hnodup.idxOf_getElem]

theorem exists_symbols {s : Bytes} (h : ∀b∈s,b∈alphabet) :
    ∃ds : List ℕ,(∀d∈ds,d<alphabet.length) ∧ ds.map (symbol alphabet)=s := by
  refine ⟨s.map (alphabet.idxOf ·),?_,?_⟩
  · intro d hd
    obtain ⟨b,hb,rfl⟩ := mem_map.mp hd
    exact idxOf_lt_length_of_mem (h b hb)
  · rw [map_map]
    exact (map_congr_left fun b hb => symbol_index (h b hb) rfl).trans (map_id _)

theorem symbol_mem (h : k<alphabet.length) : symbol alphabet k∈alphabet :=
  symbol_eq h ▸ getElem_mem h

end

def z85Alphabet : Bytes := ascii
  "0123456789abcdefghijklmnopqrstuvwxyzABCDEFGHIJKLMNOPQRSTUVWXYZ.-:+=^!/*?&<>()[]\x7b\x7d@%$#"

/-- The bytes do not overlap, so that putting them together adds. -/
def word (a b c d : UInt8) : ℕ := a.toNat*2^24+b.toNat*2^16+c.toNat*2^8+d.toNat

def wordBytes (v : ℕ) : Bytes :=
  [.ofNat (v/2^24),.ofNat (v/2^16),.ofNat (v/2^8),.ofNat v]

def z85Block (v : ℕ) : Bytes := spell (symbol z85Alphabet) 85 5 v

def encodeBlocks : Bytes→Bytes
  | a::b::c::d::data => z85Block (word a b c d)++encodeBlocks data
  | _ => []

def encodeZ85 (data : Bytes) : Except Bytes Bytes :=
  if data.length%4≠0 then
    .error (ascii "invalid input (length must be multiple of 4 characters)")
  else .ok (encodeBlocks data)

/-- The accumulator wraps around. -/
def blockWord (block : Bytes) : Option ℕ :=
  block.foldlM (fun v b => (indexByte z85Alphabet b).map fun idx => (v*85+idx)%2^32) 0

def decodeBlocks : Bytes→Option Bytes
  | a::b::c::d::e::encoded => do
    let v ← blockWord [a,b,c,d,e]
    return wordBytes v++(← decodeBlocks encoded)
  | _ => some []

def decodeZ85 (data : Bytes) (ignore : Bool) : Except Bytes Bytes :=
  match filterBytes (·∈z85Alphabet) ignore data with
  | none => .error invalidInput
  | some encoded =>
    if encoded.length%5≠0 then .error invalidInput
    else (decodeBlocks encoded).elim (.error invalidInput) .ok

/-- The numbers that a text spells, five digits each. -/
def blockValues : Bytes→List ℕ
  | a::b::c::d::e::s =>
    [a,b,c,d,e].foldl (fun v x => v*85+z85Alphabet.idxOf x) 0::blockValues s
  | _ => []

theorem nodup_z85 : z85Alphabet.Nodup := by decide

theorem wordBytes_mod (v : ℕ) : wordBytes (v%2^32)=wordBytes v := by
  simp only [wordBytes,cons.injEq,←UInt8.toNat_inj,UInt8.toNat_ofNat',and_true]
  omega

theorem wordBytes_word (a b c d : UInt8) : wordBytes (word a b c d)=[a,b,c,d] := by
  have := a.toNat_lt
  have := b.toNat_lt
  have := c.toNat_lt
  have := d.toNat_lt
  simp only [wordBytes,word,cons.injEq,←UInt8.toNat_inj,UInt8.toNat_ofNat',and_true]
  omega

theorem encodeBlocks_wordBytes (h : ∀v∈vs,v<2^32) :
    encodeBlocks (vs.flatMap wordBytes)=vs.flatMap z85Block := by
  induction vs with
  | nil => rfl
  | cons v vs ih =>
    have hv := h v (by simp)
    rw [flatMap_cons,flatMap_cons,←ih fun u hu => h u (by simp [hu])]
    simp only [wordBytes,cons_append,encodeBlocks,word,UInt8.toNat_ofNat']
    congr 2
    omega

/-- Input of whole words consists of the bytes of words. -/
theorem exists_words {data : Bytes} (h : data.length%4=0) :
    ∃vs : List ℕ,(∀v∈vs,v<2^32) ∧ vs.flatMap wordBytes=data := by
  induction data using encodeBlocks.induct with
  | case1 a b c d data ih =>
    obtain ⟨vs,hvs,rfl⟩ := ih (by simp at h; omega)
    refine ⟨word a b c d::vs,?_,by simp [wordBytes_word]⟩
    have := a.toNat_lt
    have := b.toNat_lt
    have := c.toNat_lt
    have := d.toNat_lt
    have hword : word a b c d<2^32 := by
      rw [word]
      omega
    exact forall_mem_cons.mpr ⟨hword,hvs⟩
  | case2 data hshort =>
    rcases data with _ | ⟨a,_ | ⟨b,_ | ⟨c,_ | ⟨d,data⟩⟩⟩⟩
    · exact ⟨[],by simp⟩
    · simp at h
    · simp at h
    · simp at h
    · exact absurd rfl (hshort a b c d data)

theorem indexByte_of_mem {alphabet : Bytes} {b : UInt8} (h : b∈alphabet) :
    indexByte alphabet b=some (alphabet.idxOf b) := if_pos h

theorem decodeBlocks_eq (hs : ∀b∈s,b∈z85Alphabet) :
    decodeBlocks s=some ((blockValues s).flatMap wordBytes) := by
  induction s using decodeBlocks.induct with
  | case1 a b c d e s ih =>
    simp only [forall_mem_cons] at hs
    obtain ⟨ha,hb,hc,hd,he,hs⟩ := hs
    simp only [decodeBlocks,blockWord,blockValues,ih hs,foldlM_cons,foldlM_nil,foldl_cons,
      foldl_nil,indexByte_of_mem,ha,hb,hc,hd,he,Option.map_some,Option.bind_eq_bind,
      Option.bind_some,Option.pure_def,flatMap_cons]
    rw [←wordBytes_mod (_+_)]
    congr 3
    omega
  | case2 s hshort =>
    rw [decodeBlocks,blockValues]
    · rfl
    · exact hshort
    · exact hshort

/-- A text of whole blocks consists of the digits of its numbers. -/
theorem flatMap_z85Block (hs : ∀b∈s,b∈z85Alphabet) (h : s.length%5=0) :
    (blockValues s).flatMap z85Block=s := by
  induction s using decodeBlocks.induct with
  | case1 a b c d e s ih =>
    simp only [forall_mem_cons] at hs
    obtain ⟨ha,hb,hc,hd,he,hs⟩ := hs
    have hlt : ∀{x},x∈z85Alphabet→z85Alphabet.idxOf x<85 := idxOf_lt_length_of_mem
    have := hlt ha
    have := hlt hb
    have := hlt hc
    have := hlt hd
    have := hlt he
    rw [blockValues,flatMap_cons,ih hs (by simp at h; omega)]
    simp only [z85Block,spell,foldl_cons,foldl_nil,nil_append,cons_append,cons.injEq,and_true]
    exact ⟨symbol_index ha (by omega),symbol_index hb (by omega),symbol_index hc (by omega),
      symbol_index hd (by omega),symbol_index he (by omega)⟩
  | case2 s hshort =>
    rcases s with _ | ⟨a,_ | ⟨b,_ | ⟨c,_ | ⟨d,_ | ⟨e,s⟩⟩⟩⟩⟩
    · rfl
    · simp at h
    · simp at h
    · simp at h
    · simp at h
    · exact absurd rfl (hshort a b c d e s)

theorem blockValues_z85Block (h : ∀v∈vs,v<2^32) : blockValues (vs.flatMap z85Block)=vs := by
  induction vs with
  | nil => rfl
  | cons v vs ih =>
    have hv := h v (by simp)
    have hlt : ∀k,k%85<z85Alphabet.length := fun k => Nat.mod_lt k (by decide)
    rw [flatMap_cons]
    simp only [z85Block,spell,nil_append,cons_append,blockValues,foldl_cons,
      foldl_nil,idxOf_symbol nodup_z85 (hlt _)]
    rw [ih fun u hu => h u (by simp [hu])]
    congr 1
    omega

theorem decodeZ85_eq (hs : ∀b∈s,b∈z85Alphabet) (ignore : Bool) :
    decodeZ85 s ignore=if s.length%5≠0 then .error invalidInput
      else .ok ((blockValues s).flatMap wordBytes) := by
  rw [decodeZ85,filterBytes_of_all (by simpa using hs)]
  simp [decodeBlocks_eq hs]

theorem encodeZ85_iff {x : Bytes} : encodeZ85 x=.ok s ↔
    ∃vs : List ℕ,(∀v∈vs,v<2^32) ∧ vs.flatMap wordBytes=x ∧ vs.flatMap z85Block=s := by
  constructor
  · intro h
    rw [encodeZ85] at h
    split at h
    · cases h
    · rename_i hlen
      obtain ⟨vs,hvs,rfl⟩ := exists_words (by simpa using hlen)
      rw [encodeBlocks_wordBytes hvs] at h
      exact ⟨vs,hvs,rfl,Except.ok.inj h⟩
  · rintro ⟨vs,hvs,rfl,rfl⟩
    have hlen : (vs.flatMap wordBytes).length%4=0 := by
      rw [length_flatMap,show (fun v => (wordBytes v).length)=fun _ => 4 from rfl]
      simp
    rw [encodeZ85,if_neg (by simpa using hlen),encodeBlocks_wordBytes hvs]

theorem decodeZ85_exact_iff {s : Bytes} (hs : ∀b∈s,b∈z85Alphabet) (ignore : Bool) :
    (((∃x,decodeZ85 s ignore=.ok x) ↔ ∃x,encodeZ85 x=.ok s) ∧
        ∀x,encodeZ85 x=.ok s→decodeZ85 s ignore=.ok x) ↔
      (s.length%5=0→∀v∈blockValues s,v<2^32) := by
  rw [decodeZ85_eq hs]
  constructor
  · rintro ⟨hiff,-⟩ hlen
    rw [if_neg (by simpa using hlen)] at hiff
    obtain ⟨x,hx⟩ := hiff.mp ⟨_,rfl⟩
    obtain ⟨vs,hvs,-,rfl⟩ := encodeZ85_iff.mp hx
    rwa [blockValues_z85Block hvs]
  · intro hfits
    have hdecode : ∀x,encodeZ85 x=.ok s→s.length%5=0 ∧ (blockValues s).flatMap wordBytes=x := by
      intro x hx
      obtain ⟨vs,hvs,rfl,rfl⟩ := encodeZ85_iff.mp hx
      refine ⟨?_,by rw [blockValues_z85Block hvs]⟩
      simp [z85Block]
    split_ifs with hlen
    · refine ⟨iff_of_false (by simp) ?_,fun x hx => absurd (hdecode x hx).1 hlen⟩
      rintro ⟨x,hx⟩
      exact hlen (hdecode x hx).1
    · have hlen : s.length%5=0 := by simpa using hlen
      refine ⟨iff_of_true ⟨_,rfl⟩ ⟨_,encodeZ85_iff.mpr ⟨blockValues s,hfits hlen,rfl,?_⟩⟩,?_⟩
      · exact flatMap_z85Block hs hlen
      · intro x hx
        rw [(hdecode x hx).2]

theorem decodeZ85_exact_hello : ∃x,encodeZ85 x=.ok (ascii "HelloWorld") := by
  have hs : ∀b∈ascii "HelloWorld",b∈z85Alphabet := by
    have hall : (ascii "HelloWorld").all (z85Alphabet.contains ·)=true := by decide
    simpa using hall
  have := ((decodeZ85_exact_iff hs false).mpr (by decide)).1
  exact this.mp ⟨_,rfl⟩

theorem decodeZ85_overflow :
    decodeZ85 (ascii "#####") false=.ok [8,120,14,196] ∧ ∀x,encodeZ85 x≠.ok (ascii "#####") := by
  refine ⟨by decide,fun x hx => ?_⟩
  obtain ⟨vs,hvs,-,h⟩ := encodeZ85_iff.mp hx
  have := blockValues_z85Block hvs
  rw [h] at this
  rw [←this] at hvs
  revert hvs
  decide

/-- `wrapWriter.Write`: what is written, and the column it ends in. -/
def wrapFrom (cols : ℕ) : ℕ→ℕ→Bytes→Bytes×ℕ
  | 0,col,_ => ([],col)
  | fuel+1,col,p =>
    if p=[] then ([],col)
    else
      let (nl,col) := if col=cols then ([newline],0) else ([],col)
      let chunk := p.take (cols-col)
      let (out,col) := wrapFrom cols fuel (col+chunk.length) (p.drop chunk.length)
      (nl++chunk++out,col)

def writeWrapped (cols : ℤ) (data : Bytes) : Bytes :=
  if cols≤0 then data
  else
    let (out,col) := wrapFrom cols.toNat data.length 0 data
    if col>0 then out++[newline] else out

section
variable (hp : p newline=false) (ignore : Bool)
include hp ignore

theorem filterBytes_newline : filterBytes p ignore [newline]=some [] := by simp [filterBytes,hp]

theorem filterBytes_wrapFrom {cols fuel col : ℕ} {data : Bytes} (hpos : 0<cols) (hcol : col≤cols)
    (hfuel : data.length≤fuel) (hdata : ∀b∈data,p b=true) :
    filterBytes p ignore (wrapFrom cols fuel col data).1=some data := by
  induction fuel generalizing col data with
  | zero =>
    rw [length_eq_zero_iff.mp (Nat.le_zero.mp hfuel)]
    rfl
  | succ fuel ih =>
    rw [wrapFrom]
    split
    · rename_i hnil
      rw [hnil]
      rfl
    rename_i hne
    -- a line that is full is ended first, so that there is room
    generalize hstart : (if col=cols then (([newline],0) : Bytes×ℕ) else ([],col))=start
    have hroom : start.2<cols ∧ filterBytes p ignore start.1=some [] := by
      rw [←hstart]
      split
      · exact ⟨hpos,filterBytes_newline hp ignore⟩
      · exact ⟨by simp; omega,rfl⟩
    have hchunk : (data.take (cols-start.2)).length=min (cols-start.2) data.length :=
      length_take
    have hrest : ∀b∈data.drop (data.take (cols-start.2)).length,p b=true :=
      fun b hb => hdata b (mem_of_mem_drop hb)
    have htake : ∀b∈data.take (cols-start.2),p b=true :=
      fun b hb => hdata b (mem_of_mem_take hb)
    have := @ih (start.2+(data.take (cols-start.2)).length) _ (by omega)
      (by rw [length_drop]; omega) hrest
    simp only [filterBytes_append,hroom.2,filterBytes_of_all htake,this]
    rw [hchunk,←drop_eq_drop_min]
    simp

theorem filterBytes_writeWrapped (cols : ℤ) {data : Bytes} (hdata : ∀b∈data,p b=true) :
    filterBytes p ignore (writeWrapped cols data)=some data := by
  rw [writeWrapped]
  split
  · exact filterBytes_of_all hdata ignore
  have hpos : 0<cols.toNat := by omega
  have := filterBytes_wrapFrom hp ignore hpos (Nat.zero_le _) le_rfl hdata
  simp only
  split
  · rw [filterBytes_append,this,filterBytes_newline hp]
    simp
  · exact this

end

def base58Alphabet : Bytes :=
  ascii "123456789ABCDEFGHJKLMNPQRSTUVWXYZabcdefghijkmnopqrstuvwxyz"

/-- Zeros in front stand outside the number. -/
def encodeBase58 (data : Bytes) : Bytes :=
  if data=[] then []
  else
    let zeros := (data.takeWhile (· == 0)).length
    let num := data.dropWhile (· == 0)
    let digits := convert 58 256 (num.map UInt8.toNat)
    let digits := digits.filter fun d => !(num.isEmpty && d == 0)
    replicate zeros 49++digits.map (symbol base58Alphabet)

def decodeBase58 (data : Bytes) (ignore : Bool) : Except Bytes Bytes :=
  match filterBytes (·∈base58Alphabet) ignore data with
  | none => .error invalidInput
  | some encoded =>
    if encoded=[] then .ok []
    else
      let zeros := (encoded.takeWhile (· == 49)).length
      match (encoded.drop zeros).mapM (indexByte base58Alphabet) with
      | none => .error invalidInput
      | some idxs =>
        let bytesOut := (convert 256 58 idxs).map UInt8.ofNat
        .ok (replicate zeros 0++if encoded.length≠zeros then bytesOut else [])

theorem nodup_base58 : base58Alphabet.Nodup := by decide

section
variable {a : UInt8} {z : ℕ} {t : Bytes}

theorem exists_zeros (a : UInt8) (s : Bytes) : ∃z t,s=replicate z a++t ∧ t.head?≠some a := by
  induction s with
  | nil => exact ⟨0,[],rfl,by simp⟩
  | cons b s ih =>
    by_cases hb : b=a
    · obtain ⟨z,t,rfl,ht⟩ := ih
      exact ⟨z+1,t,by rw [hb,replicate_succ,cons_append],ht⟩
    · exact ⟨0,b::s,rfl,by simpa using hb⟩

theorem dropWhile_zeros (h : t.head?≠some a) : (replicate z a++t).dropWhile (· == a)=t := by
  induction z with
  | zero =>
    cases t with
    | nil => rfl
    | cons b t => exact dropWhile_cons_of_neg (by simpa using h)
  | succ z ih => simpa using ih

theorem length_takeWhile_zeros (h : t.head?≠some a) :
    ((replicate z a++t).takeWhile (· == a)).length=z := by
  have := congrArg length (takeWhile_append_dropWhile (p := (· == a)) (l := replicate z a++t))
  rw [length_append,dropWhile_zeros h,length_append,length_replicate] at this
  omega

end

theorem encodeBase58_eq (z : ℕ) {num : Bytes} (h : num.head?≠some 0) :
    encodeBase58 (replicate z 0++num) =
      replicate z 49++(recode 58 256 (num.map UInt8.toNat)).map (symbol base58Alphabet) := by
  rw [encodeBase58,length_takeWhile_zeros h,dropWhile_zeros h]
  cases num with
  | nil => cases z <;> simp [recode,convert]
  | cons b num => simp [recode]

theorem mapM_indexByte (h : ∀d∈ds,d<58) :
    (ds.map (symbol base58Alphabet)).mapM (indexByte base58Alphabet)=some ds := by
  induction ds with
  | nil => rfl
  | cons d ds ih =>
    have hd : d<base58Alphabet.length := h d (by simp)
    rw [map_cons,mapM_cons,indexByte_of_mem (symbol_mem hd),idxOf_symbol nodup_base58 hd,
      ih fun x hx => h x (by simp [hx])]
    rfl

theorem decodeBase58_eq {ignore : Bool} {z : ℕ} (hlt : ∀d∈ds,d<58)
    (hhead : ds.head?≠some 0) (hs : filterBytes (·∈base58Alphabet) ignore s =
      some (replicate z 49++ds.map (symbol base58Alphabet))) :
    decodeBase58 s ignore=.ok (replicate z 0++(recode 256 58 ds).map UInt8.ofNat) := by
  have hhead' : (ds.map (symbol base58Alphabet)).head?≠some 49 := by
    cases ds with
    | nil => simp
    | cons d ds =>
      intro h
      have hd := idxOf_symbol nodup_base58 (show d<base58Alphabet.length from hlt d (by simp))
      rw [Option.some.inj h] at hd
      exact hhead (congrArg some hd.symm)
  rw [decodeBase58,hs]
  simp only [length_takeWhile_zeros hhead',drop_left' length_replicate,mapM_indexByte hlt]
  cases ds with
  | nil => cases z <;> simp [recode]
  | cons d ds => simp [recode]

theorem base58_bijection : (∀(x : Bytes) (cols : ℤ) (ignore : Bool),
      decodeBase58 (writeWrapped cols (encodeBase58 x)) ignore=.ok x) ∧
    ∀(s : Bytes) (ignore : Bool),(∀b∈s,b∈base58Alphabet)→
      ∃x,decodeBase58 s ignore=.ok x ∧ encodeBase58 x=s := by
  constructor
  · intro x cols ignore
    obtain ⟨z,num,rfl,hnum⟩ := exists_zeros 0 x
    have hbytes : (num.map UInt8.toNat).map UInt8.ofNat=num := by simp [Function.comp_def]
    have hhead : (num.map UInt8.toNat).head?≠some 0 := by
      intro h
      rw [←hbytes,head?_map,h] at hnum
      exact hnum rfl
    obtain ⟨hlt,hhead',hback⟩ := recode_recode (r := 58) (f := 256) (by decide) (by decide)
      (by simp [UInt8.toNat_lt_size]) hhead
    have hsyms : ∀b∈encodeBase58 (replicate z 0++num),b∈base58Alphabet := by
      rw [encodeBase58_eq z hnum]
      refine forall_mem_append.mpr
        ⟨fun b hb => ?_,forall_mem_map.mpr fun d hd => symbol_mem (hlt d hd)⟩
      rw [(mem_replicate.mp hb).2]
      decide
    rw [decodeBase58_eq hlt hhead',hback,hbytes]
    rw [←encodeBase58_eq z hnum]
    exact filterBytes_writeWrapped (by decide) ignore cols (by simpa using hsyms)
  · intro s ignore hs
    obtain ⟨z,t,rfl,ht⟩ := exists_zeros 49 s
    obtain ⟨ds,hds,rfl⟩ := exists_symbols fun b hb => hs b (mem_append_right _ hb)
    have hhead : ds.head?≠some 0 := by
      intro h
      rw [head?_map,h] at ht
      exact ht rfl
    obtain ⟨hlt,hhead',hback⟩ := recode_recode (r := 256) (f := 58) (by decide) (by decide) hds
      hhead
    have hbytes : ((recode 256 58 ds).map UInt8.ofNat).map UInt8.toNat=recode 256 58 ds := by
      rw [map_map]
      exact (map_congr_left fun d hd => UInt8.toNat_ofNat_of_lt' (hlt d hd)).trans (map_id _)
    refine ⟨_,decodeBase58_eq hds hhead (filterBytes_of_all (by simpa using hs) ignore),?_⟩
    rw [encodeBase58_eq,hbytes,hback]
    intro h
    rw [←hbytes,head?_map,h] at hhead'
    exact hhead' rfl

end Coreutils.Basenc
