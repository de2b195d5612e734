import Coreutils.Uuencode

/-!
# What uudecode makes of the output of uuencode

The output is a header, a line for each buffer and a terminator. A data line has at least five
characters, so it is no `end`, and a line of base64 never starts with a padding character, so it is
no `====`.
-/

namespace Coreutils.UuRoundTrip
open List GoText Readers Sextets Uuencode

/-- All buffers but the last one are full. -/
inductive Blocks (size : ℕ) : List Bytes→Prop
  | nil : Blocks size []
  | last {b : Bytes} (hne : b≠[]) (hle : b.length ≤ size) : Blocks size [b]
  | cons {b : Bytes} {bufs : List Bytes} (hb : b.length=size) (h : Blocks size bufs) :
    Blocks size (b::bufs)

variable {bufs : List Bytes} {l : Bytes}

theorem Blocks.bounds {size : ℕ} (h : Blocks size bufs) (hsize : 0<size) :
    ∀b∈bufs,b≠[] ∧ b.length ≤ size := by
  induction h with
  | nil => simp
  | last hne hle => simp [hne,hle]
  | @cons b bufs hb _ ih =>
    have hne : b≠[] := by
      rintro rfl
      simp at hb
      omega
    exact forall_mem_cons.mpr ⟨⟨hne,hb.le⟩,ih⟩

theorem encodeLoop_spec (size : ℕ) (hsize : 0<size) (line : Bytes→Bytes) {fuel : ℕ}
    {reads : List Bytes} (hfuel : reads.flatten.length<fuel) :
    ∃bufs,encodeLoop size line fuel reads=some (printLines (bufs.map line)) ∧
      bufs.flatten=reads.flatten ∧ Blocks size bufs := by
  induction fuel generalizing reads with
  | zero => omega
  | succ fuel ih =>
    obtain ⟨hbuf,hrest⟩ := readFull_spec reads size
    simp only [encodeLoop]
    split
    · rename_i hnil
      rw [hbuf,take_eq_nil_iff] at hnil
      have hdata : reads.flatten=[] := hnil.resolve_left (by omega)
      exact ⟨[],rfl,by rw [hdata]; rfl,.nil⟩
    · rename_i hne
      split
      · rename_i hshort
        rw [hbuf,length_take] at hshort
        have htake : (readFull reads size).1=reads.flatten := by
          rw [hbuf,take_of_length_le (by omega)]
        refine ⟨[reads.flatten],?_,by simp,.last (htake ▸ hne) (by omega)⟩
        rw [htake]
        simp [printLines]
      · rename_i hfull
        have hlen : (readFull reads size).1.length=size := by
          rw [hbuf,length_take] at hfull ⊢
          omega
        have hshorter : (readFull reads size).2.flatten.length<fuel := by
          rw [hbuf,length_take] at hlen
          rw [hrest,length_drop]
          omega
        obtain ⟨bufs,heq,hflat,hblocks⟩ := ih hshorter
        refine ⟨(readFull reads size).1::bufs,?_,?_,.cons hlen hblocks⟩
        · rw [heq]
          simp [printLines]
        · rw [flatten_cons,hflat,hbuf,hrest,take_append_drop]

/-- A line without a line end inside it or at its end. -/
structure Clean (l : Bytes) : Prop where
  newline_notMem : newline∉l
  getLast_ne : l.getLast?≠some carriageReturn

theorem clean_of_forall (h : ∀c∈l,32≤c) : Clean l where
  newline_notMem hmem := absurd (h newline hmem) (by decide)
  getLast_ne hlast := absurd (h carriageReturn (mem_of_getLast? hlast)) (by decide)

theorem clean_of_all (h : l.all (32≤·)) : Clean l :=
  clean_of_forall fun c hc => of_decide_eq_true (all_eq_true.mp h c hc)

theorem trimLine_append (h : Clean l) : trimLine (l++[newline])=l := by simp [trimLine,h.getLast_ne]

theorem inputLines_eq {input : Reader} {ls : List Bytes} (hcontent : input.content=printLines ls)
    (hls : ∀l∈ls,Clean l) : inputLines input=ls++[[]] := by
  have hcontent' : input.reads.flatten=printLines ls := hcontent
  rw [inputLines,readStrings_eq,hcontent',
    readLines_printLines fun l hl => (hls l hl).newline_notMem,map_append,map_map]
  congr 1
  exact (map_congr_left fun l hl => trimLine_append (hls l hl)).trans (map_id ls)

variable (b : UInt8) (base64 : Bool) (mode : UInt32) {buf name : Bytes}

theorem toNat_and_63 : (b &&& 0x3f).toNat=b.toNat%64 := by
  have h63 : (63 : ℕ)=2^6-1 := rfl
  simp only [UInt8.toNat_and,UInt8.reduceToNat]
  rw [h63,Nat.and_two_pow_sub_one_eq_mod]

theorem toNat_enc : (enc b).toNat=b.toNat%64+32 := by
  simp only [enc,UInt8.toNat_add,toNat_and_63,UInt8.reduceToNat]
  omega

theorem dec_enc : dec (enc b)=b &&& 0x3f := by
  have hsub : enc b-0x20=b &&& 0x3f := by rw [enc,UInt8.add_sub_cancel]
  rw [dec,hsub]
  apply UInt8.toNat_inj.mp
  rw [toNat_and_63,toNat_and_63]
  omega

theorem enc_bounds : 0x20≤enc b ∧ enc b<0x60 := by
  have := toNat_enc b
  rw [UInt8.le_iff_toNat_le,UInt8.lt_iff_toNat_lt]
  simp only [UInt8.reduceToNat]
  omega

theorem mem_encodeGroup {v : UInt32} {c : UInt8} (h : c∈encodeGroup v) : ∃b,c=enc b := by
  simp only [encodeGroup,mem_cons,not_mem_nil,or_false] at h
  rcases h with rfl | rfl | rfl | rfl
  all_goals exact ⟨_,rfl⟩

theorem mem_encodeGroups : ∀c∈encodeGroups buf,∃b,c=enc b := by
  fun_induction encodeGroups buf with
  | case1 => simp
  | case2 | case3 => exact fun c => mem_encodeGroup
  | case4 a b c buf ih =>
    exact forall_mem_append.mpr ⟨fun _ => mem_encodeGroup,ih⟩

theorem length_encodeGroups (buf : Bytes) : (encodeGroups buf).length=(buf.length+2)/3*4 := by
  fun_induction encodeGroups buf with
  | case1 => rfl
  | case2 | case3 => simp [encodeGroup]
  | case4 a b c buf ih =>
    simp only [length_append,length_cons,encodeGroup,length_nil]
    omega

theorem decodeGroups_group (n : ℕ) (a b c : UInt8) (chars : Bytes) :
    decodeGroups (n+1) (encodeGroup (join3 a b c)++chars) =
      (decodeGroups n chars).map ([a,b,c]++·) := by
  have hfind : (encodeGroup (join3 a b c)).find? (fun c => c<0x20 || 0x60<c)=none := by
    rw [find?_eq_none]
    intro x hx
    obtain ⟨y,rfl⟩ := mem_encodeGroup hx
    have := enc_bounds y
    simp only [UInt8.le_iff_toNat_le,UInt8.lt_iff_toNat_lt,Bool.or_eq_true,decide_eq_true_eq]
      at this ⊢
    omega
  obtain ⟨ha,hb,hc⟩ := bytes_join3 a b c
  have hjoin := join4_sextets a b c
  simp only [encodeGroup,cons_append] at hfind ⊢
  rw [decodeGroups,hfind]
  simp only [dec_enc]
  simp only [sextet,UInt32.shiftRight_zero] at hjoin
  rw [hjoin,ha,hb,hc]
  rfl

/-- A group that lacks bytes gives zeros after the bytes it has. -/
theorem decodeGroups_encodeGroups (buf : Bytes) :
    ∃zeros,decodeGroups ((buf.length+2)/3) (encodeGroups buf)=.ok (buf++zeros) := by
  fun_induction encodeGroups buf with
  | case1 => exact ⟨[],rfl⟩
  | case2 a =>
    have hgroup : decodeGroups 1 (encodeGroup (join3 a 0 0)++[])=.ok [a,0,0] :=
      decodeGroups_group 0 a 0 0 []
    exact ⟨[0,0],by simpa using hgroup⟩
  | case3 a b =>
    have hgroup : decodeGroups 1 (encodeGroup (join3 a b 0)++[])=.ok [a,b,0] :=
      decodeGroups_group 0 a b 0 []
    exact ⟨[0],by simpa using hgroup⟩
  | case4 a b c buf ih =>
    obtain ⟨zeros,ih⟩ := ih
    have hlen : ((a::b::c::buf).length+2)/3=(buf.length+2)/3+1 := by
      simp only [length_cons]
      omega
    refine ⟨zeros,?_⟩
    rw [hlen,decodeGroups_group,ih]
    rfl

theorem decodeData_encodeGroups (h : buf.length≤45) :
    decodeData buf.length (encodeGroups buf)=.ok buf := by
  obtain ⟨zeros,hzeros⟩ := decodeGroups_encodeGroups buf
  rw [decodeData,length_encodeGroups,if_neg (by omega),hzeros]
  simp [Except.map]

theorem toNat_dec_length (h : buf.length≤45) :
    (dec (enc (.ofNat buf.length))).toNat=buf.length := by
  rw [dec_enc,toNat_and_63,UInt8.toNat_ofNat']
  omega

theorem clean_classicLine (buf : Bytes) : Clean (classicLine buf) := by
  refine clean_of_forall (forall_mem_cons.mpr ⟨(enc_bounds _).1,fun c hc => ?_⟩)
  obtain ⟨b,rfl⟩ := mem_encodeGroups c hc
  exact (enc_bounds b).1

theorem decodeClassic_encoded (h : ∀b∈bufs,b≠[] ∧ b.length≤45) (rest : List Bytes) :
    decodeClassic (bufs.map classicLine++ascii " " :: ascii "end" :: rest) =
      (bufs.flatten,.ok rest) := by
  induction bufs with
  | nil => rfl
  | cons buf bufs ih =>
    obtain ⟨hne,hle⟩ := h buf mem_cons_self
    have hpos : 0<buf.length := length_pos_iff.mpr hne
    have hdec := toNat_dec_length hle
    -- a data line is longer than the terminator
    have hend : enc (.ofNat buf.length)::encodeGroups buf≠ascii "end" := by
      intro heq
      have := congrArg length heq
      simp only [length_cons,length_encodeGroups,show (ascii "end").length=3 from rfl] at this
      omega
    have hzero : dec (enc (.ofNat buf.length))≠0 := by
      intro heq
      rw [heq] at hdec
      simp at hdec
      omega
    have ih := ih fun b hb => h b (mem_cons_of_mem buf hb)
    rw [map_cons,cons_append,classicLine,decodeClassic,if_neg hend,if_neg hzero,hdec,
      decodeData_encodeGroups hle]
    simp [ih]

theorem alphabet_nodup : alphabet.Nodup := by
  have hnodup : (alphabet.map UInt8.toNat).Nodup := by decide
  exact hnodup.of_map

theorem length_alphabet : alphabet.length=64 := by decide

theorem encode64_mem {i : UInt8} (hi : i.toNat<64) : encode64 i∈alphabet := by
  rw [←length_alphabet] at hi
  rw [encode64,getD_eq_getElem _ _ hi]
  exact getElem_mem hi

theorem decode64_encode64 {i : UInt8} (hi : i.toNat<64) : decode64 (encode64 i)=some i := by
  rw [decode64,if_pos (encode64_mem hi)]
  rw [←length_alphabet] at hi
  rw [encode64,getD_eq_getElem _ _ hi,alphabet_nodup.idxOf_getElem,UInt8.ofNat_toNat]

theorem of_mem_alphabet (c : UInt8) (hc : c∈alphabet) : base64Char c ∧ c≠padChar ∧ 32≤c := by
  have hall : alphabet.all fun c => base64Char c ∧ c≠padChar ∧ 32≤c := by decide
  exact of_decide_eq_true (all_eq_true.mp hall c hc)

section
variable (v : UInt32) {i : UInt32} (hi : i.toNat<32)
include hi

theorem decode64_sextet : decode64 (encode64 (sextet v i))=some (sextet v i) :=
  decode64_encode64 (sextet_lt v hi)

theorem sextet_char : base64Char (encode64 (sextet v i)) ∧ encode64 (sextet v i)≠padChar ∧
    32≤encode64 (sextet v i) :=
  of_mem_alphabet _ (encode64_mem (sextet_lt v hi))

end

theorem decode64_padChar : decode64 padChar=none := by decide

section
variable (a b c : UInt8)

theorem decodeQuantum_one :
    decodeQuantum (encode64 (sextet (join3 a 0 0) 18)) (encode64 (sextet (join3 a 0 0) 12)) padChar
      padChar=some [a] := by
  have hjoin := join4_sextets a 0 0
  rw [(sextet_join3_zero a 0).1,(sextet_join3_zero a 0).2] at hjoin
  simp [decodeQuantum,decode64_sextet,decode64_padChar,hjoin,(bytes_join3 a 0 0).1]

theorem decodeQuantum_two :
    decodeQuantum (encode64 (sextet (join3 a b 0) 18)) (encode64 (sextet (join3 a b 0) 12))
      (encode64 (sextet (join3 a b 0) 6)) padChar=some [a,b] := by
  have hjoin := join4_sextets a b 0
  rw [(sextet_join3_zero a b).1] at hjoin
  simp [decodeQuantum,decode64_sextet,decode64_padChar,hjoin,bytes_join3]

theorem decodeQuantum_three :
    decodeQuantum (encode64 (sextet (join3 a b c) 18)) (encode64 (sextet (join3 a b c) 12))
      (encode64 (sextet (join3 a b c) 6)) (encode64 (sextet (join3 a b c) 0))=some [a,b,c] := by
  simp [decodeQuantum,decode64_sextet,join4_sextets,bytes_join3]

end

theorem decodeLine_quantum {p q r s : UInt8} {decoded : Bytes} (hp : base64Char p)
    (hq : base64Char q) (hr : base64Char r) (hs : base64Char s)
    (h : decodeQuantum p q r s=some decoded) (line : Bytes) : decodeLine {} ([p,q,r,s]++line) =
      (decoded++(decodeLine ⟨[],r=padChar || s=padChar⟩ line).1,
        (decodeLine ⟨[],r=padChar || s=padChar⟩ line).2) := by
  simp [decodeLine,decodeChar,hp,hq,hr,hs,h]

theorem decodeLine_base64Line (buf : Bytes) :
    decodeLine {} (base64Line buf)=(buf,.ok ⟨[],decide (buf.length%3≠0)⟩) := by
  have hchar : ∀v i,i.toNat<32 → base64Char (encode64 (sextet v i)) := fun v _ hi =>
    (sextet_char v hi).1
  have hpad : base64Char padChar := by decide
  fun_induction base64Line buf with
  | case1 => rfl
  | case2 a =>
    have := decodeLine_quantum (hchar _ _ (by decide)) (hchar _ _ (by decide)) hpad hpad
      (decodeQuantum_one a) []
    simpa [decodeLine] using this
  | case3 a b =>
    have := decodeLine_quantum (hchar _ _ (by decide)) (hchar _ _ (by decide))
      (hchar _ _ (by decide))
      hpad (decodeQuantum_two a b) []
    simpa [decodeLine] using this
  | case4 a b c buf ih =>
    rw [decodeLine_quantum (hchar _ _ (by decide)) (hchar _ _ (by decide)) (hchar _ _ (by decide))
      (hchar _ _ (by decide)) (decodeQuantum_three a b c)]
    simp [sextet_char,ih]
    omega

theorem clean_base64Line (buf : Bytes) : Clean (base64Line buf) := by
  have hpad : 32≤padChar := by decide
  apply clean_of_forall
  fun_induction base64Line buf with
  | case1 => simp
  | case2 | case3 => simp [sextet_char,hpad]
  | case4 a b c buf ih =>
    refine forall_mem_append.mpr ⟨?_,ih⟩
    simp [sextet_char]

/-- A line of base64 does not start with a padding character. -/
theorem base64Line_ne (h : buf≠[]) : base64Line buf≠ascii "====" := by
  have hhead : (base64Line buf).head?≠some padChar := by
    fun_cases base64Line buf with
    | case1 => exact absurd rfl h
    | case2 | case3 | case4 => simp [sextet_char]
  intro heq
  rw [heq] at hhead
  exact hhead rfl

theorem decodeBase64_encoded (h : Blocks 57 bufs) (rest : List Bytes) :
    decodeBase64 {} (bufs.map base64Line++ascii "====" :: rest)=(bufs.flatten,.ok rest) := by
  induction h with
  | nil => rfl
  | @last b hne hle =>
    have hline := decodeLine_base64Line b
    simp only [map_cons,cons_append]
    rw [decodeBase64,if_neg (base64Line_ne hne),hline]
    simp [decodeBase64]
  | @cons b bufs hb _ ih =>
    have hne : b≠[] := by
      rintro rfl
      simp at hb
    have hline := decodeLine_base64Line b
    rw [hb] at hline
    rw [map_cons,cons_append,decodeBase64,if_neg (base64Line_ne hne),hline]
    simp [ih]

theorem octal3_eq (n : ℕ) : octal3 n=[48+.ofNat (n/64%8),48+.ofNat (n/8%8),
      48+UInt8.ofNat (n%8)] := by
  simp [octal3,Numerals.spell,Nat.div_div_eq_div_mul]

theorem toNat_octalDigit (d : ℕ) : (48+UInt8.ofNat (d%8)).toNat=48+d%8 := by
  simp only [UInt8.toNat_add,UInt8.toNat_ofNat',UInt8.reduceToNat]
  omega

theorem octalDigit_of_mem {n : ℕ} {c : UInt8} (hc : c∈octal3 n) : 48≤c ∧ c≤55 := by
  obtain ⟨d,rfl⟩ : ∃d,c=48+UInt8.ofNat (d%8) := by
    simp only [octal3_eq,mem_cons,not_mem_nil,or_false] at hc
    rcases hc with rfl | rfl | rfl <;> exact ⟨_,rfl⟩
  rw [UInt8.le_iff_toNat_le,UInt8.le_iff_toNat_le,toNat_octalDigit]
  simp only [UInt8.reduceToNat]
  omega

theorem parseOctal_octal3 (n : ℕ) (hn : n<512) : parseOctal (octal3 n)=some n := by
  have hne : octal3 n≠[] := by simp [octal3_eq]
  have hall : (octal3 n).all fun c => 48≤c && c≤55 :=
    all_eq_true.mpr fun c hc => by simpa using octalDigit_of_mem hc
  have hvalue : (octal3 n).foldl (fun v d => 8*v+(d.toNat-48)) 0=n := by
    simp only [octal3_eq,foldl_cons,foldl_nil,toNat_octalDigit]
    omega
  rw [parseOctal,hvalue]
  exact if_pos ⟨hne,hall,by omega⟩

theorem octal3_ge (n : ℕ) (c : UInt8) (hc : c∈octal3 n) : 32<c :=
  UInt8.lt_of_lt_of_le (by decide : (32 : UInt8)<48) (octalDigit_of_mem hc).1

theorem toNat_perm : (perm mode).toNat=mode.toNat%512 := by
  have h511 : (511 : ℕ)=2^9-1 := rfl
  simp only [perm,UInt32.toNat_and,UInt32.reduceToNat]
  rw [h511,Nat.and_two_pow_sub_one_eq_mod]

theorem perm_perm : perm (perm mode)=perm mode := by
  apply UInt32.toNat_inj.mp
  rw [toNat_perm,toNat_perm]
  omega

theorem parseHeaderMode_octal3 : parseHeaderMode (octal3 (perm mode).toNat)=some (perm mode) := by
  have hlt : (perm mode).toNat<512 := by
    rw [toNat_perm]
    omega
  have hfilter : (parseOctal (octal3 (perm mode).toNat)).filter (·≤0o7777) =
      some (perm mode).toNat := by
    rw [parseOctal_octal3 _ hlt,Option.filter_some,if_pos (decide_eq_true (by omega))]
  simp [parseHeaderMode,hfilter,perm_perm]

theorem parseFields_octal3 (hname : name≠[]) :
    parseFields base64 (octal3 (perm mode).toNat++ascii " " ++ name) =
      .ok (some ⟨name,perm mode,base64⟩) := by
  have hspace : ∀c∈octal3 (perm mode).toNat,decide (c≠32)=true := by
    intro c hc
    have := octal3_ge _ c hc
    simp only [decide_eq_true_eq]
    rintro rfl
    exact absurd this (by decide)
  have hsplit : octal3 (perm mode).toNat++ascii " " ++ name =
      octal3 (perm mode).toNat++32::name := by
    rfl
  rw [parseFields,hsplit,dropWhile_append_of_pos hspace,takeWhile_append_of_pos hspace]
  simp [hname,parseHeaderMode_octal3]

theorem parseHeader_beginLine (hname : name≠[]) :
    parseHeader (beginLine base64 mode name)=.ok (some ⟨name,perm mode,base64⟩) := by
  have hfields := parseFields_octal3 base64 mode hname
  have hassoc : ∀begin : String,ascii begin++octal3 (perm mode).toNat++ascii " " ++ name =
      ascii begin++(octal3 (perm mode).toNat++ascii " " ++ name) := by simp
  cases base64 with
  | true =>
    exact hfields
  | false =>
    have hnot : ¬(ascii "begin-base64 ").isPrefixOf
        (ascii "begin " ++ (octal3 (perm mode).toNat++ascii " " ++ name))=true :=
      Bool.false_ne_true
    rw [parseHeader,beginLine,hassoc,if_neg Bool.false_ne_true,if_neg hnot]
    exact hfields

theorem clean_beginLine (hne : name≠[])
    (hname : Clean name) : Clean (beginLine base64 mode name) where
  newline_notMem hmem := by
    have hbegin : newline∉ascii (if base64 then "begin-base64 " else "begin ") := by
      cases base64 <;> decide
    simp only [beginLine,mem_append] at hmem
    rcases hmem with ((h | h) | h) | h
    · exact hbegin h
    · exact absurd (octal3_ge _ _ h) (by decide)
    · exact absurd h (by decide)
    · exact hname.newline_notMem h
  getLast_ne := by
    rw [beginLine,getLast?_append_of_ne_nil _ hne]
    exact hname.getLast_ne

theorem uuencode_lines (name : Bytes) (input : Reader) : ∃body,uuencode base64 mode name input =
        some (printLines (beginLine base64 mode name::body)) ∧ (∀l∈body,Clean l) ∧
      ∀rest,(if base64 then decodeBase64 {} (body++rest) else decodeClassic (body++rest)) =
        (input.content,.ok rest) := by
  cases base64 with
  | true =>
    obtain ⟨bufs,heq,hflat,hblocks⟩ := encodeLoop_spec 57 (by omega) base64Line
      (Nat.lt_succ_self input.reads.flatten.length)
    refine ⟨bufs.map base64Line++[ascii "===="],?_,?_,fun rest => ?_⟩
    · rw [uuencode,if_pos rfl,encodeBase64,Reader.content,heq]
      simp only [printLines,flatMap_cons,flatMap_append]
      rfl
    · refine forall_mem_append.mpr ⟨?_,forall_mem_singleton.mpr (clean_of_all rfl)⟩
      exact forall_mem_map.mpr fun b _ => clean_base64Line b
    · rw [append_assoc]
      exact (decodeBase64_encoded hblocks rest).trans (by rw [hflat,Reader.content])
  | false =>
    obtain ⟨bufs,heq,hflat,hblocks⟩ := encodeLoop_spec 45 (by omega) classicLine
      (Nat.lt_succ_self input.reads.flatten.length)
    refine ⟨bufs.map classicLine++[ascii " ",ascii "end"],?_,?_,fun rest => ?_⟩
    · rw [uuencode,encodeClassic,Reader.content,heq]
      simp only [printLines,flatMap_cons,flatMap_append]
      rfl
    · refine forall_mem_append.mpr ⟨?_,?_⟩
      · exact forall_mem_map.mpr fun b _ => clean_classicLine b
      · refine forall_mem_cons.mpr ⟨clean_of_all rfl,?_⟩
        exact forall_mem_singleton.mpr (clean_of_all rfl)
    · rw [if_neg Bool.false_ne_true,append_assoc]
      exact (decodeClassic_encoded (hblocks.bounds (by omega)) rest).trans
        (by rw [hflat,Reader.content])

/-- `uudecode` finds one part in the output of `uuencode`, however the inputs are cut into reads,
with the name, the mode and the bytes that were encoded. -/
theorem decodeInput_uuencode (base64 : Bool) {mode : UInt32} (hmode : mode≤0o777) {name : Bytes}
    (hne : name≠[]) (hnewline : newline∉name)
    (hcr : name.getLast?≠some carriageReturn) (input : Reader) :
    ∃text,uuencode base64 mode name input=some text ∧
      ∀(encoded : Reader) (source override : Bytes),encoded.content=text→
        decodeInput source encoded override =
          ([⟨⟨name,mode,base64⟩,target override name,input.content⟩],.ok ()) := by
  have hperm : perm mode=mode := by
    apply UInt32.toNat_inj.mp
    rw [UInt32.le_iff_toNat_le] at hmode
    simp only [UInt32.reduceToNat] at hmode
    rw [toNat_perm]
    omega
  obtain ⟨body,heq,hbody,hdecode⟩ := uuencode_lines base64 mode name input
  refine ⟨_,heq,fun encoded source override hcontent => ?_⟩
  have hlines := inputLines_eq hcontent
    (forall_mem_cons.mpr ⟨clean_beginLine base64 mode hne ⟨hnewline,hcr⟩,hbody⟩)
  have hheader := parseHeader_beginLine base64 mode hne
  rw [hperm] at hheader
  have hpart : decodePart override ⟨name,mode,base64⟩ (body++[[]]) =
      ([⟨⟨name,mode,base64⟩,target override name,input.content⟩],.ok [[]]) := by
    simp [decodePart,hdecode]
  -- after the part there is the empty line at the end of the file
  have hend : decodeParts source override (body.length+1) true [[]]=([],.ok ()) := by
    cases body <;> rfl
  rw [decodeInput,hlines,cons_append,length_cons,length_append,decodeParts,hheader]
  simp [hpart,hend]

theorem decodeInput_uuencode_cat :
    ∃text,uuencode false 0o644 (ascii "a b") (.ofBytes (ascii "Cat"))=some text ∧
      ∀(encoded : Reader) (source override : Bytes),encoded.content=text→
        decodeInput source encoded override =
          ([⟨⟨ascii "a b",0o644,false⟩,target override (ascii "a b"),ascii "Cat"⟩],.ok ()) := by
  have h := decodeInput_uuencode false (by decide : (0o644 : UInt32)≤0o777)
    (by decide : ascii "a b" ≠ []) (by decide) (by decide) (.ofBytes (ascii "Cat"))
  exact h

/-- A header without a name is malformed. -/
theorem not_decodeInput_uuencode_nameless :
    uuencode false 0o644 [] (.ofBytes (ascii "Cat"))=some (ascii "begin 644 \n#0V%T\n \nend\n") ∧
    decodeInput (ascii "f") (.ofBytes (ascii "begin 644 \n#0V%T\n \nend\n")) [] =
      ([],.error (ascii "uudecode: malformed 'begin' line\n")) := by
  decide

end Coreutils.UuRoundTrip
