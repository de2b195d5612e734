import Coreutils.DiffSides

/-!
# The output formats of `diff`

What the emitters of `cmds/diff/diff.go` share. A model returns the lines without their newlines, or
`none` at an index out of range. The context width is any `int`, so the sums it enters are wrapped.
-/

namespace Coreutils.DiffOutput
open DiffGroups DiffSides GoText

def noNewline : Bytes := ascii "\\ No newline at end of file"

def printLine (s : Side) (mark : Bytes) (i : ℕ) : Option (List Bytes) :=
  match s.lines[i]? with
  | none => none
  | some l =>
    if s.noEOL && i == s.lines.length-1 then some [mark++l,noNewline] else some [mark++l]

def printFrom (s : Side) (mark : Bytes) : ℕ→ℕ→Option (List Bytes)
  | 0,_ => some []
  | n+1,i => do
    let l ← printLine s mark i
    let rest ← printFrom s mark n (i+1)
    pure (l++rest)

def printRange (s : Side) (mark : Bytes) (i stop : ℤ) : Option (List Bytes) :=
  if stop ≤ i then some []
  else if i<0 then none
  else printFrom s mark (stop-i).toNat i.toNat

/-- The groups that share a hunk with `g`, and those after it. -/
def takeHunk (ctx : ℤ) (g : Group) : List Group→List Group×List Group
  | [] => ([g],[])
  | g'::gs =>
    if (g'.a0 : ℤ)-g.a1≤wrap64 (2*ctx) then
      (g::(takeHunk ctx g' gs).1,(takeHunk ctx g' gs).2)
    else ([g],g'::gs)

/-- The lines `[hs,he)` of the old side and `[hbs,hbe)` of the new side a hunk shows. -/
structure Span where
  hs : ℤ
  he : ℤ
  hbs : ℤ
  hbe : ℤ
  deriving DecidableEq,Repr

/-- The span of a hunk from its first and its last group, on an old side of `n` lines. -/
def hunkSpan (ctx : ℤ) (n : ℕ) (first last : Group) : Span :=
  let hs := if wrap64 (first.a0-ctx)<0 then 0 else wrap64 (first.a0-ctx)
  let he := if wrap64 (last.a1+ctx)>n then (n : ℤ) else wrap64 (last.a1+ctx)
  { hs := hs
    he := he
    hbs := wrap64 (first.b0-wrap64 (first.a0-hs))
    hbe := wrap64 (last.b1+wrap64 (he-last.a1)) }

/-- The loop over the groups that both emitters share: `hunk` prints one hunk. -/
def eachHunk (ctx : ℤ) (n : ℕ) (hunk : Span→List Group→Option (List Bytes)) :
    ℕ→List Group→Option (List Bytes)
  | _,[] => some []
  | 0,_::_ => none
  | fuel+1,g::gs => do
    let run := takeHunk ctx g gs
    let out ← hunk (hunkSpan ctx n g (run.1.getLast?.getD g)) run.1
    let rest ← eachHunk ctx n hunk fuel run.2
    pure (out++rest)

def unifiedRange (start0 count : ℤ) : Bytes :=
  if count=1 then itoa (wrap64 (start0+1))
  else if count=0 then itoa start0++ascii ",0"
  else itoa (wrap64 (start0+1))++ascii "," ++ itoa count

/-- The loop over the groups of a unified hunk, returning the final `ai` too. -/
def unifiedGroups (sa sb : Side) : ℤ→ℤ→List Group→Option (List Bytes×ℤ)
  | ai,_,[] => some ([],ai)
  | ai,bi,g::gs => do
    let common ← printRange sa (ascii " ") ai g.a0
    let ai₁ := max ai g.a0
    let bi₁ := bi+(ai₁-ai)
    let del ← printRange sa (ascii "-") ai₁ g.a1
    let ins ← printRange sb (ascii "+") bi₁ g.b1
    let (rest,ai₂) ← unifiedGroups sa sb (max ai₁ g.a1) (max bi₁ g.b1) gs
    pure (common++del++ins++rest,ai₂)

def unifiedHunk (sa sb : Side) (s : Span) (gs : List Group) : Option (List Bytes) := do
  let (body,ai) ← unifiedGroups sa sb s.hs s.hbs gs
  let tail ← printRange sa (ascii " ") ai s.he
  pure ((ascii "@@ -" ++ unifiedRange s.hs (wrap64 (s.he-s.hs))++ascii " +" ++
    unifiedRange s.hbs (wrap64 (s.hbe-s.hbs))++ascii " @@")::(body++tail))

def emitUnified (opts : Options) (sa sb : Side) (gs : List Group) : Option (List Bytes) := do
  let hunks ← eachHunk opts.context sa.lines.length (unifiedHunk sa sb) gs.length gs
  pure ((ascii "--- " ++ sa.name++ascii "\t" ++ sa.stamp) ::
    (ascii "+++ " ++ sb.name++ascii "\t" ++ sb.stamp)::hunks)

end Coreutils.DiffOutput
