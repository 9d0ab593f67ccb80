import Mathlib.Data.List.Infix
import Mathlib.Data.String.Basic
import TieredStyle.Proofs.Lexing.Ink

/-!
# Comments, byte by byte

Comments can be blanked in the bytes of a text as well as in its characters, since no byte of a character of several
bytes is one of a mark or a line feed. So what is left is a text again, with a byte for each byte.
-/
namespace TieredStyle.Css

/-- The bytes of characters. -/
def utf8 (cs : List Char) : List UInt8 := cs.flatMap String.utf8EncodeChar

/-- Puts a space for each byte of a comment and keeps its line feeds. The flag tells whether the bytes start inside a
comment. -/
def blankBytes : Bool → List UInt8 → List UInt8
  | false, 0x2F :: 0x2A :: bs => 0x20 :: 0x20 :: blankBytes true bs
  | true, 0x2A :: 0x2F :: bs => 0x20 :: 0x20 :: blankBytes false bs
  | true, b :: bs => (if b = 0x0A then 0x0A else 0x20) :: blankBytes true bs
  | false, b :: bs => b :: blankBytes false bs
  | _, [] => []

variable {inside : Bool} {c : Char} {cs : List Char} {b : UInt8} {bs pre : List UInt8} {flags : List Bool}

/-! ## Which bytes belong to comments -/

/-- The two bytes that open a comment outside of comments, and inside of one those that close it. -/
def commentMark (inside : Bool) : List UInt8 := if inside then [0x2A, 0x2F] else [0x2F, 0x2A]

theorem length_commentMark (inside : Bool) : (commentMark inside).length = 2 := by cases inside <;> rfl

/-- Which bytes belong to comments: a comment starts with the first mark that opens one and ends with the first mark
behind it that closes it, or with the text. -/
inductive Comments : Bool → List UInt8 → List Bool → Prop
  | last {inside : Bool} {bs : List UInt8} :
      ¬commentMark inside <:+: bs → Comments inside bs (List.replicate bs.length inside)
  | turn {inside : Bool} {pre bs : List UInt8} {flags : List Bool} :
      ¬commentMark inside <:+: pre → Comments (!inside) bs flags →
      Comments inside (pre ++ (commentMark inside ++ bs)) (List.replicate pre.length inside ++ (true :: true :: flags))

/-- The flags of `Comments`, by the steps of `blankBytes`. -/
def commentFlags : Bool → List UInt8 → List Bool
  | false, 0x2F :: 0x2A :: bs => true :: true :: commentFlags true bs
  | true, 0x2A :: 0x2F :: bs => true :: true :: commentFlags false bs
  | inside, _ :: bs => inside :: commentFlags inside bs
  | _, [] => []

theorem commentFlags_mark :
    commentFlags inside (commentMark inside ++ bs) = true :: true :: commentFlags (!inside) bs := by
  cases inside <;> rfl

theorem commentFlags_cons (h : ¬commentMark inside <+: b :: bs) :
    commentFlags inside (b :: bs) = inside :: commentFlags inside bs := by
  rw [commentFlags.eq_def]
  split
  next heq =>
    rw [heq] at h
    exact absurd (List.prefix_append (commentMark false) _) h
  next heq =>
    rw [heq] at h
    exact absurd (List.prefix_append (commentMark true) _) h
  next heq => cases heq; rfl
  next heq => cases heq

theorem commentFlags_of_unmarked (h : ¬commentMark inside <:+: bs) :
    commentFlags inside bs = List.replicate bs.length inside := by
  induction bs with
  | nil => cases inside <;> rfl
  | cons b bs ih =>
      rw [commentFlags_cons fun hpre => h hpre.isInfix, ih fun hin => h (hin.trans (List.suffix_cons b bs).isInfix)]
      rfl

/-- A mark does not start one byte before another. -/
theorem not_prefix_mark (b : UInt8) (bs : List UInt8) : ¬commentMark inside <+: b :: (commentMark inside ++ bs) := by
  cases inside <;> simp [commentMark, List.cons_prefix_cons]

theorem commentFlags_append (h : ¬commentMark inside <:+: pre) :
    commentFlags inside (pre ++ (commentMark inside ++ bs)) =
      List.replicate pre.length inside ++ (true :: true :: commentFlags (!inside) bs) := by
  induction pre with
  | nil => exact commentFlags_mark
  | cons b pre ih =>
      -- a mark at `b` would lie in `pre` or reach into the mark behind it
      have hcons : ¬commentMark inside <+: b :: (pre ++ (commentMark inside ++ bs)) := by
        cases pre with
        | nil => exact not_prefix_mark b bs
        | cons b' pre =>
            intro hpre
            refine h (List.IsPrefix.isInfix (List.prefix_of_prefix_length_le hpre ?_ ?_))
            · exact List.prefix_append (b :: b' :: pre) (commentMark inside ++ bs)
            · simp [length_commentMark]
      rw [List.cons_append, commentFlags_cons hcons, ih fun hin => h (hin.trans (List.suffix_cons b pre).isInfix)]
      rfl

/-- Where one text stands in another there is a first place for it. -/
theorem exists_first {w : List UInt8} (h : w <:+: bs) (hw : w ≠ []) :
    ∃ pre post, bs = pre ++ (w ++ post) ∧ ¬w <:+: pre := by
  induction bs with
  | nil => exact absurd (List.infix_nil.1 h) hw
  | cons b bs ih =>
      by_cases hpre : w <+: b :: bs
      · obtain ⟨post, hpost⟩ := hpre
        exact ⟨[], post, hpost.symm, fun hin => hw (List.infix_nil.1 hin)⟩
      · obtain ⟨pre, post, rfl, hnot⟩ := ih ((List.infix_cons_iff.1 h).resolve_left hpre)
        refine ⟨b :: pre, post, rfl, fun hin => ?_⟩
        rcases List.infix_cons_iff.1 hin with hin | hin
        · exact hpre (hin.trans (List.prefix_append (b :: pre) (w ++ post)))
        · exact hnot hin

theorem comments_commentFlags (inside : Bool) (bs : List UInt8) : Comments inside bs (commentFlags inside bs) := by
  by_cases h : commentMark inside <:+: bs
  · obtain ⟨pre, post, hbs, hpre⟩ := exists_first h (by cases inside <;> decide)
    have hlt : post.length < bs.length := by
      rw [hbs, List.length_append, List.length_append, length_commentMark]
      omega
    have hrest := comments_commentFlags (!inside) post
    rw [hbs, commentFlags_append hpre]
    exact .turn hpre hrest
  · rw [commentFlags_of_unmarked h]
    exact .last h
termination_by bs.length

theorem comments_iff : Comments inside bs flags ↔ flags = commentFlags inside bs := by
  constructor
  · intro h
    induction h with
    | last h => exact (commentFlags_of_unmarked h).symm
    | turn h _ ih => rw [commentFlags_append h, ih]
  · rintro rfl
    exact comments_commentFlags inside bs

/-! ## Blanked bytes -/

/-- What blanking puts for a byte. -/
def blankByte (inside : Bool) (b : UInt8) : UInt8 := if inside ∧ b ≠ 0x0A then 0x20 else b

theorem length_commentFlags (inside : Bool) (bs : List UInt8) : (commentFlags inside bs).length = bs.length := by
  fun_induction commentFlags inside bs with
  | case1 bs ih => rw [List.length_cons, List.length_cons, ih]; rfl
  | case2 bs ih => rw [List.length_cons, List.length_cons, ih]; rfl
  | case3 inside b bs _ _ ih => rw [List.length_cons, ih]; rfl
  | case4 => rfl

theorem blankBytes_mark : blankBytes inside (commentMark inside ++ bs) = 0x20 :: 0x20 :: blankBytes (!inside) bs := by
  cases inside <;> rfl

theorem blankBytes_cons (h : ¬commentMark inside <+: b :: bs) :
    blankBytes inside (b :: bs) = blankByte inside b :: blankBytes inside bs := by
  rw [blankBytes.eq_def]
  split
  next heq =>
    rw [heq] at h
    exact absurd (List.prefix_append (commentMark false) _) h
  next heq =>
    rw [heq] at h
    exact absurd (List.prefix_append (commentMark true) _) h
  next heq =>
    cases heq
    by_cases hb : b = 0x0A <;> simp [blankByte, hb]
  next heq => cases heq; rfl
  next heq => cases heq

/-- Blanking is done byte for byte. -/
theorem blankBytes_eq (inside : Bool) (bs : List UInt8) :
    blankBytes inside bs = List.zipWith blankByte (commentFlags inside bs) bs := by
  match bs with
  | [] => cases inside <;> rfl
  | b :: bs =>
      by_cases h : commentMark inside <+: b :: bs
      · obtain ⟨post, hpost⟩ := h
        have hle : post.length ≤ bs.length := by
          have hlen := congrArg List.length hpost
          rw [List.length_append, length_commentMark, List.length_cons] at hlen
          omega
        have ih := blankBytes_eq (!inside) post
        rw [← hpost, blankBytes_mark, commentFlags_mark, ih]
        cases inside <;> rfl
      · rw [blankBytes_cons h, commentFlags_cons h, blankBytes_eq inside bs]
        rfl
termination_by bs.length
decreasing_by all_goals simp only [List.length_cons]; omega

/-! ## Bytes of characters -/

theorem utf8_cons (c : Char) (cs : List Char) : utf8 (c :: cs) = String.utf8EncodeChar c ++ utf8 cs := rfl

theorem utf8_append (cs ds : List Char) : utf8 (cs ++ ds) = utf8 cs ++ utf8 ds := List.flatMap_append

/-- A character is one byte that is its number, or all of its bytes have their highest bit set. -/
theorem utf8EncodeChar_cases (c : Char) : String.utf8EncodeChar c = [UInt8.ofNat c.toNat] ∧ c.toNat < 128 ∨
    ∀ b ∈ String.utf8EncodeChar c, 128 ≤ b.toNat := by
  by_cases h : c.val.toNat ≤ 127
  · exact .inl ⟨by simp only [String.utf8EncodeChar, h, if_true]; rfl, Nat.lt_succ_of_le h⟩
  · refine .inr fun b hb => ?_
    simp only [String.utf8EncodeChar, h, if_false] at hb
    -- the bytes of a longer form are a remainder below 64 and a constant of 128 or more
    split at hb <;> [skip; split at hb] <;> simp only [List.mem_cons, List.not_mem_nil, or_false] at hb
    · rcases hb with rfl | rfl <;> simp only [UInt8.toNat_ofNat'] <;> omega
    · rcases hb with rfl | rfl | rfl <;> simp only [UInt8.toNat_ofNat'] <;> omega
    · rcases hb with rfl | rfl | rfl | rfl <;> simp only [UInt8.toNat_ofNat'] <;> omega

/-- The two characters of `commentMark`. -/
def commentMarkChars (inside : Bool) : List Char := if inside then ['*', '/'] else ['/', '*']

theorem utf8_commentMarkChars (inside : Bool) : utf8 (commentMarkChars inside) = commentMark inside := by
  cases inside <;> decide

/-- A byte without the highest bit is a character of its own. -/
theorem utf8_cons_eq_cons (h : utf8 (c :: cs) = b :: bs) (hb : b.toNat < 128) :
    c.toNat = b.toNat ∧ utf8 cs = bs := by
  rw [utf8_cons] at h
  rcases utf8EncodeChar_cases c with ⟨heq, hlt⟩ | hhigh
  · rw [heq, List.singleton_append, List.cons.injEq] at h
    refine ⟨?_, h.2⟩
    rw [← h.1, UInt8.toNat_ofNat']
    omega
  · cases henc : String.utf8EncodeChar c with
    | nil => exact absurd henc (List.ne_nil_of_length_pos (by rw [String.length_utf8EncodeChar]; exact c.utf8Size_pos))
    | cons b' bs' =>
        rw [henc, List.cons_append, List.cons.injEq] at h
        have := hhigh b' (henc ▸ List.mem_cons_self)
        rw [h.1] at this
        omega

theorem exists_utf8_of_cons {d : Char} (h : utf8 cs = b :: bs) (hb : b.toNat < 128) (hd : d.toNat = b.toNat) :
    ∃ cs', cs = d :: cs' ∧ utf8 cs' = bs := by
  cases cs with
  | nil => cases h
  | cons c cs =>
      obtain ⟨hc, hcs⟩ := utf8_cons_eq_cons h hb
      exact ⟨cs, by rw [Char.toNat_inj.1 (hc.trans hd.symm)], hcs⟩

/-- The bytes of a text start with a mark where its characters do. -/
theorem commentMark_prefix_utf8 : commentMark inside <+: utf8 cs ↔ commentMarkChars inside <+: cs := by
  constructor
  · rintro ⟨post, hpost⟩
    cases inside with
    | false =>
        obtain ⟨cs, rfl, h⟩ := exists_utf8_of_cons (d := '/') hpost.symm (by decide) rfl
        obtain ⟨cs, rfl, -⟩ := exists_utf8_of_cons (d := '*') h (by decide) rfl
        exact List.prefix_append ['/', '*'] cs
    | true =>
        obtain ⟨cs, rfl, h⟩ := exists_utf8_of_cons (d := '*') hpost.symm (by decide) rfl
        obtain ⟨cs, rfl, -⟩ := exists_utf8_of_cons (d := '/') h (by decide) rfl
        exact List.prefix_append ['*', '/'] cs
  · rintro ⟨post, rfl⟩
    rw [utf8_append, utf8_commentMarkChars]
    exact List.prefix_append (commentMark inside) (utf8 post)

theorem blankBytes_append_of_high {pre : List UInt8} (h : ∀ b ∈ pre, 128 ≤ b.toNat) :
    blankBytes inside (pre ++ bs) = pre.map (blankByte inside) ++ blankBytes inside bs := by
  induction pre with
  | nil => rfl
  | cons b pre ih =>
      have hmark : ¬commentMark inside <+: b :: (pre ++ bs) := by
        rintro ⟨post, hpost⟩
        have hb := h b List.mem_cons_self
        cases inside <;> rw [← (List.cons.inj hpost).1] at hb <;> exact absurd hb (by decide)
      rw [List.cons_append, blankBytes_cons hmark, ih fun b' hb' => h b' (List.mem_cons_of_mem _ hb')]
      rfl

/-- A character that starts no mark is blanked by itself. -/
theorem blankBytes_utf8_cons (h : ¬commentMarkChars inside <+: c :: cs) : blankBytes inside (utf8 (c :: cs)) =
    (String.utf8EncodeChar c).map (blankByte inside) ++ blankBytes inside (utf8 cs) := by
  rcases utf8EncodeChar_cases c with ⟨heq, -⟩ | hhigh
  · have hmark := commentMark_prefix_utf8.not.2 h
    rw [utf8_cons, heq, List.singleton_append] at hmark ⊢
    exact blankBytes_cons hmark
  · exact blankBytes_append_of_high hhigh

theorem utf8_replicate_space (n : Nat) : utf8 (List.replicate n ' ') = List.replicate n 0x20 := by
  induction n with
  | zero => rfl
  | succ n ih => rw [List.replicate_succ, List.replicate_succ, ← ih]; rfl

theorem map_blankByte_true {c : Char} (h : c ≠ '\n') :
    (String.utf8EncodeChar c).map (blankByte true) = utf8 (List.replicate c.utf8Size ' ') := by
  have hline : ∀ b ∈ String.utf8EncodeChar c, b ≠ 0x0A := by
    rintro b hb rfl
    rcases utf8EncodeChar_cases c with ⟨heq, hlt⟩ | hhigh
    · rw [heq, List.mem_singleton] at hb
      refine h (Char.toNat_inj.1 ?_)
      have := congrArg UInt8.toNat hb
      rw [UInt8.toNat_ofNat', Nat.mod_eq_of_lt (Nat.lt_of_lt_of_le hlt (by decide))] at this
      exact this.symm
    · exact absurd (hhigh _ hb) (by decide)
  rw [utf8_replicate_space, ← String.length_utf8EncodeChar, List.eq_replicate_iff, List.length_map]
  refine ⟨rfl, fun b hb => ?_⟩
  obtain ⟨b', hb', rfl⟩ := List.mem_map.1 hb
  exact if_pos ⟨rfl, hline b' hb'⟩

theorem map_blankByte_false (bs : List UInt8) : bs.map (blankByte false) = bs := by
  rw [show blankByte false = id from funext fun b => if_neg (by simp), List.map_id]

/-- The bytes of a text are blanked as its characters are. -/
theorem blankBytes_utf8 (inside : Bool) (cs : List Char) :
    blankBytes inside (utf8 cs) = utf8 (blankFrom inside cs) := by
  fun_induction blankFrom inside cs with
  | case1 cs ih => exact congrArg (0x20 :: 0x20 :: ·) ih
  | case2 cs ih => exact congrArg (0x20 :: 0x20 :: ·) ih
  | case3 cs ih => exact congrArg (0x0A :: ·) ih
  | case4 c cs hclose hline ih =>
      have hmark : ¬commentMarkChars true <+: c :: cs := by
        rintro ⟨post, hpost⟩
        obtain ⟨hc, hcs⟩ := List.cons.inj hpost
        exact hclose post hc.symm hcs.symm
      rw [blankBytes_utf8_cons hmark, map_blankByte_true hline, ih, utf8_append]
  | case5 c cs hopen ih =>
      have hmark : ¬commentMarkChars false <+: c :: cs := by
        rintro ⟨post, hpost⟩
        obtain ⟨hc, hcs⟩ := List.cons.inj hpost
        exact hopen post hc.symm hcs.symm
      rw [blankBytes_utf8_cons hmark, map_blankByte_false, ih]
      rfl
  | case6 => cases ‹Bool› <;> rfl

/-! ## Texts -/

/-- The bytes of a text. -/
def bytes (s : String) : List UInt8 := s.toByteArray.data.toList

/-- A text with its comments blanked. -/
def withoutComments (s : String) : String := String.ofList (blankComments s.toList)

theorem bytes_ofList (cs : List Char) : bytes (String.ofList cs) = utf8 cs := by
  rw [bytes, String.toByteArray_ofList, List.utf8Encode, List.data_toByteArray]
  rfl

theorem toByteArray_toList (a : ByteArray) : a.data.toList.toByteArray = a :=
  ByteArray.ext (List.data_toByteArray.trans Array.toArray_toList)

theorem bytes_withoutComments (s : String) : bytes (withoutComments s) = blankBytes false (bytes s) := by
  have hbytes : bytes s = utf8 s.toList := by rw [← bytes_ofList, String.ofList_toList]
  rw [hbytes, blankBytes_utf8, withoutComments, bytes_ofList]
  rfl

/-- A text that blanking does not change has no mark that opens a comment. -/
theorem not_infix_of_blankBytes (h : blankBytes false bs = bs) : ¬commentMark false <:+: bs := by
  intro hin
  obtain ⟨pre, post, rfl, hpre⟩ := exists_first hin (by decide)
  rw [blankBytes_eq, commentFlags_append hpre, List.zipWith_append (by rw [List.length_replicate])] at h
  have htail := List.append_inj_right h (by simp)
  exact absurd (List.cons.inj htail).1 (by decide)

/-- What blanking keeps of a text, by the flags of its bytes. -/
structure Blanked (flags : List Bool) (before after : List UInt8) : Prop where
  length : after.length = before.length
  flagged : flags.length = before.length
  lines (i : Nat) : after[i]? = some 0x0A ↔ before[i]? = some 0x0A
  outside (i : Nat) : flags[i]? = some false → after[i]? = before[i]?
  inside (i : Nat) : flags[i]? = some true → after[i]? = some 0x20 ∨ after[i]? = some 0x0A

theorem blankByte_eq_line (inside : Bool) (b : UInt8) : blankByte inside b = 0x0A ↔ b = 0x0A := by
  rw [blankByte]
  split
  next h => exact iff_of_false (by decide) h.2
  next => exact Iff.rfl

theorem blankByte_true (b : UInt8) : blankByte true b = 0x20 ∨ blankByte true b = 0x0A := by
  by_cases h : b = 0x0A
  · exact .inr (by simp [blankByte, h])
  · exact .inl (by simp [blankByte, h])

theorem blanked_zipWith (h : flags.length = bs.length) : Blanked flags bs (List.zipWith blankByte flags bs) := by
  have hget (i : Nat) : (∃ inside b, flags[i]? = some inside ∧ bs[i]? = some b ∧
        (List.zipWith blankByte flags bs)[i]? = some (blankByte inside b)) ∨
      (flags[i]? = none ∧ bs[i]? = none ∧ (List.zipWith blankByte flags bs)[i]? = none) := by
    by_cases hi : i < bs.length
    · have hflag := List.getElem?_eq_getElem (h ▸ hi : i < flags.length)
      have hbyte := List.getElem?_eq_getElem hi
      exact .inl ⟨flags[i], bs[i], hflag, hbyte, by rw [List.getElem?_zipWith, hflag, hbyte]⟩
    · have hflag := List.getElem?_eq_none (Nat.le_of_not_lt (h ▸ hi : ¬i < flags.length))
      have hbyte := List.getElem?_eq_none (Nat.le_of_not_lt hi)
      exact .inr ⟨hflag, hbyte, by rw [List.getElem?_zipWith, hflag, hbyte]⟩
  refine ⟨by rw [List.length_zipWith, h, Nat.min_self], h, fun i => ?_, fun i hout => ?_, fun i hin => ?_⟩
  · obtain ⟨inside, b, -, hbyte, hnew⟩ | ⟨-, hbyte, hnew⟩ := hget i
    · rw [hbyte, hnew, Option.some_inj, Option.some_inj]
      exact blankByte_eq_line inside b
    · rw [hbyte, hnew]
  · obtain ⟨inside, b, hflag, hbyte, hnew⟩ | ⟨hflag, -, -⟩ := hget i
    · cases hflag.symm.trans hout
      exact hnew.trans hbyte.symm
    · cases hflag.symm.trans hout
  · obtain ⟨inside, b, hflag, -, hnew⟩ | ⟨hflag, -, -⟩ := hget i
    · cases hflag.symm.trans hin
      rw [hnew, Option.some_inj, Option.some_inj]
      exact blankByte_true b
    · cases hflag.symm.trans hin

/-- Blanking is done in the bytes of a text and leaves a text. Every byte outside comments stays, those inside become
spaces and line feeds, and line feeds stay where they are. No comment is left to be blanked. -/
theorem blankComments_bytes (s : String) :
    String.fromUTF8? (blankBytes false (bytes s)).toByteArray = some (withoutComments s) ∧
      (∃ flags, (∀ flags', Comments false (bytes s) flags' ↔ flags' = flags) ∧
        Blanked flags (bytes s) (bytes (withoutComments s))) ∧
      ¬commentMark false <:+: bytes (withoutComments s) ∧
      withoutComments (withoutComments s) = withoutComments s := by
  have hagain : withoutComments (withoutComments s) = withoutComments s := by
    rw [withoutComments, withoutComments, String.toList_ofList,
      blankComments_of_uncommented (uncommented_blankComments s.toList)]
  refine ⟨?_, ⟨commentFlags false (bytes s), fun _ => comments_iff, ?_⟩, ?_, hagain⟩
  · rw [← bytes_withoutComments, bytes, toByteArray_toList, String.fromUTF8?, dif_pos (String.isValidUTF8 _)]
    rfl
  · rw [bytes_withoutComments, blankBytes_eq]
    exact blanked_zipWith (length_commentFlags false (bytes s))
  · exact not_infix_of_blankBytes (by rw [← bytes_withoutComments, hagain])

example : withoutComments "a/*/é\n**/b/**" = "a     \n   b   " := by decide +kernel

end TieredStyle.Css
