import GoSource.Proofs.Token.Coverage
import GoSource.Proofs.Token.Respelling

/-!
# Block comments end at their first closing mark

The star of the opening mark is no part of a closing mark, and of a run of stars only the last
one can be. What closes a comment is found in two ways: character by character, and in the bytes
of the text by a search that goes from star to star. The two agree because no byte of a longer
character is a star or a slash.
-/

namespace GoSource

open Text (byteSize)

namespace Text

/-- The bytes of the characters in UTF-8. -/
def bytes (cs : List Char) : List UInt8 := cs.flatMap String.utf8EncodeChar

@[simp] theorem bytes_nil : bytes [] = [] := rfl

@[simp] theorem bytes_append (cs ds : List Char) : bytes (cs ++ ds) = bytes cs ++ bytes ds :=
  List.flatMap_append

theorem bytes_cons (c : Char) (cs : List Char) :
    bytes (c :: cs) = String.utf8EncodeChar c ++ bytes cs := rfl

theorem length_bytes (cs : List Char) : (bytes cs).length = byteSize cs := by
  induction cs with
  | nil => rfl
  | cons c cs ih => rw [bytes_cons, List.length_append, String.length_utf8EncodeChar, ih, byteSize]

theorem bytes_toList (s : String) : s.toByteArray.data.toList = bytes s.toList := by
  rw [← String.utf8Encode_toList, List.utf8Encode, List.toList_data_toByteArray, bytes]

theorem toNat_toUInt8 {a : Char} (ha : a.toNat < 128) : a.toUInt8.toNat = a.toNat :=
  Nat.mod_eq_of_lt (show a.toNat < 256 by omega)

theorem utf8EncodeChar_ascii {a : Char} (ha : a.toNat < 128) :
    String.utf8EncodeChar a = [a.toUInt8] :=
  String.utf8EncodeChar_eq_singleton (Char.utf8Size_eq_one_iff.mpr (Nat.le_of_lt_succ ha))

/-- The byte of an ASCII character stands for no other character. -/
theorem mem_utf8EncodeChar_iff {a : Char} (ha : a.toNat < 128) (c : Char) :
    a.toUInt8 ∈ String.utf8EncodeChar c ↔ c = a := by
  -- All bytes of a longer character have their first bit set.
  have hnot {n : Nat} (hn : 128 ≤ n) (hbound : n < 256) : a.toUInt8 ≠ UInt8.ofNat n := by
    intro heq
    have hsize := congrArg UInt8.toNat heq
    rw [toNat_toUInt8 ha, UInt8.toNat_ofNat_of_lt' hbound] at hsize
    omega
  constructor
  · intro h
    by_cases hsmall : c.toNat < 128
    · rw [utf8EncodeChar_ascii hsmall, List.mem_singleton] at h
      have hsize := congrArg UInt8.toNat h
      rw [toNat_toUInt8 ha, toNat_toUInt8 hsmall] at hsize
      exact Char.toNat_inj.mp hsize.symm
    · have hlarge : ¬ c.val.toNat ≤ 127 := fun h => hsmall (Nat.lt_succ_of_le h)
      rw [String.utf8EncodeChar, if_neg hlarge] at h
      repeat' split at h
      all_goals
        simp only [List.mem_cons, List.not_mem_nil, or_false] at h
        grind
  · rintro rfl
    rw [utf8EncodeChar_ascii ha]
    exact List.mem_singleton_self _

theorem mem_bytes_iff {a : Char} (ha : a.toNat < 128) (cs : List Char) :
    a.toUInt8 ∈ bytes cs ↔ a ∈ cs := by
  simp [bytes, mem_utf8EncodeChar_iff ha]

theorem head?_bytes_iff {a : Char} (ha : a.toNat < 128) (cs : List Char) :
    (bytes cs).head? = some a.toUInt8 ↔ cs.head? = some a := by
  cases cs with
  | nil => simp
  | cons c cs =>
    rw [bytes_cons, List.head?_append_of_ne_nil _ (String.utf8EncodeChar_ne_nil),
      List.head?_cons, Option.some.injEq]
    constructor
    · intro h
      exact (mem_utf8EncodeChar_iff ha c).mp (List.mem_of_mem_head? h)
    · rintro rfl
      rw [utf8EncodeChar_ascii ha]
      rfl

end Text

section Search

open Text (bytes bytes_append bytes_cons length_bytes utf8EncodeChar_ascii mem_bytes_iff
  head?_bytes_iff byteSize_append)

/-- The search for a closing mark from star to star: the number of bytes up to and including the
mark, if there is one. The bytes from `first` on can be asked for up to the end of the text; an
offset beyond it is an error. -/
def findClosing (bytes : List UInt8) (first : Nat) : Except Nat (Option Nat) :=
  if bytes.length < first then .error first
  else match (bytes.drop first).idxOf? '*'.toUInt8 with
    | none => .ok none
    | some skipped =>
      if bytes[first + skipped + 1]? = some '/'.toUInt8 then .ok (some (first + skipped + 2))
      else findClosing bytes (first + skipped + 1)
termination_by bytes.length + 1 - first

variable {skipped cs : List Char} (read rest : List Char)

/-- The search never starts beyond the end of the text. -/
theorem not_length_bytes_lt (cs : List Char) :
    ¬ (bytes (read ++ cs)).length < byteSize read := by
  rw [length_bytes, byteSize_append]
  omega

theorem drop_bytes (cs : List Char) : (bytes (read ++ cs)).drop (byteSize read) = bytes cs := by
  rw [bytes_append, ← length_bytes, List.drop_left]

theorem idxOf?_star (h : '*' ∉ skipped) :
    (bytes (skipped ++ '*' :: rest)).idxOf? '*'.toUInt8 = some (byteSize skipped) := by
  have hskipped := List.idxOf?_eq_none_iff.mpr ((mem_bytes_iff (by decide) skipped).not.mpr h)
  rw [List.idxOf?] at hskipped ⊢
  rw [bytes_append, bytes_cons, utf8EncodeChar_ascii (by decide), List.findIdx?_append, hskipped,
    List.singleton_append, List.findIdx?_cons, beq_self_eq_true, Option.none_or, if_pos rfl,
    Option.map_some, Nat.zero_add, length_bytes]

/-- One round of the search: the next star is part of the mark, or is passed over. -/
theorem findClosing_star (h : '*' ∉ skipped) :
    findClosing (bytes (read ++ (skipped ++ '*' :: rest))) (byteSize read) =
      if rest.head? = some '/' then .ok (some (byteSize (read ++ skipped ++ ['*', '/'])))
      else findClosing (bytes (read ++ skipped ++ ['*'] ++ rest))
        (byteSize (read ++ skipped ++ ['*'])) := by
  have hplace : byteSize read + byteSize skipped + 1 = byteSize (read ++ skipped ++ ['*']) := by
    rw [byteSize_append, byteSize_append]
    rfl
  have hsplit : read ++ (skipped ++ '*' :: rest) = read ++ skipped ++ ['*'] ++ rest := by simp
  have hnext : (bytes (read ++ skipped ++ ['*'] ++ rest))[byteSize (read ++ skipped ++ ['*'])]? =
      (bytes rest).head? := by
    rw [bytes_append, ← length_bytes, List.getElem?_append_right (Nat.le_refl _), Nat.sub_self,
      List.head?_eq_getElem?]
  have hmark : byteSize read + byteSize skipped + 2 =
      byteSize (read ++ skipped ++ ['*', '/']) := by
    rw [byteSize_append, byteSize_append]
    rfl
  rw [findClosing, if_neg (not_length_bytes_lt read _), drop_bytes, idxOf?_star rest h]
  simp only [hplace, hmark, hsplit, hnext, head?_bytes_iff (by decide : '/'.toNat < 128)]

theorem findClosing_starless (h : '*' ∉ cs) :
    findClosing (bytes (read ++ cs)) (byteSize read) = .ok none := by
  have hbytes := (mem_bytes_iff (by decide) cs).not.mpr h
  rw [findClosing, if_neg (not_length_bytes_lt read _), drop_bytes,
    List.idxOf?_eq_none_iff.mpr hbytes]

/-- The search over bytes stays inside the text and finds what the one over characters finds. -/
theorem findClosing_eq (read cs : List Char) :
    findClosing (bytes (read ++ cs)) (byteSize read) =
      .ok ((closeComment? cs).map fun n => byteSize (read ++ cs.take n)) := by
  -- Every round ends at a star, so the induction is on the length of what is left.
  induction hlength : cs.length using Nat.strongRecOn generalizing read cs with
  | ind length ih =>
    subst hlength
    by_cases hstar : '*' ∈ cs
    · obtain ⟨skipped, rest, rfl, hskipped⟩ := List.eq_append_cons_of_mem hstar
      have htake (n : Nat) : (skipped ++ '*' :: rest).take (n + skipped.length) =
          skipped ++ ('*' :: rest).take n := by
        rw [Nat.add_comm, List.take_length_add_append]
      rw [findClosing_star read rest hskipped, closeComment?_skip hskipped, Option.map_map]
      simp only [Function.comp_def, htake]
      split
      · rename_i hslash
        obtain ⟨after, rfl⟩ := List.head?_eq_some_iff.mp hslash
        rw [List.append_assoc]
        rfl
      · rename_i hslash
        have hless : rest.length < (skipped ++ '*' :: rest).length := by
          rw [List.length_append, List.length_cons]
          omega
        rw [closeComment?_cons fun h => hslash h.2, ih rest.length hless _ rest rfl,
          Option.map_map]
        simp only [Function.comp_def, List.take_succ_cons, List.append_assoc,
          List.singleton_append]
    · have hclose := closeComment?_skip hstar []
      rw [List.append_nil] at hclose
      rw [findClosing_starless read hstar, hclose]
      rfl

end Search

section Mark

theorem closeComment?_sound {cs : List Char} {n : Nat} (h : closeComment? cs = some n) :
    ∃ inside after, cs = inside ++ '*' :: '/' :: after ∧ n = inside.length + 2 := by
  fun_induction closeComment? cs generalizing n with
  | case1 cs => exact ⟨[], cs, rfl, (Option.some.inj h).symm⟩
  | case2 c cs hcs ih =>
    obtain ⟨m, hm, rfl⟩ := Option.map_eq_some_iff.mp h
    obtain ⟨inside, after, rfl, rfl⟩ := ih hm
    exact ⟨c :: inside, after, rfl, rfl⟩
  | case3 => cases h

/-- No closing mark is missed: the comment ends there or before. -/
theorem closeComment?_complete (inside after : List Char) :
    ∃ n, closeComment? (inside ++ '*' :: '/' :: after) = some n ∧ n ≤ inside.length + 2 := by
  induction inside with
  | nil => exact ⟨2, rfl, Nat.le_refl 2⟩
  | cons c inside ih =>
    obtain ⟨n, hn, hle⟩ := ih
    rw [List.cons_append, List.length_cons]
    by_cases hmark : c = '*' ∧ (inside ++ '*' :: '/' :: after).head? = some '/'
    · obtain ⟨rest, hrest⟩ := List.head?_eq_some_iff.mp hmark.2
      rw [hrest, hmark.1]
      exact ⟨2, rfl, by omega⟩
    · rw [closeComment?_cons hmark, hn]
      exact ⟨n + 1, rfl, by omega⟩

/-- A text up to its first closing mark, and what follows that mark. -/
structure ClosesFirst (text inside after : String) : Prop where
  split : text = inside ++ "*/" ++ after
  first : ∀ {inside' after'}, text = inside' ++ "*/" ++ after' → inside.length ≤ inside'.length

theorem eq_append_mark_iff {text inside after : String} :
    text = inside ++ "*/" ++ after ↔ text.toList = inside.toList ++ '*' :: '/' :: after.toList := by
  rw [← String.toList_inj, String.toList_append, String.toList_append, List.append_assoc]
  rfl

/-- The first closing mark is the one that is found. -/
theorem closesFirst_of_closeComment? {text : String} {n : Nat}
    (h : closeComment? text.toList = some n) :
    ∃ inside after, ClosesFirst text inside after ∧ n = inside.length + 2 := by
  obtain ⟨inside, after, hsplit, rfl⟩ := closeComment?_sound h
  refine ⟨String.ofList inside, String.ofList after, ⟨?_, ?_⟩, ?_⟩
  · rw [eq_append_mark_iff, String.toList_ofList, String.toList_ofList, hsplit]
  · intro inside' after' hsplit'
    obtain ⟨m, hm, hle⟩ := closeComment?_complete inside'.toList after'.toList
    rw [← eq_append_mark_iff.mp hsplit', h] at hm
    rw [String.length_ofList, ← String.length_toList]
    cases hm
    omega
  · rw [String.length_ofList]

theorem ClosesFirst.take {text inside after : String} (h : ClosesFirst text inside after) :
    text.toList.take (inside.length + 2) = (inside ++ "*/").toList := by
  rw [eq_append_mark_iff.mp h.split, ← String.length_toList, List.take_length_add_append,
    String.toList_append]
  rfl

/-- What a comment takes of the text. -/
theorem ClosesFirst.ofList_take {text inside after : String} (h : ClosesFirst text inside after) :
    String.ofList ('/' :: ('*' :: text.toList).take (inside.length + 2 + 1)) =
      "/*" ++ inside ++ "*/" := by
  apply String.toList_inj.mp
  simp [h.take]

end Mark

/-- Where a token starts with the opening mark of a block comment and a closing mark follows, the
comment ends right behind the first one, and reading goes on there. If none follows, reading
stops and the start of the comment is reported. In both cases the search over bytes ends without
asking for bytes beyond the end of the text. -/
theorem lex_blockComment {before rest : String}
    (hstart : TokenStarts (before ++ ("/*" ++ rest)) before.utf8ByteSize) :
    ((∃ inside after, rest = inside ++ "*/" ++ after) →
      ∃ inside after, ClosesFirst rest inside after ∧
        findClosing rest.toByteArray.data.toList 0 = .ok (some (inside ++ "*/").utf8ByteSize) ∧
        ∃ l earlier, l = ⟨.blockComment, before.utf8ByteSize, "/*" ++ inside ++ "*/"⟩ ∧
          lex (before ++ ("/*" ++ rest)) =
            ⟨earlier ++ l :: (lexFrom l.stop after.toList).items,
              (lexFrom l.stop after.toList).stopped⟩) ∧
    ((∀ inside after, rest ≠ inside ++ "*/" ++ after) →
      findClosing rest.toByteArray.data.toList 0 = .ok none ∧
      (lex (before ++ ("/*" ++ rest))).stopped =
        some ⟨.unterminatedComment, before.utf8ByteSize⟩ ∧
      tokenize (before ++ ("/*" ++ rest)) =
        .error ⟨.unterminatedComment, before.utf8ByteSize⟩) := by
  obtain ⟨c, cs, htext, hread⟩ := hstart.exists_read
  obtain ⟨rfl, rfl⟩ : '/' = c ∧ '*' :: rest.toList = cs := by
    rw [String.toList_append] at htext
    exact List.cons.inj htext
  have hsearch := findClosing_eq [] rest.toList
  rw [List.nil_append, ← Text.bytes_toList] at hsearch
  cases hclose : closeComment? rest.toList with
  | some n =>
    obtain ⟨inside, after, hfirst, rfl⟩ := closesFirst_of_closeComment? hclose
    have hcomment : ReadAs '/' ('*' :: rest.toList) _ := .blockComment ⟨rfl, rfl⟩ hclose
    rw [hclose] at hsearch
    rw [hcomment.eq] at hread
    refine ⟨fun _ => ⟨inside, after, hfirst, ?_, ?_⟩, fun hopen => absurd hfirst.split (hopen _ _)⟩
    · rw [← byteSize_toList, ← hfirst.take]
      exact hsearch
    · rcases hread with ⟨kind, m, hok, hitem⟩ | ⟨problem, herror, -⟩
      · cases hok
        have hsplit : "/*" ++ rest = ("/*" ++ inside ++ "*/") ++ after := by
          rw [hfirst.split]
          simp only [String.append_assoc]
        rw [hfirst.ofList_take, hsplit] at hitem
        rw [hsplit]
        obtain ⟨earlier, hlex⟩ := lex_resumes hitem rfl
        exact ⟨_, earlier, rfl, hlex⟩
      · cases herror
  | none =>
    have hopen : ReadAs '/' ('*' :: rest.toList) _ := .openComment ⟨rfl, rfl⟩ hclose
    rw [hclose] at hsearch
    rw [hopen.eq] at hread
    constructor
    · rintro ⟨inside, after, hmark⟩
      obtain ⟨n, hn, -⟩ := closeComment?_complete inside.toList after.toList
      rw [← eq_append_mark_iff.mp hmark, hclose] at hn
      cases hn
    · intro hopen
      rcases hread with ⟨kind, m, hok, -⟩ | ⟨problem, herror, hstopped⟩
      · cases hok
      · cases herror
        refine ⟨hsearch, hstopped, ?_⟩
        simp [tokenize, scan, Reading.toExcept, hstopped]

/-- The slash of the opening mark closes nothing, and neither does a star that another character
follows; of a run of stars the last one closes. A star that ends the text leaves the comment
open. -/
theorem lex_blockComment_overlapping :
    (TokenStarts ("x" ++ ("/*" ++ "/ é* /**/y*/")) "x".utf8ByteSize ∧
      ∃ inside after, ClosesFirst "/ é* /**/y*/" inside after ∧
        findClosing "/ é* /**/y*/".toByteArray.data.toList 0 =
          .ok (some (inside ++ "*/").utf8ByteSize) ∧
        ∃ l earlier, l = ⟨.blockComment, "x".utf8ByteSize, "/*" ++ inside ++ "*/"⟩ ∧
          lex ("x" ++ ("/*" ++ "/ é* /**/y*/")) =
            ⟨earlier ++ l :: (lexFrom l.stop after.toList).items,
              (lexFrom l.stop after.toList).stopped⟩) ∧
    TokenStarts ("x" ++ ("/*" ++ "/ é*")) "x".utf8ByteSize ∧
      findClosing "/ é*".toByteArray.data.toList 0 = .ok none ∧
      (lex ("x" ++ ("/*" ++ "/ é*"))).stopped =
        some ⟨.unterminatedComment, "x".utf8ByteSize⟩ ∧
      tokenize ("x" ++ ("/*" ++ "/ é*")) =
        .error ⟨.unterminatedComment, "x".utf8ByteSize⟩ := by
  have hclosed : TokenStarts ("x" ++ ("/*" ++ "/ é* /**/y*/")) "x".utf8ByteSize :=
    .inl (by decide +kernel)
  have hopen : TokenStarts ("x" ++ ("/*" ++ "/ é*")) "x".utf8ByteSize :=
    .inr ⟨⟨.unterminatedComment, 1⟩, by decide +kernel, by decide +kernel⟩
  refine ⟨⟨hclosed, (lex_blockComment hclosed).1 ⟨"/ é* /*", "y*/", by decide⟩⟩, hopen, ?_⟩
  refine (lex_blockComment hopen).2 fun inside after hmark => ?_
  obtain ⟨n, hn, -⟩ := closeComment?_complete inside.toList after.toList
  rw [← eq_append_mark_iff.mp hmark, show closeComment? "/ é*".toList = none by decide] at hn
  cases hn

end GoSource
