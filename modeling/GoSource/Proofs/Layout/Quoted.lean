import GoSource.Proofs.Check.Reading
import GoSource.Proofs.Layout.Failure
import GoSource.Proofs.Layout.UniqueReading
import GoSource.Proofs.Text.Quoted
import GoSource.Proofs.Token.Joining

/-!
# Reading quoted text back

The literal for a struct tag is one string for the reader, whatever the tag is. The literal for
an import path is one only if no line break stands in the path, since line breaks are escaped
in tags alone. What the reader makes of the rest of a line after such a path is not described.
-/

namespace GoSource

open Text (isLineBreak)

section Lexed

/-- A literal whose characters are escaped is one string and nothing else. -/
theorem lex_quoteWith {escape : Char → List Char} {s : String}
    (h : ∀ c ∈ s.toList, Escaped (escape c)) :
    lex (Text.quoteWith escape s) =
      ⟨[⟨.literal .string, 0, Text.quoteWith escape s⟩], none⟩ := by
  have hread : readLexeme '"' (s.toList.flatMap escape ++ ['"']) =
      .ok (.literal .string, (s.toList.flatMap escape ++ ['"']).length) := by
    rw [List.length_append]
    exact (ReadAs.string rfl (closeQuote?_flatMap h [])).eq
  rw [lex, Text.quoteWith, String.toList_ofList, List.cons_append,
    lexFrom_lexeme (by decide) hread, List.take_length, List.drop_length, lexFrom]
  rfl

/-- A line break in a path ends the literal before it is closed. -/
theorem lex_quotePath_of_lineBreak {path : String} (h : path.toList.any isLineBreak = true) :
    lex (Text.quotePath path) = ⟨[], some ⟨.unterminatedString, 0⟩⟩ := by
  obtain ⟨b, hfind⟩ := Option.isSome_iff_exists.mp (List.find?_isSome.mpr (List.any_eq_true.mp h))
  obtain ⟨hb, before, after, hpath, hbefore⟩ := List.find?_eq_some_iff_append.mp hfind
  -- Up to the first line break the characters are escaped, and a line break closes nothing.
  have hescaped : ∀ c ∈ before, Escaped (Text.escapePath c) := fun c hc =>
    escaped_escapePath (by simpa using hbefore c hc)
  have hstop (rest : List Char) : closeQuote? '"' (Text.escapePath b ++ rest) = none := by
    have hbreak : b = '\n' ∨ b = '\r' := by simpa [isLineBreak] using hb
    rcases hbreak with rfl | rfl <;> simp [Text.escapePath, closeQuote?, isLineBreak]
  have hread : readLexeme '"' (path.toList.flatMap Text.escapePath ++ ['"']) =
      .error .unterminatedString := by
    refine (ReadAs.openString rfl ?_).eq
    rw [hpath, List.flatMap_append, List.flatMap_cons, List.append_assoc, List.append_assoc,
      closeQuote?_append hescaped, hstop, Option.map_none]
  rw [lex, Text.quotePath, Text.quoteWith, String.toList_ofList, List.cons_append, lexFrom,
    if_neg (by decide), hread]

end Lexed

section Written

/-- An import is written as its comment, the keyword, its local name if it has one, and the
literal for its path. -/
theorem Import.render_doc (i : Import) (indent : Indent) :
    i.doc.render indent = .ok ((({ indent } : Page).comment i.comment).text ++ "import " ++
      (if i.localName.isEmpty then "" else i.localName ++ " ") ++ Text.quotePath i.path ++
        "\n") := by
  have hcomment : (({ indent } : Page).comment i.comment).text =
      String.ofList (Doc.commentChars (indent.margin 0) true (commentLines i.comment)) := by
    simp [Page.comment, Doc.foldl_commentLine_eq, Doc.extended]
  have hfault : i.doc.fault? = none := by simp [Import.doc, declarationDoc, i.fault?_member]
  have hmargin : indent.margin 0 = [] := rfl
  rw [Doc.render_eq hfault, hcomment]
  refine congrArg Except.ok (String.toList_inj.mp ?_)
  cases hname : i.localName.isEmpty <;>
    simp [Import.doc, declarationDoc, Import.member, Grouped.keyword, Grouped.comment, hname,
      hmargin]

/-- The tag stands behind what the field is written as without one. -/
theorem Field.chars_doc (f : Field) (indent : Indent) :
    f.doc.chars indent 0 true =
      (Doc.comment f.comment ++ f.layout.typed).chars indent 0 true ++ f.tagging := by
  have hmargin : indent.margin 0 = [] := rfl
  rw [Field.doc, MemberLayout.structField, Field.tagging]
  simp only [Field.layout_eq, Doc.append_eq, Doc.chars]
  split <;> simp [hmargin]

/-- Two tags of one field are told apart in what is written. -/
theorem Field.tag_eq_of_render {f : Field} {tag other out : String} {indent : Indent}
    (h : ({ f with tag } : Field).doc.render indent = .ok out)
    (h' : ({ f with tag := other } : Field).doc.render indent = .ok out) : tag = other := by
  have hsame := (Doc.chars_of_render h).trans (Doc.chars_of_render h').symm
  rw [Field.chars_doc, Field.chars_doc] at hsame
  have htyped : ({ f with tag } : Field).layout.typed =
      ({ f with tag := other } : Field).layout.typed := by
    simp only [Field.layout_eq]
    rfl
  rw [htyped] at hsame
  have htagging := List.append_cancel_left hsame
  exact (Field.eq_of_tagging (congrArg (· ++ ['\n']) htagging)).1

end Written

/-- Of the path of an import only that it is not empty is checked. Its literal gives it back, but
the reader takes the literal for a string only if no line break stands in the path, and
otherwise stops at its opening quote. -/
theorem Import.path_quoted (i : Import) (indent : Indent) :
    (({ path := i.path } : Import).validate = .ok () ↔ i.path ≠ "") ∧
    i.doc.render indent = .ok ((({ indent } : Page).comment i.comment).text ++ "import " ++
      (if i.localName.isEmpty then "" else i.localName ++ " ") ++ Text.quotePath i.path ++ "\n") ∧
    Text.unquote Text.decodePath (Text.quotePath i.path) = some i.path ∧
    lex (Text.quotePath i.path) =
      if i.path.toList.any isLineBreak then ⟨[], some ⟨.unterminatedString, 0⟩⟩
      else ⟨[⟨.literal .string, 0, Text.quotePath i.path⟩], none⟩ := by
  have hvalid : ({ path := i.path } : Import).validate = .ok () ↔ i.path ≠ "" := by
    simp [Import.validate_eq_ok, Annotations.validate, Annotations.validateFrom]
  refine ⟨hvalid, i.render_doc indent, Text.unquote_quoteWith Text.undoes_path i.path, ?_⟩
  split
  · rename_i hbreak
    exact lex_quotePath_of_lineBreak hbreak
  · rename_i hsolid
    refine lex_quoteWith fun c hc => escaped_escapePath ?_
    simp only [List.any_eq_true, not_exists, not_and, Bool.not_eq_true] at hsolid
    exact hsolid c hc

/-- A path of two lines passes validation and is written as a literal that is never closed. -/
theorem Import.path_lineFeed :
    ({ path := "a\nb" } : Import).validate = .ok () ∧
    ({ path := "a\nb" } : Import).doc.render .tab = .ok "import \"a\nb\"\n" ∧
    Text.quotePath "a\nb" = "\"a\nb\"" ∧
    lex "\"a\nb\"" = ⟨[], some ⟨.unterminatedString, 0⟩⟩ := by
  decide +kernel

/-- The literal for a tag is one string for the reader, stays on its line and gives the tag back.
So two tags never have one literal, and a field is written differently with each of them. -/
theorem Field.tag_quoted (tag : String) :
    lex (Text.quoteTag tag) = ⟨[⟨.literal .string, 0, Text.quoteTag tag⟩], none⟩ ∧
    (∀ c ∈ (Text.quoteTag tag).toList, isLineBreak c = false) ∧
    Text.unquote Text.decodeTag (Text.quoteTag tag) = some tag ∧
    ∀ other, tag ≠ other → Text.quoteTag tag ≠ Text.quoteTag other ∧
      ∀ (f : Field) (indent : Indent) (out : String),
        ({ f with tag } : Field).doc.render indent = .ok out →
        ({ f with tag := other } : Field).doc.render indent ≠ .ok out := by
  have hline : ∀ c ∈ (Text.quoteTag tag).toList, isLineBreak c = false := by
    intro c hc
    have hmem : c = '"' ∨ ∃ d, c ∈ Text.escapeTag d := by
      simp only [Text.quoteTag, Text.quoteWith, String.toList_ofList, List.cons_append,
        List.mem_cons, List.mem_append, List.mem_flatMap, List.not_mem_nil, or_false] at hc
      tauto
    rcases hmem with rfl | ⟨d, hd⟩
    · rfl
    · exact (escaped_escapeTag d).isLineBreak_eq_false hd
  refine ⟨lex_quoteWith fun c _ => escaped_escapeTag c, hline,
    Text.unquote_quoteWith Text.undoes_tag tag, fun other hne => ⟨?_, ?_⟩⟩
  · exact fun heq => hne (Text.quoteWith_injective Text.undoes_tag heq)
  · exact fun f indent out h h' => hne (Field.tag_eq_of_render h h')

/-- A tag with quotes in it, and the field that has it beside the field that has another. -/
theorem Field.tag_quoted_json :
    let f : Field := ⟨"ID", "json:\"id\"", "", [], .named ⟨"", "int", false⟩⟩
    lex "\"json:\\\"id\\\"\"" =
      ⟨[⟨.literal .string, 0, "\"json:\\\"id\\\"\""⟩], none⟩ ∧
    Text.unquote Text.decodeTag "\"json:\\\"id\\\"\"" = some f.tag ∧
    f.doc.render .tab = .ok "ID int \"json:\\\"id\\\"\"" ∧
    ({ f with tag := "json" } : Field).doc.render .tab ≠ .ok "ID int \"json:\\\"id\\\"\"" := by
  intro f
  have hquote : Text.quoteTag f.tag = "\"json:\\\"id\\\"\"" := by decide +kernel
  have hrender : f.doc.render .tab = .ok "ID int \"json:\\\"id\\\"\"" := by decide +kernel
  obtain ⟨hlex, -, hunquote, hother⟩ := Field.tag_quoted f.tag
  rw [hquote] at hlex hunquote
  exact ⟨hlex, hunquote, hrender, (hother "json" (by decide)).2 f .tab _ hrender⟩

end GoSource
