import GoSource.Proofs.Check.ExpressionGrammar
import GoSource.Proofs.Check.Initializer
import GoSource.Proofs.Token.LexemeForms
import GoSource.Proofs.Token.Respelling

/-!
# Formulas

Expressions written from names, literals, operators between two operands, parentheses and
calls, of any size. The check of expressions lets all of them through, and misses the
parenthesis that is not closed. What the check admits beyond formulas is not told here.
-/

namespace GoSource

open Text (byteSize)

section Trees

/-- A text that is read as one name or one literal, and no keyword. -/
structure Operand where
  text : String
  kind : Kind
  isOperand : kind.isOperand = true
  lex_text : lex text = ⟨[⟨kind, 0, text⟩], none⟩

/-- The operators that stand between two operands of a formula. -/
def binaryOperators : List Symbol :=
  [.plus, .minus, .star, .slash, .percent, .shl, .shr, .ampersand, .pipe, .caret, .andNot,
   .logicalAnd, .logicalOr, .equal, .notEqual, .less, .lessEqual, .greater, .greaterEqual]

/-- Operands, two formulas with an operator between them, a formula in parentheses, and a
call of a name that is no keyword. -/
inductive Formula where
  | operand (o : Operand)
  | binary (left : Formula) (op : Symbol) (hop : op ∈ binaryOperators) (right : Formula)
  | paren (inner : Formula)
  | call (name : String) (hname : isIdentifier name = true)
      (hword : name ∉ Keyword.all.map Keyword.spelling) (argument : Formula)

namespace Formula

/-- A formula as it is written, with one space on either side of an operator. -/
def text : Formula → String
  | operand o => o.text
  | binary left op _ right => left.text ++ " " ++ op.spelling ++ " " ++ right.text
  | paren inner => "(" ++ inner.text ++ ")"
  | call name _ _ argument => name ++ "(" ++ argument.text ++ ")"

/-- The kinds of the tokens of a formula. -/
def kinds : Formula → List Kind
  | operand o => [o.kind]
  | binary left op _ right => left.kinds ++ .symbol op :: right.kinds
  | paren inner => .opening .paren :: inner.kinds ++ [.closing .paren]
  | call _ _ _ argument => .ident :: .opening .paren :: argument.kinds ++ [.closing .paren]

/-- The kind of the last token of a formula. -/
def last : Formula → Kind
  | operand o => o.kind
  | binary _ _ _ right => right.last
  | paren _ => .closing .paren
  | call _ _ _ _ => .closing .paren

end Formula

end Trees

section Spelling

/-- The text is read as tokens of these kinds, whatever comes before it and before everything
that may follow; `pending` says that the last of them ends a statement. -/
def Spells (follow : List Char → Prop) (cs : List Char) (kinds : List Kind) (pending : Bool) :
    Prop :=
  ∀ offset before rest, follow rest → ∃ ts : List Token, ts.map Token.kind = kinds ∧
    scanFrom offset before (cs ++ rest) = (scanFrom (offset + byteSize cs) pending rest).prepend ts

/-- An operand is over: the text is, or a space or a closing parenthesis comes next. -/
def Stops (rest : List Char) : Prop :=
  rest = [] ∨ ∃ d ds, rest = d :: ds ∧ (d = ' ' ∨ d = ')')

/-- A space comes next. -/
def SpaceNext (rest : List Char) : Prop := ∃ ds, rest = ' ' :: ds

theorem Stops.apart {rest : List Char} (h : Stops rest) : Apart rest := by
  rcases h with rfl | ⟨d, ds, rfl, rfl | rfl⟩
  · exact nofun
  · exact apart_cons (by decide) ds
  · exact apart_cons (by decide) ds

theorem Number.read_stops {cs rest : List Char} (h : Stops rest) (hne : cs ≠ []) :
    read (cs ++ rest) = read cs := by
  have hspace : Ends ' ' := by constructor <;> decide
  have hcloser : Ends ')' := by constructor <;> decide
  rcases h with rfl | ⟨d, ds, rfl, rfl | rfl⟩
  · rw [List.append_nil]
  · exact read_stop ds hspace cs hne
  · exact read_stop ds hcloser cs hne

theorem Number.starts_stops {c : Char} {cs rest : List Char} (h : Stops rest) :
    starts (c :: (cs ++ rest)) = starts (c :: cs) := by
  rcases h with rfl | ⟨d, ds, rfl, rfl | rfl⟩
  · rw [List.append_nil]
  · exact starts_stop ds (by decide) c cs
  · exact starts_stop ds (by decide) c cs

theorem Kind.plain_of_isOperand {kind : Kind} (h : kind.isOperand = true) :
    kind.endsStatement = true ∧ kind.isTrivia = false := by
  cases kind <;> first | exact ⟨rfl, rfl⟩ | cases h

/-- A name or a literal is read as far as if the text ended with it. -/
theorem readLexeme_operand {c : Char} {cs rest : List Char} {kind : Kind}
    (h : readLexeme c cs = .ok (kind, cs.length)) (hkind : kind.isOperand = true)
    (hrest : Stops rest) : readLexeme c (cs ++ rest) = .ok (kind, cs.length) := by
  generalize hn : cs.length = n at h ⊢
  cases readLexeme_eq_iff.mp h with
  | word hc =>
    have hall := (List.takeWhile_prefix isNamePart (l := cs)).eq_of_length hn.symm
    have hname : IsName (c :: cs) := ⟨hc, List.takeWhile_eq_self_iff.mp hall⟩
    rw [hall]
    exact readLexeme_word hname hrest.apart
  | number hstarts hread =>
    have hread' := (Number.read_stops hrest (List.cons_ne_nil c cs)).trans hread
    exact (ReadAs.number ((Number.starts_stops hrest).trans hstarts) hread').eq
  | rune hc hclose =>
    exact (ReadAs.rune hc (closeQuote?_closed rest (by rw [hc]; decide) hclose)).eq
  | string hc hclose =>
    exact (ReadAs.string hc (closeQuote?_closed rest (by rw [hc]; decide) hclose)).eq
  | rawString hc hclose => exact (ReadAs.rawString hc (closeRaw?_append rest hclose)).eq
  | lineFeed _ | carriageReturn _ | lineComment _ | blockComment _ _ | opening _ | closing _
  | symbol _ _ => cases hkind

namespace Spells

variable {follow follow' : List Char → Prop} {cs ds : List Char} {ks ls : List Kind}
  {pending pending' : Bool}

/-- One piece after another. -/
theorem append (h : Spells follow cs ks pending) (h' : Spells follow' ds ls pending')
    (hf : ∀ rest, follow' rest → follow (ds ++ rest)) :
    Spells follow' (cs ++ ds) (ks ++ ls) pending' := by
  intro offset before rest hrest
  obtain ⟨ts, hts, hscan⟩ := h offset before (ds ++ rest) (hf rest hrest)
  obtain ⟨us, hus, hscan'⟩ := h' (offset + byteSize cs) pending rest hrest
  refine ⟨ts ++ us, by rw [List.map_append, hts, hus], ?_⟩
  rw [List.append_assoc, hscan, hscan', Reading.prepend_prepend, Text.byteSize_append,
    Nat.add_assoc]

/-- A space before a piece is passed over. -/
theorem space (h : Spells follow cs ks pending) : Spells follow (' ' :: cs) ks pending := by
  intro offset before rest hrest
  obtain ⟨ts, hts, hscan⟩ := h (offset + ' '.utf8Size) before rest hrest
  refine ⟨ts, hts, ?_⟩
  rw [List.cons_append, scanFrom_skipped (by decide), hscan, byteSize, Nat.add_assoc]

/-- A token of the text. -/
theorem token {c : Char} {kind : Kind} (hs : isSkipped c = false) (hk : kind.isTrivia = false)
    (hread : ∀ rest, follow rest → readLexeme c (cs ++ rest) = .ok (kind, cs.length)) :
    Spells follow (c :: cs) [kind] kind.endsStatement := by
  intro offset before rest hrest
  have hscan : scanFrom offset before (c :: (cs ++ rest)) = _ :=
    scanFrom_token hs (hread rest hrest) hk
  rw [List.take_left, List.drop_left] at hscan
  exact ⟨_, rfl, hscan⟩

end Spells

theorem Operand.spells (o : Operand) : Spells Stops o.text.toList [o.kind] true := by
  have hspans : (⟨o.kind, 0, o.text⟩ : Lexeme) ∈ (lex o.text).items := by simp [o.lex_text]
  obtain ⟨-, c, cs, htext, hskipped, hread⟩ :=
    exists_readLexeme_of_spans hspans rfl (Nat.zero_add _)
  obtain ⟨hends, htrivia⟩ := Kind.plain_of_isOperand o.isOperand
  rw [htext, ← hends]
  exact Spells.token hskipped htrivia fun rest => readLexeme_operand hread o.isOperand

theorem spells_operator {op : Symbol} (hop : op ∈ binaryOperators) :
    Spells SpaceNext op.spelling.toList [.symbol op] false := by
  simp only [binaryOperators, List.mem_cons, List.not_mem_nil, or_false] at hop
  rcases hop with rfl | rfl | rfl | rfl | rfl | rfl | rfl | rfl | rfl | rfl | rfl | rfl | rfl | rfl |
    rfl | rfl | rfl | rfl | rfl
  all_goals exact Spells.token (by decide) rfl (by rintro _ ⟨ds, rfl⟩; rfl)

theorem spells_callee {name : String} (hname : isIdentifier name = true)
    (hword : name ∉ Keyword.all.map Keyword.spelling) :
    Spells Apart name.toList [.ident] true := by
  have hkind := wordKind_eq_ident_iff.mpr hword
  have hisName := isName_iff.mp hname
  cases hcs : name.toList with
  | nil =>
    rw [hcs] at hisName
    cases hisName
  | cons c cs =>
    rw [hcs] at hisName hkind
    have hread {rest : List Char} (hrest : Apart rest) := readLexeme_word hisName hrest
    rw [hkind] at hread
    exact Spells.token (isSkipped_eq_false_of_isNameStart hisName.1) rfl fun rest => hread

/-- A formula in parentheses. -/
theorem Spells.paren {cs : List Char} {ks : List Kind} (h : Spells Stops cs ks true) :
    Spells Anything ('(' :: (cs ++ [')'])) (.opening .paren :: ks ++ [.closing .paren]) true := by
  have hopener : Spells Anything ['('] [.opening .paren] false :=
    Spells.token (by decide) rfl fun rest _ => rfl
  have hcloser : Spells Anything [')'] [.closing .paren] true :=
    Spells.token (by decide) rfl fun rest _ => rfl
  have hinside := h.append hcloser fun rest _ => .inr ⟨')', rest, rfl, .inr rfl⟩
  exact hopener.append hinside fun _ _ => trivial

theorem Formula.spells (e : Formula) : Spells Stops e.text.toList e.kinds true := by
  induction e with
  | operand o => exact o.spells
  | binary left op hop right hleft hright =>
    have htext : (Formula.binary left op hop right).text.toList =
        left.text.toList ++ (' ' :: (op.spelling.toList ++ ' ' :: right.text.toList)) := by
      simp [Formula.text]
    rw [htext]
    have hrest := (spells_operator hop).append hright.space fun rest _ => ⟨_, rfl⟩
    exact hleft.append hrest.space fun rest _ => .inr ⟨' ', _, rfl, .inl rfl⟩
  | paren inner ih =>
    have htext : (Formula.paren inner).text.toList = '(' :: (inner.text.toList ++ [')']) := by
      simp [Formula.text]
    rw [htext]
    exact fun offset before rest _ => ih.paren offset before rest trivial
  | call name hname hword argument ih =>
    have htext : (Formula.call name hname hword argument).text.toList =
        name.toList ++ '(' :: (argument.text.toList ++ [')']) := by
      simp [Formula.text]
    rw [htext]
    have hcall := (spells_callee hname hword).append ih.paren fun rest _ =>
      apart_cons (by decide) _
    exact fun offset before rest _ => hcall offset before rest trivial

end Spelling

section Judgement

open Expression

/-- The state after a whole piece of an expression whose last token has this kind. -/
def Expression.State.past (s : State) (kind : Kind) : State :=
  ⟨s.nesting, if s.nesting.isTop then some kind else s.previous⟩

theorem Expression.State.past_past (s : State) (first second : Kind) :
    (s.past first).past second = s.past second := by
  unfold past
  cases s.nesting.isTop <;> rfl

theorem Expression.State.past_previous {s : State} (h : s.nesting.isTop = true) (kind : Kind) :
    (s.past kind).previous = some kind := if_pos h

/-- An operand may come next: outside all delimiters only an operator stands before it. -/
def Expression.State.Awaits (s : State) : Prop :=
  s.nesting.isTop = true → ∀ kind ∈ s.previous, ∃ op ∈ binaryOperators, kind = .symbol op

theorem Expression.State.awaits_past (s : State) {op : Symbol} (hop : op ∈ binaryOperators) :
    (s.past (.symbol op)).Awaits := by
  intro htop kind hkind
  rw [past_previous (s := s) htop] at hkind
  exact ⟨op, hop, (Option.some.inj hkind).symm⟩

/-- The kinds of which a formula consists. -/
structure Kind.IsPart (kind : Kind) : Prop where
  notStatement : kind.isStatementKeyword = false
  notAssignment : kind.isAssignment = false
  notSemicolon : kind ≠ .semicolon
  notComma : kind ≠ .comma

theorem Kind.isPart_of_isOperand {kind : Kind} (h : kind.isOperand = true) :
    kind.IsPart ∧ kind.isDelimiter = false := by
  cases kind <;> first | exact ⟨⟨rfl, rfl, nofun, nofun⟩, rfl⟩ | cases h

theorem binaryOperators_plain : ∀ op ∈ binaryOperators, (Kind.symbol op).isOperator = true ∧
    (Kind.symbol op).isAssignment = false ∧ op ≠ .semicolon ∧ op ≠ .comma ∧ op ≠ .dot :=
  List.all_iff_forall_prop.mp (by decide)

/-- Of the rules for a token only the one on what it follows bears on the parts of a formula. -/
theorem refused?_part {s : State} {kind : Kind} (h : kind.IsPart)
    (hplace : s.nesting.isTop = true → misplaced? s.previous kind = none) :
    refused? s kind = none := by
  have hsemicolon : (kind == .semicolon) = false := beq_eq_false_iff_ne.mpr h.notSemicolon
  have hcomma : (kind == .comma) = false := beq_eq_false_iff_ne.mpr h.notComma
  rw [refused?, h.notStatement, h.notAssignment, hsemicolon, hcomma]
  cases htop : s.nesting.isTop with
  | true => simp [hplace htop]
  | false => simp

/-- A token that may stand in a state is taken if it fits the open delimiters. -/
theorem step_eq_of_feed {s : State} {t : Token} {n : Nesting} (hrefused : refused? s t.kind = none)
    (hfeed : s.nesting.feed t = .ok n) :
    s.step t = .ok ⟨n, if s.nesting.isTop || n.isTop then some t.kind else s.previous⟩ := by
  rw [State.step, hrefused, hfeed]
  rfl

theorem step_part {s : State} {t : Token} (hpart : t.kind.IsPart)
    (hplain : t.kind.isDelimiter = false)
    (hplace : s.nesting.isTop = true → misplaced? s.previous t.kind = none) :
    s.step t = .ok (s.past t.kind) := by
  have hfeed := s.nesting.feed_plain hplain
  rw [step_eq_of_feed (refused?_part hpart hplace) hfeed, Bool.or_self]
  rfl

/-- Parentheses with a formula inside, as the argument of a call or on their own. -/
theorem foldlM_paren {s : State} {ts : List Token} {ks : List Kind}
    (hts : ts.map Token.kind = .opening .paren :: ks ++ [.closing .paren])
    (hplace : s.nesting.isTop = true → misplaced? s.previous (.opening .paren) = none)
    (hinside : ∀ us : List Token, us.map Token.kind = ks → ∀ s' : State, s'.Awaits →
      ∃ kind, us.foldlM State.step s' = .ok (s'.past kind)) :
    ts.foldlM State.step s = .ok (s.past (.closing .paren)) := by
  obtain ⟨vs, ws, rfl, hvs, hws⟩ := List.map_eq_append_iff.mp hts
  obtain ⟨opener, us, rfl, hopener, hus⟩ := List.map_eq_cons_iff.mp hvs
  obtain ⟨closer, rfl, hcloser⟩ := List.map_eq_singleton_iff.mp hws
  -- Inside the parentheses nothing is outermost, so the state is the same before the closer.
  let inner : State := ⟨s.nesting.push ⟨.paren, opener.start⟩,
    if s.nesting.isTop then some (.opening .paren) else s.previous⟩
  have hdeep : inner.nesting.isTop = false := rfl
  have hopen : s.step opener = .ok inner := by
    have hpart : (Kind.opening .paren).IsPart := ⟨rfl, rfl, by decide, by decide⟩
    have hfeed : s.nesting.feed opener = .ok inner.nesting := by rw [Nesting.feed, hopener]
    have hrefused : refused? s opener.kind = none := by
      rw [hopener]
      exact refused?_part hpart hplace
    rw [step_eq_of_feed hrefused hfeed, hopener, hdeep, Bool.or_false]
  have hclose : inner.step closer = .ok (s.past (.closing .paren)) := by
    have hpart : (Kind.closing .paren).IsPart := ⟨rfl, rfl, by decide, by decide⟩
    have hfeed : inner.nesting.feed closer = .ok s.nesting := by
      rw [Nesting.feed, hcloser]
      rfl
    have hrefused : refused? inner closer.kind = none := by
      rw [hcloser]
      exact refused?_part hpart (by simp [hdeep])
    rw [step_eq_of_feed hrefused hfeed, hcloser, hdeep, Bool.false_or]
    cases htop : s.nesting.isTop <;> simp [inner, State.past, htop]
  have hawaits : inner.Awaits := by simp [State.Awaits, hdeep]
  obtain ⟨kind, hfold⟩ := hinside us hus inner hawaits
  have hsame : inner.past kind = inner := rfl
  rw [List.cons_append, foldlM_cons_of_ok hopen, foldlM_append_of_ok hfold, hsame,
    foldlM_cons_of_ok hclose]
  rfl

namespace Formula

/-- A formula ends in an operand or a parenthesis: it need not go on, and an operator may
follow. -/
theorem last_cases (e : Formula) : e.last.isOperand = true ∨ e.last = .closing .paren := by
  induction e with
  | operand o => exact .inl o.isOperand
  | binary left op hop right hleft hright => exact hright
  | paren inner ih => exact .inr rfl
  | call name hname hword argument ih => exact .inr rfl

theorem wantsOperand_last (e : Formula) : wantsOperand e.last = false := by
  rcases e.last_cases with h | h
  · cases hk : e.last <;> rw [hk] at h <;> first | rfl | cases h
  · rw [h]
    rfl

theorem misplaced?_last (e : Formula) (op : Symbol) :
    misplaced? (some e.last) (.symbol op) = none := by
  obtain ⟨hoperator, hdot, -⟩ := wantsOperand_eq_false_iff.mp e.wantsOperand_last
  refine misplaced?_some_eq_none_iff.mpr ⟨fun h => ?_, fun h => ?_, fun h => absurd h hdot⟩
  · cases h.2
  · rw [hoperator] at h
    cases h.1

/-- What starts a formula may stand where an operand may. -/
theorem misplaced?_awaited {s : State} (h : s.Awaits) (htop : s.nesting.isTop = true) {kind : Kind}
    (hkind : kind.isOperand = true ∨ kind = .opening .paren) :
    misplaced? s.previous kind = none := by
  have hplain : kind.isBinaryOnly = false ∧ kind ≠ .dot := by
    rcases hkind with hkind | rfl
    · cases kind <;> first | exact ⟨rfl, nofun⟩ | cases hkind
    · exact ⟨rfl, nofun⟩
  cases hprevious : s.previous with
  | none => exact misplaced?_none_eq_none_iff.mpr hplain
  | some previous =>
    obtain ⟨op, hop, rfl⟩ := h htop previous hprevious
    obtain ⟨-, -, -, -, hdot⟩ := binaryOperators_plain op hop
    refine misplaced?_some_eq_none_iff.mpr ⟨fun h => ?_, fun h => ?_, fun h => absurd h ?_⟩
    · cases h.1
    · rw [hplain.1] at h
      cases h.2
    · simpa using hdot

/-- An operand is taken wherever one may come next. -/
theorem step_operand {s : State} (h : s.Awaits) {t : Token} (hkind : t.kind.isOperand = true) :
    s.step t = .ok (s.past t.kind) := by
  obtain ⟨hpart, hplain⟩ := Kind.isPart_of_isOperand hkind
  exact step_part hpart hplain fun htop => misplaced?_awaited h htop (.inl hkind)

/-- An operator is taken after every formula. -/
theorem step_operator (s : State) (e : Formula) {op : Symbol} (hop : op ∈ binaryOperators)
    {t : Token} (hkind : t.kind = .symbol op) :
    (s.past e.last).step t = .ok (s.past (.symbol op)) := by
  obtain ⟨-, hassignment, hsemicolon, hcomma, -⟩ := binaryOperators_plain op hop
  have hpart : t.kind.IsPart := by
    rw [hkind]
    exact ⟨rfl, hassignment, by simpa using hsemicolon, by simpa using hcomma⟩
  have hplace : (s.past e.last).nesting.isTop = true →
      misplaced? (s.past e.last).previous t.kind = none := by
    intro htop
    rw [State.past_previous (s := s) htop, hkind]
    exact e.misplaced?_last op
  rw [step_part hpart (by rw [hkind]; rfl) hplace, State.past_past, hkind]

/-- The check passes over a formula wherever an operand may come next. -/
theorem foldlM_step (e : Formula) {ts : List Token} (hts : ts.map Token.kind = e.kinds) {s : State}
    (h : s.Awaits) : ts.foldlM State.step s = .ok (s.past e.last) := by
  induction e generalizing ts s with
  | operand o =>
    obtain ⟨t, rfl, hkind⟩ := List.map_eq_singleton_iff.mp hts
    rw [foldlM_cons_of_ok (step_operand h (hkind ▸ o.isOperand)), hkind]
    rfl
  | binary left op hop right hleft hright =>
    obtain ⟨us, vs, rfl, hus, hvs⟩ := List.map_eq_append_iff.mp hts
    obtain ⟨t, ws, rfl, hkind, hws⟩ := List.map_eq_cons_iff.mp hvs
    rw [foldlM_append_of_ok (hleft hus h), foldlM_cons_of_ok (step_operator s left hop hkind),
      hright hws (s.awaits_past hop), State.past_past]
    rfl
  | paren inner ih =>
    exact foldlM_paren hts (fun htop => misplaced?_awaited h htop (.inr rfl))
      fun us hus s' h' => ⟨_, ih hus h'⟩
  | call name hname hword argument ih =>
    obtain ⟨t, us, rfl, hkind, hus⟩ := List.map_eq_cons_iff.mp hts
    have hname : s.step t = .ok (s.past .ident) := hkind ▸ step_operand h (hkind ▸ rfl)
    have hafter : (s.past .ident).nesting.isTop = true →
        misplaced? (s.past .ident).previous (.opening .paren) = none := by
      intro htop
      rw [State.past_previous (s := s) htop]
      rfl
    rw [foldlM_cons_of_ok hname, foldlM_paren hus hafter fun us hus s' h' => ⟨_, ih hus h'⟩,
      State.past_past]
    rfl

theorem notStatement_of_mem_kinds (e : Formula) :
    ∀ kind ∈ e.kinds, kind.isStatementKeyword = false := by
  induction e with
  | operand o =>
    simp only [kinds, List.forall_mem_singleton]
    exact (Kind.isPart_of_isOperand o.isOperand).1.notStatement
  | binary left op hop right hleft hright =>
    simp only [kinds, List.forall_mem_append, List.forall_mem_cons]
    exact ⟨hleft, rfl, hright⟩
  | paren inner ih =>
    simp only [kinds, List.forall_mem_append, List.forall_mem_cons]
    exact ⟨⟨rfl, ih⟩, rfl, nofun⟩
  | call name hname hword argument ih =>
    simp only [kinds, List.forall_mem_append, List.forall_mem_cons]
    exact ⟨⟨rfl, rfl, ih⟩, rfl, nofun⟩

theorem getLast?_kinds (e : Formula) : e.kinds.getLast? = some e.last := by
  induction e with
  | operand o => rfl
  | binary left op hop right hleft hright => simp [kinds, last, List.getLast?_cons, hright]
  | paren inner ih => simp [kinds, last, List.getLast?_cons]
  | call name hname hword argument ih => simp [kinds, last, List.getLast?_cons]

/-- The tokens of a formula that ends its source, and the semicolon that this end inserts. -/
theorem exists_scanFrom (e : Formula) (offset : Nat) (pending : Bool) :
    ∃ ts place, ts.map Token.kind = e.kinds ∧
      scanFrom offset pending e.text.toList = ⟨ts ++ [.inserted place], none⟩ := by
  obtain ⟨ts, hts, hscan⟩ := e.spells offset pending [] (.inl rfl)
  rw [List.append_nil, scanFrom_nil] at hscan
  exact ⟨ts, _, hts, hscan⟩

theorem exists_tokenize (e : Formula) : ∃ ts place, ts.map Token.kind = e.kinds ∧
    tokenize e.text = .ok (ts ++ [.inserted place]) := by
  obtain ⟨ts, place, hts, hscan⟩ := e.exists_scanFrom 0 false
  refine ⟨ts, place, hts, ?_⟩
  rw [tokenize, scan_eq_scanFrom, hscan]
  rfl

theorem check_text (e : Formula) : check e.text = .ok () := by
  obtain ⟨ts, place, hts, htokens⟩ := e.exists_tokenize
  have hlast : ts.getLast?.map Token.kind = some e.last := by
    rw [← List.getLast?_map, hts, e.getLast?_kinds]
  obtain ⟨t, ht, hkind⟩ := Option.map_eq_some_iff.mp hlast
  have hfold : ts.foldlM State.step {} = .ok (State.past {} e.last) :=
    e.foldlM_step hts fun _ _ hnone => nomatch hnone
  rw [check, htokens]
  show checkTokens e.text.utf8ByteSize (dropInserted (ts ++ [.inserted place])) = .ok ()
  rw [dropInserted_concat, checkTokens, ht, hfold]
  show (if wantsOperand t.kind = true then _ else _) = _
  rw [hkind, e.wantsOperand_last]
  rfl

/-- After a parenthesis the tokens of a formula leave it as the one delimiter that is open. -/
theorem check_unclosed (e : Formula) : check ("(" ++ e.text) = .error ⟨.unclosed .paren, 0⟩ := by
  obtain ⟨ts, place, hts, hscan⟩ := e.exists_scanFrom (0 + byteSize ['(']) false
  let opener : Token := .written ⟨.opening .paren, 0, "("⟩
  have htokens : tokenize ("(" ++ e.text) = .ok (opener :: ts ++ [.inserted place]) := by
    have hread : readLexeme '(' e.text.toList = .ok (.opening .paren, 0) := rfl
    have hopener : scanFrom 0 false ('(' :: e.text.toList) = _ :=
      scanFrom_token (by decide) hread rfl
    have htext : ("(" ++ e.text).toList = '(' :: e.text.toList := String.toList_append
    rw [tokenize, scan_eq_scanFrom, htext, hopener, List.take_zero, List.drop_zero]
    change ((scanFrom (0 + byteSize ['(']) false e.text.toList).prepend [opener]).toExcept = _
    rw [hscan]
    rfl
  let inside : State := ⟨⟨[⟨.paren, 0⟩], 0⟩, some (.opening .paren)⟩
  have hstep : State.step {} opener = .ok inside := rfl
  have hfold : (opener :: ts).foldlM State.step {} = .ok (inside.past e.last) := by
    rw [foldlM_cons_of_ok hstep]
    have hawaits : inside.Awaits := by simp [State.Awaits, Nesting.isTop, inside]
    exact e.foldlM_step hts hawaits
  rw [check, htokens]
  show checkTokens _ (dropInserted (opener :: ts ++ [.inserted place])) = _
  rw [dropInserted_concat, checkTokens, hfold, List.getLast?_cons]
  rfl

end Formula

/-- Every formula passes as an expression and, assigned to nothing, as a function body. With a
parenthesis before it that nothing closes, it fails at that parenthesis. -/
theorem Formula.checks_text (e : Formula) :
    Expression.check e.text = .ok () ∧ SourceFile.checkBody ("_ = " ++ e.text) = .ok () ∧
      Expression.check ("(" ++ e.text) = .error ⟨.unclosed .paren, 0⟩ := by
  refine ⟨e.check_text, ?_, e.check_unclosed⟩
  obtain ⟨ts, before, l, _, htokens, hlast⟩ := Expression.exists_tokens e.check_text
  obtain ⟨us, place, hus, htokens'⟩ := e.exists_tokenize
  obtain rfl := Except.ok.inj (htokens.symm.trans htokens')
  refine (Expression.checkBody_assigned_iff e.check_text htokens hlast).mpr ?_
  have hplain : ∀ t ∈ us ++ [.inserted place], t.kind.isStatementKeyword = false := by
    have hkinds := e.notStatement_of_mem_kinds
    rw [← hus, List.forall_mem_map] at hkinds
    exact List.forall_mem_append.mpr ⟨hkinds, by simp [Token.kind, Kind.isStatementKeyword]⟩
  intro t ht
  have hkind := hplain t ht
  constructor <;> intro heq <;> rw [heq] at hkind <;> cases hkind

example :
    let imaginary : Operand := ⟨".5e1i", .literal .imaginary, rfl, by decide +kernel⟩
    let lines : Operand := ⟨"\x60)\n\x60", .rawString, rfl, by decide +kernel⟩
    (Formula.binary (.paren (.operand imaginary)) .andNot (by decide)
      (.call "é" (by decide +kernel) (by decide +kernel) (.operand lines))).text =
        "(.5e1i) &^ é(\x60)\n\x60)" := rfl

end Judgement

end GoSource
