import Bluespec.Proofs.AdjacentTexts
import Bluespec.Proofs.GivenTokens

/-!
# Texts as parts of other texts

A text that is one expression is the same expression wherever it stands on a line of its own, in front of a token with
which no expression goes on.

* **`Kind.startsExpr`** — the tokens that an expression begins with.
* **`Piece`** — a text that a parser reads as a value wherever it stands.
* **`Piece.goes_list`** — such texts with commas between them.
* **`ExprText`**, **`FieldText`** — a text that is one expression, alone and as the value of a field.
-/

namespace Bluespec

open Bluespec.Parser

/-! ## First tokens of expressions -/

/-- Whether an expression may begin with a token of the kind. -/
def Kind.startsExpr (k : Kind) : Bool := k.startsPrimary || (UnaryOp.ofKind? k).isSome

theorem Grammar.startsExpr_of_expr {g : Grammar} {min : Nat} {c : Setting} {s s' : State} {e : Expr}
    (h : g.expr min c s = (some e, s')) : ∃ k, s.peek = some k ∧ k.startsExpr = true := by
  obtain ⟨u, s₁, hunary, -⟩ := bind_eq_some.mp h
  rw [unary, bind_of_some (show Parser.peek c s = (some s.peek, s) from rfl)] at hunary
  cases hpeek : s.peek with
  | none =>
    rw [hpeek] at hunary
    obtain ⟨k, hprimary, -⟩ := primary_head hunary
    rw [hpeek] at hprimary
    cases hprimary
  | some k =>
    rw [hpeek, Option.bind_some] at hunary
    refine ⟨k, rfl, ?_⟩
    cases hop : UnaryOp.ofKind? k with
    | some op => rw [Kind.startsExpr, hop, Option.isSome_some, Bool.or_true]
    | none =>
      rw [hop] at hunary
      obtain ⟨k', hprimary, hstarts⟩ := primary_head hunary
      rw [hpeek] at hprimary
      cases hprimary
      rw [Kind.startsExpr, hstarts, Bool.true_or]

/-- No token is left, or the next one is such that no expression goes on with it. -/
def ExprEnds (rest : List Token) : Prop := ∀ t ∈ rest.head?, t.kind.endsExpr = true

theorem ExprEnds.exprStops {rest : List Token} (h : ExprEnds rest) : ExprStops 0 rest := fun t ht => .inl (h t ht)

theorem ExprEnds.cons {t : Token} {k : Kind} (ht : t.kind = k) (hk : k.endsExpr = true) (rest : List Token) :
    ExprEnds (t :: rest) := by
  rintro t' ⟨⟩
  rw [ht, hk]

theorem ExprEnds.stops {rest : List Token} (h : ExprEnds rest) {min : Nat} : Stops min rest := by
  have hends : ∀ k : Kind, k.endsExpr = true → k.startsSuffix = false ∧ k.startsOperation min = false := by
    intro k hk
    cases k with
    | punct p => cases p <;> first | exact ⟨rfl, rfl⟩ | cases hk
    | keyword w => cases w <;> first | exact ⟨rfl, rfl⟩ | cases hk
    | _ => cases hk
  exact fun t ht => hends t.kind (h t ht)

/-! ## Pieces -/

/-- A text that a parser reads as a value, wherever it stands in front of a token with which no expression goes on. -/
structure Piece {α : Type} (p : Parser α) where
  /-- The text. -/
  text : String
  /-- Its tokens, where it stands at an offset. -/
  tokensAt : Nat → List Token
  /-- Its value, where it stands at an offset. -/
  valueAt : Nat → α
  /-- The text has these tokens. -/
  lexed : ∀ offset rest, Lexed offset text.toList (tokensAt offset) rest
  /-- The tokens are read as this value. -/
  goes : ∀ offset cs rest, ExprEnds rest → Goes p cs (tokensAt offset) (valueAt offset) rest
  /-- The first token is one that an expression begins with. -/
  starts : ∀ offset, ∃ t us, tokensAt offset = t :: us ∧ t.kind.startsExpr = true
  /-- No star stands at the beginning of the text, so that a parenthesis before it is one token. -/
  unstarred : ∀ more, ∀ d ∈ (text.toList ++ more).head?, d ≠ '*'

namespace Piece

variable {α : Type} {p : Parser α}

/-- The number of bytes of a piece. -/
def size (x : Piece p) : Nat := Text.byteSize x.text.toList

/-- Pieces with a comma and a space between two of them. -/
def listText (xs : List (Piece p)) : String := ", ".intercalate (xs.map text)

/-- The tokens of pieces with commas between them. -/
def listTokens (offset : Nat) : List (Piece p) → List Token
  | [] => []
  | [x] => x.tokensAt offset
  | x :: y :: xs =>
    x.tokensAt offset ++ Lexed.symbolAt .comma (offset + x.size) :: listTokens (offset + x.size + 2) (y :: xs)

/-- The values of pieces with commas between them. -/
def listValues (offset : Nat) : List (Piece p) → List α
  | [] => []
  | x :: xs => x.valueAt offset :: listValues (offset + x.size + 2) xs

theorem lexed_list (x : Piece p) (xs : List (Piece p)) (offset : Nat) (rest : List Char) :
    Lexed offset (listText (x :: xs)).toList (listTokens offset (x :: xs)) rest := by
  induction xs generalizing x offset with
  | nil =>
    rw [listText, List.map_singleton, String.intercalate_singleton]
    exact x.lexed offset rest
  | cons y xs ih =>
    have hlater := ih y (offset + x.size + 2)
    rw [listText, String.toList_intercalate] at hlater ⊢
    rw [List.map_cons, List.map_cons, List.map_cons, List.map_cons, List.intercalate_cons_cons, List.append_assoc,
      ← List.map_cons, ← List.map_cons]
    exact (x.lexed offset _).append ((Lexed.symbolSpace .comma).append hlater)

/-- There are at least as many tokens as pieces. -/
theorem length_le_listTokens (offset : Nat) (xs : List (Piece p)) : xs.length ≤ (listTokens offset xs).length := by
  induction xs generalizing offset with
  | nil => exact Nat.le_refl 0
  | cons x xs ih =>
    obtain ⟨t, us, hcons, -⟩ := x.starts offset
    cases xs with
    | nil =>
      rw [listTokens, hcons]
      exact Nat.succ_le_succ (Nat.zero_le _)
    | cons y ys =>
      have hlater := ih (offset + x.size + 2)
      simp only [listTokens, hcons, List.length_append, List.length_cons] at hlater ⊢
      omega

/-- The first token of pieces is one that an expression begins with. -/
theorem starts_list (x : Piece p) (xs : List (Piece p)) (offset : Nat) :
    ∃ t us, listTokens offset (x :: xs) = t :: us ∧ t.kind.startsExpr = true := by
  obtain ⟨t, us, hcons, hstarts⟩ := x.starts offset
  cases xs with
  | nil => exact ⟨t, us, hcons, hstarts⟩
  | cons y ys =>
    rw [listTokens, hcons]
    exact ⟨t, _, rfl, hstarts⟩

theorem unstarred_list (x : Piece p) (xs : List (Piece p)) (more : List Char) :
    ∀ d ∈ ((listText (x :: xs)).toList ++ more).head?, d ≠ '*' := by
  obtain ⟨later, hlater⟩ : ∃ later, (listText (x :: xs)).toList = x.text.toList ++ later := by
    rw [listText, String.toList_intercalate, List.map_cons, List.map_cons]
    cases xs.map text with
    | nil => exact ⟨[], by rw [List.map_nil, List.intercalate_singleton, List.append_nil]⟩
    | cons y ys => exact ⟨_, by rw [List.map_cons, List.intercalate_cons_cons, List.append_assoc]⟩
  rw [hlater, List.append_assoc]
  exact x.unstarred _

/-- No closing parenthesis stands before pieces. -/
theorem lacks_rparen (x : Piece p) (xs : List (Piece p)) (offset : Nat) (rest : List Token) :
    Lacks (.punct .rparen) (listTokens offset (x :: xs) ++ rest) := by
  obtain ⟨t, us, hcons, hstarts⟩ := starts_list x xs offset
  rw [hcons]
  rintro t' ⟨⟩ hk
  rw [hk] at hstarts
  cases hstarts

variable {rest : List Token} (hrest : ExprEnds rest) (hcomma : Lacks (.punct .comma) rest)

include hrest hcomma

/-- Pieces with commas between them are read as their values, one after the other. -/
theorem goes_listUpTo (x : Piece p) (xs : List (Piece p)) (offset : Nat) (cs : List Token) {limit : Nat}
    (hlimit : xs.length < limit) :
    Goes (separatedUpTo .comma p limit) cs (listTokens offset (x :: xs)) (listValues offset (x :: xs)) rest := by
  induction xs generalizing x offset cs limit with
  | nil =>
    obtain ⟨limit, rfl⟩ := Nat.exists_eq_add_one.mpr hlimit
    exact goes_separatedUpTo_one (x.goes offset cs rest hrest) hcomma
  | cons y xs ih =>
    obtain ⟨limit, rfl⟩ := Nat.exists_eq_add_one.mpr (Nat.zero_lt_of_lt hlimit)
    exact goes_separatedUpTo_cons (x.goes offset cs _ (.cons rfl rfl _)) rfl
      (ih y _ _ (Nat.lt_of_succ_lt_succ hlimit))

theorem goes_list (x : Piece p) (xs : List (Piece p)) (offset : Nat) (cs : List Token) :
    Goes (separated .comma p) cs (listTokens offset (x :: xs)) (listValues offset (x :: xs)) rest := by
  have hlength := length_le_listTokens offset (x :: xs)
  have hlimit : xs.length < (listTokens offset (x :: xs) ++ rest).length + 1 := by
    rw [List.length_cons] at hlength
    rw [List.length_append]
    omega
  exact fun c ns => goes_listUpTo hrest hcomma x xs offset cs hlimit c ns

end Piece

/-! ## Texts of expressions -/

/-- A text that is read as one expression. -/
structure ExprText where
  /-- The text. -/
  text : String
  /-- The expression. -/
  expr : Expr
  /-- The text is read as the expression. -/
  read : parseExpression text = .ok expr

namespace ExprText

/-- The number of bytes of the text. -/
def size (x : ExprText) : Nat := Text.byteSize x.text.toList

/-- The text with a line end. -/
def line (x : ExprText) : String := x.text ++ "\n"

/-- The tokens of the text at an offset. -/
def tokensAt (x : ExprText) (offset : Nat) : List Token := (Token.significant x.text).map (Token.move (· + offset))

theorem lexical (x : ExprText) : LexicalError.ofText x.text = [] := (parseOnly_eq_ok.mp x.read).1

/-- The first token of a text is one that an expression begins with. -/
theorem exists_first (x : ExprText) : ∃ t us, Token.significant x.text = t :: us ∧ t.kind.startsExpr = true := by
  obtain ⟨t, us, hcons⟩ := exists_first_of_parseOnly (fun tokens n => (inner_full tokens n).expr 0) x.read
  obtain ⟨-, s', hrun, -⟩ := parseOnly_eq_ok.mp x.read
  replace hrun : Grammar.full.innerExpr 0 _ _ = _ := hrun
  rw [Grammar.innerExpr_eq] at hrun
  obtain ⟨k, hpeek, hk⟩ := Grammar.startsExpr_of_expr hrun
  replace hpeek : Option.map Token.kind (Token.significant x.text).head? = some k := hpeek
  rw [hcons] at hpeek
  cases hpeek
  exact ⟨t, us, hcons, hk⟩

theorem starts (x : ExprText) (offset : Nat) : ∃ t us, x.tokensAt offset = t :: us ∧ t.kind.startsExpr = true := by
  obtain ⟨t, us, hcons, hk⟩ := x.exists_first
  refine ⟨t.move (· + offset), us.map (Token.move (· + offset)), ?_, hk⟩
  rw [tokensAt, hcons]
  rfl

/-- No star stands at the beginning of a text, for no expression begins with one. -/
theorem unstarred (x : ExprText) (more : List Char) : ∀ d ∈ (x.line.toList ++ more).head?, d ≠ '*' := by
  rintro d hd rfl
  have hline : x.line.toList = x.text.toList ++ ['\n'] := String.toList_append
  rw [hline] at hd
  obtain ⟨cs, hcs⟩ : ∃ cs, x.text.toList = '*' :: cs := by
    cases htext : x.text.toList with
    | nil =>
      rw [htext] at hd
      cases hd
    | cons c cs =>
      rw [htext] at hd
      cases hd
      exact ⟨cs, rfl⟩
  obtain ⟨t, us, hcons, hstarts⟩ := x.exists_first
  obtain ⟨p, n, hp, hlong⟩ := Lexeme.longest?_star cs
  obtain ⟨t', ts, hts, hkind⟩ : ∃ t' ts, Token.significant x.text = t' :: ts ∧ t'.kind = .punct p := by
    rw [Token.significant, Token.ofText, hcs, Item.scan_of_lexeme 0 hlong]
    exact ⟨_, _, rfl, rfl⟩
  rw [hcons] at hts
  obtain ⟨rfl, -⟩ := List.cons.inj hts
  rw [hkind] at hstarts
  rcases hp with rfl | rfl <;> cases hstarts

/-- An expression ends where the last token of its text does. -/
theorem exists_last (x : ExprText) : ∃ us t, Token.significant x.text = us ++ [t] ∧ t.span.stop = x.expr.span.stop := by
  obtain ⟨-, s', hrun, hend, hclean⟩ := parseOnly_eq_ok.mp x.read
  have hgoes : Goes (Grammar.full.innerExpr 0) [] (Token.significant x.text) x.expr [] :=
    goes_of_run (fun tokens n => (inner_full tokens n).expr 0) hrun hend hclean [] [] nofun
  rw [Grammar.innerExpr_eq] at hgoes
  obtain ⟨hpos, a, b, -, hlast, hspan⟩ := reaches_of_expr (Token.ordered_significant x.text) hgoes
  rw [← List.getLast?_eq_getElem?] at hlast
  obtain ⟨us, hus⟩ := List.getLast?_eq_some_iff.mp hlast
  exact ⟨us, b, hus, by rw [hspan]⟩

/-- The same where the text stands at an offset. -/
theorem exists_last_at (x : ExprText) (offset : Nat) :
    ∃ us t, x.tokensAt offset = us ++ [t] ∧ t.span.stop = x.expr.span.stop + offset := by
  obtain ⟨us, t, htokens, hstop⟩ := x.exists_last
  refine ⟨us.map (Token.move (· + offset)), t.move (· + offset), ?_, congrArg (· + offset) hstop⟩
  rw [tokensAt, htokens, List.map_append]
  rfl

/-- A text with a line end as a piece of another text. -/
def piece (x : ExprText) : Piece (Grammar.full.innerExpr 0) where
  text := x.line
  tokensAt := x.tokensAt
  valueAt offset := x.expr.move (· + offset)
  lexed offset rest := by
    rw [line, String.toList_append]
    exact Lexed.line x.lexical
  goes offset cs _ h := Expr.goes_of_parseExpression x.read offset cs h.exprStops
  starts := x.starts
  unstarred := x.unstarred

/-- Texts with line ends, and with a comma and a space between two of them. -/
def lines (xs : List ExprText) : String := ", ".intercalate (xs.map line)

/-- The expressions of such texts, the first of them at `offset`. -/
def exprsAt (offset : Nat) : List ExprText → List Expr
  | [] => []
  | x :: xs => x.expr.move (· + offset) :: exprsAt (offset + x.size + 3) xs

theorem listText_piece (xs : List ExprText) : Piece.listText (xs.map piece) = lines xs := by
  rw [Piece.listText, List.map_map]
  rfl

theorem size_piece (x : ExprText) : x.piece.size = x.size + 1 := by
  show Text.byteSize (x.text ++ "\n").toList = _
  rw [String.toList_append, Text.byteSize_append]
  rfl

theorem listValues_piece (offset : Nat) (xs : List ExprText) :
    Piece.listValues offset (xs.map piece) = exprsAt offset xs := by
  induction xs generalizing offset with
  | nil => rfl
  | cons x xs ih =>
    rw [List.map_cons, Piece.listValues, ih, size_piece, exprsAt]
    rfl

end ExprText

/-- A field and a text that is read as its value. -/
structure FieldText where
  /-- The name of the field. -/
  field : Identifier .ident
  /-- The text of its value. -/
  value : ExprText

namespace FieldText

/-- The field and its value with a line end. -/
def line (x : FieldText) : String := x.field.text ++ ": " ++ x.value.line

/-- The field with its value, where its name stands at an offset. -/
def bindAt (x : FieldText) (offset : Nat) : FieldBind where
  field := x.field.text
  value := x.value.expr.move (· + (offset + Text.byteSize x.field.text.toList + 2))
  span := ⟨offset, x.value.expr.span.stop + (offset + Text.byteSize x.field.text.toList + 2)⟩

/-- A field and its value as a piece of another text. -/
def piece (x : FieldText) : Piece Grammar.full.fieldBind where
  text := x.line
  tokensAt offset := Lexed.nameAt x.field offset ::
    Lexed.symbolAt .colon (offset + Text.byteSize x.field.text.toList) ::
      x.value.tokensAt (offset + Text.byteSize x.field.text.toList + 2)
  valueAt := x.bindAt
  lexed offset rest := by
    rw [line, String.toList_append, String.toList_append, List.append_assoc]
    have hcolon : Lexed (offset + Text.byteSize x.field.text.toList) (": ".toList ++ x.value.line.toList) _ rest :=
      (Lexed.symbolSpace .colon).append (x.value.piece.lexed _ rest)
    exact (Lexed.name x.field rfl (fun d hd => by cases hd; rfl)).append hcolon
  goes offset cs rest h := by
    have hvalue : Goes (Grammar.full.innerExpr 0)
        (Lexed.symbolAt .colon (offset + Text.byteSize x.field.text.toList) :: Lexed.nameAt x.field offset :: cs)
        (x.value.tokensAt (offset + Text.byteSize x.field.text.toList + 2))
        (x.value.expr.move (· + (offset + Text.byteSize x.field.text.toList + 2))) rest :=
      Expr.goes_of_parseExpression x.value.read _ _ h.exprStops
    obtain ⟨us, t, htokens, hstop⟩ := x.value.exists_last_at (offset + Text.byteSize x.field.text.toList + 2)
    have hspan : max t.span.stop offset = x.value.expr.span.stop + (offset + Text.byteSize x.field.text.toList + 2) := by
      rw [hstop]
      omega
    rw [htokens] at hvalue
    refine .offset (.cons (.expectText rfl) (.cons (.expectPunct rfl) ?_))
    rw [htokens, bindAt, ← hspan]
    exact hvalue.spanned
  starts offset := ⟨_, _, rfl, rfl⟩
  unstarred more := by
    rintro d hd rfl
    rw [line, String.toList_append, String.toList_append, Identifier.text, String.toList_ofList] at hd
    have hstarts := x.field.starts
    rw [Option.some.inj hd] at hstarts
    cases hstarts

/-- Fields and their values with line ends, and with a comma and a space between two of them. -/
def lines (xs : List FieldText) : String := ", ".intercalate (xs.map line)

/-- The fields with their values, the first of them at `offset`. -/
def bindsAt (offset : Nat) : List FieldText → List FieldBind
  | [] => []
  | x :: xs => x.bindAt offset :: bindsAt (offset + Text.byteSize x.line.toList + 2) xs

theorem listText_piece (xs : List FieldText) : Piece.listText (xs.map piece) = lines xs := by
  rw [Piece.listText, List.map_map]
  rfl

theorem listValues_piece (offset : Nat) (xs : List FieldText) :
    Piece.listValues offset (xs.map piece) = bindsAt offset xs := by
  induction xs generalizing offset with
  | nil => rfl
  | cons x xs ih =>
    rw [List.map_cons, Piece.listValues, ih]
    rfl

end FieldText

end Bluespec
