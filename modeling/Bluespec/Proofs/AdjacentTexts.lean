import Bluespec.Proofs.LineTexts

/-!
# Texts side by side

A text that is put together from names, symbols and whole lines is cut where its parts meet.

* **`Lexed`** — characters that are read as given tokens in front of other ones.
* **`Lexeme.longest?_before`** — a symbol in front of a character with which no other symbol goes on.
* **`Identifier`** — the text of a name.
* **`Lexed.symbol`**, **`Lexed.name`**, **`Lexed.line`**, **`Lexed.last`** — the parts; **`Lexed.append`** puts them together.
-/

namespace Bluespec

/-! ## Symbols -/

namespace Lexeme

open Pattern

/-- A symbol is read as a whole in front of a character with which nothing longer begins. -/
theorem longest?_before {p : Punct} {rest : List Char}
    (hvariable : (variableRules.all fun r => (r.1.steps p.spelling.toList).isNothing) = true)
    (hsymbols : ∀ q : Punct, ∀ d ∈ rest.head?, ((text q.spelling).steps p.spelling.toList).step d = nothing) :
    longest? (p.spelling.toList ++ rest) = some (.symbol p, p.spelling.toList.length) := by
  have halone : longest? (p.spelling.toList ++ []) = some (.symbol p, p.spelling.toList.length) := by
    rw [List.append_nil]
    exact longest?_last_symbol p
  refine longest?_cut halone (Nat.le_refl _) fun r hr d hd => ?_
  rcases List.mem_append.mp hr with hr | hr
  · have hnothing := List.all_eq_true.mp hvariable r hr
    cases hsteps : r.1.steps p.spelling.toList with
    | nothing => rfl
    | _ =>
      rw [hsteps] at hnothing
      cases hnothing
  · obtain ⟨q, -, rfl⟩ := List.mem_map.mp hr
    exact hsymbols q d hd

/-- No symbol begins with a bracket or a brace but itself, and none with a closing parenthesis. -/
theorem longest?_bracket {p : Punct} (hp : p ∈ [Punct.rparen, .lbrace, .rbrace, .lbracket, .rbracket]) (rest : List Char) :
    longest? (p.spelling.toList ++ rest) = some (.symbol p, p.spelling.toList.length) := by
  simp only [List.mem_cons, List.not_mem_nil, or_false] at hp
  rcases hp with rfl | rfl | rfl | rfl | rfl
  all_goals exact longest?_before (by decide +kernel) fun q d _ => by cases q <;> rfl

/-- Symbols that are the first character of just one longer symbol, with the second character of that one. -/
def extended : List (Punct × Char) := [(.lparen, '*'), (.dot, '.'), (.star, ')')]

/-- Such a symbol is read as a whole in front of any other character. -/
theorem longest?_extended {p : Punct} {c : Char} (hp : (p, c) ∈ extended) {rest : List Char}
    (hrest : ∀ d ∈ rest.head?, d ≠ c) :
    longest? (p.spelling.toList ++ rest) = some (.symbol p, p.spelling.toList.length) := by
  have hlonger : ∀ d ∈ rest.head?, (char (· == c)).step d = nothing := by
    intro d hd
    rw [step, beq_eq_false_iff_ne.mpr (hrest d hd)]
    rfl
  simp only [extended, List.mem_cons, List.not_mem_nil, or_false, Prod.mk.injEq] at hp
  rcases hp with ⟨rfl, rfl⟩ | ⟨rfl, rfl⟩ | ⟨rfl, rfl⟩
  all_goals
    refine longest?_before (by decide +kernel) fun q d hd => ?_
    cases q <;> first | rfl | exact hlonger d hd

/-- A star is read alone or as the end of attribute instances. -/
theorem longest?_star (rest : List Char) :
    ∃ p n, (p = .star ∨ p = .attrClose) ∧ longest? ('*' :: rest) = some (.symbol p, n) := by
  by_cases hrest : ∀ d ∈ rest.head?, d ≠ ')'
  · exact ⟨.star, 1, .inl rfl, longest?_extended (p := .star) (by decide) hrest⟩
  · cases rest with
    | nil => exact absurd nofun hrest
    | cons d ds =>
      obtain rfl : d = ')' := by
        by_contra hne
        exact hrest fun e he => by cases he; exact hne
      have hlong : longest? (Punct.attrClose.spelling.toList ++ ds) = some (.symbol .attrClose, 2) :=
        longest?_before (by decide +kernel) fun q d _ => by cases q <;> rfl
      exact ⟨.attrClose, 2, .inr rfl, hlong⟩

end Lexeme

/-! ## Names -/

/-- The text of a word of the given kind. -/
structure Identifier (kind : Kind) where
  /-- The first character. -/
  first : Char
  /-- The other characters. -/
  others : List Char
  /-- A word begins with the first character. -/
  starts : Lexeme.isWordStart first = true
  /-- The word goes on with the other characters. -/
  continues : ∀ d ∈ others, Lexeme.isWordPart d = true
  /-- The word is of the kind. -/
  ofWord : Kind.ofWord (String.ofList (first :: others)) = kind

/-- The text of an identifier. -/
def Identifier.text {kind : Kind} (x : Identifier kind) : String := String.ofList (x.first :: x.others)

/-! ## Parts of texts -/

/-- The characters `cs` at an offset are read as the tokens `ts` and without lexical errors when `rest` stands behind
them; that is read as it is alone. -/
structure Lexed (offset : Nat) (cs : List Char) (ts : List Token) (rest : List Char) : Prop where
  tokens : ((Item.scan offset (cs ++ rest)).map Item.toToken).filter Token.isSignificant =
    ts ++ ((Item.scan (offset + Text.byteSize cs) rest).map Item.toToken).filter Token.isSignificant
  errors : (Item.scan offset (cs ++ rest)).filterMap Item.error? =
    (Item.scan (offset + Text.byteSize cs) rest).filterMap Item.error?

namespace Lexed

variable {offset : Nat} {cs cs' rest : List Char} {ts ts' : List Token}

theorem append (h : Lexed offset cs ts (cs' ++ rest)) (h' : Lexed (offset + Text.byteSize cs) cs' ts' rest) :
    Lexed offset (cs ++ cs') (ts ++ ts') rest where
  tokens := by
    rw [List.append_assoc, h.tokens, h'.tokens, Text.byteSize_append, Nat.add_assoc, List.append_assoc]
  errors := by rw [List.append_assoc, h.errors, h'.errors, Text.byteSize_append, Nat.add_assoc]

/-- The same, where the offset of the second part is known. -/
theorem appendAt {offset' : Nat} (h : Lexed offset cs ts (cs' ++ rest)) (hoffset : offset + Text.byteSize cs = offset')
    (h' : Lexed offset' cs' ts' rest) : Lexed offset (cs ++ cs') (ts ++ ts') rest :=
  h.append (hoffset ▸ h')

/-- Blanks and comments left out, the items of the parts are those of the whole. -/
theorem of_kept (is : List Item) (h : Item.kept (Item.scan offset (cs ++ rest)) =
    is ++ Item.kept (Item.scan (offset + Text.byteSize cs) rest))
    (hts : (is.map Item.toToken).filter Token.isSignificant = ts) (hclean : is.filterMap Item.error? = []) :
    Lexed offset cs ts rest where
  tokens := by
    rw [← Item.significant_kept, h, List.map_append, List.filter_append, hts, Item.significant_kept]
  errors := by rw [← Item.errors_kept, h, List.filterMap_append, hclean, Item.errors_kept, List.nil_append]

/-- A text without lexical errors on a line of its own. -/
theorem line {text : String} (h : LexicalError.ofText text = []) :
    Lexed offset (text.toList ++ ['\n']) ((Token.significant text).map (Token.move (· + offset))) rest := by
  have herrors : (Item.scan offset text.toList).filterMap Item.error? = [] := by
    rw [Item.errors_at, h]
    rfl
  refine of_kept (Item.kept (Item.scan offset text.toList)) ?_ ?_ ?_
  · rw [List.append_assoc, Text.byteSize_append, ← Nat.add_assoc]
    exact Item.kept_line herrors rest
  · rw [Item.significant_kept, Item.significant_at]
  · rw [Item.errors_kept, herrors]

/-- A text without lexical errors with nothing behind it. -/
theorem last {text : String} (h : LexicalError.ofText text = []) :
    Lexed offset text.toList ((Token.significant text).map (Token.move (· + offset))) [] where
  tokens := by
    rw [List.append_nil, Item.significant_at]
    exact (List.append_nil _).symm
  errors := by
    rw [List.append_nil, Item.errors_at, h]
    rfl

/-- A space between tokens. -/
theorem space : Lexed offset [' '] [] rest :=
  of_kept [] (Item.kept_blanks offset (List.forall_mem_singleton.mpr rfl) rest) rfl rfl

/-- A part that is one token. -/
theorem one {c : Char} {lexeme : Lexeme} {t : Token}
    (h : Lexeme.longest? (c :: (cs ++ rest)) = some (lexeme, cs.length + 1))
    (hitem : Item.ofLexeme lexeme offset (c :: cs) = .token t) (hsignificant : t.isSignificant = true) :
    Lexed offset (c :: cs) [t] rest := by
  have htake : (c :: (cs ++ rest)).take (cs.length + 1) = c :: cs := by rw [List.take_succ_cons, List.take_left]
  have hdrop : (c :: (cs ++ rest)).drop (cs.length + 1) = rest := by rw [List.drop_succ_cons, List.drop_left]
  have hscan : Item.scan offset (c :: cs ++ rest) = .token t :: Item.scan (offset + Text.byteSize (c :: cs)) rest := by
    rw [List.cons_append, Item.scan_of_lexeme offset h, htake, hdrop, hitem]
  refine ⟨?_, ?_⟩
  · rw [hscan, List.map_cons, Item.toToken_token, List.filter_cons_of_pos hsignificant]
    rfl
  · rw [hscan]
    rfl

/-- The token of a symbol at an offset. -/
def symbolAt (p : Punct) (offset : Nat) : Token :=
  ⟨.punct p, p.spelling, ⟨offset, offset + Text.byteSize p.spelling.toList⟩⟩

/-- A symbol that is read as a whole. -/
theorem symbol {p : Punct} (h : Lexeme.longest? (p.spelling.toList ++ rest) = some (.symbol p, p.spelling.toList.length)) :
    Lexed offset p.spelling.toList [symbolAt p offset] rest := by
  obtain ⟨c, cs, hcs⟩ : ∃ c cs, p.spelling.toList = c :: cs := by cases p <;> exact ⟨_, _, rfl⟩
  have hitem : Item.ofLexeme (.symbol p) offset p.spelling.toList = .token (symbolAt p offset) := by
    show Item.token ⟨_, String.ofList p.spelling.toList, _⟩ = _
    rw [String.ofList_toList]
    rfl
  rw [hcs] at h hitem ⊢
  exact one h hitem rfl

/-- A symbol and the space behind it. -/
theorem symbolSpace (p : Punct) : Lexed offset (p.spelling.toList ++ [' ']) [symbolAt p offset] rest :=
  (symbol (Lexeme.longest?_symbol p rest)).append space

/-- The token of a name at an offset. -/
def nameAt {kind : Kind} (x : Identifier kind) (offset : Nat) : Token :=
  ⟨kind, x.text, ⟨offset, offset + Text.byteSize x.text.toList⟩⟩

/-- A name in front of a character that is no part of one. -/
theorem name {kind : Kind} (x : Identifier kind) (hkind : (!kind.isTrivia && kind != .error) = true)
    (hrest : ∀ d ∈ rest.head?, Lexeme.isWordPart d = false) :
    Lexed offset x.text.toList [nameAt x offset] rest := by
  have htext : x.text.toList = x.first :: x.others := String.toList_ofList
  have hitem : Item.ofLexeme .word offset (x.first :: x.others) = .token (nameAt x offset) := by
    show Item.token ⟨Kind.ofWord (String.ofList (x.first :: x.others)), x.text, _⟩ = _
    rw [x.ofWord, nameAt, htext]
  rw [htext]
  exact one (Lexeme.longest?_word x.starts x.continues hrest) hitem hkind

/-- A name and the space behind it. -/
theorem nameSpace {kind : Kind} (x : Identifier kind) (hkind : (!kind.isTrivia && kind != .error) = true) {text : String}
    (htext : text.toList = x.first :: x.others ++ [' ']) : Lexed offset text.toList [nameAt x offset] rest := by
  have hname : x.text.toList = x.first :: x.others := String.toList_ofList
  rw [htext, ← hname]
  exact (name x hkind (by rintro d ⟨⟩; rfl)).append space

/-- The tokens of a text that has been read in parts. -/
theorem whole {text : String} (h : Lexed 0 text.toList ts []) :
    Token.significant text = ts ∧ LexicalError.ofText text = [] := by
  have htokens := h.tokens
  have herrors := h.errors
  rw [List.append_nil] at htokens herrors
  exact ⟨htokens.trans (List.append_nil ts), herrors⟩

end Lexed

end Bluespec
