import Bluespec.Proofs.CutText
import Bluespec.Proofs.Layout
import Bluespec.Proofs.SpacedText

/-!
# Sources with other layouts

The significant tokens of a source, written with single spaces between them, are read as the same tokens.

* **`InString`** — what is left of the patterns of strings inside a string and behind it.
* **`Lexeme.stuck_of_significant`** — behind the text of a significant token no rule matches a space.
* **`Token.respaced`** — the significant tokens with single spaces between them.
-/

namespace Bluespec

/-! ## Fixed texts -/

namespace Pattern

theorem step_word (d c : Char) (cs : List Char) :
    (word (c :: cs)).step d = if d = c then word cs else nothing := by
  cases cs with
  | nil =>
    show (if d == c then blank else nothing) = _
    by_cases hd : d = c <;> simp [hd, word]
  | cons e cs =>
    show (if d == c then blank else nothing).andThen (word (e :: cs)) = _
    by_cases hd : d = c <;> simp [hd, andThen]

/-- A fixed text is matched by itself only. -/
theorem eq_of_nullable_word {cs ds : List Char} (h : ((word cs).steps ds).nullable = true) : ds = cs := by
  induction ds generalizing cs with
  | nil =>
    cases cs with
    | nil => rfl
    | cons c cs => cases cs <;> cases h
  | cons d ds ih =>
    cases cs with
    | nil =>
      have hnothing : ((word []).step d).steps ds = nothing := steps_nothing ds
      rw [steps, hnothing] at h
      cases h
    | cons c cs =>
      rw [steps, step_word] at h
      by_cases hd : d = c
      · rw [if_pos hd] at h
        rw [hd, ih h]
      · rw [if_neg hd, steps_nothing] at h
        cases h

/-- A pattern that matches a text does not reject its first character. -/
theorem step_ne_nothing {a : Pattern} {c : Char} {cs : List Char} (h : (a.steps (c :: cs)).nullable = true) :
    a.step c ≠ nothing := by
  intro hnothing
  rw [steps, hnothing, steps_nothing] at h
  cases h

end Pattern

/-! ## Strings -/

section Strings

open Pattern Lexeme

/-- The pattern of strings without escapes, behind the opening quote. -/
def plainBody : Pattern := sequence [star stringChar, text "\""]

/-- The pattern of strings with an escape, behind the opening quote. -/
def escapedBody : Pattern := sequence [star stringChar, escapePair, stringBody, text "\""]

/-- The pattern of strings with an escape, behind the first escape. -/
def escapedRest : Pattern := sequence [stringBody, text "\""]

/-- The pattern of strings that are not closed, behind the opening quote. -/
def openBody : Pattern := sequence [stringBody, optional (text "\\")]

/-- What is left of a pattern behind a backslash, where `rest` is left behind the escape. -/
def escapeIn (rest : Pattern) : Pattern := seq (seq (noneOf "\n") stringBody) rest

/-- What is left of the patterns of plain, escaped and unclosed strings behind an opening quote and some text. -/
inductive InString : Pattern → Pattern → Pattern → Prop
  | plain : InString plainBody escapedBody openBody
  | firstEscape : InString nothing (seq (noneOf "\n") escapedRest) ((escapeIn (optional (text "\\"))).alt blank)
  | escaped : InString nothing escapedRest openBody
  | escape : InString nothing (escapeIn (text "\"")) ((escapeIn (optional (text "\\"))).alt blank)
  | plainClosed : InString blank nothing nothing
  | escapedClosed : InString nothing blank nothing
  | dead : InString nothing nothing nothing

/-- One more character of a string.  A quote closes it, a backslash begins an escape, and a line end breaks it. -/
theorem InString.step {p e u : Pattern} (h : InString p e u) (c : Char) :
    InString (p.step c) (e.step c) (u.step c) := by
  by_cases hquote : c = '"'
  · subst hquote
    cases h <;> constructor
  by_cases hslash : c = '\\'
  · subst hslash
    cases h <;> constructor
  by_cases hline : c = '\n'
  · subst hline
    cases h <;> constructor
  have hchar : stringChar.step c = blank := by simp [stringChar, noneOf, Pattern.step, hquote, hslash, hline]
  have hany : (noneOf "\n").step c = blank := by simp [noneOf, Pattern.step, hline]
  have hpair : escapePair.step c = nothing := by
    simp [escapePair, oneOf, Pattern.step, nullable, hslash, andThen]
  have hplain : (star stringChar).step c = star stringChar := by rw [Pattern.step, hchar]; rfl
  have hbody : stringBody.step c = stringBody := by
    rw [stringBody, Pattern.step, Pattern.step, hchar, hpair]
    rfl
  have hclose : (text "\"").step c = nothing := by simp [text, step_word, hquote]
  have hopen : (Pattern.optional (text "\\")).step c = nothing := by
    simp [Pattern.optional, text, Pattern.step, step_word, hslash, Pattern.orElse]
  have hescape : (seq (noneOf "\n") stringBody).step c = stringBody := by
    show ((noneOf "\n").step c).andThen stringBody = stringBody
    rw [hany]
    rfl
  have hplainBody : plainBody.step c = plainBody := by
    show (((star stringChar).step c).andThen (text "\"")).orElse ((text "\"").step c) = _
    rw [hplain, hclose]
    rfl
  have hescapedBody : escapedBody.step c = escapedBody := by
    show (((star stringChar).step c).andThen (seq escapePair escapedRest)).orElse
      ((escapePair.step c).andThen escapedRest) = _
    rw [hplain, hpair]
    rfl
  have hescapedRest : escapedRest.step c = escapedRest := by
    show ((stringBody.step c).andThen (text "\"")).orElse ((text "\"").step c) = _
    rw [hbody, hclose]
    rfl
  have hopenBody : openBody.step c = openBody := by
    show ((stringBody.step c).andThen (Pattern.optional (text "\\"))).orElse
      ((Pattern.optional (text "\\")).step c) = _
    rw [hbody, hopen]
    rfl
  have hescapeOpen : ((escapeIn (Pattern.optional (text "\\"))).alt blank).step c = openBody := by
    show (((seq (noneOf "\n") stringBody).step c).andThen (Pattern.optional (text "\\"))).orElse nothing = _
    rw [hescape]
    rfl
  cases h with
  | plain =>
    rw [hplainBody, hescapedBody, hopenBody]
    exact .plain
  | firstEscape =>
    have hfirst : (seq (noneOf "\n") escapedRest).step c = escapedRest := by
      show ((noneOf "\n").step c).andThen escapedRest = _
      rw [hany]
      rfl
    rw [hfirst, hescapeOpen]
    exact .escaped
  | escaped =>
    rw [hescapedRest, hopenBody]
    exact .escaped
  | escape =>
    have hagain : (escapeIn (text "\"")).step c = escapedRest := by
      show ((seq (noneOf "\n") stringBody).step c).andThen (text "\"") = _
      rw [hescape]
      rfl
    rw [hagain, hescapeOpen]
    exact .escaped
  | plainClosed => exact .dead
  | escapedClosed => exact .dead
  | dead => exact .dead

theorem InString.steps {p e u : Pattern} (h : InString p e u) (cs : List Char) :
    InString (p.steps cs) (e.steps cs) (u.steps cs) := by
  induction cs generalizing p e u with
  | nil => exact h
  | cons c cs ih => exact ih (h.step c)

/-- Behind the closing quote nothing is left of any of the patterns. -/
theorem InString.stuck {p e u : Pattern} (h : InString p e u) (hclosed : p.nullable = true ∨ e.nullable = true) :
    p.step ' ' = nothing ∧ e.step ' ' = nothing ∧ u.step ' ' = nothing := by
  cases h with
  | plainClosed => exact ⟨rfl, rfl, rfl⟩
  | escapedClosed => exact ⟨rfl, rfl, rfl⟩
  | _ => obtain h | h := hclosed <;> cases h

end Strings

/-! ## Significant lexemes -/

namespace Lexeme

open Pattern

/-- Whether text of a class can be a token that the grammar reads. -/
def isSignificant : Lexeme → Bool
  | whitespace | comment | unterminatedComment | unterminatedString => false
  | _ => true

/-- The rules that match texts with spaces. -/
def spacious : List Pattern :=
  [plus (oneOf " \t\r\n\x0c"),
   sequence [text "/*", commentBody, plus (oneOf "*"), text "/"],
   seq (text "//") (star (noneOf "\n")),
   sequence [text "/*", commentBody, star (oneOf "*")],
   sequence [text "\"", star stringChar, text "\""],
   sequence [text "\"", star stringChar, escapePair, stringBody, text "\""],
   sequence [text "\"", stringBody, optional (text "\\")]]

theorem avoids_or_spacious : ∀ r ∈ rules, r.1.avoids ' ' = true ∨ r.1 ∈ spacious := by
  refine forall_rules (fun r hr => ?_) fun p => .inl (by cases p <;> rfl)
  simp only [variableRules, List.mem_cons, List.not_mem_nil, or_false] at hr
  rcases hr with rfl | rfl | rfl | rfl | rfl | rfl | rfl | rfl | rfl | rfl | rfl | rfl | rfl | rfl
  all_goals first
    | exact .inl (by decide)
    | exact .inr (by simp [spacious])

/-- The characters with which a text with spaces in it can begin. -/
def spaciousStarts : List Char := " \t\r\n\x0c/\"".toList

theorem spacious_rejects {c : Char} (hc : c ∉ spaciousStarts) : ∀ a ∈ spacious, a.step c = nothing := by
  have hne : ∀ d ∈ spaciousStarts, (c == d) = false := by
    intro d hd
    rw [beq_eq_false_iff_ne]
    rintro rfl
    exact hc hd
  have hblank : isBlank c = false := by
    rw [← Bool.not_eq_true, isBlank, List.contains_iff_mem]
    exact fun hmem => hc (List.mem_append_left "/\"".toList hmem)
  intro a ha
  simp only [spacious, List.mem_cons, List.not_mem_nil, or_false] at ha
  rcases ha with rfl | rfl | rfl | rfl | rfl | rfl | rfl
  · exact (Rejects.seq (.char hblank)).step
  · exact (Rejects.seq (.word (hne '/' (by decide)) _)).step
  · exact (Rejects.seq (.word (hne '/' (by decide)) _)).step
  · exact (Rejects.seq (.word (hne '/' (by decide)) _)).step
  · exact (Rejects.seq (.word (hne '"' (by decide)) _)).step
  · exact (Rejects.seq (.word (hne '"' (by decide)) _)).step
  · exact (Rejects.seq (.word (hne '"' (by decide)) _)).step

/-- Behind a symbol no rule matches a space. -/
theorem stuck_of_symbol (p : Punct) : ∀ a ∈ spacious, (a.steps p.spelling.toList).step ' ' = nothing := by
  have hall : (spacious.all fun a => ((a.steps p.spelling.toList).step ' ').isNothing) = true := by
    cases p <;> decide +kernel
  exact fun a ha => eq_nothing_of_isNothing (List.all_eq_true.mp hall a ha)

/-- Behind a closed string no rule matches a space. -/
theorem stuck_of_string {cs : List Char}
    (h : (plainBody.steps cs).nullable = true ∨ (escapedBody.steps cs).nullable = true) :
    ∀ a ∈ spacious, (a.steps ('"' :: cs)).step ' ' = nothing := by
  obtain ⟨hplain, hescaped, hopen⟩ := (InString.plain.steps cs).stuck h
  intro a ha
  simp only [spacious, List.mem_cons, List.not_mem_nil, or_false] at ha
  rcases ha with rfl | rfl | rfl | rfl | rfl | rfl | rfl
  · exact congrArg (Pattern.step ' ') (steps_nothing cs)
  · exact congrArg (Pattern.step ' ') (steps_nothing cs)
  · exact congrArg (Pattern.step ' ') (steps_nothing cs)
  · exact congrArg (Pattern.step ' ') (steps_nothing cs)
  · exact hplain
  · exact hescaped
  · exact hopen

/-- Behind the text of a significant token no rule matches a space. -/
theorem stuck_of_significant {r : Pattern × Lexeme} (hr : r ∈ rules) (hsig : r.2.isSignificant = true) {c : Char}
    {cs : List Char} (hnull : (r.1.steps (c :: cs)).nullable = true) :
    ∀ r' ∈ rules, (r'.1.steps (c :: cs)).step ' ' = nothing := by
  suffices hspacious : ∀ a ∈ spacious, (a.steps (c :: cs)).step ' ' = nothing by
    intro r' hr'
    obtain hfree | hin := avoids_or_spacious r' hr'
    · exact stuck_of_avoids hfree _
    · exact hspacious r'.1 hin
  have hstep := step_ne_nothing hnull
  rw [rules, List.mem_append] at hr
  obtain hr | hr := hr
  · -- A rule that matches no text with spaces rejects the characters with which such texts begin.
    have hplain : (spaciousStarts.all fun d => (r.1.step d).isNothing) = true →
        ∀ a ∈ spacious, (a.steps (c :: cs)).step ' ' = nothing := by
      intro hall a ha
      have hc : c ∉ spaciousStarts := fun hc => hstep (eq_nothing_of_isNothing (List.all_eq_true.mp hall c hc))
      have hnothing : a.steps (c :: cs) = nothing := by
        rw [steps, spacious_rejects hc a ha]
        exact steps_nothing cs
      rw [hnothing]
      rfl
    have hquote : ∀ rest : Pattern, (seq (text "\"") rest).step c ≠ nothing → c = '"' := by
      intro rest hne
      by_contra hc
      have hrejects : Rejects c (text "\"") := .word (beq_eq_false_iff_ne.mpr hc) []
      exact hne hrejects.seq.step
    simp only [variableRules, List.mem_cons, List.not_mem_nil, or_false] at hr
    rcases hr with rfl | rfl | rfl | rfl | rfl | rfl | rfl | rfl | rfl | rfl | rfl | rfl | rfl | rfl
    · cases hsig
    · cases hsig
    · cases hsig
    · cases hsig
    · exact hplain (by decide +kernel)
    · exact hplain (by decide +kernel)
    · exact hplain (by decide +kernel)
    · exact hplain (by decide +kernel)
    · exact hplain (by decide +kernel)
    · exact hplain (by decide +kernel)
    · exact hplain (by decide +kernel)
    · obtain rfl := hquote _ hstep
      exact stuck_of_string (.inl hnull)
    · obtain rfl := hquote _ hstep
      exact stuck_of_string (.inr hnull)
    · cases hsig
  · obtain ⟨p, -, rfl⟩ := List.mem_map.mp hr
    rw [eq_of_nullable_word hnull]
    exact stuck_of_symbol p

/-- No significant lexeme begins with a blank. -/
theorem not_blank_of_significant {r : Pattern × Lexeme} (hr : r ∈ rules) (hsig : r.2.isSignificant = true) {c : Char}
    {cs : List Char} (hnull : (r.1.steps (c :: cs)).nullable = true) : isBlank c = false := by
  have hall : (rules.all fun r => !r.2.isSignificant ||
      " \t\r\n\x0c".toList.all fun d => (r.1.step d).isNothing) = true := by decide +kernel
  have hrule := List.all_eq_true.mp hall r hr
  rw [hsig, Bool.not_true, Bool.false_or] at hrule
  rw [← Bool.not_eq_true, isBlank, List.contains_iff_mem]
  exact fun hc => step_ne_nothing hnull (eq_nothing_of_isNothing (List.all_eq_true.mp hrule c hc))

end Lexeme

/-! ## Words that stand alone -/

/-- A text that is one token of a kind wherever nothing or a space follows it. -/
structure Standing (k : Kind) (text : List Char) : Prop where
  nonempty : text ≠ []
  unblank : ∀ d ∈ text.head?, Lexeme.isBlank d = false
  scan : ∀ (offset : Nat) {tail : List Char}, (tail = [] ∨ ∃ cs, tail = ' ' :: cs) →
    Item.scan offset (text ++ tail) =
      .token ⟨k, String.ofList text, ⟨offset, offset + Text.byteSize text⟩⟩ ::
        Item.scan (offset + Text.byteSize text) tail

theorem badEscape?_eq_none {offset : Nat} {cs : List Char} (h : badEscape? offset cs = none) (offset' : Nat) :
    badEscape? offset' cs = none := by
  fun_induction badEscape? offset cs generalizing offset' with
  | case1 offset c cs hescape ih =>
    rw [badEscape?, if_pos hescape]
    exact ih h _
  | case2 offset c cs hescape => cases h
  | case3 offset c cs hne ih =>
    rw [badEscape?]
    · exact ih h _
    · exact hne
  | case4 => rfl

/-- A lexeme that is a significant token is one at any place. -/
theorem Item.ofLexeme_significant {lexeme : Lexeme} {offset : Nat} {cs : List Char}
    (h : (ofLexeme lexeme offset cs).toToken.isSignificant = true) :
    lexeme.isSignificant = true ∧ ∃ k, ∀ offset', ofLexeme lexeme offset' cs =
      .token ⟨k, String.ofList cs, ⟨offset', offset' + Text.byteSize cs⟩⟩ := by
  cases lexeme with
  | whitespace => cases h
  | comment => cases h
  | unterminatedComment => cases h
  | unterminatedString => cases h
  | escapedString =>
    refine ⟨rfl, .string, fun offset' => ?_⟩
    cases hbad : badEscape? offset cs with
    | none =>
      unfold ofLexeme
      rw [badEscape?_eq_none hbad offset']
    | some e =>
      unfold ofLexeme at h
      rw [hbad] at h
      cases h
  | _ => exact ⟨rfl, _, fun _ => rfl⟩

/-- The text of a significant token of a source stands alone. -/
theorem Standing.of_scan {offset : Nat} {cs : List Char} {i : Item} (hi : i ∈ Item.scan offset cs)
    (hsig : i.toToken.isSignificant = true) : Standing i.toToken.kind i.toToken.text.toList := by
  induction offset, cs using Item.scan_induction with
  | nil => cases hi
  | lexeme offset c cs lexeme n hlong htaken ih =>
    rw [Item.scan_of_lexeme offset hlong] at hi
    obtain rfl | hi := List.mem_cons.mp hi
    · obtain ⟨hlexeme, k, hitem⟩ := Item.ofLexeme_significant hsig
      obtain ⟨r, hr, rfl, hmatch⟩ := Lexeme.rule_of_longest? hlong
      obtain ⟨hlength, hnull⟩ := Pattern.longest?_matched hmatch
      obtain ⟨d, ds, htext⟩ := List.exists_cons_of_ne_nil htaken
      rw [hitem offset, Item.toToken_token, String.toList_ofList]
      rw [htext] at hnull hitem ⊢
      have hsize : (d :: ds).length = n := by rw [← htext, List.length_take, Nat.min_eq_left hlength]
      refine ⟨List.cons_ne_nil d ds, fun d' hd' => ?_, fun offset' tail htail => ?_⟩
      · cases hd'
        exact Lexeme.not_blank_of_significant hr hlexeme hnull
      · have hhere : Lexeme.longest? ((d :: ds) ++ (c :: cs).drop n) = some (r.2, n) := by
          rw [← htext, List.take_append_drop]
          exact hlong
        have hcut : Lexeme.longest? ((d :: ds) ++ tail) = some (r.2, n) := by
          refine Lexeme.longest?_cut hhere (Nat.le_of_eq hsize.symm) fun r' hr' e he => ?_
          obtain rfl | ⟨_, rfl⟩ := htail
          · cases he
          · cases he
            exact Lexeme.stuck_of_significant hr hlexeme hnull r' hr'
        have htake : ((d :: ds) ++ tail).take n = d :: ds := List.take_left' hsize
        have hdrop : ((d :: ds) ++ tail).drop n = tail := List.drop_left' hsize
        rw [List.cons_append] at hcut htake hdrop ⊢
        rw [Item.scan_of_lexeme offset' hcut, htake, hdrop, hitem offset']
    · exact ih hi
  | character offset c cs hlong ih =>
    rw [Item.scan_of_character offset hlong] at hi
    obtain rfl | hi := List.mem_cons.mp hi
    · cases hsig
    · exact ih hi

/-! ## Sources with single spaces -/

/-- Texts with one space after each but the last. -/
def joined (texts : List (List Char)) : List Char := [' '].intercalate texts

theorem joined_cons (text text' : List Char) (texts : List (List Char)) :
    joined (text :: text' :: texts) = text ++ ' ' :: joined (text' :: texts) := by
  rw [joined, List.intercalate_cons_cons, List.append_assoc]
  rfl

theorem head?_joined {text : List Char} (h : text ≠ []) (texts : List (List Char)) :
    (joined (text :: texts)).head? = text.head? := by
  cases texts with
  | nil => rw [joined, List.intercalate_singleton]
  | cons text' texts =>
    obtain ⟨c, cs, rfl⟩ := List.exists_cons_of_ne_nil h
    rw [joined_cons]
    rfl

/-- Words that stand alone are the significant tokens of the text that joins them, and it has no lexical errors. -/
theorem words_joined (offset : Nat) {ws : List (Kind × List Char)}
    (h : ∀ w ∈ ws, Standing w.1 w.2 ∧ ∀ s span, Token.isSignificant ⟨w.1, s, span⟩ = true) :
    (((Item.scan offset (joined (ws.map Prod.snd))).map Item.toToken).filter Token.isSignificant).map
        (fun t => (t.kind, t.text)) = ws.map (fun w => (w.1, String.ofList w.2)) ∧
      (Item.scan offset (joined (ws.map Prod.snd))).filterMap Item.error? = [] := by
  induction ws generalizing offset with
  | nil => exact ⟨rfl, rfl⟩
  | cons w ws ih =>
    obtain ⟨⟨hw, hsig⟩, hws⟩ := List.forall_mem_cons.mp h
    cases ws with
    | nil =>
      have hscan := hw.scan offset (.inl rfl)
      rw [List.append_nil] at hscan
      rw [List.map_singleton, joined, List.intercalate_singleton, hscan]
      refine ⟨?_, rfl⟩
      rw [List.map_cons, Item.toToken_token, List.filter_cons_of_pos (hsig _ _)]
      rfl
    | cons w' ws =>
      have hnext := (hws w' List.mem_cons_self).1
      have hblank : ∀ d ∈ (joined (w'.2 :: ws.map Prod.snd)).head?, Lexeme.isBlank d = false := by
        rw [head?_joined hnext.nonempty]
        exact hnext.unblank
      have hscan := hw.scan offset (.inr ⟨joined (w'.2 :: ws.map Prod.snd), rfl⟩)
      rw [scan_space _ hblank] at hscan
      obtain ⟨hwords, herrors⟩ := ih (offset + Text.byteSize w.2 + 1) hws
      rw [List.map_cons, List.map_cons, joined_cons, hscan]
      refine ⟨?_, herrors⟩
      rw [List.map_cons, List.map_cons, Item.toToken_token, Item.toToken_token,
        List.filter_cons_of_pos (hsig _ _), List.filter_cons_of_neg (by simp [Token.isSignificant, Kind.isTrivia]),
        List.map_cons, List.map_cons]
      exact congrArg _ hwords

/-- The significant tokens of a source with single spaces between them. -/
def Token.respaced (source : String) : String := " ".intercalate ((significant source).map Token.text)

/-- A source written with single spaces has the same words, and no lexical errors. -/
theorem words_respaced (source : String) :
    Token.words (Token.respaced source) = Token.words source ∧ LexicalError.ofText (Token.respaced source) = [] := by
  have hstanding : ∀ t ∈ Token.significant source,
      Standing t.kind t.text.toList ∧ ∀ s span, Token.isSignificant ⟨t.kind, s, span⟩ = true := by
    intro t ht
    obtain ⟨hin, hsig⟩ := List.mem_filter.mp ht
    obtain ⟨i, hi, rfl⟩ := List.mem_map.mp hin
    exact ⟨Standing.of_scan hi hsig, fun _ _ => hsig⟩
  have htext : (Token.respaced source).toList =
      joined (((Token.significant source).map fun t => (t.kind, t.text.toList)).map Prod.snd) := by
    rw [Token.respaced, String.toList_intercalate, List.map_map, List.map_map]
    rfl
  have hwords : ∀ w ∈ (Token.significant source).map fun t => (t.kind, t.text.toList),
      Standing w.1 w.2 ∧ ∀ s span, Token.isSignificant ⟨w.1, s, span⟩ = true := by
    intro w hw
    obtain ⟨t, ht, rfl⟩ := List.mem_map.mp hw
    exact hstanding t ht
  obtain ⟨hwords, herrors⟩ := words_joined 0 hwords
  rw [Token.words, Token.significant, Token.ofText, LexicalError.ofText, htext]
  refine ⟨hwords.trans ?_, herrors⟩
  rw [List.map_map, Token.words]
  refine List.map_congr_left fun t _ => ?_
  show (t.kind, String.ofList t.text.toList) = (t.kind, t.text)
  rw [String.ofList_toList]

/-! ## The layout of a source -/

/-- Two sources with the same words have source units of the same shape and the same problems in the same order, and
a source has the same words as the one that is written with single spaces. -/
theorem parse_layout :
    (∀ source source' : String, Token.words source = Token.words source' →
      (parse source .collectAll).root.shape = (parse source' .collectAll).root.shape ∧
        (parse source .collectAll).problems = (parse source' .collectAll).problems) ∧
      ∀ source : String, Token.words (Token.respaced source) = Token.words source := by
  refine ⟨fun source source' hwords => ⟨?_, ?_⟩, fun source => (words_respaced source).1⟩
  · rw [shape_words, shape_words, hwords]
  · rw [problems_words, problems_words, hwords]

end Bluespec
