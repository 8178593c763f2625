import Bluespec.Proofs.Relexing
import Bluespec.Proofs.Respacing

/-!
# Texts on lines of their own

Texts without lexical errors that stand on lines of their own are read as each of them is read alone.

* **`InComment`** — what is left of the patterns of block comments inside a comment and behind it.
* **`Lexeme.stuck_of_line`** — at the end of a line that is not blank, and that no comment leaves, no rule matches on.
* **`Item.kept_line`** — the items of a line and of what stands below it, blanks and comments left out.
* **`Token.significant_lines`** — the tokens of texts on lines of their own.
* **`TokenLine`** — a text of tokens of given kinds.
-/

namespace Bluespec

/-! ## Block comments -/

section Comments

open Pattern Lexeme

/-- The pattern of block comments. -/
def blockComment : Pattern := sequence [text "/*", commentBody, plus (oneOf "*"), text "/"]

/-- The pattern of block comments that are not closed. -/
def openComment : Pattern := sequence [text "/*", commentBody, star (oneOf "*")]

/-- The pattern of block comments behind the opening mark. -/
def closingBody : Pattern := sequence [commentBody, plus (oneOf "*"), text "/"]

/-- The pattern of block comments that are not closed, behind the opening mark. -/
def openingBody : Pattern := sequence [commentBody, star (oneOf "*")]

/-- What is left of a comment behind a star, if the comment goes on and `rest` is left behind its body. -/
def behindStar (rest : Pattern) : Pattern :=
  seq (seq (seq (star (oneOf "*")) (noneOf "*/")) commentBody) rest

/-- What is left of the patterns of closed and of open block comments behind an opening mark and some text. -/
inductive InComment : Pattern → Pattern → Prop
  | body : InComment closingBody openingBody
  | star : InComment ((behindStar (seq (plus (oneOf "*")) (text "/"))).alt (seq (star (oneOf "*")) (text "/")))
      ((behindStar (star (oneOf "*"))).alt (star (oneOf "*")))
  | closed : InComment blank nothing
  | dead : InComment nothing nothing

/-- The pattern of block comments behind a star in them. -/
def closingBehindStar : Pattern :=
  (behindStar (seq (plus (oneOf "*")) (text "/"))).alt (seq (star (oneOf "*")) (text "/"))

/-- The pattern of block comments that are not closed, behind a star in them. -/
def openingBehindStar : Pattern := (behindStar (star (oneOf "*"))).alt (star (oneOf "*"))

section Steps

variable {c : Char} (hstar : c ≠ '*')

include hstar

theorem step_star : (oneOf "*").step c = nothing := by simp [oneOf, Pattern.step, hstar]

theorem step_stars : (star (oneOf "*")).step c = nothing := by
  rw [Pattern.step, step_star hstar]
  rfl

theorem step_plusStars (rest : Pattern) : (seq (plus (oneOf "*")) rest).step c = nothing := by
  show (((oneOf "*").step c).andThen _).andThen rest = nothing
  rw [step_star hstar]
  rfl

/-- Inside a block comment, a character other than a star changes nothing. -/
theorem step_body : closingBody.step c = closingBody ∧ openingBody.step c = openingBody := by
  have hnone : (noneOf "*").step c = blank := by simp [noneOf, Pattern.step, hstar]
  have hbody : commentBody.step c = commentBody := by
    show (((noneOf "*").step c).orElse ((seq (plus (oneOf "*")) (noneOf "*/")).step c)).andThen commentBody = _
    rw [hnone, step_plusStars hstar]
    rfl
  constructor
  · show ((commentBody.step c).andThen (seq (plus (oneOf "*")) (text "/"))).orElse
      ((seq (plus (oneOf "*")) (text "/")).step c) = _
    rw [hbody, step_plusStars hstar]
    rfl
  · show ((commentBody.step c).andThen (star (oneOf "*"))).orElse ((star (oneOf "*")).step c) = _
    rw [hbody, step_stars hstar]
    rfl

/-- Behind a star, a character that neither is one nor closes the comment leads back into it. -/
theorem step_behindStar (hslash : c ≠ '/') :
    closingBehindStar.step c = closingBody ∧ openingBehindStar.step c = openingBody := by
  have hnone : (noneOf "*/").step c = blank := by simp [noneOf, Pattern.step, hstar, hslash]
  have hclose : (seq (star (oneOf "*")) (text "/")).step c = nothing := by
    show (((star (oneOf "*")).step c).andThen (text "/")).orElse ((text "/").step c) = nothing
    rw [step_stars hstar]
    simp [text, step_word, hslash, andThen, orElse]
  have hbehind : ∀ rest, (behindStar rest).step c = commentBody.andThen rest := by
    intro rest
    show (((((star (oneOf "*")).step c).andThen (noneOf "*/")).orElse ((noneOf "*/").step c)).andThen
      commentBody).andThen rest = _
    rw [step_stars hstar, hnone]
    rfl
  constructor
  · show ((behindStar _).step c).orElse ((seq (star (oneOf "*")) (text "/")).step c) = _
    rw [hbehind, hclose]
    rfl
  · show ((behindStar _).step c).orElse ((star (oneOf "*")).step c) = _
    rw [hbehind, step_stars hstar]
    rfl

end Steps

/-- One more character of a block comment.  A slash behind a star closes it. -/
theorem InComment.step {a b : Pattern} (h : InComment a b) (c : Char) : InComment (a.step c) (b.step c) := by
  by_cases hstar : c = '*'
  · subst hstar
    cases h <;> constructor
  by_cases hslash : c = '/'
  · subst hslash
    cases h <;> constructor
  cases h with
  | body =>
    obtain ⟨hclosing, hopening⟩ := step_body hstar
    rw [hclosing, hopening]
    exact .body
  | star =>
    obtain ⟨hclosing, hopening⟩ := step_behindStar hstar hslash
    show InComment (closingBehindStar.step c) (openingBehindStar.step c)
    rw [hclosing, hopening]
    exact .body
  | closed => exact .dead
  | dead => exact .dead

theorem InComment.steps {a b : Pattern} (h : InComment a b) (cs : List Char) : InComment (a.steps cs) (b.steps cs) := by
  induction cs generalizing a b with
  | nil => exact h
  | cons c cs ih => exact ih (h.step c)

/-- A comment is open, or neither pattern matches on. -/
theorem InComment.open_or_stuck {a b : Pattern} (h : InComment a b) (d : Char) :
    (a.nullable = false ∧ b.nullable = true) ∨ (a.step d = nothing ∧ b.step d = nothing) := by
  cases h with
  | body => exact .inl ⟨rfl, rfl⟩
  | star => exact .inl ⟨rfl, rfl⟩
  | closed => exact .inr ⟨rfl, rfl⟩
  | dead => exact .inr ⟨rfl, rfl⟩

end Comments

/-! ## Ends of lines -/

namespace Lexeme

open Pattern

theorem avoids_line : ∀ r ∈ rules, r.1.avoids '\n' = true ∨
    r.1 = plus (oneOf " \t\r\n\x0c") ∨ r.1 = blockComment ∨ r.1 = openComment := by
  refine forall_rules (fun r hr => ?_) fun p => .inl (by cases p <;> rfl)
  simp only [variableRules, List.mem_cons, List.not_mem_nil, or_false] at hr
  rcases hr with rfl | rfl | rfl | rfl | rfl | rfl | rfl | rfl | rfl | rfl | rfl | rfl | rfl | rfl
  all_goals first
    | exact .inl (by decide)
    | exact .inr (.inl rfl)
    | exact .inr (.inr (.inl rfl))
    | exact .inr (.inr (.inr rfl))

/-- The rules for texts that vary and that may begin with a mark. -/
def opened (mark : List Char) : List (Pattern × Lexeme) := variableRules.filter fun r => !(r.1.steps mark).isNothing

theorem mem_rules_of_opened {mark : List Char} {r : Pattern × Lexeme} (h : r ∈ opened mark) : r ∈ rules :=
  List.mem_append_left _ (List.mem_of_mem_filter h)

/-- Behind a mark with which no symbol begins nothing is left of any other rule. -/
theorem mem_opened {mark : List Char} (hsymbols : ∀ p : Punct, (text p.spelling).steps mark = nothing)
    {r : Pattern × Lexeme} (hr : r ∈ rules) : r ∈ opened mark ∨ r.1.steps mark = nothing := by
  obtain hr | hr := List.mem_append.mp hr
  · by_cases hnothing : (r.1.steps mark).isNothing = true
    · exact .inr (eq_nothing_of_isNothing hnothing)
    · exact .inl (List.mem_filter.mpr ⟨hr, by simpa using hnothing⟩)
  · obtain ⟨p, -, rfl⟩ := List.mem_map.mp hr
    exact .inr (hsymbols p)

/-- Only block comments begin with the mark that opens one. -/
theorem opened_blockMark : opened ['/', '*'] = [(blockComment, .comment), (openComment, .unterminatedComment)] := rfl

theorem steps_blockMark (p : Punct) : (text p.spelling).steps ['/', '*'] = nothing := by cases p <;> rfl

/-- A run of blanks ends at the first character that is none. -/
theorem steps_blanks {cs : List Char} (h : ∃ d ∈ cs, isBlank d = false) :
    (star (char isBlank)).steps cs = nothing := by
  induction cs with
  | nil =>
    obtain ⟨d, hd, -⟩ := h
    cases hd
  | cons c cs ih =>
    cases hc : isBlank c with
    | true =>
      have hstep : (star (char isBlank)).step c = star (char isBlank) := by rw [step, step, hc]; rfl
      obtain ⟨d, hd, hblank⟩ := h
      obtain rfl | hd := List.mem_cons.mp hd
      · exact absurd (hc.symm.trans hblank) Bool.noConfusion
      · rw [steps, hstep]
        exact ih ⟨d, hd, hblank⟩
    | false =>
      have hstep : (star (char isBlank)).step c = nothing := by rw [step, step, hc]; rfl
      rw [steps, hstep]
      exact steps_nothing cs

/-- A text that begins with the mark of a comment, and whose first lexeme is no open comment: its comment is closed. -/
theorem stuck_of_comment {ds : List Char} {lexeme : Lexeme} {n : Nat}
    (h : longest? ('/' :: '*' :: ds) = some (lexeme, n)) (hclosed : lexeme ≠ .unterminatedComment) :
    (closingBody.steps ds).step '\n' = nothing ∧ (openingBody.steps ds).step '\n' = nothing := by
  refine ((InComment.body.steps ds).open_or_stuck '\n').resolve_left ?_
  rintro ⟨hblock, hopen⟩
  -- An open comment is the whole text, so the first lexeme is the whole text too.
  obtain ⟨m, hm, hle⟩ := Pattern.exists_longest?_of_matches ((matches_iff openComment ('/' :: '*' :: ds)).mpr hopen)
  rw [List.append_nil] at hm
  have hrule : (openComment, Lexeme.unterminatedComment) ∈ rules :=
    mem_rules_of_opened (by rw [opened_blockMark]; exact .tail _ (.head _))
  have hn := Nat.le_trans hle (le_of_longest? h _ hrule m hm)
  obtain ⟨r, hr, rfl, hmatched⟩ := rule_of_longest? h
  have hnull := (Pattern.longest?_matched hmatched).2
  rw [List.take_of_length_le hn] at hnull
  obtain hmem | hmark := mem_opened steps_blockMark hr
  · rw [opened_blockMark] at hmem
    obtain rfl | rfl : r = _ ∨ r = _ := by simpa using hmem
    · exact Bool.false_ne_true (hblock.symm.trans hnull)
    · exact hclosed rfl
  · rw [steps, steps, show (r.1.step '/').step '*' = nothing from hmark, steps_nothing] at hnull
    cases hnull

/-- A text that is not all blank, and whose first lexeme is no open comment: at its end no rule matches a line end. -/
theorem stuck_of_line {c : Char} {cs : List Char} {lexeme : Lexeme} {n : Nat}
    (h : longest? (c :: cs) = some (lexeme, n)) (hclosed : lexeme ≠ .unterminatedComment)
    (hblank : ∃ d ∈ c :: cs, isBlank d = false) :
    ∀ r ∈ rules, (r.1.steps (c :: cs)).step '\n' = nothing := by
  have hcomments : (blockComment.steps (c :: cs)).step '\n' = nothing ∧
      (openComment.steps (c :: cs)).step '\n' = nothing := by
    by_cases hslash : c = '/'
    · subst hslash
      cases cs with
      | nil => exact ⟨rfl, rfl⟩
      | cons d ds =>
        by_cases hstar : d = '*'
        · subst hstar
          exact stuck_of_comment h hclosed
        · have hrejects : Rejects d (text "*") := .word (beq_eq_false_iff_ne.mpr hstar) []
          have hmark : ∀ body, ((seq (text "*") body).step d).steps ds = nothing := by
            intro body
            rw [hrejects.seq.step]
            exact steps_nothing ds
          exact ⟨congrArg (step '\n') (hmark _), congrArg (step '\n') (hmark _)⟩
    · have hrejects : Rejects c (text "/*") := .word (beq_eq_false_iff_ne.mpr hslash) _
      have hmark : ∀ body, (seq (text "/*") body).steps (c :: cs) = nothing := by
        intro body
        rw [steps, hrejects.seq.step]
        exact steps_nothing cs
      exact ⟨congrArg (step '\n') (hmark _), congrArg (step '\n') (hmark _)⟩
  intro r hr
  rcases avoids_line r hr with havoids | hrule | hrule | hrule
  · exact stuck_of_avoids havoids _
  · have hrun : (plus (oneOf " \t\r\n\x0c")).steps (c :: cs) = nothing := steps_blanks hblank
    rw [hrule, hrun]
    rfl
  · rw [hrule]
    exact hcomments.1
  · rw [hrule]
    exact hcomments.2

end Lexeme

/-! ## Items of lines -/

namespace Item

open Lexeme

/-- The items that are neither blanks nor comments. -/
def kept (is : List Item) : List Item := is.filter fun i => !i.isTrivia

theorem kept_append (is js : List Item) : kept (is ++ js) = kept is ++ kept js := List.filter_append is js

theorem errors_kept (is : List Item) : (kept is).filterMap error? = is.filterMap error? := by
  rw [kept, List.filterMap_filter]
  congr 1
  funext i
  cases i with
  | token t => exact ite_self none
  | error e text => rfl

theorem significant_kept (is : List Item) :
    ((kept is).map toToken).filter Token.isSignificant = (is.map toToken).filter Token.isSignificant := by
  rw [kept, List.filter_map, List.filter_map, List.filter_filter]
  congr 1
  refine List.filter_congr fun i _ => ?_
  cases i with
  | token t =>
    show ((!t.kind.isTrivia && t.kind != .error) && !t.kind.isTrivia) = (!t.kind.isTrivia && t.kind != .error)
    cases t.kind.isTrivia <;> simp
  | error e text => rfl

/-- Blanks before anything but another blank are one item. -/
theorem kept_run (offset : Nat) {cs tail : List Char} (hcs : ∀ d ∈ cs, isBlank d = true)
    (htail : ∀ d ∈ tail.head?, isBlank d = false) :
    kept (scan offset (cs ++ tail)) = kept (scan (offset + Text.byteSize cs) tail) := by
  cases cs with
  | nil => rfl
  | cons c cs =>
    have hlong := longest?_blanks (List.cons_ne_nil c cs) hcs htail
    rw [List.cons_append] at hlong ⊢
    rw [scan_of_lexeme offset hlong, ← List.cons_append, List.take_left, List.drop_left]
    rfl

/-- Blanks leave no items. -/
theorem kept_blanks (offset : Nat) {cs : List Char} (hcs : ∀ d ∈ cs, isBlank d = true) (rest : List Char) :
    kept (scan offset (cs ++ rest)) = kept (scan (offset + Text.byteSize cs) rest) := by
  obtain ⟨run, tail, hrest, hrun, htail⟩ : ∃ run tail, rest = run ++ tail ∧ (∀ d ∈ run, isBlank d = true) ∧
      ∀ d ∈ tail.head?, isBlank d = false := by
    refine ⟨rest.takeWhile isBlank, rest.dropWhile isBlank, List.takeWhile_append_dropWhile.symm,
      List.all_eq_true.mp List.all_takeWhile, fun d hd => ?_⟩
    have hfirst := List.head?_dropWhile_not isBlank rest
    rw [Option.mem_def.mp hd] at hfirst
    exact hfirst
  rw [hrest, ← List.append_assoc, kept_run offset (List.forall_mem_append.mpr ⟨hcs, hrun⟩) htail,
    kept_run _ hrun htail, Text.byteSize_append, Nat.add_assoc]

/-- The items of a line without lexical errors, and of what stands below it. -/
theorem kept_line {offset : Nat} {cs : List Char} (h : (scan offset cs).filterMap error? = []) (rest : List Char) :
    kept (scan offset (cs ++ '\n' :: rest)) =
      kept (scan offset cs) ++ kept (scan (offset + Text.byteSize cs + 1) rest) := by
  induction offset, cs using scan_induction with
  | nil offset =>
    have hline : ∀ d ∈ ['\n'], isBlank d = true := List.forall_mem_singleton.mpr rfl
    exact kept_blanks offset hline rest
  | lexeme offset c cs lexeme n hlong htaken ih =>
    by_cases hblank : ∃ d ∈ c :: cs, isBlank d = false
    · have herrors := List.filterMap_eq_nil_iff.mp h
      rw [scan_of_lexeme offset hlong] at herrors
      obtain ⟨hfirst, hlater⟩ := List.forall_mem_cons.mp herrors
      have hclosed : lexeme ≠ .unterminatedComment := by
        rintro rfl
        cases hfirst
      have hn : n ≤ (c :: cs).length := by
        obtain ⟨r, -, -, hmatched⟩ := rule_of_longest? hlong
        exact (Pattern.longest?_matched hmatched).1
      have hcut : longest? (c :: cs ++ '\n' :: rest) = some (lexeme, n) := by
        have hwhole : longest? (c :: cs ++ []) = some (lexeme, n) := by rw [List.append_nil]; exact hlong
        refine longest?_cut hwhole hn fun r hr d hd => ?_
        cases hd
        exact stuck_of_line hlong hclosed hblank r hr
      have hscan : scan offset (c :: cs ++ '\n' :: rest) = ofLexeme lexeme offset ((c :: cs).take n) ::
          scan (offset + Text.byteSize ((c :: cs).take n)) ((c :: cs).drop n ++ '\n' :: rest) := by
        rw [← List.take_append_of_le_length hn, ← List.drop_append_of_le_length hn]
        exact scan_of_lexeme offset hcut
      have hsize : Text.byteSize (c :: cs) =
          Text.byteSize ((c :: cs).take n) + Text.byteSize ((c :: cs).drop n) := by
        rw [← Text.byteSize_append, List.take_append_drop]
      rw [hscan, scan_of_lexeme offset hlong, ← List.singleton_append, kept_append,
        ih (List.filterMap_eq_nil_iff.mpr hlater), ← List.append_assoc, ← kept_append, hsize, Nat.add_assoc offset]
      rfl
    · have hall : ∀ d ∈ c :: cs, isBlank d = true := by
        intro d hd
        rw [← Bool.not_eq_false]
        exact fun hno => hblank ⟨d, hd, hno⟩
      have hline : ∀ d ∈ c :: cs ++ ['\n'], isBlank d = true :=
        List.forall_mem_append.mpr ⟨hall, List.forall_mem_singleton.mpr rfl⟩
      have hnone := kept_blanks offset hall []
      rw [List.append_nil] at hnone
      rw [hnone, List.append_cons, kept_blanks offset hline rest, Text.byteSize_append, ← Nat.add_assoc]
      rfl
  | character offset c cs hlong ih =>
    rw [scan_of_character offset hlong] at h
    cases h

/-- The significant tokens of a text that stands at an offset are those of the text alone, in their places. -/
theorem significant_at (offset : Nat) (text : String) :
    ((scan offset text.toList).map toToken).filter Token.isSignificant =
      (Token.significant text).map (Token.move (· + offset)) := by
  have hscan := scan_move offset 0 text.toList
  have hmove : toToken ∘ Item.move (· + offset) = Token.move (· + offset) ∘ toToken :=
    funext fun i => toToken_move _ i
  rw [Nat.zero_add] at hscan
  rw [hscan, List.map_map, hmove, ← List.map_map, List.filter_map]
  rfl

/-- The lexical errors of a text that stands at an offset are those of the text alone, in their places. -/
theorem errors_at (offset : Nat) (text : String) :
    (scan offset text.toList).filterMap error? =
      (LexicalError.ofText text).map (LexicalError.move (· + offset)) := by
  have hscan := scan_move offset 0 text.toList
  rw [Nat.zero_add] at hscan
  rw [hscan, List.filterMap_map, LexicalError.ofText, List.map_filterMap]
  exact congrArg (List.filterMap · _) (funext fun i => error?_move _ i)

end Item

/-! ## Texts on lines of their own -/

/-- The number of bytes of texts on lines of their own, the last one's line end included. -/
def linesSize : List String → Nat
  | [] => 0
  | text :: texts => Text.byteSize text.toList + 1 + linesSize texts

theorem linesSize_append (texts texts' : List String) : linesSize (texts ++ texts') = linesSize texts + linesSize texts' := by
  induction texts with
  | nil => exact (Nat.zero_add _).symm
  | cons text texts ih => rw [List.cons_append, linesSize, linesSize, ih, ← Nat.add_assoc]

namespace Token

/-- The significant tokens of texts on lines of their own, the first of them at `offset`. -/
def onLines (offset : Nat) : List String → List Token
  | [] => []
  | text :: texts =>
    (significant text).map (Token.move (· + offset)) ++ onLines (offset + Text.byteSize text.toList + 1) texts

theorem onLines_singleton (offset : Nat) (text : String) :
    onLines offset [text] = (significant text).map (Token.move (· + offset)) := List.append_nil _

theorem onLines_append (offset : Nat) (texts texts' : List String) :
    onLines offset (texts ++ texts') = onLines offset texts ++ onLines (offset + linesSize texts) texts' := by
  induction texts generalizing offset with
  | nil => rfl
  | cons text texts ih =>
    rw [List.cons_append, onLines, onLines, ih, List.append_assoc, linesSize, ← Nat.add_assoc, ← Nat.add_assoc]

/-- The kinds of tokens do not depend on their places. -/
theorem kinds_onLines (offset offset' : Nat) (texts : List String) :
    (onLines offset texts).map Token.kind = (onLines offset' texts).map Token.kind := by
  induction texts generalizing offset offset' with
  | nil => rfl
  | cons text texts ih =>
    rw [onLines, onLines, List.map_append, List.map_append, List.map_map, List.map_map,
      ih _ (offset' + Text.byteSize text.toList + 1)]
    rfl

theorem scan_lines (offset : Nat) {texts : List String} (h : ∀ text ∈ texts, LexicalError.ofText text = []) :
    ((Item.scan offset (['\n'].intercalate (texts.map String.toList))).map Item.toToken).filter isSignificant =
        onLines offset texts ∧
      (Item.scan offset (['\n'].intercalate (texts.map String.toList))).filterMap Item.error? = [] := by
  induction texts generalizing offset with
  | nil => exact ⟨rfl, rfl⟩
  | cons text texts ih =>
    obtain ⟨htext, htexts⟩ := List.forall_mem_cons.mp h
    have herrors : (Item.scan offset text.toList).filterMap Item.error? = [] := by
      rw [Item.errors_at, htext]
      rfl
    cases texts with
    | nil =>
      rw [List.map_singleton, List.intercalate_singleton, Item.significant_at]
      exact ⟨(List.append_nil _).symm, herrors⟩
    | cons text' texts =>
      obtain ⟨hbelow, hbelow'⟩ := ih (offset + Text.byteSize text.toList + 1) htexts
      rw [List.map_cons, List.map_cons, List.intercalate_cons_cons, List.append_assoc, ← List.map_cons,
        List.singleton_append, ← Item.significant_kept, ← Item.errors_kept, Item.kept_line herrors,
        List.map_append, List.filter_append, List.filterMap_append, Item.significant_kept, Item.significant_kept,
        Item.errors_kept, Item.errors_kept, Item.significant_at, hbelow, herrors, hbelow']
      exact ⟨rfl, rfl⟩

/-- Texts without lexical errors, on lines of their own, have none together, and the tokens of each of them. -/
theorem significant_lines {texts : List String} (h : ∀ text ∈ texts, LexicalError.ofText text = []) :
    significant ("\n".intercalate texts) = onLines 0 texts ∧ LexicalError.ofText ("\n".intercalate texts) = [] := by
  rw [significant, ofText, LexicalError.ofText, String.toList_intercalate]
  exact scan_lines 0 h

end Token

/-- A text of tokens of given kinds. -/
structure TokenLine (kinds : List Kind) where
  /-- The text. -/
  text : String
  /-- It has no lexical errors. -/
  lexical : LexicalError.ofText text = []
  /-- Its tokens are of the kinds. -/
  ofKinds : (Token.significant text).map Token.kind = kinds

end Bluespec
