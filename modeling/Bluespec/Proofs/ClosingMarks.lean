import Bluespec.Proofs.LexerStates
import Bluespec.Proofs.LineTexts
import Bluespec.Proofs.StringBodies

/-!
# Where comments and strings end

A block comment ends at the first closing mark, a line comment before the next line, and a string at the first quote
that is not escaped, if that stands on its line.

* **`Reading.Longest.exists_classifies`** — behind an opening mark, a text that no rule reads beyond is what is read.
* **`Pattern.steps_of_no_mark`** — what is left of the patterns of block comments behind a text without closing mark.
* **`StringBody.length_le`** — no body of a string goes beyond a quote that is not escaped.
* **`Reading.OfComment`**, **`Reading.OfString`** — what is read behind an opening mark.
* **`Lexer.closing_marks`** — every comment and every string that a lexer reads ends where it should.
-/

namespace Bluespec

/-! ## Texts behind an opening mark -/

theorem Pattern.steps_append (p : Pattern) (cs ds : List Char) : p.steps (cs ++ ds) = (p.steps cs).steps ds := by
  induction cs generalizing p with
  | nil => rfl
  | cons c cs ih => exact ih (p.step c)

theorem Pattern.matches_append (p : Pattern) (cs ds : List Char) : p.Matches (cs ++ ds) ↔ (p.steps cs).Matches ds := by
  rw [matches_iff, matches_iff, steps_append]

/-- Behind a mark with which no symbol begins, some rule matches a text, and none matches more of what stands there: then
the text is read as one of the classes of the rules that match it. -/
theorem Reading.Longest.exists_classifies {lines : LineIndex} {offset : Nat} {r : Reading} (P : Lexeme → Prop)
    (mark cs after : List Char) (h : Longest lines offset (mark ++ (cs ++ after)) r)
    (hsymbols : ∀ p : Punct, (Pattern.text p.spelling).steps mark = .nothing)
    (hmatch : ∃ rule ∈ Lexeme.opened mark, (rule.1.steps mark).Matches cs)
    (hbound : ∀ rule ∈ Lexeme.opened mark, ∀ cs' after', cs ++ after = cs' ++ after' → (rule.1.steps mark).Matches cs' →
      cs'.length ≤ cs.length ∧ (cs' = cs → P rule.2)) :
    ∃ lexeme, P lexeme ∧ Classifies lines offset (mark ++ cs) lexeme r := by
  obtain ⟨rule, hopened, hmatched⟩ := hmatch
  have hrule := Lexeme.mem_rules_of_opened hopened
  rw [← Pattern.matches_append] at hmatched
  have hwhole : mark ++ (cs ++ after) = (mark ++ cs) ++ after := (List.append_assoc mark cs after).symm
  cases h with
  | character hrest hnone =>
    obtain ⟨rfl, -⟩ := List.append_eq_nil_iff.mp (hnone rule hrule _ after hwhole hmatched)
    cases hsymbols .lparen
  | @lexeme text after' earlier later rule' r hrest htext hrules hmatch' hlongest hfirst hclass =>
    have hrule' : rule' ∈ Lexeme.rules := by
      rw [hrules]
      exact List.mem_append_right _ List.mem_cons_self
    have hlength := hlongest rule hrule _ after hwhole hmatched
    rw [List.length_append] at hlength
    -- The text read is at least as long as the mark, so the mark is the beginning of it.
    obtain ⟨cs', rfl⟩ := List.prefix_of_prefix_length_le ⟨_, hrest⟩ (List.prefix_append text after') (by omega)
    rw [List.append_assoc] at hrest
    rw [Pattern.matches_append] at hmatch'
    obtain hmem | hnothing := Lexeme.mem_opened hsymbols hrule'
    · obtain ⟨hle, hclassOf⟩ := hbound rule' hmem cs' after' (List.append_cancel_left hrest) hmatch'
      rw [List.length_append] at hlength
      obtain ⟨rfl, rfl⟩ := List.append_inj (List.append_cancel_left hrest) (by omega)
      exact ⟨rule'.2, hclassOf rfl, hclass⟩
    · rw [hnothing] at hmatch'
      exact absurd hmatch' (Pattern.not_matches_nothing cs')

/-- A prefix whose characters are all of some kind is at most as long as the part before the first other character. -/
theorem length_le_takeWhile {p : Char → Bool} {text cs ds : List Char} (h : text = cs ++ ds) (hcs : ∀ c ∈ cs, p c = true) :
    cs.length ≤ (text.takeWhile p).length := by
  rw [h, List.takeWhile_append_of_pos hcs, List.length_append]
  omega

/-! ## Block comments -/

/-- The mark that closes a block comment. -/
def closingMark : List Char := ['*', '/']

/-- A text with the mark in it has a first one. -/
theorem exists_first_mark {cs : List Char} (h : closingMark <:+: cs) :
    ∃ body after, cs = body ++ (closingMark ++ after) ∧ ¬ closingMark <:+: body := by
  induction cs with
  | nil => exact absurd (List.infix_nil.mp h) (List.cons_ne_nil _ _)
  | cons c cs ih =>
    by_cases hfirst : closingMark <+: c :: cs
    · obtain ⟨after, hafter⟩ := hfirst
      exact ⟨[], after, hafter.symm, fun hnil => List.cons_ne_nil _ _ (List.infix_nil.mp hnil)⟩
    · obtain ⟨body, after, rfl, hbody⟩ := ih ((List.infix_cons_iff.mp h).resolve_left hfirst)
      refine ⟨c :: body, after, rfl, fun hmark => ?_⟩
      obtain hmark | hmark := List.infix_cons_iff.mp hmark
      · exact hfirst (hmark.trans (List.prefix_append (c :: body) _))
      · exact hbody hmark

namespace Pattern

/-- Behind a text without closing mark it only matters whether that ends with a star. -/
theorem steps_of_no_mark {cs : List Char} (h : ¬ closingMark <:+: cs) :
    closingBody.steps cs = (if cs.getLast? = some '*' then closingBehindStar else closingBody) ∧
      openingBody.steps cs = if cs.getLast? = some '*' then openingBehindStar else openingBody := by
  induction cs using List.reverseRecOn with
  | nil => exact ⟨rfl, rfl⟩
  | append_singleton cs c ih =>
    obtain ⟨hclosing, hopening⟩ := ih fun hmark => h (hmark.trans (List.infix_append_left))
    rw [steps_append, steps_append, hclosing, hopening, List.getLast?_concat]
    by_cases hlast : cs.getLast? = some '*'
    · rw [if_pos hlast, if_pos hlast]
      by_cases hstar : c = '*'
      · subst hstar
        exact ⟨rfl, rfl⟩
      · have hslash : c ≠ '/' := by
          rintro rfl
          obtain ⟨ds, rfl⟩ := List.getLast?_eq_some_iff.mp hlast
          exact h ⟨ds, [], by simp [closingMark]⟩
        simpa [steps, hstar] using step_behindStar hstar hslash
    · rw [if_neg hlast, if_neg hlast]
      by_cases hstar : c = '*'
      · subst hstar
        exact ⟨rfl, rfl⟩
      · simpa [steps, hstar] using step_body hstar

/-- Behind a text without closing mark a comment is open. -/
theorem matches_of_no_mark {cs : List Char} (h : ¬ closingMark <:+: cs) :
    openingBody.Matches cs ∧ ¬ closingBody.Matches cs := by
  rw [matches_iff, matches_iff, (steps_of_no_mark h).1, (steps_of_no_mark h).2]
  split <;> exact ⟨rfl, Bool.false_ne_true⟩

/-- The first closing mark closes a comment, and nothing else does. -/
theorem matches_closed {body : List Char} (h : ¬ closingMark <:+: body) (ds : List Char) :
    (closingBody.Matches (body ++ (closingMark ++ ds)) ↔ ds = []) ∧ ¬ openingBody.Matches (body ++ (closingMark ++ ds)) := by
  have hclosing : (closingBody.steps body).steps closingMark = blank := by
    rw [(steps_of_no_mark h).1]
    split <;> rfl
  have hopening : (openingBody.steps body).steps closingMark = nothing := by
    rw [(steps_of_no_mark h).2]
    split <;> rfl
  rw [matches_append, matches_append, matches_append, matches_append, hclosing, hopening]
  exact ⟨matches_blank, not_matches_nothing ds⟩

end Pattern

namespace Reading

variable {lines : LineIndex} {offset : Nat} {r : Reading}

/-- How the text of a block comment is read, `behind` being what stands behind the opening mark: up to the first closing
mark, and as an error up to the end of the source where there is none. -/
inductive OfComment (lines : LineIndex) (offset : Nat) (behind : List Char) : Reading → Prop
  | closed {body after : List Char} (hbehind : behind = body ++ (closingMark ++ after))
      (hfirst : ¬ closingMark <:+: body) :
      OfComment lines offset behind (.token ⟨.comment, String.ofList ('/' :: '*' :: (body ++ closingMark)),
        spanOfText offset ('/' :: '*' :: (body ++ closingMark))⟩ (lines.position offset))
  | unterminated (hnone : ¬ closingMark <:+: behind) :
      OfComment lines offset behind (.error (.unterminatedComment (spanOfText offset ('/' :: '*' :: behind))))

theorem Longest.ofComment {behind : List Char} (h : Longest lines offset ('/' :: '*' :: behind) r) :
    OfComment lines offset behind r := by
  by_cases hfirst : closingMark <:+: behind
  · obtain ⟨body, after, rfl, hbody⟩ := exists_first_mark hfirst
    have hclosed : closingBody.Matches (body ++ closingMark) := by
      simpa using (Pattern.matches_closed hbody []).1.mpr rfl
    -- No comment goes on behind the mark.
    have hends : ∀ rule ∈ Lexeme.opened ['/', '*'], ∀ ds,
        (rule.1.steps ['/', '*']).Matches (body ++ closingMark ++ ds) → ds = [] ∧ rule.2 = .comment := by
      intro rule hrule ds hmatch
      rw [List.append_assoc] at hmatch
      rw [Lexeme.opened_blockMark] at hrule
      obtain rfl | rfl : rule = _ ∨ rule = _ := by simpa using hrule
      · exact ⟨(Pattern.matches_closed hbody ds).1.mp hmatch, rfl⟩
      · exact absurd hmatch (Pattern.matches_closed hbody ds).2
    rw [← List.append_assoc] at h
    obtain ⟨lexeme, rfl, hclass⟩ := h.exists_classifies (· = .comment) ['/', '*'] (body ++ closingMark) after
      Lexeme.steps_blockMark ⟨_, .head _, hclosed⟩ <| by
        intro rule hrule cs after' hsplit hmatch
        constructor
        · by_contra hlong
          obtain ⟨ds, rfl⟩ := List.prefix_of_prefix_length_le ⟨after, hsplit⟩ (List.prefix_append cs after') (by omega)
          obtain ⟨rfl, -⟩ := hends rule hrule ds hmatch
          simp at hlong
        · rintro rfl
          exact (hends rule hrule [] (by simpa using hmatch)).2
    cases hclass with
    | kind hk =>
      cases hk
      exact .closed rfl hbody
  · obtain ⟨hopen, hclosed⟩ := Pattern.matches_of_no_mark hfirst
    rw [← List.append_nil behind] at h
    obtain ⟨lexeme, rfl, hclass⟩ := h.exists_classifies (· = .unterminatedComment) ['/', '*'] behind []
      Lexeme.steps_blockMark ⟨_, .tail _ (.head _), hopen⟩ <| by
        intro rule hrule cs after' hsplit hmatch
        constructor
        · have hlength := congrArg List.length hsplit
          simp only [List.append_nil, List.length_append] at hlength
          omega
        · rintro rfl
          rw [Lexeme.opened_blockMark] at hrule
          obtain rfl | rfl : rule = _ ∨ rule = _ := by simpa using hrule
          · exact absurd hmatch hclosed
          · rfl
    cases hclass with
    | unterminatedComment => exact .unterminated hfirst
    | kind hk => cases hk

end Reading

/-! ## Line comments -/

/-- The pattern of comments that end with their line. -/
def lineComment : Pattern := .seq (.text "//") (.star (.noneOf "\n"))

/-- Only line comments begin with the mark that opens one. -/
theorem Lexeme.opened_lineMark : opened ['/', '/'] = [(lineComment, .comment)] := rfl

/-- The part of a text before its first newline. -/
def lineOf (cs : List Char) : List Char := cs.takeWhile (· != '\n')

theorem matches_noneOf_newline {cs : List Char} :
    (Pattern.star (.noneOf "\n")).Matches cs ↔ ∀ c ∈ cs, (c != '\n') = true := by
  have hchar : ∀ c : Char, (!"\n".toList.contains c) = (c != '\n') := by
    intro c
    simp [bne, Bool.beq_eq_decide_eq]
  simp only [Pattern.noneOf, Pattern.matches_star_char, hchar]

/-- A line comment is read up to the next newline, or up to the end of the source. -/
theorem Reading.Longest.eq_lineComment {lines : LineIndex} {offset : Nat} {r : Reading} {behind : List Char}
    (h : Longest lines offset ('/' :: '/' :: behind) r) :
    r = .token ⟨.comment, String.ofList ('/' :: '/' :: lineOf behind), spanOfText offset ('/' :: '/' :: lineOf behind)⟩
      (lines.position offset) := by
  have hline : lineOf behind ++ behind.dropWhile (· != '\n') = behind := List.takeWhile_append_dropWhile
  have hmatch : (lineComment.steps ['/', '/']).Matches (lineOf behind) :=
    matches_noneOf_newline.mpr (List.all_eq_true.mp List.all_takeWhile)
  rw [← hline] at h
  obtain ⟨lexeme, rfl, hclass⟩ := h.exists_classifies (· = .comment) ['/', '/'] (lineOf behind) _
    (fun p => by cases p <;> rfl) ⟨_, .head _, hmatch⟩ <| by
      intro rule hrule cs after' hsplit hmatch
      rw [Lexeme.opened_lineMark] at hrule
      obtain rfl := List.mem_singleton.mp hrule
      rw [hline] at hsplit
      exact ⟨length_le_takeWhile hsplit (matches_noneOf_newline.mp hmatch), fun _ => rfl⟩
  cases hclass with
  | kind hk =>
    cases hk
    rfl

/-! ## Strings -/

/-- The text of a string with a given body. -/
def stringWith (body : List Char) : List Char := '"' :: (body ++ ['"'])

namespace StringBody

open Pattern Lexeme

/-- No body goes beyond a quote that is not escaped. -/
theorem length_le {body body' after after' : List Char} (h : StringBody body) (h' : StringBody body')
    (hsplit : body ++ '"' :: after = body' ++ after') : body'.length ≤ body.length := by
  induction h generalizing body' with
  | nil =>
    cases h' with
    | nil => exact Nat.le_refl _
    | plain hc => cases hsplit; exact absurd hc (by decide)
    | escape => cases hsplit
  | @plain c cs hc _ ih =>
    cases h' with
    | nil => exact Nat.zero_le _
    | plain _ hcs' =>
      obtain ⟨rfl, hrest⟩ := List.cons_eq_cons.mp hsplit
      exact Nat.succ_le_succ (ih hcs' hrest)
    | escape =>
      obtain ⟨rfl, -⟩ := List.cons_eq_cons.mp hsplit
      exact absurd hc (by decide)
  | @escape c cs _ _ ih =>
    cases h' with
    | nil => exact Nat.zero_le _
    | plain hc =>
      obtain ⟨rfl, -⟩ := List.cons_eq_cons.mp hsplit
      exact absurd hc (by decide)
    | escape _ hcs' =>
      obtain ⟨-, hpair⟩ := List.cons_eq_cons.mp hsplit
      obtain ⟨rfl, hrest⟩ := List.cons_eq_cons.mp hpair
      simpa using ih hcs' hrest

/-- A body stands on one line. -/
theorem ne_newline {body : List Char} (h : StringBody body) : ∀ c ∈ body, (c != '\n') = true := by
  induction h with
  | nil => simp
  | plain hc _ ih =>
    simp only [List.forall_mem_cons]
    refine ⟨?_, ih⟩
    rw [bne_iff_ne]
    rintro rfl
    exact absurd hc (by decide)
  | escape hc _ ih => simpa [hc] using ih

theorem lineOf_cons {c : Char} (hc : c ≠ '\n') (cs : List Char) : lineOf (c :: cs) = c :: lineOf cs :=
  List.takeWhile_cons_of_pos (bne_iff_ne.mpr hc)

/-- The text behind an opening quote has a closing one on its line, or the line is a body, which a last backslash may
follow. -/
theorem closes_or_opens (cs : List Char) :
    (∃ body after, cs = body ++ '"' :: after ∧ StringBody body) ∨
      ∃ body, StringBody body ∧ (lineOf cs = body ∨ lineOf cs = body ++ ['\\']) := by
  -- The body is read by characters and escapes, so the induction takes one or two characters.
  match cs with
  | [] => exact .inr ⟨[], .nil, .inl rfl⟩
  | c :: cs =>
    by_cases hquote : c = '"'
    · exact .inl ⟨[], cs, by rw [hquote]; rfl, .nil⟩
    by_cases hline : c = '\n'
    · exact .inr ⟨[], .nil, .inl (by rw [hline]; rfl)⟩
    by_cases hslash : c = '\\'
    · subst hslash
      match cs with
      | [] => exact .inr ⟨[], .nil, .inr rfl⟩
      | d :: cs =>
        by_cases hnewline : d = '\n'
        · exact .inr ⟨[], .nil, .inr (by rw [hnewline]; rfl)⟩
        rw [lineOf_cons hline, lineOf_cons hnewline]
        obtain ⟨body, after, rfl, hbody⟩ | ⟨body, hbody, hends⟩ := closes_or_opens cs
        · exact .inl ⟨'\\' :: d :: body, after, rfl, .escape hnewline hbody⟩
        · exact .inr ⟨'\\' :: d :: body, .escape hnewline hbody,
            hends.imp (congrArg ('\\' :: d :: ·)) (congrArg ('\\' :: d :: ·))⟩
    · have hplain : "\"\\\n".toList.contains c = false := by simp [hquote, hslash, hline]
      rw [lineOf_cons hline]
      obtain ⟨body, after, rfl, hbody⟩ | ⟨body, hbody, hends⟩ := closes_or_opens cs
      · exact .inl ⟨c :: body, after, rfl, .plain hplain hbody⟩
      · exact .inr ⟨c :: body, .plain hplain hbody, hends.imp (congrArg (c :: ·)) (congrArg (c :: ·))⟩

/-- A body without escapes, or one with a first escape. -/
theorem plain_or_escaped {body : List Char} (h : StringBody body) :
    plainBody.Matches (body ++ ['"']) ∨ escapedBody.Matches (body ++ ['"']) := by
  have hquote : (text "\"").Matches ['"'] := .char rfl
  suffices hbody : (star stringChar).Matches body ∨ ∃ before c after, body = before ++ '\\' :: c :: after ∧
      (star stringChar).Matches before ∧ c ≠ '\n' ∧ StringBody after by
    obtain hplain | ⟨before, c, after, rfl, hbefore, hc, hafter⟩ := hbody
    · exact .inl (.seq hplain hquote)
    · have hpair : escapePair.Matches ['\\', c] := .seq (.char rfl) (.char (by simpa using hc))
      have hmatch := hbefore.seq (hpair.seq (hafter.to_stringBody.seq hquote))
      rw [List.append_assoc]
      exact .inr hmatch
  induction h with
  | nil => exact .inl .stop
  | @plain c cs hc _ ih =>
    have hchar : stringChar.Matches [c] := .char (by rw [hc]; rfl)
    obtain hplain | ⟨before, d, after, rfl, hbefore, hd, hafter⟩ := ih
    · exact .inl (.more hchar hplain)
    · exact .inr ⟨c :: before, d, after, rfl, .more hchar hbefore, hd, hafter⟩
  | @escape c cs hc hcs _ => exact .inr ⟨[], c, cs, rfl, .stop, hc, hcs⟩

/-- Only strings begin with a quote. -/
theorem opened_quote : opened ['"'] = [(seq (text "\"") plainBody, .plainString),
    (seq (text "\"") escapedBody, .escapedString), (seq (text "\"") openBody, .unterminatedString)] := rfl

theorem steps_quote (p : Punct) : (text p.spelling).steps ['"'] = nothing := by cases p <;> rfl

/-- The classes of closed strings with a given body. -/
def ClosedClass (body : List Char) (lexeme : Lexeme) : Prop :=
  (lexeme = .plainString ∧ (star stringChar).Matches body) ∨ lexeme = .escapedString

/-- What the rules for strings match behind the opening quote: a body with a closing quote, or a body and possibly a
backslash. -/
theorem of_opened {rule : Pattern × Lexeme} (hrule : rule ∈ opened ['"']) {cs : List Char}
    (h : (rule.1.steps ['"']).Matches cs) :
    ∃ body, StringBody body ∧ ((cs = body ++ ['"'] ∧ ClosedClass body rule.2) ∨
      ((cs = body ∨ cs = body ++ ['\\']) ∧ rule.2 = .unterminatedString)) := by
  simp only [opened_quote, List.mem_cons, List.not_mem_nil, or_false] at hrule
  obtain rfl | rfl | rfl := hrule
  · obtain ⟨body, hbody, rfl⟩ := of_plainBody h
    exact ⟨body, of_star (fun _ => of_plain) hbody, .inl ⟨rfl, .inl ⟨rfl, hbody⟩⟩⟩
  · obtain ⟨body, hbody, rfl⟩ := of_escapedBody h
    exact ⟨body, hbody, .inl ⟨rfl, .inr rfl⟩⟩
  · obtain ⟨body, ending, rfl, hbody, hending⟩ := matches_seq.mp h
    refine ⟨body, of_stringBody hbody, .inr ⟨?_, rfl⟩⟩
    obtain hslash | hnothing := matches_alt.mp hending
    · rw [eq_of_nullable_word ((matches_iff _ _).mp hslash)]
      exact .inr rfl
    · rw [matches_blank.mp hnothing, List.append_nil]
      exact .inl rfl

end StringBody

namespace Reading

variable {lines : LineIndex} {offset : Nat} {r : Reading}

/-- The string token with a given body. -/
def string (lines : LineIndex) (offset : Nat) (body : List Char) : Reading :=
  .token ⟨.string, String.ofList (stringWith body), spanOfText offset (stringWith body)⟩ (lines.position offset)

/-- A body and the quote behind it are read as a closed string. -/
theorem Longest.classifies_closed {body after : List Char} (h : Longest lines offset ('"' :: (body ++ '"' :: after)) r)
    (hbody : StringBody body) :
    ∃ lexeme, StringBody.ClosedClass body lexeme ∧ Classifies lines offset (stringWith body) lexeme r := by
  have hrule : ∃ rule ∈ Lexeme.opened ['"'], (rule.1.steps ['"']).Matches (body ++ ['"']) := by
    obtain hplain | hescaped := hbody.plain_or_escaped
    · exact ⟨_, .head _, hplain⟩
    · exact ⟨_, .tail _ (.head _), hescaped⟩
  have hquote : body ++ '"' :: after = (body ++ ['"']) ++ after := by simp
  rw [hquote] at h
  refine h.exists_classifies (StringBody.ClosedClass body) ['"'] (body ++ ['"']) after StringBody.steps_quote hrule ?_
  intro rule hrule cs after' hsplit hmatch
  rw [← hquote] at hsplit
  obtain ⟨body', hbody', ⟨rfl, hclass⟩ | ⟨rfl | rfl, -⟩⟩ := StringBody.of_opened hrule hmatch
  · have hle := hbody.length_le hbody' (hsplit.trans (List.append_assoc _ _ _))
    refine ⟨by simpa using hle, fun heq => ?_⟩
    rwa [← List.append_cancel_right heq]
  · have hle := hbody.length_le hbody' hsplit
    constructor
    · rw [List.length_append]
      omega
    · rintro rfl
      exact absurd hle (by simp)
  · have hle := hbody.length_le hbody' (hsplit.trans (List.append_assoc _ _ _))
    refine ⟨by simpa using hle, fun heq => ?_⟩
    have hlast := congrArg List.getLast? heq
    simp at hlast

/-- The text of a string of which no quote on its line is the end. -/
theorem Longest.eq_openString {behind : List Char} (h : Longest lines offset ('"' :: behind) r)
    (hopen : ∀ body after, behind = body ++ '"' :: after → ¬ StringBody body) :
    r = .error (.unterminatedString (spanOfText offset ('"' :: lineOf behind))) := by
  obtain ⟨body, hbody, hline⟩ := (StringBody.closes_or_opens behind).resolve_left
    (by rintro ⟨body, after, hsplit, hbody⟩; exact hopen body after hsplit hbody)
  have hmatch : openBody.Matches (lineOf behind) := by
    obtain hline | hline := hline
    · rw [hline, ← List.append_nil body]
      exact hbody.to_stringBody.seq (.right .blank)
    · rw [hline]
      exact hbody.to_stringBody.seq (.left (.char rfl))
  have hrest : lineOf behind ++ behind.dropWhile (· != '\n') = behind := List.takeWhile_append_dropWhile
  rw [← hrest] at h
  obtain ⟨lexeme, rfl, hclass⟩ := h.exists_classifies (· = .unterminatedString) ['"'] (lineOf behind) _
    StringBody.steps_quote ⟨_, .tail _ (.tail _ (.head _)), hmatch⟩ <| by
      intro rule hrule cs after' hsplit hmatch
      rw [hrest] at hsplit
      obtain ⟨body', hbody', ⟨rfl, -⟩ | ⟨hends, hclass⟩⟩ := StringBody.of_opened hrule hmatch
      · exact absurd hbody' (hopen body' after' (by simpa using hsplit))
      · refine ⟨length_le_takeWhile hsplit ?_, fun _ => hclass⟩
        obtain rfl | rfl := hends
        · exact hbody'.ne_newline
        · exact List.forall_mem_append.mpr ⟨hbody'.ne_newline, by simp⟩
  cases hclass with
  | unterminatedString => rfl
  | kind hk => cases hk

/-- How the text of a string is read, `behind` being what stands behind the opening quote: up to the first quote that is
not escaped, as a string or as an error about an escape in it; and as an error up to the end of the line where no such
quote stands on it. -/
inductive OfString (lines : LineIndex) (offset : Nat) (behind : List Char) : Reading → Prop
  | closed {body after : List Char} (hbehind : behind = body ++ '"' :: after) (hbody : StringBody body) :
      OfString lines offset behind (.string lines offset body)
  | badEscape {body after : List Char} {c : Char} {span : Span} (hbehind : behind = body ++ '"' :: after)
      (hbody : StringBody body) :
      OfString lines offset behind (.error (.invalidEscape c span (spanOfText offset (stringWith body))))
  | unterminated (hopen : ∀ body after, behind = body ++ '"' :: after → ¬ StringBody body) :
      OfString lines offset behind (.error (.unterminatedString (spanOfText offset ('"' :: lineOf behind))))

theorem Longest.ofString {behind : List Char} (h : Longest lines offset ('"' :: behind) r) :
    OfString lines offset behind r := by
  by_cases hclosed : ∃ body after, behind = body ++ '"' :: after ∧ StringBody body
  · obtain ⟨body, after, rfl, hbody⟩ := hclosed
    obtain ⟨lexeme, ⟨rfl, -⟩ | rfl, hclass⟩ := h.classifies_closed hbody
    · cases hclass with
      | kind hk =>
        cases hk
        exact .closed rfl hbody
    · cases hclass with
      | kind hk => cases hk
      | escapedString => exact .closed rfl hbody
      | badEscape => exact .badEscape rfl hbody
  · have hopen : ∀ body after, behind = body ++ '"' :: after → ¬ StringBody body :=
      fun body after hsplit hbody => hclosed ⟨body, after, hsplit, hbody⟩
    rw [h.eq_openString hopen]
    exact .unterminated hopen

end Reading

/-! ## Readings of a source -/

/-- What any lexer of a source reads behind an opening mark: a block comment up to its first closing mark, or an error up
to the end of the source; a line comment up to the end of the line; a string up to its first quote that is not escaped,
or an error up to the end of the line. -/
theorem Lexer.closing_marks {source : String} {before rest : List Char} {r : Reading} (h : ReadsAt source before rest r) :
    (∀ behind, rest = '/' :: '*' :: behind →
      Reading.OfComment (LineIndex.ofText source.toList) (Text.byteSize before) behind r) ∧
    (∀ behind, rest = '/' :: '/' :: behind →
      r = .token ⟨.comment, String.ofList ('/' :: '/' :: lineOf behind),
        Reading.spanOfText (Text.byteSize before) ('/' :: '/' :: lineOf behind)⟩
        ((LineIndex.ofText source.toList).position (Text.byteSize before))) ∧
    ∀ behind, rest = '"' :: behind →
      Reading.OfString (LineIndex.ofText source.toList) (Text.byteSize before) behind r := by
  have hlongest := h.longest
  refine ⟨?_, ?_, ?_⟩
  all_goals
    rintro behind rfl
  · exact hlongest.ofComment
  · exact hlongest.eq_lineComment
  · exact hlongest.ofString

/-- The slash of the opening mark closes no comment. -/
theorem Lexer.closing_marks_slash :
    ReadsAt "/*/ a **/ b" [] "/*/ a **/ b".toList (.token ⟨.comment, "/*/ a **/", ⟨0, 9⟩⟩ ⟨1, 1, 0⟩) ∧
      Reading.OfComment (LineIndex.ofText "/*/ a **/ b".toList) 0 "/ a **/ b".toList
        (.token ⟨.comment, "/*/ a **/", ⟨0, 9⟩⟩ ⟨1, 1, 0⟩) := by
  have hread : ReadsAt "/*/ a **/ b" [] "/*/ a **/ b".toList (.token ⟨.comment, "/*/ a **/", ⟨0, 9⟩⟩ ⟨1, 1, 0⟩) :=
    ⟨rfl, rfl, (Lexer.ofSource "/*/ a **/ b").withTrivia, .withTrivia (.resumeAt 0), rfl⟩
  exact ⟨hread, (closing_marks hread).1 _ rfl⟩

end Bluespec
