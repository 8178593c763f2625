import Bluespec.Parse
import Bluespec.Proofs.LongestLexemes
import Bluespec.Proofs.Respacing

/-!
# Bodies of string literals

Between the quotes of a string stand characters that mean themselves, and escapes.  The literal of a string is what
stands between its quotes, unless that ends with an escaped quote, which is then missing.

* **`StringBody`** — what stands between the quotes of a string.
* **`StringBody.of_kind`** — the text of every string of a source has such a body.
* **`stringText_quoted`** — the literal of a string with a given body.
* **`string_literals`** — every string of every source, as the expression parser reads it.
-/

namespace Bluespec

/-! ## Bodies -/

/-- Plain characters and escapes: what may stand between the quotes of a string. -/
inductive StringBody : List Char → Prop
  | nil : StringBody []
  | plain {c : Char} {cs : List Char} (hc : "\"\\\n".toList.contains c = false) (hcs : StringBody cs) :
      StringBody (c :: cs)
  | escape {c : Char} {cs : List Char} (hc : c ≠ '\n') (hcs : StringBody cs) : StringBody ('\\' :: c :: cs)

namespace StringBody

theorem append {cs ds : List Char} (h : StringBody cs) (h' : StringBody ds) : StringBody (cs ++ ds) := by
  induction h with
  | nil => exact h'
  | plain hc _ ih => exact .plain hc ih
  | escape hc _ ih => exact .escape hc ih

/-- A body does not begin with a quote. -/
theorem head_ne_quote {cs : List Char} (h : StringBody cs) : ∀ d ∈ cs.head?, d ≠ '"' := by
  rintro d hd rfl
  cases h with
  | nil => cases hd
  | plain hc => cases hd; exact absurd hc (by decide)
  | escape => cases hd

/-- A quote at the end of a body is an escaped one. -/
theorem eq_escaped {cs : List Char} (h : StringBody cs) (hlast : cs.getLast? = some '"') :
    ∃ ds, cs = ds ++ ['\\', '"'] := by
  induction h with
  | nil => cases hlast
  | @plain c cs hc hcs ih =>
    cases cs with
    | nil =>
      cases hlast
      exact absurd hc (by decide)
    | cons d ds =>
      obtain ⟨es, hes⟩ := ih hlast
      exact ⟨c :: es, by rw [hes]; rfl⟩
  | @escape c cs hc hcs ih =>
    cases cs with
    | nil =>
      cases hlast
      exact ⟨[], rfl⟩
    | cons d ds =>
      obtain ⟨es, hes⟩ := ih hlast
      exact ⟨'\\' :: c :: es, by rw [hes]; rfl⟩

open Pattern Lexeme

theorem of_plain {cs : List Char} (h : stringChar.Matches cs) : StringBody cs := by
  obtain ⟨c, rfl, hc⟩ := matches_char.mp h
  rw [Bool.not_eq_true'] at hc
  exact .plain hc .nil

theorem of_escape {cs : List Char} (h : escapePair.Matches cs) : StringBody cs := by
  obtain ⟨s, t, rfl, hs, ht⟩ := matches_seq.mp h
  obtain ⟨c, rfl, hc⟩ := matches_char.mp hs
  obtain ⟨d, rfl, hd⟩ := matches_char.mp ht
  obtain rfl : c = '\\' := by simpa using hc
  exact .escape (by simpa using hd) .nil

/-- Repetitions of a pattern of bodies. -/
theorem of_star {a : Pattern} {cs : List Char} (ha : ∀ ds, a.Matches ds → StringBody ds) (h : (star a).Matches cs) :
    StringBody cs := by
  generalize hp : star a = p at h
  induction h with
  | stop => exact .nil
  | more hs _ _ ih =>
    cases hp
    exact (ha _ hs).append (ih rfl)
  | _ => cases hp

theorem of_stringBody {cs : List Char} (h : stringBody.Matches cs) : StringBody cs :=
  of_star (fun _ hds => (matches_alt.mp hds).elim of_plain of_escape) h

theorem to_stringBody {cs : List Char} (h : StringBody cs) : stringBody.Matches cs := by
  induction h with
  | nil => exact .stop
  | @plain c cs hc _ ih =>
    have hchar : stringChar.Matches [c] := .char (by rw [hc]; rfl)
    exact .more (.left hchar) ih
  | @escape c cs hc _ ih =>
    have hpair : escapePair.Matches ['\\', c] := .seq (.char rfl) (.char (by simpa using hc))
    exact .more (.right hpair) ih

/-- A closed string without escapes, behind its opening quote. -/
theorem of_plainBody {cs : List Char} (h : plainBody.Matches cs) :
    ∃ body, (star stringChar).Matches body ∧ cs = body ++ ['"'] := by
  obtain ⟨body, closing, rfl, hbody, hclosing⟩ := matches_seq.mp h
  rw [eq_of_nullable_word ((matches_iff _ _).mp hclosing)]
  exact ⟨body, hbody, rfl⟩

/-- A closed string with escapes, behind its opening quote. -/
theorem of_escapedBody {cs : List Char} (h : escapedBody.Matches cs) : ∃ body, StringBody body ∧ cs = body ++ ['"'] := by
  obtain ⟨before, _, rfl, hbefore, h⟩ := matches_seq.mp h
  obtain ⟨pair, _, rfl, hpair, h⟩ := matches_seq.mp h
  obtain ⟨after, closing, rfl, hafter, hclosing⟩ := matches_seq.mp h
  rw [eq_of_nullable_word ((matches_iff _ _).mp hclosing)]
  refine ⟨before ++ (pair ++ after), (of_star (fun _ => of_plain) hbefore).append
    ((of_escape hpair).append (of_stringBody hafter)), ?_⟩
  rw [List.append_assoc, List.append_assoc]
  rfl

/-! ## Strings of a source -/

/-- What a rule for strings matches is a body between quotes. -/
theorem of_rule {r : Pattern × Lexeme} (hr : r ∈ rules) (hstring : r.2 = .plainString ∨ r.2 = .escapedString)
    {cs : List Char} (h : r.1.Matches cs) : ∃ body, StringBody body ∧ cs = '"' :: (body ++ ['"']) := by
  have hquote : ∀ {ds : List Char}, (text "\"").Matches ds → ds = ['"'] :=
    fun hds => eq_of_nullable_word ((matches_iff _ _).mp hds)
  have hrules : ∀ r ∈ rules, r.2 = .plainString ∨ r.2 = .escapedString →
      r.1 = seq (text "\"") plainBody ∨ r.1 = seq (text "\"") escapedBody := by
    refine forall_rules (fun r hr => ?_) fun p => by rintro (hstring | hstring) <;> cases hstring
    simp only [variableRules, List.mem_cons, List.not_mem_nil, or_false] at hr
    rcases hr with rfl | rfl | rfl | rfl | rfl | rfl | rfl | rfl | rfl | rfl | rfl | rfl | rfl | rfl
    all_goals first
      | exact fun _ => .inl rfl
      | exact fun _ => .inr rfl
      | (rintro (hstring | hstring) <;> cases hstring)
  rcases hrules r hr hstring with hrule | hrule
  all_goals
    rw [hrule] at h
    obtain ⟨opening, _, rfl, hopening, h⟩ := matches_seq.mp h
    rw [hquote hopening]
  · obtain ⟨body, hbody, rfl⟩ := of_plainBody h
    exact ⟨body, of_star (fun _ => of_plain) hbody, rfl⟩
  · obtain ⟨body, hbody, rfl⟩ := of_escapedBody h
    exact ⟨body, hbody, rfl⟩

/-- Only lexemes of strings are strings. -/
theorem lexeme_of_kind {lexeme : Lexeme} {offset : Nat} {cs : List Char}
    (h : (Item.ofLexeme lexeme offset cs).toToken.kind = .string) : lexeme = .plainString ∨ lexeme = .escapedString := by
  have hword : Kind.ofWord (String.ofList cs) ≠ .string := by
    intro hk
    have hclass := Kind.isOfWord_ofWord (String.ofList cs)
    rw [hk] at hclass
    cases hclass
  cases lexeme with
  | plainString => exact .inl rfl
  | escapedString => exact .inr rfl
  | word => exact absurd h hword
  | _ => cases h

/-- The text of every string of a source is a body between quotes. -/
theorem of_kind {offset : Nat} {cs : List Char} {i : Item} (hi : i ∈ Item.scan offset cs)
    (hkind : i.toToken.kind = .string) :
    ∃ body, StringBody body ∧ i.toToken.text.toList = '"' :: (body ++ ['"']) := by
  induction offset, cs using Item.scan_induction with
  | nil => cases hi
  | lexeme offset c cs lexeme n hlong htaken ih =>
    rw [Item.scan_of_lexeme offset hlong] at hi
    obtain rfl | hi := List.mem_cons.mp hi
    · obtain ⟨r, hr, rfl, hmatch⟩ := Lexeme.rule_of_longest? hlong
      rw [Item.toToken_text, Item.text_ofLexeme, String.toList_ofList]
      exact of_rule hr (lexeme_of_kind hkind) (Pattern.longest?_eq_some_iff.mp hmatch).2.1
    · exact ih hi
  | character offset c cs hlong ih =>
    rw [Item.scan_of_character offset hlong] at hi
    obtain rfl | hi := List.mem_cons.mp hi
    · cases hkind
    · exact ih hi

end StringBody

/-! ## Literals -/

/-- Quotes that are dropped from the beginning of a quoted body are the one before it. -/
theorem dropWhile_quoted {body : List Char} (h : StringBody body) (hne : body ≠ []) :
    ('"' :: (body ++ ['"'])).dropWhile (· == '"') = body ++ ['"'] := by
  obtain ⟨c, cs, rfl⟩ := List.exists_cons_of_ne_nil hne
  have hc : (c == '"') = false := beq_eq_false_iff_ne.mpr (h.head_ne_quote c rfl)
  rw [List.dropWhile_cons_of_pos (by rfl), List.cons_append, List.dropWhile_cons_of_neg (by rw [hc]; exact nofun)]

/-- The literal of a string is its body; a quote at the end of the body is missing. -/
theorem stringText_quoted {body : List Char} (h : StringBody body) :
    (Literal.stringText (String.ofList ('"' :: (body ++ ['"'])))).toList =
      if body.getLast? = some '"' then body.dropLast else body := by
  by_cases hnil : body = []
  · subst hnil
    rfl
  rw [Literal.stringText, String.toList_ofList, String.toList_ofList, dropWhile_quoted h hnil, List.reverse_append,
    List.reverse_singleton, List.singleton_append, List.dropWhile_cons_of_pos (by rfl)]
  by_cases hlast : body.getLast? = some '"'
  · obtain ⟨ds, rfl⟩ := h.eq_escaped hlast
    have hreverse : (ds ++ ['\\', '"']).reverse = '"' :: '\\' :: ds.reverse := List.reverse_append
    rw [if_pos hlast, hreverse, List.dropWhile_cons_of_pos (by rfl), List.dropWhile_cons_of_neg (by decide),
      List.reverse_cons, List.reverse_reverse, List.dropLast_append_of_ne_nil (List.cons_ne_nil _ _)]
    rfl
  · obtain ⟨l, ls, hreverse⟩ := List.exists_cons_of_ne_nil (mt List.reverse_eq_nil_iff.mp hnil)
    have hl : (l == '"') = false := by
      rw [beq_eq_false_iff_ne]
      rintro rfl
      exact hlast (by rw [← List.head?_reverse, hreverse]; rfl)
    rw [if_neg hlast, hreverse, List.dropWhile_cons_of_neg (by rw [hl]; exact nofun), ← hreverse, List.reverse_reverse]

open Bluespec.Parser

/-- A string is read as the literal of its text. -/
theorem primary_of_string {g : Grammar} {c : Setting} {cs rest : List Token} {ds : List Diagnostic} {ns : List NodeSpan}
    {t : Token} (hk : t.kind = .string) :
    g.primary c ⟨cs, t :: rest, ds, ns⟩ =
      (some ⟨.literal (.string (Literal.stringText t.text)), ⟨t.span.start, max t.span.stop t.span.start⟩⟩,
        ⟨t :: cs, rest, ds, ns⟩) := by
  have hliteral : Literal.ofToken t = .ok (.string (Literal.stringText t.text)) := by rw [Literal.ofToken, hk]
  have hread : Grammar.literal .string c ⟨cs, t :: rest, ds, ns⟩ =
      (some (.string (Literal.stringText t.text)), ⟨t :: cs, rest, ds, ns⟩) := by
    rw [Grammar.literal, bind_of_some (expect_of_kind hk), hliteral]
    rfl
  rw [Grammar.primary, bind_of_some offset_cons, bind_of_some peek_cons]
  simp only [hk]
  rw [bind_of_some hread]
  rfl

/-- Every string of every source is a body between quotes, and the expression parser reads it as a literal: as that of
the whole body if and only if the body does not end with a quote, and otherwise as that of the body without it. -/
theorem string_literals {source : String} {t : Token} (ht : t ∈ Token.ofText source) (hk : t.kind = .string) :
    ∃ body s, t.text.toList = '"' :: (body ++ ['"']) ∧
      (∀ (g : Grammar) c cs rest ds ns, g.primary c ⟨cs, t :: rest, ds, ns⟩ =
        (some ⟨.literal (.string s), ⟨t.span.start, max t.span.stop t.span.start⟩⟩, ⟨t :: cs, rest, ds, ns⟩)) ∧
      (s.toList = body ↔ body.getLast? ≠ some '"') ∧ (body.getLast? = some '"' → body = s.toList ++ ['"']) := by
  obtain ⟨i, hi, rfl⟩ := List.mem_map.mp ht
  obtain ⟨body, hbody, htext⟩ := StringBody.of_kind hi hk
  have hvalue := stringText_quoted hbody
  rw [← htext, String.ofList_toList] at hvalue
  have hbehind : body.getLast? = some '"' → body = body.dropLast ++ ['"'] := by
    intro hlast
    obtain ⟨ds, rfl⟩ := List.getLast?_eq_some_iff.mp hlast
    rw [List.dropLast_concat]
  refine ⟨body, _, htext, fun g c cs rest ds ns => primary_of_string hk, ?_, fun hlast => ?_⟩
  · rw [hvalue]
    refine ⟨fun hwhole hlast => ?_, fun hlast => if_neg hlast⟩
    rw [if_pos hlast] at hwhole
    have hlength := congrArg List.length (hbehind hlast)
    rw [hwhole, List.length_append] at hlength
    exact absurd hlength (Nat.ne_of_lt (Nat.lt_succ_self _))
  · rw [hvalue, if_pos hlast]
    exact hbehind hlast

/-- The body of a string without a quote at its end. -/
theorem string_literals_plain :
    (⟨.string, "\"a\\n\"", ⟨0, 5⟩⟩ : Token) ∈ Token.ofText "\"a\\n\"" ∧
      ∃ body s, "\"a\\n\"".toList = '"' :: (body ++ ['"']) ∧
        (∀ (g : Grammar) c cs rest ds ns, g.primary c ⟨cs, ⟨.string, "\"a\\n\"", ⟨0, 5⟩⟩ :: rest, ds, ns⟩ =
          (some ⟨.literal (.string s), ⟨0, 5⟩⟩, ⟨⟨.string, "\"a\\n\"", ⟨0, 5⟩⟩ :: cs, rest, ds, ns⟩)) ∧
        (s.toList = body ↔ body.getLast? ≠ some '"') ∧ (body.getLast? = some '"' → body = s.toList ++ ['"']) := by
  have ht : (⟨.string, "\"a\\n\"", ⟨0, 5⟩⟩ : Token) ∈ Token.ofText "\"a\\n\"" := by
    rw [show Token.ofText "\"a\\n\"" = [⟨.string, "\"a\\n\"", ⟨0, 5⟩⟩] from rfl]
    exact List.mem_singleton_self _
  exact ⟨ht, string_literals ht rfl⟩

/-- The quote at the end of the body is missing from the literal. -/
theorem parseExpression_escaped_quote :
    parseExpression "\"a\\\"\"" = .ok ⟨.literal (.string "a\\"), ⟨0, 5⟩⟩ := rfl

end Bluespec
