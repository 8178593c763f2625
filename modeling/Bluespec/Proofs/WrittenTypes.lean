import Bluespec.Grammar.TypeExpr
import Bluespec.Proofs.NumberTexts
import Bluespec.Proofs.Layout

/-!
# Types as they are written

The names in a type that has been read are names of the source, and its numbers fit into sixty-four bits.

* **`Token.Named`**, **`Token.named_of_significant`** — the names of a source are spelled like names.
* **`Parser.Makes`** — what a parser makes of tokens of one sort, with one rule for each way to put parsers together.
* **`TypeExpr.Written`** — types that can be written down.
* **`Parser.makes_type`** — every type that is read from a source can be written down.
-/

namespace Bluespec

open Bluespec.Parser

/-! ## Names -/

namespace Lexeme

open Pattern

theorem word_rules {a : Pattern} (ha : (a, .word) ∈ rules) {cs : List Char} (h : a.Matches cs) :
    ∃ c ds, cs = c :: ds ∧ isWordStart c = true ∧ ∀ d ∈ ds, isWordPart d = true := by
  rw [rules, List.mem_append] at ha
  obtain ha | ha := ha
  · simp only [variableRules, List.mem_cons, List.not_mem_nil, or_false, Prod.mk.injEq, reduceCtorEq, and_false,
      and_true, false_or] at ha
    obtain rfl := ha
    obtain ⟨s, t, rfl, hs, ht⟩ := matches_seq.mp h
    obtain ⟨c, rfl, hc⟩ := matches_char.mp hs
    exact ⟨c, t, rfl, hc, matches_star_char.mp ht⟩
  · obtain ⟨p, -, hp⟩ := List.mem_map.mp ha
    cases hp

end Lexeme

namespace Token

/-- A token that is a name is spelled like one. -/
def Named (t : Token) : Prop :=
  ∀ kind, kind = .ident ∨ kind = .typeIdent → t.kind = kind → ∃ x : Identifier kind, t.text = x.text

theorem named_ofLexeme {lexeme : Lexeme} {offset : Nat} {cs : List Char}
    (h : ∃ a, (a, lexeme) ∈ Lexeme.rules ∧ a.Matches cs) : Named (Item.ofLexeme lexeme offset cs).toToken := by
  rintro kind hname hkind
  obtain ⟨a, ha, hmatches⟩ := h
  cases lexeme with
  | word =>
    obtain ⟨c, ds, rfl, hc, hds⟩ := Lexeme.word_rules ha hmatches
    exact ⟨⟨c, ds, hc, hds, hkind⟩, rfl⟩
  | escapedString =>
    rw [Item.ofLexeme] at hkind
    cases hescape : badEscape? offset cs <;> rw [hescape] at hkind <;> obtain rfl | rfl := hname <;> cases hkind
  | _ => obtain rfl | rfl := hname <;> cases hkind

theorem named_of_scan {offset : Nat} {cs : List Char} {i : Item} (h : i ∈ Item.scan offset cs) : Named i.toToken := by
  induction offset, cs using Item.scan_induction with
  | nil => cases h
  | lexeme offset c cs lexeme n hlong htaken ih =>
    rw [Item.scan_of_lexeme offset hlong] at h
    cases h with
    | head =>
      obtain ⟨r, hr, rfl, hn⟩ := Lexeme.rule_of_longest? hlong
      exact named_ofLexeme ⟨r.1, hr, (Pattern.longest?_eq_some_iff.mp hn).2.1⟩
    | tail _ h => exact ih h
  | character offset c cs hlong ih =>
    rw [Item.scan_of_character offset hlong] at h
    cases h with
    | head =>
      rintro kind hname hkind
      obtain rfl | rfl := hname <;> cases hkind
    | tail _ h => exact ih h

/-- The names of a source are spelled like names. -/
theorem named_of_significant {source : String} {t : Token} (h : t ∈ significant source) : t.Named := by
  obtain ⟨i, hi, rfl⟩ := List.mem_map.mp (List.mem_filter.mp h).1
  exact named_of_scan hi

end Token

/-! ## What parsers make of tokens -/

namespace Parser

variable {α β : Type} {p : Parser α} {f : α → Parser β} {a : α} {Q Q' : α → Prop} {R : β → Prop}

/-- Where all tokens left are named well, the parser only yields values of a property. -/
def Makes (p : Parser α) (Q : α → Prop) : Prop :=
  ∀ c s a s', (∀ t ∈ s.rest, t.Named) → p c s = (some a, s') → (∀ t ∈ s'.rest, t.Named) ∧ Q a

namespace Makes

theorem value (h : Q a) : Makes (pure a) Q := by
  rintro c s a s' hs ⟨⟩
  exact ⟨hs, h⟩

theorem fail : Makes (fail : Parser α) Q := fun _ _ _ _ _ h => by cases h

theorem bind (hp : Makes p Q) (hf : ∀ a, Q a → Makes (f a) R) : Makes (p >>= f) R := by
  intro c s b s' hs h
  rw [bind_apply] at h
  cases hrun : p c s with
  | mk r s₁ =>
    rw [hrun] at h
    cases r with
    | none => cases h
    | some a =>
      obtain ⟨hs₁, ha⟩ := hp c s a s₁ hs hrun
      exact hf a ha c s₁ b s' hs₁ h

/-- What only asks about the state, or only reports, leaves the tokens. -/
theorem of_rest (h : ∀ c s, (p c s).2.rest = s.rest) : Makes p fun _ => True := by
  intro c s a s' hs hrun
  have hrest := h c s
  rw [hrun] at hrest
  exact ⟨hrest ▸ hs, trivial⟩

theorem failExpected {what : Expectation} : Makes (failExpected what : Parser α) Q :=
  (of_rest fun _ _ => rfl).bind fun _ _ => .fail

theorem skip : Makes skip fun _ => True := by
  rintro c s a s' hs ⟨⟩
  refine ⟨fun t ht => ?_, trivial⟩
  rw [State.step] at ht
  split at ht
  · exact hs t ht
  · next u ts hrest => exact hs t (hrest ▸ List.mem_cons_of_mem u ht)

theorem eat (k : Kind) : Makes (eat k) fun r => ∀ t, r = some t → t.Named ∧ t.kind = k := by
  intro c s r s' hs h
  rw [Parser.eat] at h
  split at h
  · next t ts hrest =>
    split at h
    · next hkind =>
      cases h
      refine ⟨(skip c s () s.step hs rfl).1, ?_⟩
      rintro _ ⟨⟩
      exact ⟨hs t (hrest ▸ List.mem_cons_self), hkind⟩
    · cases h
      exact ⟨hs, by rintro _ ⟨⟩⟩
  · cases h
    exact ⟨hs, by rintro _ ⟨⟩⟩

theorem accept (k : Kind) : Makes (accept k) fun _ => True :=
  (eat k).bind fun _ _ => .value trivial

theorem expect (k : Kind) : Makes (expect k) fun t => t.Named ∧ t.kind = k := by
  refine (eat k).bind fun r hr => ?_
  cases r with
  | some t => exact .value (hr t rfl)
  | none => exact .failExpected

theorem expectPunct (p : Punct) : Makes (expectPunct p) fun _ => True :=
  (expect _).bind fun _ _ => .value trivial

theorem expectText (k : Kind) : Makes (expectText k) fun text => ∃ t : Token, t.Named ∧ t.kind = k ∧ text = t.text :=
  (expect k).bind fun t ht => .value ⟨t, ht.1, ht.2, rfl⟩

theorem separated {separator : Punct} (hp : Makes p Q) : Makes (separated separator p) fun as => ∀ a ∈ as, Q a := by
  have hlimit : ∀ limit, Makes (separatedUpTo separator p limit) fun as => ∀ a ∈ as, Q a := by
    intro limit
    induction limit with
    | zero => exact .fail
    | succ limit ih =>
      refine hp.bind fun a ha => (accept _).bind fun more _ => ?_
      cases more with
      | true => exact ih.bind fun as has => .value (List.forall_mem_cons.mpr ⟨ha, has⟩)
      | false => exact .value (List.forall_mem_singleton.mpr ha)
  exact fun c s => hlimit (s.rest.length + 1) c s

end Makes

end Parser

/-! ## Types that can be written down -/

/-- A type whose names are spelled like names and whose numbers fit into sixty-four bits. -/
inductive TypeExpr.Written : TypeExpr → Prop
  /-- A name with its parameters. -/
  | named {x : Identifier .typeIdent} {params : List TypeExpr} {span : Span} (hparams : ∀ p ∈ params, p.Written) :
      Written ⟨.named x.text params, span⟩
  /-- A single bit. -/
  | bit {span : Span} : Written ⟨.named Keyword.bit.spelling [], span⟩
  /-- A type variable. -/
  | var {x : Identifier .ident} {span : Span} : Written ⟨.var x.text, span⟩
  /-- A number. -/
  | number {n : Nat} {span : Span} (h : n < 2 ^ 64) : Written ⟨.number n, span⟩
  /-- A vector of bits. -/
  | bits {hi lo : Nat} {span : Span} (hhi : hi < 2 ^ 64) (hlo : lo < 2 ^ 64) : Written ⟨.bits hi lo, span⟩

namespace Parser

theorem makes_bitBound : Makes bitBound (· < 2 ^ 64) := by
  refine (Makes.expect _).bind fun t _ => ?_
  cases h : plainNumber? t.text with
  | some n => exact .value (lt_of_unsigned? h)
  | none => exact (Makes.of_rest fun _ _ => rfl).bind fun _ _ => .fail

theorem makes_typeForm {inner : Parser TypeExpr} (hinner : Makes inner TypeExpr.Written) :
    Makes (typeForm inner) fun form => ∀ span, TypeExpr.Written ⟨form, span⟩ := by
  refine (Makes.of_rest fun _ _ => rfl).bind fun next _ => ?_
  split
  · refine (Makes.expectText _).bind fun name hname => (Makes.accept _).bind fun marked _ => ?_
    obtain ⟨t, ht, hkind, rfl⟩ := hname
    obtain ⟨x, hx⟩ := ht .typeIdent (.inr rfl) hkind
    rw [hx]
    cases marked with
    | true =>
      refine (Makes.expectPunct _).bind fun _ _ => hinner.separated.bind fun params hparams => ?_
      exact (Makes.expectPunct _).bind fun _ _ => .value fun span => .named hparams
    | false => exact .value fun span => .named nofun
  · refine (Makes.expectText _).bind fun name hname => ?_
    obtain ⟨t, ht, hkind, rfl⟩ := hname
    obtain ⟨x, hx⟩ := ht .ident (.inl rfl) hkind
    rw [hx]
    exact .value fun span => .var
  · refine (Makes.expect _).bind fun t _ => ?_
    cases h : plainNumber? t.text with
    | some n => exact .value fun span => .number (lt_of_unsigned? h)
    | none => exact (Makes.of_rest fun _ _ => rfl).bind fun _ _ => .fail
  · refine Makes.skip.bind fun _ _ => (Makes.accept _).bind fun marked _ => ?_
    cases marked with
    | true =>
      refine makes_bitBound.bind fun hi hhi => (Makes.expectPunct _).bind fun _ _ => ?_
      refine makes_bitBound.bind fun lo hlo => (Makes.expectPunct _).bind fun _ _ => ?_
      exact .value fun span => .bits hhi hlo
    | false => exact .value fun span => .bit
  · exact .failExpected

/-- Every type that is read can be written down. -/
theorem makes_type : Makes type TypeExpr.Written := by
  have hlimit : ∀ limit, Makes (typeUpTo limit) TypeExpr.Written := by
    intro limit
    induction limit with
    | zero => exact .fail
    | succ limit ih =>
      refine (Makes.of_rest fun _ _ => rfl).bind fun start _ => (makes_typeForm ih).bind fun form hform => ?_
      exact (Makes.of_rest fun _ _ => rfl).bind fun span _ => .value (hform span)
  exact fun c s => hlimit (s.rest.length + 1) c s

end Parser

end Bluespec
