import Bluespec.Proofs.GuardTexts
import Bluespec.Proofs.MemberTexts
import Bluespec.Proofs.ReportedUnits

/-!
# Definitions with a broken header

A definition of a module in which a token stands in the place of its name is skipped up to its closing word, with one
report, as long as nothing in it ends it before: interfaces inside it are stepped over, other definitions are not.

* **`Extent.within`** — what a definition that is skipped goes on over.
* **`Nameless`** — a definition up to the place of its name; **`Nameless.comesTo`** — it is skipped as a whole.
* **`TypeText`**, **`BrokenText`**, **`ModuleText`** — types, definitions with a broken header, and what stands in a module,
  on lines of their own.
* **`broken_headers`** — the module around such definitions has all its other members, and one report for each of them.
* **`broken_header_of_nested`** — a function inside a function ends it.
-/

namespace Bluespec

open Bluespec.Parser

/-! ## What is skipped -/

/-- Whether a definition that is skipped goes on over tokens of these kinds, `nested` interfaces inside it: outside the
interfaces in it nothing ends it. -/
def Extent.within (closing : Keyword) (nested : Nat) : List Kind → Bool
  | [] => nested == 0
  | k :: ks => !(nested == 0 && endsDefinition closing k) && within closing (interfacesAfter closing nested k) ks

/-- Such tokens are skipped up to the closing word behind them. -/
theorem Extent.definition_of_within {closing : Keyword} {nested : Nat} {ts : List Token} {last : Token}
    (h : within closing nested (ts.map Token.kind) = true) (hlast : last.kind = .keyword closing) (rest : List Token) :
    definition closing nested (ts ++ last :: rest) = ts.length := by
  induction ts generalizing nested with
  | nil =>
    refine if_pos ⟨eq_of_beq h, ?_⟩
    rw [hlast, endsDefinition, beq_self_eq_true, Bool.true_or, Bool.true_or, Bool.true_or, Bool.true_or]
  | cons t ts ih =>
    obtain ⟨hgoes, hlater⟩ := Bool.and_eq_true_iff.mp h
    have hstays : ¬ (nested = 0 ∧ endsDefinition closing t.kind = true) := by
      rintro ⟨rfl, hends⟩
      rw [hends] at hgoes
      exact Bool.false_ne_true hgoes
    rw [List.cons_append, definition, if_neg hstays, ih hlater]
    rfl

/-- An interface inside a method is stepped over. -/
example : Extent.within .endmethod 0 [.int, .punct .semi, .keyword .interface, .keyword .method, .keyword .endmethod,
    .keyword .endinterface, .punct .semi] = true := by decide

/-- A function inside a function ends it. -/
example : Extent.within .endfunction 0 [.int, .punct .semi, .keyword .function, .typeIdent, .ident, .punct .semi,
    .keyword .endfunction] = false := by decide

namespace Parser

variable {α : Type} {c : Setting} {p : Parser α} {closing : Keyword} {last : Token} {cs ts us ls rest : List Token}
  {ds ds' : List Diagnostic}

/-- A label, or none in front of what is no colon. -/
inductive Labelled : List Token → List Token → Prop
  | none {rest : List Token} (h : Lacks (.punct .colon) rest) : Labelled [] rest
  | some {colon name : Token} {rest : List Token} (hcolon : colon.kind = .punct .colon)
      (hname : name.kind = .ident ∨ name.kind = .typeIdent) : Labelled [colon, name] rest

theorem Labelled.of_kinds {label : List Kind} (h : ls.map Token.kind = label)
    (hlabel : label = [] ∨ label = [.punct .colon, .ident] ∨ label = [.punct .colon, .typeIdent])
    (hrest : Lacks (.punct .colon) rest) : Labelled ls rest := by
  subst h
  rcases hlabel with hnil | hlabel
  · obtain rfl := List.map_eq_nil_iff.mp hnil
    exact .none hrest
  · obtain ⟨k, hk, hkinds⟩ : ∃ k, (k = .ident ∨ k = .typeIdent) ∧ ls.map Token.kind = [.punct .colon, k] :=
      hlabel.elim (fun h => ⟨_, .inl rfl, h⟩) fun h => ⟨_, .inr rfl, h⟩
    obtain ⟨colon, ls, rfl, hcolon, hkinds⟩ := List.map_eq_cons_iff.mp hkinds
    obtain ⟨name, ls, rfl, hname, hkinds⟩ := List.map_eq_cons_iff.mp hkinds
    obtain rfl := List.map_eq_nil_iff.mp hkinds
    exact .some hcolon (hname ▸ hk)

theorem ComesTo.label (h : Labelled ls rest) : ∃ l, ∀ cs ds, ComesTo c label cs ls ds (some l) ds rest := by
  cases h with
  | none h => exact ⟨none, fun _ _ => .noLabel h⟩
  | @some colon name _ hcolon hname =>
    refine ⟨some ⟨name.text, name.span⟩, fun cs ds ns => ⟨ns, ?_⟩⟩
    rw [List.cons_append, Parser.label, bind_of_some (accept_of_kind hcolon), if_pos rfl]
    rcases hname with hname | hname
    · rw [List.singleton_append, bind_of_some (eat_of_kind hname)]
      rfl
    · have hother : eat .ident c ⟨colon :: cs, name :: rest, ds, ns⟩ = (some none, ⟨colon :: cs, name :: rest, ds, ns⟩) :=
        if_neg (by rw [hname]; decide)
      rw [List.singleton_append, bind_of_some hother]
      exact bind_of_some (eat_of_kind hname)

/-- The rest of a definition with a broken header is skipped, its closing word and label included. -/
theorem ComesTo.abandon (hwithin : Extent.within closing 0 (ts.map Token.kind) = true)
    (hlast : last.kind = .keyword closing) (hlabel : Labelled ls rest) :
    ComesTo c (abandon closing) cs (ts ++ last :: ls) ds (some ()) ds rest := by
  have hskip : ComesTo c (skipExtent (Extent.definition closing 0)) cs ts ds (some ()) ds (last :: ls ++ rest) := by
    intro ns
    refine ⟨ns, congrArg (Prod.mk (some ())) ?_⟩
    show State.advance _ (Extent.definition closing 0 (ts ++ last :: (ls ++ rest))) = _
    rw [Extent.definition_of_within hwithin hlast, State.advance_length]
  obtain ⟨l, hl⟩ := ComesTo.label (c := c) hlabel
  exact hskip.bind (.cons (.accept hlast) ((hl _ _).then_ .value))

/-- A header fails, and with it the definition. -/
theorem ComesTo.header_failed (h : ComesTo c p cs us ds none ds' (ts ++ last :: ls ++ rest))
    (hwithin : Extent.within closing 0 (ts.map Token.kind) = true) (hlast : last.kind = .keyword closing)
    (hlabel : Labelled ls rest) : ComesTo c (header closing p) cs (us ++ (ts ++ last :: ls)) ds none ds' rest := by
  have hattempt : ComesTo c (attempt p) cs us ds (some none) ds' (ts ++ last :: ls ++ rest) := by
    intro ns
    obtain ⟨ns', hrun⟩ := h ns
    exact ⟨ns', by rw [attempt, hrun]⟩
  exact hattempt.bind ((ComesTo.abandon hwithin hlast hlabel).then_ fun ns => ⟨ns, rfl⟩)

/-- A closing word and its label are a place to read on. -/
theorem Labelled.endsAtBoundary (h : Labelled ls rest) (hlast : last.kind.isCloser = true) (cs : List Token) :
    endsAtBoundary (ls.reverse ++ last :: cs) = true := by
  cases h with
  | none _ =>
    have hends : endsAtBoundary [last] = true := by
      show (last.kind == .punct .semi || last.kind.isCloser) = true
      rw [hlast, Bool.or_true]
    exact endsAtBoundary_append hends cs
  | some hcolon hname => exact (if_pos ⟨hcolon, hname⟩).trans hlast

end Parser

/-! ## Types on lines of their own -/

/-- A text that is a type. -/
structure TypeText where
  /-- The text. -/
  text : String
  /-- The type. -/
  type : TypeExpr
  /-- The text is read as the type. -/
  read : parseOnly Parser.type .invalidExpression text = .ok type

namespace TypeText

variable (x : TypeText) (offset : Nat)

theorem lexical : LexicalError.ofText x.text = [] := (parseOnly_eq_ok.mp x.read).1

/-- The tokens of a text at an offset. -/
def tokensAt : List Token := (Token.significant x.text).map (Token.move (· + offset))

/-- A type is read wherever it stands, in front of anything but its parameters or bounds. -/
theorem comesTo {c : Setting} {cs rest : List Token} {ds : List Diagnostic} (hrest : Confined.Unmarked rest)
    (hgo : c.GoesOn ds) :
    ComesTo c Parser.type cs (x.tokensAt offset) ds (some (x.type.move (· + offset))) ds rest := by
  have hgoes : Goes Parser.type cs (x.tokensAt offset) (x.type.move (· + offset)) rest :=
    goes_of_parseOnly (fun _ _ => Confined.typeAlone) (Tracks.type (ℓ := .shift offset)) x.read cs rest hrest
  refine hgoes.comesTo hgo fun hc s => ?_
  have htype : Holds reporting (Grade.free (s.rest.length + 1) true) (fun _ => Mark.reading) [] Parser.type Parser.type
      fun _ => [] := closed_reporting.type
  exact htype.trait c s hc ⟨Nat.lt_succ_self _, trivial⟩

/-- A type has a first token, and no other one if that is a name of a value. -/
theorem starts : ∃ t us, Token.significant x.text = t :: us ∧ (t.kind = .ident → us = []) := by
  obtain ⟨t, us, hcons⟩ := exists_first_of_parseOnly (fun _ _ => Confined.typeAlone) x.read
  obtain ⟨-, s', hrun, hend, -⟩ := parseOnly_eq_ok.mp x.read
  refine ⟨t, us, hcons, fun hname => ?_⟩
  have hstart : State.ofText x.text = ⟨[], t :: us, [], []⟩ := congrArg (State.mk [] · [] []) hcons
  have hform : ∀ c, typeForm Parser.type c ⟨[], t :: us, [], []⟩ = (some (.var t.text), ⟨[t], us, [], []⟩) := by
    intro c
    rw [typeForm, bind_of_some peek_cons]
    simp only [hname]
    exact bind_of_some (expectText_of_kind hname)
  rw [hstart, type_eq, bind_of_some offset_cons, bind_of_some (hform _)] at hrun
  rw [← (Prod.mk.inj hrun).2] at hend
  exact hend

end TypeText

/-! ## Definitions without a name -/

/-- A definition of a module up to the place of its name. -/
inductive Nameless
  | rule
  | module
  | function (type : TypeText)
  | method (type : TypeText)
  | interface (type : TypeText)

namespace Nameless

/-- The word that begins the definition. -/
def word : Nameless → Keyword
  | .rule => .rule
  | .module => .module
  | .function _ => .function
  | .method _ => .method
  | .interface _ => .interface

/-- The word that closes it. -/
def closing : Nameless → Keyword
  | .rule => .endrule
  | .module => .endmodule
  | .function _ => .endfunction
  | .method _ => .endmethod
  | .interface _ => .endinterface

/-- The type in front of the name, on a line of its own. -/
def typeLines : Nameless → List String
  | .rule | .module => []
  | .function type | .method type | .interface type => [type.text]

/-- A token of the kind breaks the header where the name should stand: it is no name, and what stands before it is not
read otherwise. -/
def Breaks (x : Nameless) (k : Kind) : Prop :=
  (k ≠ .ident ∧ k ≠ .punct .hash ∧ k ≠ .punct .lbracket) ∧
    match x with
    | .method type => k = .int ∨ ∀ t ∈ (Token.significant type.text).head?, t.kind ≠ .ident
    | _ => True

/-- The report that a token stands in the place of a name. -/
def report (t : Token) : Diagnostic := ⟨.grammar (.expected (.kind .ident) (some t.kind)), t.span⟩

variable {c : Setting} {cs ts ls rest : List Token} {t first last : Token} {ds : List Diagnostic}

/-- A definition whose header breaks is skipped as a whole, with one report. -/
theorem comesTo (x : Nameless) (offset : Nat) (hgo : c.GoesOn ds) (ht : t.kind = .keyword x.word)
    (hbreaks : x.Breaks first.kind) (hwithin : Extent.within x.closing 0 ((first :: ts).map Token.kind) = true)
    (hlast : last.kind = .keyword x.closing) (hlabel : Labelled ls rest) :
    ComesTo c Grammar.full.moduleStmt cs (t :: (Token.onLines offset x.typeLines ++ (first :: ts ++ last :: ls))) ds none
      (report first :: ds) rest := by
  obtain ⟨⟨hfirst, hhash, hbracket⟩, hmethod⟩ := hbreaks
  let behind := first :: ts ++ last :: ls ++ rest
  have hunmarked : Confined.Unmarked behind :=
    ⟨fun t ht => by cases ht; exact hhash, fun t ht => by cases ht; exact hbracket⟩
  have hname : ∀ cs, ComesTo c (expectText .ident) cs [] ds none (report first :: ds) behind :=
    fun _ => ComesTo.failed (.expect_missing fun t ht => by cases ht; exact hfirst)
  have htype : ∀ (type : TypeText) cs, ComesTo c Parser.type cs (Token.onLines offset [type.text]) ds
      (some (type.type.move (· + offset))) ds behind := by
    intro type cs
    rw [Token.onLines_singleton]
    exact type.comesTo offset hunmarked hgo
  have hlacks : Lacks (.punct .attrOpen) (t :: (Token.onLines offset x.typeLines ++ (first :: ts ++ last :: ls)) ++ rest) :=
    .cons ht (by rintro ⟨⟩) _
  refine .skipAttributes hlacks (.peek ?_)
  rw [ht]
  cases x with
  | rule =>
    have hheader : ComesTo c Grammar.full.ruleHeader cs [t] ds none (report first :: ds) behind :=
      .cons .skip (hname _).failed
    have hrule : ComesTo c Grammar.full.ruleDef cs (t :: (first :: ts ++ last :: ls)) ds none (report first :: ds) rest :=
      .offset (hheader.header_failed hwithin hlast hlabel).failed
    exact hrule.failed
  | module =>
    have hheader : ComesTo c Grammar.moduleHeader cs [t] ds none (report first :: ds) behind :=
      .cons .skip (.look (a := none) (fun _ => bind_of_some (accept_of_head hunmarked.2)) (hname _).failed)
    have hmodule : ComesTo c Grammar.full.moduleDef cs (t :: (first :: ts ++ last :: ls)) ds none (report first :: ds) rest :=
      .offset (hheader.header_failed hwithin hlast hlabel).failed
    have hinner : ComesTo c Grammar.full.innerModule cs (t :: (first :: ts ++ last :: ls)) ds none (report first :: ds) rest :=
      fun ns => Grammar.full_moduleDef (c := c) (s := ⟨cs, _, ds, ns⟩) ⟨t, _, rfl⟩ ▸ hmodule ns
    exact hinner.failed
  | function type =>
    have hheader : ComesTo c Grammar.functionHeader cs (t :: Token.onLines offset [type.text]) ds none (report first :: ds)
        behind := .cons .skip ((htype type _).then_ (hname _).failed)
    have hfunction : ComesTo c Grammar.full.functionDef cs
        (t :: (Token.onLines offset [type.text] ++ (first :: ts ++ last :: ls))) ds none (report first :: ds) rest :=
      .offset (hheader.header_failed hwithin hlast hlabel).failed
    exact hfunction.failed
  | method type =>
    have hunnamed : ∀ ns, Grammar.atMethodName c ⟨t :: cs, Token.onLines offset [type.text] ++ behind, ds, ns⟩ =
        (some false, ⟨t :: cs, Token.onLines offset [type.text] ++ behind, ds, ns⟩) := by
      intro ns
      obtain ⟨u, us, hcons, halone⟩ := type.starts
      rw [Token.onLines_singleton, hcons]
      by_cases hident : u.kind = .ident
      · obtain rfl := halone hident
        have hint : first.kind = .int := hmethod.resolve_right fun h => h u (by rw [hcons]; rfl) hident
        have hafter : ∀ k : Kind, k ≠ .int → (some first.kind == some k) = false :=
          fun k hk => beq_false_of_ne (by rw [hint]; exact fun h => hk (Option.some.inj h).symm)
        show (some ((some u.kind == some .ident) && (some first.kind == some _ || some first.kind == some _ ||
          some first.kind == some _)), _) = _
        rw [hafter _ (by decide), hafter _ (by decide), hafter _ (by decide), Bool.or_self, Bool.or_self, Bool.and_false]
      · show (some ((some u.kind == some .ident) && _), _) = _
        rw [beq_false_of_ne (fun h => hident (Option.some.inj h)), Bool.false_and]
    have hresult : ComesTo c (some <$> Parser.type : Parser (Option TypeExpr)) (t :: cs) (Token.onLines offset [type.text]) ds
        (some (some (type.type.move (· + offset)))) ds behind := (htype type _).then_ .value
    have hheader : ComesTo c Grammar.full.methodHeader cs (t :: Token.onLines offset [type.text]) ds none
        (report first :: ds) behind :=
      .cons .skip (.look (a := false) hunnamed (hresult.then_ (hname _).failed))
    have hdef : ComesTo c Grammar.full.methodDef cs
        (t :: (Token.onLines offset [type.text] ++ (first :: ts ++ last :: ls))) ds none (report first :: ds) rest :=
      .offset (hheader.header_failed hwithin hlast hlabel).failed
    exact hdef.failed
  | interface type =>
    have hheader : ComesTo c Grammar.subinterfaceHeader cs (t :: Token.onLines offset [type.text]) ds none
        (report first :: ds) behind := .cons .skip ((htype type _).then_ (hname _).failed)
    have hinterface : ComesTo c Grammar.full.subinterfaceDef cs
        (t :: (Token.onLines offset [type.text] ++ (first :: ts ++ last :: ls))) ds none (report first :: ds) rest :=
      .offset (hheader.header_failed hwithin hlast hlabel).failed
    exact hinterface.failed

end Nameless

/-! ## Texts of modules -/

/-- A definition whose header breaks where the name should stand, on lines of its own: the word, the type, and the rest.
It ends with its closing word, and nothing in front of that ends it. -/
structure BrokenText where
  /-- What stands in front of the name. -/
  form : Nameless
  /-- The first line. -/
  opening : TokenLine [.keyword form.word]
  /-- What stands in the place of the name. -/
  first : Kind
  /-- What stands behind it. -/
  body : List Kind
  /-- The label behind the closing word. -/
  label : List Kind
  /-- The last line. -/
  rest : TokenLine (first :: (body ++ .keyword form.closing :: label))
  breaks : form.Breaks first
  within : Extent.within form.closing 0 (first :: body) = true
  labelled : label = [] ∨ label = [.punct .colon, .ident] ∨ label = [.punct .colon, .typeIdent]

namespace BrokenText

variable (x : BrokenText) (offset : Nat)

/-- The lines. -/
def texts : List String := x.opening.text :: (x.form.typeLines ++ [x.rest.text])

/-- The token in the place of the name. -/
def literal : Token := (Token.significant x.rest.text).head fun h => by
  have hkinds := x.rest.ofKinds
  rw [h] at hkinds
  cases hkinds

/-- What is reported, where the first line stands at the offset. -/
def reportAt : Diagnostic :=
  Nameless.report (x.literal.move (· + (offset + Text.byteSize x.opening.text.toList + 1 + linesSize x.form.typeLines)))

theorem lexical : ∀ text ∈ x.texts, LexicalError.ofText text = [] := by
  refine List.forall_mem_cons.mpr ⟨x.opening.lexical, List.forall_mem_append.mpr ⟨fun text htext => ?_,
    List.forall_mem_singleton.mpr x.rest.lexical⟩⟩
  cases hform : x.form with
  | rule | module =>
    rw [hform] at htext
    cases htext
  | function type | method type | interface type =>
    rw [hform] at htext
    rw [List.mem_singleton.mp htext]
    exact type.lexical

/-- The tokens of the lines. -/
theorem exists_tokens {rest : List Token} (hrest : Lacks (.punct .colon) rest) :
    ∃ t first ts last ls, Token.onLines offset x.texts = t ::
        (Token.onLines (offset + Text.byteSize x.opening.text.toList + 1) x.form.typeLines ++ (first :: ts ++ last :: ls)) ∧
      t.kind = .keyword x.form.word ∧ first.kind = x.first ∧ (first :: ts).map Token.kind = x.first :: x.body ∧
      last.kind = .keyword x.form.closing ∧ Labelled ls rest ∧ Nameless.report first = x.reportAt offset := by
  let typed := offset + Text.byteSize x.opening.text.toList + 1
  let place := Token.move (· + (typed + linesSize x.form.typeLines))
  obtain ⟨t, us, hopening, ht, hus⟩ := List.map_eq_cons_iff.mp x.opening.ofKinds
  obtain rfl := List.map_eq_nil_iff.mp hus
  obtain ⟨first, us, hrow, hfirst, hus⟩ := List.map_eq_cons_iff.mp x.rest.ofKinds
  obtain ⟨ts, us, rfl, hts, hus⟩ := List.map_eq_append_iff.mp hus
  obtain ⟨last, ls, rfl, hlast, hls⟩ := List.map_eq_cons_iff.mp hus
  have hkinds : ∀ ts : List Token, (ts.map place).map Token.kind = ts.map Token.kind :=
    fun ts => List.map_map.trans rfl
  refine ⟨t.move (· + offset), place first, ts.map place, place last, ls.map place, ?_, ht, hfirst, ?_, hlast, ?_, ?_⟩
  · have hall : (first :: (ts ++ last :: ls)).map place = place first :: ts.map place ++ place last :: ls.map place := by
      rw [List.map_cons, List.map_append, List.map_cons, List.cons_append]
    rw [texts, Token.onLines, hopening, Token.onLines_append, Token.onLines_singleton, hrow, ← hall]
    rfl
  · rw [List.map_cons, hkinds, hts]
    exact congrArg (· :: x.body) hfirst
  · exact .of_kinds ((hkinds ls).trans hls) x.labelled hrest
  · rw [reportAt, literal]
    simp only [hrow, List.head_cons]
    rfl

/-- The lines are skipped, with one report. -/
theorem loops {c : Setting} {cs rest : List Token} {ds : List Diagnostic} (hgo : c.GoesOn ds)
    (hrest : Lacks (.punct .colon) rest) :
    Loops c Grammar.full.moduleStmt cs (Token.onLines offset x.texts) ds [] (x.reportAt offset :: ds) rest := by
  obtain ⟨t, first, ts, last, ls, htokens, ht, hfirst, hkinds, hlast, hlabel, hreport⟩ := x.exists_tokens offset hrest
  have hskipped : ComesTo c Grammar.full.moduleStmt cs (Token.onLines offset x.texts) ds none (x.reportAt offset :: ds)
      rest := by
    rw [htokens, ← hreport]
    exact x.form.comesTo _ hgo ht (hfirst ▸ x.breaks) (hkinds ▸ x.within) hlast hlabel
  rw [htokens] at hskipped ⊢
  refine .failed hgo ?_ hskipped (.inl ?_)
  · rw [ht]
    cases x.form <;> rfl
  · have hcloser : last.kind.isCloser = true := by
      rw [hlast]
      cases x.form <;> rfl
    have hends := hlabel.endsAtBoundary hcloser ((t :: (Token.onLines (offset + Text.byteSize x.opening.text.toList + 1)
      x.form.typeLines ++ (first :: ts))).reverse ++ cs)
    rw [← hends]
    simp

end BrokenText

/-- What stands on lines of its own in a module: a member, or a definition with a broken header. -/
inductive ModuleText
  | member (x : MemberText)
  | broken (x : BrokenText)

namespace ModuleText

/-- The lines. -/
def texts : ModuleText → List String
  | .member x => [x.text]
  | .broken x => x.texts

/-- The members, the first line at `offset`. -/
def stmtsAt (offset : Nat) : List ModuleText → List ModuleStmt
  | [] => []
  | .member x :: xs => x.member.move (· + offset) :: stmtsAt (offset + linesSize [x.text]) xs
  | .broken x :: xs => stmtsAt (offset + linesSize x.texts) xs

/-- The reports, the first line at `offset`. -/
def reportsAt (offset : Nat) : List ModuleText → List Diagnostic
  | [] => []
  | .member x :: xs => reportsAt (offset + linesSize [x.text]) xs
  | .broken x :: xs => x.reportAt offset :: reportsAt (offset + linesSize x.texts) xs

theorem lexical (x : ModuleText) : ∀ text ∈ x.texts, LexicalError.ofText text = [] := by
  cases x with
  | member x => exact List.forall_mem_singleton.mpr x.lexical
  | broken x => exact x.lexical

theorem lacks_onLines (offset : Nat) (xs : List ModuleText) {rest : List Token} (hrest : Lacks (.punct .colon) rest) :
    Lacks (.punct .colon) (Token.onLines offset (xs.flatMap texts) ++ rest) := by
  induction xs generalizing offset with
  | nil => exact hrest
  | cons x xs ih =>
    rw [List.flatMap_cons, Token.onLines_append, List.append_assoc]
    cases x with
    | member x => exact MemberText.lacks_onLines offset [x] (ih _)
    | broken x =>
      obtain ⟨t, us, hopening, ht, -⟩ := List.map_eq_cons_iff.mp x.opening.ofKinds
      rw [texts, BrokenText.texts, Token.onLines, hopening]
      rintro t' ⟨⟩ hcolon
      cases ht.symm.trans hcolon

/-- The lines are read as the members, and each broken header is reported once. -/
theorem loops_onLines {c : Setting} (hc : c.recovery = .collectAll) (xs : List ModuleText) {rest : List Token}
    (hrest : Lacks (.punct .colon) rest) (offset : Nat) (cs : List Token) (ds : List Diagnostic) :
    Loops c Grammar.full.moduleStmt cs (Token.onLines offset (xs.flatMap texts)) ds (stmtsAt offset xs)
      ((reportsAt offset xs).reverse ++ ds) rest := by
  induction xs generalizing offset cs ds with
  | nil => exact .nil
  | cons x xs ih =>
    have hlater := lacks_onLines (offset + linesSize x.texts) xs hrest
    rw [List.flatMap_cons, Token.onLines_append]
    cases x with
    | member x => exact (MemberText.loops_onLines [x] hlater offset cs (.inl hc)).append (ih _ _ _)
    | broken x =>
      rw [reportsAt, List.reverse_cons, List.append_assoc]
      exact (x.loops offset (.inl hc) hlater).append (ih _ _ _)

end ModuleText

/-- The lines of a module: its header, what stands in it, and its closing word. -/
def ModuleText.lines (opening : TokenLine [.keyword .module, .ident, .punct .semi]) (xs : List ModuleText)
    (closing : TokenLine [.keyword .endmodule]) : List String :=
  opening.text :: (xs.flatMap texts ++ [closing.text])

end Bluespec
